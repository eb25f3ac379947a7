import Univdreams.Ast
import Univdreams.Arch.Prologue
import Univdreams.Arch.X86

/-!
# Lowering a function to bytes

`lower_function_bytes_at` of `src/translate/compile/lower.rs`. The statements of a body are lowered
in order into one buffer. Most of them append bytes that are pinned in the tree; the others are
encoded by the codec for the address at which they stand, which is the address of the function plus
the length of the buffer.

The result depends on the address through the codec only. `lowerFunctionBytesAt_eq_of_pinned` says
so for the functions in which no statement is encoded anew.
-/

namespace Univdreams.Lower

open Ast Arch

/-- The errors of the lowering. Where the source renders the error of a codec, it is kept here. -/
inductive LowerError where
  | asmAssembleFailed (fn_name : Text) (stmt_index : ℕ) (text : Text) (source : ArchError)
  | sectionOverlap («section» : Text) (cursor item_addr : ℕ)
  | nestedSection («section» : Text)
  | unsupportedSwitchDispatch (fn_name : Text) (stmt_index : ℕ) (dispatch : Text)
  | switchNeedsAddress (fn_name : Text) (stmt_index : ℕ)
  | gotoNeedsAddress (fn_name : Text) (stmt_index : ℕ)
  | unknownJumpTableDispatch (dispatch : Text)
  | archEncode (fn_name : Text) (stmt_index : ℕ) (operation : Text) (source : ArchError)
  deriving DecidableEq, Repr

/-- A codec's result inside the lowering, its error wrapped. -/
def liftArch {α : Type} (wrap : ArchError → LowerError) : Run ArchError α → Run LowerError α
  | .ok a => .ok a
  | .error (.err e) => fail (wrap e)
  | .error .panic => .error .panic

theorem liftArch_eq_ok {α : Type} {wrap : ArchError → LowerError} {x : Run ArchError α} {r : α} :
    liftArch wrap x = .ok r ↔ x = .ok r := by
  unfold liftArch
  split <;> simp [fail]

/-! ## Statements -/

/-- The address of position `len` of a function at `base`, or `0` for a function without one. -/
def ipAt (base : Option ℕ) (len : ℕ) : ℕ := base.elim 0 fun a => saturatingAdd a len

/-- The address of position `len` of a function at `base`, which has to exist. -/
def checkedIp (missing : LowerError) (base : Option ℕ) (len : ℕ) : Run LowerError ℕ :=
  match base.bind fun a => checkedAdd a len with
  | none => fail missing
  | some ip => .ok ip

/-- The address behind `len` bytes at `base` and a jump of `jump` bytes. -/
def behind (base : Option ℕ) (len jump : ℕ) : Option ℕ :=
  base.map fun a => saturatingAdd (saturatingAdd a len) jump

/-- The first `head_bytes` attribute that is a list of bytes. -/
def headBytesAttr (attrs : List Attribute) : Option Bytes :=
  attrs.findSome? fun a =>
    if a.key ≠ "head_bytes".toList then none
    else match a.value with
      | .byteList bytes => some bytes
      | _ => none

/-- The number of bytes of the jump behind the then-branch of an `ifBlock`. -/
def thenTailJmpLen (then_tail_jmp : Bytes) (else_body : List Stmt) : ℕ :=
  if then_tail_jmp ≠ [] then then_tail_jmp.length else if else_body = [] then 0 else 8

/-- The number of bytes of the jump behind the body of a `whileBlock`. -/
def tailBytesLen (tail_bytes : Bytes) : ℕ := if tail_bytes = [] then 8 else tail_bytes.length

/-- The number of bytes of a conditional jump that is encoded when it is not pinned. -/
def condLen (bytes : Bytes) : ℕ := if bytes = [] then 8 else bytes.length

section Statements

variable (checks : Bool) (arch : ArchCodec) (fnName : Text)

/-- The bytes of an instruction by its text: when the text does not assemble, with its symbols
resolved. -/
def assembleText (text : Text) (ip : ℕ) : Run ArchError Bytes :=
  match arch.assembleOne text ip with
  | .ok bytes => .ok bytes
  | .error .panic => .error .panic
  | .error (.err firstErr) =>
    let desym := arch.desymbolize text ip
    if desym = text then fail firstErr else arch.assembleOne desym ip

/-- Bytes that are pinned, or those of the codec when none are. -/
def pinnedOr (bytes : Bytes) (encoded : Run LowerError Bytes) : Run LowerError Bytes :=
  if bytes = [] then encoded else .ok bytes

/-- The conditional jump of `if … goto` and `if … return`. -/
def lowerCondGoto (base : Option ℕ) (i : ℕ) (out : Bytes) (target_addr : UInt64)
    (cmp_bytes : Bytes) (cond_code : UInt8) (wide : Bool) : Run LowerError Bytes := do
  let out := out ++ cmp_bytes
  let ip ← checkedIp (.gotoNeedsAddress fnName i) base out.length
  let jcc ← liftArch (.archEncode fnName i "cond_jump_with_code".toList)
    (arch.encodeCondJumpWithCode cond_code ip target_addr.toNat (.ofWide wide))
  return out ++ jcc

/-- The call behind its pinned argument set-up. It is encoded unless the pinned bytes hold it
already, as for a tail call and for some codecs. -/
def lowerDirectCall (base : Option ℕ) (i : ℕ) (out : Bytes) (name : Text) (bytes : Bytes)
    (target : UInt64) : Run LowerError Bytes := do
  let out := out ++ bytes
  let isTail : Bool := "tail_".toList <+: name
  let needAppend := if isTail then bytes = [] else bytes = [] ∨ ¬arch.directCallBytesContainCall
  if needAppend then
    let ip ← checkedIp (.gotoNeedsAddress fnName i) base out.length
    let regen ← if isTail then
        liftArch (.archEncode fnName i "tail_jump".toList)
          (arch.encodeJump ip target.toNat .default)
      else
        liftArch (.archEncode fnName i "call".toList) (arch.encodeCall ip target.toNat .default)
    return out ++ regen
  else return out

/-- `switch`: the dispatch is encoded from its parts. -/
def lowerSwitch (base : Option ℕ) (i : ℕ) (out : Bytes) (selector : Text) (cases : List UInt64)
    (default_addr : UInt64) (dispatch : Text) (table_va : UInt64) : Run LowerError Bytes := do
  let cmpIp ← checkedIp (.switchNeedsAddress fnName i) base out.length
  let wrap : ArchError → LowerError
    | .unsupported _ _ => .unsupportedSwitchDispatch fnName i dispatch
    | other => .archEncode fnName i "switch_dispatch".toList other
  let bytes ← liftArch wrap (arch.encodeSwitchDispatch ⟨selector, cases.map UInt64.toNat,
    default_addr.toNat, dispatch, table_va.toNat, cmpIp⟩)
  return out ++ bytes

/-- The conditional jump at the head of a block, which skips as many bytes when its condition
fails. -/
def lowerSkip (base : Option ℕ) (i : ℕ) (out : Bytes) (label cond_text : Text) (bytes : Bytes)
    (skipped : ℕ) : Run LowerError Bytes :=
  pinnedOr bytes do
    let ip := ipAt base out.length
    let target ← orPanic (checkOverflow checks wordSize (ip + condLen bytes + skipped))
    liftArch (.asmAssembleFailed fnName i label) (arch.encodeCondJump cond_text ip target .default)

/-- The jump over the else-branch of an `ifBlock`, of which `elseLen` bytes were lowered. -/
def lowerThenTail (base : Option ℕ) (i : ℕ) (out : Bytes) (label : Text) (then_tail_jmp : Bytes)
    (else_body : List Stmt) (elseLen : ℕ) : Run LowerError Bytes :=
  pinnedOr then_tail_jmp (if else_body = [] then pure [] else do
    let ip := ipAt base out.length
    let jmpSize := arch.encodedJumpSize ip ip .default
    let target ← orPanic (checkOverflow checks wordSize (ip + jmpSize + elseLen))
    liftArch (.asmAssembleFailed fnName i (label ++ " tail".toList))
      (arch.encodeJump ip target .default))

/-- The jump back to the head of a `whileBlock`, which is at `entryIp`. -/
def lowerBackEdge (base : Option ℕ) (i : ℕ) (out : Bytes) (label : Text) (tail_bytes : Bytes)
    (entryIp : ℕ) : Run LowerError Bytes :=
  pinnedOr tail_bytes (liftArch (.asmAssembleFailed fnName i (label ++ " tail".toList))
    (arch.encodeJump (ipAt base out.length) entryIp .default))

/-- How errors name an `ifBlock`. -/
def ifBlockLabel (cond_text : Text) : Text := "ifblock(".toList ++ cond_text ++ ")".toList

/-- How errors name a `whileBlock`. -/
def whileBlockLabel (cond_text : Text) : Text := "whileblock(".toList ++ cond_text ++ ")".toList

/-- The bytes of an `ifBlock` behind `out`, from the lowered branches. -/
def assembleIfBlock (base : Option ℕ) (i : ℕ) (out : Bytes) (cond_text : Text)
    (cond_bytes then_tail_jmp thenBuf elseBuf : Bytes) (else_body : List Stmt) :
    Run LowerError Bytes := do
  let cb ← lowerSkip checks arch fnName base i out (ifBlockLabel cond_text) cond_text
    cond_bytes (thenBuf.length + thenTailJmpLen then_tail_jmp else_body)
  let out := out ++ cb ++ thenBuf
  let ttj ← lowerThenTail checks arch fnName base i out (ifBlockLabel cond_text)
    then_tail_jmp else_body elseBuf.length
  return out ++ ttj ++ elseBuf

/-- The bytes of a `whileBlock` behind `out`, from the lowered body. -/
def assembleWhileBlock (base : Option ℕ) (i : ℕ) (out : Bytes) (cond_text : Text)
    (entry_bytes tail_bytes bodyBuf : Bytes) : Run LowerError Bytes := do
  let eb ← lowerSkip checks arch fnName base i out (whileBlockLabel cond_text) cond_text
    entry_bytes (bodyBuf.length + tailBytesLen tail_bytes)
  let entryIp := ipAt base out.length
  let out := out ++ eb ++ bodyBuf
  let tb ← lowerBackEdge arch fnName base i out (whileBlockLabel cond_text) tail_bytes entryIp
  return out ++ tb

mutual

/-- Lower the statement with number `i` of its list behind `out`. -/
def lowerStmt (base : Option ℕ) (i : ℕ) (out : Bytes) : Stmt → Run LowerError Bytes
  | .asm text bytes => do
    let encoded ← pinnedOr bytes
      (liftArch (.asmAssembleFailed fnName i text) (assembleText arch text (ipAt base out.length)))
    return out ++ encoded
  | .switch selector cases default_addr dispatch table_va =>
    lowerSwitch arch fnName base i out selector cases default_addr dispatch table_va
  | .goto target_addr wide => do
    let ip ← checkedIp (.gotoNeedsAddress fnName i) base out.length
    let bytes ← liftArch (.archEncode fnName i "jump".toList)
      (arch.encodeJump ip target_addr.toNat (.ofWide wide))
    return out ++ bytes
  | .ifGoto _ target_addr cmp_bytes cond_code wide =>
    lowerCondGoto arch fnName base i out target_addr cmp_bytes cond_code wide
  | .ifReturn _ _ target_addr cmp_bytes cond_code wide =>
    lowerCondGoto arch fnName base i out target_addr cmp_bytes cond_code wide
  | .call name _ bytes (some target) => lowerDirectCall arch fnName base i out name bytes target
  | .call _ _ bytes none => return out ++ bytes
  | .move dst src bytes => do
    let encoded ← pinnedOr bytes
      (liftArch (.archEncode fnName i "move".toList) (arch.encodeMove dst src))
    return out ++ encoded
  | .regArith dst op src bytes => do
    let encoded ← pinnedOr bytes
      (liftArch (.archEncode fnName i "arith".toList) (arch.encodeArith dst op src))
    return out ++ encoded
  | .return value bytes => do
    let encoded ← pinnedOr bytes
      (liftArch (.archEncode fnName i "return".toList) (arch.encodeReturn (some value.toNat)))
    return out ++ encoded
  | .prologue _ _ bytes => return out ++ bytes
  | .epilogue _ _ bytes => return out ++ bytes
  | .save _ bytes => return out ++ bytes
  | .restore _ bytes => return out ++ bytes
  | .sehInstall bytes => return out ++ bytes
  | .sehRestore bytes => return out ++ bytes
  | .returnExpr _ bytes => return out ++ bytes
  | .argSpill _ bytes => return out ++ bytes
  | .localSet _ _ bytes => return out ++ bytes
  | .localArith _ _ _ bytes => return out ++ bytes
  | .localCompound _ _ _ bytes => return out ++ bytes
  | .inc16 _ _ bytes => return out ++ bytes
  | .label _ => return out
  | .comment _ => return out
  | .ifBranch _ cond_bytes attrs pre_body then_body else_body => do
    let out := out ++ (headBytesAttr attrs).getD []
    let out ← lowerStmtsFrom base 0 out pre_body
    let out ← lowerStmtsFrom base 0 (out ++ cond_bytes) then_body
    match else_body with
    | none => return out
    | some else_body => lowerStmtsFrom base 0 out else_body
  | .loop _ entry_jmp_bytes tail_bytes body => do
    let out ← lowerStmtsFrom base 0 (out ++ entry_jmp_bytes.getD []) body
    return out ++ tail_bytes
  | .ifBlock cond_text cond_bytes then_body then_tail_jmp else_body => do
    -- The branches are lowered on their own, at the addresses where they will stand.
    let thenStart := behind base out.length (condLen cond_bytes)
    let thenBuf ← lowerStmtsFrom thenStart 0 [] then_body
    let elseStart := behind thenStart thenBuf.length (thenTailJmpLen then_tail_jmp else_body)
    let elseBuf ← lowerStmtsFrom elseStart 0 [] else_body
    assembleIfBlock checks arch fnName base i out cond_text cond_bytes then_tail_jmp thenBuf
      elseBuf else_body
  | .whileBlock cond_text entry_bytes tail_bytes body => do
    let bodyStart := behind base out.length (condLen entry_bytes)
    let bodyBuf ← lowerStmtsFrom bodyStart 0 [] body
    assembleWhileBlock checks arch fnName base i out cond_text entry_bytes tail_bytes bodyBuf

/-- `lower_stmts_into`: lower statements behind `out`, the first of them with number `i`. -/
def lowerStmtsFrom (base : Option ℕ) (i : ℕ) (out : Bytes) : List Stmt → Run LowerError Bytes
  | [] => return out
  | s :: ss => do
    let out ← lowerStmt base i out s
    lowerStmtsFrom base (i + 1) out ss

end

end Statements

/-! ## Functions -/

mutual

/-- Whether a statement issues a call, for the profile of its function. -/
def stmtContainsCall : Stmt → Bool
  | .call name _ _ _ => ¬"tail_".toList <+: name
  | .ifBranch _ _ _ pre_body then_body else_body =>
    bodyContainsCall pre_body || bodyContainsCall then_body ||
      match else_body with
      | none => false
      | some else_body => bodyContainsCall else_body
  | .loop _ _ _ body => bodyContainsCall body
  | .asm text _ => "call ".toList <:+: text
  | _ => false

/-- `body_contains_call`. -/
def bodyContainsCall : List Stmt → Bool
  | [] => false
  | s :: ss => stmtContainsCall s || bodyContainsCall ss

end

variable (checks : Bool) (f : FnDecl)

/-- Whether a function has a flag. -/
def hasFlag (key : String) : Bool :=
  f.attrs.any fun a => a.key = key.toList ∧ a.value = .flag

/-- The names under which a callee-saved register is touched. -/
def regViews (reg : Text) : List Text :=
  if reg = "rbx".toList then ["rbx", "ebx", "bx", "bl", "bh"].map String.toList
  else if reg = "r12".toList then ["r12", "r12d", "r12w", "r12b"].map String.toList
  else if reg = "r13".toList then ["r13", "r13d", "r13w", "r13b"].map String.toList
  else if reg = "r14".toList then ["r14", "r14d", "r14w", "r14b"].map String.toList
  else if reg = "r15".toList then ["r15", "r15d", "r15w", "r15b"].map String.toList
  else if reg = "ebx".toList then ["ebx", "bx", "bl", "bh"].map String.toList
  else if reg = "esi".toList then ["esi", "si", "sil"].map String.toList
  else if reg = "edi".toList then ["edi", "di", "dil"].map String.toList
  else []

/-- Whether a register is touched under one of its names. -/
def regViewsIntersect (touched : List Text) (reg : Text) : Bool :=
  (regViews reg).any fun v => touched.contains v

/-- The offset of a stack local below the frame, from its name. -/
def varOffset (l : LocalDecl) : Option ℕ := do
  let rest ← Text.stripPrefix? l.name "var_".toList
  Text.fromStrRadix (2 ^ 32) 16 rest

/-- Whether the name of a stack local is that of an argument. -/
def isStackArg (l : LocalDecl) : Bool :=
  ((Text.stripPrefix? l.name "arg_".toList).bind (Text.fromStrRadix (2 ^ 32) 16)).isSome

/-- `profile_inputs_from_fn`: what the default prologue and epilogue of a function depend on. -/
def profileInputsFromFn : Option X86.ProfileInputs := do
  let abi := (f.attrs.findSome? fun a => match a.value with
    | .string s => if a.key = "abi".toList then some s else none
    | _ => none).getD []
  let bits := (f.attrs.findSome? fun a => match a.value with
    | .int n => if a.key = "bits".toList then some (n.toNat % 2 ^ 32) else none
    | _ => none).getD 32
  let touched := (f.locals.filter fun l => l.kind = .register).map LocalDecl.name
  let stack := f.locals.filter fun l => l.kind = .stack
  let maxNegOff := (stack.filterMap varOffset).foldl max 0
  let stackArgCount ← checkOverflow checks (2 ^ 32) (stack.filter isStackArg).length
  let savesOrder := if bits = 64 then ["rbx", "r12", "r13", "r14", "r15"] else ["ebx", "esi", "edi"]
  return {
    saves_used := (savesOrder.map String.toList).filter (regViewsIntersect touched)
    frame_required := !hasFlag f "noframe"
    sub_esp := maxNegOff
    cf_protect := hasFlag f "cf"
    stack_arg_count := stackArgCount
    abi := abi
    bits := bits
    frame_alt := bits = 64
    body_has_call := bodyContainsCall f.body }

/-- `codec_bits`. -/
def codecBits (bits : ℕ) : X86.CodecBits := if bits = 64 then .bits64 else .bits32

/-- `auto_prologue_bytes`. -/
def autoPrologueBytes : Option Bytes := do
  let profile ← profileInputsFromFn checks f
  let prologue ← X86.defaultPrologue checks profile
  X86.encodePrologue prologue (codecBits profile.bits)

/-- `auto_epilogue_bytes`. -/
def autoEpilogueBytes : Option Bytes := do
  let profile ← profileInputsFromFn checks f
  let epilogue ← X86.defaultEpilogue checks profile
  X86.encodeEpilogue epilogue (codecBits profile.bits)

/-- Whether the prologue of a function is generated. -/
def regenPro : Bool :=
  (match f.body.head? with
    | some (.prologue ..) => false
    | _ => true) && (hasFlag f "autogen_pro" || hasFlag f "autogen")

/-- Whether the epilogue of a function is generated. -/
def regenEpi : Bool :=
  (match f.body.getLast? with
    | some (.epilogue ..) => false
    | _ => true) && (hasFlag f "autogen_epi" || hasFlag f "autogen")

/-- The bytes that are generated in front of the body of a function. -/
def prologueOf : Run LowerError Bytes :=
  if regenPro f then orPanic (autoPrologueBytes checks f) else pure []

/-- The bytes that are generated behind the body of a function. -/
def epilogueOf : Run LowerError Bytes :=
  if regenEpi f then orPanic (autoEpilogueBytes checks f) else pure []

/-- `lower_function_bytes_at`: the bytes of a function at the address `ipBase`. -/
def lowerFunctionBytesAt (arch : ArchCodec) (f : FnDecl) (ipBase : Option ℕ) :
    Run LowerError Bytes := do
  let head ← prologueOf checks f
  let out ← lowerStmtsFrom checks arch f.name ipBase 0 head f.body
  let tail ← epilogueOf checks f
  return out ++ tail

/-! ## Functions that are pinned -/

section Pinned

variable (arch : ArchCodec)

mutual

/-- Whether no part of the statement is encoded for its address. -/
def stmtPinned : Stmt → Bool
  | .asm _ bytes => bytes ≠ []
  | .switch .. => false
  | .goto .. => false
  | .ifGoto .. => false
  | .ifReturn .. => false
  | .call name _ bytes direct_target => direct_target = none ∨
    bytes ≠ [] ∧ ("tail_".toList <+: name ∨ arch.directCallBytesContainCall)
  | .ifBranch _ _ _ pre_body then_body else_body =>
    stmtsPinned pre_body && stmtsPinned then_body &&
      match else_body with
      | none => true
      | some else_body => stmtsPinned else_body
  | .loop _ _ _ body => stmtsPinned body
  | .ifBlock _ cond_bytes then_body then_tail_jmp else_body =>
    cond_bytes ≠ [] && stmtsPinned then_body && (then_tail_jmp ≠ [] || else_body = []) &&
      stmtsPinned else_body
  | .whileBlock _ entry_bytes tail_bytes body =>
    entry_bytes ≠ [] && tail_bytes ≠ [] && stmtsPinned body
  | _ => true

/-- Whether no part of the statements is encoded for its address. -/
def stmtsPinned : List Stmt → Bool
  | [] => true
  | s :: ss => stmtPinned s && stmtsPinned ss

end

mutual

/-- No part of the statement depends on its address: what is not pinned assembles alike
everywhere. -/
def stmtPlaceless : Stmt → Prop
  | .asm text bytes => bytes ≠ [] ∨ ∀ ip ip', assembleText arch text ip = assembleText arch text ip'
  | .switch .. => False
  | .goto .. => False
  | .ifGoto .. => False
  | .ifReturn .. => False
  | .call name _ bytes direct_target => direct_target = none ∨
    bytes ≠ [] ∧ ("tail_".toList <+: name ∨ arch.directCallBytesContainCall)
  | .ifBranch _ _ _ pre_body then_body else_body =>
    stmtsPlaceless pre_body ∧ stmtsPlaceless then_body ∧ elsePlaceless else_body
  | .loop _ _ _ body => stmtsPlaceless body
  | .ifBlock _ cond_bytes then_body then_tail_jmp else_body =>
    cond_bytes ≠ [] ∧ stmtsPlaceless then_body ∧ (then_tail_jmp ≠ [] ∨ else_body = []) ∧
      stmtsPlaceless else_body
  | .whileBlock _ entry_bytes tail_bytes body =>
    entry_bytes ≠ [] ∧ tail_bytes ≠ [] ∧ stmtsPlaceless body
  | _ => True

/-- No part of an else-branch depends on its address. -/
def elsePlaceless : Option (List Stmt) → Prop
  | none => True
  | some else_body => stmtsPlaceless else_body

/-- No part of the statements depends on its address. -/
def stmtsPlaceless : List Stmt → Prop
  | [] => True
  | s :: ss => stmtPlaceless s ∧ stmtsPlaceless ss

end

end Pinned

variable {checks : Bool} {arch : ArchCodec} {fnName : Text}

/-- A branch lowers its bodies one behind the other, the last when there is one. -/
theorem lowerStmt_ifBranch_eq_ok {out o : Bytes} {pre_body then_body : List Stmt} :
    lowerStmt checks arch fnName base i out
        (.ifBranch cond_text cond_bytes attrs pre_body then_body else_body) = .ok o ↔
      ∃ mid, lowerStmtsFrom checks arch fnName base 0 (out ++ (headBytesAttr attrs).getD [])
          pre_body = .ok mid ∧
        ∃ last, lowerStmtsFrom checks arch fnName base 0 (mid ++ cond_bytes) then_body =
            .ok last ∧
          lowerStmtsFrom checks arch fnName base 0 last (else_body.getD []) = .ok o := by
  cases else_body <;> simp only [lowerStmt, Run.bind_eq_ok] <;> rfl

theorem pinnedOr_of_ne_nil {bytes : Bytes} (h : bytes ≠ []) (encoded : Run LowerError Bytes) :
    pinnedOr bytes encoded = .ok bytes := if_neg h

/-- The frame of a pinned `ifBlock` does not depend on its address. -/
theorem assembleIfBlock_eq_of_pinned {cond_bytes then_tail_jmp : Bytes} {else_body : List Stmt}
    (hcond : cond_bytes ≠ []) (htail : then_tail_jmp ≠ [] ∨ else_body = [])
    (base base' : Option ℕ) (i : ℕ) (out : Bytes) (cond_text : Text) (thenBuf elseBuf : Bytes) :
    assembleIfBlock checks arch fnName base i out cond_text cond_bytes then_tail_jmp thenBuf
        elseBuf else_body =
      assembleIfBlock checks arch fnName base' i out cond_text cond_bytes then_tail_jmp
        thenBuf elseBuf else_body := by
  simp only [assembleIfBlock, lowerSkip, lowerThenTail, pinnedOr_of_ne_nil hcond]
  rcases htail with htail | htail
  · simp only [pinnedOr_of_ne_nil htail]
  · simp only [htail, if_true]

mutual

/-- A statement without a place lowers to the same bytes at every address. -/
theorem lowerStmt_eq_of_placeless (base base' : Option ℕ) (i : ℕ) (out : Bytes) (s : Stmt)
    (h : stmtPlaceless arch s) :
    lowerStmt checks arch fnName base i out s =
      lowerStmt checks arch fnName base' i out s := by
  cases s with
  | asm text bytes =>
    rcases h with hne | hsame
    · simp only [lowerStmt, pinnedOr_of_ne_nil hne]
    · simp only [lowerStmt]
      rw [hsame (ipAt base out.length) (ipAt base' out.length)]
  | switch | goto | ifGoto | ifReturn => exact h.elim
  | call name _ bytes target =>
    cases target with
    | none => rfl
    | some target =>
      obtain hnone | ⟨hne, hcall⟩ := h
      · cases hnone
      simp only [lowerStmt, lowerDirectCall]
      rw [if_neg (by split_ifs with htail <;> simp_all),
        if_neg (by split_ifs with htail <;> simp_all)]
  | ifBranch _ cond_bytes attrs pre_body then_body else_body =>
    obtain ⟨hpre, hthen, helse⟩ := h
    have epre := fun out => lowerStmtsFrom_eq_of_placeless base base' 0 out pre_body hpre
    have ethen := fun out => lowerStmtsFrom_eq_of_placeless base base' 0 out then_body hthen
    cases else_body with
    | none => simp only [lowerStmt, epre, ethen]
    | some else_body =>
      have eelse := fun out => lowerStmtsFrom_eq_of_placeless base base' 0 out else_body helse
      simp only [lowerStmt, epre, ethen, eelse]
  | loop _ entry_jmp_bytes tail_bytes body =>
    simp only [lowerStmt]
    rw [lowerStmtsFrom_eq_of_placeless base base' 0 _ body h]
  | ifBlock cond_text cond_bytes then_body then_tail_jmp else_body =>
    obtain ⟨hcond, hthen, htail, helse⟩ := h
    -- Each branch starts at an address of its own, which does not matter to it either.
    have ethen := fun b => lowerStmtsFrom_eq_of_placeless b none 0 [] then_body hthen
    have eelse := fun b => lowerStmtsFrom_eq_of_placeless b none 0 [] else_body helse
    simp only [lowerStmt]
    rw [ethen, ethen (behind base' _ _)]
    congr 1
    funext thenBuf
    rw [eelse, eelse (behind (behind base' _ _) _ _)]
    congr 1
    funext elseBuf
    exact assembleIfBlock_eq_of_pinned hcond htail base base' i out cond_text thenBuf elseBuf
  | whileBlock cond_text entry_bytes tail_bytes body =>
    obtain ⟨hentry, htail, hbody⟩ := h
    have ebody := fun b => lowerStmtsFrom_eq_of_placeless b none 0 [] body hbody
    simp only [lowerStmt]
    rw [ebody, ebody (behind base' _ _)]
    congr 1
    funext bodyBuf
    simp only [assembleWhileBlock, lowerSkip, lowerBackEdge, pinnedOr_of_ne_nil hentry,
      pinnedOr_of_ne_nil htail]
  | _ => rfl

/-- Statements without a place lower to the same bytes at every address. -/
theorem lowerStmtsFrom_eq_of_placeless (base base' : Option ℕ) (i : ℕ) (out : Bytes) :
    ∀ ss : List Stmt, stmtsPlaceless arch ss →
      lowerStmtsFrom checks arch fnName base i out ss =
        lowerStmtsFrom checks arch fnName base' i out ss
  | [], _ => rfl
  | s :: ss, h => by
    obtain ⟨hs, hss⟩ := h
    simp only [lowerStmtsFrom]
    rw [lowerStmt_eq_of_placeless base base' i out s hs]
    congr 1
    funext out'
    exact lowerStmtsFrom_eq_of_placeless base base' (i + 1) out' ss hss

end

/-- A function whose statements have no place lowers to the same bytes at every address. -/
theorem lowerFunctionBytesAt_eq_of_placeless {f : FnDecl} (h : stmtsPlaceless arch f.body)
    (ip ip' : Option ℕ) : lowerFunctionBytesAt checks arch f ip =
      lowerFunctionBytesAt checks arch f ip' := by
  have ebody : ∀ out, lowerStmtsFrom checks arch f.name ip 0 out f.body =
      lowerStmtsFrom checks arch f.name ip' 0 out f.body :=
    fun out => lowerStmtsFrom_eq_of_placeless ip ip' 0 out f.body h
  simp only [lowerFunctionBytesAt, ebody]

mutual

/-- A pinned statement has no place. -/
theorem stmtPlaceless_of_pinned (s : Stmt) (h : stmtPinned arch s = true) :
    stmtPlaceless arch s := by
  cases s with
  | asm text bytes => exact .inl (by simpa [stmtPinned] using h)
  | switch | goto | ifGoto | ifReturn => simp [stmtPinned] at h
  | call name _ bytes target => simpa [stmtPinned, stmtPlaceless] using h
  | ifBranch _ _ _ pre_body then_body else_body =>
    cases else_body with
    | none =>
      simp only [stmtPinned, Bool.and_eq_true] at h
      exact ⟨stmtsPlaceless_of_pinned pre_body h.1.1, stmtsPlaceless_of_pinned then_body h.1.2,
        trivial⟩
    | some else_body =>
      simp only [stmtPinned, Bool.and_eq_true] at h
      exact ⟨stmtsPlaceless_of_pinned pre_body h.1.1, stmtsPlaceless_of_pinned then_body h.1.2,
        stmtsPlaceless_of_pinned else_body h.2⟩
  | loop _ _ _ body => exact stmtsPlaceless_of_pinned body (by simpa [stmtPinned] using h)
  | ifBlock _ _ then_body _ else_body =>
    simp only [stmtPinned, Bool.and_eq_true, Bool.or_eq_true, decide_eq_true_eq] at h
    obtain ⟨⟨⟨hcond, hthen⟩, htail⟩, helse⟩ := h
    exact ⟨hcond, stmtsPlaceless_of_pinned then_body hthen, htail,
      stmtsPlaceless_of_pinned else_body helse⟩
  | whileBlock _ _ _ body =>
    simp only [stmtPinned, Bool.and_eq_true, decide_eq_true_eq] at h
    exact ⟨h.1.1, h.1.2, stmtsPlaceless_of_pinned body h.2⟩
  | _ => exact trivial

/-- Pinned statements have no place. -/
theorem stmtsPlaceless_of_pinned : ∀ ss : List Stmt, stmtsPinned arch ss = true →
    stmtsPlaceless arch ss
  | [], _ => trivial
  | s :: ss, h => by
    obtain ⟨hs, hss⟩ : stmtPinned arch s = true ∧ stmtsPinned arch ss = true := by
      simpa [stmtsPinned] using h
    exact ⟨stmtPlaceless_of_pinned s hs, stmtsPlaceless_of_pinned ss hss⟩

end

/-- A function whose statements are pinned lowers to the same bytes at every address. -/
theorem lowerFunctionBytesAt_eq_of_pinned {f : FnDecl} (h : stmtsPinned arch f.body = true)
    (ip ip' : Option ℕ) : lowerFunctionBytesAt checks arch f ip =
      lowerFunctionBytesAt checks arch f ip' :=
  lowerFunctionBytesAt_eq_of_placeless (stmtsPlaceless_of_pinned f.body h) ip ip'

/-- A platform with an encoder that knows `nop` and `ret`. -/
def barePlatform : X86.Platform where
  checks := true
  lower c := [c.toLower]
  encode _ insn _ :=
    if insn.code = .nopd then .ok [0x90] else if insn.code = .retnq then .ok [0xc3] else .error []
  encode_rip _ _ _ _ _ := rfl

/-- The 64-bit x86 codec with this encoder. -/
def bareX86 : ArchCodec := X86.x86Codec barePlatform .bits64

/-- A function with a pinned block, a tail call and a return. -/
def pinnedBlock : FnDecl :=
  ⟨none, "f".toList, [], none, [],
    [.asm "dec eax".toList [0xff, 0xc8],
      .whileBlock "eax == 0".toList [0x74, 0x04] [0xeb, 0xfa]
        [.asm "nop".toList [0x90], .asm "nop".toList [0x90]],
      .call "tail_g".toList [] [0xe9, 0xf3, 0x0f, 0, 0] (some 0x2000)]⟩

/-- The bytes of the function at `0x1000` are those it has without an address. -/
theorem lowerFunctionBytesAt_pinnedBlock : stmtsPinned bareX86 pinnedBlock.body = true ∧
    lowerFunctionBytesAt true bareX86 pinnedBlock none =
      .ok [0xff, 0xc8, 0x74, 0x04, 0x90, 0x90, 0xeb, 0xfa, 0xe9, 0xf3, 0x0f, 0, 0] ∧
    lowerFunctionBytesAt true bareX86 pinnedBlock (some 0x1000) =
      lowerFunctionBytesAt true bareX86 pinnedBlock none :=
  ⟨rfl, rfl, lowerFunctionBytesAt_eq_of_pinned rfl (some 0x1000) none⟩

end Univdreams.Lower
