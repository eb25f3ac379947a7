import Univdreams.Arch.BpfJump
import Univdreams.Lower.Function

/-!
# Structured control flow in lowered code

The blocks of `src/translate/compile/lower.rs` that carry their own jumps. A block is lowered from
the inside out: its bodies go into buffers of their own, at the addresses where they are expected to
stand, and the jumps that frame them are encoded once the lengths of the bodies are known. `Laid`
says what the result has to be: every part stands at its address, and every jump that is encoded
anew, decoded where it stands, goes to its target.

The addresses are computed with additions that saturate. A body that ends inside the address space
does not come near that; `lowerStmtsFrom_misplaced` shows what happens behind its end.
-/

namespace Univdreams.Lower

open Ast Arch List Run Bpf

/-! ## Lowering is compositional -/

/-- A base address moved by some bytes. -/
def advance (base : Option ℕ) (n : ℕ) : Option ℕ := base.map (· + n)

theorem advance_advance (base : Option ℕ) (m n : ℕ) :
    advance (advance base m) n = advance base (m + n) := by
  cases base <;> simp [advance, Nat.add_assoc]

theorem ipAt_advance (base : Option ℕ) (m n : ℕ) : ipAt (advance base m) n = ipAt base (m + n) := by
  cases base <;> simp [ipAt, advance, saturatingAdd, Nat.add_assoc]

theorem checkedIp_advance (missing : LowerError) (base : Option ℕ) (m n : ℕ) :
    checkedIp missing (advance base m) n = checkedIp missing base (m + n) := by
  cases base <;> simp [checkedIp, advance, checkedAdd, Nat.add_assoc]

theorem behind_advance (base : Option ℕ) (m n jump : ℕ) :
    behind (advance base m) n jump = behind base (m + n) jump := by
  cases base <;> simp [behind, advance, saturatingAdd, Nat.add_assoc]

variable {ε : Type}

/-- A result behind some bytes. -/
def after (out : Bytes) (x : Run ε Bytes) : Run ε Bytes := x.map (out ++ ·)

theorem after_eq_ok {out b : Bytes} {x : Run ε Bytes} :
    after out x = .ok b ↔ ∃ c, x = .ok c ∧ b = out ++ c := by
  cases x <;> simp [after, Except.map, eq_comm]

theorem after_bind {ε α : Type} (out : Bytes) (x : Run ε α) (f : α → Run ε Bytes) :
    after out (x >>= f) = x >>= fun a => after out (f a) := by
  cases x <;> rfl

theorem bind_after (out : Bytes) (x : Run ε Bytes) (f : Bytes → Run ε Bytes) :
    after out x >>= f = x >>= fun b => f (out ++ b) := by
  cases x <;> rfl

theorem after_after (out out' : Bytes) (x : Run ε Bytes) :
    after out (after out' x) = after (out ++ out') x := by
  cases x <;> simp [after, Except.map]

theorem after_pure (out b : Bytes) : after out (pure b : Run ε Bytes) = pure (out ++ b) := rfl

section Compositional

variable {checks : Bool} {arch : ArchCodec} {fnName : Text}
  (base : Option ℕ) (i : ℕ) (out out' : Bytes)

theorem lowerCondGoto_advance (target_addr : UInt64) (cmp_bytes : Bytes) (cond_code : UInt8)
    (wide : Bool) :
    lowerCondGoto arch fnName base i (out ++ out') target_addr cmp_bytes cond_code wide =
      after out (lowerCondGoto arch fnName (advance base out.length) i out' target_addr cmp_bytes
        cond_code wide) := by
  simp only [lowerCondGoto, after_bind, after_pure, checkedIp_advance, length_append, append_assoc]

theorem lowerDirectCall_advance (name : Text) (bytes : Bytes) (target : UInt64) :
    lowerDirectCall arch fnName base i (out ++ out') name bytes target =
      after out (lowerDirectCall arch fnName (advance base out.length) i out' name bytes
        target) := by
  simp only [lowerDirectCall]
  split_ifs <;>
    simp only [after_bind, after_pure, checkedIp_advance, length_append, append_assoc]

theorem lowerSwitch_advance (selector : Text) (cases : List UInt64) (default_addr : UInt64)
    (dispatch : Text) (table_va : UInt64) :
    lowerSwitch arch fnName base i (out ++ out') selector cases default_addr dispatch table_va =
      after out (lowerSwitch arch fnName (advance base out.length) i out' selector cases
        default_addr dispatch table_va) := by
  simp only [lowerSwitch, after_bind, after_pure, checkedIp_advance, length_append, append_assoc]

theorem lowerSkip_advance (label cond_text : Text) (bytes : Bytes) (skipped : ℕ) :
    lowerSkip checks arch fnName base i (out ++ out') label cond_text bytes skipped =
      lowerSkip checks arch fnName (advance base out.length) i out' label cond_text bytes
        skipped := by
  simp only [lowerSkip, ipAt_advance, length_append]

theorem assembleIfBlock_advance (cond_text : Text)
    (cond_bytes then_tail_jmp thenBuf elseBuf : Bytes) (else_body : List Stmt) :
    assembleIfBlock checks arch fnName base i (out ++ out') cond_text cond_bytes
        then_tail_jmp thenBuf elseBuf else_body =
      after out (assembleIfBlock checks arch fnName (advance base out.length) i out'
        cond_text cond_bytes then_tail_jmp thenBuf elseBuf else_body) := by
  simp only [assembleIfBlock, after_bind, after_pure, lowerSkip_advance, lowerThenTail,
    ipAt_advance, length_append, append_assoc]

theorem assembleWhileBlock_advance (cond_text : Text) (entry_bytes tail_bytes bodyBuf : Bytes) :
    assembleWhileBlock checks arch fnName base i (out ++ out') cond_text entry_bytes
        tail_bytes bodyBuf =
      after out (assembleWhileBlock checks arch fnName (advance base out.length) i out'
        cond_text entry_bytes tail_bytes bodyBuf) := by
  simp only [assembleWhileBlock, after_bind, after_pure, lowerSkip_advance, lowerBackEdge,
    ipAt_advance, length_append, append_assoc]

mutual

/-- A statement lowers behind some bytes to what it lowers to at the address behind them. -/
theorem lowerStmt_advance (base : Option ℕ) (i : ℕ) (out out' : Bytes) (s : Stmt) :
    lowerStmt checks arch fnName base i (out ++ out') s =
      after out (lowerStmt checks arch fnName (advance base out.length) i out' s) := by
  cases s with
  | asm text bytes =>
    simp only [lowerStmt, after_bind, after_pure, ipAt_advance, length_append, append_assoc]
  | switch => simp only [lowerStmt, lowerSwitch_advance]
  | goto =>
    simp only [lowerStmt, after_bind, after_pure, checkedIp_advance, length_append, append_assoc]
  | ifGoto | ifReturn => simp only [lowerStmt, lowerCondGoto_advance]
  | call _ _ _ target =>
    cases target with
    | none => simp only [lowerStmt, after_pure, append_assoc]
    | some target => simp only [lowerStmt, lowerDirectCall_advance]
  | ifBranch _ cond_bytes attrs pre_body then_body else_body =>
    cases else_body with
    | none =>
      simp only [lowerStmt, after_bind, after_pure, append_assoc, lowerStmtsFrom_advance,
        bind_after, advance_advance, length_append]
    | some else_body =>
      simp only [lowerStmt, after_bind, append_assoc, lowerStmtsFrom_advance, bind_after,
        after_after, advance_advance, length_append]
  | loop _ entry_jmp_bytes tail_bytes body =>
    simp only [lowerStmt, after_bind, after_pure, append_assoc, lowerStmtsFrom_advance, bind_after]
  | ifBlock cond_text cond_bytes then_body then_tail_jmp else_body =>
    simp only [lowerStmt, after_bind, behind_advance, length_append, assembleIfBlock_advance]
  | whileBlock cond_text entry_bytes tail_bytes body =>
    simp only [lowerStmt, after_bind, behind_advance, length_append, assembleWhileBlock_advance]
  | move | regArith | «return» => simp only [lowerStmt, after_bind, after_pure, append_assoc]
  | comment | label => rfl
  | _ => simp only [lowerStmt, after_pure, append_assoc]

/-- Statements lower behind some bytes to what they lower to at the address behind them. -/
theorem lowerStmtsFrom_advance (base : Option ℕ) (i : ℕ) (out out' : Bytes) : ∀ ss : List Stmt,
    lowerStmtsFrom checks arch fnName base i (out ++ out') ss =
      after out (lowerStmtsFrom checks arch fnName (advance base out.length) i out' ss)
  | [] => rfl
  | s :: ss => by
    simp only [lowerStmtsFrom, lowerStmt_advance base i out out' s, bind_after, after_bind]
    congr 1
    funext b
    exact lowerStmtsFrom_advance base (i + 1) out b ss

end

/-- Statements behind some bytes lower where they lower on their own at the address behind them. -/
theorem lowerStmtsFrom_eq_ok {a i : ℕ} {out b : Bytes} {ss : List Stmt} :
    lowerStmtsFrom checks arch fnName (some a) i out ss = .ok b ↔
      ∃ c, lowerStmtsFrom checks arch fnName (some (a + out.length)) i [] ss = .ok c ∧
        b = out ++ c := by
  have h : lowerStmtsFrom checks arch fnName (some a) i (out ++ []) ss =
      after out (lowerStmtsFrom checks arch fnName (some (a + out.length)) i [] ss) :=
    lowerStmtsFrom_advance (some a) i out [] ss
  rw [append_nil] at h
  rw [h, after_eq_ok]

/-! ### The numbers of statements -/

theorem pinnedOr_eq_ok {bytes r : Bytes} {x : Run LowerError Bytes} :
    pinnedOr bytes x = .ok r ↔ bytes = [] ∧ x = .ok r ∨ bytes ≠ [] ∧ bytes = r := by
  unfold pinnedOr
  split_ifs with h <;> simp [h]

theorem checkedIp_eq_ok {missing : LowerError} {base : Option ℕ} {n ip : ℕ} :
    checkedIp missing base n = .ok ip ↔ (base.bind fun a => checkedAdd a n) = some ip := by
  unfold checkedIp
  cases base.bind fun a => checkedAdd a n <;> simp [fail]

theorem assembleIfBlock_number {base : Option ℕ} {i : ℕ} {out b : Bytes} {cond_text : Text}
    {cond_bytes then_tail_jmp thenBuf elseBuf : Bytes} {else_body : List Stmt} (j : ℕ)
    (h : assembleIfBlock checks arch fnName base i out cond_text cond_bytes then_tail_jmp
      thenBuf elseBuf else_body = .ok b) :
    assembleIfBlock checks arch fnName base j out cond_text cond_bytes then_tail_jmp thenBuf
      elseBuf else_body = .ok b := by
  simp only [assembleIfBlock, lowerSkip, lowerThenTail, Run.bind_eq_ok, pinnedOr_eq_ok,
    liftArch_eq_ok] at h ⊢
  split_ifs at h ⊢ with helse
  · exact h
  · simp only [Run.bind_eq_ok, liftArch_eq_ok] at h ⊢
    exact h

/-- The number of a statement is in its errors only. -/
theorem lowerStmt_number {base : Option ℕ} {i : ℕ} {out b : Bytes} (j : ℕ) (s : Stmt)
    (h : lowerStmt checks arch fnName base i out s = .ok b) :
    lowerStmt checks arch fnName base j out s = .ok b := by
  cases s with
  | asm | move | regArith | «return» =>
    simp only [lowerStmt, bind_eq_ok, pinnedOr_eq_ok, liftArch_eq_ok] at h ⊢
    exact h
  | switch =>
    simp only [lowerStmt, lowerSwitch, bind_eq_ok, checkedIp_eq_ok, liftArch_eq_ok] at h ⊢
    exact h
  | goto =>
    simp only [lowerStmt, bind_eq_ok, checkedIp_eq_ok, liftArch_eq_ok] at h ⊢
    exact h
  | ifGoto | ifReturn =>
    simp only [lowerStmt, lowerCondGoto, bind_eq_ok, checkedIp_eq_ok, liftArch_eq_ok] at h ⊢
    exact h
  | call _ _ _ target =>
    cases target with
    | none => exact h
    | some target =>
      simp only [lowerStmt, lowerDirectCall] at h ⊢
      split_ifs at h ⊢
      all_goals
        first
          | exact h
          | simp only [bind_eq_ok, checkedIp_eq_ok, liftArch_eq_ok] at h ⊢
            exact h
  | ifBlock cond_text cond_bytes then_body then_tail_jmp else_body =>
    obtain ⟨thn, els, hthn, hels, h⟩ := bind₂_eq_ok.1 h
    exact bind_eq_ok.2 ⟨thn, hthn, bind_eq_ok.2 ⟨els, hels, assembleIfBlock_number j h⟩⟩
  | whileBlock cond_text entry_bytes tail_bytes body =>
    simp only [lowerStmt, assembleWhileBlock, lowerSkip, lowerBackEdge, bind_eq_ok,
      pinnedOr_eq_ok, liftArch_eq_ok] at h ⊢
    exact h
  | ifBranch _ _ _ _ _ else_body =>
    cases else_body with
    | none => exact h
    | some else_body => exact h
  | _ => exact h

/-- The numbers of statements are in their errors only. -/
theorem lowerStmtsFrom_number {base : Option ℕ} {i : ℕ} {out b : Bytes} {ss : List Stmt} (j : ℕ)
    (h : lowerStmtsFrom checks arch fnName base i out ss = .ok b) :
    lowerStmtsFrom checks arch fnName base j out ss = .ok b := by
  induction ss generalizing i j out with
  | nil => exact h
  | cons s ss ih =>
    obtain ⟨c, hc, h⟩ := bind_eq_ok.1 h
    exact bind_eq_ok.2 ⟨c, lowerStmt_number j s hc, ih (j + 1) h⟩

/-! ### Lists of statements -/

theorem lowerStmtsFrom_append (base : Option ℕ) (i : ℕ) (out : Bytes) (ss tt : List Stmt) :
    lowerStmtsFrom checks arch fnName base i out (ss ++ tt) =
      lowerStmtsFrom checks arch fnName base i out ss >>= fun out =>
        lowerStmtsFrom checks arch fnName base (i + ss.length) out tt := by
  induction ss generalizing i out with
  | nil => rfl
  | cons s ss ih =>
    simp only [List.cons_append, lowerStmtsFrom, ih, bind_assoc, List.length_cons]
    rw [show i + (ss.length + 1) = i + 1 + ss.length by omega]

/-- Two lists of statements lower to the bytes of the first, and of the second at the address behind
these. -/
theorem lowerStmtsFrom_append_advance (a i : ℕ) (ss tt : List Stmt) :
    lowerStmtsFrom checks arch fnName (some a) i [] (ss ++ tt) = do
      let b ← lowerStmtsFrom checks arch fnName (some a) i [] ss
      let c ← lowerStmtsFrom checks arch fnName (some (a + b.length)) (i + ss.length) [] tt
      return b ++ c := by
  rw [lowerStmtsFrom_append]
  congr 1
  funext b
  have h : lowerStmtsFrom checks arch fnName (some a) (i + ss.length) (b ++ []) tt =
      after b (lowerStmtsFrom checks arch fnName (some (a + b.length)) (i + ss.length) []
        tt) :=
    lowerStmtsFrom_advance (some a) (i + ss.length) b [] tt
  rw [append_nil] at h
  rw [h]
  cases lowerStmtsFrom checks arch fnName (some (a + b.length)) (i + ss.length) [] tt <;>
    rfl

end Compositional

/-! ## Layouts -/

/-- Whether a statement holds other statements. -/
def isNested : Stmt → Bool
  | .ifBranch .. => true
  | .loop .. => true
  | .ifBlock .. => true
  | .whileBlock .. => true
  | _ => false

/-- The jump of a block at `a`: the pinned bytes, or an instruction of its kind that goes to
`target` when decoded at `a`. -/
def JumpAt (variant : Bpf.BpfVariant) (kind : Bpf.InsnKind) (a : ℕ) (pinned bytes : Bytes)
    (target : ℕ) : Prop :=
  if pinned = [] then
    ∃ insn, Bpf.decode bytes a variant = .ok [insn] ∧ insn.kind = kind ∧
      Bpf.jumpTarget insn = target
  else bytes = pinned

/-- The jump behind the then-branch of an `ifBlock`. There is none if it is not pinned and has
nothing to jump over. -/
def TailAt (variant : Bpf.BpfVariant) (a : ℕ) (pinned bytes : Bytes) (else_body : List Stmt)
    (target : ℕ) : Prop :=
  if pinned = [] ∧ else_body = [] then bytes = []
  else JumpAt variant .jmp a pinned bytes target

section Laid

variable (checks : Bool) (variant : Bpf.BpfVariant) (fnName : Text)

mutual

/-- `StmtLaid a s b`: the bytes `b` are a layout of `s` at the address `a`, with every statement
inside laid out where it stands. -/
inductive StmtLaid : ℕ → Stmt → Bytes → Prop
  | plain {a i s b} : isNested s = false →
      lowerStmt checks (Bpf.bpfCodec checks variant) fnName (some a) i [] s = .ok b →
      StmtLaid a s b
  | ifBranch {a cond_text cond_bytes attrs pre_body then_body else_body head pre thn els} :
      head = (headBytesAttr attrs).getD [] → Laid (a + head.length) pre_body pre →
      Laid (a + (head ++ pre ++ cond_bytes).length) then_body thn →
      Laid (a + (head ++ pre ++ cond_bytes ++ thn).length) (else_body.getD []) els →
      StmtLaid a (.ifBranch cond_text cond_bytes attrs pre_body then_body else_body)
        (head ++ pre ++ cond_bytes ++ thn ++ els)
  | loop {a cond_text entry_jmp_bytes tail_bytes body entry b} :
      entry = entry_jmp_bytes.getD [] → Laid (a + entry.length) body b →
      StmtLaid a (.loop cond_text entry_jmp_bytes tail_bytes body) (entry ++ b ++ tail_bytes)
  | ifBlock {a cond_text cond_bytes then_body then_tail_jmp else_body cond thn tail els} :
      -- The condition jumps over the then-branch with its jump, and that over the else-branch.
      JumpAt variant .jmpCond a cond_bytes cond (a + (cond ++ thn ++ tail).length) →
      Laid (a + cond.length) then_body thn →
      TailAt variant (a + (cond ++ thn).length) then_tail_jmp tail else_body
        (a + (cond ++ thn ++ tail ++ els).length) →
      Laid (a + (cond ++ thn ++ tail).length) else_body els →
      StmtLaid a (.ifBlock cond_text cond_bytes then_body then_tail_jmp else_body)
        (cond ++ thn ++ tail ++ els)
  | whileBlock {a cond_text entry_bytes tail_bytes body entry b tail} :
      -- The entry jumps behind the loop, and the tail to the entry.
      JumpAt variant .jmpCond a entry_bytes entry (a + (entry ++ b ++ tail).length) →
      Laid (a + entry.length) body b →
      JumpAt variant .jmp (a + (entry ++ b).length) tail_bytes tail a →
      StmtLaid a (.whileBlock cond_text entry_bytes tail_bytes body) (entry ++ b ++ tail)

/-- `Laid a ss b`: the bytes `b` are a layout of the statements `ss` at the address `a`. -/
inductive Laid : ℕ → List Stmt → Bytes → Prop
  | nil {a} : Laid a [] []
  | cons {a s ss b c} : StmtLaid a s b → Laid (a + b.length) ss c → Laid a (s :: ss) (b ++ c)

end

end Laid

/-! ### The jumps of blocks -/

section Jumps

variable {checks : Bool} {variant : Bpf.BpfVariant} {fnName : Text} {a i : ℕ}

theorem ipAt_some {n : ℕ} (h : a + n < wordSize) : ipAt (some a) n = a + n := by
  show min (a + n) (wordSize - 1) = a + n
  omega

theorem behind_some {n jump : ℕ} (h : a + n + jump < wordSize) :
    behind (some a) n jump = some (a + n + jump) := by
  show some (min (min (a + n) (wordSize - 1) + jump) (wordSize - 1)) = _
  congr 1
  omega

theorem checkOverflow_of_lt {size n r : ℕ} (h : checkOverflow checks size n = some r)
    (hn : n < size) : r = n := by
  rw [checkOverflow, if_pos hn, Option.some.injEq] at h
  exact h.symm

/-- The conditional jump of a block. -/
theorem lowerSkip_spec {label cond_text : Text} {bytes cb : Bytes} {skipped : ℕ}
    (h : lowerSkip checks (bpfCodec checks variant) fnName (some a) i [] label
      cond_text bytes skipped = .ok cb) :
    cb.length = condLen bytes ∧ (a + cb.length + skipped < wordSize →
      JumpAt variant .jmpCond a bytes cb (a + cb.length + skipped)) := by
  unfold lowerSkip pinnedOr at h
  unfold JumpAt condLen
  by_cases hpin : bytes = []
  · rw [if_pos hpin] at h ⊢
    obtain ⟨target, htarget, h⟩ := bind_eq_ok.1 h
    have hjump := liftArch_eq_ok.1 h
    have hlen : cb.length = 8 := length_encodeCondJump hjump
    refine ⟨hlen, fun hlt => ?_⟩
    have hip : ipAt (some a) 0 = a := ipAt_some (by omega)
    rw [length_nil, hip, condLen, if_pos hpin] at htarget
    rw [length_nil, hip] at hjump
    have heq := checkOverflow_of_lt (orPanic_eq_ok.1 htarget) (by omega)
    obtain ⟨insn, hdecode, hkind, htarget⟩ :=
      decode_encodeCondJump hjump (show a < wordSize by omega) variant
    rw [if_pos hpin]
    refine ⟨insn, hdecode, hkind, ?_⟩
    rw [htarget, heq, hlen]
    exact Nat.mod_eq_of_lt (by omega)
  · rw [if_neg hpin] at h ⊢
    obtain rfl := Except.ok.inj h
    exact ⟨rfl, fun _ => by rw [if_neg hpin]⟩

/-- The jump over an else-branch. -/
theorem lowerThenTail_spec {out then_tail_jmp ttj : Bytes} {label : Text} {else_body : List Stmt}
    {elseLen : ℕ} (h : lowerThenTail checks (bpfCodec checks variant) fnName (some a) i out
      label then_tail_jmp else_body elseLen = .ok ttj) :
    ttj.length = thenTailJmpLen then_tail_jmp else_body ∧
      (a + out.length + ttj.length + elseLen < wordSize →
        TailAt variant (a + out.length) then_tail_jmp ttj else_body
          (a + out.length + ttj.length + elseLen)) := by
  unfold lowerThenTail pinnedOr at h
  unfold TailAt thenTailJmpLen JumpAt
  by_cases hpin : then_tail_jmp = []
  · rw [if_pos hpin] at h
    by_cases helse : else_body = []
    · rw [if_pos helse] at h
      obtain rfl := Except.ok.inj h
      simp [hpin, helse]
    rw [if_neg helse] at h
    obtain ⟨target, htarget, h⟩ := bind_eq_ok.1 h
    have hjump := liftArch_eq_ok.1 h
    have hlen : ttj.length = 8 := length_encodeJump hjump
    rw [if_neg (not_not.2 hpin), if_neg helse, if_neg (fun h => helse h.2), if_pos hpin]
    refine ⟨hlen, fun hlt => ?_⟩
    have hip : ipAt (some a) out.length = a + out.length := ipAt_some (by omega)
    rw [hip] at htarget hjump
    have hsize : (bpfCodec checks variant).encodedJumpSize (a + out.length)
        (a + out.length) .default = 8 := rfl
    rw [hsize] at htarget
    have heq := checkOverflow_of_lt (orPanic_eq_ok.1 htarget) (by omega)
    obtain ⟨insn, hdecode, hkind, htarget⟩ :=
      decode_encodeJump hjump (show a + out.length < wordSize by omega) variant
    refine ⟨insn, hdecode, hkind, ?_⟩
    rw [htarget, heq, hlen]
    exact Nat.mod_eq_of_lt (by omega)
  · rw [if_neg hpin] at h
    obtain rfl := Except.ok.inj h
    rw [if_pos hpin, if_neg (fun h => hpin h.1), if_neg hpin]
    exact ⟨rfl, fun _ => rfl⟩

/-- The jump back to the entry of a loop. -/
theorem lowerBackEdge_spec {out tail_bytes tb : Bytes} {label : Text} {entryIp : ℕ}
    (h : lowerBackEdge (bpfCodec checks variant) fnName (some a) i out label tail_bytes
      entryIp = .ok tb) :
    tb.length = tailBytesLen tail_bytes ∧ (a + out.length < wordSize → entryIp < wordSize →
      JumpAt variant .jmp (a + out.length) tail_bytes tb entryIp) := by
  unfold lowerBackEdge pinnedOr at h
  unfold JumpAt tailBytesLen
  by_cases hpin : tail_bytes = []
  · rw [if_pos hpin] at h
    have hjump := liftArch_eq_ok.1 h
    rw [if_pos hpin, if_pos hpin]
    refine ⟨length_encodeJump hjump, fun hlt hentry => ?_⟩
    rw [ipAt_some hlt] at hjump
    obtain ⟨insn, hdecode, hkind, htarget⟩ := decode_encodeJump hjump hlt variant
    exact ⟨insn, hdecode, hkind, htarget.trans (Nat.mod_eq_of_lt hentry)⟩
  rw [if_neg hpin] at h
  obtain rfl := Except.ok.inj h
  rw [if_neg hpin, if_neg hpin]
  exact ⟨rfl, fun _ _ => rfl⟩

end Jumps

/-! ### Lowering lays out -/

section Layout

variable {checks : Bool} {variant : Bpf.BpfVariant} {fnName : Text}

mutual

/-- What a statement lowers to is a layout of it. -/
theorem stmtLaid_lowerStmt {a i : ℕ} {b : Bytes} (s : Stmt)
    (h : lowerStmt checks (bpfCodec checks variant) fnName (some a) i [] s = .ok b)
    (hlt : a + b.length < wordSize) : StmtLaid checks variant fnName a s b := by
  cases s with
  | ifBranch cond_text cond_bytes attrs pre_body then_body else_body =>
    obtain ⟨out, hout, out', hout', hout''⟩ := lowerStmt_ifBranch_eq_ok.1 h
    rw [nil_append] at hout
    obtain ⟨pre, hpre, rfl⟩ := lowerStmtsFrom_eq_ok.1 hout
    obtain ⟨thn, hthn, rfl⟩ := lowerStmtsFrom_eq_ok.1 hout'
    obtain ⟨els, hels, rfl⟩ := lowerStmtsFrom_eq_ok.1 hout''
    have hlt' := hlt
    simp only [length_append] at hlt'
    refine .ifBranch rfl (laid_lowerStmtsFrom pre_body hpre (by omega))
      (laid_lowerStmtsFrom then_body hthn (by simp only [length_append]; omega)) ?_
    cases else_body with
    | none =>
      obtain rfl := Except.ok.inj hels
      exact .nil
    | some else_body =>
      exact laid_lowerStmtsFrom else_body hels (by simp only [length_append]; omega)
  | loop cond_text entry_jmp_bytes tail_bytes body =>
    simp only [lowerStmt, nil_append] at h
    obtain ⟨out, hout, rfl⟩ := steps₁_eq_ok.1 h
    obtain ⟨b, hbody, rfl⟩ := lowerStmtsFrom_eq_ok.1 hout
    simp only [length_append] at hlt
    exact .loop rfl (laid_lowerStmtsFrom body hbody (by omega))
  | ifBlock cond_text cond_bytes then_body then_tail_jmp else_body =>
    obtain ⟨thn, hthn, h⟩ := bind_eq_ok.1 h
    obtain ⟨els, cond, tail, hels, hcond, htail, rfl⟩ := steps₃_eq_ok.1 h
    obtain ⟨hcondLen, hcondAt⟩ := lowerSkip_spec hcond
    obtain ⟨htailLen, htailAt⟩ := lowerThenTail_spec htail
    rw [nil_append] at hlt ⊢
    simp only [nil_append, length_append] at hlt htailAt
    -- Both branches were lowered where they stand.
    rw [length_nil, ← hcondLen, behind_some (by omega)] at hthn hels
    rw [← htailLen, behind_some (by omega)] at hels
    rw [← htailLen] at hcondAt
    have hthn' := laid_lowerStmtsFrom then_body hthn (by omega)
    have hels' := laid_lowerStmtsFrom else_body hels (by omega)
    refine .ifBlock ?_ hthn' ?_ ?_
    · have := hcondAt (by omega)
      simpa only [length_append, Nat.add_assoc] using this
    · have := htailAt (by omega)
      simpa only [length_append, Nat.add_assoc] using this
    · simpa only [length_append, Nat.add_assoc, Nat.add_zero, Nat.zero_add] using hels'
  | whileBlock cond_text entry_bytes tail_bytes body =>
    obtain ⟨b, entry, tail, hb, hentry, htail, rfl⟩ := steps₃_eq_ok.1 h
    obtain ⟨hentryLen, hentryAt⟩ := lowerSkip_spec hentry
    obtain ⟨htailLen, htailAt⟩ := lowerBackEdge_spec htail
    rw [nil_append] at hlt ⊢
    simp only [nil_append, length_append] at hlt htailAt
    rw [length_nil, ← hentryLen, behind_some (by omega)] at hb
    rw [← htailLen] at hentryAt
    have hb' := laid_lowerStmtsFrom body hb (by omega)
    have hip : ipAt (some a) ([] : Bytes).length = a := ipAt_some (by rw [length_nil]; omega)
    rw [hip] at htailAt
    refine .whileBlock ?_ hb' ?_
    · have := hentryAt (by omega)
      simpa only [length_append, Nat.add_assoc] using this
    · have := htailAt (by omega) (by omega)
      simpa only [length_append, Nat.add_assoc] using this
  | _ => exact .plain rfl h

/-- What statements lower to is a layout of them. -/
theorem laid_lowerStmtsFrom {a i : ℕ} {b : Bytes} : ∀ ss : List Stmt,
    lowerStmtsFrom checks (bpfCodec checks variant) fnName (some a) i [] ss =
      .ok b → a + b.length < wordSize → Laid checks variant fnName a ss b
  | [], h, _ => by
    obtain rfl := Except.ok.inj h
    exact .nil
  | s :: ss, h, hlt => by
    obtain ⟨c, hc, h⟩ := bind_eq_ok.1 h
    obtain ⟨d, hd, rfl⟩ := lowerStmtsFrom_eq_ok.1 h
    rw [length_append] at hlt
    exact .cons (stmtLaid_lowerStmt s hc (by omega))
      (laid_lowerStmtsFrom ss hd (by omega))

end

/-- Structured lowering with the BPF codec places every jump: a list of statements lowers to the
bytes of its parts, each at its own address, the numbers of the statements matter for errors only,
and bytes that end inside the address space are a layout of the statements. -/
theorem lowerStmtsFrom_places_jumps (checks : Bool) (variant : Bpf.BpfVariant) (fnName : Text) :
    (∀ a i ss tt, lowerStmtsFrom checks (Bpf.bpfCodec checks variant) fnName
        (some a) i [] (ss ++ tt) = do
      let b ← lowerStmtsFrom checks (Bpf.bpfCodec checks variant) fnName (some a) i
        [] ss
      let c ← lowerStmtsFrom checks (Bpf.bpfCodec checks variant) fnName
        (some (a + b.length)) (i + ss.length) [] tt
      return b ++ c) ∧
    (∀ a i j ss b, lowerStmtsFrom checks (Bpf.bpfCodec checks variant) fnName
        (some a) i [] ss = .ok b →
      lowerStmtsFrom checks (Bpf.bpfCodec checks variant) fnName (some a) j [] ss =
        .ok b) ∧
    ∀ a i ss b, lowerStmtsFrom checks (Bpf.bpfCodec checks variant) fnName (some a)
        i [] ss = .ok b → a + b.length < wordSize → Laid checks variant fnName a ss b :=
  ⟨fun a i ss tt => lowerStmtsFrom_append_advance a i ss tt,
    fun _ _ j _ _ h => lowerStmtsFrom_number j h,
      fun _ _ ss _ h hlt => laid_lowerStmtsFrom ss h hlt⟩

/-- A conditional with both branches in a loop, with no byte of a jump pinned. -/
def nestedBlocks : List Stmt :=
  [.whileBlock "r1 != 0x0".toList [] []
    [.ifBlock "r2 == r3".toList [] [.asm "exit".toList []] [] [.asm "exit".toList []]]]

/-- The blocks of `nestedBlocks` are laid out. -/
theorem lowerStmtsFrom_places_jumps_nested : ∃ b,
    lowerStmtsFrom true (Bpf.bpfCodec true .linux) [] (some 0x1000) 0 [] nestedBlocks = .ok b ∧
      b.length = 48 ∧ Laid true .linux [] 0x1000 nestedBlocks b := by
  have h : ∃ b, lowerStmtsFrom true (Bpf.bpfCodec true .linux) [] (some 0x1000) 0 []
      nestedBlocks = .ok b ∧ b.length = 48 := ⟨_, rfl, rfl⟩
  obtain ⟨b, hb, hlen⟩ := h
  have hlt : 0x1000 + b.length < wordSize := by
    rw [hlen]
    decide
  exact ⟨b, hb, hlen, (lowerStmtsFrom_places_jumps true .linux []).2.2 _ _ _ _ hb hlt⟩

/-- A loop behind whose body the address space ends: the address of the jump back saturates, and it
goes to the body instead of the entry. -/
theorem lowerStmtsFrom_misplaced : ∃ b insn,
    lowerStmtsFrom true (Bpf.bpfCodec true .linux) [] (some (2 ^ 64 - 9)) 0 []
        [.whileBlock "r1 != 0x0".toList (Bpf.Slot.insn 0x15 1 0 2 0).bytes []
          [.asm "exit".toList (Bpf.Slot.insn 0x95 0 0 0 0).bytes]] = .ok b ∧
      b.length = 24 ∧
      Bpf.decode (b.drop 16) ((2 ^ 64 - 9 + 16) % wordSize) .linux = .ok [insn] ∧
      insn.kind = .jmp ∧ Bpf.jumpTarget insn = 2 ^ 64 - 1 ∧ Bpf.jumpTarget insn ≠ 2 ^ 64 - 9 := by
  refine ⟨_, _, rfl, rfl, rfl, rfl, ?_, ?_⟩
  · decide +kernel
  · decide +kernel

end Layout

end Univdreams.Lower
