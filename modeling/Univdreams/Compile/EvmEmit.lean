import Univdreams.Arch.Evm
import Univdreams.Compile.EvmExpr

/-!
# Stack code for edited EVM statements

Symbolic stack values, the translation of expressions into them, and the emitter that generates code
for them while it models the stack (`src/translate/compile/evm_emit.rs`). The modelled stack is a
list here with the top first; the source keeps a vector with the top last.

A function of the source that returns a `Result` is a `Run` here, whose panics are the indexings and
`expect`s of the source. The loop of `Emitter::materialize` takes a budget of rounds and answers
`none` when the budget ends before the loop does.
-/

namespace Univdreams.Compile

open Evm
open Text

/-- `Target`: a code location that the final layout resolves. -/
inductive Target where
  /-- An offset in the original contract. -/
  | orig (offset : ℕ)
  /-- A label made for generated code. -/
  | fresh (n : ℕ)
  /-- The end of the laid-out code. -/
  | codeEnd
deriving DecidableEq, Repr

/-- `Piece`: one unit of laid-out code. -/
inductive Piece where
  /-- Instruction bytes with no code references. -/
  | bytes (b : Bytes)
  /-- The definition of a label. -/
  | label (t : Target)
  /-- A push of a label's final offset in `width` bytes. -/
  | push (width : ℕ) (target : Target) (fixed : Bool)
  /-- A data region with its original offset and size. -/
  | data (orig origLen : ℕ) (b : Bytes)
  /-- The original instruction at this offset starts here. -/
  | mark (offset : ℕ)
deriving DecidableEq, Repr

/-- `Sym`: a symbolic stack value. -/
inductive Sym where
  /-- The item `k` deep when the statement started. -/
  | slot (k : ℕ)
  /-- A big-endian constant. -/
  | const (b : Bytes)
  /-- A code or data offset, pushed with the given width. -/
  | label (t : Target) (width : ℕ)
  /-- An opcode applied to operands in the order in which it pops them. -/
  | op (code : UInt8) (args : List Sym)
  /-- The hash of a mapping slot and a key. -/
  | mapping (slot key : Sym)
  /-- A result that cannot be recomputed. -/
  | unknown (id : ℕ)
deriving Repr

mutual

/-- Equality of symbolic values, decided by structure. -/
def Sym.decEq : (a b : Sym) → Decidable (a = b)
  | .slot i, .slot j => decidable_of_iff (i = j) (by simp)
  | .const i, .const j => decidable_of_iff (i = j) (by simp)
  | .label t w, .label u x => decidable_of_iff (t = u ∧ w = x) (by simp)
  | .unknown i, .unknown j => decidable_of_iff (i = j) (by simp)
  | .op c xs, .op d ys => match Sym.decEqs xs ys with
    | isTrue h => decidable_of_iff (c = d) (by simp [h])
    | isFalse h => isFalse (by simp [h])
  | .mapping a b, .mapping c d => match Sym.decEq a c, Sym.decEq b d with
    | isTrue h, isTrue k => isTrue (by rw [h, k])
    | isFalse h, _ => isFalse (by simp [h])
    | _, isFalse k => isFalse (by simp [k])
  | .slot _, .const _ | .slot _, .label .. | .slot _, .op .. | .slot _, .mapping ..
  | .slot _, .unknown _ | .const _, .slot _ | .const _, .label .. | .const _, .op ..
  | .const _, .mapping .. | .const _, .unknown _ | .label .., .slot _ | .label .., .const _
  | .label .., .op .. | .label .., .mapping .. | .label .., .unknown _ | .op .., .slot _
  | .op .., .const _ | .op .., .label .. | .op .., .mapping .. | .op .., .unknown _
  | .mapping .., .slot _ | .mapping .., .const _ | .mapping .., .label .. | .mapping .., .op ..
  | .mapping .., .unknown _ | .unknown _, .slot _ | .unknown _, .const _ | .unknown _, .label ..
  | .unknown _, .op .. | .unknown _, .mapping .. => isFalse (by simp)

/-- Equality of lists of symbolic values, decided by structure. -/
def Sym.decEqs : (xs ys : List Sym) → Decidable (xs = ys)
  | [], [] => isTrue rfl
  | x :: xs, y :: ys => match Sym.decEq x y, Sym.decEqs xs ys with
    | isTrue h, isTrue k => isTrue (by rw [h, k])
    | isFalse h, _ => isFalse (by simp [h])
    | _, isFalse k => isFalse (by simp [k])
  | [], _ :: _ | _ :: _, [] => isFalse (by simp)

end

instance : DecidableEq Sym := Sym.decEq

/-- `Opts`: generation options. -/
structure Opts where
  /-- `PUSH0` is available. -/
  push0 : Bool
  /-- `SHL` and `SHR` are available. -/
  shifts : Bool
  /-- Mapping slots hash the slot in front of the key. -/
  vyper : Bool
deriving DecidableEq, Repr

/-- `EmitError`: why code could not be generated. -/
structure EmitError where
  /-- The message. -/
  message : Text
deriving DecidableEq, Repr

/-- A computation that can fail with an `EmitError`. -/
abbrev Emit (α : Type) := Run EmitError α

/-- The local function `fail`. -/
def emitFail {α : Type} (message : String) : Emit α := fail ⟨message.toList⟩

/-! ## Expressions -/

/-- `Sym::konst`. -/
def Sym.konst (v : ℕ) : Sym := .const (stripZeros (toBe 8 v))

/-- `Sym::is_boolean`: `LT`, `GT`, `EQ`, `ISZERO`, `SLT` or `SGT`. -/
def Sym.isBoolean : Sym → Bool
  | .op code _ => [0x10, 0x11, 0x14, 0x15, 0x12, 0x13].contains code
  | _ => false

/-- The entries of `selector_map` in `src/signatures/evm.rs`: the known selectors with their
signatures. The map is built from a third-party table. -/
abbrev SelectorMap := List (UInt32 × Text)

/-- The name in front of the parameter list of a signature. -/
def signatureName (sig : Text) : Text := sig.takeWhile (· ≠ '(')

variable (m : SelectorMap) (name : Text)

/-- `function_by_selector`. -/
def SelectorMap.functionBySelector (sel : UInt32) : Option Text := m.lookup sel

/-- `selectors_named`, without the sorting, which does not change how many there are. -/
def SelectorMap.selectorsNamed : List UInt32 :=
  (m.filter fun e => signatureName e.2 = name).map Prod.fst

/-- `env_opcode`: the environment reads by name. -/
def envOpcode : Option UInt8 :=
  [("this".toList, 0x30), ("tx.origin".toList, 0x32), ("msg.sender".toList, 0x33),
    ("msg.value".toList, 0x34), ("msg.data.length".toList, 0x36), ("tx.gasprice".toList, 0x3a),
    ("block.coinbase".toList, 0x41), ("block.timestamp".toList, 0x42),
    ("block.number".toList, 0x43), ("block.prevrandao".toList, 0x44),
    ("block.difficulty".toList, 0x44), ("block.gaslimit".toList, 0x45),
    ("block.chainid".toList, 0x46), ("block.basefee".toList, 0x48),
    ("block.blobbasefee".toList, 0x4a)].lookup name

/-- Whether an opcode has effects, or depends on its place in the code. -/
def isEffectful (op : UInt8) : Bool :=
  (0xf0 ≤ op && op ≤ 0xff) || op == 0x58 || (0x5f ≤ op && op ≤ 0x9f)

/-- `callable_opcode`: the opcodes that an expression may call by name. -/
def callableOpcode : Option UInt8 :=
  let op := if name = "gasleft".toList then some 0x5a
    else if name = "keccak256".toList then some 0x20
    else opcodeByName name
  op.filter fun op => (opInfo op).pushes = 1 && (opInfo op).immLen = 0 && !isEffectful op

/-- `shl`. -/
def shl (value shift : Sym) (opts : Opts) : Sym :=
  if opts.shifts then .op 0x1b [shift, value]
  else .op 0x02 [value, .op 0x0a [.konst 2, shift]]

/-- `shr`. -/
def shr (value shift : Sym) (opts : Opts) : Sym :=
  if opts.shifts then .op 0x1c [shift, value]
  else .op 0x04 [value, .op 0x0a [.konst 2, shift]]

/-- `boolean`. -/
def boolean (x : Sym) : Sym :=
  if x.isBoolean then x else .op 0x15 [.op 0x15 [x]]

/-- `negate`: `!x`, which folds a double negation. An `ISZERO` without an operand panics. -/
def negate : Sym → Option Sym
  | .op 0x15 [] => none
  | .op 0x15 (a :: rest) =>
    if a.isBoolean then (a :: rest).getLast? else some (.op 0x15 [.op 0x15 (a :: rest)])
  | x => some (.op 0x15 [x])

/-- The error of a call with a wrong number of arguments. -/
def arityError (n got : ℕ) : EmitError :=
  ⟨"`".toList ++ name ++ "` takes ".toList ++ toDec n ++ " argument(s), got ".toList ++ toDec got⟩

/-- The closure `arity` of `lower_expr`. -/
def checkArity (n : ℕ) (args : List EExpr) : Emit Unit :=
  if args.length = n then .ok () else fail (arityError name n args.length)

/-- The binary operators of an expression. -/
def lowerBinary (opts : Opts) (op : BinOp) (a b : Sym) : Option Sym :=
  match op with
  | .add => some (.op 0x01 [a, b])
  | .sub => some (.op 0x03 [a, b])
  | .mul => some (.op 0x02 [a, b])
  | .div => some (.op 0x04 [a, b])
  | .mod => some (.op 0x06 [a, b])
  | .exp => some (.op 0x0a [a, b])
  | .and => some (.op 0x16 [a, b])
  | .or => some (.op 0x17 [a, b])
  | .xor => some (.op 0x18 [a, b])
  | .shl => some (shl a b opts)
  | .shr => some (shr a b opts)
  | .lt => some (.op 0x10 [a, b])
  | .gt => some (.op 0x11 [a, b])
  | .le => negate (.op 0x11 [a, b])
  | .ge => negate (.op 0x10 [a, b])
  | .eq => some (.op 0x14 [a, b])
  | .ne => negate (.op 0x14 [a, b])
  | .logicAnd => some (.op 0x16 [boolean a, boolean b])
  | .logicOr => some (boolean (.op 0x17 [a, b]))

/-- The word that a selector stands for, left-aligned. -/
def selectorWord (sel : UInt32) : Bytes := toBe 4 sel.toNat ++ List.replicate 28 0

/-- What names stand for: the identifiers that are not environment reads, and the known
selectors. -/
structure Scope where
  /-- Stack slots, parameters and storage variables. -/
  names : Text → Option Sym
  /-- The known selectors. -/
  selectors : SelectorMap

/-- The case `L_…` of a name in `lower_expr`: a label of the original code. -/
def labelName (n : Text) : Option ℕ := do
  fromStrRadix (2 ^ 64) 16 (← stripPrefix? n "L_".toList)

/-- The case `EExpr::Name` of `lower_expr`. -/
def lowerName (scope : Scope) (opts : Opts) (n : Text) : Emit Sym :=
  if n = "msg.sig".toList then .ok (shr (.op 0x35 [.konst 0]) (.konst 224) opts)
  else match envOpcode n with
  | some op => .ok (.op op [])
  | none => match stripSuffix? n ".selector".toList with
  | some fname => match scope.selectors.selectorsNamed fname with
    | [sel] => .ok (.const (selectorWord sel))
    | [] => fail ⟨"unknown function `".toList ++ fname ++ "` in `".toList ++ n ++ "`".toList⟩
    | _ => fail ⟨"`".toList ++ fname ++ "` is overloaded; write the selector".toList⟩
  | none => match scope.names n with
  | some s => .ok s
  | none => match labelName n with
  | some addr => .ok (.label (.orig addr) 2)
  | none => match scope.names ('&' :: n) with
  | some slot => .ok (.op 0x54 [slot])
  | none => fail ⟨"`".toList ++ n ++
      "` isn't on the stack here (only names live at this statement can be used)".toList⟩

/-- Whether the arguments are the one name `this`. -/
def isThis : List EExpr → Bool
  | [.name n] => n = "this".toList
  | _ => false

mutual

/-- `lower_place`: the storage slot that a place expression names. -/
def lowerPlace (scope : Scope) (opts : Opts) : EExpr → Emit (Option Sym)
  | .name n => .ok (scope.names ('&' :: n))
  | .index base key => do
    match ← lowerPlace scope opts base with
    | some slot => return some (.mapping slot (← lowerExpr scope opts key))
    | none => return none
  | _ => .ok none

/-- `lower_expr`: the symbolic value of an expression. -/
def lowerExpr (scope : Scope) (opts : Opts) : EExpr → Emit Sym
  | .num b => .ok (.const b)
  | .str s => fail ⟨"string \"".toList ++ s ++ "\" is not a value".toList⟩
  | .name n => lowerName scope opts n
  | .unary .ref x => do
    match ← lowerPlace scope opts x with
    | some slot => return slot
    | none => emitFail "`&` applies to storage variables (`&balanceOf[k]`)"
  | .unary .not x => do orPanic (negate (← lowerExpr scope opts x))
  | .unary .bitNot x => do return .op 0x19 [← lowerExpr scope opts x]
  | .unary .neg x => do return .op 0x03 [.konst 0, ← lowerExpr scope opts x]
  | .binary op a b => do
    let a ← lowerExpr scope opts a
    let b ← lowerExpr scope opts b
    orPanic (lowerBinary opts op a b)
  | .call name args =>
    if name = "address".toList then
      if isThis args then .ok (.op 0x30 [])
      else do
        checkArity name 1 args
        match ← lowerExprs scope opts args with
        | [x] => return .op 0x16 [x, .const (List.replicate 20 0xff)]
        | _ => .error .panic
    else if name = "bool".toList then do
      checkArity name 1 args
      match ← lowerExprs scope opts args with
      | [x] => return boolean x
      | _ => .error .panic
    else if name = "mapping".toList then do
      checkArity name 2 args
      match ← lowerExprs scope opts args with
      | [slot, key] => return .mapping slot key
      | _ => .error .panic
    else match callableOpcode name with
      | none => fail ⟨"`".toList ++ name ++ ("(…)` can't be compiled from text (internal calls, " ++
          "external calls and unknown functions keep their bytes)").toList⟩
      | some op => do
        checkArity name (opInfo op).pops args
        return .op op (← lowerExprs scope opts args)
  | .index base key => do
    match ← lowerPlace scope opts base with
    | some slot => return .op 0x54 [.mapping slot (← lowerExpr scope opts key)]
    | none => emitFail "only storage variables can be indexed; write `sload(mapping(slot, k))`"

/-- `lower_expr` over the arguments of a call, in order. -/
def lowerExprs (scope : Scope) (opts : Opts) : List EExpr → Emit (List Sym)
  | [] => .ok []
  | e :: es => do
    let x ← lowerExpr scope opts e
    return x :: (← lowerExprs scope opts es)

end

/-! ## The emitter -/

/-- `Emitter`: generated code with a model of the stack. -/
structure Emitter where
  /-- The code so far. -/
  pieces : List Piece
  /-- What every stack item holds, the top first. -/
  model : List Sym
  /-- The generation options. -/
  opts : Opts
  /-- The last label made for generated code. -/
  fresh : ℕ
  /-- The last id of an unknown value. -/
  lastUnknown : ℕ
deriving Repr

namespace Emitter

/-- `Emitter::new`: the stack starts as the slots below `depth`. -/
def new (opts : Opts) (fresh depth : ℕ) : Emitter :=
  { pieces := [], model := (List.range depth).map .slot, opts, fresh, lastUnknown := 2 ^ 63 - 1 }

/-- The pieces with a byte behind them. -/
def appendByte (pieces : List Piece) (b : UInt8) : List Piece :=
  match pieces.getLast? with
  | some (.bytes v) => pieces.dropLast ++ [.bytes (v ++ [b])]
  | _ => pieces ++ [.bytes [b]]

variable (em : Emitter)

/-- `Emitter::byte`. -/
def byte (b : UInt8) : Emitter := { em with pieces := appendByte em.pieces b }

/-- `Emitter::byte` for each of the bytes. -/
def bytes (bs : Bytes) : Emitter := bs.foldl byte em

/-- `Emitter::op`: an opcode without an immediate. A pushed result is `result`, or an unknown
value. -/
def op (opcode : UInt8) (result : Option Sym) : Emit Emitter :=
  let info := opInfo opcode
  if em.model.length < info.pops then emitFail "stack underflow in generated code"
  else
    let rest := em.model.drop info.pops
    let em := if info.pushes = 1 then
        match result with
        | some r => { em with model := r :: rest }
        | none => { em with
            model := .unknown (em.lastUnknown + 1) :: rest, lastUnknown := em.lastUnknown + 1 }
      else { em with model := rest }
    .ok (em.byte opcode)

/-- `Emitter::push_const`. -/
def pushConst (bytes : Bytes) : Emitter :=
  let b := stripZeros bytes
  let em := if b.isEmpty && em.opts.push0 then em.byte 0x5f
    else
      let b := if b.isEmpty then [0] else b
      (em.byte (0x5f + UInt8.ofNat b.length)).bytes b
  { em with model := .const b :: em.model }

/-- `Emitter::push_label`. -/
def pushLabel (target : Target) (width : ℕ) : Emitter :=
  { em with
    pieces := em.pieces ++ [.push width target false], model := .label target width :: em.model }

/-- `Emitter::find`: the depth of the nearest item equal to `s`. -/
def find (s : Sym) : Option ℕ := em.model.findIdx? (· = s)

/-- `Emitter::dup`. -/
def dup (depth : ℕ) : Emit Emitter :=
  if depth ≥ 16 then emitFail "value is more than 16 items deep in the stack"
  else do
    let v ← orPanic em.model[depth]?
    let em := em.byte (0x80 + UInt8.ofNat depth)
    return { em with model := v :: em.model }

/-- `Emitter::swap`. -/
def swap (n : ℕ) : Emit Emitter :=
  if ¬(1 ≤ n ∧ n ≤ 16) ∨ n ≥ em.model.length then
    emitFail "stack rearrangement reaches more than 16 items deep"
  else .ok ({ em with model := exchange n em.model }.byte (0x8f + UInt8.ofNat n))

/-- The code behind the operands of a mapping: both words into scratch memory, and their hash. -/
def hashScratch (result : Sym) : Emit Emitter := do
  let em ← (em.pushConst []).op 0x52 none
  let em ← (em.pushConst [0x20]).op 0x52 none
  ((em.pushConst [0x40]).pushConst []).op 0x20 (some result)

/-- The depth of a value that a `DUP` can reach. -/
def reachable (s : Sym) : Option ℕ := (em.find s).filter (· < 16)

mutual

/-- `Emitter::value`: push the value of `s`. -/
def value (s : Sym) (em : Emitter) : Emit Emitter :=
  match em.reachable s with
  | some d => em.dup d
  | none => match s with
    | .slot _ => emitFail
        "a value the statement needs is no longer on the stack (consumed or too deep)"
    | .unknown _ => emitFail ("the replaced code leaves a state-read result on the stack that " ++
        "the edit can't recompute")
    | .const b => .ok (em.pushConst b)
    | .label t w => .ok (em.pushLabel t w)
    | .op code args => do
      let em ← operands args em
      em.op code (some (.op code args))
    | .mapping slot key =>
      -- The half that goes to the higher address is pushed first.
      if em.opts.vyper then do
        let em ← value key em
        let em ← value slot em
        em.hashScratch (.mapping slot key)
      else do
        let em ← value slot em
        let em ← value key em
        em.hashScratch (.mapping slot key)

/-- The values of operands, the last of them first, so that the first ends on top. -/
def operands : List Sym → Emitter → Emit Emitter
  | [], em => .ok em
  | a :: rest, em => do
    let em ← operands rest em
    value a em

end

/-- The values of `gs`, the first of them first. -/
def values (gs : List Sym) : Emit Emitter := gs.foldlM (fun em g => value g em) em

/-- How many items at the bottom of the consumed region are in place already. -/
def keepCount : List Sym → List Sym → ℕ
  | a :: as, g :: gs => if a = g then keepCount as gs + 1 else 0
  | _, _ => 0

/-- The tags of a sorted region with `m` items, the top first. -/
def sortedTags (m : ℕ) : List (Option ℕ) := ((List.range m).map some).reverse

/-- The lowest slot of the region whose item is not the one that belongs there. -/
def misplacedSlot (tags : List (Option ℕ)) : Option ℕ :=
  (List.range tags.length).find? fun i => tags[tags.length - 1 - i]? ≠ some (some i)

/-- One round of the loop of `Emitter::materialize` on an unsorted region. The tags say, the top
first, which goal item each item is; one without a tag is garbage. -/
def sortStep (tags : List (Option ℕ)) : Emit (Emitter × List (Option ℕ)) :=
  let h := tags.length
  match tags with
  | [] => .error .panic
  | none :: rest => do
    let em ← em.op 0x50 none
    return (em, rest)
  | some j :: _ =>
    if j ≠ h - 1 then do
      let em ← em.swap (h - 1 - j)
      return (em, exchange (h - 1 - j) tags)
    else do
      let i ← orPanic (misplacedSlot tags)
      let em ← em.swap (h - 1 - i)
      return (em, exchange (h - 1 - i) tags)

/-- The loop of `Emitter::materialize`, for at most the given number of rounds. -/
def sortLoop (m : ℕ) : ℕ → Emitter → List (Option ℕ) → Option (Emit Emitter)
  | 0, em, tags => if tags = sortedTags m then some (.ok em) else none
  | n + 1, em, tags =>
    if tags = sortedTags m then some (.ok em)
    else match sortStep em tags with
      | .ok (em, tags) => sortLoop m n em tags
      | .error e => some (.error e)

/-- `Emitter::materialize`: replace the top `consumed` items with `goal`, the bottom first. It is
`none` when `budget` rounds do not suffice. -/
def materialize (budget : ℕ) (em : Emitter) (consumed : ℕ) (goal : List Sym) :
    Option (Emit Emitter) :=
  if em.model.length < consumed then
    some (emitFail "statement reaches deeper into the stack than modelled")
  else
    let keep := keepCount (em.model.take consumed).reverse goal
    let fresh := goal.drop keep
    match em.values fresh with
    | .error e => some (.error e)
    | .ok em =>
      sortLoop fresh.length budget em
        (sortedTags fresh.length ++ List.replicate (consumed - keep) none)

end Emitter

end Univdreams.Compile
