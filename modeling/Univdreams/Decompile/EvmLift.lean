import Univdreams.Compile.EvmEmit

/-!
# Lifted EVM expressions and their text

The expressions that the lifter builds while it executes a block symbolically, the idioms it
rewrites, and the text it prints (`src/translate/decompile/evm_lift.rs`). In the source an operation
is a name with a list of operands. Here the pure operations with one and with two operands have
constructors of their own, so that each of them has the operands it needs, and `Expr.other` is every
other operation. The operands stand in the order in which the opcode pops them.

`simplify` simplifies the operands first, and one of its rules simplifies its own result again. Its
recursion is bounded by the size of the expression, which no rule increases.
-/

namespace Univdreams.Decompile

open Text
open Compile (SelectorMap signatureName)

/-- The pure operations with one operand. -/
inductive UnaryOp where
  | iszero | not | address | bool
deriving DecidableEq, Repr

/-- The pure operations with two operands. -/
inductive BinaryOp where
  | add | sub | mul | div | mod | exp | and | or | xor | shl | shr | lt | gt | eq | ne | le | ge
deriving DecidableEq, Repr

/-- `Expr`: a lifted expression. -/
inductive Expr where
  /-- The big-endian bytes of a pushed constant. -/
  | const (b : Bytes)
  /-- A variable. -/
  | var (name : Text)
  | un (op : UnaryOp) (x : Expr)
  | bin (op : BinaryOp) (x y : Expr)
  /-- Any other operation: reads, calls, mappings, environment reads. -/
  | other (name : Text) (args : List Expr)
deriving Repr

namespace Expr

mutual

/-- `Expr::nodes`. -/
def nodes : Expr → ℕ
  | .const _ | .var _ => 1
  | .un _ x => 1 + nodes x
  | .bin _ x y => 1 + (nodes x + nodes y)
  | .other _ args => 1 + nodesList args

/-- The sum of the sizes of a list of operands. -/
def nodesList : List Expr → ℕ
  | [] => 0
  | x :: xs => nodes x + nodesList xs

end

/-- `Expr::const_value`: the value of a constant of at most eight significant bytes. -/
def constValue : Expr → Option ℕ
  | .const b => if (stripZeros b).length ≤ 8 then some (ofBe (stripZeros b)) else none
  | _ => none

/-- `Expr::is_const_bytes`: a constant whose significant bytes satisfy `p`. -/
def isConstBytes (p : Bytes → Bool) : Expr → Bool
  | .const b => p (stripZeros b)
  | _ => false

/-- Whether the expression is a constant. -/
def isConst : Expr → Bool
  | .const _ => true
  | _ => false

end Expr

/-! ## Idioms -/

/-- `inverse_cmp`. -/
def inverseCmp : BinaryOp → Option BinaryOp
  | .eq => some .ne
  | .ne => some .eq
  | .lt => some .ge
  | .ge => some .lt
  | .gt => some .le
  | .le => some .gt
  | _ => none

/-- `mirror_cmp`: the same comparison with its operands swapped. -/
def mirrorCmp : BinaryOp → Option BinaryOp
  | .eq => some .eq
  | .ne => some .ne
  | .lt => some .gt
  | .gt => some .lt
  | .le => some .ge
  | .ge => some .le
  | _ => none

/-- `is_boolean`: operations that give zero or one. -/
def isBoolean : Expr → Bool
  | .un .bool _ | .un .iszero _ => true
  | .bin op _ _ => (inverseCmp op).isSome
  | .other name _ => name = "slt".toList || name = "sgt".toList
  | _ => false

/-- `a.checked_pow(b)` on 128-bit numbers. -/
def checkedPow (a b : ℕ) : Option ℕ :=
  -- The first test only keeps the power small enough to compute.
  if (a ≤ 1 ∨ b < 128) ∧ a ^ b < 2 ^ 128 then some (a ^ b) else none

variable (op : BinaryOp)

/-- The arithmetic of `fold` on two numbers below `2^64`. -/
def foldNumbers (a b : ℕ) : Option ℕ :=
  match op with
  | .add => some (a + b)
  | .sub => if b ≤ a then some (a - b) else none
  | .mul => some (a * b)
  | .div => if b = 0 then none else some (a / b)
  | .mod => if b = 0 then none else some (a % b)
  | .and => some (a &&& b)
  | .or => some (a ||| b)
  | .xor => some (a ^^^ b)
  | .shl => if a < 64 then some (b * 2 ^ a) else none
  | .shr => if a < 128 then some (b / 2 ^ a) else none
  | .exp => if b < 2 ^ 32 then checkedPow a b else none
  | _ => none

/-- `fold`: an operation on two small constants, when its result is small. -/
def fold (x y : Expr) : Option Expr := do
  let a ← x.constValue
  let b ← y.constValue
  let r ← foldNumbers op a b
  if r < 2 ^ 64 then some (.const (toBe 8 r)) else none

/-- `inverted_small`: the complement of a 256-bit constant, when it is small. -/
def invertedSmall (b : Bytes) : Option ℕ :=
  let b := stripZeros b
  if b.length = 32 ∧ b.take 24 = List.replicate 24 0xff then
    some (2 ^ 64 - 1 - ofBe (b.drop 24))
  else none

/-- The closure `is_calldata0` of `simplify`: the first word of the call data. -/
def isCalldata0 : Expr → Bool
  | .other name [a] => name = "calldataload".toList && a.constValue = some 0
  | _ => false

/-- The closure `is_mask` of `simplify`: a mask of low bytes, also as `(1 << n) - 1`. -/
def isMask (x : Expr) (bytes : ℕ) : Bool :=
  x.isConstBytes (fun b => b.length = bytes && b.all (· == 0xff)) ||
    match x with
    | .bin .sub (.bin .shl s v) one =>
      one.constValue = some 1 && s.constValue = some (8 * bytes) && v.constValue = some 1
    | _ => false

/-- `msg.sig`. -/
def msgSig : Expr := .other "msg.sig".toList []

/-- Whether the expression is `msg.sig`. -/
def isMsgSig : Expr → Bool
  | .other name _ => name = "msg.sig".toList
  | _ => false

/-- Whether the expression is a conversion to an address. -/
def isAddress : Expr → Bool
  | .un .address _ => true
  | _ => false

/-- The constant `n` for which adding the constant `c` is subtracting `n`. -/
def subtrahend : Expr → Option ℕ
  | .const c => match invertedSmall c with
    | some inv => if inv < 2 ^ 64 - 1 then some (inv + 1) else none
    | none => none
  | _ => none

/-- The rule of `simplify` for a comparison with a constant on its left, and constant folding. -/
def mirrorOrFold (x y : Expr) : Expr :=
  match mirrorCmp op with
  | some mirrored => if x.isConst && !y.isConst then .bin mirrored y x
    else (fold op x y).getD (.bin op x y)
  | none => (fold op x y).getD (.bin op x y)

/-- The rules of `simplify` for an operation on two simplified operands. -/
def simplifyBin (x y : Expr) : Expr :=
  match op with
  | .shr => if x.constValue = some 224 && isCalldata0 y then msgSig else mirrorOrFold .shr x y
  | .div =>
    if isCalldata0 x && y.isConstBytes (fun b => b = 1 :: List.replicate 28 0) then msgSig
    else mirrorOrFold .div x y
  | .and =>
    if isMask y 4 && isMsgSig x then x
    else if isMask x 4 && isMsgSig y then y
    else if isMask y 20 || isMask x 20 then
      let z := if isMask y 20 then x else y
      if isAddress z then z else .un .address z
    else mirrorOrFold .and x y
  | .add => match subtrahend y with
    | some n => .bin .sub x (.const (toBe 8 n))
    | none => match subtrahend x with
      | some n => .bin .sub y (.const (toBe 8 n))
      | none => mirrorOrFold .add x y
  | op => mirrorOrFold op x y

/-- The rules of `simplify` for one simplified operand. A negated comparison is simplified
`again`. -/
def simplifyUn (again : Expr → Expr) (op : UnaryOp) (x : Expr) : Expr :=
  match op, x with
  | .iszero, .un .iszero x => if isBoolean x then x else .un .bool x
  | .iszero, .bin cmp x y => match inverseCmp cmp with
    | some inverse => again (.bin inverse x y)
    | none => .un .iszero (.bin cmp x y)
  | .iszero, .un .bool x => .un .iszero x
  | op, x => .un op x

/-- `simplify`, with a bound on the depth of its recursion. -/
def simplifyWithin : ℕ → Expr → Expr
  | 0, e => e
  | n + 1, .un op x => simplifyUn (simplifyWithin n) op (simplifyWithin n x)
  | n + 1, .bin op x y => simplifyBin op (simplifyWithin n x) (simplifyWithin n y)
  | n + 1, .other name args => .other name (args.map (simplifyWithin n))
  | _ + 1, e => e

/-- `simplify`: rewrite well-known compiler idioms into their source-level form. -/
def simplify (e : Expr) : Expr := simplifyWithin e.nodes e

/-! ## Storage names -/

/-- `StorageNames`: the names of storage slots, by their significant bytes. -/
abbrev StorageNames := List (Bytes × Text)

mutual

/-- `storage_ref`: a slot as a named storage location. -/
def storageRef (names : StorageNames) : Expr → Option Expr
  | .const b => (names.lookup (stripZeros b)).map .var
  | .other name [base, key] =>
    if name = "mapping".toList then
      (storageRef names base).map fun base => .other "index".toList [base, nameStorageIn names key]
    else none
  | _ => none

/-- `name_storage_in`. -/
def nameStorageIn (names : StorageNames) : Expr → Expr
  | .un op x => .un op (nameStorageIn names x)
  | .bin op x y => .bin op (nameStorageIn names x) (nameStorageIn names y)
  | .other name [slot] =>
    if name = "sload".toList then
      (storageRef names slot).getD (.other "sload".toList [nameStorageIn names slot])
    else .other name [nameStorageIn names slot]
  | .other name [base, key] =>
    if name = "mapping".toList then
      match storageRef names base with
      | some ref => .other "slot".toList [.other "index".toList [ref, nameStorageIn names key]]
      | none => .other name [nameStorageIn names base, nameStorageIn names key]
    else .other name [nameStorageIn names base, nameStorageIn names key]
  | .other name args => .other name (nameStorageList names args)
  | e => e

/-- `name_storage_in` over the operands of an operation. -/
def nameStorageList (names : StorageNames) : List Expr → List Expr
  | [] => []
  | x :: xs => nameStorageIn names x :: nameStorageList names xs

end

/-- `name_storage`: reads of named storage by their names. -/
def nameStorage (names : StorageNames) (e : Expr) : Expr :=
  if names.isEmpty then e else nameStorageIn names e

/-! ## Text -/

/-- `infix_symbol`. -/
def infixSymbol : BinaryOp → Text
  | .add => ['+']
  | .sub => ['-']
  | .mul => ['*']
  | .div => ['/']
  | .mod => ['%']
  | .exp => ['*', '*']
  | .and => ['&']
  | .or => ['|']
  | .xor => ['^']
  | .shl => ['<', '<']
  | .shr => ['>', '>']
  | .lt => ['<']
  | .gt => ['>']
  | .eq => ['=', '=']
  | .ne => ['!', '=']
  | .le => ['<', '=']
  | .ge => ['>', '=']

/-- `{n:0wx}`: the number in lower-case hexadecimal with at least `w` digits. -/
def toHexPadded (w n : ℕ) : Text := List.replicate (w - (toHex n).length) '0' ++ toHex n

/-- The selector of a constant of the form `selector << 224`. -/
def leftAlignedSelector (b : Bytes) : Option UInt32 :=
  let b := stripZeros b
  if b.length ≥ 29 ∧ b.drop (b.length - 28) = List.replicate 28 0 then
    some (UInt32.ofNat (ofBe (b.take (b.length - 28))))
  else none

/-- `hex_const`: a constant as text. -/
def hexConst (sigs : SelectorMap) (b : Bytes) : Text :=
  match invertedSmall b with
  | some inv => "~0x".toList ++ toHex inv
  | none =>
    if (stripZeros b).isEmpty then "0x0".toList
    else match leftAlignedSelector b with
      | some sel => match sigs.functionBySelector sel with
        | some sig => signatureName sig ++ ".selector".toList
        | none => "(0x".toList ++ toHexPadded 8 sel.toNat ++ " << 0xe0)".toList
      | none =>
        if (stripZeros b).length = 4 then
          "0x".toList ++ toHexPadded 8 (ofBe (stripZeros b))
        else "0x".toList ++ match stripZeros b with
          | [] => []
          | x :: xs => toHex x.toNat ++ xs.flatMap fun x => toHexPadded 2 x.toNat

/-- The text in parentheses. -/
def parens (t : Text) : Text := '(' :: t ++ [')']

mutual

/-- `render_raw`. -/
def renderRaw (sigs : SelectorMap) : Expr → Text
  | .const b => hexConst sigs b
  | .var v => v
  | .un .iszero x => '!' :: renderChild sigs x
  | .un .not x => '~' :: renderChild sigs x
  | .un .address x => "address".toList ++ parens (renderRaw sigs x)
  | .un .bool x => "bool".toList ++ parens (renderRaw sigs x)
  | .bin op x y =>
    -- The amount of a shift is its first operand.
    if op = .shl ∨ op = .shr then
      renderChild sigs y ++ " ".toList ++ infixSymbol op ++ " ".toList ++ renderChild sigs x
    else renderChild sigs x ++ " ".toList ++ infixSymbol op ++ " ".toList ++ renderChild sigs y
  | .other name [] =>
    if name.contains '.' || name.contains '(' then name else name ++ "()".toList
  | .other name [x] =>
    if name = "slot".toList then '&' :: renderChild sigs x
    else name ++ parens (renderRaw sigs x)
  | .other name [x, y] =>
    if name = "index".toList then renderChild sigs x ++ '[' :: renderRaw sigs y ++ [']']
    else name ++ parens (renderRaw sigs x ++ ", ".toList ++ renderRaw sigs y)
  | .other name args => name ++ parens (renderList sigs args)

/-- `render_child`: an infix expression in parentheses. -/
def renderChild (sigs : SelectorMap) : Expr → Text
  | .bin op x y =>
    if op = .shl ∨ op = .shr then
      parens (renderChild sigs y ++ " ".toList ++ infixSymbol op ++ " ".toList ++
        renderChild sigs x)
    else
      parens (renderChild sigs x ++ " ".toList ++ infixSymbol op ++ " ".toList ++
        renderChild sigs y)
  | e => renderRaw sigs e

/-- The operands of a call, with commas between them. -/
def renderList (sigs : SelectorMap) : List Expr → Text
  | [] => []
  | [x] => renderRaw sigs x
  | x :: xs => renderRaw sigs x ++ ", ".toList ++ renderList sigs xs

end

/-- `render`: the text of an expression. -/
def render (sigs : SelectorMap) (names : StorageNames) (e : Expr) : Text :=
  renderRaw sigs (nameStorage names (simplify e))

end Univdreams.Decompile
