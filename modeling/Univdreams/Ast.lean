import Univdreams.Bytes
import Univdreams.Text

/-!
# The syntax tree of the language

The types of `src/ast/types.rs`: a file is a module header and a list of items, an item is a
function, a piece of data or a section of further items, and a function body is a list of
statements, which nest. Texts are lists of characters, and the integers have the widths of the
source, so that a tree here is a tree that the source can build.
-/

namespace Univdreams.Ast

/-! ## The module header -/

mutual

/-- A value on the right-hand side of a field. -/
inductive Value where
  | string (s : Text)
  | int (n : UInt64)
  | list (items : List Value)
  | block (fields : List Field)

/-- A `name: value` entry of a module or of a block. -/
inductive Field where
  | mk (name : Text) (value : Value)

end

/-- The `@module` block at the head of a file. -/
structure Module where
  fields : List Field

/-! ## Attributes, types and declarations -/

/-- The value of an attribute. -/
inductive AttrValue where
  | string (s : Text)
  | int (n : UInt64)
  | byteList (bytes : Bytes)
  /-- An attribute without a value. -/
  | flag
  deriving DecidableEq, Repr

/-- An attribute `#[key=value]`. -/
structure Attribute where
  key : Text
  value : AttrValue
  deriving DecidableEq, Repr

/-- A type of the language. The source's `Type`. -/
inductive Ty where
  | void
  | i8
  | i16
  | i32
  | i64
  | u8
  | u16
  | u32
  | u64
  | f32
  | f64
  | bool
  | char
  | pointer (inner : Ty)
  | unknown
  deriving DecidableEq, Repr

/-- A typed parameter, with the place in which it is passed when that is known. -/
structure Param where
  name : Text
  ty : Ty
  location : Option Text
  deriving DecidableEq, Repr

/-- The parameters and the return type of a function. -/
structure Signature where
  params : List Param
  return_type : Ty
  deriving DecidableEq, Repr

/-- What backs a local: a slot of the stack or a register. -/
inductive LocalKind where
  | stack
  | register
  deriving DecidableEq, Repr

/-- A declaration `let name: type;` at the head of a function body. -/
structure LocalDecl where
  name : Text
  ty : Ty
  kind : LocalKind
  deriving DecidableEq, Repr

/-- The parameters of a function prologue. -/
structure PrologueParams where
  saves : List Text
  saves_after : List Text
  frame : Bool
  sub_esp : UInt32
  cf_protect : Bool
  frame_alt : Bool
  deriving DecidableEq, Repr

/-- The parameters of a function epilogue. -/
structure EpilogueParams where
  saves : List Text
  leave : Bool
  pop_frame : Bool
  add_esp : UInt32
  ret_imm : UInt16
  deriving DecidableEq, Repr

/-! ## Statements -/

/-- A statement of a function body. Bytes that are pinned in the source are fields; empty ones are
re-encoded by the lowering where it can. -/
inductive Stmt where
  | asm (text : Text) (bytes : Bytes)
  | comment (text : Text)
  | return (value : UInt64) (bytes : Bytes)
  | prologue (kind : Text) (params : Option PrologueParams) (bytes : Bytes)
  | epilogue (kind : Text) (params : Option EpilogueParams) (bytes : Bytes)
  | save (reg : Text) (bytes : Bytes)
  | restore (reg : Text) (bytes : Bytes)
  | ifReturn (cond_text value_text : Text) (target_addr : UInt64) (cmp_bytes : Bytes)
      (cond_code : UInt8) (wide : Bool)
  | label (addr : UInt64)
  | goto (target_addr : UInt64) (wide : Bool)
  | ifGoto (cond_text : Text) (target_addr : UInt64) (cmp_bytes : Bytes) (cond_code : UInt8)
      (wide : Bool)
  | switch (selector : Text) (cases : List UInt64) (default_addr : UInt64) (dispatch : Text)
      (table_va : UInt64)
  | sehInstall (bytes : Bytes)
  | sehRestore (bytes : Bytes)
  | returnExpr (text : Text) (bytes : Bytes)
  | argSpill (arg_index : UInt32) (bytes : Bytes)
  | call (name : Text) (args : List Text) (bytes : Bytes) (direct_target : Option UInt64)
  | ifBranch (cond_text : Text) (cond_bytes : Bytes) (attrs : List Attribute)
      (pre_body then_body : List Stmt) (else_body : Option (List Stmt))
  | localSet (slot value : Int64) (bytes : Bytes)
  | localArith (slot : Int64) (op : Text) (value : Int64) (bytes : Bytes)
  | localCompound (dst : Int64) (op : Text) (src : Int64) (bytes : Bytes)
  | move (dst src : Text) (bytes : Bytes)
  | inc16 (lo hi : Text) (bytes : Bytes)
  | loop (cond_text : Text) (entry_jmp_bytes : Option Bytes) (tail_bytes : Bytes)
      (body : List Stmt)
  | ifBlock (cond_text : Text) (cond_bytes : Bytes) (then_body : List Stmt)
      (then_tail_jmp : Bytes) (else_body : List Stmt)
  | whileBlock (cond_text : Text) (entry_bytes tail_bytes : Bytes) (body : List Stmt)
  | regArith (dst op src : Text) (bytes : Bytes)

/-! ## Items -/

/-- A function declaration. -/
structure FnDecl where
  addr : Option UInt64
  name : Text
  attrs : List Attribute
  signature : Option Signature
  locals : List LocalDecl
  body : List Stmt

/-- An entry of a jump table: the number of a case and the address that it dispatches to. -/
structure JumpTableEntry where
  case : UInt64
  target : UInt64
  deriving DecidableEq, Repr

/-- An entry of a note section. -/
structure NoteEntry where
  note_type : UInt32
  name : Text
  desc : Bytes
  deriving DecidableEq, Repr

/-- An item of a file or of a section. -/
inductive Item where
  | comment (text : Text)
  | function (f : FnDecl)
  | raw (addr : UInt64) (bytes : Bytes)
  | strings (addr : UInt64) (strings : List Text)
  | notes (addr : UInt64) (entries : List NoteEntry)
  | «section» (name : Text) (addr : UInt64) (items : List Item)
  | jumpTable (addr : UInt64) (dispatch : Text) (entries : List JumpTableEntry)

/-- A file: the module header and the items. -/
structure UdFile where
  module : Module
  items : List Item

end Univdreams.Ast
