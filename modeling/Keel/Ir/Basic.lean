/-
# Programs in blocks

A function is a list of blocks.  A block runs its instructions and then jumps, branches
or returns.  Values live in parameters, in temporaries, which one instruction sets, and
in slots, which can be stored to again.

Structs, enums and functions go by their full names.  How they are laid out in memory
is not said here.
-/
import Keel.Checked

namespace Keel.Ir

structure BlockId where
  index : Nat
deriving DecidableEq, Repr, Ord

structure TempId where
  index : Nat
deriving DecidableEq, Repr

structure SlotId where
  index : Nat
deriving DecidableEq, Repr

/-- What a slot, temporary or field can hold; a range is stored as its base. -/
inductive Storage where
  | unit
  | bool
  | int (kind : IntKind)
  | str
  | struct (name : String)
  | enum (name : String)
  | list (element : Storage)
deriving DecidableEq, Repr

inductive Constant where
  | unit
  | bool (value : Bool)
  | int (value : Int) (kind : IntKind)
  | str (value : String)
deriving DecidableEq, Repr

inductive Operand where
  | param (index : Nat)
  | temp (id : TempId)
  | const (value : Constant)
deriving DecidableEq, Repr

namespace Operand

def unit : Operand := const .unit

def bool (value : Bool) : Operand := const (.bool value)

def int (value : Int) (kind : IntKind) : Operand := const (.int value kind)

def str (value : String) : Operand := const (.str value)

end Operand

/-- Operators that evaluate both sides. -/
inductive EagerOp where
  | arith (op : ArithOp)
  | compare (op : CompareOp)
deriving DecidableEq, Repr

def EagerOp.symbol : EagerOp → String
  | arith op => op.symbol
  | compare op => op.symbol

/-- What the running program can be asked for. -/
inductive Service where
  | print | assert | panic
deriving DecidableEq, Repr

/-- A field by its position. -/
structure FieldRef where
  struct : String
  index : Nat
deriving DecidableEq, Repr

inductive Instr where
  | load (dest : TempId) (slot : SlotId)
  | store (slot : SlotId) (value : Operand)
  /-- `slot.f.g = value`. -/
  | storeField (slot : SlotId) (path : List FieldRef) (value : Operand)
  | unary (dest : TempId) (op : UnaryOp) (operand : Operand)
  /-- `ty` is the type of both operands. -/
  | binary (dest : TempId) (op : EagerOp) (left right : Operand) (ty : Storage)
  | cast (dest : TempId) (value : Operand) (source target : IntKind)
  /-- Stops the program unless `low ≤ value ≤ high`. -/
  | rangeCheck (value : Operand) (kind : IntKind) (low high : Int)
  | call (dest : TempId) (function : String) (args : List Operand)
  | service (which : Service) (arg : Operand) (ty : Storage)
  | makeStruct (dest : TempId) (name : String) (fields : List Operand)
  | getField (dest : TempId) (base : Operand) (field : FieldRef)
  | makeVariant (dest : TempId) (enum : String) (variant : Nat) (payload : Option Operand)
  /-- Which variant a value is. -/
  | tag (dest : TempId) (value : Operand)
  /-- What a variant carries; `field` is the place of the pattern that asks for it. -/
  | payload (dest : TempId) (value : Operand) (enum variant : String) (index field : Nat)
  | newList (dest : TempId) (element : Storage)
  /-- A method of the list or string in a slot. -/
  | intrinsic (dest : TempId) (op : Intrinsic) (receiver : SlotId) (args : List Operand)
      (element : Option Storage)
deriving DecidableEq, Repr

inductive Terminator where
  | ret (value : Operand)
  | jump (target : BlockId)
  | branch (condition : Operand) (thenBlock elseBlock : BlockId)
  /-- Control never comes here. -/
  | unreachable
deriving DecidableEq, Repr

def Terminator.targets : Terminator → List BlockId
  | ret _ | unreachable => []
  | jump target => [target]
  | branch _ thenBlock elseBlock => [thenBlock, elseBlock]

structure Block where
  id : BlockId
  instrs : List Instr
  terminator : Terminator
deriving DecidableEq, Repr

/-- A function; its first block is where it starts. -/
structure Function where
  name : String
  params : List Storage
  ret : Storage
  slots : List Storage
  temps : List Storage
  blocks : List Block
deriving DecidableEq, Repr

structure StructLayout where
  name : String
  fields : List (String × Storage)
deriving DecidableEq, Repr

structure VariantLayout where
  name : String
  payload : Option Storage
deriving DecidableEq, Repr

structure EnumLayout where
  name : String
  variants : List VariantLayout
deriving DecidableEq, Repr

structure EntryPoint where
  function : String
  ret : Storage
deriving DecidableEq, Repr

structure Program where
  functions : Std.TreeMap String Function := ∅
  structs : Std.TreeMap String StructLayout := ∅
  enums : Std.TreeMap String EnumLayout := ∅
  entry : Option EntryPoint := none

def Function.block? (f : Function) (id : BlockId) : Option Block := f.blocks.find? (·.id == id)

end Keel.Ir
