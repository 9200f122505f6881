/-
# Building blocks

A function is built block by block.  Blocks, temporaries and slots are numbered in the
order they are asked for.  Instructions go to the end of the current block; once a
block has a terminator it keeps it.

At the end the blocks that cannot be reached from the first one are dropped; the
others need a terminator.
-/
import Keel.Fault
import Keel.Graph

namespace Keel.Lowering

open Ir (Storage Operand Instr Terminator BlockId TempId SlotId)

/-- What a type is stored as.  A number whose type nothing fixed is an `i64`. -/
def storage : Ty → Except Fault Storage
  | .unit => .ok .unit
  | .bool => .ok .bool
  | .int kind => .ok (.int kind)
  | .range base _ _ => .ok (.int base)
  | .untyped => .ok (.int .i64)
  | .str => .ok .str
  | .struct name => .ok (.struct name.text)
  | .enum name => .ok (.enum name.text)
  | .list t =>
    match storage t with
    | .ok element => .ok (.list element)
    | .error fault => .error fault
  | .error => .error (.unstorable .error)
  | .param name => .error (.unstorable (.param name))

structure Pending where
  instrs : Array Instr := #[]
  terminator : Option Terminator := none

/-- A function under construction; blocks go by their position. -/
structure Builder where
  slots : Array Storage := #[]
  temps : Array Storage := #[]
  blocks : Array Pending := #[]
  current : BlockId := ⟨0⟩

/-- What stays the same while a function is lowered. -/
structure Context where
  program : CheckedProgram
  structs : Std.TreeMap String Ir.StructLayout
  /-- The name of the function. -/
  name : String

abbrev Lower := ReaderT Context (StateT Builder (Except Fault))

def liftStorage (ty : Ty) : Lower Storage := liftM (storage ty)

/-! ### Blocks -/

namespace Builder

def mapCurrent (b : Builder) (f : Pending → Pending) : Builder :=
  { b with blocks := b.blocks.modify b.current.index f }

def emit (b : Builder) (i : Instr) : Builder :=
  b.mapCurrent fun p => { p with instrs := p.instrs.push i }

/-- Ends the current block, unless it has ended. -/
def terminate (b : Builder) (t : Terminator) : Builder :=
  b.mapCurrent fun p => { p with terminator := p.terminator <|> some t }

def next (b : Builder) (index : Nat) : List Nat :=
  match (b.blocks[index]?).bind (·.terminator) with
  | some t => t.targets.map (·.index)
  | none => []

def live (b : Builder) : Std.TreeSet Nat := Graph.reachable b.next (b.blocks.size + 1) 0

/-- A block that can be reached, with its terminator. -/
def finishBlock (function : String) (p : Pending) (index : Nat) : Except Fault Ir.Block :=
  match p.terminator with
  | some t => .ok ⟨⟨index⟩, p.instrs.toList, t⟩
  | none => .error (.noTerminator ⟨index⟩ function)

/-- The blocks that can be reached, in the order they were made. -/
def finish (b : Builder) (function : String) : Except Fault (List Ir.Block) := do
  let live := b.live
  match live.toList.find? fun index => index ≥ b.blocks.size with
  | some index => throw (.missingBlock function ⟨index⟩)
  | none =>
    (b.blocks.toList.zipIdx.filter fun (_, index) => live.contains index).mapM
      fun (p, index) => finishBlock function p index

end Builder

def newBlock : Lower BlockId :=
  modifyGet fun b => (⟨b.blocks.size⟩, { b with blocks := b.blocks.push {} })

def switchTo (id : BlockId) : Lower Unit := modify fun b => { b with current := id }

def emit (i : Instr) : Lower Unit := modify fun b => b.emit i

def terminate (t : Terminator) : Lower Unit := modify fun b => b.terminate t

/-- Ends the current block and goes on in one that nothing jumps to. -/
def leave (t : Terminator) : Lower Unit := do
  terminate t
  switchTo (← newBlock)

/-! ### Values -/

def newTemp (ty : Storage) : Lower TempId :=
  modifyGet fun b => (⟨b.temps.size⟩, { b with temps := b.temps.push ty })

def newSlot (ty : Storage) : Lower SlotId :=
  modifyGet fun b => (⟨b.slots.size⟩, { b with slots := b.slots.push ty })

def slotType (slot : SlotId) : Lower Storage := return (← get).slots.getD slot.index .unit

/-- A new temporary of the type, set by the instruction. -/
def define (ty : Storage) (instr : TempId → Instr) : Lower Operand := do
  let dest ← newTemp ty
  emit (instr dest)
  return .temp dest

def load (slot : SlotId) : Lower Operand := do
  define (← slotType slot) fun dest => .load dest slot

/-! ### What the checker found -/

def resolutions : Lower Resolutions := return (← read).program.resolutions

def checkedType (id : NodeId) : Lower Ty := do
  match (← resolutions).exprTypes.get? id with
  | some ty => return ty
  | none => throw (.noType id)

def typeOf (id : NodeId) : Lower Storage := do
  liftStorage (← checkedType id)

/-- The slot for the value of an expression with branches, unless it is `unit`. -/
def resultSlot (id : NodeId) : Lower (Option SlotId) := do
  match ← typeOf id with
  | .unit => return none
  | ty => return some (← newSlot ty)

def storeResult (result : Option SlotId) (value : Operand) : Lower Unit :=
  match result with
  | some slot => emit (.store slot value)
  | none => return

def loadResult : Option SlotId → Lower Operand
  | some slot => load slot
  | none => return .unit

/-- A field of a struct and what it holds. -/
def fieldOf (struct field : String) : Lower (Ir.FieldRef × Storage) := do
  match (← read).structs.get? struct with
  | none => throw (.unknownStruct struct)
  | some layout =>
    match layout.fields.zipIdx.find? fun (f, _) => f.1 == field with
    | some ((_, ty), index) => return (⟨struct, index⟩, ty)
    | none => throw (.noField struct field)

/-! ### Scopes -/

structure LoopTargets where
  next : BlockId
  done : BlockId

/-- The slots of the local variables, the newest first, and the loop around. -/
structure Scope where
  locals : List (String × SlotId) := []
  loop : Option LoopTargets := none

namespace Scope

def declare (s : Scope) (name : String) (slot : SlotId) : Scope :=
  { s with locals := (name, slot) :: s.locals }

def find? (s : Scope) (name : String) : Option SlotId := s.locals.lookup name

end Scope

def localSlot (s : Scope) (name : String) : Lower SlotId := do
  match s.find? name with
  | some slot => return slot
  | none => throw (.unbound name (← read).name)

end Keel.Lowering
