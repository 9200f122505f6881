/-
# Programs

Every checked function becomes a function in blocks, and every struct and enum a
layout, under their full names.
-/
import Keel.Lowering.Expr

namespace Keel.Lowering

open Ir (Storage Operand)

/-- Parameters are stored to slots first, so that they are variables like others. -/
def lowerParams : List (String × Storage × Nat) → Scope → Lower Scope
  | [], s => return s
  | (name, ty, index) :: rest, s => do
    let slot ← newSlot ty
    emit (.store slot (.param index))
    lowerParams rest (s.declare name slot)

/-- The body of a function.  If it has no value where it needs one, its end is never
reached. -/
def lowerBody (decl : FunctionDef) (params : List Storage) (ret : Storage) : Lower Unit := do
  let entry ← newBlock
  switchTo entry
  let s ← lowerParams ((decl.params.map (·.name)).zip params.zipIdx) {}
  let value ← lowerBlock decl.body s
  terminate (if decl.body.tail.isSome || ret == .unit then .ret value else .unreachable)

def lowerFunction (program : CheckedProgram) (structs : Std.TreeMap String Ir.StructLayout)
    (name : QualName) (f : CheckedFunction) : Except Fault Ir.Function := do
  match program.signatures.functions.get? name with
  | none => throw (.noSignature name)
  | some sig =>
    let params ← sig.params.mapM fun p => storage p.ty
    let ret ← storage sig.ret
    let ctx : Context := ⟨program, structs, name.text⟩
    let (_, b) ← ((lowerBody f.decl params ret).run ctx).run {}
    let blocks ← b.finish name.text
    let function : Ir.Function :=
      ⟨name.text, params, ret, b.slots.toList, b.temps.toList, blocks⟩
    function.verify
    return function

def structLayout (name : QualName) (sig : StructSig) : Except Fault Ir.StructLayout := do
  let fields ← sig.fields.mapM fun f => do return (f.name, ← storage f.ty)
  return ⟨name.text, fields⟩

def variantLayout (v : VariantSig) : Except Fault Ir.VariantLayout :=
  match v.payload with
  | none => return ⟨v.name, none⟩
  | some ty => return ⟨v.name, some (← storage ty)⟩

def enumLayout (name : QualName) (sig : EnumSig) : Except Fault Ir.EnumLayout :=
  return ⟨name.text, ← sig.variants.mapM variantLayout⟩

def lowerTable {α β : Type} (table : Std.TreeMap QualName α) (lower : QualName → α → Except Fault β) :
    Except Fault (Std.TreeMap String β) :=
  table.toList.foldlM (fun done (name, a) => return done.insert name.text (← lower name a)) ∅

/-- Lowers a checked program; `entry` is the function it starts with, if it is not a
library. -/
def lowerProgram (program : CheckedProgram) (entry : Option QualName) :
    Except Fault Ir.Program := do
  let structs ← lowerTable program.signatures.structs structLayout
  let enums ← lowerTable program.signatures.enums enumLayout
  let functions ← lowerTable program.functions (lowerFunction program structs)
  let start ← entry.mapM fun name =>
    match functions.get? name.text with
    | some f => .ok (⟨f.name, f.ret⟩ : Ir.EntryPoint)
    | none => .error (.noEntry name)
  return { functions, structs, enums, entry := start }

end Keel.Lowering
