/-
# Emitted programs

A program becomes one C text: the support text, the struct and enum types in layout
order, first their names and then their members, the functions, first their prototypes
and then their bodies, and `main` if the program has an entry function.  Functions come
in the order of their names; an empty line stands before each group and definition.
-/
import Keel.Ir.Containment
import Keel.Options
import Keel.Target.Code
import Keel.Target.Support

namespace Keel.Target

open Ir (Storage Aggregate)

/-! ### Types -/

def aggregateSymbol : Aggregate → String
  | .struct layout => structSymbol layout.name
  | .enum layout => enumSymbol layout.name

def aggregateName (a : Aggregate) : String :=
  "typedef struct " ++ aggregateSymbol a ++ " " ++ aggregateSymbol a ++ ";"

/-- C has no empty structs and unions. -/
def unusedMember : String := "char _unused;"

def structMembers (layout : Ir.StructLayout) : List String :=
  if layout.fields.isEmpty then
    [indented 1 unusedMember]
  else
    layout.fields.zipIdx.map fun ((name, ty), index) =>
      indented 1 (typeName ty ++ s!" f{index}; /* {name} */")

/-- What a variant carries. -/
def variantMember (v : Ir.VariantLayout) (index : Nat) : String :=
  let inner := match v.payload with
    | some ty => typeName ty ++ " f0;"
    | none => unusedMember
  indented 2 s!"struct \x7b {inner} \x7d v{index}; /* {v.name} */"

def variantMembers (layout : Ir.EnumLayout) : List String :=
  if layout.variants.isEmpty then
    [indented 2 unusedMember]
  else
    layout.variants.zipIdx.map fun (v, index) => variantMember v index

def aggregateLines (a : Aggregate) : List String :=
  let members := match a with
    | .struct layout => structMembers layout
    | .enum layout =>
      [indented 1 "int32_t tag;", indented 1 "union \x7b"] ++ variantMembers layout ++
        [indented 1 "\x7d u;"]
  ("struct " ++ aggregateSymbol a ++ " \x7b") :: members ++ ["\x7d;"]

/-! ### Functions -/

def prototype (f : Ir.Function) : String :=
  let params := f.params.zipIdx.map fun (ty, index) => typeName ty ++ s!" p{index}"
  let shown := if params.isEmpty then "void" else commaSeparated params
  "static " ++ typeName f.ret ++ " " ++ functionSymbol f.name ++ "(" ++ shown ++ ")"

/-- The declaration of a variable, which starts as zero. -/
def variableLine (name : String) (ty : Storage) (index : Nat) : String :=
  indented 1 (typeName ty ++ s!" {name}{index} = \x7b0\x7d;")

def blockLines (f : Ir.Function) (b : Ir.Block) : Except Fault (List String) := do
  let code ← b.instrs.mapM (instrCode f)
  let stmts := code.flatten ++ [terminatorCode b.terminator]
  return (b.id.text ++ ":") :: stmts.flatMap Stmt.lines

def functionLines (f : Ir.Function) : Except Fault (List String) := do
  let slots := f.slots.zipIdx.map fun (ty, index) => variableLine "s" ty index
  let temps := f.temps.zipIdx.map fun (ty, index) => variableLine "t" ty index
  let blocks ← f.blocks.mapM (blockLines f)
  return (prototype f ++ " \x7b") :: slots ++ temps ++ blocks.flatten ++ ["\x7d"]

/-! ### The entry -/

/-- The statements of `main` after the result of the entry function is known. -/
def resultLines : EmitMode → Storage → List String
  | .program, ty =>
    let shown := match ty with
      | .int kind =>
        if kind.signed then "kl_print_i64((int64_t)result);" else "kl_print_u64((uint64_t)result);"
      | .bool => "kl_print_bool(result);"
      | .str => "kl_print_str(result);"
      | _ => "(void)result;"
    [shown, "return 0;"]
  | .tool, .int _ => ["return (int)((uint64_t)result & 0xFF);"]
  | .tool, .bool => ["return result ? 1 : 0;"]
  | .tool, _ => ["(void)result;", "return 0;"]

def mainLines (mode : EmitMode) (entry : Ir.EntryPoint) : List String :=
  let call := typeName entry.ret ++ " result = " ++ functionSymbol entry.function ++ "();"
  "int main(void) \x7b" :: (call :: resultLines mode entry.ret).map (indented 1) ++ ["\x7d"]

/-! ### Programs -/

/-- Why a program has no text. -/
inductive EmitError where
  | layout (e : LayoutError)
  | fault (f : Fault)
deriving DecidableEq, Repr

/-- An empty line and then the given ones, if there are any. -/
def group (lines : List String) : List String := if lines.isEmpty then [] else "" :: lines

def programLines (p : Ir.Program) (order : List Aggregate) (mode : EmitMode) :
    Except Fault (List String) := do
  let functions := p.functions.values
  let bodies ← functions.mapM functionLines
  return group (order.map aggregateName) ++
    order.flatMap (fun a => group (aggregateLines a)) ++
    group (functions.map fun f => prototype f ++ ";") ++
    bodies.flatMap group ++
    (p.entry.map fun entry => group (mainLines mode entry)).getD []

def programText (p : Ir.Program) (mode : EmitMode) : Except EmitError String :=
  match p.layoutOrder with
  | .error e => .error (.layout e)
  | .ok order =>
    match programLines p order mode with
    | .error f => .error (.fault f)
    | .ok lines => .ok (Support.text ++ String.join (lines.map (· ++ "\n")))

end Keel.Target
