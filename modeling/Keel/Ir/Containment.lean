/-
# Containment

A struct holds its fields, and an enum what its variants carry.  A member that is
itself a struct or an enum is held by value, so the containing type can be laid out
only after it.  Elements of a list live elsewhere and do not count, nor do names that
the program does not declare.

`Program.layoutOrder` sorts the types by Kahn's algorithm: it counts for each type how
many of those it holds have no place yet, and places the least name whose count is zero.
If types are left over, they contain themselves or contain such types;
`LayoutError.cycles` are the strongly connected components among them that are cycles.
-/
import Keel.Ir.Basic
import Keel.Graph

namespace Keel

/-- Types that contain each other by value and so have no layout: each set sorted, the
sets sorted too. -/
structure LayoutError where
  cycles : List (List String)
deriving DecidableEq, Repr

def LayoutError.message (e : LayoutError) : String :=
  "types contain themselves by value and cannot be laid out: " ++
    String.intercalate "; "
      (e.cycles.map fun members => "\x7b" ++ String.intercalate ", " members ++ "\x7d")

namespace Ir

/-- The struct or enum that a member of this type holds by value. -/
def Storage.inline? : Storage → Option String
  | struct name | enum name => some name
  | _ => none

inductive Aggregate where
  | struct (layout : StructLayout)
  | enum (layout : EnumLayout)
deriving DecidableEq, Repr

def Aggregate.isEnum : Aggregate → Bool
  | struct _ => false
  | enum _ => true

def StructLayout.contents (s : StructLayout) : List String :=
  s.fields.filterMap fun (_, ty) => ty.inline?

def EnumLayout.contents (e : EnumLayout) : List String :=
  e.variants.filterMap fun v => v.payload.bind Storage.inline?

namespace Program

/-- The names of all structs and enums, in order. -/
def aggregateNames (p : Program) : List String :=
  (Std.TreeSet.ofList (p.structs.keys ++ p.enums.keys)).toList

def aggregate? (p : Program) (name : String) : Option Aggregate :=
  (p.enums.get? name).map .enum <|> (p.structs.get? name).map .struct

/-- What the types of that name hold by value. -/
def contents (p : Program) (name : String) : List String :=
  ((p.structs.get? name).map (·.contents)).getD [] ++
    ((p.enums.get? name).map (·.contents)).getD []

end Program

/-- What each type holds by value. -/
abbrev Containment := Std.TreeMap String (Std.TreeSet String)

/-- What each struct and enum holds by value: declared types only, and each of them once. -/
def Program.containment (p : Program) : Containment :=
  let held : Containment := .ofList (p.aggregateNames.map fun name => (name, Std.TreeSet.ofList (p.contents name)))
  held.map fun _ inner => .ofList (inner.toList.filter held.contains)

/-! ### Sorting -/

/-- For each type those that hold it, in order. -/
def holders (held : Containment) : Std.TreeMap String (List String) :=
  held.foldl (fun found name inner =>
    inner.foldl (fun found other => found.insert other (found.getD other [] ++ [name])) found) ∅

/-- Kahn's algorithm between two rounds: the types that have a place, how many of the types it holds
each one still waits for, and those that wait for none and have no place yet. -/
structure Sorting where
  order : List String
  pending : Std.TreeMap String Nat
  ready : Std.TreeSet String

namespace Sorting

def start (held : Containment) : Sorting :=
  let pending := held.map fun _ inner => inner.size
  ⟨[], pending, .ofList ((pending.toList.filter (·.2 == 0)).map (·.1))⟩

/-- One of the types that this one holds got its place. -/
def release (s : Sorting) (name : String) : Sorting :=
  match s.pending.get? name with
  | some (count + 1) =>
    { s with
      pending := s.pending.insert name count
      ready := if count = 0 then s.ready.insert name else s.ready }
  | _ => s

/-- Places the least name that is ready. -/
def step (holders : Std.TreeMap String (List String)) (s : Sorting) : Option Sorting :=
  s.ready.toList.head?.map fun name =>
    (holders.getD name []).foldl release
      { s with order := s.order ++ [name], ready := s.ready.erase name }

/-- Rounds until no type is ready; there are no more of them than types. -/
def run (holders : Std.TreeMap String (List String)) : Nat → Sorting → Sorting
  | 0, s => s
  | n + 1, s =>
    match s.step holders with
    | none => s
    | some s => run holders n s

end Sorting

/-! ### Cycles -/

/-- Adds a node with the next number. -/
def addNode (found : List String × Std.TreeMap String Nat) (name : String) : List String × Std.TreeMap String Nat :=
  (found.1 ++ [name], found.2.insert name found.1.length)

/-- An edge from each type that has a number to those it holds that have one. -/
def edgesAmong (held : Containment) (index : Std.TreeMap String Nat) : List (Nat × Nat) :=
  held.toList.flatMap fun (name, inner) =>
    match index.get? name with
    | none => []
    | some source => inner.toList.filterMap fun other => (index.get? other).map (source, ·)

/-- The types without a place and what they hold of each other, as a graph. -/
def unplaced (held : Containment) (placed : Std.TreeSet String) : Graph.Digraph String :=
  let found := (held.keys.filter fun name => !placed.contains name).foldl addNode ([], ∅)
  ⟨found.1, edgesAmong held found.2⟩

/-- Whether a component is a cycle: it has several members, or its only one holds itself. -/
def isCycle (g : Graph.Digraph String) (component : List Nat) : Bool :=
  component.length > 1 || component.head?.any fun node => g.hasEdge node node

def sorted {α : Type} [Ord α] (l : List α) : List α := l.mergeSort fun a b => (compare a b).isLE

/-- The cycles among the types without a place, by way of the strongly connected components. -/
def findCycles (components : Graph.Digraph String → List (List Nat)) (held : Containment)
    (placed : Std.TreeSet String) : List (List String) :=
  let g := unplaced held placed
  sorted (((components g).filter (isCycle g)).map fun component => sorted (component.filterMap (g.nodes[·]?)))

/-- The structs and enums of a program, each after those it contains; `components` finds the
strongly connected components of a graph. -/
def Program.layoutOrderBy (components : Graph.Digraph String → List (List Nat)) (p : Program) :
    Except LayoutError (List Aggregate) :=
  let held := p.containment
  let order := (Sorting.run (holders held) held.size (.start held)).order
  if order.length = held.size then
    .ok (order.filterMap p.aggregate?)
  else
    .error ⟨findCycles components held (.ofList order)⟩

def Program.layoutOrder (p : Program) : Except LayoutError (List Aggregate) :=
  p.layoutOrderBy Graph.Digraph.components

end Ir
end Keel
