/-
# Reachability and components

What can be reached from a node along the edges of a finite graph, found in rounds:
each round adds the nodes one edge further.  A round that adds nothing is the last, so
there are no more rounds than nodes.
-/
import Std.Data.TreeSet

namespace Keel.Graph

section

variable {α : Type} [Ord α]

/-- Adds a node, and puts it among the new ones unless it was there before. -/
def visit (found : List α × Std.TreeSet α) (node : α) : List α × Std.TreeSet α :=
  if found.2.contains node then found else (node :: found.1, found.2.insert node)

/-- Follows the edges from the nodes of the last round, for this many rounds. -/
def explore (edges : α → List α) : Nat → List α → Std.TreeSet α → Std.TreeSet α
  | 0, _, seen => seen
  | n + 1, frontier, seen =>
    match (frontier.flatMap edges).foldl visit ([], seen) with
    | ([], seen) => seen
    | (fresh, seen) => explore edges n fresh seen

/-- The nodes that can be reached from one of them, itself included, in a graph of
`size` nodes. -/
def reachable (edges : α → List α) (size : Nat) (start : α) : Std.TreeSet α :=
  explore edges size [start] (Std.TreeSet.empty.insert start)

end

/-! ### Numbered nodes -/

/-- A directed graph whose nodes are numbered from zero on, in the order they were added. -/
structure Digraph (α : Type) where
  nodes : List α
  edges : List (Nat × Nat)
deriving Repr

namespace Digraph

variable {α : Type}

def hasEdge (g : Digraph α) (source target : Nat) : Bool := g.edges.contains (source, target)

def targets (g : Digraph α) (node : Nat) : List Nat := (g.edges.filter (·.1 == node)).map (·.2)

/-- Does a path lead from the one node to the other? -/
def leadsTo (g : Digraph α) (source target : Nat) : Bool :=
  (reachable g.targets g.nodes.length source).contains target

/-- The nodes that lead to this one and to which it leads. -/
def component (g : Digraph α) (node : Nat) : List Nat :=
  (List.range g.nodes.length).filter fun other => g.leadsTo node other && g.leadsTo other node

/-- The strongly connected components, each found from its first node. -/
def components (g : Digraph α) : List (List Nat) :=
  ((List.range g.nodes.length).filter fun node => (g.component node).head? == some node).map g.component

end Digraph

end Keel.Graph
