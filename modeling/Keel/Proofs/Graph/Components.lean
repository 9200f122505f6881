/-
# Strongly connected components

What a list of components has to say about a graph (`Digraph.Components`), and that the components found by
following the edges from every node meet it (`components_spec`).
-/
import Mathlib.Data.List.Nodup
import Keel.Proofs.Graph.Reachability

namespace Keel.Graph.Digraph

open Relation List

variable {α : Type} {g : Digraph α} {node other : Nat}

/-- The edges lead from nodes to nodes. -/
def InRange (g : Digraph α) : Prop := ∀ edge ∈ g.edges, edge.1 < g.nodes.length ∧ edge.2 < g.nodes.length

/-- A path leads from the one node to the other. -/
def Leads (g : Digraph α) : Nat → Nat → Prop := ReflTransGen fun source target => (source, target) ∈ g.edges

/-- Every node is in one component, with all the nodes that it leads to and that lead to it. -/
structure Components (g : Digraph α) (components : List (List Nat)) : Prop where
  nodup : components.flatten.Nodup
  mem_iff : ∀ node, node ∈ components.flatten ↔ node < g.nodes.length
  nonempty : [] ∉ components
  connected : ∀ component ∈ components, ∀ node ∈ component, ∀ other,
    other ∈ component ↔ g.Leads node other ∧ g.Leads other node

theorem leadsTo_iff (hg : g.InRange) (hnode : node < g.nodes.length) : g.leadsTo node other ↔ g.Leads node other := by
  have hedges : ∀ a ∈ List.range g.nodes.length, ∀ b ∈ g.targets a, b ∈ List.range g.nodes.length := by
    intro a _ b hb
    obtain ⟨edge, hedge, rfl⟩ := mem_map.1 hb
    exact mem_range.2 (hg edge (mem_filter.1 hedge).1).2
  rw [leadsTo, ← Std.TreeSet.mem_iff_contains, mem_reachable_iff (mem_range.2 hnode) hedges (by simp), Leads]
  simp [targets]

theorem Leads.lt (hg : g.InRange) (h : g.Leads node other) (hnode : node < g.nodes.length) : other < g.nodes.length := by
  induction h with
  | refl => exact hnode
  | tail _ hedge _ => exact (hg _ hedge).2

theorem mem_component (hg : g.InRange) (hnode : node < g.nodes.length) :
    other ∈ g.component node ↔ g.Leads node other ∧ g.Leads other node := by
  rw [component, mem_filter, mem_range, Bool.and_eq_true, leadsTo_iff hg hnode]
  constructor
  · rintro ⟨hother, hto, hback⟩
    exact ⟨hto, (leadsTo_iff hg hother).1 hback⟩
  · rintro ⟨hto, hback⟩
    have hother := hto.lt hg hnode
    exact ⟨hother, hto, (leadsTo_iff hg hother).2 hback⟩

theorem component_eq (hg : g.InRange) (hnode : node < g.nodes.length) (h : other ∈ g.component node) :
    g.component other = g.component node := by
  obtain ⟨hto, hback⟩ := (mem_component hg hnode).1 h
  refine filter_congr fun third hthird => ?_
  rw [Bool.eq_iff_iff, Bool.and_eq_true, Bool.and_eq_true, leadsTo_iff hg (hto.lt hg hnode), leadsTo_iff hg hnode,
    leadsTo_iff hg (mem_range.1 hthird), leadsTo_iff hg (mem_range.1 hthird)]
  exact and_congr ⟨hto.trans, hback.trans⟩ ⟨fun h => h.trans hback, fun h => h.trans hto⟩

/-- **What is found are the components.** -/
theorem components_spec (hg : g.InRange) : g.Components g.components where
  nodup := by
    rw [nodup_flatten]
    refine ⟨fun component hcomponent => ?_, pairwise_map.2 ?_⟩
    · obtain ⟨node, -, rfl⟩ := mem_map.1 hcomponent
      exact nodup_range.filter _
    · refine (nodup_range.filter _).imp_of_mem fun {a b} ha hb hne third hthird hthird' => hne ?_
      obtain ⟨ha, hhead⟩ := mem_filter.1 ha
      obtain ⟨hb, hhead'⟩ := mem_filter.1 hb
      have heq := (component_eq hg (mem_range.1 ha) hthird).symm.trans
        (component_eq hg (mem_range.1 hb) hthird')
      rw [heq] at hhead
      exact Option.some.inj ((eq_of_beq hhead).symm.trans (eq_of_beq hhead'))
  mem_iff node := by
    constructor
    · intro hmem
      obtain ⟨component, hcomponent, hmem⟩ := mem_flatten.1 hmem
      obtain ⟨first, -, rfl⟩ := mem_map.1 hcomponent
      exact mem_range.1 (mem_filter.1 hmem).1
    · intro hnode
      have hself : node ∈ g.component node := (mem_component hg hnode).2 ⟨.refl, .refl⟩
      obtain ⟨first, rest, hsplit⟩ := exists_cons_of_ne_nil (ne_nil_of_mem hself)
      have hfirst : first ∈ g.component node := hsplit ▸ mem_cons_self
      have heq := component_eq hg hnode hfirst
      refine mem_flatten.2 ⟨g.component first, mem_map.2 ⟨first, mem_filter.2 ⟨?_, ?_⟩, rfl⟩, heq ▸ hself⟩
      · exact (mem_filter.1 hfirst).1
      · rw [heq, hsplit, List.head?_cons, beq_self_eq_true]
  nonempty h := by
    obtain ⟨node, hnode, hnil⟩ := mem_map.1 h
    simp [hnil] at hnode
  connected component hcomponent node hnode other := by
    obtain ⟨first, hfirst, rfl⟩ := mem_map.1 hcomponent
    have hrange := mem_range.1 (mem_filter.1 hfirst).1
    rw [← component_eq hg hrange hnode, mem_component hg (mem_range.1 (mem_filter.1 hnode).1)]

end Keel.Graph.Digraph
