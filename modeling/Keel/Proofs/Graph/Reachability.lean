/-
# What a search in rounds finds

`Graph.reachable` follows the edges round by round, and stops after as many rounds as it is told.
In a graph with at most that many nodes this is no restriction: every round but the last finds a
node that had not been seen.  So the search finds exactly the nodes to which a path leads
(`mem_reachable_iff`).
-/
import Mathlib.Data.List.Perm.Subperm
import Mathlib.Logic.Relation
import Keel.Graph

namespace Keel.Graph

open Relation List

variable {α : Type} [Ord α]

/-! ### One round -/

section Visit

variable {found : List α × Std.TreeSet α} {a : α}

theorem visit_of_mem (h : a ∈ found.2) : visit found a = found := if_pos h

theorem visit_of_notMem (h : a ∉ found.2) : visit found a = (a :: found.1, found.2.insert a) := if_neg h

variable [Std.TransOrd α]

theorem size_visit_foldl (nodes : List α) (found : List α × Std.TreeSet α) :
    (nodes.foldl visit found).2.size + found.1.length = found.2.size + (nodes.foldl visit found).1.length := by
  induction nodes generalizing found with
  | nil => rfl
  | cons node nodes ih =>
    rw [foldl_cons]
    by_cases hseen : node ∈ found.2
    · rw [visit_of_mem hseen, ih]
    · have hrest := ih (visit found node)
      rw [visit_of_notMem hseen] at hrest ⊢
      have hsize : (found.2.insert node).size = found.2.size + 1 :=
        Std.TreeSet.size_insert.trans (if_neg hseen)
      rw [hsize, length_cons] at hrest
      omega

variable [Std.LawfulEqOrd α]

theorem mem_insert_iff {seen : Std.TreeSet α} {b : α} : a ∈ seen.insert b ↔ a = b ∨ a ∈ seen := by
  rw [Std.TreeSet.mem_insert, Std.LawfulEqCmp.compare_eq_iff_eq, eq_comm]

theorem mem_visit_foldl (nodes : List α) (found : List α × Std.TreeSet α) :
    (a ∈ (nodes.foldl visit found).1 ↔ a ∈ found.1 ∨ a ∈ nodes ∧ a ∉ found.2) ∧
      (a ∈ (nodes.foldl visit found).2 ↔ a ∈ found.2 ∨ a ∈ nodes) := by
  induction nodes generalizing found with
  | nil => simp
  | cons node nodes ih =>
    rw [foldl_cons, (ih _).1, (ih _).2, mem_cons]
    by_cases hseen : node ∈ found.2
    · rw [visit_of_mem hseen]
      grind
    · rw [visit_of_notMem hseen, mem_insert_iff, mem_cons]
      grind

end Visit

/-! ### All rounds -/

variable [Std.TransOrd α] [Std.LawfulEqOrd α] {edges : α → List α}

theorem length_le_of_subset {seen : Std.TreeSet α} {nodes : List α} (h : ∀ a ∈ seen, a ∈ nodes) :
    seen.size ≤ nodes.length := by
  rw [← Std.TreeSet.length_toList]
  have hnodup : seen.toList.Nodup := by
    refine Std.TreeSet.distinct_toList.imp fun hne heq => hne ?_
    rw [heq]
    exact Std.ReflCmp.compare_self
  exact (hnodup.subperm fun a ha => h a (Std.TreeSet.mem_toList.1 ha)).length_le

/-- Where a search stands between two rounds: all that has been seen is among the nodes, and what
lies one edge behind it has been seen as well, except behind the nodes of the last round. -/
structure Searching (edges : α → List α) (nodes frontier : List α) (seen : Std.TreeSet α) : Prop where
  known : ∀ a ∈ seen, a ∈ nodes
  last : ∀ a ∈ frontier, a ∈ seen
  behind : ∀ a ∈ seen, a ∉ frontier → ∀ b ∈ edges a, b ∈ seen

variable {nodes frontier : List α} {seen : Std.TreeSet α}

theorem Searching.round (h : Searching edges nodes frontier seen)
    (hedges : ∀ a ∈ nodes, ∀ b ∈ edges a, b ∈ nodes) {fresh : List α} {seen' : Std.TreeSet α}
    (hround : (frontier.flatMap edges).foldl visit ([], seen) = (fresh, seen')) :
    Searching edges nodes fresh seen' := by
  have hseen (a : α) : a ∈ seen' ↔ a ∈ seen ∨ ∃ b ∈ frontier, a ∈ edges b := by
    have := (mem_visit_foldl (a := a) (frontier.flatMap edges) ([], seen)).2
    rwa [hround, mem_flatMap] at this
  have hfresh (a : α) : a ∈ fresh ↔ (∃ b ∈ frontier, a ∈ edges b) ∧ a ∉ seen := by
    have := (mem_visit_foldl (a := a) (frontier.flatMap edges) ([], seen)).1
    simpa [hround] using this
  refine ⟨fun a ha => ?_, fun a ha => (hseen a).2 (.inr ((hfresh a).1 ha).1), fun a ha hnew b hb => ?_⟩
  · rcases (hseen a).1 ha with hold | ⟨b, hb, hab⟩
    · exact h.known a hold
    · exact hedges b (h.known b (h.last b hb)) a hab
  · -- What is seen and not new had been seen before this round.
    have hold : a ∈ seen := by
      rcases (hseen a).1 ha with hold | hedge
      · exact hold
      · by_contra hnot
        exact hnew ((hfresh a).2 ⟨hedge, hnot⟩)
    by_cases hfront : a ∈ frontier
    · exact (hseen b).2 (.inr ⟨a, hfront, hb⟩)
    · exact (hseen b).2 (.inl (h.behind a hold hfront b hb))

/-- **The search ends with a closed set.**  It holds what had been seen, whatever lies behind it, and
nothing else.  By induction on the rounds: there are more of them than nodes to be found. -/
theorem explore_closed (hedges : ∀ a ∈ nodes, ∀ b ∈ edges a, b ∈ nodes) (n : Nat)
    (h : Searching edges nodes frontier seen) (hn : nodes.length < seen.size + n) :
    (∀ a ∈ seen, a ∈ explore edges n frontier seen) ∧
      (∀ a ∈ explore edges n frontier seen, ∀ b ∈ edges a, b ∈ explore edges n frontier seen) ∧
      ∀ a ∈ explore edges n frontier seen, ∃ b ∈ seen, ReflTransGen (fun a b => b ∈ edges a) b a := by
  induction n generalizing frontier seen with
  | zero =>
    have := length_le_of_subset h.known
    omega
  | succ n ih =>
    rw [explore]
    have hsize := size_visit_foldl (frontier.flatMap edges) ([], seen)
    have hseen (a : α) := (mem_visit_foldl (a := a) (frontier.flatMap edges) ([], seen)).2
    generalize hround : (frontier.flatMap edges).foldl visit ([], seen) = found at hsize hseen
    obtain ⟨fresh, seen'⟩ := found
    have hnext := h.round hedges hround
    cases fresh with
    | nil =>
      refine ⟨fun a ha => (hseen a).2 (.inl ha), fun a ha => hnext.behind a ha not_mem_nil, ?_⟩
      intro a ha
      rcases (hseen a).1 ha with hold | hedge
      · exact ⟨a, hold, .refl⟩
      · obtain ⟨b, hb, hab⟩ := mem_flatMap.1 hedge
        exact ⟨b, h.last b hb, .single hab⟩
    | cons first more =>
      simp only [length_nil, length_cons, Nat.add_zero] at hsize
      obtain ⟨hkept, hclosed, hpath⟩ := ih hnext (by omega)
      refine ⟨fun a ha => hkept a ((hseen a).2 (.inl ha)), hclosed, fun a ha => ?_⟩
      obtain ⟨b, hb, hba⟩ := hpath a ha
      rcases (hseen b).1 hb with hold | hedge
      · exact ⟨b, hold, hba⟩
      · obtain ⟨c, hc, hcb⟩ := mem_flatMap.1 hedge
        exact ⟨c, h.last c hc, .head hcb hba⟩

/-- **A search finds what can be reached**, if it may take as many rounds as there are nodes. -/
theorem mem_reachable_iff {start a : α} {size : Nat} (hstart : start ∈ nodes)
    (hedges : ∀ a ∈ nodes, ∀ b ∈ edges a, b ∈ nodes) (hsize : nodes.length ≤ size) :
    a ∈ reachable edges size start ↔ ReflTransGen (fun a b => b ∈ edges a) start a := by
  have hfirst (a : α) : a ∈ (Std.TreeSet.empty.insert start : Std.TreeSet α) ↔ a = start :=
    mem_insert_iff.trans (or_iff_left Std.TreeSet.not_mem_emptyc)
  have hsearch : Searching edges nodes [start] (Std.TreeSet.empty.insert start) := by
    refine ⟨fun a ha => ?_, fun a ha => (hfirst a).2 (mem_singleton.1 ha), fun a ha hnot => ?_⟩
    · rwa [(hfirst a).1 ha]
    · exact absurd (mem_singleton.2 ((hfirst a).1 ha)) hnot
  have hone : (Std.TreeSet.empty.insert start : Std.TreeSet α).size = 1 := by
    simp [Std.TreeSet.size_insert]
  obtain ⟨hkept, hclosed, hpath⟩ := explore_closed hedges size hsearch (by omega)
  constructor
  · intro ha
    obtain ⟨b, hb, hba⟩ := hpath a ha
    rwa [(hfirst b).1 hb] at hba
  · intro h
    induction h with
    | refl => exact hkept start ((hfirst start).2 rfl)
    | tail _ hedge ih => exact hclosed _ ih _ hedge

end Keel.Graph
