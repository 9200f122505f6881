/-
# Bags of diagnostics

A report is sorted by file, start, stop and message.  The sort is stable and does not look at help
texts, and only neighbours that say the same are merged.  So what is shown is in order and is what
was pushed, and a diagnostic is shown once where all that are sorted to its place have its help
text (`Diagnostic.sorted_collapses`).  Where they do not, another one may come between two that say
the same, and both are shown (`Diagnostic.sorted_repeats`).
-/
import Mathlib.Order.Compare
import Keel.Diagnostic

namespace Keel

open List

instance : Std.LawfulEqOrd PathPart where
  eq_of_compare {a b} h := by
    obtain ⟨hrank, htext⟩ := Ordering.then_eq_eq.1 h
    cases a <;> cases b <;> simp_all [compareOn, PathPart.rank, PathPart.text]

theorem SourcePath.order_eq_iff {a b : SourcePath} : a.order b = .eq ↔ a.same b = true := by
  simp [order, same]

namespace Diagnostic

instance : Std.TransCmp order := inferInstanceAs (Std.TransCmp (compareLex
  (compareOn fun d : Diagnostic => d.path.parts) (compareLex _ (compareLex _ _))))

variable {a b c d : Diagnostic} {ds : List Diagnostic}

theorem same_iff : a.same b = true ↔ a.order b = .eq ∧ a.help = b.help := by
  obtain ⟨path, ⟨start, stop⟩, message, help⟩ := a
  obtain ⟨path', ⟨start', stop'⟩, message', help'⟩ := b
  simp [same, order, compareLex_eq_eq, SourcePath.order_eq_iff, compareOn, and_assoc]

theorem same_refl (d : Diagnostic) : d.same d = true := same_iff.2 ⟨Std.ReflCmp.compare_self, rfl⟩

theorem same_symm (h : a.same b = true) : b.same a = true :=
  same_iff.2 ⟨Std.OrientedCmp.eq_symm (same_iff.1 h).1, (same_iff.1 h).2.symm⟩

theorem same_trans (h : a.same b = true) (h' : b.same c = true) : a.same c = true :=
  same_iff.2 ⟨Std.TransCmp.eq_trans (same_iff.1 h).1 (same_iff.1 h').1, (same_iff.1 h).2.trans (same_iff.1 h').2⟩

theorem same_congr (h : a.same b = true) : d.same a = d.same b :=
  Bool.eq_iff_iff.2 ⟨fun h' => same_trans h' h, fun h' => same_trans h' (same_symm h)⟩

/-! ### Neighbours -/

theorem mergeNeighbours_sublist (ds : List Diagnostic) : (mergeNeighbours ds).Sublist ds := by
  induction ds with
  | nil => exact .slnil
  | cons d ds ih =>
    unfold mergeNeighbours
    split
    · exact (nil_sublist ds).cons_cons d
    · rename_i e es heq
      rw [heq] at ih
      split
      · exact ((sublist_cons_self e es).trans ih).cons_cons d
      · exact ih.cons_cons d

/-- Each diagnostic stays, in a run of the same ones as the first of them. -/
theorem exists_same_mergeNeighbours (h : d ∈ ds) : ∃ e ∈ mergeNeighbours ds, d.same e = true := by
  induction ds with
  | nil => cases h
  | cons a ds ih =>
    unfold mergeNeighbours
    rcases mem_cons.1 h with rfl | h
    · split
      · exact ⟨d, by simp, same_refl d⟩
      · split <;> exact ⟨d, by simp, same_refl d⟩
    · obtain ⟨c, hc, hsame⟩ := ih h
      split
      · rename_i heq
        exact absurd (heq ▸ hc) not_mem_nil
      · rename_i e es heq
        rw [heq] at hc
        split
        · rename_i hae
          rcases mem_cons.1 hc with rfl | hc
          · exact ⟨a, by simp, same_trans hsame (same_symm hae)⟩
          · exact ⟨c, mem_cons_of_mem _ hc, hsame⟩
        · exact ⟨c, mem_cons_of_mem _ hc, hsame⟩

/-- In a sorted list, what lies between two of one place is at that place too. -/
theorem order_eq_of_between (hab : (a.order b).isLE) (hbc : (b.order c).isLE)
    (hac : a.order c = .eq) : a.order b = .eq := by
  have hca : (c.order a).isLE := by rw [Std.OrientedCmp.eq_symm hac]; rfl
  exact Std.OrientedCmp.isLE_antisymm hab (Std.TransCmp.isLE_trans hbc hca)

/-- Between two that say the same as `d`, nothing with another help text stands at its place. -/
def Unbroken (d : Diagnostic) (ds : List Diagnostic) : Prop :=
  ∀ a e b, [a, e, b].Sublist ds → d.same a = true → d.same b = true → d.order e = .eq →
    d.help = e.help

/-- **In a sorted list at most one is left** of the diagnostics that say the same as `d`: what lies
between two of them would be at their place, and so be merged with the first. -/
theorem countP_mergeNeighbours_le (hs : ds.Pairwise fun a b => (a.order b).isLE)
    (h : d.Unbroken ds) : (mergeNeighbours ds).countP (d.same ·) ≤ 1 := by
  induction ds with
  | nil => exact Nat.zero_le 1
  | cons a ds ih =>
    obtain ⟨ha, hs⟩ := pairwise_cons.1 hs
    have ih := ih hs fun _ _ _ hsub => h _ _ _ (hsub.cons a)
    have hsub := mergeNeighbours_sublist ds
    unfold mergeNeighbours
    split
    · exact countP_le_length
    · rename_i e es heq
      rw [heq] at ih hsub
      split
      · rename_i hae
        simpa only [countP_cons, same_congr hae] using ih
      · rename_i hae
        rw [countP_cons]
        split
        · rename_i hda
          suffices hnone : (e :: es).countP (d.same ·) = 0 by omega
          refine countP_eq_zero.2 fun y hy hdy => hae ?_
          have hay := same_trans (same_symm hda) hdy
          rcases mem_cons.1 hy with rfl | hy
          · exact hay
          · have hey := (pairwise_cons.1 (hs.sublist hsub)).1 y hy
            have hplace := order_eq_of_between (ha e (hsub.subset mem_cons_self)) hey (same_iff.1 hay).1
            have hlist : [a, e, y].Sublist (a :: ds) :=
              (((singleton_sublist.2 hy).cons_cons e).trans hsub).cons_cons a
            have hde := Std.TransCmp.eq_trans (same_iff.1 hda).1 hplace
            exact same_trans (same_symm hda) (same_iff.2 ⟨hde, h a e y hlist hda hdy hde⟩)
        · exact ih

/-! ### The sorted view -/

theorem isLE_total (a b : Diagnostic) : ((a.order b).isLE || (b.order a).isLE) = true := by
  have hswap : b.order a = (a.order b).swap := Std.OrientedCmp.eq_swap
  rw [hswap]
  cases a.order b <;> rfl

theorem pairwise_mergeSort_order (bag : List Diagnostic) :
    (bag.mergeSort fun a b => (a.order b).isLE).Pairwise fun a b => (a.order b).isLE :=
  pairwise_mergeSort (fun _ _ _ => Std.TransCmp.isLE_trans) isLE_total bag

/-- Those of one place keep the order in which they were pushed. -/
theorem filter_mergeSort_order (d : Diagnostic) (bag : List Diagnostic) :
    (bag.mergeSort fun a b => (a.order b).isLE).filter (d.order · == .eq) = bag.filter (d.order · == .eq) := by
  have hplace : (bag.filter (d.order · == .eq)).Pairwise fun a b => (a.order b).isLE :=
    pairwise_iff_forall_sublist.2 fun {a b} hab => by
      have hda := eq_of_beq (mem_filter.1 (hab.subset (by simp : a ∈ [a, b]))).2
      have hdb := eq_of_beq (mem_filter.1 (hab.subset (by simp : b ∈ [a, b]))).2
      rw [Std.TransCmp.eq_trans (Std.OrientedCmp.eq_symm hda) hdb]
      rfl
  have hsub := sublist_mergeSort (fun _ _ _ => Std.TransCmp.isLE_trans) isLE_total hplace filter_sublist
  have hsub := hsub.filter (d.order · == .eq)
  rw [filter_filter, filter_congr (fun _ _ => Bool.and_self _)] at hsub
  exact (hsub.eq_of_length ((mergeSort_perm bag _).filter _).length_eq.symm).symm

theorem Unbroken.mergeSort {bag : List Diagnostic} (h : d.Unbroken bag) :
    d.Unbroken (bag.mergeSort fun a b => (a.order b).isLE) := by
  intro a e b hsub ha hb he
  have hkeep := hsub.filter (d.order · == .eq)
  rw [filter_mergeSort_order] at hkeep
  simp only [List.filter, (same_iff.1 ha).1, (same_iff.1 hb).1, he, BEq.rfl] at hkeep
  exact h a e b (hkeep.trans filter_sublist) ha hb he

/-- **The sorted view is in order and shows what was pushed**, nothing else and nothing less, and
shows a diagnostic once unless one with another help text was pushed between two of it. -/
theorem sorted_collapses (bag : List Diagnostic) :
    (sorted bag).Pairwise (fun a b => (a.order b).isLE) ∧ (∀ d ∈ sorted bag, d ∈ bag) ∧
      ∀ d ∈ bag, 1 ≤ (sorted bag).countP (d.same ·) ∧
        (d.Unbroken bag → (sorted bag).countP (d.same ·) = 1) := by
  have hs := pairwise_mergeSort_order bag
  have hsub := mergeNeighbours_sublist (bag.mergeSort fun a b => (a.order b).isLE)
  refine ⟨hs.sublist hsub, fun d hd => mem_mergeSort.1 (hsub.subset hd), fun d hd => ?_⟩
  obtain ⟨e, he, hsame⟩ := exists_same_mergeNeighbours (mem_mergeSort.2 hd)
  have hpos : 1 ≤ (sorted bag).countP (d.same ·) := countP_pos_iff.2 ⟨e, he, hsame⟩
  exact ⟨hpos, fun h => Nat.le_antisymm (countP_mergeNeighbours_le hs h.mergeSort) hpos⟩

/-- A report about the first bytes of one file. -/
def sample (help : Option String) : Diagnostic := ⟨⟨"a.kl"⟩, ⟨1, 2⟩, "m", help⟩

/-- Pushed twice in a row before another help text, it is shown once. -/
theorem sorted_collapses_neighbours :
    (sorted [sample none, sample none, sample (some "h")]).countP ((sample none).same ·) = 1 := by
  refine ((sorted_collapses _).2.2 (sample none) (by simp)).2 fun a e b hsub _ hb he => ?_
  obtain ⟨-, -, rfl⟩ : a = sample none ∧ e = sample none ∧ b = sample (some "h") := by
    simpa using hsub.eq_of_length rfl
  exact absurd hb (by decide)

/-- **With another help text between them, both are shown.** -/
theorem sorted_repeats :
    (sorted [sample none, sample (some "h"), sample none]).countP ((sample none).same ·) = 2 := by
  rw [sorted, mergeSort_of_pairwise (by decide)]
  decide

end Diagnostic
end Keel
