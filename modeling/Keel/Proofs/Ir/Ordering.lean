/-
# Types are laid out after what they contain

`Program.layoutOrder` takes one type after the other, each time the least name among those
whose contents have been placed.  It places all types if and only if none contains itself at
any depth, and then every type stands behind those it holds by value
(`layoutOrder_topological`).

* `Next`: what one round picks, given the names that are placed.
* `Places`: the names that the rounds pick from there on.
* `place_waiting`: the rounds end where no type is ready; if types are left over, each of them
  holds another one of them, and so one of them contains itself.
-/
import Mathlib.Data.Fintype.EquivFin
import Mathlib.Data.List.Forall2
import Mathlib.Logic.Relation
import Mathlib.Order.WellFounded
import Keel.Ir.Containment
import Keel.Proofs.Graph.Reachability
import Keel.Proofs.Text.ByteOrder

namespace Keel.Ir

open List

/-! ### What contains what -/

def Aggregate.members : Aggregate → List Storage
  | struct layout => layout.fields.map (·.2)
  | enum layout => layout.variants.filterMap (·.payload)

theorem Storage.inline?_eq_some_iff {ty : Storage} {name : String} :
    ty.inline? = some name ↔ ty = .struct name ∨ ty = .enum name := by
  cases ty <;> simp [inline?]

theorem Aggregate.mem_contents_iff {a : Aggregate} {name : String} :
    name ∈ a.members.filterMap Storage.inline? ↔ .struct name ∈ a.members ∨ .enum name ∈ a.members := by
  simp only [mem_filterMap, Storage.inline?_eq_some_iff]
  constructor
  · rintro ⟨ty, hty, rfl | rfl⟩
    · exact .inl hty
    · exact .inr hty
  · rintro (h | h)
    · exact ⟨_, h, .inl rfl⟩
    · exact ⟨_, h, .inr rfl⟩

namespace Program

def Defines (p : Program) (name : String) : Aggregate → Prop
  | .struct layout => p.structs.get? name = some layout
  | .enum layout => p.enums.get? name = some layout

def Declared (p : Program) (name : String) : Prop := ∃ a, p.Defines name a

/-- The type `outer` has a member that is the declared struct or enum `inner`. -/
def Holds (p : Program) (outer inner : String) : Prop :=
  p.Declared inner ∧ ∃ a, p.Defines outer a ∧ (.struct inner ∈ a.members ∨ .enum inner ∈ a.members)

variable {p : Program} {placed order : List String} {name : String}

theorem declared_iff : p.Declared name ↔ name ∈ p.structs ∨ name ∈ p.enums := by
  simp only [Std.TreeMap.mem_iff_isSome_getElem?, ← Std.TreeMap.get?_eq_getElem?, Option.isSome_iff_exists]
  constructor
  · rintro ⟨layout | layout, h⟩
    · exact .inl ⟨layout, h⟩
    · exact .inr ⟨layout, h⟩
  · rintro (⟨layout, h⟩ | ⟨layout, h⟩)
    · exact ⟨.struct layout, h⟩
    · exact ⟨.enum layout, h⟩

theorem mem_aggregateNames : name ∈ p.aggregateNames ↔ p.Declared name := by
  rw [aggregateNames, Std.TreeSet.mem_toList, Std.TreeSet.mem_ofList, declared_iff]
  simp [Std.TreeMap.mem_keys]

theorem aggregateNames_sorted (p : Program) : p.aggregateNames.Pairwise (· < ·) :=
  Std.TreeSet.ordered_toList.imp compare_lt_iff_lt.1

theorem nodup_aggregateNames (p : Program) : p.aggregateNames.Nodup :=
  p.aggregateNames_sorted.imp ne_of_lt

theorem mem_contents_iff {inner : String} : inner ∈ p.contents name ↔
    ∃ a, p.Defines name a ∧ (.struct inner ∈ a.members ∨ .enum inner ∈ a.members) := by
  have hmembers (a : Aggregate) : p.Defines name a →
      inner ∈ a.members.filterMap Storage.inline? → inner ∈ p.contents name := by
    intro ha hinner
    rw [contents, mem_append]
    cases a with
    | struct layout =>
      refine .inl ?_
      rw [show p.structs.get? name = some layout from ha]
      rwa [Aggregate.members, filterMap_map] at hinner
    | enum layout =>
      refine .inr ?_
      rw [show p.enums.get? name = some layout from ha]
      rwa [Aggregate.members, filterMap_filterMap] at hinner
  constructor
  · intro h
    rw [contents, mem_append] at h
    rcases h with h | h
    · rcases hs : p.structs.get? name with _ | layout <;> rw [hs] at h
      · cases h
      · refine ⟨.struct layout, hs, Aggregate.mem_contents_iff.1 ?_⟩
        rwa [Aggregate.members, filterMap_map]
    · rcases he : p.enums.get? name with _ | layout <;> rw [he] at h
      · cases h
      · refine ⟨.enum layout, he, Aggregate.mem_contents_iff.1 ?_⟩
        rwa [Aggregate.members, filterMap_filterMap]
  · rintro ⟨a, ha, hmem⟩
    exact hmembers a ha (Aggregate.mem_contents_iff.2 hmem)

theorem holds_iff {inner : String} : p.Holds name inner ↔ p.Declared inner ∧ inner ∈ p.contents name :=
  and_congr_right' mem_contents_iff.symm

/-! ### What is counted -/

theorem mem_containment : name ∈ p.containment ↔ p.Declared name := by
  rw [containment, Std.TreeMap.mem_map, Std.TreeMap.mem_ofList]
  simp [mem_aggregateNames]

theorem getElem?_containment (h : p.Declared name) : ∃ inner, p.containment[name]? = some inner ∧
    ∀ other, other ∈ inner ↔ p.Holds name other := by
  have hmem : (name, Std.TreeSet.ofList (p.contents name)) ∈
      p.aggregateNames.map fun name => (name, Std.TreeSet.ofList (p.contents name)) :=
    mem_map.2 ⟨name, mem_aggregateNames.2 h, rfl⟩
  have hdistinct : (p.aggregateNames.map fun name => (name, Std.TreeSet.ofList (p.contents name))).Pairwise
      fun a b => ¬ compare a.1 b.1 = .eq :=
    pairwise_map.2 (p.nodup_aggregateNames.imp fun hne heq => hne (Std.LawfulEqCmp.compare_eq_iff_eq.1 heq))
  refine ⟨_, by rw [containment, Std.TreeMap.getElem?_map,
    Std.TreeMap.getElem?_ofList_of_mem Std.ReflCmp.compare_self hdistinct hmem, Option.map_some], fun other => ?_⟩
  simp [Std.TreeSet.mem_ofList, Std.TreeMap.contains_ofList, mem_aggregateNames, holds_iff, and_comm]

end Program

theorem nodup_toList (names : Std.TreeSet String) : names.toList.Nodup :=
  Std.TreeSet.distinct_toList.imp fun {_ _} hne heq => hne (Std.LawfulEqCmp.compare_eq_iff_eq.2 heq)

section Lists

variable {order names : List String} {name : String}

/-- Where each name stands once, one more that is placed makes one less that waits. -/
theorem countP_placed (hnodup : names.Nodup) (hname : name ∉ order) :
    names.countP (· ∉ order) = names.countP (· ∉ order ++ [name]) + if name ∈ names then 1 else 0 := by
  induction names with
  | nil => rfl
  | cons first names ih =>
    obtain ⟨hfirst, hnodup⟩ := nodup_cons.1 hnodup
    rw [countP_cons, countP_cons, ih hnodup]
    by_cases heq : name = first
    · subst heq
      simp [hname, hfirst]
    · simp [heq, Ne.symm heq]
      omega

end Lists

/-! ### Who holds a type -/

theorem getD_foldl_holder (name : String) (inner : List String) (hnodup : inner.Nodup)
    (found : Std.TreeMap String (List String)) (other : String) :
    (inner.foldl (fun found other => found.insert other (found.getD other [] ++ [name])) found).getD other [] =
      found.getD other [] ++ if other ∈ inner then [name] else [] := by
  induction inner generalizing found with
  | nil => simp
  | cons first inner ih =>
    obtain ⟨hfirst, hnodup⟩ := nodup_cons.1 hnodup
    rw [foldl_cons, ih hnodup, Std.TreeMap.getD_insert]
    by_cases heq : other = first
    · subst heq
      simp [hfirst]
    · have : ¬ compare first other = .eq := fun h => heq (Std.LawfulEqCmp.compare_eq_iff_eq.1 h).symm
      simp [heq, this]

theorem getD_holders (held : Containment) (other : String) : (holders held).getD other [] =
    (held.toList.filter fun entry => entry.2.contains other).map (·.1) := by
  have hall (entries : List (String × Std.TreeSet String)) (found : Std.TreeMap String (List String)) :
      (entries.foldl (fun found entry => entry.2.foldl
        (fun found other => found.insert other (found.getD other [] ++ [entry.1])) found) found).getD other [] =
      found.getD other [] ++ (entries.filter fun entry => entry.2.contains other).map (·.1) := by
    induction entries generalizing found with
    | nil => simp
    | cons entry entries ih =>
      rw [foldl_cons, ih, Std.TreeSet.foldl_eq_foldl_toList, getD_foldl_holder _ _ (nodup_toList _),
        append_assoc]
      by_cases hmem : other ∈ entry.2 <;> simp [hmem]
  rw [holders, Std.TreeMap.foldl_eq_foldl_toList, hall]
  simp

namespace Program

variable {p : Program} {order : List String} {name : String}

theorem mem_holders {other : String} : other ∈ (holders p.containment).getD name [] ↔ p.Holds other name := by
  rw [getD_holders, mem_map]
  constructor
  · rintro ⟨⟨_, inner⟩, hentry, rfl⟩
    obtain ⟨hmem, hcontains⟩ := mem_filter.1 hentry
    rw [Std.TreeMap.mem_toList_iff_getElem?_eq_some] at hmem
    have hdeclared := mem_containment.1 (Std.TreeMap.mem_iff_isSome_getElem?.2 (by rw [hmem]; rfl))
    obtain ⟨inner', hinner, hholds⟩ := getElem?_containment hdeclared
    cases hmem.symm.trans hinner
    exact (hholds name).1 hcontains
  · intro hholds
    obtain ⟨a, ha, -⟩ := hholds.2
    obtain ⟨inner, hinner, hmem⟩ := getElem?_containment ⟨a, ha⟩
    exact ⟨(other, inner), mem_filter.2
      ⟨Std.TreeMap.mem_toList_iff_getElem?_eq_some.2 hinner, (hmem name).2 hholds⟩, rfl⟩

theorem nodup_holders (p : Program) (name : String) : ((holders p.containment).getD name []).Nodup := by
  rw [getD_holders]
  refine pairwise_map.2 ((Std.TreeMap.distinct_keys_toList.filter _).imp fun hne heq => hne ?_)
  exact Std.LawfulEqCmp.compare_eq_iff_eq.2 heq

/-! ### One round -/

/-- All that the type holds has been placed. -/
def Ready (p : Program) (placed : List String) (name : String) : Prop :=
  ∀ inner, p.Holds name inner → inner ∈ placed

/-- The name is the least of those that are ready and have not been placed. -/
structure Next (p : Program) (placed : List String) (name : String) : Prop where
  declared : p.Declared name
  waits : name ∉ placed
  ready : p.Ready placed name
  least : ∀ other, p.Declared other → other ∉ placed → p.Ready placed other → name ≤ other

/-- The names were picked one after the other. -/
inductive Places (p : Program) : List String → Prop where
  | nil : Places p []
  | snoc {order : List String} {name : String} : Places p order → p.Next order name → Places p (order ++ [name])

theorem Places.next (h : p.Places order) {before rest : List String} (hsplit : order = before ++ name :: rest) :
    p.Next before name := by
  induction h generalizing rest with
  | nil => simp at hsplit
  | snoc _ hnext ih =>
    rcases eq_nil_or_concat rest with rfl | ⟨rest, last, rfl⟩
    · obtain ⟨rfl, heq⟩ := append_inj' hsplit rfl
      cases heq
      exact hnext
    · rw [concat_eq_append, ← cons_append, ← append_assoc] at hsplit
      exact ih (append_inj' hsplit rfl).1

theorem Places.nodup (h : p.Places order) : order.Nodup := by
  induction h with
  | nil => exact nodup_nil
  | snoc _ hnext ih => exact nodup_append.2 ⟨ih, by simp, fun a ha b hb heq => by
      rw [mem_singleton.1 hb] at heq
      exact hnext.waits (heq ▸ ha)⟩

theorem Places.mem_of_holds {other : String} (h : p.Places order) (hholds : p.Holds name other)
    (hname : name ∈ order) : other ∈ order := by
  obtain ⟨before, rest, rfl⟩ := append_of_mem hname
  exact mem_append_left _ ((h.next rfl).ready other hholds)

/-- How many of the types that it holds a type waits for. -/
def waitsFor (p : Program) (order : List String) (name : String) : Option Nat :=
  p.containment[name]?.map fun inner => inner.toList.countP (· ∉ order)

/-- **What holds between two rounds**: the counters count what is not placed yet, and the ready types are those that
wait for nothing. -/
structure Sorts (p : Program) (s : Sorting) : Prop where
  places : p.Places s.order
  pending : ∀ name, s.pending[name]? = p.waitsFor s.order name
  ready : ∀ name, name ∈ s.ready ↔ p.Declared name ∧ name ∉ s.order ∧ p.Ready s.order name

theorem ready_iff (h : p.Declared name) : p.Ready order name ↔ p.waitsFor order name = some 0 := by
  obtain ⟨inner, hinner, hmem⟩ := getElem?_containment h
  simp [waitsFor, hinner, Ready, ← hmem]

theorem waitsFor_of_not_declared (h : ¬ p.Declared name) : p.waitsFor order name = none := by
  rw [waitsFor, Std.TreeMap.getElem?_eq_none fun hmem => h (mem_containment.1 hmem)]
  rfl

theorem waitsFor_holder {other : String} (hname : name ∉ order) (h : p.Holds other name) :
    ∃ count, p.waitsFor order other = some (count + 1) ∧ p.waitsFor (order ++ [name]) other = some count := by
  obtain ⟨a, ha, -⟩ := h.2
  obtain ⟨inner, hinner, hmem⟩ := getElem?_containment ⟨a, ha⟩
  have hcount := countP_placed (nodup_toList inner) hname
  rw [if_pos (Std.TreeSet.mem_toList.2 ((hmem name).2 h))] at hcount
  exact ⟨inner.toList.countP (· ∉ order ++ [name]), by rw [waitsFor, hinner, Option.map_some, hcount],
    by rw [waitsFor, hinner, Option.map_some]⟩

theorem waitsFor_of_not_holds {other : String} (h : ¬ p.Holds other name) (hname : name ∉ order) :
    p.waitsFor (order ++ [name]) other = p.waitsFor order other := by
  by_cases hdeclared : p.Declared other
  · obtain ⟨inner, hinner, hmem⟩ := getElem?_containment hdeclared
    have hcount := countP_placed (nodup_toList inner) hname
    rw [if_neg fun hin => h ((hmem name).1 (Std.TreeSet.mem_toList.1 hin)), Nat.add_zero] at hcount
    rw [waitsFor, waitsFor, hinner, Option.map_some, Option.map_some, hcount]
  · rw [waitsFor_of_not_declared hdeclared, waitsFor_of_not_declared hdeclared]

end Program

/-- All of these types wait for one less. -/
theorem foldl_release {holders : List String} (hnodup : holders.Nodup) (s : Sorting)
    (hpending : ∀ name ∈ holders, ∃ count, s.pending[name]? = some (count + 1)) :
    (holders.foldl Sorting.release s).order = s.order ∧
      (∀ name, (holders.foldl Sorting.release s).pending[name]? =
        if name ∈ holders then (s.pending[name]?).map (· - 1) else s.pending[name]?) ∧
      ∀ name, name ∈ (holders.foldl Sorting.release s).ready ↔
        name ∈ s.ready ∨ name ∈ holders ∧ s.pending[name]? = some 1 := by
  induction holders generalizing s with
  | nil => simp
  | cons first holders ih =>
    obtain ⟨hfirst, hnodup⟩ := nodup_cons.1 hnodup
    obtain ⟨count, hcount⟩ := hpending first mem_cons_self
    have hrelease : s.release first = ⟨s.order, s.pending.insert first count,
        if count = 0 then s.ready.insert first else s.ready⟩ := by
      rw [Sorting.release, Std.TreeMap.get?_eq_getElem?, hcount]
    have hother {name : String} (hne : name ≠ first) : (s.pending.insert first count)[name]? = s.pending[name]? := by
      rw [Std.TreeMap.getElem?_insert, if_neg fun heq => hne (Std.LawfulEqCmp.compare_eq_iff_eq.1 heq).symm]
    rw [foldl_cons, hrelease]
    obtain ⟨horder, hcounts, hready⟩ := ih hnodup ⟨s.order, s.pending.insert first count, _⟩ fun name hname => by
      rw [hother fun heq => hfirst (heq ▸ hname)]
      exact hpending name (mem_cons_of_mem _ hname)
    refine ⟨horder, fun name => ?_, fun name => ?_⟩
    · rw [hcounts]
      by_cases heq : name = first
      · subst heq
        simp [hfirst, hcount]
      · simp [heq, hother heq]
    · rw [hready]
      by_cases heq : name = first
      · subst heq
        by_cases hzero : count = 0 <;> simp [hfirst, hcount, hzero]
      · rw [hother heq]
        by_cases hzero : count = 0 <;> simp [Ne.symm heq, heq, hzero]

namespace Program

variable {p : Program} {order : List String} {name : String} {s s' : Sorting}

theorem sorts_start (p : Program) : p.Sorts (.start p.containment) := by
  have hpending (name : String) : (Sorting.start p.containment).pending[name]? = p.waitsFor [] name := by
    rw [Sorting.start, waitsFor, Std.TreeMap.getElem?_map]
    simp [Std.TreeSet.length_toList]
  refine ⟨.nil, hpending, fun name => ?_⟩
  have hmem : name ∈ (Sorting.start p.containment).ready ↔
      (Sorting.start p.containment).pending[name]? = some 0 := by
    simp [Sorting.start, Std.TreeSet.mem_ofList]
  rw [hmem, hpending]
  by_cases hdeclared : p.Declared name
  · simp [hdeclared, ready_iff hdeclared, Sorting.start]
  · simp [hdeclared, waitsFor_of_not_declared hdeclared]

/-- **A round keeps the counters right**, and it picks the least name that is ready. -/
theorem Sorts.step (h : p.Sorts s) (hstep : s.step (holders p.containment) = some s') :
    p.Sorts s' ∧ s'.order.length = s.order.length + 1 := by
  obtain ⟨name, hmin, rfl⟩ := Option.map_eq_some_iff.1 hstep
  rw [← Std.TreeSet.min?_eq_head?_toList] at hmin
  obtain ⟨hname, hleast⟩ := Std.TreeSet.min?_eq_some_iff_mem_and_forall.1 hmin
  obtain ⟨hdeclared, hwaits, hready⟩ := (h.ready name).1 hname
  have hnext : p.Next s.order name := ⟨hdeclared, hwaits, hready, fun other hother hnot hready' =>
    compare_le_iff_le.1 (Ordering.isLE_iff_ne_gt.1 <| hleast other ((h.ready other).2 ⟨hother, hnot, hready'⟩))⟩
  obtain ⟨horder, hcounts, hnow⟩ := foldl_release (p.nodup_holders name)
    { s with order := s.order ++ [name], ready := s.ready.erase name } fun other hother => by
      obtain ⟨count, hcount, -⟩ := waitsFor_holder hwaits (mem_holders.1 hother)
      exact ⟨count, (h.pending other).trans hcount⟩
  simp only [h.pending, mem_holders] at hcounts hnow
  refine ⟨⟨horder ▸ h.places.snoc hnext, fun other => ?_, fun other => ?_⟩, by rw [horder]; simp⟩
  · rw [hcounts, horder]
    split
    · next hholds =>
      obtain ⟨count, hbefore, hafter⟩ := waitsFor_holder hwaits (mem_holders.1 hholds)
      rw [hbefore, hafter]
      rfl
    · next hnot => exact (waitsFor_of_not_holds (fun hholds => hnot (mem_holders.2 hholds)) hwaits).symm
  · rw [hnow, horder, Std.TreeSet.mem_erase, h.ready]
    by_cases hholds : p.Holds other name
    · -- What holds the name waited for it, and had no place.
      obtain ⟨a, ha, -⟩ := hholds.2
      obtain ⟨count, hbefore, hafter⟩ := waitsFor_holder hwaits hholds
      have hnot : ¬ p.Ready s.order other := fun hready => hwaits (hready name hholds)
      have hplace : other ∉ s.order := fun hmem => hwaits (h.places.mem_of_holds hholds hmem)
      have hne : other ≠ name := fun heq => hwaits (hready name (heq ▸ hholds))
      have hother : p.Declared other := ⟨a, ha⟩
      simp [hholds, hnot, hbefore, ready_iff hother, hafter, hother, hplace, hne]
    · by_cases heq : other = name
      · subst heq
        simp [hholds]
      · by_cases hother : p.Declared other
        · simp [hholds, hother, ready_iff hother, waitsFor_of_not_holds hholds hwaits, heq, Ne.symm heq]
        · simp [hholds, hother]

/-! ### All rounds -/

theorem Sorts.run (h : p.Sorts s) (rounds : Nat) :
    p.Sorts (s.run (holders p.containment) rounds) ∧
      ((s.run (holders p.containment) rounds).ready.toList = [] ∨
        (s.run (holders p.containment) rounds).order.length = s.order.length + rounds) := by
  induction rounds generalizing s with
  | zero => exact ⟨h, .inr rfl⟩
  | succ rounds ih =>
    rw [Sorting.run]
    split
    · next hstep => exact ⟨h, .inl (List.head?_eq_none_iff.1 (Option.map_eq_none_iff.1 hstep))⟩
    · next s' hstep =>
      obtain ⟨hnext, hlength⟩ := h.step hstep
      obtain ⟨hsorts, hend⟩ := ih hnext
      exact ⟨hsorts, hend.imp_right fun heq => by omega⟩

theorem mem_of_length_eq (h : p.Places order) (hlength : order.length = p.containment.size) (hname : p.Declared name) :
    name ∈ order := by
  have hsub : order ⊆ p.containment.keys := fun other hother => by
    obtain ⟨before, rest, rfl⟩ := append_of_mem hother
    exact Std.TreeMap.mem_keys.2 (mem_containment.2 (h.next rfl).declared)
  have hperm := (subperm_of_subset h.nodup hsub).perm_of_length_le (by rw [Std.TreeMap.length_keys, hlength])
  exact hperm.mem_iff.2 (Std.TreeMap.mem_keys.2 (mem_containment.2 hname))

/-- The order that the rounds end with. -/
def finalOrder (p : Program) : List String :=
  (Sorting.run (holders p.containment) p.containment.size (.start p.containment)).order

/-- **The rounds go on until no type is ready.** -/
theorem finalOrder_spec (p : Program) : p.Places p.finalOrder ∧
    ∀ name, p.Declared name → name ∉ p.finalOrder → ¬ p.Ready p.finalOrder name := by
  obtain ⟨hsorts, hend⟩ := p.sorts_start.run p.containment.size
  refine ⟨hsorts.places, fun name hdeclared hwaits hready => ?_⟩
  rcases hend with hnone | hlength
  · have hmem := (hsorts.ready name).2 ⟨hdeclared, hwaits, hready⟩
    rw [← Std.TreeSet.mem_toList, hnone] at hmem
    cases hmem
  · exact hwaits (mem_of_length_eq hsorts.places (hlength.trans (Nat.zero_add _)) hdeclared)

/-! ### Cycles -/

/-- Where everything that is left holds something that is left, a type contains itself. -/
theorem exists_cycle {left : List String} (hne : left ≠ [])
    (h : ∀ name ∈ left, ∃ inner ∈ left, p.Holds name inner) : ∃ name, Relation.TransGen p.Holds name name := by
  by_contra hacyclic
  push Not at hacyclic
  -- Without a cycle, containment is well-founded among finitely many types.
  let within (a b : {name // name ∈ left}) : Prop := Relation.TransGen p.Holds b.1 a.1
  have : IsTrans _ within := ⟨fun _ _ _ hab hbc => hbc.trans hab⟩
  have : Std.Irrefl within := ⟨fun a => hacyclic a.1⟩
  have : Finite {name // name ∈ left} := inferInstance
  obtain ⟨first, hfirst⟩ := exists_mem_of_ne_nil left hne
  obtain ⟨⟨name, hname⟩, -, hmin⟩ :=
    (Finite.wellFounded_of_trans_of_irrefl within).has_min Set.univ ⟨⟨first, hfirst⟩, trivial⟩
  obtain ⟨inner, hinner, hholds⟩ := h name hname
  exact hmin ⟨inner, hinner⟩ trivial (.single hholds)

/-- The names of all structs and enums, each behind those it holds and the least that could
stand there. -/
structure LaidOut (p : Program) (names : List String) : Prop where
  nodup : names.Nodup
  mem_iff : ∀ name, name ∈ names ↔ p.Declared name
  behind : ∀ before name rest, names = before ++ name :: rest → p.Ready before name
  least : ∀ before name rest, names = before ++ name :: rest →
    ∀ other, p.Declared other → other ∉ before → p.Ready before other →
      Text.bytes name ≤ Text.bytes other

/-- Types that are laid out do not contain themselves: what a type contains has a lower place. -/
theorem LaidOut.acyclic {names : List String} (h : p.LaidOut names) :
    ¬ ∃ name, Relation.TransGen p.Holds name name := by
  rintro ⟨name, hcycle⟩
  have hstep (outer inner : String) (hholds : p.Holds outer inner) : names.idxOf inner < names.idxOf outer := by
    obtain ⟨a, ha, -⟩ := hholds.2
    obtain ⟨before, rest, hsplit⟩ := append_of_mem ((h.mem_iff outer).2 ⟨a, ha⟩)
    have hinner := h.behind before outer rest hsplit inner hholds
    have hnot : outer ∉ before := fun hmem => by
      have := h.nodup
      rw [hsplit, nodup_append] at this
      exact this.2.2 outer hmem outer (by simp) rfl
    rw [hsplit, idxOf_append_of_mem hinner, idxOf_append_of_notMem hnot]
    have := idxOf_lt_length_iff.2 hinner
    omega
  have hlower (outer inner : String) (hholds : Relation.TransGen p.Holds outer inner) :
      names.idxOf inner < names.idxOf outer := by
    induction hholds with
    | single hone => exact hstep _ _ hone
    | tail _ hone ih => exact (hstep _ _ hone).trans ih
  exact Nat.lt_irrefl _ (hlower name name hcycle)

/-! ### The order -/

theorem defines_of_aggregate? {a : Aggregate} (h : p.aggregate? name = some a) : p.Defines name a := by
  rw [aggregate?, Option.orElse_eq_orElse, Option.orElse_eq_or, Option.or_eq_some_iff] at h
  rcases h with h | ⟨-, h⟩
  all_goals
    obtain ⟨layout, hlayout, rfl⟩ := Option.map_eq_some_iff.1 h
    exact hlayout

theorem isSome_aggregate? (h : p.Declared name) : (p.aggregate? name).isSome := by
  obtain ⟨layout | layout, h⟩ := h
  all_goals
    rw [Defines, Std.TreeMap.get?_eq_getElem?] at h
    simp [aggregate?, h]

theorem forall₂_filterMap {names : List String} (h : ∀ name ∈ names, p.Declared name) :
    List.Forall₂ p.Defines names (names.filterMap p.aggregate?) := by
  induction names with
  | nil => exact .nil
  | cons name names ih =>
    obtain ⟨a, ha⟩ := Option.isSome_iff_exists.1 (isSome_aggregate? (h name (by simp)))
    rw [filterMap_cons_some ha]
    exact .cons (defines_of_aggregate? ha) (ih fun other hother => h other (by simp [hother]))

theorem laidOut_of_places (h : p.Places order) (hall : ∀ name, p.Declared name → name ∈ order) : p.LaidOut order where
  nodup := h.nodup
  mem_iff name := by
    refine ⟨fun hmem => ?_, hall name⟩
    obtain ⟨before, rest, hsplit⟩ := append_of_mem hmem
    exact (h.next hsplit).declared
  behind before name rest hsplit := (h.next hsplit).ready
  least before name rest hsplit other hother hnot hready :=
    Text.bytes_le_bytes_iff.2 ((h.next hsplit).least other hother hnot hready)

/-- If no type is ready, those that are left contain each other. -/
theorem exists_cycle_of_waiting (hstuck : ∀ name, p.Declared name → name ∉ order → ¬ p.Ready order name)
    (hleft : ∃ name, p.Declared name ∧ name ∉ order) : ∃ name, Relation.TransGen p.Holds name name := by
  obtain ⟨first, hfirst, hwaits⟩ := hleft
  have hne : p.aggregateNames.filter (· ∉ order) ≠ [] :=
    ne_nil_of_mem (mem_filter.2 ⟨mem_aggregateNames.2 hfirst, decide_eq_true hwaits⟩)
  refine exists_cycle hne fun name hname => ?_
  obtain ⟨hmem, hnot⟩ := mem_filter.1 hname
  have hready := hstuck name (mem_aggregateNames.1 hmem) (of_decide_eq_true hnot)
  rw [Ready] at hready
  push Not at hready
  obtain ⟨inner, hholds, hinner⟩ := hready
  exact ⟨inner, mem_filter.2 ⟨mem_aggregateNames.2 hholds.1, decide_eq_true hinner⟩, hholds⟩

theorem length_finalOrder_iff (p : Program) :
    p.finalOrder.length = p.containment.size ↔ ∀ name, p.Declared name → name ∈ p.finalOrder := by
  refine ⟨fun hlength _ => mem_of_length_eq p.finalOrder_spec.1 hlength, fun hall => ?_⟩
  rw [← Std.TreeMap.length_keys]
  refine (List.Perm.length_eq ?_)
  refine (perm_ext_iff_of_nodup p.finalOrder_spec.1.nodup Std.TreeMap.nodup_keys).2 fun name => ?_
  rw [Std.TreeMap.mem_keys, mem_containment]
  exact (laidOut_of_places p.finalOrder_spec.1 hall).mem_iff name

theorem layoutOrderBy_eq (components : Graph.Digraph String → List (List Nat)) (p : Program) :
    p.layoutOrderBy components = if p.finalOrder.length = p.containment.size then
      .ok (p.finalOrder.filterMap p.aggregate?) else
      .error ⟨findCycles components p.containment (.ofList p.finalOrder)⟩ := rfl

/-- **The layout order is a topological order, and there is one unless a type contains itself**, whatever finds the
components for the error. -/
theorem layoutOrder_topological (components : Graph.Digraph String → List (List Nat)) (p : Program) :
    ((∃ order, p.layoutOrderBy components = .ok order) ↔ ¬ ∃ name, Relation.TransGen p.Holds name name) ∧
      ∀ order, p.layoutOrderBy components = .ok order →
        ∃ names, p.LaidOut names ∧ List.Forall₂ p.Defines names order := by
  obtain ⟨hplaces, hstuck⟩ := p.finalOrder_spec
  rw [layoutOrderBy_eq]
  split
  · next hlength =>
    have hlaid := laidOut_of_places hplaces (p.length_finalOrder_iff.1 hlength)
    refine ⟨⟨fun _ => hlaid.acyclic, fun _ => ⟨_, rfl⟩⟩, fun order horder => ⟨_, hlaid, ?_⟩⟩
    cases horder
    exact forall₂_filterMap fun name hname => (hlaid.mem_iff name).1 hname
  · next hlength =>
    have hleft : ∃ name, p.Declared name ∧ name ∉ p.finalOrder := by
      by_contra hnone
      push Not at hnone
      exact hlength (p.length_finalOrder_iff.2 hnone)
    refine ⟨⟨fun ⟨order, horder⟩ => ?_, fun hacyclic => ?_⟩, fun order horder => ?_⟩
    · cases horder
    · exact absurd (exists_cycle_of_waiting hstuck hleft) hacyclic
    · cases horder

/-- A figure is many figures in a list, or one line between two points. -/
def outline : Program :=
  { structs := (∅ : Std.TreeMap String StructLayout)
      |>.insert "Line" ⟨"Line", [("from", .struct "Point"), ("to", .struct "Point")]⟩
      |>.insert "Point" ⟨"Point", [("x", .int .i64), ("y", .int .i64)]⟩
    enums := (∅ : Std.TreeMap String EnumLayout)
      |>.insert "Figure"
        ⟨"Figure", [⟨"Many", some (.list (.enum "Figure"))⟩, ⟨"One", some (.struct "Line")⟩]⟩ }

theorem layoutOrder_topological_outline : ∃ order names, outline.layoutOrder = .ok order ∧
    order.map Aggregate.isEnum = [false, false, true] ∧ outline.LaidOut names ∧
      List.Forall₂ outline.Defines names order := by
  have hkinds : outline.layoutOrder.toOption.map (·.map Aggregate.isEnum) = some [false, false, true] := by
    decide +kernel
  obtain ⟨order, horder, hkinds⟩ := Option.map_eq_some_iff.1 hkinds
  have hok : outline.layoutOrder = .ok order := by
    cases h : outline.layoutOrder with
    | error e => simp [h, Except.toOption] at horder
    | ok found => simpa [h, Except.toOption] using horder
  obtain ⟨names, hnames⟩ := (layoutOrder_topological _ outline).2 order hok
  exact ⟨order, names, hok, hkinds, hnames⟩

end Program
end Keel.Ir
