/-
# Which types stand in the way of a layout

Where types contain each other by value there is no layout, and the error lists them.  The cycles
are looked for among the types that found no place.  These are not only the types on a cycle but
also all that contain one; on the other hand, whatever leads to a type without a place has none
itself.  So no path between two members of a cycle is lost, and what is listed are the strongly
connected components of containment that are cycles (`layoutOrder_cycles`).
-/
import Keel.Proofs.Graph.Components
import Keel.Proofs.Ir.Ordering

namespace Keel.Ir

open Relation List Text

/-! ### Sorted lists -/

theorem mem_sorted {α : Type} [Ord α] {a : α} {l : List α} : a ∈ sorted l ↔ a ∈ l := mem_mergeSort

theorem pairwise_sorted {α : Type} [Ord α] [Std.TransOrd α] [Std.LawfulEqOrd α] {l : List α} (h : l.Nodup) :
    (sorted l).Pairwise (compare · · = .lt) := by
  have htotal (a b : α) : (compare a b).isLE || (compare b a).isLE := by
    rw [Bool.or_eq_true, ← Std.OrientedCmp.isGE_iff_isLE (a := a)]
    cases compare a b <;> simp
  have hle := pairwise_mergeSort (fun _ _ _ => Std.TransCmp.isLE_trans) htotal l
  refine (hle.and ((mergeSort_perm l _).nodup_iff.2 h)).imp fun {a b} hboth => ?_
  obtain ⟨hle, hne⟩ := hboth
  exact (Ordering.isLE_iff_eq_lt_or_eq_eq.1 hle).resolve_right fun heq => hne (Std.LawfulEqCmp.compare_eq_iff_eq.1 heq)

theorem compare_eq_lt_iff {as bs : List String} : compare as bs = .lt ↔ as.map bytes < bs.map bytes := by
  induction as generalizing bs with
  | nil => cases bs <;> simp
  | cons a as ih =>
    cases bs with
    | nil => simp
    | cons b bs =>
      have hbytes : a = b ↔ bytes a = bytes b := ⟨congrArg _, fun heq =>
        le_antisymm (bytes_le_bytes_iff.1 (heq ▸ List.le_refl _)) (bytes_le_bytes_iff.1 (heq ▸ List.le_refl _))⟩
      rw [List.compare_cons_cons, Ordering.then_eq_lt, ih, List.map_cons, List.map_cons, List.cons_lt_cons_iff,
        compare_lt_iff_lt, bytes_lt_bytes_iff, Std.LawfulEqCmp.compare_eq_iff_eq, hbytes]

/-! ### The graph of the types without a place -/

section Index

variable {found : List String × Std.TreeMap String Nat} {name : String}

/-- The index has the number of each node. -/
def Indexed (found : List String × Std.TreeMap String Nat) : Prop :=
  ∀ (name : String) (number : Nat), found.2[name]? = some number ↔ found.1[number]? = some name

theorem Indexed.addNode (h : Indexed found) (hname : name ∉ found.1) : Indexed (addNode found name) := by
  intro other number
  have hnew (i : Nat) : found.1[i]? ≠ some name := fun hi => hname (mem_of_getElem? hi)
  rw [Ir.addNode, Std.TreeMap.getElem?_insert, List.getElem?_append]
  by_cases heq : name = other
  · subst heq
    rw [if_pos Std.ReflCmp.compare_self, Option.some_inj]
    split
    · simp only [hnew, iff_false]
      omega
    · rw [List.getElem?_singleton]
      split <;> simp <;> omega
  · rw [if_neg fun h => heq (Std.LawfulEqCmp.compare_eq_iff_eq.1 h), h]
    split
    · rfl
    · next hge => simp [List.getElem?_eq_none (Nat.le_of_not_lt hge), List.getElem?_singleton, heq]

theorem indexed_foldl (names : List String) (h : Indexed found) (hnodup : (found.1 ++ names).Nodup) :
    Indexed (names.foldl addNode found) ∧ (names.foldl addNode found).1 = found.1 ++ names := by
  induction names generalizing found with
  | nil => exact ⟨h, by simp⟩
  | cons name names ih =>
    have hname : name ∉ found.1 := fun hmem => (nodup_append.1 hnodup).2.2 name hmem name mem_cons_self rfl
    rw [append_cons] at hnodup
    obtain ⟨hindexed, heq⟩ := ih (h.addNode hname) hnodup
    exact ⟨hindexed, heq.trans (append_assoc ..)⟩

end Index

namespace Program

variable {p : Program} {placed order : List String} {name other : String}

def Connected (p : Program) (name other : String) : Prop :=
  ReflTransGen p.Holds name other ∧ ReflTransGen p.Holds other name

def Waits (p : Program) (placed : List String) (name : String) : Prop :=
  p.Declared name ∧ name ∉ placed

/-- Containment among the types that wait. -/
def HoldsWaiting (p : Program) (placed : List String) (outer inner : String) : Prop :=
  p.Waits placed outer ∧ p.Waits placed inner ∧ p.Holds outer inner

theorem declared_of_holds (h : p.Holds name other) : p.Declared name :=
  have ⟨a, ha, _⟩ := h.2
  ⟨a, ha⟩

/-- The graph in which the cycles are looked for. -/
def leftover (p : Program) (order : List String) : Graph.Digraph String := unplaced p.containment (.ofList order)

variable {i j : Nat}

theorem exists_index (p : Program) (order : List String) : ∃ index, Indexed ((p.leftover order).nodes, index) ∧
    (p.leftover order).nodes = p.containment.keys.filter (· ∉ order) ∧
      (p.leftover order).edges = edgesAmong p.containment index := by
  have hkeys : (p.containment.keys.filter fun name => !(Std.TreeSet.ofList order).contains name) =
      p.containment.keys.filter (· ∉ order) := by
    refine filter_congr fun name _ => ?_
    simp
  have hnone : Indexed ([], ∅) := fun _ _ => by simp
  obtain ⟨hindexed, heq⟩ := indexed_foldl (p.containment.keys.filter (· ∉ order)) hnone
    (by simpa using Std.TreeMap.nodup_keys.filter _)
  rw [leftover, unplaced, hkeys]
  exact ⟨_, hindexed, heq, rfl⟩

theorem nodup_leftover (p : Program) (order : List String) : (p.leftover order).nodes.Nodup := by
  obtain ⟨_, -, hnodes, -⟩ := p.exists_index order
  rw [hnodes]
  exact Std.TreeMap.nodup_keys.filter _

theorem number_unique (hi : (p.leftover order).nodes[i]? = some name) (hj : (p.leftover order).nodes[j]? = some name) :
    i = j := (List.getElem?_inj (List.getElem?_eq_some_iff.1 hi).1 (p.nodup_leftover order)).1 (hi.trans hj.symm)

theorem exists_number_iff : (∃ i : Nat, (p.leftover order).nodes[i]? = some name) ↔ p.Waits order name := by
  obtain ⟨_, -, hnodes, -⟩ := p.exists_index order
  rw [← mem_iff_getElem?, hnodes, mem_filter, Std.TreeMap.mem_keys, mem_containment, decide_eq_true_iff]
  rfl

theorem mem_edges_iff : (i, j) ∈ (p.leftover order).edges ↔ ∃ name other, (p.leftover order).nodes[i]? = some name ∧
    (p.leftover order).nodes[j]? = some other ∧ p.Holds name other := by
  obtain ⟨index, hindexed, -, hedges⟩ := p.exists_index order
  rw [hedges, edgesAmong, mem_flatMap]
  constructor
  · rintro ⟨⟨name, inner⟩, hentry, hmem⟩
    cases hsource : index.get? name with
    | none =>
      simp only [hsource] at hmem
      cases hmem
    | some source =>
      simp only [hsource, mem_filterMap, Option.map_eq_some_iff, Prod.mk.injEq] at hmem
      obtain ⟨other, hother, _, htarget, rfl, rfl⟩ := hmem
      have hget := Std.TreeMap.mem_toList_iff_getElem?_eq_some.1 hentry
      obtain ⟨inner', hinner, hholds⟩ := getElem?_containment
        (mem_containment.1 (Std.TreeMap.mem_iff_isSome_getElem?.2 (by rw [hget]; rfl)))
      cases hget.symm.trans hinner
      exact ⟨name, other, (hindexed _ _).1 hsource, (hindexed _ _).1 htarget,
        (hholds other).1 (Std.TreeSet.mem_toList.1 hother)⟩
  · rintro ⟨name, other, hname, hother, hholds⟩
    obtain ⟨inner, hinner, hmem⟩ := getElem?_containment (declared_of_holds hholds)
    refine ⟨(name, inner), Std.TreeMap.mem_toList_iff_getElem?_eq_some.2 hinner, ?_⟩
    have hsource : index.get? name = some i := (hindexed _ _).2 hname
    simp only [hsource, mem_filterMap, Option.map_eq_some_iff, Prod.mk.injEq]
    exact ⟨other, Std.TreeSet.mem_toList.2 ((hmem other).2 hholds), j, (hindexed _ _).2 hother, trivial, rfl⟩

theorem leads_iff (hname : (p.leftover order).nodes[i]? = some name) (hother : (p.leftover order).nodes[j]? = some other) :
    (p.leftover order).Leads i j ↔ ReflTransGen (p.HoldsWaiting order) name other := by
  constructor
  · intro h
    induction h generalizing other with
    | refl =>
      cases hname.symm.trans hother
      exact .refl
    | tail _ hedge ih =>
      obtain ⟨between, last, hbetween, hlast, hholds⟩ := mem_edges_iff.1 hedge
      cases hlast.symm.trans hother
      exact (ih hbetween).tail ⟨exists_number_iff.1 ⟨_, hbetween⟩, exists_number_iff.1 ⟨_, hlast⟩, hholds⟩
  · intro h
    induction h generalizing j with
    | refl =>
      obtain rfl := number_unique hname hother
      exact .refl
    | tail _ hone ih =>
      obtain ⟨k, hk⟩ := exists_number_iff.2 hone.1
      exact (ih hk).tail (mem_edges_iff.2 ⟨_, _, hk, hother, hone.2.2⟩)

theorem inRange_leftover (p : Program) (order : List String) : (p.leftover order).InRange := by
  rintro ⟨i, j⟩ hedge
  obtain ⟨name, other, hname, hother, -⟩ := mem_edges_iff.1 hedge
  exact ⟨(List.getElem?_eq_some_iff.1 hname).1, (List.getElem?_eq_some_iff.1 hother).1⟩

/-! ### What is placed is on no cycle -/

/-- All that a placed type contains has been placed before it. -/
theorem Places.mem_before (h : p.Places order) {before rest : List String} (hsplit : order = before ++ name :: rest)
    (hholds : TransGen p.Holds name other) : other ∈ before := by
  induction hholds with
  | single hone => exact (h.next hsplit).ready _ hone
  | tail _ hone ih =>
    obtain ⟨earlier, later, rfl⟩ := append_of_mem ih
    rw [append_assoc, cons_append] at hsplit
    exact mem_append_left _ ((h.next hsplit).ready _ hone)

theorem declared_of_transGen (h : TransGen p.Holds name other) : p.Declared name :=
  have ⟨_, hone, _⟩ := TransGen.head'_iff.1 h
  declared_of_holds hone

/-- A type that contains itself finds no place. -/
theorem Places.waits_of_cycle (h : p.Places order) (hcycle : TransGen p.Holds name name) :
    p.Waits order name := by
  refine ⟨declared_of_transGen hcycle, fun hmem => ?_⟩
  obtain ⟨before, rest, hsplit⟩ := append_of_mem hmem
  exact (h.next hsplit).waits (h.mem_before hsplit hcycle)

/-- **No path to a type without a place is lost**: all types on it wait. -/
theorem Places.reflTransGen_waiting (h : p.Places order) (hpath : ReflTransGen p.Holds name other)
    (hother : p.Waits order other) : p.Waits order name ∧ ReflTransGen (p.HoldsWaiting order) name other := by
  induction hpath using ReflTransGen.head_induction_on with
  | refl => exact ⟨hother, .refl⟩
  | head hone _ ih =>
    obtain ⟨hwaits, hpath⟩ := ih
    have hfirst : p.Waits order _ :=
      ⟨declared_of_holds hone, fun hmem => hwaits.2 (h.mem_of_holds hone hmem)⟩
    exact ⟨hfirst, .head ⟨hfirst, hwaits, hone⟩ hpath⟩

theorem Places.connected_iff (h : p.Places order) (hname : p.Waits order name) :
    p.Connected name other ↔ p.Waits order other ∧ ReflTransGen (p.HoldsWaiting order) name other ∧
      ReflTransGen (p.HoldsWaiting order) other name := by
  constructor
  · rintro ⟨hto, hback⟩
    obtain ⟨hother, hback'⟩ := h.reflTransGen_waiting hback hname
    exact ⟨hother, (h.reflTransGen_waiting hto hother).2, hback'⟩
  · rintro ⟨-, hto, hback⟩
    have hmono := ReflTransGen.mono (r := p.HoldsWaiting order) (p := p.Holds) fun _ _ hone => hone.2.2
    exact ⟨hmono _ _ hto, hmono _ _ hback⟩

/-! ### Cycles -/

/-- The set is a strongly connected component of containment, and a cycle: it has more than one
member, or its member contains itself. -/
def IsCycle (p : Program) (component : Set String) : Prop :=
  ∃ name, p.Declared name ∧ component = {other | p.Connected name other} ∧
    ((∃ other, p.Connected name other ∧ other ≠ name) ∨ p.Holds name name)

/-- Whoever contains itself does so directly, or by way of another type that it is connected to. -/
theorem transGen_self_iff : TransGen p.Holds name name ↔
    (∃ other, p.Connected name other ∧ other ≠ name) ∨ p.Holds name name := by
  constructor
  · intro h
    obtain ⟨inner, hone, hback⟩ := TransGen.head'_iff.1 h
    by_cases heq : inner = name
    · exact .inr (heq ▸ hone)
    · exact .inl ⟨inner, ⟨.single hone, hback⟩, heq⟩
  · rintro (⟨other, ⟨hto, hback⟩, hne⟩ | hself)
    · rcases reflTransGen_iff_eq_or_transGen.1 hto with heq | hto
      · exact absurd heq hne
      · exact hto.trans_left hback
    · exact .single hself

theorem isCycle_iff {component : Set String} : p.IsCycle component ↔
    ∃ name, TransGen p.Holds name name ∧ component = {other | p.Connected name other} := by
  constructor
  · rintro ⟨name, -, hcomponent, hcycle⟩
    exact ⟨name, transGen_self_iff.2 hcycle, hcomponent⟩
  · rintro ⟨name, hcycle, hcomponent⟩
    exact ⟨name, declared_of_transGen hcycle, hcomponent, transGen_self_iff.1 hcycle⟩

theorem Connected.refl (p : Program) (name : String) : p.Connected name name := ⟨.refl, .refl⟩

theorem Connected.symm (h : p.Connected name other) : p.Connected other name := ⟨h.2, h.1⟩

theorem Connected.trans {last : String} (h : p.Connected name other) (h' : p.Connected other last) :
    p.Connected name last := ⟨h.1.trans h'.1, h'.2.trans h.2⟩

theorem Connected.transGen (h : p.Connected name other) (hcycle : TransGen p.Holds name name) :
    TransGen p.Holds other other := (hcycle.trans_right h.2).trans_left h.1

/-! ### Components as sets of names -/

section Members

variable {components : List (List Nat)} {component : List Nat} (h : p.Places order)
  (hcomponents : (p.leftover order).Components components) (hmem : component ∈ components)

/-- The names of the nodes. -/
def namesOf (p : Program) (order : List String) (component : List Nat) : List String :=
  component.filterMap ((p.leftover order).nodes[·]?)

theorem mem_namesOf : name ∈ p.namesOf order component ↔ ∃ i ∈ component, (p.leftover order).nodes[i]? = some name :=
  mem_filterMap

include hcomponents in
/-- Every type without a place is in a component. -/
theorem exists_component (hname : p.Waits order name) :
    ∃ component ∈ components, name ∈ p.namesOf order component := by
  obtain ⟨i, hi⟩ := exists_number_iff.2 hname
  have hlt := (List.getElem?_eq_some_iff.1 hi).1
  obtain ⟨component, hmem, hi'⟩ := mem_flatten.1 ((hcomponents.mem_iff i).2 hlt)
  exact ⟨component, hmem, mem_namesOf.2 ⟨i, hi', hi⟩⟩

include hcomponents hmem

theorem nodup_namesOf : (p.namesOf order component).Nodup := by
  refine ((nodup_flatten.1 hcomponents.nodup).1 component hmem).filterMap fun _ _ _ => number_unique

include h

theorem Places.mem_namesOf_iff (hname : name ∈ p.namesOf order component) :
    other ∈ p.namesOf order component ↔ p.Connected name other := by
  obtain ⟨i, hi, hnode⟩ := mem_namesOf.1 hname
  have hwaits : p.Waits order name := exists_number_iff.1 ⟨i, hnode⟩
  rw [h.connected_iff hwaits, mem_namesOf]
  constructor
  · rintro ⟨j, hj, hother⟩
    obtain ⟨hto, hback⟩ := (hcomponents.connected component hmem i hi j).1 hj
    exact ⟨exists_number_iff.1 ⟨j, hother⟩, (leads_iff hnode hother).1 hto, (leads_iff hother hnode).1 hback⟩
  · rintro ⟨hother, hto, hback⟩
    obtain ⟨j, hj⟩ := exists_number_iff.2 hother
    exact ⟨j, (hcomponents.connected component hmem i hi j).2 ⟨(leads_iff hnode hj).2 hto, (leads_iff hj hnode).2 hback⟩, hj⟩

theorem Places.isCycle_component (hname : name ∈ p.namesOf order component) :
    isCycle (p.leftover order) component ↔ TransGen p.Holds name name := by
  have hnodup := (nodup_flatten.1 hcomponents.nodup).1 component hmem
  obtain ⟨first, rest, rfl⟩ := exists_cons_of_ne_nil fun hnil => hcomponents.nonempty (hnil ▸ hmem)
  have hlt : first < (p.leftover order).nodes.length :=
    (hcomponents.mem_iff first).1 (mem_flatten.2 ⟨_, hmem, mem_cons_self⟩)
  have hfirst := List.getElem?_eq_getElem hlt
  generalize (p.leftover order).nodes[first] = start at hfirst
  have hstart : start ∈ p.namesOf order (first :: rest) := mem_namesOf.2 ⟨first, mem_cons_self, hfirst⟩
  have hconnected := (h.mem_namesOf_iff hcomponents hmem hstart).1 hname
  have hself : (p.leftover order).hasEdge first first ↔ p.Holds start start := by
    rw [Graph.Digraph.hasEdge, contains_iff_mem, mem_edges_iff]
    constructor
    · rintro ⟨_, _, hone, htwo, hholds⟩
      cases hone.symm.trans hfirst
      cases htwo.symm.trans hfirst
      exact hholds
    · exact fun hholds => ⟨_, _, hfirst, hfirst, hholds⟩
  have hmore : 1 < (first :: rest).length ↔ ∃ other, p.Connected start other ∧ other ≠ start := by
    simp only [← h.mem_namesOf_iff hcomponents hmem hstart, mem_namesOf]
    constructor
    · intro hlength
      obtain ⟨second, hsecond⟩ := exists_mem_of_length_pos (l := rest) (by simpa using hlength)
      have hlt' : second < (p.leftover order).nodes.length :=
        (hcomponents.mem_iff second).1 (mem_flatten.2 ⟨_, hmem, mem_cons_of_mem _ hsecond⟩)
      have hname' := List.getElem?_eq_getElem hlt'
      refine ⟨_, ⟨second, mem_cons_of_mem _ hsecond, hname'⟩, fun heq => ?_⟩
      exact (nodup_cons.1 hnodup).1 (number_unique hfirst (heq ▸ hname') ▸ hsecond)
    · rintro ⟨other, ⟨j, hj, hother⟩, hne⟩
      rcases mem_cons.1 hj with rfl | hrest
      · exact absurd (Option.some.inj (hother.symm.trans hfirst)) hne
      · have := length_pos_of_mem hrest
        simpa using this
  have hcycle : isCycle (p.leftover order) (first :: rest) ↔ TransGen p.Holds start start := by
    rw [isCycle, Bool.or_eq_true, decide_eq_true_iff, gt_iff_lt, hmore, transGen_self_iff, List.head?_cons, Option.any_some,
      hself]
  rw [hcycle]
  exact ⟨hconnected.transGen, hconnected.symm.transGen⟩

end Members

/-! ### What the error lists -/

/-- The list has every cycle of the program once, with its members in order, and nothing else; the
cycles are in order themselves.  So it names the types that contain themselves, and not those that
only contain such types. -/
structure NamesCycles (p : Program) (cycles : List (List String)) : Prop where
  mem_iff : ∀ members, members ∈ cycles ↔
    members.Pairwise (bytes · < bytes ·) ∧ p.IsCycle {name | name ∈ members}
  sorted : cycles.Pairwise (·.map bytes < ·.map bytes)
  named : ∀ name, (∃ members ∈ cycles, name ∈ members) ↔ TransGen p.Holds name name

theorem eq_of_sorted_of_mem_iff {a b : List String} (ha : a.Pairwise (· < ·)) (hb : b.Pairwise (· < ·))
    (h : ∀ name, name ∈ a ↔ name ∈ b) : a = b :=
  ((perm_ext_iff_of_nodup (ha.imp ne_of_lt) (hb.imp ne_of_lt)).2 h).eq_of_pairwise
    (fun _ _ _ _ hlt hlt' => absurd hlt' (lt_asymm hlt)) ha hb

/-- What is sorted and has the members of a cycle is listed. -/
theorem mem_findCycles_iff {components : Graph.Digraph String → List (List Nat)} {members : List String} :
    members ∈ findCycles components p.containment (.ofList order) ↔ ∃ component ∈ components (p.leftover order),
      isCycle (p.leftover order) component ∧
        sorted (p.namesOf order component) = members := by
  rw [findCycles, mem_sorted, mem_map]
  simp only [mem_filter, and_assoc]
  rfl

theorem sorted_namesOf {components : List (List Nat)} {component : List Nat}
    (hcomponents : (p.leftover order).Components components) (hmem : component ∈ components) :
    (sorted (p.namesOf order component)).Pairwise (· < ·) :=
  (pairwise_sorted (nodup_namesOf hcomponents hmem)).imp compare_lt_iff_lt.1

theorem Places.namesCycles (h : p.Places order) {components : Graph.Digraph String → List (List Nat)}
    (hcomponents : (p.leftover order).Components (components (p.leftover order))) :
    p.NamesCycles (findCycles components p.containment (.ofList order)) := by
  have hfound {component : List Nat} (hmem : component ∈ components (p.leftover order))
      (hcycle : isCycle (p.leftover order) component) : ∃ name, TransGen p.Holds name name ∧
        {other | other ∈ p.namesOf order component} = {other | p.Connected name other} := by
    obtain ⟨i, hi⟩ := exists_mem_of_ne_nil component fun hnil => hcomponents.nonempty (hnil ▸ hmem)
    have hlt := (hcomponents.mem_iff i).1 (mem_flatten.2 ⟨_, hmem, hi⟩)
    have hname := mem_namesOf.2 ⟨i, hi, List.getElem?_eq_getElem hlt⟩
    exact ⟨_, (h.isCycle_component hcomponents hmem hname).1 hcycle,
      Set.ext fun other => h.mem_namesOf_iff hcomponents hmem hname⟩
  have hlisted {name : String} (hcycle : TransGen p.Holds name name) : ∃ component ∈ components (p.leftover order),
      isCycle (p.leftover order) component ∧ name ∈ p.namesOf order component := by
    obtain ⟨component, hmem, hname⟩ := exists_component hcomponents (h.waits_of_cycle hcycle)
    exact ⟨component, hmem, (h.isCycle_component hcomponents hmem hname).2 hcycle, hname⟩
  refine ⟨fun members => ?_, ?_, fun name => ?_⟩
  · simp only [bytes_lt_bytes_iff, mem_findCycles_iff, isCycle_iff]
    constructor
    · rintro ⟨component, hmem, hcycle, rfl⟩
      obtain ⟨name, hname, heq⟩ := hfound hmem hcycle
      refine ⟨sorted_namesOf hcomponents hmem, name, hname, ?_⟩
      simpa only [mem_sorted] using heq
    · rintro ⟨hsorted, name, hname, heq⟩
      obtain ⟨component, hmem, hcycle, hin⟩ := hlisted hname
      refine ⟨component, hmem, hcycle, eq_of_sorted_of_mem_iff (sorted_namesOf hcomponents hmem) hsorted fun other => ?_⟩
      rw [mem_sorted, h.mem_namesOf_iff hcomponents hmem hin]
      exact (Set.ext_iff.1 heq other).symm
  · -- Two components have no member in common, so no two lists are equal.
    simp only [← compare_eq_lt_iff]
    refine pairwise_sorted (pairwise_map.2 ?_)
    refine ((nodup_flatten.1 hcomponents.nodup).2.filter _).imp_of_mem fun {a b} ha hb hdisjoint heq => ?_
    have hmem := (mem_filter.1 ha).1
    obtain ⟨i, hi⟩ := exists_mem_of_ne_nil a fun hnil => hcomponents.nonempty (hnil ▸ hmem)
    have hlt := (hcomponents.mem_iff i).1 (mem_flatten.2 ⟨_, hmem, hi⟩)
    have hname := mem_namesOf.2 ⟨i, hi, List.getElem?_eq_getElem hlt⟩
    have hname' : (p.leftover order).nodes[i] ∈ p.namesOf order b := by
      rw [← mem_sorted]
      exact heq ▸ mem_sorted.2 hname
    obtain ⟨j, hj, heq'⟩ := mem_namesOf.1 hname'
    exact hdisjoint hi (number_unique (List.getElem?_eq_getElem hlt) heq' ▸ hj)
  · simp only [mem_findCycles_iff]
    constructor
    · rintro ⟨_, ⟨component, hmem, hcycle, rfl⟩, hname⟩
      exact (h.isCycle_component hcomponents hmem (mem_sorted.1 hname)).1 hcycle
    · intro hcycle
      obtain ⟨component, hmem, hcycle, hname⟩ := hlisted hcycle
      exact ⟨_, ⟨component, hmem, hcycle, rfl⟩, mem_sorted.2 hname⟩

/-- **The error lists exactly the cycles**, if the components are found. -/
theorem layoutOrder_cycles (components : Graph.Digraph String → List (List Nat))
    (hcomponents : ∀ g : Graph.Digraph String, g.InRange → g.Components (components g)) (p : Program)
    (h : ∃ name, TransGen p.Holds name name) :
    ∃ e, p.layoutOrderBy components = .error e ∧ p.NamesCycles e.cycles := by
  have hplaces := p.finalOrder_spec.1
  refine ⟨_, ?_, hplaces.namesCycles (hcomponents _ (p.inRange_leftover p.finalOrder))⟩
  rw [layoutOrderBy_eq]
  refine if_neg fun hlength => ?_
  -- Whoever contains itself has no place.
  obtain ⟨name, hcycle⟩ := h
  obtain ⟨hdeclared, hwaits⟩ := hplaces.waits_of_cycle hcycle
  exact hwaits (p.length_finalOrder_iff.1 hlength name hdeclared)

/-- A tree holds its branches and a branch its tree, a knot holds itself, and a garden holds a tree and
a knot but is in neither. -/
def garden : Program :=
  { structs := (∅ : Std.TreeMap String StructLayout)
      |>.insert "Tree" ⟨"Tree", [("left", .enum "Branch"), ("height", .int .i64)]⟩
      |>.insert "Knot" ⟨"Knot", [("inner", .struct "Knot")]⟩
      |>.insert "Garden" ⟨"Garden", [("tree", .struct "Tree"), ("knot", .struct "Knot")]⟩
    enums := (∅ : Std.TreeMap String EnumLayout)
      |>.insert "Branch" ⟨"Branch", [⟨"Leaf", none⟩, ⟨"Fork", some (.struct "Tree")⟩]⟩ }

theorem layoutOrder_cycles_garden : (∀ g : Graph.Digraph String, g.InRange → g.Components g.components) ∧
    TransGen garden.Holds "Knot" "Knot" ∧ garden.layoutOrder = .error ⟨[["Branch", "Tree"], ["Knot"]]⟩ ∧
      garden.NamesCycles [["Branch", "Tree"], ["Knot"]] := by
  have hdefines : garden.structs.get? "Knot" = some ⟨"Knot", [("inner", .struct "Knot")]⟩ := rfl
  have hknot : garden.Holds "Knot" "Knot" :=
    ⟨⟨.struct _, hdefines⟩, .struct _, hdefines, .inl mem_cons_self⟩
  have hcycles : ((garden.leftover garden.finalOrder).components.filter (isCycle (garden.leftover garden.finalOrder))).map
      (garden.namesOf garden.finalOrder) = [["Branch", "Tree"], ["Knot"]] := by
    decide +kernel
  have hlists : findCycles Graph.Digraph.components garden.containment (.ofList garden.finalOrder) =
      [["Branch", "Tree"], ["Knot"]] := by
    have hsort := congrArg (fun cycles => sorted (cycles.map sorted)) hcycles
    rw [List.map_map] at hsort
    refine hsort.trans ?_
    simp only [sorted, List.map_cons, map_nil]
    rw [mergeSort_of_pairwise (l := ["Branch", "Tree"]) (by decide), mergeSort_singleton,
      mergeSort_of_pairwise (by decide)]
  obtain ⟨e, he, hnames⟩ := layoutOrder_cycles Graph.Digraph.components (fun _ => Graph.Digraph.components_spec) garden
    ⟨"Knot", .single hknot⟩
  have herror : garden.layoutOrder = .error ⟨[["Branch", "Tree"], ["Knot"]]⟩ := by
    rw [layoutOrder, layoutOrderBy_eq, hlists]
    exact if_neg (by decide +kernel)
  cases herror.symm.trans he
  exact ⟨fun _ => Graph.Digraph.components_spec, .single hknot, herror, hnames⟩

end Program
end Keel.Ir
