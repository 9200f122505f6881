/-
# What the arms of a match take

Each pattern takes all values, or one literal, or one variant; which one can be read off the
tables.  The checker keeps lists of what the arms so far take.  A match is `Decided` if these
lists say what the patterns take, no pattern takes what one before it takes, none comes after one
that takes all, and together they take every value there is.

At the end stands what the checker says of a match on an enum that leaves something out: it
names the variants that no arm is written for.
-/
import Keel.Proofs.Typing.Steps

namespace Keel

open List

inductive Taken where
  | all
  | variant (index : Nat)
  | int (value : Int)
  | bool (value : Bool)
  | str (value : String)
deriving DecidableEq

/-- What a pattern takes, as far as it is known. -/
def Resolutions.taken? (r : Resolutions) (p : Pattern) : Option Taken :=
  match r.variants.get? p.id with
  | some ref => some (.variant ref.index)
  | none =>
    match p.kind with
    | .wildcard | .bind _ => some .all
    | .int value => some (.int value)
    | .bool value => some (.bool value)
    | .str value => some (.str value)
    | .variant _ _ _ => none

theorem EnumSig.lt_of_variant? {sig : EnumSig} {name : String} {index : Nat} {v : VariantSig}
    (h : sig.variant? name = some (index, v)) : index < sig.variants.length := by
  obtain ⟨⟨v', i⟩, hfound, heq⟩ := Option.map_eq_some_iff.1 h
  cases heq
  exact snd_lt_of_mem_zipIdx (mem_of_find?_eq_some hfound)

namespace Typing

variable {α β : Type} {d : Declarations} {t : State}

/-! ### Coverage -/

def Coverage.takes (c : Coverage) : Taken → Prop
  | .all => c.catchAll = true
  | .variant index => index ∈ c.variants
  | .int value => value ∈ c.ints
  | .bool value => value ∈ c.bools
  | .str value => value ∈ c.strings

/-- A value of this kind can be taken like this. -/
def Scrutinee.Suits : Scrutinee → Taken → Prop
  | _, .all => True
  | .enum sig, .variant index => index < sig.variants.length
  | .int ty, .int value => ty.admits value = true
  | .bool, .bool _ | .str, .str _ => True
  | _, _ => False

/-- What is taken is all that there is. -/
def Scrutinee.Exhausted (s : Scrutinee) (takes : Taken → Prop) : Prop :=
  takes .all ∨
    match s with
    | .enum sig => ∀ index < sig.variants.length, takes (.variant index)
    | .bool => ∀ value, takes (.bool value)
    | .int (.range _ low high) => ∀ value, low ≤ value → value ≤ high → takes (.int value)
    | .int _ | .str => False
    | .invalid => True

theorem mem_intsBetween {low high value : Int} : value ∈ intsBetween low high ↔ low ≤ value ∧ value ≤ high := by
  simp only [intsBetween, mem_map, mem_range]
  constructor
  · rintro ⟨i, hi, rfl⟩
    omega
  · rintro ⟨hlow, hhigh⟩
    exact ⟨(value - low).toNat, by omega, by omega⟩

/-- Where nothing is missing, all is taken. -/
theorem Scrutinee.exhausted_of_missing {s : Scrutinee} {c : Coverage} (h : s.missing c = none) :
    s.Exhausted c.takes := by
  unfold Scrutinee.missing at h
  split at h
  · exact .inl ‹_›
  · refine .inr ?_
    cases s with
    | enum sig =>
      intro index hindex
      by_contra hno
      have hmem : (sig.variants[index], index) ∈ sig.variants.zipIdx :=
        mk_mem_zipIdx_iff_getElem?.2 (List.getElem?_eq_getElem hindex)
      simp only at h
      split at h
      · rename_i hempty
        rw [List.isEmpty_iff, List.map_eq_nil_iff, List.filter_eq_nil_iff] at hempty
        exact hempty _ hmem (by simpa [Coverage.takes] using hno)
      · cases h
    | bool =>
      intro value
      by_contra hno
      have hfound : value ∈ [true, false].filter fun b => !c.bools.contains b :=
        mem_filter.2 ⟨by cases value <;> simp, by simpa [Coverage.takes] using hno⟩
      simp only at h
      split at h
      · rename_i hempty
        rw [List.isEmpty_iff] at hempty
        rw [hempty] at hfound
        cases hfound
      · cases h
    | int ty =>
      simp only at h
      split at h
      · rename_i hlists
        cases ty with
        | range base low high =>
          intro value hlow hhigh
          simp only [Coverage.listsAll, Bool.and_eq_true, all_eq_true] at hlists
          simpa [Coverage.takes] using hlists.2 value (mem_intsBetween.2 ⟨hlow, hhigh⟩)
        | _ => cases hlists
      · cases h
    | str => cases h
    | invalid => trivial

/-! ### Patterns -/

/-- The pattern takes what none before it takes, and this is noted. -/
def Adds (t : State) (s : Scrutinee) (c : Coverage) (p : Pattern) (c' : Coverage) : Prop :=
  ∃ taken, t.resolutions.taken? p = some taken ∧ s.Suits taken ∧ (taken = .all ∨ ¬ c.takes taken) ∧
    ∀ other, c'.takes other ↔ c.takes other ∨ other = taken

section Patterns

variable {p : Pattern} {s : Scrutinee} {c : Coverage}

theorem unitVariant?_eq_some {sig : EnumSig} {name : String} {index : Nat}
    (h : unitVariant? sig name = some index) : index < sig.variants.length := by
  unfold unitVariant? at h
  split at h
  · rename_i hfound
    split at h
    · cases h
      exact EnumSig.lt_of_variant? hfound
    · cases h
  · cases h

theorem adds_all (h : t.resolutions.taken? p = some .all) : Adds t s c p { c with catchAll := true } :=
  ⟨.all, h, by cases s <;> trivial, .inl rfl, fun other => by cases other <;> simp [Coverage.takes]⟩

theorem taken?_bind {name : String} (hkind : p.kind = .bind name)
    (h : t.resolutions.variants.get? p.id = none) : t.resolutions.taken? p = some .all := by
  rw [Resolutions.taken?, h, hkind]

/-- The outcome of a pattern, for something that can be matched and for something else. -/
def PatternOutcome (t : State) (s : Scrutinee) (c : Coverage) (p : Pattern) (c' : Coverage) : Prop :=
  match s with
  | .invalid => t.resolutions.variants.get? p.id = none
  | s => Adds t s c p c'

theorem patternOutcome_of_adds {c' : Coverage} (h : Adds t s c p c') (hs : s ≠ .invalid) :
    PatternOutcome t s c p c' := by
  cases s with
  | invalid => exact absurd rfl hs
  | _ => exact h

theorem adds_of_literal {c' : Coverage} (taken : Taken) (hp : t.resolutions.taken? p = some taken)
    (hs : s.Suits taken) (hnew : ¬ c.takes taken)
    (hc : ∀ other, c'.takes other ↔ other = taken ∨ c.takes other) : Adds t s c p c' :=
  ⟨taken, hp, hs, .inr hnew, fun other => (hc other).trans or_comm⟩

end Patterns

/-! ### Arms -/

structure Chain (t : State) (s : Scrutinee) (c : Coverage) (ps : List Pattern) (takens : List Taken)
    (c' : Coverage) : Prop where
  taken : ps.map t.resolutions.taken? = takens.map some
  suits : ∀ taken ∈ takens, s.Suits taken
  fresh : ∀ taken ∈ takens, ¬ c.takes .all ∧ ¬ c.takes taken
  apart : takens.Pairwise fun first second => first ≠ .all ∧ first ≠ second
  noted : ∀ other, c'.takes other ↔ c.takes other ∨ other ∈ takens

theorem Chain.cons {s : Scrutinee} {c c₁ c' : Coverage} {p : Pattern} {ps : List Pattern}
    {takens : List Taken} (hp : Adds t s c p c₁) (hnot : ¬ c.takes .all) (h : Chain t s c₁ ps takens c') :
    ∃ taken, Chain t s c (p :: ps) (taken :: takens) c' := by
  obtain ⟨taken, htaken, hsuits, hnew, hnoted⟩ := hp
  refine ⟨taken, ?_, ?_, ?_, ?_, ?_⟩
  · rw [map_cons, map_cons, htaken, h.taken]
  · exact forall_mem_cons.2 ⟨hsuits, h.suits⟩
  · refine forall_mem_cons.2 ⟨⟨hnot, ?_⟩, fun other hother => ?_⟩
    · rcases hnew with rfl | hnew
      · exact hnot
      · exact hnew
    · have := h.fresh other hother
      exact ⟨hnot, fun hc => this.2 ((hnoted other).2 (.inl hc))⟩
  · refine pairwise_cons.2 ⟨fun other hother => ?_, h.apart⟩
    have := h.fresh other hother
    refine ⟨?_, ?_⟩
    · rintro rfl
      exact this.1 ((hnoted .all).2 (.inr rfl))
    · rintro rfl
      exact this.2 ((hnoted taken).2 (.inr rfl))
  · intro other
    rw [h.noted, hnoted, mem_cons, or_assoc]

/-- The outcome of arms, for something that can be matched and for something else. -/
def ArmsOutcome (t : State) (s : Scrutinee) (c : Coverage) (ps : List Pattern) (c' : Coverage) : Prop :=
  match s with
  | .invalid => ∀ p ∈ ps, t.resolutions.variants.get? p.id = none
  | s => ∃ takens, Chain t s c ps takens c'

theorem armsOutcome_nil (s : Scrutinee) (c : Coverage) : ArmsOutcome t s c [] c := by
  have h : Chain t s c [] [] c := ⟨rfl, by simp, by simp, .nil, by simp⟩
  cases s with
  | invalid => exact fun _ => nofun
  | _ => exact ⟨[], h⟩

theorem ArmsOutcome.cons {s : Scrutinee} {c c₁ c' : Coverage} {p : Pattern} {ps : List Pattern}
    (hp : PatternOutcome t s c p c₁) (hnot : ¬ c.takes .all) (h : ArmsOutcome t s c₁ ps c') :
    ArmsOutcome t s c (p :: ps) c' := by
  have hvalid (hadds : Adds t s c p c₁) (h : ∃ takens, Chain t s c₁ ps takens c') :
      ∃ takens, Chain t s c (p :: ps) takens c' := by
    obtain ⟨takens, hchain⟩ := h
    obtain ⟨taken, hchain⟩ := Chain.cons hadds hnot hchain
    exact ⟨_, hchain⟩
  cases s with
  | invalid => exact forall_mem_cons.2 ⟨hp, h⟩
  | _ => exact hvalid hp h

/-! ### Matches -/

/-- The kind of value that a type has, as it is known in the end.  A type that has no signature at
first may get one if it is an instance. -/
def ScrutineeOf (t : State) (ty : Ty) (s : Scrutinee) : Prop :=
  match ty with
  | .enum name =>
    (∃ sig, s = .enum sig ∧ t.signatures.enums.get? name = some sig) ∨
      (s = .invalid ∧ ∀ sig, t.signatures.enums.get? name = some sig → sig.origin ≠ none)
  | .int _ | .range _ _ _ => s = .int ty
  | .bool => s = .bool
  | .str => s = .str
  | _ => s = .invalid

/-- What is known in the end about a match that was checked. -/
def Decided (t : State) (scrutinee : Expr) (ps : List Pattern) : Prop :=
  ∃ ty s c, t.resolutions.exprTypes.get? scrutinee.id = some ty ∧ ScrutineeOf t ty s ∧
    ArmsOutcome t s {} ps c ∧ s.missing c = none

/-- A match whose scrutinee has a type is decided. -/
def Accounted (t : State) : Node → Prop
  | .expr ⟨_, .select scrutinee arms, _⟩ =>
    t.resolutions.exprTypes.get? scrutinee.id = none ∨ Decided t scrutinee (arms.map (·.pattern))
  | _ => True

theorem Accounted.of_kind {e : Expr} (h : ∀ scrutinee arms, e.kind ≠ .select scrutinee arms) :
    Accounted t (.expr e) := by
  unfold Accounted
  split
  · rename_i heq
    cases heq
    exact absurd rfl (h _ _)
  · trivial

/-! ### What is left out -/

section Missing

variable {f : Frame} {sig : EnumSig} {p : Pattern} {c : Coverage}

def Frame.names (d : Declarations) (f : Frame) (path : List String) (sig : EnumSig) : Bool :=
  if path = ["Self"] then
    match f.types.get? "Self" with
    | some (.enum name) => name == sig.name
    | _ => false
  else
    match d.index.lookupPath f.scope path .type true with
    | .found name => name == sig.name || sig.base? == some name
    | _ => false

theorem holds_namesEnum (path : List String) (sig : EnumSig) :
    Holds d (fun _ => True) (namesEnum f path sig) fun named => named = f.names d path sig := by
  unfold namesEnum Frame.names
  by_cases hself : path = ["Self"]
  · rw [if_pos hself, if_pos hself]
    cases f.types.get? "Self" with
    | none => exact holds_pure rfl
    | some ty => cases ty <;> exact holds_pure rfl
  · rw [if_neg hself, if_neg hself]
    refine Holds.bind (R := fun found => found = d.index.lookupPath f.scope path .type true)
      (fun _ _ => ⟨trivial, rfl⟩) fun found hfound => ?_
    rw [← hfound]
    cases found <;> exact holds_pure rfl

def variantOf? (d : Declarations) (f : Frame) (sig : EnumSig) (p : Pattern) : Option Nat :=
  match p.kind with
  | .bind name => unitVariant? sig name
  | .variant path name _ =>
    if path.all (f.names d · sig) then (sig.variant? name).map (·.1) else none
  | _ => none

def takesAll (sig : EnumSig) (p : Pattern) : Bool :=
  match p.kind with
  | .wildcard => true
  | .bind name => (unitVariant? sig name).isNone
  | _ => false

/-- A pattern adds the variant that it is written for, whatever is reported about it. -/
def Noted (d : Declarations) (f : Frame) (sig : EnumSig) (p : Pattern) (c c' : Coverage) : Prop :=
  (∀ index, index ∈ c'.variants ↔ index ∈ c.variants ∨ variantOf? d f sig p = some index) ∧
    c'.catchAll = (c.catchAll || takesAll sig p)

theorem noted_none (h : variantOf? d f sig p = none) (h' : takesAll sig p = false) :
    Noted d f sig p c c := ⟨by simp [h], by simp [h']⟩

theorem holds_cover [BEq α] (site : Site) (seen : List α) (value : α) :
    Holds d (fun _ => True) (cover site seen value) fun seen' => seen' = value :: seen := by
  unfold cover
  split
  · exact (keeps_true _).bind fun _ => holds_pure rfl
  · exact holds_pure rfl

theorem noted_coverVariant {index : Nat} (f' : Frame) (h : variantOf? d f sig p = some index)
    (h' : takesAll sig p = false) :
    Holds d (fun _ => True) (coverVariant f' p sig index c) (Noted d f sig p c) := by
  refine (holds_cover _ _ _).bind fun variants hvariants => (keeps_true _).bind fun _ => holds_pure ?_
  subst hvariants
  exact ⟨by simp [h, or_comm, eq_comm], by simp [h']⟩

variable {id : Nat} {span : Span}

theorem noted_checkBinding (ty : Ty) (name : String) :
    Holds d (fun _ => True) (checkBinding f ⟨id, .bind name, span⟩ (.enum sig) ty c name) fun r =>
      Noted d f sig ⟨id, .bind name, span⟩ c r.2 := by
  unfold checkBinding
  extract_lets unit
  cases hfound : unit with
  | some found =>
    obtain ⟨index, hunit, rfl⟩ := Option.map_eq_some_iff.1 hfound
    have hvariant : variantOf? d f sig ⟨id, .bind name, span⟩ = some index := hunit
    refine (noted_coverVariant f hvariant ?_).bind fun c' hc' => holds_pure hc'
    simp [takesAll, hunit]
  | none =>
    have hunit := Option.map_eq_none_iff.1 hfound
    refine (keeps_true _).bind fun _ => holds_pure ⟨?_, ?_⟩
    · intro index
      simp [variantOf?, hunit]
    · simp [takesAll, hunit]

theorem variantOf?_of_variant (path : Option (List String)) (variant : String) (fields : List Pattern) :
    variantOf? d f sig ⟨id, .variant path variant fields, span⟩ =
      if path.all (f.names d · sig) then (sig.variant? variant).map (·.1) else none := rfl

theorem noted_checkVariantPattern (path : Option (List String)) (variant : String) (fields : List Pattern) :
    Holds d (fun _ => True)
      (checkVariantPattern f ⟨id, .variant path variant fields, span⟩ sig c path variant fields) fun r =>
        Noted d f sig ⟨id, .variant path variant fields, span⟩ c r.2 := by
  unfold checkVariantPattern
  extract_lets site rest
  have hrest (hnames : path.all (f.names d · sig) = true) : Holds d (fun _ => True) (rest ()) fun r =>
      Noted d f sig ⟨id, .variant path variant fields, span⟩ c r.2 := by
    unfold rest
    split
    · rename_i hnone
      refine (keeps_true _).bind fun _ => holds_pure (noted_none ?_ rfl)
      rw [variantOf?_of_variant, if_pos hnames, hnone]
      rfl
    · rename_i index v hfound
      refine (keeps_true _).bind fun f' => (noted_coverVariant f' ?_ rfl).bind fun c' hc' => holds_pure hc'
      rw [variantOf?_of_variant, if_pos hnames, hfound]
      rfl
  cases path with
  | none => exact hrest rfl
  | some path =>
    refine (holds_namesEnum path sig).bind fun named hnamed => ?_
    split
    · rename_i hnot
      refine (keeps_true _).bind fun _ => holds_pure (noted_none (if_neg ?_) rfl)
      simpa [← hnamed] using hnot
    · rename_i hnot
      refine hrest ?_
      simpa [← hnamed] using hnot

theorem noted_checkPattern (p : Pattern) (ty : Ty) :
    Holds d (fun _ => True) (checkPattern f p (.enum sig) ty c) fun r => Noted d f sig p c r.2 := by
  obtain ⟨id, kind, span⟩ := p
  cases kind with
  | wildcard => exact holds_pure ⟨by simp [variantOf?], by simp [takesAll]⟩
  | bind name => exact noted_checkBinding ty name
  | variant path variant fields => exact noted_checkVariantPattern path variant fields
  | _ => exact (keeps_true _).bind fun _ => holds_pure (noted_none rfl rfl)

theorem noted_checkArms (ty : Ty) (expected : Option Ty) (arms : List ArmOperand) (c : Coverage) :
    Holds d (fun _ => True) (checkArms f (.enum sig) ty expected arms c) fun r =>
      (∀ index, index ∈ r.2.variants ↔ index ∈ c.variants ∨
        ∃ arm ∈ arms, variantOf? d f sig arm.pattern = some index) ∧
      r.2.catchAll = (c.catchAll || arms.any fun arm => takesAll sig arm.pattern) := by
  induction arms generalizing c with
  | nil => exact holds_pure ⟨by simp, by simp⟩
  | cons arm rest ih =>
    unfold checkArms
    extract_lets next
    have hnext : Holds d (fun _ => True) (next ()) fun r =>
        (∀ index, index ∈ r.2.variants ↔ index ∈ c.variants ∨
          ∃ a ∈ arm :: rest, variantOf? d f sig a.pattern = some index) ∧
        r.2.catchAll = (c.catchAll || (arm :: rest).any fun a => takesAll sig a.pattern) := by
      refine (noted_checkPattern arm.pattern ty).bind fun r hr => ?_
      obtain ⟨inner, c₁⟩ := r
      refine (keeps_true _).bind fun result => (ih c₁).bind fun r hrest => holds_pure ⟨fun index => ?_, ?_⟩
      · rw [hrest.1, hr.1, or_assoc, exists_mem_cons_iff]
      · rw [hrest.2, hr.2, any_cons, Bool.or_assoc]
    split
    · exact (keeps_true _).bind fun _ => hnext
    · exact hnext

/-- The names of the variants that no arm is written for, in the order of their declaration. -/
def uncovered (d : Declarations) (f : Frame) (sig : EnumSig) (arms : List ArmOperand) : List String :=
  (sig.variants.zipIdx.filter fun (_, index) =>
    !arms.any fun arm => variantOf? d f sig arm.pattern == some index).map fun (v, _) => v.name

/-- **What is said to be missing is what no arm is written for.** -/
theorem missing_checkArms (ty : Ty) (expected : Option Ty) (arms : List ArmOperand) (s : State) :
    (Scrutinee.enum sig).missing (checkArms f (.enum sig) ty expected arms {} d s).1.2 =
      if arms.any (fun arm => takesAll sig arm.pattern) ∨ uncovered d f sig arms = [] then none
      else some (.missingVariants (uncovered d f sig arms)) := by
  have hnoted : Holds d (fun _ => True) (checkArms f (.enum sig) ty expected arms {}) _ :=
    noted_checkArms ty expected arms {}
  obtain ⟨hvariants, hall⟩ := (hnoted s trivial).2
  generalize (checkArms f (.enum sig) ty expected arms {} d s).1.2 = c at hvariants hall ⊢
  have hnames : (sig.variants.zipIdx.filter fun (_, i) => !c.variants.contains i).map (fun (v, _) => v.name) =
      uncovered d f sig arms := by
    refine congrArg (List.map _) (filter_congr fun v _ => congrArg (!·) ?_)
    rw [Bool.eq_iff_iff, contains_iff_mem, hvariants]
    simp
  unfold Scrutinee.missing
  simp only [hnames, hall, Bool.false_or, List.isEmpty_iff]
  split
  · rw [if_pos (.inl ‹_›)]
  · rename_i hnot
    simp only [hnot, false_or, Bool.false_eq_true]

end Missing

end Typing
end Keel
