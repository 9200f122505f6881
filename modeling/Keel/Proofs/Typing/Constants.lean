/-
# The table of constants

Which constant is asked for first makes no difference.  An accepted program has a state
whose facts are grounded (`Makes.grounded`); asked anew from empty tables, each level of
facts is answered as before once the levels below it are (`answers_replay`).  So every
constant has the value that its own expression has by the values of the others, and any
order of asking fills the table with the same values.
-/
import Keel.Proofs.Typing.Evaluation
import Keel.Proofs.Typing.Closed
import Keel.Proofs.Lowering.Accepted

namespace Keel.Typing

open List SourceFile

variable {d : Declarations} {S s s' : State} {k : Nat}

/-! ### Asking anew -/

/-- The state in which no constant and no alias has been asked for. -/
def State.unasked (s : State) : State := { s with aliases := ∅, consts := ∅ }

/-- Asks for constants, one after the other. -/
def demand (names : List QualName) : Check Unit := do
  let r ← resolver
  names.forM fun name => do
    let _ ← r.const name none

/-- A resolver that takes the constants from a table. -/
def Resolver.reading (r : Resolver) (consts : Std.TreeMap QualName CheckedConst) : Resolver :=
  { r with const := fun name _ => return consts.getD name .failed }

/-- The state `s` is on the way from empty tables back to `S`: it holds nothing else, and what it
has not finished is above level `k`. -/
structure Replays (d : Declarations) (S : State) (k : Nat) (s : State) : Prop where
  clean : s.Clean
  const : ∀ name c, (s.facts d).const name c → (S.facts d).const name c
  typeAlias : ∀ name ty, (s.facts d).typeAlias name ty → (S.facts d).typeAlias name ty
  ready : ∀ base args, S.Ready d base args → s.Ready d base args
  declared : ∀ name, s.consts.get? name = some .started → ∃ decl, d.consts.get? name = some decl
  openConst : ∀ name c, ((S.facts d).level d k).const name c → s.consts.get? name ≠ some .started
  openAlias : ∀ name ty, ((S.facts d).level d k).typeAlias name ty →
    s.aliases.get? name ≠ some .started

theorem replays_unasked (hclean : S.Clean) (k : Nat) : Replays d S k S.unasked where
  clean := hclean
  const name c hc := by simp [State.facts, State.unasked] at hc
  typeAlias name ty hty := by simp [State.facts, State.unasked] at hty
  ready base args :=
    (show Wider S S.unasked from ⟨fun _ => id, fun _ => id, fun _ => id⟩).ready fun _ => id
  declared name hname := by simp [State.unasked] at hname
  openConst name c _ := by simp [State.unasked]
  openAlias name ty _ := by simp [State.unasked]

theorem Facts.level_sub (F : Facts) (k : Nat) : (F.level d k).Sub F := by
  cases k with
  | zero => exact ⟨fun _ _ => False.elim, fun _ _ => False.elim, fun _ _ => id⟩
  | succ k => exact ⟨fun _ _ h => h.1, fun _ _ h => h.1, fun _ _ => id⟩

namespace Replays

theorem below (h : Replays d S (k + 1) s) : Replays d S k s :=
  { h with
    openConst := fun name c hc => h.openConst name c ((Facts.level_succ _ k).const name c hc)
    openAlias := fun name ty hty => h.openAlias name ty ((Facts.level_succ _ k).typeAlias name ty hty) }

/-- A run leaves open what was open, so the level counts that it had before. -/
theorem above (h' : Replays d S k s') (h : Replays d S (k + 1) s) (hgrows : Grows d s s') :
    Replays d S (k + 1) s' :=
  { h' with
    openConst := fun name c hc hstarted =>
      h.openConst name c hc ((hgrows.consts.started_iff name).1 hstarted)
    openAlias := fun name ty hty hstarted =>
      h.openAlias name ty hty ((hgrows.aliases.started_iff name).1 hstarted) }

theorem patterned (h : Replays d S k s) (hp : Patterned d s s') : Replays d S k s' := by
  refine ⟨?_, ?_, ?_, fun base args hr => hp.ready (h.ready base args hr), ?_, ?_, ?_⟩
  all_goals rcases hp with rfl | ⟨name, origin, rfl⟩
  · exact h.clean
  · exact h.clean
  · exact h.const
  · exact h.const
  · exact h.typeAlias
  · exact h.typeAlias
  · exact h.declared
  · exact h.declared
  · exact h.openConst
  · exact h.openConst
  · exact h.openAlias
  · exact h.openAlias

theorem withAlias (h : Replays d S k s) {name : QualName} {p : Progress Ty}
    (hdone : ∀ ty, p = .done ty → (S.facts d).typeAlias name ty)
    (hopen : p = .started → ∀ ty, ¬ ((S.facts d).level d k).typeAlias name ty) :
    Replays d S k (s.withAlias name p) where
  clean := h.clean
  const := h.const
  typeAlias other ty hty := by
    rw [typeAlias_withAlias] at hty
    split at hty
    · next heq => exact heq ▸ hdone ty hty
    · exact h.typeAlias other ty hty
  ready base args hr :=
    (show Wider s (s.withAlias name p) from ⟨fun _ => id, fun _ => id, fun _ => id⟩).ready (fun _ => id)
      (h.ready base args hr)
  declared := h.declared
  openConst := h.openConst
  openAlias other ty hty hstarted := by
    rw [State.withAlias, get?_insert] at hstarted
    split at hstarted
    · next heq => exact hopen (Option.some.inj hstarted) ty (heq ▸ hty)
    · exact h.openAlias other ty hty hstarted

theorem withConst (h : Replays d S k s) {name : QualName} {p : Progress CheckedConst}
    (hdecl : ∃ decl, d.consts.get? name = some decl) (hdone : ∀ c, p = .done c → (S.facts d).const name c)
    (hopen : p = .started → ∀ c, ¬ ((S.facts d).level d k).const name c) : Replays d S k (s.withConst name p) where
  clean := h.clean
  typeAlias := h.typeAlias
  const other c hc := by
    rw [const_withConst] at hc
    split at hc
    · next heq => exact heq ▸ hdone c hc
    · exact h.const other c hc
  ready base args hr :=
    (show Wider s (s.withConst name p) from ⟨fun _ => id, fun _ => id, fun _ => id⟩).ready (fun _ => id)
      (h.ready base args hr)
  declared other hstarted := by
    rw [State.withConst, get?_insert] at hstarted
    split at hstarted
    · next heq => exact heq ▸ hdecl
    · exact h.declared other hstarted
  openAlias := h.openAlias
  openConst other c hc hstarted := by
    rw [State.withConst, get?_insert] at hstarted
    split at hstarted
    · next heq => exact hopen (Option.some.inj hstarted) c (heq ▸ hc)
    · exact h.openConst other c hc hstarted

end Replays

/-! ### The same answers -/

section Answers

variable {name : QualName} {c : CheckedConst} {ty : Ty}

theorem State.facts_const_unique {c' : CheckedConst} (h : (s.facts d).const name c) (h' : (s.facts d).const name c') :
    c = c' := by
  have := (show s.consts.get? name = _ from h).symm.trans h'
  simpa using this

theorem State.facts_typeAlias_unique {ty' : Ty} (h : (s.facts d).typeAlias name ty)
    (h' : (s.facts d).typeAlias name ty') : ty = ty' := by
  have := (show s.aliases.get? name = _ from h).symm.trans h'
  simpa using this

theorem State.Grounded.declared (h : S.Grounded d) (hc : (S.facts d).const name c) :
    isConstType c.ty ∧ ∃ decl, d.consts.get? name = some decl := by
  obtain ⟨k, hk⟩ := h
  cases k with
  | zero => exact (hk.const name c hc).elim
  | succ k =>
    obtain ⟨-, hty, decl, hdecl, -⟩ := hk.const name c hc
    exact ⟨hty, decl, hdecl⟩

theorem undeclared_replay (hS : S.Grounded d) (hs : Replays d S k s) (hdecl : d.consts.get? name = none)
    (site : Option Site) : d.resolver.const name site d s = (.failed, s) := by
  rw [Resolver.within_const]
  cases hentry : s.consts.get? name with
  | none =>
    simp only [constValue, run_get_bind, run_read_bind, hentry, hdecl]
    rfl
  | some p =>
    have hdeclared : ∃ decl, d.consts.get? name = some decl := by
      cases p with
      | done c => exact (hS.declared (hs.const name c hentry)).2
      | started => exact hs.declared name hentry
    obtain ⟨decl, hsome⟩ := hdeclared
    cases hdecl.symm.trans hsome

theorem instantiate_replay (hs : Replays d S k s) {base : QualName} {args : List Ty}
    (hty : InstanceType d (S.Ready d) base args ty) (site : Site) :
    ∃ s', d.resolver.instantiate base args site d s = (ty, s') ∧ Replays d S k s' := by
  rw [Resolver.within_instantiate]
  obtain ⟨s', heq, hp⟩ := instantiateType_of_instanceType (hty.mono (hs.ready base args)) _ site
  exact ⟨s', heq, hs.patterned hp⟩

/-- An alias of the next level.  If it is in a lower one, that level answers; if not, it may be
marked while the levels below answer for what it is made of. -/
theorem typeAlias_replay (ih : Answers d ((S.facts d).level d k) (Replays d S k) d.resolver)
    (hs : Replays d S (k + 1) s) (hfact : ((S.facts d).level d (k + 1)).typeAlias name ty) :
    ∃ s', d.resolver.typeAlias name d s = (ty, s') ∧ Replays d S (k + 1) s' := by
  obtain ⟨hty, decl, hdecl, hcomes⟩ := hfact
  have hname : d.aliases.contains name := contains_iff_get?.2 ⟨decl, hdecl⟩
  cases hentry : s.aliases.get? name with
  | some p =>
    cases p with
    | started => exact absurd hentry (hs.openAlias name ty ⟨hty, decl, hdecl, hcomes⟩)
    | done ty' =>
      obtain rfl := State.facts_typeAlias_unique hty (hs.typeAlias name ty' hentry)
      rw [Resolver.within_typeAlias]
      simp only [aliasType, run_get_bind, run_read_bind, hentry]
      exact ⟨s, rfl, hs⟩
  | none =>
    by_cases hlow : ∃ ty', ((S.facts d).level d k).typeAlias name ty'
    · obtain ⟨ty', hlow⟩ := hlow
      obtain rfl := State.facts_typeAlias_unique hty ((Facts.level_sub _ k).typeAlias name ty' hlow)
      obtain ⟨s', heq, hs'⟩ := ih.typeAlias name ty s hlow hs.below
      have hasks : Asking d (d.resolver.typeAlias name) := .typeAlias name hname
      have hgrows := hasks.grows s
      rw [heq] at hgrows
      exact ⟨s', heq, hs'.above hs hgrows⟩
    · have hstarted : Replays d S k (s.withAlias name .started) :=
        hs.below.withAlias (by simp) fun _ ty' hlow' => hlow ⟨ty', hlow'⟩
      obtain ⟨s', heq, hs'⟩ := hcomes _ _ ih _ hstarted
      dsimp only at heq
      have hasks : Asking d (resolveType d.resolver decl.scope ∅ decl.decl.ty) :=
        asks_resolveType _ _ _
      have hgrows := hasks.grows (s.withAlias name .started)
      rw [Resolver.within_typeAlias, aliasType_of_none hentry hdecl]
      rw [heq] at hgrows ⊢
      refine ⟨_, rfl, Replays.above ?_ hs (hgrows.endAlias hname hentry ty)⟩
      exact hs'.withAlias (by rintro _ ⟨⟩; exact hty) (by simp)

theorem const_replay (ih : Answers d ((S.facts d).level d k) (Replays d S k) d.resolver)
    (hs : Replays d S (k + 1) s) (hfact : ((S.facts d).level d (k + 1)).const name c) (site : Option Site) :
    ∃ s', d.resolver.const name site d s = (c, s') ∧ Replays d S (k + 1) s' := by
  obtain ⟨hc, hty, decl, hdecl, hcomes⟩ := hfact
  cases hentry : s.consts.get? name with
  | some p =>
    cases p with
    | started => exact absurd hentry (hs.openConst name c ⟨hc, hty, decl, hdecl, hcomes⟩)
    | done c' =>
      obtain rfl := State.facts_const_unique hc (hs.const name c' hentry)
      rw [Resolver.within_const]
      simp only [constValue, run_get_bind, run_read_bind, hentry]
      exact ⟨s, rfl, hs⟩
  | none =>
    by_cases hlow : ∃ c', ((S.facts d).level d k).const name c'
    · obtain ⟨c', hlow⟩ := hlow
      obtain rfl := State.facts_const_unique hc ((Facts.level_sub _ k).const name c' hlow)
      obtain ⟨s', heq, hs'⟩ := ih.const name site c s hlow hs.below
      have hasks : Asking d (d.resolver.const name site) := .const name site
      have hgrows := hasks.grows s
      rw [heq] at hgrows
      exact ⟨s', heq, hs'.above hs hgrows⟩
    · have hstarted : Replays d S k (s.withConst name .started) :=
        hs.below.withConst ⟨decl, hdecl⟩ (by simp) fun _ c' hlow' => hlow ⟨c', hlow'⟩
      obtain ⟨s', heq, hs'⟩ := hcomes _ _ ih _ hstarted
      dsimp only at heq
      have hasks : Asking d (evalDeclared d.resolver decl) := asks_evalDeclared _
      have hgrows := hasks.grows (s.withConst name .started)
      rw [Resolver.within_const, constValue_of_none hentry hdecl]
      rw [heq] at hgrows ⊢
      dsimp only
      rw [if_pos hty]
      refine ⟨_, rfl, Replays.above ?_ hs (hgrows.endConst (contains_iff_get?.2 ⟨decl, hdecl⟩) hentry c)⟩
      exact hs'.withConst ⟨decl, hdecl⟩ (by rintro _ ⟨⟩; exact hc) (by simp)

/-- **Asked anew, every level is answered as before.**  By induction on the level. -/
theorem answers_replay (hS : S.Grounded d) (k : Nat) :
    Answers d ((S.facts d).level d k) (Replays d S k) d.resolver := by
  induction k with
  | zero =>
    exact ⟨fun _ _ _ h => h.elim, fun _ _ _ _ h => h.elim,
      fun _ site s hdecl hs => ⟨s, undeclared_replay hS hs hdecl site, hs⟩,
      fun _ _ site _ _ hty hs => instantiate_replay hs hty site⟩
  | succ k ih =>
    exact ⟨fun _ _ _ hfact hs => typeAlias_replay ih hs hfact,
      fun _ site _ _ hfact hs => const_replay ih hs hfact site,
      fun _ site s hdecl hs => ⟨s, undeclared_replay hS hs hdecl site, hs⟩,
      fun _ _ site _ _ hty hs => instantiate_replay hs hty site⟩

end Answers

/-! ### All constants -/

theorem asking_demand (names : List QualName) : Asking d (demand names) := by
  refine .read (k := fun d => names.forM fun name => do
    let _ ← d.resolver.const name none) ?_
  induction names with
  | nil => exact .pure _
  | cons name rest ih => exact ((Asks.const name none).bind fun _ => .pure _).bind fun _ => ih

/-- What has been asked for is known, if nothing was reported. -/
theorem recorded_demand {names : List QualName}
    (hdecl : ∀ name ∈ names, ∃ decl, d.consts.get? name = some decl) (s : State)
    (hclean : (demand names d s).2.Clean) : ∀ name ∈ names, ∃ c, ((demand names d s).2.facts d).const name c := by
  induction names generalizing s with
  | nil => exact fun name hname => by cases hname
  | cons name rest ih =>
    obtain ⟨⟨decl, hname⟩, hrest⟩ := forall_mem_cons.1 hdecl
    refine forall_mem_cons.2 ⟨?_, ih hrest _ hclean⟩
    have honward := (asking_demand (d := d) rest).onward (d.resolver.const name none d s).2
    rcases const_recorded none s (honward.clean hclean) with hc | ⟨hnone, -⟩
    · exact ⟨_, honward.facts.const _ _ hc⟩
    · cases hnone.symm.trans hname

theorem checkConsts_eq_demand (s : State) : checkConsts d s = demand (d.consts.toList.map Prod.fst) d s := by
  have hloop (l : List (QualName × Declared ConstDef)) (s : State) : (do
      for entry in l do
        let _ ← d.resolver.const entry.1 none : Check Unit) d s =
      demand (l.map Prod.fst) d s := by
    induction l generalizing s with
    | nil => rfl
    | cons entry rest ih =>
      rw [forIn_cons]
      exact ih _
  exact hloop _ s

theorem Resolver.keeps_onward (S : State) : d.resolver.Keeps d (Onward d S) := by
  have hkeeps {α : Type} {c : Check α} (h : Asking d c) : Typing.Keeps d (Onward d S) c :=
    fun s hs => ⟨hs.trans (h.onward s), trivial⟩
  exact ⟨fun site problem => hkeeps (.report site problem), fun name hname => hkeeps (.typeAlias name hname),
    fun name site => hkeeps (.const name site), fun base args site => hkeeps (.instantiate base args site)⟩

theorem survives_onward (S : State) : Survives d (fun _ _ => True) (Onward d S) where
  resolver := Resolver.keeps_onward S
  found _ _ _ _ _ := trivial
  record _ := keeps_modify fun _ hs => hs.trans (Alike.onward ⟨rfl, rfl, rfl, rfl, rfl, rfl, rfl⟩)
  sign _ := keeps_modify fun _ hs => hs.trans (Alike.onward ⟨rfl, rfl, rfl, rfl, rfl, rfl, rfl⟩)
  number _ _ hs := hs.trans (Alike.onward ⟨rfl, rfl, rfl, rfl, rfl, rfl, rfl⟩)
  wait _ _ hs := hs.trans (Alike.onward ⟨rfl, rfl, rfl, rfl, rfl, rfl, rfl⟩)
  check _ _ _ _ _ hs := hs.trans (Alike.onward ⟨rfl, rfl, rfl, rfl, rfl, rfl, rfl⟩)
  instantiate _ _ _ _ _ :=
    keeps_modify fun _ hs => hs.trans (Alike.onward ⟨rfl, rfl, rfl, rfl, rfl, rfl, rfl⟩)

theorem finishedConsts_eq_some {consts : Std.TreeMap QualName (Progress CheckedConst)} {name : QualName}
    {c : CheckedConst} : (finishedConsts consts).get? name = some c ↔ consts.get? name = some (.done c) := by
  refine ⟨done_of_finishedConsts, fun h => ?_⟩
  rw [Std.TreeMap.get?_eq_getElem?] at h
  rw [finishedConsts, Std.TreeMap.get?_eq_getElem?, Std.TreeMap.getElem?_filterMap', h]
  rfl

/-- A value of the type: an integer within its bounds, a truth value or a text.  There may be no
value at all. -/
def CheckedConst.Fits (c : CheckedConst) : Prop :=
  match c.value, c.ty with
  | .bad, _ => True
  | .int v, .int kind => kind.min ≤ v ∧ v ≤ kind.max
  | .int v, .range _ low high => low ≤ v ∧ v ≤ high
  | .bool _, .bool => True
  | .str _, .str => True
  | _, _ => False

theorem fits_of_sound {c : CheckedConst} (h : c.Sound) (hty : isConstType c.ty) : CheckedConst.Fits c := by
  have hshaped := h.shaped
  obtain ⟨ty, value⟩ := c
  cases value with
  | bad => trivial
  | int v =>
    have hv := h.value v rfl
    cases ty with
    | int kind => simpa [Ty.admits, IntKind.contains, CheckedConst.Fits] using hv
    | range base low high => simpa [Ty.admits, CheckedConst.Fits] using hv
    | untyped => cases hty
    | _ => cases hshaped
  | bool v =>
    obtain rfl : ty = .bool := hshaped
    trivial
  | str v =>
    obtain rfl : ty = .str := hshaped
    trivial

/-- The table of constants is what their expressions say, whoever is asked first.

Each declared constant, and no other, has an entry.  The entry is a value of its type, and it is what
its expression comes to if the other constants are looked up in the table.  From empty tables of
constants and aliases, every order of asking reports nothing and comes to this table. -/
structure Evaluates (d : Declarations) (s : State) (consts : Std.TreeMap QualName CheckedConst) : Prop where
  names : ∀ name, consts.contains name ↔ d.consts.contains name
  value : ∀ name decl, d.consts.get? name = some decl → ∃ c, consts.get? name = some c ∧
    CheckedConst.Fits c ∧ ∃ s', s'.Clean ∧
      evalDeclared ((Resolver.within d.depth).reading consts) decl d s.unasked = (c, s')
  order : ∀ names : List QualName, (∀ name, name ∈ names ↔ d.consts.contains name) →
    (demand names d s.unasked).2.Clean ∧
      ∀ name, (finishedConsts (demand names d s.unasked).2.consts).get? name = consts.get? name

theorem const_reading (consts : Std.TreeMap QualName CheckedConst) (name : QualName) (site : Option Site) (s : State) :
    (d.resolver.reading consts).const name site d s = ((consts.get? name).getD .failed, s) := by
  rw [Std.TreeMap.get?_eq_getElem?, ← Std.TreeMap.getD_eq_getD_getElem?]
  rfl

/-- Constants that are looked up are answered as before, too. -/
theorem answers_reading (hS : S.Grounded d) (k : Nat) : Answers d ((S.facts d).level d k) (Replays d S k)
      (d.resolver.reading (finishedConsts S.consts)) where
  typeAlias := (answers_replay hS k).typeAlias
  instantiate := (answers_replay hS k).instantiate
  const name site c s hc hs := by
    have hget := finishedConsts_eq_some.2 ((Facts.level_sub _ k).const name c hc)
    exact ⟨s, by rw [const_reading, hget]; rfl, hs⟩
  undeclared name site s hdecl hs := by
    have hget : (finishedConsts S.consts).get? name = none := by
      rw [Option.eq_none_iff_forall_ne_some]
      intro c hc
      obtain ⟨-, decl, hsome⟩ := hS.declared (finishedConsts_eq_some.1 hc)
      cases hdecl.symm.trans hsome
    exact ⟨s, by rw [const_reading, hget]; rfl, hs⟩

theorem replays_demand (hS : S.Grounded d) (hk : (S.facts d).Sub ((S.facts d).level d k))
    {names : List QualName} (hnames : ∀ name ∈ names, ∃ c, (S.facts d).const name c)
    (hs : Replays d S k s) : Replays d S k (demand names d s).2 := by
  induction names generalizing s with
  | nil => exact hs
  | cons name rest ih =>
    obtain ⟨⟨c, hc⟩, hrest⟩ := forall_mem_cons.1 hnames
    obtain ⟨s', heq, hs'⟩ := (answers_replay hS k).const name none c s (hk.const name c hc) hs
    have hstep : demand (name :: rest) d s = demand rest d (d.resolver.const name none d s).2 := rfl
    rw [hstep, heq]
    exact ih hrest hs'

theorem evaluates_of_grounded (hS : S.Grounded d) (hclean : S.Clean)
    (hall : ∀ name decl, d.consts.get? name = some decl → ∃ c, (S.facts d).const name c ∧ CheckedConst.Fits c) :
    Evaluates d S (finishedConsts S.consts) where
  names name := by
    rw [contains_iff_get?, contains_iff_get?]
    refine ⟨fun ⟨c, hc⟩ => (hS.declared (finishedConsts_eq_some.1 hc)).2, fun ⟨decl, hdecl⟩ => ?_⟩
    obtain ⟨c, hc, -⟩ := hall name decl hdecl
    exact ⟨c, finishedConsts_eq_some.2 hc⟩
  value name decl hdecl := by
    obtain ⟨c, hc, hfits⟩ := hall name decl hdecl
    refine ⟨c, finishedConsts_eq_some.2 hc, hfits, ?_⟩
    obtain ⟨k, hk⟩ := id hS
    cases k with
    | zero => exact (hk.const name c hc).elim
    | succ k =>
      obtain ⟨-, -, decl', hdecl', hcomes⟩ := hk.const name c hc
      obtain rfl : decl' = decl := Option.some.inj (hdecl'.symm.trans hdecl)
      obtain ⟨s', heq, hs'⟩ := hcomes _ _ (answers_reading hS k) _ (replays_unasked hclean k)
      exact ⟨s', hs'.clean, heq⟩
  order names hnames := by
    have hdecl : ∀ name ∈ names, ∃ decl, d.consts.get? name = some decl := fun name hname =>
      contains_iff_get?.1 ((hnames name).1 hname)
    obtain ⟨k, hk⟩ := id hS
    have hs : Replays d S k (demand names d S.unasked).2 := by
      refine replays_demand hS hk (fun name hname => ?_) (replays_unasked hclean k)
      obtain ⟨decl, hdecl⟩ := hdecl name hname
      obtain ⟨c, hc, -⟩ := hall name decl hdecl
      exact ⟨c, hc⟩
    refine ⟨hs.clean, fun name => Option.ext fun c => ?_⟩
    rw [finishedConsts_eq_some, finishedConsts_eq_some]
    refine ⟨hs.const name c, fun hc => ?_⟩
    have hname := (hnames name).2 (contains_iff_get?.2 (hS.declared hc).2)
    obtain ⟨c', hc'⟩ := recorded_demand hdecl _ hs.clean name hname
    obtain rfl := State.facts_const_unique hc (hs.const name c' hc')
    exact hc'

theorem Makes.evaluates {files : List SourceFile} {p : CheckedProgram} {c : Collected} {n : Nat}
    {M : ModulePath → Prop} (h : Makes files p c n) (hc : c.In M) :
    Evaluates c.decls (c.afterBodies n) p.consts := by
  have honward : Onward c.decls (c.afterConsts n) (c.afterBodies n) := by
    rw [Collected.afterBodies]
    exact ((survives_onward _).checkBodies _ (.refl _)).1
  have hgrounded := h.grounded hc
  rw [h.program]
  refine evaluates_of_grounded hgrounded h.clean fun name decl hdecl => ?_
  have hclean := honward.clean h.clean
  rw [Collected.afterConsts, checkConsts_eq_demand] at hclean
  have hmem : name ∈ c.decls.consts.toList.map Prod.fst :=
    mem_map.2 ⟨(name, decl), Std.TreeMap.mem_toList_iff_getElem?_eq_some.2 hdecl, rfl⟩
  have hdeclared : ∀ other ∈ c.decls.consts.toList.map Prod.fst,
      ∃ decl, c.decls.consts.get? other = some decl := fun other hother => by
    obtain ⟨⟨_, decl'⟩, hentry, rfl⟩ := mem_map.1 hother
    exact ⟨decl', Std.TreeMap.mem_toList_iff_getElem?_eq_some.1 hentry⟩
  obtain ⟨value, hvalue⟩ := recorded_demand hdeclared _ hclean name hmem
  rw [← checkConsts_eq_demand, ← Collected.afterConsts] at hvalue
  have hkept := honward.facts.const name value hvalue
  exact ⟨value, hkept, fits_of_sound (h.sound.consts name value hvalue) (hgrounded.declared hkept).1⟩

/-- **Constants do not depend on the order of evaluation.**  For every accepted program, the table of
constants is what their expressions say. -/
theorem evaluates_of_check {files : List SourceFile} {p : CheckedProgram}
    (h : check files = .ok p) :
    Evaluates (gathered files).1.decls
      ((gathered files).1.afterBodies (modules files).2) p.consts :=
  (makes_of_check h).evaluates (M := fun _ => True) (in_gathered (fun _ _ => trivial) trivial)

/-- Four constants, two of which build on others. -/
theorem evaluates_of_check_measured : ∃ p, check [Lowering.measured] = .ok p ∧
    p.consts.size = 4 ∧ Evaluates (gathered [Lowering.measured]).1.decls
      ((gathered [Lowering.measured]).1.afterBodies
        (modules [Lowering.measured]).2) p.consts := by
  obtain ⟨p, ir, haccepted, -, -, -, hsize, -⟩ := Lowering.accepted_measured
  exact ⟨p, haccepted.checked, hsize, evaluates_of_check haccepted.checked⟩

end Keel.Typing
