/-
# Following names comes to an end

An alias may name itself, a constant may be bounded by itself, and a generic type may
hold ever larger instances of itself.  Three guards stand against that: aliases and
constants are marked while they are being followed, and instances nest at most `maxDepth`
deep.  `State.remaining` counts what the guards still let through.  It falls whenever one
of them is passed and never rises, since whatever is begun is also ended: `Grows` says
that a run leaves the guards as it found them.

The depth of the program's resolver is larger than this number in every state.  So what
stands at its last level does not matter, and it satisfies the equations that it would
satisfy if it had no last level at all.
-/
import Keel.Proofs.Typing.Asking

namespace Keel.Typing

open List

open Std (TreeMap)

variable {α β : Type} {d : Declarations} {s s' : State}

/-! ### Tables that fill up -/

/-- A table of what is in progress, before and after: no entry was lost or changed, and
every new one is finished and belongs to a declaration. -/
structure Filled (decls : TreeMap QualName β) (t t' : TreeMap QualName (Progress α)) : Prop where
  kept : ∀ name p, t.get? name = some p → t'.get? name = some p
  fresh : ∀ name p, t'.get? name = some p →
    t.get? name = some p ∨ decls.contains name ∧ ∃ a, p = .done a

namespace Filled

variable {decls : TreeMap QualName β} {t t₁ t₂ : TreeMap QualName (Progress α)}

theorem refl (t : TreeMap QualName (Progress α)) : Filled decls t t :=
  ⟨fun _ _ => id, fun _ _ => .inl⟩

theorem trans (h : Filled decls t t₁) (h' : Filled decls t₁ t₂) : Filled decls t t₂ := by
  refine ⟨fun name p hp => h'.kept name p (h.kept name p hp), fun name p hp => ?_⟩
  rcases h'.fresh name p hp with hp | hnew
  · exact h.fresh name p hp
  · exact .inr hnew

/-- An entry that was started, followed by whatever else filled the table, and finished. -/
theorem mark {name : QualName} {a : α} (hnone : t.get? name = none)
    (hdecl : decls.contains name) (h : Filled decls (t.insert name .started) t₁) :
    Filled decls t (t₁.insert name (.done a)) := by
  have hother {other : QualName} {p : Progress α} (hp : t.get? other = some p) : name ≠ other := by
    rintro rfl
    rw [hnone] at hp
    cases hp
  refine ⟨fun other p hp => ?_, fun other p hp => ?_⟩
  · have hne := hother hp
    rw [get?_insert, if_neg hne]
    exact h.kept other p (by rw [get?_insert, if_neg hne, hp])
  · rw [get?_insert] at hp
    split at hp
    · next heq =>
      subst heq
      exact .inr ⟨hdecl, a, (Option.some.inj hp).symm⟩
    · next hne =>
      refine (h.fresh other p hp).imp_left fun hold => ?_
      rwa [get?_insert, if_neg hne] at hold

theorem contains (h : Filled decls t t₁) {name : QualName} (hname : t.contains name) : t₁.contains name := by
  obtain ⟨p, hp⟩ := contains_iff_get?.1 hname
  exact contains_iff_get?.2 ⟨p, h.kept name p hp⟩

theorem started_iff (h : Filled decls t t₁) (name : QualName) :
    t₁.get? name = some .started ↔ t.get? name = some .started := by
  refine ⟨fun hs => ?_, h.kept name _⟩
  rcases h.fresh name _ hs with hold | ⟨-, a, ha⟩
  · exact hold
  · cases ha

end Filled

def unvisited (decls : TreeMap QualName β) (t : TreeMap QualName α) : Nat :=
  decls.keys.countP (!t.contains ·)

theorem unvisited_le_size (decls : TreeMap QualName β) (t : TreeMap QualName α) :
    unvisited decls t ≤ decls.size := by
  rw [← TreeMap.length_keys]
  exact countP_le_length

theorem unvisited_mono (decls : TreeMap QualName β) {t t' : TreeMap QualName α}
    (h : ∀ name, t.contains name → t'.contains name) : unvisited decls t' ≤ unvisited decls t := by
  refine countP_mono_left fun name _ hname => ?_
  rw [Bool.not_eq_true', Bool.eq_false_iff] at hname ⊢
  exact fun hc => hname (h name hc)

/-- A name that is entered is one less to visit. -/
theorem unvisited_insert_lt {decls : TreeMap QualName β} {t : TreeMap QualName α} {name : QualName}
    (hdecl : decls.contains name) (hnone : t.get? name = none) (a : α) :
    unvisited decls (t.insert name a) < unvisited decls t := by
  have hle (l : List QualName) : l.countP (!(t.insert name a).contains ·) ≤ l.countP (!t.contains ·) := by
    refine countP_mono_left fun other _ => ?_
    rw [TreeMap.contains_insert]
    cases t.contains other <;> simp
  have hnew : t.contains name = false := by
    rw [TreeMap.contains_eq_isSome_getElem?, ← TreeMap.get?_eq_getElem?, hnone]
    rfl
  obtain ⟨before, after, hkeys⟩ := append_of_mem (TreeMap.mem_keys.2 hdecl)
  have hbefore := hle before
  have hafter := hle after
  simp only [unvisited, hkeys, countP_append, countP_cons, hnew,
    TreeMap.contains_insert_self, Bool.not_true, Bool.not_false, Bool.false_eq_true, if_true, if_false]
  omega

/-! ### Guards -/

/-- What a run may add to a state.  The guards stand as before: the same instances are being
built, and no alias or constant is left unfinished that was not so before. -/
structure Grows (d : Declarations) (s s' : State) : Prop where
  building : s'.building = s.building
  aliases : Filled d.aliases s.aliases s'.aliases
  consts : Filled d.consts s.consts s'.consts
  patterns : ∀ name, s.patterns.contains name → s'.patterns.contains name

theorem Grows.refl (s : State) : Grows d s s := ⟨rfl, .refl _, .refl _, fun _ => id⟩

theorem Grows.trans {s₁ s₂ : State} (h : Grows d s s₁) (h' : Grows d s₁ s₂) : Grows d s s₂ :=
  ⟨h'.building.trans h.building, h.aliases.trans h'.aliases, h.consts.trans h'.consts,
    fun name hname => h'.patterns name (h.patterns name hname)⟩

/-- How many names the guards still let through, one inside the other. -/
def State.remaining (d : Declarations) (s : State) : Nat :=
  unvisited d.aliases s.aliases + unvisited d.consts s.consts + (maxDepth - s.building.length)

theorem State.remaining_lt_depth (d : Declarations) (s : State) : s.remaining d < d.depth := by
  have haliases := unvisited_le_size d.aliases s.aliases
  have hconsts := unvisited_le_size d.consts s.consts
  unfold State.remaining Declarations.depth
  omega

theorem Grows.remaining_le (h : Grows d s s') : s'.remaining d ≤ s.remaining d := by
  have haliases := unvisited_mono d.aliases fun _ => h.aliases.contains
  have hconsts := unvisited_mono d.consts fun _ => h.consts.contains
  unfold State.remaining
  rw [h.building]
  omega

def State.withAlias (s : State) (name : QualName) (progress : Progress Ty) : State :=
  { s with aliases := s.aliases.insert name progress }

def State.withConst (s : State) (name : QualName) (progress : Progress CheckedConst) : State :=
  { s with consts := s.consts.insert name progress }

def State.entering (s : State) (name : QualName) : State :=
  { s with building := name :: s.building }

def State.leaving (s : State) : State := { s with building := s.building.tail }

section Passing

variable {name : QualName}

theorem State.remaining_withAlias_lt (hdecl : d.aliases.contains name)
    (hnone : s.aliases.get? name = none) (p : Progress Ty) : (s.withAlias name p).remaining d < s.remaining d := by
  have := unvisited_insert_lt hdecl hnone p
  simp only [State.remaining, State.withAlias]
  omega

theorem State.remaining_withConst_lt (hdecl : d.consts.contains name)
    (hnone : s.consts.get? name = none) (p : Progress CheckedConst) :
    (s.withConst name p).remaining d < s.remaining d := by
  have := unvisited_insert_lt hdecl hnone p
  simp only [State.remaining, State.withConst]
  omega

theorem State.remaining_entering_lt (hroom : s.building.length < maxDepth) (name : QualName) :
    (s.entering name).remaining d < s.remaining d := by
  simp only [State.remaining, State.entering, length_cons]
  omega

theorem Grows.endAlias (hdecl : d.aliases.contains name) (hnone : s.aliases.get? name = none)
    (h : Grows d (s.withAlias name .started) s') (ty : Ty) : Grows d s (s'.withAlias name (.done ty)) :=
  ⟨h.building, .mark hnone hdecl h.aliases, h.consts, h.patterns⟩

theorem Grows.endConst (hdecl : d.consts.contains name) (hnone : s.consts.get? name = none)
    (h : Grows d (s.withConst name .started) s') (c : CheckedConst) : Grows d s (s'.withConst name (.done c)) :=
  ⟨h.building, h.aliases, .mark hnone hdecl h.consts, h.patterns⟩

theorem Grows.leaving (h : Grows d (s.entering name) s') : Grows d s s'.leaving :=
  ⟨congrArg List.tail h.building, h.aliases, h.consts, h.patterns⟩

end Passing

/-! ### Runs that need not go deep -/

/-- From a state that lets fewer than `n` names through, the two runs are the same, and leave the
guards as they were. -/
def Meets (d : Declarations) (n : Nat) (c c' : Check α) : Prop :=
  ∀ s, s.remaining d < n → c d s = c' d s ∧ Grows d s (c d s).2

/-- The same of all that stands behind names. -/
structure Resolver.Meets (d : Declarations) (n : Nat) (r r' : Resolver) : Prop where
  typeAlias : ∀ name, Typing.Meets d n (r.typeAlias name) (r'.typeAlias name)
  const : ∀ name site, Typing.Meets d n (r.const name site) (r'.const name site)
  instantiate : ∀ base args site,
    Typing.Meets d n (r.instantiate base args site) (r'.instantiate base args site)

section Meets

variable {n : Nat} {r r' : Resolver}

theorem meets_of_eq {c : Check α} (h : ∀ s, Grows d s (c d s).2) : Meets d n c c :=
  fun s _ => ⟨rfl, h s⟩

theorem Meets.bind {m m' : Check α} {k k' : α → Check β} (hm : Meets d n m m')
    (hk : ∀ a, Meets d n (k a) (k' a)) : Meets d n (m >>= k) (m' >>= k') := by
  intro s hs
  obtain ⟨heq, hgrows⟩ := hm s hs
  obtain ⟨heq', hgrows'⟩ := hk (m d s).1 (m d s).2 (Nat.lt_of_le_of_lt hgrows.remaining_le hs)
  refine ⟨?_, hgrows.trans hgrows'⟩
  show k (m d s).1 d (m d s).2 = k' (m' d s).1 d (m' d s).2
  rw [heq', heq]

theorem grows_report (site : Site) (problem : Problem) (s : State) :
    Grows d s (report site problem d s).2 := ⟨rfl, .refl _, .refl _, fun _ => id⟩

theorem grows_setPattern (name : QualName) (origin : Origin) (s : State) :
    Grows d s (setPattern name origin d s).2 := by
  refine ⟨rfl, .refl _, .refl _, fun other hother => ?_⟩
  show (s.patterns.insert name origin).contains other
  rw [TreeMap.contains_insert, hother, Bool.or_true]

/-- Resolvers that meet are asked the same questions and give the same answers. -/
theorem Asks.meets (hr : r.Meets d n r') {c c' : Check α} (h : Asks d r r' c c') : Meets d n c c' := by
  induction h with
  | pure a => exact meets_of_eq .refl
  | bind _ _ hm hk => exact hm.bind hk
  | read _ hk => exact hk
  | report site problem => exact meets_of_eq (grows_report site problem)
  | typeAlias name _ => exact hr.typeAlias name
  | const name site => exact hr.const name site
  | instantiate base args site => exact hr.instantiate base args site

end Meets

/-! ### One name -/

section Level

/-- What stands behind names, if what they lead to is known. -/
def Resolver.next (r : Resolver) : Resolver := ⟨aliasType r, constValue r, instantiateType r⟩

variable {r r' : Resolver} {name : QualName}

theorem run_get_bind (k : State → Check α) : (get >>= k) d s = k s d s := rfl

theorem run_read_bind (k : Declarations → Check α) : (read >>= k) d s = k d d s := rfl

theorem aliasType_of_none {a : Declared AliasDef} (hnone : s.aliases.get? name = none)
    (hdecl : d.aliases.get? name = some a) : aliasType r name d s =
      let out := resolveType r a.scope ∅ a.decl.ty d (s.withAlias name .started)
      (out.1, out.2.withAlias name (.done out.1)) := by
  simp only [aliasType, run_get_bind, run_read_bind, hnone, hdecl]
  rfl

theorem constValue_of_none {site : Option Site} {c : Declared ConstDef}
    (hnone : s.consts.get? name = none) (hdecl : d.consts.get? name = some c) : constValue r name site d s =
      let out := evalDeclared r c d (s.withConst name .started)
      let t := if isConstType out.1.ty then out.2
        else (report (c.scope.site c.decl.span) (.constType out.1.ty) d out.2).2
      (out.1, t.withConst name (.done out.1)) := by
  simp only [constValue, run_get_bind, run_read_bind, hnone, hdecl]
  show (if (!isConstType (evalDeclared r c d (s.withConst name .started)).1.ty) = true then _
    else _ : Check CheckedConst) d (evalDeclared r c d (s.withConst name .started)).2 = _
  cases isConstType (evalDeclared r c d (s.withConst name .started)).1.ty with
  | true | false => rfl

/-- An instance that is to be built, rather than named or refused. -/
structure Buildable (d : Declarations) (s : State) (base : QualName) (args : List Ty)
    (nominal : Nominal) : Prop where
  declared : d.nominal? base = some nominal
  arity : args.length = nominal.params.length
  sound : args.any Ty.hasError = false
  closed : args.any s.mentionsParam = false
  unknown : s.knows nominal (instanceName base nominal.params args) = false
  outside : s.building.contains (instanceName base nominal.params args) = false
  room : s.building.length < maxDepth

theorem instantiateType_of_buildable {base : QualName} {args : List Ty} {nominal : Nominal}
    (h : Buildable d s base args nominal) (site : Site) : instantiateType r base args site d s =
      (nominal.ty (instanceName base nominal.params args),
        (buildNominal r nominal (instanceName base nominal.params args)
          (bindParams nominal.params args) (some ⟨base, args⟩) d
          (s.entering (instanceName base nominal.params args))).2.leaving) := by
  simp only [instantiateType, run_read_bind, h.declared]
  rw [if_neg (fun hne => hne h.arity), h.sound, if_neg Bool.false_ne_true, run_get_bind, h.closed,
    if_neg Bool.false_ne_true, h.unknown, h.outside, Bool.or_false, if_neg Bool.false_ne_true,
    if_neg (Nat.not_le.2 h.room)]
  rfl

theorem instantiateType_of_not_buildable {base : QualName} {args : List Ty}
    (h : ∀ nominal, ¬ Buildable d s base args nominal) (site : Site) :
    instantiateType r base args site d s = instantiateType r' base args site d s ∧
      Grows d s (instantiateType r base args site d s).2 := by
  simp only [instantiateType, run_read_bind]
  cases hdecl : d.nominal? base with
  | none => exact ⟨rfl, .refl s⟩
  | some nominal =>
    dsimp only
    by_cases harity : args.length = nominal.params.length
    · simp only [ne_eq, harity, not_true_eq_false, if_false]
      cases hsound : args.any Ty.hasError with
      | true =>
        simp only [if_true]
        exact ⟨trivial, .refl s⟩
      | false =>
        simp only [Bool.false_eq_true, if_false, run_get_bind]
        cases hclosed : args.any s.mentionsParam with
        | true =>
          simp only [if_true]
          exact ⟨trivial, grows_setPattern _ _ s⟩
        | false =>
          simp only [Bool.false_eq_true, if_false]
          cases hnew : s.knows nominal (instanceName base nominal.params args) ||
            s.building.contains (instanceName base nominal.params args) with
          | true =>
            simp only [if_true]
            exact ⟨trivial, .refl s⟩
          | false =>
            obtain ⟨hunknown, houtside⟩ := Bool.or_eq_false_iff.1 hnew
            have hfull : s.building.length ≥ maxDepth := Nat.not_lt.1 fun hroom =>
              h nominal ⟨hdecl, harity, hsound, hclosed, hunknown, houtside, hroom⟩
            simp only [Bool.false_eq_true, if_false, if_pos hfull]
            exact ⟨trivial, grows_report _ _ s⟩
    · simp only [ne_eq, harity, not_false_eq_true, if_true]
      exact ⟨trivial, grows_report _ _ s⟩

/-! ### One more level -/

variable {n : Nat}

theorem Resolver.Meets.aliasType (hr : r.Meets d n r') (name : QualName) :
    Typing.Meets d (n + 1) (aliasType r name) (aliasType r' name) := by
  intro s hs
  cases hentry : s.aliases.get? name with
  | some p =>
    simp only [Typing.aliasType, run_get_bind, run_read_bind, hentry]
    cases p with
    | done ty => exact ⟨rfl, .refl s⟩
    | started =>
      cases d.aliases.get? name with
      | none => exact ⟨rfl, .refl s⟩
      | some a => exact ⟨rfl, grows_report _ _ s⟩
  | none =>
    cases hdecl : d.aliases.get? name with
    | none =>
      simp only [Typing.aliasType, run_get_bind, run_read_bind, hentry, hdecl]
      exact ⟨trivial, .refl s⟩
    | some a =>
      have hname : d.aliases.contains name := contains_iff_get?.2 ⟨a, hdecl⟩
      have hlt := State.remaining_withAlias_lt hname hentry .started
      obtain ⟨heq, hgrows⟩ := (asks_resolveType a.scope ∅ a.decl.ty).meets hr (s.withAlias name .started) (by omega)
      rw [aliasType_of_none hentry hdecl, aliasType_of_none hentry hdecl, heq]
      rw [heq] at hgrows
      exact ⟨rfl, hgrows.endAlias hname hentry _⟩

theorem Resolver.Meets.constValue (hr : r.Meets d n r') (name : QualName) (site : Option Site) :
    Typing.Meets d (n + 1) (constValue r name site) (constValue r' name site) := by
  intro s hs
  cases hentry : s.consts.get? name with
  | some p =>
    simp only [Typing.constValue, run_get_bind, run_read_bind, hentry]
    cases p with
    | done c => exact ⟨rfl, .refl s⟩
    | started =>
      dsimp only
      cases site <|> (d.consts.get? name).map fun c => c.scope.site c.decl.span with
      | some site => exact ⟨rfl, grows_report _ _ s⟩
      | none => exact ⟨rfl, .refl s⟩
  | none =>
    cases hdecl : d.consts.get? name with
    | none =>
      simp only [Typing.constValue, run_get_bind, run_read_bind, hentry, hdecl]
      exact ⟨trivial, .refl s⟩
    | some c =>
      have hname : d.consts.contains name := contains_iff_get?.2 ⟨c, hdecl⟩
      have hlt := State.remaining_withConst_lt hname hentry .started
      obtain ⟨heq, hgrows⟩ := (asks_evalDeclared c).meets hr (s.withConst name .started) (by omega)
      rw [constValue_of_none hentry hdecl, constValue_of_none hentry hdecl, heq]
      rw [heq] at hgrows
      dsimp only
      split
      · exact ⟨rfl, hgrows.endConst hname hentry _⟩
      · exact ⟨rfl, (hgrows.trans (grows_report _ _ _)).endConst hname hentry _⟩

theorem Resolver.Meets.buildNominal (hr : r.Meets d n r') (nominal : Nominal) (name : QualName)
    (env : TypeEnv) (origin : Option Origin) : Typing.Meets d n (buildNominal r nominal name env origin)
      (buildNominal r' nominal name env origin) := by
  cases nominal with
  | struct decl =>
    exact ((asks_structFields _ _ _ _).meets hr).bind fun _ =>
      meets_of_eq fun s => ⟨rfl, .refl _, .refl _, fun _ => id⟩
  | enum decl =>
    exact ((asks_enumVariants _ _ _ _).meets hr).bind fun _ =>
      meets_of_eq fun s => ⟨rfl, .refl _, .refl _, fun _ => id⟩

theorem Resolver.Meets.instantiateType (hr : r.Meets d n r') (base : QualName) (args : List Ty) (site : Site) :
    Typing.Meets d (n + 1) (instantiateType r base args site) (instantiateType r' base args site) := by
  intro s hs
  by_cases h : ∃ nominal, Buildable d s base args nominal
  · obtain ⟨nominal, h⟩ := h
    have hlt := State.remaining_entering_lt (d := d) h.room (instanceName base nominal.params args)
    obtain ⟨heq, hgrows⟩ := hr.buildNominal nominal (instanceName base nominal.params args)
      (bindParams nominal.params args) (some ⟨base, args⟩)
      (s.entering (instanceName base nominal.params args)) (by omega)
    rw [instantiateType_of_buildable h, instantiateType_of_buildable h, heq]
    rw [heq] at hgrows
    exact ⟨rfl, hgrows.leaving⟩
  · exact instantiateType_of_not_buildable (fun nominal hn => h ⟨nominal, hn⟩) site

theorem Resolver.Meets.next (hr : r.Meets d n r') : r.next.Meets d (n + 1) r'.next :=
  ⟨hr.aliasType, hr.constValue, hr.instantiateType⟩

end Level

/-! ### All levels -/

/-- So many levels of names that are followed, above a resolver that is asked beyond them. -/
def Resolver.above (beyond : Resolver) : Nat → Resolver
  | 0 => beyond
  | n + 1 => (beyond.above n).next

theorem Resolver.within_eq_above (n : Nat) : Resolver.within n = (Resolver.within 0).above n := by
  induction n with
  | zero => rfl
  | succ n ih => exact congrArg Resolver.next ih

theorem Resolver.above_next (r : Resolver) (n : Nat) : r.next.above n = (r.above n).next := by
  induction n with
  | zero => rfl
  | succ n ih => exact congrArg Resolver.next ih

/-- By induction on the levels: from a state that lets fewer names through than there are levels,
the last one is never come to. -/
theorem Resolver.above_meets (r r' : Resolver) (n : Nat) : (r.above n).Meets d n (r'.above n) := by
  induction n with
  | zero =>
    exact ⟨fun _ _ h => absurd h (Nat.not_lt_zero _), fun _ _ _ h => absurd h (Nat.not_lt_zero _),
      fun _ _ _ _ h => absurd h (Nat.not_lt_zero _)⟩
  | succ n ih => exact ih.next

theorem Resolver.meets_within (d : Declarations) (beyond : Resolver) :
    (beyond.above d.depth).Meets d d.depth d.resolver := by
  rw [Declarations.resolver, within_eq_above]
  exact above_meets beyond _ _

theorem Resolver.next_meets_within (d : Declarations) : d.resolver.next.Meets d d.depth d.resolver := by
  have h := meets_within d (Resolver.within 0).next
  rwa [above_next, ← within_eq_above] at h

/-- The program's resolver does what it would do if it had no last level. -/
theorem Resolver.within_typeAlias (d : Declarations) (name : QualName) (s : State) :
    d.resolver.typeAlias name d s = aliasType d.resolver name d s :=
  (((next_meets_within d).typeAlias name) s (s.remaining_lt_depth d)).1.symm

theorem Resolver.within_const (d : Declarations) (name : QualName) (site : Option Site) (s : State) :
    d.resolver.const name site d s = constValue d.resolver name site d s :=
  (((next_meets_within d).const name site) s (s.remaining_lt_depth d)).1.symm

theorem Resolver.within_instantiate (d : Declarations) (base : QualName) (args : List Ty)
    (site : Site) (s : State) :
    d.resolver.instantiate base args site d s = instantiateType d.resolver base args site d s :=
  (((next_meets_within d).instantiate base args site) s (s.remaining_lt_depth d)).1.symm

/-! ### Termination -/

/-- The guards against endless names: the instances being built, and the aliases and constants
that are marked. -/
structure State.SameGuards (s s' : State) : Prop where
  building : s'.building = s.building
  aliases : ∀ name, s'.aliases.get? name = some .started ↔ s.aliases.get? name = some .started
  consts : ∀ name, s'.consts.get? name = some .started ↔ s.consts.get? name = some .started

theorem Grows.sameGuards (h : Grows d s s') : s.SameGuards s' :=
  ⟨h.building, h.aliases.started_iff, h.consts.started_iff⟩

/-- A computation that asks about names comes to its end from every state.  Names are followed
through no more levels than the program's resolver has, so it does not matter what stands beyond
them; and the guards are left as they were. -/
structure Ends (d : Declarations) (c : Resolver → Check α) : Prop where
  bounded : ∀ (beyond : Resolver) (s : State),
    c (beyond.above d.depth) d s = c (Resolver.within d.depth) d s
  restores : ∀ s : State, s.SameGuards (c (Resolver.within d.depth) d s).2

theorem ends_of_meets {n : Nat} (hn : d.depth ≤ n) {c : Resolver → Check α}
    (h : ∀ beyond : Resolver, Meets d n (c (beyond.above d.depth)) (c d.resolver)) : Ends d c := by
  have hlt (s : State) : s.remaining d < n := Nat.lt_of_lt_of_le (s.remaining_lt_depth d) hn
  refine ⟨fun beyond s => (h beyond s (hlt s)).1, fun s => ?_⟩
  obtain ⟨heq, hgrows⟩ := h (Resolver.within 0) s (hlt s)
  rw [← heq]
  exact hgrows.sameGuards

/-- **Following names terminates.**  For all declarations, from every state and on every argument:
what stands behind a name is what the rules for aliases, constants and instances say of it, with no
bound on how far names lead; and all the functions that follow names end, with every guard as it
was on entry, whether or not they reported anything. -/
theorem resolution_terminates (d : Declarations) :
    let r := Resolver.within d.depth
    (∀ name s, r.typeAlias name d s = aliasType r name d s) ∧
    (∀ name site s, r.const name site d s = constValue r name site d s) ∧
    (∀ base args site s, r.instantiate base args site d s = instantiateType r base args site d s) ∧
    (∀ scope env ann, Ends d (resolveType · scope env ann)) ∧
    (∀ name, Ends d (aliasType · name)) ∧
    (∀ name args site, Ends d (nominalType · name args site)) ∧
    (∀ base args site, Ends d (instantiateType · base args site)) ∧
    (∀ decl name env origin, Ends d (buildNominal · (.struct decl) name env origin)) ∧
    (∀ decl name env origin, Ends d (buildNominal · (.enum decl) name env origin)) ∧
    (∀ name site, Ends d (constValue · name site)) ∧
    (∀ scope e expected, Ends d (evalConst · scope e expected)) := by
  have hmeets := Resolver.meets_within d
  refine ⟨Resolver.within_typeAlias d, Resolver.within_const d, Resolver.within_instantiate d,
    fun scope env ann => ?_, fun name => ?_, fun name args site => ?_, fun base args site => ?_,
    fun decl name env origin => ?_, fun decl name env origin => ?_, fun name site => ?_,
    fun scope e expected => ?_⟩
  · exact ends_of_meets (Nat.le_refl _) fun beyond => (asks_resolveType scope env ann).meets (hmeets beyond)
  · exact ends_of_meets (Nat.le_succ _) fun beyond => (hmeets beyond).aliasType name
  · exact ends_of_meets (Nat.le_refl _) fun beyond => (asks_nominalType name args site).meets (hmeets beyond)
  · exact ends_of_meets (Nat.le_succ _) fun beyond => (hmeets beyond).instantiateType base args site
  · exact ends_of_meets (Nat.le_refl _) fun beyond => (hmeets beyond).buildNominal (.struct decl) name env origin
  · exact ends_of_meets (Nat.le_refl _) fun beyond => (hmeets beyond).buildNominal (.enum decl) name env origin
  · exact ends_of_meets (Nat.le_succ _) fun beyond => (hmeets beyond).constValue name site
  · exact ends_of_meets (Nat.le_refl _) fun beyond => (asks_evalConst scope e expected).meets (hmeets beyond)

end Keel.Typing
