/-
# Constants do not depend on when they are asked for

A constant is evaluated when it is first asked for, and its value is kept.  What it is
evaluated with are other constants, aliases and instances of types, which may be there
already or may have to be worked out on the way.  Either way the answer is the same, as
long as nothing is reported.

`Answers` says of a resolver that it knows some facts, and `Comes` says of a computation
that it comes to a value by these facts, whoever it asks.  The facts of a state are
`Grounded` if they can be put into levels, so that each comes from those below it.  This
is kept by whatever the checker does without a report: a constant that has just been
evaluated comes from facts that the state holds by then (`comes_of_asks`).
-/
import Keel.Proofs.Typing.Naming
import Keel.Proofs.Typing.Termination

namespace Keel.Typing

open List

variable {α β : Type} {d : Declarations} {s s' : State}

/-! ### Facts -/

/-- What is known of names: constants, aliases, and instances that need not be built. -/
structure Facts where
  const : QualName → CheckedConst → Prop
  typeAlias : QualName → Ty → Prop
  ready : QualName → List Ty → Prop

structure Facts.Sub (F G : Facts) : Prop where
  const : ∀ name c, F.const name c → G.const name c
  typeAlias : ∀ name ty, F.typeAlias name ty → G.typeAlias name ty
  ready : ∀ base args, F.ready base args → G.ready base args

theorem Facts.Sub.refl (F : Facts) : F.Sub F := ⟨fun _ _ => id, fun _ _ => id, fun _ _ => id⟩

variable {F G : Facts} {other : QualName} {p : Progress CheckedConst}

theorem Facts.Sub.trans {H : Facts} (h : F.Sub G) (h' : G.Sub H) : F.Sub H :=
  ⟨fun _ _ hc => h'.const _ _ (h.const _ _ hc), fun _ _ ht => h'.typeAlias _ _ (h.typeAlias _ _ ht),
    fun _ _ hr => h'.ready _ _ (h.ready _ _ hr)⟩

/-- The instance is a pattern, has a signature, or is being built. -/
def State.Ready (d : Declarations) (s : State) (base : QualName) (args : List Ty) : Prop :=
  ∃ nominal, d.nominal? base = some nominal ∧
    (args.any s.mentionsParam ∨ s.knows nominal (instanceName base nominal.params args) ∨
      instanceName base nominal.params args ∈ s.building)

def State.facts (d : Declarations) (s : State) : Facts where
  const name c := s.consts.get? name = some (.done c)
  typeAlias name ty := s.aliases.get? name = some (.done ty)
  ready := s.Ready d

/-- The type of an instance for which there is nothing to report or to build. -/
inductive InstanceType (d : Declarations) (ready : QualName → List Ty → Prop) (base : QualName)
    (args : List Ty) : Ty → Prop
  | undeclared : d.nominal? base = none → InstanceType d ready base args .error
  | error {nominal : Nominal} : d.nominal? base = some nominal →
    args.length = nominal.params.length → args.any Ty.hasError →
      InstanceType d ready base args .error
  | ready {nominal : Nominal} : d.nominal? base = some nominal →
    args.length = nominal.params.length → args.any Ty.hasError = false → ready base args →
      InstanceType d ready base args (nominal.ty (instanceName base nominal.params args))

theorem InstanceType.mono {N N' : QualName → List Ty → Prop} {base : QualName} {args : List Ty} {ty : Ty}
    (h : InstanceType d N base args ty) (hN : N base args → N' base args) : InstanceType d N' base args ty := by
  cases h with
  | undeclared hdecl => exact .undeclared hdecl
  | error hdecl harity herror => exact .error hdecl harity herror
  | ready hdecl harity herror hready => exact .ready hdecl harity herror (hN hready)

/-- The resolver knows these facts in all states that satisfy `J`, and stays there. -/
structure Answers (d : Declarations) (F : Facts) (J : State → Prop) (r : Resolver) : Prop where
  typeAlias : ∀ name ty s, F.typeAlias name ty → J s →
    ∃ s', r.typeAlias name d s = (ty, s') ∧ J s'
  const : ∀ name site c s, F.const name c → J s → ∃ s', r.const name site d s = (c, s') ∧ J s'
  undeclared : ∀ name site s, d.consts.get? name = none → J s →
    ∃ s', r.const name site d s = (.failed, s') ∧ J s'
  instantiate : ∀ base args site ty s, InstanceType d F.ready base args ty → J s →
    ∃ s', r.instantiate base args site d s = (ty, s') ∧ J s'

theorem Answers.of_sub {J : State → Prop} {r : Resolver} (h : Answers d G J r) (hsub : F.Sub G) :
    Answers d F J r where
  typeAlias name ty s hty := h.typeAlias name ty s (hsub.typeAlias name ty hty)
  const name site c s hc := h.const name site c s (hsub.const name c hc)
  undeclared := h.undeclared
  instantiate base args site ty s hty :=
    h.instantiate base args site ty s (hty.mono (hsub.ready base args))

/-- By these facts the computation has this value, whoever is asked. -/
def Comes (d : Declarations) (F : Facts) (c : Resolver → Check α) (a : α) : Prop :=
  ∀ (J : State → Prop) (r : Resolver), Answers d F J r → ∀ s, J s → ∃ s', c r d s = (a, s') ∧ J s'

theorem Comes.mono {c : Resolver → Check α} {a : α} (h : Comes d F c a) (hsub : F.Sub G) :
    Comes d G c a := fun J r hr => h J r (hr.of_sub hsub)

/-- The facts that come from others in so many steps. -/
def Facts.level (d : Declarations) (F : Facts) : Nat → Facts
  | 0 => { F with const := fun _ _ => False, typeAlias := fun _ _ => False }
  | k + 1 =>
    { F with
      const := fun name c => F.const name c ∧ isConstType c.ty ∧
        ∃ decl, d.consts.get? name = some decl ∧ Comes d (F.level d k) (evalDeclared · decl) c
      typeAlias := fun name ty => F.typeAlias name ty ∧
        ∃ decl, d.aliases.get? name = some decl ∧
          Comes d (F.level d k) (resolveType · decl.scope ∅ decl.decl.ty) ty }

theorem Facts.level_ready (F : Facts) (k : Nat) : (F.level d k).ready = F.ready := by
  cases k with
  | zero | succ k => rfl

theorem Facts.level_mono (h : F.Sub G) (k : Nat) : (F.level d k).Sub (G.level d k) := by
  induction k with
  | zero => exact ⟨fun _ _ => id, fun _ _ => id, h.ready⟩
  | succ k ih =>
    refine ⟨?_, ?_, h.ready⟩
    · rintro name c ⟨hc, hty, decl, hdecl, hcomes⟩
      exact ⟨h.const name c hc, hty, decl, hdecl, hcomes.mono ih⟩
    · rintro name ty ⟨hty, decl, hdecl, hcomes⟩
      exact ⟨h.typeAlias name ty hty, decl, hdecl, hcomes.mono ih⟩

theorem Facts.level_succ (F : Facts) (k : Nat) : (F.level d k).Sub (F.level d (k + 1)) := by
  induction k with
  | zero => exact ⟨fun _ _ => False.elim, fun _ _ => False.elim, fun _ _ => id⟩
  | succ k ih =>
    refine ⟨?_, ?_, fun _ _ => id⟩
    · rintro name c ⟨hc, hty, decl, hdecl, hcomes⟩
      exact ⟨hc, hty, decl, hdecl, hcomes.mono ih⟩
    · rintro name ty ⟨hty, decl, hdecl, hcomes⟩
      exact ⟨hty, decl, hdecl, hcomes.mono ih⟩

/-- Every fact of the state comes from others, and not in a circle. -/
def State.Grounded (d : Declarations) (s : State) : Prop :=
  ∃ k, (s.facts d).Sub ((s.facts d).level d k)

/-! ### More is known than before -/

theorem mentionsParam_mono (h : ∀ name, s.patterns.contains name → s'.patterns.contains name) (ty : Ty) :
    s.mentionsParam ty → s'.mentionsParam ty := by
  induction ty with
  | list elem ih => exact ih
  | struct name | enum name => exact h name
  | param name => exact id
  | _ => exact id

structure Wider (s s' : State) : Prop where
  patterns : ∀ name, s.patterns.contains name → s'.patterns.contains name
  structs : ∀ name, s.signatures.structs.contains name → s'.signatures.structs.contains name
  enums : ∀ name, s.signatures.enums.contains name → s'.signatures.enums.contains name

theorem Wider.refl (s : State) : Wider s s := ⟨fun _ => id, fun _ => id, fun _ => id⟩

theorem Wider.ready (h : Wider s s') (hbuilding : ∀ name ∈ s.building, name ∈ s'.building)
    {base : QualName} {args : List Ty} (hready : s.Ready d base args) : s'.Ready d base args := by
  obtain ⟨nominal, hdecl, hready⟩ := hready
  refine ⟨nominal, hdecl, ?_⟩
  rcases hready with hmention | hknown | hbuilt
  · refine .inl ?_
    obtain ⟨ty, hty, hmention⟩ := any_eq_true.1 hmention
    exact any_eq_true.2 ⟨ty, hty, mentionsParam_mono h.patterns ty hmention⟩
  · refine .inr (.inl ?_)
    cases nominal with
    | struct decl => exact h.structs _ hknown
    | enum decl => exact h.enums _ hknown
  · exact .inr (.inr (hbuilding _ hbuilt))

theorem State.Grounded.wider (h : s.Grounded d) (hconsts : s'.consts = s.consts) (haliases : s'.aliases = s.aliases)
    (hready : ∀ base args, s.Ready d base args → s'.Ready d base args) : s'.Grounded d := by
  obtain ⟨k, hk⟩ := h
  have hsub : (s.facts d).Sub (s'.facts d) :=
    ⟨fun name c hc => by rwa [State.facts, hconsts], fun name ty hty => by rwa [State.facts, haliases],
      hready⟩
  refine ⟨k, fun name c hc => ?_, fun name ty hty => ?_, fun base args hr => ?_⟩
  · rw [State.facts, hconsts] at hc
    exact (Facts.level_mono hsub k).const name c (hk.const name c hc)
  · rw [State.facts, haliases] at hty
    exact (Facts.level_mono hsub k).typeAlias name ty (hk.typeAlias name ty hty)
  · rwa [Facts.level_ready]

/-- The later state holds at least as much. -/
structure Onward (d : Declarations) (s s' : State) : Prop where
  facts : (s.facts d).Sub (s'.facts d)
  reports : s.reports <:+ s'.reports

theorem Onward.refl (s : State) : Onward d s s := ⟨.refl _, suffix_refl _⟩

theorem Onward.trans {s₁ s₂ : State} (h : Onward d s s₁) (h' : Onward d s₁ s₂) : Onward d s s₂ :=
  ⟨h.facts.trans h'.facts, h.reports.trans h'.reports⟩

theorem Onward.clean (h : Onward d s s') (hclean : s'.Clean) : s.Clean := by
  have := h.reports
  rwa [hclean, suffix_nil] at this

theorem Onward.of_grows (h : Grows d s s') (h' : Resolves s s') : Onward d s s' := by
  have hkept {γ : Type} {t t' : Std.TreeMap QualName γ}
      (h : ∀ name a, t.get? name = some a → t'.get? name = some a) (name : QualName) :
      t.contains name → t'.contains name := by
    rw [contains_iff_get?, contains_iff_get?]
    exact fun ⟨a, ha⟩ => ⟨a, h name a ha⟩
  have hwider : Wider s s' := ⟨h.patterns, hkept h'.keeps.structs, hkept h'.keeps.enums⟩
  exact ⟨⟨fun name c hc => h.consts.kept name _ hc, fun name ty hty => h.aliases.kept name _ hty,
    fun _ _ => hwider.ready fun _ hname => h.building ▸ hname⟩, h'.reports⟩

section Asking

variable {r r' : Resolver} {c c' : Check α}

theorem Asks.left (h : Asks d r r' c c') : Asks d r r c c := by
  induction h with
  | pure a => exact .pure a
  | bind _ _ hm hk => exact .bind hm hk
  | read _ hk => exact .read hk
  | report site problem => exact .report site problem
  | typeAlias name hname => exact .typeAlias name hname
  | const name site => exact .const name site
  | instantiate base args site => exact .instantiate base args site

theorem Resolver.within_meets (d : Declarations) : d.resolver.Meets d d.depth d.resolver := by
  have h := meets_within d (Resolver.within 0)
  rwa [← within_eq_above] at h

theorem Asks.grows (h : Asks d d.resolver r' c c') (s : State) : Grows d s (c d s).2 := by
  exact (h.left.meets (Resolver.within_meets d) s (s.remaining_lt_depth d)).2

theorem Asks.resolves (h : Asks d d.resolver r' c c') (s : State) : Resolves s (c d s).2 := by
  exact h.left.resolving (Resolver.resolving_within _) s

theorem Asks.onward (h : Asks d d.resolver r' c c') (s : State) :
    Onward d s (c d s).2 := .of_grows (h.grows s) (h.resolves s)

end Asking

/-! ### What was asked for is known -/

section Recorded

variable {name base : QualName} {args : List Ty}

theorem not_clean_report (d : Declarations) (site : Site) (problem : Problem) (s : State) :
    ¬ (report site problem d s).2.Clean := fun h => cons_ne_nil _ _ h

theorem typeAlias_recorded (hname : d.aliases.contains name) (s : State)
    (hclean : (d.resolver.typeAlias name d s).2.Clean) : ((d.resolver.typeAlias name d s).2.facts d).typeAlias name
      (d.resolver.typeAlias name d s).1 := by
  obtain ⟨a, hdecl⟩ := contains_iff_get?.1 hname
  rw [Resolver.within_typeAlias] at hclean ⊢
  cases hentry : s.aliases.get? name with
  | none =>
    rw [aliasType_of_none hentry hdecl]
    exact (get?_insert _ _ _ _).trans (if_pos rfl)
  | some p =>
    simp only [aliasType, run_get_bind, run_read_bind, hentry, hdecl] at hclean ⊢
    cases p with
    | done ty => exact hentry
    | started => exact absurd hclean (not_clean_report d _ _ s)

theorem const_recorded (site : Option Site) (s : State) (hclean : (d.resolver.const name site d s).2.Clean) :
    ((d.resolver.const name site d s).2.facts d).const name (d.resolver.const name site d s).1 ∨
      d.consts.get? name = none ∧ (d.resolver.const name site d s).1 = .failed := by
  rw [Resolver.within_const] at hclean ⊢
  cases hdecl : d.consts.get? name with
  | none =>
    cases hentry : s.consts.get? name with
    | none =>
      simp only [constValue, run_get_bind, run_read_bind, hentry, hdecl]
      exact .inr ⟨trivial, rfl⟩
    | some p =>
      simp only [constValue, run_get_bind, run_read_bind, hentry, hdecl] at hclean ⊢
      cases p with
      | done c => exact .inl hentry
      | started =>
        cases site with
        | none => exact .inr ⟨trivial, rfl⟩
        | some site => exact absurd hclean (not_clean_report d _ _ s)
  | some c =>
    refine .inl ?_
    cases hentry : s.consts.get? name with
    | none =>
      rw [constValue_of_none hentry hdecl]
      exact (get?_insert _ _ _ _).trans (if_pos rfl)
    | some p =>
      simp only [constValue, run_get_bind, run_read_bind, hentry, hdecl] at hclean ⊢
      cases p with
      | done c => exact hentry
      | started =>
        cases site with
        | none | some site => exact absurd hclean (not_clean_report d _ _ s)

/-- At most a pattern is new. -/
def Patterned (d : Declarations) (s s' : State) : Prop :=
  s' = s ∨ ∃ name origin, s' = (setPattern name origin d s).2

theorem Patterned.wider (h : Patterned d s s') : Wider s s' := by
  rcases h with rfl | ⟨name, origin, rfl⟩
  · exact .refl s'
  · exact ⟨(grows_setPattern (d := d) name origin s).patterns, fun _ => id, fun _ => id⟩

theorem Patterned.consts (h : Patterned d s s') : s'.consts = s.consts := by
  rcases h with rfl | ⟨-, -, rfl⟩ <;> rfl

theorem Patterned.aliases (h : Patterned d s s') : s'.aliases = s.aliases := by
  rcases h with rfl | ⟨-, -, rfl⟩ <;> rfl

theorem Patterned.ready (h : Patterned d s s') (hready : s.Ready d base args) : s'.Ready d base args := by
  refine h.wider.ready (fun name hname => ?_) hready
  rcases h with rfl | ⟨-, -, rfl⟩ <;> exact hname

theorem instantiateType_of_instanceType {ty : Ty} (h : InstanceType d (s.Ready d) base args ty)
    (r : Resolver) (site : Site) : ∃ s', instantiateType r base args site d s = (ty, s') ∧ Patterned d s s' := by
  cases h with
  | undeclared hdecl =>
    simp only [instantiateType, run_read_bind, hdecl]
    exact ⟨s, rfl, .inl rfl⟩
  | error hdecl harity herror =>
    simp only [instantiateType, run_read_bind, hdecl]
    rw [if_neg (not_not.2 harity), if_pos herror]
    exact ⟨s, rfl, .inl rfl⟩
  | @ready nominal hdecl harity herror hready =>
    obtain ⟨nominal', hdecl', hready⟩ := hready
    obtain rfl : nominal = nominal' := Option.some.inj (hdecl.symm.trans hdecl')
    simp only [instantiateType, run_read_bind, hdecl]
    rw [if_neg (not_not.2 harity), herror, if_neg Bool.false_ne_true, run_get_bind]
    cases hmention : args.any s.mentionsParam with
    | true =>
      rw [if_pos rfl]
      exact ⟨_, rfl, .inr ⟨_, _, rfl⟩⟩
    | false =>
      rw [hmention] at hready
      have hthere : s.knows nominal (instanceName base nominal.params args) ||
          s.building.contains (instanceName base nominal.params args) := by
        rw [Bool.or_eq_true, contains_iff_mem]
        exact hready.resolve_left Bool.false_ne_true
      rw [if_neg Bool.false_ne_true, if_pos hthere]
      exact ⟨s, rfl, .inl rfl⟩

theorem instantiateType_cases (d : Declarations) (s : State) (base : QualName) (args : List Ty) :
    (∃ ty, InstanceType d (s.Ready d) base args ty) ∨ (∃ nominal, Buildable d s base args nominal) ∨
      ∀ (r : Resolver) (site : Site), ¬ (instantiateType r base args site d s).2.Clean := by
  cases hdecl : d.nominal? base with
  | none => exact .inl ⟨_, .undeclared hdecl⟩
  | some nominal =>
    by_cases harity : args.length = nominal.params.length
    · cases herror : args.any Ty.hasError with
      | true => exact .inl ⟨_, .error hdecl harity herror⟩
      | false =>
        by_cases hready : s.Ready d base args
        · exact .inl ⟨_, .ready hdecl harity herror hready⟩
        refine .inr ?_
        have hout : args.any s.mentionsParam = false ∧
            s.knows nominal (instanceName base nominal.params args) = false ∧
            s.building.contains (instanceName base nominal.params args) = false := by
          refine ⟨?_, ?_, ?_⟩ <;> rw [← Bool.not_eq_true] <;> intro h <;> refine hready ⟨nominal, hdecl, ?_⟩
          · exact .inl h
          · exact .inr (.inl h)
          · exact .inr (.inr (contains_iff_mem.1 h))
        obtain ⟨hclosed, hunknown, houtside⟩ := hout
        by_cases hroom : s.building.length < maxDepth
        · exact .inl ⟨nominal, hdecl, harity, herror, hclosed, hunknown, houtside, hroom⟩
        · refine .inr fun r site => ?_
          simp only [instantiateType, run_read_bind, hdecl]
          rw [if_neg (not_not.2 harity), herror, if_neg Bool.false_ne_true, run_get_bind, hclosed,
            if_neg Bool.false_ne_true, hunknown, houtside, Bool.or_false, if_neg Bool.false_ne_true,
            if_pos (Nat.not_lt.1 hroom)]
          exact not_clean_report d _ _ s
    · refine .inr (.inr fun r site => ?_)
      simp only [instantiateType, run_read_bind, hdecl]
      rw [if_pos harity]
      exact not_clean_report d _ _ s

theorem knows_buildNominal (r : Resolver) (nominal : Nominal) (name : QualName) (env : TypeEnv)
    (origin : Option Origin) (s : State) : (buildNominal r nominal name env origin d s).2.knows nominal name := by
  cases nominal with
  | struct decl | enum decl =>
    exact Std.TreeMap.contains_insert_self

theorem instantiate_recorded (site : Site) (s : State)
    (hclean : (d.resolver.instantiate base args site d s).2.Clean) :
    InstanceType d ((d.resolver.instantiate base args site d s).2.Ready d) base args
      (d.resolver.instantiate base args site d s).1 := by
  rw [Resolver.within_instantiate] at hclean ⊢
  rcases instantiateType_cases d s base args with ⟨ty, hty⟩ | ⟨nominal, hbuild⟩ | hrefused
  · obtain ⟨s', heq, hpattern⟩ := instantiateType_of_instanceType hty d.resolver site
    rw [heq]
    exact hty.mono hpattern.ready
  · rw [instantiateType_of_buildable hbuild]
    refine .ready hbuild.declared hbuild.arity hbuild.sound ⟨nominal, hbuild.declared, .inr (.inl ?_)⟩
    exact knows_buildNominal (d := d) _ _ _ _ _ _
  · exact absurd hclean (hrefused _ _)

end Recorded

/-! ### Another resolver gives the same value -/

/-- By induction on the steps: if the run with the program's resolver leads to a state whose facts
are in some level, then a resolver that knows this level gives the same answers all the way. -/
theorem Asks.same {r : Resolver} {c c' : Check α} (h : Asks d d.resolver r c c') {e : State}
    (he : e.Clean) (hF : (e.facts d).Sub F) {J : State → Prop} (hr : Answers d F J r) :
    ∀ s t, Onward d (c d s).2 e → J t → ∃ t', c' d t = ((c d s).1, t') ∧ J t' := by
  induction h with
  | pure a => exact fun s t _ ht => ⟨t, rfl, ht⟩
  | @bind _ _ m m' k k' _ hkasks hm hk =>
    intro s t honward ht
    have hmid : Onward d (m d s).2 (k (m d s).1 d (m d s).2).2 := (hkasks (m d s).1).onward _
    obtain ⟨t₁, heq, ht₁⟩ := hm s t (hmid.trans honward) ht
    obtain ⟨t₂, heq', ht₂⟩ := hk (m d s).1 (m d s).2 t₁ honward ht₁
    refine ⟨t₂, ?_, ht₂⟩
    show k' (m' d t).1 d (m' d t).2 = _
    rw [heq]
    exact heq'
  | read _ hk => exact hk
  | report site problem =>
    exact fun s t honward _ => absurd (honward.clean he) (not_clean_report d site problem s)
  | typeAlias name hname =>
    intro s t honward ht
    exact hr.typeAlias name _ t (hF.typeAlias _ _ (honward.facts.typeAlias _ _
      (typeAlias_recorded hname s (honward.clean he)))) ht
  | const name site =>
    intro s t honward ht
    rcases const_recorded site s (honward.clean he) with hconst | ⟨hnone, hfailed⟩
    · exact hr.const name site _ t (hF.const _ _ (honward.facts.const _ _ hconst)) ht
    · rw [hfailed]
      exact hr.undeclared name site t hnone ht
  | instantiate base args site =>
    intro s t honward ht
    have hty := instantiate_recorded site s (honward.clean he)
    exact hr.instantiate base args site _ t
      (hty.mono fun hready => hF.ready _ _ (honward.facts.ready _ _ hready)) ht

theorem comes_of_asks {c : Resolver → Check α} (hc : ∀ r, Asks d d.resolver r (c d.resolver) (c r)) {s : State}
    (hclean : (c d.resolver d s).2.Clean) (hF : ((c d.resolver d s).2.facts d).Sub F) :
    Comes d F c (c d.resolver d s).1 := fun _ r hr t ht =>
  (hc r).same hclean hF hr s t (.refl _) ht

/-! ### Runs without a report keep the facts grounded -/

theorem typeAlias_withAlias {name : QualName} {p : Progress Ty} {ty : Ty} :
    ((s.withAlias name p).facts d).typeAlias other ty ↔
      if name = other then p = .done ty else (s.facts d).typeAlias other ty := by
  show (s.aliases.insert name p).get? other = some (.done ty) ↔ _
  rw [get?_insert]
  split
  · rw [Option.some.injEq]
  · exact .rfl

theorem const_withConst {name : QualName} {c : CheckedConst} : ((s.withConst name p).facts d).const other c ↔
      if name = other then p = .done c else (s.facts d).const other c := by
  show (s.consts.insert name p).get? other = some (.done c) ↔ _
  rw [get?_insert]
  split
  · rw [Option.some.injEq]
  · exact .rfl

theorem State.Grounded.withAlias {name : QualName} {p : Progress Ty} {k : Nat}
    (hk : (s.facts d).Sub ((s.facts d).level d k)) (hold : ∀ ty, ¬ (s.facts d).typeAlias name ty)
    (hnew : ∀ ty, p = .done ty → ∃ decl, d.aliases.get? name = some decl ∧
      Comes d ((s.facts d).level d k) (resolveType · decl.scope ∅ decl.decl.ty) ty) :
    (s.withAlias name p).Grounded d := by
  have hwider : Wider s (s.withAlias name p) := ⟨fun _ => id, fun _ => id, fun _ => id⟩
  have hsub : (s.facts d).Sub ((s.withAlias name p).facts d) := by
    refine ⟨fun _ _ => id, fun other ty hty => ?_, fun _ _ => hwider.ready fun _ => id⟩
    have hne : name ≠ other := fun heq => hold ty (heq ▸ hty)
    rwa [typeAlias_withAlias, if_neg hne]
  have hlevel := (hk.trans (Facts.level_mono hsub k)).trans (Facts.level_succ _ k)
  refine ⟨k + 1, hlevel.const, fun other ty hty => ?_, fun _ _ => id⟩
  have hget := hty
  rw [typeAlias_withAlias] at hget
  split at hget
  · next heq =>
    subst heq
    obtain ⟨decl, hdecl, hcomes⟩ := hnew ty hget
    exact ⟨hty, decl, hdecl, hcomes.mono (Facts.level_mono hsub k)⟩
  · exact hlevel.typeAlias other ty hget

theorem State.Grounded.withConst {name : QualName} {k : Nat} (hk : (s.facts d).Sub ((s.facts d).level d k))
    (hold : ∀ c, ¬ (s.facts d).const name c)
    (hnew : ∀ c, p = .done c → isConstType c.ty ∧ ∃ decl, d.consts.get? name = some decl ∧
      Comes d ((s.facts d).level d k) (evalDeclared · decl) c) : (s.withConst name p).Grounded d := by
  have hwider : Wider s (s.withConst name p) := ⟨fun _ => id, fun _ => id, fun _ => id⟩
  have hsub : (s.facts d).Sub ((s.withConst name p).facts d) := by
    refine ⟨fun other c hc => ?_, fun _ _ => id, fun _ _ => hwider.ready fun _ => id⟩
    have hne : name ≠ other := fun heq => hold c (heq ▸ hc)
    rwa [const_withConst, if_neg hne]
  have hlevel := (hk.trans (Facts.level_mono hsub k)).trans (Facts.level_succ _ k)
  refine ⟨k + 1, fun other c hc => ?_, hlevel.typeAlias, fun _ _ => id⟩
  have hget := hc
  rw [const_withConst] at hget
  split at hget
  · next heq =>
    subst heq
    obtain ⟨hty, decl, hdecl, hcomes⟩ := hnew c hget
    exact ⟨hc, hty, decl, hdecl, hcomes.mono (Facts.level_mono hsub k)⟩
  · exact hlevel.const other c hget

/-- From states that let fewer than `n` names through: the facts stay grounded, unless something is
reported. -/
def Grounds (d : Declarations) (n : Nat) (c : Check α) : Prop :=
  ∀ s, s.remaining d < n → s.Grounded d → (c d s).2.Clean → (c d s).2.Grounded d

/-- The same of all that the resolver does. -/
structure Resolver.Grounds (d : Declarations) (n : Nat) (r : Resolver) : Prop where
  typeAlias : ∀ name, d.aliases.contains name → Typing.Grounds d n (r.typeAlias name)
  const : ∀ name site, Typing.Grounds d n (r.const name site)
  instantiate : ∀ base args site, Typing.Grounds d n (r.instantiate base args site)

theorem Asks.grounds {n : Nat} (hr : d.resolver.Grounds d n) {r : Resolver}
    {c c' : Check α} (h : Asks d d.resolver r c c') : Grounds d n c := by
  induction h with
  | pure a => exact fun _ _ hs _ => hs
  | @bind _ _ m m' k k' hmasks hkasks hm hk =>
    intro s hn hs hclean
    have hmid : (m d s).2.Clean := ((hkasks (m d s).1).onward _).clean hclean
    have hlt := Nat.lt_of_le_of_lt (hmasks.grows s).remaining_le hn
    exact hk (m d s).1 (m d s).2 hlt (hm s hn hs hmid) hclean
  | read _ hk => exact hk
  | report site problem => exact fun s _ _ hclean => absurd hclean (not_clean_report d site problem s)
  | typeAlias name hname => exact hr.typeAlias name hname
  | const name site => exact hr.const name site
  | instantiate base args site => exact hr.instantiate base args site

theorem wider_setStruct (sig : StructSig) (s : State) : Wider s (setStruct sig d s).2 := by
  refine ⟨fun _ => id, fun name hname => ?_, fun _ => id⟩
  show (s.signatures.structs.insert sig.name sig).contains name
  rw [Std.TreeMap.contains_insert, hname, Bool.or_true]

theorem wider_setEnum (sig : EnumSig) (s : State) : Wider s (setEnum sig d s).2 := by
  refine ⟨fun _ => id, fun _ => id, fun name hname => ?_⟩
  show (s.signatures.enums.insert sig.name sig).contains name
  rw [Std.TreeMap.contains_insert, hname, Bool.or_true]

/-- Instances of different declarations have different names. -/
theorem base_eq_of_instanceName {base base' : QualName} (hbase : isWord base.name)
    (hbase' : isWord base'.name) {params params' : List String} {args args' : List Ty}
    (h : instanceName base params args = instanceName base' params' args') : base = base' := by
  have hmodule : (instanceName base params args).module = (instanceName base' params' args').module := by
    rw [h]
  have hname : (instanceName base params args).name = (instanceName base' params' args').name := by
    rw [h]
  simp only [instanceName, QualName.withName] at hmodule hname
  have hlist := congrArg String.toList hname
  simp only [String.toList_append, append_assoc] at hlist
  have hhead {rest : List Char} : ∀ c ∈ ("[".toList ++ rest).head?, Scan.isWordPart c = false := by
    rintro c ⟨⟩
    decide
  obtain ⟨heq, -⟩ := append_inj_of_head (isWordPart_of_isWord hbase) (isWordPart_of_isWord hbase') hhead hhead hlist
  cases base
  cases base'
  obtain rfl := hmodule
  obtain rfl := String.toList_injective heq
  rfl

theorem State.Ready.leaving {M : ModulePath → Prop} (hd : d.In M) {base : QualName} {args args' : List Ty}
    {nominal : Nominal} (h : s.Ready d other args') (hdecl : d.nominal? base = some nominal)
    (hknown : s.knows nominal (instanceName base nominal.params args)) {rest : List QualName}
    (htop : s.building = instanceName base nominal.params args :: rest) : s.leaving.Ready d other args' := by
  have hwider : Wider s s.leaving := ⟨fun _ => id, fun _ => id, fun _ => id⟩
  obtain ⟨nominal', hdecl', h⟩ := h
  refine ⟨nominal', hdecl', ?_⟩
  rcases h with hmention | hthere | hbuilt
  · obtain ⟨ty, hty, hmention⟩ := any_eq_true.1 hmention
    exact .inl (any_eq_true.2 ⟨ty, hty, mentionsParam_mono hwider.patterns ty hmention⟩)
  · exact .inr (.inl hthere)
  · rw [htop, mem_cons] at hbuilt
    rcases hbuilt with heq | hrest
    · obtain rfl := base_eq_of_instanceName (hd _ _ hdecl').2 (hd _ _ hdecl).2 heq
      obtain rfl : nominal' = nominal := Option.some.inj (hdecl'.symm.trans hdecl)
      exact .inr (.inl (heq ▸ hknown))
    · refine .inr (.inr ?_)
      rwa [State.leaving, htop]

section Following

variable {n : Nat} (hr : d.resolver.Grounds d n)

include hr

theorem grounds_typeAlias (name : QualName) (hname : d.aliases.contains name) :
    Grounds d (n + 1) (d.resolver.typeAlias name) := by
  intro s hn hs hclean
  obtain ⟨a, hdecl⟩ := contains_iff_get?.1 hname
  rw [Resolver.within_typeAlias] at hclean ⊢
  cases hentry : s.aliases.get? name with
  | some p =>
    simp only [aliasType, run_get_bind, run_read_bind, hentry, hdecl] at hclean ⊢
    cases p with
    | done ty => exact hs
    | started => exact absurd hclean (not_clean_report d _ _ s)
  | none =>
    rw [aliasType_of_none hentry hdecl] at hclean ⊢
    have hasks (r : Resolver) : Asks d d.resolver r
        (resolveType d.resolver a.scope ∅ a.decl.ty) (resolveType r a.scope ∅ a.decl.ty) :=
      asks_resolveType _ _ _
    have hstarted : (s.withAlias name .started).Grounded d := by
      obtain ⟨k, hk⟩ := hs
      exact .withAlias hk (fun ty hty => by cases hentry.symm.trans hty) (by simp)
    have hlt := State.remaining_withAlias_lt hname hentry .started
    obtain ⟨k, hk⟩ := (hasks d.resolver).grounds hr _ (by omega) hstarted hclean
    refine .withAlias hk (fun ty hty => ?_) ?_
    · have hkept := ((hasks d.resolver).grows (s.withAlias name .started)).aliases.kept
        name .started (by simp [State.withAlias])
      cases hkept.symm.trans hty
    · rintro ty ⟨⟩
      exact ⟨a, hdecl, comes_of_asks (c := (resolveType · a.scope ∅ a.decl.ty)) hasks hclean hk⟩

theorem grounds_const (name : QualName) (site : Option Site) : Grounds d (n + 1) (d.resolver.const name site) := by
  intro s hn hs hclean
  rw [Resolver.within_const] at hclean ⊢
  cases hentry : s.consts.get? name with
  | some p =>
    simp only [constValue, run_get_bind, run_read_bind, hentry] at hclean ⊢
    cases p with
    | done c => exact hs
    | started =>
      dsimp only at hclean ⊢
      revert hclean
      cases site <|> (d.consts.get? name).map fun c => c.scope.site c.decl.span with
      | some site => exact fun hclean => absurd hclean (not_clean_report d _ _ s)
      | none => exact fun _ => hs
  | none =>
    cases hdecl : d.consts.get? name with
    | none =>
      simp only [constValue, run_get_bind, run_read_bind, hentry, hdecl]
      exact hs
    | some decl =>
      rw [constValue_of_none hentry hdecl] at hclean ⊢
      dsimp only at hclean ⊢
      split at hclean
      · next hty =>
        rw [if_pos hty]
        have hasks (r : Resolver) : Asks d d.resolver r
            (evalDeclared d.resolver decl) (evalDeclared r decl) := asks_evalDeclared _
        have hstarted : (s.withConst name .started).Grounded d := by
          obtain ⟨k, hk⟩ := hs
          exact .withConst hk (fun c hc => by cases hentry.symm.trans hc) (by simp)
        have hlt := State.remaining_withConst_lt (contains_iff_get?.2 ⟨decl, hdecl⟩) hentry .started
        obtain ⟨k, hk⟩ := (hasks d.resolver).grounds hr _ (by omega) hstarted hclean
        refine .withConst hk (fun c hc => ?_) ?_
        · have hkept := ((hasks d.resolver).grows (s.withConst name .started)).consts.kept
            name .started (by simp [State.withConst])
          cases hkept.symm.trans hc
        · rintro c ⟨⟩
          exact ⟨hty, decl, hdecl, comes_of_asks (c := (evalDeclared · decl)) hasks hclean hk⟩
      · exact absurd hclean (not_clean_report d _ _ _)

theorem grounds_buildNominal (nominal : Nominal) (name : QualName) (env : TypeEnv) (origin : Option Origin) :
    Grounds d n (buildNominal d.resolver nominal name env origin) := by
  intro s hn hs hclean
  cases nominal with
  | struct decl =>
    have hasks : Asking d (structFields d.resolver decl.scope env decl.decl.fields []) :=
      asks_structFields _ _ _ _
    exact (hasks.grounds hr s hn hs hclean).wider rfl rfl fun _ _ => (wider_setStruct _ _).ready fun _ => id
  | enum decl =>
    have hasks : Asking d (enumVariants d.resolver decl.scope env decl.decl.variants []) :=
      asks_enumVariants _ _ _ _
    exact (hasks.grounds hr s hn hs hclean).wider rfl rfl fun _ _ => (wider_setEnum _ _).ready fun _ => id

theorem grounds_instantiate {M : ModulePath → Prop} (hd : d.In M) (base : QualName) (args : List Ty)
    (site : Site) : Grounds d (n + 1) (d.resolver.instantiate base args site) := by
  intro s hn hs hclean
  rw [Resolver.within_instantiate] at hclean ⊢
  rcases instantiateType_cases d s base args with ⟨ty, hty⟩ | ⟨nominal, hbuild⟩ | hrefused
  · obtain ⟨s', heq, hpattern⟩ := instantiateType_of_instanceType hty d.resolver site
    rw [heq]
    exact hs.wider hpattern.consts hpattern.aliases fun _ _ => hpattern.ready
  · rw [instantiateType_of_buildable hbuild] at hclean ⊢
    generalize hname : instanceName base nominal.params args = name at hclean ⊢
    have hentered : Wider s (s.entering name) := ⟨fun _ => id, fun _ => id, fun _ => id⟩
    have hs₁ : (s.entering name).Grounded d :=
      hs.wider rfl rfl fun _ _ => hentered.ready fun _ => mem_cons_of_mem _
    have hlt := State.remaining_entering_lt (d := d) hbuild.room name
    have hs₂ := grounds_buildNominal hr nominal name (bindParams nominal.params args)
      (some ⟨base, args⟩) _ (by omega) hs₁ hclean
    have hgrows := ((Resolver.within_meets d).buildNominal nominal name
      (bindParams nominal.params args) (some ⟨base, args⟩) (s.entering name)
      (State.remaining_lt_depth d _)).2
    subst hname
    exact hs₂.wider rfl rfl fun _ _ hready => hready.leaving hd hbuild.declared
      (knows_buildNominal _ _ _ _ _ _) hgrows.building
  · exact absurd hclean (hrefused _ _)

end Following

/-- Every level lets more names through, and all of them keep the facts grounded. -/
theorem Resolver.grounds_within {M : ModulePath → Prop} (hd : d.In M) (n : Nat) : d.resolver.Grounds d n := by
  induction n with
  | zero =>
    exact ⟨fun _ _ _ hn => absurd hn (Nat.not_lt_zero _), fun _ _ _ hn => absurd hn (Nat.not_lt_zero _),
      fun _ _ _ _ hn => absurd hn (Nat.not_lt_zero _)⟩
  | succ n ih => exact ⟨grounds_typeAlias ih, grounds_const ih, grounds_instantiate ih hd⟩

/-! ### All phases -/

/-- Unless something has been reported, the facts are grounded. -/
def State.Sure (d : Declarations) (s : State) : Prop := s.Clean → s.Grounded d

/-- The states differ at most in what is known of functions and nodes. -/
structure Alike (s s' : State) : Prop where
  reports : s'.reports = s.reports
  consts : s'.consts = s.consts
  aliases : s'.aliases = s.aliases
  building : s'.building = s.building
  patterns : s'.patterns = s.patterns
  structs : s'.signatures.structs = s.signatures.structs
  enums : s'.signatures.enums = s.signatures.enums

theorem Alike.onward (h : Alike s s') : Onward d s s' := by
  have hwider : Wider s s' := ⟨fun _ hname => by rwa [h.patterns], fun _ hname => by rwa [h.structs],
    fun _ hname => by rwa [h.enums]⟩
  refine ⟨⟨fun name c hc => ?_, fun name ty hty => ?_, fun _ _ => hwider.ready fun _ hname => ?_⟩, ?_⟩
  · show s'.consts.get? name = some (.done c)
    rwa [h.consts]
  · show s'.aliases.get? name = some (.done ty)
    rwa [h.aliases]
  · rwa [h.building]
  · exact h.reports ▸ suffix_refl _

theorem State.Sure.alike (hs : s.Sure d) (h : Alike s s') : s'.Sure d := fun hclean =>
  (hs (h.onward.clean (d := d) hclean)).wider h.consts h.aliases h.onward.facts.ready

theorem State.Sure.wider (hs : s.Sure d) (hreports : s'.reports = s.reports)
    (hconsts : s'.consts = s.consts) (haliases : s'.aliases = s.aliases)
    (hbuilding : s'.building = s.building) (h : Wider s s') : s'.Sure d := fun hclean =>
  (hs (by rwa [State.Clean, hreports] at hclean)).wider hconsts haliases fun _ _ =>
    h.ready fun _ hname => hbuilding ▸ hname

section Phases

variable {M : ModulePath → Prop}

theorem Resolver.keeps_sure (hd : d.In M) : d.resolver.Keeps d (State.Sure d) := by
  have hr := Resolver.grounds_within hd d.depth
  have hkeeps {α : Type} {c : Check α} (hc : Typing.Grounds d d.depth c)
      (hasks : Asks d d.resolver d.resolver c c) :
      Typing.Keeps d (State.Sure d) c := by
    refine fun s hs => ⟨fun hclean => ?_, trivial⟩
    exact hc s (s.remaining_lt_depth d) (hs ((hasks.onward s).clean hclean)) hclean
  refine ⟨fun site problem s _ => ⟨fun hclean => ?_, trivial⟩, fun name hname => ?_, fun name site => ?_,
    fun base args site => ?_⟩
  · exact absurd hclean (not_clean_report d site problem s)
  · exact hkeeps (hr.typeAlias name hname) (.typeAlias name hname)
  · exact hkeeps (hr.const name site) (.const name site)
  · exact hkeeps (hr.instantiate base args site) (.instantiate base args site)

theorem declares_sure (hd : d.In M) (impls : List (Declared ImplBlock)) :
    Declares d impls (fun _ => True) (State.Sure d) where
  resolver := Resolver.keeps_sure hd
  struct _ _ _ _ := keeps_modify fun s hs => hs.wider rfl rfl rfl rfl (wider_setStruct (d := d) _ s)
  enum _ _ _ _ := keeps_modify fun s hs => hs.wider rfl rfl rfl rfl (wider_setEnum (d := d) _ s)
  sign _ := keeps_modify fun _ hs => hs.alike ⟨rfl, rfl, rfl, rfl, rfl, rfl, rfl⟩
  target _ _ := (Peeks.typeOf _ _ _).keeps (Resolver.keeps_sure hd)
  method _ _ _ _ _ _ _ _ _ := keeps_modify fun _ hs => hs.alike ⟨rfl, rfl, rfl, rfl, rfl, rfl, rfl⟩

theorem survives_sure (hd : d.In M) : Survives d (fun _ _ => True) (State.Sure d) where
  resolver := Resolver.keeps_sure hd
  found _ _ _ _ _ := trivial
  record _ := keeps_modify fun _ hs => hs.alike ⟨rfl, rfl, rfl, rfl, rfl, rfl, rfl⟩
  sign _ := keeps_modify fun _ hs => hs.alike ⟨rfl, rfl, rfl, rfl, rfl, rfl, rfl⟩
  number _ _ hs := hs.alike ⟨rfl, rfl, rfl, rfl, rfl, rfl, rfl⟩
  wait _ _ hs := hs.alike ⟨rfl, rfl, rfl, rfl, rfl, rfl, rfl⟩
  check _ _ _ _ _ hs := hs.alike ⟨rfl, rfl, rfl, rfl, rfl, rfl, rfl⟩
  instantiate _ _ _ _ _ := keeps_modify fun _ hs => hs.alike ⟨rfl, rfl, rfl, rfl, rfl, rfl, rfl⟩

/-- **What an accepted program knows of its constants and aliases comes from itself, and not in a
circle.** -/
theorem Makes.grounded {files : List SourceFile} {p : CheckedProgram} {c : Collected} {n : Nat}
    (h : Makes files p c n) (hc : c.In M) : (c.afterBodies n).Grounded c.decls := by
  have hstart : (c.start n).Sure c.decls := by
    refine fun _ => ⟨0, fun name value hvalue => ?_, fun name ty hty => ?_, fun _ _ => id⟩
    · simp [State.facts, Collected.start] at hvalue
    · simp [State.facts, Collected.start] at hty
  have hsigned : (c.afterSignatures n).Sure c.decls := by
    rw [Collected.afterSignatures]
    exact ((declares_sure hc.decls _).checkSignatures _ hstart).1
  have hconsts : (c.afterConsts n).Sure c.decls := by
    rw [Collected.afterConsts]
    exact ((Resolver.keeps_sure hc.decls).checkConsts _ hsigned).1
  have hbodies : (c.afterBodies n).Sure c.decls := by
    rw [Collected.afterBodies]
    exact ((survives_sure hc.decls).checkBodies _ hconsts).1
  exact hbodies h.clean

end Phases

end Keel.Typing
