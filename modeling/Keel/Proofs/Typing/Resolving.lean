/-
# What resolving leaves alone

Resolving a written type or evaluating a constant may report, and may add aliases,
constants, instances of types and patterns.  It never touches functions, their
signatures, or what is known about nodes.  The signature of a type is made only if there
is none, and then stays.
-/
import Keel.Proofs.Typing.Asking

namespace Keel.Typing

open List

/-- Functions, nodes and numbers are as before, and reports only came on top. -/
structure Idle (s s' : State) : Prop where
  functions : s'.functions = s.functions
  pending : s'.pending = s.pending
  checked : s'.checked = s.checked
  resolutions : s'.resolutions = s.resolutions
  nextId : s'.nextId = s.nextId
  reports : s.reports <:+ s'.reports

theorem Idle.trans {s s₁ s₂ : State} (h : Idle s s₁) (h' : Idle s₁ s₂) : Idle s s₂ :=
  ⟨h'.functions.trans h.functions, h'.pending.trans h.pending, h'.checked.trans h.checked,
    h'.resolutions.trans h.resolutions, h'.nextId.trans h.nextId, h.reports.trans h'.reports⟩

/-- The signatures of functions are as before, too. -/
structure Passive (s s' : State) : Prop extends Idle s s' where
  signatures : s'.signatures.functions = s.signatures.functions

theorem Passive.refl (s : State) : Passive s s := ⟨⟨rfl, rfl, rfl, rfl, rfl, suffix_refl _⟩, rfl⟩

theorem Passive.trans {s s₁ s₂ : State} (h : Passive s s₁) (h' : Passive s₁ s₂) : Passive s s₂ :=
  ⟨h.toIdle.trans h'.toIdle, h'.signatures.trans h.signatures⟩

/-- The signatures of types that were there are there as before, and new ones are those of
instances. -/
structure Signatures.Keeps (sigs sigs' : Signatures) : Prop where
  structs : ∀ name sig, sigs.structs.get? name = some sig → sigs'.structs.get? name = some sig
  enums : ∀ name sig, sigs.enums.get? name = some sig → sigs'.enums.get? name = some sig
  oldEnums : ∀ name sig, sigs'.enums.get? name = some sig → sig.origin = none →
    sigs.enums.get? name = some sig

theorem Signatures.Keeps.refl (sigs : Signatures) : Signatures.Keeps sigs sigs :=
  ⟨fun _ _ => id, fun _ _ => id, fun _ _ h _ => h⟩

theorem Signatures.Keeps.trans {sigs sigs₁ sigs₂ : Signatures} (h : Signatures.Keeps sigs sigs₁)
    (h' : Signatures.Keeps sigs₁ sigs₂) : Signatures.Keeps sigs sigs₂ :=
  ⟨fun name sig hsig => h'.structs name sig (h.structs name sig hsig),
    fun name sig hsig => h'.enums name sig (h.enums name sig hsig),
    fun name sig hsig ho => h.oldEnums name sig (h'.oldEnums name sig hsig ho) ho⟩

/-- What resolving does to a state. -/
structure Resolves (s s' : State) : Prop extends Passive s s' where
  keeps : Signatures.Keeps s.signatures s'.signatures

theorem Resolves.refl (s : State) : Resolves s s := ⟨.refl s, .refl _⟩

theorem Resolves.trans {s s₁ s₂ : State} (h : Resolves s s₁) (h' : Resolves s₁ s₂) : Resolves s s₂ :=
  ⟨h.toPassive.trans h'.toPassive, h.keeps.trans h'.keeps⟩

variable {α β : Type} {d : Declarations}

/-- Every run does no more than resolving does. -/
def Resolving (d : Declarations) (c : Check α) : Prop := ∀ s, Resolves s (c d s).2

theorem Resolving.bind {m : Check α} {k : α → Check β} (hm : Resolving d m)
    (hk : ∀ a, Resolving d (k a)) : Resolving d (m >>= k) := fun s => (hm s).trans (hk _ _)

theorem Resolving.when_bind {p : Prop} [Decidable p] {m : Check Unit} {k : Unit → Check β}
    (hm : Resolving d m) (hk : Resolving d (k ())) : Resolving d (if p then m >>= k else k ()) := by
  split
  · exact hm.bind fun _ => hk
  · exact hk

theorem Resolving.sat {c : Check α} (h : Resolving d c) {s : State} :
    Sat d s c fun _ s' => Passive s s' := (h s).toPassive

theorem resolving_pure (a : α) : Resolving d (pure a) := Resolves.refl

theorem resolving_get : Resolving d (get : Check State) := Resolves.refl

theorem resolving_read : Resolving d (read : Check Declarations) := Resolves.refl

theorem resolving_lookup (scope : ModuleScope) (path : List String) (space : Namespace)
    (withPrelude : Bool) : Resolving d (lookup scope path space withPrelude) := Resolves.refl

variable (name : QualName)

theorem resolving_enum? : Resolving d (enum? name) := Resolves.refl

theorem resolving_struct? : Resolving d (struct? name) := Resolves.refl

theorem resolving_function? : Resolving d (function? name) := Resolves.refl

theorem resolving_signature? : Resolving d (signature? name) := Resolves.refl

theorem resolving_report (site : Site) (problem : Problem) : Resolving d (report site problem) :=
  fun _ => ⟨⟨⟨rfl, rfl, rfl, rfl, rfl, suffix_cons _ _⟩, rfl⟩, .refl _⟩

theorem resolving_reject (site : Site) (problem : Problem) : Resolving d (reject site problem) :=
  (resolving_report site problem).bind fun _ => resolving_pure _

theorem resolving_setAlias (progress : Progress Ty) : Resolving d (setAlias name progress) :=
  fun _ => ⟨{ Passive.refl _ with }, .refl _⟩

theorem resolving_setConst (progress : Progress CheckedConst) :
    Resolving d (setConst name progress) :=
  fun _ => ⟨{ Passive.refl _ with }, .refl _⟩

theorem resolving_setPattern (origin : Origin) : Resolving d (setPattern name origin) :=
  fun _ => ⟨{ Passive.refl _ with }, .refl _⟩

theorem passive_setStruct (sig : StructSig) (s : State) : Passive s (setStruct sig d s).2 :=
  { Passive.refl s with }

theorem passive_setEnum (sig : EnumSig) (s : State) : Passive s (setEnum sig d s).2 :=
  { Passive.refl s with }

theorem resolving_building (f : List QualName → List QualName) :
    Resolving d (modify fun s => { s with building := f s.building }) :=
  fun _ => ⟨{ Passive.refl _ with }, .refl _⟩

/-! ### Types and constant expressions -/

/-- What stands behind names only resolves. -/
structure Resolver.Resolving (d : Declarations) (r : Resolver) : Prop where
  typeAlias : ∀ name, Typing.Resolving d (r.typeAlias name)
  const : ∀ name site, Typing.Resolving d (r.const name site)
  instantiate : ∀ name args site, Typing.Resolving d (r.instantiate name args site)

theorem Asks.resolving {r : Resolver} {c c' : Check α} (h : Asks d r r c c') (hr : r.Resolving d) :
    Resolving d c := by
  induction h with
  | pure a => exact resolving_pure a
  | bind _ _ hm hk => exact hm.bind hk
  | read _ hk => exact fun s => hk s
  | report site problem => exact resolving_report site problem
  | typeAlias name _ => exact hr.typeAlias name
  | const name site => exact hr.const name site
  | instantiate base args site => exact hr.instantiate base args site

/-! ### Aliases, constants and instances -/

section Names

variable {r : Resolver}

theorem resolving_aliasType (hr : r.Resolving d) (name : QualName) : Resolving d (aliasType r name) := by
  refine resolving_get.bind fun s => resolving_read.bind fun decls => ?_
  split
  · exact resolving_pure _
  · exact resolving_reject _ _
  · exact (resolving_setAlias _ _).bind fun _ => ((asks_resolveType _ _ _).resolving hr).bind fun _ =>
      (resolving_setAlias _ _).bind fun _ => resolving_pure _
  · exact resolving_pure _

theorem resolving_constValue (hr : r.Resolving d) (name : QualName) (site : Option Site) :
    Resolving d (constValue r name site) := by
  refine resolving_get.bind fun s => resolving_read.bind fun decls => ?_
  split
  · exact resolving_pure _
  · split
    · exact (Asks.failConst _ _).resolving hr
    · exact resolving_pure _
  · exact resolving_pure _
  · refine (resolving_setConst _ _).bind fun _ => ((asks_evalDeclared _).resolving hr).bind fun result => ?_
    exact (resolving_report _ _).when_bind ((resolving_setConst _ _).bind fun _ => resolving_pure _)

theorem passive_buildNominal (hr : r.Resolving d) (nominal : Nominal) (name : QualName)
    (env : TypeEnv) (origin : Option Origin) (s : State) :
    Passive s (buildNominal r nominal name env origin d s).2 := by
  cases nominal with
  | struct decl =>
    exact ((asks_structFields decl.scope env decl.decl.fields []).resolving hr s).toPassive.trans
      (passive_setStruct _ _)
  | enum decl =>
    exact ((asks_enumVariants decl.scope env decl.decl.variants []).resolving hr s).toPassive.trans
      (passive_setEnum _ _)

theorem resolves_buildNominal (hr : r.Resolving d) (nominal : Nominal) {name : QualName}
    (env : TypeEnv) (origin : Origin) {s : State} (hnew : s.knows nominal name = false) :
    Resolves s (buildNominal r nominal name env (some origin) d s).2 := by
  refine ⟨passive_buildNominal hr nominal name env _ s, ?_⟩
  have hne {α : Type} {table : Std.TreeMap QualName α} (hnone : table.contains name = false)
      {other : QualName} {sig : α} (hsig : table.get? other = some sig) : name ≠ other := by
    rintro rfl
    rw [Std.TreeMap.get?_eq_getElem?] at hsig
    have := Std.TreeMap.contains_eq_isSome_getElem? (t := table) (a := name)
    rw [hnone, hsig] at this
    cases this
  cases nominal with
  | struct decl =>
    have h := ((asks_structFields decl.scope env decl.decl.fields []).resolving hr s).keeps
    refine ⟨fun other sig hsig => ?_, h.enums, h.oldEnums⟩
    exact (get?_insert _ _ _ _).trans ((if_neg (hne hnew hsig)).trans (h.structs other sig hsig))
  | enum decl =>
    have h := ((asks_enumVariants decl.scope env decl.decl.variants []).resolving hr s).keeps
    refine ⟨h.structs, fun other sig hsig => ?_, fun other sig hsig ho => ?_⟩
    · exact (get?_insert _ _ _ _).trans ((if_neg (hne hnew hsig)).trans (h.enums other sig hsig))
    · have hsig := (get?_insert _ _ _ _).symm.trans hsig
      split at hsig
      · cases hsig
        cases ho
      · exact h.oldEnums other sig hsig ho

theorem resolving_instantiateType (hr : r.Resolving d) (base : QualName) (args : List Ty)
    (site : Site) : Resolving d (instantiateType r base args site) := by
  refine resolving_read.bind fun decls => ?_
  split
  · exact resolving_pure _
  · rename_i nominal _
    dsimp only
    split
    · exact resolving_reject _ _
    · split
      · exact resolving_pure _
      · -- whether the type is known is asked of the state that it is built in
        intro s
        show Resolves s ((if _ then _ else _ : Check Ty) d s).2
        split
        · exact ((resolving_setPattern _ _).bind fun _ => resolving_pure _) s
        · split
          · exact Resolves.refl s
          · rename_i hnew
            split
            · exact resolving_reject _ _ s
            · let s₁ : State :=
                { s with building := instanceName base nominal.params args :: s.building }
              have hnew₁ : s₁.knows nominal (instanceName base nominal.params args) = false :=
                (Bool.or_eq_false_iff.1 ((Bool.not_eq_true _).mp hnew)).1
              have h₁ : Resolves s s₁ :=
                resolving_building (d := d) (instanceName base nominal.params args :: ·) s
              have h₂ := resolves_buildNominal hr nominal (bindParams nominal.params args) ⟨base, args⟩ hnew₁
              exact h₁.trans (h₂.trans (resolving_building (d := d) List.tail _))

end Names

/-- **Following names only resolves.**  By induction on the depth. -/
theorem Resolver.resolving_within (depth : Nat) : (Resolver.within depth).Resolving d := by
  induction depth with
  | zero => exact ⟨fun _ => resolving_pure _, fun _ _ => resolving_pure _, fun _ _ _ => resolving_pure _⟩
  | succ depth ih =>
    exact ⟨resolving_aliasType ih, resolving_constValue ih, resolving_instantiateType ih⟩

theorem Peeks.resolving {c : Check α} (h : Peeks d c) : Resolving d c := by
  induction h with
  | pure a => exact resolving_pure a
  | bind _ _ hm hk => exact hm.bind hk
  | look _ hk => exact fun s => hk s s
  | read _ hk => exact fun s => hk s
  | ask h => exact h.resolving (Resolver.resolving_within _)

end Keel.Typing
