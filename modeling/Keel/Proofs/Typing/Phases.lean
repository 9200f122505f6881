/-
# What the phases keep

The checker writes to its state in a few ways.  A property that survives each of them,
be it about names, types or constants, holds after every phase: `Declares` lists the ways
for signatures, `Survives` for bodies.  What resolving a name writes is asked of the resolver
alone.
-/
import Keel.Proofs.Typing.Generations

namespace Keel.Typing

variable {α β : Type} {d : Declarations} {F : QualName → FunctionDecl → Prop} {I : State → Prop}

/-! ### Names -/

structure Resolver.Keeps (d : Declarations) (I : State → Prop) (r : Resolver) : Prop where
  report : ∀ site problem, Typing.Keeps d I (report site problem)
  typeAlias : ∀ name, d.aliases.contains name → Typing.Keeps d I (r.typeAlias name)
  const : ∀ name site, Typing.Keeps d I (r.const name site)
  instantiate : ∀ base args site, Typing.Keeps d I (r.instantiate base args site)

theorem Asks.keeps {r : Resolver} {c c' : Check α} (h : Asks d r r c c') (hr : r.Keeps d I) : Keeps d I c := by
  induction h with
  | pure a => exact keeps_pure
  | bind _ _ hm hk => exact Keeps.bind hm hk
  | read _ hk => exact hk
  | report site problem => exact hr.report site problem
  | typeAlias name hname => exact hr.typeAlias name hname
  | const name site => exact hr.const name site
  | instantiate base args site => exact hr.instantiate base args site

theorem Peeks.keeps {c : Check α} (h : Peeks d c) (hr : d.resolver.Keeps d I) : Keeps d I c := by
  induction h with
  | pure a => exact keeps_pure
  | bind _ _ hm hk => exact Keeps.bind hm hk
  | look _ hk => exact fun s hs => hk s s hs
  | read _ hk => exact hk
  | ask h => exact h.keeps hr

abbrev Asking (d : Declarations) (c : Check α) : Prop :=
  Asks d (Resolver.within d.depth) (Resolver.within d.depth) c c

/-! ### Signatures -/

/-- Ways of writing to the state before the bodies; the types that methods are declared for
satisfy `T`. -/
structure Declares (d : Declarations) (impls : List (Declared ImplBlock)) (T : Ty → Prop)
    (I : State → Prop) : Prop where
  resolver : (Resolver.within d.depth).Keeps d I
  struct : ∀ name s fields, d.structs.get? name = some s →
    Keeps d I (setStruct ⟨name, fields, s.scope.path, s.decl.isPublic, none⟩)
  enum : ∀ name e variants, d.enums.get? name = some e →
    Keeps d I (setEnum ⟨name, variants, e.scope.path, e.decl.isPublic, none⟩)
  sign : ∀ sig, Keeps d I (setSignature sig)
  target : ∀ block ∈ impls, Holds d I (typeOf block.scope ∅ block.decl.target) T
  method : ∀ block ∈ impls, ∀ m ∈ block.decl.methods, ∀ (owner : QualName) (target : Ty), T target →
    target = .struct owner ∨ target = .enum owner → owner.module = block.scope.path →
    Keeps d I (setFunction (block.scope.path.qualify (owner.name ++ "." ++ m.name))
      { scope := block.scope, decl := m, selfType := some target })

theorem keeps_buildFunction_of_sign (hr : d.resolver.Keeps d I)
    (hsign : ∀ sig, Keeps d I (setSignature sig)) (name : QualName) : Keeps d I (buildFunction name) := by
  refine Keeps.bind (keeps_get.bind fun _ => keeps_pure) fun f => ?_
  split
  · exact keeps_pure
  · exact ((Peeks.functionParams _ _ _ _).keeps hr).bind fun _ =>
      ((Peeks.returnTypeOf _ _ _).keeps hr).bind fun _ => hsign _

namespace Declares

variable {impls : List (Declared ImplBlock)} {T : Ty → Prop} (h : Declares d impls T I)

include h

theorem buildFunction (name : QualName) : Keeps d I (buildFunction name) :=
  keeps_buildFunction_of_sign h.resolver h.sign name

theorem collectSignatures : Keeps d I collectSignatures := by
  refine fun s hs => ?_
  have hloops : Keeps d I (do
      for entry in d.structs.toList do
        if entry.2.decl.params.isEmpty then
          buildNominal d.resolver (.struct entry.2) entry.1 ∅ none
      for entry in d.enums.toList do
        if entry.2.decl.params.isEmpty then
          buildNominal d.resolver (.enum entry.2) entry.1 ∅ none
      for entry in (← get).functions.toList do
        if entry.2.decl.typeParams.isEmpty then
          Typing.buildFunction entry.1) := by
    refine (keeps_forIn fun entry hentry _ => ?_).bind fun _ => ?_
    · exact Holds.when_bind (((asks_structFields _ _ _ _).keeps h.resolver).bind fun _ =>
        h.struct entry.1 entry.2 _ (Std.TreeMap.mem_toList_iff_getElem?_eq_some.1 hentry)) keeps_pure
    refine (keeps_forIn fun entry hentry _ => ?_).bind fun _ => ?_
    · exact Holds.when_bind (((asks_enumVariants _ _ _ _).keeps h.resolver).bind fun _ =>
        h.enum entry.1 entry.2 _ (Std.TreeMap.mem_toList_iff_getElem?_eq_some.1 hentry)) keeps_pure
    refine keeps_get.bind fun s => (keeps_forIn fun entry _ _ => ?_).bind fun _ => keeps_pure
    exact Holds.when_bind (h.buildFunction _) keeps_pure
  exact hloops s hs

theorem declareMethods {block : Declared ImplBlock} (hblock : block ∈ impls) {owner : QualName}
    {target : Ty} (ht : T target) (howner : target = .struct owner ∨ target = .enum owner)
    (hmodule : owner.module = block.scope.path) {methods : List FunctionDef}
    (hmethods : ∀ m ∈ methods, m ∈ block.decl.methods) :
    Keeps d I (declareMethods block.scope owner.name target methods) := by
  induction methods with
  | nil => exact keeps_pure
  | cons method rest ih =>
    obtain ⟨hmethod, hrest⟩ := List.forall_mem_cons.1 hmethods
    unfold Typing.declareMethods
    extract_lets site name
    split
    · exact (h.resolver.report _ _).bind fun _ => ih hrest
    · refine Keeps.bind (keeps_get.bind fun _ => keeps_pure) fun _ => ?_
      split
      · exact (h.resolver.report _ _).bind fun _ => ih hrest
      · exact (h.method block hblock method hmethod owner target ht howner hmodule).bind fun _ =>
          (h.buildFunction name).bind fun _ => (ih hrest).bind fun _ => keeps_pure

theorem checkImpl {block : Declared ImplBlock} (hblock : block ∈ impls) : Keeps d I (checkImpl block) := by
  refine (h.target block hblock).bind fun target ht =>
    (holds_implOwner? h.resolver.report _ _ target).bind fun owner howner => ?_
  split
  · exact keeps_pure
  · obtain ⟨name, hname, hmodule, rfl⟩ := howner _ rfl
    refine (h.declareMethods hblock ht hname hmodule fun _ hm => hm).bind fun methods => ?_
    split
    · exact keeps_pure
    · exact (peeks_checkTraitImpl _ _ _ _ _ _).keeps h.resolver

/-- **What survives every way of declaring holds after the signatures.** -/
theorem checkSignatures : Keeps d I (checkSignatures impls) :=
  h.collectSignatures.bind fun _ => keeps_forM fun _ hblock => h.checkImpl hblock

end Declares

theorem Resolver.Keeps.checkConsts (hr : d.resolver.Keeps d I) :
    Typing.Keeps d I checkConsts := peeks_checkConsts.keeps hr

/-! ### Bodies -/

def State.waiting (s : State) (names : List QualName) : State := { s with pending := names }

/-- Ways of writing to the state while bodies are checked.  Functions satisfy `F`. -/
structure Survives (d : Declarations) (F : QualName → FunctionDecl → Prop) (I : State → Prop) : Prop where
  resolver : (Resolver.within d.depth).Keeps d I
  found : ∀ s name g, I s → s.functions.get? name = some g → F name g
  record : ∀ f, Keeps d I (modifyResolutions f)
  sign : ∀ sig, Keeps d I (setSignature sig)
  number : ∀ s next, I s → I { s with nextId := next }
  wait : ∀ s names, I s → I (s.waiting names)
  check : ∀ s name g f, F name g → I s → I { s with checked := s.checked.insert name f }
  instantiate : ∀ base g args decl, F base g →
    Keeps d I (setFunction (instanceName base g.decl.typeParams args)
      { scope := g.scope, decl := decl, selfType := none })

namespace Survives

variable (h : Survives d F I)

include h

theorem instantiateFunction {base : QualName} {g : FunctionDecl} (hg : F base g) (args : List Ty)
    (depth : Nat) (site : Site) : Keeps d I (instantiateFunction base g args depth site) := by
  unfold Typing.instantiateFunction
  extract_lets name
  refine Keeps.bind (keeps_get.bind fun _ => keeps_pure) fun _ => ?_
  split
  · exact keeps_pure
  split
  · exact (h.resolver.report _ _).bind fun _ => keeps_pure
  have hnumbered : Keeps d I (numbered (g.decl.instance name.name (bindParams g.decl.typeParams args))) :=
    fun s hs => ⟨h.number s _ hs, trivial⟩
  refine hnumbered.bind fun decl => (h.instantiate base g args decl hg).bind fun _ =>
    (keeps_buildFunction_of_sign h.resolver h.sign name).bind fun _ => ?_
  exact (keeps_modify fun s hs => h.wait s _ hs).bind fun _ => keeps_pure

/-- The steps of a body keep what the ways of writing keep. -/
theorem steps {depth : Nat} {S : Nat → Prop} {c : Check α} {P : α → Prop} (hc : StepsTo d F S depth c P) :
    Holds d I c P := by
  induction hc with
  | pure hP => exact holds_pure hP
  | bind _ _ hm hk => exact hm.bind hk
  | look _ ih => exact fun s hs => ih s s hs
  | @function _ target k _ _ _ hnone hsome =>
    intro s hs
    rw [show (function? target >>= k) d s = k (s.functions.get? target) d s from rfl]
    cases hg : s.functions.get? target with
    | none => exact hnone s hs
    | some g => exact hsome g (h.found s target g hs hg) s hs
  | read _ ih => exact ih
  | ask hask => exact hask.keeps h.resolver
  | note _ | builtin => exact h.record _
  | call _ _ hk _ hnone hm =>
    refine Keeps.bind (keeps_get.bind fun _ => keeps_pure) fun sig => ?_
    cases sig with
    | none => exact hnone
    | some sig =>
      rw [hk sig]
      exact (hm sig).bind fun _ _ => (h.record _).bind fun _ => keeps_pure
  | «instance» args site _ hg _ _ hk _ hnone hm =>
    refine (h.instantiateFunction hg args _ site).bind fun name => ?_
    cases name with
    | none => exact hnone
    | some name =>
      rw [hk name]
      exact (h.record _).bind fun _ => hm name

theorem checkBody (g : FunctionDecl) (sig : FunctionSig) (depth : Nat) : Keeps d I (checkBody g sig depth) :=
  h.steps (steps_checkBody (S := fun _ => True) fun _ _ => trivial)

theorem checkFunction (depth : Nat) (name : QualName) : Keeps d I (checkFunction depth name) := by
  refine fun s hs => ⟨?_, trivial⟩
  rcases hg : s.functions.get? name with _ | g
  · rwa [checkFunction_eq_self (.inl hg)]
  rcases hsig : s.signatures.functions.get? name with _ | sig
  · rwa [checkFunction_eq_self (.inr hsig)]
  rw [checkFunction_eq hg hsig]
  exact h.check _ name g _ (h.found s name g hs hg) (h.checkBody g sig depth s hs).1

theorem checkGenerations (n : Nat) : Keeps d I (checkGenerations n) := by
  induction n with
  | zero => exact keeps_pure
  | succ n ih =>
    have htake : Keeps d I takePending := fun s hs => ⟨h.wait s [] hs, trivial⟩
    exact htake.bind fun _ => (keeps_forM fun name _ => h.checkFunction _ name).bind fun _ => ih

/-- **What survives every way of writing holds after the bodies.** -/
theorem checkBodies : Keeps d I checkBodies := by
  refine keeps_get.bind fun s => (keeps_forIn fun entry _ _ => ?_).bind fun _ => h.checkGenerations _
  exact Holds.when_bind (h.checkFunction 0 _) keeps_pure

end Survives

end Keel.Typing
