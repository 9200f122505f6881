/-
# What checking a body changes

Checking a body records what it finds under the numbers of the body's nodes, and makes
the instances of functions that the body asks for.  `Effect depth S s s'` says what such
a step may do at most, where `S` are the numbers it may write at and `depth` is how many
instances have led to the body:

* what is recorded elsewhere stays, and so do functions that have a signature, and the
  signatures of types;
* a function that is new is an instance of one that was there;
* every new signature waits to be checked, and none is made `maxDepth` deep.

It composes, so an effect of the parts is an effect of the whole.
-/
import Keel.Proofs.Syntax.Copies
import Keel.Proofs.Typing.Resolving

namespace Keel

open List

def Resolutions.entry (r : Resolutions) (id : Nat) :=
  (r.exprTypes.get? id, r.letTypes.get? id, r.calls.get? id, r.variants.get? id,
    r.intrinsics.get? id, r.constRefs.get? id, r.structLiterals.get? id)

namespace Typing

/-! ### Functions and their nodes -/

structure FunctionDecl.IsInstance (g : FunctionDecl) (name base : QualName) (t : FunctionDecl) :
    Prop where
  generic : t.decl.typeParams ≠ []
  typeParams : g.decl.typeParams = []
  named : ∃ args, name = instanceName base t.decl.typeParams args
  body : g.decl.body.erase = t.decl.body.erase

namespace State

def Signed (s : State) (name : QualName) : Prop := (s.signatures.functions.get? name).isSome

/-- The functions without type parameters are those that have a signature. -/
structure Linked (s : State) : Prop where
  declared : ∀ name, s.Signed name → ∃ g, s.functions.get? name = some g ∧ g.decl.typeParams = []
  signed : ∀ name g, s.functions.get? name = some g → g.decl.typeParams = [] → s.Signed name

/-- Every node of every function has a number of its own, below the next one. -/
structure Spread (s : State) : Prop where
  numbered : ∀ name g, s.functions.get? name = some g → Numbered 0 s.nextId g.decl.body.nodes
  apart : ∀ name g name' g', s.functions.get? name = some g → s.functions.get? name' = some g' →
    name ≠ name' → ∀ node ∈ g.decl.body.nodes, ∀ node' ∈ g'.decl.body.nodes, node.id ≠ node'.id

theorem Linked.congr {s s' : State} (h : s.Linked) (hf : s'.functions = s.functions)
    (hs : s'.signatures.functions = s.signatures.functions) : s'.Linked :=
  ⟨fun name h' => by rw [hf]; rw [Signed, hs] at h'; exact h.declared name h',
    fun name g hg hparams => by rw [Signed, hs]; rw [hf] at hg; exact h.signed name g hg hparams⟩

theorem Spread.congr {s s' : State} (h : s.Spread) (hf : s'.functions = s.functions)
    (hn : s'.nextId = s.nextId) : s'.Spread :=
  ⟨by rw [hf, hn]; exact h.numbered, by rw [hf]; exact h.apart⟩

def CallsSigned (s : State) : Prop :=
  ∀ id name, s.resolutions.calls.get? id = some (.function name) → s.Signed name

end State

/-! ### Effects -/

/-- What a step may do that writes at the numbers `S`, in a body that is `depth` instances
deep. -/
structure Effect (depth : Nat) (S : Nat → Prop) (s s' : State) : Prop where
  reports : s.reports <:+ s'.reports
  checked : s'.checked = s.checked
  entry : ∀ id, ¬ S id → s'.resolutions.entry id = s.resolutions.entry id
  kept : ∀ name, s.Signed name →
    s'.signatures.functions.get? name = s.signatures.functions.get? name ∧
      s'.functions.get? name = s.functions.get? name
  made : ∀ name g, s'.functions.get? name = some g → s.functions.get? name = some g ∨
    ∃ base t, s.functions.get? base = some t ∧ g.IsInstance name base t
  pending : ∃ new, s'.pending = new ++ s.pending ∧ new.Nodup ∧
    (∀ name, name ∈ new ↔ s'.Signed name ∧ ¬ s.Signed name) ∧ (maxDepth ≤ depth → new = [])
  types : Signatures.Keeps s.signatures s'.signatures
  linked : s.Linked → s'.Linked
  spread : s.Spread → s'.Spread
  calls : s.CallsSigned → s'.CallsSigned

namespace Effect

variable {depth : Nat} {S : Nat → Prop} {s s₁ s₂ : State}

theorem refl (s : State) : Effect depth S s s where
  reports := suffix_refl _
  checked := rfl
  entry _ _ := rfl
  kept _ _ := ⟨rfl, rfl⟩
  made _ _ h := .inl h
  pending := ⟨[], rfl, nodup_nil, by simp, fun _ => rfl⟩
  types := .refl _
  linked := id
  spread := id
  calls := id

variable (h : Effect depth S s s₁)

include h

theorem signed {name : QualName} (hs : s.Signed name) : s₁.Signed name := by
  rw [State.Signed, (h.kept name hs).1]
  exact hs

/-- A generic function was there before: instances are not generic. -/
theorem generic {name : QualName} {g : FunctionDecl}
    (hg : s₁.functions.get? name = some g) (hparams : g.decl.typeParams ≠ []) : s.functions.get? name = some g := by
  rcases h.made name g hg with hold | ⟨base, t, -, hinst⟩
  · exact hold
  · exact absurd hinst.typeParams hparams

theorem trans (h' : Effect depth S s₁ s₂) : Effect depth S s s₂ where
  reports := h.reports.trans h'.reports
  checked := h'.checked.trans h.checked
  entry id hid := (h'.entry id hid).trans (h.entry id hid)
  kept name hs :=
    ⟨(h'.kept name (h.signed hs)).1.trans (h.kept name hs).1,
      (h'.kept name (h.signed hs)).2.trans (h.kept name hs).2⟩
  made name g hg := by
    rcases h'.made name g hg with hold | ⟨base, t, ht, hinst⟩
    · exact h.made name g hold
    · exact .inr ⟨base, t, h.generic ht hinst.generic, hinst⟩
  pending := by
    obtain ⟨new, heq, hnodup, hmem, hdeep⟩ := h.pending
    obtain ⟨new', heq', hnodup', hmem', hdeep'⟩ := h'.pending
    refine ⟨new' ++ new, ?_, ?_, fun name => ?_, fun hd => ?_⟩
    · rw [heq', heq, append_assoc]
    · refine hnodup'.append hnodup fun name hn' hn => ?_
      exact ((hmem' name).1 hn').2 ((hmem name).1 hn).1
    · rw [mem_append, hmem, hmem']
      constructor
      · rintro (⟨hs₂, hs₁⟩ | ⟨hs₁, hs⟩)
        · exact ⟨hs₂, fun hs => hs₁ (h.signed hs)⟩
        · exact ⟨h'.signed hs₁, hs⟩
      · rintro ⟨hs₂, hs⟩
        by_cases hs₁ : s₁.Signed name
        · exact .inr ⟨hs₁, hs⟩
        · exact .inl ⟨hs₂, hs₁⟩
    · rw [hdeep hd, hdeep' hd, append_nil]
  types := h.types.trans h'.types
  linked := h'.linked ∘ h.linked
  spread := h'.spread ∘ h.spread
  calls := h'.calls ∘ h.calls

theorem clean (hc : s₁.Clean) : s.Clean := by
  have := h.reports
  rw [State.Clean] at hc
  rwa [hc, suffix_nil] at this

theorem signature (name : QualName) (sig : FunctionSig)
    (hsig : s.signatures.functions.get? name = some sig) : s₁.signatures.functions.get? name = some sig := by
  have hsigned : s.Signed name := by rw [State.Signed, hsig]; rfl
  rw [(h.kept name hsigned).1, hsig]

end Effect

theorem effect_of_entries {depth : Nat} {S : Nat → Prop} {s s' : State}
    (hf : s'.functions = s.functions) (hs : s'.signatures.functions = s.signatures.functions)
    (ht : Signatures.Keeps s.signatures s'.signatures) (hp : s'.pending = s.pending)
    (hc : s'.checked = s.checked) (hn : s'.nextId = s.nextId) (hr : s.reports <:+ s'.reports)
    (he : ∀ id, ¬ S id → s'.resolutions.entry id = s.resolutions.entry id)
    (hcalls : s.CallsSigned → s'.CallsSigned) : Effect depth S s s' where
  reports := hr
  checked := hc
  entry := he
  kept _ _ := ⟨by rw [hs], by rw [hf]⟩
  made _ _ h := .inl (hf ▸ h)
  pending := ⟨[], hp, nodup_nil, by simp [State.Signed, hs], fun _ => rfl⟩
  types := ht
  linked h := h.congr hf hs
  spread h := h.congr hf hn
  calls := hcalls

theorem Resolves.effect {depth : Nat} {S : Nat → Prop} {s s' : State} (h : Resolves s s') : Effect depth S s s' :=
  effect_of_entries h.functions h.signatures h.keeps h.pending h.checked h.nextId h.reports
    (fun id _ => by rw [h.resolutions])
    (fun hcalls id name => by rw [h.resolutions, State.Signed, h.signatures]; exact hcalls id name)

/-! ### Runs -/

variable {α β : Type} {d : Declarations} {depth : Nat} {S : Nat → Prop}

/-- Every run has at most this effect. -/
def Acts (d : Declarations) (depth : Nat) (S : Nat → Prop) (c : Check α) : Prop :=
  ∀ s, Effect depth S s (c d s).2

/-! ### Recording -/

section Recording

variable {id : Nat}

/-- What is noted stands at the numbers `S`, and is not a call. -/
def Notes (S : Nat → Prop) (f : Resolutions → Resolutions) : Prop :=
  ∀ r, (f r).calls = r.calls ∧ ∀ id, ¬ S id → (f r).entry id = r.entry id

theorem effect_modifyResolutions {f : Resolutions → Resolutions} (h : Notes S f) (s : State) :
    Effect depth S s (modifyResolutions f d s).2 :=
  effect_of_entries rfl rfl (.refl _) rfl rfl rfl (suffix_refl _) (h s.resolutions).2
    fun hcalls id name hname =>
      hcalls id name (by rw [← hname]; exact congrArg (·.get? id) (h s.resolutions).1.symm)

theorem effect_recordCall (hid : S id) (target : CallTarget) (s : State)
    (htarget : ∀ name, target = .function name → s.Signed name) :
    Effect depth S s (recordCall id target d s).2 := by
  refine effect_of_entries rfl rfl (.refl _) rfl rfl rfl (suffix_refl _) (fun id' hid' => ?_)
    fun h id' name hname => ?_
  · have hne : id ≠ id' := fun h => hid' (h ▸ hid)
    show Resolutions.entry { s.resolutions with calls := s.resolutions.calls.insert id target } id' = _
    simp only [Resolutions.entry, get?_insert, if_neg hne]
  · change (s.resolutions.calls.insert id target).get? id' = _ at hname
    rw [get?_insert] at hname
    split at hname
    · exact htarget name (Option.some.inj hname)
    · exact h id' name hname

end Recording

/-! ### Instances of functions -/

section Instances

variable {s₀ s s' : State} {name base : QualName} {g t : FunctionDecl} {sig : FunctionSig}

theorem State.signed_insert (hsig : s'.signatures.functions = s.signatures.functions.insert name sig)
    (other : QualName) : s'.Signed other ↔ name = other ∨ s.Signed other := by
  rw [State.Signed, State.Signed, hsig, get?_insert]
  split <;> simp [*]

theorem State.Linked.insert (h : s.Linked) (hg : g.decl.typeParams = [])
    (hfun : s'.functions = s.functions.insert name g)
    (hsig : s'.signatures.functions = s.signatures.functions.insert name sig) : s'.Linked where
  declared other hother := by
    rw [hfun, get?_insert]
    split
    · exact ⟨g, rfl, hg⟩
    · exact h.declared other (((State.signed_insert hsig other).1 hother).resolve_left ‹_›)
  signed other g' hg' hparams := by
    rw [State.signed_insert hsig]
    rw [hfun, get?_insert] at hg'
    split at hg'
    · exact .inl ‹_›
    · exact .inr (h.signed other g' hg' hparams)

theorem State.Spread.insert (h : s.Spread) (hnodes : Numbered s.nextId s'.nextId g.decl.body.nodes)
    (hfun : s'.functions = s.functions.insert name g) : s'.Spread where
  numbered other g' hg' := by
    rw [hfun, get?_insert] at hg'
    split at hg'
    · cases hg'
      exact hnodes.mono (Nat.zero_le _)
    · exact (h.numbered other g' hg').widen hnodes.le
  apart first f second f' hf hf' hne node hnode node' hnode' := by
    rw [hfun, get?_insert] at hf hf'
    split at hf <;> split at hf'
    · simp_all
    · -- The nodes of an old function are below those of the new one.
      cases hf
      have := (hnodes.bounds node hnode).1
      have := ((h.numbered second f' hf').bounds node' hnode').2
      omega
    · cases hf'
      have := (hnodes.bounds node' hnode').1
      have := ((h.numbered first f hf).bounds node hnode).2
      omega
    · exact h.apart first f second f' hf hf' hne node hnode node' hnode'

theorem Effect.insert (h : Effect depth S s₀ s) (hbase : s₀.functions.get? base = some t)
    (hinst : g.IsInstance name base t) (hnew : ¬ s.Signed name) (hdepth : ¬ maxDepth ≤ depth)
    (hnodes : Numbered s.nextId s'.nextId g.decl.body.nodes) (hfun : s'.functions = s.functions.insert name g)
    (hsig : s'.signatures.functions = s.signatures.functions.insert name sig)
    (htypes : Signatures.Keeps s.signatures s'.signatures) (hpending : s'.pending = name :: s.pending)
    (hchecked : s'.checked = s.checked)
    (hres : s'.resolutions = s.resolutions) (hreports : s.reports <:+ s'.reports) : Effect depth S s₀ s' where
  reports := h.reports.trans hreports
  checked := hchecked.trans h.checked
  entry id hid := hres ▸ h.entry id hid
  kept other hother := by
    have hne : name ≠ other := fun heq => hnew (heq ▸ h.signed hother)
    rw [hsig, hfun, get?_insert, get?_insert, if_neg hne, if_neg hne]
    exact h.kept other hother
  made other g' hg' := by
    rw [hfun, get?_insert] at hg'
    split at hg'
    · rename_i heq
      cases hg'
      exact .inr ⟨base, t, hbase, heq ▸ hinst⟩
    · exact h.made other g' hg'
  pending := by
    obtain ⟨new, heq, hnodup, hmem, -⟩ := h.pending
    refine ⟨name :: new, by rw [hpending, heq]; rfl, ?_, fun other => ?_, fun hd => absurd hd hdepth⟩
    · exact nodup_cons.2 ⟨fun hn => hnew ((hmem name).1 hn).1, hnodup⟩
    · rw [mem_cons, hmem, State.signed_insert hsig]
      constructor
      · rintro (rfl | ⟨hs, hs₀⟩)
        · exact ⟨.inl rfl, fun hs₀ => hnew (h.signed hs₀)⟩
        · exact ⟨.inr hs, hs₀⟩
      · rintro ⟨rfl | hs, hs₀⟩
        · exact .inl rfl
        · exact .inr ⟨hs, hs₀⟩
  types := h.types.trans htypes
  linked h₀ := (h.linked h₀).insert hinst.typeParams hfun hsig
  spread h₀ := (h.spread h₀).insert hnodes hfun
  calls h₀ id other hother := by
    rw [hres] at hother
    exact (State.signed_insert hsig other).2 (.inr (h.calls h₀ id other hother))

theorem buildFunction_run (name : QualName) (d : Declarations) (s : State) :
    buildFunction name d s = (match s.functions.get? name with
      | none => pure ()
      | some g => do
        let params ← functionParams g.scope g.env g.decl.params []
        let ret ← returnTypeOf g.scope g.env g.decl.ret
        setSignature ⟨name, params, ret, g.scope.path, g.decl.isPublic, g.decl.span⟩ : Check Unit) d s := rfl

/-- Making a signature resolves the types in it and then sets it. -/
theorem resolves_buildFunction (hg : s.functions.get? name = some g) : ∃ s₁ sig, Resolves s s₁ ∧
    (buildFunction name d s).2 = { s₁ with signatures := { s₁.signatures with
      functions := s₁.signatures.functions.insert name sig } } := by
  rw [buildFunction_run, hg]
  exact ⟨_, _, ((Peeks.functionParams g.scope g.env g.decl.params []).resolving s).trans
    ((Peeks.returnTypeOf g.scope g.env g.decl.ret).resolving _), rfl⟩

/-- **An instance is made once, and then waits to be checked.** -/
theorem effect_instantiateFunction (h : Effect depth S s₀ s) (hbase : s₀.functions.get? base = some t)
    (hparams : t.decl.typeParams ≠ []) (args : List Ty) (site : Site) :
    Sat d s (instantiateFunction base t args depth site) fun r s' =>
      Effect depth S s₀ s' ∧ (∀ name, s.Signed name → s'.Signed name) ∧ ∀ name, r = some name → s'.Signed name := by
  let name := instanceName base t.decl.typeParams args
  let copy := t.decl.instance name.name (bindParams t.decl.typeParams args) s.nextId
  let g : FunctionDecl := { scope := t.scope, decl := copy.1, selfType := none }
  let s₁ : State := { s with nextId := copy.2, functions := s.functions.insert name g }
  refine Sat.bind (R := fun r s' => r = s.signatures.functions.get? name ∧ s = s') ⟨rfl, rfl⟩ ?_
  rintro _ _ ⟨rfl, rfl⟩
  split
  · rename_i hsigned
    refine ⟨h, fun _ => id, ?_⟩
    rintro _ ⟨⟩
    exact hsigned
  · rename_i hsigned
    split
    · exact ⟨h.trans (resolving_report (d := d) site _ s).effect, fun _ => id, by rintro _ ⟨⟩⟩
    · rename_i hdepth
      obtain ⟨hcopied, hbody, -, htypeParams⟩ :=
        t.decl.copied_instance name.name (bindParams t.decl.typeParams args) s.nextId
      obtain ⟨s₂, sig, hpassive, hbuilt⟩ :=
        resolves_buildFunction (d := d) (show s₁.functions.get? name = some g by simp [s₁])
      have hstate : Effect depth S s₀
          { (buildFunction name d s₁).2 with pending := name :: (buildFunction name d s₁).2.pending } := by
        rw [hbuilt]
        have hset : s₂.signatures.functions.insert name sig = s.signatures.functions.insert name sig :=
          congrArg (·.insert name sig) hpassive.signatures
        refine h.insert hbase ⟨hparams, htypeParams, ⟨args, rfl⟩, hbody⟩ hsigned
          (by omega) ?_ hpassive.functions hset
          ⟨hpassive.keeps.structs, hpassive.keeps.enums, hpassive.keeps.oldEnums⟩ ?_
          hpassive.checked hpassive.resolutions hpassive.reports
        · show Numbered s.nextId s₂.nextId g.decl.body.nodes
          rw [hpassive.nextId]
          exact hcopied.numbered
        · exact congrArg (name :: ·) hpassive.pending
      have hsigned' (other : QualName) : State.Signed (buildFunction name d s₁).2 other ↔
          name = other ∨ s.Signed other := by
        rw [hbuilt, State.signed_insert rfl, State.Signed, hpassive.signatures]
        rfl
      refine ⟨hstate, fun other hother => (hsigned' other).2 (.inr hother), ?_⟩
      rintro _ ⟨⟩
      exact (hsigned' name).2 (.inl rfl)

end Instances

end Typing
end Keel
