/-
# The rules for bodies, step by step

What the rules for bodies do comes down to few kinds of steps: looking at the state and
at the declarations, asking what stands behind a name, noting something at a node, and
recording a call of a function that has a signature, which may be an instance made for
the call.  `StepsTo` lists them.  Notes and calls stand at the numbers `S`, which will be
those of the nodes that are checked.

Whatever holds of these steps holds of every body, by induction on `StepsTo`.  Here this
is used to bound what a body may do to the state (`acts_of_steps`).
-/
import Keel.Proofs.Typing.Effects

namespace Keel.Typing

variable {α β : Type} {d : Declarations} {F : QualName → FunctionDecl → Prop} {depth : Nat} {S : Nat → Prop}

/-- The steps of a rule in a function `depth` instances deep.  Notes are taken at the numbers `S`;
functions that are found satisfy `F`, and the value satisfies the last argument. -/
inductive StepsTo (d : Declarations) (F : QualName → FunctionDecl → Prop) (S : Nat → Prop) (depth : Nat) :
    {α : Type} → Check α → (α → Prop) → Prop
  | pure {α : Type} {a : α} {P : α → Prop} : P a → StepsTo d F S depth (pure a) P
  | bind {α β : Type} {m : Check α} {k : α → Check β} {P : α → Prop} {Q : β → Prop} :
    StepsTo d F S depth m P → (∀ a, P a → StepsTo d F S depth (k a) Q) → StepsTo d F S depth (m >>= k) Q
  | look {α : Type} {k : State → Check α} {P : α → Prop} :
    (∀ s, StepsTo d F S depth (k s) P) → StepsTo d F S depth (get >>= k) P
  | function {α : Type} (target : QualName) {k : Option FunctionDecl → Check α} {P : α → Prop} :
    StepsTo d F S depth (k none) P → (∀ g, F target g → StepsTo d F S depth (k (some g)) P) →
      StepsTo d F S depth (function? target >>= k) P
  | read {α : Type} {k : Declarations → Check α} {P : α → Prop} :
    StepsTo d F S depth (k d) P → StepsTo d F S depth (read >>= k) P
  | ask {α : Type} {c : Check α} :
    Asks d (Resolver.within d.depth) (Resolver.within d.depth) c c → StepsTo d F S depth c fun _ => True
  | note {f : Resolutions → Resolutions} :
    Notes S f → StepsTo d F S depth (modifyResolutions f) fun _ => True
  | builtin {id : Nat} (b : Builtin) :
    S id → StepsTo d F S depth (recordCall id (.builtin b)) fun _ => True
  | call {id : Nat} {target : QualName} {k : Option FunctionSig → Check Ty} {m : FunctionSig → Check Unit} :
    S id → StepsTo d F S depth (k none) (fun _ => True) →
      (∀ sig, k (some sig) = do m sig; recordCall id (.function target); return sig.ret) →
      (∀ sig, StepsTo d F S depth (m sig) fun _ => True) →
      StepsTo d F S depth (signature? target >>= k) fun _ => True
  | instance {α : Type} {id : Nat} {base : QualName} {g : FunctionDecl} (args : List Ty) (site : Site)
      {k : Option QualName → Check α} {m : QualName → Check α} {P : α → Prop} :
    S id → F base g → g.decl.typeParams ≠ [] → StepsTo d F S depth (k none) P →
      (∀ name, k (some name) = do recordCall id (.function name); m name) →
      (∀ name, StepsTo d F S depth (m name) P) →
      StepsTo d F S depth (instantiateFunction base g args depth site >>= k) P

abbrev Steps (d : Declarations) (F : QualName → FunctionDecl → Prop) (S : Nat → Prop) (depth : Nat)
    (c : Check α) : Prop := StepsTo d F S depth c fun _ => True

section Steps

variable {m : Check α} {k : α → Check β} {Q : β → Prop}

theorem Steps.bind (hm : Steps d F S depth m) (hk : ∀ a, StepsTo d F S depth (k a) Q) :
    StepsTo d F S depth (m >>= k) Q := StepsTo.bind hm fun a _ => hk a

theorem StepsTo.of_forall {c : Check α} {P : α → Prop} (h : Steps d F S depth c) (hP : ∀ a, P a) :
    StepsTo d F S depth c P := by
  rwa [show P = fun _ => True from funext fun a => eq_true (hP a)]

theorem StepsTo.mono {c : Check α} {P P' : α → Prop} (h : StepsTo d F S depth c P) (hP : ∀ a, P a → P' a) :
    StepsTo d F S depth c P' := by
  induction h with
  | pure h => exact .pure (hP _ h)
  | bind hm _ _ ih => exact .bind hm fun a ha => ih a ha hP
  | look _ ih => exact .look fun s => ih s hP
  | function target _ _ hnone hsome => exact .function target (hnone hP) fun g hg => hsome g hg hP
  | read _ ih => exact .read (ih hP)
  | ask h => exact .of_forall (.ask h) fun a => hP a trivial
  | note h => exact .of_forall (.note h) fun a => hP a trivial
  | builtin b hid => exact .of_forall (.builtin b hid) fun a => hP a trivial
  | call hid hnone hk hm => exact .of_forall (.call hid hnone hk hm) fun a => hP a trivial
  | «instance» args site hid hg hparams _ hk _ hnone hm =>
    exact .instance args site hid hg hparams (hnone hP) hk fun name => hm name hP

theorem Peeks.steps {c : Check α} (h : Peeks d c) : Steps d F S depth c := by
  induction h with
  | pure a => exact .pure trivial
  | bind _ _ hm hk => exact hm.bind hk
  | look _ hk => exact .look hk
  | read _ hk => exact .read hk
  | ask h => exact .ask h

theorem steps_report (site : Site) (problem : Problem) : Steps d F S depth (report site problem) :=
  .ask (.report _ _)

theorem steps_reject (site : Site) (problem : Problem) : Steps d F S depth (reject site problem) :=
  .ask (.reject _ _)

theorem steps_forM {l : List α} {f : α → Check Unit} (h : ∀ a ∈ l, Steps d F S depth (f a)) :
    Steps d F S depth (l.forM f) := by
  induction l with
  | nil => exact .pure trivial
  | cons a rest ih =>
    have hrest := ih fun b hb => h b (List.mem_cons_of_mem a hb)
    exact (h a List.mem_cons_self).bind fun _ => hrest

end Steps

/-! ### Notes -/

section Notes

variable {id : Nat} (hid : S id)

include hid

theorem steps_note {f : Resolutions → Resolutions} (hcalls : ∀ r, (f r).calls = r.calls)
    (hentry : ∀ r other, id ≠ other → (f r).entry other = r.entry other) :
    Steps d F S depth (modifyResolutions f) :=
  .note fun r => ⟨hcalls r, fun other hother => hentry r other fun h => hother (h ▸ hid)⟩

theorem steps_recordType (ty : Ty) : Steps d F S depth (recordType id ty) :=
  steps_note hid (fun _ => rfl) fun r other hne => by simp only [Resolutions.entry, get?_insert, if_neg hne]

theorem steps_recordLet (ty : Ty) : Steps d F S depth (recordLet id ty) :=
  steps_note hid (fun _ => rfl) fun r other hne => by simp only [Resolutions.entry, get?_insert, if_neg hne]

theorem steps_recordVariant (v : VariantRef) : Steps d F S depth (recordVariant id v) :=
  steps_note hid (fun _ => rfl) fun r other hne => by simp only [Resolutions.entry, get?_insert, if_neg hne]

theorem steps_recordIntrinsic (op : Intrinsic) : Steps d F S depth (recordIntrinsic id op) :=
  steps_note hid (fun _ => rfl) fun r other hne => by simp only [Resolutions.entry, get?_insert, if_neg hne]

theorem steps_recordConst (name : QualName) : Steps d F S depth (recordConst id name) :=
  steps_note hid (fun _ => rfl) fun r other hne => by simp only [Resolutions.entry, get?_insert, if_neg hne]

theorem steps_recordLiteral (name : QualName) : Steps d F S depth (recordLiteral id name) :=
  steps_note hid (fun _ => rfl) fun r other hne => by simp only [Resolutions.entry, get?_insert, if_neg hne]

end Notes

/-! ### Numbers of nodes -/

/-- The numbers of the nodes are among those of `S`. -/
def Covers (S : Nat → Prop) (nodes : List Node) : Prop := ∀ node ∈ nodes, S node.id

theorem covers_append {nodes more : List Node} :
    Covers S (nodes ++ more) ↔ Covers S nodes ∧ Covers S more := List.forall_mem_append

theorem covers_cons {node : Node} {nodes : List Node} :
    Covers S (node :: nodes) ↔ S node.id ∧ Covers S nodes := List.forall_mem_cons

theorem Covers.id : ∀ {e : Expr}, Covers S e.nodes → S e.id
  | ⟨_, _, _⟩, h => h _ List.mem_cons_self

/-! ### Rules that only look and ask -/

section Peeks

variable {f : Frame}

theorem peeks_typeRef? (path : PathExpr) (span : Span) : Peeks d (typeRef? f path span) := by
  unfold typeRef?
  extract_lets rest
  have hrest : Peeks d (rest ()) := by
    refine (Peeks.lookup _ _ _ _).bind fun l => ?_
    split
    · exact .pure _
    · exact .pure _
    · exact (Peeks.report _ _).bind fun _ => .pure _
    · refine .read ?_
      extract_lets concrete
      have hconcrete : Peeks d (concrete ()) :=
        (Peeks.typesOf _ _ _).bind fun args => .resolver ((Peeks.ask (asks_nominalType _ _ _)).bind fun _ => .pure _)
      split
      · split
        · exact .pure _
        · exact hconcrete
      · exact hconcrete
  split
  · split
    · exact .pure _
    · exact hrest
  · exact hrest

theorem peeks_fieldType (base : Ty) (field : String) (span : Span) : Peeks d (fieldType f base field span) := by
  unfold fieldType
  split
  · exact .pure _
  · refine (Peeks.struct? _).bind fun sig => ?_
    split
    · exact .pure _
    · split
      · exact .reject _ _
      · exact (Peeks.report _ _).when_bind (.pure _)
  · exact .reject _ _

theorem peeks_fieldPathType (span : Span) (fields : List String) (ty : Ty) :
    Peeks d (fieldPathType f span ty fields) := by
  induction fields generalizing ty with
  | nil => exact .pure _
  | cons field rest ih => exact (peeks_fieldType _ _ _).bind fun _ => ih _

theorem peeks_isInstanceOf (name base : QualName) : Peeks d (isInstanceOf name base) :=
  (Peeks.struct? name).bind fun _ => .pure _

theorem peeks_explicitBindings (params : List String) (anns : List TypeAnn) (b : Bindings) :
    Peeks d (explicitBindings f params anns b) := by
  induction params generalizing anns b with
  | nil => exact .pure _
  | cons param params ih =>
    cases anns with
    | nil => exact .pure _
    | cons ann anns => exact (Peeks.typeOf _ _ _).bind fun _ => ih _ _

theorem peeks_namesEnum (path : List String) (sig : EnumSig) : Peeks d (namesEnum f path sig) := by
  unfold namesEnum
  split
  · split <;> exact .pure _
  · refine (Peeks.lookup _ _ _ _).bind fun l => ?_
    split <;> exact .pure _

end Peeks

/-! ### What a body may do -/

/-- Generic functions are those that were there. -/
def State.Offers (s : State) (name : QualName) (g : FunctionDecl) : Prop :=
  g.decl.typeParams ≠ [] → s.functions.get? name = some g

/-- The function called is the one that was there at the start: the steps in between may make instances,
but no generic functions. -/
theorem StepsTo.effect {s₀ : State} {c : Check α} {P : α → Prop} (h : StepsTo d s₀.Offers S depth c P) :
    ∀ s, Effect depth S s₀ s →
      Effect depth S s₀ (c d s).2 ∧ (∀ name, s.Signed name → (c d s).2.Signed name) ∧ P (c d s).1 := by
  induction h with
  | pure h => exact fun s hs => ⟨hs, fun _ => id, h⟩
  | bind _ _ hm hk =>
    intro s hs
    obtain ⟨h₁, hkept, ha⟩ := hm s hs
    obtain ⟨h₂, hkept', hb⟩ := hk _ ha _ h₁
    exact ⟨h₂, fun name hname => hkept' name (hkept name hname), hb⟩
  | look _ ih => exact fun s hs => ih s s hs
  | @function _ target k _ _ _ hnone hsome =>
    intro s hs
    rw [show (function? target >>= k) d s = k (s.functions.get? target) d s from rfl]
    cases hg : s.functions.get? target with
    | none => exact hnone s hs
    | some g => exact hsome g (hs.generic hg) s hs
  | read _ ih => exact ih
  | ask hask =>
    intro s hs
    have h := hask.resolving (Resolver.resolving_within _) s
    exact ⟨hs.trans h.effect, fun name hname => by rwa [State.Signed, h.signatures], trivial⟩
  | note hf => exact fun s hs => ⟨hs.trans (effect_modifyResolutions hf s), fun _ => id, trivial⟩
  | builtin b hid =>
    exact fun s hs => ⟨hs.trans (effect_recordCall hid _ s (by rintro _ ⟨⟩)), fun _ => id, trivial⟩
  | @call id target k m hid _ hk _ hnone hm =>
    intro s hs
    rw [show (signature? target >>= k) d s = k (s.signatures.functions.get? target) d s from rfl]
    cases hsig : s.signatures.functions.get? target with
    | none => exact hnone s hs
    | some sig =>
      have hsigned : s.Signed target := by
        rw [State.Signed, hsig]
        rfl
      obtain ⟨h₁, hkept, -⟩ := hm sig s hs
      rw [hk sig]
      refine ⟨h₁.trans (effect_recordCall (d := d) hid _ _ ?_), hkept, trivial⟩
      rintro _ ⟨⟩
      exact hkept target hsigned
  | @«instance» _ id base g args site k m P hid hg hparams _ hk _ hnone hm =>
    intro s hs
    obtain ⟨h₁, hkept, hsigned⟩ := effect_instantiateFunction (d := d) hs (hg hparams) hparams args site
    generalize hr : instantiateFunction base g args depth site d s = r at h₁ hkept hsigned
    obtain ⟨found, s₁⟩ := r
    rw [show (instantiateFunction base g args depth site >>= k) d s =
      k (instantiateFunction base g args depth site d s).1 d (instantiateFunction base g args depth site d s).2
      from rfl, hr]
    cases found with
    | none =>
      obtain ⟨h₂, hkept', hP⟩ := hnone s₁ h₁
      exact ⟨h₂, fun name hname => hkept' name (hkept name hname), hP⟩
    | some name =>
      rw [hk name]
      have h₂ := h₁.trans (effect_recordCall (d := d) hid (.function name) s₁ (by
        rintro _ ⟨⟩
        exact hsigned name rfl))
      obtain ⟨h₃, hkept', hP⟩ := hm name _ h₂
      exact ⟨h₃, fun other hother => hkept' other (hkept other hother), hP⟩

/-- **A rule has an effect at the numbers of its nodes only.** -/
theorem acts_of_steps {c : Check α} (h : ∀ F, Steps d F S depth c) : Acts d depth S c := fun s =>
  ((h s.Offers).effect s (.refl s)).1

end Keel.Typing
