/-
# Calls and struct literals are followed

Arguments are evaluated one after the other, and each operand keeps its value until the
last one is there.  A call enters the lowered function with the values of the arguments
and comes back with its result, which is what the call gives in the source.
-/
import Keel.Proofs.Lowering.Simulation.Expr

namespace Keel.Lowering

open Ir (Storage Operand Instr TempId Frame Machine Leads)
open Source (State Eval)
open Source.Eval (pure_eq_some expect_bind_eq_some act_eq_some read_bind_eq_some)

variable {R : Running} {s : Scope} {b b₀ b' : Builder} {v : Operand} {f : Frame}
  {callers : List (Frame × TempId)} {σ : State}

/-! ### Lists of operands -/

def HasValue (f : Frame) (v : Operand) (value : Value) : Prop := f.value? v = some value

def HasField (f : Frame) (p : String × Operand) (q : String × Value) : Prop :=
  p.1 = q.1 ∧ HasValue f p.2 q.2

structure ArrivesAll {α β : Type} (P : Frame → α → β → Prop) (R : Running) (s : Scope) (b : Builder)
    (vs : List α) (values : List β) (σ : State) (f : Frame) : Prop where
  position : At R.function b f
  models : Models R.final s f.slots σ.locals
  values : List.Forall₂ (P f) vs values

theorem Arrives.hasValue {value : Value} {σ₁ : State} {f₁ : Frame} {b₁ : Builder}
    (h : Arrives R s b₁ v value σ₁ f₁) (hs : Stays b₁ f₁ f) : HasValue f v value :=
  (hs.value? h.below).trans h.value

theorem values?_of_hasValue {vs : List Operand} {values : List Value}
    (h : List.Forall₂ (HasValue f) vs values) : f.values? vs = some values :=
  mapM_eq_some.2 h

theorem Tracks.cons {α β : Type} {P : Frame → α → β → Prop} {wrap : Operand → α} {wrap' : Value → β}
    (hP : ∀ ⦃f v value⦄, HasValue f v value → P f (wrap v) (wrap' value)) {m : Lower Operand}
    {e : Eval Value} {ms : Lower (List α)} {es : Eval (List β)} (hext : Extending m)
    (hsim : Simulates R s m e) (hexts : Extending ms) (hrest : Tracks R s ms es (ArrivesAll P R s)) : Tracks R s (do
      let v ← m
      return wrap v :: (← ms)) (do
      let value ← e
      return wrap' value :: (← es)) (ArrivesAll P R s) := by
  intro b vs b' ho hp hm hgrows f callers σ r hat hmodels hr
  obtain ⟨v, b₁, hm₁, hm₂⟩ := yields_bind.1 hm
  obtain ⟨rest, b₂, hm₂, hm₃⟩ := yields_bind.1 hm₂
  obtain ⟨rfl, rfl⟩ := yields_pure.1 hm₃
  obtain ⟨h₁, ho₁⟩ := hext ho hm₁
  obtain ⟨h₂, -⟩ := hexts ho₁ hm₂
  refine Follows.bind (fun r hr => hsim ho hp hm₁ (h₂.grows.trans hgrows) hat hmodels hr) hr
    fun value σ₁ f₁ _ harr₁ hr₁ => ?_
  refine Follows.bind (fun r hr => hrest.later ho₁ (hp.grows h₁.grows.slots_le) hm₂ hgrows
    harr₁.position harr₁.models h₁.grows.temps hr) hr₁ fun values σ₂ f₂ _ ⟨hs₂, harr₂⟩ hr₂ => ?_
  cases pure_eq_some.1 hr₂
  exact .here ⟨harr₂.position, harr₂.models, .cons (hP (harr₁.hasValue hs₂)) harr₂.values⟩

theorem Tracks.nil {α β : Type} (P : Frame → α → β → Prop) :
    Tracks R s (return []) (return []) (ArrivesAll P R s) := by
  intro b vs b' ho hp hm hgrows f callers σ r hat hmodels hr
  obtain ⟨rfl, rfl⟩ := yields_pure.1 hm
  cases pure_eq_some.1 hr
  exact .here ⟨hat, hmodels, .nil⟩

/-- The parts of a call, each with the argument that its code follows. -/
def Parts (R : Running) (s : Scope) (parts : List Part) (args : List (NodeId × Eval Value)) : Prop :=
  List.Forall₂ (fun p arg => p.id = arg.1 ∧ Extending p.lower ∧ Simulates R s p.lower arg.2) parts args

variable {parts : List Part} {args : List (NodeId × Eval Value)} {values : List (String × Value)}
  {named : List (String × Operand)}

theorem Parts.extending (h : Parts R s parts args) : ∀ p ∈ parts, Extending p.lower := by
  intro p hp
  unfold Parts at h
  induction h with
  | nil => cases hp
  | cons hfirst _ ih =>
    rcases List.mem_cons.1 hp with rfl | hp
    · exact hfirst.2.1
    · exact ih hp

theorem tracks_lowerParts (h : Parts R s parts args) :
    Tracks R s (lowerParts parts) (Source.Setting.arguments (args.map (·.2))) (ArrivesAll HasValue R s) := by
  induction h with
  | nil => exact .nil HasValue
  | cons hfirst hrest ih =>
    obtain ⟨-, hext, hsim⟩ := hfirst
    unfold lowerParts
    rw [List.mapM_cons]
    exact .cons (fun _ _ _ h => h) hext hsim (extending_lowerParts (Parts.extending hrest)) ih

/-! ### Struct literals -/

theorem hasValue_of_lookup (h : List.Forall₂ (HasField f) named values) {name : String} {value : Value}
    (hv : named.lookup name = some v) (hvalue : values.lookup name = some value) : HasValue f v value := by
  induction h with
  | nil => cases hv
  | @cons p q named values hpq _ ih =>
    obtain ⟨key, first⟩ := p
    obtain ⟨key', first'⟩ := q
    obtain ⟨heq, hfirst⟩ := hpq
    dsimp only at heq hfirst
    subst heq
    rw [List.lookup_cons] at hv hvalue
    cases hname : name == key with
    | true =>
      rw [hname] at hv hvalue
      cases hv
      cases hvalue
      exact hfirst
    | false =>
      rw [hname] at hv hvalue
      exact ih hv hvalue

theorem hasValue_of_arranged? (h : List.Forall₂ (HasField f) named values) {sig : List FieldSig}
    {stored : List (String × Storage)} (hstored : List.Forall₂ StoredAs sig stored) {ordered : List Operand}
    (hordered : arranged? named stored = some ordered) {fields : List Value}
    (hfields : sig.mapM (fun f => values.lookup f.name) = some fields) :
    List.Forall₂ (HasValue f) ordered fields := by
  replace hordered := lookup_of_arranged? hordered
  replace hfields := mapM_eq_some.1 hfields
  induction hstored generalizing ordered fields with
  | nil =>
    cases hordered
    cases hfields
    exact .nil
  | cons hfirst _ ih =>
    cases hordered with
    | cons hv hordered =>
      cases hfields with
      | cons hvalue hfields =>
        rw [hfirst.1] at hv
        exact .cons (hasValue_of_lookup h hv hvalue) (ih hordered hfields)

variable (id : NodeId)

theorem simulates_lowerRecord {m : Lower (List (String × Operand))}
    {e : Eval (List (String × Value))} (hext : Extending m) (h : Tracks R s m e (ArrivesAll HasField R s)) :
    Simulates R s (lowerRecord id m) (R.setting.record id e) := by
  intro b v b' ho hp hm hgrows f callers σ r hat hmodels hr
  obtain ⟨name, named, b₁, layout, ordered, hname, hm₁, hlayout, hordered, rfl, rfl⟩ :=
    yields_lowerRecord.1 hm
  obtain ⟨h₁, ho₁⟩ := hext ho hm₁
  refine Follows.bind (fun r hr => h ho hp hm₁ ((Extends.define ho₁ _ _).grows.trans hgrows) hat
    hmodels hr) hr fun values σ₁ f₁ _ harr₁ hr₁ => ?_
  obtain ⟨name', hname', hr₁⟩ := expect_bind_eq_some.1 hr₁
  cases hname.symm.trans hname'
  obtain ⟨sig, hsig, hr₁⟩ := expect_bind_eq_some.1 hr₁
  obtain ⟨fields, hfields, hr₁⟩ := expect_bind_eq_some.1 hr₁
  cases pure_eq_some.1 hr₁
  obtain ⟨layout', hlayout', hsame⟩ := R.layouts hsig
  cases hlayout.symm.trans hlayout'
  have hvalues := values?_of_hasValue (hasValue_of_arranged? (List.rel_reverse harr₁.values)
    (fields_of_structLayout hsame) hordered hfields)
  refine .define_ok harr₁.position ho₁ harr₁.models hgrows h₁.grows.temps ?_
  simp [Instr.effect?, hvalues]

/-! ### Calls -/

theorem Follows.check (hat : At R.function b f) (ho : b.Open)
    (hmodels : Models R.final s f.slots σ.locals) {i : Instr} (hgrows : Grows (b.emit i) R.final)
    {r : Except Failure Unit} {w : World} (he : i.effect? f σ.world = some (.ofCheck r, w)) :
    Follows R s b₀ ⟨f, callers, σ.world⟩
      (fun _ σ f => At R.function (b.emit i) f ∧ Models R.final s f.slots σ.locals)
      (r.mapError .fail, { σ with world := w }) := by
  have hstep : Leads R.ir ⟨f, callers, σ.world⟩ (Machine.apply ⟨f, callers, σ.world⟩ (.ofCheck r, w)) :=
    .single (step_emit hat ho R.realizes hgrows he)
  cases r with
  | ok => exact ⟨f.advance, hstep, ⟨rfl, fun _ _ => rfl⟩, hat.emit ho _ rfl rfl rfl, hmodels⟩
  | error failure => exact hstep

theorem Follows.call (hat : At R.function b f) (ho : b.Open)
    (hmodels : Models R.final s f.slots σ.locals) {ty : Storage} {name : QualName} {vs : List Operand}
    (hgrows : Grows (b.define ty fun dest => .call dest name.text vs) R.final)
    (hle : b₀.temps.size ≤ b.temps.size) {values : List Value} (hvalues : f.values? vs = some values)
    {result : Except Failure Value} {w : World} (hcall : R.call name values σ.world = some (result, w)) :
    Follows R s b₀ ⟨f, callers, σ.world⟩
      (Arrives R s (b.define ty fun dest => .call dest name.text vs) (.temp ⟨b.temps.size⟩))
      (result.mapError .fail, { σ with world := w }) := by
  obtain ⟨g, frame, hg, henter, hruns⟩ := R.calls hcall
  have hgo : Leads R.ir ⟨f, callers, σ.world⟩ (returned ((f, ⟨b.temps.size⟩) :: callers) result w) := by
    refine Leads.trans (.single ?_) (hruns _)
    rw [step_call (hat.addTemp ty) (ho.addTemp ty) R.realizes hgrows]
    simp only [Machine.call?, hvalues, hg, henter, Option.bind_eq_bind, Option.bind_some, Option.pure_def]
  cases result with
  | ok value =>
    exact ⟨_, hgo, .setTemp hle f value, (hat.addTemp ty).emit (ho.addTemp ty) _ rfl rfl rfl, hmodels,
      if_pos rfl, by simp [Operand.Below]⟩
  | error failure => exact hgo

theorem simulates_lowerFunctionCall (name : QualName) (h : Parts R s parts args) :
    Simulates R s (lowerFunctionCall id name parts) (do
      let values ← Source.Setting.arguments (args.map (·.2))
      Eval.act (R.setting.call name values)) := by
  intro b v b' ho hp hm hgrows f callers σ r hat hmodels hr
  obtain ⟨vs, b₁, ty, hm₁, -, rfl, rfl⟩ := yields_lowerFunctionCall.1 hm
  obtain ⟨h₁, ho₁⟩ := extending_lowerParts h.extending ho hm₁
  refine Follows.bind (fun r hr => tracks_lowerParts h ho hp hm₁ ((Extends.define ho₁ _ _).grows.trans
    hgrows) hat hmodels hr) hr fun values σ₁ f₁ _ harr₁ hr₁ => ?_
  obtain ⟨result, w, hcall, rfl⟩ := act_eq_some.1 hr₁
  exact .call harr₁.position ho₁ harr₁.models hgrows h₁.grows.temps (values?_of_hasValue harr₁.values) hcall

theorem simulates_lowerIntrinsic (callee : Expr) (op : Intrinsic) (h : Parts R s parts args) :
    Simulates R s (lowerIntrinsic id op s callee parts)
      (Source.Setting.method op callee.receiver? (args.map (·.2))) := by
  intro b v b' ho hp hm hgrows f callers σ r hat hmodels hr
  obtain ⟨slot, vs, b₁, ty, hslot, hm₁, -, rfl, rfl⟩ := yields_lowerIntrinsic.1 hm
  obtain ⟨h₁, ho₁⟩ := extending_lowerParts h.extending ho hm₁
  refine Follows.bind (fun r hr => tracks_lowerParts h ho hp hm₁ ((Extends.define ho₁ _ _).grows.trans
    hgrows) hat hmodels hr) hr fun values σ₁ f₁ _ harr₁ hr₁ => ?_
  obtain ⟨name, hname, hr₁⟩ := expect_bind_eq_some.1 hr₁
  rw [hname, Option.bind_some] at hslot
  obtain ⟨l, receiver, hl, hreceiver, hr₁⟩ := read_bind_eq_some.1 hr₁
  obtain ⟨result, w, hperform, rfl⟩ := act_eq_some.1 hr₁
  rcases harr₁.models.find? name with ⟨hnone, -⟩ | ⟨slot', l', hslot', hl', -, hvalue⟩
  · cases hnone.symm.trans hslot
  · cases hslot'.symm.trans hslot
    cases hl'.symm.trans hl
    refine .define harr₁.position ho₁ harr₁.models hgrows h₁.grows.temps ?_
    simp [Instr.effect?, hvalue receiver hreceiver, values?_of_hasValue harr₁.values, hperform]

theorem simulates_lowerService {which : Ir.Service} {builtin : Builtin} {part : Part} {e : Eval Value}
    (hwhich : which.builtin = builtin) (hext : Extending part.lower) (h : Simulates R s part.lower e) :
    Simulates R s (lowerService which builtin [part]) (do
      let value ← R.setting.operand part.id e
      Eval.act (builtin.perform value)
      return .unit) := by
  intro b v b' ho hp hm hgrows f callers σ r hat hmodels hr
  obtain ⟨_, ty, o, b₁, hpart, hty, hm₁, rfl, rfl⟩ := yields_lowerService.1 hm
  cases hpart
  obtain ⟨h₁, ho₁⟩ := hext ho hm₁
  refine Follows.bind (fun r hr => h.operand part.id ho hp hm₁ ((Extends.emit ho₁ _).grows.trans hgrows)
    hat hmodels hr) hr fun value σ₁ f₁ _ ⟨harr₁, hof⟩ hr₁ => ?_
  refine Follows.bind (Q := fun _ σ f => At R.function (b₁.emit (.service which o ty)) f ∧
    Models R.final s f.slots σ.locals) (fun r hr => ?_) hr₁ fun _ σ₂ f₂ _ harr₂ hr₂ => ?_
  · obtain ⟨result, w, hperform, rfl⟩ := act_eq_some.1 hr
    refine .check harr₁.position ho₁ harr₁.models hgrows ?_
    simp [Instr.effect?, harr₁.value, hty.holds hof, hwhich, hperform]
  · cases pure_eq_some.1 hr₂
    exact .here ⟨harr₂.1, harr₂.2, rfl, trivial⟩

theorem simulates_lowerBuiltin (builtin : Builtin) (h : Parts R s parts args) :
    Simulates R s (lowerBuiltin id builtin parts)
      (Source.Setting.builtin builtin (args.map fun (id, arg) => R.setting.operand id arg)) := by
  intro b v b' ho hp hm hgrows f callers σ r hat hmodels hr
  rcases yields_lowerBuiltin.1 hm with ⟨which, hwhich, hservice⟩ | ⟨rfl, element, -, rfl, rfl⟩
  · cases h with
    | nil =>
      cases builtin with
      | list => cases hwhich
      | _ => cases hr
    | cons hfirst hrest =>
      obtain ⟨hid, hext, hsim⟩ := hfirst
      cases hrest with
      | nil =>
        have hbuiltin : which.builtin = builtin := by cases builtin <;> cases hwhich <;> rfl
        refine simulates_lowerService hbuiltin hext hsim ho hp hservice hgrows hat hmodels ?_
        rw [hid]
        cases builtin <;> first | exact hr | cases hwhich
      | cons => cases builtin <;> cases hr
  · cases h with
    | nil =>
      cases hr
      exact .define (r := .ok _) hat ho hmodels hgrows (Nat.le_refl _) rfl
    | cons => cases hr

theorem simulates_lowerVariantCall (ref : VariantRef) (h : Parts R s parts args) :
    Simulates R s (lowerVariantCall ref parts) (Source.Setting.construct ref (args.map (·.2))) := by
  intro b v b' ho hp hm hgrows f callers σ r hat hmodels hr
  obtain ⟨payload, b₁, hpayload, hm₂⟩ := yields_bind.1 hm
  rcases yields_payload.1 hpayload with ⟨rfl, rfl, rfl⟩ | ⟨part, rest, o, rfl, rfl, hm₁⟩
  · cases h
    exact .variant hat ho hmodels hm₂ hgrows (Nat.le_refl _) rfl hr
  · cases h with
    | cons hfirst hrest =>
      obtain ⟨-, hext, hsim⟩ := hfirst
      obtain ⟨h₁, ho₁⟩ := hext ho hm₁
      cases hrest with
      | nil =>
        refine Follows.bind (fun r hr => hsim ho hp hm₁ ((extending_lowerVariant ref _ ho₁ hm₂).1.grows.trans
          hgrows) hat hmodels hr) hr fun value σ₁ f₁ _ harr₁ hr₁ => ?_
        refine .variant harr₁.position ho₁ harr₁.models hm₂ hgrows h₁.grows.temps ?_ hr₁
        simp [harr₁.value]
      | cons => cases hr

/-- **A call is followed**, whatever it was found to be a call of. -/
theorem simulates_lowerCall (callee : Expr) (h : Parts R s parts args) :
    Simulates R s (lowerCall id s callee parts) (R.setting.invoke id callee args) := by
  intro b v b' ho hp hm hgrows f callers σ r hat hmodels hr
  obtain ⟨target, htarget, hcallee⟩ := yields_lowerCall.1 hm
  unfold Source.Setting.invoke at hr
  rw [show R.setting.program.resolutions.callee? id = some target from htarget] at hr
  cases target with
  | intrinsic op => exact simulates_lowerIntrinsic id callee op h ho hp hcallee hgrows hat hmodels hr
  | variant ref => exact simulates_lowerVariantCall ref h ho hp hcallee hgrows hat hmodels hr
  | builtin which => exact simulates_lowerBuiltin id which h ho hp hcallee hgrows hat hmodels hr
  | function name => exact simulates_lowerFunctionCall id name h ho hp hcallee hgrows hat hmodels hr

end Keel.Lowering
