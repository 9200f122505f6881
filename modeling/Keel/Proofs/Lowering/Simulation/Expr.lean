/-
# Expressions are followed

For the rules of lowering that are about operators, casts and fields: if the code of the
parts follows their runs, the code of the whole follows its run.
-/
import Keel.Proofs.Lowering.Simulation.Follow

namespace Keel

open Option

/-! ### Runs of the source -/

namespace Source

open Eval

variable {α β : Type} {σ : State}

theorem Eval.pure_eq_some {a : α} {r : Except Exit α × State} : (pure a : Eval α) σ = some r ↔ r = (.ok a, σ) := by
  constructor
  · intro h; cases h; rfl
  · rintro rfl; rfl

theorem Eval.expect_eq_some {o : Option α} {r : Except Exit α × State} :
    expect o σ = some r ↔ ∃ a, o = some a ∧ r = (.ok a, σ) := by
  cases o with
  | none => simp [expect, stuck]
  | some a => simp [expect, pure_eq_some]

theorem Eval.expect_bind_eq_some {o : Option α} {k : α → Eval β} {r : Except Exit β × State} :
    (expect o >>= k) σ = some r ↔ ∃ a, o = some a ∧ k a σ = some r := by
  cases o with
  | none =>
    constructor
    · intro h
      cases h
    · rintro ⟨a, h, -⟩
      cases h
  | some a =>
    constructor
    · exact fun h => ⟨a, rfl, h⟩
    · rintro ⟨_, h, hr⟩
      cases h
      exact hr

theorem Eval.outcome_eq_some {o : Option (Except Failure α)} {r : Except Exit α × State} :
    outcome o σ = some r ↔ ∃ result, o = some result ∧ r = (result.mapError .fail, σ) := by
  cases o with
  | none => simp [outcome, stuck]
  | some result =>
    constructor
    · intro h
      refine ⟨result, rfl, ?_⟩
      cases result <;> cases h <;> rfl
    · rintro ⟨_, h, rfl⟩
      cases h
      cases result <;> rfl

theorem Eval.act_eq_some {f : World → Option (Except Failure α × World)} {r : Except Exit α × State} :
    act f σ = some r ↔ ∃ result w, f σ.world = some (result, w) ∧
      r = (result.mapError .fail, { σ with world := w }) := by
  unfold act
  constructor
  · intro h
    split at h
    · cases h; exact ⟨_, _, ‹_›, rfl⟩
    · cases h; exact ⟨_, _, ‹_›, rfl⟩
    · cases h
  · rintro ⟨result, w, h, rfl⟩
    rw [h]
    cases result <;> rfl

theorem Eval.change_eq_some {f : List Local → Option (List Local)} {r : Except Exit Unit × State} :
    change f σ = some r ↔ ∃ locals, f σ.locals = some locals ∧ r = (.ok (), { σ with locals }) := by
  unfold change
  cases f σ.locals with
  | none => simp
  | some locals => simp [eq_comm]

theorem Eval.read_bind_eq_some {name : String} {k : Value → Eval β} {r : Except Exit β × State} :
    (read name >>= k) σ = some r ↔ ∃ l value, σ.locals.find? (·.name == name) = some l ∧
      l.value = some value ∧ k value σ = some r := by
  have h : (read name >>= k) σ = (expect ((σ.locals.find? (·.name == name)).bind (·.value)) >>= k) σ := rfl
  rw [h, expect_bind_eq_some]
  simp only [bind_eq_some_iff]
  constructor
  · rintro ⟨value, ⟨l, hl, hvalue⟩, hk⟩
    exact ⟨l, value, hl, hvalue, hk⟩
  · rintro ⟨l, value, hl, hvalue, hk⟩
    exact ⟨value, ⟨l, hl, hvalue⟩, hk⟩

end Source

/-! ### Types and storage -/

theorem Ty.width?_of_storage {t : Ty} {kind : IntKind} (h : Lowering.storage t = .ok (.int kind)) :
    t.width? = some kind := by
  cases t with
  | list t =>
    unfold Lowering.storage at h
    split at h <;> cases h
  | _ => cases h <;> rfl

/-- A value is held by the storage of its type, and by that of no other. -/
theorem Ir.Storage.holds_eq_isOf {t : Ty} {ty : Ir.Storage} (h : Lowering.storage t = .ok ty)
    (value : Value) : ty.holds value = value.isOf t := by
  cases t with
  | list t =>
    unfold Lowering.storage at h
    split at h
    · cases h; cases value <;> rfl
    · cases h
  | _ => cases h <;> cases value <;> first | rfl | (simp [holds, Value.isOf, Ty.width?]; exact eq_comm)

namespace Lowering

open Ir (Storage Operand Instr TempId Frame)
open Source (Local State Exit Eval)
open Source.Eval (pure_eq_some expect_eq_some expect_bind_eq_some outcome_eq_some)

/-! ### Parts -/

/-- The machine has come to a position of the code, where the operand has the value. -/
structure Arrives (R : Running) (s : Scope) (b : Builder) (v : Operand) (value : Value) (σ : State)
    (f : Frame) : Prop where
  position : At R.function b f
  models : Models R.final s f.slots σ.locals
  value : f.value? v = some value
  below : v.Below b.temps.size

/-- The code that is written follows the run; `Q` says where it comes to. -/
def Tracks {α β : Type} (R : Running) (s : Scope) (m : Lower α) (e : Eval β)
    (Q : Builder → α → β → State → Frame → Prop) : Prop :=
  ∀ ⦃b v b'⦄, b.Open → Placed s b → Yields m R.ctx b v b' → Grows b' R.final →
    ∀ ⦃f callers σ r⦄, At R.function b f → Models R.final s f.slots σ.locals → e σ = some r →
      Follows R s b ⟨f, callers, σ.world⟩ (Q b' v) r

/-- The code that is written for an expression follows its run to its value. -/
def Simulates (R : Running) (s : Scope) (m : Lower Operand) (e : Eval Value) : Prop :=
  Tracks R s m e (Arrives R s)

variable {R : Running} {s : Scope} {b b₀ b' : Builder} {v : Operand} {f : Frame}
  {callers : List (Frame × TempId)} {σ : State} {α : Type}

theorem Follows.here {Q : α → State → Frame → Prop} {a : α} (h : Q a σ f) :
    Follows R s b ⟨f, callers, σ.world⟩ Q (.ok a, σ) :=
  ⟨f, .refl _, .refl b f, h⟩

variable {ty : Storage} {i : TempId → Instr} {r : Except Exit Value × State} {e : Eval Value}

theorem Follows.define (hat : At R.function b f) (ho : b.Open) (hmodels : Models R.final s f.slots σ.locals)
    (hgrows : Grows (b.define ty i) R.final) (hle : b₀.temps.size ≤ b.temps.size) {r : Except Failure Value}
    {w : World} (he : (i ⟨b.temps.size⟩).effect? f σ.world = some (.ofResult ⟨b.temps.size⟩ r, w)) :
    Follows R s b₀ ⟨f, callers, σ.world⟩ (Arrives R s (b.define ty i) (.temp ⟨b.temps.size⟩))
      (r.mapError .fail, { σ with world := w }) := by
  cases r with
  | ok value =>
    obtain ⟨hl, hat'⟩ := leads_define hat ho R.realizes hgrows he
    exact ⟨_, hl, .setTemp hle f value, hat', hmodels, if_pos rfl, by simp [Operand.Below]⟩
  | error failure =>
    exact .single (step_emit (hat.addTemp ty) (ho.addTemp ty) R.realizes hgrows he)

theorem Follows.define_ok (hat : At R.function b f) (ho : b.Open) (hmodels : Models R.final s f.slots σ.locals)
    (hgrows : Grows (b.define ty i) R.final) (hle : b₀.temps.size ≤ b.temps.size) {value : Value}
    (he : (i ⟨b.temps.size⟩).effect? f σ.world = some (.define ⟨b.temps.size⟩ value, σ.world)) :
    Follows R s b₀ ⟨f, callers, σ.world⟩ (Arrives R s (b.define ty i) (.temp ⟨b.temps.size⟩)) (.ok value, σ) :=
  Follows.define (r := .ok value) hat ho hmodels hgrows hle he

theorem Arrives.persist {value : Value} {σ₁ : State} {f₁ f₂ : Frame} {b₁ b₂ : Builder}
    (h : Arrives R s b₁ v value σ₁ f₁) (hs : Stays b₁ f₁ f₂) (hle : b₁.temps.size ≤ b₂.temps.size) :
    f₂.value? v = some value ∧ v.Below b₂.temps.size :=
  ⟨(hs.value? h.below).trans h.value, h.below.mono hle⟩

theorem Tracks.later {β : Type} {m : Lower α} {e : Eval β} {Q : Builder → α → β → State → Frame → Prop}
    (h : Tracks R s m e Q) (ho : b.Open) (hp : Placed s b) {a : α} (hm : Yields m R.ctx b a b')
    (hgrows : Grows b' R.final) (hat : At R.function b f)
    (hmodels : Models R.final s f.slots σ.locals) (hle : b₀.temps.size ≤ b.temps.size)
    {r : Except Exit β × State} (hr : e σ = some r) :
    Follows R s b₀ ⟨f, callers, σ.world⟩ (fun value σ f' => Stays b f f' ∧ Q b' a value σ f') r :=
  (h ho hp hm hgrows hat hmodels hr).imp hle fun _ _ _ hs harr => ⟨hs, harr⟩

/-! ### Simple expressions -/

variable (id : NodeId)

theorem simulates_lowerLiteral (lit : Literal) :
    Simulates R s (lowerLiteral id lit) (R.setting.literal id lit) := by
  intro b v b' ho hp hm hgrows f callers σ r hat hmodels hr
  obtain ⟨hlit, rfl⟩ := yields_lowerLiteral.1 hm
  cases lit with
  | bool value | str value =>
    cases hlit
    cases pure_eq_some.1 hr
    exact .here ⟨hat, hmodels, rfl, trivial⟩
  | int value =>
    obtain ⟨kind, ⟨t, ht, hstorage⟩, rfl⟩ := hlit
    obtain ⟨kind', hkind', hr⟩ := expect_bind_eq_some.1 hr
    obtain ⟨t', ht', hwidth⟩ := bind_eq_some_iff.1 hkind'
    cases ht.symm.trans ht'
    cases (Ty.width?_of_storage hstorage).symm.trans hwidth
    cases pure_eq_some.1 hr
    exact .here ⟨hat, hmodels, rfl, trivial⟩

theorem Context.ConstIs.value {ctx : Context} {name : QualName} (h : ctx.ConstIs name v) {value : Value}
    (hv : (ctx.program.consts.get? name).bind (·.value?) = some value) :
    f.value? v = some value ∧ v.Below b.temps.size := by
  obtain ⟨c, ty, hc, hty, hcases⟩ := h
  rw [hc, bind_some] at hv
  unfold CheckedConst.value? at hv
  rcases hcases with ⟨n, kind, hval, rfl, rfl⟩ | ⟨n, hval, rfl⟩ | ⟨n, hval, rfl⟩ <;> rw [hval] at hv
  · rw [Ty.width?_of_storage hty] at hv
    exact ⟨hv, trivial⟩
  · exact ⟨hv, trivial⟩
  · exact ⟨hv, trivial⟩

theorem simulates_lowerPath (path : PathExpr) :
    Simulates R s (lowerPath id path s) (R.setting.path id path) := by
  intro b v b' ho hp hm hgrows f callers σ r hat hmodels hr
  unfold Source.Setting.path at hr
  rcases yields_lowerPath.1 hm with ⟨slot, hslot, rfl, rfl⟩ | ⟨hnone, name, hname, hconst, rfl⟩
  · obtain ⟨name, hname, hfind⟩ := bind_eq_some_iff.1 hslot
    rw [hname, bind_some] at hr
    rcases hmodels.find? name with ⟨h, -⟩ | ⟨slot', l, hslot', hl, -, hvalue⟩
    · cases h.symm.trans hfind
    · cases hslot'.symm.trans hfind
      rw [hl] at hr
      obtain ⟨value, hsome, rfl⟩ := expect_eq_some.1 hr
      refine .define_ok hat ho hmodels hgrows (Nat.le_refl _) ?_
      simp [Instr.effect?, hvalue value hsome]
  · have hlocal : (path.simple?.bind fun name => σ.locals.find? (·.name == name)) = none := by
      cases hsimple : path.simple? with
      | none => rfl
      | some name =>
        rw [hsimple, bind_some] at hnone
        rcases hmodels.find? name with ⟨-, h⟩ | ⟨slot', l, hslot', -⟩
        · exact h
        · cases hnone.symm.trans hslot'
    rw [hlocal] at hr
    obtain ⟨value, hvalue, rfl⟩ := expect_eq_some.1 hr
    rw [show R.setting.program.resolutions.constRefs.get? id = some name from hname] at hvalue
    obtain ⟨hv, hbelow⟩ := hconst.value (f := f) (b := b') hvalue
    exact .here ⟨hat, hmodels, hv, hbelow⟩

theorem unary_eq_some {id : NodeId} {op : UnaryOp} {value : Value} (h : R.setting.unary id op value σ = some r) :
    ∃ result, Value.unary? op value = some result ∧ r = (.ok result, σ) := by
  cases value with
  | int n =>
    obtain ⟨kind, -, h⟩ := expect_bind_eq_some.1 h
    split at h
    · exact expect_eq_some.1 h
    · cases h
  | _ => exact expect_eq_some.1 h

theorem simulates_lowerUnary (op : UnaryOp) {m : Lower Operand} (hext : Extending m)
    (h : Simulates R s m e) : Simulates R s (m >>= lowerUnary id op) (e >>= R.setting.unary id op) := by
  intro b v b' ho hp hm hgrows f callers σ r hat hmodels hr
  obtain ⟨o, b₁, hm₁, hm₂⟩ := yields_bind.1 hm
  obtain ⟨h₁, ho₁⟩ := hext ho hm₁
  have hgrows₁ := (extending_lowerUnary id op o ho₁ hm₂).1.grows.trans hgrows
  refine Follows.bind (fun r hr => h ho hp hm₁ hgrows₁ hat hmodels hr) hr fun value σ₁ f₁ hs₁ harr hr₁ => ?_
  obtain ⟨result, hresult, rfl⟩ := unary_eq_some hr₁
  rcases yields_lowerUnary.1 hm₂ with ⟨n, kind, rfl, rfl, rfl, rfl⟩ | ⟨-, ty, -, rfl, rfl⟩
  · -- the negation of a constant is a constant
    cases harr.value
    cases hresult
    refine .here ⟨harr.position, harr.models, ?_, trivial⟩
    show some (Value.int (.ofInt kind (-n))) = _
    rw [← Number.ofInt_neg]
    rfl
  · refine .define_ok harr.position ho₁ harr.models hgrows h₁.grows.temps ?_
    simp [Instr.effect?, harr.value, hresult]

theorem Simulates.operand {m : Lower Operand} (h : Simulates R s m e) (id : NodeId) (ho : b.Open) (hp : Placed s b)
    (hm : Yields m R.ctx b v b') (hgrows : Grows b' R.final) (hat : At R.function b f)
    (hmodels : Models R.final s f.slots σ.locals) (hr : R.setting.operand id e σ = some r) :
    Follows R s b ⟨f, callers, σ.world⟩ (fun value σ f => Arrives R s b' v value σ f ∧
      ∃ t, R.program.resolutions.exprTypes.get? id = some t ∧ value.isOf t) r := by
  refine Follows.bind (fun r hr => h ho hp hm hgrows hat hmodels hr) hr fun value σ₁ f₁ hs₁ harr hr₁ => ?_
  obtain ⟨t, ht, hr₁⟩ := expect_bind_eq_some.1 hr₁
  split at hr₁
  · cases pure_eq_some.1 hr₁
    exact .here ⟨harr, t, ht, ‹_›⟩
  · cases hr₁

theorem Context.Stores.holds {ctx : Context} {id : NodeId} {value : Value} (h : ctx.Stores id ty)
    (hv : ∃ t, ctx.program.resolutions.exprTypes.get? id = some t ∧ value.isOf t) : ty.holds value := by
  obtain ⟨t, ht, hstorage⟩ := h
  obtain ⟨t', ht', hof⟩ := hv
  cases ht.symm.trans ht'
  rw [Storage.holds_eq_isOf hstorage, hof]

theorem perform?_arith {op : ArithOp} {kind : IntKind} {l r : Value} {result : Except Failure Value}
    (h : Value.arith? op kind l r = some result) (hl : ty.holds l) :
    Ir.EagerOp.perform? (.arith op) ty l r = some result := by
  cases l with
  | int a =>
    have hkind : a.kind = kind := by
      cases r with
      | int b =>
        simp only [Value.arith?] at h
        split at h
        · exact ‹_ ∧ _›.1
        · cases h
      | _ => cases h
    cases ty with
    | int k =>
      have : a.kind = k := by simpa [Storage.holds] using hl
      rw [← this, hkind]
      exact h
    | _ => cases hl
  | _ => cases h

/-- An operation on two operands: both are computed, and then the instruction does what the source does. -/
theorem simulates_lowerEager {op : Ir.EagerOp} {left right : Part} {l r : Eval Value}
    {perform : Value → Value → Eval Value} (hextl : Extending left.lower) (hextr : Extending right.lower)
    (hleft : Simulates R s left.lower l) (hright : Simulates R s right.lower r)
    (hop : ∀ {ty a c σ res}, ty.holds a → perform a c σ = some res →
      ∃ result, op.perform? ty a c = some result ∧ res = (result.mapError .fail, σ)) :
    Simulates R s (lowerEager id op left right) (R.setting.operand left.id l >>= fun a => r >>= perform a) := by
  intro b v b' ho hp hm hgrows f callers σ res hat hmodels hr
  obtain ⟨operands, o₁, b₁, o₂, b₂, ty, hoperands, hm₁, hm₂, hty, rfl, rfl⟩ := yields_lowerEager.1 hm
  obtain ⟨h₁, ho₁⟩ := hextl ho hm₁
  obtain ⟨h₂, ho₂⟩ := hextr ho₁ hm₂
  have hgrows₂ := (Extends.define ho₂ _ _).grows.trans hgrows
  refine Follows.bind (fun r hr => hleft.operand left.id ho hp hm₁ (h₂.grows.trans hgrows₂) hat
    hmodels hr) hr fun a σ₁ f₁ hs₁ ⟨harr₁, hof⟩ hr₁ => ?_
  refine Follows.bind (fun r hr => hright.later ho₁ (hp.grows h₁.grows.slots_le) hm₂ hgrows₂
    harr₁.position harr₁.models h₁.grows.temps hr) hr₁ fun c σ₂ f₂ _ ⟨hs₂, harr₂⟩ hr₂ => ?_
  obtain ⟨result, hresult, rfl⟩ := hop (hoperands.holds hof) hr₂
  obtain ⟨hv₁, -⟩ := harr₁.persist hs₂ h₂.grows.temps
  refine .define harr₂.position ho₂ harr₂.models hgrows (Nat.le_trans h₁.grows.temps h₂.grows.temps) ?_
  simp [Instr.effect?, hv₁, harr₂.value, hresult]

theorem arith_eq_some {id : NodeId} {op : ArithOp} {a c : Value} (hty : ty.holds a)
    (hr : (R.setting.kindOf id >>= fun kind => Source.Eval.outcome (Value.arith? op kind a c)) σ = some r) :
    ∃ result, Ir.EagerOp.perform? (.arith op) ty a c = some result ∧ r = (result.mapError .fail, σ) := by
  obtain ⟨kind, -, hr⟩ := expect_bind_eq_some.1 hr
  obtain ⟨result, hresult, rfl⟩ := outcome_eq_some.1 hr
  exact ⟨result, perform?_arith hresult hty, rfl⟩

theorem compare_eq_some {op : CompareOp} {a c : Value} (hty : ty.holds a)
    (hr : (Source.Eval.expect (Value.compare? op a c) >>= fun holds => pure (.bool holds)) σ = some r) :
    ∃ result, Ir.EagerOp.perform? (.compare op) ty a c = some result ∧ r = (result.mapError .fail, σ) := by
  obtain ⟨holds, hholds, hr⟩ := expect_bind_eq_some.1 hr
  cases pure_eq_some.1 hr
  exact ⟨.ok (.bool holds), by simp [Ir.EagerOp.perform?, hty, hholds], rfl⟩

/-! ### Casts -/

theorem Follows.checkRange {n : Number} {t : Ty} (harr : Arrives R s b v (.int n) σ f) (ho : b.Open)
    (hgrows : Grows (b.checkRange t v n.kind) R.final) {r : Except Exit Unit × State}
    (hr : Source.Setting.checkRange t n σ = some r) : Follows R s b₀ ⟨f, callers, σ.world⟩
      (fun _ σ f => Arrives R s (b.checkRange t v n.kind) v (.int n) σ f) r := by
  cases t with
  | range base low high =>
    have hr : (if low ≤ n.value ∧ n.value ≤ high then pure () else
      Source.Eval.exit (.fail (.outOfRange low high))) σ = some r := hr
    by_cases hin : low ≤ n.value ∧ n.value ≤ high
    · rw [if_pos hin] at hr
      cases pure_eq_some.1 hr
      have he : Instr.effect? f σ.world (.rangeCheck v n.kind low high) = some (.proceed, σ.world) := by
        simp [Instr.effect?, harr.value, hin]
      refine ⟨f.advance, .single (step_emit harr.position ho R.realizes hgrows he), ⟨rfl, fun _ _ => rfl⟩,
        harr.position.emit ho _ rfl rfl rfl, harr.models, harr.value, ?_⟩
      exact harr.below
    · rw [if_neg hin] at hr
      cases hr
      have he : Instr.effect? f σ.world (.rangeCheck v n.kind low high) =
          some (.fail (.outOfRange low high), σ.world) := by
        simp [Instr.effect?, harr.value, hin]
      exact .single (step_emit harr.position ho R.realizes hgrows he)
  | _ =>
    cases pure_eq_some.1 hr
    exact .here harr

theorem Follows.convert {n : Number} {kind : IntKind} (harr : Arrives R s b v (.int n) σ f)
    (ho : b.Open) (hgrows : Grows (b.convert v n.kind kind) R.final) (hle : b₀.temps.size ≤ b.temps.size) :
    Follows R s b₀ ⟨f, callers, σ.world⟩ (Arrives R s (b.convert v n.kind kind) (b.converted v n.kind kind))
      (.ok (.int (.ofInt kind n.value)), σ) := by
  unfold Builder.converted Builder.convert at *
  by_cases hsame : n.kind = kind
  · subst hsame
    rw [if_pos rfl, if_pos rfl, Number.ofInt_value]
    exact .here harr
  · rw [if_neg hsame] at hgrows
    rw [if_neg hsame, if_neg hsame]
    refine .define_ok harr.position ho harr.models hgrows hle ?_
    simp [Instr.effect?, harr.value]

theorem simulates_lowerCast {operand : Part} (hext : Extending operand.lower)
    (h : Simulates R s operand.lower e) :
    Simulates R s (lowerCast id operand) (R.setting.cast id (R.setting.operand operand.id e)) := by
  intro b v b' ho hp hm hgrows f callers σ r hat hmodels hr
  obtain ⟨target, source, o, b₁, kind, htarget, hsource, hm₁, hkind, rfl, rfl⟩ := yields_lowerCast.1 hm
  obtain ⟨h₁, ho₁⟩ := hext ho hm₁
  obtain ⟨h₂, ho₂⟩ := ho₁.checkRange target o source
  have hgrows₂ := (ho₂.convert o source kind).1.grows.trans hgrows
  refine Follows.bind (fun r hr => h.operand operand.id ho hp hm₁ (h₂.grows.trans hgrows₂) hat
    hmodels hr) hr fun a σ₁ f₁ hs₁ ⟨harr₁, hof⟩ hr₁ => ?_
  cases a with
  | int n =>
    obtain rfl : n.kind = source := by simpa [Storage.holds] using hsource.holds hof
    obtain ⟨t, ht, hr₁⟩ := expect_bind_eq_some.1 hr₁
    cases htarget.symm.trans ht
    refine Follows.bind (fun r hr => Follows.checkRange harr₁ ho₁ hgrows₂ hr) hr₁ fun _ σ₂ f₂ hs₂ harr₂ hr₂ => ?_
    obtain ⟨kind', hkind', hr₂⟩ := expect_bind_eq_some.1 hr₂
    cases hkind'.symm.trans (Ty.width?_of_storage hkind)
    cases pure_eq_some.1 hr₂
    exact .convert harr₂ ho₂ hgrows (Nat.le_trans h₁.grows.temps h₂.grows.temps)
  | _ => cases hr₁

/-! ### Variants and fields -/

theorem Follows.variant {ref : VariantRef} {payload : Option Operand} {carried : Option Value}
    (hat : At R.function b f) (ho : b.Open) (hmodels : Models R.final s f.slots σ.locals)
    (hm : Yields (lowerVariant ref payload) R.ctx b v b') (hgrows : Grows b' R.final)
    (hle : b₀.temps.size ≤ b.temps.size) (hpayload : payload.mapM f.value? = some carried)
    (hr : Source.Setting.variant ref carried σ = some r) :
    Follows R s b₀ ⟨f, callers, σ.world⟩ (Arrives R s b' v) r := by
  obtain ⟨rfl, rfl⟩ := yields_lowerVariant.1 hm
  obtain ⟨tag, htag, hr⟩ := expect_bind_eq_some.1 hr
  cases pure_eq_some.1 hr
  unfold VariantRef.tag? at htag
  split at htag
  · rename_i hlt
    cases htag
    refine .define_ok hat ho hmodels hgrows hle ?_
    simp [Instr.effect?, hlt, hpayload]
  · cases htag

theorem simulates_lowerMember (name : String) {base : Part} (hext : Extending base.lower)
    (h : Simulates R s base.lower e) :
    Simulates R s (lowerMember id base name) (R.setting.member id base.id e name) := by
  intro b v b' ho hp hm hgrows f callers σ r hat hmodels hr
  unfold Source.Setting.member at hr
  rcases yields_lowerMember.1 hm with ⟨ref, href, hm⟩ | ⟨hnone, struct, o, b₁, field, ty, hstruct, hm₁,
    hfield, rfl, rfl⟩
  · rw [show R.setting.program.resolutions.variants.get? id = some ref from href] at hr
    exact .variant hat ho hmodels hm hgrows (Nat.le_refl _) rfl hr
  · rw [show R.setting.program.resolutions.variants.get? id = none from hnone] at hr
    obtain ⟨h₁, ho₁⟩ := hext ho hm₁
    refine Follows.bind (fun r hr => h ho hp hm₁ ((Extends.define ho₁ _ _).grows.trans hgrows) hat
      hmodels hr) hr fun a σ₁ f₁ hs₁ harr₁ hr₁ => ?_
    obtain ⟨t, ht, hr₁⟩ := expect_bind_eq_some.1 hr₁
    obtain ⟨path, hpath, hr₁⟩ := expect_bind_eq_some.1 hr₁
    obtain ⟨t', ht', hstorage⟩ := hstruct
    cases ht'.symm.trans ht
    obtain rfl := (Context.FieldsAt.cons hfield .nil).fieldPath? R.layouts hstorage hpath
    obtain ⟨value, hvalue, rfl⟩ := expect_eq_some.1 hr₁
    refine .define_ok harr₁.position ho₁ harr₁.models hgrows h₁.grows.temps ?_
    simp [Instr.effect?, harr₁.value, show a.field? field.index = some value from hvalue]

end Lowering
end Keel
