/-
# Statements are followed

A statement may declare a variable for those after it; so the code of a block follows its
run one statement after the other, each in the scope that the one before it has left.  The
rounds of a loop are followed by induction on their number.

At the end the rules come together: `simulates_lowerExpr` and the theorems around it say
for the whole syntax that the code follows the run.
-/
import Keel.Proofs.Lowering.Simulation.Calls
import Keel.Proofs.Lowering.Simulation.Matches

namespace Keel.Lowering

open Ir (Operand Instr BlockId TempId SlotId Frame Machine Leads)
open Source (State Exit Eval)
open Source.Eval (pure_eq_some expect_bind_eq_some change_eq_some)

variable {R : Running} {s inner : Scope} {b b₀ b' : Builder} {v : Operand} {f : Frame}
  {callers : List (Frame × TempId)} {σ : State}

/-! ### Scopes -/

theorem scope_lowerStmt {ctx : Context} {stmt : Stmt} (ho : b.Open) (hp : Placed s b)
    (hm : Yields (lowerStmt stmt s) ctx b inner b') : Widens s inner ∧ Placed inner b' := by
  have hle := (extending_lowerStmt stmt s ho hm).1.grows.slots_le
  have hsame : inner = s → Widens s inner ∧ Placed inner b' := by
    rintro rfl
    exact ⟨.refl inner, hp.grows hle⟩
  cases stmt with
  | bind id name ann value isMutable span =>
    obtain ⟨ty, u, -, hinit, rfl⟩ := yields_lowerStmt_bind.1 hm
    have hslots := (extending_lowerInit value s _ (ho.addSlot ty) hinit).1.grows.slots_le
    refine ⟨.declare s name _, hp.declare ?_ name⟩
    simp at hslots
    omega
  | assign =>
    obtain ⟨_, _, _, -, -, h, -⟩ := yields_lowerStmt_assign.1 hm
    exact hsame h
  | assignField =>
    obtain ⟨_, _, _, _, _, -, -, -, h, -⟩ := yields_lowerStmt_assignField.1 hm
    exact hsame h
  | expr =>
    obtain ⟨_, -, h⟩ := yields_lowerStmt_expr.1 hm
    exact hsame h
  | ret =>
    obtain ⟨_, _, -, h, -⟩ := yields_lowerStmt_ret.1 hm
    exact hsame h
  | cond =>
    obtain ⟨_, -, h⟩ := yields_lowerStmt_cond.1 hm
    exact hsame h
  | loop =>
    obtain ⟨_, _, _, _, -, -, h, -⟩ := yields_lowerStmt_loop.1 hm
    exact hsame h
  | brk =>
    obtain ⟨_, -, h, -⟩ := yields_lowerStmt_brk.1 hm
    exact hsame h
  | cont =>
    obtain ⟨_, -, h, -⟩ := yields_lowerStmt_cont.1 hm
    exact hsame h
  | block =>
    obtain ⟨_, -, h⟩ := yields_lowerStmt_block.1 hm
    exact hsame h

theorem scope_lowerStmts {ctx : Context} {stmts : List Stmt} (ho : b.Open) (hp : Placed s b)
    (hm : Yields (lowerStmts stmts s) ctx b inner b') : Widens s inner ∧ Placed inner b' := by
  induction stmts generalizing s b with
  | nil =>
    obtain ⟨rfl, rfl⟩ := yields_lowerStmts_nil.1 hm
    exact ⟨.refl _, hp⟩
  | cons stmt rest ih =>
    obtain ⟨s₁, b₁, hfirst, hrest⟩ := yields_lowerStmts_cons.1 hm
    obtain ⟨hw₁, hp₁⟩ := scope_lowerStmt ho hp hfirst
    obtain ⟨hw₂, hp₂⟩ := ih (extending_lowerStmt stmt s ho hfirst).2 hp₁ hrest
    exact ⟨hw₁.trans hw₂, hp₂⟩

/-! ### Statements -/

/-- The machine goes on behind the statements, where the scope is the one they leave. -/
def Continues (R : Running) (b : Builder) (inner : Scope) (_ : Unit) (σ : State) (f : Frame) : Prop :=
  At R.function b f ∧ Models R.final inner f.slots σ.locals

theorem tracks_lowerStmts_nil : Tracks R s (lowerStmts [] s) (R.setting.evalStmts []) (Continues R) := by
  intro b inner b' ho hp hm hgrows f callers σ r hat hmodels hr
  obtain ⟨rfl, rfl⟩ := yields_lowerStmts_nil.1 hm
  cases pure_eq_some.1 hr
  exact .here ⟨hat, hmodels⟩

theorem tracks_lowerStmts_cons {stmt : Stmt} {rest : List Stmt}
    (hfirst : Tracks R s (lowerStmt stmt s) (R.setting.evalStmt stmt) (Continues R))
    (hrest : ∀ s₁, Tracks R s₁ (lowerStmts rest s₁) (R.setting.evalStmts rest) (Continues R)) :
    Tracks R s (lowerStmts (stmt :: rest) s) (R.setting.evalStmts (stmt :: rest)) (Continues R) := by
  intro b inner b' ho hp hm hgrows f callers σ r hat hmodels hr
  obtain ⟨s₁, b₁, hm₁, hm₂⟩ := yields_lowerStmts_cons.1 hm
  obtain ⟨hw₁, hp₁⟩ := scope_lowerStmt ho hp hm₁
  obtain ⟨h₁, ho₁⟩ := extending_lowerStmt stmt s ho hm₁
  obtain ⟨h₂, -⟩ := extending_lowerStmts rest s₁ ho₁ hm₂
  refine Follows.bind (fun r hr => hfirst ho hp hm₁ (h₂.grows.trans hgrows) hat hmodels hr) hr
    fun _ σ₁ f₁ _ ⟨hat₁, hmodels₁⟩ hr₁ => ?_
  refine .outer hw₁ ?_
  exact ((hrest s₁).later ho₁ hp₁ hm₂ hgrows hat₁ hmodels₁ h₁.grows.temps hr₁).imp (Nat.le_refl _)
    fun _ _ _ _ h => h.2

/-- The variables of a block are gone when it ends. -/
theorem simulates_lowerBlock {stmts : List Stmt} {tail : Option Expr} (span : Span)
    (hstmts : Tracks R s (lowerStmts stmts s) (R.setting.evalStmts stmts) (Continues R))
    (htail : ∀ inner, Simulates R inner (lowerTail tail inner) (R.setting.evalTail tail)) :
    Simulates R s (lowerBlock ⟨stmts, tail, span⟩ s) (R.setting.evalBlock ⟨stmts, tail, span⟩) := by
  intro b v b' ho hp hm hgrows f callers σ r hat hmodels hr
  obtain ⟨inner, b₁, hm₁, hm₂⟩ := yields_lowerBlock.1 hm
  obtain ⟨hw₁, hp₁⟩ := scope_lowerStmts ho hp hm₁
  obtain ⟨h₁, ho₁⟩ := extending_lowerStmts stmts s ho hm₁
  obtain ⟨h₂, -⟩ := extending_lowerTail tail inner ho₁ hm₂
  refine Follows.within (Q := Arrives R inner b' v) hr hmodels.length_eq (fun r hr => ?_) ?_
  · refine Follows.bind (fun r hr => hstmts ho hp hm₁ (h₂.grows.trans hgrows) hat hmodels hr) hr
      fun _ σ₁ f₁ _ ⟨hat₁, hmodels₁⟩ hr₁ => ?_
    refine .outer hw₁ ?_
    exact (Tracks.later (htail inner) ho₁ hp₁ hm₂ hgrows hat₁ hmodels₁ h₁.grows.temps hr₁).imp
      (Nat.le_refl _) fun _ _ _ _ h => h.2
  · intro value σ₁ f₁ harr
    exact ⟨harr.position, hw₁.models harr.models, harr.value, harr.below⟩

theorem tracks_lowerStmt_bind (id : NodeId) (name : String) (ann : Option TypeAnn) {value : Option Expr}
    (isMutable : Bool) (span : Span)
    (h : ∀ e, value = some e → Simulates R s (lowerExpr e s) (R.setting.evalExpr e)) :
    Tracks R s (lowerStmt (.bind id name ann value isMutable span) s)
      (R.setting.evalStmt (.bind id name ann value isMutable span)) (Continues R) := by
  intro b inner b' ho hp hm hgrows f callers σ r hat hmodels hr
  obtain ⟨ty, u, ⟨t, ht, hty⟩, hinit, rfl⟩ := yields_lowerStmt_bind.1 hm
  obtain ⟨h₁, ho₁⟩ := extending_lowerInit value s _ (ho.addSlot ty) hinit
  have hslot : storage t = .ok (R.final.slotType ⟨b.slots.size⟩) := by
    rw [slotType_fresh (h₁.grows.trans hgrows), hty]
  obtain ⟨t', ht', hr⟩ := expect_bind_eq_some.1 hr
  cases ht.symm.trans ht'
  cases value with
  | none =>
    obtain ⟨-, rfl⟩ := yields_pure.1 hinit
    obtain ⟨locals, hlocals, rfl⟩ := change_eq_some.1
      (show Eval.change (fun locals => some (⟨name, t, none⟩ :: locals)) σ = some r from hr)
    cases hlocals
    exact ⟨f, .refl _, .refl b f, hat.addSlot ty, hmodels.declare hslot nofun⟩
  | some e =>
    obtain ⟨o, b₁, hm₁, rfl⟩ := yields_lowerInit_some.1 hinit
    obtain ⟨h₂, ho₂⟩ := extending_lowerExpr e s (ho.addSlot ty) hm₁
    have hgrows₂ := (Extends.emit ho₂ (.store ⟨b.slots.size⟩ o)).grows.trans hgrows
    have htemps := (Grows.addSlot b ty).temps
    refine Follows.bind (Q := fun value? σ f => ∃ value, value? = some value ∧ Arrives R s b₁ o value σ f)
      (fun r hr => ?_) hr fun value? σ₁ f₁ _ ⟨value, hvalue, harr⟩ hr₁ => ?_
    · refine Follows.bind (fun r hr => (h e rfl).later (ho.addSlot ty) (hp.grows (by simp)) hm₁ hgrows₂
        (hat.addSlot ty) hmodels htemps hr) hr fun value σ₁ f₁ _ ⟨_, harr⟩ hr₁ => ?_
      cases pure_eq_some.1 hr₁
      exact .here ⟨value, rfl, harr⟩
    · subst hvalue
      obtain ⟨locals, hlocals, rfl⟩ := change_eq_some.1 hr₁
      cases hlocals
      obtain ⟨f₂, hl, hs, hat₂, hmodels₂⟩ := leads_declare callers σ₁.world harr.position ho₂ harr.models hgrows
        harr.value hp.not_mem hslot name
      exact ⟨f₂, hl, hs b, hat₂, hmodels₂⟩

theorem tracks_lowerStmt_assign (target : String) (span : Span) {value : Expr}
    (h : Simulates R s (lowerExpr value s) (R.setting.evalExpr value)) :
    Tracks R s (lowerStmt (.assign target value span) s) (R.setting.evalStmt (.assign target value span))
      (Continues R) := by
  intro b inner b' ho hp hm hgrows f callers σ r hat hmodels hr
  obtain ⟨o, b₁, slot, hm₁, hslot, hinner, rfl⟩ := yields_lowerStmt_assign.1 hm
  subst inner
  obtain ⟨h₁, ho₁⟩ := extending_lowerExpr value s ho hm₁
  refine Follows.bind (fun r hr => h ho hp hm₁ ((Extends.emit ho₁ _).grows.trans hgrows) hat hmodels hr)
    hr fun a σ₁ f₁ _ harr hr₁ => ?_
  obtain ⟨locals, hupdate, rfl⟩ := change_eq_some.1 hr₁
  obtain ⟨slot', l, new, hslot', hnew, -, -, hmodels'⟩ := harr.models.update hp.nodup hupdate
  cases hslot.symm.trans hslot'
  cases hnew
  have he : Instr.effect? f₁ σ₁.world (.store slot o) = some (.assign slot a, σ₁.world) := by
    simp [Instr.effect?, harr.value]
  obtain ⟨hl, hat'⟩ := leads_store harr.position ho₁ R.realizes hgrows he
  exact ⟨_, hl, .setSlot b f₁ slot a, hat', hmodels'⟩

theorem tracks_lowerStmt_assignField (base : String) (fields : List String) (span : Span) {value : Expr}
    (h : Simulates R s (lowerExpr value s) (R.setting.evalExpr value)) :
    Tracks R s (lowerStmt (.assignField base fields value span) s)
      (R.setting.evalStmt (.assignField base fields value span)) (Continues R) := by
  intro b inner b' ho hp hm hgrows f callers σ r hat hmodels hr
  obtain ⟨o, b₁, slot, path, last, hm₁, hslot, hpath, hinner, rfl⟩ := yields_lowerStmt_assignField.1 hm
  subst inner
  obtain ⟨h₁, ho₁⟩ := extending_lowerExpr value s ho hm₁
  have hgrows₁ := (Extends.emit ho₁ (.storeField slot path o)).grows.trans hgrows
  refine Follows.bind (fun r hr => h ho hp hm₁ hgrows₁ hat hmodels hr) hr fun a σ₁ f₁ _ harr hr₁ => ?_
  obtain ⟨locals, hupdate, rfl⟩ := change_eq_some.1 hr₁
  obtain ⟨slot', l, new, hslot', hnew, hty, hold, hmodels'⟩ := harr.models.update hp.nodup hupdate
  cases hslot.symm.trans hslot'
  obtain ⟨indices, hindices, hnew⟩ := Option.bind_eq_some_iff.1 hnew
  obtain ⟨old, hvalue, hnew⟩ := Option.bind_eq_some_iff.1 hnew
  -- the slot has the type that was recorded for the variable
  have hlt : slot.index < b₁.slots.size := by
    obtain ⟨before, after, hlocals, -⟩ := List.lookup_eq_some_iff.1 hslot
    refine Nat.lt_of_lt_of_le (hp.lt (base, slot) ?_) h₁.grows.slots_le
    rw [hlocals]
    simp
  rw [← hgrows₁.slotType hlt] at hpath
  obtain rfl := hpath.fieldPath? R.layouts hty hindices
  have he : Instr.effect? f₁ σ₁.world (.storeField slot path o) = some (.assign slot new, σ₁.world) := by
    simp [Instr.effect?, harr.value, hold old hvalue, hnew]
  obtain ⟨hl, hat'⟩ := leads_store harr.position ho₁ R.realizes hgrows he
  exact ⟨_, hl, .setSlot b f₁ slot new, hat', hmodels'⟩

theorem Simulates.dropped {m : Lower Operand} {e : Eval Value} (h : Simulates R s m e) :
    Tracks R s (m >>= fun _ => pure s) (e >>= fun _ => pure ()) (Continues R) := by
  intro b inner b' ho hp hm hgrows f callers σ r hat hmodels hr
  obtain ⟨o, hm₁, hinner⟩ := yields_bind_pure.1 hm
  subst inner
  refine Follows.bind (fun r hr => h ho hp hm₁ hgrows hat hmodels hr) hr fun a σ₁ f₁ _ harr hr₁ => ?_
  cases pure_eq_some.1 hr₁
  exact .here ⟨harr.position, harr.models⟩

theorem tracks_lowerStmt_cond {choice : Conditional}
    (h : TracksBranches R s none (lowerConditional choice s none) (R.setting.evalConditional choice)) :
    Tracks R s (lowerStmt (.cond choice) s) (R.setting.evalStmt (.cond choice)) (Continues R) := by
  intro b inner b' ho hp hm hgrows f callers σ r hat hmodels hr
  obtain ⟨o, hm₁, hinner⟩ := yields_lowerStmt_cond.1 hm
  subst inner
  refine Follows.bind (fun r hr => h ho hp nofun hm₁ hgrows hat hmodels hr fun _ hne => absurd rfl hne) hr
    fun a σ₁ f₁ _ ⟨harr, _⟩ hr₁ => ?_
  cases pure_eq_some.1 hr₁
  exact .here ⟨harr.position, harr.models⟩

/-! ### Leaving -/

theorem tracks_lowerStmt_ret (span : Span) {value : Option Expr}
    (h : Simulates R s (lowerTail value s) (R.setting.evalTail value)) :
    Tracks R s (lowerStmt (.ret value span) s) (R.setting.evalStmt (.ret value span)) (Continues R) := by
  intro b inner b' ho hp hm hgrows f callers σ r hat hmodels hr
  obtain ⟨o, b₁, hm₁, hinner, rfl⟩ := yields_lowerStmt_ret.1 hm
  obtain ⟨h₁, ho₁⟩ := extending_lowerTail value s ho hm₁
  have hgrows₁ := ((Grows.addBlock _).trans (Grows.switchTo _ _)).trans hgrows
  refine Follows.bind (fun r hr => h ho hp hm₁ ((Grows.terminate ho₁ _).trans hgrows₁) hat hmodels hr) hr
    fun a σ₁ f₁ _ harr hr₁ => ?_
  cases hr₁
  refine Leads.single ?_
  rw [step_terminate harr.position ho₁ R.realizes hgrows₁]
  simp [Machine.leave?, harr.value]

theorem jumps_leave {targets : LoopTargets} (hloop : s.loop = some targets) (ho : b.Open)
    {target : LoopTargets → BlockId} (hgrows : Grows (b.leave (.jump (target targets))) R.final)
    (hat : At R.function b f) (hmodels : Models R.final s f.slots σ.locals) :
    Jumps R s b ⟨f, callers, σ.world⟩ target σ := by
  have hgrows₁ := ((Grows.addBlock _).trans (Grows.switchTo _ _)).trans hgrows
  obtain ⟨hl, hstart⟩ := leads_jump hat ho R.realizes hgrows₁
  refine ⟨targets, _, hloop, hl, .jump b f _, hstart, ?_⟩
  rw [State.trim, hmodels.length_eq, Nat.sub_self, List.drop_zero]
  exact hmodels

theorem tracks_lowerStmt_brk (span : Span) :
    Tracks R s (lowerStmt (.brk span) s) (R.setting.evalStmt (.brk span)) (Continues R) := by
  intro b inner b' ho hp hm hgrows f callers σ r hat hmodels hr
  obtain ⟨targets, hloop, -, rfl⟩ := yields_lowerStmt_brk.1 hm
  cases hr
  exact jumps_leave hloop ho hgrows hat hmodels

theorem tracks_lowerStmt_cont (span : Span) :
    Tracks R s (lowerStmt (.cont span) s) (R.setting.evalStmt (.cont span)) (Continues R) := by
  intro b inner b' ho hp hm hgrows f callers σ r hat hmodels hr
  obtain ⟨targets, hloop, -, rfl⟩ := yields_lowerStmt_cont.1 hm
  cases hr
  exact jumps_leave hloop ho hgrows hat hmodels

/-! ### Loops -/

variable {body : Block}

/-- A block leaves no variables behind, however it ends. -/
theorem trim_of_evalBlock {result : Except Exit Value} {σ' : State}
    (h : R.setting.evalBlock body σ = some (result, σ')) : σ'.trim σ.locals.length = σ' := by
  obtain ⟨stmts, tail, span⟩ := body
  have h : Eval.within [] (do R.setting.evalStmts stmts; R.setting.evalTail tail) σ = some (result, σ') := h
  unfold Eval.within at h
  split at h
  · cases h
    exact trim_trim _ (Nat.le_refl _)
  · cases h

abbrev loopScope (s : Scope) (head after : BlockId) : Scope := { s with loop := some ⟨head, after⟩ }

/-- Where control is between two rounds of a loop. -/
structure Turns (R : Running) (s : Scope) (head after : BlockId) (again : Bool) (σ : State) (f : Frame) :
    Prop where
  starts : Starts R.function (if again then head else after) f
  models : Models R.final s f.slots σ.locals

theorem Follows.round {head after : BlockId} {b₁ b₂ : Builder} (ho : b₁.Open) (hp : Placed s b₁)
    (h : Simulates R (loopScope s head after) (lowerBlock body (loopScope s head after))
      (R.setting.evalBlock body)) (hm : Yields (lowerBlock body (loopScope s head after)) R.ctx b₁ v b₂)
    (hgrows : Grows (b₂.endLoop head after) R.final) (hat : At R.function b₁ f)
    (hmodels : Models R.final s f.slots σ.locals) (hle : b.temps.size ≤ b₁.temps.size)
    {r : Except Exit Bool × State} (hr : Eval.round (R.setting.evalBlock body) σ = some r) :
    Follows R s b ⟨f, callers, σ.world⟩ (Turns R s head after) r := by
  obtain ⟨h₂, ho₂⟩ := extending_lowerBlock body _ ho hm
  have hgrows₁ := (Grows.switchTo _ after).trans hgrows
  have hlength := hmodels.length_eq
  unfold Eval.round at hr
  have hfollows : ∀ r, R.setting.evalBlock body σ = some r → Follows R (loopScope s head after) b
      ⟨f, callers, σ.world⟩ (Arrives R (loopScope s head after) b₂ v) r := fun r hr =>
    (h ho ⟨hp.lt, hp.nodup⟩ hm ((Grows.terminate ho₂ _).trans hgrows₁) hat hmodels hr).imp hle fun _ _ _ _ h => h
  split at hr
  · rename_i value σ₁ heq
    cases hr
    obtain ⟨f₁, hl, hs, harr⟩ := hfollows _ heq
    obtain ⟨hl', hstart⟩ := leads_jump harr.position ho₂ R.realizes hgrows₁
    exact ⟨_, hl.trans hl', hs.trans (.jump b f₁ head), hstart, harr.models⟩
  · rename_i σ₁ heq
    cases hr
    obtain ⟨targets, f₁, htargets, hl, hs, hstart, hmodels₁⟩ := hfollows _ heq
    cases htargets
    rw [← hlength, trim_of_evalBlock heq] at hmodels₁
    exact ⟨f₁, hl, hs, hstart, hmodels₁⟩
  · rename_i σ₁ heq
    cases hr
    obtain ⟨targets, f₁, htargets, hl, hs, hstart, hmodels₁⟩ := hfollows _ heq
    cases htargets
    rw [← hlength, trim_of_evalBlock heq] at hmodels₁
    exact ⟨f₁, hl, hs, hstart, hmodels₁⟩
  · rename_i x σ₁ hcont hbrk heq
    cases hr
    cases x with
    | brk => exact (hbrk rfl).elim
    | cont => exact (hcont rfl).elim
    | ret value | fail failure => exact hfollows _ heq
  · cases hr

/-- The rounds of a loop, from the block of its condition on. -/
theorem Follows.loop {condition : Expr} {head inside after : BlockId} {b₁ b₂ : Builder} {c : Operand}
    (hcondition : Simulates R s (lowerExpr condition s) (R.setting.evalExpr condition))
    (hbody : ∀ s, Simulates R s (lowerBlock body s) (R.setting.evalBlock body)) (ho : b₀.Open) (hp : Placed s b₀)
    (hhead : ∀ f, Starts R.function head f → At R.function b₀ f)
    (hm₁ : Yields (lowerExpr condition s) R.ctx b₀ c b₁) (hinside : Reserved b₁ inside)
    (hm₂ : Yields (lowerBlock body (loopScope s head after)) R.ctx (b₁.enterBody c inside after) v b₂)
    (hgrows : Grows (b₂.endLoop head after) R.final) (hle : b.temps.size ≤ b₀.temps.size) (n : Nat)
    (hstart : Starts R.function head f) (hmodels : Models R.final s f.slots σ.locals) {r : Except Exit Unit × State}
    (hr : Eval.loop n (R.setting.evalExpr condition) (R.setting.evalBlock body) σ = some r) :
    Follows R s b ⟨f, callers, σ.world⟩ (fun _ => Turns R s head after false) r := by
  obtain ⟨h₁, ho₁⟩ := extending_lowerExpr condition s ho hm₁
  have hopen : (b₁.enterBody c inside after).Open := (hinside.terminate ho₁ _).open_switchTo
  obtain ⟨h₂, ho₂⟩ := extending_lowerBlock body _ hopen hm₂
  have hgrows₂ := ((Grows.terminate ho₂ (.jump head)).trans (Grows.switchTo _ after)).trans hgrows
  have hgrows₁ := ((Grows.switchTo _ inside).trans h₂.grows).trans hgrows₂
  have hle₁ := Nat.le_trans hle h₁.grows.temps
  induction n generalizing f σ with
  | zero => cases hr
  | succ n ih =>
    refine Follows.bind (fun r hr => hcondition.later ho hp hm₁ ((Grows.terminate ho₁ _).trans hgrows₁)
      (hhead f hstart) hmodels hle hr) hr fun a σ₁ f₁ _ ⟨_, harr⟩ hr₁ => ?_
    cases a with
    | bool holds =>
      obtain ⟨hl, hstart₁⟩ := leads_branch harr.position ho₁ R.realizes hgrows₁ harr.value
      refine Follows.after hl (.jump b f₁ _) ?_
      cases holds with
      | false =>
        cases pure_eq_some.1 hr₁
        exact .here ⟨hstart₁, harr.models⟩
      | true =>
        refine Follows.bind (fun r hr => Follows.round hopen ?_ (hbody _) hm₂ hgrows
          (hstart₁.at_switchTo (hinside.terminate ho₁ _)) harr.models hle₁ hr) hr₁
          fun again σ₂ f₂ _ hturns hr₂ => ?_
        · exact hp.grows h₁.grows.slots_le
        · cases again with
          | true => exact ih hturns.starts hturns.models hr₂
          | false =>
            cases pure_eq_some.1 hr₂
            exact .here hturns
    | _ => cases hr₁

/-- **A loop is followed**, round by round. -/
theorem tracks_lowerStmt_loop (span : Span) {condition : Expr}
    (hcondition : Simulates R s (lowerExpr condition s) (R.setting.evalExpr condition))
    (hbody : ∀ s, Simulates R s (lowerBlock body s) (R.setting.evalBlock body)) :
    Tracks R s (lowerStmt (.loop condition body span) s) (R.setting.evalStmt (.loop condition body span))
      (Continues R) := by
  intro b inner b' ho hp hm hgrows f callers σ r hat hmodels hr
  obtain ⟨c, b₁, o, b₂, hm₁, hm₂, hinner, rfl⟩ := yields_lowerStmt_loop.1 hm
  subst inner
  obtain ⟨⟨-, ho₀⟩, hhead, -, -⟩ := ho.addBlocks
  obtain ⟨⟨h₁, ho₁⟩, hinside, hafter⟩ := ho.enterLoop
  obtain ⟨h₂, ho₂⟩ := extending_lowerExpr condition s ho₁ hm₁
  have hopen : (b₁.enterBody c ⟨b.blocks.size + 1⟩ ⟨b.blocks.size + 2⟩).Open :=
    ((hinside.kept h₂).terminate ho₂ _).open_switchTo
  obtain ⟨h₃, ho₃⟩ := extending_lowerBlock body _ hopen hm₂
  have hafter₃ := (((hafter.kept h₂).enter ho₂ _ (k := ⟨b.blocks.size + 1⟩) (by simp)).kept h₃).terminate
    ho₃ (.jump ⟨b.blocks.size⟩)
  have hbody₂ := ((Grows.terminate ho₂ _).trans (Grows.switchTo _ ⟨b.blocks.size + 1⟩)).trans h₃.grows
  have hgrows₁ := (h₂.grows.trans hbody₂).trans
    (((Grows.terminate ho₃ (.jump ⟨b.blocks.size⟩)).trans (Grows.switchTo _ _)).trans hgrows)
  obtain ⟨hl, hstart⟩ := leads_jump hat.addBlock.addBlock.addBlock ho₀ R.realizes
    ((Grows.switchTo _ ⟨b.blocks.size⟩).trans hgrows₁)
  refine Follows.after hl (.jump b f _) ?_
  refine Follows.next (Follows.loop hcondition hbody ho₁ (hp.grows h₁.grows.slots_le)
    (fun f hf => hf.at_switchTo (hhead.terminate ho₀ _)) hm₁ (hinside.kept h₂) hm₂ hgrows h₁.grows.temps _ hstart
    hmodels hr) fun _ σ₁ f₁ _ hturns => .here ⟨hturns.starts.at_switchTo hafter₃, hturns.models⟩

/-! ### The recursion -/

section Recursion

variable (R : Running)

mutual

/-- **The code of an expression follows its run.** -/
theorem simulates_lowerExpr : ∀ (e : Expr) (s : Scope), Simulates R s (lowerExpr e s) (R.setting.evalExpr e)
  | ⟨id, .literal value, _⟩, _ => simulates_lowerLiteral id value
  | ⟨id, .path path, _⟩, _ => simulates_lowerPath id path
  | ⟨id, .unary op operand, _⟩, s =>
    simulates_lowerUnary id op (extending_lowerExpr operand s) (simulates_lowerExpr operand s)
  | ⟨_, .binary (.logic op) left right, _⟩, s =>
    simulates_lowerLogic op (extending_lowerExpr left s) (extending_lowerExpr right s)
      (simulates_lowerExpr left s) (simulates_lowerExpr right s)
  | ⟨id, .binary (.compare _) left right, _⟩, s =>
    simulates_lowerEager id (extending_lowerExpr left s) (extending_lowerExpr right s)
      (simulates_lowerExpr left s) (simulates_lowerExpr right s) compare_eq_some
  | ⟨id, .binary (.arith _) left right, _⟩, s =>
    simulates_lowerEager id (extending_lowerExpr left s) (extending_lowerExpr right s)
      (simulates_lowerExpr left s) (simulates_lowerExpr right s) arith_eq_some
  | ⟨id, .cast operand _, _⟩, s =>
    simulates_lowerCast id (extending_lowerExpr operand s) (simulates_lowerExpr operand s)
  | ⟨id, .call callee args, _⟩, s => simulates_lowerCall id callee (parts_exprParts args s)
  | ⟨id, .member base name _, _⟩, s =>
    simulates_lowerMember id name (extending_lowerExpr base s) (simulates_lowerExpr base s)
  | ⟨id, .record _ fields, _⟩, s =>
    simulates_lowerRecord id (extending_lowerFields fields s) (tracks_lowerFields fields s)
  | ⟨id, .select scrutinee arms, _⟩, s =>
    simulates_lowerSelect id (extending_lowerExpr scrutinee s) (simulates_lowerExpr scrutinee s)
      (tracks_armParts arms)
  | ⟨id, .cond choice, _⟩, s => simulates_conditional id (tracks_conditional choice s)
  | ⟨_, .block body, _⟩, s => simulates_block body s

theorem parts_exprParts : ∀ (args : List Expr) (s : Scope), Parts R s (exprParts args s) (R.setting.evalArgs args)
  | [], _ => .nil
  | e :: rest, s =>
    .cons ⟨rfl, extending_lowerExpr e s, simulates_lowerExpr e s⟩ (parts_exprParts rest s)

theorem tracks_lowerFields : ∀ (fields : List FieldInit) (s : Scope),
    Tracks R s (lowerFields fields s) (R.setting.evalFields fields) (ArrivesAll HasField R s)
  | [], _ => .nil HasField
  | ⟨_, value, _⟩ :: rest, s =>
    .cons (fun _ _ _ h => ⟨rfl, h⟩) (extending_lowerExpr value s) (simulates_lowerExpr value s)
      (extending_lowerFields rest s) (tracks_lowerFields rest s)

theorem tracks_armParts : ∀ (arms : List Arm), List.Forall₂ (ArmTracks R) (armParts arms) (R.setting.evalArms arms)
  | [] => .nil
  | ⟨_, body, _⟩ :: rest =>
    .cons ⟨rfl, extending_lowerExpr body, simulates_lowerExpr body⟩ (tracks_armParts rest)

theorem tracks_conditional : ∀ (choice : Conditional) (s : Scope) (result : Option SlotId),
    TracksBranches R s result (lowerConditional choice s result) (R.setting.evalConditional choice)
  | ⟨condition, thenBlock, otherwise, span⟩, s, result =>
    tracks_lowerConditional span (simulates_lowerExpr condition s) (simulates_block thenBlock s)
      (tracks_else otherwise s result)

theorem tracks_else : ∀ (otherwise : ElseBranch) (s : Scope) (result : Option SlotId),
    TracksElse R s result otherwise
  | .absent, _, result => tracks_else_absent result
  | .block body, s, result => tracks_else_block result (simulates_block body s)
  | .elseIf choice, s, result => tracks_else_elseIf (tracks_conditional choice s result)

theorem simulates_block : ∀ (body : Block) (s : Scope), Simulates R s (lowerBlock body s) (R.setting.evalBlock body)
  | ⟨stmts, tail, span⟩, s =>
    simulates_lowerBlock span (tracks_lowerStmts stmts s) (simulates_lowerTail tail)

theorem simulates_lowerTail : ∀ (tail : Option Expr) (s : Scope),
    Simulates R s (lowerTail tail s) (R.setting.evalTail tail)
  | none, _ => by
    intro b v b' ho hp hm hgrows f callers σ r hat hmodels hr
    obtain ⟨rfl, rfl⟩ := yields_pure.1 hm
    cases Source.Eval.pure_eq_some.1 hr
    exact .here ⟨hat, hmodels, rfl, trivial⟩
  | some e, s => simulates_lowerExpr e s

theorem tracks_lowerStmts : ∀ (stmts : List Stmt) (s : Scope),
    Tracks R s (lowerStmts stmts s) (R.setting.evalStmts stmts) (Continues R)
  | [], _ => tracks_lowerStmts_nil
  | stmt :: rest, s => tracks_lowerStmts_cons (tracks_lowerStmt stmt s) (tracks_lowerStmts rest)

theorem tracks_lowerStmt : ∀ (stmt : Stmt) (s : Scope),
    Tracks R s (lowerStmt stmt s) (R.setting.evalStmt stmt) (Continues R)
  | .bind id name ann none isMutable span, _ =>
    tracks_lowerStmt_bind id name ann isMutable span nofun
  | .bind id name ann (some e) isMutable span, s =>
    tracks_lowerStmt_bind id name ann isMutable span fun _ h => Option.some.inj h ▸ simulates_lowerExpr e s
  | .assign target value span, s => tracks_lowerStmt_assign target span (simulates_lowerExpr value s)
  | .assignField base fields value span, s =>
    tracks_lowerStmt_assignField base fields span (simulates_lowerExpr value s)
  | .expr e, s => (simulates_lowerExpr e s).dropped
  | .ret value span, s => tracks_lowerStmt_ret span (simulates_lowerTail value s)
  | .cond choice, s => tracks_lowerStmt_cond (tracks_conditional choice s none)
  | .loop condition body span, s =>
    tracks_lowerStmt_loop span (simulates_lowerExpr condition s) (simulates_block body)
  | .brk span, _ => tracks_lowerStmt_brk span
  | .cont span, _ => tracks_lowerStmt_cont span
  | .block body, s => (simulates_block body s).dropped

end

end Recursion

end Keel.Lowering
