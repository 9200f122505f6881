/-
# Branches are followed

Control parts and comes together again in a common block, where the slot for results has
what the branch that was taken gave (`Joins`).  A branch may have variables of its own:
outside, they are gone (`Follows.outer`).

The rules for `&&` and `||`, for `if` and for `match` are about branches.
-/
import Keel.Proofs.Lowering.Simulation.Expr

namespace Keel.Lowering

open Ir (Operand Instr BlockId TempId SlotId Frame Machine Leads)
open Source (Local State Exit Eval)
open Source.Eval (pure_eq_some expect_bind_eq_some)

variable {R : Running} {s inner : Scope} {b b₀ b' : Builder} {v : Operand} {f : Frame}
  {callers : List (Frame × TempId)} {σ : State} {α : Type}

/-! ### Scopes -/

structure Widens (s inner : Scope) : Prop where
  locals : ∃ new, inner.locals = new ++ s.locals
  loop : inner.loop = s.loop

namespace Widens

theorem refl (s : Scope) : Widens s s := ⟨⟨[], rfl⟩, rfl⟩

theorem trans {innermost : Scope} (h : Widens s inner) (h' : Widens inner innermost) : Widens s innermost := by
  obtain ⟨⟨new, hnew⟩, hloop⟩ := h
  obtain ⟨⟨new', hnew'⟩, hloop'⟩ := h'
  exact ⟨⟨new' ++ new, by rw [hnew', hnew, List.append_assoc]⟩, hloop'.trans hloop⟩

theorem declare (s : Scope) (name : String) (slot : SlotId) : Widens s (s.declare name slot) :=
  ⟨⟨[(name, slot)], rfl⟩, rfl⟩

/-- The variables of the outer scope are the oldest ones. -/
theorem models (h : Widens s inner) {final : Builder} {slots : SlotId → Option Value}
    (hmodels : Models final inner slots σ.locals) : Models final s slots (σ.trim s.locals.length).locals := by
  obtain ⟨new, hnew⟩ := h.locals
  exact hmodels.trim hnew

theorem length_le (h : Widens s inner) : s.locals.length ≤ inner.locals.length := by
  obtain ⟨new, hnew⟩ := h.locals
  simp [hnew]

end Widens

theorem trim_trim (σ : State) {n m : Nat} (h : n ≤ m) : (σ.trim m).trim n = σ.trim n := by
  simp only [State.trim, List.drop_drop, List.length_drop, State.mk.injEq, and_true]
  congr 1
  omega

variable {m : Machine} {result : Option SlotId}

theorem Follows.outer {Q : α → State → Frame → Prop} {r : Except Exit α × State} (hinner : Widens s inner)
    (h : Follows R inner b m Q r) : Follows R s b m Q r := by
  refine h.carry (fun _ _ => id) ?_ rfl id
  rintro target σ ⟨targets, f, hloop, hl, hs, hstart, hmodels⟩
  refine ⟨targets, f, hinner.loop.symm.trans hloop, hl, hs, hstart, ?_⟩
  rw [← trim_trim σ hinner.length_le]
  exact hinner.models hmodels

theorem Follows.within {Q Q' : α → State → Frame → Prop} {e : Eval α} {declared : List Local}
    {r : Except Exit α × State} (hr : Eval.within declared e σ = some r)
    (hlength : σ.locals.length = s.locals.length)
    (h : ∀ r, e { σ with locals := declared ++ σ.locals } = some r → Follows R s b m Q r)
    (hQ : ∀ a σ f, Q a σ f → Q' a (σ.trim s.locals.length) f) : Follows R s b m Q' r := by
  unfold Eval.within at hr
  split at hr
  · rename_i result σ₁ heq
    have hfollows := h _ heq
    cases hr
    rw [hlength]
    have hjumps : ∀ target, Jumps R s b m target σ₁ → Jumps R s b m target (σ₁.trim s.locals.length) := by
      rintro target ⟨targets, f, hloop, hl, hs, hstart, hmodels⟩
      refine ⟨targets, f, hloop, hl, hs, hstart, ?_⟩
      rwa [trim_trim σ₁ (Nat.le_refl _)]
    match result, hfollows with
    | .ok a, ⟨f, hl, hs, hq⟩ => exact ⟨f, hl, hs, hQ a σ₁ f hq⟩
    | .error .brk, h | .error .cont, h => exact hjumps _ h
    | .error (.ret value), h | .error (.fail failure), h => exact h
  · cases hr

/-! ### Branches -/

def InSlot (result : Option SlotId) (value : Value) (f : Frame) : Prop :=
  ∀ slot, result = some slot → f.slots slot = some value

/-- What comes out of branches: the value that one of them gave, if it is kept. -/
def given (result : Option SlotId) (value : Value) : Value :=
  match result with
  | some _ => value
  | none => .unit

structure Joins (R : Running) (s : Scope) (result : Option SlotId) (join : BlockId) (value : Value)
    (σ : State) (f : Frame) : Prop where
  starts : Starts R.function join f
  models : Models R.final s f.slots σ.locals
  inSlot : InSlot result value f

/-- No variable has the slot for results. -/
def Apart (s : Scope) (result : Option SlotId) : Prop :=
  ∀ slot, result = some slot → slot ∉ s.locals.map Prod.snd

theorem Follows.endBranch {join : BlockId} {value : Value} (harr : Arrives R s b v value σ f) (ho : b.Open)
    (hresult : Apart s result) (hgrows : Grows (b.endBranch result v join) R.final) :
    Follows R s b₀ ⟨f, callers, σ.world⟩ (Joins R s result join) (.ok value, σ) := by
  cases result with
  | none =>
    obtain ⟨hl, hstart⟩ := leads_jump harr.position ho R.realizes hgrows
    exact ⟨_, hl, .jump b₀ f join, hstart, harr.models, fun _ h => by cases h⟩
  | some slot =>
    have he : Instr.effect? f σ.world (.store slot v) = some (.assign slot value, σ.world) := by
      simp [Instr.effect?, harr.value]
    obtain ⟨hl, hat'⟩ := leads_store harr.position ho R.realizes ((Grows.terminate (ho.emit _) _).trans hgrows) he
    obtain ⟨hl', hstart⟩ := leads_jump hat' (ho.emit _) R.realizes hgrows
    refine ⟨_, hl.trans hl', (Stays.setSlot b₀ f slot value).trans (.jump b₀ _ join), hstart,
      harr.models.setSlot (hresult slot rfl), ?_⟩
    rintro _ ⟨⟩
    exact if_pos rfl

theorem Follows.resume {join : BlockId} {value : Value} (h : Joins R s result join value σ f)
    (hjoin : Reserved b join) (hgrows : Grows (b.resume result join) R.final) (hle : b₀.temps.size ≤ b.temps.size) :
    Follows R s b₀ ⟨f, callers, σ.world⟩
      (fun value σ f => Arrives R s (b.resume result join) (b.resultOf result) (given result value) σ f ∧
        InSlot result value f)
      (.ok value, σ) := by
  have hat := h.starts.at_switchTo hjoin
  cases result with
  | none => exact .here ⟨⟨hat, h.models, rfl, trivial⟩, h.inSlot⟩
  | some slot =>
    have he : Instr.effect? f σ.world (.load ⟨b.temps.size⟩ slot) =
        some (.define ⟨b.temps.size⟩ value, σ.world) := by
      simp [Instr.effect?, h.inSlot slot rfl]
    obtain ⟨hl, hat'⟩ := leads_define (i := fun dest => .load dest slot) hat hjoin.open_switchTo
      R.realizes hgrows he
    refine ⟨_, hl, .setTemp hle f value, ⟨hat', h.models, if_pos rfl, ?_⟩, h.inSlot⟩
    show b.temps.size < ((b.switchTo join).define _ _).temps.size
    simp

/-- The branch on the left side of `&&` or `||`: if it decides, control goes to the common
block with the result, and else to the right side. -/
theorem leads_shortcut {g : Ir.Function} {final : Builder} (ir : Ir.Program)
    (callers : List (Frame × TempId)) (w : World) (hat : At g b f) (ho : b.Open) (hg : Realizes g final)
    {op : LogicOp} {result : SlotId} (hgrows : Grows (b.shortcut op v result) final) {holds : Bool}
    (hv : f.value? v = some (.bool holds)) : if holds = (op == .or) then
      ∃ f', Leads ir ⟨f, callers, w⟩ (.go ⟨f', callers, w⟩) ∧ Starts g ⟨b.blocks.size + 2⟩ f' ∧
        Stays b f f' ∧ f'.slots = fun t => if t = result then some (.bool holds) else f.slots t
    else
      Leads ir ⟨f, callers, w⟩ (.go ⟨f.jump ⟨b.blocks.size⟩, callers, w⟩) ∧
        At g (b.shortcut op v result) (f.jump ⟨b.blocks.size⟩) := by
  obtain ⟨⟨-, ho₁⟩, hright, hshort, -⟩ := ho.addBlocks
  let t := branchOnLeft op v ⟨b.blocks.size⟩ ⟨b.blocks.size + 1⟩
  -- the code of the short way: from the start of its block to its end
  have ho₂ := (hshort.terminate ho₁ t).open_switchTo
  have ho₃ := ho₂.emit (.store result (.bool (op == .or)))
  have hgrows₄ := (Grows.switchTo _ ⟨b.blocks.size⟩).trans hgrows
  have hgrows₃ := (Grows.terminate ho₃ (.jump ⟨b.blocks.size + 2⟩)).trans hgrows₄
  have hgrows₁ := ((Grows.switchTo _ _).trans (.emit ho₂ _)).trans hgrows₃
  have hbranch : Leads ir ⟨f, callers, w⟩ (.go ⟨f.jump (if holds = (op == .or) then
      ⟨b.blocks.size + 1⟩ else ⟨b.blocks.size⟩), callers, w⟩) ∧
        Starts g (if holds = (op == .or) then ⟨b.blocks.size + 1⟩ else ⟨b.blocks.size⟩)
          (f.jump (if holds = (op == .or) then ⟨b.blocks.size + 1⟩ else ⟨b.blocks.size⟩)) := by
    have hat₁ := hat.addBlock.addBlock.addBlock
    cases op <;> cases holds <;> exact leads_branch hat₁ ho₁ hg hgrows₁ hv
  split
  · rename_i hdecided
    rw [if_pos hdecided] at hbranch
    obtain ⟨hl₁, hstart₁⟩ := hbranch
    have hat₂ := hstart₁.at_switchTo (hshort.terminate ho₁ t)
    have he : Instr.effect? (f.jump ⟨b.blocks.size + 1⟩) w (.store result (.bool (op == .or))) =
        some (.assign result (.bool holds), w) := by
      rw [hdecided]
      rfl
    obtain ⟨hl₂, hat₃⟩ := leads_store hat₂ ho₂ hg hgrows₃ he
    obtain ⟨hl₃, hstart⟩ := leads_jump hat₃ ho₃ hg hgrows₄
    exact ⟨_, (hl₁.trans hl₂).trans hl₃, hstart, ⟨rfl, fun _ _ => rfl⟩, rfl⟩
  · rename_i hdecided
    rw [if_neg hdecided] at hbranch
    have hres := ((hright.enter ho₁ t (k := ⟨b.blocks.size + 1⟩) (by simp)).kept
      (.emit ho₂ (.store result (.bool (op == .or))))).terminate ho₃ (.jump ⟨b.blocks.size + 2⟩)
    exact ⟨hbranch.1, hbranch.2.at_switchTo hres⟩

/-- A slot that was made after those of the variables is none of them. -/
theorem Placed.not_mem (h : Placed s b) : (⟨b.slots.size⟩ : SlotId) ∉ s.locals.map Prod.snd := by
  intro hmem
  obtain ⟨p, hp, heq⟩ := List.mem_map.1 hmem
  have := h.lt p hp
  rw [heq] at this
  exact Nat.lt_irrefl _ this

theorem simulates_lowerLogic (op : LogicOp) {left right : Lower Operand} {l r : Eval Value}
    (hextl : Extending left) (hextr : Extending right) (hleft : Simulates R s left l)
    (hright : Simulates R s right r) : Simulates R s (lowerLogic op left right) (Source.Setting.logic op l r) := by
  intro b v b' ho hp hm hgrows f callers σ res hat hmodels hr
  obtain ⟨o₁, b₁, o₂, b₂, hm₁, hm₂, rfl, rfl⟩ := yields_lowerLogic.1 hm
  obtain ⟨h₁, ho₁⟩ := hextl (ho.addSlot .bool) hm₁
  obtain ⟨⟨h₂, ho₂⟩, hjoin⟩ := ho₁.shortcut op o₁ ⟨b.slots.size⟩
  obtain ⟨h₃, ho₃⟩ := hextr ho₂ hm₂
  have h₄ := Extends.endBranch ho₃ (some ⟨b.slots.size⟩) o₂ ⟨b₁.blocks.size + 2⟩
  have hjoin₄ := (hjoin.kept h₃).kept h₄
  -- everything that is written on the way is in the finished function
  have hgrows₄ : Grows (b₂.endBranch (some ⟨b.slots.size⟩) o₂ ⟨b₁.blocks.size + 2⟩) R.final :=
    ((Grows.switchTo _ _).trans (hjoin₄.open_switchTo.loadResult (some ⟨b.slots.size⟩)).1.grows).trans hgrows
  have hgrows₃ := h₄.grows.trans hgrows₄
  have hgrows₂ := h₃.grows.trans hgrows₃
  have htemps₁ : b.temps.size ≤ b₁.temps.size := h₁.grows.temps
  have htemps₂ : b.temps.size ≤ b₂.temps.size :=
    Nat.le_trans htemps₁ (Nat.le_trans h₂.grows.temps h₃.grows.temps)
  have htemps₄ := Nat.le_trans htemps₂ h₄.grows.temps
  have hp₂ := hp.grows (Nat.le_trans (Nat.le_trans (by simp) h₁.grows.slots_le) h₂.grows.slots_le)
  have hresult : Apart s (some ⟨b.slots.size⟩) := by
    rintro _ ⟨⟩
    exact hp.not_mem
  have htemps : b.temps.size ≤ (b.addSlot .bool).temps.size := Nat.le_refl _
  refine Follows.bind (fun r hr => hleft.later (ho.addSlot .bool) (hp.grows (by simp)) hm₁
    (h₂.grows.trans hgrows₂) (hat.addSlot .bool) hmodels htemps hr) hr
    fun a σ₁ f₁ hs₁ ⟨_, harr₁⟩ hr₁ => ?_
  cases a with
  | bool holds =>
    have hr₂ : (if holds == (op == .or) then pure (.bool holds) else r) σ₁ = some res := hr₁
    have hshort := leads_shortcut R.ir callers σ₁.world harr₁.position ho₁ R.realizes hgrows₂ harr₁.value
    split at hshort
    · -- the left side decides
      rename_i hdecided
      rw [if_pos (by simpa using hdecided)] at hr₂
      cases pure_eq_some.1 hr₂
      obtain ⟨f₂, hl₂, hstart, hs₂, hslots⟩ := hshort
      have hjoins : Joins R s (some ⟨b.slots.size⟩) ⟨b₁.blocks.size + 2⟩ (.bool holds) σ₁ f₂ := by
        refine ⟨hstart, ?_, ?_⟩
        · rw [hslots]
          exact harr₁.models.setSlot hp.not_mem
        · rintro _ ⟨⟩
          simp [hslots]
      refine Follows.after hl₂ (hs₂.weaken htemps₁) ?_
      exact (Follows.resume hjoins hjoin₄ hgrows htemps₄).imp (Nat.le_refl _) fun _ _ _ _ h => h.1
    · rename_i hdecided
      rw [if_neg (by simpa using hdecided)] at hr₂
      obtain ⟨hl₂, hat₂⟩ := hshort
      refine Follows.after hl₂ (.jump b f₁ _) ?_
      refine (hright.later ho₂ hp₂ hm₂ hgrows₃ hat₂ harr₁.models
        (Nat.le_trans htemps₁ h₂.grows.temps) hr₂).next fun c σ₂ f₂ _ ⟨_, harr₂⟩ => ?_
      refine (Follows.endBranch harr₂ ho₃ hresult hgrows₄).next fun c σ₃ f₃ _ hjoins => ?_
      exact (Follows.resume hjoins hjoin₄ hgrows htemps₄).imp (Nat.le_refl _) fun _ _ _ _ h => h.1
  | _ => cases hr₁

/-! ### Conditionals -/

/-- Where a value is kept, the run gives one. -/
def Valued (result : Option SlotId) (r : Except Exit Value × State) : Prop :=
  ∀ σ, result ≠ none → r ≠ (.ok .unit, σ)

/-- The code for an expression with branches follows its run: the value of the branch that
is taken is in the slot for results, and comes out if there is such a slot. -/
def TracksBranches (R : Running) (s : Scope) (result : Option SlotId) (m : Lower Operand)
    (e : Eval Value) : Prop :=
  ∀ ⦃b v b'⦄, b.Open → Placed s b → Apart s result → Yields m R.ctx b v b' → Grows b' R.final →
    ∀ ⦃f callers σ r⦄, At R.function b f → Models R.final s f.slots σ.locals → e σ = some r →
      Valued result r → Follows R s b ⟨f, callers, σ.world⟩
        (fun value σ f => Arrives R s b' v (given result value) σ f ∧ InSlot result value f) r

/-- The code for the branch under `else` follows its run to the common block. -/
def TracksElse (R : Running) (s : Scope) (result : Option SlotId) (otherwise : ElseBranch) : Prop :=
  ∀ ⦃b b' no join u⦄, (otherwise.isPresent → Reserved b no) → (otherwise.isPresent = false → no = join) →
    Placed s b → Apart s result → Yields (lowerElse otherwise s result no join) R.ctx b u b' →
      Grows b' R.final → ∀ ⦃f callers σ r⦄, Starts R.function no f →
        Models R.final s f.slots σ.locals → R.setting.evalElse otherwise σ = some r → Valued result r →
          Follows R s b ⟨f, callers, σ.world⟩ (Joins R s result join) r

theorem tracks_else_absent (result : Option SlotId) : TracksElse R s result .absent := by
  intro b b' no join u _ hno hp hresult hm hgrows f callers σ r hstart hmodels hr hvalued
  obtain rfl := hno rfl
  cases pure_eq_some.1 hr
  refine .here ⟨hstart, hmodels, ?_⟩
  rintro slot rfl
  exact absurd rfl (hvalued σ (by simp))

theorem tracks_else_block {body : Block} (result : Option SlotId)
    (h : Simulates R s (lowerBlock body s) (R.setting.evalBlock body)) : TracksElse R s result (.block body) := by
  intro b b' no join u hno _ hp hresult hm hgrows f callers σ r hstart hmodels hr _
  obtain ⟨value, b₁, hbody, rfl⟩ := yields_lowerElse_block.1 hm
  have hat := hstart.at_switchTo (hno rfl)
  obtain ⟨h₁, ho₁⟩ := extending_lowerBlock body s (hno rfl).open_switchTo hbody
  have hgrows₁ := (Extends.endBranch ho₁ result value join).grows.trans hgrows
  refine (h.later (hno rfl).open_switchTo (hp.switchTo no) hbody hgrows₁ hat hmodels
    (Grows.switchTo b no).temps hr).next fun a σ₁ f₁ _ ⟨_, harr⟩ => ?_
  exact .endBranch harr ho₁ hresult hgrows

theorem tracks_else_elseIf {choice : Conditional}
    (h : TracksBranches R s result (lowerConditional choice s result) (R.setting.evalConditional choice)) :
    TracksElse R s result (.elseIf choice) := by
  intro b b' no join u hno _ hp hresult hm hgrows f callers σ r hstart hmodels hr hvalued
  obtain ⟨value, b₁, hbody, rfl⟩ := yields_lowerElse_elseIf.1 hm
  have hat := hstart.at_switchTo (hno rfl)
  obtain ⟨h₁, ho₁⟩ := extending_lowerConditional choice s result (hno rfl).open_switchTo hbody
  have hgrows₁ := (Grows.terminate ho₁ _).trans hgrows
  refine Follows.next ((h (hno rfl).open_switchTo (hp.switchTo no) hresult hbody hgrows₁ hat hmodels hr
    hvalued).imp (Grows.switchTo b no).temps fun _ _ _ _ h => h) fun a σ₁ f₁ _ ⟨harr, hslot⟩ => ?_
  obtain ⟨hl, hstart₁⟩ := leads_jump harr.position ho₁ R.realizes hgrows
  exact ⟨_, hl, .jump _ f₁ join, hstart₁, harr.models, hslot⟩

theorem leads_choose {g : Ir.Function} {final : Builder} (ir : Ir.Program)
    (callers : List (Frame × TempId)) (w : World) (hat : At g b f) (ho : b.Open) (hg : Realizes g final)
    {hasElse holds : Bool} (hgrows : Grows (b.choose v hasElse) final) (hv : f.value? v = some (.bool holds)) :
    if holds then
      Leads ir ⟨f, callers, w⟩ (.go ⟨f.jump ⟨b.blocks.size⟩, callers, w⟩) ∧
        At g (b.choose v hasElse) (f.jump ⟨b.blocks.size⟩)
    else
      Leads ir ⟨f, callers, w⟩ (.go ⟨f.jump ⟨if hasElse then b.blocks.size + 2 else b.blocks.size + 1⟩,
        callers, w⟩) ∧
        Starts g ⟨if hasElse then b.blocks.size + 2 else b.blocks.size + 1⟩
          (f.jump ⟨if hasElse then b.blocks.size + 2 else b.blocks.size + 1⟩) := by
  let grown := if hasElse then b.addBlock.addBlock.addBlock else b.addBlock.addBlock
  obtain ⟨hat₁, ho₁, hyes⟩ : At g grown f ∧ grown.Open ∧ Reserved grown ⟨b.blocks.size⟩ := by
    cases hasElse with
    | true => exact ⟨hat.addBlock.addBlock.addBlock, ho.addBlocks.1.isOpen, ho.addBlocks.2.1⟩
    | false =>
      exact ⟨hat.addBlock.addBlock, ho.addBlock.addBlock, (Reserved.addBlock ho).kept (.addBlock _)⟩
  have hgrows₁ := (Grows.switchTo _ _).trans hgrows
  cases holds with
  | true =>
    obtain ⟨hl, hstart⟩ := leads_branch hat₁ ho₁ hg hgrows₁ hv
    exact ⟨hl, hstart.at_switchTo (hyes.terminate ho₁ _)⟩
  | false => exact leads_branch hat₁ ho₁ hg hgrows₁ hv

theorem tracks_lowerConditional {condition : Expr} {thenBlock : Block} {otherwise : ElseBranch} (span : Span)
    (hcondition : Simulates R s (lowerExpr condition s) (R.setting.evalExpr condition))
    (hthen : Simulates R s (lowerBlock thenBlock s) (R.setting.evalBlock thenBlock))
    (helse : TracksElse R s result otherwise) :
    TracksBranches R s result (lowerConditional ⟨condition, thenBlock, otherwise, span⟩ s result)
      (R.setting.evalConditional ⟨condition, thenBlock, otherwise, span⟩) := by
  intro b v b' ho hp hresult hm hgrows f callers σ r hat hmodels hr hvalued
  obtain ⟨c, b₁, value, b₂, u, b₃, hm₁, hm₂, hm₃, rfl, rfl⟩ := yields_lowerConditional.1 hm
  obtain ⟨h₁, ho₁⟩ := extending_lowerExpr condition s ho hm₁
  obtain ⟨⟨h₂, ho₂⟩, hjoin, hno⟩ := ho₁.choose c otherwise.isPresent
  obtain ⟨h₃, ho₃⟩ := extending_lowerBlock thenBlock s ho₂ hm₂
  have h₄ := Extends.endBranch ho₃ result value ⟨b₁.blocks.size + 1⟩
  obtain ⟨-, h₅, hkeep⟩ := extends_lowerElse otherwise s result ((h₂.trans h₃).trans h₄)
    (fun hpresent => ⟨by simp [hpresent], by simpa [hpresent] using ((hno hpresent).kept h₃).kept h₄⟩) hm₃
  have hjoin₅ := hkeep _ ((hjoin.kept h₃).kept h₄) (by cases otherwise.isPresent <;> simp)
  -- everything that is written on the way is in the finished function
  have hgrows₅ : Grows b₃ R.final :=
    ((Grows.switchTo _ _).trans (hjoin₅.open_switchTo.loadResult result).1.grows).trans hgrows
  have hgrows₄ := h₅.trans hgrows₅
  have hgrows₃ := h₄.grows.trans hgrows₄
  have htemps₂ : b.temps.size ≤ (b₁.choose c otherwise.isPresent).temps.size :=
    Nat.le_trans h₁.grows.temps h₂.grows.temps
  have htemps₄ := Nat.le_trans htemps₂ (Nat.le_trans h₃.grows.temps h₄.grows.temps)
  have htemps₅ := Nat.le_trans htemps₄ h₅.temps
  have hp₂ := hp.grows (Nat.le_trans h₁.grows.slots_le h₂.grows.slots_le)
  have hp₄ := hp₂.grows (Nat.le_trans h₃.grows.slots_le h₄.grows.slots_le)
  refine Follows.bind (fun r hr => hcondition ho hp hm₁ (h₂.grows.trans (h₃.grows.trans hgrows₃)) hat hmodels hr)
    hr fun a σ₁ f₁ hs₁ harr₁ hr₁ => ?_
  refine Follows.next (Q := Joins R s result ⟨b₁.blocks.size + 1⟩) ?_ fun a σ₂ f₂ _ hjoins =>
    .resume hjoins hjoin₅ hgrows htemps₅
  cases a with
  | bool holds =>
    have hchoose := leads_choose R.ir callers σ₁.world harr₁.position ho₁ R.realizes
      (h₃.grows.trans hgrows₃) harr₁.value
    cases holds with
    | true =>
      obtain ⟨hl, hat₂⟩ := hchoose
      refine Follows.after hl (.jump b f₁ _) ?_
      refine (hthen.later ho₂ hp₂ hm₂ hgrows₃ hat₂ harr₁.models htemps₂ hr₁).next fun a σ₂ f₂ _ ⟨_, harr₂⟩ => ?_
      exact .endBranch harr₂ ho₃ hresult hgrows₄
    | false =>
      obtain ⟨hl, hstart⟩ := hchoose
      refine Follows.after hl (.jump b f₁ _) ?_
      refine (helse ?_ ?_ hp₄ hresult hm₃ hgrows₅ hstart harr₁.models hr₁ hvalued).imp htemps₄ fun _ _ _ _ h => h
      · intro hpresent
        simpa [hpresent] using ((hno hpresent).kept h₃).kept h₄
      · intro habsent
        simp [habsent]
  | _ => cases hr₁

/-! ### Results -/

theorem Follows.of_error {β : Type} {Q : α → State → Frame → Prop} {Q' : β → State → Frame → Prop} {x : Exit}
    (h : Follows R s b m Q (.error x, σ)) : Follows R s b m Q' (.error x, σ) := by
  cases x <;> exact h

theorem eq_unit_of_storage {t : Ty} (h : storage t = .ok .unit) : t = .unit := by
  cases t with
  | list t =>
    unfold storage at h
    split at h <;> cases h
  | _ => cases h <;> rfl

/-- Before the branches, there is a place for their value. -/
theorem resultSlot_ready {id : NodeId} {b₁ : Builder} (ho : b.Open) (hp : Placed s b) (hat : At R.function b f)
    (hm : Yields (resultSlot id) R.ctx b result b₁) : b₁.Open ∧ Placed s b₁ ∧ At R.function b₁ f ∧ Apart s result ∧
      ∀ slot, result = some slot → slot.index < b₁.slots.size := by
  obtain ⟨ty, -, hresult⟩ := yields_resultSlot.1 hm
  rcases hresult with ⟨-, rfl, rfl⟩ | ⟨-, rfl, rfl⟩
  · refine ⟨ho, hp, hat, ?_, ?_⟩ <;> rintro _ ⟨⟩
  · refine ⟨ho.addSlot ty, hp.grows (by simp), hat.addSlot ty, ?_, ?_⟩
    · rintro _ ⟨⟩
      exact hp.not_mem
    · rintro _ ⟨⟩
      simp

theorem Follows.joined {id : NodeId} {b₁ b₂ : Builder} {e : Eval Value}
    (hm : Yields (resultSlot id) R.ctx b₁ result b₂) {r : Except Exit Value × State}
    (hr : R.setting.joined id e σ = some r)
    (h : ∀ r, e σ = some r → Valued result r → Follows R s b ⟨f, callers, σ.world⟩
      (fun value σ f => Arrives R s b' v (given result value) σ f) r) :
    Follows R s b ⟨f, callers, σ.world⟩ (Arrives R s b' v) r := by
  obtain ⟨ty, ⟨t, ht, hty⟩, hresult⟩ := yields_resultSlot.1 hm
  rcases Eval.bind_eq_some.1 hr with ⟨x, σ₁, hx, rfl⟩ | ⟨value, σ₁, hvalue, hr₁⟩
  · exact .of_error (h _ hx fun _ _ h => by cases h)
  · obtain ⟨t', ht', hr₁⟩ := expect_bind_eq_some.1 hr₁
    cases ht.symm.trans ht'
    rcases hresult with ⟨rfl, rfl, -⟩ | ⟨hne, rfl, -⟩
    · obtain rfl := eq_unit_of_storage hty
      cases pure_eq_some.1 hr₁
      exact h _ hvalue fun _ h => absurd rfl h
    · have hne : t ≠ .unit := by
        rintro rfl
        cases hty
        exact hne rfl
      have hr₂ : (if value.isOf t then pure value else Eval.stuck) σ₁ = some r := by
        cases t <;> first | exact hr₁ | exact absurd rfl hne
      split at hr₂
      · rename_i hof
        cases pure_eq_some.1 hr₂
        refine h _ hvalue fun _ _ h => ?_
        cases h
        cases t <;> first | exact absurd rfl hne | cases hof
      · cases hr₂

theorem simulates_conditional (id : NodeId) {choice : Conditional}
    (h : ∀ result, TracksBranches R s result (lowerConditional choice s result)
      (R.setting.evalConditional choice)) :
    Simulates R s (resultSlot id >>= lowerConditional choice s)
      (R.setting.joined id (R.setting.evalConditional choice)) := by
  intro b v b' ho hp hm hgrows f callers σ r hat hmodels hr
  obtain ⟨result, b₁, hm₁, hm₂⟩ := yields_bind.1 hm
  obtain ⟨ho₁, hp₁, hat₁, hresult, -⟩ := resultSlot_ready ho hp hat hm₁
  have htemps := (Extending.resultSlot id ho hm₁).1.grows.temps
  refine .joined hm₁ hr fun r hr hvalued => ?_
  exact (h result ho₁ hp₁ hresult hm₂ hgrows hat₁ hmodels hr hvalued).imp htemps fun _ _ _ _ h => h.1

end Keel.Lowering
