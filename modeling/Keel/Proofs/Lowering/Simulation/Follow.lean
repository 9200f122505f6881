/-
# Following a run of the source

How a machine keeps up with a run of the source.  Its position is that of a builder
(`At`): the code that the builder writes next is what the machine carries out next, once
the function is finished (`Realizes`).  The slots of the variables in scope hold their
values (`Models`).

A computation of the source is followed (`Follows`) if the machine, from its position,
comes to where the value is, or to where control goes on after `break` and `continue`, or
returns, or fails in the same way.  Computations in a row are followed one after the
other: `Follows.bind`.
-/
import Keel.Proofs.Lowering.Extends
import Keel.Proofs.Lowering.Layouts
import Keel.Proofs.Semantics.Machine
import Keel.Proofs.Semantics.Source

namespace Keel

open List Option

def Ir.Operand.Below (n : Nat) : Ir.Operand → Prop
  | .temp id => id.index < n
  | _ => True

theorem Ir.Operand.Below.mono {n n' : Nat} {v : Ir.Operand} (h : v.Below n) (hle : n ≤ n') : v.Below n' := by
  cases v with
  | temp id => exact Nat.lt_of_lt_of_le h hle
  | _ => trivial

theorem Source.Eval.bind_apply {α β : Type} (m : Source.Eval α) (k : α → Source.Eval β) (σ : Source.State) :
    (m >>= k) σ = match m σ with
      | some (.ok a, σ') => k a σ'
      | some (.error e, σ') => some (.error e, σ')
      | none => none := rfl

theorem Source.Eval.bind_eq_some {α β : Type} {m : Source.Eval α} {k : α → Source.Eval β} {σ : Source.State}
    {r : Except Source.Exit β × Source.State} :
    (m >>= k) σ = some r ↔ (∃ x σ', m σ = some (.error x, σ') ∧ r = (.error x, σ')) ∨
      ∃ a σ', m σ = some (.ok a, σ') ∧ k a σ' = some r := by
  rw [bind_apply]
  cases m σ with
  | none => simp
  | some r₁ =>
    obtain ⟨result, σ₁⟩ := r₁
    cases result <;> simp [eq_comm]

namespace Lowering

open Ir (Storage Operand Instr Terminator BlockId TempId SlotId Frame Machine Effect Next Leads resume)
open Source (Local State Exit Eval)

/-! ### Positions -/

/-- The blocks of a finished function are those of the builder, and lead to each other. -/
structure Realizes (g : Ir.Function) (final : Builder) : Prop where
  block : ∀ ⦃id block⦄, g.block? id = some block →
    final.pending id.index = ⟨block.instrs.toArray, some block.terminator⟩
  closed : ∀ ⦃id block⦄, g.block? id = some block →
    ∀ target ∈ block.terminator.targets, ∃ next, g.block? target = some next

structure Starts (g : Ir.Function) (id : BlockId) (f : Frame) : Prop where
  function : f.function = g
  kept : ∃ block, g.block? id = some block
  block : f.block = id
  index : f.index = 0

structure At (g : Ir.Function) (b : Builder) (f : Frame) : Prop where
  function : f.function = g
  kept : ∃ block, g.block? b.current = some block
  block : f.block = b.current
  index : f.index = (b.pending b.current.index).instrs.size

theorem Starts.at_switchTo {g : Ir.Function} {b : Builder} {id : BlockId} {f : Frame}
    (h : Starts g id f) (hid : Reserved b id) : At g (b.switchTo id) f := by
  refine ⟨h.function, h.kept, h.block, ?_⟩
  show f.index = (b.pending id.index).instrs.size
  rw [hid.empty, h.index]
  rfl

namespace At

variable {g : Ir.Function} {b final : Builder} {f : Frame}

theorem addSlot (h : At g b f) (ty : Storage) : At g (b.addSlot ty) f :=
  ⟨h.function, h.kept, h.block, h.index⟩

theorem addTemp (h : At g b f) (ty : Storage) : At g (b.addTemp ty) f :=
  ⟨h.function, h.kept, h.block, h.index⟩

theorem addBlock (h : At g b f) : At g b.addBlock f :=
  ⟨h.function, h.kept, h.block, by simpa using h.index⟩

theorem emit (h : At g b f) (ho : b.Open) (i : Instr) {f' : Frame} (hfunction : f'.function = f.function)
    (hblock : f'.block = f.block) (hindex : f'.index = f.index + 1) : At g (b.emit i) f' := by
  refine ⟨hfunction.trans h.function, h.kept, hblock.trans h.block, ?_⟩
  rw [hindex, h.index, b.current_emit, b.pending_emit i ho.lt, if_pos rfl]
  simp

theorem instr (h : At g b f) (ho : b.Open) (hg : Realizes g final) {i : Instr} (hgrows : Grows (b.emit i) final) :
    ∃ block, f.function.block? f.block = some block ∧ block.instrs[f.index]? = some i := by
  obtain ⟨block, hblock⟩ := h.kept
  refine ⟨block, by rw [h.function, h.block, hblock], ?_⟩
  have hprefix := hgrows.instrs b.current.index
  rw [hg.block hblock, b.pending_emit i ho.lt, if_pos rfl] at hprefix
  simp only [Array.toList_push] at hprefix
  obtain ⟨more, hmore⟩ := hprefix
  rw [← hmore, h.index]
  simp

theorem terminator (h : At g b f) (ho : b.Open) (hg : Realizes g final) {t : Terminator}
    (hgrows : Grows (b.terminate t) final) :
    ∃ block, f.function.block? f.block = some block ∧ block.instrs[f.index]? = none ∧
      block.terminator = t := by
  obtain ⟨block, hblock⟩ := h.kept
  have hpending : (b.terminate t).pending b.current.index =
      { b.pending b.current.index with terminator := some t } := by
    rw [b.pending_terminate t ho.lt, if_pos rfl, ho.ended]
    rfl
  have hended := hgrows.ended b.current.index t (by rw [hpending])
  rw [hg.block hblock, hpending] at hended
  injection hended with hinstrs hterminator
  refine ⟨block, by rw [h.function, h.block, hblock], ?_, Option.some.inj hterminator⟩
  rw [h.index, ← hinstrs]
  simp

theorem jump (h : At g b f) (ho : b.Open) (hg : Realizes g final) {t : Terminator}
    (hgrows : Grows (b.terminate t) final) {target : BlockId} (ht : target ∈ t.targets) :
    Starts g target (f.jump target) := by
  obtain ⟨block, hblock, -, rfl⟩ := h.terminator ho hg hgrows
  rw [h.function] at hblock
  exact ⟨h.function, hg.closed hblock target ht, rfl, rfl⟩

end At

/-! ### Steps -/

section Steps

variable {ir : Ir.Program} {g : Ir.Function} {b final : Builder} {f : Frame}
  {callers : List (Frame × TempId)} {w w' : World}

variable (hat : At g b f) (ho : b.Open) (hg : Realizes g final)

include hat ho hg

theorem step_emit {i : Instr}
    (hgrows : Grows (b.emit i) final) {e : Effect × World} (he : i.effect? f w = some e) :
    Machine.step? ir ⟨f, callers, w⟩ = some (Machine.apply ⟨f, callers, w⟩ e) := by
  obtain ⟨block, hblock, hinstr⟩ := hat.instr ho hg hgrows
  simp only [Machine.step?, hblock, bind_eq_bind, bind_some, hinstr]
  cases i with
  | call => cases he
  | _ => simp only [he, bind_some]; rfl

theorem step_terminate {t : Terminator}
    (hgrows : Grows (b.terminate t) final) :
    Machine.step? ir ⟨f, callers, w⟩ = Machine.leave? ⟨f, callers, w⟩ t := by
  obtain ⟨block, hblock, hinstr, rfl⟩ := hat.terminator ho hg hgrows
  simp only [Machine.step?, hblock, bind_eq_bind, bind_some, hinstr]

theorem step_call {dest : TempId}
    {name : String} {args : List Operand} (hgrows : Grows (b.emit (.call dest name args)) final) :
    Machine.step? ir ⟨f, callers, w⟩ = Machine.call? ir ⟨f, callers, w⟩ dest name args := by
  obtain ⟨block, hblock, hinstr⟩ := hat.instr ho hg hgrows
  simp only [Machine.step?, hblock, bind_eq_bind, bind_some, hinstr]

theorem leads_define {ty : Storage}
    {i : TempId → Instr} (hgrows : Grows (b.define ty i) final) {value : Value}
    (he : (i ⟨b.temps.size⟩).effect? f w = some (.define ⟨b.temps.size⟩ value, w')) :
    Leads ir ⟨f, callers, w⟩ (.go ⟨(f.setTemp ⟨b.temps.size⟩ value).advance, callers, w'⟩) ∧
      At g (b.define ty i) (f.setTemp ⟨b.temps.size⟩ value).advance :=
  ⟨.single (step_emit (hat.addTemp ty) (ho.addTemp ty) hg hgrows he),
    (hat.addTemp ty).emit (ho.addTemp ty) _ rfl rfl rfl⟩

theorem leads_store {i : Instr}
    (hgrows : Grows (b.emit i) final) {slot : SlotId} {value : Value}
    (he : i.effect? f w = some (.assign slot value, w')) :
    Leads ir ⟨f, callers, w⟩ (.go ⟨(f.setSlot slot value).advance, callers, w'⟩) ∧
      At g (b.emit i) (f.setSlot slot value).advance :=
  ⟨.single (step_emit hat ho hg hgrows he), hat.emit ho _ rfl rfl rfl⟩

theorem leads_jump {target : BlockId}
    (hgrows : Grows (b.terminate (.jump target)) final) :
    Leads ir ⟨f, callers, w⟩ (.go ⟨f.jump target, callers, w⟩) ∧ Starts g target (f.jump target) :=
  ⟨.single (step_terminate hat ho hg hgrows), hat.jump ho hg hgrows (by simp [Terminator.targets])⟩

theorem leads_branch {v : Operand}
    {yes no : BlockId} (hgrows : Grows (b.terminate (.branch v yes no)) final) {holds : Bool}
    (hv : f.value? v = some (.bool holds)) :
    Leads ir ⟨f, callers, w⟩ (.go ⟨f.jump (if holds then yes else no), callers, w⟩) ∧
      Starts g (if holds then yes else no) (f.jump (if holds then yes else no)) := by
  refine ⟨.single ?_, hat.jump ho hg hgrows ?_⟩
  · rw [step_terminate hat ho hg hgrows]
    simp [Machine.leave?, hv]
  · cases holds <;> simp [Terminator.targets]

end Steps

/-! ### Variables -/

/-- The slots of the variables in scope hold their values. -/
def Models (final : Builder) (s : Scope) (slots : SlotId → Option Value) (locals : List Local) :
    Prop :=
  List.Forall₂ (fun l p => l.name = p.1 ∧ storage l.ty = .ok (final.slotType p.2) ∧
    ∀ value, l.value = some value → slots p.2 = some value) locals s.locals

/-- The variables in scope have slots of their own, among those there are. -/
structure Placed (s : Scope) (b : Builder) : Prop where
  lt : ∀ p ∈ s.locals, p.2.index < b.slots.size
  nodup : (s.locals.map Prod.snd).Nodup

theorem Placed.grows {s : Scope} {b b' : Builder} (h : Placed s b) (hg : b.slots.size ≤ b'.slots.size) :
    Placed s b' := ⟨fun p hp => Nat.lt_of_lt_of_le (h.lt p hp) hg, h.nodup⟩

theorem Placed.switchTo {s : Scope} {b : Builder} (h : Placed s b) (id : BlockId) :
    Placed s (b.switchTo id) := ⟨h.lt, h.nodup⟩

theorem Placed.declare {s : Scope} {b b' : Builder} (h : Placed s b)
    (hg : b.slots.size < b'.slots.size) (name : String) : Placed (s.declare name ⟨b.slots.size⟩) b' := by
  refine ⟨fun p hp => ?_, ?_⟩
  · rcases mem_cons.1 hp with rfl | hp
    · exact hg
    · exact Nat.lt_trans (h.lt p hp) hg
  · refine nodup_cons.2 ⟨fun hmem => ?_, h.nodup⟩
    obtain ⟨p, hp, heq⟩ := mem_map.1 hmem
    have := h.lt p hp
    rw [heq] at this
    exact Nat.lt_irrefl _ this

namespace Models

variable {final : Builder} {s : Scope} {slots slots' : SlotId → Option Value} {locals : List Local}

section

variable (h : Models final s slots locals)

include h

theorem length_eq : locals.length = s.locals.length :=
  List.Forall₂.length_eq h

theorem congr
    (heq : ∀ p ∈ s.locals, slots' p.2 = slots p.2) : Models final s slots' locals := by
  unfold Models at h ⊢
  generalize s.locals = ps at h heq
  induction h with
  | nil => exact .nil
  | cons hp _ ih =>
    obtain ⟨hhead, htail⟩ := forall_mem_cons.1 heq
    exact .cons ⟨hp.1, hp.2.1, fun value hv => hhead.trans (hp.2.2 value hv)⟩ (ih htail)

theorem setSlot {slot : SlotId} {value : Value}
    (hslot : slot ∉ s.locals.map Prod.snd) :
    Models final s (fun t => if t = slot then some value else slots t) locals := by
  refine h.congr fun p hp => if_neg fun heq => hslot ?_
  exact mem_map.2 ⟨p, hp, heq⟩

theorem declare {name : String} {ty : Ty} {slot : SlotId}
    {value : Option Value} (hty : storage ty = .ok (final.slotType slot))
    (hvalue : ∀ v, value = some v → slots slot = some v) :
    Models final (s.declare name slot) slots (⟨name, ty, value⟩ :: locals) :=
  .cons ⟨rfl, hty, hvalue⟩ h

end

theorem trim {inner : Scope} {new : List (String × SlotId)} (h : Models final inner slots locals)
    (hinner : inner.locals = new ++ s.locals) :
    Models final s slots (locals.drop (locals.length - s.locals.length)) := by
  have hlength := h.length_eq
  unfold Models at h ⊢
  rw [hinner] at h hlength
  have := forall₂_drop (locals.length - s.locals.length) h
  rw [hlength, length_append, Nat.add_sub_cancel] at this ⊢
  simpa using this

theorem find? (h : Models final s slots locals) (name : String) :
    (s.find? name = none ∧ locals.find? (·.name == name) = none) ∨
    ∃ slot l, s.find? name = some slot ∧ locals.find? (·.name == name) = some l ∧
      storage l.ty = .ok (final.slotType slot) ∧ ∀ value, l.value = some value → slots slot = some value := by
  unfold Models at h
  unfold Scope.find?
  generalize s.locals = ps at h
  induction h with
  | nil => exact .inl ⟨rfl, rfl⟩
  | @cons l p locals ps hp _ ih =>
    obtain ⟨name', slot⟩ := p
    obtain ⟨hname, hty, hvalue⟩ := hp
    dsimp only at hname
    subst hname
    by_cases heq : name = l.name
    · refine .inr ⟨slot, l, ?_, ?_, hty, hvalue⟩
      · simp [heq]
      · simp [heq]
    · have h₁ : (name == l.name) = false := by simpa using heq
      have h₂ : (l.name == name) = false := by simpa using Ne.symm heq
      simpa only [lookup_cons, h₁, List.find?, h₂] using ih

theorem update (h : Models final s slots locals) (hnodup : (s.locals.map Prod.snd).Nodup)
    {name : String} {f : Local → Option Value} {locals' : List Local}
    (hu : Source.update name f locals = some locals') :
    ∃ slot l value, s.find? name = some slot ∧ f l = some value ∧
      storage l.ty = .ok (final.slotType slot) ∧
        (∀ old, l.value = some old → slots slot = some old) ∧
          Models final s (fun t => if t = slot then some value else slots t) locals' := by
  unfold Models at h
  unfold Scope.find? Models
  generalize s.locals = ps at h hnodup
  induction h generalizing locals' with
  | nil => cases hu
  | @cons l p locals ps hp hrest ih =>
    obtain ⟨name', slot⟩ := p
    obtain ⟨hname, hty, hvalue⟩ := hp
    dsimp only at hname
    subst hname
    obtain ⟨hnot, hnodup⟩ := nodup_cons.1 hnodup
    rw [Source.update] at hu
    by_cases heq : name = l.name
    · rw [if_pos (by simpa using heq.symm)] at hu
      obtain ⟨value, hf, rfl⟩ := map_eq_some_iff.1 hu
      refine ⟨slot, l, value, by simp [heq], hf, hty, hvalue, .cons ⟨rfl, hty, ?_⟩ ?_⟩
      · rintro _ ⟨⟩
        exact if_pos rfl
      · exact Models.setSlot (s := ⟨ps, none⟩) hrest hnot
    · have h₁ : (name == l.name) = false := by simpa using heq
      rw [if_neg (by simpa using Ne.symm heq)] at hu
      obtain ⟨rest', hrest', rfl⟩ := map_eq_some_iff.1 hu
      obtain ⟨slot', l', value, hfind, hf, hty', hvalue', hmodels⟩ := ih hrest' hnodup
      have hne : slot ≠ slot' := by
        rintro rfl
        obtain ⟨l₁, l₂, hps, -⟩ := lookup_eq_some_iff.1 hfind
        exact hnot (by simp [hps])
      refine ⟨slot', l', value, by simpa only [lookup_cons, h₁] using hfind, hf, hty', hvalue', ?_⟩
      exact .cons ⟨rfl, hty, fun v hv => (if_neg hne).trans (hvalue v hv)⟩ hmodels

end Models

/-! ### Runs -/

/-- The first temporaries and the arguments are as they were. -/
structure Stays (b : Builder) (f f' : Frame) : Prop where
  args : f'.args = f.args
  temps : ∀ t : TempId, t.index < b.temps.size → f'.temps t = f.temps t

namespace Stays

variable {b b' : Builder} {f f' f'' : Frame}

theorem refl (b : Builder) (f : Frame) : Stays b f f := ⟨rfl, fun _ _ => rfl⟩

theorem trans (h : Stays b f f') (h' : Stays b f' f'') : Stays b f f'' :=
  ⟨h'.args.trans h.args, fun t ht => (h'.temps t ht).trans (h.temps t ht)⟩

theorem weaken (h : Stays b' f f') (hle : b.temps.size ≤ b'.temps.size) : Stays b f f' :=
  ⟨h.args, fun t ht => h.temps t (Nat.lt_of_lt_of_le ht hle)⟩

theorem setTemp (hle : b.temps.size ≤ b'.temps.size) (f : Frame) (value : Value) :
    Stays b f (f.setTemp ⟨b'.temps.size⟩ value).advance := by
  refine ⟨rfl, fun t ht => if_neg ?_⟩
  rintro rfl
  exact absurd ht (Nat.not_lt.2 hle)

theorem setSlot (b : Builder) (f : Frame) (slot : SlotId) (value : Value) :
    Stays b f (f.setSlot slot value).advance := ⟨rfl, fun _ _ => rfl⟩

theorem jump (b : Builder) (f : Frame) (target : BlockId) : Stays b f (f.jump target) :=
  ⟨rfl, fun _ _ => rfl⟩

theorem value? (h : Stays b f f') {v : Operand} (hv : v.Below b.temps.size) : f'.value? v = f.value? v := by
  cases v with
  | param index => simp [Frame.value?, h.args]
  | temp id => exact h.temps id hv
  | const value => rfl

end Stays

def returned (callers : List (Frame × TempId)) : Except Failure Value → World → Next
  | .ok value, w => resume callers value w
  | .error failure, w => .halt (.error failure) w

/-- A function whose lowered code is run: the checked program and its lowered form, the
function and the builder that it was finished from.  Calls are carried out as in the
source, and structs are laid out as they are declared. -/
structure Running where
  program : CheckedProgram
  call : QualName → List Value → World → Option (Except Failure Value × World)
  limit : Nat
  name : String
  ir : Ir.Program
  function : Ir.Function
  final : Builder
  realizes : Realizes function final
  layouts : LaidOut program ir.structs
  calls : ∀ ⦃name args w result w'⦄, call name args w = some (result, w') →
    ∃ g frame, ir.functions.get? name.text = some g ∧ Frame.enter g args = some frame ∧
      ∀ callers, Leads ir ⟨frame, callers, w⟩ (returned callers result w')

namespace Running

abbrev setting (R : Running) : Source.Setting := ⟨R.program, R.call, R.limit⟩

abbrev ctx (R : Running) : Context := ⟨R.program, R.ir.structs, R.name⟩

end Running

section Follows

variable {α β : Type} (R : Running) (s : Scope) (b : Builder)

/-- The machine comes to where control goes on after `break` or `continue`. -/
def Jumps (m : Machine) (target : LoopTargets → BlockId) (σ : State) : Prop :=
  ∃ targets f, s.loop = some targets ∧ Leads R.ir m (.go ⟨f, m.callers, σ.world⟩) ∧
    Stays b m.frame f ∧ Starts R.function (target targets) f ∧
      Models R.final s f.slots (σ.trim s.locals.length).locals

/-- From `m` on, the machine keeps up with a run of the source that has come to this
end. -/
def Follows (m : Machine) (Q : α → State → Frame → Prop) : Except Exit α × State → Prop
  | (.ok a, σ) => ∃ f, Leads R.ir m (.go ⟨f, m.callers, σ.world⟩) ∧ Stays b m.frame f ∧ Q a σ f
  | (.error .brk, σ) => Jumps R s b m (·.done) σ
  | (.error .cont, σ) => Jumps R s b m (·.next) σ
  | (.error (.ret value), σ) => Leads R.ir m (resume m.callers value σ.world)
  | (.error (.fail failure), σ) => Leads R.ir m (.halt (.error failure) σ.world)

variable {R s b}

variable {m : Machine}

/-- Every end of a run may be carried over on its own. -/
theorem Follows.carry {s' : Scope} {b' : Builder} {m' : Machine} {Q Q' : α → State → Frame → Prop}
    {r : Except Exit α × State} (h : Follows R s b m Q r)
    (hok : ∀ a σ, Follows R s b m Q (.ok a, σ) → Follows R s' b' m' Q' (.ok a, σ))
    (hjumps : ∀ target σ, Jumps R s b m target σ → Jumps R s' b' m' target σ)
    (hcallers : m'.callers = m.callers) (hl : ∀ {out}, Leads R.ir m out → Leads R.ir m' out) :
    Follows R s' b' m' Q' r := by
  obtain ⟨result, σ⟩ := r
  match result, h with
  | .ok a, h => exact hok a σ h
  | .error .brk, h | .error .cont, h => exact hjumps _ σ h
  | .error (.ret value), h => exact hl (hcallers ▸ h)
  | .error (.fail failure), h => exact hl h

theorem Follows.after {f : Frame} {w : World} {Q : α → State → Frame → Prop} {r : Except Exit α × State}
    (hl : Leads R.ir m (.go ⟨f, m.callers, w⟩)) (hs : Stays b m.frame f) (h : Follows R s b ⟨f, m.callers, w⟩ Q r) :
    Follows R s b m Q r := by
  refine h.carry ?_ ?_ rfl hl.trans
  · rintro a σ ⟨f', hl', hs', hq⟩
    exact ⟨f', hl.trans hl', hs.trans hs', hq⟩
  · rintro target σ ⟨targets, f', hloop, hl', hs', hend⟩
    exact ⟨targets, f', hloop, hl.trans hl', hs.trans hs', hend⟩

theorem Follows.imp {b' : Builder} {Q Q' : α → State → Frame → Prop} {r : Except Exit α × State}
    (hle : b.temps.size ≤ b'.temps.size) (h : Follows R s b' m Q r)
    (hQ : ∀ a σ f, Stays b' m.frame f → Q a σ f → Q' a σ f) : Follows R s b m Q' r := by
  refine h.carry ?_ ?_ rfl id
  · rintro a σ ⟨f', hl, hs, hq⟩
    exact ⟨f', hl, hs.weaken hle, hQ a σ f' hs hq⟩
  · rintro target σ ⟨targets, f', hloop, hl, hs, hend⟩
    exact ⟨targets, f', hloop, hl, hs.weaken hle, hend⟩

/-- Where the source has come to a value, the machine goes on with code that only brings
the value to its place. -/
theorem Follows.next {Q Q' : α → State → Frame → Prop} {r : Except Exit α × State} (h : Follows R s b m Q r)
    (hk : ∀ a σ f, Stays b m.frame f → Q a σ f →
      Follows R s b ⟨f, m.callers, σ.world⟩ Q' (.ok a, σ)) : Follows R s b m Q' r := by
  obtain ⟨result, σ⟩ := r
  match result, h with
  | .ok a, ⟨f, hl, hs, hq⟩ => exact (hk a σ f hs hq).after hl hs
  | .error .brk, h | .error .cont, h | .error (.ret value), h | .error (.fail failure), h => exact h

/-- **Computations in a row are followed one after the other.** -/
theorem Follows.bind {e : Eval α} {k : α → Eval β} {Q : α → State → Frame → Prop} {Q' : β → State → Frame → Prop}
    {σ : State} {r : Except Exit β × State} (he : ∀ r, e σ = some r → Follows R s b m Q r)
    (hr : (e >>= k) σ = some r) (hk : ∀ a σ₁ f, Stays b m.frame f → Q a σ₁ f → k a σ₁ = some r →
      Follows R s b ⟨f, m.callers, σ₁.world⟩ Q' r) : Follows R s b m Q' r := by
  rcases Source.Eval.bind_eq_some.1 hr with ⟨x, σ₁, heq, rfl⟩ | ⟨a, σ₁, heq, hr'⟩
  · have h := he _ heq
    cases x <;> exact h
  · obtain ⟨f, hl, hs, hq⟩ := he _ heq
    exact (hk a σ₁ f hs hq hr').after hl hs

end Follows

end Lowering
end Keel
