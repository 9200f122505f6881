/-
# Lowering that succeeds

`Yields m ctx b a b'` says that the computation `m`, started with the builder `b`,
succeeds with the value `a` and leaves the builder `b'`.  A sequence of steps yields
exactly if its steps do, one after the other (`yields_bind`), and each step that touches
the builder is one of six updates: a new block, temporary or slot, an instruction at the
end of the current block, its terminator, or another current block.

The lemmas are for `simp`: they take a rule apart down to the computations it is given.
-/
import Keel.Lowering.Program

namespace Keel.Lowering

open Ir (Storage Operand Instr Terminator BlockId TempId SlotId)

/-! ### The updates of a builder -/

namespace Builder

def addBlock (b : Builder) : Builder := { b with blocks := b.blocks.push {} }

def addTemp (b : Builder) (ty : Storage) : Builder := { b with temps := b.temps.push ty }

def addSlot (b : Builder) (ty : Storage) : Builder := { b with slots := b.slots.push ty }

def switchTo (b : Builder) (id : BlockId) : Builder := { b with current := id }

def slotType (b : Builder) (slot : SlotId) : Storage := b.slots.getD slot.index .unit

def define (b : Builder) (ty : Storage) (instr : TempId → Instr) : Builder :=
  (b.addTemp ty).emit (instr ⟨b.temps.size⟩)

def load (b : Builder) (slot : SlotId) : Builder :=
  b.define (b.slotType slot) fun dest => .load dest slot

def leave (b : Builder) (t : Terminator) : Builder :=
  (b.terminate t).addBlock.switchTo ⟨b.blocks.size⟩

def storeResult (b : Builder) (result : Option SlotId) (value : Operand) : Builder :=
  match result with
  | some slot => b.emit (.store slot value)
  | none => b

def loadResult (b : Builder) (result : Option SlotId) : Builder :=
  match result with
  | some slot => b.load slot
  | none => b

def resultOf (b : Builder) (result : Option SlotId) : Operand :=
  match result with
  | some _ => .temp ⟨b.temps.size⟩
  | none => .unit

def endBranch (b : Builder) (result : Option SlotId) (value : Operand) (join : BlockId) : Builder :=
  (b.storeResult result value).terminate (.jump join)

def resume (b : Builder) (result : Option SlotId) (join : BlockId) : Builder :=
  (b.switchTo join).loadResult result

def pending (b : Builder) (index : Nat) : Pending := b.blocks.getD index {}

section Fields

variable (b : Builder) (ty : Storage) (id : BlockId) (i : Instr) (t : Terminator)

@[simp] theorem slots_addBlock : b.addBlock.slots = b.slots := rfl
@[simp] theorem temps_addBlock : b.addBlock.temps = b.temps := rfl
@[simp] theorem current_addBlock : b.addBlock.current = b.current := rfl
@[simp] theorem size_addBlock : b.addBlock.blocks.size = b.blocks.size + 1 := Array.size_push ..

@[simp] theorem slots_addTemp : (b.addTemp ty).slots = b.slots := rfl
@[simp] theorem temps_addTemp : (b.addTemp ty).temps = b.temps.push ty := rfl
@[simp] theorem blocks_addTemp : (b.addTemp ty).blocks = b.blocks := rfl
@[simp] theorem current_addTemp : (b.addTemp ty).current = b.current := rfl

@[simp] theorem slots_addSlot : (b.addSlot ty).slots = b.slots.push ty := rfl
@[simp] theorem temps_addSlot : (b.addSlot ty).temps = b.temps := rfl
@[simp] theorem blocks_addSlot : (b.addSlot ty).blocks = b.blocks := rfl
@[simp] theorem current_addSlot : (b.addSlot ty).current = b.current := rfl

@[simp] theorem slots_switchTo : (b.switchTo id).slots = b.slots := rfl
@[simp] theorem temps_switchTo : (b.switchTo id).temps = b.temps := rfl
@[simp] theorem blocks_switchTo : (b.switchTo id).blocks = b.blocks := rfl
@[simp] theorem current_switchTo : (b.switchTo id).current = id := rfl

@[simp] theorem resultOf_switchTo (result : Option SlotId) :
    (b.switchTo id).resultOf result = b.resultOf result := by cases result <;> rfl

@[simp] theorem slots_emit : (b.emit i).slots = b.slots := rfl
@[simp] theorem temps_emit : (b.emit i).temps = b.temps := rfl
@[simp] theorem current_emit : (b.emit i).current = b.current := rfl
@[simp] theorem size_emit : (b.emit i).blocks.size = b.blocks.size := Array.size_modify ..

@[simp] theorem slots_define (instr : TempId → Instr) : (b.define ty instr).slots = b.slots := rfl
@[simp] theorem temps_define (instr : TempId → Instr) : (b.define ty instr).temps = b.temps.push ty := rfl
@[simp] theorem current_define (instr : TempId → Instr) : (b.define ty instr).current = b.current := rfl
@[simp] theorem size_define (instr : TempId → Instr) :
    (b.define ty instr).blocks.size = b.blocks.size := Array.size_modify ..

@[simp] theorem slots_terminate : (b.terminate t).slots = b.slots := rfl
@[simp] theorem temps_terminate : (b.terminate t).temps = b.temps := rfl
@[simp] theorem current_terminate : (b.terminate t).current = b.current := rfl
@[simp] theorem size_terminate : (b.terminate t).blocks.size = b.blocks.size := Array.size_modify ..

@[simp] theorem pending_addTemp (k : Nat) : (b.addTemp ty).pending k = b.pending k := rfl
@[simp] theorem pending_addSlot (k : Nat) : (b.addSlot ty).pending k = b.pending k := rfl
@[simp] theorem pending_switchTo (k : Nat) : (b.switchTo id).pending k = b.pending k := rfl

/-- A new block is as empty as one that is not there. -/
@[simp] theorem pending_addBlock (k : Nat) : b.addBlock.pending k = b.pending k := by
  simp only [pending, addBlock, Array.getD_eq_getD_getElem?, Array.getElem?_push]
  split
  · subst k
    simp
  · rfl

theorem pending_mapCurrent (f : Pending → Pending) (h : b.current.index < b.blocks.size) (k : Nat) :
    (b.mapCurrent f).pending k = if k = b.current.index then f (b.pending k) else b.pending k := by
  simp only [pending, mapCurrent, Array.getD_eq_getD_getElem?, Array.getElem?_modify]
  split
  · subst k
    simp [h]
  · rw [if_neg (Ne.symm ‹_›)]

theorem pending_emit (h : b.current.index < b.blocks.size) (k : Nat) :
    (b.emit i).pending k = if k = b.current.index then
      { b.pending k with instrs := (b.pending k).instrs.push i } else b.pending k :=
  pending_mapCurrent b _ h k

theorem pending_terminate (h : b.current.index < b.blocks.size) (k : Nat) :
    (b.terminate t).pending k = if k = b.current.index then
      { b.pending k with terminator := (b.pending k).terminator <|> some t } else b.pending k :=
  pending_mapCurrent b _ h k

theorem pending_of_size_le {k : Nat} (h : b.blocks.size ≤ k) : b.pending k = {} := by
  simp [pending, h]

end Fields

end Builder

/-! ### Success -/

def Yields {α : Type} (m : Lower α) (ctx : Context) (b : Builder) (a : α) (b' : Builder) : Prop :=
  m ctx b = .ok (a, b')

variable {α β : Type} {ctx : Context} {b b' : Builder}

@[simp] theorem yields_pure {x a : α} : Yields (pure x) ctx b a b' ↔ a = x ∧ b' = b := by
  have run : (pure x : Lower α) ctx b = .ok (x, b) := rfl
  simp [Yields, run, eq_comm]

@[simp] theorem yields_bind {m : Lower α} {k : α → Lower β} {c : β} :
    Yields (m >>= k) ctx b c b' ↔ ∃ a b₁, Yields m ctx b a b₁ ∧ Yields (k a) ctx b₁ c b' := by
  have run : (m >>= k) ctx b = (m ctx b >>= fun p => k p.1 ctx p.2) := rfl
  unfold Yields
  rw [run]
  cases m ctx b with
  | error f => simp [bind, Except.bind]
  | ok p =>
    constructor
    · exact fun h => ⟨p.1, p.2, rfl, h⟩
    · rintro ⟨a, b₁, h, hk⟩
      cases h
      exact hk

theorem yields_bind_pure {m : Lower α} {f : α → β} {c : β} :
    Yields (m >>= fun a => pure (f a)) ctx b c b' ↔ ∃ a, Yields m ctx b a b' ∧ c = f a := by
  simp only [yields_bind, yields_pure]
  grind

@[simp] theorem yields_map {m : Lower α} {f : α → β} {c : β} :
    Yields (f <$> m) ctx b c b' ↔ ∃ a, c = f a ∧ Yields m ctx b a b' := by
  simp only [← bind_pure_comp, yields_bind_pure, and_comm]

@[simp] theorem yields_throw {f : Fault} {a : α} : Yields (throw f) ctx b a b' ↔ False := by
  constructor
  · intro h
    cases h
  · exact False.elim

@[simp] theorem yields_read {a : Context} : Yields read ctx b a b' ↔ a = ctx ∧ b' = b :=
  ⟨fun h => by cases h; exact ⟨rfl, rfl⟩, by rintro ⟨rfl, rfl⟩; rfl⟩

@[simp] theorem yields_newBlock {id : BlockId} :
    Yields newBlock ctx b id b' ↔ id = ⟨b.blocks.size⟩ ∧ b' = b.addBlock :=
  ⟨fun h => by cases h; exact ⟨rfl, rfl⟩, by rintro ⟨rfl, rfl⟩; rfl⟩

@[simp] theorem yields_switchTo {id : BlockId} {u : Unit} : Yields (switchTo id) ctx b u b' ↔ b' = b.switchTo id :=
  ⟨fun h => by cases h; rfl, by rintro rfl; rfl⟩

@[simp] theorem yields_emit {i : Instr} {u : Unit} : Yields (emit i) ctx b u b' ↔ b' = b.emit i :=
  ⟨fun h => by cases h; rfl, by rintro rfl; rfl⟩

@[simp] theorem yields_terminate {t : Terminator} {u : Unit} :
    Yields (terminate t) ctx b u b' ↔ b' = b.terminate t :=
  ⟨fun h => by cases h; rfl, by rintro rfl; rfl⟩

@[simp] theorem yields_leave {t : Terminator} {u : Unit} : Yields (leave t) ctx b u b' ↔ b' = b.leave t := by
  simp [leave, Builder.leave, Builder.terminate, Builder.mapCurrent, and_assoc]

@[simp] theorem yields_newTemp {ty : Storage} {id : TempId} :
    Yields (newTemp ty) ctx b id b' ↔ id = ⟨b.temps.size⟩ ∧ b' = b.addTemp ty :=
  ⟨fun h => by cases h; exact ⟨rfl, rfl⟩, by rintro ⟨rfl, rfl⟩; rfl⟩

@[simp] theorem yields_newSlot {ty : Storage} {id : SlotId} :
    Yields (newSlot ty) ctx b id b' ↔ id = ⟨b.slots.size⟩ ∧ b' = b.addSlot ty :=
  ⟨fun h => by cases h; exact ⟨rfl, rfl⟩, by rintro ⟨rfl, rfl⟩; rfl⟩

@[simp] theorem yields_slotType {slot : SlotId} {ty : Storage} :
    Yields (slotType slot) ctx b ty b' ↔ ty = b.slotType slot ∧ b' = b :=
  ⟨fun h => by cases h; exact ⟨rfl, rfl⟩, by rintro ⟨rfl, rfl⟩; rfl⟩

@[simp] theorem yields_define {ty : Storage} {instr : TempId → Instr} {v : Operand} :
    Yields (define ty instr) ctx b v b' ↔ v = .temp ⟨b.temps.size⟩ ∧ b' = b.define ty instr := by
  simp [define, Builder.define, and_assoc]

@[simp] theorem yields_load {slot : SlotId} {v : Operand} :
    Yields (load slot) ctx b v b' ↔ v = .temp ⟨b.temps.size⟩ ∧ b' = b.load slot := by
  simp [load, Builder.load, and_assoc]

@[simp] theorem yields_storeResult {result : Option SlotId} {v : Operand} {u : Unit} :
    Yields (storeResult result v) ctx b u b' ↔ b' = b.storeResult result v := by
  cases result <;> simp [storeResult, Builder.storeResult]

@[simp] theorem yields_loadResult {result : Option SlotId} {v : Operand} :
    Yields (loadResult result) ctx b v b' ↔ v = b.resultOf result ∧ b' = b.loadResult result := by
  cases result <;> simp [loadResult, Builder.loadResult, Builder.resultOf]

/-! ### What the checker found -/

def Context.Stores (ctx : Context) (id : NodeId) (ty : Storage) : Prop :=
  ∃ t, ctx.program.resolutions.exprTypes.get? id = some t ∧ storage t = .ok ty

@[simp] theorem yields_resolutions {r : Resolutions} :
    Yields resolutions ctx b r b' ↔ r = ctx.program.resolutions ∧ b' = b :=
  ⟨fun h => by cases h; exact ⟨rfl, rfl⟩, by rintro ⟨rfl, rfl⟩; rfl⟩

@[simp] theorem yields_liftStorage {t : Ty} {ty : Storage} :
    Yields (liftStorage t) ctx b ty b' ↔ storage t = .ok ty ∧ b' = b := by
  have run : liftStorage t ctx b = (storage t).map (fun ty => (ty, b)) := by
    cases h : storage t <;> simp [liftStorage, h, liftM, monadLift, MonadLift.monadLift,
      StateT.lift, bind, Except.bind, Except.map, pure, Except.pure]
  unfold Yields
  rw [run]
  cases storage t <;> simp [Except.map, eq_comm]

@[simp] theorem yields_checkedType {id : NodeId} {t : Ty} : Yields (checkedType id) ctx b t b' ↔
      ctx.program.resolutions.exprTypes.get? id = some t ∧ b' = b := by
  simp only [checkedType, yields_bind, yields_resolutions]
  grind [yields_pure, yields_throw]

@[simp] theorem yields_typeOf {id : NodeId} {ty : Storage} :
    Yields (typeOf id) ctx b ty b' ↔ ctx.Stores id ty ∧ b' = b := by
  simp only [typeOf, yields_bind, yields_checkedType, yields_liftStorage, Context.Stores]
  grind

@[simp] theorem yields_read_bind {k : Context → Lower α} {a : α} :
    Yields (read >>= k) ctx b a b' ↔ Yields (k ctx) ctx b a b' := Iff.rfl

@[simp] theorem yields_resolutions_bind {k : Resolutions → Lower α} {a : α} :
    Yields (resolutions >>= k) ctx b a b' ↔ Yields (k ctx.program.resolutions) ctx b a b' := Iff.rfl

@[simp] theorem yields_typeOf_bind {id : NodeId} {k : Storage → Lower α} {a : α} :
    Yields (typeOf id >>= k) ctx b a b' ↔ ∃ ty, ctx.Stores id ty ∧ Yields (k ty) ctx b a b' := by
  simp only [yields_bind, yields_typeOf, and_assoc, exists_and_left, exists_eq_left]

theorem yields_resultSlot {id : NodeId} {result : Option SlotId} :
    Yields (resultSlot id) ctx b result b' ↔ ∃ ty, ctx.Stores id ty ∧
      ((ty = .unit ∧ result = none ∧ b' = b) ∨
        (ty ≠ .unit ∧ result = some ⟨b.slots.size⟩ ∧ b' = b.addSlot ty)) := by
  simp only [resultSlot, yields_typeOf_bind]
  refine exists_congr fun ty => and_congr_right fun _ => ?_
  cases ty <;> simp only [yields_bind, yields_newSlot, yields_pure] <;> grind

def Context.FieldAt (ctx : Context) (struct name : String) (field : Ir.FieldRef) (ty : Storage) :
    Prop :=
  ∃ layout written, ctx.structs.get? struct = some layout ∧
    layout.fields.zipIdx.find? (fun (f, _) => f.1 == name) = some ((written, ty), field.index) ∧
      field.struct = struct

theorem yields_fieldOf {struct name : String} {r : Ir.FieldRef × Storage} :
    Yields (fieldOf struct name) ctx b r b' ↔ ctx.FieldAt struct name r.1 r.2 ∧ b' = b := by
  simp only [fieldOf, yields_read_bind, Context.FieldAt]
  constructor
  · intro h
    split at h
    · exact (yields_throw.1 h).elim
    · split at h
      · obtain ⟨rfl, rfl⟩ := yields_pure.1 h
        exact ⟨⟨_, _, ‹_›, ‹_›, rfl⟩, rfl⟩
      · exact (yields_throw.1 h).elim
  · rintro ⟨⟨layout, written, hl, hf, rfl⟩, rfl⟩
    rw [hl]
    simp only [hf]
    exact yields_pure.2 ⟨rfl, rfl⟩

@[simp] theorem yields_localSlot {s : Scope} {name : String} {slot : SlotId} :
    Yields (localSlot s name) ctx b slot b' ↔ s.find? name = some slot ∧ b' = b := by
  unfold localSlot
  cases s.find? name <;> simp [eq_comm]

end Keel.Lowering
