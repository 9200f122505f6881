/-
# Lowering only adds

What a rule of lowering has written stays: blocks keep their instructions, and a block
that has ended is never changed again (`Grows`).  Moreover a rule leaves alone all blocks
that were there before, except the one it starts in (`Extends`).  So a block that was made
for later is still empty when control is switched to it (`Reserved`).

The condition is that the current block has not ended (`Open`), which every rule keeps:
`extending_lowerExpr` and the statements after it say so for the whole syntax.
-/
import Keel.Proofs.Lowering.Rules

namespace Keel.Lowering

open List

open Ir (Storage Operand Instr Terminator BlockId TempId SlotId)

/-! ### Relations between builders -/

/-- The current block is there and has not ended. -/
structure Builder.Open (b : Builder) : Prop where
  lt : b.current.index < b.blocks.size
  ended : (b.pending b.current.index).terminator = none

structure Grows (b b' : Builder) : Prop where
  temps : b.temps.size ≤ b'.temps.size
  slots : b.slots.toList <+: b'.slots.toList
  blocks : b.blocks.size ≤ b'.blocks.size
  instrs : ∀ k, (b.pending k).instrs.toList <+: (b'.pending k).instrs.toList
  ended : ∀ k t, (b.pending k).terminator = some t → b'.pending k = b.pending k

namespace Grows

variable {b b' b'' : Builder}

theorem refl (b : Builder) : Grows b b :=
  ⟨Nat.le_refl _, prefix_refl _, Nat.le_refl _, fun _ => prefix_refl _, fun _ _ _ => rfl⟩

theorem trans (h : Grows b b') (h' : Grows b' b'') : Grows b b'' where
  temps := Nat.le_trans h.temps h'.temps
  slots := h.slots.trans h'.slots
  blocks := Nat.le_trans h.blocks h'.blocks
  instrs k := (h.instrs k).trans (h'.instrs k)
  ended k t ht := by
    have heq := h.ended k t ht
    rw [h'.ended k t (by rwa [heq]), heq]

theorem slots_le (h : Grows b b') : b.slots.size ≤ b'.slots.size := by
  simpa using h.slots.length_le

theorem slotType (h : Grows b b') {slot : SlotId} (hs : slot.index < b.slots.size) :
    b'.slotType slot = b.slotType slot := by
  have hs' : slot.index < b'.slots.size := Nat.lt_of_lt_of_le hs h.slots_le
  have := h.slots.getElem (i := slot.index) (by simpa using hs)
  simpa [Builder.slotType, Array.getD, hs, hs'] using this.symm

theorem addTemp (b : Builder) (ty : Storage) : Grows b (b.addTemp ty) :=
  ⟨by simp, prefix_refl _, Nat.le_refl _, fun _ => prefix_refl _, fun _ _ _ => rfl⟩

theorem addSlot (b : Builder) (ty : Storage) : Grows b (b.addSlot ty) :=
  ⟨Nat.le_refl _, by simp, Nat.le_refl _, fun _ => prefix_refl _, fun _ _ _ => rfl⟩

theorem addBlock (b : Builder) : Grows b b.addBlock :=
  ⟨Nat.le_refl _, prefix_refl _, by simp, fun k => by simp, fun k _ _ => by simp⟩

theorem switchTo (b : Builder) (id : BlockId) : Grows b (b.switchTo id) :=
  ⟨Nat.le_refl _, prefix_refl _, Nat.le_refl _, fun _ => prefix_refl _, fun _ _ _ => rfl⟩

theorem emit (h : b.Open) (i : Instr) : Grows b (b.emit i) where
  temps := Nat.le_refl _
  slots := prefix_refl _
  blocks := by simp
  instrs k := by
    rw [b.pending_emit i h.lt]
    split
    · simp
    · exact prefix_refl _
  ended k t ht := by
    rw [b.pending_emit i h.lt, if_neg]
    rintro rfl
    rw [h.ended] at ht
    cases ht

theorem terminate (h : b.Open) (t : Terminator) : Grows b (b.terminate t) where
  temps := Nat.le_refl _
  slots := prefix_refl _
  blocks := by simp
  instrs k := by
    rw [b.pending_terminate t h.lt]
    split <;> exact prefix_refl _
  ended k t' ht := by
    rw [b.pending_terminate t h.lt, if_neg]
    rintro rfl
    rw [h.ended] at ht
    cases ht

end Grows

/-- What was written stays, and the blocks other than the current one are left alone. -/
structure Extends (b b' : Builder) : Prop where
  grows : Grows b b'
  untouched : ∀ k < b.blocks.size, k ≠ b.current.index → b'.pending k = b.pending k
  moved : b'.current = b.current ∨ b.blocks.size ≤ b'.current.index

/-- Moreover the block that is current then has not ended. -/
structure Proceeds (b b' : Builder) : Prop extends Extends b b' where
  isOpen : b'.Open

structure Reserved (b : Builder) (id : BlockId) : Prop where
  lt : id.index < b.blocks.size
  empty : b.pending id.index = {}
  other : id ≠ b.current

namespace Builder.Open

variable {b : Builder}

theorem addTemp (h : b.Open) (ty : Storage) : (b.addTemp ty).Open := ⟨h.lt, h.ended⟩

theorem addSlot (h : b.Open) (ty : Storage) : (b.addSlot ty).Open := ⟨h.lt, h.ended⟩

theorem addBlock (h : b.Open) : b.addBlock.Open := by
  refine ⟨?_, by simpa using h.ended⟩
  have := h.lt
  simp
  omega

theorem emit (h : b.Open) (i : Instr) : (b.emit i).Open := by
  refine ⟨by simpa using h.lt, ?_⟩
  rw [b.current_emit, b.pending_emit i h.lt, if_pos rfl]
  exact h.ended

theorem define (h : b.Open) (ty : Storage) (f : TempId → Instr) : (b.define ty f).Open :=
  (h.addTemp ty).emit _

end Builder.Open

theorem Reserved.open_switchTo {b : Builder} {id : BlockId} (h : Reserved b id) : (b.switchTo id).Open := by
  refine ⟨h.lt, ?_⟩
  show (b.pending id.index).terminator = none
  rw [h.empty]

namespace Extends

variable {b b' b'' : Builder}

theorem refl (b : Builder) : Extends b b := ⟨.refl b, fun _ _ _ => rfl, .inl rfl⟩

theorem current_ne (h : Extends b b') {k : Nat} (hk : k < b.blocks.size)
    (hne : k ≠ b.current.index) : k ≠ b'.current.index := by
  rcases h.moved with hm | hm
  · rwa [hm]
  · omega

theorem trans (h : Extends b b') (h' : Extends b' b'') : Extends b b'' where
  grows := h.grows.trans h'.grows
  untouched k hk hne := by
    rw [h'.untouched k (Nat.lt_of_lt_of_le hk h.grows.blocks) (h.current_ne hk hne), h.untouched k hk hne]
  moved := by
    have := h.grows.blocks
    rcases h'.moved with hm | hm
    · rw [hm]
      exact h.moved
    · exact .inr (by omega)

theorem switchTo (h : Extends b b') {id : BlockId} (hid : b.blocks.size ≤ id.index) : Extends b (b'.switchTo id) :=
  ⟨h.grows.trans (.switchTo b' id), h.untouched, .inr hid⟩

theorem addTemp (b : Builder) (ty : Storage) : Extends b (b.addTemp ty) :=
  ⟨.addTemp b ty, fun _ _ _ => rfl, .inl rfl⟩

theorem addSlot (b : Builder) (ty : Storage) : Extends b (b.addSlot ty) :=
  ⟨.addSlot b ty, fun _ _ _ => rfl, .inl rfl⟩

theorem addBlock (b : Builder) : Extends b b.addBlock :=
  ⟨.addBlock b, fun _ _ _ => by simp, .inl rfl⟩

theorem emit (h : b.Open) (i : Instr) : Extends b (b.emit i) :=
  ⟨.emit h i, fun k _ hne => by rw [b.pending_emit i h.lt, if_neg hne], .inl rfl⟩

theorem define (h : b.Open) (ty : Storage) (f : TempId → Instr) : Extends b (b.define ty f) :=
  (addTemp b ty).trans (emit (h.addTemp ty) _)

theorem terminate (h : b.Open) (t : Terminator) : Extends b (b.terminate t) :=
  ⟨.terminate h t, fun k _ hne => by rw [b.pending_terminate t h.lt, if_neg hne], .inl rfl⟩

end Extends

namespace Proceeds

variable {b b' b'' : Builder}

theorem refl (h : b.Open) : Proceeds b b := ⟨.refl b, h⟩

theorem trans (h : Proceeds b b') (h' : Proceeds b' b'') : Proceeds b b'' :=
  ⟨h.toExtends.trans h'.toExtends, h'.isOpen⟩

theorem addSlot (h : Proceeds b b') (ty : Storage) : Proceeds b (b'.addSlot ty) :=
  ⟨h.toExtends.trans (.addSlot b' ty), h.isOpen.addSlot ty⟩

theorem addBlock (h : Proceeds b b') : Proceeds b b'.addBlock :=
  ⟨h.toExtends.trans (.addBlock b'), h.isOpen.addBlock⟩

theorem emit (h : Proceeds b b') (i : Instr) : Proceeds b (b'.emit i) :=
  ⟨h.toExtends.trans (.emit h.isOpen i), h.isOpen.emit i⟩

theorem define (h : Proceeds b b') (ty : Storage) (f : TempId → Instr) : Proceeds b (b'.define ty f) :=
  ⟨h.toExtends.trans (.define h.isOpen ty f), h.isOpen.define ty f⟩

end Proceeds

namespace Reserved

variable {b b' : Builder} {id : BlockId}

theorem kept (h : Reserved b id) (he : Extends b b') : Reserved b' id := by
  have hne : id.index ≠ b.current.index := fun heq => h.other (by cases id; cases hc : b.current; simp_all)
  refine ⟨Nat.lt_of_lt_of_le h.lt he.grows.blocks, ?_, fun heq => ?_⟩
  · rw [he.untouched _ h.lt hne, h.empty]
  · exact he.current_ne h.lt hne (congrArg BlockId.index heq)

theorem addBlock (h : b.Open) : Reserved b.addBlock ⟨b.blocks.size⟩ := by
  refine ⟨by simp, by simp [b.pending_of_size_le], fun heq => ?_⟩
  have := congrArg BlockId.index heq
  have := h.lt
  simp at *
  omega

theorem switchTo (h : Reserved b id) {other : BlockId} (hne : id ≠ other) :
    Reserved (b.switchTo other) id := ⟨h.lt, h.empty, hne⟩

theorem terminate (h : Reserved b id) (ho : b.Open) (t : Terminator) : Reserved (b.terminate t) id :=
  h.kept (.terminate ho t)

end Reserved

/-! ### Computations -/

/-- The computation extends a builder whose current block has not ended. -/
def Extending {α : Type} (m : Lower α) : Prop :=
  ∀ ⦃ctx b a b'⦄, b.Open → Yields m ctx b a b' → Proceeds b b'

namespace Extending

variable {α β : Type} {m : Lower α}

theorem of_same (h : ∀ ⦃ctx b a b'⦄, Yields m ctx b a b' → b' = b) : Extending m := by
  intro ctx b a b' ho hm
  cases h hm
  exact .refl ho

theorem pure (a : α) : Extending (Pure.pure a : Lower α) := of_same fun _ _ _ _ h => (yields_pure.1 h).2

theorem bind {k : α → Lower β} (hm : Extending m) (hk : ∀ a, Extending (k a)) : Extending (m >>= k) := by
  intro ctx b c b' ho h
  obtain ⟨a, b₁, ha, hc⟩ := yields_bind.1 h
  have h₁ := hm ho ha
  exact h₁.trans (hk a h₁.isOpen hc)

theorem resolutions_bind {k : Resolutions → Lower α} (hk : ∀ r, Extending (k r)) : Extending (resolutions >>= k) :=
  bind (of_same fun _ _ _ _ h => (yields_resolutions.1 h).2) hk

theorem typeOf (id : NodeId) : Extending (typeOf id) :=
  of_same fun _ _ _ _ h => (yields_typeOf.1 h).2

theorem emit (i : Instr) : Extending (emit i) := by
  intro ctx b u b' ho h
  cases yields_emit.1 h
  exact (Proceeds.refl ho).emit i

theorem newSlot (ty : Storage) : Extending (newSlot ty) := by
  intro ctx b slot b' ho h
  obtain ⟨-, rfl⟩ := yields_newSlot.1 h
  exact (Proceeds.refl ho).addSlot ty

theorem define (ty : Storage) (f : TempId → Instr) : Extending (define ty f) := by
  intro ctx b v b' ho h
  obtain ⟨-, rfl⟩ := yields_define.1 h
  exact (Proceeds.refl ho).define ty f

theorem resultSlot (id : NodeId) : Extending (resultSlot id) := by
  refine bind (typeOf id) fun ty => ?_
  split
  · exact pure _
  · exact bind (newSlot _) fun _ => pure _

theorem leave (t : Terminator) : Extending (leave t) := by
  intro ctx b u b' ho h
  cases yields_leave.1 h
  have hext := (Extends.terminate ho t).trans (.addBlock _)
  refine ⟨hext.switchTo (Nat.le_refl _), by simp [Builder.leave], ?_⟩
  show ((b.terminate t).addBlock.pending b.blocks.size).terminator = none
  rw [Builder.pending_addBlock, Builder.pending_of_size_le _ (by simp)]

end Extending

/-! ### Branches -/

section Branches

variable {b b' : Builder}

theorem Extends.endBranch (h : b.Open) (result : Option SlotId) (v : Operand) (join : BlockId) :
    Extends b (b.endBranch result v join) := by
  cases result with
  | none => exact .terminate h _
  | some slot => exact (Extends.emit h _).trans (.terminate (h.emit _) _)

theorem Builder.Open.loadResult (h : b.Open) (result : Option SlotId) : Proceeds b (b.loadResult result) := by
  cases result with
  | none => exact .refl h
  | some slot => exact (Proceeds.refl h).define (b.slotType slot) fun dest => .load dest slot

/-- Control goes on in the common block. -/
theorem Extends.resume (h : Extends b b') (result : Option SlotId) {join : BlockId}
    (hjoin : Reserved b' join) (hnew : b.blocks.size ≤ join.index) : Proceeds b (b'.resume result join) := by
  obtain ⟨hload, ho⟩ := hjoin.open_switchTo.loadResult result
  exact ⟨(h.switchTo hnew).trans hload, ho⟩

theorem Builder.Open.addBlocks (h : b.Open) : Proceeds b b.addBlock.addBlock.addBlock ∧
    Reserved b.addBlock.addBlock.addBlock ⟨b.blocks.size⟩ ∧
      Reserved b.addBlock.addBlock.addBlock ⟨b.blocks.size + 1⟩ ∧
        Reserved b.addBlock.addBlock.addBlock ⟨b.blocks.size + 2⟩ := by
  have h₁ := Reserved.addBlock h
  have h₂ := Reserved.addBlock h.addBlock
  have h₃ := Reserved.addBlock h.addBlock.addBlock
  simp only [Builder.size_addBlock, Nat.add_assoc, Nat.reduceAdd] at h₂ h₃
  exact ⟨(Proceeds.refl h).addBlock.addBlock.addBlock, (h₁.kept (.addBlock _)).kept (.addBlock _),
    h₂.kept (.addBlock _), h₃⟩

theorem Proceeds.enter (h : Proceeds b b') (t : Terminator) {id : BlockId} (hid : Reserved b' id)
    (hnew : b.blocks.size ≤ id.index) : Proceeds b ((b'.terminate t).switchTo id) :=
  ⟨(h.toExtends.trans (.terminate h.isOpen t)).switchTo hnew, (hid.terminate h.isOpen t).open_switchTo⟩

theorem Reserved.enter {id k : BlockId} (h : Reserved b id) (ho : b.Open) (t : Terminator)
    (hne : id ≠ k) : Reserved ((b.terminate t).switchTo k) id :=
  (h.terminate ho t).switchTo hne

theorem Builder.Open.shortcut (h : b.Open) (op : LogicOp) (v : Operand) (result : SlotId) :
    Proceeds b (b.shortcut op v result) ∧ Reserved (b.shortcut op v result) ⟨b.blocks.size + 2⟩ := by
  obtain ⟨h₁, hright, hshort, hjoin⟩ := h.addBlocks
  have h₂ := h₁.enter (branchOnLeft op v ⟨b.blocks.size⟩ ⟨b.blocks.size + 1⟩) hshort (by simp)
  have h₃ := h₂.emit (.store result (.bool (op == .or)))
  have hemit := Extends.emit h₂.isOpen (.store result (.bool (op == .or)))
  have hright₃ := (hright.enter h₁.isOpen _ (by simp)).kept hemit
  have hjoin₃ := (hjoin.enter h₁.isOpen _ (by simp)).kept hemit
  exact ⟨h₃.enter (.jump ⟨b.blocks.size + 2⟩) hright₃ (Nat.le_refl _), hjoin₃.enter h₃.isOpen _ (by simp)⟩

theorem Builder.Open.choose (h : b.Open) (c : Operand) (hasElse : Bool) :
    Proceeds b (b.choose c hasElse) ∧ Reserved (b.choose c hasElse) ⟨b.blocks.size + 1⟩ ∧
      (hasElse → Reserved (b.choose c hasElse) ⟨b.blocks.size + 2⟩) := by
  cases hasElse with
  | true =>
    obtain ⟨h₁, hyes, hjoin, hno⟩ := h.addBlocks
    exact ⟨h₁.enter _ hyes (Nat.le_refl _), hjoin.enter h₁.isOpen _ (by simp),
      fun _ => hno.enter h₁.isOpen _ (by simp)⟩
  | false =>
    have h₁ := (Proceeds.refl h).addBlock.addBlock
    have hyes := (Reserved.addBlock h).kept (.addBlock _)
    have hjoin := Reserved.addBlock h.addBlock
    rw [Builder.size_addBlock] at hjoin
    exact ⟨h₁.enter _ hyes (Nat.le_refl _), hjoin.enter h₁.isOpen _ (by simp), by simp⟩

theorem Builder.Open.test (h : b.Open) (discriminant expected : Operand) (compared : Storage) :
    Proceeds b (b.addBlock.test discriminant expected compared ⟨b.blocks.size⟩) ∧
      Reserved (b.addBlock.test discriminant expected compared ⟨b.blocks.size⟩) ⟨b.blocks.size⟩ := by
  let f (dest : TempId) : Instr := .binary dest (.compare .eq) discriminant expected compared
  have h₁ := ((Proceeds.refl h).addBlock.define .bool f).addBlock
  have harm := ((Reserved.addBlock h).kept (.define h.addBlock .bool f)).kept (.addBlock _)
  have hnext := Reserved.addBlock (h.addBlock.define .bool f)
  rw [Builder.size_define, Builder.size_addBlock] at hnext
  simp only [Builder.test, Builder.size_addBlock, Builder.temps_addBlock]
  exact ⟨h₁.enter _ hnext (by simp), harm.enter h₁.isOpen _ (by simp)⟩

theorem Builder.Open.enterLoop (h : b.Open) : Proceeds b b.enterLoop ∧
    Reserved b.enterLoop ⟨b.blocks.size + 1⟩ ∧ Reserved b.enterLoop ⟨b.blocks.size + 2⟩ := by
  obtain ⟨h₁, hhead, hinside, hafter⟩ := h.addBlocks
  exact ⟨h₁.enter _ hhead (Nat.le_refl _), hinside.enter h₁.isOpen _ (by simp),
    hafter.enter h₁.isOpen _ (by simp)⟩

end Branches

/-! ### Rules -/

theorem extending_lowerLiteral (id : NodeId) (lit : Literal) : Extending (lowerLiteral id lit) :=
  .of_same fun _ _ _ _ h => (yields_lowerLiteral.1 h).2

theorem extending_lowerPath (id : NodeId) (path : PathExpr) (s : Scope) : Extending (lowerPath id path s) := by
  intro ctx b v b' ho h
  rcases yields_lowerPath.1 h with ⟨slot, -, -, rfl⟩ | ⟨-, name, -, -, rfl⟩
  · exact (Proceeds.refl ho).define _ _
  · exact .refl ho

theorem extending_lowerUnary (id : NodeId) (op : UnaryOp) (v : Operand) : Extending (lowerUnary id op v) := by
  unfold lowerUnary
  split
  · exact .pure _
  · exact .bind (.typeOf id) fun _ => .define _ _

theorem extending_lowerEager (id : NodeId) (op : Ir.EagerOp) {left right : Part}
    (hleft : Extending left.lower) (hright : Extending right.lower) : Extending (lowerEager id op left right) :=
  .bind (.typeOf _) fun _ => .bind hleft fun _ => .bind hright fun _ =>
    .bind (.typeOf _) fun _ => .define _ _

theorem extending_lowerLogic (op : LogicOp) {left right : Lower Operand} (hleft : Extending left)
    (hright : Extending right) : Extending (lowerLogic op left right) := by
  intro ctx b v b' ho h
  obtain ⟨l, b₁, r, b₂, hl, hr, -, rfl⟩ := yields_lowerLogic.1 h
  have h₁ := hleft (ho.addSlot .bool) hl
  obtain ⟨h₂, hjoin⟩ := h₁.isOpen.shortcut op l ⟨b.slots.size⟩
  have h₃ := hright h₂.isOpen hr
  have h₄ := Extends.endBranch h₃.isOpen (some ⟨b.slots.size⟩) r ⟨b₁.blocks.size + 2⟩
  have hblocks := h₁.grows.blocks
  rw [Builder.blocks_addSlot] at hblocks
  exact (((Extends.addSlot b .bool).trans (h₁.trans (h₂.trans h₃)).toExtends).trans h₄).resume _
    ((hjoin.kept h₃.toExtends).kept h₄) (by simp; omega)

theorem Builder.Open.checkRange (h : b.Open) (target : Ty) (value : Operand) (source : IntKind) :
    Proceeds b (b.checkRange target value source) := by
  cases target with
  | range base low high => exact (Proceeds.refl h).emit _
  | _ => exact .refl h

theorem Builder.Open.convert (h : b.Open) (value : Operand) (source kind : IntKind) :
    Proceeds b (b.convert value source kind) := by
  unfold Builder.convert
  split
  · exact .refl h
  · exact (Proceeds.refl h).define _ _

theorem extending_lowerCast (id : NodeId) {operand : Part} (h : Extending operand.lower) :
    Extending (lowerCast id operand) := by
  intro ctx b v b' ho hm
  obtain ⟨target, source, value, b₁, kind, -, -, hvalue, -, -, rfl⟩ := yields_lowerCast.1 hm
  have h₁ := (h ho hvalue).trans ((h ho hvalue).isOpen.checkRange target value source)
  exact h₁.trans (h₁.isOpen.convert value source kind)

theorem extending_lowerVariant (ref : VariantRef) (payload : Option Operand) :
    Extending (lowerVariant ref payload) := .define _ _

theorem extending_lowerMember (id : NodeId) (name : String) {base : Part}
    (h : Extending base.lower) : Extending (lowerMember id base name) := by
  intro ctx b v b' ho hm
  rcases yields_lowerMember.1 hm with ⟨ref, -, hv⟩ | ⟨-, struct, value, b₁, field, ty, -, hv, -, -, rfl⟩
  · exact extending_lowerVariant ref none ho hv
  · exact (h ho hv).define _ _

theorem extending_lowerRecord (id : NodeId) {fields : Lower (List (String × Operand))}
    (h : Extending fields) : Extending (lowerRecord id fields) := by
  intro ctx b v b' ho hm
  obtain ⟨name, values, b₁, layout, ordered, -, hvalues, -, -, -, rfl⟩ := yields_lowerRecord.1 hm
  exact (h ho hvalues).define _ _

theorem extending_lowerParts {parts : List Part} (h : ∀ p ∈ parts, Extending p.lower) :
    Extending (lowerParts parts) := by
  induction parts with
  | nil => exact .pure _
  | cons p parts ih =>
    obtain ⟨hp, hparts⟩ := forall_mem_cons.1 h
    rw [lowerParts, mapM_cons]
    exact .bind hp fun _ => .bind (ih hparts) fun _ => .pure _

theorem extending_lowerService (which : Ir.Service) (builtin : Builtin) {args : List Part}
    (h : ∀ p ∈ args, Extending p.lower) : Extending (lowerService which builtin args) := by
  intro ctx b v b' ho hm
  obtain ⟨arg, ty, value, b₁, harg, -, hvalue, -, rfl⟩ := yields_lowerService.1 hm
  exact (h arg (mem_of_mem_head? harg) ho hvalue).emit _

theorem extending_lowerCall (id : NodeId) (s : Scope) (callee : Expr) {args : List Part}
    (h : ∀ p ∈ args, Extending p.lower) : Extending (lowerCall id s callee args) := by
  intro ctx b v b' ho hm
  obtain ⟨target, -, hm⟩ := yields_lowerCall.1 hm
  cases target with
  | intrinsic op =>
    obtain ⟨receiver, values, b₁, ty, -, hvalues, -, -, rfl⟩ := yields_lowerIntrinsic.1 hm
    exact (extending_lowerParts h ho hvalues).define _ _
  | variant ref =>
    obtain ⟨payload, b₁, hpayload, hv⟩ := yields_bind.1 hm
    rcases yields_payload.1 hpayload with ⟨-, -, rfl⟩ | ⟨arg, rest, value, rfl, -, hvalue⟩
    · exact extending_lowerVariant ref _ ho hv
    · have h₁ := h arg (by simp) ho hvalue
      exact h₁.trans (extending_lowerVariant ref _ h₁.isOpen hv)
  | builtin which =>
    rcases yields_lowerBuiltin.1 hm with ⟨service, -, hm⟩ | ⟨-, element, -, -, rfl⟩
    · exact extending_lowerService service which h ho hm
    · exact (Proceeds.refl ho).define _ _
  | function name =>
    obtain ⟨values, b₁, ty, hvalues, -, -, rfl⟩ := yields_lowerFunctionCall.1 hm
    exact (extending_lowerParts h ho hvalues).define _ _

/-! ### Matches -/

theorem extending_bindPayload (scrutinee : Operand) (ref : VariantRef) (variant : String) :
    ∀ (fields : List (Pattern × Nat)) (s : Scope),
      Extending (bindPayload scrutinee ref variant fields s)
  | [], _ => .pure _
  | (p, field) :: rest, s => by
    intro ctx b inner b' ho hm
    by_cases hp : ∃ name, p.kind = .bind name
    · obtain ⟨name, hp⟩ := hp
      obtain ⟨ty, -, hm⟩ := (yields_bindPayload_bind hp).1 hm
      exact .trans ((((Proceeds.refl ho).define _ _).addSlot ty).emit _)
        (extending_bindPayload scrutinee ref variant rest _ (((ho.define _ _).addSlot ty).emit _) hm)
    · rw [yields_bindPayload_other fun name h => hp ⟨name, h⟩] at hm
      exact extending_bindPayload scrutinee ref variant rest s ho hm

theorem extending_bindPattern (scrutinee : Operand) (ty : Storage) (p : Pattern) (s : Scope) :
    Extending (bindPattern scrutinee ty p s) := by
  refine .resolutions_bind fun r => ?_
  split
  · exact .bind (.newSlot _) fun _ => .bind (.emit _) fun _ => .pure _
  · exact extending_bindPayload _ _ _ _ _
  · exact .pure _

theorem extending_discriminantOf (scrutinee : Operand) (ty : Storage) :
    Extending (discriminantOf scrutinee ty) := by
  unfold discriminantOf
  split
  · exact .bind (.define _ _) fun _ => .pure _
  · exact .pure _

/-- The blocks of the arms wait for their code: they were made after `base`, and are
different. -/
structure Await (base b : Builder) (chosen : List (BlockId × ArmPart)) : Prop where
  new : ∀ p ∈ chosen, base.blocks.size ≤ p.1.index
  reserved : ∀ p ∈ chosen, Reserved b p.1
  nodup : (chosen.map Prod.fst).Nodup

variable {base : Builder} {chosen : List (BlockId × ArmPart)} {ctx : Context} {ty : Storage} {join : BlockId}
  {arms : List ArmPart}

/-- Blocks that were there before are none of them. -/
theorem Await.not_mem {b : Builder} (h : Await base b chosen) {id : BlockId} (hid : id.index < base.blocks.size) :
    id ∉ chosen.map Prod.fst := by
  intro hmem
  obtain ⟨p, hp, rfl⟩ := mem_map.1 hmem
  exact absurd (h.new p hp) (Nat.not_le.2 hid)

theorem await_lowerTests {discriminant : Operand} {compared : Storage} {b b' : Builder} (ho : b.Open)
    (hm : Yields (lowerTests discriminant compared ty join arms) ctx b chosen b') :
    Extends b b' ∧ Await b b' chosen ∧ ∀ p ∈ chosen, p.2 ∈ arms := by
  induction arms generalizing b chosen with
  | nil =>
    obtain ⟨rfl, rfl⟩ := yields_lowerTests_nil.1 hm
    exact ⟨.terminate ho _, ⟨by simp, by simp, by simp⟩, by simp⟩
  | cons arm rest ih =>
    obtain ⟨test, -, htest⟩ := yields_lowerTests_cons.1 hm
    cases test with
    | none =>
      obtain ⟨rfl, rfl⟩ := htest
      exact ⟨(Extends.addBlock b).trans (.terminate ho.addBlock _), ⟨by simp,
        by simpa using (Reserved.addBlock ho).terminate ho.addBlock _, by simp⟩, by simp⟩
    | some expected =>
      obtain ⟨more, hmore, rfl⟩ := htest
      obtain ⟨⟨h₁, ho₁⟩, harm⟩ := ho.test discriminant expected compared
      obtain ⟨h₂, hawait, hmem⟩ := ih ho₁ hmore
      have hlt : b.blocks.size <
          (b.addBlock.test discriminant expected compared ⟨b.blocks.size⟩).blocks.size := harm.lt
      refine ⟨h₁.trans h₂, ⟨?_, ?_, ?_⟩, forall_mem_cons.2 ⟨by simp, fun p hp => .tail _ (hmem p hp)⟩⟩
      · refine forall_mem_cons.2 ⟨Nat.le_refl _, fun p hp => ?_⟩
        have := hawait.new p hp
        omega
      · exact forall_mem_cons.2 ⟨harm.kept h₂, hawait.reserved⟩
      · refine nodup_cons.2 ⟨fun hmem => ?_, hawait.nodup⟩
        obtain ⟨p, hp, heq⟩ := mem_map.1 hmem
        have := hawait.new p hp
        rw [heq] at this
        exact absurd this (Nat.not_le.2 hlt)

theorem Await.rest {b b' : Builder} {block : BlockId} {arm : ArmPart} (h : Await base b ((block, arm) :: chosen))
    (he : Extends (b.switchTo block) b') : Await base b' chosen := by
  obtain ⟨-, hnew⟩ := forall_mem_cons.1 h.new
  obtain ⟨-, hreserved⟩ := forall_mem_cons.1 h.reserved
  obtain ⟨hnot, hnodup⟩ := nodup_cons.1 h.nodup
  refine ⟨hnew, fun p hp => ((hreserved p hp).switchTo fun heq => ?_).kept he, hnodup⟩
  exact hnot (mem_map.2 ⟨p, hp, heq⟩)

/-- The arms get their code one after the other; other blocks made for later stay. -/
theorem extends_lowerArms {scrutinee : Operand} {result : Option SlotId} {s : Scope} {b b' : Builder} {u : Unit}
    (hbase : Extends base b) (hawait : Await base b chosen)
    (hbody : ∀ p ∈ chosen, ∀ inner, Extending (p.2.body inner))
    (hm : Yields (lowerArms scrutinee ty result join s chosen) ctx b u b') : Extends base b' ∧ Grows b b' ∧
      ∀ id, Reserved b id → id ∉ chosen.map Prod.fst → Reserved b' id := by
  induction chosen generalizing b with
  | nil =>
    cases yields_lowerArms_nil.1 hm
    exact ⟨hbase, .refl _, fun id h _ => h⟩
  | cons p rest ih =>
    obtain ⟨block, arm⟩ := p
    obtain ⟨inner, b₁, value, b₂, hbind, hvalue, hm⟩ := yields_lowerArms_cons.1 hm
    have hnew := hawait.new _ mem_cons_self
    have hblock := hawait.reserved _ mem_cons_self
    obtain ⟨harm, harms⟩ := forall_mem_cons.1 hbody
    have h₁ := extending_bindPattern _ _ _ _ hblock.open_switchTo hbind
    have h₂ := h₁.trans (harm inner h₁.isOpen hvalue)
    have h₃ := h₂.toExtends.trans (.endBranch h₂.isOpen result value join)
    obtain ⟨h₄, hgrows, hrest⟩ := ih ((hbase.switchTo hnew).trans h₃) (hawait.rest h₃) harms hm
    refine ⟨h₄, ((Grows.switchTo b block).trans h₃.grows).trans hgrows, fun id hid hmem => ?_⟩
    rw [map_cons, mem_cons, not_or] at hmem
    exact hrest id ((hid.switchTo hmem.1).kept h₃) hmem.2

theorem extending_lowerSelect (id : NodeId) (s : Scope) {scrutinee : Part} (hscrutinee : Extending scrutinee.lower)
    (harms : ∀ arm ∈ arms, ∀ inner, Extending (arm.body inner)) : Extending (lowerSelect id scrutinee arms s) := by
  intro ctx b v b' ho hm
  obtain ⟨ty, value, b₁, discriminant, compared, b₂, result, b₃, chosen, b₄, u, b₅, -, hvalue,
    hdisc, hresult, htests, hbodies, -, rfl⟩ := yields_lowerSelect.1 hm
  have h₁ := hscrutinee ho hvalue
  have h₂ := h₁.trans (extending_discriminantOf _ _ h₁.isOpen hdisc)
  have h₃ := h₂.trans (Extending.resultSlot id h₂.isOpen hresult)
  have hnew := Reserved.addBlock h₃.isOpen
  obtain ⟨h₄, hawait, hmem⟩ := await_lowerTests h₃.isOpen.addBlock htests
  obtain ⟨h₅, -, hkeep⟩ := extends_lowerArms h₄ hawait (fun p hp => harms p.2 (hmem p hp)) hbodies
  have hjoin := hkeep _ (hnew.kept h₄) (hawait.not_mem hnew.lt)
  exact (h₃.addBlock.toExtends.trans h₅).resume result hjoin h₃.grows.blocks

/-! ### The recursion -/

mutual

theorem extending_lowerExpr : ∀ (e : Expr) (s : Scope), Extending (lowerExpr e s)
  | ⟨id, .literal value, _⟩, _ => extending_lowerLiteral id value
  | ⟨id, .path path, _⟩, s => extending_lowerPath id path s
  | ⟨id, .unary op operand, _⟩, s =>
    .bind (extending_lowerExpr operand s) fun v => extending_lowerUnary id op v
  | ⟨_, .binary (.logic op) left right, _⟩, s =>
    extending_lowerLogic op (extending_lowerExpr left s) (extending_lowerExpr right s)
  | ⟨id, .binary (.compare op) left right, _⟩, s =>
    extending_lowerEager id (.compare op) (extending_lowerExpr left s) (extending_lowerExpr right s)
  | ⟨id, .binary (.arith op) left right, _⟩, s =>
    extending_lowerEager id (.arith op) (extending_lowerExpr left s) (extending_lowerExpr right s)
  | ⟨id, .cast operand _, _⟩, s => extending_lowerCast id (extending_lowerExpr operand s)
  | ⟨id, .call callee args, _⟩, s => extending_lowerCall id s callee (extending_exprParts args s)
  | ⟨id, .member base name _, _⟩, s => extending_lowerMember id name (extending_lowerExpr base s)
  | ⟨id, .record _ fields, _⟩, s => extending_lowerRecord id (extending_lowerFields fields s)
  | ⟨id, .select scrutinee arms, _⟩, s =>
    extending_lowerSelect id s (extending_lowerExpr scrutinee s) (extending_armParts arms)
  | ⟨id, .cond choice, _⟩, s =>
    .bind (.resultSlot id) fun result => extending_lowerConditional choice s result
  | ⟨_, .block body, _⟩, s => extending_lowerBlock body s

theorem extending_exprParts : ∀ (args : List Expr) (s : Scope), ∀ p ∈ exprParts args s, Extending p.lower
  | [], _ => forall_mem_nil _
  | e :: rest, s => forall_mem_cons.2 ⟨extending_lowerExpr e s, extending_exprParts rest s⟩

theorem extending_lowerFields : ∀ (fields : List FieldInit) (s : Scope), Extending (lowerFields fields s)
  | [], _ => .pure _
  | ⟨_, value, _⟩ :: rest, s =>
    .bind (extending_lowerExpr value s) fun _ => .bind (extending_lowerFields rest s) fun _ => .pure _

theorem extending_armParts : ∀ (arms : List Arm), ∀ arm ∈ armParts arms, ∀ inner, Extending (arm.body inner)
  | [] => forall_mem_nil _
  | ⟨_, body, _⟩ :: rest => forall_mem_cons.2 ⟨extending_lowerExpr body, extending_armParts rest⟩

theorem extending_lowerConditional : ∀ (choice : Conditional) (s : Scope) (result : Option SlotId),
    Extending (lowerConditional choice s result)
  | ⟨condition, thenBlock, otherwise, _⟩, s, result => by
    intro ctx b v b' ho hm
    obtain ⟨c, b₁, value, b₂, u, b₃, hc, hthen, helse, -, rfl⟩ := yields_lowerConditional.1 hm
    have h₁ := extending_lowerExpr condition s ho hc
    obtain ⟨h₂, hjoin, hno⟩ := h₁.isOpen.choose c otherwise.isPresent
    have h₃ := extending_lowerBlock thenBlock s h₂.isOpen hthen
    have h₄ := h₃.toExtends.trans (.endBranch h₃.isOpen result value ⟨b₁.blocks.size + 1⟩)
    obtain ⟨h₅, -, hjoin₅⟩ := extends_lowerElse otherwise s result ((h₁.trans h₂).toExtends.trans h₄)
      (fun hpresent => ⟨by simp [hpresent]; have := h₁.grows.blocks; omega,
        by simpa [hpresent] using (hno hpresent).kept h₄⟩) helse
    have hblocks := h₁.grows.blocks
    exact h₅.resume result (hjoin₅ _ (hjoin.kept h₄) (by cases otherwise.isPresent <;> simp))
      (by simp; omega)

theorem extends_lowerElse : ∀ (otherwise : ElseBranch) (s : Scope) (result : Option SlotId)
    ⦃ctx : Context⦄ ⦃base b b' : Builder⦄ ⦃no join : BlockId⦄ ⦃u : Unit⦄, Extends base b →
      (otherwise.isPresent → base.blocks.size ≤ no.index ∧ Reserved b no) →
        Yields (lowerElse otherwise s result no join) ctx b u b' →
          Extends base b' ∧ Grows b b' ∧ ∀ id, Reserved b id → (otherwise.isPresent → id ≠ no) → Reserved b' id
  | .absent, s, result, _, _, _, _, _, _, _, hbase, _, hm => by
    cases yields_lowerElse_absent.1 hm
    exact ⟨hbase, .refl _, fun _ h _ => h⟩
  | .block body, s, result, ctx, base, b, b', no, join, u, hbase, hno, hm => by
    obtain ⟨value, b₁, hbody, rfl⟩ := yields_lowerElse_block.1 hm
    obtain ⟨hnew, hres⟩ := hno rfl
    obtain ⟨h₁, ho₁⟩ := extending_lowerBlock body s hres.open_switchTo hbody
    have h₂ := h₁.trans (.endBranch ho₁ result value join)
    exact ⟨(hbase.switchTo hnew).trans h₂, (Grows.switchTo b no).trans h₂.grows,
      fun id hid hne => (hid.switchTo (hne rfl)).kept h₂⟩
  | .elseIf choice, s, result, ctx, base, b, b', no, join, u, hbase, hno, hm => by
    obtain ⟨value, b₁, hbody, rfl⟩ := yields_lowerElse_elseIf.1 hm
    obtain ⟨hnew, hres⟩ := hno rfl
    obtain ⟨h₁, ho₁⟩ := extending_lowerConditional choice s result hres.open_switchTo hbody
    have h₂ := h₁.trans (.terminate ho₁ (.jump join))
    exact ⟨(hbase.switchTo hnew).trans h₂, (Grows.switchTo b no).trans h₂.grows,
      fun id hid hne => (hid.switchTo (hne rfl)).kept h₂⟩

theorem extending_lowerBlock : ∀ (body : Block) (s : Scope), Extending (lowerBlock body s)
  | ⟨stmts, tail, _⟩, s =>
    .bind (extending_lowerStmts stmts s) fun inner => extending_lowerTail tail inner

theorem extending_lowerTail : ∀ (tail : Option Expr) (s : Scope), Extending (lowerTail tail s)
  | none, _ => .pure _
  | some e, s => extending_lowerExpr e s

theorem extending_lowerStmts : ∀ (stmts : List Stmt) (s : Scope), Extending (lowerStmts stmts s)
  | [], _ => .pure _
  | stmt :: rest, s => .bind (extending_lowerStmt stmt s) fun s₁ => extending_lowerStmts rest s₁

theorem extending_lowerStmt : ∀ (stmt : Stmt) (s : Scope), Extending (lowerStmt stmt s)
  | .bind _ _ _ value _ _, s => by
    intro ctx b inner b' ho hm
    obtain ⟨ty, u, -, hinit, -⟩ := yields_lowerStmt_bind.1 hm
    exact ((Proceeds.refl ho).addSlot ty).trans (extending_lowerInit value s _ (ho.addSlot ty) hinit)
  | .assign _ value _, s => by
    intro ctx b inner b' ho hm
    obtain ⟨v, b₁, slot, hv, -, -, rfl⟩ := yields_lowerStmt_assign.1 hm
    exact (extending_lowerExpr value s ho hv).emit _
  | .assignField _ _ value _, s => by
    intro ctx b inner b' ho hm
    obtain ⟨v, b₁, slot, path, last, hv, -, -, -, rfl⟩ := yields_lowerStmt_assignField.1 hm
    exact (extending_lowerExpr value s ho hv).emit _
  | .expr e, s => .bind (extending_lowerExpr e s) fun _ => .pure _
  | .ret value _, s =>
    .bind (extending_lowerTail value s) fun _ => .bind (.leave _) fun _ => .pure _
  | .cond choice, s => .bind (extending_lowerConditional choice s none) fun _ => .pure _
  | .loop condition body _, s => by
    intro ctx b inner b' ho hm
    obtain ⟨c, b₁, v, b₂, hc, hbody, -, rfl⟩ := yields_lowerStmt_loop.1 hm
    obtain ⟨h₀, hinside, hafter⟩ := ho.enterLoop
    have h₁ := extending_lowerExpr condition s h₀.isOpen hc
    have h₂ := (h₀.trans h₁).enter (.branch c ⟨b.blocks.size + 1⟩ ⟨b.blocks.size + 2⟩)
      (hinside.kept h₁.toExtends) (by simp)
    have hafter₂ := (hafter.kept h₁.toExtends).enter h₁.isOpen
      (.branch c ⟨b.blocks.size + 1⟩ ⟨b.blocks.size + 2⟩) (k := ⟨b.blocks.size + 1⟩) (by simp)
    have h₃ := extending_lowerBlock body _ h₂.isOpen hbody
    exact (h₂.trans h₃).enter (.jump ⟨b.blocks.size⟩) (hafter₂.kept h₃.toExtends) (by simp)
  | .brk _, s => by
    intro ctx b inner b' ho hm
    obtain ⟨targets, -, -, rfl⟩ := yields_lowerStmt_brk.1 hm
    exact Extending.leave _ ho (show Yields _ ctx b () _ from yields_leave.2 rfl)
  | .cont _, s => by
    intro ctx b inner b' ho hm
    obtain ⟨targets, -, -, rfl⟩ := yields_lowerStmt_cont.1 hm
    exact Extending.leave _ ho (show Yields _ ctx b () _ from yields_leave.2 rfl)
  | .block body, s => .bind (extending_lowerBlock body s) fun _ => .pure _

theorem extending_lowerInit : ∀ (value : Option Expr) (s : Scope) (slot : SlotId),
    Extending (lowerInit value s slot)
  | none, _, _ => .pure _
  | some e, s, _ => .bind (extending_lowerExpr e s) fun _ => .emit _

end

theorem extending_lowerParams (params : List (String × Storage × Nat)) (s : Scope) :
    Extending (lowerParams params s) := by
  induction params generalizing s with
  | nil => exact .pure _
  | cons p rest ih => exact .bind (.newSlot _) fun _ => .bind (.emit _) fun _ => ih _

end Keel.Lowering
