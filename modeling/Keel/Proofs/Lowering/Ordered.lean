/-
# The order of setting and using temporaries, while a function is built

Every block has a set of temporaries that are set whenever control enters it: an `Entry`.
The first block has none.  `Ordered` says that the blocks so far agree with such sets: an
instruction reads what is set on entry or by an instruction before it in its block, and a
block leads only to blocks that ask for no more than is set at its end.

Each update of a builder keeps this, under conditions that say what it may read and where
it may lead.  `Reaches` chains updates: the blocks have grown from some point on, and
where control is now certain temporaries are set.
-/
import Keel.Proofs.Ir.Paths
import Keel.Proofs.Lowering.Yields

namespace Keel

open List

def Ir.Operand.Known (params : Nat) (K : Ir.TempId → Prop) : Ir.Operand → Prop
  | .param index => index < params
  | .temp id => K id
  | .const _ => True

theorem Ir.Operand.Known.mono {params : Nat} {K L : Ir.TempId → Prop} (h : ∀ t, K t → L t)
    {o : Ir.Operand} (ho : o.Known params K) : o.Known params L := by
  cases o with
  | param index => exact ho
  | temp id => exact h id ho
  | const value => trivial

namespace Lowering

open Ir (Storage Operand Instr Terminator BlockId TempId SlotId dests)

abbrev Entry := Nat → TempId → Prop

def Entry.add (S : Entry) (index : Nat) (K : TempId → Prop) : Entry :=
  fun k => if k = index then K else S k

@[simp] theorem Entry.add_self (S : Entry) (index : Nat) (K : TempId → Prop) : S.add index K index = K := if_pos rfl

theorem Entry.add_of_ne (S : Entry) {index k : Nat} (K : TempId → Prop) (h : k ≠ index) :
    S.add index K k = S k := if_neg h

namespace Builder

/-- Set at the end of a block, as far as it is built. -/
def SetAt (b : Builder) (S : Entry) (k : Nat) (t : TempId) : Prop :=
  S k t ∨ t ∈ dests (b.pending k).instrs.toList

def SetHere (b : Builder) (S : Entry) (t : TempId) : Prop := b.SetAt S b.current.index t

end Builder

/-- The blocks agree with the sets of temporaries that they are entered with. -/
structure Ordered (params : Nat) (b : Builder) (S : Entry) : Prop where
  current : b.current.index < b.blocks.size
  first : ∀ t, ¬ S 0 t
  entry : ∀ k t, S k t → t.index < b.temps.size
  slots : ∀ k, ∀ i ∈ (b.pending k).instrs.toList, ∀ slot ∈ i.slots, slot.index < b.slots.size
  temps : ∀ k, ∀ t ∈ dests (b.pending k).instrs.toList, t.index < b.temps.size
  used : ∀ k earlier i later, (b.pending k).instrs.toList = earlier ++ i :: later →
    ∀ o ∈ i.operands, o.Known params fun t => S k t ∨ t ∈ dests earlier
  ended : ∀ k t, (b.pending k).terminator = some t →
    (∀ o ∈ t.operands, o.Known params (b.SetAt S k)) ∧
      ∀ target ∈ t.targets, target.index < b.blocks.size ∧ ∀ u, S target.index u → b.SetAt S k u
  once : (b.blocks.toList.flatMap fun p => dests p.instrs.toList).Nodup

/-- What was there is still there: blocks keep their entry sets and what they set. -/
structure Later (b : Builder) (S : Entry) (b' : Builder) (S' : Entry) : Prop where
  slots : b.slots.size ≤ b'.slots.size
  temps : b.temps.size ≤ b'.temps.size
  blocks : b.blocks.size ≤ b'.blocks.size
  entry : ∀ k < b.blocks.size, S' k = S k
  dests : ∀ k, ∀ t ∈ Ir.dests (b.pending k).instrs.toList, t ∈ Ir.dests (b'.pending k).instrs.toList

namespace Later

variable {b b' b'' : Builder} {S S' S'' : Entry}

theorem refl (b : Builder) (S : Entry) : Later b S b S :=
  ⟨Nat.le_refl _, Nat.le_refl _, Nat.le_refl _, fun _ _ => rfl, fun _ _ h => h⟩

theorem trans (h : Later b S b' S') (h' : Later b' S' b'' S'') : Later b S b'' S'' where
  slots := Nat.le_trans h.slots h'.slots
  temps := Nat.le_trans h.temps h'.temps
  blocks := Nat.le_trans h.blocks h'.blocks
  entry k hk := (h'.entry k (Nat.lt_of_lt_of_le hk h.blocks)).trans (h.entry k hk)
  dests k t ht := h'.dests k t (h.dests k t ht)

theorem setAt (h : Later b S b' S') {k : Nat} (hk : k < b.blocks.size) {t : TempId}
    (ht : b.SetAt S k t) : b'.SetAt S' k t := by
  rcases ht with ht | ht
  · exact .inl (by rwa [h.entry k hk])
  · exact .inr (h.dests k t ht)

end Later

/-! ### The updates of a builder -/

/-- A place in a list with one more element at its end: the end, or a place before. -/
theorem eq_or_mem_of_concat {α : Type} {xs earlier later : List α} {x i : α}
    (h : xs ++ [x] = earlier ++ i :: later) : (earlier = xs ∧ i = x) ∨ ∃ rest, xs = earlier ++ i :: rest := by
  rcases eq_nil_or_concat later with rfl | ⟨rest, y, rfl⟩
  · obtain ⟨h₁, h₂⟩ := append_inj' h rfl
    exact .inl ⟨h₁.symm, by simpa using h₂.symm⟩
  · rw [concat_eq_append, ← cons_append, ← append_assoc] at h
    exact .inr ⟨rest, (append_inj' h rfl).1⟩

theorem perm_dests_modify (i : Instr) : ∀ (blocks : List Pending) (k : Nat), k < blocks.length →
    ((blocks.modify k fun p => { p with instrs := p.instrs.push i }).flatMap
      fun p => dests p.instrs.toList).Perm (i.dest?.toList ++ blocks.flatMap fun p => dests p.instrs.toList)
  | [], _, h => absurd h (Nat.not_lt_zero _)
  | p :: rest, 0, _ => by
    have : dests [i] = i.dest?.toList := by cases h : i.dest? <;> simp [dests, h]
    simp only [modify_zero_cons, flatMap_cons, Array.toList_push, Ir.dests_append, this]
    rw [← append_assoc]
    exact perm_append_comm.append_right _
  | p :: rest, k + 1, h => by
    simp only [modify_succ_cons, flatMap_cons]
    refine ((perm_dests_modify i rest k (Nat.lt_of_succ_lt_succ h)).append_left _).trans ?_
    rw [← append_assoc, ← append_assoc]
    exact perm_append_comm.append_right _

section Updates

variable {n : Nat} {b : Builder} {S : Entry}

theorem Ordered.setHere_lt (h : Ordered n b S) (t : TempId) (ht : b.SetHere S t) : t.index < b.temps.size := by
  rcases ht with ht | ht
  · exact h.entry _ t ht
  · exact h.temps _ t ht

theorem Builder.dests_emit (h : b.current.index < b.blocks.size) (i : Instr) (k : Nat) :
    dests ((b.emit i).pending k).instrs.toList =
      dests (b.pending k).instrs.toList ++ if k = b.current.index then i.dest?.toList else [] := by
  rw [b.pending_emit i h]
  split
  · cases hi : i.dest? <;> simp [dests, hi]
  · simp

theorem Later.emit (h : Ordered n b S) (i : Instr) : Later b S (b.emit i) S where
  slots := Nat.le_refl _
  temps := Nat.le_refl _
  blocks := by simp
  entry _ _ := rfl
  dests k t ht := by
    rw [Builder.dests_emit h.current]
    exact mem_append_left _ ht

theorem Ordered.emit (h : Ordered n b S) {i : Instr} (ho : ∀ o ∈ i.operands, o.Known n (b.SetHere S))
    (hs : ∀ slot ∈ i.slots, slot.index < b.slots.size) (hd : ∀ t, i.dest? = some t → t.index < b.temps.size ∧
      ∀ k, t ∉ dests (b.pending k).instrs.toList) :
    Ordered n (b.emit i) S := by
  have hpend := b.pending_emit i h.current
  refine ⟨by simpa using h.current, h.first, h.entry, ?_, ?_, ?_, ?_, ?_⟩
  · intro k j hj
    rw [hpend] at hj
    split at hj
    · rw [Array.toList_push, mem_append, mem_singleton] at hj
      rcases hj with hj | rfl
      · exact h.slots k j hj
      · exact hs
    · exact h.slots k j hj
  · intro k t ht
    rw [Builder.dests_emit h.current, mem_append] at ht
    rcases ht with ht | ht
    · exact h.temps k t ht
    · split at ht
      · exact (hd t (by simpa using ht)).1
      · simp at ht
  · intro k earlier j later hj
    rw [hpend] at hj
    split at hj
    · subst k
      rw [Array.toList_push] at hj
      rcases eq_or_mem_of_concat hj with ⟨rfl, rfl⟩ | ⟨rest, hrest⟩
      · exact ho
      · exact h.used _ earlier j rest hrest
    · exact h.used k earlier j later hj
  · intro k t ht
    have hold : (b.pending k).terminator = some t := by
      rw [hpend] at ht
      split at ht <;> exact ht
    obtain ⟨hops, htargets⟩ := h.ended k t hold
    have hmono : ∀ u, b.SetAt S k u → (b.emit i).SetAt S k u := by
      rintro u (hu | hu)
      · exact .inl hu
      · exact .inr ((Later.emit h i).dests k u hu)
    refine ⟨fun o ho => (hops o ho).mono hmono, fun target ht => ?_⟩
    obtain ⟨hlt, hset⟩ := htargets target ht
    exact ⟨by simpa using hlt, fun u hu => hmono u (hset u hu)⟩
  · have hperm := perm_dests_modify i b.blocks.toList b.current.index (by simpa using h.current)
    simp only [Builder.emit, Builder.mapCurrent, Array.toList_modify]
    refine hperm.nodup_iff.2 ?_
    cases hdest : i.dest? with
    | none => simpa using h.once
    | some t =>
      refine nodup_append.2 ⟨by simp, h.once, ?_⟩
      intro u hu v hv huv
      obtain rfl : u = t := by simpa using hu
      subst huv
      obtain ⟨p, hp, ht⟩ := mem_flatMap.1 hv
      obtain ⟨k, hk, rfl⟩ := Array.mem_iff_getElem.1 (Array.mem_def.2 hp)
      exact (hd u hdest).2 k (by simpa [Builder.pending, hk] using ht)

theorem Later.addTemp (b : Builder) (S : Entry) (ty : Storage) : Later b S (b.addTemp ty) S where
  slots := Nat.le_refl _
  temps := by simp
  blocks := Nat.le_refl _
  entry _ _ := rfl
  dests _ _ h := h

theorem Ordered.addTemp (h : Ordered n b S) (ty : Storage) : Ordered n (b.addTemp ty) S where
  current := h.current
  first := h.first
  entry k t ht := by have := h.entry k t ht; simp; omega
  slots := h.slots
  temps k t ht := by have := h.temps k t ht; simp; omega
  used := h.used
  ended := h.ended
  once := h.once

theorem Later.addSlot (b : Builder) (S : Entry) (ty : Storage) : Later b S (b.addSlot ty) S where
  slots := by simp
  temps := Nat.le_refl _
  blocks := Nat.le_refl _
  entry _ _ := rfl
  dests _ _ h := h

theorem Ordered.addSlot (h : Ordered n b S) (ty : Storage) : Ordered n (b.addSlot ty) S where
  current := h.current
  first := h.first
  entry := h.entry
  slots k i hi slot hslot := by have := h.slots k i hi slot hslot; simp; omega
  temps := h.temps
  used := h.used
  ended := h.ended
  once := h.once

variable {instr : TempId → Instr}

theorem Ordered.define (h : Ordered n b S) (ty : Storage)
    (ho : ∀ o ∈ (instr ⟨b.temps.size⟩).operands, o.Known n (b.SetHere S))
    (hs : ∀ slot ∈ (instr ⟨b.temps.size⟩).slots, slot.index < b.slots.size)
    (hd : (instr ⟨b.temps.size⟩).dest? = some ⟨b.temps.size⟩) : Ordered n (b.define ty instr) S := by
  refine (h.addTemp ty).emit ho hs fun t ht => ?_
  obtain rfl : (⟨b.temps.size⟩ : TempId) = t := Option.some.inj (hd.symm.trans ht)
  refine ⟨by simp, fun k hk => ?_⟩
  exact absurd (h.temps k _ hk) (Nat.lt_irrefl _)

theorem Later.define (h : Ordered n b S) (ty : Storage) (instr : TempId → Instr) :
    Later b S (b.define ty instr) S :=
  (Later.addTemp b S ty).trans (Later.emit (h.addTemp ty) _)

theorem setHere_define (h : Ordered n b S) (ty : Storage) (hd : (instr ⟨b.temps.size⟩).dest? = some ⟨b.temps.size⟩) :
    (b.define ty instr).SetHere S ⟨b.temps.size⟩ := by
  refine .inr ?_
  rw [Builder.define, Builder.dests_emit (h.addTemp ty).current]
  simp [hd]

theorem Later.addBlock (b : Builder) (S : Entry) (K : TempId → Prop) :
    Later b S b.addBlock (S.add b.blocks.size K) where
  slots := Nat.le_refl _
  temps := Nat.le_refl _
  blocks := by simp
  entry k hk := S.add_of_ne K (Nat.ne_of_lt hk)
  dests k t h := by simpa using h

/-- A new block may ask for any temporaries: nothing leads to it yet. -/
theorem Ordered.addBlock (h : Ordered n b S) {K : TempId → Prop} (hK : ∀ t, K t → t.index < b.temps.size) :
    Ordered n b.addBlock (S.add b.blocks.size K) := by
  have hpos : 0 < b.blocks.size := Nat.lt_of_le_of_lt (Nat.zero_le _) h.current
  -- a block that holds something is an old one, and keeps its set
  have hentry : ∀ k, (∀ i, i ∉ (b.pending k).instrs.toList) ∧ (b.pending k).terminator = none ∨
      S.add b.blocks.size K k = S k := by
    intro k
    by_cases hk : k = b.blocks.size
    · refine .inl ?_
      rw [b.pending_of_size_le (Nat.le_of_eq hk.symm)]
      simp
    · exact .inr (S.add_of_ne K hk)
  refine ⟨?_, ?_, ?_, by simpa using h.slots, by simpa using h.temps, ?_, ?_,
    by simpa [Builder.addBlock] using h.once⟩
  · have := h.current
    simp
    omega
  · rw [S.add_of_ne K (Nat.ne_of_lt hpos)]
    exact h.first
  · intro k t ht
    by_cases hk : k = b.blocks.size
    · rw [hk, S.add_self] at ht
      exact hK t ht
    · rw [S.add_of_ne K hk] at ht
      exact h.entry k t ht
  · intro k earlier i later hi
    rw [b.pending_addBlock] at hi
    rcases hentry k with ⟨hno, -⟩ | heq
    · exact absurd (by rw [hi]; simp) (hno i)
    · rw [heq]
      exact h.used k earlier i later hi
  · intro k t ht
    rw [b.pending_addBlock] at ht
    rcases hentry k with ⟨-, hno⟩ | heq
    · rw [hno] at ht
      cases ht
    · obtain ⟨hops, htargets⟩ := h.ended k t ht
      have hset : ∀ u, b.addBlock.SetAt (S.add b.blocks.size K) k u ↔ b.SetAt S k u := by
        intro u
        simp only [Builder.SetAt, b.pending_addBlock, heq]
      refine ⟨fun o ho => (hops o ho).mono fun u hu => (hset u).2 hu, fun target ht => ?_⟩
      obtain ⟨hlt, hu⟩ := htargets target ht
      rw [S.add_of_ne K (Nat.ne_of_lt hlt)]
      exact ⟨by simp; omega, fun u h => (hset u).2 (hu u h)⟩

theorem Ordered.switchTo (h : Ordered n b S) {id : BlockId} (hid : id.index < b.blocks.size) :
    Ordered n (b.switchTo id) S where
  current := hid
  first := h.first
  entry := h.entry
  slots := h.slots
  temps := h.temps
  used := h.used
  ended := h.ended
  once := h.once

theorem Later.switchTo (b : Builder) (S : Entry) (id : BlockId) : Later b S (b.switchTo id) S :=
  ⟨Nat.le_refl _, Nat.le_refl _, Nat.le_refl _, fun _ _ => rfl, fun _ _ h => h⟩

theorem Builder.instrs_terminate (b : Builder) (t : Terminator) (h : b.current.index < b.blocks.size) (k : Nat) :
    ((b.terminate t).pending k).instrs = (b.pending k).instrs := by
  rw [b.pending_terminate t h]
  split <;> rfl

theorem Builder.setAt_terminate (t : Terminator) (h : b.current.index < b.blocks.size) (k : Nat)
    (u : TempId) : (b.terminate t).SetAt S k u ↔ b.SetAt S k u := by
  simp only [Builder.SetAt, b.instrs_terminate t h]

theorem Later.terminate (h : Ordered n b S) (t : Terminator) : Later b S (b.terminate t) S where
  slots := Nat.le_refl _
  temps := Nat.le_refl _
  blocks := by simp
  entry _ _ := rfl
  dests k u hu := by rwa [b.instrs_terminate t h.current]

/-- The current block may lead to blocks that ask for no more than is set here. -/
theorem Ordered.terminate (h : Ordered n b S) {t : Terminator} (ho : ∀ o ∈ t.operands, o.Known n (b.SetHere S))
    (ht : ∀ target ∈ t.targets, target.index < b.blocks.size ∧ ∀ u, S target.index u → b.SetHere S u) :
    Ordered n (b.terminate t) S := by
  have hinstrs := b.instrs_terminate t h.current
  refine ⟨by simpa using h.current, h.first, h.entry, fun k => ?_, fun k => ?_, fun k => ?_, ?_, ?_⟩
  · rw [hinstrs]
    exact h.slots k
  · rw [hinstrs]
    exact h.temps k
  · rw [hinstrs]
    exact h.used k
  · intro k t' ht'
    have hset : ∀ u, b.SetAt S k u → (b.terminate t).SetAt S k u := fun u =>
      (b.setAt_terminate t h.current k u).2
    have key : (∀ o ∈ t'.operands, o.Known n (b.SetAt S k)) ∧
        ∀ target ∈ t'.targets, target.index < b.blocks.size ∧
          ∀ u, S target.index u → b.SetAt S k u := by
      rw [b.pending_terminate t h.current] at ht'
      split at ht'
      · subst k
        cases hterm : (b.pending b.current.index).terminator with
        | none =>
          rw [hterm] at ht'
          cases ht'
          exact ⟨ho, ht⟩
        | some old =>
          rw [hterm] at ht'
          cases ht'
          exact h.ended _ _ hterm
      · exact h.ended k t' ht'
    refine ⟨fun o ho => (key.1 o ho).mono hset, fun target htarget => ?_⟩
    obtain ⟨hlt, hu⟩ := key.2 target htarget
    exact ⟨by simpa using hlt, fun u h => hset u (hu u h)⟩
  · have : ∀ (blocks : List Pending) (k : Nat),
        (blocks.modify k fun p => { p with terminator := p.terminator <|> some t }).flatMap
          (fun p => dests p.instrs.toList) = blocks.flatMap fun p => dests p.instrs.toList := by
      intro blocks
      induction blocks with
      | nil => intro k; cases k <;> rfl
      | cons p rest ih =>
        intro k
        cases k with
        | zero => simp
        | succ k => simp only [modify_succ_cons, flatMap_cons, ih k]
    simp only [Builder.terminate, Builder.mapCurrent, Array.toList_modify]
    rw [this]
    exact h.once

end Updates

/-! ### Blocks and scopes -/

/-- Control may go to a block where these temporaries are set. -/
def MayEnter (b : Builder) (S : Entry) (K : TempId → Prop) (id : BlockId) : Prop :=
  id.index < b.blocks.size ∧ ∀ t, S id.index t → K t

structure Enters (b : Builder) (S : Entry) (id : BlockId) (K : TempId → Prop) : Prop where
  lt : id.index < b.blocks.size
  entry : S id.index = K

/-- The variables have slots, and control may go to where `break` and `continue` lead. -/
structure Scope.Fits (s : Scope) (b : Builder) (S : Entry) (K : TempId → Prop) : Prop where
  locals : ∀ p ∈ s.locals, p.2.index < b.slots.size
  loop : ∀ targets, s.loop = some targets → MayEnter b S K targets.next ∧ MayEnter b S K targets.done

section Later

variable {b b' : Builder} {S S' : Entry} {K L : TempId → Prop}

variable {id : BlockId} {s : Scope}

theorem MayEnter.later (h : MayEnter b S K id) (hl : Later b S b' S') (hKL : ∀ t, K t → L t) :
    MayEnter b' S' L id := by
  refine ⟨Nat.lt_of_lt_of_le h.1 hl.blocks, fun t ht => hKL t (h.2 t ?_)⟩
  rwa [← hl.entry _ h.1]

theorem Enters.later (h : Enters b S id K) (hl : Later b S b' S') : Enters b' S' id K :=
  ⟨Nat.lt_of_lt_of_le h.lt hl.blocks, (hl.entry _ h.lt).trans h.entry⟩

theorem Enters.mayEnter (h : Enters b S id K) (hKL : ∀ t, K t → L t) : MayEnter b S L id :=
  ⟨h.lt, fun t ht => hKL t (by rwa [← h.entry])⟩

/-- Where control has entered a block, what the block may read is set. -/
theorem Enters.setHere (h : Enters b S id K) : ∀ t, K t → (b.switchTo id).SetHere S t := by
  intro t ht
  refine .inl ?_
  show S id.index t
  rwa [h.entry]

theorem Scope.Fits.later (h : s.Fits b S K) (hl : Later b S b' S') (hKL : ∀ t, K t → L t) : s.Fits b' S' L where
  locals p hp := Nat.lt_of_lt_of_le (h.locals p hp) hl.slots
  loop targets ht := ⟨(h.loop targets ht).1.later hl hKL, (h.loop targets ht).2.later hl hKL⟩

theorem Scope.Fits.declare (h : s.Fits b S K) (name : String) {slot : SlotId} (hs : slot.index < b.slots.size) :
    (s.declare name slot).Fits b S K where
  locals p hp := by
    rcases mem_cons.1 hp with rfl | hp
    · exact hs
    · exact h.locals p hp
  loop := h.loop

theorem Scope.Fits.find? (h : s.Fits b S K) {name : String} {slot : SlotId} (hf : s.find? name = some slot) :
    slot.index < b.slots.size := by
  obtain ⟨l₁, l₂, hs, -⟩ := lookup_eq_some_iff.1 hf
  exact h.locals (name, slot) (by rw [hs]; simp)

end Later

/-- From `b` on the blocks have grown in order, and where control is in `b'` the temporaries
`K` are set. -/
structure Reaches (n : Nat) (b : Builder) (S : Entry) (K : TempId → Prop) (b' : Builder)
    (S' : Entry) : Prop where
  ordered : Ordered n b' S'
  later : Later b S b' S'
  here : ∀ t, K t → b'.SetHere S' t

abbrev Advance (n : Nat) (b : Builder) (S : Entry) (b' : Builder) (S' : Entry) : Prop :=
  Reaches n b S (b.SetHere S) b' S'

theorem Advance.refl {n : Nat} {b : Builder} {S : Entry} (h : Ordered n b S) : Advance n b S b S :=
  ⟨h, Later.refl b S, fun _ h => h⟩

namespace Reaches

variable {n : Nat} {b b' b'' : Builder} {S S' S'' : Entry} {K L : TempId → Prop}

section

variable (h : Reaches n b S K b' S')

include h

theorem trans (h' : Advance n b' S' b'' S'') : Reaches n b S K b'' S'' :=
  ⟨h'.ordered, h.later.trans h'.later, fun t ht => h'.here t (h.here t ht)⟩

theorem start : Reaches n b' S' K b' S' :=
  ⟨h.ordered, Later.refl b' S', h.here⟩

theorem append (h' : Reaches n b' S' K b'' S'') : Reaches n b S K b'' S'' :=
  ⟨h'.ordered, h.later.trans h'.later, h'.here⟩

theorem known {v : Operand} (hv : v.Known n K) :
    v.Known n (b'.SetHere S') := hv.mono h.here

theorem fits {s : Scope} (hs : s.Fits b S K) :
    s.Fits b' S' (b'.SetHere S') := hs.later h.later h.here

end

variable {id : BlockId}

theorem mayEnter (h : Reaches n b S K b' S') (hid : MayEnter b S K id) :
    MayEnter b' S' (b'.SetHere S') id := hid.later h.later h.here

/-- Control may go back to a block that was entered with less. -/
theorem mayEnter_of_enters (h : Reaches n b S K b' S') (hid : Enters b S id K) :
    MayEnter b' S' (b'.SetHere S') id := (hid.later h.later).mayEnter h.here

variable (h : Reaches n b S K b' S')

include h

theorem emit {i : Instr} (ho : ∀ o ∈ i.operands, o.Known n (b'.SetHere S'))
    (hs : ∀ slot ∈ i.slots, slot.index < b'.slots.size) (hd : i.dest? = none) : Reaches n b S K (b'.emit i) S' :=
  h.trans ⟨h.ordered.emit ho hs (by simp [hd]), Later.emit h.ordered i,
    fun _ ht => (Later.emit h.ordered i).setAt h.ordered.current ht⟩

theorem addSlot (ty : Storage) : Reaches n b S K (b'.addSlot ty) S' :=
  h.trans ⟨h.ordered.addSlot ty, Later.addSlot b' S' ty, fun _ ht => ht⟩

theorem define (ty : Storage) {f : TempId → Instr}
    (ho : ∀ o ∈ (f ⟨b'.temps.size⟩).operands, o.Known n (b'.SetHere S'))
    (hs : ∀ slot ∈ (f ⟨b'.temps.size⟩).slots, slot.index < b'.slots.size)
    (hd : (f ⟨b'.temps.size⟩).dest? = some ⟨b'.temps.size⟩) : Reaches n b S K (b'.define ty f) S' ∧
      (Operand.temp ⟨b'.temps.size⟩).Known n ((b'.define ty f).SetHere S') := by
  have hlater := Later.define h.ordered ty f
  exact ⟨h.trans ⟨h.ordered.define ty ho hs hd, hlater,
    fun _ ht => hlater.setAt h.ordered.current ht⟩, setHere_define h.ordered ty hd⟩

theorem load {slot : SlotId} (hs : slot.index < b'.slots.size) : Reaches n b S K (b'.load slot) S' ∧
      (Operand.temp ⟨b'.temps.size⟩).Known n ((b'.load slot).SetHere S') :=
  h.define _ (by simp [Instr.operands]) (by simpa [Instr.slots] using hs) rfl

theorem addBlock (hL : ∀ t, L t → t.index < b'.temps.size) : Reaches n b S K b'.addBlock (S'.add b'.blocks.size L) ∧
      Enters b'.addBlock (S'.add b'.blocks.size L) ⟨b'.blocks.size⟩ L := by
  have hlater := Later.addBlock b' S' L
  exact ⟨h.trans ⟨h.ordered.addBlock hL, hlater, fun t ht => hlater.setAt h.ordered.current ht⟩, by simp, by simp⟩

theorem terminate {t : Terminator} (ho : ∀ o ∈ t.operands, o.Known n (b'.SetHere S'))
    (ht : ∀ target ∈ t.targets, MayEnter b' S' (b'.SetHere S') target) : Reaches n b S K (b'.terminate t) S' :=
  h.trans ⟨h.ordered.terminate ho ht, Later.terminate h.ordered t,
    fun _ hu => (b'.setAt_terminate t h.ordered.current _ _).2 hu⟩

theorem jump {target : BlockId} (ht : MayEnter b' S' (b'.SetHere S') target) :
    Reaches n b S K (b'.terminate (.jump target)) S' :=
  h.terminate (by simp [Terminator.operands]) (by simpa [Terminator.targets] using ht)

theorem branch {v : Operand} {yes no : BlockId} (hv : v.Known n (b'.SetHere S'))
    (hyes : MayEnter b' S' (b'.SetHere S') yes) (hno : MayEnter b' S' (b'.SetHere S') no) :
    Reaches n b S K (b'.terminate (.branch v yes no)) S' :=
  h.terminate (by simpa [Terminator.operands] using hv)
    (by simpa [Terminator.targets] using ⟨hyes, hno⟩)

omit h in
theorem enter (ho : Ordered n b' S') (hl : Later b S b' S') (hid : Enters b' S' id L) (hKL : ∀ t, K t → L t) :
    Reaches n b S K (b'.switchTo id) S' :=
  ⟨ho.switchTo hid.lt, hl.trans (Later.switchTo b' S' id), fun t ht => hid.setHere t (hKL t ht)⟩

theorem switchTo (hid : Enters b' S' id K) : Reaches n b S K (b'.switchTo id) S' :=
  enter h.ordered h.later hid fun _ ht => ht

end Reaches

section NewBlocks

variable {n : Nat} {b : Builder} {S : Entry} (h : Ordered n b S)

include h

theorem Advance.addBlocks : ∃ S', Advance n b S b.addBlock.addBlock S' ∧
    Enters b.addBlock.addBlock S' ⟨b.blocks.size⟩ (b.SetHere S) ∧
      Enters b.addBlock.addBlock S' ⟨b.blocks.size + 1⟩ (b.SetHere S) := by
  obtain ⟨h₁, he₁⟩ := (Advance.refl h).addBlock h.setHere_lt
  obtain ⟨h₂, he₂⟩ := (Advance.refl h₁.ordered).addBlock (L := b.SetHere S) h.setHere_lt
  rw [Builder.size_addBlock] at h₂ he₂
  exact ⟨_, h₁.trans h₂, he₁.later h₂.later, he₂⟩

theorem Advance.addBlocks₃ : ∃ S', Advance n b S b.addBlock.addBlock.addBlock S' ∧
    Enters b.addBlock.addBlock.addBlock S' ⟨b.blocks.size⟩ (b.SetHere S) ∧
      Enters b.addBlock.addBlock.addBlock S' ⟨b.blocks.size + 1⟩ (b.SetHere S) ∧
        Enters b.addBlock.addBlock.addBlock S' ⟨b.blocks.size + 2⟩ (b.SetHere S) := by
  obtain ⟨S', h₁, he₀, he₁⟩ := Advance.addBlocks h
  obtain ⟨h₂, he₂⟩ := (Advance.refl h₁.ordered).addBlock (L := b.SetHere S) h.setHere_lt
  rw [Builder.size_addBlock, Builder.size_addBlock] at h₂ he₂
  exact ⟨_, h₁.trans h₂, he₀.later h₂.later, he₁.later h₂.later, he₂⟩

theorem Advance.leave {t : Terminator} (ho : ∀ o ∈ t.operands, o.Known n (b.SetHere S))
    (ht : ∀ target ∈ t.targets, MayEnter b S (b.SetHere S) target) : ∃ S', Advance n b S (b.leave t) S' := by
  have hend := (Advance.refl h).terminate ho ht
  obtain ⟨hnew, henter⟩ := hend.addBlock hend.ordered.setHere_lt
  have hnext := Reaches.enter hnew.ordered hnew.later henter hend.here
  rw [Builder.size_terminate] at hnext
  exact ⟨_, hnext⟩

end NewBlocks

end Lowering
end Keel
