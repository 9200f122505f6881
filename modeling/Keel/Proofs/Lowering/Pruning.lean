/-
# Blocks that are kept

When a function is finished, the blocks that control cannot come to are dropped.  The
search for the others follows the jumps round by round, so it finds a block exactly if
jumps lead to it from the first one (`Builder.mem_live_iff`).  From this everything else
follows: what is kept is closed under jumps, so a finished function jumps to no block that
is missing, and a block without a terminator is a fault only if control can come to it.
-/
import Mathlib.Data.List.Nodup
import Keel.Proofs.Graph.Reachability
import Keel.Proofs.Lowering.Finish

namespace Keel

open List

theorem exists_mapM_eq_ok {ε α β : Type} {f : α → Except ε β} {xs : List α} :
    (∃ ys, xs.mapM f = .ok ys) ↔ ∀ x ∈ xs, ∃ y, f x = .ok y := by
  simp only [mapM_eq_ok]
  induction xs with
  | nil => simp
  | cons x xs ih =>
    rw [forall_mem_cons, ← ih]
    constructor
    · rintro ⟨_, hall⟩
      cases hall with
      | cons hy hrest => exact ⟨⟨_, hy⟩, _, hrest⟩
    · rintro ⟨⟨y, hy⟩, ys, hys⟩
      exact ⟨y :: ys, .cons hy hys⟩

theorem forM_eq_ok {ε α : Type} {f : α → Except ε Unit} {xs : List α} :
    xs.forM f = .ok () ↔ ∀ x ∈ xs, f x = .ok () := by
  induction xs with
  | nil => exact ⟨fun _ => by simp, fun _ => rfl⟩
  | cons x xs ih =>
    rw [show (x :: xs).forM f = (f x >>= fun _ => xs.forM f) from rfl, bind_eq_ok, forall_mem_cons]
    constructor
    · rintro ⟨⟨⟩, hx, hxs⟩
      exact ⟨hx, ih.1 hxs⟩
    · rintro ⟨hx, hxs⟩
      exact ⟨(), hx, ih.2 hxs⟩

/-- A function passes if it has a block to start with, and its blocks have numbers of their own and
lead to each other. -/
theorem Ir.Function.verify_eq_ok {f : Ir.Function} : f.verify = .ok () ↔
    f.blocks ≠ [] ∧ (f.blocks.map (·.id)).Nodup ∧
      ∀ block ∈ f.blocks, ∀ target ∈ block.terminator.targets, target ∈ f.blocks.map (·.id) := by
  have htargets : (f.blocks.forM fun block => block.terminator.targets.forM fun target =>
      if (f.blocks.map (·.id)).contains target then pure ()
      else throw (.missingTarget block.id f.name target) : Except Fault Unit) = .ok () ↔
      ∀ block ∈ f.blocks, ∀ target ∈ block.terminator.targets, target ∈ f.blocks.map (·.id) := by
    simp only [forM_eq_ok]
    refine forall₄_congr fun block _ target _ => ?_
    rw [← contains_iff_mem]
    split
    · exact iff_of_true rfl ‹_›
    · exact iff_of_false nofun ‹_›
  rw [← htargets, Function.verify]
  dsimp only
  split
  · rename_i hempty
    exact iff_of_false nofun fun h => h.1 (by simpa using hempty)
  · rename_i hempty
    split
    · rename_i hnodup
      exact iff_of_false nofun fun h => by simp [h.2.1] at hnodup
    · rename_i hnodup
      refine ⟨fun h => ⟨by simpa using hempty, by simpa using hnodup, h⟩, fun h => h.2.2⟩

namespace Lowering

open Ir (BlockId Terminator)
open Relation (ReflTransGen)

namespace Builder

variable {b : Builder} {i j : Nat}

def terminator? (b : Builder) (index : Nat) : Option Terminator :=
  (b.blocks[index]?).bind (·.terminator)

def Jumps (b : Builder) (i j : Nat) : Prop := ∃ t, b.terminator? i = some t ∧ ⟨j⟩ ∈ t.targets

def Reaches (b : Builder) : Nat → Prop := ReflTransGen b.Jumps 0

/-- There is a first block, and jumps name blocks that exist. -/
structure Linked (b : Builder) : Prop where
  first : 0 < b.blocks.size
  targets : ∀ i j, b.Jumps i j → j < b.blocks.size

theorem mem_next_iff : j ∈ b.next i ↔ b.Jumps i j := by
  unfold next Jumps terminator?
  cases (b.blocks[i]?).bind (·.terminator) with
  | none => simp
  | some t =>
    simp only [mem_map, Option.some.injEq, exists_eq_left']
    constructor
    · rintro ⟨⟨index⟩, htarget, rfl⟩
      exact htarget
    · exact fun htarget => ⟨_, htarget, rfl⟩

theorem Linked.lt_of_reaches (h : b.Linked) (hi : b.Reaches i) : i < b.blocks.size := by
  cases hi with
  | refl => exact h.first
  | tail _ hjump => exact h.targets _ _ hjump

/-- **The search finds the blocks that control can come to.** -/
theorem Linked.mem_live_iff (h : b.Linked) : i ∈ b.live ↔ b.Reaches i := by
  have hedges : ∀ i ∈ List.range b.blocks.size, ∀ j ∈ b.next i, j ∈ List.range b.blocks.size :=
    fun i _ j hj => mem_range.2 (h.targets i j (mem_next_iff.1 hj))
  have hsize : (List.range b.blocks.size).length ≤ b.blocks.size + 1 := by simp
  have hfound := Graph.mem_reachable_iff (a := i) (mem_range.2 h.first) hedges hsize
  simp only [mem_next_iff] at hfound
  exact hfound

/-- No jump is to a missing block, so what remains is to end each block that is kept. -/
theorem Linked.finish_eq (h : b.Linked) (function : String) :
    b.finish function = (b.blocks.toList.zipIdx.filter fun p => b.live.contains p.2).mapM
      fun p => finishBlock function p.1 p.2 := by
  have hknown : (b.live.toList.find? fun index => index ≥ b.blocks.size) = none := by
    rw [List.find?_eq_none]
    intro index hindex hbeyond
    have hlt := h.lt_of_reaches (h.mem_live_iff.1 (Std.TreeSet.mem_toList.1 hindex))
    exact absurd (of_decide_eq_true hbeyond) (Nat.not_le.2 hlt)
  rw [finish]
  dsimp only
  rw [hknown]

theorem exists_finishBlock_iff {function : String} {p : Pending} :
    (∃ block, finishBlock function p i = .ok block) ↔ ∃ t, p.terminator = some t := by
  unfold finishBlock
  cases p.terminator <;> simp

theorem mem_zipIdx_iff {p : Pending} : (p, i) ∈ b.blocks.toList.zipIdx ↔ b.blocks[i]? = some p := by
  rw [mem_zipIdx_iff_getElem?, Array.getElem?_toList]

theorem Linked.exists_finish_iff (h : b.Linked) (function : String) :
    (∃ blocks, b.finish function = .ok blocks) ↔ ∀ i, b.Reaches i → ∃ t, b.terminator? i = some t := by
  rw [h.finish_eq, exists_mapM_eq_ok]
  constructor
  · intro hall i hi
    obtain ⟨p, hp⟩ : ∃ p, b.blocks[i]? = some p := ⟨_, Array.getElem?_eq_getElem (h.lt_of_reaches hi)⟩
    have hkept : (p, i) ∈ b.blocks.toList.zipIdx.filter fun p => b.live.contains p.2 :=
      mem_filter.2 ⟨mem_zipIdx_iff.2 hp, h.mem_live_iff.2 hi⟩
    obtain ⟨t, ht⟩ := exists_finishBlock_iff.1 (hall _ hkept)
    exact ⟨t, by rw [terminator?, hp, Option.bind_some, ht]⟩
  · rintro hall ⟨p, i⟩ hkept
    obtain ⟨hmem, hlive⟩ := mem_filter.1 hkept
    obtain ⟨t, ht⟩ := hall i (h.mem_live_iff.1 hlive)
    rw [terminator?, mem_zipIdx_iff.1 hmem, Option.bind_some] at ht
    exact exists_finishBlock_iff.2 ⟨t, ht⟩

end Builder

/-! ### What a finished function consists of -/

section Finished

variable {b : Builder} {blocks : List Ir.Block}

namespace Finished

variable (h : Finished b blocks)

include h

theorem sublist : (blocks.map unfinished).Sublist b.blocks.toList.zipIdx := by
  rw [h]
  exact filter_sublist

theorem terminator?_of_mem {block : Ir.Block} (hb : block ∈ blocks) :
    b.terminator? block.id.index = some block.terminator := by
  have hmem := h.sublist.subset (mem_map_of_mem hb)
  rw [unfinished, Builder.mem_zipIdx_iff] at hmem
  rw [Builder.terminator?, hmem]
  rfl

theorem exists_index_iff (hl : b.Linked) (i : Nat) :
    (∃ block ∈ blocks, block.id.index = i) ↔ b.Reaches i := by
  rw [← hl.mem_live_iff]
  constructor
  · rintro ⟨block, hb, rfl⟩
    have hmem := mem_map_of_mem (f := unfinished) hb
    rw [h] at hmem
    exact (mem_filter.1 hmem).2
  · intro hi
    obtain ⟨p, hp⟩ : ∃ p, b.blocks[i]? = some p :=
      ⟨_, Array.getElem?_eq_getElem (hl.lt_of_reaches (hl.mem_live_iff.1 hi))⟩
    have hmem : (p, i) ∈ blocks.map unfinished := by
      rw [h]
      exact mem_filter.2 ⟨Builder.mem_zipIdx_iff.2 hp, hi⟩
    obtain ⟨block, hb, heq⟩ := mem_map.1 hmem
    exact ⟨block, hb, congrArg Prod.snd heq⟩

/-- Numbers are places in the builder, so no two blocks have the same. -/
theorem nodup_ids : (blocks.map (·.id)).Nodup := by
  refine List.Nodup.of_map BlockId.index ?_
  have hindices : (blocks.map (·.id)).map BlockId.index = (blocks.map unfinished).map Prod.snd := by
    simp [unfinished, Function.comp_def]
  rw [hindices]
  refine List.Nodup.sublist (h.sublist.map _) ?_
  rw [zipIdx_map_snd]
  exact nodup_range'

/-- **A finished function passes the check of its jumps.** -/
theorem verify (hl : b.Linked) {f : Ir.Function} (hf : f.blocks = blocks) :
    f.verify = .ok () := by
  subst hf
  obtain ⟨first, hfirst, -⟩ := (h.exists_index_iff hl 0).2 .refl
  refine Ir.Function.verify_eq_ok.2 ⟨ne_nil_of_mem hfirst, h.nodup_ids, fun block hblock target htarget => ?_⟩
  have hjump : b.Jumps block.id.index target.index := ⟨_, h.terminator?_of_mem hblock, htarget⟩
  have hreaches := ((h.exists_index_iff hl _).1 ⟨block, hblock, rfl⟩).tail hjump
  obtain ⟨kept, hkept, hindex⟩ := (h.exists_index_iff hl _).2 hreaches
  exact mem_map.2 ⟨kept, hkept, congrArg BlockId.mk hindex⟩

end Finished

end Finished

/-- **Finishing keeps the blocks that control can come to.**  Where jumps name blocks that exist, a
function can be finished exactly if each block that control can come to has a terminator.  Then it
consists of these blocks as they were made and in that order, starts with the first one, and
passes the check of its jumps. -/
theorem finish_keeps_reachable {b : Builder} (h : b.Linked) (function : String) :
    ((∃ blocks, b.finish function = .ok blocks) ↔ ∀ i, b.Reaches i → ∃ t, b.terminator? i = some t) ∧
    ∀ blocks, b.finish function = .ok blocks →
      (blocks.map unfinished).Sublist b.blocks.toList.zipIdx ∧
      (∀ i, (∃ block ∈ blocks, block.id.index = i) ↔ b.Reaches i) ∧
      (∃ first, blocks.head? = some first ∧ first.id.index = 0) ∧
      ∀ f : Ir.Function, f.blocks = blocks → f.verify = .ok () := by
  refine ⟨h.exists_finish_iff function, fun blocks hblocks => ?_⟩
  have hfinished := finished_of_finish hblocks
  refine ⟨hfinished.sublist, hfinished.exists_index_iff h, ?_, fun f hf => hfinished.verify h hf⟩
  obtain ⟨block, hmem, -⟩ := (hfinished.exists_index_iff h 0).2 .refl
  cases blocks with
  | nil => cases hmem
  | cons first rest => exact ⟨first, rfl, hfinished.head_index rfl⟩

/-- A loop that is left for the last block, and a block without an end that nothing jumps to. -/
def looping : Builder where
  blocks := #[⟨#[], some (.branch (.bool true) ⟨1⟩ ⟨3⟩)⟩, ⟨#[], some (.jump ⟨0⟩)⟩, {}, ⟨#[], some (.ret .unit)⟩]

theorem finish_keeps_reachable_looping : looping.Linked ∧ looping.Reaches 3 ∧ ¬ looping.Reaches 2 ∧
    ∃ blocks, looping.finish "f" = .ok blocks ∧ blocks.map (·.id.index) = [0, 1, 3] ∧
      ∀ f : Ir.Function, f.blocks = blocks → f.verify = .ok () := by
  have hlinked : looping.Linked := by
    refine ⟨by decide, fun i j => ?_⟩
    rintro ⟨t, ht, hj⟩
    match i, ht with
    | 0, rfl => simp [Terminator.targets] at hj; rcases hj with rfl | rfl <;> decide
    | 1, rfl => simp [Terminator.targets] at hj; subst hj; decide
    | 3, rfl => cases hj
  obtain ⟨-, hkeeps⟩ := finish_keeps_reachable hlinked "f"
  obtain ⟨hsome, hids⟩ : (∃ blocks, looping.finish "f" = .ok blocks) ∧
      ∀ blocks, looping.finish "f" = .ok blocks → blocks.map (·.id.index) = [0, 1, 3] := by
    refine ⟨⟨_, rfl⟩, ?_⟩
    rintro _ ⟨⟩
    rfl
  obtain ⟨blocks, hblocks⟩ := hsome
  obtain ⟨-, hreaches, -, hverify⟩ := hkeeps blocks hblocks
  have hindices (i : Nat) : looping.Reaches i ↔ i ∈ [0, 1, 3] := by
    rw [← hreaches, ← hids blocks hblocks, mem_map]
  exact ⟨hlinked, (hindices 3).2 (by decide), fun h => absurd ((hindices 2).1 h) (by decide),
    blocks, hblocks, hids blocks hblocks, hverify⟩

end Lowering
end Keel
