/-
# Finished functions and programs

What `lowerProgram` puts into a program: for every function of the result there is a
checked function whose body was lowered to a builder, and its blocks are those of the
builder that control can come to (`Finished`).  Tables are filed by the written form of a
name, so a result stands for the entry that was lowered last under that form.
-/
import Mathlib.Data.List.Flatten
import Mathlib.Data.List.Forall2
import Keel.Proofs.Lowering.Rules

namespace Keel

open List

theorem bind_eq_ok {ε α β : Type} {x : Except ε α} {f : α → Except ε β} {b : β} :
    (x >>= f) = .ok b ↔ ∃ a, x = .ok a ∧ f a = .ok b := by
  cases x with
  | error e | ok a => simp [bind, Except.bind]

theorem mapM_eq_pure {m : Type → Type} [Monad m] [LawfulMonad m] {α β : Type} {f : α → m β} {xs : List α} {ys : List β}
    (hpure : ∀ {γ : Type} {a b : γ}, (pure a : m γ) = pure b → a = b)
    (hbind : ∀ {γ δ : Type} {x : m γ} {k : γ → m δ} {b : δ}, (x >>= k) = pure b ↔ ∃ a, x = pure a ∧ k a = pure b) :
    xs.mapM f = pure ys ↔ List.Forall₂ (fun x y => f x = pure y) xs ys := by
  induction xs generalizing ys with
  | nil =>
    rw [mapM_nil, forall₂_nil_left_iff]
    exact ⟨fun h => (hpure h).symm, fun h => by rw [h]⟩
  | cons x xs ih =>
    rw [mapM_cons, forall₂_cons_left_iff]
    simp only [hbind, ih]
    constructor
    · rintro ⟨y, hy, rest, hrest, heq⟩
      exact ⟨y, rest, hy, hrest, (hpure heq).symm⟩
    · rintro ⟨y, rest, hy, hrest, rfl⟩
      exact ⟨y, hy, rest, hrest, rfl⟩

theorem mapM_eq_ok {ε α β : Type} {f : α → Except ε β} {xs : List α} {ys : List β} :
    xs.mapM f = .ok ys ↔ List.Forall₂ (fun x y => f x = .ok y) xs ys :=
  mapM_eq_pure Except.ok.inj bind_eq_ok

theorem mapM_eq_some {α β : Type} {f : α → Option β} {xs : List α} {ys : List β} :
    xs.mapM f = some ys ↔ List.Forall₂ (fun x y => f x = some y) xs ys :=
  mapM_eq_pure Option.some.inj Option.bind_eq_some_iff

namespace Graph

variable {α : Type} [Ord α] [Std.TransOrd α]

theorem contains_visit_foldl (nodes : List α) (found : List α × Std.TreeSet α) {a : α}
    (h : found.2.contains a) : (nodes.foldl visit found).2.contains a := by
  induction nodes generalizing found with
  | nil => exact h
  | cons node nodes ih =>
    refine ih _ ?_
    unfold visit
    split
    · exact h
    · simp only [Std.TreeSet.contains_insert, h, Bool.or_true]

theorem contains_explore (edges : α → List α) (n : Nat) {frontier : List α} {seen : Std.TreeSet α}
    {a : α} (h : seen.contains a) : (explore edges n frontier seen).contains a := by
  induction n generalizing frontier seen with
  | zero => exact h
  | succ n ih =>
    have hround := contains_visit_foldl (frontier.flatMap edges) ([], seen) h
    rw [explore]
    split
    · rename_i heq
      rwa [heq] at hround
    · rename_i heq
      rw [heq] at hround
      exact ih hround

theorem contains_reachable_self (edges : α → List α) (size : Nat) (start : α) :
    (reachable edges size start).contains start :=
  contains_explore edges size (by simp)

end Graph

namespace Lowering

open Ir (Instr)

def unfinished (block : Ir.Block) : Pending × Nat :=
  (⟨block.instrs.toArray, some block.terminator⟩, block.id.index)

theorem unfinished_of_finishBlock {function : String} {p : Pending} {index : Nat}
    {block : Ir.Block} (h : Builder.finishBlock function p index = .ok block) : unfinished block = (p, index) := by
  obtain ⟨instrs, terminator⟩ := p
  cases terminator with
  | none => cases h
  | some t =>
    cases h
    simp [unfinished]

/-- The finished blocks are the blocks of the builder that control can come to. -/
def Finished (b : Builder) (blocks : List Ir.Block) : Prop :=
  blocks.map unfinished = b.blocks.toList.zipIdx.filter fun (_, index) => b.live.contains index

theorem finished_of_finish {b : Builder} {function : String} {blocks : List Ir.Block}
    (h : b.finish function = .ok blocks) : Finished b blocks := by
  unfold Builder.finish at h
  dsimp only at h
  split at h
  · cases h
  · have hkept : List.Forall₂ (fun x y => x = unfinished y) _ blocks :=
      (mapM_eq_ok.1 h).imp fun _ _ hblock => (unfinished_of_finishBlock hblock).symm
    rw [← forall₂_map_right_iff (R := Eq), forall₂_eq_eq_eq] at hkept
    exact hkept.symm

namespace Finished

variable {b : Builder} {blocks : List Ir.Block}

theorem pending_of_mem (h : Finished b blocks) {block : Ir.Block} (hb : block ∈ blocks) :
    block.id.index < b.blocks.size ∧ b.pending block.id.index = ⟨block.instrs.toArray, some block.terminator⟩ := by
  have hmem : unfinished block ∈ b.blocks.toList.zipIdx := by
    have := mem_map_of_mem (f := unfinished) hb
    rw [h] at this
    exact (mem_filter.1 this).1
  have hget := mem_zipIdx_iff_getElem?.1 hmem
  simp only [unfinished, Array.getElem?_toList] at hget
  obtain ⟨hlt, heq⟩ := Array.getElem?_eq_some_iff.1 hget
  refine ⟨hlt, ?_⟩
  rw [Builder.pending, Array.getD_eq_getD_getElem?, hget]
  rfl

theorem head_index (h : Finished b blocks) {block : Ir.Block} (hb : blocks.head? = some block) :
    block.id.index = 0 := by
  have hhead : (blocks.map unfinished).head? = some (unfinished block) := by
    rw [List.head?_map, hb]
    rfl
  rw [h] at hhead
  cases hblocks : b.blocks.toList with
  | nil => simp [hblocks] at hhead
  | cons p rest =>
    have hlive : b.live.contains 0 := Graph.contains_reachable_self _ _ _
    rw [hblocks, zipIdx_cons, filter_cons_of_pos (by exact hlive)] at hhead
    exact (congrArg Prod.snd (Option.some.inj hhead)).symm

/-- What blocks contribute is, in the same order, part of what those of the builder do. -/
theorem flatMap_sublist (h : Finished b blocks) {α : Type} (f : List Instr → List α) :
    (blocks.flatMap fun block => f block.instrs).Sublist (b.blocks.toList.flatMap fun p => f p.instrs.toList) := by
  have hall : (b.blocks.toList.flatMap fun p => f p.instrs.toList) =
      b.blocks.toList.zipIdx.flatMap fun p => f p.1.instrs.toList := by
    nth_rewrite 1 [← zipIdx_map_fst 0 b.blocks.toList]
    rw [flatMap_map]
  have hkept : (blocks.flatMap fun block => f block.instrs) =
      (blocks.map unfinished).flatMap fun p => f p.1.instrs.toList := by
    simp [flatMap_map, unfinished]
  rw [hall, hkept, h]
  exact filter_sublist.flatMap _

end Finished

/-! ### Functions -/

variable {program : CheckedProgram} {structs : Std.TreeMap String Ir.StructLayout}

structure Lowered (program : CheckedProgram) (structs : Std.TreeMap String Ir.StructLayout)
    (name : QualName) (decl : FunctionDef) (sig : FunctionSig) (b : Builder) (g : Ir.Function) :
    Prop where
  signature : program.signatures.functions.get? name = some sig
  params : List.Forall₂ (fun p ty => storage p.ty = .ok ty) sig.params g.params
  ret : storage sig.ret = .ok g.ret
  body : Yields (lowerBody decl g.params g.ret) ⟨program, structs, name.text⟩ {} () b
  blocks : b.finish name.text = .ok g.blocks
  parts : g.name = name.text ∧ g.slots = b.slots.toList ∧ g.temps = b.temps.toList
  verified : g.verify = .ok ()

theorem lowerFunction_eq_ok {name : QualName} {f : CheckedFunction} {g : Ir.Function} :
    lowerFunction program structs name f = .ok g ↔ ∃ sig b, Lowered program structs name f.decl sig b g := by
  unfold lowerFunction
  cases hsig : program.signatures.functions.get? name with
  | none =>
    refine ⟨fun h => (by cases h), ?_⟩
    rintro ⟨sig, b, h⟩
    cases hsig.symm.trans h.signature
  | some sig =>
    simp only [bind_eq_ok, mapM_eq_ok]
    constructor
    · rintro ⟨params, hparams, ret, hret, ⟨u, b⟩, hbody, blocks, hblocks, _, hverify, hg⟩
      cases hg
      exact ⟨sig, b, hsig, hparams, hret, hbody, hblocks, ⟨rfl, rfl, rfl⟩, hverify⟩
    · rintro ⟨sig', b, h⟩
      obtain rfl : sig = sig' := Option.some.inj (hsig.symm.trans h.signature)
      obtain ⟨gname, gparams, gret, gslots, gtemps, gblocks⟩ := g
      obtain ⟨-, hparams, hret, hbody, hblocks, ⟨rfl, rfl, rfl⟩, hverify⟩ := h
      exact ⟨gparams, hparams, gret, hret, ((), b), hbody, gblocks, hblocks, (), hverify, rfl⟩

/-! ### Tables -/

section Tables

variable {α β : Type} {lower : QualName → α → Except Fault β}

/-- The results of lowering, filed one after the other: each entry is lowered, what is
filed is a result, and nothing that was filed gets lost. -/
theorem foldlM_insert_eq_ok {entries : List (QualName × α)} {filed done : Std.TreeMap String β}
    (h : entries.foldlM (fun done (name, a) => return done.insert name.text (← lower name a)) filed = .ok done) :
    (∀ p ∈ entries, (∃ r, lower p.1 p.2 = .ok r) ∧ p.1.text ∈ done) ∧
      (∀ text r, done.get? text = some r → filed.get? text = some r ∨
        ∃ p ∈ entries, p.1.text = text ∧ lower p.1 p.2 = .ok r) ∧
      ∀ text ∈ filed, text ∈ done := by
  induction entries generalizing filed with
  | nil =>
    cases h
    exact ⟨by simp, fun _ _ => .inl, fun _ => id⟩
  | cons p rest ih =>
    obtain ⟨name, a⟩ := p
    rw [foldlM_cons] at h
    obtain ⟨next, hnext, h⟩ := bind_eq_ok.1 h
    obtain ⟨r, hr, hnext⟩ := bind_eq_ok.1 hnext
    cases hnext
    obtain ⟨hall, hfiled, hkept⟩ := ih h
    refine ⟨?_, ?_, ?_⟩
    · intro p hp
      rcases mem_cons.1 hp with rfl | hp
      · exact ⟨⟨r, hr⟩, hkept _ (by simp)⟩
      · exact hall p hp
    · intro text r' hr'
      rcases hfiled text r' hr' with hold | ⟨p, hp, hp'⟩
      · rw [Std.TreeMap.get?_eq_getElem?, Std.TreeMap.getElem?_insert] at hold
        split at hold
        · rename_i heq
          cases hold
          exact .inr ⟨(name, a), by simp, by simpa using heq, hr⟩
        · exact .inl hold
      · exact .inr ⟨p, mem_cons_of_mem _ hp, hp'⟩
    · intro text ht
      exact hkept text (by simp [ht])

variable {table : Std.TreeMap QualName α} {done : Std.TreeMap String β}

variable {name : QualName}

theorem mem_toList_iff {a : α} : (name, a) ∈ table.toList ↔ table.get? name = some a :=
  Std.TreeMap.mem_toList_iff_getElem?_eq_some

theorem mem_of_get? {a : α} (h : table.get? name = some a) : name ∈ table :=
  Std.TreeMap.isSome_getElem?_iff_mem.1 (Option.isSome_of_eq_some h)

theorem exists_of_lowerTable (h : lowerTable table lower = .ok done) {text : String} {r : β}
    (hr : done.get? text = some r) :
    ∃ name a, table.get? name = some a ∧ name.text = text ∧ lower name a = .ok r := by
  rcases (foldlM_insert_eq_ok h).2.1 text r hr with hempty | ⟨⟨name, a⟩, hp, htext, hlower⟩
  · cases hempty
  · exact ⟨name, a, mem_toList_iff.1 hp, htext, hlower⟩

/-- Where names are told apart by their written forms, every entry finds its own result. -/
theorem get?_of_lowerTable (h : lowerTable table lower = .ok done)
    (hinj : ∀ name ∈ table, ∀ other ∈ table, name.text = other.text → name = other) {a : α}
    (ha : table.get? name = some a) : ∃ r, lower name a = .ok r ∧ done.get? name.text = some r := by
  obtain ⟨⟨r, hr⟩, hmem⟩ := (foldlM_insert_eq_ok h).1 (name, a) (mem_toList_iff.2 ha)
  obtain ⟨r', hr'⟩ := Option.isSome_iff_exists.1 (Std.TreeMap.isSome_getElem?_iff_mem.2 hmem)
  obtain ⟨other, a', ha', htext, hlower⟩ := exists_of_lowerTable h hr'
  obtain rfl : other = name := hinj other (mem_of_get? ha') name (mem_of_get? ha) htext
  obtain rfl : a = a' := Option.some.inj (ha.symm.trans ha')
  exact ⟨r', hlower, hr'⟩

end Tables

/-! ### Programs -/

variable {entry : Option QualName}

theorem lowerProgram_eq_ok {ir : Ir.Program} (h : lowerProgram program entry = .ok ir) :
    lowerTable program.signatures.structs structLayout = .ok ir.structs ∧
      lowerTable program.signatures.enums enumLayout = .ok ir.enums ∧
        lowerTable program.functions (lowerFunction program ir.structs) = .ok ir.functions := by
  unfold lowerProgram at h
  simp only [bind_eq_ok] at h
  obtain ⟨structs, hstructs, enums, henums, functions, hfunctions, start, -, hir⟩ := h
  cases hir
  exact ⟨hstructs, henums, hfunctions⟩

theorem exists_lowered_of_get? {ir : Ir.Program} (h : lowerProgram program entry = .ok ir) {text : String}
    {g : Ir.Function} (hg : ir.functions.get? text = some g) :
    ∃ name f sig b, program.functions.get? name = some f ∧ name.text = text ∧
      Lowered program ir.structs name f.decl sig b g := by
  obtain ⟨name, f, hf, htext, hlower⟩ := exists_of_lowerTable (lowerProgram_eq_ok h).2.2 hg
  obtain ⟨sig, b, hlowered⟩ := lowerFunction_eq_ok.1 hlower
  exact ⟨name, f, sig, b, hf, htext, hlowered⟩

end Lowering
end Keel
