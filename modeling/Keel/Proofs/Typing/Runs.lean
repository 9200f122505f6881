/-
# Runs of the checker

What is proved of the checker is of two kinds.  `Holds` is about every run: a property
of states is kept, and the value is as said.  `Sat` is about the run from one state, and
may compare the states before and after.

Both are taken apart along `bind`; the rules of the checker are then told what their
parts do.
-/
import Keel.Typing.Program

namespace Keel.Typing

open List

variable {α β : Type} {d : Declarations}

/-! ### Every run -/

/-- Runs keep `I`, and their values satisfy `P`. -/
def Holds (d : Declarations) (I : State → Prop) (c : Check α) (P : α → Prop) : Prop :=
  ∀ s, I s → I (c d s).2 ∧ P (c d s).1

abbrev Keeps (d : Declarations) (I : State → Prop) (c : Check α) : Prop :=
  Holds d I c fun _ => True

section Holds

variable {I : State → Prop} {m : Check α} {k : α → Check β} {R : α → Prop} {P : β → Prop}

theorem holds_pure {a : α} (h : R a) : Holds d I (pure a) R := fun _ hs => ⟨hs, h⟩

theorem keeps_pure {a : α} : Keeps d I (pure a) := holds_pure trivial

theorem keeps_true (m : Check α) : Keeps d (fun _ => True) m := fun _ _ => ⟨trivial, trivial⟩

theorem Holds.bind (hm : Holds d I m R) (hk : ∀ a, R a → Holds d I (k a) P) : Holds d I (m >>= k) P := fun s hs =>
  have ⟨h, ha⟩ := hm s hs
  hk _ ha _ h

theorem Holds.imp {R' : α → Prop} (hm : Holds d I m R) (h : ∀ a, R a → R' a) : Holds d I m R' :=
  fun s hs => have ⟨hI, ha⟩ := hm s hs; ⟨hI, h _ ha⟩

theorem Holds.keeps (hm : Holds d I m R) : Keeps d I m := hm.imp fun _ _ => trivial

theorem Keeps.bind (hm : Keeps d I m) (hk : ∀ a, Holds d I (k a) P) : Holds d I (m >>= k) P :=
  Holds.bind hm fun a _ => hk a

theorem Holds.when_bind {p : Prop} [Decidable p] {m : Check Unit} {k : Unit → Check β}
    (hm : Keeps d I m) (hk : Holds d I (k ()) P) : Holds d I (if p then m >>= k else k ()) P := by
  split
  · exact hm.bind fun _ => hk
  · exact hk

theorem holds_get {P : State → Prop} (h : ∀ s, I s → P s) : Holds d I (get : Check State) P :=
  fun s hs => ⟨hs, h s hs⟩

theorem keeps_get : Keeps d I (get : Check State) := holds_get fun _ _ => trivial

theorem holds_read {P : Declarations → Prop} (h : P d) :
    Holds d I (read : Check Declarations) P := fun _ hs => ⟨hs, h⟩

theorem keeps_modify {f : State → State} (h : ∀ s, I s → I (f s)) : Keeps d I (modify f : Check Unit) :=
  fun s hs => ⟨h s hs, trivial⟩

theorem keeps_forM {l : List α} {f : α → Check Unit} (h : ∀ a ∈ l, Keeps d I (f a)) : Keeps d I (l.forM f) := by
  induction l with
  | nil => exact keeps_pure
  | cons a rest ih =>
    have hrest := ih fun b hb => h b (mem_cons_of_mem a hb)
    exact (h a mem_cons_self).bind fun _ => hrest

theorem holds_mapM {l : List α} {f : α → Check β} (h : ∀ a ∈ l, Holds d I (f a) P) :
    Holds d I (l.mapM f) fun bs => ∀ b ∈ bs, P b := by
  induction l with
  | nil => exact holds_pure (by simp)
  | cons a rest ih =>
    rw [mapM_cons]
    have hrest := ih fun b hb => h b (mem_cons_of_mem a hb)
    exact (h a mem_cons_self).bind fun b hb => hrest.bind fun bs hbs =>
      holds_pure (forall_mem_cons.2 ⟨hb, hbs⟩)

theorem keeps_forIn {l : List α} {b : β} {f : α → β → Check (ForInStep β)}
    (h : ∀ a ∈ l, ∀ b, Keeps d I (f a b)) : Keeps d I (forIn l b f) := by
  induction l generalizing b with
  | nil => exact keeps_pure
  | cons a rest ih =>
    rw [forIn_cons]
    refine Keeps.bind (h a mem_cons_self b) fun step => ?_
    cases step with
    | done b => exact keeps_pure
    | yield b => exact ih fun a ha => h a (mem_cons_of_mem _ ha)

end Holds

/-! ### The run from one state -/

def Sat (d : Declarations) (s : State) (c : Check α) (Φ : α → State → Prop) : Prop :=
  Φ (c d s).1 (c d s).2

section Sat

variable {s : State} {m : Check α} {k : α → Check β} {R : α → State → Prop} {Φ : β → State → Prop}

theorem sat_pure {a : α} (h : R a s) : Sat d s (pure a) R := h

theorem Sat.bind (hm : Sat d s m R) (hk : ∀ a s', R a s' → Sat d s' (k a) Φ) : Sat d s (m >>= k) Φ := hk _ _ hm

theorem Sat.imp {R' : α → State → Prop} (hm : Sat d s m R) (h : ∀ a s', R a s' → R' a s') : Sat d s m R' := h _ _ hm

/-- A loop over a list, by what holds when a part of the list is still ahead. -/
theorem sat_forIn (I : List α → State → Prop) {l : List α} {body : α → PUnit → Check (ForInStep PUnit)} (hs : I l s)
    (hbody : ∀ a rest s, I (a :: rest) s → Sat d s (body a ⟨⟩) fun step s' => step = .yield ⟨⟩ ∧ I rest s') :
    Sat d s (forIn l ⟨⟩ body) fun _ s' => I [] s' := by
  induction l generalizing s with
  | nil => exact hs
  | cons a rest ih =>
    rw [forIn_cons]
    refine (hbody a rest s hs).bind ?_
    rintro _ s' ⟨rfl, hs'⟩
    exact ih hs'

theorem sat_forM (I : List α → State → Prop) {l : List α} {f : α → Check Unit} (hs : I l s)
    (hf : ∀ a rest s, I (a :: rest) s → Sat d s (f a) fun _ s' => I rest s') :
    Sat d s (l.forM f) fun _ s' => I [] s' := by
  induction l generalizing s with
  | nil => exact hs
  | cons a rest ih => exact (hf a rest s hs).bind fun _ _ hs' => ih hs'

end Sat

/-! ### Tables -/

theorem get?_insert {κ : Type} [Ord κ] [Std.TransOrd κ] [Std.LawfulEqOrd κ] [DecidableEq κ]
    (t : Std.TreeMap κ α) (k k' : κ) (a : α) : (t.insert k a).get? k' = if k = k' then some a else t.get? k' := by
  simp [Std.TreeMap.getElem?_insert]

theorem contains_iff_get? {κ : Type} [Ord κ] [Std.TransOrd κ] {t : Std.TreeMap κ α} {k : κ} :
    t.contains k ↔ ∃ a, t.get? k = some a := by
  rw [Std.TreeMap.contains_eq_isSome_getElem?, Option.isSome_iff_exists]
  rfl

/-! ### Reports -/

def State.Clean (s : State) : Prop := s.reports = []

end Keel.Typing
