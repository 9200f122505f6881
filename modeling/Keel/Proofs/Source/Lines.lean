/-
# Lines and columns

The index of a text is built from its characters, but offsets count bytes.  No character except
the newline has a newline among its bytes, so the starts that the index holds are the places after
the newline bytes (`startsAfter_eq`), and the line and column of an offset are what a count over
the bytes gives (`LineIndex.position_ofText`).  Of two offsets the greater one has more starts
before it, or the same starts and a greater distance from the last one (`LineIndex.before_of_lt`).
-/
import Mathlib.Data.List.TakeWhile
import Keel.Source.Position
import Keel.Proofs.Text.ByteOrder

namespace Keel

open List

/-- An earlier line, or the same line and an earlier column. -/
def Position.Before (p q : Position) : Prop := p.line < q.line ∨ p.line = q.line ∧ p.column < q.column

def newline : UInt8 := 10

/-- The line of an offset starts there: at the front of the text or behind a newline, with no newline
from there up to the offset. -/
structure LineStart (bytes : List UInt8) (offset start : Nat) : Prop where
  le : start ≤ offset
  after : start = 0 ∨ bytes[start - 1]? = some newline
  clear : ∀ i, start ≤ i → i < offset → bytes[i]? ≠ some newline

namespace LineIndex

/-! ### The order of positions -/

theorem takeWhile_le_isPrefix (starts : List Nat) {a b : Nat} (h : a ≤ b) :
    starts.takeWhile (· ≤ a) <+: starts.takeWhile (· ≤ b) := by
  induction starts with
  | nil => exact prefix_refl _
  | cons start rest ih =>
    by_cases ha : start ≤ a
    · rw [takeWhile_cons_of_pos (by simpa using ha),
        takeWhile_cons_of_pos (by simpa using Nat.le_trans ha h)]
      exact prefix_cons_inj start |>.2 ih
    · rw [takeWhile_cons_of_neg (by simpa using ha)]
      exact nil_prefix

theorem takeWhile_le_eq {starts : List Nat} (hsorted : starts.Pairwise (· < ·)) (offset : Nat) :
    starts.takeWhile (· ≤ offset) = starts.takeWhile (· < offset) ++
      if starts[(starts.takeWhile (· < offset)).length]? = some offset then [offset] else [] := by
  induction starts with
  | nil => rfl
  | cons start rest ih =>
    obtain ⟨hfirst, hrest⟩ := pairwise_cons.1 hsorted
    rcases Nat.lt_trichotomy start offset with hlt | rfl | hgt
    · rw [takeWhile_cons_of_pos (by simpa using Nat.le_of_lt hlt),
        takeWhile_cons_of_pos (by simpa using hlt), ih hrest]
      rfl
    · -- What follows is greater.
      have hnone : rest.takeWhile (· ≤ start) = [] := by
        cases rest with
        | nil => rfl
        | cons next _ => exact takeWhile_cons_of_neg (by simpa using hfirst next mem_cons_self)
      simp [hnone]
    · rw [takeWhile_cons_of_neg (by simpa using hgt), takeWhile_cons_of_neg (by simp; omega)]
      simp [Nat.ne_of_gt hgt]

theorem getLastD_of_prefix {starts before : List Nat} (h : before <+: starts) {line : Nat}
    (hline : line + 1 = before.length) : before.getLastD 0 = starts.getD line 0 := by
  obtain ⟨later, rfl⟩ := h
  rw [getLastD_eq_getLast?, List.getLast?_eq_getElem?, ← hline, Nat.add_sub_cancel, getD_eq_getElem?_getD,
    List.getElem?_append_left (by omega)]

/-- Both outcomes of the search lead to the last start that is not behind the offset. -/
theorem position_eq {index : LineIndex} (hfirst : index.starts.head? = some 0)
    (hsorted : index.starts.Pairwise (· < ·)) (offset : Nat) :
    index.position offset = ⟨(index.starts.takeWhile (· ≤ offset)).length,
      offset - (index.starts.takeWhile (· ≤ offset)).getLastD 0 + 1⟩ := by
  have hfront := takeWhile_le_eq hsorted offset
  have hpos : 0 < (index.starts.takeWhile (· ≤ offset)).length := by
    obtain ⟨rest, hrest⟩ := List.head?_eq_some_iff.1 hfirst
    simp [hrest]
  have hline : index.lineAt offset + 1 = (index.starts.takeWhile (· ≤ offset)).length := by
    rw [hfront] at hpos ⊢
    by_cases hat : index.starts[(index.starts.takeWhile (· < offset)).length]? = some offset
    · simp [lineAt, search, hat]
    · rw [if_neg hat, append_nil] at hpos ⊢
      simpa [lineAt, search, hat] using Nat.sub_add_cancel hpos
  rw [position, hline, getLastD_of_prefix (index.starts.takeWhile_prefix _) hline]

variable {index : LineIndex} (hfirst : index.starts.head? = some 0) (hsorted : index.starts.Pairwise (· < ·))
include hfirst hsorted

theorem before_of_lt {a b : Nat} (h : a < b) : (index.position a).Before (index.position b) := by
  have hfront := takeWhile_le_isPrefix index.starts (Nat.le_of_lt h)
  rw [position_eq hfirst hsorted, position_eq hfirst hsorted]
  rcases Nat.lt_or_eq_of_le hfront.length_le with hlt | heq
  · exact .inl hlt
  · refine .inr ⟨heq, ?_⟩
    have hlast : (index.starts.takeWhile (· ≤ a)).getLastD 0 ≤ a := by
      rw [getLastD_eq_getLast?]
      cases hlast : (index.starts.takeWhile (· ≤ a)).getLast? with
      | none => exact Nat.zero_le a
      | some start => simpa using mem_takeWhile_imp (mem_of_getLast? hlast)
    simp only [← hfront.eq_of_length heq]
    omega

theorem before_iff (a b : Nat) : (index.position a).Before (index.position b) ↔ a < b := by
  refine ⟨fun h => ?_, before_of_lt hfirst hsorted⟩
  rcases Nat.lt_trichotomy a b with hab | rfl | hba
  · exact hab
  · simp [Position.Before] at h
  · have := before_of_lt hfirst hsorted hba
    simp only [Position.Before] at h this
    omega

omit hfirst hsorted

/-! ### Starts of lines -/

/-- The places after the newlines, for bytes that begin at `offset`. -/
def startsOfBytes : Nat → List UInt8 → List Nat
  | _, [] => []
  | offset, byte :: bytes =>
    if byte = newline then (offset + 1) :: startsOfBytes (offset + 1) bytes
    else startsOfBytes (offset + 1) bytes

theorem startsOfBytes_append {first : List UInt8} (h : newline ∉ first) (offset : Nat) (bytes : List UInt8) :
    startsOfBytes offset (first ++ bytes) = startsOfBytes (offset + first.length) bytes := by
  induction first generalizing offset with
  | nil => rfl
  | cons byte first ih =>
    obtain ⟨hne, hrest⟩ := not_or.1 (mt mem_cons.2 h)
    rw [cons_append, startsOfBytes, if_neg (Ne.symm hne), ih hrest, length_cons]
    congr 1
    omega

theorem newline_notMem_utf8EncodeChar {c : Char} (h : c ≠ '\n') : newline ∉ String.utf8EncodeChar c := by
  have hne : c.val.toNat ≠ 10 := fun heq => h (Char.ext (UInt32.toNat_inj.1 heq))
  unfold String.utf8EncodeChar newline
  dsimp only
  split_ifs <;>
    simp only [mem_cons, not_mem_nil, or_false, ← UInt8.toNat_inj, UInt8.toNat_ofNat,
      UInt8.toNat_ofNat'] <;>
    omega

/-- **The index holds the places after the newline bytes.** -/
theorem startsAfter_eq (offset : Nat) (cs : List Char) :
    startsAfter offset cs = startsOfBytes offset (cs.flatMap String.utf8EncodeChar) := by
  induction cs generalizing offset with
  | nil => rfl
  | cons c cs ih =>
    rw [startsAfter, flatMap_cons]
    split
    · rename_i hc
      subst hc
      exact congrArg (_ :: ·) (ih _)
    · rename_i hc
      rw [startsOfBytes_append (newline_notMem_utf8EncodeChar hc), String.length_utf8EncodeChar, ih]

theorem length_startsOfBytes (offset : Nat) (bytes : List UInt8) :
    (startsOfBytes offset bytes).length = bytes.count newline := by
  induction bytes generalizing offset with
  | nil => rfl
  | cons byte bytes ih =>
    rw [startsOfBytes, count_cons]
    split <;> simp [*]

/-- The starts up to an offset are those of the bytes before it. -/
theorem takeWhile_startsOfBytes (base offset : Nat) (bytes : List UInt8) :
    (startsOfBytes base bytes).takeWhile (· ≤ offset) = startsOfBytes base (bytes.take (offset - base)) := by
  induction bytes generalizing base with
  | nil => simp [startsOfBytes]
  | cons byte bytes ih =>
    rcases Nat.lt_or_ge base offset with hlt | hge
    · obtain ⟨n, hn⟩ : ∃ n, offset - base = n + 1 := ⟨offset - base - 1, by omega⟩
      rw [hn, take_succ_cons, startsOfBytes, startsOfBytes, show n = offset - (base + 1) by omega, ← ih]
      split
      · exact takeWhile_cons_of_pos (decide_eq_true hlt)
      · rfl
    · rw [Nat.sub_eq_zero_of_le hge, take_zero, startsOfBytes, startsOfBytes]
      split
      · exact takeWhile_cons_of_neg (by simpa using Nat.lt_succ_of_le hge)
      · rw [ih, Nat.sub_eq_zero_of_le (Nat.le_succ_of_le hge), take_zero, startsOfBytes]

theorem startsOfBytes_concat (offset : Nat) (bytes : List UInt8) (byte : UInt8) :
    startsOfBytes offset (bytes ++ [byte]) = startsOfBytes offset bytes ++
      if byte = newline then [offset + bytes.length + 1] else [] := by
  induction bytes generalizing offset with
  | nil => simp [startsOfBytes]
  | cons first bytes ih =>
    rw [cons_append, startsOfBytes, startsOfBytes, ih, length_cons,
      show offset + 1 + bytes.length = offset + (bytes.length + 1) by omega]
    split <;> rfl

theorem pairwise_startsAfter (offset : Nat) (cs : List Char) : (offset :: startsAfter offset cs).Pairwise (· < ·) := by
  induction cs generalizing offset with
  | nil => exact pairwise_singleton _ _
  | cons c cs ih =>
    have hlater := ih (offset + c.utf8Size)
    have hsize := c.utf8Size_pos
    rw [startsAfter]
    split
    · refine hlater.cons fun start hstart => ?_
      rcases mem_cons.1 hstart with rfl | hstart
      · omega
      · have := (pairwise_cons.1 hlater).1 start hstart
        omega
    · obtain ⟨habove, hrest⟩ := pairwise_cons.1 hlater
      exact hrest.cons fun start hstart => Nat.lt_trans (by omega) (habove start hstart)

/-- By induction on the bytes from the last one on: a newline starts a line behind it, and another
byte leaves the start where it was. -/
theorem lineStart_getLastD (bytes : List UInt8) :
    LineStart bytes bytes.length ((0 :: startsOfBytes 0 bytes).getLastD 0) := by
  induction bytes using List.reverseRecOn with
  | nil => exact ⟨Nat.le_refl 0, .inl rfl, fun i _ h => absurd h (Nat.not_lt_zero i)⟩
  | append_singleton bytes byte ih =>
    rw [startsOfBytes_concat]
    split
    · rename_i heq
      rw [← cons_append, getLastD_concat, Nat.zero_add]
      exact ⟨by simp, .inr (by simp [heq]), fun i h h' => absurd h' (by simp; omega)⟩
    · rename_i hne
      rw [append_nil]
      refine ⟨Nat.le_trans ih.le (by simp), ih.after.imp_right fun h => ?_, fun i hi hlt => ?_⟩
      · exact (List.getElem?_append_left (List.getElem?_eq_some_iff.1 h).1).trans h
      · rcases Nat.lt_or_eq_of_le (Nat.le_of_lt_succ (by simpa using hlt)) with hlt | rfl
        · rw [List.getElem?_append_left hlt]
          exact ih.clear i hi hlt
        · simpa using hne

theorem lineStart_of_take {bytes : List UInt8} {offset start : Nat}
    (h : LineStart (bytes.take offset) (bytes.take offset).length start) : LineStart bytes offset start where
  le := Nat.le_trans h.le (length_take_le _ _)
  after := h.after.imp_right fun hat => (Option.ite_none_right_eq_some.1 (List.getElem?_take ▸ hat)).2
  clear i hi hlt hat := by
    have hlen : i < bytes.length := (List.getElem?_eq_some_iff.1 hat).1
    refine h.clear i hi (by rw [length_take]; omega) ?_
    rwa [List.getElem?_take_of_lt hlt]

/-- **Line and column count bytes.**  The line of an offset is one more than the newlines among the
bytes before it, the column one more than the distance from the start of that line.  So positions
are ordered as their offsets are, and different offsets have different positions. -/
theorem position_ofText (text : String) :
    (∀ offset, ∃ start, LineStart (Text.bytes text) offset start ∧ (ofText text).position offset =
      ⟨((Text.bytes text).take offset).count newline + 1, offset - start + 1⟩) ∧
    (∀ a b, ((ofText text).position a).Before ((ofText text).position b) ↔ a < b) ∧
    ∀ a b, (ofText text).position a = (ofText text).position b ↔ a = b := by
  have hsorted : (ofText text).starts.Pairwise (· < ·) := pairwise_startsAfter 0 text.toList
  have hbefore := @before_iff (ofText text) rfl hsorted
  refine ⟨fun offset => ?_, hbefore, fun a b => ⟨fun heq => ?_, congrArg _⟩⟩
  · have hstarts : (ofText text).starts.takeWhile (· ≤ offset) =
        0 :: startsOfBytes 0 ((Text.bytes text).take offset) := by
      rw [ofText, takeWhile_cons_of_pos (by simp), startsAfter_eq, takeWhile_startsOfBytes,
        Nat.sub_zero, Text.bytes_eq_flatMap]
    refine ⟨_, lineStart_of_take (lineStart_getLastD _), ?_⟩
    rw [position_eq rfl hsorted, hstarts, length_cons, length_startsOfBytes]
  · have hnot : ¬ a < b ∧ ¬ b < a := by
      rw [← hbefore, ← hbefore, heq]
      simp [Position.Before]
    omega

end LineIndex
end Keel
