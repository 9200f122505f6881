/-
# Names in the order of their bytes

Text is ordered by its characters, from the first one on.  UTF-8 keeps that order: a greater
character has a greater first byte, or the same first byte and a greater one among those that
follow.  So it makes no difference whether names are compared as characters or as bytes
(`bytes_lt_bytes_iff`).
-/
import Mathlib.Data.UInt
import Mathlib.Data.String.Basic
import Keel.Text.Bytes

namespace Keel.Text

open List

theorem bytes_eq_flatMap (text : String) : bytes text = text.toList.flatMap String.utf8EncodeChar := by
  conv_lhs => rw [← String.ofList_toList (s := text)]
  rw [bytes, String.toUTF8, String.toByteArray_ofList, List.utf8Encode]
  simp

section Byte

variable {a b : Nat}

theorem ofNat_lt_ofNat_iff (ha : a < 256) (hb : b < 256) : UInt8.ofNat a < UInt8.ofNat b ↔ a < b := by
  rw [UInt8.lt_iff_toNat_lt, UInt8.toNat_ofNat_of_lt' ha, UInt8.toNat_ofNat_of_lt' hb]

theorem ofNat_eq_ofNat_iff (ha : a < 256) (hb : b < 256) : UInt8.ofNat a = UInt8.ofNat b ↔ a = b := by
  rw [← UInt8.toNat_inj, UInt8.toNat_ofNat_of_lt' ha, UInt8.toNat_ofNat_of_lt' hb]

end Byte

/-- Whatever follows, the bytes of the lesser character come first. -/
theorem utf8EncodeChar_append_lt {c d : Char} (h : c < d) (x y : List UInt8) :
    String.utf8EncodeChar c ++ x < String.utf8EncodeChar d ++ y := by
  have hlt : c.val.toNat < d.val.toNat := h
  have hmax : d.val.toNat < 1114112 := by
    rcases d.valid with hd | hd
    · have : d.val.toNat < 55296 := hd
      omega
    · exact hd.2
  unfold String.utf8EncodeChar
  generalize c.val.toNat = v at *
  generalize d.val.toNat = w at *
  dsimp only
  by_cases hbig : v ≤ 65535
  -- One case for each pair of lengths.
  · split_ifs <;>
      simp (disch := omega) only [cons_append, cons_lt_cons_iff, ofNat_lt_ofNat_iff,
        ofNat_eq_ofNat_iff] <;>
      omega
  -- Of two characters of four bytes, the lesser is so in the first digit where they differ.
  · have hdigit {n m : Nat} (h : n < m) : n / 64 < m / 64 ∨ n / 64 = m / 64 ∧ n % 64 < m % 64 := by
      omega
    have h₁ := hdigit hlt
    have h₂ := hdigit (n := v / 64) (m := w / 64)
    have h₃ := hdigit (n := v / 64 / 64) (m := w / 64 / 64)
    have htop {n : Nat} (h : n < 1114112) : n / 262144 % 8 = n / 262144 := by omega
    simp only [Nat.div_div_eq_div_mul, Nat.reduceMul] at h₂ h₃
    simp (disch := omega) only [if_neg, cons_append, cons_lt_cons_iff, ofNat_lt_ofNat_iff,
      ofNat_eq_ofNat_iff, htop]
    omega

theorem flatMap_utf8EncodeChar_lt {cs ds : List Char} (h : cs < ds) :
    cs.flatMap String.utf8EncodeChar < ds.flatMap String.utf8EncodeChar := by
  induction h with
  | nil =>
    rename_i d ds
    have hne : String.utf8EncodeChar d ≠ [] := by
      unfold String.utf8EncodeChar
      dsimp only
      split_ifs <;> simp
    obtain ⟨first, more, heq⟩ := exists_cons_of_ne_nil hne
    rw [flatMap_cons, heq]
    exact nil_lt_cons _ _
  | rel hlt => exact utf8EncodeChar_append_lt hlt _ _
  | cons _ ih => exact append_left_lt ih

/-- **The order of names is the order of their bytes.** -/
theorem bytes_lt_bytes_iff {a b : String} : bytes a < bytes b ↔ a < b := by
  have hmono {a b : String} (h : a < b) : bytes a < bytes b := by
    rw [bytes_eq_flatMap, bytes_eq_flatMap]
    exact flatMap_utf8EncodeChar_lt (String.lt_iff_toList_lt.1 h)
  refine ⟨fun h => ?_, hmono⟩
  rcases lt_trichotomy a b with hab | rfl | hba
  · exact hab
  · exact absurd h (List.lt_irrefl _)
  · exact absurd (hmono hba) (List.lt_asymm h)

theorem bytes_le_bytes_iff {a b : String} : bytes a ≤ bytes b ↔ a ≤ b :=
  List.not_lt.symm.trans ((not_congr bytes_lt_bytes_iff).trans not_lt)

end Keel.Text
