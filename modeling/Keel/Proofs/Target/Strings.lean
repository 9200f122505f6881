/-
# String literals as C reads them

A reader goes through the characters of one or more literals, with blanks between them, and
gives their bytes.  It is a machine with five states:

| place | what may come |
| --- | --- |
| between literals | a blank, or the quote that opens the next one |
| inside | a quote, a backslash, or any character but a newline, which stands for its bytes |
| behind a backslash | a letter or sign that stands for one byte, or `x` |
| behind `\x` | a digit |
| in a number | another digit, which always belongs to it, or else what may come inside |

A number has to be less than 256 when it ends.  Literals that are emitted are read back as the bytes
they were made from (`stringLiteral_roundTrip`): the one state that is carried from a byte to the next
is that of a number, and there a digit has the closing and the opening quote before it.
-/
import Mathlib.Data.UInt
import Keel.Proofs.Target.Mangling
import Keel.Target.Code
import Keel.Token.Scan

namespace Keel.Target

open List Text

/-! ### The reader -/

inductive Place where
  | between
  | inside
  | escape
  | numberStart
  | number (value : Nat)
deriving DecidableEq, Repr

def escapedByte? : Char → Option UInt8
  | '\x27' => some 39
  | '"' => some 34
  | '?' => some 63
  | '\\' => some 92
  | 'a' => some 7
  | 'b' => some 8
  | 'f' => some 12
  | 'n' => some 10
  | 'r' => some 13
  | 't' => some 9
  | 'v' => some 11
  | _ => none

def readPlain (c : Char) : Option (List UInt8 × Place) :=
  if c = '"' then some ([], .between)
  else if c = '\\' then some ([], .escape)
  else if c = '\n' then none
  else some (String.utf8EncodeChar c, .inside)

def Place.read : Place → Char → Option (List UInt8 × Place)
  | between, c => if c = ' ' then some ([], between) else if c = '"' then some ([], inside) else none
  | inside, c => readPlain c
  | escape, c =>
    if c = 'x' then some ([], numberStart) else (escapedByte? c).map fun b => ([b], inside)
  | numberStart, c => if Scan.isHexDigit c then some ([], number (Scan.digitValue c)) else none
  | number value, c =>
    if Scan.isHexDigit c then some ([], number (16 * value + Scan.digitValue c))
    else if value < 256 then (readPlain c).map fun (bytes, place) => (UInt8.ofNat value :: bytes, place)
    else none

def readFrom : Place → List Char → Option (List UInt8)
  | .between, [] => some []
  | _, [] => none
  | place, c :: rest => do
    let (bytes, next) ← place.read c
    return bytes ++ (← readFrom next rest)

def literalBytes (text : String) : Option (List UInt8) :=
  match text.toList with
  | '"' :: rest => readFrom .inside rest
  | _ => none

/-! ### One byte -/

variable {c : Char} {b : UInt8}

theorem readFrom_cons {place next : Place} {bytes : List UInt8} (h : place.read c = some (bytes, next))
    (rest : List Char) : readFrom place (c :: rest) = (readFrom next rest).map (bytes ++ ·) := by
  cases place <;> simp [readFrom, h, Option.map_eq_bind]

theorem toNat_val_charOfByte (b : UInt8) : (charOfByte b).val.toNat = b.toNat := toNat_charOfByte b

theorem isHexDigit_charOfByte (b : UInt8) : Scan.isHexDigit (charOfByte b) = isHexDigit b := by
  simp only [Scan.isHexDigit, Scan.isDigit, isHexDigit, Char.le_def, UInt32.le_iff_toNat_le, UInt8.le_iff_toNat_le,
    toNat_val_charOfByte]
  rw [Bool.or_right_comm]
  rfl

theorem utf8EncodeChar_charOfByte (h : isPrintable b = true) : String.utf8EncodeChar (charOfByte b) = [b] := by
  simp only [isPrintable, Bool.and_eq_true, decide_eq_true_eq, UInt8.le_iff_toNat_le] at h
  have hle : b.toNat ≤ 126 := h.2
  simp only [String.utf8EncodeChar, toNat_val_charOfByte]
  rw [if_pos (by omega), UInt8.ofNat_toNat]

theorem escapedByte?_of_shortEscape? (h : shortEscape? b = some c) : c ≠ 'x' ∧ escapedByte? c = some b := by
  have hbyte (n : UInt8) (hb : charOfByte b = charOfByte n) : some n = some b :=
    congrArg some (charOfByte_inj hb).symm
  unfold shortEscape? at h
  split at h <;> cases h
  · exact ⟨by decide, hbyte 92 ‹_›⟩
  · exact ⟨by decide, hbyte 34 ‹_›⟩
  · exact ⟨by decide, hbyte 10 ‹_›⟩
  · exact ⟨by decide, hbyte 13 ‹_›⟩
  · exact ⟨by decide, hbyte 9 ‹_›⟩

theorem readPlain_of_isPrintable (hshort : shortEscape? b = none) (h : isPrintable b = true) :
    readPlain (charOfByte b) = some ([b], .inside) := by
  unfold shortEscape? at hshort
  split at hshort <;> try cases hshort
  rename_i hbackslash hquote hnewline _ _
  rw [readPlain, if_neg hquote, if_neg hbackslash, if_neg hnewline, utf8EncodeChar_charOfByte h]

theorem digitChar_hex : ∀ n < 16, Scan.isHexDigit (Nat.digitChar n) = true ∧ Scan.digitValue (Nat.digitChar n) = n := by
  decide

/-- Two digits are read as the number of the byte, which may still go on. -/
theorem readFrom_hexByte (b : UInt8) (rest : List Char) :
    readFrom .numberStart (hexByte b ++ rest) = readFrom (.number b.toNat) rest := by
  have hb := b.toNat_lt
  obtain ⟨hhigh, hhighValue⟩ := digitChar_hex (b.toNat / 16) (by omega)
  obtain ⟨hlow, hlowValue⟩ := digitChar_hex (b.toNat % 16) (by omega)
  have hnumber : 16 * (b.toNat / 16) + b.toNat % 16 = b.toNat := by omega
  simp [hexByte, readFrom, Place.read, hhigh, hhighValue, hlow, hlowValue, hnumber]

/-- **A byte is read as itself**, but the number of one that has no other form is not at its end yet. -/
theorem readFrom_escapeByte (b : UInt8) (rest : List Char) : readFrom .inside (escapeByte b ++ rest) =
      if isNumbered b then readFrom (.number b.toNat) rest else (readFrom .inside rest).map (b :: ·) := by
  have hbackslash : Place.read .inside '\\' = some ([], .escape) := rfl
  have hx : Place.read .escape 'x' = some ([], .numberStart) := rfl
  rw [escapeByte, isNumbered]
  cases hshort : shortEscape? b with
  | some c =>
    obtain ⟨hne, hbyte⟩ := escapedByte?_of_shortEscape? hshort
    have hescape : Place.read .escape c = some ([b], .inside) := by rw [Place.read, if_neg hne, hbyte]; rfl
    simp [readFrom_cons hbackslash, readFrom_cons hescape, Function.comp_def]
  | none =>
    cases hprintable : isPrintable b with
    | true =>
      have hplain : Place.read .inside (charOfByte b) = some ([b], .inside) :=
        readPlain_of_isPrintable hshort hprintable
      simp [readFrom_cons hplain]
    | false => simp [readFrom_cons hbackslash, readFrom_cons hx, readFrom_hexByte]

theorem readFrom_number (hc : Scan.isHexDigit c = false) (b : UInt8) (rest : List Char) :
    readFrom (.number b.toNat) (c :: rest) = (readFrom .inside (c :: rest)).map (b :: ·) := by
  have hb : b.toNat < 256 := b.toNat_lt
  cases hplain : readPlain c with
  | none => simp [readFrom, Place.read, hc, hplain]
  | some result =>
    have hinside : Place.read .inside c = some result := hplain
    have hnumber : Place.read (.number b.toNat) c = some (b :: result.1, result.2) := by
      simp [Place.read, hc, hb, hplain]
    rw [readFrom_cons hnumber, readFrom_cons hinside, Option.map_map]
    rfl

theorem escapeByte_ne_nil (b : UInt8) : ∃ c rest, escapeByte b = c :: rest ∧ (c = '\\' ∨ c = charOfByte b) := by
  unfold escapeByte
  split
  · exact ⟨_, _, rfl, .inl rfl⟩
  · split
    · exact ⟨_, _, rfl, .inr rfl⟩
    · exact ⟨_, _, rfl, .inl rfl⟩

/-! ### Whole literals -/

/-- **The bytes are read back**, at the start of a literal and behind a number. -/
theorem readFrom_escapeBytes (bs : List UInt8) : readFrom .inside (escapeBytes false bs ++ ['"']) = some bs ∧
      ∀ b : UInt8, readFrom (.number b.toNat) (escapeBytes true bs ++ ['"']) = some (b :: bs) := by
  have hquote : Scan.isHexDigit '"' = false := rfl
  induction bs with
  | nil => exact ⟨rfl, fun b => readFrom_number hquote b []⟩
  | cons b bs ih =>
    have hinside : readFrom .inside (escapeByte b ++ (escapeBytes (isNumbered b) bs ++ ['"'])) = some (b :: bs) := by
      rw [readFrom_escapeByte]
      cases isNumbered b with
      | true => exact ih.2 b
      | false => simp [ih.1]
    refine ⟨by simpa [escapeBytes] using hinside, fun before => ?_⟩
    cases hdigit : isHexDigit b with
    | true =>
      -- The quotes before a digit close the literal, and with it the number.
      have hclose : readFrom .inside ('"' :: ' ' :: '"' :: (escapeByte b ++ (escapeBytes (isNumbered b) bs ++ ['"']))) =
          some (b :: bs) := by simp [readFrom, Place.read, readPlain, hinside]
      simp [escapeBytes, hdigit, readFrom_number hquote, hclose]
    | false =>
      obtain ⟨c, more, hescape, hc⟩ := escapeByte_ne_nil b
      have hend : Scan.isHexDigit c = false := by
        rcases hc with rfl | rfl
        · rfl
        · rw [isHexDigit_charOfByte, hdigit]
      rw [hescape, cons_append] at hinside
      simp [escapeBytes, hdigit, hescape, readFrom_number hend, hinside]

def isPrintableChar (c : Char) : Bool := ' ' ≤ c && c ≤ '~'

theorem isPrintableChar_of_mem_escapeByte (h : c ∈ escapeByte b) : isPrintableChar c = true := by
  have hdigit : ∀ n < 16, isPrintableChar (Nat.digitChar n) = true := by decide
  have hb := b.toNat_lt
  unfold escapeByte at h
  split at h
  case h_1 letter hshort =>
    rw [mem_cons, mem_singleton] at h
    obtain rfl | rfl := h
    · rfl
    · unfold shortEscape? at hshort
      split at hshort <;> cases hshort <;> rfl
  case h_2 =>
    split at h
    case isTrue hprintable =>
      rw [mem_singleton.1 h, isPrintableChar]
      simp only [isPrintable, UInt8.le_iff_toNat_le, Char.le_def, UInt32.le_iff_toNat_le, toNat_val_charOfByte]
        at hprintable ⊢
      exact hprintable
    case isFalse =>
      rw [hexByte, mem_cons, mem_cons, mem_cons, mem_singleton] at h
      obtain rfl | rfl | rfl | rfl := h
      · rfl
      · rfl
      · exact hdigit _ (by omega)
      · exact hdigit _ (by omega)

theorem isPrintableChar_of_mem_escapeBytes {numbered : Bool} {bs : List UInt8} (h : c ∈ escapeBytes numbered bs) :
    isPrintableChar c = true := by
  induction bs generalizing numbered with
  | nil => cases h
  | cons b bs ih =>
    rw [escapeBytes, mem_append, mem_append] at h
    obtain (hquotes | hbyte) | hrest := h
    · split at hquotes
      · simp only [mem_cons, not_mem_nil, or_false] at hquotes
        obtain rfl | rfl | rfl := hquotes <;> rfl
      · cases hquotes
    · exact isPrintableChar_of_mem_escapeByte hbyte
    · exact ih hrest

theorem literalBytes_stringLiteral (text : String) : literalBytes (stringLiteral text) = some (bytes text) := by
  rw [literalBytes, stringLiteral, String.toList_ofList]
  exact (readFrom_escapeBytes (bytes text)).1

/-- **Strings survive emission.**  The literal of a string is printable ASCII, C reads it as the bytes of the
string, and the length that stands beside it is their number. -/
theorem stringLiteral_roundTrip (text : String) :
    (stringLiteral text).toList.all isPrintableChar = true ∧
    literalBytes (stringLiteral text) = some (bytes text) ∧
    (ofConstant (.str text)).text =
      "((kl_str)\x7b " ++ stringLiteral text ++ ", " ++ toString (bytes text).length ++ " \x7d)" := by
  refine ⟨?_, literalBytes_stringLiteral text, rfl⟩
  rw [stringLiteral, String.toList_ofList, all_eq_true]
  intro c hc
  rw [mem_append, mem_cons, mem_singleton] at hc
  obtain (rfl | hbytes) | rfl := hc
  · rfl
  · exact isPrintableChar_of_mem_escapeBytes hbytes
  · rfl

/-- A digit behind a byte that is written by its number. -/
example : stringLiteral "\x01a\n" = "\"\\x01\" \"a\\n\"" := by decide

end Keel.Target
