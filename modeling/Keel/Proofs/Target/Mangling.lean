/-
# Symbols tell names apart

A letter or digit stands for itself, and every other byte for an underscore and two
digits.  No such piece starts another one, so the bytes can be read back from the pieces,
and different names have different symbols.  A symbol is an identifier of C, and none of
those that emitted code has besides (`symbols_distinct`).
-/
import Mathlib.Logic.Function.Basic
import Keel.Ir.Listing
import Keel.Target.Symbol

namespace Keel

open List String

/-! ### Bytes -/

namespace Text

theorem toNat_charOfByte (b : UInt8) : (charOfByte b).toNat = b.toNat := by
  have hvalid : b.toNat.isValidChar := .inl (by have := b.toNat_lt; omega)
  rw [charOfByte, Char.ofNat, dif_pos hvalid]
  rfl

theorem charOfByte_inj {b b' : UInt8} (h : charOfByte b = charOfByte b') : b = b' := by
  have hnat := congrArg Char.toNat h
  rwa [toNat_charOfByte, toNat_charOfByte, UInt8.toNat_inj] at hnat

theorem digitChar_inj : ∀ m < 16, ∀ n < 16, Nat.digitChar m = Nat.digitChar n → m = n := by decide

theorem hexByte_inj {b b' : UInt8} (h : hexByte b = hexByte b') : b = b' := by
  have hb := b.toNat_lt
  have hb' := b'.toNat_lt
  obtain ⟨hhigh, hlow⟩ := List.cons.inj h
  have high := digitChar_inj _ (by omega) _ (by omega) hhigh
  have low := digitChar_inj _ (by omega) _ (by omega) (List.cons.inj hlow).1
  exact UInt8.toNat_inj.1 (by omega)

theorem bytes_inj {a b : String} (h : bytes a = bytes b) : a = b :=
  toByteArray_inj.1 (ByteArray.ext (Array.toList_inj.1 h))

end Text

/-! ### Symbols -/

namespace Target

/-- The pieces of two texts that are equal start with the same byte. -/
theorem mangleByte_append_inj {b b' : UInt8} {rest rest' : List Char}
    (h : mangleByte b ++ rest = mangleByte b' ++ rest') : b = b' ∧ rest = rest' := by
  have hunderscore : ('_').isAlphanum = false := by decide
  unfold mangleByte at h
  split at h <;> split at h
  · obtain ⟨hchar, hrest⟩ := List.cons.inj h
    exact ⟨Text.charOfByte_inj hchar, hrest⟩
  · rename_i hb _
    rw [(List.cons.inj h).1, hunderscore] at hb
    cases hb
  · rename_i _ hb'
    rw [← (List.cons.inj h).1, hunderscore] at hb'
    cases hb'
  · obtain ⟨hhex, hrest⟩ := append_inj (List.cons.inj h).2 rfl
    exact ⟨Text.hexByte_inj hhex, hrest⟩

theorem mangleByte_ne_nil (b : UInt8) : mangleByte b ≠ [] := by
  unfold mangleByte
  split <;> simp

theorem flatMap_mangleByte_inj {bs bs' : List UInt8} (h : bs.flatMap mangleByte = bs'.flatMap mangleByte) :
    bs = bs' := by
  induction bs generalizing bs' with
  | nil =>
    cases bs' with
    | nil => rfl
    | cons b' bs' =>
      exact absurd (append_eq_nil_iff.1 h.symm).1 (mangleByte_ne_nil b')
  | cons b bs ih =>
    cases bs' with
    | nil => exact absurd (append_eq_nil_iff.1 h).1 (mangleByte_ne_nil b)
    | cons b' bs' =>
      obtain ⟨rfl, hrest⟩ := mangleByte_append_inj h
      rw [ih hrest]

variable {b a : String}

/-- **Mangling can be undone.** -/
theorem mangle_inj (h : mangle a = mangle b) : a = b :=
  Text.bytes_inj (flatMap_mangleByte_inj (ofList_injective h))

theorem functionSymbol_inj (h : functionSymbol a = functionSymbol b) : a = b :=
  mangle_inj ((String.append_right_inj _).1 h)

theorem structSymbol_inj (h : structSymbol a = structSymbol b) : a = b :=
  mangle_inj ((String.append_right_inj _).1 h)

theorem enumSymbol_inj (h : enumSymbol a = enumSymbol b) : a = b :=
  mangle_inj ((String.append_right_inj _).1 h)

theorem append_ne {lead lead' : String} (hlength : lead.toList.length = lead'.toList.length)
    (hne : lead ≠ lead') (rest rest' : String) : lead ++ rest ≠ lead' ++ rest' := by
  intro h
  have hchars := congrArg String.toList h
  rw [toList_append, toList_append] at hchars
  exact hne (toList_inj.1 (append_inj hchars hlength).1)

theorem symbol_kinds (a b c : String) : functionSymbol a ≠ structSymbol b ∧
    functionSymbol a ≠ enumSymbol c ∧ structSymbol b ≠ enumSymbol c :=
  ⟨append_ne (by decide) (by decide) _ _, append_ne (by decide) (by decide) _ _,
    append_ne (by decide) (by decide) _ _⟩

/-! ### Identifiers of C -/

def isIdentifierPart (c : Char) : Bool := c.isAlphanum || c == '_'

def reservedWords : List String :=
  ["auto", "break", "case", "char", "const", "continue", "default", "do", "double", "else", "enum",
    "extern", "float", "for", "goto", "if", "inline", "int", "long", "register", "restrict", "return",
    "short", "signed", "sizeof", "static", "struct", "switch", "typedef", "union", "unsigned", "void",
    "volatile", "while", "_Alignas", "_Alignof", "_Atomic", "_Bool", "_Complex", "_Generic",
    "_Imaginary", "_Noreturn", "_Static_assert", "_Thread_local"]

def isIdentifier (text : String) : Bool :=
  text.toList.all isIdentifierPart && text.toList.head?.any (!·.isDigit) && !reservedWords.contains text

/-- What emitted code has names for besides the declarations of the program: the support text,
`main`, and the variables and labels of a function. -/
inductive Generated : String → Prop
  | support (rest : String) : Generated ("kl_" ++ rest)
  | main : Generated "main"
  | param (index : Nat) : Generated s!"p{index}"
  | temp (id : Ir.TempId) : Generated id.text
  | slot (id : Ir.SlotId) : Generated id.text
  | block (id : Ir.BlockId) : Generated id.text

theorem isIdentifierPart_of_mem_mangle {name : String} {c : Char} (h : c ∈ (mangle name).toList) :
    isIdentifierPart c = true := by
  have hdigit : ∀ n < 16, isIdentifierPart (Nat.digitChar n) = true := by decide
  rw [mangle, toList_ofList, mem_flatMap] at h
  obtain ⟨b, -, hc⟩ := h
  have hb := b.toNat_lt
  unfold mangleByte at hc
  split at hc
  case isTrue hkept =>
    rw [mem_singleton.1 hc, isIdentifierPart, hkept, Bool.true_or]
  case isFalse =>
    rw [Text.hexByte, mem_cons, mem_cons, mem_singleton] at hc
    obtain rfl | rfl | rfl := hc
    · rfl
    · exact hdigit _ (by omega)
    · exact hdigit _ (by omega)

section Lead

/-! The three letters that a symbol starts with make it an identifier, and one of its own. -/

variable {lead : String} {letter : Char} (hlead : lead.toList = ['k', letter, '_'])
include hlead

theorem isIdentifier_lead (hletter : letter.isAlphanum = true) (name : String) :
    isIdentifier (lead ++ mangle name) = true := by
  have hchars : (lead ++ mangle name).toList = 'k' :: letter :: '_' :: (mangle name).toList := by
    rw [toList_append, hlead]
    rfl
  have hreserved : lead ++ mangle name ∉ reservedWords := by
    have hfirst : ∀ word ∈ reservedWords, word.toList.head? ≠ some 'k' := by decide
    exact fun hmem => hfirst _ hmem (by rw [hchars]; rfl)
  have hparts : (mangle name).toList.all isIdentifierPart = true :=
    all_eq_true.2 fun c => isIdentifierPart_of_mem_mangle
  have hk : isIdentifierPart 'k' = true := rfl
  have hunderscore : isIdentifierPart '_' = true := rfl
  have hsecond : isIdentifierPart letter = true := by rw [isIdentifierPart, hletter, Bool.true_or]
  simp [isIdentifier, hchars, hreserved, hparts, hk, hunderscore, hsecond]

theorem not_generated_lead (hletter : letter ≠ 'l') (name : String) : ¬ Generated (lead ++ mangle name) := by
  intro h
  generalize htext : lead ++ mangle name = text at h
  have hchars : text.toList = ['k', letter, '_'] ++ (mangle name).toList := by
    rw [← htext, toList_append, hlead]
  cases h with
  | support rest =>
    rw [toList_append] at hchars
    exact hletter (List.cons.inj (List.cons.inj hchars).2).1.symm
  | main => exact absurd (List.cons.inj hchars).1 (by decide)
  | param index =>
    change ("p" ++ toString index).toList = _ at hchars
    exact absurd (congrArg List.head? hchars) (by simp)
  | temp id | slot id | block id =>
    exact absurd (congrArg List.head? hchars) (by simp [Ir.TempId.text, Ir.SlotId.text, Ir.BlockId.text])

end Lead

/-- **Symbols do not collide.**  Mangling can be undone, and leaves letters, digits and underscores.
Functions, structs and enums have symbols that are all different, each an identifier of C and none
that emitted code has for anything else. -/
theorem symbols_distinct :
    Function.Injective mangle ∧ (∀ name, (mangle name).toList.all isIdentifierPart = true) ∧
    (∀ a b c, functionSymbol a ≠ structSymbol b ∧ functionSymbol a ≠ enumSymbol c ∧
      structSymbol b ≠ enumSymbol c) ∧
    ∀ symbol ∈ [functionSymbol, structSymbol, enumSymbol], Function.Injective symbol ∧
      ∀ name, isIdentifier (symbol name) = true ∧ ¬ Generated (symbol name) := by
  refine ⟨fun _ _ => mangle_inj, fun _ => all_eq_true.2 fun _ => isIdentifierPart_of_mem_mangle,
    symbol_kinds, fun symbol hsymbol => ?_⟩
  simp only [mem_cons, not_mem_nil, or_false] at hsymbol
  obtain rfl | rfl | rfl := hsymbol
  · exact ⟨fun _ _ => functionSymbol_inj, fun name =>
      ⟨isIdentifier_lead rfl rfl name, not_generated_lead rfl (by decide) name⟩⟩
  · exact ⟨fun _ _ => structSymbol_inj, fun name =>
      ⟨isIdentifier_lead rfl rfl name, not_generated_lead rfl (by decide) name⟩⟩
  · exact ⟨fun _ _ => enumSymbol_inj, fun name =>
      ⟨isIdentifier_lead rfl rfl name, not_generated_lead rfl (by decide) name⟩⟩

/-- A name with a digit pair behind an underscore, which an escape could be taken for. -/
theorem symbols_distinct_escape : structSymbol ∈ [functionSymbol, structSymbol, enumSymbol] ∧
    structSymbol "a_2e" ≠ structSymbol "a." ∧ isIdentifier (structSymbol "a.") = true := by
  have hmem : structSymbol ∈ [functionSymbol, structSymbol, enumSymbol] := by simp
  obtain ⟨hinj, hsymbol⟩ := symbols_distinct.2.2.2 structSymbol hmem
  exact ⟨hmem, hinj.ne (by decide), (hsymbol "a.").1⟩

end Target
end Keel
