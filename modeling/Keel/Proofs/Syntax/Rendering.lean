/-
# Writing lexemes

Every lexeme that a text can hold has a written form of its own (`Lexeme.text`): numbers are
written in decimal, and in strings only quotes and backslashes are escaped.  Lexemes with a
blank behind each of them are scanned as they are (`scan_render`).
-/
import Mathlib.Data.List.Forall2
import Keel.Proofs.Syntax.Lexemes

namespace Keel

open List Scan

/-- Some text is scanned as this lexeme. -/
def Lexeme.Readable (l : Lexeme) : Prop := ∃ piece, Written l piece

/-- Quotes and backslashes have a backslash in front of them. -/
def escape (c : Char) : List Char := if c = '"' ∨ c = '\\' then ['\\', c] else [c]

def Lexeme.text : Lexeme → List Char
  | ident name => name.toList
  | int value => Nat.toDigits 10 value
  | str value => '"' :: (value.toList.flatMap escape ++ ['"'])
  | keyword word => word.text.toList
  | symbol sign => sign.text.toList
  | eof => []

/-- The lexemes with a blank behind each of them. -/
def renderChars (ls : List Lexeme) : List Char := ls.flatMap fun l => l.text ++ [' ']

def render (ls : List Lexeme) : String := String.ofList (renderChars ls)

namespace Scan

/-! ### Words -/

theorem written_keyword (k : Keyword) : Written (.keyword k) k.text.toList := by
  have hword : word k.text = .keyword k := by rw [word, Keyword.ofText?_text]
  obtain ⟨c, more, htext, hc, hmore⟩ : ∃ c more, k.text.toList = c :: more ∧ isWordStart c ∧
      more.all isWordPart := by
    cases k <;> exact ⟨_, _, rfl, rfl, rfl⟩
  have hwritten := Written.word hc (all_eq_true.1 hmore)
  rwa [← htext, String.ofList_toList, hword] at hwritten

theorem written_word {c : Char} {more : List Char} (hc : isWordStart c) (hmore : ∀ d ∈ more, isWordPart d) :
    Written (word (String.ofList (c :: more))) (word (String.ofList (c :: more))).text := by
  have hwritten := Written.word hc hmore
  cases hk : Keyword.ofText? (String.ofList (c :: more)) with
  | some k =>
    have hword : word (String.ofList (c :: more)) = .keyword k := by rw [word, hk]
    rw [hword]
    exact written_keyword k
  | none =>
    have hword : word (String.ofList (c :: more)) = .ident (String.ofList (c :: more)) := by rw [word, hk]
    rw [hword] at hwritten ⊢
    rwa [Lexeme.text, String.toList_ofList]

/-! ### Numbers -/

theorem isDigit_of_mem_toDigits {n : Nat} {c : Char} (h : c ∈ Nat.toDigits 10 n) : isDigit c := by
  have hc := Nat.isDigit_of_mem_toDigits (by decide) (by decide) h
  simpa [Char.isDigit, isDigit, Char.le_def] using hc

theorem positional_toDigits (n : Nat) : positional 10 (Nat.toDigits 10 n) = n := by
  have hvalue : positional 10 (Nat.toDigits 10 n) = Nat.ofDigitChars 10 (Nat.toDigits 10 n) 0 := by
    rw [Nat.ofDigitChars_eq_foldl, positional]
    refine foldl_ext _ _ _ fun value c hc => ?_
    rw [digitValue, if_pos (isDigit_of_mem_toDigits hc)]
  rw [hvalue, Nat.ofDigitChars_ten_toDigits]

theorem numeralValue_toDigits {n : Nat} (h : n < literalBound) : numeralValue 10 (Nat.toDigits 10 n) = some n := by
  have hdigits : (Nat.toDigits 10 n).filter (· ≠ '_') = Nat.toDigits 10 n := by
    refine filter_eq_self.2 fun c hc => ?_
    have hne : c ≠ '_' := fun heq => Nat.underscore_not_in_toDigits (heq ▸ hc)
    simpa using hne
  rw [numeralValue, hdigits, if_neg (by simp [Nat.toDigits_ne_nil]), positional_toDigits, if_pos h]

theorem lt_of_numeralValue {base value : Nat} {digits : List Char}
    (h : numeralValue base digits = some value) : value < literalBound := by
  unfold numeralValue at h
  dsimp only at h
  split at h
  · cases h
  · split at h
    · cases h
      assumption
    · cases h

theorem written_int {n : Nat} (h : n < literalBound) : Written (.int n) (Nat.toDigits 10 n) := by
  obtain ⟨c, more, htext⟩ := exists_cons_of_ne_nil (Nat.toDigits_ne_nil (n := n) (b := 10))
  have hdigit : ∀ d ∈ c :: more, isDigit d := htext ▸ fun d => isDigit_of_mem_toDigits
  rw [htext]
  refine .decimal (hdigit c mem_cons_self) (fun d hd => ?_) (htext ▸ numeralValue_toDigits h)
  rw [isDecimalPart, hdigit d (mem_cons_of_mem c hd), Bool.true_or]

/-! ### Strings -/

/-- How a character is written between quotes: as it is, or by its escape. -/
inductive SpelledChar : Char → List Char → Prop where
  | raw {c : Char} : c ≠ '"' → c ≠ '\\' → SpelledChar c [c]
  | backslash : SpelledChar '\\' ['\\', '\\']
  | quote : SpelledChar '"' ['\\', '"']
  | newline : SpelledChar '\n' ['\\', 'n']
  | carriageReturn : SpelledChar '\r' ['\\', 'r']
  | tab : SpelledChar '\t' ['\\', 't']
  | nul : SpelledChar '\x00' ['\\', '0']

theorem spelledChar_escape (c : Char) : SpelledChar c (escape c) := by
  unfold escape
  split
  · rename_i hc
    rcases hc with rfl | rfl
    · exact .quote
    · exact .backslash
  · rename_i hc
    obtain ⟨hquote, hslash⟩ := not_or.1 hc
    exact .raw hquote hslash

theorem stringBody_spelled {value : List Char} {pieces : List (List Char)}
    (h : List.Forall₂ SpelledChar value pieces) (rest : List Char) :
    stringBody (pieces.flatten ++ '"' :: rest) = some (value, rest) := by
  induction h with
  | nil => rfl
  | @cons c piece value pieces hc _ ih =>
    rw [flatten_cons, append_assoc]
    cases hc with
    | raw hquote hslash =>
      show stringBody (c :: (pieces.flatten ++ '"' :: rest)) = _
      rw [stringBody_cons hquote hslash, ih]
      rfl
    | _ => simp [stringBody, escaped, ih]

theorem forall_spelledChar (value : List Char) : List.Forall₂ SpelledChar value (value.map escape) := by
  rw [forall₂_map_right_iff, forall₂_same]
  exact fun c _ => spelledChar_escape c

theorem written_str (value : String) : Written (.str value) (Lexeme.str value).text := by
  have hwritten := Written.str (stringBody_spelled (forall_spelledChar value.toList) [])
  rwa [String.ofList_toList] at hwritten

/-! ### Texts -/

/-- **What can be written is written so.** -/
theorem written_text {l : Lexeme} (h : l.Readable) : Written l l.text := by
  obtain ⟨piece, h⟩ := h
  cases h with
  | word hc hmore => exact written_word hc hmore
  | decimal _ _ hvalue | hex _ hvalue => exact written_int (lt_of_numeralValue hvalue)
  | str _ => exact written_str _
  | symbol sign => exact .symbol sign

theorem run_renderChars {ls : List Lexeme} (h : ∀ l ∈ ls, l.Readable) (total : Nat) :
    (run total (renderChars ls)).errors = [] ∧
      (run total (renderChars ls)).tokens.map Token.lexeme = ls ++ [.eof] := by
  induction ls with
  | nil =>
    show (run total []).errors = [] ∧ (run total []).tokens.map Token.lexeme = [.eof]
    rw [run_nil]
    exact ⟨rfl, rfl⟩
  | cons l ls ih =>
    obtain ⟨hl, hls⟩ := forall_mem_cons.1 h
    obtain ⟨herrors, htokens⟩ := ih hls
    have hsplit : renderChars (l :: ls) = l.text ++ ' ' :: renderChars ls := by simp [renderChars]
    rw [hsplit, run_of_written (written_text hl) (.cons rfl _), run_blank]
    exact ⟨herrors, congrArg (l :: ·) htokens⟩

end Scan

/-- **A rendered text is scanned as its lexemes.** -/
theorem scan_render {ls : List Lexeme} (h : ∀ l ∈ ls, l.Readable) :
    ∃ tokens, scan (render ls) = .ok tokens ∧ tokens.map Token.lexeme = ls ++ [.eof] := by
  obtain ⟨herrors, htokens⟩ := run_renderChars h (render ls).utf8ByteSize
  refine ⟨_, ?_, htokens⟩
  rw [scan, render, String.toList_ofList]
  rw [render] at herrors
  rw [herrors]
  rfl

/-- **What a scan yields can be written.** -/
theorem readable_of_scan {text : String} {tokens : List Token} (h : scan text = .ok tokens) :
    ∀ t ∈ tokens, t.lexeme = .eof ∨ t.lexeme.Readable := by
  have hrun (total : Nat) (cs : List Char) :
      ∀ t ∈ (run total cs).tokens, t.lexeme = .eof ∨ t.lexeme.Readable := by
    fun_induction run total cs with
    | case1 cs hend => exact forall_mem_singleton.2 (.inl rfl)
    | case2 cs c rest hrest start lexeme after hstep tail ih =>
      obtain ⟨piece, -, hwritten⟩ := exists_written_of_step hstep
      exact forall_mem_cons.2 ⟨.inr ⟨piece, hwritten⟩, ih⟩
    | case3 cs c rest hrest start problem after hstep tail ih => exact ih
    | case4 cs c rest hrest start problem hstep => exact forall_mem_nil _
  unfold scan at h
  dsimp only at h
  split at h
  · cases h
    exact hrun _ _
  · cases h

end Keel
