/-
# How lexemes are written

`Written` says which characters a lexeme may be written with: words, decimal and hexadecimal
numerals, strings between quotes, and symbols.

* What the scanner takes from the front of a text is the written form of the lexeme that it
  yields (`exists_written_of_step`).
* A written form that ends the text or stands before a blank is read as its lexeme, whatever
  follows (`step_of_written`, `skipTrivia_of_written`).
-/
import Keel.Token.Scan

namespace Keel

open List

theorem utf8ByteSize_ofList (cs : List Char) : (String.ofList cs).utf8ByteSize = byteLength cs := by
  induction cs with
  | nil => rfl
  | cons c cs ih =>
    rw [String.ofList_cons, String.utf8ByteSize_append, String.utf8ByteSize_singleton, ih, byteLength]

theorem utf8ByteSize_eq (text : String) : text.utf8ByteSize = byteLength text.toList := by
  rw [← utf8ByteSize_ofList, String.ofList_toList]

/-- The tokens of a text that is given by its characters. -/
def scanChars (cs : List Char) : Except (List LexError) (List Token) :=
  let result := Scan.run (byteLength cs) cs
  if result.errors.isEmpty then .ok result.tokens else .error result.errors

theorem scan_ofList (cs : List Char) : scan (String.ofList cs) = scanChars cs := by
  rw [scan, scanChars, utf8ByteSize_ofList, String.toList_ofList]

namespace Scan

/-! ### Written forms -/

/-- Decimal digits and underscores. -/
def isDecimalPart (c : Char) : Bool := isDigit c || c == '_'

/-- Hexadecimal digits and underscores. -/
def isHexPart (c : Char) : Bool := isHexDigit c || c == '_'

/-- The characters that a lexeme is written with. -/
inductive Written : Lexeme → List Char → Prop where
  | word {c : Char} {more : List Char} : isWordStart c → (∀ d ∈ more, isWordPart d) →
      Written (Scan.word (String.ofList (c :: more))) (c :: more)
  | decimal {c : Char} {more : List Char} {value : Nat} : isDigit c → (∀ d ∈ more, isDecimalPart d) →
      numeralValue 10 (c :: more) = some value → Written (.int value) (c :: more)
  | hex {c : Char} {more : List Char} {value : Nat} : (∀ d ∈ c :: more, isHexPart d) →
      numeralValue 16 (c :: more) = some value → Written (.int value) ('0' :: 'x' :: c :: more)
  | str {text value : List Char} : stringBody text = some (value, []) →
      Written (.str (String.ofList value)) ('"' :: text)
  | symbol (sign : Symbol) : Written (.symbol sign) sign.text.toList

/-! ### From the front of a text -/

section Step

variable {c : Char} {rest after : List Char} {l : Lexeme}

theorem stringBody_cons (hquote : c ≠ '"') (hslash : c ≠ '\\') (cs : List Char) :
    stringBody (c :: cs) = (stringBody cs).map fun p => (c :: p.1, p.2) := by
  rw [stringBody.eq_def]
  split <;> simp_all

variable {cs : List Char}

theorem stringBody_cases {value after : List Char} (h : stringBody cs = some (value, after)) :
    (cs = '"' :: after ∧ value = []) ∨ (∃ e more c body, cs = '\\' :: e :: more ∧ escaped e = some c ∧
      stringBody more = some (body, after) ∧ value = c :: body) ∨
    (∃ c more body, cs = c :: more ∧ c ≠ '"' ∧ c ≠ '\\' ∧
      stringBody more = some (body, after) ∧ value = c :: body) := by
  rcases cs with _ | ⟨c, more⟩
  · cases h
  by_cases hquote : c = '"'
  · subst hquote
    cases h
    exact .inl ⟨rfl, rfl⟩
  by_cases hslash : c = '\\'
  · subst hslash
    rcases more with _ | ⟨e, more⟩
    · cases h
    · simp only [stringBody] at h
      split at h
      · rename_i c body after' hescaped hbody
        cases h
        exact .inr (.inl ⟨e, more, c, body, rfl, hescaped, hbody, rfl⟩)
      · cases h
  · rw [stringBody_cons hquote hslash] at h
    obtain ⟨⟨body, after'⟩, hbody, heq⟩ := Option.map_eq_some_iff.1 h
    cases heq
    exact .inr (.inr ⟨c, more, body, rfl, hquote, hslash, hbody, rfl⟩)

/-- A string ends at the same quote whatever follows. -/
theorem exists_stringBody {value after : List Char} (h : stringBody cs = some (value, after)) :
    ∃ text, cs = text ++ after ∧ ∀ more, stringBody (text ++ more) = some (value, more) := by
  induction hn : cs.length using Nat.strongRecOn generalizing cs value with
  | ind n ih =>
    rcases stringBody_cases h with ⟨rfl, rfl⟩ | ⟨e, tail, c, body, rfl, hescaped, hbody, rfl⟩ |
      ⟨c, tail, body, rfl, hquote, hslash, hbody, rfl⟩
    · exact ⟨['"'], rfl, fun _ => rfl⟩
    · obtain ⟨text, rfl, htext⟩ := ih tail.length (by rw [← hn, length_cons, length_cons]; omega) hbody rfl
      exact ⟨'\\' :: e :: text, rfl, fun more => by simp only [cons_append, stringBody, hescaped, htext]⟩
    · obtain ⟨text, rfl, htext⟩ := ih tail.length (by rw [← hn, length_cons]; omega) hbody rfl
      exact ⟨c :: text, rfl, fun more => by rw [cons_append, stringBody_cons hquote hslash, htext]; rfl⟩

theorem numeral_eq_lexeme {base : Nat} {text digits : List Char}
    (h : numeral base text digits rest = .lexeme l after) :
    after = rest ∧ ∃ value, l = .int value ∧ numeralValue base digits = some value := by
  unfold numeral at h
  split at h
  · rename_i value hvalue
    cases h
    exact ⟨rfl, value, rfl, hvalue⟩
  · cases h

theorem exists_written_of_decimal (hdigit : isDigit c) (h : decimal c rest = .lexeme l after) :
    ∃ piece, c :: rest = piece ++ after ∧ Written l piece := by
  obtain ⟨rfl, value, rfl, hvalue⟩ := numeral_eq_lexeme h
  refine ⟨_, ?_, .decimal hdigit (fun d hd => ?_) hvalue⟩
  · rw [cons_append, takeWhile_append_dropWhile]
  · exact all_eq_true.1 all_takeWhile d hd

theorem symbol?_eq_some {sign : Symbol} (h : symbol? cs = some (sign, after)) : sign.text.toList ++ after = cs := by
  obtain ⟨s, -, hs⟩ := exists_of_findSome?_eq_some h
  obtain ⟨tail, htail, heq⟩ := Option.map_eq_some_iff.1 hs
  cases heq
  exact append_after? htail

/-- **What is taken from the front of a text is a written form of the lexeme.** -/
theorem exists_written_of_step (h : step c rest = .lexeme l after) :
    ∃ piece, c :: rest = piece ++ after ∧ Written l piece := by
  unfold step at h
  split at h
  · cases h
  split at h
  · rename_i hdigit
    split at h
    · rename_i d more _
      split at h
      · rename_i hd
        obtain ⟨rfl, value, rfl, hvalue⟩ := numeral_eq_lexeme h
        have htake : (d :: more).takeWhile isHexPart = d :: more.takeWhile isHexPart :=
          takeWhile_cons_of_pos hd
        change numeralValue 16 ((d :: more).takeWhile isHexPart) = some value at hvalue
        rw [htake] at hvalue
        refine ⟨'0' :: 'x' :: d :: more.takeWhile isHexPart, ?_, .hex (fun e he => ?_) hvalue⟩
        · show '0' :: 'x' :: d :: more = '0' :: 'x' :: (d :: more.takeWhile isHexPart ++
            (d :: more).dropWhile isHexPart)
          rw [← htake, takeWhile_append_dropWhile]
        · rw [← htake] at he
          exact all_eq_true.1 all_takeWhile e he
      · exact exists_written_of_decimal hdigit h
    · exact exists_written_of_decimal hdigit h
  split at h
  · rename_i hquote
    subst hquote
    split at h
    · rename_i value after' hbody
      cases h
      obtain ⟨text, rfl, htext⟩ := exists_stringBody hbody
      exact ⟨'"' :: text, rfl, .str (append_nil text ▸ htext [])⟩
    · cases h
  split at h
  · rename_i hstart
    cases h
    refine ⟨c :: rest.takeWhile isWordPart, ?_, .word hstart fun d hd => ?_⟩
    · rw [cons_append, takeWhile_append_dropWhile]
    · exact all_eq_true.1 all_takeWhile d hd
  split at h
  · rename_i sign after' hsign
    cases h
    exact ⟨sign.text.toList, (symbol?_eq_some hsign).symm, .symbol sign⟩
  · cases h

end Step

/-! ### In front of a blank -/

/-- The text is at its end, or a blank comes next. -/
def Apart (rest : List Char) : Prop := ∀ c ∈ rest.head?, isSpace c

theorem Apart.nil : Apart [] := by simp [Apart]

theorem Apart.cons {c : Char} (h : isSpace c) (rest : List Char) : Apart (c :: rest) := by simpa [Apart]

section Blank

variable {c : Char} {piece rest : List Char} {l : Lexeme}

theorem isSpace_cases (h : isSpace c) : c = ' ' ∨ c = '\t' ∨ c = '\r' ∨ c = '\n' := by
  simpa [isSpace, or_assoc] using h

theorem Apart.takeWhile {p : Char → Bool} (hrest : Apart rest) (hblank : ∀ c, isSpace c → p c = false)
    (hpiece : ∀ c ∈ piece, p c) : (piece ++ rest).takeWhile p = piece ∧ (piece ++ rest).dropWhile p = rest := by
  rw [takeWhile_append_of_pos hpiece, dropWhile_append_of_pos hpiece]
  rcases rest with _ | ⟨c, rest⟩
  · simp
  · have hc := hblank c (hrest c rfl)
    simp [hc]

theorem not_isWordPart_of_isSpace (h : isSpace c) : isWordPart c = false := by
  rcases isSpace_cases h with rfl | rfl | rfl | rfl <;> decide

theorem not_isDecimalPart_of_isSpace (h : isSpace c) : isDecimalPart c = false := by
  rcases isSpace_cases h with rfl | rfl | rfl | rfl <;> decide

theorem not_isHexPart_of_isSpace (h : isSpace c) : isHexPart c = false := by
  rcases isSpace_cases h with rfl | rfl | rfl | rfl <;> decide

theorem ne_of_isWordStart (h : isWordStart c) : c ≠ '/' ∧ c ≠ '"' ∧ isDigit c = false ∧ isSpace c = false := by
  have hlow (d : Char) (hd : isWordStart d = false) : c ≠ d := fun heq => by simp [heq ▸ h] at hd
  refine ⟨hlow _ (by decide), hlow _ (by decide), ?_, ?_⟩
  · simp only [isWordStart, isDigit, Bool.or_eq_true, Bool.and_eq_true, decide_eq_true_eq,
      beq_iff_eq, Bool.and_eq_false_iff, decide_eq_false_iff_not, Char.le_def, UInt32.le_iff_toNat_le] at h ⊢
    rcases h with (h | h) | rfl
    · exact .inr fun hle => by
        have := Nat.le_trans h.1 hle
        contradiction
    · exact .inr fun hle => by
        have := Nat.le_trans h.1 hle
        contradiction
    · exact .inr (by decide)
  · refine Bool.eq_false_iff.2 fun hspace => ?_
    rcases isSpace_cases hspace with rfl | rfl | rfl | rfl <;> cases h

theorem ne_of_isDigit (h : isDigit c) : c ≠ '/' ∧ isSpace c = false := by
  refine ⟨fun heq => by simp [heq, isDigit] at h, Bool.eq_false_iff.2 fun hspace => ?_⟩
  rcases isSpace_cases hspace with rfl | rfl | rfl | rfl <;> cases h

variable {more cs : List Char}

theorem step_word (hc : isWordStart c) (hmore : ∀ d ∈ more, isWordPart d) (hrest : Apart rest) :
    step c (more ++ rest) = .lexeme (word (String.ofList (c :: more))) rest := by
  obtain ⟨hslash, hquote, hdigit, -⟩ := ne_of_isWordStart hc
  obtain ⟨htake, hdrop⟩ := hrest.takeWhile (fun _ => not_isWordPart_of_isSpace) hmore
  rw [step.eq_def, if_neg (fun h => hslash h.1), if_neg (by simp [hdigit]), if_neg hquote, if_pos hc, htake, hdrop]

/-- After the first digit, what belongs to a decimal numeral is never an `x`. -/
theorem step_eq_decimal (hc : isDigit c) (hmore : ∀ d ∈ more, isDecimalPart d) (hrest : Apart rest) :
    step c (more ++ rest) = decimal c (more ++ rest) := by
  rw [step.eq_def, if_neg (fun h => (ne_of_isDigit hc).1 h.1), if_pos hc]
  split
  · rename_i d tail heq
    exfalso
    rcases more with _ | ⟨e, more⟩
    · rw [nil_append] at heq
      have := hrest 'x' (by simp [heq])
      cases this
    · obtain ⟨rfl, -⟩ := List.cons.inj heq
      have := hmore 'x' (by simp)
      cases this
  · rfl

theorem step_decimal {value : Nat} (hc : isDigit c) (hmore : ∀ d ∈ more, isDecimalPart d)
    (hvalue : numeralValue 10 (c :: more) = some value) (hrest : Apart rest) :
    step c (more ++ rest) = .lexeme (.int value) rest := by
  obtain ⟨htake, hdrop⟩ := hrest.takeWhile (fun _ => not_isDecimalPart_of_isSpace) hmore
  rw [step_eq_decimal hc hmore hrest]
  change numeral 10 (c :: (more ++ rest).takeWhile isDecimalPart)
    (c :: (more ++ rest).takeWhile isDecimalPart) ((more ++ rest).dropWhile isDecimalPart) = _
  rw [htake, hdrop, numeral, hvalue]

theorem step_hex {value : Nat} (hmore : ∀ d ∈ c :: more, isHexPart d)
    (hvalue : numeralValue 16 (c :: more) = some value) (hrest : Apart rest) :
    step '0' ('x' :: c :: more ++ rest) = .lexeme (.int value) rest := by
  obtain ⟨htake, hdrop⟩ := hrest.takeWhile (fun _ => not_isHexPart_of_isSpace) hmore
  have hc : (isHexDigit c || c == '_') = true := hmore c (by simp)
  change (if (isHexDigit c || c == '_') = true then
      numeral 16 ('0' :: 'x' :: (c :: more ++ rest).takeWhile isHexPart)
        ((c :: more ++ rest).takeWhile isHexPart) ((c :: more ++ rest).dropWhile isHexPart)
    else decimal '0' ('x' :: c :: more ++ rest)) = _
  rw [if_pos hc, htake, hdrop, numeral, hvalue]

theorem step_str {text value : List Char} (htext : stringBody text = some (value, [])) :
    step '"' (text ++ rest) = .lexeme (.str (String.ofList value)) rest := by
  obtain ⟨text, rfl, hbody⟩ := exists_stringBody htext
  rw [append_nil]
  rw [step.eq_def, if_neg (by simp), if_neg (by decide), if_pos rfl, hbody]

/-! Symbols hold no blanks, so only a symbol that starts another one could be found in its
place; the longer ones are tried first. -/

theorem after?_eq_some {p : List Char} : after? p (p ++ cs) = some cs := by
  induction p with
  | nil => rfl
  | cons c p ih => simpa [after?] using ih

theorem after?_eq_none_of_apart {p : List Char} (hp : ∀ c ∈ p, isSpace c = false) (hrest : Apart rest)
    (h : after? p cs = none) : after? p (cs ++ rest) = none := by
  induction p generalizing cs with
  | nil => cases h
  | cons a p ih =>
    rcases cs with _ | ⟨b, cs⟩
    · rcases rest with _ | ⟨b, rest⟩
      · rfl
      · have hne : a ≠ b := fun heq => by
          have hb := hrest b rfl
          have ha := hp a (by simp)
          rw [heq, hb] at ha
          cases ha
        simp [after?, hne]
    · simp only [after?, cons_append] at h ⊢
      split at h
      · rename_i heq
        rw [if_pos heq]
        exact ih (fun c hc => hp c (by simp [hc])) h
      · rename_i heq
        rw [if_neg heq]

theorem symbol?_append {signs : List Symbol} {sign : Symbol} (hrest : Apart rest)
    (h : signs.findSome? (fun s => (after? s.text.toList cs).map fun tail => (s, tail)) = some (sign, [])) :
    signs.findSome? (fun s => (after? s.text.toList (cs ++ rest)).map fun tail => (s, tail)) =
      some (sign, rest) := by
  induction signs with
  | nil => cases h
  | cons s signs ih =>
    rw [List.findSome?_cons] at h ⊢
    have hall : s.text.toList.all (fun c => !isSpace c) = true := by cases s <;> rfl
    have hblank : ∀ c ∈ s.text.toList, isSpace c = false := fun c hc => by
      simpa using all_eq_true.1 hall c hc
    cases hafter : after? s.text.toList cs with
    | none =>
      rw [hafter] at h
      rw [after?_eq_none_of_apart hblank hrest hafter]
      exact ih h
    | some tail =>
      rw [hafter] at h
      cases h
      rw [← append_after? hafter, append_nil, after?_eq_some]
      rfl

theorem step_symbol (sign : Symbol) (hrest : Apart rest) :
    ∃ first more, sign.text.toList = first :: more ∧ step first (more ++ rest) = .lexeme (.symbol sign) rest := by
  have hself : symbol? sign.text.toList = some (sign, []) := by cases sign <;> decide
  have hfound : symbol? (sign.text.toList ++ rest) = some (sign, rest) := symbol?_append hrest hself
  obtain ⟨first, more, htext, hslash, hdigit, hquote, hstart⟩ : ∃ first more, sign.text.toList = first :: more ∧
      (first = '/' → more = []) ∧ isDigit first = false ∧ first ≠ '"' ∧ isWordStart first = false := by
    cases sign <;> exact ⟨_, _, rfl, by decide, by decide, by decide, by decide⟩
  refine ⟨first, more, htext, ?_⟩
  have hcomment : ¬ (first = '/' ∧ (more ++ rest).head? = some '*') := by
    rintro ⟨hfirst, hhead⟩
    rw [hslash hfirst, nil_append] at hhead
    cases hrest '*' hhead
  rw [htext, cons_append] at hfound
  rw [step.eq_def, if_neg hcomment, if_neg (by simp [hdigit]), if_neg hquote, if_neg (by simp [hstart]), hfound]

/-- **A written form at the end of a text or before a blank is read as its lexeme.** -/
theorem step_of_written (h : Written l piece) (hrest : Apart rest) :
    ∃ first more, piece = first :: more ∧ step first (more ++ rest) = .lexeme l rest := by
  cases h with
  | word hc hmore => exact ⟨_, _, rfl, step_word hc hmore hrest⟩
  | decimal hc hmore hvalue => exact ⟨_, _, rfl, step_decimal hc hmore hvalue hrest⟩
  | hex hmore hvalue => exact ⟨_, _, rfl, step_hex hmore hvalue hrest⟩
  | str htext => exact ⟨_, _, rfl, step_str htext⟩
  | symbol sign => exact step_symbol sign hrest

theorem skipTrivia_of_written (h : Written l piece) (hrest : Apart rest) :
    skipTrivia (piece ++ rest) = piece ++ rest := by
  have hplain {c : Char} {more : List Char} (hslash : c ≠ '/') (hspace : isSpace c = false) :
      skipTrivia (c :: more ++ rest) = c :: more ++ rest := by
    rw [cons_append, skipTrivia.eq_def]
    split <;> simp_all
  cases h with
  | word hc _ =>
    obtain ⟨hslash, -, -, hspace⟩ := ne_of_isWordStart hc
    exact hplain hslash hspace
  | decimal hc _ _ =>
    obtain ⟨hslash, hspace⟩ := ne_of_isDigit hc
    exact hplain hslash hspace
  | hex _ _ | str _ => exact hplain (by decide) (by decide)
  | symbol sign =>
    by_cases hsign : sign = .slash
    · subst hsign
      rcases rest with _ | ⟨c, rest⟩
      · simp [Symbol.text, skipTrivia, isSpace]
      · have hc := isSpace_cases (hrest c rfl)
        rcases hc with rfl | rfl | rfl | rfl <;> simp [Symbol.text, skipTrivia, isSpace]
    · obtain ⟨first, more, htext, hslash, hspace⟩ : ∃ first more, sign.text.toList = first :: more ∧
          first ≠ '/' ∧ isSpace first = false := by
        cases sign <;> first
          | exact ⟨_, _, rfl, by decide, by decide⟩
          | exact absurd rfl hsign
      rw [htext]
      exact hplain hslash hspace

/-! ### Whole texts -/

theorem run_end (h : skipTrivia cs = []) (total : Nat) : run total cs = ⟨[⟨.eof, ⟨total, total⟩⟩], []⟩ := by
  rw [run.eq_def]
  split
  · rfl
  · simp_all

theorem run_nil (total : Nat) : run total [] = ⟨[⟨.eof, ⟨total, total⟩⟩], []⟩ :=
  run_end (by simp [skipTrivia]) total

theorem run_step (h : skipTrivia cs = c :: rest) (total : Nat) : run total cs =
      match step c rest with
      | .lexeme lexeme after =>
        ⟨⟨lexeme, ⟨total - byteLength (c :: rest), total - byteLength after⟩⟩ :: (run total after).tokens,
          (run total after).errors⟩
      | .skip problem after =>
        ⟨(run total after).tokens,
          ⟨problem, ⟨total - byteLength (c :: rest), total - byteLength after⟩⟩ :: (run total after).errors⟩
      | .stop problem => ⟨[], [⟨problem, ⟨total - byteLength (c :: rest), total⟩⟩]⟩ := by
  rw [run.eq_def]
  split
  · simp_all
  · rename_i heq
    cases h.symm.trans heq
    dsimp only
    split <;> simp_all

theorem run_of_written (h : Written l piece) (hrest : Apart rest) (total : Nat) : run total (piece ++ rest) =
      ⟨⟨l, ⟨total - byteLength (piece ++ rest), total - byteLength rest⟩⟩ :: (run total rest).tokens,
        (run total rest).errors⟩ := by
  have hskip := skipTrivia_of_written h hrest
  obtain ⟨first, more, rfl, hstep⟩ := step_of_written h hrest
  rw [cons_append] at hskip ⊢
  rw [run_step hskip, hstep]

theorem run_blank (total : Nat) (cs : List Char) : run total (' ' :: cs) = run total cs := by
  have hskip : skipTrivia (' ' :: cs) = skipTrivia cs := by
    rw [skipTrivia.eq_def]
    simp [isSpace]
  cases hcs : skipTrivia cs with
  | nil => rw [run_end hcs, run_end (hskip.trans hcs)]
  | cons c rest => rw [run_step hcs, run_step (hskip.trans hcs)]

end Blank

end Scan
end Keel
