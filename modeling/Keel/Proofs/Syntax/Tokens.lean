/-
# Tokens and their texts

A token may be written in more than one way: a character of a string stands for itself or is
written by its escape, and a numeral is decimal or hexadecimal, with underscores anywhere.

| token      | written                                           |
|------------|---------------------------------------------------|
| identifier | its name                                          |
| integer    | decimal digits, or `0x` and hexadecimal digits    |
| string     | `"`, each character as it is or by its escape, `"` |
| keyword    | its word                                          |
| symbol     | its sign                                          |

* `scan_joined`: tokens with single blanks between them are scanned as they are.
* `run_numerals`: at every place that the scanner comes to, it takes the longest numeral there,
  and the token is the value of its digits.
-/
import Mathlib.Data.List.Induction
import Mathlib.Data.Nat.Digits.Defs
import Keel.Proofs.Syntax.Lossless
import Keel.Proofs.Syntax.Rendering
import Keel.Proofs.Syntax.Spelling

namespace Keel

open List Bool

/-! ### Tokens joined by blanks -/

/-- How a lexeme is written, integers in decimal. -/
inductive Lexeme.Spelled : Lexeme → List Char → Prop where
  | ident (name : String) : Spelled (.ident name) name.toList
  | int (value : Nat) : Spelled (.int value) (Nat.toDigits 10 value)
  | str {value : String} {pieces : List (List Char)} : List.Forall₂ Scan.SpelledChar value.toList pieces →
      Spelled (.str value) ('"' :: (pieces.flatten ++ ['"']))
  | keyword (word : Keyword) : Spelled (.keyword word) word.text.toList
  | symbol (sign : Symbol) : Spelled (.symbol sign) sign.text.toList

/-- What texts are made of: identifiers are words but no keywords, and integers are below 2¹²⁷. -/
def Lexeme.Proper : Lexeme → Prop
  | ident name => isWord name ∧ ∀ word : Keyword, word.text ≠ name
  | int value => value < 2 ^ 127
  | str _ | keyword _ | symbol _ => True
  | eof => False

theorem Lexeme.Proper.exists_spelled {l : Lexeme} (h : l.Proper) : ∃ piece, l.Spelled piece := by
  cases l with
  | ident name => exact ⟨_, .ident name⟩
  | int value => exact ⟨_, .int value⟩
  | str value => exact ⟨_, .str (Scan.forall_spelledChar value.toList)⟩
  | keyword word => exact ⟨_, .keyword word⟩
  | symbol sign => exact ⟨_, .symbol sign⟩
  | eof => exact h.elim

namespace Scan

variable {piece body cs rest after text : List Char} {pieces : List (List Char)} {c : Char} {base : Nat}

theorem written_of_spelled {l : Lexeme} (hl : l.Proper) (h : l.Spelled piece) : Written l piece := by
  cases h with
  | ident name =>
    obtain ⟨hname, hkeyword⟩ := hl
    unfold isWord at hname
    split at hname
    · cases hname
    · rename_i c more htext
      obtain ⟨hc, hmore⟩ := and_eq_true_iff.1 hname
      have hnone : Keyword.ofText? name = none :=
        List.find?_eq_none.2 fun word _ => by simpa using hkeyword word
      have hwritten := Written.word hc (all_eq_true.1 hmore)
      rwa [← htext, String.ofList_toList, word, hnone] at hwritten
  | int value =>
    have hbound : literalBound = 2 ^ 127 := Nat.one_shiftLeft 127
    exact written_int (hbound ▸ hl)
  | str hpieces =>
    have hwritten := Written.str (stringBody_spelled hpieces [])
    rwa [String.ofList_toList] at hwritten
  | keyword word => exact written_keyword word
  | symbol sign => exact .symbol sign

/-- A blank ends every piece, so none runs into the next one. -/
theorem run_joined {ls : List Lexeme} (h : List.Forall₂ Written ls pieces) (total : Nat) :
    (run total ([' '].intercalate pieces)).errors = [] ∧
      (run total ([' '].intercalate pieces)).tokens.map Token.lexeme = ls ++ [.eof] := by
  induction h with
  | nil =>
    show (run total []).errors = [] ∧ (run total []).tokens.map Token.lexeme = [.eof]
    rw [run_nil]
    exact ⟨rfl, rfl⟩
  | @cons l piece ls pieces hl hls ih =>
    obtain ⟨herrors, htokens⟩ := ih
    cases hls with
    | nil =>
      have hrun := run_of_written hl .nil total
      rw [append_nil] at hrun
      rw [intercalate_singleton, hrun, run_nil]
      exact ⟨rfl, rfl⟩
    | cons _ _ =>
      rw [intercalate_cons_cons, append_assoc, singleton_append,
        run_of_written hl (.cons rfl _), run_blank]
      exact ⟨herrors, congrArg (l :: ·) htokens⟩

theorem scan_of_written {ls : List Lexeme} (h : List.Forall₂ Written ls pieces) :
    ∃ tokens, scan (String.ofList ([' '].intercalate pieces)) = .ok tokens ∧
      tokens.map Token.lexeme = ls ++ [.eof] := by
  obtain ⟨herrors, htokens⟩ := run_joined h (byteLength ([' '].intercalate pieces))
  refine ⟨_, ?_, htokens⟩
  rw [scan_ofList, scanChars, herrors]
  rfl

/-- **Tokens joined by blanks are scanned as they are,** and every row of tokens can be written. -/
theorem scan_joined {ls : List Lexeme} (h : ∀ l ∈ ls, l.Proper) :
    (∃ pieces, List.Forall₂ Lexeme.Spelled ls pieces) ∧
    ∀ pieces, List.Forall₂ Lexeme.Spelled ls pieces →
      ∃ tokens, scan (String.ofList ([' '].intercalate pieces)) = .ok tokens ∧
        tokens.map Token.lexeme = ls ++ [.eof] := by
  constructor
  · induction ls with
    | nil => exact ⟨[], .nil⟩
    | cons l ls ih =>
      obtain ⟨hl, hls⟩ := forall_mem_cons.1 h
      obtain ⟨piece, hpiece⟩ := hl.exists_spelled
      obtain ⟨pieces, hpieces⟩ := ih hls
      exact ⟨piece :: pieces, .cons hpiece hpieces⟩
  · intro pieces hpieces
    refine scan_of_written ?_
    induction hpieces with
    | nil => exact .nil
    | cons hpiece _ ih =>
      obtain ⟨hl, hls⟩ := forall_mem_cons.1 h
      exact .cons (written_of_spelled hl hpiece) (ih hls)

/-- Signs that would open a comment, a string that holds one, and the greatest integer. -/
def oddTokens : List (Lexeme × List Char) :=
  [(.symbol .slash, ['/']), (.symbol .star, ['*']), (.ident "fnord", ['f', 'n', 'o', 'r', 'd']),
    (.str "/*\n\x00\\", ['"', '/', '*', '\n', '\\', '0', '\\', '\\', '"']), (.str "", ['"', '"']),
    (.int (2 ^ 127 - 1), Nat.toDigits 10 (2 ^ 127 - 1)), (.keyword .fnKw, ['f', 'n'])]

theorem scan_joined_oddTokens :
    (∀ l ∈ oddTokens.map Prod.fst, l.Proper) ∧
      ∃ tokens, scan (String.ofList ([' '].intercalate (oddTokens.map Prod.snd))) = .ok tokens ∧
        tokens.map Token.lexeme = oddTokens.map Prod.fst ++ [.eof] := by
  have hproper : ∀ l ∈ oddTokens.map Prod.fst, l.Proper := by
    simp only [oddTokens, map_cons, map_nil, forall_mem_cons]
    refine ⟨trivial, trivial, ⟨by decide, fun word => by cases word <;> decide⟩, trivial, trivial, ?_,
      trivial, forall_mem_nil _⟩
    exact Nat.sub_lt (Nat.two_pow_pos 127) Nat.one_pos
  have hraw (c : Char) (h : c ≠ '"' ∧ c ≠ '\\') : SpelledChar c [c] := .raw h.1 h.2
  have hcomment : List.Forall₂ SpelledChar "/*\n\x00\\".toList
      [['/'], ['*'], ['\n'], ['\\', '0'], ['\\', '\\']] :=
    .cons (hraw '/' (by decide)) (.cons (hraw '*' (by decide)) (.cons (hraw '\n' (by decide))
      (.cons .nul (.cons .backslash .nil))))
  have hempty : List.Forall₂ SpelledChar "".toList [] := .nil
  have hspelled : List.Forall₂ Lexeme.Spelled (oddTokens.map Prod.fst) (oddTokens.map Prod.snd) :=
    .cons (.symbol .slash) (.cons (.symbol .star) (.cons (.ident "fnord") (.cons (.str hcomment)
      (.cons (.str hempty) (.cons (.int _) (.cons (.keyword .fnKw) .nil))))))
  exact ⟨hproper, (scan_joined hproper).2 _ hspelled⟩

/-! ### Numerals -/

/-- The characters `text` are a numeral: decimal digits, or `0x` and hexadecimal digits, with
underscores among them.  Its digits are found in `body`. -/
inductive Numeral : Nat → List Char → List Char → Prop where
  | decimal {c : Char} {more : List Char} : isDigit c → (∀ d ∈ more, isDecimalPart d) →
      Numeral 10 (c :: more) (c :: more)
  | hex {body : List Char} : body ≠ [] → (∀ d ∈ body, isHexPart d) → Numeral 16 body ('0' :: 'x' :: body)

/-- The longest numeral at the front of a text. -/
structure Longest (base : Nat) (body piece rest : List Char) : Prop where
  numeral : Numeral base body piece
  longest : ∀ base' body' piece', Numeral base' body' piece' → piece' <+: piece ++ rest →
    piece'.length ≤ piece.length

/-- The place of a digit among all of them, capital letters read as small ones. -/
def digitRank (c : Char) : Nat := "0123456789abcdef".toList.idxOf c.toLower

/-- The positional value of the digits, underscores left out. -/
def bodyValue (base : Nat) (body : List Char) : Nat :=
  Nat.ofDigits base ((body.filter (· ≠ '_')).reverse.map digitRank)

theorem digitValue_eq (h : isHexDigit c) : digitValue c = digitRank c := by
  have hrange {low high : Char} (hc : low ≤ c ∧ c ≤ high)
      (hall : ∀ d ∈ (List.range' low.toNat (high.toNat + 1 - low.toNat)).map Char.ofNat,
        digitValue d = digitRank d) : digitValue c = digitRank c := by
    refine hall c (mem_map.2 ⟨c.toNat, mem_range'_1.2 ⟨hc.1, ?_⟩, Char.ofNat_toNat c⟩)
    have hlow : low.toNat ≤ c.toNat := hc.1
    have hhigh : c.toNat ≤ high.toNat := hc.2
    omega
  simp only [isHexDigit, isDigit, or_eq_true, and_eq_true, decide_eq_true_eq] at h
  rcases h with (h | h) | h <;> exact hrange h (by simp [digitValue, digitRank, isDigit, List.range'])

theorem positional_eq (base : Nat) (digits : List Char) :
    positional base digits = Nat.ofDigits base (digits.reverse.map digitValue) := by
  induction digits using List.reverseRecOn with
  | nil => rfl
  | append_singleton digits c ih =>
    rw [reverse_concat, map_cons, Nat.ofDigits_cons, ← ih, positional, positional,
      foldl_append, Nat.add_comm]
    rfl

theorem Numeral.isHexPart (h : Numeral base body piece) : ∀ d ∈ body, isHexPart d := by
  cases h with
  | @decimal c more hc hmore =>
    have himp (d : Char) (hd : isDecimalPart d) : Scan.isHexPart d := by
      simp only [isDecimalPart, Scan.isHexPart, isHexDigit, or_eq_true] at hd ⊢
      rcases hd with hd | hd
      · exact .inl (.inl (.inl hd))
      · exact .inr hd
    refine forall_mem_cons.2 ⟨himp c ?_, fun d hd => himp d (hmore d hd)⟩
    rw [isDecimalPart, hc, Bool.true_or]
  | hex _ hbody => exact hbody

theorem no_digits_iff : (body.filter (· ≠ '_')).isEmpty = true ↔ ∀ c ∈ body, c = '_' := by simp

theorem Numeral.numeralValue_eq (h : Numeral base body piece) : numeralValue base body =
      if (body.filter (· ≠ '_')).isEmpty = true ∨ 2 ^ 127 ≤ bodyValue base body then none
      else some (bodyValue base body) := by
  have hvalue : positional base (body.filter (· ≠ '_')) = bodyValue base body := by
    rw [positional_eq, bodyValue]
    congr 1
    refine map_congr_left fun c hc => digitValue_eq ?_
    rw [mem_reverse, mem_filter, decide_eq_true_eq] at hc
    have hpart := h.isHexPart c hc.1
    rw [Scan.isHexPart, or_eq_true, beq_iff_eq] at hpart
    exact hpart.resolve_right hc.2
  have hbound : literalBound = 2 ^ 127 := Nat.one_shiftLeft 127
  rw [numeralValue]
  dsimp only
  rw [hvalue, hbound]
  by_cases hdigits : (body.filter (· ≠ '_')).isEmpty = true
  · rw [if_pos hdigits, if_pos (.inl hdigits)]
  · rw [if_neg hdigits]
    by_cases hlt : bodyValue base body < 2 ^ 127
    · rw [if_pos hlt, if_neg (not_or.2 ⟨hdigits, Nat.not_le.2 hlt⟩)]
    · rw [if_neg hlt, if_pos (.inr (Nat.not_lt.1 hlt))]

/-! #### The longest numeral -/

theorem length_le_takeWhile {p : Char → Bool} {front : List Char} (hfront : ∀ c ∈ front, p c) (h : front <+: cs) :
    front.length ≤ (cs.takeWhile p).length := by
  obtain ⟨more, rfl⟩ := h
  rw [takeWhile_append_of_pos hfront, length_append]
  omega

theorem longest_decimal (hc : isDigit c) (hhex : ∀ d more, c = '0' → rest = 'x' :: d :: more → isHexPart d = false) :
    Longest 10 (c :: rest.takeWhile isDecimalPart) (c :: rest.takeWhile isDecimalPart)
      (rest.dropWhile isDecimalPart) where
  numeral := .decimal hc (all_eq_true.1 all_takeWhile)
  longest base' body' piece' hnumeral hprefix := by
    rw [cons_append, takeWhile_append_dropWhile] at hprefix
    cases hnumeral with
    | decimal _ hmore =>
      have hle := length_le_takeWhile hmore (cons_prefix_cons.1 hprefix).2
      rw [length_cons, length_cons]
      omega
    | hex hne hbody =>
      obtain ⟨d, body, rfl⟩ := exists_cons_of_ne_nil hne
      obtain ⟨more, hmore⟩ := hprefix
      obtain ⟨rfl, rfl⟩ := List.cons.inj hmore
      have hd := hbody d mem_cons_self
      rw [hhex d (body ++ more) rfl rfl] at hd
      cases hd

theorem longest_hex {d : Char} {more : List Char} (hd : isHexPart d) :
    Longest 16 ((d :: more).takeWhile isHexPart) ('0' :: 'x' :: (d :: more).takeWhile isHexPart)
      ((d :: more).dropWhile isHexPart) where
  numeral := .hex (by simp [hd]) (all_eq_true.1 all_takeWhile)
  longest base' body' piece' hnumeral hprefix := by
    rw [cons_append, cons_append, takeWhile_append_dropWhile] at hprefix
    cases hnumeral with
    | @decimal c digits _ hdigits =>
      -- No decimal numeral goes on with an `x`.
      have hprefix' := (cons_prefix_cons.1 hprefix).2
      rcases digits with _ | ⟨e, digits⟩
      · simp
      · obtain ⟨rfl, -⟩ := cons_prefix_cons.1 hprefix'
        cases hdigits 'x' mem_cons_self
    | hex _ hbody =>
      have hprefix' := (cons_prefix_cons.1 (cons_prefix_cons.1 hprefix).2).2
      have hle := length_le_takeWhile hbody hprefix'
      simp only [length_cons]
      omega

/-- **A digit starts the longest numeral there.** -/
theorem step_eq_numeral (hc : isDigit c) :
    ∃ base body piece after, c :: rest = piece ++ after ∧ Longest base body piece after ∧
      step c rest = numeral base piece body after := by
  have hdecimal (hhex : ∀ d more, c = '0' → rest = 'x' :: d :: more → isHexPart d = false) :
      ∃ base body piece after, c :: rest = piece ++ after ∧ Longest base body piece after ∧
        decimal c rest = numeral base piece body after :=
    ⟨_, _, _, _, by rw [cons_append, takeWhile_append_dropWhile], longest_decimal hc hhex, rfl⟩
  rw [step.eq_def, if_neg (fun h => (ne_of_isDigit hc).1 h.1), if_pos hc]
  split
  · rename_i d more _
    split
    · rename_i hd
      refine ⟨_, _, _, _, ?_, longest_hex hd, rfl⟩
      rw [cons_append, cons_append, takeWhile_append_dropWhile]
    · rename_i hd
      refine hdecimal fun e more' _ hrest => ?_
      cases hrest
      exact eq_false_iff.2 hd
  · rename_i hnone
    exact hdecimal fun d more hzero hrest => (hnone d more hzero hrest).elim

theorem Numeral.unique {base' : Nat} {body' : List Char} (h : Numeral base body piece)
    (h' : Numeral base' body' piece) : base = base' ∧ body = body' := by
  cases h with
  | decimal _ hmore =>
    cases h' with
    | decimal _ _ => exact ⟨rfl, rfl⟩
    | hex _ _ => cases hmore 'x' mem_cons_self
  | hex _ _ =>
    cases h' with
    | decimal _ hmore => cases hmore 'x' mem_cons_self
    | hex _ _ => exact ⟨rfl, rfl⟩

theorem step_of_longest (h : Longest base body piece after) :
    ∃ c more, piece = c :: more ∧ step c (more ++ after) = numeral base piece body after := by
  obtain ⟨c, more, rfl, hc⟩ : ∃ c more, piece = c :: more ∧ isDigit c := by
    cases h.numeral with
    | decimal hc _ => exact ⟨_, _, rfl, hc⟩
    | hex _ _ => exact ⟨_, _, rfl, rfl⟩
  obtain ⟨base', body', piece', after', heq, h', hstep⟩ := @step_eq_numeral (more ++ after) c hc
  have hle := h.longest _ _ _ h'.numeral ⟨after', heq.symm⟩
  have hge := h'.longest _ _ _ h.numeral ⟨after, heq⟩
  obtain ⟨rfl, rfl⟩ := append_inj heq (Nat.le_antisymm hge hle)
  obtain ⟨rfl, rfl⟩ := h.numeral.unique h'.numeral
  exact ⟨c, more, rfl, hstep⟩

theorem step_of_not_isDigit (hc : ¬ isDigit c) : (∀ value after, step c rest ≠ .lexeme (.int value) after) ∧
      (∀ text after, step c rest ≠ .skip (.tooLarge text) after) ∧
      ∀ text, step c rest ≠ .stop (.tooLarge text) := by
  rw [step.eq_def, if_neg hc]
  split
  · simp
  split
  · split <;> simp
  split
  · unfold word
    split <;> simp
  · split <;> simp

theorem step_ne_stop {text : String} : step c rest ≠ .stop (.tooLarge text) := by
  by_cases hc : isDigit c
  · obtain ⟨base, body, piece, after, -, -, hstep⟩ := @step_eq_numeral rest c hc
    rw [hstep, numeral]
    split <;> simp
  · exact (step_of_not_isDigit hc).2.2 text

/-! #### The places that the scanner comes to -/

/-- The text from some place on, where a token or the end is looked for. -/
inductive Reaches (text : List Char) : List Char → Prop where
  | start : Reaches text (skipTrivia text)
  | next {c : Char} {rest after : List Char} : Reaches text (c :: rest) →
      (step c rest).rest? = some after → Reaches text (skipTrivia after)

theorem skipTrivia_suffix (cs : List Char) : skipTrivia cs <:+ cs := by
  obtain ⟨gap, hgap, -⟩ := exists_trivia_of_skipTrivia cs
  exact ⟨gap, hgap.symm⟩

theorem step_suffix (h : (step c rest).rest? = some after) : after <:+ c :: rest := by
  cases hstep : step c rest with
  | lexeme l after' =>
    rw [hstep] at h
    cases h
    obtain ⟨piece, hpiece, -⟩ := exists_written_of_step hstep
    exact ⟨piece, hpiece.symm⟩
  | skip problem after' =>
    rw [hstep] at h
    cases h
    exact step_skip_suffix hstep
  | stop problem =>
    rw [hstep] at h
    cases h

theorem Reaches.suffix (h : Reaches text cs) : cs <:+ text := by
  induction h with
  | start => exact skipTrivia_suffix text
  | next _ hstep ih => exact (skipTrivia_suffix _).trans ((step_suffix hstep).trans ih)

theorem Reaches.run_subset (h : Reaches text cs) (total : Nat) :
    ∃ cs', skipTrivia cs' = cs ∧ (run total cs').tokens ⊆ (run total text).tokens ∧
      (run total cs').errors ⊆ (run total text).errors := by
  induction h with
  | start => exact ⟨text, rfl, List.Subset.refl _, List.Subset.refl _⟩
  | @next c rest after _ hstep ih =>
    obtain ⟨cs', hskip, htokens, herrors⟩ := ih
    have hrun := run_step hskip total
    refine ⟨after, rfl, ?_⟩
    cases hs : step c rest with
    | lexeme l after' =>
      rw [hs] at hstep hrun
      cases hstep
      rw [hrun] at htokens herrors
      exact ⟨List.Subset.trans (subset_cons_self _ _) htokens, herrors⟩
    | skip problem after' =>
      rw [hs] at hstep hrun
      cases hstep
      rw [hrun] at htokens herrors
      exact ⟨htokens, List.Subset.trans (subset_cons_self _ _) herrors⟩
    | stop problem =>
      rw [hs] at hstep
      cases hstep

theorem reaches_of_mem_run {total : Nat} (h : Reaches text (skipTrivia cs)) :
    (∀ t ∈ (run total cs).tokens, t.lexeme = .eof ∨ ∃ c rest after, Reaches text (c :: rest) ∧
      step c rest = .lexeme t.lexeme after ∧
      t.span = ⟨total - byteLength (c :: rest), total - byteLength after⟩) ∧
    ∀ e ∈ (run total cs).errors, ∃ c rest, Reaches text (c :: rest) ∧ (step c rest = .stop e.problem ∨
      ∃ after, step c rest = .skip e.problem after ∧
        e.span = ⟨total - byteLength (c :: rest), total - byteLength after⟩) := by
  fun_induction run total cs with
  | case1 cs hend => exact ⟨forall_mem_singleton.2 (.inl rfl), forall_mem_nil _⟩
  | case2 cs c rest hrest start lexeme after hstep tail ih =>
    rw [hrest] at h
    obtain ⟨htokens, herrors⟩ := ih (h.next (by rw [hstep]; rfl))
    exact ⟨forall_mem_cons.2 ⟨.inr ⟨c, rest, after, h, hstep, rfl⟩, htokens⟩, herrors⟩
  | case3 cs c rest hrest start problem after hstep tail ih =>
    rw [hrest] at h
    obtain ⟨htokens, herrors⟩ := ih (h.next (by rw [hstep]; rfl))
    exact ⟨htokens, forall_mem_cons.2 ⟨⟨c, rest, h, .inr ⟨after, hstep, rfl⟩⟩, herrors⟩⟩
  | case4 cs c rest hrest start problem hstep =>
    rw [hrest] at h
    exact ⟨forall_mem_nil _, forall_mem_singleton.2 ⟨c, rest, h, .inl hstep⟩⟩

theorem cuts_iff {before : List Char} (htext : text = before ++ piece ++ after) (s : Span) :
    s.Cuts text before piece after ↔
      s = ⟨byteLength text - byteLength (piece ++ after), byteLength text - byteLength after⟩ := by
  obtain ⟨start, stop⟩ := s
  have hlength : byteLength text = byteLength before + byteLength piece + byteLength after := by
    rw [htext, byteLength_append, byteLength_append]
  constructor
  · rintro ⟨-, hstart, hstop⟩
    simp only [byteLength_append] at hstart hstop ⊢
    rw [Span.mk.injEq]
    omega
  · intro hspan
    obtain ⟨hstart, hstop⟩ := Span.mk.inj hspan
    simp only [byteLength_append] at hstart hstop
    refine ⟨htext, ?_, ?_⟩
    · show start = _
      omega
    · show stop = _
      rw [byteLength_append]
      omega

/-- The scanner comes to this place of the text, and the piece there is the longest numeral. -/
def Recognized (text : String) (span : Span) (base : Nat) (body piece : List Char) : Prop :=
  ∃ before after, span.Cuts text.toList before piece after ∧ Reaches text.toList (piece ++ after) ∧
    Longest base body piece after

theorem recognized_of_step {text : String} (h : Reaches text.toList (c :: rest)) (hc : isDigit c) :
    ∃ base body piece after, step c rest = numeral base piece body after ∧ Numeral base body piece ∧
      Recognized text ⟨text.utf8ByteSize - byteLength (c :: rest), text.utf8ByteSize - byteLength after⟩
        base body piece := by
  obtain ⟨base, body, piece, after, hsplit, hlongest, hstep⟩ := step_eq_numeral hc
  obtain ⟨before, hbefore⟩ := h.suffix
  rw [hsplit] at h hbefore ⊢
  refine ⟨base, body, piece, after, hstep, hlongest.numeral, before, after, ?_, h, hlongest⟩
  rw [utf8ByteSize_eq]
  exact (cuts_iff (by rw [← hbefore, append_assoc]) _).2 rfl

theorem numeral_eq (h : Numeral base body piece) : numeral base piece body rest =
      if (body.filter (· ≠ '_')).isEmpty = true ∨ 2 ^ 127 ≤ bodyValue base body then
        .skip (.tooLarge (String.ofList piece)) rest
      else .lexeme (.int (bodyValue base body)) rest := by
  rw [numeral, h.numeralValue_eq]
  split
  · rename_i value hvalue
    split at hvalue
    · cases hvalue
    · cases hvalue
      rw [if_neg (by assumption)]
  · rename_i hvalue
    split at hvalue
    · rw [if_pos (by assumption)]
    · cases hvalue

/-- **Numerals mean what they say.**  Wherever the scanner comes to one it yields the value of its
digits, or reports that the value is 2¹²⁷ or more; what is reported, too, is `0x` with underscores
alone.  All integers and all such reports come from numerals. -/
theorem run_numerals (text : String) :
    let result := run text.utf8ByteSize text.toList
    (∀ span base body piece, Recognized text span base body piece → (∃ c ∈ body, c ≠ '_') →
      (bodyValue base body < 2 ^ 127 → ⟨.int (bodyValue base body), span⟩ ∈ result.tokens) ∧
      (2 ^ 127 ≤ bodyValue base body → ⟨.tooLarge (String.ofList piece), span⟩ ∈ result.errors)) ∧
    (∀ t ∈ result.tokens, ∀ value, t.lexeme = .int value → ∃ base body piece,
      Recognized text t.span base body piece ∧ value = bodyValue base body ∧ value < 2 ^ 127) ∧
    ∀ e ∈ result.errors, ∀ shown, e.problem = .tooLarge shown → ∃ base body piece,
      Recognized text e.span base body piece ∧ shown = String.ofList piece ∧
        (2 ^ 127 ≤ bodyValue base body ∨ base = 16 ∧ ∀ c ∈ body, c = '_') := by
  refine ⟨?_, ?_, ?_⟩
  · rintro span base body piece ⟨before, after, hcuts, hreaches, hlongest⟩ hdigit
    obtain ⟨cs, hskip, htokens, herrors⟩ := hreaches.run_subset text.utf8ByteSize
    obtain ⟨c, more, rfl, hstep⟩ := step_of_longest hlongest
    rw [(cuts_iff hcuts.text_eq span).1 hcuts, ← utf8ByteSize_eq]
    rw [numeral_eq hlongest.numeral] at hstep
    rw [cons_append] at hskip
    rw [run_step hskip, hstep] at htokens herrors
    have hnot : ¬ (body.filter (· ≠ '_')).isEmpty = true := fun hnone => by
      obtain ⟨d, hd, hne⟩ := hdigit
      exact hne (no_digits_iff.1 hnone d hd)
    constructor
    · intro hlt
      rw [if_neg (not_or.2 ⟨hnot, Nat.not_le.2 hlt⟩)] at htokens
      exact htokens mem_cons_self
    · intro hge
      rw [if_pos (.inr hge)] at herrors
      exact herrors mem_cons_self
  · intro t ht value hvalue
    obtain heof | ⟨c, rest, after, hreaches, hstep, hspan⟩ := (reaches_of_mem_run .start).1 t ht
    · rw [heof] at hvalue
      cases hvalue
    rw [hvalue] at hstep
    have hc : isDigit c := by
      by_contra hc
      exact (step_of_not_isDigit hc).1 value after hstep
    obtain ⟨base, body, piece, after', hnumeral, hn, hrecognized⟩ := recognized_of_step hreaches hc
    rw [hnumeral, numeral_eq hn] at hstep
    split at hstep
    · cases hstep
    · rename_i hbound
      cases hstep
      exact ⟨base, body, piece, hspan ▸ hrecognized, rfl, Nat.not_le.1 (not_or.1 hbound).2⟩
  · intro e he shown hshown
    obtain ⟨c, rest, hreaches, hstop | ⟨after, hstep, hspan⟩⟩ := (reaches_of_mem_run .start).2 e he
    · rw [hshown] at hstop
      exact (step_ne_stop hstop).elim
    rw [hshown] at hstep
    have hc : isDigit c := by
      by_contra hc
      exact (step_of_not_isDigit hc).2.1 shown after hstep
    obtain ⟨base, body, piece, after', hnumeral, hn, hrecognized⟩ := recognized_of_step hreaches hc
    rw [hnumeral, numeral_eq hn] at hstep
    split at hstep
    · rename_i hbound
      cases hstep
      refine ⟨base, body, piece, hspan ▸ hrecognized, rfl,
        hbound.symm.imp_right fun hnone => ⟨?_, no_digits_iff.1 hnone⟩⟩
      cases hn with
      | decimal hc _ =>
        rw [no_digits_iff.1 hnone _ mem_cons_self] at hc
        cases hc
      | hex _ _ => rfl
    · cases hstep

/-- Underscores alone are no value of 2¹²⁷ or more, but are reported as one. -/
theorem scan_underscores_alone :
    scan "0x_" = .error [⟨.tooLarge "0x_", ⟨0, 3⟩⟩] ∧ Numeral 16 ['_'] ['0', 'x', '_'] ∧
      bodyValue 16 ['_'] < 2 ^ 127 := by
  have hskip : skipTrivia ['0', 'x', '_'] = ['0', 'x', '_'] := by simp [skipTrivia, isSpace]
  have hrun : run 3 ['0', 'x', '_'] =
      ⟨(run 3 []).tokens, ⟨.tooLarge "0x_", ⟨0, 3⟩⟩ :: (run 3 []).errors⟩ := run_step hskip 3
  have hscan : scanChars ['0', 'x', '_'] = .error [⟨.tooLarge "0x_", ⟨0, 3⟩⟩] := by
    rw [scanChars, show byteLength ['0', 'x', '_'] = 3 from rfl, hrun, run_nil]
    rfl
  refine ⟨?_, .hex (by simp) (by simp [isHexPart]), ?_⟩
  · rw [← hscan, ← scan_ofList]
  · exact Nat.two_pow_pos 127

end Scan
end Keel
