/-
# Scanning loses nothing

The tokens of a text and the gaps between them make up the text: gaps are blanks and
comments, and each token can be scanned again from its own piece of the text.  Offsets count
bytes; that they stand between characters is said by cutting the text there (`Cuts`).

* `Trivia`: what may stand in a gap, in front of the text that follows it.
* `Tiles`: a text as gap, piece, gap, piece and so on, with the tokens of the pieces.
* `scan_lossless`: what a scan without errors yields, and where the errors of others lie.
-/
import Keel.Proofs.Syntax.Lexemes

namespace Keel

open List

/-- The span starts behind `before` and ends in front of `after`; `piece` is between them. -/
structure Span.Cuts (s : Span) (text before piece after : List Char) : Prop where
  text_eq : text = before ++ piece ++ after
  start_eq : s.start = byteLength before
  stop_eq : s.stop = byteLength (before ++ piece)

namespace Scan

/-! ### Gaps -/

/-- Blanks and comments in front of the text `after`.  A line comment goes on to the end of its
line, and a block comment to the first `*/`. -/
inductive Trivia (after : List Char) : List Char → Prop where
  | nil : Trivia after []
  | blank {c : Char} {more : List Char} :
      c = ' ' ∨ c = '\t' ∨ c = '\r' ∨ c = '\n' → Trivia after more → Trivia after (c :: more)
  | line {text more : List Char} : '\n' ∉ text → (∀ c ∈ (more ++ after).head?, c = '\n') →
      Trivia after more → Trivia after ('/' :: '/' :: text ++ more)
  | block {text more : List Char} : ¬ ['*', '/'] <:+: text →
      Trivia after more → Trivia after ('/' :: '*' :: text ++ '*' :: '/' :: more)

variable {rest after : List Char} {problem : LexProblem}

theorem afterComment_split {cs : List Char} (h : afterComment cs = some rest) :
    ∃ text, cs = text ++ '*' :: '/' :: rest ∧ ¬ ['*', '/'] <:+: text := by
  fun_induction afterComment cs with
  | case1 => cases h
  | case2 rest =>
    cases h
    exact ⟨[], rfl, by simp⟩
  | case3 c cs hopen ih =>
    obtain ⟨text, rfl, htext⟩ := ih h
    refine ⟨c :: text, rfl, fun hinfix => ?_⟩
    rcases infix_cons_iff.1 hinfix with ⟨tail, htail⟩ | hinfix
    · obtain ⟨rfl, rfl⟩ := List.cons.inj htail
      exact hopen (tail ++ '*' :: '/' :: rest) rfl rfl
    · exact htext hinfix

/-- **What is skipped are blanks and comments.** -/
theorem exists_trivia_of_skipTrivia (cs : List Char) :
    ∃ gap, cs = gap ++ skipTrivia cs ∧ Trivia (skipTrivia cs) gap := by
  fun_induction skipTrivia cs with
  | case1 => exact ⟨[], rfl, .nil⟩
  | case2 rest ih =>
    obtain ⟨gap, hgap, htrivia⟩ := ih
    have hsplit : rest = rest.takeWhile (· != '\n') ++ afterLine rest :=
      takeWhile_append_dropWhile.symm
    refine ⟨'/' :: '/' :: rest.takeWhile (· != '\n') ++ gap, ?_, .line ?_ ?_ htrivia⟩
    · calc '/' :: '/' :: rest
          _ = '/' :: '/' :: (rest.takeWhile (· != '\n') ++ (gap ++ skipTrivia (afterLine rest))) := by
            rw [← hgap, ← hsplit]
          _ = _ := by simp
    · intro hmem
      simpa using all_eq_true.1 all_takeWhile '\n' hmem
    · rw [← hgap, afterLine]
      intro c hc
      have hhead := List.head?_dropWhile_not (· != '\n') rest
      rw [hc] at hhead
      simpa using hhead
  | case3 rest after hclosed ih =>
    obtain ⟨gap, hgap, htrivia⟩ := ih
    obtain ⟨text, rfl, htext⟩ := afterComment_split hclosed
    refine ⟨'/' :: '*' :: text ++ '*' :: '/' :: gap, ?_, .block htext htrivia⟩
    calc '/' :: '*' :: (text ++ '*' :: '/' :: after)
        _ = '/' :: '*' :: (text ++ '*' :: '/' :: (gap ++ skipTrivia after)) := by rw [← hgap]
        _ = _ := by simp
  | case4 => exact ⟨[], rfl, .nil⟩
  | case5 c rest _ _ hspace ih =>
    obtain ⟨gap, hgap, htrivia⟩ := ih
    exact ⟨c :: gap, by rw [cons_append, ← hgap], .blank (isSpace_cases hspace) htrivia⟩
  | case6 => exact ⟨[], rfl, .nil⟩

/-! ### Tokens and gaps -/

/-- The text consists of gaps and of the written forms of the tokens, at the end of a source of
`total` bytes. -/
inductive Tiles (total : Nat) : List Char → List Token → Prop where
  | done {gap : List Char} : Trivia [] gap → Tiles total gap [⟨.eof, ⟨total, total⟩⟩]
  | token {gap piece rest : List Char} {l : Lexeme} {tokens : List Token} :
      Trivia (piece ++ rest) gap → Written l piece → Tiles total rest tokens →
      Tiles total (gap ++ (piece ++ rest))
        (⟨l, ⟨total - byteLength (piece ++ rest), total - byteLength rest⟩⟩ :: tokens)

theorem tiles_run {total : Nat} {cs : List Char} (h : (run total cs).errors = []) :
    Tiles total cs (run total cs).tokens := by
  fun_induction run total cs with
  | case1 cs hend =>
    obtain ⟨gap, hgap, htrivia⟩ := exists_trivia_of_skipTrivia cs
    rw [hend] at hgap htrivia
    rw [hgap, append_nil]
    exact .done htrivia
  | case2 cs c rest hrest start lexeme after hstep tail ih =>
    obtain ⟨gap, hgap, htrivia⟩ := exists_trivia_of_skipTrivia cs
    obtain ⟨piece, hpiece, hwritten⟩ := exists_written_of_step hstep
    rw [hrest] at hgap htrivia
    rw [hpiece] at hgap htrivia
    rw [hgap, show start = total - byteLength (piece ++ after) by rw [← hpiece]]
    exact .token htrivia hwritten (ih h)
  | case3 cs c rest hrest start problem after hstep tail ih | case4 cs c rest hrest start problem hstep => cases h

section Tiles

variable {total : Nat} {cs before : List Char} {tokens : List Token}

theorem Written.byteLength_pos {l : Lexeme} {piece : List Char} (h : Written l piece) : 0 < byteLength piece := by
  obtain ⟨first, more, rfl, -⟩ := step_of_written h .nil
  have := first.utf8Size_pos
  simp only [byteLength]
  omega

variable (h : Tiles total cs tokens)

include h

theorem Tiles.le_start : ∀ t ∈ tokens, total - byteLength cs ≤ t.span.start := by
  induction h with
  | done _ => simp
  | @token gap piece rest l tokens _ _ _ ih =>
    refine forall_mem_cons.2 ⟨?_, fun t ht => Nat.le_trans ?_ (ih t ht)⟩ <;>
    · simp only [byteLength_append]
      omega

theorem Tiles.ordered : tokens.Pairwise fun t u => t.span.stop ≤ u.span.start := by
  induction h with
  | done _ => exact pairwise_singleton _ _
  | token _ _ hrest ih => exact pairwise_cons.2 ⟨hrest.le_start, ih⟩

theorem Tiles.getLast? : tokens.getLast? = some ⟨.eof, ⟨total, total⟩⟩ := by
  induction h with
  | done _ => rfl
  | token _ _ _ ih => rw [List.getLast?_cons, ih]; rfl

theorem Tiles.filled (hle : byteLength cs ≤ total) :
    ∀ t ∈ tokens.dropLast, t.span.start < t.span.stop := by
  induction h with
  | done _ => simp
  | @token gap piece rest l tokens _ hwritten hrest ih =>
    have hne : tokens ≠ [] := fun hnil => by simp [hnil] at hrest; cases hrest.getLast?
    have hpos := hwritten.byteLength_pos
    simp only [byteLength_append] at hle
    rw [dropLast_cons_of_ne_nil hne]
    refine forall_mem_cons.2 ⟨?_, ih (by omega)⟩
    simp only [byteLength_append]
    omega

/-- **Each token has a gap in front of it and a piece of its own.**  The gap starts where the
token before it ended. -/
theorem Tiles.cuts (htotal : total = byteLength (before ++ cs))
    {earlier later : List Token} {t : Token} (hsplit : tokens = earlier ++ t :: later) : ∃ front gap piece back,
      Span.Cuts ⟨(earlier.getLast?.map (·.span.stop)).getD (byteLength before), t.span.start⟩
        (before ++ cs) front gap (piece ++ back) ∧ Trivia (piece ++ back) gap ∧
      t.span.Cuts (before ++ cs) (front ++ gap) piece back ∧ (t.lexeme = .eof ∨ Written t.lexeme piece) := by
  induction h generalizing before earlier with
  | @done gap htrivia =>
    rcases earlier with _ | ⟨_, earlier⟩
    · cases hsplit
      exact ⟨before, gap, [], [], ⟨by simp, rfl, htotal⟩, htrivia, ⟨by simp, htotal, by simpa using htotal⟩,
        .inl rfl⟩
    · simp at hsplit
  | @token gap piece rest l tokens htrivia hwritten hrest ih =>
    have hstart : total - byteLength (piece ++ rest) = byteLength (before ++ gap) := by
      simp only [byteLength_append] at htotal ⊢
      omega
    have hstop : total - byteLength rest = byteLength (before ++ gap ++ piece) := by
      simp only [byteLength_append] at htotal ⊢
      omega
    rcases earlier with _ | ⟨u, earlier⟩
    · cases hsplit
      exact ⟨before, gap, piece, rest, ⟨by simp, rfl, hstart⟩, htrivia, ⟨by simp, hstart, hstop⟩,
        .inr hwritten⟩
    · obtain ⟨rfl, htokens⟩ := List.cons.inj hsplit
      have htext : before ++ (gap ++ (piece ++ rest)) = before ++ gap ++ piece ++ rest := by simp
      rw [htext] at htotal ⊢
      obtain ⟨front, gap', piece', back, hgap, hrest'⟩ := ih htotal htokens
      refine ⟨front, gap', piece', back, ?_, hrest'⟩
      -- Where there is no token in between, the gap starts at the end of this one.
      rcases earlier with _ | ⟨v, earlier⟩
      · simpa [hstop] using hgap
      · simpa [List.getLast?_cons] using hgap

end Tiles

/-! ### One piece alone -/

/-- **A written form scanned on its own** is one token. -/
theorem scan_ofList_of_written {l : Lexeme} {piece : List Char} (h : Written l piece) :
    scan (String.ofList piece) = .ok
      [⟨l, ⟨0, byteLength piece⟩⟩, ⟨.eof, ⟨byteLength piece, byteLength piece⟩⟩] := by
  have hrun := run_of_written h .nil (byteLength piece)
  rw [run_nil, append_nil] at hrun
  rw [scan, utf8ByteSize_ofList, String.toList_ofList, hrun]
  simp [byteLength]

/-! ### Errors -/

theorem eq_of_numeral_skip {base : Nat} {text digits : List Char}
    (h : numeral base text digits rest = .skip problem after) : after = rest := by
  unfold numeral at h
  split at h <;> cases h
  rfl

theorem decimal_skip_suffix {c : Char} (h : decimal c rest = .skip problem after) : after <:+ c :: rest := by
  rw [eq_of_numeral_skip h]
  exact (dropWhile_suffix _).trans (suffix_cons _ _)

theorem step_skip_suffix {c : Char} (h : step c rest = .skip problem after) : after <:+ c :: rest := by
  unfold step at h
  split at h
  · cases h
  split at h
  · split at h
    · split at h
      · rw [eq_of_numeral_skip h]
        exact (dropWhile_suffix _).trans ((suffix_cons _ _).trans (suffix_cons _ _))
      · exact decimal_skip_suffix h
    · exact decimal_skip_suffix h
  split at h
  · split at h <;> cases h
  split at h
  · cases h
  split at h <;> cases h
  exact suffix_cons _ _

theorem byteLength_le_of_suffix {cs ds : List Char} (h : cs <:+ ds) : byteLength cs ≤ byteLength ds := by
  obtain ⟨before, rfl⟩ := h
  simp

theorem errors_run_within {total : Nat} {cs : List Char} :
    ∀ e ∈ (run total cs).errors, e.span.start ≤ e.span.stop ∧ e.span.stop ≤ total := by
  fun_induction run total cs with
  | case1 cs hend => simp
  | case2 cs c rest hrest start lexeme after hstep tail ih => exact ih
  | case3 cs c rest hrest start problem after hstep tail ih =>
    have := byteLength_le_of_suffix (step_skip_suffix hstep)
    exact forall_mem_cons.2 ⟨⟨Nat.sub_le_sub_left this _, Nat.sub_le _ _⟩, ih⟩
  | case4 cs c rest hrest start problem hstep =>
    exact forall_mem_singleton.2 ⟨Nat.sub_le _ _, Nat.le_refl _⟩

/-! ### The whole text -/

/-- The tokens and the gaps between them make up the text, and each token can be read from its
piece alone. -/
structure Lossless (text : String) (tokens : List Token) : Prop where
  ordered : tokens.Pairwise fun t u => t.span.stop ≤ u.span.start
  filled : ∀ t ∈ tokens.dropLast, t.span.start < t.span.stop
  last : tokens.getLast? = some ⟨.eof, ⟨text.utf8ByteSize, text.utf8ByteSize⟩⟩
  gaps : ∀ earlier t later, tokens = earlier ++ t :: later → ∃ before gap after,
    Span.Cuts ⟨(earlier.getLast?.map (·.span.stop)).getD 0, t.span.start⟩ text.toList before gap after ∧
      Trivia after gap
  pieces : ∀ t ∈ tokens, ∃ before piece after, t.span.Cuts text.toList before piece after ∧
    (t.lexeme ≠ .eof → scan (String.ofList piece) = .ok
      [⟨t.lexeme, ⟨0, byteLength piece⟩⟩, ⟨.eof, ⟨byteLength piece, byteLength piece⟩⟩])

theorem Tiles.lossless {text : String} {tokens : List Token}
    (h : Tiles text.utf8ByteSize text.toList tokens) : Lossless text tokens where
  ordered := h.ordered
  filled := h.filled (Nat.le_of_eq (utf8ByteSize_eq text).symm)
  last := h.getLast?
  gaps earlier t later hsplit := by
    have htotal : text.utf8ByteSize = byteLength ([] ++ text.toList) := utf8ByteSize_eq text
    obtain ⟨front, gap, piece, back, hgap, htrivia, -⟩ := h.cuts htotal hsplit
    exact ⟨front, gap, piece ++ back, hgap, htrivia⟩
  pieces t ht := by
    obtain ⟨earlier, later, hsplit⟩ := append_of_mem ht
    have htotal : text.utf8ByteSize = byteLength ([] ++ text.toList) := utf8ByteSize_eq text
    obtain ⟨front, gap, piece, back, -, -, hpiece, hwritten⟩ := h.cuts htotal hsplit
    refine ⟨front ++ gap, piece, back, hpiece, fun heof => ?_⟩
    exact scan_ofList_of_written (hwritten.resolve_left heof)

/-- **Scanning is lossless, and errors lie within the text.** -/
theorem scan_lossless (text : String) :
    match scan text with
    | .ok tokens => Lossless text tokens
    | .error errors => errors ≠ [] ∧
        ∀ e ∈ errors, e.span.start ≤ e.span.stop ∧ e.span.stop ≤ text.utf8ByteSize := by
  unfold scan
  dsimp only
  split
  · rename_i tokens heq
    split at heq
    · rename_i hempty
      cases heq
      exact (tiles_run (isEmpty_iff.1 hempty)).lossless
    · cases heq
  · rename_i errors heq
    split at heq
    · cases heq
    · rename_i hempty
      cases heq
      exact ⟨fun hnil => hempty (isEmpty_iff.2 hnil), errors_run_within⟩

end Scan
end Keel
