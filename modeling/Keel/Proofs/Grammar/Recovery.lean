/-
# Going on after mistakes

The parts of a text are read in rounds.  Each takes a token, whether it yields a part or a mistake,
and starts with struct literals allowed, whatever a condition that broke off had switched.  So what the
rounds from a place on yield depends on nothing before it: it is what the tokens from there on yield as
a text of their own (`readParts_resumes`).
-/
import Keel.Proofs.Grammar.Writing

namespace Keel
namespace Grammar

open List

/-! ### Parts -/

/-- With at most `n` tokens ahead both parsers do the same. -/
abbrev Agrees {α : Type} (n : Nat) (p p' : Parser α) : Prop := ∀ m, Reads .full n m p p' fun _ _ => True

theorem agrees_map {α β : Type} {n : Nat} {p p' : Parser α} {R : Nat → α → Nat → Prop}
    (h : ∀ m, Reads .full n m p p' (R m)) (f : α → β) : Agrees n (f <$> p) (f <$> p') := fun m =>
  (h m).map fun _ _ _ => trivial

/-- A declaration takes its first token.  What follows sees nothing of what was before. -/
theorem exists_after_word {t : Token} (hstarts : startsItem t.lexeme = true) (hne : t.lexeme ≠ .keyword .importKw) :
    ∃ q : Level → Parser Item,
      (∀ {n : Nat} {sub sub' : Level}, Level.Sound .full n sub sub' → Agrees n (q sub) (q sub')) ∧
        ∀ sub ts last nextId lit, item sub ⟨t :: ts, last, nextId, lit⟩ = q sub ⟨ts, t.span, nextId, lit⟩ := by
  obtain ⟨l, span⟩ := t
  cases l with
  | keyword word =>
    cases word with
    | structKw => exact ⟨_, fun h => agrees_map (readsFresh_structDef h span.start false) Item.struct,
        fun _ _ _ _ _ => rfl⟩
    | enumKw => exact ⟨_, fun h => agrees_map (readsFresh_enumDef h span.start false) Item.enum,
        fun _ _ _ _ _ => rfl⟩
    | fnKw => exact ⟨_, fun h => agrees_map (readsFresh_functionDef h span.start false) Item.function,
        fun _ _ _ _ _ => rfl⟩
    | constKw => exact ⟨_, fun h => agrees_map (readsFresh_constDef h span.start false) Item.const,
        fun _ _ _ _ _ => rfl⟩
    | traitKw => exact ⟨_, fun h => agrees_map (readsFresh_traitDef h span.start false) Item.trait,
        fun _ _ _ _ _ => rfl⟩
    | implKw => exact ⟨_, fun h => agrees_map (readsFresh_implBlock h span.start) Item.impl,
        fun _ _ _ _ _ => rfl⟩
    | typeKw => exact ⟨_, fun h => agrees_map (readsFresh_aliasDef h span.start false) Item.typeAlias,
        fun _ _ _ _ _ => rfl⟩
    | pubKw =>
      obtain ⟨q, hq, hreads⟩ := exists_item_eq (V := .full)
      refine ⟨fun sub => q sub span true, fun h m => (hreads h span true m).imp fun _ _ _ => trivial,
        fun sub ts last nextId lit => ?_⟩
      rw [hq]
      rfl
    | importKw => exact absurd rfl hne
    | _ => cases hstarts
  | _ => cases hstarts

theorem exists_part_eq {t : Token} (hstarts : startsItem t.lexeme = true) : ∃ q : Level → Parser Part,
    (∀ {n : Nat} {sub sub' : Level}, Level.Sound .full n sub sub' → Agrees n (q sub) (q sub')) ∧
      ∀ sub ts last nextId lit, part sub ⟨t :: ts, last, nextId, lit⟩ = q sub ⟨ts, t.span, nextId, lit⟩ := by
  by_cases hword : t.lexeme = .keyword .importKw
  · obtain ⟨q, hq, hshows⟩ := exists_importDecl_eq (V := .full)
    refine ⟨_, fun {n _ _} _ => agrees_map (hshows t.span n) Part.import, fun sub ts last nextId lit => ?_⟩
    obtain ⟨_, span⟩ := t
    subst hword
    show EStateM.bind importDecl _ _ = _
    rw [hq]
    rfl
  · obtain ⟨q, hagrees, hq⟩ := exists_after_word hstarts hword
    refine ⟨_, fun h => agrees_map (hagrees h) Part.item, fun sub ts last nextId lit => ?_⟩
    show (if (t.lexeme == .keyword .importKw) = true then _ else _ : Parser Part) _ = _
    rw [if_neg fun heq => hword (eq_of_beq heq)]
    show EStateM.bind (item sub) _ _ = _
    unfold EStateM.bind
    rw [hq]
    rfl

/-! ### Rounds -/

/-- One round: what it yields, and where the next one starts. -/
def partStep (sub : Level) (c : Cursor) : Option (List Part × List SyntaxError × Cursor) :=
  match c.token.lexeme with
  | .eof => none
  | .symbol .semi => some ([], [], c.advance)
  | _ =>
    match part sub c with
    | .ok p c' => some ([p], [], c')
    | .error e c' => some ([], [e], c'.toItem)

inductive Reaches (sub : Level) (start : Cursor) : List Part → List SyntaxError → Cursor → Prop where
  | start : Reaches sub start [] [] start
  | round {parts more : List Part} {errors others : List SyntaxError} {c c' : Cursor} :
      Reaches sub start parts errors c → partStep sub c = some (more, others, c') →
      Reaches sub start (parts ++ more) (errors ++ others) c'

def joined (parts : List Part) (errors : List SyntaxError) (r : List Part × List SyntaxError × Cursor) :
    List Part × List SyntaxError × Cursor := (parts ++ r.1, errors ++ r.2.1, r.2.2)

theorem partRounds_succ (sub : Level) (fuel : Nat) (c : Cursor) :
    partRounds sub (fuel + 1) c = match partStep sub c with
      | none => ([], [], c)
      | some (parts, errors, c') => joined parts errors (partRounds sub fuel c') := by
  rw [partRounds, partStep]
  generalize c.token.lexeme = l
  cases l with
  | eof => rfl
  | symbol sign => cases sign <;> first | rfl | cases part sub c <;> rfl
  | _ => cases part sub c <;> rfl

/-- Where no part starts, the text ends or the token is skipped, with a mistake if it is no `;`. -/
theorem partStep_of_not_starts {t : Token} (h : startsItem t.lexeme = false) (sub : Level) (ts : List Token)
    (last : Span) (nextId : NodeId) (lit : Bool) :
    partStep sub ⟨t :: ts, last, nextId, lit⟩ = match t.lexeme with
      | .eof => none
      | .symbol .semi => some ([], [], ⟨ts, t.span, nextId, lit⟩)
      | _ => some ([], [⟨.missing "declaration", t.span⟩],
          ⟨(skipToItem ts t.span).1, (skipToItem ts t.span).2, nextId, lit⟩) := by
  obtain ⟨l, span⟩ := t
  cases l with
  | keyword word => cases word <;> first | rfl | cases h
  | symbol sign => cases sign <;> rfl
  | _ => rfl

/-- **A round takes a token**, it sees only the tokens ahead, and whether it yields a part or a mistake, it ends
with struct literals allowed as they were. -/
theorem partStep_eq {n : Nat} {sub sub' : Level} (h : Level.Sound .full n sub sub') (t : Token) {ts : List Token}
    (hn : ts.length ≤ n) (last last' : Span) (nextId : NodeId) (lit : Bool) :
    partStep sub ⟨t :: ts, last, nextId, lit⟩ = partStep sub' ⟨t :: ts, last', nextId, lit⟩ ∧
      ∀ r, partStep sub ⟨t :: ts, last, nextId, lit⟩ = some r → r.2.2.rest <:+ ts ∧ r.2.2.literals = lit := by
  cases hstarts : startsItem t.lexeme with
  | true =>
    obtain ⟨q, hagrees, hq⟩ := exists_part_eq hstarts
    obtain ⟨heq, honward, -⟩ := hagrees h nextId ⟨ts, t.span, nextId, lit⟩ rfl ⟨hn, fun _ _ => .inr trivial⟩
    have hstep (sub : Level) (last : Span) : partStep sub ⟨t :: ts, last, nextId, lit⟩ =
        match q sub ⟨ts, t.span, nextId, lit⟩ with
        | .ok p c' => some ([p], [], c')
        | .error e c' => some ([], [e], c'.toItem) := by
      rw [← hq sub ts last]
      obtain ⟨l, span⟩ := t
      cases l with
      | keyword word => rfl
      | _ => cases hstarts
    rw [hstep, hstep, ← heq]
    refine ⟨rfl, ?_⟩
    cases hrun : q sub ⟨ts, t.span, nextId, lit⟩ with
    | ok p c =>
      rw [hrun] at honward
      rintro _ ⟨⟩
      exact ⟨honward.suffix, honward.literals⟩
    | error e c =>
      rw [hrun] at honward
      rintro _ ⟨⟩
      exact ⟨(skipToItem_suffix c.rest c.last).trans honward.suffix, honward.literals⟩
  | false =>
    rw [partStep_of_not_starts hstarts, partStep_of_not_starts hstarts]
    refine ⟨rfl, ?_⟩
    split
    · nofun
    · rintro _ ⟨⟩
      exact ⟨suffix_refl _, rfl⟩
    · rintro _ ⟨⟩
      exact ⟨skipToItem_suffix ts t.span, rfl⟩

/-! ### All rounds -/

/-- The parts of a text and the mistakes in it, and the cursor at its end. -/
def readParts (tokens : List Token) (nextId : NodeId) : List Part × List SyntaxError × Cursor :=
  partRounds (Level.within (tokens.length + 1)) (tokens.length + 1) (.start tokens nextId)

/-- All but the span of the token taken last. -/
def outcome (r : List Part × List SyntaxError × Cursor) : List Part × List SyntaxError × List Token × NodeId :=
  (r.1, r.2.1, r.2.2.rest, r.2.2.nextId)

theorem outcome_joined (parts : List Part) (errors : List SyntaxError) {r r' : List Part × List SyntaxError × Cursor}
    (h : outcome r = outcome r') : outcome (joined parts errors r) = outcome (joined parts errors r') := by
  show (parts ++ (outcome r).1, errors ++ (outcome r).2.1, (outcome r).2.2) = _
  rw [h]
  rfl

/-- **The rounds see only the tokens ahead**: neither the token before them nor how often and how deep they might
go on beyond the end of the text. -/
theorem outcome_partRounds {depth depth' fuel fuel' : Nat} (hdepth : depth ≤ depth') {rest : List Token}
    (last last' : Span) (nextId : NodeId) (lit : Bool) (hrest : rest.length ≤ depth) (hfuel : rest.length < fuel)
    (hfuel' : rest.length < fuel') :
    outcome (partRounds (Level.within depth) fuel ⟨rest, last, nextId, lit⟩) =
      outcome (partRounds (Level.within depth') fuel' ⟨rest, last', nextId, lit⟩) := by
  induction fuel generalizing rest last last' nextId lit fuel' with
  | zero => omega
  | succ fuel ih =>
    obtain ⟨fuel', rfl⟩ : ∃ k, fuel' = k + 1 := ⟨fuel' - 1, by omega⟩
    rw [partRounds_succ, partRounds_succ]
    cases rest with
    | nil => rfl
    | cons t ts =>
      rw [length_cons] at hrest hfuel hfuel'
      have hn : ts.length ≤ depth := Nat.le_of_succ_le hrest
      obtain ⟨heq, hsuffix⟩ := partStep_eq (Level.sound_within hdepth) t hn last last' nextId lit
      rw [← heq]
      cases hstep : partStep (Level.within depth) ⟨t :: ts, last, nextId, lit⟩ with
      | none => rfl
      | some r =>
        obtain ⟨parts, errors, c⟩ := r
        have hle : c.rest.length ≤ ts.length := (hsuffix _ hstep).1.length_le
        have hnext : outcome (partRounds (Level.within depth) fuel c) =
            outcome (partRounds (Level.within depth') fuel' c) :=
          ih c.last c.last c.nextId c.literals (by omega) (by omega) (by omega)
        exact outcome_joined parts errors hnext

section Reaches

variable {depth : Nat} {start c : Cursor} {parts : List Part} {errors : List SyntaxError}
  (h : Reaches (Level.within depth) start parts errors c) (hdepth : start.rest.length ≤ depth)

theorem onward_of_partStep {r : List Part × List SyntaxError × Cursor} (hc : c.rest.length ≤ depth)
    (hstep : partStep (Level.within depth) c = some r) :
    (∃ t ts, c.rest = t :: ts ∧ r.2.2.rest <:+ ts) ∧ r.2.2.literals = c.literals := by
  obtain ⟨_ | ⟨t, ts⟩, last, nextId, lit⟩ := c
  · cases hstep
  · have hn : ts.length ≤ depth := Nat.le_of_succ_le hc
    obtain ⟨hsuffix, hlit⟩ := (partStep_eq (Level.sound_within (Nat.le_refl depth)) t hn last last nextId lit).2 r hstep
    exact ⟨⟨t, ts, rfl, hsuffix⟩, hlit⟩

include h hdepth

theorem Reaches.suffix : c.rest <:+ start.rest := by
  induction h with
  | start => exact suffix_refl _
  | round _ hstep ih =>
    obtain ⟨⟨t, ts, hrest, hsuffix⟩, -⟩ := onward_of_partStep (Nat.le_trans ih.length_le hdepth) hstep
    exact hsuffix.trans ((hrest ▸ suffix_cons t ts).trans ih)

/-- What was switched off on the way is on again where a round starts, whatever succeeded or failed before. -/
theorem Reaches.literals : c.literals = start.literals := by
  induction h with
  | start => rfl
  | round hreaches hstep ih =>
    have hc := Nat.le_trans (hreaches.suffix hdepth).length_le hdepth
    exact (onward_of_partStep hc hstep).2.trans ih

/-- The rounds to come add to what was found. -/
theorem Reaches.exists_partRounds {fuel : Nat} (hfuel : start.rest.length < fuel) :
    ∃ fuel', c.rest.length < fuel' ∧ partRounds (Level.within depth) fuel start =
      joined parts errors (partRounds (Level.within depth) fuel' c) := by
  induction h with
  | start => exact ⟨fuel, hfuel, rfl⟩
  | round hreaches hstep ih =>
    obtain ⟨fuel', hlt, hrounds⟩ := ih
    obtain ⟨⟨t, ts, hrest, hsuffix⟩, -⟩ := onward_of_partStep
      (Nat.le_trans (hreaches.suffix hdepth).length_le hdepth) hstep
    rw [hrest, length_cons] at hlt
    obtain ⟨fuel', rfl⟩ : ∃ k, fuel' = k + 1 := ⟨fuel' - 1, by omega⟩
    refine ⟨fuel', Nat.lt_of_le_of_lt hsuffix.length_le (by omega), ?_⟩
    rw [hrounds, partRounds_succ, hstep]
    simp only [joined, append_assoc]

/-- As many rounds as there are tokens reach the end of the text. -/
theorem Reaches.exists_end {fuel : Nat} (hfuel : c.rest.length < fuel) : ∃ parts' errors' c',
    Reaches (Level.within depth) start parts' errors' c' ∧ partStep (Level.within depth) c' = none ∧
      joined parts errors (partRounds (Level.within depth) fuel c) = (parts', errors', c') := by
  induction fuel generalizing parts errors c with
  | zero => omega
  | succ fuel ih =>
    rw [partRounds_succ]
    cases hstep : partStep (Level.within depth) c with
    | none => exact ⟨parts, errors, c, h, hstep, by simp [joined]⟩
    | some r =>
      obtain ⟨more, others, c'⟩ := r
      obtain ⟨⟨t, ts, hrest, hsuffix⟩, -⟩ := onward_of_partStep (Nat.le_trans (h.suffix hdepth).length_le hdepth) hstep
      rw [hrest, length_cons] at hfuel
      have hend := ih (h.round hstep) (Nat.lt_of_le_of_lt hsuffix.length_le (by omega))
      simpa only [joined, append_assoc] using hend

end Reaches

theorem partStep_eq_none_iff (sub : Level) (c : Cursor) : partStep sub c = none ↔ c.token.lexeme = .eof := by
  rw [partStep]
  split
  · next heq => simp [heq]
  · next heq => simp [heq]
  · next hne _ =>
    refine ⟨fun hnone => ?_, fun heq => absurd heq hne⟩
    cases hrun : part sub c <;> rw [hrun] at hnone <;> cases hnone

/-- **Reading goes on after mistakes as if nothing had been before.**  The rounds end where the text does, with
the module or all mistakes, and no others would follow if there could be more of them or nesting could be deeper.
Each round takes a token, starts with struct literals allowed, and together with those after it yields what its
tokens yield as a text of their own, numbered from the same number on. -/
theorem readParts_resumes (tokens : List Token) (nextId : NodeId) :
    let sub := Level.within (tokens.length + 1)
    (∃ parts errors c, Reaches sub (.start tokens nextId) parts errors c ∧ c.token.lexeme = .eof ∧
      readParts tokens nextId = (parts, errors, c) ∧ ∀ path, ModuleDef.ofTokens path tokens nextId =
        if errors = [] then .ok (⟨path, parts.filterMap Part.import?, parts.filterMap Part.item?⟩, c.nextId)
        else .error errors) ∧
    (∀ depth fuel, tokens.length < depth → tokens.length < fuel →
      outcome (partRounds (Level.within depth) fuel (.start tokens nextId)) = outcome (readParts tokens nextId)) ∧
    ∀ parts errors c, Reaches sub (.start tokens nextId) parts errors c →
      (c.token.lexeme = .eof ∨ ∃ more others c', partStep sub c = some (more, others, c') ∧
        c'.rest <:+ c.rest ∧ c'.rest.length < c.rest.length) ∧
      c.literals = true ∧
      outcome (readParts tokens nextId) = outcome (joined parts errors (readParts c.rest c.nextId)) := by
  have hdepth : (Cursor.start tokens nextId).rest.length ≤ tokens.length + 1 := Nat.le_succ _
  have hfuel : (Cursor.start tokens nextId).rest.length < tokens.length + 1 := Nat.lt_succ_self _
  refine ⟨?_, fun depth fuel hd hf => ?_, fun parts errors c h => ⟨?_, h.literals hdepth, ?_⟩⟩
  · obtain ⟨parts, errors, c, hreaches, hend, hrounds⟩ := Reaches.exists_end .start hdepth hfuel
    have hread : readParts tokens nextId = (parts, errors, c) := hrounds
    refine ⟨parts, errors, c, hreaches, (partStep_eq_none_iff _ c).1 hend, hread, fun path => ?_⟩
    rw [ModuleDef.ofTokens, ← readParts, hread]
    cases errors <;> rfl
  · exact (outcome_partRounds hd .zero .zero nextId true hdepth hfuel hf).symm
  · have hc := Nat.le_trans (h.suffix hdepth).length_le hdepth
    cases hstep : partStep (Level.within (tokens.length + 1)) c with
    | none => exact .inl ((partStep_eq_none_iff _ c).1 hstep)
    | some r =>
      obtain ⟨⟨t, ts, hrest, hsuffix⟩, -⟩ := onward_of_partStep hc hstep
      refine .inr ⟨r.1, r.2.1, r.2.2, rfl, hrest ▸ hsuffix.trans (suffix_cons t ts), ?_⟩
      rw [hrest, length_cons]
      exact Nat.lt_succ_of_le hsuffix.length_le
  · obtain ⟨fuel, hlt, hrounds⟩ := h.exists_partRounds hdepth hfuel
    have hle : c.rest.length + 1 ≤ tokens.length + 1 := Nat.succ_le_succ (h.suffix hdepth).length_le
    rw [readParts, hrounds]
    have hlit : c.literals = true := h.literals hdepth
    obtain ⟨rest, last, nextId, lit⟩ := c
    subst hlit
    exact outcome_joined parts errors
      (outcome_partRounds hle .zero last nextId true (Nat.le_succ _) (Nat.lt_succ_self _) hlt).symm

/-- The tokens of `fn f() { if struct S { }`. -/
def brokenTokens : List Token :=
  [⟨.keyword .fnKw, ⟨0, 2⟩⟩, ⟨.ident "f", ⟨3, 4⟩⟩, ⟨.symbol .lParen, ⟨4, 5⟩⟩, ⟨.symbol .rParen, ⟨5, 6⟩⟩,
    ⟨.symbol .lBrace, ⟨7, 8⟩⟩, ⟨.keyword .ifKw, ⟨9, 11⟩⟩, ⟨.keyword .structKw, ⟨12, 18⟩⟩, ⟨.ident "S", ⟨19, 20⟩⟩,
    ⟨.symbol .lBrace, ⟨21, 22⟩⟩, ⟨.symbol .rBrace, ⟨23, 24⟩⟩, ⟨.eof, ⟨24, 24⟩⟩]

/-- The word `struct` is no condition.  The mistake is made where struct literals are not allowed, and the round
that reads the struct starts with them allowed. -/
theorem readParts_resumes_struct :
    let error : SyntaxError := ⟨.expected "expression" (.keyword .structKw), ⟨12, 18⟩⟩
    let c : Cursor := ⟨brokenTokens.drop 6, ⟨9, 11⟩, 0, true⟩
    Reaches (Level.within 12) (.start brokenTokens 0) [] [error] c ∧ c.literals = true ∧
      outcome (readParts brokenTokens 0) = outcome (joined [] [error] (readParts (brokenTokens.drop 6) 0)) := by
  intro error c
  have h : Reaches (Level.within 12) (.start brokenTokens 0) [] [error] c := .round .start rfl
  exact ⟨h, ((readParts_resumes brokenTokens 0).2.2 _ _ _ h).2⟩

end Grammar
end Keel
