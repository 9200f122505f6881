/-
# Reading what was written
-/
import Keel.Proofs.Syntax.Printing

namespace Keel.Grammar

open List

/-! ### Parsers that succeed -/

def Cursor.lexemes (c : Cursor) : List Lexeme := c.rest.map Token.lexeme

/-- These lexemes are ahead, and struct literals are allowed or not. -/
def Cursor.At (c : Cursor) (lit : Bool) (ls : List Lexeme) : Prop := c.literals = lit ∧ c.lexemes = ls

/-- Where the lexemes `before` are ahead, fewer than `n`, the parser succeeds, leaves no more
lexemes, namely `after`, and yields a value that is as said.  Struct literals are allowed or not. -/
def Runs {α : Type} (lit : Bool) (n : Nat) (p : Parser α) (before after : List Lexeme) (Q : α → Prop) : Prop :=
  ∀ c : Cursor, c.At lit before → before.length < n →
    ∃ a c', p c = .ok a c' ∧ c'.At lit after ∧ after.length ≤ before.length ∧ Q a

/-- Where this lexeme is ahead the parser takes it, and its value is as said. -/
def Takes {α : Type} (p : Parser α) (l : Lexeme) (R : α → Prop) : Prop :=
  ∀ c ls, c.lexemes = l :: ls → ∃ a, p c = .ok a c.advance ∧ R a

section Runs

variable {α β : Type} {lit : Bool} {n : Nat} {p : Parser α} {k : α → Parser β} {before mid after ls : List Lexeme}
  {l l' : Lexeme} {R : α → Prop} {Q : β → Prop}

theorem runs_pure {a : α} (h : R a) : Runs lit n (pure a) ls ls R := fun c hc _ =>
  ⟨a, c, rfl, hc, Nat.le_refl _, h⟩

theorem Runs.bind (hp : Runs lit n p before mid R) (hk : ∀ a, R a → Runs lit n (k a) mid after Q) :
    Runs lit n (p >>= k) before after Q := by
  intro c hc hn
  obtain ⟨a, c₁, hrun, hc₁, hle, ha⟩ := hp c hc hn
  obtain ⟨b, c₂, hrun', hc₂, hle', hb⟩ := hk a ha c₁ hc₁ (Nat.lt_of_le_of_lt hle hn)
  refine ⟨b, c₂, ?_, hc₂, Nat.le_trans hle' hle, hb⟩
  show EStateM.bind p k c = _
  rw [EStateM.bind, hrun]
  exact hrun'

theorem Runs.imp {R' : α → Prop} (hp : Runs lit n p before after R) (h : ∀ a, R a → R' a) :
    Runs lit n p before after R' := by
  intro c hc hn
  obtain ⟨a, c', hrun, hc', hle, ha⟩ := hp c hc hn
  exact ⟨a, c', hrun, hc', hle, h a ha⟩

theorem Runs.map (hp : Runs lit n p before after R) {f : α → β} (h : ∀ a, R a → Q (f a)) :
    Runs lit n (f <$> p) before after Q := by
  rw [map_eq_pure_bind]
  exact hp.bind fun a ha => runs_pure (h a ha)

theorem Runs.mono {m : Nat} (hp : Runs lit m p before after R) (hle : n ≤ m) : Runs lit n p before after R :=
  fun c hc hn => hp c hc (Nat.lt_of_lt_of_le hn hle)

/-- Inside, struct literals are allowed or not as said. -/
theorem Runs.withLiterals {inside : Bool} (hp : Runs inside n p before after R) :
    Runs lit n (withLiterals inside p) before after R := by
  intro c hc hn
  obtain ⟨a, c', hrun, hc', hle, ha⟩ := hp { c with literals := inside } ⟨rfl, hc.2⟩ hn
  refine ⟨a, { c' with literals := c.literals }, ?_, ⟨hc.1, hc'.2⟩, hle, ha⟩
  rw [Grammar.withLiterals, hrun]

theorem runs_literalsAllowed {k : Bool → Parser β} (h : Runs lit n (k lit) before after Q) :
    Runs lit n (literalsAllowed >>= k) before after Q := by
  rintro c ⟨rfl, hc⟩
  exact h c ⟨rfl, hc⟩

theorem runs_look {k : Cursor → Parser β} (h : ∀ c : Cursor, c.At lit before → Runs lit n (k c) before after Q) :
    Runs lit n (get >>= k) before after Q := fun c hc => h c hc c hc

theorem runs_here {k : Span → Parser β} (h : ∀ span, Runs lit n (k span) before after Q) :
    Runs lit n (here >>= k) before after Q := fun c hc => h _ c hc

theorem runs_fuel {k : Nat → Parser β} (h : ∀ fuel, before.length < fuel → Runs lit n (k fuel) before after Q) :
    Runs lit n (get >>= fun c => k (c.rest.length + 1)) before after Q := by
  refine runs_look fun c hc => h _ ?_
  rw [← hc.2, Cursor.lexemes, length_map]
  omega

theorem Runs.of_eq {p : Parser β} (h : Runs lit n p before after Q) (heq : ls = before) : Runs lit n p ls after Q := heq ▸ h

theorem runs_taken {k : Span → Parser β} (h : ∀ span, Runs lit n (k span) before after Q) :
    Runs lit n (taken >>= k) before after Q := fun c hc => h _ c hc

theorem runs_freshId {k : NodeId → Parser β} (h : ∀ id, Runs lit n (k id) before after Q) :
    Runs lit n (freshId >>= k) before after Q := fun c hc => h c.nextId { c with nextId := c.nextId + 1 } hc

theorem Cursor.token_of_lexemes {c : Cursor} (h : c.lexemes = l :: ls) : c.token.lexeme = l := by
  unfold Cursor.lexemes at h
  unfold Cursor.token
  split
  · rename_i hrest
    rw [hrest] at h
    cases h
  · rename_i hrest
    rw [hrest] at h
    exact (List.cons.inj h).1

theorem Cursor.advance_of_lexemes {c : Cursor} (h : c.lexemes = l :: ls) : c.advance.lexemes = ls := by
  unfold Cursor.lexemes at h
  unfold Cursor.advance Cursor.lexemes
  split
  · rename_i hrest
    rw [hrest] at h
    cases h
  · rename_i hrest
    rw [hrest] at h
    exact (List.cons.inj h).2

theorem Cursor.At.advance {c : Cursor} (h : c.At lit (l :: ls)) : c.advance.At lit ls := by
  refine ⟨Eq.trans ?_ h.1, Cursor.advance_of_lexemes h.2⟩
  unfold Cursor.advance
  split <;> rfl

theorem runs_peek {k : Lexeme → Parser β} (h : Runs lit n (k l) (l :: ls) after Q) :
    Runs lit n (peek >>= k) (l :: ls) after Q := fun c hc => by
  have hrun := h c hc
  rw [← Cursor.token_of_lexemes hc.2] at hrun
  exact hrun

theorem runs_sees {k : Bool → Parser β} (h : Runs lit n (k (l == l')) (l :: ls) after Q) :
    Runs lit n (sees l' >>= k) (l :: ls) after Q := by
  have hsees : sees l' >>= k = (peek >>= fun found => k (found == l') : Parser β) := rfl
  rw [hsees]
  exact runs_peek h

theorem runs_sees_ne {k : Bool → Parser β} (hne : l ≠ l') (h : Runs lit n (k false) (l :: ls) after Q) :
    Runs lit n (sees l' >>= k) (l :: ls) after Q :=
  runs_sees (by rwa [beq_eq_false_iff_ne.2 hne])

theorem Takes.first (hp : Takes p l R) (hk : ∀ a, R a → Runs lit n (k a) ls after Q) :
    Runs lit (n + 1) (p >>= k) (l :: ls) after Q := by
  intro c hc hn
  obtain ⟨a, hrun, ha⟩ := hp c ls hc.2
  obtain ⟨b, c', hrun', hc', hle, hb⟩ :=
    hk a ha c.advance hc.advance (Nat.lt_of_succ_lt_succ hn)
  refine ⟨b, c', ?_, hc', Nat.le_succ_of_le hle, hb⟩
  show EStateM.bind p k c = _
  rw [EStateM.bind, hrun]
  exact hrun'

theorem Takes.bind (hp : Takes p l R) (hk : ∀ a, R a → Runs lit n (k a) ls after Q) :
    Runs lit n (p >>= k) (l :: ls) after Q := (hp.first hk).mono (Nat.le_succ n)

theorem takes_next : Takes next l fun _ => True := fun c _ _ => ⟨c.advance.last, rfl, trivial⟩

theorem takes_accept : Takes (accept l) l (· = true) := by
  intro c ls hc
  have hsees : (c.token.lexeme == l) = true := beq_iff_eq.2 (Cursor.token_of_lexemes hc)
  refine ⟨true, ?_, rfl⟩
  show (if (c.token.lexeme == l) = true then _ else _ : Parser Bool) c = _
  rw [if_pos hsees]
  rfl

theorem takes_expect : Takes (expect l) l fun _ => True := by
  intro c ls hc
  have hsees : (c.token.lexeme == l) = true := beq_iff_eq.2 (Cursor.token_of_lexemes hc)
  refine ⟨c.advance.last, ?_, trivial⟩
  show (if (c.token.lexeme == l) = true then next else _ : Parser Span) c = _
  rw [if_pos hsees]
  rfl

variable {what name : String} {span : Span}

theorem takes_ident : Takes (ident what) (.ident name) (·.1 = name) := by
  intro c ls hc
  refine ⟨(name, c.advance.last), ?_, rfl⟩
  have hpeek (k : Lexeme → Parser (String × Span)) : (peek >>= k) c = k (.ident name) c := by
    show k c.token.lexeme c = _
    rw [Cursor.token_of_lexemes hc]
  exact hpeek _

theorem runs_next {k : Span → Parser β} (h : ∀ span, Runs lit n (k span) ls after Q) :
    Runs lit n (next >>= k) (l :: ls) after Q := takes_next.bind fun span _ => h span

theorem runs_accept_first {k : Bool → Parser β} (h : Runs lit n (k true) ls after Q) :
    Runs lit (n + 1) (accept l >>= k) (l :: ls) after Q := takes_accept.first fun _ hb => hb ▸ h

theorem runs_accept {k : Bool → Parser β} (h : Runs lit n (k true) ls after Q) :
    Runs lit n (accept l >>= k) (l :: ls) after Q := (runs_accept_first h).mono (Nat.le_succ n)

theorem runs_expect {k : Span → Parser β} (h : ∀ span, Runs lit n (k span) ls after Q) :
    Runs lit n (expect l >>= k) (l :: ls) after Q := takes_expect.bind fun span _ => h span

theorem runs_ident_first {k : String × Span → Parser β} (h : ∀ span, Runs lit n (k (name, span)) ls after Q) :
    Runs lit (n + 1) (ident what >>= k) (.ident name :: ls) after Q := by
  refine takes_ident.first ?_
  rintro ⟨_, span⟩ rfl
  exact h span

theorem runs_ident {k : String × Span → Parser β} (h : ∀ span, Runs lit n (k (name, span)) ls after Q) :
    Runs lit n (ident what >>= k) (.ident name :: ls) after Q := (runs_ident_first h).mono (Nat.le_succ n)

theorem runs_refuse {k : Bool → Parser β} (hne : l ≠ l') (h : Runs lit n (k false) (l :: ls) after Q) :
    Runs lit n (accept l' >>= k) (l :: ls) after Q := by
  refine Runs.bind (R := fun b => b = false) ?_ fun b hb => hb ▸ h
  exact runs_sees_ne hne (runs_pure rfl)

def Ahead (test : Lexeme → Bool) (ls : List Lexeme) : Prop := ∃ l more, ls = l :: more ∧ test l

theorem runs_refuse_of_ahead {k : Bool → Parser β} (hahead : Ahead (· != l') before)
    (h : Runs lit n (k false) before after Q) : Runs lit n (accept l' >>= k) before after Q := by
  obtain ⟨l, more, rfl, hl⟩ := hahead
  exact runs_refuse (bne_iff_ne.1 hl) h

theorem runs_ended {k : Bool → Parser β} {close : Symbol} (h : Runs lit n (k true) (.symbol close :: ls) after Q) :
    Runs lit n (ended close >>= k) (.symbol close :: ls) after Q := by
  refine Runs.bind (R := fun b => b = true) ?_ fun b hb => hb ▸ h
  refine runs_sees ?_
  rw [beq_self_eq_true]
  exact runs_pure rfl

theorem runs_goesOn {k : Bool → Parser β} {close : Symbol} (hclose : l ≠ .symbol close) (heof : l ≠ .eof)
    (h : Runs lit n (k false) (l :: ls) after Q) : Runs lit n (ended close >>= k) (l :: ls) after Q := by
  refine Runs.bind (R := fun b => b = false) ?_ fun b hb => hb ▸ h
  refine runs_sees_ne hclose ?_
  have hsees : sees .eof = (do return ← sees .eof : Parser Bool) := (bind_pure _).symm
  show Runs lit n (sees .eof) _ _ _
  rw [hsees]
  exact runs_sees_ne heof (runs_pure rfl)

theorem runs_mkExpr_of {kind : ExprKind} {Q : Expr → Prop} (h : ∀ id, Q ⟨id, kind, span⟩) :
    Runs lit n (mkExpr kind span) ls ls Q := runs_freshId fun id => runs_pure (h id)

def Expr.Is (kind : ExprKind) (e : Expr) : Prop := e.shape = ⟨0, kind.shape, .zero⟩

theorem runs_mkExpr {kind kind' : ExprKind} (h : kind'.shape = kind.shape) :
    Runs lit n (mkExpr kind' span) ls ls (Expr.Is kind) := runs_mkExpr_of fun id => by rw [Expr.Is, Expr.shape, h]

theorem runs_mkPattern {kind kind' : PatternKind} (h : kind'.shape = kind.shape) :
    Runs lit n (mkPattern kind' span) ls ls fun p => p.shape = ⟨0, kind.shape, .zero⟩ :=
  runs_freshId fun id => runs_pure (by rw [Pattern.shape, h])

end Runs

/-! ### Repetition -/

section Repetition

variable {α γ : Type} {lit : Bool} {n : Nat} {item : Parser α} {print : α → List Lexeme} {f : α → γ} {as : List α}
  {close : Symbol} {before mid after rest : List Lexeme}

/-- The lexemes start an item of a list with this closing symbol. -/
def Opens (close : Symbol) (ls : List Lexeme) : Prop :=
  ∃ l more, ls = l :: more ∧ l ≠ .symbol close ∧ l ≠ .eof

/-- **Items between commas are read again.** -/
theorem runs_commaList (hitem : ∀ a ∈ as, ∀ more,
      Runs lit n item (print a ++ .symbol .comma :: more) (.symbol .comma :: more) fun a' => f a' = f a)
    (hopens : ∀ a ∈ as, Opens close (print a)) :
    Runs lit n (commaList close item) (Print.items print as ++ .symbol close :: rest) (.symbol close :: rest)
      fun as' => as'.map f = as.map f := by
  refine runs_fuel fun fuel hfuel => ?_
  induction as generalizing fuel with
  | nil =>
    cases fuel with
    | zero => simp at hfuel
    | succ fuel => exact runs_ended (runs_pure rfl)
  | cons a as ih =>
    cases fuel with
    | zero => simp at hfuel
    | succ fuel =>
      have hsplit : Print.items print (a :: as) ++ .symbol close :: rest =
          print a ++ .symbol .comma :: (Print.items print as ++ .symbol close :: rest) := by
        simp [Print.items]
      rw [hsplit] at hfuel ⊢
      obtain ⟨l, more, hl, hclose, heof⟩ := hopens a mem_cons_self
      have hread := hitem a mem_cons_self (Print.items print as ++ .symbol close :: rest)
      rw [hl, cons_append] at hread hfuel ⊢
      refine runs_goesOn hclose heof (hread.bind fun a' ha' => runs_accept ?_)
      simp only [length_cons, length_append] at hfuel
      refine (ih (fun b hb => hitem b (mem_cons_of_mem a hb))
        (fun b hb => hopens b (mem_cons_of_mem a hb)) fuel ?_).bind fun as' has' => runs_pure ?_
      · simp only [length_cons, length_append]
        omega
      · rw [map_cons, map_cons, ha', has']

/-! #### Items one after the other -/

variable {separators : List Symbol}

theorem runs_runRounds_nil {fuel : Nat} :
    Runs lit n (runRounds close separators item (fuel + 1)) (.symbol close :: rest) (.symbol close :: rest)
      (· = []) := runs_ended (runs_pure rfl)

theorem runs_runRounds_skip {separator : Symbol} {fuel : Nat} {Q : List α → Prop} (hmem : separator ∈ separators)
    (hclose : separator ≠ close) (h : Runs lit n (runRounds close separators item fuel) rest after Q) :
    Runs lit n (runRounds close separators item (fuel + 1)) (.symbol separator :: rest) after Q := by
  refine runs_goesOn (fun heq => hclose (Lexeme.symbol.inj heq)) (by simp) (runs_peek ?_)
  show Runs lit n (if separator ∈ separators then _ else _) _ _ _
  rw [if_pos hmem]
  exact runs_next fun _ => h

/-- The lexemes start an item and are no separators. -/
def Begins (close : Symbol) (separators : List Symbol) (ls : List Lexeme) : Prop :=
  ∃ l more, ls = l :: more ∧ l ≠ .symbol close ∧ l ≠ .eof ∧ ∀ s ∈ separators, l ≠ .symbol s

theorem runs_runRounds_cons {fuel : Nat} {R : α → Prop} {Q : List α → Prop}
    (hbegins : Begins close separators before) (hitem : Runs lit n item before mid R)
    (h : ∀ a, R a → Runs lit n (runRounds close separators item fuel) mid after fun as => Q (a :: as)) :
    Runs lit n (runRounds close separators item (fuel + 1)) before after Q := by
  obtain ⟨l, more, rfl, hclose, heof, hseparator⟩ := hbegins
  have hread : Runs lit n (do return (← item) :: (← runRounds close separators item fuel)) (l :: more) after Q :=
    hitem.bind fun a ha => (h a ha).bind fun as has => runs_pure has
  refine runs_goesOn hclose heof (runs_peek ?_)
  split
  · rename_i s
    rw [if_neg fun hmem => hseparator s hmem rfl]
    exact hread
  · exact hread

/-- **Items one after the other are read again**, each with the separators that follow it. -/
theorem runs_runList_of (follow : List Lexeme)
    (hfollow : ∀ {fuel ls Q}, Runs lit n (runRounds close separators item fuel) ls (.symbol close :: rest) Q →
      Runs lit n (runRounds close separators item (fuel + follow.length)) (follow ++ ls) (.symbol close :: rest) Q)
    (hitem : ∀ a ∈ as, ∀ more, Runs lit n item (print a ++ (follow ++ more)) (follow ++ more) fun a' => f a' = f a)
    (hbegins : ∀ a ∈ as, Begins close separators (print a)) :
    Runs lit n (runList close separators item) ((as.flatMap fun a => print a ++ follow) ++ .symbol close :: rest)
      (.symbol close :: rest) fun as' => as'.map f = as.map f := by
  refine runs_fuel fun fuel hfuel => ?_
  induction as generalizing fuel with
  | nil =>
    cases fuel with
    | zero => simp at hfuel
    | succ fuel => exact runs_runRounds_nil.imp fun _ h => h ▸ rfl
  | cons a as ih =>
    rw [flatMap_cons, append_assoc, append_assoc] at hfuel ⊢
    obtain ⟨l, more, hl, hstart⟩ := hbegins a mem_cons_self
    have hread := hitem a mem_cons_self ((as.flatMap fun a => print a ++ follow) ++ .symbol close :: rest)
    have hlength : 0 < (print a).length := by simp [hl]
    simp only [length_append] at hfuel
    -- One round for the item and one for each separator.
    obtain ⟨fuel, rfl⟩ : ∃ n, fuel = n + follow.length + 1 := ⟨fuel - follow.length - 1, by omega⟩
    refine runs_runRounds_cons ⟨l, more ++ _, by rw [hl]; rfl, hstart⟩ hread fun a' ha' => hfollow ?_
    refine (ih (fun b hb => hitem b (mem_cons_of_mem a hb))
      (fun b hb => hbegins b (mem_cons_of_mem a hb)) fuel ?_).imp fun as' has' => ?_
    · simp only [length_append]
      omega
    · rw [map_cons, map_cons, ha', has']

theorem runs_runList (hcomma : .comma ∈ separators) (hclose : .comma ≠ close) (hitem : ∀ a ∈ as, ∀ more,
      Runs lit n item (print a ++ .symbol .comma :: more) (.symbol .comma :: more) fun a' => f a' = f a)
    (hbegins : ∀ a ∈ as, Begins close separators (print a)) :
    Runs lit n (runList close separators item) (Print.items print as ++ .symbol close :: rest)
      (.symbol close :: rest) fun as' => as'.map f = as.map f :=
  runs_runList_of [.symbol .comma] (runs_runRounds_skip hcomma hclose) hitem hbegins

theorem runs_runList_plain (hitem : ∀ a ∈ as, ∀ more, Runs lit n item (print a ++ more) more fun a' => f a' = f a)
    (hbegins : ∀ a ∈ as, Begins close [] (print a)) :
    Runs lit n (runList close [] item) (as.flatMap print ++ .symbol close :: rest) (.symbol close :: rest)
      fun as' => as'.map f = as.map f := by
  have hprint : as.flatMap print = as.flatMap fun a => print a ++ [] := by simp only [append_nil]
  exact hprint ▸ runs_runList_of [] id hitem hbegins

/-! #### Paths -/

theorem runs_pathTail {what : String} (names : List String) {l : Lexeme} (hl : l ≠ .symbol .colonColon) :
    Runs lit n (pathTail what) (Print.segments names ++ l :: rest) (l :: rest) fun r => r.1 = names := by
  refine runs_fuel fun fuel hfuel => ?_
  induction names generalizing fuel with
  | nil =>
    cases fuel with
    | zero => simp at hfuel
    | succ fuel => exact runs_refuse hl (runs_taken fun _ => runs_pure rfl)
  | cons name names ih =>
    cases fuel with
    | zero => simp at hfuel
    | succ fuel =>
      refine runs_accept (runs_ident fun _ => ?_)
      refine (ih fuel ?_).bind fun r hr => runs_pure ?_
      · simp [Print.segments] at hfuel ⊢
        omega
      · rw [hr]

/-! #### Loops -/

variable {step : α → Parser (Round α)} {a : α} {fuel : Nat} {R Q : α → Prop}

theorem runs_rounds_stop (h : Runs lit n (step a) before after fun r => ∃ b, r = .stop b ∧ Q b) :
    Runs lit n (rounds step (fuel + 1) a) before after Q := by
  refine h.bind ?_
  rintro _ ⟨b, rfl, hb⟩
  exact runs_pure hb

theorem runs_rounds_again (h : Runs lit n (step a) before mid fun r => ∃ b, r = .again b ∧ R b)
    (hrest : ∀ b, R b → Runs lit n (rounds step fuel b) mid after Q) :
    Runs lit n (rounds step (fuel + 1) a) before after Q := by
  refine h.bind ?_
  rintro _ ⟨b, rfl, hb⟩
  exact hrest b hb

theorem runs_iterate (h : ∀ fuel, before.length < fuel → Runs lit n (rounds step fuel a) before after Q) :
    Runs lit n (iterate step a) before after Q := runs_fuel (k := fun fuel => rounds step fuel a) h

theorem runs_iterate_stop (hstop : Runs lit n (step a) after after fun r => r = .stop a) (ha : Q a) :
    Runs lit n (iterate step a) after after Q := by
  refine runs_iterate fun fuel hfuel => ?_
  obtain ⟨fuel, rfl⟩ := Nat.exists_eq_succ_of_ne_zero (Nat.ne_zero_of_lt hfuel)
  exact runs_rounds_stop (hstop.imp fun r hr => ⟨a, hr, ha⟩)

theorem runs_iterate_once (hbefore : before ≠ [])
    (hstep : Runs lit n (step a) before after fun r => ∃ b, r = .again b ∧ Q b)
    (hstop : ∀ b, Runs lit n (step b) after after fun r => r = .stop b) : Runs lit n (iterate step a) before after Q := by
  refine runs_iterate fun fuel hfuel => ?_
  have hpos := length_pos_iff.2 hbefore
  obtain ⟨fuel, rfl⟩ : ∃ more, fuel = more + 2 := ⟨fuel - 2, by omega⟩
  exact runs_rounds_again hstep fun b hb => runs_rounds_stop ((hstop b).imp fun r hr => ⟨b, hr, hb⟩)

end Repetition

/-! ### Patterns -/

/-- A pattern ends before this lexeme. -/
def endsPattern (l : Lexeme) : Bool := l == .symbol .comma || l == .symbol .fatArrow

theorem opens_int (close : Symbol) (hclose : close ≠ .minus) (value : Int) : Opens close (Print.int value) := by
  cases value with
  | ofNat n => exact ⟨_, _, rfl, by simp, by simp⟩
  | negSucc n => exact ⟨_, _, rfl, by simpa using hclose.symm, by simp⟩

theorem opens_pattern {close : Symbol} (hdot : close ≠ .dot) (hminus : close ≠ .minus) {p : Pattern}
    (h : p.Writable) : Opens close p.print := by
  obtain ⟨id, kind, span⟩ := p
  cases kind with
  | wildcard | bind name => exact ⟨_, _, rfl, by simp, by simp⟩
  | int value => exact opens_int close hminus value
  | bool value | str value => exact ⟨_, _, rfl, by simp, by simp⟩
  | variant enum name fields =>
    rcases enum with _ | path
    · exact ⟨_, _, rfl, by simpa using hdot.symm, by simp⟩
    · rcases path with _ | ⟨first, more⟩
      · exact absurd rfl h.1
      · exact ⟨_, _, rfl, by simp, by simp⟩

section Pattern

variable {sub : Parser Pattern} {lit : Bool} {n : Nat}

/-- The parser reads patterns again that are written with less than `n` lexemes to the end. -/
def ReadsPatterns (sub : Parser Pattern) (n : Nat) : Prop :=
  ∀ {lit : Bool} (p : Pattern) (l : Lexeme) (rest : List Lexeme), p.Writable → endsPattern l →
    Runs lit n sub (p.print ++ l :: rest) (l :: rest) fun p' => p'.shape = p.shape

variable {enum : Option (List String)}

theorem runs_variantRest (h : ReadsPatterns sub n) {name : String × Span} {start : Nat} {fields : List Pattern}
    {l : Lexeme} {rest : List Lexeme} (hw : ∀ p ∈ fields, p.Writable) (hl : endsPattern l) :
    Runs lit n (variantRest sub enum name start)
      (Print.enclosed .lParen .rParen (Pattern.printAll fields) ++ l :: rest) (l :: rest)
      fun p => p.shape = ⟨0, (PatternKind.variant enum name.1 fields).shape, .zero⟩ := by
  rcases fields with _ | ⟨first, more⟩
  · refine runs_refuse ?_ (runs_mkPattern rfl)
    rintro rfl
    cases hl
  · have hne : Pattern.printAll (first :: more) ≠ [] := by simp [Pattern.printAll]
    rw [Print.enclosed_append hne, Pattern.printAll_eq]
    refine runs_accept ((runs_commaList (f := Pattern.shape) ?_ ?_).bind fun fields' hfields => ?_)
    · exact fun p hp rest' => h p _ _ (hw p hp) rfl
    · exact fun p hp => opens_pattern (by decide) (by decide) (hw p hp)
    · refine runs_expect fun _ => runs_mkPattern ?_
      rw [PatternKind.shape, PatternKind.shape, Pattern.shapeAll_eq, Pattern.shapeAll_eq, hfields]

theorem runs_variant (h : ReadsPatterns sub n) {what name : String} {start : Nat} {fields : List Pattern}
    {l : Lexeme} {rest : List Lexeme} (hw : ∀ p ∈ fields, p.Writable) (hl : endsPattern l) :
    Runs lit n (do variantRest sub enum (← ident what) start)
      (.ident name :: (Print.enclosed .lParen .rParen (Pattern.printAll fields) ++ l :: rest)) (l :: rest)
      fun p => p.shape = ⟨0, (PatternKind.variant enum name fields).shape, .zero⟩ :=
  runs_ident fun _ => runs_variantRest h hw hl

/-- **A written pattern is read again.** -/
theorem ReadsPatterns.patternRule (h : ReadsPatterns sub n) : ReadsPatterns (patternRule sub) (n + 1) := by
  rintro lit ⟨id, kind, span⟩ l rest hw hl
  refine runs_here fun start => ?_
  cases kind with
  | wildcard => exact runs_peek (runs_next fun _ => runs_mkPattern rfl)
  | bind name =>
    refine runs_peek (runs_ident fun span' => ?_)
    have hbind : Runs lit (n + 1) (mkPattern (.bind name) span') (l :: rest) (l :: rest)
        fun p' => p'.shape = (Pattern.mk id (.bind name) span).shape := runs_mkPattern rfl
    rcases Bool.or_eq_true_iff.1 hl with hl | hl <;> cases eq_of_beq hl <;> exact runs_peek hbind
  | int value =>
    cases value with
    | ofNat n => exact runs_peek (runs_next fun _ => runs_mkPattern rfl)
    | negSucc n => exact runs_peek (runs_next fun _ => runs_peek (runs_next fun _ => runs_mkPattern rfl))
  | bool value => cases value <;> exact runs_peek (runs_next fun _ => runs_mkPattern rfl)
  | str value => exact runs_peek (runs_next fun _ => runs_mkPattern rfl)
  | variant enum name fields =>
    have hfields := (Pattern.allWritable_iff fields).1 hw.2
    rcases enum with _ | path
    · exact runs_peek (takes_next.first fun _ _ => runs_variant h hfields hl)
    · rcases path with _ | ⟨first, segments⟩
      · exact absurd rfl hw.1
      have hsplit : (Pattern.mk id (.variant (some (first :: segments)) name fields) span).print ++ l :: rest =
          .ident first :: (Print.segments segments ++ .symbol .dot :: .ident name ::
            (Print.enclosed .lParen .rParen (Pattern.printAll fields) ++ l :: rest)) := by
        simp [Pattern.print, PatternKind.print, Print.path]
      rw [hsplit]
      refine runs_peek (runs_ident_first fun _ => ?_)
      have htail : Runs lit n (do
          let tail ← pathTail "path segment"
          let _ ← expect (.symbol .dot)
          variantRest sub (some (first :: tail.1)) (← ident "variant name") start.start)
          (Print.segments segments ++ .symbol .dot :: .ident name ::
            (Print.enclosed .lParen .rParen (Pattern.printAll fields) ++ l :: rest)) (l :: rest)
          fun p' => p'.shape = ⟨0, (PatternKind.variant (some (first :: segments)) name fields).shape, .zero⟩ := by
        refine (runs_pathTail segments (by simp)).bind ?_
        rintro ⟨_, span'⟩ rfl
        exact runs_expect fun _ => runs_variant h hfields hl
      rcases segments with _ | ⟨second, segments⟩
      · exact runs_peek htail
      · exact runs_peek htail

theorem runs_pattern {p : Pattern} {l : Lexeme} {rest : List Lexeme} (hw : p.Writable) (hl : endsPattern l) :
    Runs lit n pattern (p.print ++ l :: rest) (l :: rest) fun p' => p'.shape = p.shape := by
  have hreads (depth : Nat) : ReadsPatterns (patternWithin depth) depth := by
    induction depth with
    | zero => exact fun p l rest _ _ c _ hlength => absurd hlength (Nat.not_lt_zero _)
    | succ depth ih => exact ih.patternRule
  intro c hc _
  refine hreads _ p l rest hw hl c hc ?_
  rw [← hc.2, Cursor.lexemes, length_map]
  omega

end Pattern

end Keel.Grammar
