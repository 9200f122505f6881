/-
# What parsers take and hand out

A parser looks at the tokens ahead, takes some of them, hands out node numbers, or stops.  It
never puts a token back or makes one up: what it leaves is a suffix of what it found.  Where it
ends or stops, struct literals are allowed as they were where it started.  Numbers
are handed out in the order in which nodes are finished, so an expression has a greater number
than its parts.  And parsers that may go as deep as there are tokens ahead do the same as parsers
that may go deeper, since a token is taken on the way down.

* `Reads`: what two parsers take that do the same, and what they yield and the number they leave
  if they do not fail.
* `Shows`: the same of one parser that hands out no numbers.
* `Fresh low high`: what has been read from the number `low` on, when `high` is the next one.  Its
  nodes have different numbers between the two, and no types have been put into it.
-/
import Keel.Grammar.Module
import Keel.Proofs.Syntax.Nodes
import Keel.Proofs.Syntax.Rendering

namespace Keel

open List

/-- Lexemes that may stand in a text: all signs and words, and some names, numbers and strings. -/
structure Vocabulary where
  Has : Lexeme → Prop
  symbol : ∀ sign, Has (.symbol sign)
  keyword : ∀ word, Has (.keyword word)

namespace Vocabulary

attribute [simp] symbol keyword

/-- What a text can hold. -/
def readable : Vocabulary :=
  ⟨Lexeme.Readable, fun sign => ⟨_, .symbol sign⟩, fun word => ⟨_, Scan.written_keyword word⟩⟩

def full : Vocabulary := ⟨fun _ => True, fun _ => trivial, fun _ => trivial⟩

/-- At most `k` tokens, of these lexemes up to the end of the text. -/
def Spells (V : Vocabulary) (k : Nat) (tokens : List Token) : Prop :=
  tokens.length ≤ k ∧ ∀ t ∈ tokens, t.lexeme = .eof ∨ V.Has t.lexeme

theorem Spells.suffix {V : Vocabulary} {k : Nat} {tokens rest : List Token} (h : V.Spells k tokens)
    (hs : rest <:+ tokens) : V.Spells k rest := ⟨Nat.le_trans hs.length_le h.1, fun t ht => h.2 t (hs.subset ht)⟩

end Vocabulary

namespace Grammar

/-! ### Parsers -/

/-- The cursor at which a parser ends, or stops. -/
def ending {α : Type} : EStateM.Result SyntaxError Cursor α → Cursor
  | .ok _ c | .error _ c => c

/-- A cursor and a later one: tokens were taken, and struct literals are allowed as before. -/
structure Cursor.Onward (c c' : Cursor) : Prop where
  suffix : c'.rest <:+ c.rest
  literals : c'.literals = c.literals

theorem Cursor.Onward.refl (c : Cursor) : c.Onward c := ⟨suffix_refl _, rfl⟩

theorem Cursor.Onward.trans {c c₁ c₂ : Cursor} (h : c.Onward c₁) (h' : c₁.Onward c₂) : c.Onward c₂ :=
  ⟨h'.suffix.trans h.suffix, h'.literals.trans h.literals⟩

/-- Started at the number `n` with at most `k` tokens ahead, both parsers do the same: they take some
of the tokens, and fail or end with a value and a next number that are as said. -/
def Reads {α : Type} (V : Vocabulary) (k n : Nat) (p p' : Parser α) (Q : α → Nat → Prop) : Prop :=
  ∀ c, c.nextId = n → V.Spells k c.rest →
    p c = p' c ∧ c.Onward (ending (p c)) ∧ ∀ a c', p c = .ok a c' → Q a c'.nextId

/-- The parser hands out no numbers, and its value is as said. -/
def Shows {α : Type} (V : Vocabulary) (p : Parser α) (R : α → Prop) : Prop :=
  ∀ k n, Reads V k n p p fun a n' => R a ∧ n' = n

/-- The parser hands out no numbers. -/
abbrev Quiet {α : Type} (V : Vocabulary) (p : Parser α) : Prop := Shows V p fun _ => True

def Eats {α : Type} (p : Parser α) : Prop := ∀ c a c', p c = .ok a c' → c'.rest.length ≤ c.rest.length - 1

variable {V : Vocabulary} {k : Nat}

section Reads

variable {α β : Type} {n m : Nat} {p p' q q' : Parser α} {f f' : α → Parser β} {R : α → Nat → Prop}
  {Q : β → Nat → Prop} {S : α → Prop} {T : β → Prop}

theorem reads_pure {a : α} (h : R a n) : Reads V k n (pure a) (pure a) R := by
  rintro c rfl -
  refine ⟨rfl, .refl c, ?_⟩
  rintro _ _ ⟨⟩
  exact h

theorem reads_throw (e : SyntaxError) : Reads V k n (throw e : Parser α) (throw e) R := fun _ _ _ =>
  ⟨rfl, .refl _, fun _ _ h => nomatch h⟩

theorem Reads.bind_of (hp : Reads V k n p p' R)
    (hleft : ∀ c a c', V.Spells k c.rest → c'.rest <:+ c.rest → p c = .ok a c' → V.Spells m c'.rest)
    (hf : ∀ a n', R a n' → Reads V m n' (f a) (f' a) Q) : Reads V k n (p >>= f) (p' >>= f') Q := by
  intro c hc hspells
  obtain ⟨heq, honward, hvalue⟩ := hp c hc hspells
  change EStateM.bind p f c = EStateM.bind p' f' c ∧ c.Onward (ending (EStateM.bind p f c)) ∧
    ∀ b c', EStateM.bind p f c = .ok b c' → _
  unfold EStateM.bind
  rw [← heq]
  cases hrun : p c with
  | ok a c₁ =>
    rw [hrun] at honward
    obtain ⟨hsame, hrest, hresult⟩ := hf a _ (hvalue a c₁ hrun) c₁ rfl (hleft c a c₁ hspells honward.suffix hrun)
    exact ⟨hsame, honward.trans hrest, hresult⟩
  | error e c₁ =>
    rw [hrun] at honward
    exact ⟨rfl, honward, fun _ _ h => nomatch h⟩

/-- **What is allowed inside is taken back**, also where the parser fails. -/
theorem Reads.withLiterals (hp : Reads V k n p p' R) (literals : Bool) :
    Reads V k n (withLiterals literals p) (withLiterals literals p') R := by
  intro c hc hspells
  obtain ⟨heq, honward, hvalue⟩ := hp { c with literals := literals } hc hspells
  unfold Grammar.withLiterals
  rw [← heq]
  cases hrun : p { c with literals := literals } with
  | ok a c₁ =>
    rw [hrun] at honward
    refine ⟨rfl, ⟨honward.suffix, rfl⟩, ?_⟩
    rintro _ _ ⟨⟩
    exact hvalue a c₁ hrun
  | error e c₁ =>
    rw [hrun] at honward
    exact ⟨rfl, ⟨honward.suffix, rfl⟩, fun _ _ h => nomatch h⟩

theorem Reads.bind (hp : Reads V k n p p' R) (hf : ∀ a n', R a n' → Reads V k n' (f a) (f' a) Q) :
    Reads V k n (p >>= f) (p' >>= f') Q :=
  hp.bind_of (fun _ _ _ hspells hsuffix _ => hspells.suffix hsuffix) hf

theorem Reads.map (hp : Reads V k n p p' R) {f : α → β} (hf : ∀ a n', R a n' → Q (f a) n') :
    Reads V k n (f <$> p) (f <$> p') Q := by
  rw [map_eq_pure_bind, map_eq_pure_bind]
  exact hp.bind fun a n' ha => reads_pure (hf a n' ha)

theorem Reads.ite_bind {b : Bool} (hp : Reads V k n p p' R) (hq : Reads V k n q q' R)
    (hf : ∀ a n', R a n' → Reads V k n' (f a) (f' a) Q) :
    Reads V k n (if b = true then p >>= f else q >>= f) (if b = true then p' >>= f' else q' >>= f') Q := by
  split
  · exact hp.bind hf
  · exact hq.bind hf

theorem Reads.imp {R' : α → Nat → Prop} (hp : Reads V k n p p' R) (h : ∀ a n', R a n' → R' a n') :
    Reads V k n p p' R' := fun c hc hspells =>
  (hp c hc hspells).imp_right fun hp => hp.imp_right fun hvalue a c' hrun => h a _ (hvalue a c' hrun)

theorem Reads.mono (hp : Reads V k n p p' R) (hle : m ≤ k) : Reads V m n p p' R := fun c hc hm =>
  hp c hc (hm.imp_left fun hm => Nat.le_trans hm hle)

theorem shows_pure {a : α} (h : S a) : Shows V (pure a) S := fun _ _ => reads_pure ⟨h, rfl⟩

theorem Shows.reads_bind (hp : Shows V p S) (hf : ∀ a, S a → Reads V k n (f a) (f' a) Q) :
    Reads V k n (p >>= f) (p >>= f') Q := (hp k n).bind fun a _ ⟨ha, hn⟩ => hn ▸ hf a ha

theorem Shows.first (hp : Shows V p S) (heats : Eats p) (hf : ∀ a, S a → Reads V (k - 1) n (f a) (f' a) Q) :
    Reads V k n (p >>= f) (p >>= f') Q :=
  (hp k n).bind_of (fun c a c' hspells hsuffix hrun =>
    ⟨Nat.le_trans (heats c a c' hrun) (Nat.sub_le_sub_right hspells.1 1), (hspells.suffix hsuffix).2⟩)
    fun a _ ⟨ha, hn⟩ => hn ▸ hf a ha

theorem Shows.bind {f : α → Parser β} (hp : Shows V p S) (hf : ∀ a, S a → Shows V (f a) T) :
    Shows V (p >>= f) T := fun _ _ => hp.reads_bind fun a ha => hf a ha _ _

theorem Shows.map (hp : Shows V p S) {f : α → β} (hf : ∀ a, S a → T (f a)) : Shows V (f <$> p) T := fun k n =>
  (hp k n).map fun a _ ha => ha.imp_left (hf a)

theorem Shows.quiet (hp : Shows V p S) : Quiet V p := fun k n => (hp k n).imp fun _ _ h => ⟨trivial, h.2⟩

theorem Quiet.reads_bind (hp : Quiet V p) (hf : ∀ a, Reads V k n (f a) (f' a) Q) :
    Reads V k n (p >>= f) (p >>= f') Q := Shows.reads_bind hp fun a _ => hf a

theorem Quiet.bind {f : α → Parser β} (hp : Quiet V p) (hf : ∀ a, Shows V (f a) T) : Shows V (p >>= f) T :=
  Shows.bind hp fun a _ => hf a

end Reads

/-! ### Tokens -/

section Tokens

variable {α : Type} {n : Nat} {R : α → Nat → Prop} {l : Lexeme}

theorem quiet_get : Quiet V (get : Parser Cursor) := by
  rintro _ _ c rfl -
  refine ⟨rfl, .refl c, ?_⟩
  rintro _ _ ⟨⟩
  exact ⟨trivial, rfl⟩

theorem quiet_literalsAllowed : Quiet V literalsAllowed := quiet_get.bind fun _ => shows_pure trivial

theorem quiet_here : Quiet V here := quiet_get.bind fun _ => shows_pure trivial

theorem quiet_taken : Quiet V taken := quiet_get.bind fun _ => shows_pure trivial

theorem shows_peek : Shows V peek fun l => l = .eof ∨ V.Has l := by
  rintro _ _ c rfl hc
  refine ⟨rfl, .refl c, ?_⟩
  rintro _ _ ⟨⟩
  refine ⟨?_, rfl⟩
  unfold Cursor.token
  split
  · exact .inl rfl
  · next t rest heq => exact hc.2 t (by rw [heq]; exact mem_cons_self)

theorem quiet_peek : Quiet V peek := shows_peek.quiet

theorem quiet_sees (l : Lexeme) : Quiet V (sees l) := quiet_peek.bind fun _ => shows_pure trivial

theorem Cursor.nextId_advance (c : Cursor) : c.advance.nextId = c.nextId := by
  unfold Cursor.advance
  split <;> rfl

theorem Cursor.rest_advance (c : Cursor) : c.advance.rest = c.rest.tail := by
  unfold Cursor.advance
  split <;> simp [*]

theorem Cursor.onward_advance (c : Cursor) : c.Onward c.advance := by
  refine ⟨c.rest_advance ▸ tail_suffix _, ?_⟩
  unfold Cursor.advance
  split <;> rfl

theorem quiet_next : Quiet V next := by
  refine Quiet.bind ?_ fun _ => quiet_taken
  rintro _ _ c rfl -
  refine ⟨rfl, c.onward_advance, ?_⟩
  rintro _ _ ⟨⟩
  exact ⟨trivial, c.nextId_advance⟩

theorem eats_next : Eats next := by
  rintro c _ _ ⟨⟩
  exact Nat.le_of_eq (by rw [c.rest_advance, length_tail])

theorem quiet_accept (l : Lexeme) : Quiet V (accept l) := by
  refine (quiet_sees l).bind fun seen => ?_
  cases seen
  · exact shows_pure trivial
  · exact quiet_next.bind fun _ => shows_pure trivial

theorem reads_fail (problem : SyntaxProblem) : Reads V k n (fail problem) (fail problem) R :=
  quiet_here.reads_bind fun _ => reads_throw _

theorem reads_failExpected (what : String) : Reads V k n (failExpected what) (failExpected what) R :=
  quiet_peek.reads_bind fun _ => reads_fail _

theorem quiet_expect (l : Lexeme) : Quiet V (expect l) := by
  refine (quiet_sees l).bind fun seen => ?_
  cases seen
  · exact fun _ _ => reads_failExpected _
  · exact quiet_next

theorem eats_expect : Eats (expect l) := by
  intro c a c' h
  change (if (c.token.lexeme == l) = true then next else failExpected l.describe) c = .ok a c' at h
  split at h
  · exact eats_next c a c' h
  · cases h

theorem shows_ident (what : String) : Shows V (ident what) fun r => V.Has (.ident r.1) := by
  refine shows_peek.bind fun l hl => ?_
  split
  · exact quiet_next.bind fun _ => shows_pure (hl.resolve_left (by simp))
  · exact fun _ _ => reads_failExpected _

theorem Eats.peek {f : Lexeme → Parser α} (h : ∀ l, Eats (f l)) : Eats (peek >>= f) :=
  fun c a c' hrun => h c.token.lexeme c a c' hrun

theorem eats_ident {what : String} : Eats (ident what) := by
  refine .peek fun l c a c' h => ?_
  cases l with
  | ident name =>
    cases h
    exact eats_next c _ _ rfl
  | _ => cases h

theorem reads_accept_first {f f' : Bool → Parser α} (htrue : Reads V (k - 1) n (f true) (f' true) R)
    (hfalse : Reads V k n (f false) (f' false) R) : Reads V k n (accept l >>= f) (accept l >>= f') R := by
  rw [accept, bind_assoc, bind_assoc]
  refine (quiet_sees l).reads_bind fun seen => ?_
  cases seen
  · exact hfalse
  · exact quiet_next.first eats_next fun _ _ => htrue

theorem quiet_ended (close : Symbol) : Quiet V (ended close) := by
  refine (quiet_sees _).bind fun seen => ?_
  cases seen
  · exact quiet_sees _
  · exact shows_pure trivial

theorem shows_pathTail (what : String) : Shows V (pathTail what) fun r => ∀ name ∈ r.1, V.Has (.ident name) := by
  refine quiet_get.bind fun c => ?_
  generalize c.rest.length + 1 = fuel
  induction fuel with
  | zero => exact quiet_taken.bind fun _ => shows_pure (forall_mem_nil _)
  | succ fuel ih =>
    refine (quiet_accept _).bind fun more => ?_
    cases more
    · exact quiet_taken.bind fun _ => shows_pure (forall_mem_nil _)
    · exact (shows_ident what).bind fun first hfirst => ih.bind fun rest hrest =>
        shows_pure (forall_mem_cons.2 ⟨hfirst, hrest⟩)

theorem reads_freshId : Reads V k n freshId freshId fun id n' => id = n ∧ n' = n + 1 := by
  rintro c rfl -
  refine ⟨rfl, ⟨suffix_refl _, rfl⟩, ?_⟩
  rintro _ _ ⟨⟩
  exact ⟨rfl, rfl⟩

end Tokens

/-! #### Going on

What follows a step that hands out no numbers. -/

section Steps

variable {α : Type} {n : Nat} {R : α → Nat → Prop} {l : Lexeme}

theorem reads_next {f f' : Span → Parser α} (h : ∀ span, Reads V k n (f span) (f' span) R) :
    Reads V k n (next >>= f) (next >>= f') R := quiet_next.reads_bind h

theorem reads_accept {f f' : Bool → Parser α} (h : ∀ b, Reads V k n (f b) (f' b) R) :
    Reads V k n (accept l >>= f) (accept l >>= f') R := (quiet_accept l).reads_bind h

theorem reads_expect {f f' : Span → Parser α} (h : ∀ span, Reads V k n (f span) (f' span) R) :
    Reads V k n (expect l >>= f) (expect l >>= f') R := (quiet_expect l).reads_bind h

theorem reads_ident {what : String} {f f' : String × Span → Parser α}
    (h : ∀ r, V.Has (.ident r.1) → Reads V k n (f r) (f' r) R) :
    Reads V k n (ident what >>= f) (ident what >>= f') R := (shows_ident what).reads_bind h

end Steps

/-! ### What has been read -/

/-- The nodes have numbers of their own from `low` up to `high`, and no types have been
found yet. -/
structure Fresh (low high : Nat) (nodes : List Node) (types : List Ty) : Prop where
  numbered : Numbered low high nodes
  types_eq : types = []

namespace Fresh

variable {low mid high : Nat} {nodes more : List Node} {types others : List Ty}

theorem nil : Fresh low low [] [] := ⟨.nil (Nat.le_refl low), rfl⟩

theorem append (h : Fresh low mid nodes types) (h' : Fresh mid high more others) :
    Fresh low high (nodes ++ more) (types ++ others) :=
  ⟨h.numbered.append h'.numbered, by rw [h.types_eq, h'.types_eq, append_nil]⟩

/-- A node that takes the next number after its parts. -/
theorem node (h : Fresh low mid nodes types) {node : Node} (hid : node.id = mid) :
    Fresh low (mid + 1) (node :: nodes) types := ⟨h.numbered.cons_last hid, h.types_eq⟩

theorem after (h : Fresh mid high nodes types) (hle : low ≤ mid) : Fresh low high nodes types :=
  ⟨h.numbered.mono hle, h.types_eq⟩

/-- Nodes that are dropped leave their numbers unused. -/
theorem drop (h : Fresh low high nodes types) : Fresh low high [] types :=
  ⟨.nil h.numbered.le, h.types_eq⟩

end Fresh

/-- What the parsers yield is fresh, and as said. -/
def ReadsFresh {α : Type} (V : Vocabulary) (k : Nat) (nodes : α → List Node) (types : α → List Ty)
    (fit : α → Prop) (p p' : Parser α) : Prop :=
  ∀ n, Reads V k n p p' fun a n' => Fresh n n' (nodes a) (types a) ∧ fit a

section Repetition

variable {α : Type} {nodes : α → List Node} {types : α → List Ty} {fit : α → Prop} {item item' : Parser α}

variable (close : Symbol)

/-- What the items between commas do one after the other. -/
theorem reads_commaList {R : Nat → α → Nat → Prop} {Q : Nat → List α → Nat → Prop}
    (nil : ∀ n, Q n [] n) (cons : ∀ {n m l a as}, R n a m → Q m as l → Q n (a :: as) l)
    (h : ∀ n, Reads V k n item item' (R n)) (n : Nat) :
    Reads V k n (commaList close item) (commaList close item') (Q n) := by
  refine quiet_get.reads_bind fun c => ?_
  generalize c.rest.length + 1 = fuel
  induction fuel generalizing n with
  | zero => exact reads_pure (nil n)
  | succ fuel ih =>
    refine (quiet_ended close).reads_bind fun done => ?_
    cases done
    · refine (h n).bind fun a n₁ ha => reads_accept fun more => ?_
      cases more
      · exact reads_pure (cons ha (nil n₁))
      · exact (ih n₁).bind fun as n₂ has => reads_pure (cons ha has)
    · exact reads_pure (nil n)

theorem readsFresh_commaList (h : ReadsFresh V k nodes types fit item item') :
    ReadsFresh V k (·.flatMap nodes) (·.flatMap types) (∀ a ∈ ·, fit a) (commaList close item)
      (commaList close item') :=
  reads_commaList close (fun _ => ⟨.nil, forall_mem_nil _⟩)
    (fun ha has => ⟨ha.1.append has.1, forall_mem_cons.2 ⟨ha.2, has.2⟩⟩) h

theorem shows_commaList (h : Shows V item fit) :
    Shows V (commaList close item) (∀ a ∈ ·, fit a) := fun k =>
  reads_commaList close (fun _ => ⟨forall_mem_nil _, rfl⟩)
    (fun ha has => ⟨forall_mem_cons.2 ⟨ha.1, has.1⟩, has.2.trans ha.2⟩) (h k)

theorem readsFresh_runList (separators : List Symbol)
    (h : ReadsFresh V k nodes types fit item item') :
    ReadsFresh V k (·.flatMap nodes) (·.flatMap types) (∀ a ∈ ·, fit a) (runList close separators item)
      (runList close separators item') := by
  refine fun n => quiet_get.reads_bind fun c => ?_
  generalize c.rest.length + 1 = fuel
  induction fuel generalizing n with
  | zero => exact reads_pure ⟨.nil, forall_mem_nil _⟩
  | succ fuel ih =>
    have hitem : Reads V k n (do return (← item) :: (← runRounds close separators item fuel))
        (do return (← item') :: (← runRounds close separators item' fuel))
        fun as n' => Fresh n n' (as.flatMap nodes) (as.flatMap types) ∧ ∀ a ∈ as, fit a :=
      (h n).bind fun a n₁ ha => (ih n₁).bind fun as n₂ has =>
        reads_pure ⟨ha.1.append has.1, forall_mem_cons.2 ⟨ha.2, has.2⟩⟩
    refine (quiet_ended close).reads_bind fun done => ?_
    cases done
    · refine quiet_peek.reads_bind fun l => ?_
      split
      · split
        · exact reads_next fun _ => ih n
        · exact hitem
      · exact hitem
    · exact reads_pure ⟨.nil, forall_mem_nil _⟩

def Round.value : Round α → α
  | .again a | .stop a => a

theorem reads_iterate {step step' : α → Parser (Round α)} {I : α → Nat → Prop}
    (hstep : ∀ a n, I a n → Reads V k n (step a) (step' a) fun r n' => I r.value n') {a : α} {n : Nat}
    (ha : I a n) : Reads V k n (iterate step a) (iterate step' a) I := by
  refine quiet_get.reads_bind fun c => ?_
  generalize c.rest.length + 1 = fuel
  induction fuel generalizing a n with
  | zero => exact reads_pure ha
  | succ fuel ih =>
    refine (hstep a n ha).bind fun r n₁ hr => ?_
    cases r with
    | again b => exact ih hr
    | stop b => exact reads_pure hr

end Repetition

end Grammar
end Keel
