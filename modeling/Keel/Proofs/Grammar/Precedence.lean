/-
# How operators group

A row of names with binary operators between them is read to its end, and in the tree the tighter
operators stand below the looser ones, those of one level grouped to the left (`exists_grouped`).
-/
import Keel.Proofs.Grammar.Bodies
import Keel.Proofs.Syntax.Tokens
import Mathlib.Data.List.TakeWhile

namespace Keel

open List Scan

/-- The signs of the binary operators, from the loosest to the tightest. -/
def BinaryOp.levels : List (List String) :=
  [["||"], ["&&"], ["==", "!="], ["<", "<=", ">", ">="], ["|"], ["^"], ["&"], ["<<", ">>"], ["+", "-"],
    ["*", "/", "%"]]

def BinaryOp.level (op : BinaryOp) : Nat := levels.findIdx (·.contains op.symbol)

/-- The tree read in order is the name followed by these operators and names.  What stands on the
left of an operator binds at least as tight, and what stands on its right binds tighter. -/
inductive Groups : Expr → String → List (BinaryOp × String) → Prop where
  | name {id : NodeId} {name : String} {span : Span} : Groups ⟨id, .path ⟨[name], []⟩, span⟩ name []
  | binary {id : NodeId} {op : BinaryOp} {left right : Expr} {span : Span} {a b : String}
      {lefts rights : List (BinaryOp × String)} : Groups left a lefts → Groups right b rights →
      (∀ p ∈ lefts, op.level ≤ p.1.level) → (∀ p ∈ rights, op.level < p.1.level) →
      Groups ⟨id, .binary op left right, span⟩ a (lefts ++ (op, b) :: rights)

/-- A row of names and operators, piece by piece. -/
def rowPieces (first : String) (links : List (BinaryOp × String)) : List (List Char) :=
  first.toList :: links.flatMap fun p => [p.1.symbol.toList, p.2.toList]

namespace Grammar

def linkLexemes (links : List (BinaryOp × String)) : List Lexeme :=
  links.flatMap fun p => [p.1.lexeme, .ident p.2]

theorem precedence_eq (op : BinaryOp) : precedence op = op.level + 1 := by
  rcases op with op | op | op <;> cases op <;> decide

theorem lexeme_eq (op : BinaryOp) : ∃ sign : Symbol, op.lexeme = .symbol sign ∧ sign.text = op.symbol := by
  rcases op with op | op | op <;> cases op <;> exact ⟨_, rfl, rfl⟩

theorem binaryOp?_lexeme (op : BinaryOp) : binaryOp? op.lexeme = some op := by
  rcases op with op | op | op <;> cases op <;> rfl

def endsRow (l : Lexeme) : Bool := endsExpr l && endsType l && l != .symbol .lBrace

def bindsAt (least : Nat) (p : BinaryOp × String) : Bool := least ≤ precedence p.1

theorem lt_of_mem_takeWhile {op : BinaryOp} {links : List (BinaryOp × String)} {q : BinaryOp × String}
    (hq : q ∈ links.takeWhile (bindsAt (precedence op + 1))) : precedence op < precedence q.1 := by
  have hbinds := mem_takeWhile_imp hq
  exact of_decide_eq_true hbinds

theorem le_of_mem_head?_dropWhile {op : BinaryOp} {links : List (BinaryOp × String)} {p : BinaryOp × String}
    (hp : p ∈ (links.dropWhile (bindsAt (precedence op + 1))).head?) : precedence p.1 ≤ precedence op := by
  have hbinds := List.head?_dropWhile_not (bindsAt (precedence op + 1)) links
  rw [hp] at hbinds
  exact Nat.not_lt.1 (of_decide_eq_false hbinds)

/-- The parser takes the operators that the bound lets through, up to the first other one. -/
def GroupsRows (n : Nat) (sub : Level) : Prop :=
  ∀ {lit : Bool} least first links ending, Ahead endsRow ending →
    Runs lit n (sub.binary least) (.ident first :: (linkLexemes links ++ ending))
      (linkLexemes (links.dropWhile (bindsAt least)) ++ ending)
      fun e => Groups e first (links.takeWhile (bindsAt least))

section Rows

variable {n least : Nat} {sub : Level} {lit : Bool} {left : Expr} {first b : String} {op : BinaryOp}
  {done links : List (BinaryOp × String)} {ending : List Lexeme} (hends : Ahead endsRow ending)

include hends

/-- After a name comes an operator or the end, so the name stands alone. -/
theorem ahead_links :
    Ahead (fun l => endsCast l && endsType l && l != .symbol .lBrace) (linkLexemes links ++ ending) := by
  rcases links with _ | ⟨⟨op, b⟩, links⟩
  · refine hends.imp fun l hl => ?_
    simp only [endsRow, endsExpr, Bool.and_eq_true] at hl ⊢
    exact ⟨⟨hl.1.1.1, hl.1.2⟩, hl.2⟩
  · refine ⟨op.lexeme, .ident b :: (linkLexemes links ++ ending), rfl, ?_⟩
    rcases op with op | op | op <;> cases op <;> rfl

theorem runs_binaryStep_stop (hstop : ∀ p ∈ links.head?, precedence p.1 < least) :
    Runs lit n (binaryStep sub least left) (linkLexemes links ++ ending) (linkLexemes links ++ ending)
      fun r => r = .stop left := by
  rcases links with _ | ⟨⟨op, b⟩, links⟩
  · obtain ⟨l, more, rfl, hl⟩ := hends
    simp only [endsRow, endsExpr, Bool.and_eq_true, Option.isNone_iff_eq_none] at hl
    refine runs_peek ?_
    rw [hl.1.1.2]
    exact runs_pure rfl
  · refine runs_peek ?_
    rw [binaryOp?_lexeme]
    show Runs lit n (if precedence op < least then _ else _) _ _ _
    rw [if_pos (hstop (op, b) rfl)]
    exact runs_pure rfl

theorem runs_binaryStep_again (hsub : GroupsRows n sub) (hop : least ≤ precedence op)
    (hleft : Groups left first done) (htight : ∀ q ∈ done, precedence op ≤ precedence q.1) :
    Runs lit (n + 1) (binaryStep sub least left) (linkLexemes ((op, b) :: links) ++ ending)
      (linkLexemes (links.dropWhile (bindsAt (precedence op + 1))) ++ ending)
      fun r => ∃ e, r = .again e ∧
        Groups e first (done ++ (op, b) :: links.takeWhile (bindsAt (precedence op + 1))) := by
  refine runs_peek ?_
  rw [binaryOp?_lexeme]
  show Runs lit (n + 1) (if precedence op < least then _ else _) _ _ _
  rw [if_neg (Nat.not_lt.2 hop)]
  refine takes_next.first fun _ _ => (hsub _ b links ending hends).bind fun right hright => ?_
  refine (runs_mkExpr_of fun id => ?_).bind fun e he => runs_pure ⟨e, rfl, he⟩
  refine .binary hleft hright (fun q hq => ?_) fun q hq => ?_
  · have hle := htight q hq
    rw [precedence_eq, precedence_eq] at hle
    exact Nat.le_of_succ_le_succ hle
  · have hlt := lt_of_mem_takeWhile hq
    rw [precedence_eq, precedence_eq] at hlt
    exact Nat.lt_of_succ_lt_succ hlt

/-- The loop takes the operators that the bound lets through.  All that was taken binds at least as
tight as the operator ahead, so this one may stand above it. -/
theorem runs_binaryRounds (hsub : GroupsRows n sub) {fuel : Nat} (hleft : Groups left first done)
    (htight : ∀ p ∈ links.head?, least ≤ precedence p.1 → ∀ q ∈ done, precedence p.1 ≤ precedence q.1)
    (hfuel : links.length < fuel) :
    Runs lit (n + 1) (rounds (binaryStep sub least) fuel left) (linkLexemes links ++ ending)
      (linkLexemes (links.dropWhile (bindsAt least)) ++ ending)
      fun e => Groups e first (done ++ links.takeWhile (bindsAt least)) := by
  induction fuel generalizing left done links with
  | zero => omega
  | succ fuel ih =>
    have hstop (h : links.takeWhile (bindsAt least) = [] ∧ links.dropWhile (bindsAt least) = links)
        (hhead : ∀ p ∈ links.head?, precedence p.1 < least) :
        Runs lit (n + 1) (rounds (binaryStep sub least) (fuel + 1) left) (linkLexemes links ++ ending)
          (linkLexemes (links.dropWhile (bindsAt least)) ++ ending)
          fun e => Groups e first (done ++ links.takeWhile (bindsAt least)) := by
      rw [h.1, h.2, append_nil]
      exact runs_rounds_stop ((runs_binaryStep_stop hends hhead).imp fun r hr => ⟨left, hr, hleft⟩)
    rcases links with _ | ⟨⟨op, b⟩, links⟩
    · exact hstop ⟨rfl, rfl⟩ (by simp)
    by_cases hop : least ≤ precedence op
    · -- What binds tighter than this operator is let through as well, and the rest is for the next rounds.
      let tight := links.takeWhile (bindsAt (precedence op + 1))
      let others := links.dropWhile (bindsAt (precedence op + 1))
      have hlinks : tight ++ others = links := takeWhile_append_dropWhile
      have hpos (q : BinaryOp × String) (hq : q ∈ (op, b) :: tight) : bindsAt least q = true := by
        rcases mem_cons.1 hq with rfl | hq
        · exact decide_eq_true hop
        · exact decide_eq_true (Nat.le_trans hop (Nat.le_of_lt (lt_of_mem_takeWhile hq)))
      have hsplit : (op, b) :: links = ((op, b) :: tight) ++ others := congrArg _ hlinks.symm
      have htake : ((op, b) :: links).takeWhile (bindsAt least) =
          ((op, b) :: tight) ++ others.takeWhile (bindsAt least) := by
        rw [hsplit, takeWhile_append_of_pos hpos]
      have hdrop : ((op, b) :: links).dropWhile (bindsAt least) = others.dropWhile (bindsAt least) := by
        rw [hsplit, dropWhile_append_of_pos hpos]
      rw [htake, hdrop, ← append_assoc]
      refine runs_rounds_again (runs_binaryStep_again hends hsub hop hleft (htight (op, b) rfl hop))
        fun e he => ih he (fun p hp _ q hq => ?_) ?_
      · have hhead : precedence p.1 ≤ precedence op := le_of_mem_head?_dropWhile hp
        rcases mem_append.1 hq with hq | hq
        · exact Nat.le_trans hhead (htight (op, b) rfl hop q hq)
        · rcases mem_cons.1 hq with rfl | hq
          · exact hhead
          · exact Nat.le_trans hhead (Nat.le_of_lt (lt_of_mem_takeWhile hq))
      · exact Nat.lt_of_le_of_lt (length_dropWhile_le _ _) (Nat.lt_of_succ_lt_succ hfuel)
    · have hneg : ¬bindsAt least (op, b) = true := fun h => hop (of_decide_eq_true h)
      refine hstop ⟨takeWhile_cons_of_neg hneg, dropWhile_cons_of_neg hneg⟩ ?_
      rintro _ ⟨⟩
      exact Nat.not_le.1 hop

theorem runs_castRule_name (hsub : sub.Faithful n) :
    Runs lit (n + 1) (castRule sub) (.ident first :: (linkLexemes links ++ ending)) (linkLexemes links ++ ending)
      fun e => Groups e first [] := by
  have hahead : Ahead _ (linkLexemes links ++ ending) := ahead_links hends
  have hcast : Ahead endsCast (linkLexemes links ++ ending) :=
    hahead.imp fun l hl => (Bool.and_eq_true_iff.1 (Bool.and_eq_true_iff.1 hl).1).1
  have hname : Runs lit (n + 1) (primaryRule sub) (.ident first :: (linkLexemes links ++ ending)) _ _ :=
    runs_primary_name hsub (hahead.imp fun l hl => by
      simp only [Bool.and_eq_true] at hl ⊢
      exact ⟨hl.1.2, hl.2⟩)
  refine runs_cast_of_unary (runs_unary_of_postfixRule (runs_postfix_of_primary (hname.imp fun e he => ?_)
    hcast.endsPostfix) ⟨_, _, rfl, rfl⟩) hcast
  obtain ⟨id, span, rfl⟩ := he
  exact .name

end Rows

/-- **Rows of names and operators are grouped** at every bound. -/
theorem groupsRows_within (depth : Nat) : GroupsRows depth (Level.within depth) := by
  induction depth with
  | zero => exact fun _ _ _ _ _ c _ hn => absurd hn (Nat.not_lt_zero _)
  | succ depth ih =>
    intro lit least first links ending hends
    refine (runs_castRule_name hends (Level.faithful_within depth)).bind fun left hleft => ?_
    refine runs_iterate fun fuel hfuel => runs_binaryRounds hends ih hleft (by simp) ?_
    have hle : links.length ≤ (linkLexemes links).length := by
      rw [linkLexemes, length_flatMap]
      simp
      omega
    rw [length_append] at hfuel
    omega

theorem written_rowPieces {first : String} {links : List (BinaryOp × String)}
    (hnames : ∀ name ∈ first :: links.map Prod.snd, (Lexeme.ident name).Proper) :
    List.Forall₂ Written (.ident first :: linkLexemes links) (rowPieces first links) := by
  obtain ⟨hfirst, hlinks⟩ := forall_mem_cons.1 hnames
  refine .cons (written_of_spelled hfirst (.ident first)) ?_
  clear hnames
  induction links with
  | nil => exact .nil
  | cons p links ih =>
    obtain ⟨hp, hlinks⟩ := forall_mem_cons.1 hlinks
    obtain ⟨sign, hlexeme, htext⟩ := lexeme_eq p.1
    have hsign : Written p.1.lexeme p.1.symbol.toList := by
      rw [hlexeme, ← htext]
      exact written_of_spelled trivial (.symbol sign)
    exact .cons hsign (.cons (written_of_spelled hp (.ident p.2)) (ih hlinks))

/-- **Operators group by their levels.**  Names with operators between them are read as one expression
to the end of the text, and its tree is the row with the tighter operators below the looser ones. -/
theorem exists_grouped {first : String} {links : List (BinaryOp × String)}
    (hnames : ∀ name ∈ first :: links.map Prod.snd, (Lexeme.ident name).Proper)
    (literals : Bool) (nextId : NodeId) :
    ∃ tokens, scan (String.ofList ([' '].intercalate (rowPieces first links))) = .ok tokens ∧
      ∃ e c, (Level.within (tokens.length + 1)).expr ⟨tokens, .zero, nextId, literals⟩ = .ok e c ∧
        c.lexemes = [.eof] ∧ Groups e first links := by
  obtain ⟨tokens, hscan, htokens⟩ := scan_of_written (written_rowPieces hnames)
  have hread : Runs literals _ _ _ _ _ :=
    groupsRows_within (tokens.length + 1) 0 first links [.eof] ⟨_, _, rfl, rfl⟩
  have hall (p : BinaryOp × String) (_ : p ∈ links) : bindsAt 0 p = true := decide_eq_true (Nat.zero_le _)
  rw [takeWhile_eq_self_iff.2 hall, dropWhile_eq_nil_iff.2 hall] at hread
  have hlength : (Lexeme.ident first :: (linkLexemes links ++ [.eof])).length < tokens.length + 1 := by
    rw [← cons_append, ← htokens, length_map]
    omega
  obtain ⟨e, c, hrun, hc, -, he⟩ := hread ⟨tokens, .zero, nextId, literals⟩ ⟨rfl, htokens⟩ hlength
  exact ⟨tokens, hscan, e, c, hrun, hc.2, he⟩

/-- The row `a == b & c - d - e`. -/
theorem exists_grouped_five : (∀ name ∈ ["a", "b", "c", "d", "e"], (Lexeme.ident name).Proper) ∧ ∃ tokens,
    scan (String.ofList ([' '].intercalate (rowPieces "a"
      [(.compare .eq, "b"), (.arith .bitAnd, "c"), (.arith .sub, "d"), (.arith .sub, "e")]))) = .ok tokens ∧
    ∃ e c, (Level.within (tokens.length + 1)).expr (.start tokens 0) = .ok e c ∧ c.lexemes = [.eof] ∧
      Groups e "a" [(.compare .eq, "b"), (.arith .bitAnd, "c"), (.arith .sub, "d"), (.arith .sub, "e")] := by
  have hproper : ∀ name ∈ ["a", "b", "c", "d", "e"], (Lexeme.ident name).Proper := by
    simp only [forall_mem_cons]
    refine ⟨?_, ?_, ?_, ?_, ?_, forall_mem_nil _⟩ <;> exact ⟨by decide, fun word => by cases word <;> decide⟩
  exact ⟨hproper, exists_grouped hproper true 0⟩

end Grammar
end Keel
