/-
# Reading bodies again

Written types, expressions and blocks are read again by parsers of any depth that is not
exhausted by the lexemes ahead (`Level.faithful_within`).
-/
import Keel.Proofs.Grammar.Rereading

namespace Keel.Grammar

open List Option Bool

/-! ### Where things end -/

def endsPostfix (l : Lexeme) : Bool := l != .symbol .lParen && l != .symbol .dot

/-- And no cast. -/
def endsCast (l : Lexeme) : Bool := endsPostfix l && l != .keyword .asKw

/-- And no operator. -/
def endsExpr (l : Lexeme) : Bool := endsCast l && (binaryOp? l).isNone

/-- Neither a path nor its arguments go on with this lexeme. -/
def endsType (l : Lexeme) : Bool := l != .symbol .colonColon && l != .symbol .lBracket

attribute [local simp] ExprKind.shape Stmt.shape

variable {ls : List Lexeme} {lit : Bool}

theorem Ahead.imp {test test' : Lexeme → Bool} (h : Ahead test ls) (himp : ∀ l, test l → test' l) :
    Ahead test' ls := by
  obtain ⟨l, more, hls, hl⟩ := h
  exact ⟨l, more, hls, himp l hl⟩

theorem Ahead.endsCast (h : Ahead endsExpr ls) : Ahead endsCast ls :=
  h.imp fun _ hl => (and_eq_true_iff.1 hl).1

theorem Ahead.endsPostfix (h : Ahead Grammar.endsCast ls) : Ahead endsPostfix ls :=
  h.imp fun _ hl => (and_eq_true_iff.1 hl).1

theorem ahead_print (e : Expr) {rest : List Lexeme} : Ahead (fun l => (unaryOp? l).isNone) (e.print ++ rest) := by
  rw [Expr.print_append]
  exact ⟨_, _, rfl, rfl⟩

theorem ahead_block {test : Lexeme → Bool} (b : Block) (rest : List Lexeme)
    (h : test (.symbol .lBrace)) : Ahead test (b.print ++ rest) := by
  cases b
  exact ⟨_, _, rfl, h⟩

theorem exists_base {base : TypeAnn} {low high : Expr} (h : (TypeExpr.range base low high).Writable) :
    ∃ name span, base = ⟨.named [name] [], span⟩ ∧ (intKind? [name]).isSome := by
  obtain ⟨⟨path, hbase, hkind⟩, -⟩ := h
  obtain ⟨expr, span⟩ := base
  rcases path with _ | ⟨name, _ | ⟨second, more⟩⟩
  · exact absurd rfl hkind
  · exact ⟨name, span, by rw [show expr = _ from hbase], isSome_iff_ne_none.2 hkind⟩
  · exact absurd rfl hkind

theorem opens_type {close : Symbol} (hclose : close ≠ .lParen) {ann : TypeAnn} (h : ann.Writable) :
    Opens close ann.print := by
  obtain ⟨expr, span⟩ := ann
  cases expr with
  | named path args =>
    obtain ⟨first, segments, rfl⟩ := exists_cons_of_ne_nil h.1
    exact ⟨_, _, rfl, by simp, by simp⟩
  | range base low high =>
    obtain ⟨name, span', rfl, -⟩ := exists_base h
    exact ⟨_, _, rfl, by simp, by simp⟩
  | unit => exact ⟨_, _, rfl, by simpa using hclose.symm, by simp⟩
  | resolved ty => exact h.elim

/-- The parsers read again what is written with less than `n` lexemes to the end of the text. -/
structure Level.Faithful (sub : Level) (n : Nat) : Prop where
  /-- What stands between the brackets of an expression. -/
  inner : ∀ (kind : ExprKind) (rest : List Lexeme), kind.Writable →
    Runs true n sub.expr (kind.print ++ .symbol .rParen :: rest) (.symbol .rParen :: rest)
      (Expr.Is kind)
  binary : ∀ {lit : Bool} (least : Nat) (e : Expr) (rest : List Lexeme), e.Writable →
    Ahead endsExpr rest →
    Runs lit n (sub.binary least) (e.print ++ rest) rest fun e' => e'.shape = e.shape
  unary : ∀ {lit : Bool} (e : Expr) (rest : List Lexeme), e.Writable → Ahead endsExpr rest →
    Runs lit n sub.unary (e.print ++ rest) rest fun e' => e'.shape = e.shape
  type : ∀ {lit : Bool} (ann : TypeAnn) (rest : List Lexeme), ann.Writable → Ahead endsType rest →
    Runs lit n sub.type (ann.print ++ rest) rest fun ann' => ann'.shape = ann.shape
  place : ∀ {lit : Bool} (name : String) (fields : List String) (rest : List Lexeme),
    Runs lit n sub.expr (Print.place name fields ++ .symbol .eq :: rest) (.symbol .eq :: rest)
      fun e => assignTarget e = .ok (name, fields)
  block : ∀ {lit : Bool} (b : Block) (rest : List Lexeme), b.Writable →
    Runs lit n sub.block (b.print ++ rest) rest fun b' => b'.shape = b.shape
  conditional : ∀ {lit : Bool} (choice : Conditional) (rest : List Lexeme), choice.Writable →
    Ahead (· != .keyword .elseKw) rest → ∀ m < n,
    Runs lit m sub.conditional (choice.print ++ rest) rest fun choice' => choice'.shape = choice.shape

section Rules

variable {sub : Level} {n : Nat} (h : sub.Faithful n) {rest : List Lexeme}

include h

theorem Level.Faithful.expr {e : Expr} (hw : e.Writable) (hends : Ahead endsExpr rest) :
    Runs lit n sub.expr (e.print ++ rest) rest fun e' => e'.shape = e.shape := h.binary 0 e rest hw hends

/-! ### Types -/

theorem runs_typeArgs {close : Symbol} (hclose : close ≠ .lParen) {args : List TypeAnn}
    (hw : TypeAnn.AllWritable args) :
    Runs lit n (commaList close sub.type) (TypeAnn.printAll args ++ .symbol close :: rest)
      (.symbol close :: rest) fun args' => TypeAnn.shapeAll args' = TypeAnn.shapeAll args := by
  rw [TypeAnn.printAll_eq]
  simp only [TypeAnn.shapeAll_eq]
  rw [TypeAnn.allWritable_iff] at hw
  exact runs_commaList (fun ann hann more => h.type ann _ (hw ann hann) ⟨_, _, rfl, rfl⟩)
    fun ann hann => opens_type hclose (hw ann hann)

theorem runs_typeRule {expr : TypeExpr} (hw : expr.Writable) (hends : Ahead endsType rest) :
    Runs lit (n + 1) (typeRule sub) (expr.print ++ rest) rest fun expr' => expr'.shape = expr.shape := by
  obtain ⟨l, more, rfl, hl⟩ := hends
  simp only [endsType, and_eq_true, bne_iff_ne] at hl
  cases expr with
  | named path args =>
    obtain ⟨hpath, hkind, hargs⟩ := hw
    obtain ⟨first, segments, rfl⟩ := exists_cons_of_ne_nil hpath
    rcases args with _ | ⟨arg, args⟩
    · rw [TypeExpr.print, TypeAnn.printAll, Print.enclosed, append_nil]
      refine runs_refuse (by simp) (runs_ident_first fun _ => (runs_pathTail segments hl.1).bind ?_)
      rintro ⟨_, stop⟩ rfl
      exact runs_sees_ne hl.2 (runs_pure rfl)
    · have hne : TypeAnn.printAll (arg :: args) ≠ [] := by simp [TypeAnn.printAll]
      rw [TypeExpr.print, append_assoc, Print.enclosed_append hne]
      refine runs_refuse (by simp) (runs_ident_first fun _ => (runs_pathTail segments (by simp)).bind ?_)
      rintro ⟨_, stop⟩ rfl
      refine runs_sees (runs_next fun _ => ?_)
      rw [isSome_intKind?, isSome_eq_false_iff.2 (isNone_iff_eq_none.2 (hkind.resolve_left (by simp)))]
      refine (runs_typeArgs h (by decide) hargs).bind fun args' hshape => runs_expect fun _ => runs_pure ?_
      rw [TypeExpr.shape, TypeExpr.shape, hshape]
  | range base low high =>
    obtain ⟨name, span, rfl, hkind⟩ := exists_base hw
    obtain ⟨-, hlow, hhigh⟩ := hw
    simp only [TypeExpr.print, TypeAnn.print, Print.path, Print.segments, TypeAnn.printAll, Print.enclosed,
      flatMap_nil, append_nil, cons_append, nil_append, append_assoc]
    refine runs_refuse (by simp) (runs_ident_first fun _ => ?_)
    refine (runs_pathTail [] (by simp)).bind ?_
    rintro ⟨_, stop⟩ rfl
    refine runs_sees (runs_next fun _ => ?_)
    rw [isSome_intKind?, hkind]
    refine (h.expr hlow ⟨_, _, rfl, rfl⟩).bind fun low' hlow' => runs_expect fun _ => ?_
    refine (h.expr hhigh ⟨_, _, rfl, rfl⟩).bind fun high' hhigh' => runs_expect fun _ => ?_
    exact runs_pure (by rw [TypeExpr.shape, TypeExpr.shape, hlow', hhigh']; rfl)
  | unit => exact runs_accept (runs_expect fun _ => runs_pure rfl)
  | resolved ty => exact hw.elim

theorem runs_typeAnnRule {ann : TypeAnn} (hw : ann.Writable) (hends : Ahead endsType rest) :
    Runs lit (n + 1) (typeAnnRule sub) (ann.print ++ rest) rest fun ann' => ann'.shape = ann.shape := by
  obtain ⟨expr, span⟩ := ann
  refine runs_here fun _ => (runs_typeRule h hw hends).bind fun expr' hexpr => ?_
  exact runs_taken fun _ => runs_pure (by rw [TypeAnn.shape, TypeAnn.shape, hexpr])

/-! ### Conditionals -/

theorem runs_conditionalRule {choice : Conditional} (hw : choice.Writable)
    (hends : Ahead (· != .keyword .elseKw) rest) :
    Runs lit n (conditionalRule sub) (choice.print ++ rest) rest fun choice' => choice'.shape = choice.shape := by
  obtain ⟨condition, thenBlock, otherwise, span⟩ := choice
  obtain ⟨hcondition, hthen, hotherwise⟩ := hw
  rw [Conditional.print, append_assoc, append_assoc]
  refine runs_taken fun start =>
    (h.expr hcondition (ahead_block thenBlock _ rfl)).withLiterals.bind fun condition' hc => ?_
  refine (h.block _ _ hthen).bind fun thenBlock' ht => ?_
  cases otherwise with
  | absent =>
    refine runs_refuse_of_ahead hends (runs_pure ?_)
    rw [Conditional.shape, Conditional.shape, hc, ht]
  | block body =>
    refine runs_accept (runs_refuse_of_ahead (ahead_block body _ rfl) ?_)
    refine (h.block body rest hotherwise).bind fun body' hb => runs_pure ?_
    simp only [Conditional.shape, ElseBranch.shape, hc, ht, hb]
  | elseIf nested =>
    refine runs_accept ?_
    cases n with
    | zero => exact fun c _ hn => absurd hn (Nat.not_lt_zero _)
    | succ n =>
      refine runs_accept_first ?_
      refine (h.conditional nested rest hotherwise hends n (Nat.lt_succ_self n)).bind fun nested' hn => ?_
      exact runs_pure (by simp only [Conditional.shape, ElseBranch.shape, hc, ht, hn])

end Rules

/-! ### Levels of precedence

Each level hands on to the next tighter one unless its own operators stand there. -/

section Levels

variable {n : Nat} {sub : Level} {before rest : List Lexeme} {Q : Expr → Prop}

theorem runs_postfix_of_primary (h : Runs lit n (primaryRule sub) before rest Q)
    (hends : Ahead endsPostfix rest) : Runs lit n (postfixRule sub) before rest Q := by
  obtain ⟨l, more, rfl, hl⟩ := hends
  simp only [endsPostfix, and_eq_true, bne_iff_ne] at hl
  refine h.bind fun e he => runs_iterate_stop ?_ he
  exact runs_refuse hl.1 (runs_refuse hl.2 (runs_pure rfl))

theorem runs_unary_of_postfixRule (h : Runs lit n (postfixRule sub) before rest Q)
    (hstart : Ahead (fun l => (unaryOp? l).isNone) before) : Runs lit n (unaryRule sub) before rest Q := by
  obtain ⟨l, more, rfl, hl⟩ := hstart
  refine runs_peek ?_
  rw [isNone_iff_eq_none.1 hl]
  exact h

theorem runs_cast_of_unary (h : Runs lit n (unaryRule sub) before rest Q) (hends : Ahead endsCast rest) :
    Runs lit n (castRule sub) before rest Q := by
  obtain ⟨l, more, rfl, hl⟩ := hends
  refine h.bind fun e he => runs_iterate_stop ?_ he
  exact runs_refuse (bne_iff_ne.1 (and_eq_true_iff.1 hl).2) (runs_pure rfl)

variable {least : Nat}

theorem runs_binary_of_cast (h : Runs lit n (castRule sub) before rest Q) (hends : Ahead endsExpr rest) :
    Runs lit n (binaryRule sub least) before rest Q := by
  obtain ⟨l, more, rfl, hl⟩ := hends
  refine h.bind fun e he => runs_iterate_stop (runs_peek ?_) he
  rw [isNone_iff_eq_none.1 (and_eq_true_iff.1 hl).2]
  exact runs_pure rfl

theorem runs_binary_of_unary (h : Runs lit n (unaryRule sub) before rest Q) (hends : Ahead endsExpr rest) :
    Runs lit n (binaryRule sub least) before rest Q :=
  runs_binary_of_cast (runs_cast_of_unary h hends.endsCast) hends

theorem runs_binary_of_postfixRule (h : Runs lit n (postfixRule sub) before rest Q)
    (hstart : Ahead (fun l => (unaryOp? l).isNone) before) (hends : Ahead endsExpr rest) :
    Runs lit n (binaryRule sub least) before rest Q :=
  runs_binary_of_unary (runs_unary_of_postfixRule h hstart) hends

/-- What stands for itself is read at every level. -/
theorem runs_binary_of_primary (h : Runs lit n (primaryRule sub) before rest Q)
    (hstart : Ahead (fun l => (unaryOp? l).isNone) before) (hends : Ahead endsExpr rest) :
    Runs lit n (binaryRule sub least) before rest Q :=
  runs_binary_of_postfixRule (runs_postfix_of_primary h hends.endsCast.endsPostfix) hstart hends

end Levels

section Rules

variable {sub : Level} {n : Nat} (h : sub.Faithful n) {rest : List Lexeme}

include h

/-! ### Expressions in brackets -/

variable {e : Expr} {name : String} {args : List TypeAnn} {segments : List String} {after : List Lexeme}
  {fields : List FieldInit} {fuel : Nat} {ty : Option TypeAnn} {value : Option Expr} {span : Span}

theorem runs_primary_print (hw : e.Writable) :
    Runs lit (n + 1) (primaryRule sub) (e.print ++ rest) rest fun e' => e'.shape = e.shape := by
  obtain ⟨id, kind, span⟩ := e
  rw [Expr.print_append]
  refine runs_peek (takes_next.first fun _ _ => (h.inner kind rest hw).withLiterals.bind fun e' he' => ?_)
  exact runs_expect fun _ => runs_pure he'

theorem runs_unary_print (hw : e.Writable) (hends : Ahead endsPostfix rest) :
    Runs lit (n + 1) (unaryRule sub) (e.print ++ rest) rest fun e' => e'.shape = e.shape :=
  runs_unary_of_postfixRule (runs_postfix_of_primary (runs_primary_print h hw) hends) (ahead_print e)

theorem runs_cast_print (hw : e.Writable) (hends : Ahead endsCast rest) :
    Runs lit (n + 1) (castRule sub) (e.print ++ rest) rest fun e' => e'.shape = e.shape :=
  runs_cast_of_unary (runs_unary_print h hw hends.endsPostfix) hends

theorem runs_binary_print {least : Nat} (hw : e.Writable) (hends : Ahead endsExpr rest) :
    Runs lit (n + 1) (binaryRule sub least) (e.print ++ rest) rest fun e' => e'.shape = e.shape :=
  runs_binary_of_cast (runs_cast_print h hw hends.endsCast) hends

/-! ### Operators -/

theorem runs_unaryRule_unary {op : UnaryOp} {operand : Expr} (hw : operand.Writable) (hends : Ahead endsExpr rest) :
    Runs lit (n + 1) (unaryRule sub) (op.lexeme :: (operand.print ++ rest)) rest
      (Expr.Is (.unary op operand)) := by
  have hop : unaryOp? op.lexeme = some op := by cases op <;> rfl
  refine runs_peek ?_
  rw [hop]
  refine takes_next.first fun _ _ => ?_
  have hread (start : Nat) : Runs lit n (do
      let operand ← sub.unary
      mkExpr (.unary op operand) ⟨start, operand.span.stop⟩) (operand.print ++ rest) rest
      (Expr.Is (.unary op operand)) := by
    refine (h.unary operand rest hw hends).bind fun operand' ho => runs_mkExpr ?_
    rw [ExprKind.shape, ExprKind.shape, ho]
  rw [Expr.print_append] at hread ⊢
  refine runs_peek ?_
  cases op <;> exact hread _

theorem runs_castRule_cast {operand : Expr} {ty : TypeAnn} (hw : operand.Writable) (hty : ty.Writable) :
    Runs lit (n + 1) (castRule sub) (operand.print ++ .keyword .asKw :: (ty.print ++ .symbol .rParen :: rest))
      (.symbol .rParen :: rest) (Expr.Is (.cast operand ty)) := by
  refine (runs_unary_print h hw ⟨_, _, rfl, rfl⟩).bind fun operand' ho => ?_
  refine runs_iterate_once (by simp)
    (runs_accept ((runs_typeAnnRule h hty ⟨_, _, rfl, rfl⟩).bind fun ty' hty' => ?_)) fun e => ?_
  · refine (runs_mkExpr ?_).bind fun e he => runs_pure ⟨e, rfl, he⟩
    rw [ExprKind.shape, ExprKind.shape, ho, hty']
  · exact runs_refuse (by simp) (runs_pure rfl)

theorem runs_binaryRule_binary {op : BinaryOp} {left right : Expr} (hleft : left.Writable)
    (hright : right.Writable) :
    Runs lit (n + 1) (binaryRule sub 0) (left.print ++ op.lexeme :: (right.print ++ .symbol .rParen :: rest))
      (.symbol .rParen :: rest) (Expr.Is (.binary op left right)) := by
  have hop : binaryOp? op.lexeme = some op := by
    rcases op with op | op | op <;> cases op <;> rfl
  have hends : endsCast op.lexeme := by
    rcases op with op | op | op <;> cases op <;> rfl
  refine (runs_cast_print h hleft ⟨_, _, rfl, hends⟩).bind fun left' hl => ?_
  refine runs_iterate_once (by simp) (runs_peek ?_) fun e => runs_peek (runs_pure rfl)
  rw [hop]
  show Runs lit (n + 1) (if precedence op < 0 then _ else _) _ _ _
  rw [if_neg (Nat.not_lt_zero _)]
  refine takes_next.first fun _ _ => (h.binary _ right _ hright ⟨_, _, rfl, rfl⟩).bind fun right' hr => ?_
  refine (runs_mkExpr ?_).bind fun e he => runs_pure ⟨e, rfl, he⟩
  rw [ExprKind.shape, ExprKind.shape, hl, hr]

/-! ### Calls and members -/

theorem runs_args {args : List Expr} (hw : Expr.AllWritable args) :
    Runs lit n (commaList .rParen sub.expr) (Expr.printAll args ++ .symbol .rParen :: rest)
      (.symbol .rParen :: rest) fun args' => Expr.shapeAll args' = Expr.shapeAll args := by
  rw [Expr.printAll_eq]
  simp only [Expr.shapeAll_eq]
  rw [Expr.allWritable_iff] at hw
  refine runs_commaList (fun e he more => h.expr (hw e he) ⟨_, _, rfl, rfl⟩) fun e _ => ?_
  obtain ⟨id, kind, span⟩ := e
  exact ⟨_, _, rfl, by simp, by simp⟩

theorem runs_postfixRule_call {callee : Expr} {args : List Expr} (hcallee : callee.Writable)
    (hargs : Expr.AllWritable args) : Runs lit (n + 1) (postfixRule sub) (callee.print ++ .symbol .lParen ::
        (Expr.printAll args ++ .symbol .rParen :: .symbol .rParen :: rest))
      (.symbol .rParen :: rest) (Expr.Is (.call callee args)) := by
  refine (runs_primary_print h hcallee).bind fun callee' hc => ?_
  refine runs_iterate_once (by simp)
    (runs_accept_first ((runs_args h hargs).withLiterals.bind fun args' ha => runs_expect fun _ => ?_)) fun e => ?_
  · refine (runs_mkExpr ?_).bind fun e he => runs_pure ⟨e, rfl, he⟩
    rw [ExprKind.shape, ExprKind.shape, hc, ha]
  · exact runs_refuse (by simp) (runs_refuse (by simp) (runs_pure rfl))

theorem runs_postfixRule_member {base : Expr} (hbase : base.Writable) {nameSpan : Span} :
    Runs lit (n + 1) (postfixRule sub) (base.print ++ .symbol .dot :: .ident name :: .symbol .rParen :: rest)
      (.symbol .rParen :: rest) (Expr.Is (.member base name nameSpan)) := by
  refine (runs_primary_print h hbase).bind fun base' hb => runs_iterate_once (by simp)
    (runs_refuse (by simp) (runs_accept (runs_ident fun _ => ?_))) fun e => ?_
  · refine (runs_mkExpr ?_).bind fun e he => runs_pure ⟨e, rfl, he⟩
    rw [ExprKind.shape, ExprKind.shape, hb]
  · exact runs_refuse (by simp) (runs_refuse (by simp) (runs_pure rfl))

/-! ### Paths and struct literals -/

theorem runs_pathRule {Q : Expr → Prop} (hw : (PathExpr.mk segments args).Writable)
    (hends : Ahead endsType rest) (hrest : ∀ args' start stop, TypeAnn.shapeAll args' = TypeAnn.shapeAll args →
      Runs lit n (pathRest sub ⟨segments, args'⟩ start stop) rest after Q) :
    Runs lit (n + 1) (pathRule sub) ((PathExpr.mk segments args).print ++ rest) after Q := by
  obtain ⟨hpath, hargs⟩ := hw
  obtain ⟨l, more, rfl, hl⟩ := hends
  simp only [endsType, and_eq_true, bne_iff_ne] at hl
  obtain ⟨first, segments, rfl⟩ := exists_cons_of_ne_nil hpath
  rcases args with _ | ⟨arg, args⟩
  · rw [PathExpr.print, TypeAnn.printAll, Print.enclosed, append_nil]
    refine runs_ident_first fun _ => (runs_pathTail segments hl.1).bind ?_
    rintro ⟨_, stop⟩ rfl
    exact runs_refuse hl.2 (hrest [] _ _ rfl)
  · have hne : TypeAnn.printAll (arg :: args) ≠ [] := by simp [TypeAnn.printAll]
    rw [PathExpr.print, append_assoc, Print.enclosed_append hne]
    refine runs_ident_first fun _ => (runs_pathTail segments (by simp)).bind ?_
    rintro ⟨_, stop⟩ rfl
    refine runs_accept ((runs_typeArgs h (by decide) hargs).bind fun args' hshape => ?_)
    exact runs_expect fun _ => hrest args' _ _ hshape

theorem runs_fieldInit {f : FieldInit} (hw : f.Writable) (hends : Ahead endsExpr rest) :
    Runs lit n (fieldInit sub) (f.print ++ rest) rest fun f' => f'.shape = f.shape := by
  obtain ⟨name, value, span⟩ := f
  refine runs_ident fun _ => runs_expect fun _ => (h.expr hw hends).bind fun value' hv => runs_pure ?_
  rw [FieldInit.shape, FieldInit.shape, hv]

theorem runs_fields (hw : FieldInit.AllWritable fields) :
    Runs lit n (commaList .rBrace (fieldInit sub)) (FieldInit.printAll fields ++ .symbol .rBrace :: rest)
      (.symbol .rBrace :: rest) fun fields' => FieldInit.shapeAll fields' = FieldInit.shapeAll fields := by
  rw [FieldInit.printAll_eq]
  simp only [FieldInit.shapeAll_eq]
  rw [FieldInit.allWritable_iff] at hw
  refine runs_commaList (fun f hf more => runs_fieldInit h (hw f hf) ⟨_, _, rfl, rfl⟩) fun f _ => ?_
  obtain ⟨name, value, span⟩ := f
  exact ⟨_, _, rfl, by simp, by simp⟩

/-! ### Matches -/

theorem runs_armRounds {arms : List Arm} (hw : Arm.AllWritable arms)
    (hfuel : (Arm.printAll arms ++ .symbol .rBrace :: rest).length < fuel) :
    Runs lit n (armRounds sub fuel) (Arm.printAll arms ++ .symbol .rBrace :: rest) (.symbol .rBrace :: rest)
      fun arms' => Arm.shapeAll arms' = Arm.shapeAll arms := by
  obtain ⟨fuel, rfl⟩ := Nat.exists_eq_succ_of_ne_zero (Nat.ne_zero_of_lt hfuel)
  induction arms generalizing fuel with
  | nil => exact runs_ended (runs_pure rfl)
  | cons arm arms ih =>
    obtain ⟨p, body, span⟩ := arm
    obtain ⟨⟨hp, hbody⟩, harms⟩ := hw
    have hsplit : Arm.printAll (⟨p, body, span⟩ :: arms) ++ .symbol .rBrace :: rest =
        p.print ++ .symbol .fatArrow :: (body.print ++ .symbol .comma ::
          (Arm.printAll arms ++ .symbol .rBrace :: rest)) := by
      simp [Arm.printAll, Arm.print]
    rw [hsplit] at hfuel ⊢
    obtain ⟨l, more, hl, hclose, heof⟩ : Opens .rBrace p.print := opens_pattern (by decide) (by decide) hp
    have hread : Runs lit n pattern (p.print ++ .symbol .fatArrow :: (body.print ++ .symbol .comma ::
        (Arm.printAll arms ++ .symbol .rBrace :: rest))) _ _ := runs_pattern hp rfl
    simp only [length_append, length_cons] at hfuel
    rw [hl, cons_append] at hread ⊢
    refine runs_goesOn hclose heof (hread.bind fun p' hp' => runs_expect fun _ => ?_)
    refine (h.expr hbody ⟨_, _, rfl, rfl⟩).withLiterals.bind fun body' hb => runs_accept ?_
    obtain ⟨fuel, rfl⟩ : ∃ more, fuel = more + 1 := ⟨fuel - 1, by omega⟩
    have hshort : (Arm.printAll arms ++ .symbol .rBrace :: rest).length < fuel + 1 := by
      simp only [length_append, length_cons]
      omega
    refine (ih harms fuel hshort).bind fun arms' ha => runs_pure ?_
    simp only [Arm.shapeAll, Arm.shape, hp', hb, ha]

theorem runs_selectRule {scrutinee : Expr} {arms : List Arm} (hscrutinee : scrutinee.Writable)
    (harms : Arm.AllWritable arms) :
    Runs lit n (selectRule sub) (scrutinee.print ++ .symbol .lBrace :: (Arm.printAll arms ++ .symbol .rBrace :: rest))
      rest (Expr.Is (.select scrutinee arms)) := by
  refine runs_taken fun _ => (h.expr hscrutinee ⟨_, _, rfl, rfl⟩).withLiterals.bind fun scrutinee' hs => ?_
  refine runs_expect fun _ => runs_look fun c hc => (runs_armRounds h harms ?_).bind fun arms' ha => ?_
  · rw [← hc.2, Cursor.lexemes, length_map]
    omega
  · refine runs_expect fun _ => runs_mkExpr ?_
    rw [ExprKind.shape, ExprKind.shape, hs, ha]

/-! ### Places -/

omit h in
theorem runs_fieldsOfPlace (fields done : List String) (he : assignTarget e = .ok (name, done))
    (hfuel : (fields.flatMap fun field => [Lexeme.symbol .dot, .ident field]).length < fuel) :
    Runs lit n (rounds (postfixStep sub) fuel e)
      ((fields.flatMap fun field => [.symbol .dot, .ident field]) ++ .symbol .eq :: rest) (.symbol .eq :: rest)
      fun e' => assignTarget e' = .ok (name, done ++ fields) := by
  obtain ⟨fuel, rfl⟩ := Nat.exists_eq_succ_of_ne_zero (Nat.ne_zero_of_lt hfuel)
  induction fields generalizing done e fuel with
  | nil =>
    refine runs_rounds_stop (runs_refuse (by simp) (runs_refuse (by simp) (runs_pure ⟨e, rfl, ?_⟩)))
    rw [he, append_nil]
  | cons field fields ih =>
    rw [flatMap_cons, length_append] at hfuel
    have hstep : Runs lit n (postfixStep sub e) (.symbol .dot :: .ident field ::
        ((fields.flatMap fun field => [.symbol .dot, .ident field]) ++ .symbol .eq :: rest))
        ((fields.flatMap fun field => [.symbol .dot, .ident field]) ++ .symbol .eq :: rest)
        fun r => ∃ e', r = .again e' ∧ assignTarget e' = .ok (name, done ++ [field]) := by
      refine runs_refuse (by simp) (runs_accept (runs_ident fun span => ?_))
      refine (runs_mkExpr_of (Q := fun e' => assignTarget e' = .ok (name, done ++ [field])) fun id => ?_).bind
        fun e' he' => runs_pure ⟨e', rfl, he'⟩
      rw [assignTarget, he]
    refine runs_rounds_again hstep fun e' he' => ?_
    · simp only [length_cons] at hfuel
      obtain ⟨fuel, rfl⟩ : ∃ more, fuel = more + 1 := ⟨fuel - 1, by omega⟩
      have hrest := ih (done ++ [field]) he' fuel (by omega)
      rwa [append_assoc] at hrest

theorem runs_primary_name (hends : Ahead (fun l => endsType l && l != .symbol .lBrace) rest) :
    Runs lit (n + 1) (primaryRule sub) (.ident name :: rest) rest
      fun e => ∃ id span, e = ⟨id, .path ⟨[name], []⟩, span⟩ := by
  have hw : (PathExpr.mk [name] []).Writable := ⟨by simp, trivial⟩
  refine runs_peek (runs_pathRule h hw (hends.imp fun l hl => (and_eq_true_iff.1 hl).1) ?_)
  intro args start stop hargs
  rcases args with _ | ⟨arg, args⟩
  · have hpath : Runs lit n (mkExpr (.path ⟨[name], []⟩) ⟨start, stop⟩) rest rest
        fun e => ∃ id span, e = ⟨id, .path ⟨[name], []⟩, span⟩ := runs_mkExpr_of fun id => ⟨id, _, rfl⟩
    refine runs_literalsAllowed ?_
    split
    · exact runs_refuse_of_ahead (hends.imp fun l hl => (and_eq_true_iff.1 hl).2) hpath
    · exact hpath
  · cases hargs

theorem runs_place {fields : List String} :
    Runs lit (n + 1) (binaryRule sub 0) (Print.place name fields ++ .symbol .eq :: rest) (.symbol .eq :: rest)
      fun e => assignTarget e = .ok (name, fields) := by
  let dots := (fields.flatMap fun field => [Lexeme.symbol .dot, .ident field]) ++ Lexeme.symbol .eq :: rest
  have hdots : Ahead (fun l => endsType l && l != .symbol .lBrace) dots := by
    cases fields <;> exact ⟨_, _, rfl, rfl⟩
  refine runs_binary_of_postfixRule ((runs_primary_name h hdots).bind fun e he => ?_) ⟨_, _, rfl, rfl⟩ ⟨_, _, rfl, rfl⟩
  obtain ⟨id, span, rfl⟩ := he
  refine runs_iterate fun fuel hfuel => runs_fieldsOfPlace fields [] rfl ?_
  simp only [dots, length_append, length_cons] at hfuel
  omega

/-! ### Statements and blocks -/

theorem runs_bindValue {id start : Nat} {ty' : Option TypeAnn} {isMutable : Bool}
    (hty : TypeAnn.shapeOpt ty' = TypeAnn.shapeOpt ty) (hw : Expr.OptWritable value) : Runs lit n (do
      let value ← if ← accept (.symbol .eq) then some <$> sub.expr else pure none
      let close ← expect (.symbol .semi)
      return Stmt.bind (← freshId) name ty' value isMutable ⟨start, close.stop⟩)
      (Expr.printOpt [.symbol .eq] value ++ .symbol .semi :: rest) rest
      fun s => s.shape = (Stmt.bind id name ty value isMutable span).shape := by
  have hclose (value' : Option Expr) (hvalue : Expr.shapeOpt value' = Expr.shapeOpt value) : Runs lit n (do
      let close ← expect (.symbol .semi)
      return Stmt.bind (← freshId) name ty' value' isMutable ⟨start, close.stop⟩) (.symbol .semi :: rest) rest
      fun s => s.shape = (Stmt.bind id name ty value isMutable span).shape :=
    runs_expect fun _ => runs_freshId fun _ => runs_pure (by rw [Stmt.shape, Stmt.shape, hty, hvalue])
  cases value with
  | none => exact runs_refuse (by simp) (hclose none rfl)
  | some value =>
    refine runs_accept (Runs.bind (R := fun v => Expr.shapeOpt v = Expr.shapeOpt (some value))
      (Runs.map (h.expr hw ⟨_, _, rfl, rfl⟩) fun value' hv => ?_) hclose)
    rw [Expr.shapeOpt, Expr.shapeOpt, hv]

theorem runs_bindRule {id : Nat} {isMutable : Bool} (hty : TypeAnn.OptWritable ty) (hw : Expr.OptWritable value) :
    Runs lit n (bindRule sub) (Print.flag .mutKw isMutable ++ .ident name :: (TypeAnn.printOpt .colon ty ++
        (Expr.printOpt [.symbol .eq] value ++ .symbol .semi :: rest))) rest
      fun s => s.shape = (Stmt.bind id name ty value isMutable span).shape := by
  have hahead : Ahead (fun l => l == .symbol .eq || l == .symbol .semi)
      (Expr.printOpt [.symbol .eq] value ++ .symbol .semi :: rest) := by
    cases value <;> exact ⟨_, _, rfl, rfl⟩
  have hname (start : Span) : Runs lit n (bindRest sub start.start isMutable) (.ident name :: (TypeAnn.printOpt .colon ty ++
        (Expr.printOpt [.symbol .eq] value ++ .symbol .semi :: rest))) rest
      fun s => s.shape = (Stmt.bind id name ty value isMutable span).shape := by
    refine runs_ident fun _ => ?_
    cases ty with
    | none =>
      refine runs_refuse_of_ahead (hahead.imp fun l hl => ?_) (runs_bindValue h rfl hw)
      rcases or_eq_true_iff.1 hl with hl | hl <;> cases eq_of_beq hl <;> rfl
    | some ann =>
      refine runs_accept (Runs.bind (R := fun ty' => TypeAnn.shapeOpt ty' = TypeAnn.shapeOpt (some ann))
        (Runs.map ((runs_typeAnnRule h hty (hahead.imp fun l hl => ?_)).mono (Nat.le_succ n)) fun ann' ha => ?_)
        fun ty' hty' => runs_bindValue h hty' hw)
      · rcases or_eq_true_iff.1 hl with hl | hl <;> cases eq_of_beq hl <;> rfl
      · rw [TypeAnn.shapeOpt, TypeAnn.shapeOpt, ha]
  refine runs_taken fun start => ?_
  cases isMutable
  · exact runs_refuse (by simp) (hname start)
  · exact runs_accept (hname start)

theorem runs_returnRule (hw : Expr.OptWritable value) :
    Runs lit n (returnRule sub) (Expr.printOpt [] value ++ .symbol .semi :: rest) rest
      fun s => s.shape = (Stmt.ret value span).shape := by
  refine runs_taken fun start => ?_
  cases value with
  | none => exact runs_accept (runs_taken fun _ => runs_pure rfl)
  | some value =>
    have hread : Runs lit n sub.expr (value.print ++ .symbol .semi :: rest) _ _ := h.expr hw ⟨_, _, rfl, rfl⟩
    have hahead : Ahead (· != .symbol .semi) (value.print ++ .symbol .semi :: rest) := by
      rw [Expr.print_append]
      exact ⟨_, _, rfl, rfl⟩
    refine runs_refuse_of_ahead hahead (hread.bind fun value' hv => runs_expect fun _ => runs_pure ?_)
    rw [Stmt.shape, Stmt.shape, Expr.shapeOpt, Expr.shapeOpt, hv]

theorem runs_loopRule {condition : Expr} {body : Block} (hcondition : condition.Writable) (hbody : body.Writable) :
    Runs lit n (loopRule sub) (condition.print ++ (body.print ++ rest)) rest
      fun s => s.shape = (Stmt.loop condition body span).shape := by
  refine runs_taken fun _ => (h.expr hcondition (ahead_block body _ rfl)).withLiterals.bind fun condition' hc => ?_
  refine (h.block body rest hbody).bind fun body' hb => runs_pure ?_
  rw [Stmt.shape, Stmt.shape, hc, hb]

/-- The piece is this statement, but for numbers and spans. -/
def Piece.Is (s : Stmt) (piece : Piece) : Prop := ∃ s', piece = .stmt s' ∧ s'.shape = s.shape

theorem runs_exprPiece_assign (name : String) (fields : List String) {value : Expr} {s : Stmt}
    (hs : ∀ value' span, value'.shape = value.shape → (match fields with
      | [] => Stmt.assign name value' span
      | _ => .assignField name fields value' span).shape = s.shape) (hw : value.Writable) :
    Runs lit n (exprPiece sub) (Print.place name fields ++ .symbol .eq :: (value.print ++ .symbol .semi :: rest)) rest
      (Piece.Is s) := by
  refine (h.place name fields _).bind fun e he => runs_accept ?_
  refine (h.expr hw ⟨_, _, rfl, rfl⟩).bind fun value' hv => runs_expect fun close => ?_
  rw [he]
  cases fields with
  | nil | cons field fields => exact runs_pure ⟨_, rfl, hs value' _ hv⟩

theorem runs_exprPiece_expr {value : Expr} (hw : value.Writable) :
    Runs lit n (exprPiece sub) (value.print ++ .symbol .semi :: rest) rest (Piece.Is (.expr value)) := by
  refine (h.expr hw ⟨_, _, rfl, rfl⟩).bind fun value' hv => ?_
  refine runs_refuse (by simp) (runs_accept (runs_pure ⟨_, rfl, ?_⟩))
  rw [Stmt.shape, Stmt.shape, hv]

theorem runs_exprPiece_tail (hw : e.Writable) :
    Runs lit n (exprPiece sub) (e.print ++ .symbol .rBrace :: rest) (.symbol .rBrace :: rest)
      fun piece => ∃ e', piece = .tail e' ∧ e'.shape = e.shape := by
  refine (h.expr hw ⟨_, _, rfl, rfl⟩).bind fun e' he => ?_
  exact runs_refuse (by simp) (runs_refuse (by simp) (runs_sees (runs_pure ⟨e', rfl, he⟩)))

omit h in
/-- An expression in brackets starts no other statement. -/
theorem runs_pieceRule_of_expr {Q : Piece → Prop} (hread : Runs lit n (exprPiece sub) (e.print ++ rest) after Q) :
    Runs lit n (pieceRule sub) (e.print ++ rest) after Q := by
  rw [Expr.print_append] at hread ⊢
  exact runs_peek hread

/-- **A written statement is read again.**  Its `;` may be left for the next round. -/
theorem runs_pieceRule {s : Stmt} (hw : s.Writable) :
    Runs lit n (pieceRule sub) (s.print ++ .symbol .semi :: rest) rest (Piece.Is s) ∨
      Runs lit n (pieceRule sub) (s.print ++ .symbol .semi :: rest) (.symbol .semi :: rest) (Piece.Is s) := by
  cases s with
  | bind id name ty value isMutable span =>
    refine .inl (runs_peek (runs_next fun _ => ?_))
    exact ((runs_bindRule h hw.1 hw.2).of_eq (by simp)).bind fun s hs => runs_pure ⟨s, rfl, hs⟩
  | assign target value span =>
    refine .inl (runs_peek ?_)
    exact (runs_exprPiece_assign h target [] (fun value' span' hv => by simp only [Stmt.shape, hv]) hw).of_eq
      (by simp [Print.place])
  | assignField base fields value span =>
    refine .inl (runs_peek ?_)
    obtain ⟨field, fields, rfl⟩ := exists_cons_of_ne_nil hw.1
    exact (runs_exprPiece_assign h base (field :: fields) (fun value' span' hv => by simp only [Stmt.shape, hv])
      hw.2).of_eq (by simp [Print.place])
  | expr value => exact .inl (runs_pieceRule_of_expr (runs_exprPiece_expr h hw))
  | ret value span =>
    exact .inl (runs_peek (runs_next fun _ => (runs_returnRule h hw).bind fun s hs => runs_pure ⟨s, rfl, hs⟩))
  | cond choice =>
    refine .inl (runs_peek (runs_next fun _ => ?_))
    have hends : Ahead (· != .keyword .elseKw) (.symbol .semi :: rest) := ⟨_, _, rfl, rfl⟩
    refine (runs_conditionalRule h hw hends).bind fun choice' hc => ?_
    have hstmt : Runs lit n (do
        let _ ← accept (.symbol .semi)
        return Piece.stmt (.cond choice')) (.symbol .semi :: rest) rest (Piece.Is (.cond choice)) :=
      runs_accept (runs_pure ⟨_, rfl, by rw [Stmt.shape, Stmt.shape, hc]⟩)
    split
    · exact runs_sees_ne (by simp) hstmt
    · exact hstmt
  | loop condition body span =>
    refine .inr (runs_peek (runs_next fun _ => ?_))
    exact ((runs_loopRule h hw.1 hw.2).of_eq (append_assoc _ _ _)).bind fun s hs => runs_pure ⟨s, rfl, hs⟩
  | brk span | cont span => exact .inl (runs_peek (runs_next fun _ => runs_expect fun _ => runs_pure ⟨_, rfl, rfl⟩))
  | block body =>
    refine .inr ?_
    have hread : Runs lit n sub.block (body.print ++ .symbol .semi :: rest) _ _ := h.block body _ hw
    obtain ⟨stmts, tail, span⟩ := body
    refine runs_peek (hread.bind fun body' hb => ?_)
    have hstmt : Runs lit n (return Piece.stmt (.block body')) (.symbol .semi :: rest) (.symbol .semi :: rest)
        (Piece.Is (.block ⟨stmts, tail, span⟩)) := runs_pure ⟨_, rfl, by rw [Stmt.shape, Stmt.shape, hb]⟩
    split
    · exact runs_sees_ne (by simp) hstmt
    · exact hstmt

omit h in
/-- A statement starts with neither a brace that closes nor a semicolon. -/
theorem ahead_stmt (s : Stmt) (rest : List Lexeme) :
    Ahead (fun l => l != .symbol .rBrace && l != .eof && l != .symbol .semi) (s.print ++ rest) := by
  cases s with
  | expr value =>
    show Ahead _ (value.print ++ rest)
    rw [Expr.print_append]
    exact ⟨_, _, rfl, rfl⟩
  | block body => exact ahead_block body rest rfl
  | _ => exact ⟨_, _, rfl, rfl⟩

omit h in
theorem runs_blockRounds_piece {before mid : List Lexeme} {R : Piece → Prop} {Q : List Stmt × Option Expr → Prop}
    (hahead : Ahead (fun l => l != .symbol .rBrace && l != .eof && l != .symbol .semi) before)
    (hpiece : Runs lit n (pieceRule sub) before mid R) (hrest : ∀ piece, R piece → Runs lit n (match piece with
      | .stmt s => do
        let (stmts, tail) ← blockRounds sub fuel
        return (s :: stmts, tail)
      | .tail e => return ([], some e)) mid after Q) : Runs lit n (blockRounds sub (fuel + 1)) before after Q := by
  obtain ⟨l, more, rfl, hl⟩ := hahead
  simp only [and_eq_true, bne_iff_ne] at hl
  exact runs_goesOn hl.1.1 hl.1.2 (runs_refuse hl.2 (hpiece.bind hrest))

/-- **Written statements are read again**, with the value that may follow them. -/
theorem runs_blockRounds {stmts : List Stmt} {tail : Option Expr} (hstmts : Stmt.AllWritable stmts)
    (htail : Expr.OptWritable tail)
    (hfuel : (Stmt.printAll stmts ++ (Expr.printOpt [] tail ++ .symbol .rBrace :: rest)).length < fuel) :
    Runs lit n (blockRounds sub fuel) (Stmt.printAll stmts ++ (Expr.printOpt [] tail ++ .symbol .rBrace :: rest))
      (.symbol .rBrace :: rest)
      fun r => Stmt.shapeAll r.1 = Stmt.shapeAll stmts ∧ Expr.shapeOpt r.2 = Expr.shapeOpt tail := by
  induction stmts generalizing fuel with
  | nil =>
    obtain ⟨fuel, rfl⟩ := Nat.exists_eq_succ_of_ne_zero (Nat.ne_zero_of_lt hfuel)
    cases tail with
    | none => exact runs_ended (runs_pure ⟨rfl, rfl⟩)
    | some e =>
      refine runs_blockRounds_piece (ahead_stmt (.expr e) _)
        (runs_pieceRule_of_expr (runs_exprPiece_tail h htail)) ?_
      rintro _ ⟨e', rfl, he⟩
      exact runs_pure ⟨rfl, by rw [Expr.shapeOpt, Expr.shapeOpt, he]⟩
  | cons s stmts ih =>
    obtain ⟨hs, hstmts⟩ := hstmts
    have hsplit : Stmt.printAll (s :: stmts) ++ (Expr.printOpt [] tail ++ .symbol .rBrace :: rest) =
        s.print ++ .symbol .semi :: (Stmt.printAll stmts ++ (Expr.printOpt [] tail ++ .symbol .rBrace :: rest)) := by
      simp [Stmt.printAll]
    rw [hsplit] at hfuel ⊢
    obtain ⟨l, more, hl, -⟩ := ahead_stmt s []
    have hpos : 0 < s.print.length := by
      rw [← append_nil s.print, hl, length_cons]
      omega
    rw [length_append, length_cons] at hfuel
    obtain ⟨fuel, rfl⟩ : ∃ more, fuel = more + 2 := ⟨fuel - 2, by omega⟩
    have hcons (s' : Stmt) (hs' : s'.shape = s.shape) (r : List Stmt × Option Expr)
        (hr : Stmt.shapeAll r.1 = Stmt.shapeAll stmts ∧ Expr.shapeOpt r.2 = Expr.shapeOpt tail) :
        Stmt.shapeAll (s' :: r.1) = Stmt.shapeAll (s :: stmts) ∧ Expr.shapeOpt r.2 = Expr.shapeOpt tail :=
      ⟨by rw [Stmt.shapeAll, Stmt.shapeAll, hs', hr.1], hr.2⟩
    rcases runs_pieceRule h hs with hpiece | hpiece
    · refine runs_blockRounds_piece (ahead_stmt s _) hpiece ?_
      rintro _ ⟨s', rfl, hs'⟩
      exact (ih hstmts (by omega)).bind fun r hr => runs_pure (hcons s' hs' r hr)
    · refine runs_blockRounds_piece (ahead_stmt s _) hpiece ?_
      rintro _ ⟨s', rfl, hs'⟩
      have hnext := @ih fuel hstmts (by omega)
      have hskip : Runs lit n (blockRounds sub (fuel + 1)) (.symbol .semi :: _) _ _ :=
        runs_goesOn (by simp) (by simp) (runs_accept hnext)
      exact hskip.bind fun r hr => runs_pure (hcons s' hs' r hr)

/-- **A written block is read again.** -/
theorem runs_blockRule {b : Block} (hw : b.Writable) :
    Runs lit (n + 1) (blockRule sub) (b.print ++ rest) rest fun b' => b'.shape = b.shape := by
  obtain ⟨stmts, tail, span⟩ := b
  simp only [Block.print, cons_append, append_assoc, nil_append]
  refine takes_expect.first fun _ _ => (Runs.withLiterals (runs_look fun c hc => runs_blockRounds h hw.1 hw.2 ?_)).bind
    fun r hr => runs_expect fun _ => runs_pure ?_
  · rw [← hc.2, Cursor.lexemes, length_map]
    omega
  · simp only [Block.shape, hr.1, hr.2]

/-! ### What stands between brackets -/

theorem runs_inner_path (hw : (PathExpr.mk segments args).Writable) :
    Runs true (n + 1) (primaryRule sub) ((PathExpr.mk segments args).print ++ .symbol .rParen :: rest)
      (.symbol .rParen :: rest) (Expr.Is (.path ⟨segments, args⟩)) := by
  have hread : Runs true (n + 1) (pathRule sub) ((PathExpr.mk segments args).print ++ .symbol .rParen :: rest)
      (.symbol .rParen :: rest) (Expr.Is (.path ⟨segments, args⟩)) := by
    refine runs_pathRule h hw ⟨_, _, rfl, rfl⟩ fun args' start stop hargs => ?_
    have hpath : Runs true n (mkExpr (.path ⟨segments, args'⟩) ⟨start, stop⟩) (.symbol .rParen :: rest)
        (.symbol .rParen :: rest) (Expr.Is (.path ⟨segments, args⟩)) :=
      runs_mkExpr (by simp only [ExprKind.shape, PathExpr.shape, hargs])
    refine runs_literalsAllowed ?_
    split
    · exact runs_refuse (by simp) hpath
    · exact hpath
  obtain ⟨first, segments, rfl⟩ := exists_cons_of_ne_nil hw.1
  exact runs_peek hread

theorem runs_inner_record (hw : (ExprKind.record ⟨segments, args⟩ fields).Writable) :
    Runs true (n + 1) (primaryRule sub) ((PathExpr.mk segments args).print ++ .symbol .lBrace ::
        (FieldInit.printAll fields ++ .symbol .rBrace :: rest)) rest
      (Expr.Is (.record ⟨segments, args⟩ fields)) := by
  obtain ⟨htype, hpath, hfields⟩ := hw
  have hread : Runs true (n + 1) (pathRule sub) ((PathExpr.mk segments args).print ++ .symbol .lBrace ::
        (FieldInit.printAll fields ++ .symbol .rBrace :: rest)) rest
      (Expr.Is (.record ⟨segments, args⟩ fields)) := by
    refine runs_pathRule h hpath ⟨_, _, rfl, rfl⟩ fun args' start stop hargs => ?_
    have hliteral : (isTypeName (PathExpr.mk segments args').last && true) = true :=
      and_eq_true_iff.2 ⟨htype, rfl⟩
    refine runs_literalsAllowed ?_
    rw [if_pos hliteral]
    refine runs_accept ((runs_fields h hfields).bind fun fields' hf => runs_expect fun _ => ?_)
    refine runs_mkExpr ?_
    simp only [ExprKind.shape, PathExpr.shape, hargs, hf]
  obtain ⟨first, segments, rfl⟩ := exists_cons_of_ne_nil hpath.1
  exact runs_peek hread

omit h in
theorem runs_inner_literal {value : Literal} :
    Runs true n (binaryRule sub 0) (value.print ++ .symbol .rParen :: rest) (.symbol .rParen :: rest)
      (Expr.Is (.literal value)) := by
  have hclose : Ahead endsExpr (.symbol .rParen :: rest) := ⟨_, _, rfl, rfl⟩
  -- All but negative numbers are one lexeme.
  have hprimary (l : Lexeme) (hread : Runs true n (primaryRule sub) (l :: .symbol .rParen :: rest)
      (.symbol .rParen :: rest) (Expr.Is (.literal value)))
      (hstart : (unaryOp? l).isNone) : Runs true n (binaryRule sub 0) (l :: .symbol .rParen :: rest)
      (.symbol .rParen :: rest) (Expr.Is (.literal value)) :=
    runs_binary_of_primary hread ⟨_, _, rfl, hstart⟩ hclose
  cases value with
  | int value =>
    cases value with
    | ofNat n => exact hprimary _ (runs_peek (runs_next fun _ => runs_mkExpr rfl)) rfl
    | negSucc n =>
      exact runs_binary_of_unary (runs_peek (runs_next fun _ => runs_peek (runs_next fun _ => runs_mkExpr rfl)))
        hclose
  | bool value => cases value <;> exact hprimary _ (runs_peek (runs_next fun _ => runs_mkExpr rfl)) rfl
  | str value => exact hprimary _ (runs_peek (runs_next fun _ => runs_mkExpr rfl)) rfl

/-- **What is written between brackets is read again.** -/
theorem runs_inner {kind : ExprKind} (hw : kind.Writable) :
    Runs true (n + 1) (binaryRule sub 0) (kind.print ++ .symbol .rParen :: rest) (.symbol .rParen :: rest)
      (Expr.Is kind) := by
  have hclose : Ahead endsExpr (.symbol .rParen :: rest) := ⟨_, _, rfl, rfl⟩
  cases kind with
  | path p =>
    obtain ⟨segments, args⟩ := p
    refine runs_binary_of_primary (runs_inner_path h hw) ?_ hclose
    obtain ⟨first, segments, rfl⟩ := exists_cons_of_ne_nil hw.1
    exact ⟨_, _, rfl, rfl⟩
  | literal value => exact runs_inner_literal
  | unary op operand => exact runs_binary_of_unary (runs_unaryRule_unary h hw hclose) hclose
  | binary op left right => exact (runs_binaryRule_binary h hw.1 hw.2).of_eq (by simp [ExprKind.print])
  | cast operand ty =>
    exact (runs_binary_of_cast (runs_castRule_cast h hw.1 hw.2) hclose).of_eq (by simp [ExprKind.print])
  | call callee args =>
    exact (runs_binary_of_postfixRule (runs_postfixRule_call h hw.1 hw.2) (ahead_print callee) hclose).of_eq
      (by simp [ExprKind.print])
  | member base name nameSpan =>
    exact (runs_binary_of_postfixRule (runs_postfixRule_member h hw) (ahead_print base) hclose).of_eq
      (by simp [ExprKind.print])
  | record p fields =>
    obtain ⟨segments, args⟩ := p
    refine runs_binary_of_primary ((runs_inner_record h hw).of_eq (by simp [ExprKind.print])) ?_ hclose
    obtain ⟨first, segments, rfl⟩ := exists_cons_of_ne_nil hw.2.1.1
    exact ⟨_, _, rfl, rfl⟩
  | select scrutinee arms =>
    refine runs_binary_of_primary ?_ ⟨_, _, rfl, rfl⟩ hclose
    refine runs_peek (takes_next.first fun _ _ => (runs_selectRule h hw.1 hw.2).of_eq ?_)
    simp
  | cond choice =>
    refine runs_binary_of_primary (runs_peek (takes_next.first fun _ _ => ?_)) ⟨_, _, rfl, rfl⟩ hclose
    refine (runs_conditionalRule h hw ⟨_, _, rfl, rfl⟩).bind fun choice' hc => runs_mkExpr ?_
    rw [ExprKind.shape, ExprKind.shape, hc]
  | block body =>
    have hread : Runs true (n + 1) (blockRule sub) (body.print ++ .symbol .rParen :: rest) _ _ := runs_blockRule h hw
    obtain ⟨stmts, tail, span⟩ := body
    refine runs_binary_of_primary (runs_peek (hread.bind fun body' hb => runs_mkExpr ?_)) ⟨_, _, rfl, rfl⟩ hclose
    rw [ExprKind.shape, ExprKind.shape, hb]

end Rules

/-- **Parsers read again what was written**, if they may go as deep as there are lexemes. -/
theorem Level.faithful_within (depth : Nat) : (Level.within depth).Faithful depth := by
  induction depth with
  | zero => constructor <;> intros <;> first | omega | exact fun c _ hn => absurd hn (Nat.not_lt_zero _)
  | succ depth ih =>
    exact
      { inner := fun kind rest hw => runs_inner ih hw
        binary := fun least e rest hw hends => runs_binary_print ih hw hends
        unary := fun e rest hw hends => runs_unary_print ih hw hends.endsCast.endsPostfix
        type := fun ann rest hw hends => runs_typeAnnRule ih hw hends
        place := fun name fields rest => runs_place ih
        block := fun b rest hw => runs_blockRule ih hw
        conditional := fun choice rest hw hends m hm =>
          (runs_conditionalRule ih hw hends).mono (Nat.le_of_lt_succ hm) }

end Keel.Grammar
