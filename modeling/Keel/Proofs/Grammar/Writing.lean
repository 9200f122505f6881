/-
# What is read can be written

A rule of the grammar puts names and numbers into a tree only after it has seen them among the
tokens, and it builds no tree that has no written form.  So the trees that come out of a parser
are `Writable`, and every lexeme that they are written with is one that a text can hold
(`ModuleDef.fit_of_ofTokens`).  And they are fresh: their nodes have numbers of their own.

* `Level.sound_within`: expressions, types and blocks of any depth are read fresh and fit.
* `SourceFile.fresh_of_readAll`: the bodies of all functions of a list of files are fresh.
-/
import Keel.Sources
import Keel.Proofs.Grammar.Reading
import Keel.Proofs.Syntax.Printing

namespace Keel

open List

/-! ### Lexemes of a text -/

namespace Vocabulary

/-- These lexemes may stand in a text. -/
def All (V : Vocabulary) (ls : List Lexeme) : Prop := ∀ l ∈ ls, V.Has l

variable {V : Vocabulary} {α : Type} {l : Lexeme} {ls ls' : List Lexeme} {names : List String}

@[simp]
theorem has_unary (op : UnaryOp) : V.Has op.lexeme := by cases op <;> exact V.symbol _

@[simp]
theorem has_binary (op : BinaryOp) : V.Has op.lexeme := by
  rcases op with op | op | op <;> cases op <;> exact V.symbol _

@[simp]
theorem all_nil : V.All [] := forall_mem_nil _

@[simp]
theorem all_cons : V.All (l :: ls) ↔ V.Has l ∧ V.All ls := forall_mem_cons

@[simp]
theorem all_append : V.All (ls ++ ls') ↔ V.All ls ∧ V.All ls' := forall_mem_append

@[simp]
theorem all_flatMap {f : α → List Lexeme} {as : List α} : V.All (as.flatMap f) ↔ ∀ a ∈ as, V.All (f a) := by
  induction as with
  | nil => simp
  | cons a as ih => rw [flatMap_cons, all_append, ih, forall_mem_cons]

@[simp]
theorem all_items {print : α → List Lexeme} {as : List α} :
    V.All (Print.items print as) ↔ ∀ a ∈ as, V.All (print a) := by
  simp [Print.items]

@[simp]
theorem all_enclosed {left right : Symbol} : V.All (Print.enclosed left right ls) ↔ V.All ls := by
  cases ls <;> simp [Print.enclosed]

@[simp]
theorem all_braced : V.All (Print.braced ls) ↔ V.All ls := by simp [Print.braced]

@[simp]
theorem all_flag (word : Keyword) (given : Bool) : V.All (Print.flag word given) := by
  cases given <;> simp [Print.flag]

@[simp]
theorem all_bool (value : Bool) : V.All (Print.bool value) := by simp [Print.bool]

@[simp]
theorem all_segments : V.All (Print.segments names) ↔ ∀ name ∈ names, V.Has (.ident name) := by
  simp [Print.segments]

@[simp]
theorem all_path : V.All (Print.path names) ↔ ∀ name ∈ names, V.Has (.ident name) := by
  cases names <;> simp [Print.path]

@[simp]
theorem all_place {name : String} : V.All (Print.place name names) ↔
    V.Has (.ident name) ∧ ∀ field ∈ names, V.Has (.ident field) := by
  simp [Print.place]

@[simp]
theorem all_typeParams : V.All (Print.typeParams names) ↔ ∀ name ∈ names, V.Has (.ident name) := by
  simp [Print.typeParams]

theorem all_neg {value : Nat} (h : V.Has (.int value)) : V.All (Print.int (-(value : Int))) := by
  cases value with
  | zero => simpa [Print.int] using h
  | succ n =>
    show V.All [.symbol .minus, .int (n + 1)]
    simpa using h

theorem fit_all {writable : α → Prop} {print : α → List Lexeme} {all : List α → Prop}
    {printAll : List α → List Lexeme} (hall : ∀ as, all as ↔ ∀ a ∈ as, writable a)
    (hprint : ∀ as, printAll as = Print.items print as) {as : List α}
    (h : ∀ a ∈ as, writable a ∧ V.All (print a)) : all as ∧ V.All (printAll as) := by
  refine ⟨(hall as).2 fun a ha => (h a ha).1, ?_⟩
  rw [hprint, all_items]
  exact fun a ha => (h a ha).2

end Vocabulary

/-! ### Trees of a text -/

variable {V : Vocabulary} {k : Nat}

def Pattern.Fit (V : Vocabulary) (p : Pattern) : Prop := p.Writable ∧ V.All p.print

def TypeExpr.Fit (V : Vocabulary) (expr : TypeExpr) : Prop := expr.Writable ∧ V.All expr.print

def TypeAnn.Fit (V : Vocabulary) (ann : TypeAnn) : Prop := ann.Writable ∧ V.All ann.print

def ExprKind.Fit (V : Vocabulary) (kind : ExprKind) : Prop := kind.Writable ∧ V.All kind.print

def Expr.Fit (V : Vocabulary) (e : Expr) : Prop := e.Writable ∧ V.All e.print

def FieldInit.Fit (V : Vocabulary) (f : FieldInit) : Prop := f.Writable ∧ V.All f.print

def Arm.Fit (V : Vocabulary) (arm : Arm) : Prop := arm.Writable ∧ V.All arm.print

def Conditional.Fit (V : Vocabulary) (choice : Conditional) : Prop := choice.Writable ∧ V.All choice.print

def Block.Fit (V : Vocabulary) (b : Block) : Prop := b.Writable ∧ V.All b.print

def Stmt.Fit (V : Vocabulary) (s : Stmt) : Prop := s.Writable ∧ V.All s.print

theorem TypeAnn.Fit.opt {ann : TypeAnn} (h : ann.Fit V) (lead : Symbol) :
    OptWritable (some ann) ∧ V.All (printOpt lead (some ann)) := ⟨h.1, by simpa [printOpt] using h.2⟩

theorem TypeAnn.Fit.expr {ann : TypeAnn} (h : ann.Fit V) : ann.expr.Fit V := by
  cases ann
  exact h

theorem Expr.Fit.opt {e : Expr} (h : e.Fit V) {lead : List Lexeme} (hlead : V.All lead) :
    OptWritable (some e) ∧ V.All (printOpt lead (some e)) :=
  ⟨h.1, by simpa [printOpt, hlead] using h.2⟩

theorem ExprKind.Fit.expr {kind : ExprKind} (h : kind.Fit V) (id : NodeId) (span : Span) :
    Expr.Fit V ⟨id, kind, span⟩ := ⟨h.1, by simpa [Expr.print] using h.2⟩

namespace Grammar

abbrev ReadsType (V : Vocabulary) (k : Nat) (p p' : Parser TypeAnn) : Prop :=
  ReadsFresh V k (fun _ => []) TypeAnn.foundTypes (TypeAnn.Fit V) p p'

abbrev ReadsExpr (V : Vocabulary) (k : Nat) (p p' : Parser Expr) : Prop :=
  ReadsFresh V k Expr.nodes Expr.foundTypes (Expr.Fit V) p p'

abbrev ReadsPattern (V : Vocabulary) (k : Nat) (p : Parser Pattern) : Prop :=
  ReadsFresh V k Pattern.nodes (fun _ => []) (Pattern.Fit V) p p

theorem reads_mkExpr {low n : Nat} {kind : ExprKind} {span : Span}
    (h : Fresh low n kind.nodes kind.foundTypes) (hfit : kind.Fit V) :
    Reads V k n (mkExpr kind span) (mkExpr kind span)
      fun e n' => Fresh low n' e.nodes e.foundTypes ∧ e.Fit V :=
  reads_freshId.bind fun _ _ ⟨hid, hn⟩ => reads_pure (by subst hid hn; exact ⟨h.node rfl, hfit.expr _ _⟩)

theorem reads_mkPattern {low n : Nat} {kind : PatternKind} {span : Span} (h : Fresh low n kind.nodes [])
    (hfit : kind.Writable ∧ V.All kind.print) :
    Reads V k n (mkPattern kind span) (mkPattern kind span)
      fun p n' => Fresh low n' p.nodes [] ∧ p.Fit V :=
  reads_freshId.bind fun _ _ ⟨hid, hn⟩ => reads_pure (by subst hid hn; exact ⟨h.node rfl, hfit⟩)

/-! ### Patterns -/

theorem Pattern.allNodes_eq (ps : List Pattern) : Pattern.allNodes ps = ps.flatMap Pattern.nodes := by
  induction ps with
  | nil => rfl
  | cons p rest ih => rw [Pattern.allNodes, ih, flatMap_cons]

theorem readsPattern_variantRest {sub : Parser Pattern} (hsub : ReadsPattern V k sub)
    {enum : Option (List String)} {name : String × Span} (start : Nat) (henum : enum ≠ some [])
    (hpath : V.All (enum.elim [] Print.path)) (hname : V.Has (.ident name.1)) :
    ReadsPattern V k (variantRest sub enum name start) := by
  have hvariant {fields : List Pattern} (h : ∀ p ∈ fields, p.Fit V) :
      (PatternKind.variant enum name.1 fields).Writable ∧
        V.All (PatternKind.variant enum name.1 fields).print := by
    obtain ⟨hwritable, hreadable⟩ := Vocabulary.fit_all Pattern.allWritable_iff Pattern.printAll_eq h
    exact ⟨⟨henum, hwritable⟩, by simp [PatternKind.print, hpath, hname, hreadable]⟩
  refine fun n => reads_accept fun bracket => ?_
  cases bracket
  · exact reads_mkPattern .nil (hvariant (forall_mem_nil _))
  · refine (readsFresh_commaList _ hsub n).bind fun fields n₁ ⟨h, hfields⟩ =>
      reads_expect fun _ => reads_mkPattern ⟨?_, rfl⟩ (hvariant hfields)
    rw [PatternKind.nodes, Pattern.allNodes_eq]
    exact h.numbered

theorem readsPattern_namedPattern {sub : Parser Pattern} (hsub : ReadsPattern V k sub) (start : Nat) :
    ReadsPattern V k (namedPattern sub start) := by
  have hpath (first : String) (hfirst : V.Has (.ident first)) : ReadsPattern V k (do
      let tail ← pathTail "path segment"
      let _ ← expect (.symbol .dot)
      variantRest sub (some (first :: tail.1)) (← ident "variant name") start) := by
    refine fun n => (shows_pathTail _).reads_bind fun tail htail => reads_expect fun _ =>
      reads_ident fun name hname => readsPattern_variantRest hsub start (by simp) ?_ hname n
    exact Vocabulary.all_path.2 (forall_mem_cons.2 ⟨hfirst, htail⟩)
  refine fun n => reads_ident fun first hfirst => quiet_peek.reads_bind fun l => ?_
  split
  · exact readsPattern_variantRest hsub start (by simp) (by simp) hfirst n
  · exact hpath _ hfirst n
  · exact hpath _ hfirst n
  · exact reads_mkPattern .nil ⟨trivial, by simpa [PatternKind.print] using hfirst⟩

theorem readsPattern_patternRule {sub : Parser Pattern} (hsub : ReadsPattern V k sub) :
    ReadsPattern V k (patternRule sub) := by
  intro n
  have hleaf (kind : PatternKind) (hkind : kind.nodes = []) (hfit : kind.Writable ∧ V.All kind.print) :
      Reads V k n (do mkPattern kind (← next)) (do mkPattern kind (← next))
        fun p n' => Fresh n n' p.nodes [] ∧ p.Fit V :=
    reads_next fun _ => reads_mkPattern (hkind ▸ .nil) hfit
  refine quiet_here.reads_bind fun start => shows_peek.reads_bind fun l hl => ?_
  split
  · exact hleaf _ rfl ⟨trivial, by simp [PatternKind.print]⟩
  · exact hleaf _ rfl ⟨trivial, by simpa [PatternKind.print, Print.int] using hl⟩
  · refine reads_next fun _ => shows_peek.reads_bind fun l hl => ?_
    split
    · exact reads_next fun _ =>
        reads_mkPattern .nil ⟨trivial, Vocabulary.all_neg (hl.resolve_left (by simp))⟩
    · exact reads_fail _
  · exact hleaf _ rfl ⟨trivial, by simp [PatternKind.print]⟩
  · exact hleaf _ rfl ⟨trivial, by simp [PatternKind.print]⟩
  · exact hleaf _ rfl ⟨trivial, by simpa [PatternKind.print] using hl⟩
  · exact reads_next fun _ => reads_ident fun name hname =>
      readsPattern_variantRest hsub _ (by simp) (by simp) hname n
  · exact readsPattern_namedPattern hsub _ n
  · exact reads_failExpected _

theorem readsPattern_pattern : ReadsPattern V k pattern := by
  refine fun n => quiet_get.reads_bind fun c => ?_
  generalize c.rest.length + 1 = depth
  revert n
  show ReadsPattern V k (patternWithin depth)
  induction depth with
  | zero => exact fun n => reads_failExpected _
  | succ depth ih => exact readsPattern_patternRule ih

/-! ### Types, expressions and blocks -/

/-- The parsers one level down, in two levels, read the same, and it is fresh and can be written.  What follows
`if` is read only after another token. -/
structure Level.Sound (V : Vocabulary) (k : Nat) (sub sub' : Level) : Prop where
  binary : ∀ least, ReadsExpr V k (sub.binary least) (sub'.binary least)
  unary : ReadsExpr V k sub.unary sub'.unary
  type : ReadsType V k sub.type sub'.type
  block : ReadsFresh V k Block.nodes Block.foundTypes (Block.Fit V) sub.block sub'.block
  conditional : ReadsFresh V (k - 1) Conditional.nodes Conditional.foundTypes (Conditional.Fit V) sub.conditional
    sub'.conditional

theorem Level.Sound.expr {sub sub' : Level} (h : Level.Sound V k sub sub') : ReadsExpr V k sub.expr sub'.expr :=
  h.binary 0

theorem Level.Sound.condition {sub sub' : Level} (h : Level.Sound V k sub sub') :
    ReadsExpr V k sub.condition sub'.condition := fun n => (h.expr n).withLiterals false

theorem Level.Sound.inner {sub sub' : Level} (h : Level.Sound V k sub sub') :
    ReadsExpr V k sub.inner sub'.inner := fun n => (h.expr n).withLiterals true

theorem allNodes_eq (es : List Expr) : Expr.allNodes es = es.flatMap Expr.nodes := by
  induction es with
  | nil => rfl
  | cons e rest ih => rw [Expr.allNodes, ih, flatMap_cons]

theorem allFoundTypes_eq (es : List Expr) : Expr.allFoundTypes es = es.flatMap Expr.foundTypes := by
  induction es with
  | nil => rfl
  | cons e rest ih => rw [Expr.allFoundTypes, ih, flatMap_cons]

theorem annFoundTypes_eq (anns : List TypeAnn) :
    TypeAnn.allFoundTypes anns = anns.flatMap TypeAnn.foundTypes := by
  induction anns with
  | nil => rfl
  | cons ann rest ih => rw [TypeAnn.allFoundTypes, ih, flatMap_cons]

theorem fieldNodes_eq (fs : List FieldInit) :
    FieldInit.allNodes fs = fs.flatMap (·.value.nodes) := by
  induction fs with
  | nil => rfl
  | cons f rest ih => cases f; rw [FieldInit.allNodes, ih, flatMap_cons]

theorem fieldFoundTypes_eq (fs : List FieldInit) :
    FieldInit.allFoundTypes fs = fs.flatMap (·.value.foundTypes) := by
  induction fs with
  | nil => rfl
  | cons f rest ih => cases f; rw [FieldInit.allFoundTypes, ih, flatMap_cons]

theorem reads_typeArgs {sub sub' : Level} (hsub : Level.Sound V k sub sub') (close : Symbol) (n : Nat) :
    Reads V k n (commaList close sub.type) (commaList close sub'.type)
      fun args n' => Fresh n n' [] (TypeAnn.allFoundTypes args) ∧ ∀ ann ∈ args, ann.Fit V :=
  (readsFresh_commaList close hsub.type n).imp fun args _ h =>
    ⟨annFoundTypes_eq args ▸ h.1.drop, h.2⟩

/-- The names of a place are those of the expression that was read for it. -/
theorem readable_place_of_assignTarget {e : Expr} {name : String} {fields : List String}
    (he : V.All e.print) (h : assignTarget e = .ok (name, fields)) :
    V.All (Print.place name fields) := by
  fun_induction assignTarget e generalizing name fields with
  | case1 id target span =>
    cases h
    simpa [Expr.print, ExprKind.print, PathExpr.print, TypeAnn.printAll] using he
  | case2 id base field nameSpan span target done hbase ih =>
    cases h
    simp only [Expr.print, ExprKind.print, Vocabulary.all_cons, Vocabulary.all_append] at he
    obtain ⟨hname, hdone⟩ := Vocabulary.all_place.1 (ih he.2.1.1 hbase)
    refine Vocabulary.all_place.2 ⟨hname, forall_mem_append.2 ⟨hdone, ?_⟩⟩
    exact forall_mem_singleton.2 he.2.1.2.2.1
  | case3 => cases h
  | case4 => cases h

theorem reads_someType {p p' : Parser TypeAnn} (h : ReadsType V k p p') (lead : Symbol) (n : Nat) :
    Reads V k n (some <$> p) (some <$> p') fun ty n' => Fresh n n' [] (TypeAnn.optFoundTypes ty) ∧
      TypeAnn.OptWritable ty ∧ V.All (TypeAnn.printOpt lead ty) :=
  (h n).map fun _ _ ⟨h, hfit⟩ => ⟨h, hfit.opt lead⟩

theorem reads_noType (lead : Symbol) (n : Nat) :
    Reads V k n (pure none) (pure none) fun ty n' => Fresh n n' [] (TypeAnn.optFoundTypes ty) ∧
      TypeAnn.OptWritable ty ∧ V.All (TypeAnn.printOpt lead ty) :=
  reads_pure ⟨.nil, trivial, by simp [TypeAnn.printOpt]⟩

theorem readsExpr_iterate {p p' : Parser Expr} {step step' : Expr → Parser (Round Expr)} (hp : ReadsExpr V k p p')
    (hstep : ∀ n m e, Fresh n m e.nodes e.foundTypes → e.Fit V → Reads V k m (step e) (step' e) fun r n' =>
      Fresh n n' r.value.nodes r.value.foundTypes ∧ r.value.Fit V) :
    ReadsExpr V k (p >>= iterate step) (p' >>= iterate step') := fun n =>
  (hp n).bind fun _ _ he => reads_iterate
    (I := fun e n' => Fresh n n' e.nodes e.foundTypes ∧ e.Fit V) (fun e m he => hstep n m e he.1 he.2) he

section Rules

variable {sub sub' : Level} (hsub : Level.Sound V k sub sub')

include hsub

theorem readsFresh_typeRule :
    ReadsFresh V (k + 1) (fun _ => []) TypeExpr.foundTypes (TypeExpr.Fit V) (typeRule sub)
      (typeRule sub') := by
  refine fun n => reads_accept fun bracket => ?_
  cases bracket
  · refine (shows_ident _).first eats_ident fun first hfirst => (shows_pathTail _).reads_bind fun tail htail => ?_
    have hpath : ∀ name ∈ first.1 :: tail.1, V.Has (.ident name) :=
      forall_mem_cons.2 ⟨hfirst, htail⟩
    refine (quiet_sees _).reads_bind fun bracket => ?_
    split
    · refine reads_pure ⟨.nil, ⟨by simp, .inl rfl, trivial⟩, ?_⟩
      simpa [TypeExpr.print, TypeAnn.printAll] using hpath
    · refine reads_next fun _ => ?_
      split
      · rename_i hkind
        rw [isSome_intKind?] at hkind
        refine (hsub.expr n).bind fun low n₁ hlow => reads_expect fun _ => ?_
        refine (hsub.expr n₁).bind fun high n₂ hhigh => reads_expect fun _ => ?_
        refine reads_pure ⟨hlow.1.drop.append hhigh.1.drop,
          ⟨⟨_, rfl, Option.isSome_iff_ne_none.1 hkind⟩, hlow.2.1, hhigh.2.1⟩, ?_⟩
        simpa [TypeExpr.print, TypeAnn.print, TypeAnn.printAll, hlow.2.2, hhigh.2.2] using hpath
      · rename_i hkind
        rw [isSome_intKind?] at hkind
        refine (reads_typeArgs hsub _ n).bind fun args n₁ ⟨h, hargs⟩ =>
          reads_expect fun _ => ?_
        obtain ⟨hwritable, hreadable⟩ := Vocabulary.fit_all TypeAnn.allWritable_iff TypeAnn.printAll_eq hargs
        refine reads_pure ⟨h, ⟨by simp, .inr (by simpa using hkind), hwritable⟩, ?_⟩
        simpa [TypeExpr.print, hreadable] using hpath
  · exact reads_expect fun _ => reads_pure ⟨.nil, trivial, by simp [TypeExpr.print]⟩

theorem readsType_typeAnnRule :
    ReadsType V (k + 1) (typeAnnRule sub) (typeAnnRule sub') := fun n =>
  quiet_here.reads_bind fun _ => (readsFresh_typeRule hsub n).bind fun _ _ h =>
    quiet_taken.reads_bind fun _ => reads_pure h

theorem readsFresh_conditionalRule :
    ReadsFresh V k Conditional.nodes Conditional.foundTypes (Conditional.Fit V) (conditionalRule sub)
      (conditionalRule sub') := by
  refine fun n => quiet_taken.reads_bind fun _ => ?_
  refine (hsub.condition n).bind fun condition n₁ ⟨hc, hcondition⟩ => ?_
  refine (hsub.block n₁).bind fun thenBlock n₂ ⟨ht, hthen⟩ => ?_
  have hfit {otherwise : ElseBranch} {span : Span} (hw : otherwise.Writable)
      (hr : V.All otherwise.print) : Conditional.Fit V ⟨condition, thenBlock, otherwise, span⟩ :=
    ⟨⟨hcondition.1, hthen.1, hw⟩, by simp [Conditional.print, hcondition.2, hthen.2, hr]⟩
  refine reads_accept_first ?_ (reads_pure ⟨hc.append (ht.append .nil), hfit trivial (by simp [ElseBranch.print])⟩)
  · refine reads_accept fun nested => ?_
    cases nested
    · exact ((hsub.block n₂).mono (Nat.sub_le k 1)).bind fun body n₃ ⟨hb, hbody⟩ => reads_pure
        ⟨hc.append (ht.append hb), hfit hbody.1 (by simpa [ElseBranch.print] using hbody.2)⟩
    · exact (hsub.conditional n₂).bind fun choice n₃ ⟨hb, hchoice⟩ => reads_pure
        ⟨hc.append (ht.append hb), hfit hchoice.1 (by simpa [ElseBranch.print] using hchoice.2)⟩

/-! ### Statements -/

theorem readsFresh_bindRule :
    ReadsFresh V k Stmt.nodes Stmt.foundTypes (Stmt.Fit V) (bindRule sub) (bindRule sub') := by
  refine fun n => quiet_taken.reads_bind fun _ => reads_accept fun _ => ?_
  refine reads_ident fun name hname => reads_accept fun _ => ?_
  refine ((reads_someType (readsType_typeAnnRule hsub) .colon n).mono (Nat.le_succ k)).ite_bind
    (reads_noType .colon n)
    fun ty n₁ ⟨hty, htyFit⟩ => reads_accept fun _ => ?_
  have hvalue := (hsub.expr n₁).map
    (Q := fun e n' => Fresh n₁ n' (Expr.optNodes e) (Expr.optFoundTypes e) ∧ Expr.OptWritable e ∧
      V.All (Expr.printOpt [.symbol .eq] e)) (f := some) fun _ _ ⟨h, hfit⟩ => ⟨h, hfit.opt (by simp)⟩
  refine hvalue.ite_bind (reads_pure ⟨.nil, trivial, by simp [Expr.printOpt]⟩)
    fun value n₂ ⟨hvalue, hvalueFit⟩ => reads_expect fun _ => ?_
  refine reads_freshId.bind fun id n₃ ⟨hid, hn⟩ => reads_pure ?_
  subst hid hn
  refine ⟨(hty.append hvalue).node rfl, ⟨htyFit.1, hvalueFit.1⟩, ?_⟩
  simp [Stmt.print, hname, htyFit.2, hvalueFit.2]

theorem readsFresh_returnRule :
    ReadsFresh V k Stmt.nodes Stmt.foundTypes (Stmt.Fit V) (returnRule sub) (returnRule sub') := by
  refine fun n => quiet_taken.reads_bind fun _ => reads_accept fun empty => ?_
  cases empty
  · refine (hsub.expr n).bind fun value n₁ ⟨h, hvalue⟩ => reads_expect fun _ =>
      reads_pure ⟨h, hvalue.1, ?_⟩
    simpa [Stmt.print, Expr.printOpt] using hvalue.2
  · exact quiet_taken.reads_bind fun _ =>
      reads_pure ⟨.nil, trivial, by simp [Stmt.print, Expr.printOpt]⟩

theorem readsFresh_loopRule :
    ReadsFresh V k Stmt.nodes Stmt.foundTypes (Stmt.Fit V) (loopRule sub) (loopRule sub') := by
  refine fun n => quiet_taken.reads_bind fun _ => (hsub.condition n).bind fun _ n₁ ⟨hc, hcondition⟩ =>
    (hsub.block n₁).bind fun _ _ ⟨hb, hbody⟩ => reads_pure ⟨hc.append hb, ⟨hcondition.1, hbody.1⟩, ?_⟩
  simp [Stmt.print, hcondition.2, hbody.2]

omit hsub in
def Piece.nodes : Piece → List Node
  | .stmt s => s.nodes
  | .tail e => e.nodes

omit hsub in
def Piece.foundTypes : Piece → List Ty
  | .stmt s => s.foundTypes
  | .tail e => e.foundTypes

omit hsub in
def Piece.Fit (V : Vocabulary) : Piece → Prop
  | .stmt s => s.Fit V
  | .tail e => e.Fit V

theorem readsFresh_exprPiece :
    ReadsFresh V k Piece.nodes Piece.foundTypes (Piece.Fit V) (exprPiece sub) (exprPiece sub') := by
  refine fun n => (hsub.expr n).bind fun e n₁ ⟨he, hfit⟩ => reads_accept fun assigned => ?_
  have hstmt : (Stmt.expr e).Fit V := ⟨hfit.1, by simpa [Stmt.print] using hfit.2⟩
  cases assigned
  · refine reads_accept fun closed => ?_
    cases closed
    · refine (quiet_sees _).reads_bind fun last => ?_
      split
      · exact reads_pure ⟨he, hfit⟩
      · split
        · exact reads_pure ⟨he, hstmt⟩
        · exact reads_fail _
    · exact reads_pure ⟨he, hstmt⟩
  · refine (hsub.expr n₁).bind fun value n₂ ⟨hv, hvalue⟩ => reads_expect fun close => ?_
    have hfresh : Fresh n n₂ value.nodes value.foundTypes := hv.after he.numbered.le
    split
    · rename_i htarget
      have hplace := readable_place_of_assignTarget hfit.2 htarget
      exact reads_pure ⟨hfresh, hvalue.1, by simp [Stmt.print, hplace, hvalue.2]⟩
    · rename_i hfields htarget
      have hplace := readable_place_of_assignTarget hfit.2 htarget
      exact reads_pure ⟨hfresh, ⟨hfields, hvalue.1⟩, by simp [Stmt.print, hplace, hvalue.2]⟩
    · exact reads_throw _

theorem readsFresh_pieceRule :
    ReadsFresh V k Piece.nodes Piece.foundTypes (Piece.Fit V) (pieceRule sub) (pieceRule sub') := by
  refine fun n => quiet_peek.reads_bind fun l => ?_
  split
  · exact reads_next fun _ => (readsFresh_bindRule hsub n).bind fun _ _ h => reads_pure h
  · exact reads_next fun _ => (readsFresh_returnRule hsub n).bind fun _ _ h => reads_pure h
  · exact reads_next fun _ => (readsFresh_loopRule hsub n).bind fun _ _ h => reads_pure h
  · exact reads_next fun _ => reads_expect fun _ =>
      reads_pure ⟨.nil, trivial, by simp [Stmt.print]⟩
  · exact reads_next fun _ => reads_expect fun _ =>
      reads_pure ⟨.nil, trivial, by simp [Stmt.print]⟩
  · refine reads_next fun _ => ?_
    refine (readsFresh_conditionalRule hsub n).bind fun choice n₁ ⟨h, hchoice⟩ => ?_
    have hstmt : Reads V k n₁ (do let _ ← accept (.symbol .semi); return Piece.stmt (.cond choice)) _
        fun piece n' => Fresh n n' piece.nodes piece.foundTypes ∧ piece.Fit V :=
      reads_accept fun _ =>
        reads_pure ⟨h, hchoice.1, by simpa [Stmt.print] using hchoice.2⟩
    have hkind : (ExprKind.cond choice).Fit V := ⟨hchoice.1, by simpa [ExprKind.print] using hchoice.2⟩
    split
    · refine (quiet_sees _).reads_bind fun last => ?_
      cases last
      · exact hstmt
      · exact (reads_mkExpr h hkind).bind fun _ _ he => reads_pure he
    · exact hstmt
  · refine (hsub.block n).bind fun body n₁ ⟨h, hbody⟩ => ?_
    have hstmt : (Stmt.block body).Fit V := ⟨hbody.1, by simpa [Stmt.print] using hbody.2⟩
    have hkind : (ExprKind.block body).Fit V := ⟨hbody.1, by simpa [ExprKind.print] using hbody.2⟩
    split
    · refine (quiet_sees _).reads_bind fun last => ?_
      cases last
      · exact reads_pure ⟨h, hstmt⟩
      · exact (reads_mkExpr h hkind).bind fun _ _ he => reads_pure he
    · exact reads_pure ⟨h, hstmt⟩
  · exact readsFresh_exprPiece hsub n

theorem readsFresh_blockRounds (fuel : Nat) :
    ReadsFresh V k (fun b => Stmt.allNodes b.1 ++ Expr.optNodes b.2)
      (fun b => Stmt.allFoundTypes b.1 ++ Expr.optFoundTypes b.2)
      (fun b => (Stmt.AllWritable b.1 ∧ Expr.OptWritable b.2) ∧
        V.All (Stmt.printAll b.1) ∧ V.All (Expr.printOpt [] b.2)) (blockRounds sub fuel) (blockRounds sub' fuel) := by
  have hnil : V.All (Stmt.printAll []) ∧ V.All (Expr.printOpt [] none) := by
    simp [Stmt.printAll, Expr.printOpt]
  induction fuel with
  | zero => exact fun n => reads_pure ⟨.nil, ⟨trivial, trivial⟩, hnil⟩
  | succ fuel ih =>
    refine fun n => (quiet_ended _).reads_bind fun done => ?_
    cases done
    · refine reads_accept fun skipped => ?_
      cases skipped
      · refine (readsFresh_pieceRule hsub n).bind fun piece n₁ ⟨h, hpiece⟩ => ?_
        cases piece with
        | stmt s =>
          refine (ih n₁).bind fun b n₂ ⟨hb, ⟨hstmts, htail⟩, hrest⟩ =>
            reads_pure ⟨?_, ⟨⟨hpiece.1, hstmts⟩, htail⟩, ?_⟩
          · simp only [Stmt.allNodes, Stmt.allFoundTypes, append_assoc]
            exact h.append hb
          · simpa [Stmt.printAll, hpiece.2] using hrest
        | tail e =>
          refine reads_pure ⟨h, ⟨trivial, hpiece.1⟩, ?_⟩
          simpa [Stmt.printAll, Expr.printOpt] using hpiece.2
      · exact ih n
    · exact reads_pure ⟨.nil, ⟨trivial, trivial⟩, hnil⟩

theorem readsFresh_blockRule :
    ReadsFresh V (k + 1) Block.nodes Block.foundTypes (Block.Fit V) (blockRule sub) (blockRule sub') := by
  refine fun n => (quiet_expect _).first eats_expect fun _ _ =>
    ((quiet_get.reads_bind fun _ => readsFresh_blockRounds hsub _ n).withLiterals true).bind
      fun r _ ⟨h, hwritable, hreadable⟩ => reads_expect fun _ => reads_pure ⟨h, hwritable, ?_⟩
  simpa [Block.print] using hreadable

/-! ### Expressions -/

theorem readsFresh_fieldInit :
    ReadsFresh V k (·.value.nodes) (·.value.foundTypes) (FieldInit.Fit V) (fieldInit sub) (fieldInit sub') := by
  refine fun n => reads_ident fun name hname => reads_expect fun _ =>
    (hsub.expr n).bind fun value _ ⟨h, hvalue⟩ => reads_pure ⟨h, hvalue.1, ?_⟩
  simp [FieldInit.print, hname, hvalue.2]

theorem reads_pathRest {low n : Nat} {segments : List String} {args : List TypeAnn} (start stop : Nat)
    (hne : segments ≠ []) (hsegments : ∀ name ∈ segments, V.Has (.ident name))
    (hargs : Fresh low n [] (TypeAnn.allFoundTypes args)) (hfit : ∀ ann ∈ args, ann.Fit V) :
    Reads V k n (pathRest sub ⟨segments, args⟩ start stop) (pathRest sub' ⟨segments, args⟩ start stop)
      fun e n' => Fresh low n' e.nodes e.foundTypes ∧ e.Fit V := by
  obtain ⟨hargsWritable, hargsAll⟩ := Vocabulary.fit_all TypeAnn.allWritable_iff TypeAnn.printAll_eq hfit
  have hwritable : (PathExpr.mk segments args).Writable := ⟨hne, hargsWritable⟩
  have hreadable : V.All (PathExpr.mk segments args).print := by
    rw [PathExpr.print, Vocabulary.all_append, Vocabulary.all_path, Vocabulary.all_enclosed]
    exact ⟨hsegments, hargsAll⟩
  have hpath : (ExprKind.path ⟨segments, args⟩).Fit V :=
    ⟨hwritable, by simpa only [ExprKind.print] using hreadable⟩
  refine quiet_literalsAllowed.reads_bind fun allowed => ?_
  split
  · rename_i hname
    refine reads_accept fun brace => ?_
    split
    · refine (readsFresh_commaList _ (readsFresh_fieldInit hsub) n).bind fun fields n₂ ⟨h, hfields⟩ =>
        reads_expect fun _ => reads_mkExpr ?_ ?_
      · simp only [← fieldNodes_eq, ← fieldFoundTypes_eq] at h
        exact hargs.append h
      · obtain ⟨hw, hr⟩ := Vocabulary.fit_all FieldInit.allWritable_iff FieldInit.printAll_eq hfields
        exact ⟨⟨(Bool.and_eq_true_iff.1 hname).1, hwritable, hw⟩, by simp [ExprKind.print, hreadable, hr]⟩
    · exact reads_mkExpr hargs hpath
  · exact reads_mkExpr hargs hpath

theorem readsExpr_pathRule : ReadsExpr V (k + 1) (pathRule sub) (pathRule sub') := by
  refine fun n => (shows_ident _).first eats_ident fun first hfirst =>
    (shows_pathTail _).reads_bind fun tail htail => reads_accept fun bracket => ?_
  have hsegments : ∀ name ∈ first.1 :: tail.1, V.Has (.ident name) := forall_mem_cons.2 ⟨hfirst, htail⟩
  cases bracket
  · exact reads_pathRest hsub _ _ (by simp) hsegments .nil (forall_mem_nil _)
  · exact (reads_typeArgs hsub _ n).bind fun args n₁ ⟨hargs, hfit⟩ =>
      reads_expect fun stop => reads_pathRest hsub _ _ (by simp) hsegments hargs hfit

theorem readsFresh_armRounds (fuel : Nat) :
    ReadsFresh V k Arm.allNodes Arm.allFoundTypes (∀ arm ∈ ·, arm.Fit V) (armRounds sub fuel)
      (armRounds sub' fuel) := by
  induction fuel with
  | zero => exact fun n => reads_pure ⟨.nil, forall_mem_nil _⟩
  | succ fuel ih =>
    refine fun n => (quiet_ended _).reads_bind fun done => ?_
    cases done
    · refine (readsPattern_pattern n).bind fun p n₁ ⟨hp, hpattern⟩ => reads_expect fun _ => ?_
      refine (hsub.inner n₁).bind fun body n₂ ⟨hb, hbody⟩ => reads_accept fun comma => ?_
      have hmore : Reads V k n₂ (do
          return (⟨p, body, p.span.cover body.span⟩ : Arm) :: (← armRounds sub fuel))
          (do return ⟨p, body, p.span.cover body.span⟩ :: (← armRounds sub' fuel))
          fun arms n' => Fresh n n' (Arm.allNodes arms) (Arm.allFoundTypes arms) ∧ ∀ arm ∈ arms, arm.Fit V := by
        refine (ih n₂).bind fun arms n₃ ⟨h, harms⟩ => reads_pure ⟨hp.append (hb.append h),
          forall_mem_cons.2 ⟨⟨⟨hpattern.1, hbody.1⟩, ?_⟩, harms⟩⟩
        simp [Arm.print, hpattern.2, hbody.2]
      cases comma
      · refine (quiet_sees _).reads_bind fun last => ?_
        cases last
        · exact (reads_fail (R := fun _ _ => False) _).bind fun _ _ h => h.elim
        · exact hmore
      · exact hmore
    · exact reads_pure ⟨.nil, forall_mem_nil _⟩

theorem readsExpr_selectRule : ReadsExpr V k (selectRule sub) (selectRule sub') := by
  refine fun n => quiet_taken.reads_bind fun _ => (hsub.condition n).bind fun scrutinee n₁ ⟨hs, hscrutinee⟩ =>
    reads_expect fun _ => quiet_get.reads_bind fun _ =>
      (readsFresh_armRounds hsub _ n₁).bind fun arms _ ⟨ha, harms⟩ =>
        reads_expect fun _ => reads_mkExpr (hs.append ha) ?_
  obtain ⟨hw, hr⟩ := Vocabulary.fit_all Arm.allWritable_iff Arm.printAll_eq harms
  exact ⟨⟨hscrutinee.1, hw⟩, by simp [ExprKind.print, hscrutinee.2, hr]⟩

theorem readsExpr_primaryRule :
    ReadsExpr V (k + 1) (primaryRule sub) (primaryRule sub') := by
  intro n
  have hleaf (value : Literal) (hvalue : V.All value.print) : Reads V (k + 1) n (do mkExpr (.literal value) (← next)) _
      fun e n' => Fresh n n' e.nodes e.foundTypes ∧ e.Fit V :=
    reads_next fun _ => reads_mkExpr .nil ⟨trivial, by simpa [ExprKind.print] using hvalue⟩
  refine shows_peek.reads_bind fun l hl => ?_
  split
  · exact quiet_next.first eats_next fun _ _ => readsExpr_selectRule hsub n
  · exact quiet_next.first eats_next fun _ _ => (readsFresh_conditionalRule hsub n).bind fun _ _ ⟨h, hchoice⟩ =>
      reads_mkExpr h ⟨hchoice.1, by simpa [ExprKind.print] using hchoice.2⟩
  · exact (readsFresh_blockRule hsub n).bind fun _ _ ⟨h, hbody⟩ =>
      reads_mkExpr h ⟨hbody.1, by simpa [ExprKind.print] using hbody.2⟩
  · exact readsExpr_pathRule hsub n
  · exact hleaf _ (by simpa [Literal.print, Print.int] using hl)
  · exact hleaf _ (by simpa [Literal.print] using hl)
  · exact hleaf _ (by simp [Literal.print])
  · exact hleaf _ (by simp [Literal.print])
  · exact quiet_next.first eats_next fun _ _ => (hsub.inner n).bind fun _ _ h =>
      reads_expect fun _ => reads_pure h
  · exact reads_failExpected _

theorem readsExpr_postfixRule :
    ReadsExpr V (k + 1) (postfixRule sub) (postfixRule sub') := by
  refine readsExpr_iterate (readsExpr_primaryRule hsub) fun n m e he hfit => reads_accept_first ?_ ?_
  · refine ((readsFresh_commaList _ hsub.expr m).withLiterals true).bind fun args m₁ ⟨hargs, hargsFit⟩ =>
      reads_expect fun _ => ?_
    simp only [← allNodes_eq, ← allFoundTypes_eq] at hargs
    obtain ⟨hw, hr⟩ := Vocabulary.fit_all Expr.allWritable_iff Expr.printAll_eq hargsFit
    have hkind : (ExprKind.call e args).Fit V := ⟨⟨hfit.1, hw⟩, by simp [ExprKind.print, hfit.2, hr]⟩
    exact (reads_mkExpr (he.append hargs) hkind).bind fun _ _ h => reads_pure h
  · refine reads_accept fun dot => ?_
    cases dot
    · exact reads_pure ⟨he, hfit⟩
    · refine reads_ident fun name hname => ?_
      have hkind : (ExprKind.member e name.1 name.2).Fit V :=
        ⟨hfit.1, by simp [ExprKind.print, hfit.2, hname]⟩
      exact (reads_mkExpr he hkind).bind fun _ _ h => reads_pure h

theorem readsExpr_unaryRule :
    ReadsExpr V (k + 1) (unaryRule sub) (unaryRule sub') := by
  refine fun n => quiet_peek.reads_bind fun l => ?_
  split
  · exact readsExpr_postfixRule hsub n
  · refine quiet_next.first eats_next fun _ _ => shows_peek.reads_bind fun l hl => ?_
    split
    · exact reads_next fun _ =>
        reads_mkExpr .nil ⟨trivial, Vocabulary.all_neg (hl.resolve_left (by simp))⟩
    · exact (hsub.unary n).bind fun _ _ ⟨h, hfit⟩ =>
        reads_mkExpr h ⟨hfit.1, by simpa [ExprKind.print] using hfit.2⟩

theorem readsExpr_castRule :
    ReadsExpr V (k + 1) (castRule sub) (castRule sub') := by
  refine readsExpr_iterate (readsExpr_unaryRule hsub) fun n m e he hfit => ?_
  refine reads_accept fun cast => ?_
  cases cast
  · exact reads_pure ⟨he, hfit⟩
  · refine (readsType_typeAnnRule hsub m).bind fun ty m₁ ⟨hty, htyFit⟩ => ?_
    have hcast : Fresh n m₁ (ExprKind.cast e ty).nodes (ExprKind.cast e ty).foundTypes := by
      have := he.append hty
      rwa [append_nil] at this
    have hkind : (ExprKind.cast e ty).Fit V :=
      ⟨⟨hfit.1, htyFit.1⟩, by simp [ExprKind.print, hfit.2, htyFit.2]⟩
    exact (reads_mkExpr hcast hkind).bind fun _ _ h => reads_pure h

theorem readsExpr_binaryRule (least : Nat) :
    ReadsExpr V (k + 1) (binaryRule sub least) (binaryRule sub' least) := by
  refine readsExpr_iterate (readsExpr_castRule hsub) fun n m e he hfit => ?_
  refine quiet_peek.reads_bind fun l => ?_
  split
  · exact reads_pure ⟨he, hfit⟩
  · rename_i op _
    split
    · exact reads_pure ⟨he, hfit⟩
    · refine quiet_next.first eats_next fun _ _ => (hsub.binary _ m).bind fun right m₁ ⟨hr, hright⟩ => ?_
      have hkind : (ExprKind.binary op e right).Fit V :=
        ⟨⟨hfit.1, hright.1⟩, by simp [ExprKind.print, hfit.2, hright.2]⟩
      exact (reads_mkExpr (he.append hr) hkind).bind fun _ _ h => reads_pure h

end Rules

/-- At the end of the text, parsers that may go no deeper fail as all others do. -/
theorem readsFresh_failExpected {α : Type} {nodes : α → List Node} {types : α → List Ty} {fit : α → Prop}
    {what : String} {p : Parser α}
    (h : ∀ last nextId lit, p ⟨[], last, nextId, lit⟩ = failExpected what ⟨[], last, nextId, lit⟩) :
    ReadsFresh V 0 nodes types fit (failExpected what) p := by
  rintro n ⟨rest, last, nextId, lit⟩ hn ⟨hk, -⟩
  obtain rfl := eq_nil_of_length_eq_zero (Nat.le_zero.1 hk)
  exact ⟨(h last nextId lit).symm, .refl _, fun _ _ h => nomatch h⟩

/-- **Whatever is read has numbers of its own and can be written**, and parsers that may go as deep as there are
tokens ahead need not go deeper.  By induction on the depth: the rules keep it from one level to the next. -/
theorem Level.sound_within {depth depth' : Nat} (hle : depth ≤ depth') :
    Level.Sound V depth (Level.within depth) (Level.within depth') := by
  induction depth generalizing depth' with
  | zero => constructor <;> intros <;> refine readsFresh_failExpected fun _ _ _ => ?_ <;>
      rcases depth' with _ | _ | depth' <;> rfl
  | succ depth ih =>
    obtain ⟨depth', rfl⟩ : ∃ more, depth' = more + 1 := ⟨depth' - 1, by omega⟩
    have h : Level.Sound V depth _ _ := ih (Nat.le_of_succ_le_succ hle)
    exact ⟨readsExpr_binaryRule h, readsExpr_unaryRule h, readsType_typeAnnRule h,
      readsFresh_blockRule h, readsFresh_conditionalRule h⟩

/-! ### Imports -/

theorem shows_selector : Shows V selector fun s => V.All s.print := by
  refine (shows_ident _).bind fun name hname => (quiet_accept _).bind fun renamed => ?_
  cases renamed
  · exact shows_pure (by simpa [Selector.print] using hname)
  · exact (shows_ident _).bind fun renamed hrenamed =>
      shows_pure (by simp [Selector.print, hname, hrenamed])

theorem shows_importRounds (fuel : Nat) : Shows V (importRounds fuel) fun r =>
    (∀ name ∈ r.1, V.Has (.ident name)) ∧
      ∀ selectors, r.2 = some selectors → ∀ s ∈ selectors, V.All s.print := by
  induction fuel with
  | zero => exact shows_pure ⟨forall_mem_nil _, by simp⟩
  | succ fuel ih =>
    refine (quiet_accept _).bind fun more => ?_
    cases more
    · exact shows_pure ⟨forall_mem_nil _, by simp⟩
    · refine (quiet_accept _).bind fun brace => ?_
      cases brace
      · exact (shows_ident _).bind fun name hname => ih.bind fun rest hrest =>
          shows_pure ⟨forall_mem_cons.2 ⟨hname, hrest.1⟩, hrest.2⟩
      · refine (shows_commaList _ shows_selector).bind fun selectors hselectors =>
          (quiet_expect _).bind fun _ => shows_pure ⟨forall_mem_nil _, ?_⟩
        rintro _ ⟨⟩
        exact hselectors

theorem exists_importDecl_eq : ∃ q : Span → Parser Import, importDecl = expect (.keyword .importKw) >>= q ∧
    ∀ span, Shows V (q span) fun i => i.Writable ∧ V.All i.print := by
  refine ⟨_, rfl, fun start => ?_⟩
  refine (shows_ident _).bind fun first hfirst =>
    quiet_get.bind fun c => (shows_importRounds _).bind fun (segments, selectors) hrounds => ?_
  have hclose (kind : ImportKind) (hkind : V.All kind.print) : Shows V (do
      let close ← expect (.symbol .semi)
      return (⟨first.1 :: segments, kind, ⟨start.start, close.stop⟩⟩ : Import))
      fun i => i.Writable ∧ V.All i.print := by
    refine (quiet_expect _).bind fun _ => shows_pure ⟨cons_ne_nil _ _, ?_⟩
    simpa [Import.print, hkind] using ⟨hfirst, hrounds.1⟩
  cases selectors with
  | some selectors =>
    exact hclose (.names selectors) (by simpa [ImportKind.print] using hrounds.2 selectors rfl)
  | none =>
    refine (quiet_accept _).bind fun renamed => ?_
    cases renamed
    · exact hclose (.module none) (by simp [ImportKind.print])
    · exact (shows_ident _).bind fun renamed hrenamed =>
        hclose (.module renamed.1) (by simpa [ImportKind.print] using hrenamed)

theorem shows_typeParams : Shows V typeParams fun names => ∀ name ∈ names, V.Has (.ident name) := by
  have hname : Shows V (Prod.fst <$> ident "type parameter") fun name => V.Has (.ident name) :=
    (shows_ident _).map fun _ h => h
  refine (quiet_accept _).bind fun bracket => ?_
  cases bracket
  · exact shows_pure (forall_mem_nil _)
  · exact (shows_commaList _ hname).bind fun names hnames => (quiet_expect _).bind fun _ =>
      shows_pure hnames

/-! ### Declarations -/

end Grammar

def Item.nodes : Item → List Node
  | .function d => d.body.nodes
  | .impl block => block.methods.flatMap (·.body.nodes)
  | _ => []

def Item.foundTypes : Item → List Ty
  | .struct d => d.fields.flatMap (·.ty.foundTypes)
  | .enum d => d.variants.flatMap fun v => TypeAnn.allFoundTypes v.fields
  | .trait d => d.methods.flatMap fun m =>
      m.params.flatMap (·.ty.foundTypes) ++ TypeAnn.optFoundTypes m.ret
  | .impl block => block.target.foundTypes ++ block.methods.flatMap FunctionDef.foundTypes
  | .function d => d.foundTypes
  | .const d => TypeAnn.optFoundTypes d.ty ++ d.value.foundTypes
  | .typeAlias d => d.ty.foundTypes

def Item.Fit (V : Vocabulary) (i : Item) : Prop := i.Writable ∧ V.All i.print

namespace Grammar

section Declarations

variable {sub sub' : Level} (hsub : Level.Sound V k sub sub') (start : Nat) (isPublic : Bool)

include hsub

theorem readsFresh_fieldDef : ReadsFresh V k (fun _ => []) (·.ty.foundTypes)
    (fun f => f.ty.Writable ∧ V.All f.print) (fieldDef sub) (fieldDef sub') := by
  refine fun n => quiet_here.reads_bind fun _ => reads_accept fun _ =>
    reads_ident fun name hname => reads_expect fun _ =>
      (hsub.type n).bind fun ty _ ⟨h, hty⟩ => reads_pure ⟨h, hty.1, ?_⟩
  simp [FieldDef.print, hname, hty.2]

theorem readsFresh_structDef : ReadsFresh V k (fun _ => []) (·.fields.flatMap (·.ty.foundTypes))
    (fun d => (Item.struct d).Fit V) (structDef sub start isPublic) (structDef sub' start isPublic) := by
  refine fun n => reads_ident fun name hname => shows_typeParams.reads_bind fun params hparams =>
    reads_expect fun _ => (readsFresh_runList _ _ (readsFresh_fieldDef hsub) n).bind
      fun fields _ ⟨h, hfields⟩ => reads_expect fun _ =>
        reads_pure ⟨h.drop, fun f hf => (hfields f hf).1, ?_⟩
  simpa [Item.print, hname] using ⟨hparams, fun f hf => (hfields f hf).2⟩

theorem readsFresh_variantDef : ReadsFresh V k (fun _ => []) (fun v => TypeAnn.allFoundTypes v.fields)
    (fun v => (∀ ann ∈ v.fields, ann.Writable) ∧ V.All v.print) (variantDef sub) (variantDef sub') := by
  refine fun n => reads_ident fun name hname => reads_accept fun bracket => ?_
  cases bracket
  · refine reads_pure ⟨.nil, forall_mem_nil _, ?_⟩
    simpa [VariantDef.print, Print.items, Print.enclosed] using hname
  · refine (reads_typeArgs hsub _ n).bind ?_
    rintro fields _ ⟨h, hfields⟩
    refine reads_expect fun _ => reads_pure ⟨h, fun ann hann => (hfields ann hann).1, ?_⟩
    simpa [VariantDef.print, hname] using fun ann hann => (hfields ann hann).2

theorem readsFresh_enumDef : ReadsFresh V k (fun _ => [])
    (·.variants.flatMap fun v => TypeAnn.allFoundTypes v.fields) (fun d => (Item.enum d).Fit V)
    (enumDef sub start isPublic) (enumDef sub' start isPublic) := by
  refine fun n => reads_ident fun name hname => shows_typeParams.reads_bind fun params hparams =>
    reads_expect fun _ => (readsFresh_runList _ _ (readsFresh_variantDef hsub) n).bind
      fun variants _ ⟨h, hvariants⟩ => reads_expect fun _ =>
        reads_pure ⟨h.drop, fun v hv => (hvariants v hv).1, ?_⟩
  simpa [Item.print, hname] using ⟨hparams, fun v hv => (hvariants v hv).2⟩

theorem readsFresh_paramList : ReadsFresh V k (fun _ => []) (·.flatMap (·.ty.foundTypes))
    (∀ p ∈ ·, p.ty.Writable ∧ V.All p.print) (paramList sub) (paramList sub') := by
  have hparam : ReadsFresh V k (fun _ => []) (·.ty.foundTypes) (fun p => p.ty.Writable ∧ V.All p.print)
      (paramDef sub) (paramDef sub') := by
    refine fun n => quiet_here.reads_bind fun _ => reads_accept fun _ =>
      reads_ident fun name hname => reads_expect fun _ =>
        (hsub.type n).bind fun ty _ ⟨h, hty⟩ => reads_pure ⟨h, hty.1, ?_⟩
    simp [ParamDef.print, hname, hty.2]
  exact fun n => reads_expect fun _ => (readsFresh_commaList _ hparam n).bind
    fun _ _ ⟨h, hparams⟩ => reads_expect fun _ => reads_pure ⟨h.drop, hparams⟩

theorem readsFresh_returnType : ReadsFresh V k (fun _ => []) TypeAnn.optFoundTypes
    (fun ret => TypeAnn.OptWritable ret ∧ V.All (TypeAnn.printOpt .arrow ret)) (returnType sub) (returnType sub') := by
  refine fun n => reads_accept fun arrow => ?_
  cases arrow
  · exact reads_noType .arrow n
  · exact (hsub.type n).bind fun _ _ ⟨h, hret⟩ => reads_pure ⟨h, hret.opt .arrow⟩

omit hsub in
theorem fit_signature {params : List ParamDef} {ret : Option TypeAnn}
    (hparams : ∀ p ∈ params, p.ty.Writable ∧ V.All p.print)
    (hret : TypeAnn.OptWritable ret ∧ V.All (TypeAnn.printOpt .arrow ret)) :
    Print.SignatureWritable params ret ∧ V.All (Print.signature params ret) := by
  refine ⟨⟨fun p hp => (hparams p hp).1, hret.1⟩, ?_⟩
  simpa [Print.signature, hret.2] using fun p hp => (hparams p hp).2

theorem readsFresh_traitDef : ReadsFresh V k (fun _ => []) (fun d => (Item.trait d).foundTypes)
    (fun d => (Item.trait d).Fit V) (traitDef sub start isPublic) (traitDef sub' start isPublic) := by
  have hmethod : ReadsFresh V k (fun _ => [])
      (fun m => m.params.flatMap (·.ty.foundTypes) ++ TypeAnn.optFoundTypes m.ret)
      (fun m => Print.SignatureWritable m.params m.ret ∧ V.All m.print) (methodSpec sub) (methodSpec sub') := by
    refine fun n => reads_expect fun _ => reads_ident fun name hname =>
      (readsFresh_paramList hsub n).bind fun _ n₁ ⟨hp, hparams⟩ =>
        (readsFresh_returnType hsub n₁).bind fun _ _ ⟨hr, hret⟩ => reads_expect fun _ => ?_
    obtain ⟨hwritable, hreadable⟩ := fit_signature hparams hret
    exact reads_pure ⟨hp.append hr, hwritable, by simp [MethodSpec.print, hname, hreadable]⟩
  refine fun n => reads_ident fun name hname => reads_expect fun _ =>
    (readsFresh_runList _ _ hmethod n).bind fun methods _ ⟨h, hmethods⟩ =>
      reads_expect fun _ => reads_pure ⟨h.drop, fun m hm => (hmethods m hm).1, ?_⟩
  simpa [Item.print, hname] using fun m hm => (hmethods m hm).2

theorem readsFresh_functionDef : ReadsFresh V k (·.body.nodes) FunctionDef.foundTypes
    (fun f => f.Writable ∧ V.All f.print) (functionDef sub start isPublic) (functionDef sub' start isPublic) := by
  refine fun n => reads_ident fun name hname =>
    shows_typeParams.reads_bind fun typeParams htypeParams =>
      (readsFresh_paramList hsub n).bind fun _ n₁ ⟨hp, hparams⟩ =>
        (readsFresh_returnType hsub n₁).bind fun _ n₂ ⟨hr, hret⟩ =>
          (hsub.block n₂).bind fun body _ ⟨hb, hbody⟩ => ?_
  obtain ⟨hwritable, hreadable⟩ := fit_signature hparams hret
  refine reads_pure ⟨hp.append (hr.append hb), ⟨hwritable, hbody.1⟩, ?_⟩
  simpa [FunctionDef.print, hname, hreadable, hbody.2] using htypeParams

theorem readsFresh_implBlock : ReadsFresh V k (fun d => (Item.impl d).nodes) (fun d => (Item.impl d).foundTypes)
    (fun d => (Item.impl d).Fit V) (implBlock sub start) (implBlock sub' start) := by
  have hmethod : ReadsFresh V k (·.body.nodes) FunctionDef.foundTypes
      (fun f => f.Writable ∧ V.All f.printMethod) (methodDef sub) (methodDef sub') := fun n =>
    quiet_here.reads_bind fun _ => reads_accept fun _ =>
      reads_expect fun _ => (readsFresh_functionDef hsub _ _ n).imp fun f _ ⟨h, hf⟩ =>
        ⟨h, hf.1, by simpa [FunctionDef.printMethod] using hf.2⟩
  intro n
  have hmethods (traitExpr : Option TypeExpr) (target : TypeAnn) (n₁ : Nat)
      (htarget : Fresh n n₁ [] target.foundTypes) (htrait : ∀ expr ∈ traitExpr, expr.Fit V)
      (hfit : target.Fit V) : Reads V k n₁ (implMethods sub start traitExpr target) (implMethods sub' start traitExpr target)
        fun d n' => Fresh n n' (Item.impl d).nodes (Item.impl d).foundTypes ∧ (Item.impl d).Fit V := by
    refine reads_expect fun _ => (readsFresh_runList _ _ hmethod n₁).bind
      fun methods _ ⟨h, hmethods⟩ => reads_expect fun _ => reads_pure ⟨htarget.append h,
        ⟨fun expr h => (htrait expr h).1, hfit.1, fun f hf => (hmethods f hf).1⟩, ?_⟩
    have hlead : V.All (traitExpr.elim [] fun expr => expr.print ++ [.keyword .forKw]) := by
      cases traitExpr with
      | none => simp
      | some expr => simpa using (htrait expr rfl).2
    simpa [Item.print, ImplBlock.print, hlead, hfit.2] using fun f hf => (hmethods f hf).2
  refine (hsub.type n).bind fun first n₁ ⟨hfirst, hfirstFit⟩ => reads_accept fun named => ?_
  cases named
  · exact hmethods none first n₁ hfirst (by simp) hfirstFit
  · refine (hsub.type n₁).bind fun target n₂ ⟨ht, htarget⟩ =>
      hmethods (some first.expr) target n₂ (ht.after hfirst.numbered.le) ?_ htarget
    rintro _ ⟨⟩
    exact hfirstFit.expr

theorem readsFresh_constDef : ReadsFresh V k (fun _ => []) (fun d => (Item.const d).foundTypes)
    (fun d => (Item.const d).Fit V) (constDef sub start isPublic) (constDef sub' start isPublic) := by
  refine fun n => reads_ident fun name hname => reads_accept fun _ => ?_
  refine (reads_someType hsub.type .colon n).ite_bind (reads_noType .colon n)
    fun ty n₁ ⟨hty, htyFit⟩ => reads_expect fun _ => ?_
  refine (hsub.expr n₁).bind fun value _ ⟨h, hvalue⟩ => reads_expect fun _ =>
    reads_pure ⟨hty.append h.drop, ⟨htyFit.1, hvalue.1⟩, ?_⟩
  simp [Item.print, hname, htyFit.2, hvalue.2]

theorem readsFresh_aliasDef : ReadsFresh V k (fun _ => []) (·.ty.foundTypes)
    (fun d => (Item.typeAlias d).Fit V) (aliasDef sub start isPublic) (aliasDef sub' start isPublic) := by
  refine fun n => reads_ident fun name hname => reads_expect fun _ =>
    (hsub.type n).bind fun ty _ ⟨h, hty⟩ => reads_expect fun _ =>
      reads_pure ⟨h, hty.1, ?_⟩
  simp [Item.print, hname, hty.2]

omit hsub in
theorem exists_item_eq : ∃ q : Level → Span → Bool → Parser Item,
    (∀ sub, item sub = here >>= fun start => visibility >>= fun isPublic => q sub start isPublic) ∧
      ∀ {k : Nat} {sub sub' : Level}, Level.Sound V k sub sub' → ∀ start isPublic,
        ReadsFresh V k Item.nodes Item.foundTypes (Item.Fit V) (q sub start isPublic) (q sub' start isPublic) := by
  refine ⟨_, fun sub => rfl, fun hsub start isPublic n => quiet_peek.reads_bind fun l => ?_⟩
  split
  · exact reads_next fun _ => (readsFresh_structDef hsub _ _ n).bind fun _ _ h => reads_pure h
  · exact reads_next fun _ => (readsFresh_enumDef hsub _ _ n).bind fun _ _ h => reads_pure h
  · exact reads_next fun _ => (readsFresh_traitDef hsub _ _ n).bind fun _ _ h => reads_pure h
  · refine reads_next fun _ => (readsFresh_functionDef hsub _ _ n).bind fun f _ ⟨h, hf⟩ =>
      reads_pure ⟨h, hf.1, ?_⟩
    simpa [Item.print, FunctionDef.printMethod] using hf.2
  · exact reads_next fun _ => (readsFresh_constDef hsub _ _ n).bind fun _ _ h => reads_pure h
  · exact reads_next fun _ => (readsFresh_aliasDef hsub _ _ n).bind fun _ _ h => reads_pure h
  · split
    · exact (reads_fail (R := fun _ _ => False) _).bind fun _ _ h => h.elim
    · exact reads_next fun _ => (readsFresh_implBlock hsub _ n).bind fun _ _ h => reads_pure h
  · exact reads_fail _

theorem readsFresh_item : ReadsFresh V k Item.nodes Item.foundTypes (Item.Fit V) (item sub) (item sub') := by
  obtain ⟨q, hq, hreads⟩ := exists_item_eq (V := V)
  rw [hq, hq]
  exact fun n => quiet_here.reads_bind fun _ => reads_accept fun _ => hreads hsub _ _ n

omit hsub in
def Part.Fit (V : Vocabulary) : Part → Prop
  | .import decl => decl.Writable ∧ V.All decl.print
  | .item decl => decl.Fit V

theorem readsFresh_part : ReadsFresh V k (fun p => (Part.item? p).toList.flatMap Item.nodes)
    (fun p => (Part.item? p).toList.flatMap Item.foundTypes) (Part.Fit V) (part sub) (part sub') := by
  refine fun n => (quiet_sees _).reads_bind fun isImport => ?_
  cases isImport
  · refine (readsFresh_item hsub n).bind fun _ _ ⟨h, hitem⟩ => reads_pure ⟨?_, hitem⟩
    simpa [Part.item?] using h
  · obtain ⟨q, hq, hshows⟩ := exists_importDecl_eq (V := V)
    rw [hq]
    exact ((quiet_expect _).bind hshows).reads_bind fun _ h => reads_pure ⟨.nil, h⟩

end Declarations

/-! ### Modules -/

theorem skipToItem_suffix (tokens : List Token) (last : Span) : (skipToItem tokens last).1 <:+ tokens := by
  fun_induction skipToItem tokens last with
  | case1 last => exact suffix_refl _
  | case2 last t rest h => exact suffix_refl _
  | case3 last t rest h ih => exact ih.trans (suffix_cons _ _)

/-- The parts can be written, and if there were no mistakes, they are fresh. -/
def SoundParts (V : Vocabulary) (n : Nat) (r : List Part × List SyntaxError × Cursor) : Prop :=
  (∀ part ∈ r.1, part.Fit V) ∧ (r.2.1 = [] → Fresh n r.2.2.nextId
    ((r.1.filterMap Part.item?).flatMap Item.nodes) ((r.1.filterMap Part.item?).flatMap Item.foundTypes))

/-- After a mistake the rounds go on with a rest of the same tokens. -/
theorem soundParts_partRounds {sub : Level} (hsub : Level.Sound V k sub sub) (n : Nat) (c : Cursor)
    (hc : V.Spells k c.rest) : SoundParts V c.nextId (partRounds sub n c) := by
  fun_induction partRounds sub n c with
  | case1 c => exact ⟨forall_mem_nil _, fun _ => .nil⟩
  | case2 n c heof => exact ⟨forall_mem_nil _, fun _ => .nil⟩
  | case3 n c hsemi ih => exact c.nextId_advance ▸ ih (hc.suffix c.onward_advance.suffix)
  | case4 n c p c' hpart parts errors last hrounds heof hsemi ih =>
    obtain ⟨-, honward, hvalue⟩ := readsFresh_part hsub _ c rfl hc
    obtain ⟨hfresh, hfit⟩ := hvalue p c' hpart
    rw [hpart] at honward
    rw [hrounds] at ih
    obtain ⟨hparts, hrest⟩ := ih (hc.suffix honward.suffix)
    refine ⟨forall_mem_cons.2 ⟨hfit, hparts⟩, fun herrors => ?_⟩
    have h := hfresh.append (hrest herrors)
    rcases p with decl | decl
    · exact h
    · simpa [Part.item?] using h
  | case5 n c e c' hpart parts errors last hrounds heof hsemi ih =>
    have honward := (readsFresh_part hsub _ c rfl hc).2.1
    rw [hpart] at honward
    rw [hrounds] at ih
    exact ⟨(ih (hc.suffix ((skipToItem_suffix _ _).trans honward.suffix))).1, nofun⟩

theorem soundParts_within {tokens : List Token} (n : Nat) (h : ∀ t ∈ tokens, t.lexeme = .eof ∨ V.Has t.lexeme) :
    SoundParts V n (partRounds (Level.within (tokens.length + 1)) (tokens.length + 1) (.start tokens n)) :=
  soundParts_partRounds (Level.sound_within (Nat.le_refl _)) _ (.start tokens n) ⟨Nat.le_succ _, h⟩

end Grammar

def ModuleDef.nodes (m : ModuleDef) : List Node := m.items.flatMap Item.nodes

def ModuleDef.foundTypes (m : ModuleDef) : List Ty := m.items.flatMap Item.foundTypes

variable {path : SourcePath} {m : ModuleDef}

theorem ModuleDef.fresh_of_ofText {text : String} {n n' : Nat} (h : ofText path text n = .ok (m, n')) :
    Grammar.Fresh n n' m.nodes m.foundTypes := by
  unfold ofText at h
  split at h
  · cases h
  · rename_i tokens htokens
    unfold ofTokens at h
    dsimp only at h
    split at h
    · rename_i hparts
      cases h
      exact (Grammar.soundParts_within (V := .readable) n (readable_of_scan htokens)).2 hparts
    · cases h

/-- **Nodes are numbered through all files.**  Files that are all modules have fresh
bodies. -/
theorem SourceFile.fresh_of_readAll {files : List SourceFile} {n last : Nat} {modules : List ModuleDef}
    (h : readAll files n = (modules, last, [])) :
    Grammar.Fresh n last (modules.flatMap ModuleDef.nodes) (modules.flatMap ModuleDef.foundTypes) := by
  induction files generalizing n modules with
  | nil =>
    cases h
    exact .nil
  | cons file rest ih =>
    unfold readAll at h
    split at h
    · rename_i m n₁ hm
      rcases hrest : readAll rest n₁ with ⟨more, last', errors⟩
      rw [hrest] at h
      cases h
      exact (ModuleDef.fresh_of_ofText hm).append (ih hrest)
    · rcases hrest : readAll rest n with ⟨more, last', errors⟩
      simp only [hrest, Prod.mk.injEq, append_eq_nil_iff] at h
      obtain ⟨rfl, rfl, -, rfl⟩ := h
      exact ih hrest

/-- **What is read can be written**, and with lexemes that a text can hold. -/
theorem ModuleDef.fit_of_ofTokens {tokens : List Token} {n n' : NodeId}
    (htokens : ∀ t ∈ tokens, t.lexeme = .eof ∨ t.lexeme.Readable)
    (h : ModuleDef.ofTokens path tokens n = .ok (m, n')) : m.Writable ∧ ∀ l ∈ m.print, l.Readable := by
  unfold ModuleDef.ofTokens at h
  dsimp only at h
  split at h
  · cases h
    have hparts := (Grammar.soundParts_within (V := .readable) n htokens).1
    generalize (Grammar.partRounds _ _ _).1 = parts at hparts
    have himport : ∀ i ∈ parts.filterMap Grammar.Part.import?, i.Writable ∧ Vocabulary.readable.All i.print := by
      intro i hi
      obtain ⟨part, hpart, heq⟩ := mem_filterMap.1 hi
      cases part with
      | «import» decl => cases heq; exact hparts _ hpart
      | item decl => cases heq
    have hitem : ∀ i ∈ parts.filterMap Grammar.Part.item?, i.Fit .readable := by
      intro i hi
      obtain ⟨part, hpart, heq⟩ := mem_filterMap.1 hi
      cases part with
      | «import» decl => cases heq
      | item decl => cases heq; exact hparts _ hpart
    refine ⟨⟨fun i hi => (himport i hi).1, fun i hi => (hitem i hi).1⟩, ?_⟩
    exact Vocabulary.all_append.2 ⟨Vocabulary.all_flatMap.2 fun i hi => (himport i hi).2,
      Vocabulary.all_flatMap.2 fun i hi => (hitem i hi).2⟩
  · cases h

theorem ModuleDef.fit_of_ofText {text : String} {n n' : NodeId} (h : ModuleDef.ofText path text n = .ok (m, n')) :
    m.Writable ∧ ∀ l ∈ m.print, l.Readable := by
  unfold ModuleDef.ofText at h
  split at h
  · cases h
  · exact ModuleDef.fit_of_ofTokens (readable_of_scan ‹_›) h

theorem ModuleDef.path_of_ofText {text : String} {n n' : NodeId} (h : ModuleDef.ofText path text n = .ok (m, n')) :
    m.path = path := by
  unfold ModuleDef.ofText at h
  split at h
  · cases h
  · unfold ModuleDef.ofTokens at h
    dsimp only at h
    split at h <;> cases h
    rfl

end Keel
