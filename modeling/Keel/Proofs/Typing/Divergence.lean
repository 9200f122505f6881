/-
# Code that leaves before its end

A block that is said to diverge has a statement that always leaves it: a run that gets there returns,
breaks, continues or fails, and one that does not has left before or goes on for ever.  This is shown along
the syntax; a computation leaves if one of its steps does, whatever the others are (`Leaves.bind`).

Matches are where it could go wrong, since all arms may leave and yet none be taken.  In an accepted
program one of them is taken by every value of the type.
-/
import Keel.Proofs.Lowering.Decisions

namespace Keel

open List SourceFile Bool

/-! ### Runs -/

namespace Source

open Eval

variable {α β : Type}

/-- The end of the code is not reached: where a run has a result, it has left. -/
def Leaves (m : Eval α) : Prop := ∀ σ r σ', m σ = some (r, σ') → ∃ exit, r = .error exit

namespace Leaves

variable {m : Eval α} {k : α → Eval β}

theorem exit (e : Exit) : Leaves (Eval.exit e : Eval α) := by
  rintro σ r σ' ⟨⟩
  exact ⟨e, rfl⟩

/-- What comes after a step that leaves does not matter, nor what comes before one. -/
theorem bind (h : ∀ σ a σ', m σ = some (.ok a, σ') → Leaves (k a)) : Leaves (m >>= k) := by
  intro σ r σ' hrun
  rcases Eval.bind_eq_some.1 hrun with ⟨x, σ₁, -, heq⟩ | ⟨a, σ₁, hm, hk⟩
  · cases heq
    exact ⟨x, rfl⟩
  · exact h σ a σ₁ hm σ₁ r σ' hk

theorem before (h : Leaves m) : Leaves (m >>= k) := bind fun _ _ _ hrun => by
  obtain ⟨_, hexit⟩ := h _ _ _ hrun
  cases hexit

theorem after (h : ∀ a, Leaves (k a)) : Leaves (m >>= k) := bind fun _ a _ _ => h a

theorem expect {o : Option α} (h : ∀ a, o = some a → Leaves (k a)) : Leaves (Eval.expect o >>= k) := by
  refine bind fun σ a σ' hrun => h a ?_
  cases o with
  | none => cases hrun
  | some b => cases hrun; rfl

theorem within (h : Leaves m) (declared : List Local) : Leaves (Eval.within declared m) := by
  intro σ r σ' hrun
  unfold Eval.within at hrun
  split at hrun
  · cases hrun
    exact h _ _ _ ‹_›
  · cases hrun

end Leaves

namespace Setting

variable {c : Setting}

variable {arms : List (Pattern × Eval Value)}

theorem mem_of_firstMatch {value : Value} {arm : Pattern × Eval Value} (h : c.firstMatch value arms = some arm) :
    arm ∈ arms := by
  induction arms with
  | nil => cases h
  | cons first rest ih =>
    obtain ⟨taken, -, h⟩ := Option.bind_eq_some_iff.1 h
    cases taken with
    | true => cases h; exact mem_cons_self
    | false => exact mem_cons_of_mem _ (ih h)

theorem leaves_select {scrutinee : NodeId} {value : Eval Value} (h : ∀ arm ∈ arms, Leaves arm.2) :
    Leaves (c.select scrutinee value arms) :=
  .after fun _ => .after fun _ => .expect fun arm harm => .expect fun declared _ =>
    (h arm (mem_of_firstMatch harm)).within declared

mutual

/-- **A block that diverges leaves.**  By induction on the syntax, along with the other parts. -/
theorem leaves_evalBlock : ∀ {b : Block}, b.diverges → Leaves (c.evalBlock b)
  | ⟨stmts, _, _⟩, h => by
    rw [evalBlock]
    exact (leaves_evalStmts stmts h).before.within []

theorem leaves_evalStmts : ∀ stmts : List Stmt, Stmt.anyDiverges stmts → Leaves (c.evalStmts stmts)
  | s :: rest, h => by
    rw [evalStmts]
    rw [Stmt.anyDiverges, or_eq_true] at h
    rcases h with h | h
    · exact (leaves_evalStmt h).before
    · exact .after fun _ => leaves_evalStmts rest h

theorem leaves_evalStmt : ∀ {s : Stmt}, s.diverges → Leaves (c.evalStmt s)
  | .ret value _, _ => by
    rw [evalStmt]
    exact .after fun _ => .exit _
  | .cond choice, h => by
    rw [evalStmt]
    exact (leaves_evalConditional h).before
  | .block body, h => by
    rw [evalStmt]
    exact (leaves_evalBlock h).before
  | .expr e, h => by
    rw [evalStmt]
    exact (leaves_evalExpr h).before

theorem leaves_evalConditional : ∀ {choice : Conditional}, choice.diverges → Leaves (c.evalConditional choice)
  | ⟨condition, thenBlock, otherwise, _⟩, h => by
    rw [Conditional.diverges, and_eq_true] at h
    rw [evalConditional]
    refine .after fun value => ?_
    split
    · exact leaves_evalBlock h.1
    · exact leaves_evalElse h.2
    · exact nofun

theorem leaves_evalElse : ∀ {otherwise : ElseBranch}, otherwise.diverges → Leaves (c.evalElse otherwise)
  | .block body, h => by
    rw [evalElse]
    exact leaves_evalBlock h
  | .elseIf choice, h => by
    rw [evalElse]
    exact leaves_evalConditional h

theorem leaves_evalExpr : ∀ {e : Expr}, e.diverges → Leaves (c.evalExpr e)
  | ⟨_, .block body, _⟩, h => by
    rw [evalExpr]
    exact leaves_evalBlock h
  | ⟨_, .cond choice, _⟩, h => by
    rw [evalExpr]
    exact (leaves_evalConditional h).before
  | ⟨_, .select _ (arm :: arms), _⟩, h => by
    rw [evalExpr]
    exact (leaves_select (leaves_evalArms (arm :: arms) h)).before

theorem leaves_evalArms : ∀ arms : List Arm, Arm.allDiverge arms → ∀ arm ∈ c.evalArms arms, Leaves arm.2
  | [], _ => nofun
  | ⟨_, body, _⟩ :: rest, h => by
    rw [Arm.allDiverge, and_eq_true] at h
    rw [evalArms]
    exact forall_mem_cons.2 ⟨leaves_evalExpr h.1, leaves_evalArms rest h.2⟩

end

theorem exists_firstMatch {value : Value} : ∀ {arms : List Arm}, c.Decides arms value →
    ∃ arm, c.firstMatch value (c.evalArms arms) = some arm
  | [], h => by
    obtain ⟨_, harm, -⟩ := h.taken
    cases harm
  | ⟨pattern, body, span⟩ :: rest, h => by
    obtain ⟨taken, htaken⟩ := h.compared _ mem_cons_self
    rw [evalArms, firstMatch, htaken]
    cases taken with
    | true => exact ⟨_, rfl⟩
    | false =>
      refine exists_firstMatch ⟨fun arm harm => h.compared arm (mem_cons_of_mem _ harm), ?_, h.apart.of_cons⟩
      obtain ⟨arm, harm, hmatch⟩ := h.taken
      rcases mem_cons.1 harm with rfl | harm
      · cases htaken.symm.trans hmatch
      · exact ⟨arm, harm, hmatch⟩

end Setting
end Source

/-! ### Functions -/

namespace Typing

/-- The body of a function that gives a result without a last expression leaves. -/
def Returns (s : State) (f : CheckedFunction) : Prop :=
  ∃ sig, s.signatures.functions.get? f.name = some sig ∧
    (f.decl.body.tail = none → sig.ret ≠ .unit → sig.ret ≠ .error → f.decl.body.diverges)

theorem diverges_of_checkResult {d : Declarations} {s : State} {scope : ModuleScope} {decl : FunctionDef}
    {bodyTy ret : Ty} (h : (checkResult scope decl bodyTy ret d s).2.Clean) (htail : decl.body.tail = none)
    (hunit : ret ≠ .unit) (herror : ret ≠ .error) : decl.body.diverges := by
  rw [checkResult, htail] at h
  dsimp only at h
  split at h
  · exact absurd h (cons_ne_nil _ _)
  · rename_i hnot
    by_contra hends
    refine hnot ⟨hunit, ?_, by simpa using hends⟩
    cases ret <;> first | rfl | exact absurd rfl herror

theorem establishes_returns (d : Declarations) : Establishes d (fun _ => True) Returns where
  keeps _ _ := keeps_true _
  taken _ _ := trivial
  congr s s' f _ hfunctions _ := by
    rintro ⟨sig, hsig, h⟩
    exact ⟨sig, hfunctions _ _ hsig, h⟩
  holds depth name s g sig _ hsig _ _ _ hclean := by
    have heffect : Effect depth g.decl.body.Numbers s (checkBody g sig depth d s).2 := effect_checkBody s
    have hkept := (heffect.kept name (Option.isSome_of_eq_some hsig)).1
    exact ⟨sig, hkept.trans hsig, diverges_of_checkResult hclean⟩

variable {files : List SourceFile} {p : CheckedProgram}

theorem diverges_of_check (h : check files = .ok p) {name : QualName} {f : CheckedFunction}
    {sig : FunctionSig} (hf : p.functions.get? name = some f) (hsig : p.signatures.functions.get? name = some sig)
    (htail : f.decl.body.tail = none) (hunit : sig.ret ≠ .unit) (herror : sig.ret ≠ .error) :
    f.decl.body.diverges := by
  obtain ⟨c, n, hmakes⟩ := exists_makes_of_check h
  have hlast := (hmakes.underway trivial (establishes_returns c.decls)).1
  have hclean := hmakes.clean
  rw [hmakes.program] at hf hsig
  generalize c.afterBodies n = s at hlast hclean hf hsig
  obtain ⟨g, -, -, rfl⟩ := hlast.checked name f hf
  obtain ⟨sig', hsig', hreturns⟩ := hlast.facts hclean name _ hf
  cases hsig.symm.trans hsig'
  exact hreturns htail hunit herror

/-- Every match of an accepted program decides about the values of its type. -/
theorem decides_of_node (h : check files = .ok p) {name : QualName} {g : CheckedFunction}
    (hg : p.functions.get? name = some g) {id : NodeId} {scrutinee : Expr} {arms : List Arm} {span : Span}
    (hnode : Node.expr ⟨id, .select scrutinee arms, span⟩ ∈ g.decl.body.nodes) {ty : Ty}
    (hty : p.resolutions.exprTypes.get? scrutinee.id = some ty) (hmatches : p.Matches arms ty) {value : Value}
    (hv : p.signatures.Inhabits ty value) {c : Source.Setting} (hc : c.program = p) : c.Decides arms value := by
  obtain ⟨collected, n, hmakes⟩ := exists_makes_of_check h
  have hnodes := hmakes.accounted hg
  refine decides_of_decided hmakes.program hc ((hnodes _ hnode).resolve_left fun hnone => ?_) hty hmatches hv
  have hprogram := hmakes.program
  generalize collected.afterBodies n = t at hprogram hnone
  subst hprogram
  cases hnone.symm.trans hty

open Source in
/-- **Code that diverges is left.**  Blocks, conditionals and expressions that are said to diverge do not
come to their end, whatever they are run on.  In an accepted program, a match on a value of its type enters an
arm, and a function with a result but no last expression does not run off the end of its body. -/
theorem leaves_of_diverges {files : List SourceFile} {p : CheckedProgram}
    (h : check files = .ok p) {name : QualName} {g : CheckedFunction} {sig : FunctionSig}
    (hg : p.functions.get? name = some g) (hsig : p.signatures.functions.get? name = some sig)
    (c : Setting) (hc : c.program = p) :
    (∀ b : Block, b.diverges → Leaves (c.evalBlock b)) ∧
    (∀ choice : Conditional, choice.diverges → Leaves (c.evalConditional choice)) ∧
    (∀ e : Expr, e.diverges → Leaves (c.evalExpr e)) ∧
    (∀ id scrutinee arms span ty value, Node.expr ⟨id, .select scrutinee arms, span⟩ ∈ g.decl.body.nodes →
      p.resolutions.exprTypes.get? scrutinee.id = some ty → p.Matches arms ty →
        p.signatures.Inhabits ty value → ∃ arm, c.firstMatch value (c.evalArms arms) = some arm) ∧
    (g.decl.body.tail = none → sig.ret ≠ .unit → sig.ret ≠ .error → Leaves (c.evalBlock g.decl.body)) := by
  refine ⟨fun _ => Setting.leaves_evalBlock, fun _ => Setting.leaves_evalConditional,
    fun _ => Setting.leaves_evalExpr, ?_, fun htail hunit herror => ?_⟩
  · intro id scrutinee arms span ty value hnode hty hmatches hv
    exact Setting.exists_firstMatch (decides_of_node h hg hnode hty hmatches hv hc)
  · exact Setting.leaves_evalBlock (diverges_of_check h hg hsig htail hunit herror)

/-- A function whose result has no type, though nothing is reported, and one that is left from within
a match. -/
def endings : SourceFile :=
  ⟨⟨"app/main.kl"⟩, "enum Way \x7b Up, Down \x7d
fn forget() -> i32[true..=5] \x7b \x7d
fn pick(way: Way) -> i64 \x7b match way \x7b Way.Up => \x7b return 1; \x7d, Way.Down => \x7b return 2; \x7d \x7d; \x7d"⟩

/-- Is there such a function, and does it pass the test? -/
def testFunction (p : CheckedProgram) (name : String) (test : CheckedFunction → FunctionSig → Bool) : Bool :=
  match p.functions.get? ⟨⟨"app", []⟩, name⟩, p.signatures.functions.get? ⟨⟨"app", []⟩, name⟩ with
  | some f, some sig => f.decl.body.tail.isNone && test f sig
  | _, _ => false

theorem exists_of_testFunction {name : String} {test : CheckedFunction → FunctionSig → Bool}
    (h : testFunction p name test = true) : ∃ f sig, p.functions.get? ⟨⟨"app", []⟩, name⟩ = some f ∧
      p.signatures.functions.get? ⟨⟨"app", []⟩, name⟩ = some sig ∧ f.decl.body.tail = none ∧ test f sig = true := by
  unfold testFunction at h
  split at h
  · rw [and_eq_true, Option.isNone_iff_eq_none] at h
    exact ⟨_, _, ‹_›, ‹_›, h⟩
  · cases h

/-- The files are a program that passes the test. -/
def examineCheck (files : List SourceFile) (test : CheckedProgram → Bool) : Bool :=
  match check files with
  | .ok p => test p
  | .error _ => false

theorem exists_of_examineCheck {files : List SourceFile} {test : CheckedProgram → Bool}
    (h : examineCheck files test = true) : ∃ p, check files = .ok p ∧ test p = true := by
  unfold examineCheck at h
  split at h
  · exact ⟨_, ‹_›, h⟩
  · cases h

theorem check_endings : ∃ p, check [endings] = .ok p ∧
    testFunction p "forget" (fun f sig => f.decl.body.stmts.isEmpty && sig.ret == .error) = true ∧
    testFunction p "pick" (fun f sig => sig.ret == .i64 && f.decl.body.nodes.any
      (Lowering.looksAtEnum p fun _ sig? => sig?.any fun sig => sig.variants.length == 2 && sig.origin.isNone)) =
        true := by
  obtain ⟨p, hp, htest⟩ := exists_of_examineCheck (h := (by decide +kernel : examineCheck [endings] (fun p =>
    testFunction p "forget" (fun f sig => f.decl.body.stmts.isEmpty && sig.ret == .error) &&
      testFunction p "pick" fun f sig => sig.ret == .i64 && f.decl.body.nodes.any
        (Lowering.looksAtEnum p fun _ sig? => sig?.any fun sig => sig.variants.length == 2 && sig.origin.isNone)) = true))
  exact ⟨p, hp, and_eq_true_iff.1 htest⟩

open Source in
theorem leaves_of_diverges_pick : ∃ p g sig id scrutinee arms span name, check [endings] = .ok p ∧
    p.functions.get? ⟨⟨"app", []⟩, "pick"⟩ = some g ∧
    p.signatures.functions.get? ⟨⟨"app", []⟩, "pick"⟩ = some sig ∧ g.decl.body.tail = none ∧ sig.ret = .i64 ∧
    Node.expr ⟨id, .select scrutinee arms, span⟩ ∈ g.decl.body.nodes ∧
    p.resolutions.exprTypes.get? scrutinee.id = some (.enum name) ∧
    ∀ c : Setting, c.program = p → Leaves (c.evalBlock g.decl.body) ∧ ∀ (tag : Tag) payload, tag.val < 2 →
      ∃ arm, c.firstMatch (.variant tag payload) (c.evalArms arms) = some arm := by
  obtain ⟨p, hcheck, -, hpick⟩ := check_endings
  obtain ⟨g, sig, hg, hsig, htail, htest⟩ := exists_of_testFunction hpick
  obtain ⟨hret, hnodes⟩ := and_eq_true_iff.1 htest
  replace hret : sig.ret = .i64 := by simpa using hret
  obtain ⟨id, scrutinee, arms, span, name, hnode, hty, henum⟩ := Lowering.exists_of_looksAtEnum hnodes
  obtain ⟨enum, henum, htwo⟩ := (Option.any_eq_true _ _).1 henum
  obtain ⟨hlength, horigin⟩ : enum.variants.length = 2 ∧ enum.origin = none := by simpa using htwo
  refine ⟨p, g, sig, id, scrutinee, arms, span, name, hcheck, hg, hsig, htail, hret, hnode, hty, fun c hc => ?_⟩
  obtain ⟨-, -, -, henters, hleaves⟩ := leaves_of_diverges hcheck hg hsig c hc
  refine ⟨hleaves htail (by simp [hret, Ty.i64]) (by simp [hret, Ty.i64]), fun tag payload htag => ?_⟩
  exact henters id scrutinee arms span _ _ hnode hty ⟨enum, henum, by omega, .inl horigin⟩
    (.variant tag payload henum (by omega))

open Source in
/-- **A result without a type is not asked for**: this function is accepted, and its body comes to its end. -/
theorem not_leaves_forget : ∃ p f sig, check [endings] = .ok p ∧
    p.functions.get? ⟨⟨"app", []⟩, "forget"⟩ = some f ∧
    p.signatures.functions.get? ⟨⟨"app", []⟩, "forget"⟩ = some sig ∧ f.decl.body.tail = none ∧ sig.ret ≠ .unit ∧
    ∀ (c : Setting) (σ : Source.State), ∃ σ', c.evalBlock f.decl.body σ = some (.ok .unit, σ') := by
  obtain ⟨p, hcheck, hforget, -⟩ := check_endings
  obtain ⟨f, sig, hf, hsig, htail, htest⟩ := exists_of_testFunction hforget
  obtain ⟨hstmts, hret⟩ : f.decl.body.stmts = [] ∧ sig.ret = .error := by simpa using htest
  refine ⟨p, f, sig, hcheck, hf, hsig, htail, by simp [hret], fun c σ => ?_⟩
  cases hbody : f.decl.body with
  | mk stmts tail span =>
    rw [hbody] at hstmts htail
    cases hstmts
    cases htail
    rw [Setting.evalBlock, Setting.evalStmts, Setting.evalTail]
    exact ⟨_, rfl⟩

end Typing
end Keel
