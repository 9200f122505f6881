/-
# The bounds of ranges

A range is made where it is written, from two constant expressions.  Its bounds are asked for as
numbers of its base, but a named constant or a cast brings a type of its own, and with it a value that
the base need not have: `i8[0..=(1000 as i64)]` is a type.

What is true of all ranges of an accepted program is that they are not empty and that their bounds are
values of some integer kind.  Bounds that are put together from literals, casts to the base and constants
of its type, by operators and by `if`, are values of the base (`contains_of_plain`).
-/
import Keel.Proofs.Typing.Constants

namespace Keel

def Ty.parts : Ty → List Ty
  | .list t => .list t :: t.parts
  | t => [t]

section Parts

variable {t : Ty} {params : List String} {base : IntKind} {low high : Int}

theorem Ty.Over.bounded (h : t.Over params) (hmem : .range base low high ∈ t.parts) : Ty.Bounded low high := by
  induction t with
  | list t ih =>
    rcases List.mem_cons.1 hmem with hmem | hmem
    · cases hmem
    · exact ih h hmem
  | range base' low' high' =>
    cases List.mem_singleton.1 hmem
    exact h
  | _ => cases List.mem_singleton.1 hmem

theorem Ty.Known.bounded (h : t.Known) (hmem : .range base low high ∈ t.parts) : Ty.Bounded low high := by
  rcases h with rfl | h
  · cases List.mem_singleton.1 hmem
  · exact Ty.Over.bounded h hmem

end Parts

namespace Typing

/-! ### Plain bounds -/

/-- If there is a number, it is one of the kind. -/
def InKind (kind : IntKind) (c : CheckedConst) : Prop :=
  ∀ v, c.value = .int v → c.ty = .int kind ∧ kind.contains v = true

section InKind

variable {kind : IntKind} {c left right : CheckedConst}

theorem inKind_ofArith {r : Except ArithProblem Int} (h : ∀ v, r = .ok v → kind.contains v = true) :
    InKind kind (Outcome.ofArith (.int kind) r).result := by
  intro v hv
  cases r with
  | ok value =>
    cases hv
    exact ⟨rfl, h v rfl⟩
  | error problem => cases hv

theorem inKind_ite (value : Int) (ty : Ty) (problem : Problem) : InKind kind
    (if (Ty.int kind).admits value then Outcome.ok (.int kind) (.int value) else .fail ty problem).result := by
  split
  · rename_i hadmits
    rintro v ⟨⟩
    exact ⟨rfl, hadmits⟩
  · nofun

theorem inKind_constLiteral (value : Int) : InKind kind (constLiteral value (some (.int kind))).result :=
  inKind_ite value _ _

theorem inKind_constCastTo : ∀ value, InKind kind (constCastTo (.int kind) value).result
  | .int value => inKind_ite value _ _
  | .bad | .bool _ | .str _ => nofun

theorem inKind_constUnary (op : UnaryOp) (h : InKind kind c) : InKind kind (constUnary op c).result := by
  unfold constUnary
  split
  · rename_i ty value
    obtain ⟨rfl, -⟩ := h value rfl
    exact inKind_ofArith fun v hv => contains_of_unary hv
  · nofun
  · nofun

theorem exists_of_constArith {op : ArithOp} {v : Int}
    (h : (constBinary (.arith op) left right).result.value = .int v) :
    ∃ a b, left.value = .int a ∧ right.value = .int b := by
  unfold constBinary at h
  split at h
  · cases h
  · split at h
    · rename_i herror
      rw [bad_of_operandType herror] at h
      cases h
    · unfold constApply at h
      dsimp only at h
      split at h
      case h_2 =>
        rename_i hl hr
        exact ⟨_, _, hl, hr⟩
      all_goals cases h

theorem inKind_constArith (op : ArithOp) (hl : InKind kind left) (hr : InKind kind right) :
    InKind kind (constBinary (.arith op) left right).result := by
  intro v hv
  obtain ⟨a, b, hleft, hright⟩ := exists_of_constArith hv
  obtain ⟨lty, lvalue⟩ := left
  obtain ⟨rty, rvalue⟩ := right
  obtain ⟨rfl, -⟩ := hl a hleft
  obtain ⟨rfl, -⟩ := hr b hright
  cases hleft
  cases hright
  have happly : constBinary (.arith op) ⟨.int kind, .int a⟩ ⟨.int kind, .int b⟩ =
      .ofArith (.int kind) (op.apply kind a b) := by
    simp [constBinary, constOperandType, Ty.isUntyped, Ty.decay, Ty.agrees, constApply, workingKind, Ty.intKind?]
  rw [happly] at hv ⊢
  exact inKind_ofArith (fun v hv => contains_of_apply hv) v hv

end InKind

section Plain

variable (p : CheckedProgram) (d : Declarations) (r : Resolver) (scope : ModuleScope) (kind : IntKind)

mutual

/-- A number of the kind, from the way it is written. -/
inductive PlainNumber : Expr → Prop
  | literal (id value span) : PlainNumber ⟨id, .literal (.int value), span⟩
  | const {id path span name c} : p.consts.get? name = some c → c.ty = .int kind →
    (∀ s, (evalConst r scope ⟨id, .path path, span⟩ (some (.int kind)) d s).1 = c) → PlainNumber ⟨id, .path path, span⟩
  | cast {id operand ann span} :
    (∀ s, (resolveType r scope ∅ ann d s).1 = .int kind) → PlainNumber ⟨id, .cast operand ann, span⟩
  | unary {id operand span} {op : UnaryOp} :
    op ≠ .not → PlainNumber operand → PlainNumber ⟨id, .unary op operand, span⟩
  | arith {id op left right span} :
    PlainNumber left → PlainNumber right → PlainNumber ⟨id, .binary (.arith op) left right, span⟩
  | block {id tail inner span} : PlainNumber tail → PlainNumber ⟨id, .block ⟨[], some tail, inner⟩, span⟩
  | cond {id choice span} : PlainChoice choice → PlainNumber ⟨id, .cond choice, span⟩

/-- A choice between such numbers, by any condition. -/
inductive PlainChoice : Conditional → Prop
  | otherwise {condition yes no inner inner' span} : PlainNumber yes → PlainNumber no →
    PlainChoice ⟨condition, ⟨[], some yes, inner⟩, .block ⟨[], some no, inner'⟩, span⟩
  | elseIf {condition yes choice inner span} : PlainNumber yes → PlainChoice choice →
    PlainChoice ⟨condition, ⟨[], some yes, inner⟩, .elseIf choice, span⟩

end

variable {p d r scope kind}

theorem inKind_conclude (site : Site) {outcome : Outcome} (h : InKind kind outcome.result) :
    Holds d (fun _ => True) (conclude site outcome) (InKind kind) := by
  unfold conclude
  split
  · exact (keeps_true _).bind fun _ => holds_pure h
  · exact holds_pure h

theorem inKind_failConst (site : Site) (problem : Problem) :
    Holds d (fun _ => True) (failConst site problem) (InKind kind) :=
  inKind_conclude site nofun

/-- The constants of a kind have values of it. -/
def ConstsIn (p : CheckedProgram) (kind : IntKind) : Prop :=
  ∀ {name c v}, p.consts.get? name = some c → c.ty = .int kind → c.value = .int v → kind.contains v = true

mutual

/-- **Plain numbers are of the kind that is asked for.** -/
theorem inKind_of_plain (hconsts : ConstsIn p kind) : ∀ {e : Expr}, PlainNumber p d r scope kind e →
    Holds d (fun _ => True) (evalConst r scope e (some (.int kind))) (InKind kind)
  | _, .literal _ value _ => inKind_conclude _ (inKind_constLiteral value)
  | _, .const hc hty heq => fun s _ => ⟨trivial, fun v hv => by
      rw [heq s] at hv ⊢
      exact ⟨hty, hconsts hc hty hv⟩⟩
  | _, .cast hty => by
    have htarget : Holds d (fun _ => True) (resolveType r scope ∅ _) (· = .int kind) := fun s _ => ⟨trivial, hty s⟩
    rw [evalConst]
    exact htarget.bind fun _ h => (keeps_true _).bind fun c => inKind_conclude _ (h ▸ inKind_constCastTo c.value)
  | _, @PlainNumber.unary _ _ _ _ _ _ _ _ op hop h => by
    cases op with
    | not => exact absurd rfl hop
    | neg | bitNot => exact (inKind_of_plain hconsts h).bind fun _ hc => inKind_conclude _ (inKind_constUnary _ hc)
  | _, .arith hl hr => (inKind_of_plain hconsts hl).bind fun _ hl => (inKind_of_plain hconsts hr).bind fun _ hr =>
    inKind_conclude _ (inKind_constArith _ hl hr)
  | _, .block h => by
    rw [evalConst, evalBlock]
    exact inKind_of_plain hconsts h
  | _, .cond h => inKind_of_choice hconsts h

theorem inKind_of_choice (hconsts : ConstsIn p kind) : ∀ {choice : Conditional}, PlainChoice p d r scope kind choice →
    Holds d (fun _ => True) (evalConditional r scope choice (some (.int kind))) (InKind kind)
  | _, .otherwise hyes hno => by
    rw [evalConditional]
    refine (keeps_true _).bind fun c => ?_
    split
    · exact holds_pure nofun
    · exact inKind_of_plain hconsts hyes
    · exact inKind_of_plain hconsts hno
    · exact inKind_failConst _ _
  | _, .elseIf hyes hchoice => by
    rw [evalConditional]
    refine (keeps_true _).bind fun c => ?_
    split
    · exact holds_pure nofun
    · exact inKind_of_plain hconsts hyes
    · exact inKind_of_choice hconsts hchoice
    · exact inKind_failConst _ _

end

/-- A range with plain bounds is one within its base. -/
theorem contains_of_plain (hconsts : ConstsIn p kind) {env : TypeEnv} {base : TypeAnn} {low high : Expr} {span : Span}
    (hlow : PlainNumber p d r scope kind low) (hhigh : PlainNumber p d r scope kind high) :
    Holds d (fun _ => True) (resolveType r scope env ⟨.range base low high, span⟩)
      fun ty => ∀ l h, ty = .range kind l h → kind.contains l = true ∧ l ≤ h ∧ kind.contains h = true := by
  rw [resolveType]
  refine (keeps_true _).bind fun ty => ?_
  split
  · rename_i asked
    have hbound {e : Expr} (he : PlainNumber p d r scope kind e) : Holds d (fun _ => True)
        (evalConst r scope e (some (.int asked))) fun c => asked = kind → InKind kind c := by
      by_cases heq : asked = kind
      · exact heq ▸ (inKind_of_plain hconsts he).imp fun _ h _ => h
      · exact (keeps_true _).imp fun _ _ h => absurd h heq
    refine (hbound hlow).bind fun l hl => (hbound hhigh).bind fun h hh => ?_
    unfold rangeType
    split
    · split
      · exact (keeps_true _).bind fun _ => holds_pure fun _ _ heq => by cases heq
      · rename_i hle
        refine holds_pure fun l' h' heq => ?_
        cases heq
        exact ⟨(hl rfl _ ‹_›).2, Int.not_lt.1 hle, (hh rfl _ ‹_›).2⟩
    · exact holds_pure fun _ _ heq => by cases heq
  · exact holds_pure fun _ _ heq => by cases heq
  · exact (keeps_true _).bind fun _ => holds_pure fun _ _ heq => by cases heq

end Plain

/-! ### Accepted programs -/

/-- **Ranges are not empty, and their bounds are values of some integer kind.**  In signatures and
constants and at the nodes of an accepted program, every range has bounds in order, which fit into a
word of 64 bits.  If the bounds are plain numbers, with casts to the base and constants of its type among
them, the range lies within its base. -/
theorem range_bounds_of_check {files : List SourceFile} {p : CheckedProgram}
    (h : SourceFile.check files = .ok p) :
    (∀ ty base low high, p.HasType ty → .range base low high ∈ ty.parts →
      IntKind.i64.min ≤ low ∧ low ≤ high ∧ high ≤ IntKind.u64.max) ∧
    ∀ (d : Declarations) (s : State) (r : Resolver) (scope : ModuleScope) (env : TypeEnv) (ann : TypeAnn)
      (low high : Expr) (span : Span) base, PlainNumber p d r scope base low → PlainNumber p d r scope base high →
      ∀ l h, (resolveType r scope env ⟨.range ann low high, span⟩ d s).1 = .range base l h →
        base.min ≤ l ∧ l ≤ h ∧ h ≤ base.max := by
  obtain ⟨c, n, hmakes⟩ := exists_makes_of_check h
  have hlast := hmakes.underway hmakes.sound (establishes_sound hmakes.plain)
  refine ⟨fun ty base low high hty hmem => ?_, ?_⟩
  · rw [hmakes.program] at hty
    obtain ⟨hle, hlow, hhigh⟩ := (hlast.1.holds.known hty).bounded hmem
    exact ⟨hlow.1, hle, hhigh.2⟩
  · intro d s r scope env ann low high span base hlow hhigh l h heq
    have hconsts : ConstsIn p base := fun {name c v} hc hty hv => by
      rw [hmakes.program] at hc
      have hadmits := (hlast.1.holds.consts name c (finishedConsts_eq_some.1 hc)).value v hv
      rwa [hty] at hadmits
    obtain ⟨hl, hle, hh⟩ := (contains_of_plain hconsts hlow hhigh s trivial).2 l h heq
    rw [IntKind.contains, Bool.and_eq_true, decide_eq_true_eq, decide_eq_true_eq] at hl hh
    exact ⟨hl.1, hle, hh.2⟩

/-- `i8[-5..=(7 as i8)]`, with its bounds. -/
def fiveToSeven : TypeAnn :=
  let low : Expr := ⟨0, .unary .neg ⟨1, .literal (.int 5), ⟨4, 5⟩⟩, ⟨3, 5⟩⟩
  let high : Expr := ⟨2, .cast ⟨3, .literal (.int 7), ⟨8, 9⟩⟩ ⟨.named ["i8"] [], ⟨13, 15⟩⟩, ⟨8, 15⟩⟩
  ⟨.range ⟨.named ["i8"] [], ⟨0, 2⟩⟩ low high, ⟨0, 16⟩⟩

theorem range_bounds_of_check_measured : ∃ p, SourceFile.check [Lowering.measured] = .ok p ∧ p.consts.size = 4 ∧
    (∀ ty base low high, p.HasType ty → .range base low high ∈ ty.parts →
      IntKind.i64.min ≤ low ∧ low ≤ high ∧ high ≤ IntKind.u64.max) ∧ ∀ s scope,
    (resolveType (.within 0) scope ∅ fiveToSeven {} s).1 = .range .i8 (-5) 7 ∧ IntKind.i8.min ≤ -5 ∧ 7 ≤ IntKind.i8.max := by
  obtain ⟨p, ir, haccepted, -, -, -, hconsts, -⟩ := Lowering.accepted_measured
  obtain ⟨hbounds, hplain⟩ := range_bounds_of_check haccepted.checked
  refine ⟨p, haccepted.checked, hconsts, hbounds, fun s scope => ?_⟩
  have hrange : (resolveType (.within 0) scope ∅ fiveToSeven {} s).1 = .range .i8 (-5) 7 := rfl
  obtain ⟨hlow, -, hhigh⟩ := hplain {} s (.within 0) scope ∅ _ _ _ _ .i8 (.unary (by decide) (.literal ..))
    (.cast fun _ => rfl) _ _ hrange
  exact ⟨hrange, hlow, hhigh⟩

/-- With a constant of another kind as its bound, a range does not lie within its base. -/
theorem range_beyond_base : ∃ p, SourceFile.check [Lowering.measured] = .ok p ∧
    p.HasType (.range .i8 0 1000) ∧ IntKind.i8.max < 1000 := by
  obtain ⟨p, ir, haccepted, -, -, -, -, sig, hsig, hret⟩ := Lowering.accepted_measured
  exact ⟨p, haccepted.checked, .function hsig (hret ▸ List.mem_cons_self), by decide⟩

end Typing
end Keel
