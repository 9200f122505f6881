/-
# Casts of constants

The cast of a constant is judged in two places.  Where a constant is declared, the evaluator
finds the type and the value and compares them.  In a body, the operand gets a type first; then
the same evaluator is asked for its value, and a number that has no type yet is taken for an
`i64`, whatever the target is.

Once every alias is resolved and every constant has a value (`State.Complete`), the evaluator
has nothing left to find out: a constant expression is rejected in every later state, or it has
one value in all of them (`definite_evalConst`).  So it does not matter that the body asks later
than the evaluator, and the two agree on the value.  What the body asks for beside is named by
`clean_checkCast_iff_evalConst`: a type for the operand, and that a number without a type is an
`i64`.  So a number beyond `i64` is a constant and cannot be cast (`checkCast_rejects_wide`).
-/
import Keel.Proofs.Typing.Constants
import Keel.Proofs.Typing.Shapes

namespace Keel.Typing

variable {α β : Type} {d : Declarations} {s s₀ s₁ s₂ S : State} {f : Frame} {e : Expr}
  {ann : TypeAnn} {target source : Ty}

/-! ### Runs -/

theorem run_bind (m : Check α) (k : α → Check β) (s : State) : (m >>= k) d s = k (m d s).1 d (m d s).2 := rfl

theorem onward_of_steps {c : Check α} {P : α → Prop} {n : Nat}
    (hc : StepsTo d (fun _ _ => True) (fun _ => True) n c P) (s : State) : Onward d s (c d s).2 :=
  ((survives_onward s).steps hc s (.refl s)).1

theorem onward_checkExpr {expected : Option Ty} (hcheck : checkExpr e f expected d s₀ = (source, s₁)) :
    Onward d s₀ s₁ := by
  have h := onward_of_steps (d := d) (steps_checkExpr e (fun _ _ => trivial) f expected rfl) s₀
  rwa [hcheck] at h

theorem onward_settle (file : SourcePath) (target : Ty) (e : Expr) (s : State) :
    Onward d s (settle file target e d s).2 :=
  onward_of_steps (n := 0) (steps_settle file target e fun _ _ => trivial) s

variable (site : Site)

theorem fst_conclude (outcome : Outcome) (s : State) :
    (conclude site outcome d s).1 = outcome.result := by
  cases outcome with
  | mk result problem => cases problem <;> rfl

theorem conclude_of_none {outcome : Outcome} (h : outcome.problem = none) (s : State) :
    conclude site outcome d s = (outcome.result, s) := by
  rw [conclude, h]
  rfl

theorem clean_conclude_iff (outcome : Outcome) (s : State) :
    (conclude site outcome d s).2.Clean ↔ outcome.problem = none ∧ s.Clean := by
  cases hproblem : outcome.problem with
  | none =>
    rw [conclude_of_none site hproblem]
    exact (and_iff_right rfl).symm
  | some problem =>
    rw [conclude, hproblem]
    exact iff_of_false (not_clean_report d site problem s) nofun

theorem evalConst_cast (r : Resolver) (scope : ModuleScope) (id : NodeId) (span : Span) (s : State) :
    evalConst r scope ⟨id, .cast e ann, span⟩ none d s = let target := resolveType r scope ∅ ann d s
      let value := evalConst r scope e none d target.2
      conclude (scope.site span) (constCastTo target.1 value.1.value) d value.2 := by
  rw [evalConst]
  rfl

/-! ### Nothing is left to find out -/

/-- Nothing has been reported, and whatever can be named is known: the aliases have a type and the
constants a value. -/
structure State.Complete (d : Declarations) (s : State) : Prop where
  clean : s.Clean
  typeAlias : ∀ name, d.aliases.contains name = true → ∃ ty, (s.facts d).typeAlias name ty
  const : ∀ scope path name, d.index.lookupPath scope path .const false = .found name →
    ∃ c, (s.facts d).const name c ∧ c.Shaped ∧ c.value ≠ .bad

theorem State.Complete.onward (h : s.Complete d) (hl : Onward d s S) (hclean : S.Clean) : S.Complete d where
  clean := hclean
  typeAlias name hname := (h.typeAlias name hname).imp fun ty => hl.facts.typeAlias name ty
  const scope path name hname := by
    obtain ⟨c, hc, hvalue⟩ := h.const scope path name hname
    exact ⟨c, hl.facts.const name c hc, hvalue⟩

/-- The same answer in every later state, and nothing is found out. -/
def Fixed (d : Declarations) (s : State) (c : Check α) (v : α) : Prop :=
  ∀ t, Onward d s t → t.Clean → c d t = (v, t)

/-- One answer, which has the property, or a report in every later state. -/
def Definite (d : Declarations) (s : State) (c : Check α) (P : α → Prop) : Prop :=
  (∃ v, P v ∧ Fixed d s c v) ∨ ∀ t, Onward d s t → t.Clean → ¬ (c d t).2.Clean

section Definite

variable {m c : Check α} {k : α → Check β} {P : α → Prop} {Q : β → Prop} {v : α}

theorem Fixed.bind (hm : Fixed d s m v) (hk : Definite d s (k v) Q) : Definite d s (m >>= k) Q := by
  rcases hk with ⟨w, hw, hfixed⟩ | hrejects
  · refine .inl ⟨w, hw, fun t ht hclean => ?_⟩
    rw [run_bind, hm t ht hclean]
    exact hfixed t ht hclean
  · refine .inr fun t ht hclean => ?_
    rw [run_bind, hm t ht hclean]
    exact hrejects t ht hclean

theorem Definite.bind (hm : Definite d s m P) (hasks : ∀ v, Asking d (k v))
    (hk : ∀ v, P v → Definite d s (k v) Q) : Definite d s (m >>= k) Q := by
  rcases hm with ⟨v, hv, hfixed⟩ | hrejects
  · exact hfixed.bind (hk v hv)
  · exact .inr fun t ht hclean hafter => hrejects t ht hclean (((hasks _).onward _).clean hafter)

theorem Definite.mono {P' : α → Prop} (h : Definite d s c P) (hP : ∀ v, P v → P' v) : Definite d s c P' :=
  h.imp (fun ⟨v, hv, hfixed⟩ => ⟨v, hP v hv, hfixed⟩) id

theorem Definite.pure (h : P v) : Definite d s (Pure.pure v) P := .inl ⟨v, h, fun _ _ _ => rfl⟩

theorem Definite.reject (site : Site) (problem : Problem) (P : Ty → Prop) :
    Definite d s (Typing.reject site problem) P := .inr fun t _ _ => not_clean_report d site problem t

theorem Definite.conclude (site : Site) {outcome : Outcome} {P : CheckedConst → Prop}
    (h : outcome.problem = none → P outcome.result) : Definite d s (Typing.conclude site outcome) P := by
  cases hproblem : outcome.problem with
  | none => exact .inl ⟨_, h hproblem, fun t _ _ => conclude_of_none site hproblem t⟩
  | some problem =>
    refine .inr fun t _ _ hclean => ?_
    cases hproblem.symm.trans ((clean_conclude_iff site outcome t).1 hclean).1

theorem Definite.failConst (site : Site) (problem : Problem) (P : CheckedConst → Prop) :
    Definite d s (Typing.failConst site problem) P := .conclude site nofun

theorem fixed_lookup (scope : ModuleScope) (path : List String) (space : Namespace) (prelude : Bool) :
    Fixed d s (lookup scope path space prelude) (d.index.lookupPath scope path space prelude) :=
  fun _ _ _ => rfl

end Definite

variable {name : QualName} {c : CheckedConst}

theorem State.Complete.fixed_typeAlias (hs : s.Complete d) (hname : d.aliases.contains name = true) :
    ∃ ty, Fixed d s (d.resolver.typeAlias name) ty := by
  obtain ⟨ty, hty⟩ := hs.typeAlias name hname
  refine ⟨ty, fun t ht _ => ?_⟩
  have hentry : t.aliases.get? name = some (.done ty) := ht.facts.typeAlias name ty hty
  rw [Resolver.within_typeAlias]
  simp only [aliasType, run_get_bind, run_read_bind, hentry]
  rfl

theorem fixed_const (hc : (s.facts d).const name c) (site : Option Site) :
    Fixed d s (d.resolver.const name site) c := fun t ht _ => by
  have hentry : t.consts.get? name = some (.done c) := ht.facts.const name c hc
  rw [Resolver.within_const]
  simp only [constValue, run_get_bind, run_read_bind, hentry]
  rfl

/-! ### Operations on values -/

/-- It has a value. -/
def Present (c : CheckedConst) : Prop := c.value ≠ .bad

theorem present_ofArith {ty : Ty} {r : Except ArithProblem Int} (h : (Outcome.ofArith ty r).problem = none) :
    Present (Outcome.ofArith ty r).result := by
  cases r with
  | ok v => nofun
  | error problem => cases h

theorem present_constLiteral {value : Int} {expected : Option Ty}
    (h : (constLiteral value expected).problem = none) : Present (constLiteral value expected).result := by
  revert h
  unfold constLiteral
  split
  · split
    · intro _ hbad
      cases hbad
    · intro hproblem
      cases hproblem
  · intro _ hbad
    cases hbad

theorem present_constNot (hc : Present c) (h : (constNot c).problem = none) : Present (constNot c).result := by
  obtain ⟨ty, value⟩ := c
  cases value with
  | bad => exact absurd rfl hc
  | bool b => nofun
  | int v | str b => cases h

theorem present_constUnary {op : UnaryOp} (hc : Present c)
    (h : (constUnary op c).problem = none) : Present (constUnary op c).result := by
  obtain ⟨ty, value⟩ := c
  cases value with
  | bad => exact absurd rfl hc
  | int v => exact present_ofArith h
  | bool b | str b => cases h

theorem problem_of_operandType {op : BinaryOp} {l r : CheckedConst} {outcome : Outcome}
    (h : constOperandType op l r = .error outcome) : outcome.problem ≠ none := by
  have hadopt {value : ConstValue} {ty : Ty} (h : adoptType value ty = .error outcome) : outcome.problem ≠ none := by
    unfold adoptType at h
    dsimp only at h
    split at h
    · split at h
      · cases h
      · cases h
        nofun
    · cases h
  unfold constOperandType at h
  split at h
  · cases h
  · split at h
    · exact hadopt h
    · split at h
      · exact hadopt h
      · split at h
        · cases h
        · cases h
          nofun

theorem present_constBinary {op : BinaryOp} {l r : CheckedConst} (hl : Present l) (hr : Present r)
    (h : (constBinary op l r).problem = none) : Present (constBinary op l r).result := by
  revert h
  unfold constBinary
  rw [if_neg (not_or.2 ⟨hl, hr⟩)]
  split
  · exact fun h => absurd h (problem_of_operandType ‹_›)
  · unfold constApply
    dsimp only
    split
    case h_2 => exact present_ofArith
    case h_7 => nofun
    all_goals exact fun _ => nofun

/-- A value that can be cast is a number of the target. -/
theorem problem_constCastTo (hc : Present c) : (constCastTo target c.value).problem = none ↔
      ∃ v, c.value = .int v ∧ target.isIntegral = true ∧ target.admits v = true := by
  obtain ⟨ty, value⟩ := c
  cases value with
  | bad => exact absurd rfl hc
  | int v =>
    simp only [constCastTo, ConstValue.int.injEq, exists_eq_left']
    cases target.isIntegral with
    | true =>
      cases target.admits v with
      | true => exact iff_of_true rfl ⟨rfl, rfl⟩
      | false => exact iff_of_false nofun nofun
    | false => exact iff_of_false nofun nofun
  | bool b | str b => exact iff_of_false nofun nofun

theorem present_constCastTo (hc : Present c) (h : (constCastTo target c.value).problem = none) :
    Present (constCastTo target c.value).result := by
  obtain ⟨v, hv, hint, hadmits⟩ := (problem_constCastTo hc).1 h
  rw [hv, constCastTo, if_pos hint, if_pos hadmits]
  nofun

/-! ### Constant expressions are definite -/

def Resolved (d : Declarations) (s : State) (c : Check Ty) : Prop :=
  (∃ ty, Fixed d s c ty) ∨
    ∀ t, Onward d s t → t.Clean → (c d t).2.Clean → (c d t).1.isIntegral = false

theorem Fixed.resolved_bind {m : Check α} {k : α → Check Ty} {v : α} (hm : Fixed d s m v)
    (hk : Resolved d s (k v)) : Resolved d s (m >>= k) := by
  rcases hk with ⟨ty, hfixed⟩ | hother
  · refine .inl ⟨ty, fun t ht hclean => ?_⟩
    rw [run_bind, hm t ht hclean]
    exact hfixed t ht hclean
  · refine .inr fun t ht hclean => ?_
    rw [run_bind, hm t ht hclean]
    exact hother t ht hclean

theorem Definite.resolved {c : Check Ty} {P : Ty → Prop} (h : Definite d s c P) : Resolved d s c :=
  h.imp (fun ⟨ty, _, hfixed⟩ => ⟨ty, hfixed⟩) fun hrejects t ht hclean hafter => absurd hafter (hrejects t ht hclean)

theorem fst_instantiate (base : QualName) (args : List Ty) (site : Site) (t : State) :
    (d.resolver.instantiate base args site d t).1.isIntegral = false := by
  have hnominal (nominal : Nominal) (name : QualName) : (nominal.ty name).isIntegral = false := by
    cases nominal <;> rfl
  rw [Resolver.within_instantiate]
  simp only [instantiateType, run_read_bind]
  cases d.nominal? base with
  | none => rfl
  | some nominal =>
    dsimp only
    split
    · rfl
    · split
      · rfl
      · rw [run_get_bind]
        split
        · exact hnominal nominal _
        · split
          · exact hnominal nominal _
          · split
            · rfl
            · exact hnominal nominal _

/-- With arguments, and without an alias, a name stands for no type of numbers. -/
theorem fst_nominalType {args : List Ty} (h : d.aliases.contains name = true → args ≠ []) (site : Site) (t : State) :
    (nominalType d.resolver name args site d t).1.isIntegral = false := by
  simp only [nominalType, run_read_bind]
  split
  · next halias =>
    cases args with
    | nil => exact absurd rfl (h halias)
    | cons ty rest => rfl
  · cases d.nominal? name with
    | none => rfl
    | some nominal =>
      dsimp only
      cases nominal.params with
      | nil =>
        cases args with
        | nil => cases nominal <;> rfl
        | cons ty rest => rfl
      | cons param params =>
        cases args with
        | nil => rfl
        | cons ty rest => exact fst_instantiate name _ site t

theorem State.Complete.resolved_nominalType (hs : s.Complete d) (name : QualName) (site : Site) :
    Resolved d s (nominalType d.resolver name [] site) := by
  cases halias : d.aliases.contains name with
  | true =>
    obtain ⟨ty, hfixed⟩ := hs.fixed_typeAlias halias
    refine .inl ⟨ty, fun t ht hclean => ?_⟩
    simp only [nominalType, run_read_bind, halias]
    exact hfixed t ht hclean
  | false => exact .inr fun t _ _ _ => fst_nominalType (fun h => by cases halias.symm.trans h) site t

theorem fst_listType (scope : ModuleScope) (env : TypeEnv) (site : Site) (anns : List TypeAnn) (t : State) :
    (listType d.resolver scope env site anns d t).1.isIntegral = false := by
  rcases anns with _ | ⟨arg, _ | ⟨_, _⟩⟩
  · rfl
  · rw [listType, run_bind]
    split <;> rfl
  · rfl

theorem definite_rangeType (base : IntKind) (low high : ConstValue) :
    Definite d s (rangeType site base low high) fun _ => True := by
  unfold rangeType
  split
  · split
    · exact .reject _ _ _
    · exact .pure trivial
  · exact .pure trivial

theorem State.Complete.definite_path (hs : s.Complete d) (scope : ModuleScope) (site : Site) (path : PathExpr) :
    Definite d s (do
      let lookup ← lookup scope path.segments .const false
      match ← found? site .constant path.text lookup with
      | none => return .failed
      | some name => d.resolver.const name (some site)) Present := by
  refine (fixed_lookup scope path.segments .const false).bind ?_
  cases hfound : d.index.lookupPath scope path.segments .const false with
  | found name =>
    obtain ⟨c, hc, -, hvalue⟩ := hs.const scope path.segments name hfound
    exact .inl ⟨c, hvalue, fixed_const hc (some site)⟩
  | _ => exact .inr fun t _ _ => not_clean_report d site _ t

mutual

theorem resolved_resolveType (hs : s.Complete d) (scope : ModuleScope) (env : TypeEnv) :
    ∀ ann : TypeAnn, Resolved d s (resolveType d.resolver scope env ann)
  | ⟨.unit, _⟩ | ⟨.resolved _, _⟩ => .inl ⟨_, fun _ _ _ => rfl⟩
  | ⟨.range base low high, span⟩ => by
    rw [resolveType]
    have hbounds (kind : IntKind) : Asking d (do
        let low ← evalConst d.resolver scope low (some (.int kind))
        let high ← evalConst d.resolver scope high (some (.int kind))
        rangeType (scope.site span) kind low.value high.value) :=
      (asks_evalConst scope low _).bind fun _ => (asks_evalConst scope high _).bind fun _ => asks_rangeType _ _ _ _
    rcases resolved_resolveType hs scope env base with ⟨ty, hfixed⟩ | hother
    · refine Definite.resolved (hfixed.bind (Q := fun _ => True) ?_)
      cases ty with
      | int kind =>
        refine (definite_evalConst hs scope low _).bind (fun _ => (asks_evalConst scope high _).bind fun _ =>
          asks_rangeType _ _ _ _) fun _ _ => ?_
        exact (definite_evalConst hs scope high _).bind (fun _ => asks_rangeType _ _ _ _) fun _ _ =>
          definite_rangeType _ _ _ _
      | error => exact .pure trivial
      | _ => exact .reject _ _ _
    · refine .inr fun t ht hclean hafter => ?_
      rw [run_bind] at hafter ⊢
      have hbase := hother t ht hclean
      generalize resolveType d.resolver scope env base d t = p at hbase hafter ⊢
      obtain ⟨ty, t'⟩ := p
      cases ty with
      | int kind => cases hbase (((hbounds kind).onward t').clean hafter)
      | _ => rfl
  | ⟨.named path args, span⟩ => by
    rw [resolveType]
    split
    · exact .inl ⟨_, fun _ _ _ => rfl⟩
    · dsimp only
      split
      · exact .inr fun t _ _ _ => fst_listType scope env _ args t
      · cases args with
        | nil =>
          refine Fixed.resolved_bind (v := []) (fun _ _ _ => rfl) (Fixed.resolved_bind (fixed_lookup _ _ _ _) ?_)
          generalize d.index.lookupPath scope path .type true = found
          cases found with
          | found name => exact hs.resolved_nominalType name _
          | _ => exact .inr fun _ _ _ _ => rfl
        | cons arg rest =>
          refine .inr fun t _ _ _ => ?_
          rw [resolveTypes, run_bind, run_bind]
          generalize (lookup scope path .type true d _).1 = found
          cases found with
          | found name => exact fst_nominalType (fun _ => List.cons_ne_nil _ _) _ _
          | _ => rfl

theorem definite_evalConst (hs : s.Complete d) (scope : ModuleScope) : ∀ (e : Expr) (expected : Option Ty),
      Definite d s (evalConst d.resolver scope e expected) Present
  | ⟨_, .literal (.int value), span⟩, expected => .conclude _ present_constLiteral
  | ⟨_, .literal (.bool value), _⟩, _ | ⟨_, .literal (.str value), _⟩, _ => .pure nofun
  | ⟨_, .path path, span⟩, _ => hs.definite_path scope _ path
  | ⟨_, .unary .not operand, span⟩, _ =>
    (definite_evalConst hs scope operand _).bind (fun _ => .conclude _ _) fun _ hc => .conclude _ (present_constNot hc)
  | ⟨_, .unary .neg operand, span⟩, _ | ⟨_, .unary .bitNot operand, span⟩, _ =>
    (definite_evalConst hs scope operand _).bind (fun _ => .conclude _ _) fun _ hc =>
      .conclude _ (present_constUnary hc)
  | ⟨_, .binary (.logic op) left right, span⟩, _ => by
    have hright (site : Site) (problem : Problem) (b : CheckedConst) : Asking d (match b.value with
        | .bad => return ⟨.bool, .bad⟩
        | .bool b => return ⟨.bool, .bool b⟩
        | _ => failConst site problem) := by
      split
      · exact .pure _
      · exact .pure _
      · exact .failConst _ _
    rw [evalConst]
    refine (definite_evalConst hs scope left _).bind (fun l => ?_) fun l hl => ?_
    · split
      · exact .pure _
      · split
        · exact .pure _
        · exact (asks_evalConst scope right _).bind (hright _ _)
      · exact .failConst _ _
    · obtain ⟨ty, value⟩ := l
      cases value with
      | bad => exact absurd rfl hl
      | bool l =>
        dsimp only
        split
        · exact .pure nofun
        · refine (definite_evalConst hs scope right _).bind (hright _ _) fun b hb => ?_
          obtain ⟨ty, value⟩ := b
          cases value with
          | bad => exact absurd rfl hb
          | bool b => exact .pure nofun
          | int v | str b => exact .failConst _ _ _
      | int v | str b => exact .failConst _ _ _
  | ⟨_, .binary (.compare op) left right, span⟩, _ | ⟨_, .binary (.arith op) left right, span⟩, _ =>
    (definite_evalConst hs scope left _).bind (fun _ => (asks_evalConst scope right _).bind fun _ => .conclude _ _)
      fun _ hl => (definite_evalConst hs scope right _).bind (fun _ => .conclude _ _) fun _ hr =>
        .conclude _ (present_constBinary hl hr)
  | ⟨_, .cast operand ty, span⟩, _ => by
    have hoperand (target : Ty) : Asking d (do
        let value ← evalConst d.resolver scope operand none
        conclude (scope.site span) (constCastTo target value.value)) :=
      (asks_evalConst scope operand _).bind fun _ => .conclude _ _
    have hvalue (target : Ty) : Definite d s (do
        let value ← evalConst d.resolver scope operand none
        conclude (scope.site span) (constCastTo target value.value)) fun c => Present c ∧ target.isIntegral = true :=
      (definite_evalConst hs scope operand _).bind (fun _ => .conclude _ _) fun _ hc =>
        .conclude _ fun h => ⟨present_constCastTo hc h, ((problem_constCastTo hc).1 h).choose_spec.2.1⟩
    rw [evalConst]
    rcases resolved_resolveType hs scope ∅ ty with ⟨target, hfixed⟩ | hother
    · exact hfixed.bind ((hvalue target).mono fun _ h => h.1)
    · refine .inr fun t ht hclean hafter => ?_
      rw [run_bind] at hafter
      have hbase := hother t ht hclean
      have hasks : Asking d (resolveType d.resolver scope ∅ ty) := asks_resolveType scope ∅ ty
      have hbefore := hasks.onward t
      generalize resolveType d.resolver scope ∅ ty d t = p at hbase hbefore hafter
      obtain ⟨target, t'⟩ := p
      have hclean' := ((hoperand target).onward t').clean hafter
      rcases hvalue target with ⟨c, ⟨-, hint⟩, -⟩ | hrejects
      · cases (hbase hclean').symm.trans hint
      · exact hrejects t' (ht.trans hbefore) hclean' hafter
  | ⟨_, .cond choice, _⟩, expected => definite_evalConditional hs scope choice expected
  | ⟨_, .block body, _⟩, expected => definite_evalBlock hs scope body expected
  | ⟨_, .call _ _, span⟩, _ | ⟨_, .member _ _ _, span⟩, _ | ⟨_, .record _ _, span⟩, _ | ⟨_, .select _ _, span⟩, _ =>
    .failConst _ _ _

theorem definite_evalBlock (hs : s.Complete d) (scope : ModuleScope) : ∀ (b : Block) (expected : Option Ty),
      Definite d s (evalBlock d.resolver scope b expected) Present
  | ⟨[], some tail, _⟩, expected => definite_evalConst hs scope tail expected
  | ⟨[], none, _⟩, _ | ⟨_ :: _, _, _⟩, _ => .failConst _ _ _

theorem definite_evalConditional (hs : s.Complete d) (scope : ModuleScope) :
    ∀ (c : Conditional) (expected : Option Ty),
      Definite d s (evalConditional d.resolver scope c expected) Present
  | ⟨condition, thenBlock, otherwise, span⟩, expected => by
    rw [evalConditional]
    refine (definite_evalConst hs scope condition _).bind (fun c => ?_) fun c hc => ?_
    · split
      · exact .pure _
      · exact asks_evalBlock scope thenBlock expected
      · exact asks_evalElse scope span otherwise expected
      · exact .failConst _ _
    · obtain ⟨ty, value⟩ := c
      cases value with
      | bad => exact absurd rfl hc
      | bool b =>
        cases b with
        | true => exact definite_evalBlock hs scope thenBlock expected
        | false => exact definite_evalElse hs scope span otherwise expected
      | int v | str b => exact .failConst _ _ _

theorem definite_evalElse (hs : s.Complete d) (scope : ModuleScope) (span : Span) :
    ∀ (o : ElseBranch) (expected : Option Ty),
      Definite d s (evalElse d.resolver scope span o expected) Present
  | .absent, _ => .failConst _ _ _
  | .block body, expected => definite_evalBlock hs scope body expected
  | .elseIf choice, expected => definite_evalConditional hs scope choice expected

end

/-! ### Casts in bodies -/

theorem checkConstantCast_run (target : Ty) (hconst : isConstantExpr s₁.resolutions.constRefs e = true)
    (heval : evalConst d.resolver f.scope e none d s₁ = (c, s₂)) :
    checkConstantCast f e target d s₁ = (match c.value with
      | .int value => if !target.admits value then report (f.site e.span) (.castRange value target) else pure ()
      | _ => pure () : Check Unit) d s₂ := by
  obtain ⟨hc, hs⟩ := Prod.mk.inj heval
  rw [checkConstantCast, run_get_bind, if_pos hconst, ← hc, ← hs]
  rfl

theorem checkConstantCast_eq (target : Ty) (hconst : isConstantExpr s₁.resolutions.constRefs e = true)
    (heval : evalConst d.resolver f.scope e none d s₁ = (c, s₂)) :
    ((checkConstantCast f e target d s₁).2.Clean ↔ s₂.Clean ∧ ∀ v, c.value = .int v → target.admits v = true) ∧
      ((∀ v, c.value = .int v → target.admits v = true) → (checkConstantCast f e target d s₁).2 = s₂) := by
  rw [checkConstantCast_run target hconst heval]
  cases c.value with
  | int v =>
    cases hadmits : target.admits v with
    | true =>
      have hpure : (pure () : Check Unit) d s₂ = ((), s₂) := rfl
      simp [hadmits, hpure]
    | false =>
      have hreported := not_clean_report d (f.site e.span) (.castRange v target) s₂
      simp [hadmits, hreported]
  | _ => exact ⟨⟨fun h => ⟨h, fun _ heq => by cases heq⟩, fun h => h.1⟩, fun _ => rfl⟩

theorem clean_of_checkConstantCast (hconst : isConstantExpr s₁.resolutions.constRefs e = true)
    (h : (checkConstantCast f e target d s₁).2.Clean) : (evalConst d.resolver f.scope e none d s₁).2.Clean :=
  ((checkConstantCast_eq target hconst rfl).1.1 h).1

theorem run_checkCast {o : Operand} (hty : typeOf f.scope f.types ann d s = (target, s₀))
    (hcheck : o.check f none d s₀ = (source, s₁)) (htarget : target.isSettledInt = true)
    (hsource : source ≠ .error) : checkCast f o ann d s = (do
      if !source.isIntegral then
        report (f.site o.expr.span) (.castSource source target)
        return target
      checkConstantCast f o.expr target
      if source.isUntyped then
        settle f.scope.file .i64 o.expr
      return target : Check Ty) d s₁ := by
  have hnoError : target.isError = false := by cases target <;> first | rfl | cases htarget
  have hnoError' : source.isError = false := by cases source <;> first | rfl | exact absurd rfl hsource
  rw [checkCast, run_bind, hty]
  simp only [run_bind, hcheck, hnoError, hnoError', htarget]
  rfl

theorem clean_checkCast_iff {o : Operand} (hty : typeOf f.scope f.types ann d s = (target, s₀))
    (hcheck : o.check f none d s₀ = (source, s₁)) (htarget : target.isSettledInt = true)
    (hsource : source ≠ .error) : (checkCast f o ann d s).2.Clean ↔ source.isIntegral = true ∧
      (checkConstantCast f o.expr target d s₁).2.Clean ∧ (source.isUntyped = true →
        (settle f.scope.file .i64 o.expr d (checkConstantCast f o.expr target d s₁).2).2.Clean) := by
  rw [run_checkCast hty hcheck htarget hsource]
  cases hint : source.isIntegral with
  | false =>
    have hreported := not_clean_report d (f.site o.expr.span) (.castSource source target) s₁
    exact iff_of_false hreported nofun
  | true =>
    cases huntyped : source.isUntyped with
    | false => exact ⟨fun h => ⟨rfl, h, nofun⟩, fun h => h.2.1⟩
    | true =>
      refine ⟨fun h => ⟨rfl, ?_, fun _ => h⟩, fun h => h.2.2 rfl⟩
      exact (onward_settle _ _ _ _).clean h

/-! ### What the operand is -/

/-- A number, or no value. -/
def Numeric (value : ConstValue) : Prop := value = .bad ∨ ∃ v, value = .int v

theorem numeric_ofArith (ty : Ty) (r : Except ArithProblem Int) : Numeric (Outcome.ofArith ty r).result.value := by
  cases r with
  | ok v => exact .inr ⟨v, rfl⟩
  | error problem => exact .inl rfl

theorem numeric_constUnary (op : UnaryOp) (c : CheckedConst) : Numeric (constUnary op c).result.value := by
  obtain ⟨ty, value⟩ := c
  cases value with
  | int v => exact numeric_ofArith _ _
  | _ => exact .inl rfl

theorem numeric_constArith (op : ArithOp) (l r : CheckedConst) :
    Numeric (constBinary (.arith op) l r).result.value := by
  unfold constBinary
  split
  · exact .inl rfl
  · split
    · exact .inl (bad_of_operandType ‹_›)
    · unfold constApply
      dsimp only
      split
      case h_2 => exact numeric_ofArith _ _
      case h_7 => exact .inl rfl
      all_goals rename_i hop _ _; cases hop

theorem numeric_constCastTo (target : Ty) (value : ConstValue) : Numeric (constCastTo target value).result.value := by
  cases value with
  | int v =>
    simp only [constCastTo]
    split
    · split
      · exact .inr ⟨v, rfl⟩
      · exact .inl rfl
    · exact .inl rfl
  | _ => exact .inl rfl

theorem CheckedConst.Shaped.numeric (h : c.Shaped) (hty : c.ty.isIntegral = true) : Numeric c.value := by
  obtain ⟨ty, value⟩ := c
  cases value with
  | bad => exact .inl rfl
  | int v => exact .inr ⟨v, rfl⟩
  | bool b =>
    obtain rfl : ty = .bool := h
    cases hty
  | str b =>
    obtain rfl : ty = .str := h
    cases hty

theorem fst_checkCompare (f : Frame) (span : Span) (op : CompareOp) (left right : Operand) (s : State) :
    (checkCompare f span op left right d s).1 = .bool := by
  rw [checkCompare, run_bind, run_bind, run_bind]
  split
  · rfl
  · split <;> rfl

theorem numeric_of_path (hs : s₀.Complete d) {id : NodeId} {path : PathExpr}
    {span : Span} (hlocal : f.local? path = none)
    (hcheck : checkExpr ⟨id, .path path, span⟩ f none d s₀ = (source, s₁)) (hclean : s₁.Clean)
    (hsource : source.isIntegral = true) :
    Numeric (evalConst d.resolver f.scope ⟨id, .path path, span⟩ none d s₁).1.value := by
  have honward := onward_checkExpr hcheck
  have hrun : checkExpr ⟨id, .path path, span⟩ f none d s₀ =
      (do let ty ← checkConstant f id span path; recordType id ty; return ty : Check Ty) d s₀ := by
    rw [checkExpr, checkKind, checkPath, hlocal]
  obtain ⟨hty, hstate⟩ := Prod.mk.inj (hrun.symm.trans hcheck)
  replace hsource : (checkConstant f id span path d s₀).1.isIntegral = true := by rwa [← hty] at hsource
  rw [checkConstant, run_bind, fixed_lookup f.scope path.segments .const false s₀ (.refl s₀) hs.clean] at hsource
  rw [evalConst, run_bind, fixed_lookup f.scope path.segments .const false s₁ honward hclean]
  cases hfound : d.index.lookupPath f.scope path.segments .const false with
  | found name =>
    obtain ⟨c, hc, hshaped, -⟩ := hs.const f.scope path.segments name hfound
    rw [hfound] at hsource
    change (d.resolver.const name (some (f.site span)) d s₀).1.ty.isIntegral = true at hsource
    change Numeric (d.resolver.const name (some (f.site span)) d s₁).1.value
    rw [fixed_const hc _ s₀ (.refl s₀) hs.clean] at hsource
    rw [fixed_const hc _ s₁ honward hclean]
    exact CheckedConst.Shaped.numeric hshaped hsource
  | _ => exact .inl rfl

/-- What the body takes for a number is a number to the evaluator, if it has a value. -/
theorem numeric_of_check (hs : s₀.Complete d) (hlocal : ∀ path, e.kind = .path path → f.local? path = none)
    (hcheck : checkExpr e f none d s₀ = (source, s₁)) (hclean : s₁.Clean) (hsource : source.isIntegral = true)
    {refs : Std.TreeMap NodeId QualName} (hconst : isConstantExpr refs e = true) :
    Numeric (evalConst d.resolver f.scope e none d s₁).1.value := by
  have hsource' : (checkExpr e f none d s₀).1.isIntegral = true := by rw [hcheck]; exact hsource
  unfold isConstantExpr at hconst
  split at hconst
  case h_1 id value span => exact .inr ⟨value, rfl⟩
  case h_2 id path span => exact numeric_of_path hs (hlocal path rfl) hcheck hclean hsource
  case h_3 id op operand span =>
    cases op with
    | not => cases hsource'
    | neg | bitNot =>
      rw [evalConst, run_bind, fst_conclude]
      · exact numeric_constUnary _ _
      · nofun
  case h_4 => cases hconst
  case h_5 id op left right span hlogic =>
    cases op with
    | logic op => exact absurd rfl (hlogic op)
    | compare op =>
      have hbool : (checkExpr ⟨id, .binary (.compare op) left right, span⟩ f none d s₀).1 = .bool := by
        rw [checkExpr, checkKind]
        exact fst_checkCompare f span op ⟨left, checkExpr left⟩ ⟨right, checkExpr right⟩ s₀
      rw [hbool] at hsource'
      cases hsource'
    | arith op =>
      rw [evalConst, run_bind, run_bind, fst_conclude]
      exact numeric_constArith _ _ _
  case h_6 id operand ty span =>
    rw [evalConst_cast, fst_conclude]
    exact numeric_constCastTo _ _
  case h_7 => cases hconst

/-! ### The two judgements -/

/-- **The body is the stricter of the two**: what it asks for beside the value is a type for the
operand, which is `i64` where there is no other. -/
theorem clean_checkCast_iff_evalConst (hs : s.Complete d) (henv : f.types = ∅)
    (hty : typeOf f.scope ∅ ann d s = (target, s₀)) (htarget : target.isSettledInt = true)
    (hcheck : checkExpr e f none d s₀ = (source, s₁)) (hsource : source ≠ .error)
    (hconst : isConstantExpr s₁.resolutions.constRefs e = true)
    (hlocal : ∀ path, e.kind = .path path → f.local? path = none) (id : NodeId) (span : Span) :
    (checkCast f ⟨e, checkExpr e⟩ ann d s).2.Clean ↔
      (evalConst (Resolver.within d.depth) f.scope ⟨id, .cast e ann, span⟩ none d s).2.Clean ∧
      s₁.Clean ∧ source.isIntegral = true ∧
      (source.isUntyped = true → (settle f.scope.file .i64 e d s₁).2.Clean) := by
  have hresolve : resolveType (Resolver.within d.depth) f.scope ∅ ann d s = (target, s₀) := hty
  have hasks : Asking d (resolveType (Resolver.within d.depth) f.scope ∅ ann) := asks_resolveType f.scope ∅ ann
  have heval : Asking d (evalConst (Resolver.within d.depth) f.scope e none) := asks_evalConst f.scope e none
  have hintegral : target.isIntegral = true := by cases target <;> first | rfl | cases htarget
  have hl₀ := hasks.onward s
  rw [hresolve] at hl₀
  have hl₁ := onward_checkExpr hcheck
  rw [clean_checkCast_iff (o := ⟨e, checkExpr e⟩) (henv ▸ hty) hcheck htarget hsource, evalConst_cast, hresolve,
    clean_conclude_iff]
  dsimp only
  -- What the evaluator says of the operand is the same before and after the operand is checked.
  rcases definite_evalConst hs f.scope e none with ⟨c, hc, hfixed⟩ | hrejects
  · constructor
    · rintro ⟨hint, hclean, hsettle⟩
      have hclean₁ := (heval.onward s₁).clean (clean_of_checkConstantCast hconst hclean)
      have hclean₀ := hl₁.clean hclean₁
      have hvalue := hfixed s₁ (hl₀.trans hl₁) hclean₁
      obtain ⟨hiff, hstays⟩ := checkConstantCast_eq target hconst hvalue
      obtain ⟨-, hadmits⟩ := hiff.1 hclean
      have hnumeric := numeric_of_check (hs.onward hl₀ hclean₀) hlocal hcheck hclean₁ hint hconst
      rw [hvalue] at hnumeric
      obtain ⟨v, hv⟩ := hnumeric.resolve_left hc
      rw [hstays hadmits] at hsettle
      rw [hfixed s₀ hl₀ hclean₀]
      exact ⟨⟨(problem_constCastTo hc).2 ⟨v, hv, hintegral, hadmits v hv⟩, hclean₀⟩, hclean₁, hint, hsettle⟩
    · rintro ⟨⟨hproblem, -⟩, hclean₁, hint, hsettle⟩
      rw [hfixed s₀ hl₀ (hl₁.clean hclean₁)] at hproblem
      obtain ⟨v, hv, -, hadmits⟩ := (problem_constCastTo hc).1 hproblem
      obtain ⟨hiff, hstays⟩ := checkConstantCast_eq target hconst (hfixed s₁ (hl₀.trans hl₁) hclean₁)
      have hall (w : Int) (hw : c.value = .int w) : target.admits w = true := by
        cases hv.symm.trans hw
        exact hadmits
      refine ⟨hint, hiff.2 ⟨hclean₁, hall⟩, ?_⟩
      rwa [hstays hall]
  · refine iff_of_false ?_ ?_
    · rintro ⟨-, hclean, -⟩
      have hclean₂ := clean_of_checkConstantCast hconst hclean
      exact hrejects s₁ (hl₀.trans hl₁) ((heval.onward s₁).clean hclean₂) hclean₂
    · rintro ⟨⟨-, hclean⟩, hclean₁, -⟩
      exact hrejects s₀ hl₀ (hl₁.clean hclean₁) hclean

theorem exists_of_lookupPath {index : ModuleIndex} {scope : ModuleScope} {path : List String} {q : QualName}
    (h : index.lookupPath scope path .const false = .found q) :
    ∃ owner name, q = owner.qualify name ∧ (index.lookup owner .const name).isSome = true := by
  have hin {source owner : ModulePath} {name : String} (h : index.lookupIn source owner .const name = .found q) :
      ∃ owner name, q = owner.qualify name ∧ (index.lookup owner .const name).isSome = true := by
    unfold ModuleIndex.lookupIn at h
    split at h
    · cases h
    · next hinfo =>
      split at h
      · cases h
        exact ⟨owner, name, rfl, by rw [hinfo]; rfl⟩
      · cases h
  unfold ModuleIndex.lookupPath at h
  split at h
  · cases h
  · split at h
    · unfold ModuleIndex.lookupSimple ModuleIndex.lookupRoot at h
      split at h
      · cases h
        exact ⟨_, _, rfl, ‹_›⟩
      · split at h
        · next himported => cases himported
        · split at h
          · next hroot =>
            cases h
            split at hroot
            · cases hroot
            · exact hin hroot
          · next hother => exact absurd h (hother q)
    · split at h
      · cases h
      · exact hin h

def sampleFrame : Frame := ⟨⟨⟨"app", []⟩, ⟨"app/main.kl"⟩, {}⟩, .unit, ∅, 0, false, []⟩

def number (value : Int) : Expr := ⟨0, .literal (.int value), ⟨0, 0⟩⟩

def plainType (name : String) : TypeAnn := ⟨.named [name] [], ⟨0, 0⟩⟩

def sampleDecls : Declarations where
  index := ⟨Std.TreeMap.insert ∅ ⟨"app", []⟩ (ModuleDecls.insert {} .const "N" ⟨true, ⟨0, 0⟩⟩)⟩
  consts := Std.TreeMap.insert ∅ ⟨⟨"app", []⟩, "N"⟩ ⟨sampleFrame.scope, ⟨"N", none, number 200, ⟨0, 0⟩, true⟩⟩

def sampleState : State :=
  { nextId := 3, consts := Std.TreeMap.insert ∅ ⟨⟨"app", []⟩, "N"⟩ (.done ⟨.i64, .int 200⟩) }

theorem complete_sampleState : sampleState.Complete sampleDecls where
  clean := rfl
  typeAlias _ := nofun
  const scope path q hfound := by
    obtain ⟨owner, name, rfl, hsome⟩ := exists_of_lookupPath hfound
    change (((Std.TreeMap.insert ∅ ⟨"app", []⟩ _).get? owner).bind fun decls : ModuleDecls =>
      decls.lookup .const name).isSome = true at hsome
    rw [get?_insert] at hsome
    split at hsome
    · next howner =>
      change ((Std.TreeMap.insert ∅ "N" _).get? name).isSome = true at hsome
      rw [get?_insert] at hsome
      split at hsome
      · next hname =>
        subst howner hname
        exact ⟨⟨.i64, .int 200⟩, rfl, rfl, nofun⟩
      · cases hsome
    · cases hsome

theorem clean_checkCast_iff_evalConst_byte :
    (checkCast sampleFrame ⟨⟨0, .path ⟨["N"], []⟩, ⟨0, 0⟩⟩, checkExpr ⟨0, .path ⟨["N"], []⟩, ⟨0, 0⟩⟩⟩ (plainType "u8")
      sampleDecls sampleState).2.Clean := by
  have hty : typeOf sampleFrame.scope ∅ (plainType "u8") sampleDecls sampleState = (.int .u8, sampleState) := rfl
  have hcheck : checkExpr ⟨0, .path ⟨["N"], []⟩, ⟨0, 0⟩⟩ sampleFrame none sampleDecls sampleState =
      (.i64, (recordType 0 .i64 sampleDecls (recordConst 0 ⟨⟨"app", []⟩, "N"⟩ sampleDecls sampleState).2).2) := rfl
  have h := clean_checkCast_iff_evalConst complete_sampleState rfl hty rfl hcheck nofun rfl
    (by rintro path ⟨⟩; rfl) 1 ⟨0, 0⟩
  exact h.2 ⟨rfl, rfl, rfl, fun _ => rfl⟩

/-- **A number that is no `i64` cannot be cast in a body**, not even to a type that it is a value of. -/
theorem checkCast_rejects_wide :
    (evalConst (Resolver.within sampleDecls.depth) sampleFrame.scope
      ⟨1, .cast (number 9223372036854775808) (plainType "u64"), ⟨0, 0⟩⟩ none sampleDecls sampleState).2.Clean ∧
    ¬ (checkCast sampleFrame ⟨number 9223372036854775808, checkExpr (number 9223372036854775808)⟩ (plainType "u64")
      sampleDecls sampleState).2.Clean :=
  ⟨rfl, List.cons_ne_nil _ _⟩

end Keel.Typing
