/-
# The shape of a constant

A constant has a type and a value.  The value, if there is one, is of the kind that the
type tells: an integer for a type of integers, a truth value for `bool`, a text for
`string`.  The type that operands have in common and the one that is declared tell the
same kind.
-/
import Keel.Typing.Const

namespace Keel

def CheckedConst.Shaped (c : CheckedConst) : Prop :=
  match c.value with
  | .bad => True
  | .int _ => c.ty.isIntegral
  | .bool _ => c.ty = .bool
  | .str _ => c.ty = .str

theorem CheckedConst.Shaped.isIntegral {c : CheckedConst} (h : c.Shaped) {v : Int} (hv : c.value = .int v) :
    c.ty.isIntegral := by
  rwa [CheckedConst.Shaped, hv] at h

namespace Typing

theorem isIntegral_decay {t : Ty} (h : t.isIntegral) : t.decay.isIntegral := by
  cases t <;> exact h

/-! ### Operations -/

section Outcomes

variable {left right : CheckedConst}

theorem shaped_ofArith {ty : Ty} (h : ty.isIntegral) (r : Except ArithProblem Int) :
    (Outcome.ofArith ty r).result.Shaped := by
  cases r with
  | ok value => exact h
  | error problem => trivial

theorem bad_of_adoptType {value : ConstValue} {other : Ty} {outcome : Outcome}
    (h : adoptType value other = .error outcome) : outcome.result.value = .bad := by
  unfold adoptType at h
  dsimp only at h
  split at h
  · split at h
    · cases h
    · cases h
      rfl
  · cases h

theorem ty_of_adoptType {value : ConstValue} {other ty : Ty} (h : adoptType value other = .ok ty) :
    ty = other.decay := by
  unfold adoptType at h
  dsimp only at h
  split at h
  · split at h
    · cases h
      rfl
    · cases h
  · cases h
    rfl

theorem bad_of_operandType {op : BinaryOp} {outcome : Outcome}
    (h : constOperandType op left right = .error outcome) : outcome.result.value = .bad := by
  unfold constOperandType at h
  split at h
  · cases h
  · split at h
    · exact bad_of_adoptType h
    · split at h
      · exact bad_of_adoptType h
      · split at h
        · cases h
        · cases h
          rfl

theorem integral_of_operandType {op : BinaryOp} {ty : Ty} (hleft : left.ty.isIntegral)
    (h : constOperandType op left right = .ok ty) : ty.isIntegral := by
  unfold constOperandType at h
  split at h
  · cases h
    rfl
  · split at h
    · next hright =>
      rw [ty_of_adoptType h]
      exact isIntegral_decay (Bool.and_eq_true_iff.1 hright).2
    · split at h
      · rw [ty_of_adoptType h]
        exact isIntegral_decay hleft
      · split at h
        · cases h
          exact isIntegral_decay hleft
        · cases h

theorem shaped_constSettle (declared : Ty) {actual : CheckedConst} (h : actual.Shaped) :
    (constSettle declared actual).result.Shaped := by
  obtain ⟨ty, value⟩ := actual
  unfold constSettle
  split
  · trivial
  split
  · trivial
  rename_i hfits
  rw [Bool.not_eq_true, Bool.not_eq_false'] at hfits
  cases value with
  | bad => trivial
  | int v =>
    dsimp only
    split
    · cases ty with
      | untyped => exact hfits
      | int kind => cases declared <;> first | rfl | cases hfits
      | range base low high =>
        rcases Bool.or_eq_true_iff.1 hfits with hagrees | heq
        · cases declared <;> first | rfl | cases hagrees
        · rw [beq_iff_eq] at heq
          subst heq
          rfl
      | _ => cases h
    · trivial
  | bool v =>
    obtain rfl : ty = .bool := h
    cases declared <;> first | rfl | cases hfits
  | str v =>
    obtain rfl : ty = .str := h
    cases declared <;> first | rfl | cases hfits

end Outcomes

end Typing
end Keel
