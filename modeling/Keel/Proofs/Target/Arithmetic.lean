/-
# Integer code

What C makes of the code for integers.  Every expression has an integer type: operands narrower than
`int`, which has 32 bits here, are promoted to it, and the two sides of an operator are converted to a common
type.  Unsigned types wrap around.  For signed ones C leaves a sum, difference, product or left shift undefined
that does not fit, and so it does with division by zero and with shifts by a negative amount or by no less than
the width; such an expression has no value.  Narrowing takes the value modulo the width, and a right shift
of a negative number rounds down.

The code for an operator has a value or stops the program, and does the one or the other as the
operator on numbers says (`exec_arithCode`).  Constant arithmetic agrees with it wherever it needs
no wrapping around.
-/
import Mathlib.Data.Int.ModEq
import Keel.Proofs.Semantics.Value
import Keel.Target.Code
import Keel.Typing.Const

namespace Keel

/-! ### Types of C -/

namespace IntKind

/-- The type that operands of the kind are computed in; `int` is `i32`. -/
def promoted (k : IntKind) : IntKind := if k.bits < 32 then .i32 else k

/-- The type that both sides of an operator are converted to: the wider one, or else the unsigned one. -/
def common (a b : IntKind) : IntKind :=
  if a.promoted.bits < b.promoted.bits then b.promoted
  else if b.promoted.bits < a.promoted.bits then a.promoted
  else if a.promoted.signed then b.promoted else a.promoted

/-- The bits of a number of the kind. -/
def word (k : IntKind) (value : Int) : BitVec k.bits := BitVec.ofInt k.bits value

/-- The number of the kind that has these bits. -/
def read (k : IntKind) (w : BitVec k.bits) : Int := if k.signed then w.toInt else w.toNat

variable {k : IntKind} {x y : Int}

theorem contains_iff : k.contains x = true ↔ k.min ≤ x ∧ x ≤ k.max := by simp [contains]

theorem wrap_modEq (k : IntKind) (x : Int) : k.wrap x ≡ x [ZMOD 2 ^ k.bits] := by
  rw [wrap]
  simpa using (Int.mod_modEq (x - k.min) (2 ^ k.bits)).add_right k.min

theorem wrap_eq_of_modEq (h : x ≡ y [ZMOD 2 ^ k.bits]) : k.wrap x = k.wrap y :=
  congrArg (· + k.min) (h.sub_right k.min)

/-- What is wrapped around further out may be wrapped around to a wider kind before. -/
theorem wrap_eq_of_modEq_wide {wide : IntKind} (hle : k.bits ≤ wide.bits) (h : x ≡ y [ZMOD 2 ^ wide.bits]) :
    k.wrap x = k.wrap y := wrap_eq_of_modEq (h.of_dvd (pow_dvd_pow 2 hle))

theorem wrap_eq_self_iff : k.wrap x = x ↔ k.contains x = true :=
  ⟨fun h => h ▸ k.contains_wrap x, wrap_of_contains⟩

theorem common_self (k : IntKind) : k.common k = k.promoted := by cases k <;> rfl

theorem common_i32 (k : IntKind) : k.common .i32 = k.promoted := by cases k <;> rfl

theorem contains_promoted (h : k.contains x = true) : k.promoted.contains x = true := by
  rw [contains_iff] at h ⊢
  cases k <;> simp only [promoted, bits, min, max] at h ⊢ <;> simp <;> omega

end IntKind

namespace Target

open Ir (TempId)

/-! ### Expressions and statements -/

/-- An operation on two numbers of a type, if C says what it gives. -/
def operate (op : ArithOp) (k : IntKind) (a b : Int) : Option Int :=
  let sum (value : Int) : Option Int :=
    if k.signed then if k.contains value then some value else none else some (k.wrap value)
  match op with
  | .add => sum (a + b)
  | .sub => sum (a - b)
  | .mul => sum (a * b)
  | .div => if b ≠ 0 ∧ k.contains (a.tdiv b) then some (a.tdiv b) else none
  | .rem => if b ≠ 0 ∧ k.contains (a.tdiv b) then some (a.tmod b) else none
  | .bitAnd => some (k.read (k.word a &&& k.word b))
  | .bitOr => some (k.read (k.word a ||| k.word b))
  | .bitXor => some (k.read (k.word a ^^^ k.word b))
  | .shl =>
    if 0 ≤ b ∧ b < k.bits ∧ (k.signed → 0 ≤ a) then sum (a * 2 ^ b.toNat) else none
  | .shr => if 0 ≤ b ∧ b < k.bits then some (a / 2 ^ b.toNat) else none

structure Vars where
  params : Nat → Option Number
  temps : TempId → Option Number

def truth (b : Bool) : Number := .ofInt .i32 (if b then 1 else 0)

def Expr.eval (v : Vars) : Expr → Option Number
  | .param index => v.params index
  | .temp id => v.temps id
  | .number value => some (.ofInt .i32 value)
  | .int value kind => some (.ofInt kind value)
  | .bool value => some (truth value)
  | .cast kind e => return .ofInt kind (← e.eval v).value
  | .not e => return truth ((← e.eval v).value == 0)
  | .complement e => do
    let n ← e.eval v
    return .ofInt n.kind.promoted (n.kind.promoted.read (~~~n.kind.promoted.word n.value))
  | .arith op l r => do
    let a ← l.eval v
    let b ← r.eval v
    -- The amount of a shift is not converted, and does not count for its type.
    if op.isShift then
      return .ofInt a.kind.promoted (← operate op a.kind.promoted a.value b.value)
    let k := a.kind.common b.kind
    return .ofInt k (← operate op k (k.wrap a.value) (k.wrap b.value))
  | .compare op l r => do
    let a ← l.eval v
    let b ← r.eval v
    let k := a.kind.common b.kind
    return truth (op.holds (k.wrap a.value) (k.wrap b.value))
  | .logic op l r => do
    let a ← l.eval v
    if (a.value != 0) == (op == .or) then
      return truth (op == .or)
    return truth ((← r.eval v).value != 0)
  | _ => none

def Vars.set (v : Vars) (dest : TempId) (n : Number) : Vars :=
  { v with temps := fun t => if t = dest then some n else v.temps t }

/-- Runs statements on integer variables of the given types: what the variables hold in the end, or the message
with which the program is stopped. -/
def exec (types : TempId → IntKind) : List Stmt → Vars → Option (Except String Vars)
  | [], v => some (.ok v)
  | .assign (.temp dest) e :: rest, v => do
    exec types rest (v.set dest (.ofInt (types dest) (← e.eval v).value))
  | .fail message :: _, _ => some (.error message)
  | .failIf condition message :: rest, v => do
    if (← condition.eval v).value ≠ 0 then some (.error message) else exec types rest v
  | _, _ => none

end Target

/-- The message with which a failure stops the program. -/
def Failure.message : Failure → String
  | divisionByZero => "division by zero"
  | divisionOverflow => "integer overflow in division"
  | shiftCount => "shift amount out of range"
  | outOfRange low high => s!"value out of range {low}..={high}"
  | assertion => "assertion failed"
  | panic message => message
  | listIndex => "list index out of bounds"
  | strIndex => "string index out of bounds"

/-! ### Words -/

namespace IntKind

variable {k : IntKind} {a b : Int}

theorem ofInt_widest_signed (hk : k.signed = true) (h : k.contains a = true) :
    BitVec.ofInt widest a = (k.word a).signExtend widest := by
  have hle : k.bits ≤ widest := by cases k <;> decide
  rw [← BitVec.toInt_inj, BitVec.toInt_signExtend_of_le hle, word, BitVec.toInt_ofInt, BitVec.toInt_ofInt]
  rw [contains_iff] at h
  have hwide : a.bmod (2 ^ widest) = a := by
    refine Int.bmod_eq_of_le ?_ ?_ <;> cases k <;> simp only [min, max, widest] at h ⊢ <;> omega
  rw [hwide]
  cases k with
  | i8 | i16 | i32 | i64 =>
    simp only [min, max] at h
    exact (Int.bmod_eq_of_le (by simp only [bits]; omega) (by simp only [bits]; omega)).symm
  | u8 | u16 | u32 | u64 => cases hk

theorem ofInt_widest_unsigned (hk : k.signed = false) (h : k.contains a = true) :
    BitVec.ofInt widest a = (k.word a).setWidth widest := by
  rw [contains_iff] at h
  rw [← BitVec.toNat_inj, BitVec.toNat_setWidth, word, BitVec.toNat_ofInt, BitVec.toNat_ofInt]
  cases k with
  | i8 | i16 | i32 | i64 => cases hk
  | u8 | u16 | u32 | u64 =>
    simp only [min, max, bits, widest] at h ⊢
    omega

/-- **An operation on bits may be done in any width** that holds both numbers, if it commutes with
extending them. -/
theorem bitwise_eq_read (f : {n : Nat} → BitVec n → BitVec n → BitVec n)
    (hsign : ∀ {n m : Nat} (x y : BitVec n), (f x y).signExtend m = f (x.signExtend m) (y.signExtend m))
    (hzero : ∀ {n m : Nat} (x y : BitVec n), (f x y).setWidth m = f (x.setWidth m) (y.setWidth m))
    (ha : k.contains a = true) (hb : k.contains b = true) : bitwise f a b = k.read (f (k.word a) (k.word b)) := by
  have hle : k.bits < widest := by cases k <;> decide
  rw [bitwise, read]
  cases hk : k.signed with
  | true =>
    rw [ofInt_widest_signed hk ha, ofInt_widest_signed hk hb, ← hsign, BitVec.toInt_signExtend_of_le hle.le]
    rfl
  | false =>
    rw [ofInt_widest_unsigned hk ha, ofInt_widest_unsigned hk hb, ← hzero]
    have hlt := (f (k.word a) (k.word b)).isLt
    have hpow : 2 * 2 ^ k.bits ≤ 2 ^ widest := by cases k <;> decide
    rw [BitVec.toInt_eq_toNat_of_lt]
    · rw [BitVec.toNat_setWidth, Nat.mod_eq_of_lt (by omega)]
      rfl
    · rw [BitVec.toNat_setWidth, Nat.mod_eq_of_lt (by omega)]
      omega

theorem contains_read (w : BitVec k.bits) : k.contains (k.read w) = true := by
  have hint := w.toInt_lt
  have hint' := w.le_toInt
  have hnat := w.isLt
  rw [contains_iff, read]
  cases k <;> simp only [signed, bits, min, max] at * <;> simp <;> omega

/-- Only the least number by `-1` gives a quotient that does not fit. -/
theorem contains_tdiv (ha : k.contains a = true) (hb : k.contains b = true)
    (hover : ¬ (k.signed = true ∧ a = k.min ∧ b = -1)) : k.contains (a.tdiv b) = true := by
  rw [contains_iff] at ha hb ⊢
  cases k with
  | u8 | u16 | u32 | u64 =>
    have hle := Int.natAbs_tdiv_le_natAbs a b
    have hnonneg := Int.tdiv_nonneg ha.1 hb.1
    simp only [min, max] at ha hnonneg ⊢
    omega
  | i8 | i16 | i32 | i64 =>
    simp only [signed, min, max, true_and] at ha hover ⊢
    obtain rfl | rfl | rfl | hlarge : b = 0 ∨ b = 1 ∨ b = -1 ∨ 2 ≤ b.natAbs := by omega
    · rw [Int.tdiv_zero]
      omega
    · rwa [Int.tdiv_one]
    · rw [Int.tdiv_neg, Int.tdiv_one]
      omega
    · have hhalf : (a.tdiv b).natAbs ≤ a.natAbs / 2 := by
        rw [Int.natAbs_tdiv]
        exact Nat.div_le_div_left hlarge (by decide)
      omega

theorem contains_tmod (ha : k.contains a = true) (hb : k.contains b = true) (hzero : b ≠ 0) :
    k.contains (a.tmod b) = true := by
  rw [contains_iff] at ha hb ⊢
  have habs := Int.natAbs_tmod a b
  have hlt : a.natAbs % b.natAbs < b.natAbs := Nat.mod_lt _ (by omega)
  have hle : a.natAbs % b.natAbs ≤ a.natAbs := Nat.mod_le _ _
  cases k with
  | i8 | i16 | i32 | i64 =>
    simp only [min, max] at ha hb ⊢
    omega
  | u8 | u16 | u32 | u64 =>
    have hnonneg := Int.tmod_nonneg b ha.1
    simp only [min, max] at ha hnonneg ⊢
    omega

/-- Shifting to the right takes a number nearer to zero, or to `-1`. -/
theorem contains_shiftRight (ha : k.contains a = true) (n : Nat) : k.contains (a / 2 ^ n) = true := by
  rw [contains_iff] at ha ⊢
  have hpow : (0 : Int) < 2 ^ n := Int.pow_pos (by decide)
  have hzero : k.min ≤ 0 ∧ 0 ≤ k.max := by cases k <;> decide
  rcases Int.le_total 0 a with h | h
  · exact ⟨hzero.1.trans (Int.ediv_nonneg h hpow.le), (Int.ediv_le_self _ h).trans ha.2⟩
  · refine ⟨ha.1.trans (Int.le_ediv_of_mul_le hpow ?_), (Int.ediv_nonpos_of_nonpos_of_neg h hpow).trans hzero.2⟩
    simpa using Int.mul_le_mul_of_nonpos_left h (Int.add_one_le_iff.2 hpow)

end IntKind

/-! ### The code of operators -/

/-- The exact result of an operation, before any wrapping around. -/
def ArithOp.exact (op : ArithOp) (k : IntKind) (a b : Int) : Int :=
  match op with
  | add => a + b
  | sub => a - b
  | mul => a * b
  | div => a.tdiv b
  | rem => a.tmod b
  | bitAnd => k.read (k.word a &&& k.word b)
  | bitOr => k.read (k.word a ||| k.word b)
  | bitXor => k.read (k.word a ^^^ k.word b)
  | shl => a * 2 ^ b.toNat
  | shr => a / 2 ^ b.toNat

theorem perform_eq_exact {op : ArithOp} {k : IntKind} {a b x : Int} (ha : k.contains a = true)
    (hb : k.contains b = true) (h : op.perform k a b = .ok x) : x = op.exact k a b := by
  cases op with
  | add | sub | mul => cases h; rfl
  | div | rem =>
    simp only [ArithOp.perform] at h
    split at h
    · cases h
    · split at h
      · cases h
      · cases h; rfl
  | bitAnd =>
    cases h
    exact IntKind.bitwise_eq_read (· &&& ·) (fun _ _ => BitVec.signExtend_and) (fun _ _ => BitVec.setWidth_and) ha hb
  | bitOr =>
    cases h
    exact IntKind.bitwise_eq_read (· ||| ·) (fun _ _ => BitVec.signExtend_or) (fun _ _ => BitVec.setWidth_or) ha hb
  | bitXor =>
    cases h
    exact IntKind.bitwise_eq_read (· ^^^ ·) (fun _ _ => BitVec.signExtend_xor) (fun _ _ => BitVec.setWidth_xor) ha hb
  | shl =>
    simp only [ArithOp.perform] at h
    split at h
    · cases h
    · cases h; exact Int.shiftLeft_eq _ _
  | shr =>
    simp only [ArithOp.perform] at h
    split at h
    · cases h
    · cases h; simpa [ArithOp.exact] using Int.shiftRight_eq_div_pow a b.toNat

/-- Constant arithmetic goes the way of the operator, but takes no result that does not fit. -/
theorem perform_cases (op : ArithOp) (k : IntKind) (a b : Int) :
    (∃ x, op.perform k a b = .ok x ∧ op.apply k a b = k.fit x) ∨
    (op = .div ∧ op.perform k a b = .error .divisionByZero ∧ op.apply k a b = .error .divisionByZero) ∨
    (op = .rem ∧ op.perform k a b = .error .divisionByZero ∧ op.apply k a b = .error .remainderByZero) ∨
    (op.perform k a b = .error .divisionOverflow ∧ op.apply k a b = .error (.divisionOverflow k)) ∨
    (op.perform k a b = .error .shiftCount ∧ op.apply k a b = .error (.shiftCount b k)) := by
  cases op with
  | add | sub | mul | bitAnd | bitOr | bitXor => exact .inl ⟨_, rfl, rfl⟩
  | div | rem =>
    simp only [ArithOp.perform, ArithOp.apply]
    by_cases hzero : b = 0
    · simp [hzero]
    · by_cases hover : k.signed ∧ a = k.min ∧ b = -1
      · simp [hover]
      · simp [hzero, hover]
  | shl | shr =>
    simp only [ArithOp.perform, ArithOp.apply, ArithOp.shiftBy]
    by_cases hcount : b < 0 ∨ b ≥ k.bits
    · simp [hcount, bind, Except.bind]
    · simp [hcount, bind, Except.bind]

theorem fit_eq_ok {k : IntKind} {a x : Int} : k.fit a = .ok x ↔ k.wrap a = x ∧ x = a := by
  rw [IntKind.fit]
  split
  case isTrue h => rw [IntKind.wrap_of_contains h]; simp [eq_comm]
  case isFalse h => exact iff_of_false nofun fun ⟨hx, ha⟩ => h (IntKind.wrap_eq_self_iff.1 (hx.trans ha))

theorem fit_eq_error {k : IntKind} {a : Int} {problem : ArithProblem} :
    k.fit a = .error problem ↔ problem = .overflow k ∧ k.wrap a ≠ a := by
  rw [IntKind.fit, Ne, IntKind.wrap_eq_self_iff]
  split
  case isTrue h => simp [h]
  case isFalse h => simp [h, eq_comm]

theorem complement_eq {k : IntKind} {a : Int} (ha : k.contains a = true) :
    k.complement a = .ok (k.wrap (-a - 1)) := by
  have hrange := IntKind.contains_iff.1 ha
  rw [IntKind.complement, fit_eq_ok]
  split
  case isTrue hk =>
    have hmin : k.min = -k.max - 1 := by cases k with | i8 | i16 | i32 | i64 => rfl | u8 | u16 | u32 | u64 => cases hk
    exact ⟨rfl, IntKind.wrap_of_contains (IntKind.contains_iff.2 (by omega))⟩
  case isFalse hk =>
    have hmin : k.min = 0 := by cases k with | i8 | i16 | i32 | i64 => cases hk rfl | u8 | u16 | u32 | u64 => rfl
    have hmod : k.wrap (-a - 1) = k.wrap (k.max - a) := by
      refine IntKind.wrap_eq_of_modEq (Int.modEq_iff_dvd.2 ⟨1, ?_⟩)
      have hmax : k.max = 2 ^ k.bits - 1 := by
        cases k with | i8 | i16 | i32 | i64 => cases hk rfl | u8 | u16 | u32 | u64 => rfl
      omega
    exact ⟨hmod.symm, hmod.trans (IntKind.wrap_of_contains (IntKind.contains_iff.2 (by omega)))⟩

namespace Target

open Ir (TempId)

variable {types : TempId → IntKind} {v : Vars} {dest : TempId} {k : IntKind} {l r : Expr} {m n : Number}

theorem value_ofInt (k : IntKind) (x : Int) : (Number.ofInt k x).value = k.wrap x := rfl

theorem ofInt_wrap (k : IntKind) (x : Int) : Number.ofInt k (k.wrap x) = .ofInt k x := by
  simp only [Number.ofInt, Number.mk.injEq, true_and]
  exact IntKind.wrap_of_contains (k.contains_wrap x)

variable {e : Expr} {rest : List Stmt} {op : ArithOp}

attribute [local simp] Expr.eval

/-- A cast to the type of the variable is all that counts of an expression that is assigned. -/
theorem exec_assign_cast {x : Number} (hdest : types dest = k) (he : e.eval v = some x) :
    exec types [.assign (.temp dest) (.cast k e)] v = some (.ok (v.set dest (.ofInt k x.value))) := by
  simp only [exec, Expr.eval, he, hdest, Option.bind_eq_bind, Option.bind_some, Option.pure_def, value_ofInt,
    ofInt_wrap]

/-- A number may be computed in a wider type, and there up to multiples of its size. -/
theorem exec_assign_modEq {wide : IntKind} {x y : Int} (hdest : types dest = k) (hle : k.bits ≤ wide.bits)
    (he : e.eval v = some (.ofInt wide x)) (hx : x ≡ y [ZMOD 2 ^ wide.bits]) :
    exec types [.assign (.temp dest) (.cast k e)] v = some (.ok (v.set dest (.ofInt k y))) := by
  rw [exec_assign_cast hdest he, value_ofInt]
  congr 3
  simp only [Number.ofInt, Number.mk.injEq, true_and]
  exact IntKind.wrap_eq_of_modEq_wide hle ((IntKind.wrap_modEq _ _).trans hx)

theorem exec_failIf {c : Expr} {message : String} {b : Bool} (hc : c.eval v = some (truth b)) :
    exec types (.failIf c message :: rest) v = if b then some (.error message) else exec types rest v := by
  cases b <;> simp [exec, hc, truth, Number.ofInt, IntKind.wrap, IntKind.bits, IntKind.min]

theorem eval_arith (hop : op.isShift = false) (hl : l.eval v = some m) (hr : r.eval v = some n)
    (hkind : m.kind = n.kind) {x : Int} (hx : operate op m.kind.promoted m.value n.value = some x) :
    (Expr.arith op l r).eval v = some (.ofInt m.kind.promoted x) := by
  have hm := IntKind.wrap_of_contains (IntKind.contains_promoted m.fits)
  have hn := IntKind.wrap_of_contains (IntKind.contains_promoted n.fits)
  rw [← hkind] at hn
  simp [hl, hr, hop, ← hkind, IntKind.common_self, hm, hn, hx]

theorem eval_shift (hop : op.isShift = true) (hl : l.eval v = some m) (hr : r.eval v = some n) {x : Int}
    (hx : operate op m.kind.promoted m.value n.value = some x) :
    (Expr.arith op l r).eval v = some (.ofInt m.kind.promoted x) := by
  simp [hl, hr, hop, hx]

theorem eval_cast (he : e.eval v = some n) (k : IntKind) :
    (Expr.cast k e).eval v = some (.ofInt k n.value) := by simp [he]

theorem eval_compare (op : CompareOp) {x : Int} (hl : l.eval v = some m) (hx : IntKind.i32.contains x = true)
    (hx' : m.kind.promoted.contains x = true) :
    (Expr.compare op l (.number x)).eval v = some (truth (op.holds m.value x)) := by
  have hm := IntKind.wrap_of_contains (IntKind.contains_promoted m.fits)
  simp [hl, IntKind.common_i32, hm, value_ofInt, IntKind.wrap_of_contains hx, IntKind.wrap_of_contains hx']

theorem bits_le_wrappingKind (k : IntKind) : k.bits ≤ (wrappingKind k).bits := by cases k <;> decide

theorem wrappingKind_unsigned (k : IntKind) : (wrappingKind k).signed = false := by cases k <;> rfl

theorem promoted_wrappingKind (k : IntKind) : (wrappingKind k).promoted = wrappingKind k := by cases k <;> rfl

theorem wrapped (k : IntKind) (x : Int) :
    (if (wrappingKind k).signed then if (wrappingKind k).contains x then some x else none
      else some ((wrappingKind k).wrap x)) = some ((wrappingKind k).wrap x) := by
  rw [wrappingKind_unsigned]
  rfl

/-- In an unsigned type sums, differences and products may be computed of numbers that are wrapped around. -/
theorem exec_wrapping {f : Int → Int → Int} (hop : op.isShift = false)
    (hf : ∀ k a b, operate op (wrappingKind k) a b = some ((wrappingKind k).wrap (f a b)))
    (hmod : ∀ {N a b a' b' : Int}, a ≡ a' [ZMOD N] → b ≡ b' [ZMOD N] → f a b ≡ f a' b' [ZMOD N])
    (hdest : types dest = k) (hl : l.eval v = some m) (hr : r.eval v = some n) :
    exec types [.assign (.temp dest) (.cast k (.arith op (.cast (wrappingKind k) l) (.cast (wrappingKind k) r)))] v =
      some (.ok (v.set dest (.ofInt k (f m.value n.value)))) := by
  have hwide := eval_arith hop (eval_cast hl (wrappingKind k)) (eval_cast hr (wrappingKind k)) rfl
    (by rw [Number.kind_ofInt, promoted_wrappingKind]; exact hf k _ _)
  rw [Number.kind_ofInt, promoted_wrappingKind] at hwide
  exact exec_assign_modEq hdest (bits_le_wrappingKind k) hwide
    ((IntKind.wrap_modEq _ _).trans (hmod (IntKind.wrap_modEq _ _) (IntKind.wrap_modEq _ _)))

theorem exec_shiftGuard (hr : r.eval v = some n) (hn : n.kind = k) : exec types (shiftGuard k r :: rest) v =
      if n.value < 0 ∨ n.value ≥ k.bits then some (.error Failure.shiftCount.message) else exec types rest v := by
  have hcount : (Expr.compare .ge (.cast .u64 r) (.number k.bits)).eval v =
      some (truth (decide (n.value < 0 ∨ n.value ≥ k.bits))) := by
    rw [eval_compare .ge (eval_cast hr .u64)]
    · congr 2
      rw [CompareOp.holds, value_ofInt, decide_eq_decide]
      have hfits := IntKind.contains_iff.1 n.fits
      rw [hn] at hfits
      cases k <;> simp only [IntKind.wrap, IntKind.bits, IntKind.min, IntKind.max] at hfits ⊢ <;> omega
    · cases k <;> decide
    · rw [Number.kind_ofInt]
      cases k <;> decide
  rw [shiftGuard, exec_failIf hcount]
  simp only [decide_eq_true_eq]
  rfl

/-- What the code for an operator ends with, given what the operator says. -/
def ended (v : Vars) (dest : TempId) (k : IntKind) : Except Failure Int → Except String Vars
  | .ok x => .ok (v.set dest (.ofInt k x))
  | .error failure => .error failure.message

section Operands

variable (hl : l.eval v = some m) (hm : m.kind = k) (hr : r.eval v = some n) (hn : n.kind = k) (hdest : types dest = k)

include hl hm hr hn

theorem exec_divisionGuards :
    exec types (.failIf (.compare .eq r (.number 0)) "division by zero" :: quotientGuard k l r ++ rest) v =
      if n.value = 0 then some (.error Failure.divisionByZero.message)
      else if k.signed ∧ m.value = k.min ∧ n.value = -1 then some (.error Failure.divisionOverflow.message)
      else exec types rest v := by
  have hzero := eval_compare .eq (x := 0) hr rfl (by cases n.kind <;> rfl)
  rw [List.cons_append, exec_failIf hzero]
  simp only [CompareOp.holds, beq_iff_eq]
  congr 1
  unfold quotientGuard
  cases hk : k.signed with
  | false => simp
  | true =>
    have hone : (Expr.compare .eq r (.number (-1))).eval v = some (truth (n.value == -1)) :=
      eval_compare .eq hr rfl (by rw [hn]; cases k <;> first | rfl | cases hk)
    have hleast : (Expr.compare .eq l (.int k.min k)).eval v = some (truth (m.value == k.min)) := by
      have hfits : k.contains k.min = true := by cases k <;> rfl
      have hvalue := IntKind.wrap_of_contains (IntKind.contains_promoted m.fits)
      rw [hm] at hvalue
      simp [hl, hm, IntKind.common_self, value_ofInt, CompareOp.holds, hvalue,
        IntKind.wrap_of_contains hfits, IntKind.wrap_of_contains (IntKind.contains_promoted hfits)]
    have hboth : (Expr.logic .and (.compare .eq r (.number (-1))) (.compare .eq l (.int k.min k))).eval v =
        some (truth (m.value == k.min && n.value == -1)) := by
      rw [Bool.and_comm, Expr.eval, hone, hleast]
      cases n.value == -1 <;> cases m.value == k.min <;> rfl
    rw [if_pos rfl, List.singleton_append, exec_failIf hboth]
    simp only [Bool.and_eq_true, beq_iff_eq, true_and]
    rfl

include hdest

/-- An operation whose result fits may be done in the promoted type. -/
theorem exec_promoted (hop : op.isShift = false) {x : Int} (hx : operate op k.promoted m.value n.value = some x)
    (hfits : k.contains x = true) :
    exec types [.assign (.temp dest) (.cast k (.arith op l r))] v = some (ended v dest k (.ok x)) := by
  subst hm
  rw [exec_assign_cast hdest (eval_arith hop hl hr hn.symm hx), value_ofInt,
    IntKind.wrap_of_contains (IntKind.contains_promoted hfits)]
  rfl

theorem exec_bitwise (op : ArithOp) (hop : op.isShift = false) (f : {n : Nat} → BitVec n → BitVec n → BitVec n)
    (hf : ∀ k a b, operate op k a b = some (k.read (f (k.word a) (k.word b))))
    (hsign : ∀ {n m : Nat} (x y : BitVec n), (f x y).signExtend m = f (x.signExtend m) (y.signExtend m))
    (hzero : ∀ {n m : Nat} (x y : BitVec n), (f x y).setWidth m = f (x.setWidth m) (y.setWidth m)) :
    exec types [.assign (.temp dest) (.cast k (.arith op l r))] v =
      some (ended v dest k (.ok (bitwise f m.value n.value))) := by
  have hmfits := hm ▸ m.fits
  have hnfits := hn ▸ n.fits
  refine exec_promoted hl hm hr hn hdest hop ?_ ?_
  · rw [hf, IntKind.bitwise_eq_read f hsign hzero (IntKind.contains_promoted hmfits)
      (IntKind.contains_promoted hnfits)]
  · rw [IntKind.bitwise_eq_read f hsign hzero hmfits hnfits]
    exact IntKind.contains_read _

/-- Behind its two guards a quotient, or a remainder, fits. -/
theorem exec_division (hop : op.isShift = false) {x : Int}
    (hx : n.value ≠ 0 → ¬ (k.signed = true ∧ m.value = k.min ∧ n.value = -1) →
      operate op k.promoted m.value n.value = some x ∧ k.contains x = true) :
    exec types (.failIf (.compare .eq r (.number 0)) "division by zero" :: quotientGuard k l r ++
        [.assign (.temp dest) (.cast k (.arith op l r))]) v =
      some (ended v dest k (if n.value = 0 then .error .divisionByZero
        else if k.signed ∧ m.value = k.min ∧ n.value = -1 then .error .divisionOverflow else .ok x)) := by
  rw [exec_divisionGuards hl hm hr hn]
  split
  case isTrue => rfl
  case isFalse hzero =>
    split
    case isTrue => rfl
    case isFalse hover => exact exec_promoted hl hm hr hn hdest hop (hx hzero hover).1 (hx hzero hover).2

/-- **The code for an operator does what the operator says.**  Nothing that it evaluates is undefined; it stops the
program if the operator fails, and otherwise sets the variable to the number that is wrapped around. -/
theorem exec_arithCode (op : ArithOp) :
    exec types (arithCode dest op k l r) v = some (ended v dest k (op.perform k m.value n.value)) := by
  have hmfits : k.contains m.value = true := hm ▸ m.fits
  have hnfits : k.contains n.value = true := hn ▸ n.fits
  cases op with
  | add => exact exec_wrapping rfl (fun k a b => wrapped k (a + b)) Int.ModEq.add hdest hl hr
  | sub => exact exec_wrapping rfl (fun k a b => wrapped k (a - b)) Int.ModEq.sub hdest hl hr
  | mul => exact exec_wrapping rfl (fun k a b => wrapped k (a * b)) Int.ModEq.mul hdest hl hr
  | div =>
    refine exec_division hl hm hr hn hdest rfl fun hzero hover => ?_
    have hquotient := IntKind.contains_tdiv hmfits hnfits hover
    exact ⟨if_pos ⟨hzero, IntKind.contains_promoted hquotient⟩, hquotient⟩
  | rem =>
    refine exec_division hl hm hr hn hdest rfl fun hzero hover => ?_
    have hquotient := IntKind.contains_tdiv hmfits hnfits hover
    exact ⟨if_pos ⟨hzero, IntKind.contains_promoted hquotient⟩, IntKind.contains_tmod hmfits hnfits hzero⟩
  | bitAnd =>
    exact exec_bitwise hl hm hr hn hdest .bitAnd rfl (· &&& ·) (fun _ _ _ => rfl)
      (fun _ _ => BitVec.signExtend_and) fun _ _ => BitVec.setWidth_and
  | bitOr =>
    exact exec_bitwise hl hm hr hn hdest .bitOr rfl (· ||| ·) (fun _ _ _ => rfl)
      (fun _ _ => BitVec.signExtend_or) fun _ _ => BitVec.setWidth_or
  | bitXor =>
    exact exec_bitwise hl hm hr hn hdest .bitXor rfl (· ^^^ ·) (fun _ _ _ => rfl)
      (fun _ _ => BitVec.signExtend_xor) fun _ _ => BitVec.setWidth_xor
  | shl =>
    simp only [arithCode, ArithOp.perform]
    rw [exec_shiftGuard hr hn]
    split
    · rfl
    · rename_i hcount
      have hx : operate .shl (wrappingKind k) ((wrappingKind k).wrap m.value) n.value =
          some ((wrappingKind k).wrap ((wrappingKind k).wrap m.value * 2 ^ n.value.toNat)) := by
        have hle := bits_le_wrappingKind k
        rw [operate, if_pos ⟨by omega, by omega, by simp [wrappingKind_unsigned]⟩]
        exact wrapped k _
      have hshift := eval_shift (l := .cast (wrappingKind k) l) rfl (eval_cast hl _) hr
        (by rw [Number.kind_ofInt, promoted_wrappingKind]; exact hx)
      rw [Number.kind_ofInt, promoted_wrappingKind] at hshift
      rw [ended, Int.shiftLeft_eq]
      exact exec_assign_modEq hdest (bits_le_wrappingKind k) hshift
        ((IntKind.wrap_modEq _ _).trans ((IntKind.wrap_modEq _ _).mul_right _))
  | shr =>
    simp only [arithCode, ArithOp.perform]
    rw [exec_shiftGuard hr hn]
    split
    · rfl
    · rename_i hcount
      have hwidth : k.bits ≤ k.promoted.bits := by cases k <;> decide
      have hx : operate .shr m.kind.promoted m.value n.value = some (m.value >>> n.value.toNat) := by
        rw [hm, operate, if_pos ⟨by omega, by omega⟩, Int.shiftRight_eq_div_pow]
        norm_cast
      have hfits := IntKind.contains_shiftRight hmfits n.value.toNat
      rw [exec_assign_cast hdest (eval_shift rfl hl hr hx), value_ofInt, IntKind.wrap_of_contains]
      · rfl
      · rw [hm, Int.shiftRight_eq_div_pow]
        exact_mod_cast IntKind.contains_promoted hfits

end Operands

theorem exec_negateCode (he : e.eval v = some n) (hdest : types dest = k) :
    exec types (negateCode dest k e) v = some (.ok (v.set dest (.ofInt k (-n.value)))) := by
  have hzero : (Expr.number 0).eval v = some (.ofInt .i32 0) := rfl
  have hsub : ArithOp.isShift .sub = false := rfl
  have hcode := exec_wrapping hsub (fun k a b => wrapped k (a - b)) Int.ModEq.sub hdest hzero he
  rw [value_ofInt, IntKind.wrap_of_contains rfl, Int.zero_sub] at hcode
  exact hcode

/-- Turning all bits over takes a number to the one that adds up to `-1` with it. -/
theorem read_not_modEq (k : IntKind) (a : Int) : k.read (~~~k.word a) ≡ -a - 1 [ZMOD 2 ^ k.bits] := by
  have hread : k.read (~~~k.word a) ≡ (~~~k.word a).toNat [ZMOD 2 ^ k.bits] := by
    rw [IntKind.read]
    split
    · rw [BitVec.toInt_eq_toNat_bmod]
      exact_mod_cast Int.bmod_emod
    · rfl
  have hword : ((k.word a).toNat : Int) ≡ a [ZMOD 2 ^ k.bits] := by
    have hpos : ((2 ^ k.bits : Nat) : Int) ≠ 0 := by exact_mod_cast (Nat.two_pow_pos k.bits).ne'
    rw [IntKind.word, BitVec.toNat_ofInt, Int.toNat_of_nonneg (Int.emod_nonneg _ hpos)]
    exact_mod_cast Int.mod_modEq a _
  have hnot : ((~~~k.word a).toNat : Int) = 2 ^ k.bits - 1 - (k.word a).toNat := by
    have hlt := (k.word a).isLt
    rw [BitVec.toNat_not]
    push_cast [show (k.word a).toNat ≤ 2 ^ k.bits - 1 by omega, Nat.one_le_two_pow]
    rfl
  calc k.read (~~~k.word a) ≡ 2 ^ k.bits - 1 - (k.word a).toNat [ZMOD 2 ^ k.bits] := hnot ▸ hread
    _ ≡ 2 ^ k.bits - 1 - a [ZMOD 2 ^ k.bits] := hword.sub_left _
    _ ≡ -a - 1 [ZMOD 2 ^ k.bits] := by
      rw [Int.modEq_comm, Int.modEq_iff_dvd]
      exact ⟨1, by omega⟩

theorem exec_complementCode (he : e.eval v = some n) (hn : n.kind = k) (hdest : types dest = k) :
    exec types (complementCode dest k e) v = some (.ok (v.set dest (.ofInt k (-n.value - 1)))) := by
  have hnot : (Expr.complement e).eval v =
      some (.ofInt k.promoted (k.promoted.read (~~~k.promoted.word n.value))) := by
    subst hn
    simp [he]
  have hwidth : k.bits ≤ k.promoted.bits := by cases k <;> decide
  exact exec_assign_modEq hdest hwidth hnot (read_not_modEq _ _)

theorem Vars.set_inj {a b : Number} : v.set dest a = v.set dest b ↔ a = b := by
  refine ⟨fun h => ?_, fun h => h ▸ rfl⟩
  simpa [Vars.set] using congrFun (congrArg Vars.temps h) dest

/-- **Constants are computed as the program would.**  The code for an operator on two numbers of a kind always has an
outcome.  The constant is the number that the code puts into its variable, if that is the true result; it is an
overflow if that number is wrapped around, and it has one error for each way in which the code stops.  A constant is
negated in the same way, and its complement, which always fits, is the number that the code computes. -/
theorem constant_iff_code (op : ArithOp) (hl : l.eval v = some m) (hm : m.kind = k) (hr : r.eval v = some n)
    (hn : n.kind = k) (hdest : types dest = k) :
    (∃ outcome, exec types (arithCode dest op k l r) v = some outcome ∧
      (∀ x, op.apply k m.value n.value = .ok x ↔
        ∃ result, outcome = .ok (v.set dest result) ∧ result.value = x ∧ x = op.exact k m.value n.value) ∧
      (op.apply k m.value n.value = .error (.overflow k) ↔
        ∃ result, outcome = .ok (v.set dest result) ∧ result.value ≠ op.exact k m.value n.value) ∧
      (op.apply k m.value n.value = .error .divisionByZero ↔ op = .div ∧ outcome = .error "division by zero") ∧
      (op.apply k m.value n.value = .error .remainderByZero ↔ op = .rem ∧ outcome = .error "division by zero") ∧
      (op.apply k m.value n.value = .error (.divisionOverflow k) ↔ outcome = .error "integer overflow in division") ∧
      (op.apply k m.value n.value = .error (.shiftCount n.value k) ↔ outcome = .error "shift amount out of range")) ∧
    (∃ result, exec types (negateCode dest k l) v = some (.ok (v.set dest result)) ∧
      (∀ x, k.neg m.value = .ok x ↔ result.value = x ∧ x = -m.value) ∧
      (k.neg m.value = .error (.overflow k) ↔ result.value ≠ -m.value)) ∧
    (∃ result, exec types (complementCode dest k l) v = some (.ok (v.set dest result)) ∧
      k.complement m.value = .ok result.value) := by
  refine ⟨⟨_, exec_arithCode hl hm hr hn hdest op, ?_⟩, ⟨_, exec_negateCode hl hdest, ?_, ?_⟩,
    ⟨_, exec_complementCode hl hm hdest, complement_eq (hm ▸ m.fits)⟩⟩
  rotate_left
  · intro x
    rw [IntKind.neg, fit_eq_ok, value_ofInt]
  · rw [IntKind.neg, fit_eq_error, value_ofInt]
    simp only [true_and]
  have hzero : Failure.message .divisionByZero = "division by zero" := rfl
  have hover : Failure.message .divisionOverflow = "integer overflow in division" := rfl
  have hshift : Failure.message .shiftCount = "shift amount out of range" := rfl
  obtain ⟨x, hperform, happly⟩ | ⟨rfl, hperform, happly⟩ | ⟨rfl, hperform, happly⟩ | ⟨hperform, happly⟩ |
    ⟨hperform, happly⟩ := perform_cases op k m.value n.value
  · have hexact : x = op.exact k m.value n.value := perform_eq_exact (hm ▸ m.fits) (hn ▸ n.fits) hperform
    rw [hperform, happly, ← hexact]
    simp only [fit_eq_ok, fit_eq_error]
    simp [ended, Vars.set_inj, value_ofInt]
  all_goals
    rw [hperform, happly]
    simp [ended, hzero, hover, hshift]

def lowest : Vars :=
  { params := fun _ => none,
    temps := fun t =>
      if t.index = 0 then some (.ofInt .i8 (-128)) else if t.index = 1 then some (.ofInt .i8 (-1)) else none }

theorem constant_iff_code_lowest :
    exec (fun _ => .i8) (arithCode ⟨2⟩ .div .i8 (.temp ⟨0⟩) (.temp ⟨1⟩)) lowest =
      some (.error "integer overflow in division") ∧
    ∃ result, exec (fun _ => .i8) (negateCode ⟨2⟩ .i8 (.temp ⟨0⟩)) lowest = some (.ok (lowest.set ⟨2⟩ result)) ∧
      result.value ≠ 128 := by
  obtain ⟨⟨outcome, hexec, -, -, -, -, hover, -⟩, ⟨result, hneg, -, hwraps⟩, -⟩ :=
    @constant_iff_code (fun _ => .i8) lowest ⟨2⟩ .i8 (.temp ⟨0⟩) (.temp ⟨1⟩) _ _ .div rfl rfl rfl rfl rfl
  exact ⟨hexec.trans (congrArg some (hover.1 rfl)), result, hneg, hwraps.1 rfl⟩

end Target

end Keel
