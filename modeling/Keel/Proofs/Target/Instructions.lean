/-
# Integer instructions as C

What the lines emitted for an instruction on integers do, against what the instruction does when the program
in blocks is run.  The variables of C hold what the running function holds (`varsOf`).  After the lines
they hold what it holds after the instruction; if the instruction fails, the lines stop the program with the
message of the failure (`integer_instr_code`).

A range check tests only those bounds that the kind of the value leaves open; still it stops the program just when
the value is out of the range (`rangeCheck_code`).
-/
import Keel.Proofs.Semantics.Machine
import Keel.Proofs.Target.Reading

namespace Keel.Target

open List

open Ir (Storage Operand Instr Frame Effect TempId)

/-! ### Variables -/

/-- The number that C has for a value.  A `bool` is zero or one, and computed with like a byte. -/
def number? : Value → Option Number
  | .int n => some n
  | .bool b => some (.ofInt .u8 (if b then 1 else 0))
  | _ => none

/-- The type of a variable; one that holds no number passes for a byte. -/
def variableKind (f : Ir.Function) (t : TempId) : IntKind :=
  match f.temps[t.index]? with
  | some (.int kind) => kind
  | _ => .u8

/-- What the integer variables hold while a function is running. -/
def varsOf (frame : Frame) : Vars where
  params index := frame.args[index]?.bind number?
  temps id := (frame.temps id).bind number?

/-- The variables after an effect, or the message of its failure. -/
def outcome (frame : Frame) : Effect → Except String Vars
  | .define dest value => .ok (varsOf (frame.setTemp dest value))
  | .assign slot value => .ok (varsOf (frame.setSlot slot value))
  | .proceed => .ok (varsOf frame)
  | .fail failure => .error failure.message

/-- An operand that is a number, a variable or a constant in range. -/
structure Holds (frame : Frame) (o : Operand) (n : Number) : Prop where
  value : frame.value? o = some (.int n)
  inRange : ∀ value kind, o = .const (.int value kind) → kind.contains value = true

variable {frame : Frame} {o : Operand} {m n : Number}

theorem varsOf_setTemp {value : Value} (h : number? value = some n) (dest : TempId) :
    varsOf (frame.setTemp dest value) = (varsOf frame).set dest n := by
  simp only [varsOf, Frame.setTemp, Vars.set, Vars.mk.injEq, true_and]
  funext t
  split
  · exact h
  · rfl

theorem eval_ofOperand (ho : Holds frame o n) : (ofOperand o).eval (varsOf frame) = some n := by
  have hvalue := ho.value
  cases o with
  | param index | temp id => exact congrArg (·.bind number?) hvalue
  | const c =>
    cases c with
    | int value kind => cases hvalue; rfl
    | unit | bool _ | str _ => cases hvalue

theorem numeric_ofOperand (ho : Holds frame o n) : (ofOperand o).Numeric := by
  have hvalue := ho.value
  cases o with
  | param index => exact .param index
  | temp id => exact .temp id
  | const c =>
    cases c with
    | int value kind => exact .int (ho.inRange value kind rfl)
    | unit | bool _ | str _ => cases hvalue

/-! ### The instructions -/

/-- An instruction on integers, and what it does: an operator on two numbers of a kind wraps its result around or
fails, a comparison has a truth value, and negation, complement and casts wrap around. -/
inductive OnIntegers (frame : Frame) : Instr → Effect → Prop
  | arith {dest : TempId} {l r : Operand} {m n : Number} {k : IntKind} (op : ArithOp) : Holds frame l m →
      Holds frame r n → m.kind = k → n.kind = k → frame.function.temps[dest.index]? = some (.int k) →
      OnIntegers frame (.binary dest (.arith op) l r (.int k))
        (.ofResult dest ((op.perform k m.value n.value).map fun x => .int (.ofInt k x)))
  | compare {dest : TempId} {l r : Operand} {m n : Number} {k : IntKind} (op : CompareOp) : Holds frame l m →
      Holds frame r n → m.kind = k → n.kind = k → frame.function.temps[dest.index]? = some .bool →
      OnIntegers frame (.binary dest (.compare op) l r (.int k)) (.define dest (.bool (op.holds m.value n.value)))
  | negate {dest : TempId} {o : Operand} {n : Number} : Holds frame o n →
      frame.function.temps[dest.index]? = some (.int n.kind) →
      OnIntegers frame (.unary dest .neg o) (.define dest (.int (.ofInt n.kind (-n.value))))
  | complement {dest : TempId} {o : Operand} {n : Number} : Holds frame o n →
      frame.function.temps[dest.index]? = some (.int n.kind) →
      OnIntegers frame (.unary dest .bitNot o) (.define dest (.int (.ofInt n.kind (-n.value - 1))))
  | cast {dest : TempId} {o : Operand} {n : Number} {target : IntKind} : Holds frame o n →
      frame.function.temps[dest.index]? = some (.int target) →
      OnIntegers frame (.cast dest o n.kind target) (.define dest (.int (.ofInt target n.value)))

theorem OnIntegers.effect? {i : Instr} {effect : Effect} (h : OnIntegers frame i effect) (w : World) :
    i.effect? frame w = some (effect, w) := by
  cases h with
  | arith op hl hr hm hn _ =>
    simp [Instr.effect?, hl.value, hr.value, Ir.EagerOp.perform?, Value.arith?, hm, hn]
  | compare op hl hr hm hn _ =>
    simp [Instr.effect?, hl.value, hr.value, Ir.EagerOp.perform?, Storage.holds, Value.compare?, hm, hn, Effect.ofResult]
  | negate ho _ | complement ho _ | cast ho _ => simp [Instr.effect?, ho.value, Value.unary?]

section Code

variable {dest : TempId} {l r e : Expr} {v : Vars}

theorem numeric_arithCode (op : ArithOp) (k : IntKind) (hl : l.Numeric) (hr : r.Numeric) :
    ∀ s ∈ arithCode dest op k l r, s.Numeric := by
  have hbits : (Expr.number k.bits).Numeric := .number (by cases k <;> rfl)
  have hguard : (shiftGuard k r).Numeric := .failIf _ (.compare _ (.cast _ hr) hbits)
  cases op with
  | add | sub | mul =>
    simp only [arithCode, forall_mem_singleton]
    exact .assign _ (.cast _ (.arith _ (.cast _ hl) (.cast _ hr)))
  | bitAnd | bitOr | bitXor =>
    simp only [arithCode, forall_mem_singleton]
    exact .assign _ (.cast _ (.arith _ hl hr))
  | shl =>
    simp only [arithCode, forall_mem_cons]
    exact ⟨hguard, .assign _ (.cast _ (.arith _ (.cast _ hl) hr)), forall_mem_nil _⟩
  | shr =>
    simp only [arithCode, forall_mem_cons]
    exact ⟨hguard, .assign _ (.cast _ (.arith _ hl hr)), forall_mem_nil _⟩
  | div | rem =>
    simp only [arithCode, cons_append, forall_mem_cons, forall_mem_append]
    refine ⟨.failIf _ (.compare _ hr (.number rfl)), ?_, .assign _ (.cast _ (.arith _ hl hr)), forall_mem_nil _⟩
    unfold quotientGuard
    split
    · have hmin : k.contains k.min = true := by cases k <;> rfl
      exact forall_mem_singleton.2
        (.failIf _ (.logic _ (.compare _ hr (.number rfl)) (.compare _ hl (.int hmin))))
    · exact forall_mem_nil _

theorem eval_compare_of_kind (op : CompareOp) (hl : l.eval v = some m) (hr : r.eval v = some n)
    (hkind : m.kind = n.kind) : (Expr.compare op l r).eval v = some (truth (op.holds m.value n.value)) := by
  have hm := IntKind.wrap_of_contains (IntKind.contains_promoted m.fits)
  have hn := IntKind.wrap_of_contains (IntKind.contains_promoted n.fits)
  rw [← hkind] at hn
  simp [Expr.eval, hl, hr, ← hkind, IntKind.common_self, hm, hn]

theorem variableKind_of_int {f : Ir.Function} {k : IntKind} (h : f.temps[dest.index]? = some (.int k)) :
    variableKind f dest = k := by simp [variableKind, h]

theorem outcome_ofResult (frame : Frame) (dest : TempId) (k : IntKind) (result : Except Failure Int) :
    outcome frame (.ofResult dest (result.map fun x => .int (.ofInt k x))) =
      ended (varsOf frame) dest k result := by
  cases result with
  | ok x => exact congrArg Except.ok (varsOf_setTemp rfl dest)
  | error failure => rfl

end Code

theorem OnIntegers.exec_instrCode {i : Instr} {effect : Effect} (h : OnIntegers frame i effect) :
    ∃ code, instrCode frame.function i = .ok code ∧ (∀ s ∈ code, s.Numeric) ∧
      exec (variableKind frame.function) code (varsOf frame) = some (outcome frame effect) := by
  cases h with
  | @arith _ _ _ _ _ k op hl hr hm hn hdest =>
    refine ⟨_, rfl, numeric_arithCode op k (numeric_ofOperand hl) (numeric_ofOperand hr), ?_⟩
    rw [exec_arithCode (eval_ofOperand hl) hm (eval_ofOperand hr) hn (variableKind_of_int hdest), outcome_ofResult]
  | @compare dest _ _ m n _ op hl hr hm hn hdest =>
    have hbool : variableKind frame.function dest = .u8 := by simp [variableKind, hdest]
    have htruth : (truth (op.holds m.value n.value)).value = if op.holds m.value n.value then 1 else 0 := by
      cases op.holds m.value n.value <;> rfl
    refine ⟨_, rfl, forall_mem_singleton.2
      (.assign _ (.compare op (numeric_ofOperand hl) (numeric_ofOperand hr))), ?_⟩
    rw [outcome, varsOf_setTemp rfl]
    simp [exec, eval_compare_of_kind op (eval_ofOperand hl) (eval_ofOperand hr) (hm.trans hn.symm), hbool, htruth]
  | @negate dest o n ho hdest =>
    have hcode : instrCode frame.function (.unary dest .neg o) = .ok (negateCode dest n.kind (ofOperand o)) := by
      simp only [instrCode, hdest]
      rfl
    refine ⟨_, hcode, forall_mem_singleton.2
      (.assign _ (.cast _ (.arith _ (.cast _ (.number rfl)) (.cast _ (numeric_ofOperand ho))))), ?_⟩
    rw [exec_negateCode (eval_ofOperand ho) (variableKind_of_int hdest), outcome, varsOf_setTemp rfl]
  | @complement dest o n ho hdest =>
    have hcode : instrCode frame.function (.unary dest .bitNot o) = .ok (complementCode dest n.kind (ofOperand o)) := by
      simp only [instrCode, hdest]
      rfl
    refine ⟨_, hcode, forall_mem_singleton.2 (.assign _ (.cast _ (.complement (numeric_ofOperand ho)))), ?_⟩
    rw [exec_complementCode (eval_ofOperand ho) rfl (variableKind_of_int hdest), outcome, varsOf_setTemp rfl]
  | cast ho hdest =>
    refine ⟨_, rfl, forall_mem_singleton.2 (.assign _ (.cast _ (numeric_ofOperand ho))), ?_⟩
    rw [exec_assign_cast (variableKind_of_int hdest) (eval_ofOperand ho), outcome, varsOf_setTemp rfl]

/-- **Integer code computes what the instruction says.**  The lines that are emitted for an instruction on
integers spell statements of C that always have an outcome, so nothing that they evaluate is undefined.  They stop
the program if the instruction fails, and otherwise leave the variables as the instruction leaves the
function.  The text of a constant has the type and the value of the constant. -/
theorem integer_instr_code {i : Instr} {effect : Effect} (h : OnIntegers frame i effect) :
    (∀ w, i.effect? frame w = some (effect, w)) ∧
    (∃ code tree, instrCode frame.function i = .ok code ∧ SpellsCode (code.flatMap Stmt.lines) tree ∧
      exec (variableKind frame.function) tree (varsOf frame) = some (outcome frame effect)) ∧
    ∀ k x, IntKind.contains k x = true → ∃ tree number, Spells 10 (intLiteral x k) tree ∧
      tree.eval (varsOf frame) = some number ∧ number.kind = k ∧ number.value = x := by
  obtain ⟨code, hcode, hnumeric, hexec⟩ := h.exec_instrCode
  obtain ⟨tree, hspells, htree⟩ := spellsCode_lines hnumeric
  refine ⟨h.effect?, ⟨code, tree, hcode, hspells, (htree _ _).trans hexec⟩, fun k x hx => ?_⟩
  obtain ⟨tree, hspells, heval⟩ := spells_intLiteral hx
  exact ⟨tree, _, hspells, heval _, rfl, IntKind.wrap_of_contains hx⟩

/-- A function with the greatest `u16` as its argument. -/
def squaring : Frame :=
  ⟨⟨"f", [.int .u16], .int .u16, [], [.int .u16], []⟩, [.int (.ofInt .u16 65535)], fun _ => none, fun _ => none, ⟨0⟩, 0⟩

/-- The product does not fit an `int`. -/
theorem integer_instr_code_square :
    OnIntegers squaring (.binary ⟨0⟩ (.arith .mul) (.param 0) (.param 0) (.int .u16))
      (.define ⟨0⟩ (.int (.ofInt .u16 (65535 * 65535)))) ∧
    ∃ code tree, instrCode squaring.function (.binary ⟨0⟩ (.arith .mul) (.param 0) (.param 0) (.int .u16)) = .ok code ∧
      SpellsCode (code.flatMap Stmt.lines) tree ∧
      exec (variableKind squaring.function) tree (varsOf squaring) =
        some (.ok (varsOf (squaring.setTemp ⟨0⟩ (.int (.ofInt .u16 1))))) := by
  have hholds : Holds squaring (.param 0) (.ofInt .u16 65535) := ⟨rfl, nofun⟩
  have hinstr := OnIntegers.arith .mul hholds hholds rfl rfl (rfl : squaring.function.temps[0]? = _)
  exact ⟨hinstr, (integer_instr_code hinstr).2.1⟩

/-! ### Range checks -/

/-- The constants that are written with their kind. -/
def Expr.constants : Expr → List (Int × IntKind)
  | .int value kind => [(value, kind)]
  | .cast _ e | .not e | .complement e => e.constants
  | .arith _ l r | .compare _ l r | .logic _ l r => l.constants ++ r.constants
  | _ => []

def Stmt.constants : Stmt → List (Int × IntKind)
  | .assign _ e | .failIf e _ => e.constants
  | _ => []

section RangeCheck

variable {e : Expr} {v : Vars} {k : IntKind} {low high : Int}

theorem rangeCheckCode_of_overlap {k : IntKind} {low high : Int} (h : ¬ (low > k.max ∨ high < k.min)) (e : Expr) :
    rangeCheckCode e k low high = match boundTests e k low high with
      | [] => []
      | test :: rest => [.failIf (rest.foldl (.logic .or) test) (Failure.outOfRange low high).message] :=
  if_neg h

/-- What is emitted for a range check, case by case: the range has no value of the kind, or all of them, or is
bounded within the kind from below, from above or both. -/
theorem rangeCheckCode_cases (e : Expr) (k : IntKind) (low high : Int) :
    ((k.max < low ∨ high < k.min) ∧ rangeCheckCode e k low high = [.fail (Failure.outOfRange low high).message]) ∨
    (low ≤ k.min ∧ k.max ≤ high ∧ rangeCheckCode e k low high = []) ∨
    (k.contains low = true ∧ k.max ≤ high ∧ rangeCheckCode e k low high =
      [.failIf (.compare .lt e (.int low k)) (Failure.outOfRange low high).message]) ∨
    (low ≤ k.min ∧ k.contains high = true ∧ rangeCheckCode e k low high =
      [.failIf (.compare .gt e (.int high k)) (Failure.outOfRange low high).message]) ∨
    (k.contains low = true ∧ k.contains high = true ∧ rangeCheckCode e k low high =
      [.failIf (.logic .or (.compare .lt e (.int low k)) (.compare .gt e (.int high k)))
        (Failure.outOfRange low high).message]) := by
  by_cases hout : low > k.max ∨ high < k.min
  · exact .inl ⟨hout, if_pos hout⟩
  · rw [rangeCheckCode_of_overlap hout, boundTests]
    refine .inr ?_
    by_cases hlow : low > k.min <;> by_cases hhigh : high < k.max
    · exact .inr (.inr (.inr ⟨IntKind.contains_iff.2 (by omega), IntKind.contains_iff.2 (by omega), by
        rw [if_pos hlow, if_pos hhigh]; rfl⟩))
    · exact .inr (.inl ⟨IntKind.contains_iff.2 (by omega), by omega, by rw [if_pos hlow, if_neg hhigh]; rfl⟩)
    · exact .inr (.inr (.inl ⟨by omega, IntKind.contains_iff.2 (by omega), by rw [if_neg hlow, if_pos hhigh]; rfl⟩))
    · exact .inl ⟨by omega, by omega, by rw [if_neg hlow, if_neg hhigh]; rfl⟩

theorem eval_compare_constant (op : CompareOp) {x : Int} (he : e.eval v = some n) (hx : n.kind.contains x = true) :
    (Expr.compare op e (.int x n.kind)).eval v = some (truth (op.holds n.value x)) := by
  rw [eval_compare_of_kind op he (rfl : (Expr.int x n.kind).eval v = some (.ofInt n.kind x)) rfl, value_ofInt,
    IntKind.wrap_of_contains hx]

theorem eval_or {a b : Expr} {p q : Bool} (ha : a.eval v = some (truth p)) (hb : b.eval v = some (truth q)) :
    (Expr.logic .or a b).eval v = some (truth (p || q)) := by
  rw [Expr.eval, ha, hb]
  cases p <;> cases q <;> rfl

theorem exec_failIf_last {c : Expr} {b : Bool} (hc : c.eval v = some (truth b)) (types : TempId → IntKind)
    (message : String) : exec types [.failIf c message] v = some (if b then .error message else .ok v) := by
  rw [exec_failIf hc]
  cases b <;> rfl

/-- **The tests that are left out are not missed.** -/
theorem exec_rangeCheckCode (he : e.eval v = some n) (types : TempId → IntKind) (low high : Int) :
    exec types (rangeCheckCode e n.kind low high) v =
      some (if n.value < low ∨ high < n.value then .error (Failure.outOfRange low high).message else .ok v) := by
  have hfits := IntKind.contains_iff.1 n.fits
  obtain ⟨hout, hcode⟩ | ⟨hlow, hhigh, hcode⟩ | ⟨hlow, hhigh, hcode⟩ | ⟨hlow, hhigh, hcode⟩ | ⟨hlow, hhigh, hcode⟩ :=
    rangeCheckCode_cases e n.kind low high <;> rw [hcode]
  · rw [if_pos (by omega)]
    rfl
  · rw [if_neg (by omega)]
    rfl
  · rw [exec_failIf_last (eval_compare_constant .lt he hlow)]
    refine congrArg some (if_congr ?_ rfl rfl)
    simp only [CompareOp.holds, decide_eq_true_eq]
    omega
  · rw [exec_failIf_last (eval_compare_constant .gt he hhigh)]
    refine congrArg some (if_congr ?_ rfl rfl)
    simp only [CompareOp.holds, decide_eq_true_eq]
    omega
  · rw [exec_failIf_last (eval_or (eval_compare_constant .lt he hlow) (eval_compare_constant .gt he hhigh))]
    refine congrArg some (if_congr ?_ rfl rfl)
    simp only [CompareOp.holds, Bool.or_eq_true, decide_eq_true_eq]

theorem numeric_rangeCheckCode (he : e.Numeric) (k : IntKind) (low high : Int) :
    ∀ s ∈ rangeCheckCode e k low high, s.Numeric := by
  obtain ⟨-, hcode⟩ | ⟨-, -, hcode⟩ | ⟨hlow, -, hcode⟩ | ⟨-, hhigh, hcode⟩ | ⟨hlow, hhigh, hcode⟩ :=
    rangeCheckCode_cases e k low high <;> rw [hcode]
  · exact forall_mem_singleton.2 (.fail _)
  · nofun
  · exact forall_mem_singleton.2 (.failIf _ (.compare _ he (.int hlow)))
  · exact forall_mem_singleton.2 (.failIf _ (.compare _ he (.int hhigh)))
  · exact forall_mem_singleton.2 (.failIf _ (.logic _ (.compare _ he (.int hlow)) (.compare _ he (.int hhigh))))

theorem constants_rangeCheckCode {x : Int} {kind : IntKind}
    (h : (x, kind) ∈ (rangeCheckCode e k low high).flatMap Stmt.constants) :
    (x, kind) ∈ e.constants ∨ kind = k ∧ k.contains x = true := by
  obtain ⟨-, hcode⟩ | ⟨-, -, hcode⟩ | ⟨hlow, -, hcode⟩ | ⟨-, hhigh, hcode⟩ | ⟨hlow, hhigh, hcode⟩ :=
    rangeCheckCode_cases e k low high <;> rw [hcode] at h
  · cases h
  · cases h
  · simp only [flatMap_singleton, Stmt.constants, Expr.constants, mem_append, mem_singleton,
      Prod.mk.injEq] at h
    exact h.imp_right fun ⟨hx, hkind⟩ => ⟨hkind, hx ▸ hlow⟩
  · simp only [flatMap_singleton, Stmt.constants, Expr.constants, mem_append, mem_singleton,
      Prod.mk.injEq] at h
    exact h.imp_right fun ⟨hx, hkind⟩ => ⟨hkind, hx ▸ hhigh⟩
  · simp only [flatMap_singleton, Stmt.constants, Expr.constants, mem_append, mem_singleton,
      Prod.mk.injEq] at h
    obtain (he | ⟨rfl, rfl⟩) | he | ⟨rfl, rfl⟩ := h
    · exact .inl he
    · exact .inr ⟨rfl, hlow⟩
    · exact .inl he
    · exact .inr ⟨rfl, hhigh⟩

end RangeCheck

/-- **A range check is exact.**  For a number of any kind and any bounds, the lines that are emitted stop the program
if the number is below the one or above the other, and otherwise change nothing; every bound that is printed is
a number of the kind. -/
theorem rangeCheck_code (ho : Holds frame o n) (low high : Int) :
    ∃ code tree, instrCode frame.function (.rangeCheck o n.kind low high) = .ok code ∧
      SpellsCode (code.flatMap Stmt.lines) tree ∧
      (∀ types, exec types tree (varsOf frame) = some (if n.value < low ∨ high < n.value
        then .error s!"value out of range {low}..={high}" else .ok (varsOf frame))) ∧
      ∀ x kind, (x, kind) ∈ code.flatMap Stmt.constants →
        (x, kind) ∈ (ofOperand o).constants ∨ kind = n.kind ∧ n.kind.contains x = true := by
  obtain ⟨tree, hspells, hexec⟩ := spellsCode_lines (numeric_rangeCheckCode (numeric_ofOperand ho) n.kind low high)
  exact ⟨_, tree, rfl, hspells, fun types => (hexec types _).trans (exec_rangeCheckCode (eval_ofOperand ho) types low high),
    fun _ _ => constants_rangeCheckCode⟩

/-- A range that begins below the kind and ends within it. -/
theorem rangeCheck_code_above : Holds squaring (.param 0) (.ofInt .u16 65535) ∧
    ∃ code tree, instrCode squaring.function (.rangeCheck (.param 0) .u16 (-1) 65534) = .ok code ∧
      SpellsCode (code.flatMap Stmt.lines) tree ∧
      exec (fun _ => .u16) tree (varsOf squaring) = some (.error "value out of range -1..=65534") := by
  have hholds : Holds squaring (.param 0) (.ofInt .u16 65535) := ⟨rfl, nofun⟩
  obtain ⟨code, tree, hcode, hspells, hexec, -⟩ := rangeCheck_code hholds (-1) 65534
  exact ⟨hholds, code, tree, hcode, hspells, hexec _⟩

end Keel.Target
