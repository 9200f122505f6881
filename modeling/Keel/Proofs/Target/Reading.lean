/-
# Integer code as C reads it

The grammar of C for expressions over integers, level by level: a text spells an expression.  Operators
bind the tighter the greater their level, and those of one level to the left; casts, signs and what stands
in parentheses are tightest.

| level | operators |
| --- | --- |
| 0, 1 | `\|\|`, `&&` |
| 2, 3, 4 | `\|`, `^`, `&` |
| 5, 6 | `==` `!=`, `<` `<=` `>` `>=` |
| 7, 8, 9 | `<<` `>>`, `+` `-`, `*` `/` `%` |
| 10 | casts, `!`, `~`, `-`, operands |

A decimal numeral has the type `int` if that holds it, or else `int64_t`, or else no meaning; `INT64_C` and
`UINT64_C` give it a type.  No numeral is negative: a sign is an operator, and `INT64_MIN` is a difference.

The text of an integer expression spells one that has the same value (`Expr.Numeric.legible`), and so
the lines of integer code spell statements that do the same (`spellsCode_lines`).
-/
import Keel.Proofs.Syntax.Rendering
import Keel.Proofs.Target.Arithmetic
import Keel.Proofs.Target.Strings

namespace Keel.Target

open Ir (TempId)

/-! ### The grammar -/

def Numeral (text : String) (n : Nat) : Prop :=
  text.toList ≠ [] ∧ text.toList.all Scan.isDigit = true ∧ (text.toList.head? = some '0' → text = "0") ∧
    Scan.positional 10 text.toList = n

/-- A type that has the number, the one of a numeral without a suffix. -/
def numeralKind? (n : Nat) : Option IntKind := [IntKind.i32, .i64].find? (·.contains n)

def negated (e : Expr) : Expr := .arith .sub (.number 0) e

def operators : List (String × Nat × (Expr → Expr → Expr)) :=
  [("||", 0, .logic .or), ("&&", 1, .logic .and), ("|", 2, .arith .bitOr), ("^", 3, .arith .bitXor),
    ("&", 4, .arith .bitAnd), ("==", 5, .compare .eq), ("!=", 5, .compare .ne), ("<", 6, .compare .lt),
    ("<=", 6, .compare .le), (">", 6, .compare .gt), (">=", 6, .compare .ge), ("<<", 7, .arith .shl),
    (">>", 7, .arith .shr), ("+", 8, .arith .add), ("-", 8, .arith .sub), ("*", 9, .arith .mul),
    ("/", 9, .arith .div), ("%", 9, .arith .rem)]

/-- A text that the grammar derives at a level, and the expression that it is. -/
inductive Spells : Nat → String → Expr → Prop
  | param (index : Nat) : Spells 10 s!"p{index}" (.param index)
  | temp (id : TempId) : Spells 10 id.text (.temp id)
  | numeral {text : String} {n : Nat} {k : IntKind} : Numeral text n → numeralKind? n = some k →
      Spells 10 text (.int n k)
  | minus {text : String} {n : Nat} {k : IntKind} : Numeral text n → numeralKind? n = some k →
      Spells 10 ("-" ++ text) (negated (.int n k))
  | int64 {text : String} {n : Nat} : Numeral text n → IntKind.contains .i64 n = true →
      Spells 10 ("INT64_C(" ++ text ++ ")") (.int n .i64)
  /-- The argument is signed, which the standard leaves out: the macro is read by its expansion,
  which pastes the suffix to the numeral. -/
  | int64Minus {text : String} {n : Nat} : Numeral text n → IntKind.contains .i64 n = true →
      Spells 10 ("INT64_C(" ++ ("-" ++ text) ++ ")") (negated (.int n .i64))
  | uint64 {text : String} {n : Nat} : Numeral text n → IntKind.contains .u64 n = true →
      Spells 10 ("UINT64_C(" ++ text ++ ")") (.int n .u64)
  | int64Min : Spells 10 "INT64_MIN" (.arith .sub (negated (.int 9223372036854775807 .i64)) (.number 1))
  | parentheses {text : String} {e : Expr} : Spells 0 text e → Spells 10 ("(" ++ text ++ ")") e
  | cast {text : String} {e : Expr} (k : IntKind) : Spells 10 text e →
      Spells 10 ("(" ++ intType k ++ ")" ++ text) (.cast k e)
  | not {text : String} {e : Expr} : Spells 10 text e → Spells 10 ("!" ++ text) (.not e)
  | complement {text : String} {e : Expr} : Spells 10 text e → Spells 10 ("~" ++ text) (.complement e)
  | binary {symbol l r : String} {p : Nat} {node : Expr → Expr → Expr} {a b : Expr} :
      (symbol, p, node) ∈ operators → Spells p l a → Spells (p + 1) r b →
      Spells p (l ++ " " ++ symbol ++ " " ++ r) (node a b)
  | looser {text : String} {p q : Nat} {e : Expr} : p ≤ q → Spells q text e → Spells p text e

/-- Lines of a function that set integer variables or stop the program, and the statements that they are. -/
inductive SpellsCode : List String → List Stmt → Prop
  | done : SpellsCode [] []
  | assign {text : String} {e : Expr} {rest : List String} {code : List Stmt} (dest : TempId) : Spells 0 text e →
      SpellsCode rest code →
      SpellsCode (indented 1 (dest.text ++ " = " ++ text ++ ";") :: rest) (.assign (.temp dest) e :: code)
  | fail {literal message : String} {rest : List String} {code : List Stmt} :
      literalBytes literal = some (Text.bytes message) → SpellsCode rest code →
      SpellsCode (indented 1 ("kl_fail(" ++ literal ++ ");") :: rest) (.fail message :: code)
  | failIf {text literal message : String} {e : Expr} {rest : List String} {code : List Stmt} : Spells 0 text e →
      literalBytes literal = some (Text.bytes message) → SpellsCode rest code →
      SpellsCode (indented 1 ("if (" ++ text ++ ") \x7b") :: indented 2 ("kl_fail(" ++ literal ++ ");") ::
        indented 1 "\x7d" :: rest) (.failIf e message :: code)

/-! ### Numbers -/

variable {n : Nat} {k : IntKind} {x : Int}

theorem eq_zero_of_head_toDigits (h : (Nat.toDigits 10 n).head? = some '0') : n = 0 := by
  induction n using Nat.strongRecOn with
  | ind n ih =>
    have hdigit : ∀ n < 10, some (Nat.digitChar n) = some '0' → n = 0 := by decide
    rcases Nat.lt_or_ge n 10 with hlt | hle
    · rw [Nat.toDigits_of_lt_base hlt] at h
      exact hdigit n hlt h
    · rw [Nat.toDigits_of_base_le (by decide) hle, List.head?_append_of_ne_nil _ Nat.toDigits_ne_nil] at h
      have hzero := ih (n / 10) (by omega) h
      omega

theorem numeral_toString (n : Nat) : Numeral (toString n) n := by
  have htext : (toString n).toList = Nat.toDigits 10 n := by
    rw [Nat.toString_eq_repr, Nat.repr_eq_ofList_toDigits, String.toList_ofList]
  rw [Numeral, htext]
  refine ⟨Nat.toDigits_ne_nil, List.all_eq_true.2 fun c => Scan.isDigit_of_mem_toDigits, fun hzero => ?_,
    Scan.positional_toDigits n⟩
  rw [eq_zero_of_head_toDigits hzero]
  rfl

theorem numeralKind?_eq_some (h : numeralKind? n = some k) :
    (k = .i32 ∨ k = .i64) ∧ k.contains n = true ∧ k.contains (-n) = true := by
  have hfits := List.find?_some h
  have hk : k = .i32 ∨ k = .i64 := by simpa using List.mem_of_find?_eq_some h
  refine ⟨hk, hfits, ?_⟩
  rw [IntKind.contains_iff] at hfits ⊢
  rcases hk with rfl | rfl <;> simp only [IntKind.min, IntKind.max] at hfits ⊢ <;> omega

theorem eval_negated (hk : k = .i32 ∨ k = .i64) (hpos : k.contains n = true) (hneg : k.contains (-n) = true)
    (v : Vars) : (negated (.int n k)).eval v = some (.ofInt k (-n)) := by
  have hzero : IntKind.wrap .i32 0 = 0 ∧ k.wrap 0 = 0 := by rcases hk with rfl | rfl <;> exact ⟨rfl, rfl⟩
  have hcommon : IntKind.common .i32 k = k := by rcases hk with rfl | rfl <;> rfl
  have hsigned : k.signed = true := by rcases hk with rfl | rfl <;> rfl
  simp [negated, Expr.eval, ArithOp.isShift, operate, value_ofInt, hzero, hcommon, hsigned,
    IntKind.wrap_of_contains hpos, hneg]

theorem spells_toString (h : numeralKind? x.natAbs = some k) :
    ∃ tree, Spells 10 (toString x) tree ∧ ∀ v, tree.eval v = some (.ofInt k x) := by
  cases x with
  | ofNat n => exact ⟨_, .numeral (numeral_toString n) h, fun _ => rfl⟩
  | negSucc n =>
    obtain ⟨hk, hpos, hneg⟩ := numeralKind?_eq_some h
    exact ⟨_, .minus (numeral_toString (n + 1)) h, eval_negated hk hpos hneg⟩

theorem spells_cast_toString (hx : IntKind.contains .i64 x.natAbs = true) (k : IntKind) :
    ∃ tree, Spells 10 ("((" ++ intType k ++ ")" ++ toString x ++ ")") tree ∧
      ∀ v, tree.eval v = some (.ofInt k x) := by
  have hsome : (numeralKind? x.natAbs).isSome := List.find?_isSome.2 ⟨.i64, by simp, hx⟩
  obtain ⟨kind, hkind⟩ := Option.isSome_iff_exists.1 hsome
  obtain ⟨-, hpos, hneg⟩ := numeralKind?_eq_some hkind
  obtain ⟨tree, hspells, heval⟩ := spells_toString hkind
  have htext : "((" ++ intType k ++ ")" ++ toString x ++ ")" =
      "(" ++ ("(" ++ intType k ++ ")" ++ toString x) ++ ")" := String.toList_inj.1 (by simp)
  have hfits : kind.contains x = true := by
    rcases Int.natAbs_eq x with h | h <;> rw [h] <;> assumption
  refine ⟨.cast k tree, htext ▸ .parentheses (.looser (Nat.zero_le _) (.cast k hspells)), fun v => ?_⟩
  rw [eval_cast (heval v), value_ofInt, IntKind.wrap_of_contains hfits]

/-- **A constant has its value and its type**, and every numeral in it is one of its type. -/
theorem spells_intLiteral (hx : k.contains x = true) :
    ∃ tree, Spells 10 (intLiteral x k) tree ∧ ∀ v, tree.eval v = some (.ofInt k x) := by
  have hrange := IntKind.contains_iff.1 hx
  cases k with
  | i8 | i16 | i32 | u8 | u16 | u32 =>
    refine spells_cast_toString ?_ _
    rw [IntKind.contains_iff]
    simp only [IntKind.min, IntKind.max] at hrange ⊢
    omega
  | u64 =>
    obtain ⟨n, rfl⟩ := Int.eq_ofNat_of_zero_le hrange.1
    exact ⟨_, .uint64 (numeral_toString n) hx, fun _ => rfl⟩
  | i64 =>
    rw [intLiteral]
    split
    case isTrue hmin => exact hmin ▸ ⟨_, .int64Min, fun _ => rfl⟩
    case isFalse hmin =>
      cases x with
      | ofNat n => exact ⟨_, .int64 (numeral_toString n) hx, fun _ => rfl⟩
      | negSucc n =>
        have hpos : IntKind.contains .i64 (n + 1 : Nat) = true := by
          rw [IntKind.contains_iff]
          simp only [IntKind.min, IntKind.max] at hrange hmin ⊢
          omega
        exact ⟨_, .int64Minus (numeral_toString (n + 1)) hpos, eval_negated (.inr rfl) hpos hx⟩

/-! ### Expressions -/

/-- Expressions over integers whose constants are in range. -/
inductive Expr.Numeric : Expr → Prop
  | param (index : Nat) : Numeric (.param index)
  | temp (id : TempId) : Numeric (.temp id)
  | number {value : Int} : numeralKind? value.natAbs = some .i32 → Numeric (.number value)
  | int {value : Int} {kind : IntKind} : kind.contains value = true → Numeric (.int value kind)
  | cast {e : Expr} (kind : IntKind) : Numeric e → Numeric (.cast kind e)
  | not {e : Expr} : Numeric e → Numeric (.not e)
  | complement {e : Expr} : Numeric e → Numeric (.complement e)
  | arith {l r : Expr} (op : ArithOp) : Numeric l → Numeric r → Numeric (.arith op l r)
  | compare {l r : Expr} (op : CompareOp) : Numeric l → Numeric r → Numeric (.compare op l r)
  | logic {l r : Expr} (op : LogicOp) : Numeric l → Numeric r → Numeric (.logic op l r)

/-- The text spells an expression of the same value, at a level that tells how it is put together. -/
def Expr.Legible (e : Expr) : Prop :=
  ∃ tree p, Spells p e.text tree ∧ (e.isBinary = false → p = 10) ∧ (e.isLogic = false → 2 ≤ p) ∧
    ∀ v, tree.eval v = e.eval v

namespace Expr.Legible

variable {e l r : Expr}

theorem of_tight {tree : Expr} (hspells : Spells 10 e.text tree) (heval : ∀ v, tree.eval v = e.eval v) : e.Legible :=
  ⟨tree, 10, hspells, fun _ => rfl, fun _ => by decide, heval⟩

theorem operand (h : e.Legible) :
    ∃ tree, Spells 10 (parenthesizeIf e.isBinary e.text) tree ∧ ∀ v, tree.eval v = e.eval v := by
  obtain ⟨tree, p, hspells, htight, -, heval⟩ := h
  cases hbinary : e.isBinary with
  | true => exact ⟨tree, .parentheses (.looser (Nat.zero_le p) hspells), heval⟩
  | false => exact ⟨tree, htight hbinary ▸ hspells, heval⟩

theorem side (h : e.Legible) :
    ∃ tree, Spells 2 (parenthesizeIf e.isLogic e.text) tree ∧ ∀ v, tree.eval v = e.eval v := by
  obtain ⟨tree, p, hspells, -, htight, heval⟩ := h
  cases hlogic : e.isLogic with
  | true => exact ⟨tree, .looser (by decide) (.parentheses (.looser (Nat.zero_le p) hspells)), heval⟩
  | false => exact ⟨tree, .looser (htight hlogic) hspells, heval⟩

theorem binary {symbol : String} {p : Nat} {node : Expr → Expr → Expr} (hmem : (symbol, p, node) ∈ operators)
    (hp : 2 ≤ p) (he : e.isBinary = true)
    (htext : e.text = parenthesizeIf l.isBinary l.text ++ " " ++ symbol ++ " " ++ parenthesizeIf r.isBinary r.text)
    (heval : ∀ {a b : Expr} {v}, a.eval v = l.eval v → b.eval v = r.eval v → (node a b).eval v = e.eval v)
    (hl : l.Legible) (hr : r.Legible) : e.Legible := by
  have hlevels : ∀ entry ∈ operators, entry.2.1 ≤ 9 := by simp [operators]
  have hle : p ≤ 9 := hlevels _ hmem
  obtain ⟨a, ha, hevalA⟩ := hl.operand
  obtain ⟨b, hb, hevalB⟩ := hr.operand
  refine ⟨node a b, p, htext ▸ .binary hmem (.looser (by omega) ha) (.looser (by omega) hb), ?_, fun _ => hp,
    fun v => heval (hevalA v) (hevalB v)⟩
  rw [he]
  nofun

end Expr.Legible

theorem mem_operators_arith (op : ArithOp) : ∃ p, 2 ≤ p ∧ (op.symbol, p, Expr.arith op) ∈ operators := by
  cases op <;> simp [operators, ArithOp.symbol]

theorem mem_operators_compare (op : CompareOp) : ∃ p, 2 ≤ p ∧ (op.symbol, p, Expr.compare op) ∈ operators := by
  cases op <;> simp [operators, CompareOp.symbol]

theorem mem_operators_logic (op : LogicOp) : ∃ p ≤ 1, (op.symbol, p, Expr.logic op) ∈ operators := by
  cases op <;> simp [operators, LogicOp.symbol]

/-- **The text of an integer expression has its value.** -/
theorem Expr.Numeric.legible {e : Expr} (h : e.Numeric) : e.Legible := by
  induction h with
  | param index => exact .of_tight (.param index) fun _ => rfl
  | temp id => exact .of_tight (.temp id) fun _ => rfl
  | number hfits =>
    obtain ⟨tree, hspells, heval⟩ := spells_toString hfits
    exact .of_tight hspells heval
  | int hfits =>
    obtain ⟨tree, hspells, heval⟩ := spells_intLiteral hfits
    exact .of_tight hspells heval
  | cast kind _ ih =>
    obtain ⟨tree, hspells, heval⟩ := ih.operand
    exact .of_tight (.cast kind hspells) fun v => by simp only [Expr.eval, heval]
  | not _ ih =>
    obtain ⟨tree, hspells, heval⟩ := ih.operand
    exact .of_tight (.not hspells) fun v => by simp only [Expr.eval, heval]
  | complement _ ih =>
    obtain ⟨tree, hspells, heval⟩ := ih.operand
    exact .of_tight (.complement hspells) fun v => by simp only [Expr.eval, heval]
  | arith op _ _ ihl ihr =>
    obtain ⟨p, hp, hmem⟩ := mem_operators_arith op
    exact .binary hmem hp rfl rfl (fun ha hb => by simp only [Expr.eval, ha, hb]) ihl ihr
  | compare op _ _ ihl ihr =>
    obtain ⟨p, hp, hmem⟩ := mem_operators_compare op
    exact .binary hmem hp rfl rfl (fun ha hb => by simp only [Expr.eval, ha, hb]) ihl ihr
  | logic op _ _ ihl ihr =>
    obtain ⟨p, hp, hmem⟩ := mem_operators_logic op
    obtain ⟨a, ha, hevalA⟩ := ihl.side
    obtain ⟨b, hb, hevalB⟩ := ihr.side
    refine ⟨.logic op a b, p, .binary hmem (.looser (by omega) ha) (.looser (by omega) hb), ?_, ?_, fun v => ?_⟩
    · intro hbinary
      cases hbinary
    · intro hlogic
      cases hlogic
    · simp only [Expr.eval, hevalA, hevalB]

/-! ### Statements -/

inductive Stmt.Numeric : Stmt → Prop
  | assign {e : Expr} (dest : TempId) : e.Numeric → Numeric (.assign (.temp dest) e)
  | fail (message : String) : Numeric (.fail message)
  | failIf {e : Expr} (message : String) : e.Numeric → Numeric (.failIf e message)

/-- **The lines of integer code do what its statements say.** -/
theorem spellsCode_lines {code : List Stmt} (h : ∀ s ∈ code, s.Numeric) :
    ∃ tree, SpellsCode (code.flatMap Stmt.lines) tree ∧ ∀ types v, exec types tree v = exec types code v := by
  induction code with
  | nil => exact ⟨[], .done, fun _ _ => rfl⟩
  | cons s code ih =>
    obtain ⟨tree, hspells, hexec⟩ := ih fun s hs => h s (List.mem_cons_of_mem _ hs)
    cases h s List.mem_cons_self with
    | assign dest he =>
      obtain ⟨e', p, htext, -, -, heval⟩ := he.legible
      exact ⟨_, .assign dest (.looser (Nat.zero_le p) htext) hspells, fun types v => by simp only [exec, heval, hexec]⟩
    | fail message =>
      exact ⟨_, .fail (literalBytes_stringLiteral message) hspells, fun types v => rfl⟩
    | failIf message he =>
      obtain ⟨e', p, htext, -, -, heval⟩ := he.legible
      exact ⟨_, .failIf (.looser (Nat.zero_le p) htext) (literalBytes_stringLiteral message) hspells,
        fun types v => by simp only [exec, heval, hexec]⟩

end Keel.Target
