/-
# Values, failures and effects

What a running program computes with.  A number carries its kind and lies within it;
numbers come from integers by wrapping around.  A list is a reference, since lists are
shared; the elements are in the world outside, together with the record of what the
program has printed, asserted and panicked with.

The operations are partial: an operation on values it does not apply to has no result.
One that applies may still fail, and then the program stops.
-/
import Mathlib.Algebra.Ring.Int.Defs
import Keel.Typing.Arith
import Keel.Ir.Basic

namespace Keel

/-! ### Numbers -/

namespace IntKind

/-- The value of the kind that differs from an integer by a multiple of its modulus. -/
def wrap (kind : IntKind) (value : Int) : Int :=
  (value - kind.min) % 2 ^ kind.bits + kind.min

theorem contains_wrap (kind : IntKind) (value : Int) : kind.contains (kind.wrap value) := by
  cases kind <;> simp [wrap, contains, bits, min, max] <;> omega

theorem wrap_of_contains {kind : IntKind} {value : Int} (h : kind.contains value) : kind.wrap value = value := by
  simp only [contains, Bool.and_eq_true, decide_eq_true_eq] at h
  obtain ⟨hmin, hmax⟩ := h
  cases kind <;> simp only [min, max] at hmin hmax <;> simp [wrap, bits, min] <;> omega

theorem wrap_neg_wrap (kind : IntKind) (value : Int) : kind.wrap (-kind.wrap value) = kind.wrap (-value) := by
  cases kind <;> simp [wrap, bits, min] <;> omega

end IntKind

structure Number where
  kind : IntKind
  value : Int
  fits : kind.contains value = true
deriving DecidableEq, Repr

namespace Number

def ofInt (kind : IntKind) (value : Int) : Number :=
  ⟨kind, kind.wrap value, kind.contains_wrap value⟩

@[simp] theorem kind_ofInt (kind : IntKind) (value : Int) : (ofInt kind value).kind = kind := rfl

theorem ofInt_value (n : Number) : ofInt n.kind n.value = n := by
  obtain ⟨kind, value, fits⟩ := n
  simp only [ofInt, mk.injEq, true_and]
  exact IntKind.wrap_of_contains fits

theorem ofInt_neg (kind : IntKind) (value : Int) :
    ofInt kind (-(ofInt kind value).value) = ofInt kind (-value) := by
  simp only [ofInt, mk.injEq, true_and]
  exact kind.wrap_neg_wrap value

end Number

/-! ### Values -/

/-- The tag of a variant is its position, as far as an `i32` can hold it. -/
abbrev Tag := Fin 2147483648

inductive Value where
  | unit
  | bool (value : Bool)
  | int (number : Number)
  | str (value : String)
  | struct (fields : List Value)
  | variant (tag : Tag) (payload : Option Value)
  /-- A list, by its place among the lists of the world. -/
  | list (place : Nat)
deriving Repr, Inhabited

inductive Failure where
  | divisionByZero
  | divisionOverflow
  | shiftCount
  /-- A cast to a range, from a value outside it. -/
  | outOfRange (low high : Int)
  | assertion
  | panic (message : String)
  | listIndex
  | strIndex
deriving DecidableEq, Repr

inductive Event where
  | print (value : Value)
  | assert (holds : Bool)
  | panic (message : String)
deriving Repr

structure World where
  lists : List (List Value) := []
  events : List Event := []
deriving Repr

def World.record (w : World) (event : Event) : World := { w with events := w.events ++ [event] }

def World.setList (w : World) (place : Nat) (elements : List Value) : World :=
  { w with lists := w.lists.set place elements }

/-! ### Operations -/

/-- The integer that an operation gives, before it is wrapped around. -/
def ArithOp.perform (op : ArithOp) (kind : IntKind) (a b : Int) : Except Failure Int :=
  match op with
  | add => .ok (a + b)
  | sub => .ok (a - b)
  | mul => .ok (a * b)
  | div =>
    if b = 0 then .error .divisionByZero
    else if kind.signed ∧ a = kind.min ∧ b = -1 then .error .divisionOverflow
    else .ok (a.tdiv b)
  | rem =>
    if b = 0 then .error .divisionByZero
    else if kind.signed ∧ a = kind.min ∧ b = -1 then .error .divisionOverflow
    else .ok (a.tmod b)
  | bitAnd => .ok (bitwise (· &&& ·) a b)
  | bitOr => .ok (bitwise (· ||| ·) a b)
  | bitXor => .ok (bitwise (· ^^^ ·) a b)
  | shl => if b < 0 ∨ b ≥ kind.bits then .error .shiftCount else .ok (a <<< b.toNat)
  | shr => if b < 0 ∨ b ≥ kind.bits then .error .shiftCount else .ok (a >>> b.toNat)

namespace Value

def arith? (op : ArithOp) (kind : IntKind) : Value → Value → Option (Except Failure Value)
  | int a, int b =>
    if a.kind = kind ∧ b.kind = kind then
      some ((op.perform kind a.value b.value).map fun value => int (.ofInt kind value))
    else none
  | _, _ => none

/-- Numbers of one kind can be compared; truth values and strings are equal or not. -/
def compare? (op : CompareOp) : Value → Value → Option Bool
  | int a, int b => if a.kind = b.kind then some (op.holds a.value b.value) else none
  | bool a, bool b =>
    match op with
    | .eq => some (a == b)
    | .ne => some (a != b)
    | _ => none
  | str a, str b =>
    match op with
    | .eq => some (a == b)
    | .ne => some (a != b)
    | _ => none
  | _, _ => none

def unary? (op : UnaryOp) : Value → Option Value
  | int n =>
    match op with
    | .neg => some (int (.ofInt n.kind (-n.value)))
    | .bitNot => some (int (.ofInt n.kind (-n.value - 1)))
    | .not => none
  | bool b =>
    match op with
    | .not => some (bool !b)
    | _ => none
  | _ => none

def field? : Value → Nat → Option Value
  | struct fields, index => fields[index]?
  | _, _ => none

def setField? (value : Value) : List Nat → Value → Option Value
  | [], new => some new
  | index :: path, new =>
    match value with
    | struct fields =>
      match fields[index]? with
      | some old => (old.setField? path new).map fun field => struct (fields.set index field)
      | none => none
    | _ => none

def payload? : Value → Option Value
  | variant _ payload => payload
  | _ => none

end Value

def Builtin.perform (b : Builtin) (arg : Value) (w : World) : Option (Except Failure Unit × World) :=
  match b, arg with
  | .print, .int n => some (.ok (), w.record (.print (.int n)))
  | .print, .bool value => some (.ok (), w.record (.print (.bool value)))
  | .print, .str text => some (.ok (), w.record (.print (.str text)))
  | .assert, .bool holds =>
    some (if holds then .ok () else .error .assertion, w.record (.assert holds))
  | .panic, .str message => some (.error (.panic message), w.record (.panic message))
  | _, _ => none

def position? (index : Number) (length : Nat) : Option Nat :=
  if 0 ≤ index.value ∧ index.value < length then some index.value.toNat else none

def Intrinsic.perform (op : Intrinsic) (receiver : Value) (args : List Value) (w : World) :
    Option (Except Failure Value × World) :=
  match receiver with
  | .list place =>
    match w.lists[place]?, op, args with
    | some elements, .listPush, [value] => some (.ok .unit, w.setList place (elements ++ [value]))
    | some elements, .listLen, [] => some (.ok (.int (.ofInt .i64 elements.length)), w)
    | some elements, .listGet, [.int index] =>
      match (position? index elements.length).bind (elements[·]?) with
      | some value => some (.ok value, w)
      | none => some (.error .listIndex, w)
    | some elements, .listSet, [.int index, value] =>
      match position? index elements.length with
      | some i => some (.ok .unit, w.setList place (elements.set i value))
      | none => some (.error .listIndex, w)
    | _, _, _ => none
  | .str text =>
    match op, args with
    | .strLen, [] => some (.ok (.int (.ofInt .i64 text.utf8ByteSize)), w)
    | .strConcat, [.str other] => some (.ok (.str (text ++ other)), w)
    | .strByteAt, [.int index] =>
      match (position? index text.utf8ByteSize).bind (text.toUTF8[·]?) with
      | some byte => some (.ok (.int (.ofInt .u8 byte.toNat)), w)
      | none => some (.error .strIndex, w)
    | _, _ => none
  | _ => none

def World.newList (w : World) : Value × World :=
  (.list w.lists.length, { w with lists := w.lists ++ [[]] })

end Keel
