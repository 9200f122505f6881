/-
# Types of Keel

The integer kinds with their bounds, and the types the checker works with.  Two
of them never reach a finished program: `error`, the type of what has already
been complained about, and `param`, a type parameter not yet replaced.
-/
import Keel.Name
import Std.Data.TreeMap

namespace Keel

/-- The integer types of fixed width. -/
inductive IntKind where
  | i8 | i16 | i32 | i64 | u8 | u16 | u32 | u64
deriving DecidableEq, Repr

namespace IntKind

def all : List IntKind := [i8, i16, i32, i64, u8, u16, u32, u64]

def name : IntKind → String
  | i8 => "i8"
  | i16 => "i16"
  | i32 => "i32"
  | i64 => "i64"
  | u8 => "u8"
  | u16 => "u16"
  | u32 => "u32"
  | u64 => "u64"

def ofName? (text : String) : Option IntKind := all.find? (·.name == text)

def bits : IntKind → Nat
  | i8 | u8 => 8
  | i16 | u16 => 16
  | i32 | u32 => 32
  | i64 | u64 => 64

def signed : IntKind → Bool
  | i8 | i16 | i32 | i64 => true
  | u8 | u16 | u32 | u64 => false

def min : IntKind → Int
  | i8 => -128
  | i16 => -32768
  | i32 => -2147483648
  | i64 => -9223372036854775808
  | u8 | u16 | u32 | u64 => 0

def max : IntKind → Int
  | i8 => 127
  | i16 => 32767
  | i32 => 2147483647
  | i64 => 9223372036854775807
  | u8 => 255
  | u16 => 65535
  | u32 => 4294967295
  | u64 => 18446744073709551615

def contains (k : IntKind) (value : Int) : Bool := k.min ≤ value && value ≤ k.max

theorem ofName?_name (k : IntKind) : ofName? k.name = some k := by cases k <;> rfl

end IntKind

inductive Ty where
  /-- The type of something already complained about. -/
  | error
  | unit
  | bool
  | int (kind : IntKind)
  | str
  /-- An integer literal that has not met a type yet. -/
  | untyped
  | struct (name : QualName)
  | enum (name : QualName)
  | list (element : Ty)
  /-- The integers of `base` from `low` to `high`. -/
  | range (base : IntKind) (low high : Int)
  /-- A type parameter. -/
  | param (name : String)
deriving DecidableEq, Repr, Inhabited

/-- Types bound to the names of type parameters. -/
abbrev TypeEnv := Std.TreeMap String Ty

namespace Ty

def i64 : Ty := .int .i64

def isError : Ty → Bool
  | error => true
  | _ => false

def isUntyped : Ty → Bool
  | untyped => true
  | _ => false

/-- Agreement of two types.  The error type agrees with nothing, itself included,
so that no second complaint is built on a first one. -/
def agrees : Ty → Ty → Bool
  | unit, unit | bool, bool | str, str | untyped, untyped => true
  | int a, int b => a == b
  | struct a, struct b | enum a, enum b => a == b
  | list a, list b => a.agrees b
  | range a low high, range b low' high' => a == b && low == low' && high == high'
  | param a, param b => a == b
  | _, _ => false

/-- The kind an integer type computes with. -/
def intKind? : Ty → Option IntKind
  | int kind | range kind _ _ => some kind
  | _ => none

def isIntegral : Ty → Bool
  | int _ | range _ _ _ | untyped => true
  | _ => false

/-- Integer types other than that of an unsettled literal. -/
def isSettledInt (t : Ty) : Bool := t.intKind?.isSome

/-- The type in which arithmetic happens: a range gives way to its base. -/
def decay : Ty → Ty
  | range base _ _ => int base
  | t => t

def hasError : Ty → Bool
  | error => true
  | list t => t.hasError
  | _ => false

def hasParam : Ty → Bool
  | param _ => true
  | list t => t.hasParam
  | _ => false

/-- Replaces type parameters, through lists. -/
def substitute (env : TypeEnv) : Ty → Ty
  | param name => env.getD name (param name)
  | list t => list (t.substitute env)
  | t => t

/-- Whether an integer is a value of the type; a literal without a type is taken
for an `i64`, and types that are not integers refuse nothing. -/
def admits : Ty → Int → Bool
  | int kind, value => kind.contains value
  | range _ low high, value => low ≤ value && value ≤ high
  | untyped, value => IntKind.i64.contains value
  | _, _ => true

/-- A range as it is written. -/
def rangeText (base : IntKind) (low high : Int) : String :=
  base.name ++ "[" ++ toString low ++ "..=" ++ toString high ++ "]"

/-- The written form in messages: declared types by their own name alone. -/
def text : Ty → String
  | error => "\x7berror\x7d"
  | unit => "unit"
  | bool => "bool"
  | int kind => kind.name
  | str => "string"
  | untyped => "\x7binteger\x7d"
  | struct name | enum name => name.name
  | list t => "List[" ++ t.text ++ "]"
  | range base low high => rangeText base low high
  | param name => name

/-- The written form inside names of instances: declared types by their full name. -/
def canonical : Ty → String
  | struct name | enum name => name.text
  | list t => "List[" ++ t.canonical ++ "]"
  | t => t.text

/-- A bound on the nesting of a type, by the length of its canonical form: the
arguments in the name of an instance weigh less than the instance. -/
def weight : Ty → Nat
  | list t => t.weight + 1
  | t => t.canonical.length

end Ty

end Keel
