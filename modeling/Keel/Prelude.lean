/-
# What every module can use

The prelude is a module of its own, `core::prelude`, written in the language.  Its
public names are found after all others.  Builtins come before it: they are functions
that the language itself provides.
-/
import Keel.Module.Index

namespace Keel
namespace Prelude

def module : ModulePath := ⟨"core", ["prelude"]⟩

def path : SourcePath := ⟨"core/prelude.kl"⟩

def text : String := "
pub enum Option[T] \x7b
    Some(T),
    None,
\x7d

pub fn min[T](a: T, b: T) -> T \x7b
    if a < b \x7b a \x7d else \x7b b \x7d
\x7d

pub fn max[T](a: T, b: T) -> T \x7b
    if a < b \x7b b \x7d else \x7b a \x7d
\x7d
"

end Prelude

inductive Builtin where
  /-- Writes an integer, a bool or a string, and a line end. -/
  | print
  /-- Stops the program if its argument is false. -/
  | assert
  /-- Stops the program with a message. -/
  | panic
  /-- An empty list. -/
  | list
deriving DecidableEq, Repr

namespace Builtin

def all : List Builtin := [print, assert, panic, list]

def name : Builtin → String
  | print => "print"
  | assert => "assert"
  | panic => "panic"
  | list => "list"

def ofName? (text : String) : Option Builtin := all.find? (·.name == text)

def arity : Builtin → Nat
  | list => 0
  | _ => 1

end Builtin

end Keel
