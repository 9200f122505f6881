/-
# Paths of source files

A path is kept as it was written, and compared by what it names: its components.

| written | components |
| --- | --- |
| `a//b`, `a/./b`, `a/b/` | `a`, `b` |
| `./a` | `.`, `a` |
| `/a` | root, `a` |
| `a/../b` | `a`, `..`, `b` |

A dot is a component only at the front of a relative path.  Components are
ordered root, `.`, `..`, names, so `app/a/b.kl` comes before `app/a.kl`.
-/

namespace Keel

inductive PathPart where
  | root
  | here
  | up
  | name (text : String)
deriving DecidableEq, Repr

namespace PathPart

/-- Place of a step's kind in the order; names are compared among themselves. -/
def rank : PathPart → Nat
  | root => 0
  | here => 1
  | up => 2
  | name _ => 3

def text : PathPart → String
  | root => "/"
  | here => "."
  | up => ".."
  | name t => t

instance : Ord PathPart where
  compare := compareLex (compareOn rank) (compareOn text)

instance : Std.TransOrd PathPart := inferInstanceAs (Std.TransCmp (compareLex _ _))

end PathPart

structure SourcePath where
  text : String
deriving DecidableEq, Repr, Inhabited

namespace SourcePath

def pieces : List Char → List (List Char)
  | [] => [[]]
  | c :: cs =>
    if c = '/' then [] :: pieces cs
    else match pieces cs with
      | [] => [[c]]
      | p :: ps => (c :: p) :: ps

/-- What a piece after the front stands for: empty pieces and dots for nothing. -/
def innerPart (piece : List Char) : Option PathPart :=
  if piece = [] ∨ piece = ['.'] then none
  else if piece = ['.', '.'] then some .up
  else some (.name (String.ofList piece))

/-- The steps a path takes. -/
def parts (path : SourcePath) : List PathPart :=
  match pieces path.text.toList with
  | [] => []
  | [] :: [] => []
  | [] :: rest => .root :: rest.filterMap innerPart
  | first :: rest =>
    if first = ['.'] then .here :: rest.filterMap innerPart
    else (first :: rest).filterMap innerPart

def names (path : SourcePath) : List String :=
  path.parts.filterMap fun
    | .name text => some text
    | _ => none

def order (a b : SourcePath) : Ordering := compare a.parts b.parts

/-- Two spellings of one path. -/
def same (a b : SourcePath) : Bool := a.parts == b.parts

/-- A file name cut at its last dot: what is before it, and what is after it if
there is a dot that is not the first character. -/
def splitExtension (name : String) : String × Option String :=
  let after := (name.toList.reverse.takeWhile (· ≠ '.')).reverse
  let before := ((name.toList.reverse.dropWhile (· ≠ '.')).drop 1).reverse
  if before = [] then (name, none)
  else (String.ofList before, some (String.ofList after))

/-- A file name without its extension. -/
def stem (name : String) : String := (splitExtension name).1

/-- The extension of a file name, if it has one. -/
def extension? (name : String) : Option String := (splitExtension name).2

/-- The relative path with the given steps. -/
def ofNames (names : List String) : SourcePath := ⟨String.intercalate "/" names⟩

end SourcePath

end Keel
