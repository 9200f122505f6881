/-
# Names of modules and declarations

A module belongs to a package and is reached through segments, `app::geo::shapes`;
a declaration adds its own name.  Tables are kept in the order of the parts,
package first, then segments, then name, not of the written form.
-/
import Keel.Source.Path

namespace Keel

/-- The module `package::segment::…`; without segments it is the root of the package. -/
structure ModulePath where
  package : String
  segments : List String := []
deriving DecidableEq, Repr, Inhabited

namespace ModulePath

def isRoot (m : ModulePath) : Bool := m.segments.isEmpty

def packageRoot (m : ModulePath) : ModulePath := ⟨m.package, []⟩

def child (m : ModulePath) (segment : String) : ModulePath :=
  { m with segments := m.segments ++ [segment] }

/-- The written form, parts joined by `::`. -/
def text (m : ModulePath) : String := String.intercalate "::" (m.package :: m.segments)

instance : Ord ModulePath where
  compare := compareLex (compareOn package) (compareOn segments)

instance : Std.TransOrd ModulePath := inferInstanceAs (Std.TransCmp (compareLex _ _))

instance : Std.LawfulEqOrd ModulePath where
  eq_of_compare {a b} h := by
    obtain ⟨hp, hs⟩ := Ordering.then_eq_eq.1 h
    cases a; cases b
    simp_all [compareOn]

/-- File names that stand for the directory they are in. -/
def directoryStems : List String := ["main", "lib", "mod"]

/-- The module of a file: the names of its path without the extension, where
`main`, `lib` and `mod` below a directory stand for that directory. -/
def ofFile (path : SourcePath) : ModulePath :=
  let names := path.names
  let parts := match names.reverse with
    | [] => []
    | last :: before =>
      let stem := SourcePath.stem last
      if ¬ before.isEmpty ∧ stem ∈ directoryStems then before.reverse
      else (stem :: before).reverse
  match parts with
  | [] => ⟨"main", []⟩
  | package :: segments => ⟨package, segments⟩

end ModulePath

/-- The name of a declaration in a module. -/
structure QualName where
  module : ModulePath
  name : String
deriving DecidableEq, Repr, Inhabited

def ModulePath.qualify (m : ModulePath) (name : String) : QualName := ⟨m, name⟩

namespace QualName

def withName (q : QualName) (name : String) : QualName := { q with name }

/-- The written form, `package::segment::name`. -/
def text (q : QualName) : String := q.module.text ++ "::" ++ q.name

instance : Ord QualName where
  compare := compareLex (compareOn module) (compareOn name)

instance : Std.TransOrd QualName := inferInstanceAs (Std.TransCmp (compareLex _ _))

instance : Std.LawfulEqOrd QualName where
  eq_of_compare {a b} h := by
    obtain ⟨hm, hn⟩ := Ordering.then_eq_eq.1 h
    cases a; cases b
    simp_all [compareOn]

end QualName

end Keel
