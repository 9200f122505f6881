/-
# Patterns

| text                          | pattern                          |
|-------------------------------|----------------------------------|
| `_`                           | takes everything                 |
| `x`                           | takes everything and names it    |
| `1`, `-1`, `true`, `"a"`      | takes that value                 |
| `.V`, `.V(p)`, `V(p)`         | takes that variant               |
| `E.V`, `m::E.V(p)`            | takes that variant of that enum  |

A name before `(`, `.` or `::` is never the name of a binding.
-/
import Keel.Grammar.Cursor

namespace Keel.Grammar

/-- The rest of a variant pattern after the variant's name; `sub` reads what stands in
the brackets. -/
def variantRest (sub : Parser Pattern) (enum : Option (List String)) (name : String × Span)
    (start : Nat) : Parser Pattern := do
  if ← accept (.symbol .lParen) then
    let fields ← commaList .rParen sub
    let close ← expect (.symbol .rParen)
    mkPattern (.variant enum name.1 fields) ⟨start, close.stop⟩
  else
    mkPattern (.variant enum name.1 []) ⟨start, name.2.stop⟩

def namedPattern (sub : Parser Pattern) (start : Nat) : Parser Pattern := do
  let first ← ident "pattern"
  match ← peek with
  | .symbol .lParen => variantRest sub none first start
  | .symbol .dot | .symbol .colonColon =>
    let (segments, _) ← pathTail "path segment"
    let _ ← expect (.symbol .dot)
    variantRest sub (some (first.1 :: segments)) (← ident "variant name") start
  | _ => mkPattern (.bind first.1) first.2

/-- One pattern; `sub` reads those inside it. -/
def patternRule (sub : Parser Pattern) : Parser Pattern := do
  let start := (← here).start
  match ← peek with
  | .keyword .underscore => mkPattern .wildcard (← next)
  | .int value => mkPattern (.int value) (← next)
  | .symbol .minus =>
    let _ ← next
    match ← peek with
    | .int value =>
      let last ← next
      mkPattern (.int (-(value : Int))) ⟨start, last.stop⟩
    | _ => fail (.missing "integer after `-` in pattern")
  | .keyword .trueKw => mkPattern (.bool true) (← next)
  | .keyword .falseKw => mkPattern (.bool false) (← next)
  | .str value => mkPattern (.str value) (← next)
  | .symbol .dot =>
    let _ ← next
    variantRest sub none (← ident "variant name") start
  | .ident _ => namedPattern sub start
  | _ => failExpected "pattern"

/-- Patterns with brackets nested less than `depth` deep. -/
def patternWithin : Nat → Parser Pattern
  | 0 => failExpected "pattern"
  | depth + 1 => patternRule (patternWithin depth)

/-- A pattern.  Each pair of brackets takes a token, so the tokens ahead bound the
depth. -/
def pattern : Parser Pattern := do
  patternWithin ((← get).rest.length + 1)

end Keel.Grammar
