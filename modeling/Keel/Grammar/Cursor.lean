/-
# Reading tokens

A parser looks at the tokens ahead, takes some of them and hands out node numbers.
When it fails it says where, and the tokens it has not taken stay available, so
that reading can go on at the next declaration.

The end of the text is a token that is never taken: a parser that meets it sees it
again.
-/
import Keel.Syntax
import Keel.Token.Scan

namespace Keel

/-- Why a text is not a module. -/
inductive SyntaxProblem where
  | lexical (problem : LexProblem)
  /-- Another token was called for. -/
  | expected (what : String) (found : Lexeme)
  /-- Something is missing here. -/
  | missing (what : String)
  | invalidTarget
deriving DecidableEq, Repr

namespace SyntaxProblem

def message : SyntaxProblem → String
  | lexical problem => problem.message
  | expected what found => "expected " ++ what ++ ", found " ++ found.describe
  | missing what => "expected " ++ what
  | invalidTarget => "invalid assignment target"

def help : SyntaxProblem → Option String
  | invalidTarget => some "assign to a local binding or one of its fields"
  | _ => none

end SyntaxProblem

structure SyntaxError where
  problem : SyntaxProblem
  span : Span
deriving DecidableEq, Repr

namespace Grammar

/-- The tokens ahead, the span of the token taken last, and the next node number. -/
structure Cursor where
  rest : List Token
  last : Span
  nextId : NodeId
  /-- May a struct literal start here? -/
  literals : Bool
deriving Repr

namespace Cursor

def start (tokens : List Token) (nextId : NodeId) : Cursor := ⟨tokens, .zero, nextId, true⟩

/-- The token ahead; an empty list stands for the end of the text. -/
def token (c : Cursor) : Token :=
  match c.rest with
  | [] => ⟨.eof, c.last⟩
  | t :: _ => t

def advance (c : Cursor) : Cursor :=
  match c.rest with
  | [] => c
  | t :: rest => { c with rest := rest, last := t.span }

end Cursor

/-- A parser either yields a value or stops with an error; the cursor shows how far
it came in both cases. -/
abbrev Parser := EStateM SyntaxError Cursor

/-! ### The token ahead -/

def peek : Parser Lexeme := return (← get).token.lexeme

/-- Where the token ahead stands. -/
def here : Parser Span := return (← get).token.span

/-- Where the token taken last stands. -/
def taken : Parser Span := return (← get).last

def sees (l : Lexeme) : Parser Bool := return (← peek) == l

def next : Parser Span := do
  modify Cursor.advance
  taken

def accept (l : Lexeme) : Parser Bool := do
  if ← sees l then
    let _ ← next
    return true
  return false

/-! ### Failing -/

def fail {α : Type} (problem : SyntaxProblem) : Parser α := do
  throw ⟨problem, ← here⟩

/-- Stops at the token ahead, because it is not what is called for. -/
def failExpected {α : Type} (what : String) : Parser α := do
  fail (.expected what (← peek))

def expect (l : Lexeme) : Parser Span := do
  if ← sees l then next else failExpected l.describe

/-- Takes a name, which has to be ahead; `what` says what it is the name of. -/
def ident (what : String) : Parser (String × Span) := do
  match ← peek with
  | .ident name => return (name, ← next)
  | _ => failExpected what

/-! ### Struct literals -/

/-- Reads with struct literals allowed or not.  What was allowed before is put back, whether the
parser succeeds or fails. -/
def withLiterals {α : Type} (literals : Bool) (p : Parser α) : Parser α := fun c =>
  match p { c with literals := literals } with
  | .ok a c' => .ok a { c' with literals := c.literals }
  | .error e c' => .error e { c' with literals := c.literals }

def literalsAllowed : Parser Bool := return (← get).literals

/-! ### Node numbers -/

def freshId : Parser NodeId := do
  let c ← get
  set { c with nextId := c.nextId + 1 }
  return c.nextId

def mkExpr (kind : ExprKind) (span : Span) : Parser Expr := return ⟨← freshId, kind, span⟩

def mkPattern (kind : PatternKind) (span : Span) : Parser Pattern := return ⟨← freshId, kind, span⟩

/-! ### Repetition

Every round takes a token, so the number of tokens ahead bounds the rounds. -/

inductive Round (α : Type) where
  | again (value : α)
  | stop (value : α)

def rounds {α : Type} (step : α → Parser (Round α)) : Nat → α → Parser α
  | 0, a => pure a
  | n + 1, a => do
    match ← step a with
    | .again b => rounds step n b
    | .stop b => return b

/-- Applies `step` until it stops. -/
def iterate {α : Type} (step : α → Parser (Round α)) (a : α) : Parser α := do
  rounds step ((← get).rest.length + 1) a

/-- Is the closing symbol ahead, or the end of the text? -/
def ended (close : Symbol) : Parser Bool := do
  if ← sees (.symbol close) then return true
  sees .eof

def commaRounds {α : Type} (close : Symbol) (item : Parser α) : Nat → Parser (List α)
  | 0 => return []
  | n + 1 => do
    if ← ended close then return []
    let x ← item
    if ← accept (.symbol .comma) then
      return x :: (← commaRounds close item n)
    return [x]

/-- Items with commas between them, up to the closing symbol; a comma may follow the
last one. -/
def commaList {α : Type} (close : Symbol) (item : Parser α) : Parser (List α) := do
  commaRounds close item ((← get).rest.length + 1)

def runRounds {α : Type} (close : Symbol) (separators : List Symbol) (item : Parser α) :
    Nat → Parser (List α)
  | 0 => return []
  | n + 1 => do
    if ← ended close then return []
    match ← peek with
    | .symbol s =>
      if s ∈ separators then
        let _ ← next
        runRounds close separators item n
      else
        return (← item) :: (← runRounds close separators item n)
    | _ => return (← item) :: (← runRounds close separators item n)

/-- Items one after the other, up to the closing symbol; separators are skipped
wherever an item may start. -/
def runList {α : Type} (close : Symbol) (separators : List Symbol) (item : Parser α) :
    Parser (List α) := do
  runRounds close separators item ((← get).rest.length + 1)

def pathRounds (what : String) : Nat → Parser (List String × Span)
  | 0 => return ([], ← taken)
  | n + 1 => do
    if ← accept (.symbol .colonColon) then
      let (name, _) ← ident what
      let (names, stop) ← pathRounds what n
      return (name :: names, stop)
    return ([], ← taken)

/-- The segments after the first one of a path, and where the path ends. -/
def pathTail (what : String) : Parser (List String × Span) := do
  pathRounds what ((← get).rest.length + 1)

end Grammar

end Keel
