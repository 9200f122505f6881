/-
# C expressions and statements

The part of C in which functions are written, and its text.  The operand of a cast or a
unary operator is put in parentheses if it is a binary expression, and so are the sides
of a binary one, except for comparisons joined by `&&` or `||`.
-/
import Keel.Ir.Basic
import Keel.Ir.Listing
import Keel.Target.Literal
import Keel.Target.Symbol

namespace Keel.Target

open Ir (Storage BlockId TempId SlotId)

def typeName : Storage → String
  | .unit => "kl_unit"
  | .bool => "bool"
  | .int kind => intType kind
  | .str => "kl_str"
  | .struct name => structSymbol name
  | .enum name => enumSymbol name
  | .list _ => "kl_list"

inductive Expr where
  | param (index : Nat)
  | temp (id : TempId)
  | slot (id : SlotId)
  /-- A number of type `int`. -/
  | number (value : Int)
  /-- A constant of a kind. -/
  | int (value : Int) (kind : IntKind)
  | bool (value : Bool)
  | str (value : String)
  | cast (kind : IntKind) (operand : Expr)
  | not (operand : Expr)
  | complement (operand : Expr)
  | arith (op : ArithOp) (left right : Expr)
  | compare (op : CompareOp) (left right : Expr)
  | logic (op : LogicOp) (left right : Expr)
  | call (function : String) (args : List Expr)
  /-- `base.name`. -/
  | member (base : Expr) (name : String)
  /-- `base->name`. -/
  | memberAt (base : Expr) (name : String)
  /-- The size of a type as an `int64_t`. -/
  | size (ty : Storage)
  /-- An element of a list, which can be assigned to. -/
  | element (ty : Storage) (list index : Expr)
  | structValue (name : String) (fields : List Expr)
  | variantValue (enum : String) (variant : Nat) (payload : Option Expr)

inductive Stmt where
  | assign (target value : Expr)
  /-- An expression for its effect. -/
  | perform (e : Expr)
  /-- Stops the program with a message. -/
  | fail (message : String)
  /-- Stops the program with a message if a condition holds. -/
  | failIf (condition : Expr) (message : String)
  /-- Adds a copy of a value at the end of a list. -/
  | push (element : Storage) (list value : Expr)
  | ret (value : Expr)
  | jump (target : BlockId)
  | branch (condition : Expr) (thenBlock elseBlock : BlockId)

/-! ### Text -/

def parenthesizeIf (b : Bool) (text : String) : String := if b then "(" ++ text ++ ")" else text

def commaSeparated (texts : List String) : String := String.intercalate ", " texts

namespace Expr

def isLogic : Expr → Bool
  | logic _ _ _ => true
  | _ => false

def isBinary : Expr → Bool
  | arith _ _ _ | compare _ _ _ | logic _ _ _ => true
  | _ => false

mutual

def text : Expr → String
  | param index => s!"p{index}"
  | temp id => id.text
  | slot id => id.text
  | number value => toString value
  | int value kind => intLiteral value kind
  | bool value => if value then "true" else "false"
  | str value =>
    "((kl_str)\x7b " ++ stringLiteral value ++ ", " ++ toString value.utf8ByteSize ++ " \x7d)"
  | cast kind e => "(" ++ intType kind ++ ")" ++ parenthesizeIf e.isBinary e.text
  | not e => "!" ++ parenthesizeIf e.isBinary e.text
  | complement e => "~" ++ parenthesizeIf e.isBinary e.text
  | arith op l r =>
    parenthesizeIf l.isBinary l.text ++ " " ++ op.symbol ++ " " ++ parenthesizeIf r.isBinary r.text
  | compare op l r =>
    parenthesizeIf l.isBinary l.text ++ " " ++ op.symbol ++ " " ++ parenthesizeIf r.isBinary r.text
  | logic op l r =>
    parenthesizeIf l.isLogic l.text ++ " " ++ op.symbol ++ " " ++ parenthesizeIf r.isLogic r.text
  | call function args => function ++ "(" ++ commaSeparated (texts args) ++ ")"
  | member base name => base.text ++ "." ++ name
  | memberAt base name => base.text ++ "->" ++ name
  | size ty => "(int64_t)sizeof(" ++ typeName ty ++ ")"
  | element ty list index =>
    "*(" ++ typeName ty ++ " *)kl_list_at(" ++ list.text ++ ", " ++ index.text ++ ")"
  | structValue name fields =>
    "(" ++ structSymbol name ++ ")\x7b " ++ commaSeparated (texts fields) ++ " \x7d"
  | variantValue enum variant none => s!"({enumSymbol enum})\x7b .tag = {variant} \x7d"
  | variantValue enum variant (some value) =>
    s!"({enumSymbol enum})\x7b .tag = {variant}, .u.v{variant} = \x7b " ++ value.text ++ " \x7d \x7d"

def texts : List Expr → List String
  | [] => []
  | e :: rest => e.text :: texts rest

end

end Expr

/-- A line with an indentation of so many steps. -/
def indented (depth : Nat) (text : String) : String :=
  String.join (List.replicate depth "    ") ++ text

def failText (message : String) : String := "kl_fail(" ++ stringLiteral message ++ ");"

/-- The lines of a statement in the body of a function. -/
def Stmt.lines : Stmt → List String
  | assign target value => [indented 1 (target.text ++ " = " ++ value.text ++ ";")]
  | perform e => [indented 1 (e.text ++ ";")]
  | fail message => [indented 1 (failText message)]
  | failIf condition message =>
    [indented 1 ("if (" ++ condition.text ++ ") \x7b"), indented 2 (failText message),
      indented 1 "\x7d"]
  | push element list value =>
    [indented 1 ("\x7b " ++ typeName element ++ " kl_elem = " ++ value.text ++
      "; kl_list_push(" ++ list.text ++ ", &kl_elem); \x7d")]
  | ret value => [indented 1 ("return " ++ value.text ++ ";")]
  | jump target => [indented 1 s!"goto {target.text};"]
  | branch condition thenBlock elseBlock =>
    [indented 1 ("if (" ++ condition.text ++
      s!") goto {thenBlock.text}; else goto {elseBlock.text};")]

end Keel.Target
