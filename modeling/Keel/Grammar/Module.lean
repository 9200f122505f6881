/-
# Declarations and modules

A module is a sequence of imports and declarations.  After a mistake, reading goes on
at the next word that can start a declaration, so one text may hold several mistakes;
a module comes out only if there are none.
-/
import Keel.Grammar.Expr

namespace Keel
namespace Grammar

/-! ### Imports -/

def selector : Parser Selector := do
  let (name, nameSpan) ← ident "imported name"
  if ← accept (.keyword .asKw) then
    let (renamed, renamedSpan) ← ident "alias after `as`"
    return ⟨name, some renamed, ⟨nameSpan.start, renamedSpan.stop⟩⟩
  return ⟨name, none, nameSpan⟩

/-- The segments after the first one, and the names in braces that may end them. -/
def importRounds : Nat → Parser (List String × Option (List Selector))
  | 0 => return ([], none)
  | n + 1 => do
    if !(← accept (.symbol .colonColon)) then
      return ([], none)
    if ← accept (.symbol .lBrace) then
      let selectors ← commaList .rBrace selector
      let _ ← expect (.symbol .rBrace)
      return ([], some selectors)
    let (name, _) ← ident "module path segment"
    let (names, selectors) ← importRounds n
    return (name :: names, selectors)

def importDecl : Parser Import := do
  let start := (← expect (.keyword .importKw)).start
  let (first, _) ← ident "module path after `import`"
  let (segments, selectors) ← importRounds ((← get).rest.length + 1)
  let kind ← match selectors with
    | some names => pure (ImportKind.names names)
    | none =>
      if ← accept (.keyword .asKw) then
        pure (.module (some (← ident "alias after `as`").1))
      else pure (.module none)
  let close ← expect (.symbol .semi)
  return ⟨first :: segments, kind, ⟨start, close.stop⟩⟩

/-! ### Declarations -/

/-- The names of type parameters in square brackets, if there are any. -/
def typeParams : Parser (List String) := do
  if ← accept (.symbol .lBracket) then
    let names ← commaList .rBracket (Prod.fst <$> ident "type parameter")
    let _ ← expect (.symbol .rBracket)
    return names
  return []

def visibility : Parser Bool := accept (.keyword .pubKw)

def fieldDef (sub : Level) : Parser FieldDef := do
  let start := (← here).start
  let isPublic ← visibility
  let (name, _) ← ident "field name"
  let _ ← expect (.symbol .colon)
  let ty ← sub.type
  return ⟨name, ty, isPublic, ⟨start, ty.span.stop⟩⟩

def structDef (sub : Level) (start : Nat) (isPublic : Bool) : Parser StructDef := do
  let (name, _) ← ident "struct name"
  let params ← typeParams
  let _ ← expect (.symbol .lBrace)
  let fields ← runList .rBrace [.comma, .semi] (fieldDef sub)
  let close ← expect (.symbol .rBrace)
  return ⟨name, params, fields, ⟨start, close.stop⟩, isPublic⟩

def variantDef (sub : Level) : Parser VariantDef := do
  let (name, nameSpan) ← ident "variant name"
  if ← accept (.symbol .lParen) then
    let fields ← commaList .rParen sub.type
    let close ← expect (.symbol .rParen)
    return ⟨name, fields, ⟨nameSpan.start, close.stop⟩⟩
  return ⟨name, [], nameSpan⟩

def enumDef (sub : Level) (start : Nat) (isPublic : Bool) : Parser EnumDef := do
  let (name, _) ← ident "enum name"
  let params ← typeParams
  let _ ← expect (.symbol .lBrace)
  let variants ← runList .rBrace [.comma, .semi] (variantDef sub)
  let close ← expect (.symbol .rBrace)
  return ⟨name, params, variants, ⟨start, close.stop⟩, isPublic⟩

def paramDef (sub : Level) : Parser ParamDef := do
  let start := (← here).start
  let isMutable ← accept (.keyword .mutKw)
  let (name, _) ← ident "parameter name"
  let _ ← expect (.symbol .colon)
  let ty ← sub.type
  return ⟨name, ty, isMutable, ⟨start, ty.span.stop⟩⟩

def paramList (sub : Level) : Parser (List ParamDef) := do
  let _ ← expect (.symbol .lParen)
  let params ← commaList .rParen (paramDef sub)
  let _ ← expect (.symbol .rParen)
  return params

def returnType (sub : Level) : Parser (Option TypeAnn) := do
  if ← accept (.symbol .arrow) then
    return some (← sub.type)
  return none

def methodSpec (sub : Level) : Parser MethodSpec := do
  let start := (← expect (.keyword .fnKw)).start
  let (name, _) ← ident "method name"
  let params ← paramList sub
  let ret ← returnType sub
  let close ← expect (.symbol .semi)
  return ⟨name, params, ret, ⟨start, close.stop⟩⟩

def traitDef (sub : Level) (start : Nat) (isPublic : Bool) : Parser TraitDef := do
  let (name, _) ← ident "trait name"
  let _ ← expect (.symbol .lBrace)
  let methods ← runList .rBrace [] (methodSpec sub)
  let close ← expect (.symbol .rBrace)
  return ⟨name, methods, ⟨start, close.stop⟩, isPublic⟩

def functionDef (sub : Level) (start : Nat) (isPublic : Bool) : Parser FunctionDef := do
  let (name, _) ← ident "function name"
  let params ← typeParams
  let args ← paramList sub
  let ret ← returnType sub
  let body ← sub.block
  return ⟨name, params, args, ret, body, ⟨start, body.span.stop⟩, isPublic⟩

def methodDef (sub : Level) : Parser FunctionDef := do
  let start := (← here).start
  let isPublic ← visibility
  let _ ← expect (.keyword .fnKw)
  functionDef sub start isPublic

def implMethods (sub : Level) (start : Nat) (traitExpr : Option TypeExpr) (target : TypeAnn) : Parser ImplBlock := do
  let _ ← expect (.symbol .lBrace)
  let methods ← runList .rBrace [] (methodDef sub)
  let close ← expect (.symbol .rBrace)
  return ⟨traitExpr, target, methods, ⟨start, close.stop⟩⟩

def implBlock (sub : Level) (start : Nat) : Parser ImplBlock := do
  let first ← sub.type
  if ← accept (.keyword .forKw) then
    implMethods sub start (some first.expr) (← sub.type)
  else
    implMethods sub start none first

def constDef (sub : Level) (start : Nat) (isPublic : Bool) : Parser ConstDef := do
  let (name, _) ← ident "const name"
  let ty ← if ← accept (.symbol .colon) then some <$> sub.type else pure none
  let _ ← expect (.symbol .eq)
  let value ← sub.expr
  let close ← expect (.symbol .semi)
  return ⟨name, ty, value, ⟨start, close.stop⟩, isPublic⟩

def aliasDef (sub : Level) (start : Nat) (isPublic : Bool) : Parser AliasDef := do
  let (name, _) ← ident "type alias name"
  let _ ← expect (.symbol .eq)
  let ty ← sub.type
  let close ← expect (.symbol .semi)
  return ⟨name, ty, ⟨start, close.stop⟩, isPublic⟩

/-- A declaration; `impl` is never public. -/
def item (sub : Level) : Parser Item := do
  let start := (← here).start
  let isPublic ← visibility
  match ← peek with
  | .keyword .structKw =>
    let _ ← next
    return .struct (← structDef sub start isPublic)
  | .keyword .enumKw =>
    let _ ← next
    return .enum (← enumDef sub start isPublic)
  | .keyword .traitKw =>
    let _ ← next
    return .trait (← traitDef sub start isPublic)
  | .keyword .fnKw =>
    let _ ← next
    return .function (← functionDef sub start isPublic)
  | .keyword .constKw =>
    let _ ← next
    return .const (← constDef sub start isPublic)
  | .keyword .typeKw =>
    let _ ← next
    return .typeAlias (← aliasDef sub start isPublic)
  | .keyword .implKw =>
    if isPublic then fail (.missing "declaration")
    let _ ← next
    return .impl (← implBlock sub start)
  | _ => fail (.missing "declaration")

/-! ### Modules -/

/-- Words that start an import or a declaration. -/
def startsItem : Lexeme → Bool
  | .keyword .structKw | .keyword .enumKw | .keyword .fnKw | .keyword .constKw
  | .keyword .importKw | .keyword .traitKw | .keyword .implKw | .keyword .typeKw
  | .keyword .pubKw => true
  | _ => false

/-- Skips to the next word that can start a declaration, or to the end. -/
def skipToItem : List Token → Span → List Token × Span
  | [], last => ([], last)
  | t :: rest, last =>
    if t.lexeme == .eof || startsItem t.lexeme then (t :: rest, last)
    else skipToItem rest t.span

def Cursor.toItem (c : Cursor) : Cursor :=
  let (rest, last) := skipToItem c.rest c.last
  { c with rest := rest, last := last }

/-- What a module consists of, in the order of the text. -/
inductive Part where
  | import (decl : Import)
  | item (decl : Item)

def part (sub : Level) : Parser Part := do
  if ← sees (.keyword .importKw) then
    return .import (← importDecl)
  return .item (← item sub)

/-- The parts up to the end of the text and the mistakes in them, and the cursor
there. -/
def partRounds (sub : Level) : Nat → Cursor → List Part × List SyntaxError × Cursor
  | 0, c => ([], [], c)
  | n + 1, c =>
    match c.token.lexeme with
    | .eof => ([], [], c)
    | .symbol .semi => partRounds sub n c.advance
    | _ =>
      match part sub c with
      | .ok p c' =>
        let (parts, errors, last) := partRounds sub n c'
        (p :: parts, errors, last)
      | .error e c' =>
        let (parts, errors, last) := partRounds sub n c'.toItem
        (parts, e :: errors, last)

def Part.import? : Part → Option Import
  | .import decl => some decl
  | .item _ => none

def Part.item? : Part → Option Item
  | .import _ => none
  | .item decl => some decl

end Grammar

/-- Reads the tokens of a module.  Nodes are numbered from `nextId`, and the first number
not used is returned with the module. -/
def ModuleDef.ofTokens (path : SourcePath) (tokens : List Token) (nextId : NodeId) :
    Except (List SyntaxError) (ModuleDef × NodeId) :=
  let depth := tokens.length + 1
  let (parts, errors, last) :=
    Grammar.partRounds (Grammar.Level.within depth) depth (.start tokens nextId)
  match errors with
  | [] =>
    .ok (⟨path, parts.filterMap Grammar.Part.import?, parts.filterMap Grammar.Part.item?⟩,
      last.nextId)
  | _ => .error errors

def ModuleDef.ofText (path : SourcePath) (text : String) (nextId : NodeId) :
    Except (List SyntaxError) (ModuleDef × NodeId) :=
  match scan text with
  | .error errors => .error (errors.map fun e => ⟨.lexical e.problem, e.span⟩)
  | .ok tokens => ModuleDef.ofTokens path tokens nextId

end Keel
