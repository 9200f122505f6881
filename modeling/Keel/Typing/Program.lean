/-
# Programs

A program is checked in phases: names and imports, signatures, constants, bodies.  A
phase starts only if there was nothing to report before it.

Bodies are checked generation by generation: first the functions that are not
generic, then the instances these ask for, then the instances that those ask for, and
so on.  An instance of generation `maxDepth` can ask for no new one.
-/
import Keel.Grammar.Module
import Keel.Typing.Body

namespace Keel.Typing

/-! ### Names -/

/-- Everything that the files of a program declare. -/
structure Collected where
  decls : Declarations := {}
  functions : Std.TreeMap QualName FunctionDecl := ∅
  /-- The newest first. -/
  impls : List (Declared ImplBlock) := []

namespace Collected

/-- Adds a declaration; the first one of a name counts. -/
def add (scope : ModuleScope) (c : Collected) : Item → Collected
  | .function d =>
    let f : FunctionDecl := { scope := scope, decl := d, selfType := none }
    { c with functions := c.functions.insertIfNew (scope.path.qualify d.name) f }
  | .struct d =>
    { c with decls.structs := c.decls.structs.insertIfNew (scope.path.qualify d.name) ⟨scope, d⟩ }
  | .enum d =>
    { c with decls.enums := c.decls.enums.insertIfNew (scope.path.qualify d.name) ⟨scope, d⟩ }
  | .typeAlias d =>
    { c with decls.aliases := c.decls.aliases.insertIfNew (scope.path.qualify d.name) ⟨scope, d⟩ }
  | .const d =>
    { c with decls.consts := c.decls.consts.insertIfNew (scope.path.qualify d.name) ⟨scope, d⟩ }
  | .trait d =>
    { c with decls.traits := c.decls.traits.insertIfNew (scope.path.qualify d.name) ⟨scope, d⟩ }
  | .impl block => { c with impls := ⟨scope, block⟩ :: c.impls }

/-- Adds the declarations of files, each in the scope of its imports. -/
def addFiles (index : ModuleIndex) :
    Collected → List ModuleFile → Collected × List (Report NameProblem)
  | c, [] => (c, [])
  | c, file :: rest =>
    let (imports, here) := ImportScope.ofFile index file
    let scope : ModuleScope := ⟨file.module, file.text.path, imports⟩
    let (c, later) := addFiles index (file.text.items.foldl (add scope) c) rest
    (c, here ++ later)

/-- The declarations of a program, and what is wrong with its names. -/
def ofFiles (files : List ModuleFile) : Collected × List (Report NameProblem) :=
  let (index, duplicates) := ModuleIndex.build files
  let (c, problems) := addFiles index { decls := { index := index } } files
  (c, duplicates ++ problems)

end Collected

/-! ### Signatures -/

/-- Makes the signatures of all declarations that are not generic. -/
def collectSignatures : Check Unit := do
  let r ← resolver
  let decls ← read
  for (name, d) in decls.structs.toList do
    if d.decl.params.isEmpty then
      buildNominal r (.struct d) name ∅ none
  for (name, d) in decls.enums.toList do
    if d.decl.params.isEmpty then
      buildNominal r (.enum d) name ∅ none
  for (name, f) in (← get).functions.toList do
    if f.decl.typeParams.isEmpty then
      buildFunction name

/-- Is the type an instance of a generic declaration? -/
def isInstance (name : QualName) : Check Bool := do
  match ← struct? name with
  | some sig => return sig.origin.isSome
  | none => return ((← enum? name).bind (·.origin)).isSome

/-- The name under which the methods of a type go, if it may have some here. -/
def implOwner? (scope : ModuleScope) (site : Site) (target : Ty) : Check (Option String) := do
  match target with
  | .error => return none
  | .struct name | .enum name =>
    if name.module ≠ scope.path then
      report site (.implTarget target)
      return none
    if ← isInstance name then
      report site .implOnInstance
      return none
    return some name.name
  | _ =>
    report site (.implTarget target)
    return none

/-- Declares the methods of an `impl`, and yields those that are new. -/
def declareMethods (scope : ModuleScope) (owner : String) (target : Ty) :
    List FunctionDef → Check (List FunctionDef)
  | [] => return []
  | method :: rest => do
    let site := scope.site method.span
    let name := scope.path.qualify (owner ++ "." ++ method.name)
    if !method.typeParams.isEmpty then
      report site (.genericMethod method.name)
      declareMethods scope owner target rest
    else if (← function? name).isSome then
      report site (.duplicateMethod method.name owner)
      declareMethods scope owner target rest
    else
      setFunction name { scope := scope, decl := method, selfType := some target }
      buildFunction name
      return method :: (← declareMethods scope owner target rest)

/-- Do these types agree, one by one? -/
def allAgree : List Ty → List Ty → Bool
  | [], [] => true
  | a :: as, b :: bs => a.agrees b && allAgree as bs
  | _, _ => false

/-- Compares a method with the one that a trait asks for. -/
def checkRequired (scope : ModuleScope) (span : Span) (owner : String) (t : Declared TraitDef)
    (env : TypeEnv) (m : MethodSpec) : Check Unit := do
  match ← signature? (scope.path.qualify (owner ++ "." ++ m.name)) with
  | none => report (scope.site span) (.missingMethod m.name t.decl.name)
  | some actual =>
    let params ← typesOf t.scope env (m.params.map (·.ty))
    let ret ← returnTypeOf t.scope env m.ret
    if !(allAgree params (actual.params.map (·.ty)) && ret.agrees actual.ret) then
      report (scope.site actual.span) (.methodMismatch m.name t.decl.name params ret)

/-- Checks that an `impl` has the methods of its trait and no others. -/
def checkTraitImpl (scope : ModuleScope) (span : Span) (traitExpr : TypeExpr) (target : Ty)
    (owner : String) (methods : List FunctionDef) : Check Unit := do
  match traitExpr with
  | .named path _ =>
    let lookup ← lookup scope path .trait false
    let name ← found? (scope.site span) .trait (String.intercalate "::" path) lookup
    match name.bind (← read).traits.get? with
    | none => return
    | some t =>
      t.decl.methods.forM (checkRequired scope span owner t (bindParams ["Self"] [target]))
      for method in methods do
        if !(t.decl.methods.any (·.name == method.name)) then
          report (scope.site method.span) (.foreignMethod method.name t.decl.name)
  | _ => report (scope.site span) .notATrait

def checkImpl (d : Declared ImplBlock) : Check Unit := do
  let target ← typeOf d.scope ∅ d.decl.target
  match ← implOwner? d.scope (d.scope.site d.decl.target.span) target with
  | none => return
  | some owner =>
    let methods ← declareMethods d.scope owner target d.decl.methods
    match d.decl.traitExpr with
    | none => return
    | some traitExpr => checkTraitImpl d.scope d.decl.span traitExpr target owner methods

def checkSignatures (impls : List (Declared ImplBlock)) : Check Unit := do
  collectSignatures
  impls.forM checkImpl

/-! ### Constants and bodies -/

def checkConsts : Check Unit := do
  let r ← resolver
  for (name, _) in (← read).consts.toList do
    let _ ← r.const name none

/-- Takes the instances that wait to be checked. -/
def takePending : Check (List QualName) :=
  modifyGet fun s => (s.pending.reverse, { s with pending := [] })

/-- Checks this many more generations of instances. -/
def checkGenerations : Nat → Check Unit
  | 0 => return
  | n + 1 => do
    (← takePending).forM (checkFunction (maxDepth - n))
    checkGenerations n

def checkBodies : Check Unit := do
  for (name, f) in (← get).functions.toList do
    if f.decl.typeParams.isEmpty then
      checkFunction 0 name
  checkGenerations maxDepth

/-! ### All phases -/

/-- Runs a phase; the reports, if there are any, come in the order they were made. -/
def phase (decls : Declarations) (c : Check Unit) (s : State) :
    Except (List (Report Problem)) State :=
  let s := ((c.run decls).run s).2
  if s.reports.isEmpty then .ok s else .error s.reports.reverse

/-- The constants that have a value. -/
def finishedConsts (consts : Std.TreeMap QualName (Progress CheckedConst)) :
    Std.TreeMap QualName CheckedConst :=
  consts.filterMap fun _ progress =>
    match progress with
    | .done value => some value
    | .started => none

/-- What the state holds when everything has been checked. -/
def State.program (s : State) : CheckedProgram :=
  { functions := s.checked
    signatures := s.signatures
    consts := finishedConsts s.consts
    resolutions := s.resolutions }

/-- Adds a prelude of this text to the modules of a program. -/
def withPrelude (text : String) (modules : List ModuleDef) (nextId : NodeId) :
    List ModuleDef × NodeId :=
  match ModuleDef.ofText Prelude.path text nextId with
  | .ok (prelude, nextId) => (modules ++ [prelude], nextId)
  | .error _ => (modules, nextId)

/-- Checks modules, the prelude among them, whose nodes have numbers below `nextId`. -/
def checkAll (modules : List ModuleDef) (nextId : NodeId) :
    Except (List (Report Problem)) CheckedProgram := do
  let (c, problems) := Collected.ofFiles (modules.map fun m => ⟨ModulePath.ofFile m.path, m⟩)
  if !problems.isEmpty then
    throw (problems.map (Report.map .naming))
  let s : State := { functions := c.functions, nextId := nextId }
  let s ← phase c.decls (checkSignatures c.impls.reverse) s
  let s ← phase c.decls checkConsts s
  let s ← phase c.decls checkBodies s
  return s.program

/-- Checks the modules of a program. -/
def checkModules (modules : List ModuleDef) (nextId : NodeId) :
    Except (List (Report Problem)) CheckedProgram :=
  let all := withPrelude Prelude.text modules nextId
  checkAll all.1 all.2

end Keel.Typing
