/-
# Matches

The arms of a `match` have to cover every value, and no arm may come too late: after
one that takes everything, or with a pattern that was there before.

A name alone is a pattern that takes everything, unless the enum has a variant of that
name without a value; then it is that variant.
-/
import Keel.Typing.Frame

namespace Keel.Typing

/-- What kind of value is looked at. -/
inductive Scrutinee where
  | enum (sig : EnumSig)
  | int (ty : Ty)
  | bool
  | str
  /-- Something that cannot be matched, which has been reported. -/
  | invalid

/-- What the arms so far take. -/
structure Coverage where
  variants : List Nat := []
  ints : List Int := []
  strings : List String := []
  bools : List Bool := []
  catchAll : Bool := false

/-- The integers from `low` to `high`. -/
def intsBetween (low high : Int) : List Int :=
  (List.range (high - low + 1).toNat).map fun (i : Nat) => low + i

/-- Ranges of this many values or more are never matched value by value. -/
def maxListed : Int := 256

/-- Is every integer of the type among the patterns?  Only small ranges can be. -/
def Coverage.listsAll (c : Coverage) : Ty → Bool
  | .range _ low high =>
    high - low < maxListed && (intsBetween low high).all c.ints.contains
  | _ => false

/-- What the arms leave out. -/
def Scrutinee.missing (s : Scrutinee) (c : Coverage) : Option Problem :=
  if c.catchAll then none
  else
    match s with
    | .enum sig =>
      let names := (sig.variants.zipIdx.filter fun (_, i) => !c.variants.contains i).map
        fun (v, _) => v.name
      if names.isEmpty then none else some (.missingVariants names)
    | .bool =>
      let values := [true, false].filter fun b => !c.bools.contains b
      if values.isEmpty then none else some (.missingBools values)
    | .int ty => if c.listsAll ty then none else some .notExhaustive
    | .str => some .notExhaustive
    | .invalid => none

def scrutineeOf (site : Site) (ty : Ty) : Check Scrutinee := do
  match ty with
  | .enum name =>
    match ← enum? name with
    | some sig => return .enum sig
    | none => return .invalid
  | .int _ | .range _ _ _ => return .int ty
  | .bool => return .bool
  | .str => return .str
  | .error => return .invalid
  | other =>
    report site (.matchType other)
    return .invalid

/-! ### Patterns -/

/-- Does the enum have a variant of that name that carries nothing? -/
def unitVariant? (sig : EnumSig) (name : String) : Option Nat :=
  match sig.variant? name with
  | some (index, v) => if v.payload.isNone then some index else none
  | none => none

/-- Does the path in a pattern name the enum that is matched, or the declaration it is
an instance of? -/
def namesEnum (f : Frame) (path : List String) (sig : EnumSig) : Check Bool := do
  if path = ["Self"] then
    match f.types.get? "Self" with
    | some (.enum name) => return name == sig.name
    | _ => return false
  match ← lookup f.scope path .type true with
  | .found name => return name == sig.name || sig.base? == some name
  | _ => return false

/-- Adds a pattern to those seen; one that was there before is reported. -/
def cover {α : Type} [BEq α] (site : Site) (seen : List α) (value : α) : Check (List α) := do
  if seen.contains value then
    report site .repeatedArm
  return value :: seen

/-- A pattern for a variant, found by its position. -/
def coverVariant (f : Frame) (p : Pattern) (sig : EnumSig) (index : Nat) (c : Coverage) :
    Check Coverage := do
  let variants ← cover (f.site p.span) c.variants index
  recordVariant p.id ⟨sig.name, index⟩
  return { c with variants := variants }

/-- The pattern for the value that a variant carries. -/
def checkPayload (f : Frame) (p : Pattern) (payload : Ty) : Check Frame := do
  match p.kind with
  | .wildcard => return f
  | .bind name =>
    recordType p.id payload
    return f.declare name payload false
  | _ =>
    report (f.site p.span) .nestedPattern
    return f

/-- The patterns in the brackets of a variant pattern. -/
def checkPayloads (f : Frame) (site : Site) (enum variant : String) :
    Option Ty → List Pattern → Check Frame
  | some payload, [field] => checkPayload f field payload
  | none, [] => return f
  | some _, [] => do
    report site (.patternNeedsPayload enum variant)
    return f
  | some _, fields => do
    report site (.patternFieldCount enum variant fields.length)
    return f
  | none, _ => do
    report site (.patternNoPayload enum variant)
    return f

def checkVariantPattern (f : Frame) (p : Pattern) (sig : EnumSig) (c : Coverage)
    (path : Option (List String)) (variant : String) (fields : List Pattern) :
    Check (Frame × Coverage) := do
  let site := f.site p.span
  if let some path := path then
    if !(← namesEnum f path sig) then
      report site (.patternEnum (String.intercalate "::" path) sig.name.name)
      return (f, c)
  match sig.variant? variant with
  | none =>
    report site (.noVariant sig.name.name variant)
    return (f, c)
  | some (index, v) =>
    let f ← checkPayloads f site sig.name.name variant v.payload fields
    return (f, ← coverVariant f p sig index c)

/-- A name as a pattern. -/
def checkBinding (f : Frame) (p : Pattern) (s : Scrutinee) (ty : Ty) (c : Coverage)
    (name : String) : Check (Frame × Coverage) := do
  let unit := match s with
    | .enum sig => (unitVariant? sig name).map fun index => (sig, index)
    | _ => none
  match unit with
  | some (sig, index) => return (f, ← coverVariant f p sig index c)
  | none =>
    recordType p.id ty
    return (f.declare name ty false, { c with catchAll := true })

/-- The pattern of an arm: the variables it binds and what it takes. -/
def checkPattern (f : Frame) (p : Pattern) (s : Scrutinee) (ty : Ty) (c : Coverage) :
    Check (Frame × Coverage) := do
  let site := f.site p.span
  match p.kind, s with
  | .bind name, .invalid => return (f.declare name .error false, c)
  | _, .invalid => return (f, c)
  | .wildcard, _ => return (f, { c with catchAll := true })
  | .bind name, s => checkBinding f p s ty c name
  | .int value, .int ty =>
    if !ty.admits value then
      report site (.patternRange value ty)
    return (f, { c with ints := ← cover site c.ints value })
  | .bool value, .bool => return (f, { c with bools := ← cover site c.bools value })
  | .str value, .str => return (f, { c with strings := ← cover site c.strings value })
  | .variant path variant fields, .enum sig => checkVariantPattern f p sig c path variant fields
  | _, .enum sig =>
    report site (.patternType sig.name.name)
    return (f, c)
  | _, _ =>
    report site (.patternType ty.text)
    return (f, c)

/-! ### Arms -/

/-- An arm with the way to check its body. -/
structure ArmOperand where
  pattern : Pattern
  body : Operand

/-- Checks arms in order; yields their types, with whether they diverge, and what they
take. -/
def checkArms (f : Frame) (s : Scrutinee) (ty : Ty) (expected : Option Ty) :
    List ArmOperand → Coverage → Check (List (Ty × Bool) × Coverage)
  | [], c => return ([], c)
  | arm :: rest, c => do
    if c.catchAll then
      report (f.site arm.pattern.span) .armAfterCatchAll
    let (inner, c) ← checkPattern f arm.pattern s ty c
    let result ← arm.body.check inner expected
    let (results, c) ← checkArms f s ty expected rest c
    return ((result, arm.body.expr.diverges) :: results, c)

/-- What is matched, with a type if it is a number without one. -/
def scrutineeType (f : Frame) (o : Operand) : Check Ty := do
  let ty ← o.check f none
  if ty.isUntyped then do
    settle f.scope.file .i64 o.expr
    pure .i64
  else pure ty

def checkCases (f : Frame) (span : Span) (o : Operand) (arms : List ArmOperand) (expected : Option Ty)
    (ty : Ty) : Check Ty := do
  let s ← scrutineeOf (f.site o.expr.span) ty
  let (results, c) ← checkArms f s ty expected arms {}
  if let some problem := s.missing c then
    report (f.site span) problem
  let joined ← joinTypes (f.site span) results expected "match arms"
  if joined.isSettledInt then
    arms.forM fun arm => settle f.scope.file joined arm.body.expr
  return joined

def checkSelect (f : Frame) (span : Span) (scrutinee : Operand) (arms : List ArmOperand)
    (expected : Option Ty) : Check Ty := do
  checkCases f span scrutinee arms expected (← scrutineeType f scrutinee)

end Keel.Typing
