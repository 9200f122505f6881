/-
# What the tables say about a node

How a run reads what the checker found: what a call calls, the variable that a method is
called on, the kind that numbers of a type have, and whether a value is of a type.
-/
import Keel.Proofs.Semantics.Value

namespace Keel

/-! ### Calls -/

inductive Callee where
  | intrinsic (op : Intrinsic)
  | variant (ref : VariantRef)
  | builtin (which : Builtin)
  | function (name : QualName)

def Resolutions.callee? (r : Resolutions) (id : NodeId) : Option Callee :=
  match r.intrinsics.get? id with
  | some op => some (.intrinsic op)
  | none =>
    match r.variants.get? id with
    | some ref => some (.variant ref)
    | none =>
      match r.calls.get? id with
      | some (.builtin which) => some (.builtin which)
      | some (.function name) => some (.function name)
      | none => none

def Expr.receiver? (callee : Expr) : Option String :=
  match callee.kind with
  | .member ⟨_, .path path, _⟩ _ _ => path.simple?
  | _ => none

/-! ### Types -/

/-- The kind of the numbers of a type.  A number whose type nothing fixed is an `i64`. -/
def Ty.width? : Ty → Option IntKind
  | int kind | range kind _ _ => some kind
  | untyped => some .i64
  | _ => none

def Value.isOf : Value → Ty → Bool
  | unit, .unit | bool _, .bool | str _, .str => true
  | struct _, .struct _ | variant _ _, .enum _ | list _, .list _ => true
  | int n, t => t.width? == some n.kind
  | _, _ => false

/-- The tag of a variant; one whose position no tag can hold has none. -/
def VariantRef.tag? (ref : VariantRef) : Option Tag :=
  if h : ref.index < 2147483648 then some ⟨ref.index, h⟩ else none

def CheckedConst.value? (c : CheckedConst) : Option Value :=
  match c.value with
  | .int value => c.ty.width?.map fun kind => .int (.ofInt kind value)
  | .bool value => some (.bool value)
  | .str value => some (.str value)
  | .bad => none

/-- The positions of fields, each a field of the struct that the one before holds. -/
def Signatures.fieldPath? (s : Signatures) : Ty → List String → Option (List Nat)
  | _, [] => some []
  | .struct name, field :: rest =>
    match (s.structs.get? name).bind (·.field? field) with
    | some (index, sig) => (s.fieldPath? sig.ty rest).map (index :: ·)
    | none => none
  | _, _ :: _ => none

end Keel
