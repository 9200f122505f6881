/-
# Types without parameters

A type parameter stands in a generic declaration and in the patterns that its calls are
matched against, and nowhere else: what an alias or a constant, a field or a variant, a
parameter or a result is found to have is a *proper* type, without type parameters and
without a number whose type is still open.  Its ranges are not empty, and their bounds are
values of some integer kind, if not of their base.

`Sound` says so of all tables of the checker.  Resolving types and constants keeps it.
-/
import Keel.Proofs.Typing.Declaring
import Keel.Proofs.Typing.Shapes

namespace Keel

open List Option

/-! ### Proper types -/

def InWords (value : Int) : Prop := IntKind.i64.min ≤ value ∧ value ≤ IntKind.u64.max

theorem inWords_of_contains {kind : IntKind} {value : Int} (h : kind.contains value = true) : InWords value := by
  rw [IntKind.contains, Bool.and_eq_true, decide_eq_true_eq, decide_eq_true_eq] at h
  cases kind <;> simp only [IntKind.min, IntKind.max] at h <;> simp only [InWords, IntKind.min, IntKind.max] <;> omega

namespace Ty

/-- The bounds of a range are in order, and each is a value of some integer kind. -/
def Bounded (low high : Int) : Prop := low ≤ high ∧ InWords low ∧ InWords high

/-- A type with no parameters but these, with no number of an open type, and with bounds in order. -/
def Over (params : List String) : Ty → Prop
  | param name => name ∈ params
  | list t => t.Over params
  | range _ low high => Bounded low high
  | untyped => False
  | _ => True

/-- A type without parameters. -/
abbrev Proper (t : Ty) : Prop := t.Over []

/-- The type of an expression: a proper one, or that of a number whose type is open. -/
def Known (t : Ty) : Prop := t = .untyped ∨ t.Proper

/-- There is no number of an open type in it, and bounds are in order. -/
def Settled : Ty → Prop
  | list t => t.Settled
  | range _ low high => Bounded low high
  | untyped => False
  | _ => True

variable {t : Ty} {params : List String}

theorem Proper.over (h : t.Proper) : t.Over params := by
  induction t with
  | list t ih => exact ih h
  | param name => cases h
  | _ => exact h

theorem Over.settled (h : t.Over params) : t.Settled := by
  induction t with
  | list t ih => exact ih h
  | untyped => exact h
  | _ => trivial

theorem Proper.known (h : t.Proper) : t.Known := .inr h

theorem known_untyped : Ty.untyped.Known := .inl rfl

theorem Known.proper (h : t.Known) (ht : t.isUntyped = false) : t.Proper := by
  rcases h with rfl | h
  · cases ht
  · exact h

theorem Proper.isUntyped (h : t.Proper) : t.isUntyped = false := by
  cases t with
  | untyped => cases h
  | _ => rfl

theorem Proper.decay (h : t.Proper) : t.decay.Proper := by
  cases t with
  | range => trivial
  | _ => exact h

theorem Known.decay (h : t.Known) : t.decay.Known := by
  rcases h with rfl | h
  · exact known_untyped
  · exact h.decay.known

end Ty

def TypeEnv.Over (env : TypeEnv) (params : List String) : Prop :=
  ∀ name t, env.get? name = some t → t.Over params

theorem TypeEnv.over_empty {params : List String} : TypeEnv.Over ∅ params := by
  simp [TypeEnv.Over]

theorem TypeEnv.proper_empty : TypeEnv.Over ∅ [] := TypeEnv.over_empty

namespace Typing

variable {params : List String} {env : TypeEnv} {args : List Ty}

theorem Nominal.over_ty (n : Nominal) (name : QualName) : (n.ty name).Over params := by
  unfold Nominal.ty
  split <;> trivial

theorem get?_foldl_insert {l : List (String × Ty)} {name : String} {t : Ty}
    (h : (l.foldl (fun env (p, a) => env.insert p a) env).get? name = some t) :
    t ∈ l.map (·.2) ∨ env.get? name = some t := by
  induction l generalizing env with
  | nil => exact .inr h
  | cons p rest ih =>
    rcases ih h with hrest | henv
    · exact .inl (mem_cons_of_mem _ hrest)
    · rw [get?_insert] at henv
      split at henv
      · exact .inl (mem_cons.2 (.inl (Option.some.inj henv).symm))
      · exact .inr henv

theorem mem_of_get?_bindParams {name : String} {t : Ty}
    (h : (bindParams params args).get? name = some t) : t ∈ args := by
  rcases get?_foldl_insert h with hmem | hnone
  · obtain ⟨p, hp, rfl⟩ := mem_map.1 hmem
    exact (of_mem_zip hp).2
  · simp at hnone

theorem over_bindParams {ps : List String} (h : ∀ t ∈ args, t.Over ps) : TypeEnv.Over (bindParams params args) ps :=
  fun _ t ht => h t (mem_of_get?_bindParams ht)

theorem over_openParams (params : List String) : TypeEnv.Over (openParams params) params :=
  over_bindParams fun t ht => by
    obtain ⟨p, hp, rfl⟩ := mem_map.1 ht
    exact hp

/-- A type that mentions no parameter has none. -/
theorem proper_of_mentionsParam {s : State} {t : Ty} (h : t.Settled) (hm : s.mentionsParam t = false) :
    t.Proper := by
  induction t with
  | list t ih => exact ih h hm
  | param => cases hm
  | untyped => exact h
  | _ => trivial

end Typing

/-! ### Sound tables -/

structure CheckedConst.Sound (c : CheckedConst) : Prop where
  ty : c.ty.Proper
  value : ∀ v, c.value = .int v → c.ty.admits v = true
  shaped : c.Shaped

def Origin.Sound (o : Origin) : Prop := ∀ t ∈ o.args, t.Proper

structure StructSig.Sound (sig : StructSig) : Prop where
  fields : ∀ f ∈ sig.fields, f.ty.Proper
  origin : ∀ o ∈ sig.origin, o.Sound

structure FunctionSig.Sound (sig : FunctionSig) : Prop where
  params : ∀ p ∈ sig.params, p.ty.Proper
  ret : sig.ret.Proper

namespace Typing

/-- Some enum that is declared has more variants than that. -/
def Declarations.HasVariant (d : Declarations) (index : Nat) : Prop :=
  ∃ name e, d.enums.get? name = some e ∧ index < e.decl.variants.length

structure EnumSig.Sound (d : Declarations) (sig : EnumSig) : Prop where
  variants : ∀ v ∈ sig.variants, ∀ t ∈ v.payload, t.Proper
  index : ∀ i < sig.variants.length, d.HasVariant i
  origin : ∀ o ∈ sig.origin, o.Sound

structure FunctionDecl.Sound (g : FunctionDecl) : Prop where
  found : ∀ t ∈ g.decl.foundTypes, t.Proper
  generic : g.decl.typeParams ≠ [] → g.decl.foundTypes = []
  selfType : ∀ t ∈ g.selfType, t.Proper

/-- What the checker has found are proper types. -/
structure Sound (d : Declarations) (s : State) : Prop where
  functions : ∀ name g, s.functions.get? name = some g → g.Sound
  aliases : ∀ name t, s.aliases.get? name = some (.done t) → t.Proper
  consts : ∀ name c, s.consts.get? name = some (.done c) → c.Sound
  structs : ∀ name sig, s.signatures.structs.get? name = some sig → sig.Sound
  enums : ∀ name sig, s.signatures.enums.get? name = some sig → EnumSig.Sound d sig
  signatures : ∀ name sig, s.signatures.functions.get? name = some sig → sig.Sound
  patterns : ∀ name o, s.patterns.get? name = some o → ∀ t ∈ o.args, t.Settled
  exprTypes : ∀ id t, s.resolutions.exprTypes.get? id = some t → t.Known
  letTypes : ∀ id t, s.resolutions.letTypes.get? id = some t → t.Proper
  variants : ∀ id v, s.resolutions.variants.get? id = some v → d.HasVariant v.index

/-- Nothing in the declarations stands for a type that has been found. -/
structure Declarations.Plain (d : Declarations) : Prop where
  structs : ∀ name s, d.structs.get? name = some s → (Item.struct s.decl).foundTypes = []
  enums : ∀ name e, d.enums.get? name = some e → (Item.enum e.decl).foundTypes = []
  aliases : ∀ name a, d.aliases.get? name = some a → (Item.typeAlias a.decl).foundTypes = []
  consts : ∀ name c, d.consts.get? name = some c → (Item.const c.decl).foundTypes = []
  traits : ∀ name t, d.traits.get? name = some t → (Item.trait t.decl).foundTypes = []

variable {d : Declarations}

section Environments

variable {params : List String} {env : TypeEnv} {args : List Ty}

theorem forall_get?_insert {α κ : Type} [Ord κ] [Std.TransOrd κ] [Std.LawfulEqOrd κ] [DecidableEq κ]
    {t : Std.TreeMap κ α} {P : κ → α → Prop} (h : ∀ k a, t.get? k = some a → P k a) {k : κ} {a : α} (ha : P k a) :
    ∀ k' a', (t.insert k a).get? k' = some a' → P k' a' := by
  intro k' a' h'
  rw [get?_insert] at h'
  split at h'
  · rename_i heq
    cases h'
    exact heq ▸ ha
  · exact h k' a' h'

theorem keeps_report (site : Site) (problem : Problem) : Keeps d (Sound d) (report site problem) :=
  keeps_modify fun _ h => { h with }

theorem holds_reject (site : Site) (problem : Problem) : Holds d (Sound d) (reject site problem) (·.Over params) :=
  (keeps_report site problem).bind fun _ => holds_pure trivial

variable (name : QualName)

theorem keeps_setAlias {progress : Progress Ty}
    (h : ∀ t, progress = .done t → t.Proper) : Keeps d (Sound d) (setAlias name progress) :=
  keeps_modify fun _ hs => { hs with
    aliases := fun name' t ht => forall_get?_insert (P := fun _ a => ∀ t, a = Progress.done t → t.Proper)
      (fun name' a ha t ht => hs.aliases name' t (by rw [ha, ht])) h name' _ ht t rfl }

theorem keeps_setConst {progress : Progress CheckedConst}
    (h : ∀ c, progress = .done c → c.Sound) : Keeps d (Sound d) (setConst name progress) :=
  keeps_modify fun _ hs => { hs with
    consts := fun name' c hc =>
      forall_get?_insert (P := fun _ a => ∀ c, a = Progress.done c → CheckedConst.Sound c)
        (fun name' a ha c hc => hs.consts name' c (by rw [ha, hc])) h name' _ hc c rfl }

theorem keeps_setPattern {origin : Origin} (h : ∀ t ∈ origin.args, t.Settled) :
    Keeps d (Sound d) (setPattern name origin) :=
  keeps_modify fun _ hs => { hs with patterns := forall_get?_insert hs.patterns h }

theorem keeps_setStruct {sig : StructSig} (h : sig.Sound) : Keeps d (Sound d) (setStruct sig) :=
  keeps_modify fun _ hs => { hs with structs := forall_get?_insert hs.structs h }

theorem keeps_setEnum {sig : EnumSig} (h : EnumSig.Sound d sig) : Keeps d (Sound d) (setEnum sig) :=
  keeps_modify fun _ hs => { hs with enums := forall_get?_insert hs.enums h }

theorem keeps_setSignature {sig : FunctionSig} (h : sig.Sound) : Keeps d (Sound d) (setSignature sig) :=
  keeps_modify fun _ hs => { hs with signatures := forall_get?_insert hs.signatures h }

theorem keeps_setFunction {g : FunctionDecl} (h : g.Sound) :
    Keeps d (Sound d) (setFunction name g) :=
  keeps_modify fun _ hs => { hs with functions := forall_get?_insert hs.functions h }

theorem keeps_found? (site : Site) (kind : NameKind) (written : String) (l : Lookup) :
    Keeps d (Sound d) (found? site kind written l) := by
  cases l with
  | found => exact keeps_pure
  | hidden | unknownModule | missing => exact (keeps_report _ _).bind fun _ => keeps_pure

theorem keeps_lookup (scope : ModuleScope) (path : List String) (space : Namespace)
    (withPrelude : Bool) : Keeps d (Sound d) (lookup scope path space withPrelude) := fun _ hs =>
  ⟨hs, trivial⟩

/-! ### Operations on constants -/

section Outcomes

variable {c left right : CheckedConst}

theorem holds_conclude (site : Site) (outcome : Outcome) :
    Holds d (Sound d) (conclude site outcome) (· = outcome.result) := by
  unfold conclude
  split
  · exact (keeps_report _ _).bind fun _ => holds_pure rfl
  · exact holds_pure rfl

variable {kind : IntKind} {v : Int} {ty : Ty}

theorem contains_of_fit {value : Int} (h : kind.fit value = .ok v) : kind.contains v = true := by
  unfold IntKind.fit at h
  split at h
  · cases h
    assumption
  · cases h

theorem contains_of_apply {op : ArithOp} {a b : Int} (h : op.apply kind a b = .ok v) : kind.contains v = true := by
  have hshift (f : Nat → Int) (h : (do kind.fit (f (← ArithOp.shiftBy kind b))) = .ok v) :
      kind.contains v = true := by
    rcases hcount : ArithOp.shiftBy kind b with problem | count
    · rw [hcount] at h
      cases h
    · rw [hcount] at h
      exact contains_of_fit h
  cases op with
  | div | rem =>
    simp only [ArithOp.apply] at h
    split at h
    · cases h
    · split at h
      · cases h
      · exact contains_of_fit h
  | shl => exact hshift (a <<< ·) h
  | shr => exact hshift (a >>> ·) h
  | _ => exact contains_of_fit h

theorem contains_of_unary {op : UnaryOp} {value : Int}
    (h : (if op = .neg then kind.neg value else kind.complement value) = .ok v) : kind.contains v = true := by
  split at h <;> exact contains_of_fit h

theorem inWords_of_admits {t : Ty} (h : t.Proper) (hint : t.isIntegral = true) (hv : t.admits v = true) :
    InWords v := by
  cases t with
  | int kind => exact inWords_of_contains hv
  | range base low high =>
    obtain ⟨-, hlow, hhigh⟩ := h
    rw [Ty.admits, Bool.and_eq_true, decide_eq_true_eq, decide_eq_true_eq] at hv
    exact ⟨Int.le_trans hlow.1 hv.1, Int.le_trans hv.2 hhigh.2⟩
  | untyped => cases h
  | _ => cases hint

/-- What a constant expression comes to.  Its type is known, and settled where an integer is expected;
with a settled type a number is a value of some integer kind. -/
structure Evaluated (expected : Option Ty) (c : CheckedConst) : Prop where
  ty : c.ty.Known
  hinted : ∀ t ∈ expected, t.isIntegral = true → c.ty.Proper
  fits : c.ty.Proper → ∀ v, c.value = .int v → InWords v
  shaped : c.Shaped

variable {expected : Option Ty}

theorem evaluated_of_proper {c : CheckedConst} (hty : c.ty.Proper) (hvalue : ∀ v, c.value ≠ .int v)
    (hshaped : c.Shaped) : Evaluated expected c :=
  ⟨hty.known, fun _ _ _ => hty, fun _ v hv => absurd hv (hvalue v), hshaped⟩

theorem evaluated_bad (hty : ty.Proper) : Evaluated expected ⟨ty, .bad⟩ :=
  evaluated_of_proper hty nofun trivial

theorem evaluated_of_sound {c : CheckedConst} (h : c.Sound) : Evaluated expected c :=
  ⟨h.ty.known, fun _ _ _ => h.ty, fun _ v hv => inWords_of_admits h.ty (h.shaped.isIntegral hv) (h.value v hv),
    h.shaped⟩

theorem Evaluated.operand {c : CheckedConst} (h : Evaluated (operandHint expected) c) :
    ∀ t ∈ expected, t.isIntegral = true → c.ty.Proper := by
  intro t ht hint
  obtain rfl := mem_def.1 ht
  refine h.hinted t.decay ?_ ?_
  · simp [operandHint, Option.filter, hint]
  · cases t <;> first | rfl | exact hint

theorem evaluated_constLiteral (value : Int) (h : ∀ t ∈ expected, t.Proper) :
    Evaluated expected (constLiteral value expected).result := by
  unfold constLiteral
  split
  · rename_i target htarget
    obtain ⟨hmem, hint⟩ := filter_eq_some_iff.1 htarget
    have hproper : target.Proper := h target hmem
    split
    · refine ⟨hproper.known, fun _ _ _ => hproper, fun _ v hv => ?_, hint⟩
      cases hv
      exact inWords_of_admits hproper hint ‹_›
    · exact evaluated_bad trivial
  · rename_i hnone
    refine ⟨Ty.known_untyped, fun t ht hint => ?_, fun h => absurd h id, rfl⟩
    rw [filter_eq_none_iff] at hnone
    exact absurd hint (hnone t ht)

theorem evaluated_constNot : Evaluated expected (constNot c).result := by
  unfold constNot
  split
  · exact evaluated_of_proper trivial nofun rfl
  all_goals exact evaluated_bad trivial

theorem fits_ofArith {r : Except ArithProblem Int} (h : ∀ v, r = .ok v → InWords v) :
    ∀ v, (Outcome.ofArith ty r).result.value = .int v → InWords v := by
  intro v hv
  cases r with
  | ok value =>
    cases hv
    exact h v rfl
  | error problem => cases hv

theorem ty_ofArith (ty : Ty) (r : Except ArithProblem Int) : (Outcome.ofArith ty r).result.ty = ty := by
  cases r <;> rfl

theorem evaluated_constUnary (op : UnaryOp) (h : Evaluated (operandHint expected) c) :
    Evaluated expected (constUnary op c).result := by
  unfold constUnary
  split
  · refine ⟨?_, fun t ht hint => ?_, fun _ => fits_ofArith fun v hv => ?_,
      shaped_ofArith (isIntegral_decay h.shaped) _⟩
    · rw [ty_ofArith]
      exact h.ty.decay
    · rw [ty_ofArith]
      exact (h.operand t ht hint).decay
    · exact inWords_of_contains (contains_of_unary hv)
  · exact ⟨h.ty, h.operand, nofun, trivial⟩
  · exact evaluated_bad trivial

theorem evaluated_constCastTo {target : Ty} (h : target.Proper) (value : ConstValue) :
    Evaluated expected (constCastTo target value).result := by
  unfold constCastTo
  split
  · exact evaluated_bad h
  · split
    · rename_i hint
      split
      · refine ⟨h.known, fun _ _ _ => h, fun _ v hv => ?_, hint⟩
        cases hv
        exact inWords_of_admits h hint ‹_›
      · exact evaluated_bad h
    · exact evaluated_bad trivial
  · exact evaluated_bad trivial

/-- The type of operands, which is settled if theirs are, or that of an operation that fails. -/
def KnownOperands (left right : Ty) : Except Outcome Ty → Prop
  | .ok ty => ty.Known ∧ (left.Proper → right.Proper → ty.Proper)
  | .error outcome => outcome.result.ty.Proper

theorem known_adoptType (value : ConstValue) {l r other : Ty} (h : other.Proper) :
    KnownOperands l r (adoptType value other) := by
  unfold adoptType
  dsimp only
  split
  · split
    · exact ⟨h.decay.known, fun _ _ => h.decay⟩
    · exact h.decay
  · exact ⟨h.decay.known, fun _ _ => h.decay⟩

theorem known_constOperandType (op : BinaryOp) (hl : left.ty.Known) (hr : right.ty.Known) :
    KnownOperands left.ty right.ty (constOperandType op left right) := by
  unfold constOperandType
  split
  · rename_i hopen
    rw [Bool.and_eq_true] at hopen
    refine ⟨Ty.known_untyped, fun h _ => ?_⟩
    rw [h.isUntyped] at hopen
    cases hopen.1
  · rename_i hopen
    rw [Bool.and_eq_true, not_and] at hopen
    split
    · rename_i hleft
      rw [Bool.and_eq_true] at hleft
      exact known_adoptType _ (hr.proper (by simpa using hopen hleft.1))
    · split
      · rename_i hright
        rw [Bool.and_eq_true] at hright
        exact known_adoptType _ (hl.proper (by
          by_contra hl
          exact hopen (by simpa using hl) hright.1))
      · split
        · exact ⟨hl.decay, fun h _ => h.decay⟩
        · trivial

theorem evaluated_operandType {op : BinaryOp} (hl : left.ty.Known) (hr : right.ty.Known) {outcome : Outcome}
    (h : constOperandType op left right = .error outcome) : Evaluated expected outcome.result := by
  have hty := known_constOperandType op hl hr
  rw [h] at hty
  have hbad := bad_of_operandType h
  obtain ⟨⟨ty, value⟩, problem⟩ := outcome
  obtain rfl : value = .bad := hbad
  exact evaluated_bad hty

theorem evaluated_constApply_arith (op : ArithOp) {l r : ConstValue} (hty : ty.Known)
    (hhinted : ∀ t ∈ expected, t.isIntegral → ty.Proper) (hint : ∀ v, l = .int v → ty.isIntegral) :
    Evaluated expected (constApply (.arith op) ty l r).result := by
  unfold constApply
  dsimp only
  split
  case h_2 =>
    refine ⟨?_, ?_, fun _ => fits_ofArith fun v hv => inWords_of_contains (contains_of_apply hv),
      shaped_ofArith (hint _ rfl) _⟩
    · rwa [ty_ofArith]
    · rwa [ty_ofArith]
  case h_7 => exact evaluated_bad trivial
  all_goals exact evaluated_of_proper trivial nofun rfl

theorem evaluated_constApply_compare (op : CompareOp) (ty : Ty) (l r : ConstValue) :
    Evaluated expected (constApply (.compare op) ty l r).result := by
  unfold constApply
  dsimp only
  split
  case h_2 hop => cases hop
  case h_7 => exact evaluated_bad trivial
  all_goals exact evaluated_of_proper trivial nofun rfl

theorem evaluated_constArith (op : ArithOp) (hl : Evaluated (operandHint expected) left)
    (hr : Evaluated (operandHint expected) right) :
    Evaluated expected (constBinary (.arith op) left right).result := by
  unfold constBinary
  split
  · exact ⟨hl.ty.decay, fun t ht hint => (hl.operand t ht hint).decay, nofun, trivial⟩
  · have hty := known_constOperandType (.arith op) hl.ty hr.ty
    split
    · exact evaluated_operandType hl.ty hr.ty ‹_›
    · rename_i heq
      rw [heq] at hty
      exact evaluated_constApply_arith op hty.1
        (fun t ht hint => hty.2 (hl.operand t ht hint) (hr.operand t ht hint))
        fun v hv => integral_of_operandType (hl.shaped.isIntegral hv) heq

theorem evaluated_constCompare (op : CompareOp) (hl : left.ty.Known) (hr : right.ty.Known) :
    Evaluated expected (constBinary (.compare op) left right).result := by
  unfold constBinary
  split
  · exact evaluated_bad trivial
  · split
    · exact evaluated_operandType hl hr ‹_›
    · exact evaluated_constApply_compare op _ _ _

theorem sound_constSettle {declared : Ty} (h : declared.Proper) {actual : CheckedConst} (hactual : actual.Shaped) :
    (constSettle declared actual).result.Sound := by
  have hshaped := shaped_constSettle declared hactual
  unfold constSettle at hshaped ⊢
  split
  · exact ⟨h, nofun, trivial⟩
  · split
    · exact ⟨h, nofun, trivial⟩
    · split
      · split
        · rename_i v hv hadmits
          refine ⟨h, fun v' hv' => ?_, by simp_all⟩
          cases hv.symm.trans hv'
          exact hadmits
        · exact ⟨h, nofun, trivial⟩
      · rename_i hother
        exact ⟨h, fun v hv => absurd hv (hother v), by simp_all⟩

theorem sound_failed : CheckedConst.failed.Sound := ⟨trivial, nofun, trivial⟩

end Outcomes

/-! ### Written types and constant expressions -/

structure Resolver.Sound (d : Declarations) (r : Resolver) : Prop where
  typeAlias : ∀ name, Holds d (Typing.Sound d) (r.typeAlias name) Ty.Proper
  const : ∀ name site, Holds d (Typing.Sound d) (r.const name site) CheckedConst.Sound
  instantiate : ∀ name args site, (∀ t ∈ args, t.Settled) →
    Holds d (Typing.Sound d) (r.instantiate name args site) Ty.Proper

section Expressions

variable {r : Resolver}

theorem holds_nominalType (hr : r.Sound d) (name : QualName) (hargs : ∀ t ∈ args, t.Settled) (site : Site) :
    Holds d (Sound d) (nominalType r name args site) Ty.Proper := by
  refine (holds_read (P := fun _ => True) trivial).bind fun decls _ => ?_
  split
  · split
    · exact (holds_reject _ _).bind fun _ h => holds_pure h
    · exact hr.typeAlias name
  · split
    · exact holds_pure trivial
    · split
      · exact holds_pure (Nominal.over_ty _ _)
      · exact holds_reject _ _
      · exact holds_reject _ _
      · exact hr.instantiate _ _ _ hargs

theorem holds_rangeType (site : Site) (base : IntKind) {low high : ConstValue}
    (hlow : ∀ v, low = .int v → InWords v) (hhigh : ∀ v, high = .int v → InWords v) :
    Holds d (Sound d) (rangeType site base low high) Ty.Proper := by
  unfold rangeType
  split
  · split
    · exact holds_reject _ _
    · rename_i hle
      exact holds_pure ⟨Int.not_lt.1 hle, hlow _ rfl, hhigh _ rfl⟩
  · exact holds_pure trivial

theorem over_simpleType? (henv : env.Over params) {path : List String} {t : Ty}
    (h : simpleType? env path = some t) : t.Over params := by
  unfold simpleType? at h
  split at h
  · split at h
    · rename_i ty hty
      cases h
      exact henv _ _ hty
    · split at h
      · cases h
        trivial
      · split at h
        all_goals first | (cases h; trivial) | cases h
  · cases h

theorem proper_optHint {expected : Option Ty} (h : ∀ t ∈ expected, t.Proper) :
    ∀ t ∈ operandHint expected, t.Proper := by
  intro t ht
  obtain ⟨t', ht', rfl⟩ := map_eq_some_iff.1 ht
  exact (h t' (filter_eq_some_iff.1 ht').1).decay

theorem holds_failConst (site : Site) (problem : Problem) :
    Holds d (Sound d) (failConst site problem) CheckedConst.Sound :=
  (holds_conclude _ _).imp fun _ h => h ▸ sound_failed

mutual

theorem holds_resolveType (hr : r.Sound d) (scope : ModuleScope) {params : List String}
    {env : TypeEnv} (henv : env.Over params) : ∀ ann : TypeAnn, (∀ t ∈ ann.foundTypes, t.Proper) →
      Holds d (Sound d) (resolveType r scope env ann) (·.Over params)
  | ⟨.unit, _⟩, _ => holds_pure trivial
  | ⟨.resolved ty, _⟩, h => holds_pure (h ty (mem_singleton.2 rfl)).over
  | ⟨.range base low high, span⟩, h => by
    obtain ⟨hbase, hbounds⟩ := forall_mem_append.1 h
    obtain ⟨hlow, hhigh⟩ := forall_mem_append.1 hbounds
    rw [resolveType]
    refine (holds_resolveType hr scope henv base hbase).bind fun ty _ => ?_
    split
    · have hkind (kind : IntKind) : ∀ t ∈ some (Ty.int kind), t.Proper := by simp [Ty.Over]
      exact (holds_evalConst hr scope low (hkind _) hlow).bind fun _ hl =>
        (holds_evalConst hr scope high (hkind _) hhigh).bind fun _ hh =>
          (holds_rangeType _ _ (hl.fits (hl.hinted _ rfl rfl)) (hh.fits (hh.hinted _ rfl rfl))).imp
            fun _ h => h.over
    · exact holds_pure trivial
    · exact holds_reject _ _
  | ⟨.named path args, span⟩, h => by
    rw [resolveType]
    split
    · rename_i ty hty
      split at hty
      · exact holds_pure (over_simpleType? henv hty)
      · cases hty
    · dsimp only
      split
      · exact holds_listType hr scope henv _ args h
      · refine (holds_resolveTypes hr scope henv args h).bind fun resolved hresolved => ?_
        refine (keeps_lookup _ _ _ _).bind fun _ => (keeps_found? _ _ _ _).bind fun name => ?_
        cases name with
        | none => exact holds_pure trivial
        | some name =>
          exact (holds_nominalType hr name (fun t ht => (hresolved t ht).settled) _).imp fun _ h => h.over

theorem holds_listType (hr : r.Sound d) (scope : ModuleScope) {params : List String}
    {env : TypeEnv} (henv : env.Over params) (site : Site) : ∀ anns : List TypeAnn,
      (∀ t ∈ TypeAnn.allFoundTypes anns, t.Proper) →
        Holds d (Sound d) (listType r scope env site anns) (·.Over params)
  | [], _ => holds_reject _ _
  | [arg], h =>
    (holds_resolveType hr scope henv arg (forall_mem_append.1 h).1).bind fun elem helem =>
      holds_pure (by split <;> trivial)
  | _ :: _ :: _, _ => holds_reject _ _

theorem holds_resolveTypes (hr : r.Sound d) (scope : ModuleScope) {params : List String}
    {env : TypeEnv} (henv : env.Over params) : ∀ anns : List TypeAnn,
      (∀ t ∈ TypeAnn.allFoundTypes anns, t.Proper) →
        Holds d (Sound d) (resolveTypes r scope env anns) fun ts => ∀ t ∈ ts, t.Over params
  | [], _ => holds_pure (forall_mem_nil _)
  | arg :: rest, h =>
    (holds_resolveType hr scope henv arg (forall_mem_append.1 h).1).bind fun _ ht =>
      (holds_resolveTypes hr scope henv rest (forall_mem_append.1 h).2).bind fun _ hts =>
        holds_pure (forall_mem_cons.2 ⟨ht, hts⟩)

theorem holds_evalConst (hr : r.Sound d) (scope : ModuleScope) :
    ∀ (e : Expr) {expected : Option Ty}, (∀ t ∈ expected, t.Proper) →
      (∀ t ∈ e.foundTypes, t.Proper) → Holds d (Sound d) (evalConst r scope e expected) (Evaluated expected)
  | ⟨_, .literal (.int value), span⟩, expected, he, _ =>
    (holds_conclude _ _).imp fun _ h => h ▸ evaluated_constLiteral value he
  | ⟨_, .literal (.bool value), _⟩, _, _, _ | ⟨_, .literal (.str value), _⟩, _, _, _ =>
    holds_pure (evaluated_of_proper trivial nofun rfl)
  | ⟨_, .path path, span⟩, _, _, _ =>
    (keeps_lookup _ _ _ _).bind fun _ => (keeps_found? _ _ _ _).bind fun name => by
      cases name
      · exact holds_pure (evaluated_bad trivial)
      · exact (hr.const _ _).imp fun _ h => evaluated_of_sound h
  | ⟨_, .unary .not operand, span⟩, _, _, h =>
    (holds_evalConst hr scope operand (by simp [Ty.Over]) h).bind fun _ _ =>
      (holds_conclude _ _).imp fun _ h => h ▸ evaluated_constNot
  | ⟨_, .unary .neg operand, span⟩, _, he, h | ⟨_, .unary .bitNot operand, span⟩, _, he, h =>
    (holds_evalConst hr scope operand (proper_optHint he) h).bind fun _ hc =>
      (holds_conclude _ _).imp fun _ h => h ▸ evaluated_constUnary _ hc
  | ⟨_, .binary (.logic op) left right, span⟩, _, _, h => by
    obtain ⟨hl, hr'⟩ := forall_mem_append.1 h
    rw [evalConst]
    refine (holds_evalConst hr scope left (by simp [Ty.Over]) hl).bind fun l _ => ?_
    split
    · exact holds_pure (evaluated_bad trivial)
    · split
      · exact holds_pure (evaluated_of_proper trivial nofun rfl)
      · refine (holds_evalConst hr scope right (by simp [Ty.Over]) hr').bind fun b _ => ?_
        split
        · exact holds_pure (evaluated_bad trivial)
        · exact holds_pure (evaluated_of_proper trivial nofun rfl)
        · exact (holds_failConst _ _).imp fun _ h => evaluated_of_sound h
    · exact (holds_failConst _ _).imp fun _ h => evaluated_of_sound h
  | ⟨_, .binary (.compare op) left right, span⟩, _, _, h =>
    (holds_evalConst hr scope left (by simp) (forall_mem_append.1 h).1).bind fun _ hl =>
      (holds_evalConst hr scope right (by simp) (forall_mem_append.1 h).2).bind fun _ hr' =>
        (holds_conclude _ _).imp fun _ h => h ▸ evaluated_constCompare op hl.ty hr'.ty
  | ⟨_, .binary (.arith op) left right, span⟩, expected, he, h =>
    (holds_evalConst hr scope left (proper_optHint he) (forall_mem_append.1 h).1).bind
      fun _ hl => (holds_evalConst hr scope right (proper_optHint he) (forall_mem_append.1 h).2).bind
        fun _ hr' => (holds_conclude _ _).imp fun _ h => h ▸ evaluated_constArith op hl hr'
  | ⟨_, .cast operand ty, span⟩, _, _, h =>
    (holds_resolveType hr scope TypeEnv.proper_empty ty (forall_mem_append.1 h).2).bind
      fun _ ht => (holds_evalConst hr scope operand (by simp) (forall_mem_append.1 h).1).bind
        fun _ _ => (holds_conclude _ _).imp fun _ h => h ▸ evaluated_constCastTo ht _
  | ⟨_, .cond choice, _⟩, _, he, h => holds_evalConditional hr scope choice he h
  | ⟨_, .block body, _⟩, _, he, h => holds_evalBlock hr scope body he h
  | ⟨_, .call _ _, span⟩, _, _, _ | ⟨_, .member _ _ _, span⟩, _, _, _
  | ⟨_, .record _ _, span⟩, _, _, _ | ⟨_, .select _ _, span⟩, _, _, _ =>
    (holds_failConst _ _).imp fun _ h => evaluated_of_sound h

theorem holds_evalBlock (hr : r.Sound d) (scope : ModuleScope) :
    ∀ (b : Block) {expected : Option Ty}, (∀ t ∈ expected, t.Proper) →
      (∀ t ∈ b.foundTypes, t.Proper) → Holds d (Sound d) (evalBlock r scope b expected) (Evaluated expected)
  | ⟨[], some tail, _⟩, _, he, h =>
    holds_evalConst hr scope tail he (forall_mem_append.1 h).2
  | ⟨[], none, _⟩, _, _, _ | ⟨_ :: _, _, _⟩, _, _, _ => (holds_failConst _ _).imp fun _ h => evaluated_of_sound h

theorem holds_evalConditional (hr : r.Sound d) (scope : ModuleScope) :
    ∀ (c : Conditional) {expected : Option Ty}, (∀ t ∈ expected, t.Proper) →
      (∀ t ∈ c.foundTypes, t.Proper) → Holds d (Sound d) (evalConditional r scope c expected) (Evaluated expected)
  | ⟨condition, thenBlock, otherwise, span⟩, _, he, h => by
    obtain ⟨hc, hbranches⟩ := forall_mem_append.1 h
    obtain ⟨ht, ho⟩ := forall_mem_append.1 hbranches
    rw [evalConditional]
    refine (holds_evalConst hr scope condition (by simp [Ty.Over]) hc).bind fun c _ => ?_
    split
    · exact holds_pure (evaluated_bad trivial)
    · exact holds_evalBlock hr scope thenBlock he ht
    · exact holds_evalElse hr scope span otherwise he ho
    · exact (holds_failConst _ _).imp fun _ h => evaluated_of_sound h

theorem holds_evalElse (hr : r.Sound d) (scope : ModuleScope) (span : Span) :
    ∀ (o : ElseBranch) {expected : Option Ty}, (∀ t ∈ expected, t.Proper) →
      (∀ t ∈ o.foundTypes, t.Proper) → Holds d (Sound d) (evalElse r scope span o expected) (Evaluated expected)
  | .absent, _, _, _ => (holds_failConst _ _).imp fun _ h => evaluated_of_sound h
  | .block body, _, he, h => holds_evalBlock hr scope body he h
  | .elseIf choice, _, he, h => holds_evalConditional hr scope choice he h

end

end Expressions

/-! ### Aliases, constants and instances -/

section Names

variable {r : Resolver}

theorem holds_get_sound : Holds d (Sound d) (get : Check State) (Sound d) := holds_get fun _ h => h

theorem holds_read_eq : Holds d (Sound d) (read : Check Declarations) (d = ·) := holds_read rfl

theorem holds_aliasType (hd : d.Plain) (hr : r.Sound d) (name : QualName) :
    Holds d (Sound d) (aliasType r name) Ty.Proper := by
  refine holds_get_sound.bind fun s hs => holds_read_eq.bind fun _ hdecls => ?_
  obtain rfl := hdecls
  split
  · exact holds_pure (hs.aliases _ _ ‹_›)
  · exact holds_reject _ _
  · rename_i decl _ hdecl
    have hfound : decl.decl.ty.foundTypes = [] := hd.aliases name decl hdecl
    refine (keeps_setAlias name (by simp)).bind fun _ => ?_
    refine (holds_resolveType hr _ TypeEnv.proper_empty _ (by simp [hfound])).bind
      fun ty hty => ?_
    exact (keeps_setAlias name (by simpa using hty)).bind fun _ => holds_pure hty
  · exact holds_pure trivial

theorem holds_evalDeclared (hd : d.Plain) (hr : r.Sound d) {c : Declared ConstDef} {name : QualName}
    (hc : d.consts.get? name = some c) : Holds d (Sound d) (evalDeclared r c) CheckedConst.Sound := by
  have hfound := hd.consts name c hc
  rw [Item.foundTypes, append_eq_nil_iff] at hfound
  unfold evalDeclared
  dsimp only
  split
  · rename_i ann hann
    rw [hann] at hfound
    have hnone : ann.foundTypes = [] := hfound.1
    refine (holds_resolveType hr _ TypeEnv.proper_empty ann (by simp [hnone])).bind
      fun declared hdeclared => ?_
    refine (holds_evalConst hr _ _ (by simpa using hdeclared) (by simp [hfound.2])).bind
      fun actual hactual => ?_
    split
    · exact holds_pure sound_failed
    · exact (holds_conclude _ _).imp fun _ h => h ▸ sound_constSettle hdeclared hactual.shaped
  · refine (holds_evalConst hr _ _ (by simp) (by simp [hfound.2])).bind fun actual hactual => ?_
    split
    · exact holds_pure sound_failed
    · have hty : (if actual.ty.isUntyped then Ty.i64 else actual.ty).Proper := by
        split
        · trivial
        · exact hactual.ty.proper (Bool.eq_false_iff.2 ‹_›)
      refine (holds_conclude _ _).imp fun _ h => h ▸ sound_constSettle hty ?_
      -- A number without a type is settled as an `i64`.
      split
      · rename_i huntyped
        have hshaped := hactual.shaped
        obtain ⟨ty, value⟩ := actual
        cases ty <;> first | cases huntyped
        cases value <;> trivial
      · exact hactual.shaped

theorem holds_constValue (hd : d.Plain) (hr : r.Sound d) (name : QualName) (site : Option Site) :
    Holds d (Sound d) (constValue r name site) CheckedConst.Sound := by
  refine holds_get_sound.bind fun s hs => holds_read_eq.bind fun _ hdecls => ?_
  obtain rfl := hdecls
  split
  · exact holds_pure (hs.consts _ _ ‹_›)
  · split
    · exact holds_failConst _ _
    · exact holds_pure sound_failed
  · exact holds_pure sound_failed
  · refine (keeps_setConst name (by simp)).bind fun _ => ?_
    refine (holds_evalDeclared hd hr ‹_›).bind fun result hresult => ?_
    exact Holds.when_bind (keeps_report _ _)
      ((keeps_setConst name (by simpa using hresult)).bind fun _ => holds_pure hresult)

theorem holds_structFields (hr : r.Sound d) (scope : ModuleScope) (henv : env.Over [])
    {fields : List FieldDef} (hfound : fields.flatMap (·.ty.foundTypes) = []) (seen : List String) :
    Holds d (Sound d) (structFields r scope env fields seen) fun sigs => ∀ f ∈ sigs, f.ty.Proper := by
  induction fields generalizing seen with
  | nil => exact holds_pure (by simp)
  | cons f rest ih =>
    rw [flatMap_cons, append_eq_nil_iff] at hfound
    unfold structFields
    split
    · exact (keeps_report _ _).bind fun _ => ih hfound.2 _
    · exact (holds_resolveType hr _ henv _ (by simp [hfound.1])).bind fun ty hty =>
        (ih hfound.2 _).bind fun sigs hsigs => holds_pure (forall_mem_cons.2 ⟨hty, hsigs⟩)

theorem holds_enumVariants (hr : r.Sound d) (scope : ModuleScope) (henv : env.Over []) {variants : List VariantDef}
    (hfound : (variants.flatMap fun v => TypeAnn.allFoundTypes v.fields) = []) (seen : List String) :
    Holds d (Sound d) (enumVariants r scope env variants seen) fun sigs =>
      (∀ v ∈ sigs, ∀ t ∈ v.payload, t.Proper) ∧ sigs.length ≤ variants.length := by
  induction variants generalizing seen with
  | nil => exact holds_pure (by simp)
  | cons v rest ih =>
    rw [flatMap_cons, append_eq_nil_iff] at hfound
    have hrest (payload : Option Ty) (hpayload : ∀ t ∈ payload, t.Proper) : Holds d (Sound d) (do
        return (⟨v.name, payload⟩ : VariantSig) :: (← enumVariants r scope env rest (v.name :: seen)))
        fun sigs => (∀ v ∈ sigs, ∀ t ∈ v.payload, t.Proper) ∧ sigs.length ≤ (v :: rest).length :=
      (ih hfound.2 _).bind fun sigs hsigs => holds_pure
        ⟨forall_mem_cons.2 ⟨hpayload, hsigs.1⟩, Nat.succ_le_succ hsigs.2⟩
    rw [enumVariants]
    by_cases hseen : seen.contains v.name
    · rw [if_pos hseen]
      exact (keeps_report _ _).bind fun _ => (ih hfound.2 _).imp fun _ h => ⟨h.1, Nat.le_succ_of_le h.2⟩
    · rw [if_neg hseen]
      refine Holds.when_bind (keeps_report _ _) ?_
      dsimp only
      split
      · exact hrest _ (by simp)
      · rename_i ann _ hfields
        have hann : ∀ t ∈ ann.foundTypes, t.Proper := by
          have := hfound.1
          rw [hfields] at this
          simp [(append_eq_nil_iff.1 this).1]
        exact ((holds_resolveType hr _ henv _ hann).bind fun ty hty =>
          holds_pure (R := fun payload : Option Ty => ∀ t ∈ payload, t.Proper) (by simpa using hty)).bind
            fun _ hpayload => hrest _ hpayload

/-- The struct or enum is one of the declared ones. -/
def Nominal.Of (d : Declarations) : Nominal → Prop
  | .struct s => ∃ name, d.structs.get? name = some s
  | .enum e => ∃ name, d.enums.get? name = some e

theorem of_nominal? {name : QualName} {n : Nominal} (h : d.nominal? name = some n) : n.Of d := by
  unfold Declarations.nominal? at h
  split at h
  · cases h
    exact ⟨name, ‹_›⟩
  · obtain ⟨e, he, rfl⟩ := map_eq_some_iff.1 h
    exact ⟨name, he⟩

theorem keeps_buildNominal (hd : d.Plain) (hr : r.Sound d) {n : Nominal} (hn : n.Of d)
    (name : QualName) (henv : env.Over []) {origin : Option Origin}
    (horigin : ∀ o ∈ origin, o.Sound) : Keeps d (Sound d) (buildNominal r n name env origin) := by
  cases n with
  | struct s =>
    obtain ⟨base, hs⟩ := hn
    exact (holds_structFields hr _ henv (hd.structs base s hs) _).bind fun _ hfields =>
      keeps_setStruct ⟨hfields, horigin⟩
  | enum e =>
    obtain ⟨base, he⟩ := hn
    exact (holds_enumVariants hr _ henv (hd.enums base e he) _).bind fun _ hvariants =>
      keeps_setEnum ⟨hvariants.1, fun i hi => ⟨base, e, he, Nat.lt_of_lt_of_le hi hvariants.2⟩, horigin⟩

theorem holds_instantiateType (hd : d.Plain) (hr : r.Sound d) (base : QualName)
    (hargs : ∀ t ∈ args, t.Settled) (site : Site) :
    Holds d (Sound d) (instantiateType r base args site) Ty.Proper := by
  refine holds_read_eq.bind fun _ hdecls => ?_
  obtain rfl := hdecls
  split
  · exact holds_pure trivial
  · rename_i nominal hnominal
    have hty (name : QualName) : (nominal.ty name).Proper := nominal.over_ty name
    dsimp only
    split
    · exact holds_reject _ _
    · split
      · exact holds_pure trivial
      · refine holds_get_sound.bind fun s hs => ?_
        split
        · exact (keeps_setPattern _ hargs).bind fun _ => holds_pure (hty _)
        · rename_i hmention
          have hproper : ∀ t ∈ args, t.Proper := fun t ht =>
            proper_of_mentionsParam (s := s) (hargs t ht)
              (by simpa using fun h => hmention (any_eq_true.2 ⟨t, ht, h⟩))
          split
          · exact holds_pure (hty _)
          · split
            · exact holds_reject _ _
            · have hbuilding (f : List QualName → List QualName) : Keeps d (Sound d)
                  (modify fun t => { t with building := f t.building } : Check Unit) :=
                keeps_modify fun _ h => { h with }
              refine (hbuilding (instanceName base nominal.params args :: ·)).bind fun _ => ?_
              refine (keeps_buildNominal hd hr (of_nominal? hnominal) _ (over_bindParams hproper)
                (by simpa [Origin.Sound] using hproper)).bind fun _ => ?_
              exact (hbuilding List.tail).bind fun _ => holds_pure (hty _)

end Names

/-- **Following names is sound.**  By induction on the depth. -/
theorem Resolver.sound_within (hd : d.Plain) (depth : Nat) : (Resolver.within depth).Sound d := by
  induction depth with
  | zero =>
    exact ⟨fun _ => holds_pure trivial, fun _ _ => holds_pure sound_failed, fun _ _ _ _ => holds_pure trivial⟩
  | succ depth ih =>
    exact ⟨holds_aliasType hd ih, holds_constValue hd ih,
      fun name _ site hargs => holds_instantiateType hd ih name hargs site⟩

theorem holds_resolver (hd : d.Plain) : Holds d (Sound d) resolver (·.Sound d) := fun _ hs =>
  ⟨hs, Resolver.sound_within hd _⟩

theorem holds_typeOf (hd : d.Plain) (scope : ModuleScope)
    (henv : env.Over params) {ann : TypeAnn} (hann : ∀ t ∈ ann.foundTypes, t.Proper) :
    Holds d (Sound d) (typeOf scope env ann) (·.Over params) :=
  (holds_resolver hd).bind fun _ hr => holds_resolveType hr scope henv ann hann

theorem holds_typesOf (hd : d.Plain) (scope : ModuleScope) (henv : env.Over params) {anns : List TypeAnn}
    (hanns : ∀ t ∈ TypeAnn.allFoundTypes anns, t.Proper) :
    Holds d (Sound d) (typesOf scope env anns) fun ts => ∀ t ∈ ts, t.Over params :=
  (holds_resolver hd).bind fun _ hr => holds_resolveTypes hr scope henv anns hanns

/-! ### Generic declarations -/

section Generic

theorem getD_eq (env : TypeEnv) (name : String) :
    env.getD name (.param name) = (env.get? name).getD (.param name) :=
  Std.TreeMap.getD_eq_getD_getElem?

variable {ty : Ty}

theorem holds_substituteWithin_settled {r : Resolver} (hr : r.Sound d) (henv : env.Over []) (site : Site) (n : Nat)
    (hty : ty.Settled) : Holds d (Sound d) (substituteWithin r env site n ty) Ty.Settled := by
  have hparam (name : String) : (env.getD name (.param name)).Settled := by
    rw [getD_eq]
    rcases h : env.get? name with _ | t
    · trivial
    · exact (henv name t h).settled
  induction n generalizing ty with
  | zero =>
    cases ty with
    | param name => exact holds_pure (hparam name)
    | _ => exact holds_pure hty
  | succ n ih =>
    cases ty with
    | param name => exact holds_pure (hparam name)
    | list t => exact (ih (show t.Settled from hty)).bind fun _ ht => holds_pure ht
    | struct name | enum name =>
      refine holds_get_sound.bind fun s hs => ?_
      split
      · exact holds_pure trivial
      · exact (holds_mapM fun t ht => ih (hs.patterns _ _ ‹_› t ht)).bind fun args hargs =>
          (hr.instantiate _ _ _ hargs).imp fun _ h => h.settled
    | _ => exact holds_pure hty

theorem holds_substituteWithin {r : Resolver} (hr : r.Sound d) (henv : env.Over []) {ps : List String}
    (hparams : ∀ name ∈ params, (env.getD name (.param name)).Over ps) (site : Site) {n : Nat}
    (hty : ty.Over params) (hn : ty.weight < n) :
    Holds d (Sound d) (substituteWithin r env site n ty) (·.Over ps) := by
  induction n generalizing ty with
  | zero => cases hn
  | succ n ih =>
    cases ty with
    | param name => exact holds_pure (hparams name hty)
    | list t => exact (ih (show t.Over params from hty) (Nat.lt_of_succ_lt_succ hn)).bind fun _ ht => holds_pure ht
    | struct name | enum name =>
      refine holds_get_sound.bind fun s hs => ?_
      split
      · exact holds_pure trivial
      · exact (holds_mapM fun t ht => holds_substituteWithin_settled hr henv site n
          (hs.patterns _ _ ‹_› t ht)).bind fun args hargs =>
            (hr.instantiate _ _ _ hargs).imp fun _ h => h.over
    | untyped => exact absurd hty id
    | range => exact holds_pure hty
    | _ => exact holds_pure trivial

theorem holds_substitute (hd : d.Plain) (henv : env.Over []) (site : Site) (hty : ty.Over params) :
    Holds d (Sound d) (substitute env site ty) (·.Over params) := by
  refine (holds_resolver hd).bind fun r hr =>
    holds_substituteWithin hr henv (fun name hname => ?_) site hty (Nat.lt_succ_self _)
  rw [getD_eq]
  rcases h : env.get? name with _ | t
  · exact hname
  · exact Ty.Proper.over (henv name t h)

/-- Where all parameters are bound a pattern becomes a proper type. -/
theorem holds_substitute_proper (hd : d.Plain) (henv : env.Over [])
    (hbound : ∀ name ∈ params, (env.get? name).isSome) (site : Site) (hty : ty.Over params) :
    Holds d (Sound d) (substitute env site ty) Ty.Proper := by
  refine (holds_resolver hd).bind fun r hr =>
    holds_substituteWithin hr henv (fun name hname => ?_) site hty (Nat.lt_succ_self _)
  obtain ⟨t, ht⟩ := isSome_iff_exists.1 (hbound name hname)
  rw [getD_eq, ht]
  exact henv name t ht

end Generic

section Bindings

variable {b : Bindings}

def Bindings.Sound (b : Bindings) : Prop := b.types.Over []

theorem Bindings.Sound.bind (h : b.Sound) (name : String) {t : Ty} (ht : t.Proper) : (b.bind name t).Sound := by
  unfold Bindings.bind
  split
  · exact h
  · exact forall_get?_insert h ht

theorem Bindings.sound_empty : Bindings.Sound {} := TypeEnv.over_empty

theorem Bindings.Sound.withDefaults (h : b.Sound) (params : List String) : (b.withDefaults params).Sound := by
  unfold Bindings.withDefaults
  generalize params.filter b.untyped.contains = names
  induction names generalizing b with
  | nil => exact h
  | cons name rest ih => exact ih (h.bind name trivial)

theorem Bindings.of_resolve {types : List Ty} (h : b.resolve params = .ok types) :
    (∀ t ∈ types, ∃ name, b.types.get? name = some t) ∧ ∀ name ∈ params, (b.types.get? name).isSome := by
  induction params generalizing types with
  | nil =>
    cases h
    simp
  | cons name rest ih =>
    unfold Bindings.resolve at h
    split at h
    · cases h
    · rename_i t ht
      split at h
      · rename_i ts hts
        cases h
        obtain ⟨htypes, hbound⟩ := ih hts
        exact ⟨forall_mem_cons.2 ⟨⟨name, ht⟩, htypes⟩, forall_mem_cons.2 ⟨by rw [ht]; rfl, hbound⟩⟩
      · cases h

theorem Bindings.Sound.proper_of_resolve (hb : b.Sound) {types : List Ty}
    (h : b.resolve params = .ok types) : ∀ t ∈ types, t.Proper := fun t ht =>
  have ⟨name, hname⟩ := (Bindings.of_resolve h).1 t ht
  hb name t hname

variable {s : State} {actual : Ty}

theorem proper_instanceArgs (hs : Sound d s) {base name : QualName}
    (h : instanceArgs s.signatures base name = some args) : ∀ t ∈ args, t.Proper := by
  have hmatch (origin : Option Origin) (horigin : ∀ o ∈ origin, o.Sound) {args : List Ty}
      (h : (origin.bind fun o => if o.base == base then some o.args else none) = some args) :
      ∀ t ∈ args, t.Proper := by
    obtain ⟨o, ho, hargs⟩ := bind_eq_some_iff.1 h
    split at hargs
    · cases hargs
      exact horigin o ho
    · cases hargs
  unfold instanceArgs at h
  dsimp only at h
  split at h
  · rename_i hstruct
    cases h
    obtain ⟨sig, hsig, hargs⟩ := bind_eq_some_iff.1 hstruct
    exact hmatch _ (hs.structs _ _ hsig).origin hargs
  · obtain ⟨sig, hsig, hargs⟩ := bind_eq_some_iff.1 h
    exact hmatch _ (hs.enums _ _ hsig).origin hargs

theorem proper_matchingArgs (hs : Sound d s) {pattern actual : QualName} :
    ∀ p ∈ matchingArgs s pattern actual, p.2.Proper := by
  intro p hp
  unfold matchingArgs at hp
  split at hp
  · cases hp
  · have hmem := (of_mem_zip hp).2
    rcases hargs : instanceArgs s.signatures _ actual with _ | args
    · rw [hargs] at hmem
      cases hmem
    · rw [hargs] at hmem
      exact proper_instanceArgs hs hargs p.2 hmem

theorem sound_unifyWithin_param (n : Nat) (name : String) (hactual : actual.Known) (hb : b.Sound) :
    (unifyWithin s n (.param name) actual b).Sound := by
  cases n <;> cases actual with
  | untyped | error => exact hb
  | _ => exact hb.bind name (hactual.proper rfl)

/-- Matching binds parameters to parts of proper types. -/
theorem sound_unifyWithin (hs : Sound d s) (n : Nat) {pattern : Ty} (hactual : actual.Known) (hb : b.Sound) :
    (unifyWithin s n pattern actual b).Sound := by
  induction n generalizing pattern actual b with
  | zero =>
    cases pattern with
    | param name => exact sound_unifyWithin_param 0 name hactual hb
    | _ => exact hb
  | succ n ih =>
    have hfold (l : List (Ty × Ty)) (hl : ∀ p ∈ l, p.2.Proper) {b : Bindings} (hb : b.Sound) :
        (l.foldl (fun b q => unifyWithin s n q.1 q.2 b) b).Sound := by
      induction l generalizing b with
      | nil => exact hb
      | cons p rest ihl =>
        obtain ⟨hp, hrest⟩ := forall_mem_cons.1 hl
        exact ihl hrest (ih hp.known hb)
    cases pattern with
    | param name => exact sound_unifyWithin_param (n + 1) name hactual hb
    | list p =>
      cases actual with
      | list a =>
        have ha : a.Known := Ty.Proper.known (hactual.proper rfl)
        have hparts : (unifyWithin s n p a b).Sound := ih ha hb
        exact hparts
      | _ => exact hb
    | struct p =>
      cases actual with
      | struct a => exact hfold _ (proper_matchingArgs hs) hb
      | _ => exact hb
    | enum p =>
      cases actual with
      | enum a => exact hfold _ (proper_matchingArgs hs) hb
      | _ => exact hb
    | _ => cases actual <;> exact hb

theorem holds_unify (pattern : Ty) (hactual : actual.Known) (hb : b.Sound) :
    Holds d (Sound d) (unify pattern actual b) Bindings.Sound :=
  holds_get_sound.bind fun _ hs => holds_pure (sound_unifyWithin hs _ hactual hb)

end Bindings

end Environments

/-! ### Functions -/

theorem allFoundTypes_params (params : List ParamDef) :
    TypeAnn.allFoundTypes (params.map (·.ty)) = params.flatMap (·.ty.foundTypes) := by
  induction params with
  | nil => rfl
  | cons p rest ih => rw [map_cons, TypeAnn.allFoundTypes, ih, flatMap_cons]

variable (name : QualName)

theorem holds_function? : Holds d (Sound d) (function? name) fun r => ∀ g ∈ r, g.Sound :=
  fun _ hs => ⟨hs, hs.functions name⟩

theorem holds_signature? : Holds d (Sound d) (signature? name) fun r => ∀ sig ∈ r, sig.Sound :=
  fun _ hs => ⟨hs, hs.signatures name⟩

theorem holds_struct? : Holds d (Sound d) (struct? name) fun r => ∀ sig ∈ r, sig.Sound :=
  fun _ hs => ⟨hs, hs.structs name⟩

theorem holds_enum? : Holds d (Sound d) (enum? name) fun r => ∀ sig ∈ r, EnumSig.Sound d sig :=
  fun _ hs => ⟨hs, hs.enums name⟩

section Functions

variable {g : FunctionDecl}

theorem FunctionDecl.Sound.env (h : g.Sound) : g.env.Over [] := by
  unfold FunctionDecl.env
  split
  · rename_i ty hty
    exact over_bindParams (by simpa using h.selfType ty hty)
  · exact TypeEnv.over_empty

theorem FunctionDecl.Sound.params (h : g.Sound) :
    ∀ t ∈ g.decl.params.flatMap (·.ty.foundTypes), t.Proper := fun t ht =>
  h.found t (mem_append_left _ ht)

theorem FunctionDecl.Sound.ret (h : g.Sound) : ∀ t ∈ TypeAnn.optFoundTypes g.decl.ret, t.Proper := fun t ht =>
  h.found t (mem_append_right _ (mem_append_left _ ht))

theorem FunctionDecl.Sound.body (h : g.Sound) : ∀ t ∈ g.decl.body.foundTypes, t.Proper := fun t ht =>
  h.found t (mem_append_right _ (mem_append_right _ ht))

theorem holds_functionParams (hd : d.Plain) (scope : ModuleScope) {env : TypeEnv} (henv : env.Over [])
    {params : List ParamDef} (hfound : ∀ t ∈ params.flatMap (·.ty.foundTypes), t.Proper) (seen : List String) :
    Holds d (Sound d) (functionParams scope env params seen) fun sigs => ∀ p ∈ sigs, p.ty.Proper := by
  induction params generalizing seen with
  | nil => exact holds_pure (by simp)
  | cons p rest ih =>
    rw [flatMap_cons, forall_mem_append] at hfound
    unfold functionParams
    refine Holds.when_bind (keeps_report _ _) ?_
    refine (holds_typeOf hd _ henv hfound.1).bind fun ty hty => ?_
    exact (ih hfound.2 _).bind fun sigs hsigs => holds_pure (forall_mem_cons.2 ⟨hty, hsigs⟩)

theorem holds_returnTypeOf (hd : d.Plain) (scope : ModuleScope) {params : List String} {env : TypeEnv}
    (henv : env.Over params) {ret : Option TypeAnn} (hret : ∀ t ∈ TypeAnn.optFoundTypes ret, t.Proper) :
    Holds d (Sound d) (returnTypeOf scope env ret) (·.Over params) := by
  cases ret with
  | none => exact holds_pure trivial
  | some ann => exact holds_typeOf hd scope henv hret

theorem keeps_buildFunction (hd : d.Plain) (name : QualName) : Keeps d (Sound d) (buildFunction name) := by
  refine (holds_function? name).bind fun f hf => ?_
  split
  · exact keeps_pure
  · have hg := hf _ rfl
    exact (holds_functionParams hd _ hg.env hg.params []).bind fun _ hparams =>
      (holds_returnTypeOf hd _ hg.env hg.ret).bind fun _ hret => keeps_setSignature ⟨hparams, hret⟩

theorem FunctionDecl.Sound.instance (hg : g.Sound) (hgeneric : g.decl.typeParams ≠ []) {args : List Ty}
    (hargs : ∀ t ∈ args, t.Proper) (name : String) (n : Nat) : FunctionDecl.Sound
      ⟨⟨g.scope, (g.decl.instance name (bindParams g.decl.typeParams args) n).1⟩, none⟩ := by
  obtain ⟨hcopied, -, -, hplain⟩ :=
    g.decl.copied_instance name (bindParams g.decl.typeParams args) n
  refine ⟨fun t ht => ?_, fun h => absurd hplain h, by simp⟩
  obtain ⟨param, hparam⟩ := hcopied.found (hg.generic hgeneric) t ht
  exact hargs t (mem_of_get?_bindParams hparam)

theorem keeps_instantiateFunction (hd : d.Plain) (base : QualName) (hg : g.Sound)
    (hgeneric : g.decl.typeParams ≠ []) {args : List Ty} (hargs : ∀ t ∈ args, t.Proper) (depth : Nat)
    (site : Site) : Keeps d (Sound d) (instantiateFunction base g args depth site) := by
  have hnumbered (name : String) : Holds d (Sound d)
      (numbered (g.decl.instance name (bindParams g.decl.typeParams args)))
      fun decl => FunctionDecl.Sound ⟨⟨g.scope, decl⟩, none⟩ := fun s hs =>
    ⟨{ hs with }, hg.instance hgeneric hargs name s.nextId⟩
  have hpending (name : QualName) : Keeps d (Sound d)
      (modify fun s => { s with pending := name :: s.pending } : Check Unit) :=
    keeps_modify fun _ hs => { hs with }
  unfold instantiateFunction
  dsimp only
  refine (holds_signature? _).bind fun sig _ => ?_
  split
  · exact keeps_pure
  · split
    · exact (keeps_report _ _).bind fun _ => keeps_pure
    · exact (hnumbered _).bind fun decl hdecl => (keeps_setFunction _ hdecl).bind fun _ =>
        (keeps_buildFunction hd _).bind fun _ => (hpending _).bind fun _ => keeps_pure

end Functions

/-! ### Before the bodies -/

section Signatures

theorem keeps_collectSignatures (hd : d.Plain) : Keeps d (Sound d) collectSignatures := by
  refine (holds_resolver hd).bind fun r hr => holds_read_eq.bind fun _ hdecls => ?_
  obtain rfl := hdecls
  refine (keeps_forIn fun entry hentry _ => ?_).bind fun _ => ?_
  · have hof : Nominal.Of d (.struct entry.2) :=
      ⟨entry.1, Std.TreeMap.mem_toList_iff_getElem?_eq_some.1 hentry⟩
    exact Holds.when_bind (keeps_buildNominal hd hr hof _ TypeEnv.over_empty (by simp)) keeps_pure
  refine (keeps_forIn fun entry hentry _ => ?_).bind fun _ => ?_
  · have hof : Nominal.Of d (.enum entry.2) :=
      ⟨entry.1, Std.TreeMap.mem_toList_iff_getElem?_eq_some.1 hentry⟩
    exact Holds.when_bind (keeps_buildNominal hd hr hof _ TypeEnv.over_empty (by simp)) keeps_pure
  refine keeps_get.bind fun s => (keeps_forIn fun entry _ _ => ?_).bind fun _ => keeps_pure
  exact Holds.when_bind (keeps_buildFunction hd _) keeps_pure

theorem keeps_isInstance {I : State → Prop} (name : QualName) : Keeps d I (isInstance name) := by
  refine Keeps.bind (keeps_get.bind fun _ => keeps_pure) fun sig => ?_
  cases sig with
  | some sig => exact keeps_pure
  | none => exact keeps_get.bind fun _ => keeps_pure

theorem holds_implOwner? {I : State → Prop} (hreport : ∀ site problem, Keeps d I (report site problem))
    (scope : ModuleScope) (site : Site) (target : Ty) : Holds d I (implOwner? scope site target) fun o => ∀ text ∈ o,
      ∃ owner : QualName, (target = .struct owner ∨ target = .enum owner) ∧ owner.module = scope.path ∧
        owner.name = text := by
  have hnone {P : Option String → Prop} (problem : Problem) (h : P none) : Holds d I (do
      report site problem
      return none) P := (hreport _ _).bind fun _ => holds_pure h
  have howner (owner : QualName) (h : target = .struct owner ∨ target = .enum owner) : Holds d I
      (if owner.module ≠ scope.path then do
        report site (.implTarget target)
        return none
      else do
        if ← isInstance owner then
          report site .implOnInstance
          return none
        return some owner.name) fun o => ∀ text ∈ o,
      ∃ owner : QualName, (target = .struct owner ∨ target = .enum owner) ∧ owner.module = scope.path ∧
        owner.name = text := by
    split
    · exact hnone _ (by simp)
    · rename_i hmodule
      refine (keeps_isInstance owner).bind fun isInst => ?_
      split
      · exact hnone _ (by simp)
      · refine holds_pure ?_
        rintro text ⟨⟩
        exact ⟨owner, h, not_not.1 hmodule, rfl⟩
  cases target with
  | error => exact holds_pure (by simp)
  | struct name => exact howner name (.inl rfl)
  | enum name => exact howner name (.inr rfl)
  | _ => exact hnone _ (by simp)

theorem keeps_declareMethods (hd : d.Plain) (scope : ModuleScope) (owner : String) {target : Ty}
    (htarget : target.Proper) {methods : List FunctionDef} (hfound : methods.flatMap FunctionDef.foundTypes = []) :
    Keeps d (Sound d) (declareMethods scope owner target methods) := by
  induction methods with
  | nil => exact keeps_pure
  | cons method rest ih =>
    rw [flatMap_cons, append_eq_nil_iff] at hfound
    have hrest := ih hfound.2
    have hmethod : FunctionDecl.Sound ⟨⟨scope, method⟩, some target⟩ :=
      ⟨by simp [hfound.1], fun _ => hfound.1, by simpa using htarget⟩
    unfold declareMethods
    extract_lets site name
    split
    · exact (keeps_report _ _).bind fun _ => hrest
    · refine (holds_function? name).bind fun _ _ => ?_
      split
      · exact (keeps_report _ _).bind fun _ => hrest
      · exact (keeps_setFunction name hmethod).bind fun _ => (keeps_buildFunction hd name).bind fun _ =>
          hrest.bind fun _ => keeps_pure

theorem keeps_checkRequired (hd : d.Plain) (scope : ModuleScope) (span : Span) (owner : String)
    {name : QualName} {t : Declared TraitDef} (ht : d.traits.get? name = some t) {env : TypeEnv}
    (henv : env.Over []) {m : MethodSpec} (hm : m ∈ t.decl.methods) :
    Keeps d (Sound d) (checkRequired scope span owner t env m) := by
  have hfound := flatMap_eq_nil_iff.1 (hd.traits name t ht) m hm
  rw [append_eq_nil_iff] at hfound
  have hparams : ∀ t ∈ TypeAnn.allFoundTypes (m.params.map (·.ty)), t.Proper := by
    simp [allFoundTypes_params, hfound.1]
  refine (holds_signature? _).bind fun actual _ => ?_
  split
  · exact keeps_report _ _
  · refine (holds_typesOf hd _ henv hparams).bind fun _ _ =>
      (holds_returnTypeOf hd _ henv (by simp [hfound.2])).bind fun _ _ => ?_
    split
    · exact keeps_report _ _
    · exact keeps_pure

theorem keeps_checkTraitImpl (hd : d.Plain) (scope : ModuleScope) (span : Span)
    (traitExpr : TypeExpr) {target : Ty} (htarget : target.Proper) (owner : String) (methods : List FunctionDef) :
    Keeps d (Sound d) (checkTraitImpl scope span traitExpr target owner methods) := by
  unfold checkTraitImpl
  split
  · refine (keeps_lookup _ _ _ _).bind fun _ => (keeps_found? _ _ _ _).bind fun name =>
      holds_read_eq.bind fun _ hdecls => ?_
    obtain rfl := hdecls
    split
    · exact keeps_pure
    · rename_i t ht
      obtain ⟨name, -, ht⟩ := bind_eq_some_iff.1 ht
      refine (keeps_forM fun m hm => keeps_checkRequired hd _ _ _ ht
        (over_bindParams (by simpa using htarget)) hm).bind fun _ => ?_
      refine (keeps_forIn fun _ _ _ => ?_).bind fun _ => keeps_pure
      exact Holds.when_bind (keeps_report _ _) keeps_pure
  · exact keeps_report _ _

theorem keeps_checkImpl (hd : d.Plain) {block : Declared ImplBlock}
    (hfound : (Item.impl block.decl).foundTypes = []) : Keeps d (Sound d) (checkImpl block) := by
  rw [Item.foundTypes, append_eq_nil_iff] at hfound
  refine (holds_typeOf hd _ TypeEnv.proper_empty (by simp [hfound.1])).bind
    fun target htarget => (holds_implOwner? keeps_report _ _ _).bind fun owner _ => ?_
  split
  · exact keeps_pure
  · refine (keeps_declareMethods hd _ _ htarget hfound.2).bind fun methods => ?_
    split
    · exact keeps_pure
    · exact keeps_checkTraitImpl hd _ _ _ htarget _ _

theorem keeps_checkSignatures (hd : d.Plain) {impls : List (Declared ImplBlock)}
    (hfound : ∀ block ∈ impls, (Item.impl block.decl).foundTypes = []) :
    Keeps d (Sound d) (checkSignatures impls) :=
  (keeps_collectSignatures hd).bind fun _ => keeps_forM fun block hblock =>
    keeps_checkImpl hd (hfound block hblock)

theorem keeps_checkConsts (hd : d.Plain) : Keeps d (Sound d) checkConsts := by
  refine (holds_resolver hd).bind fun r hr => holds_read_eq.bind fun _ _ => ?_
  exact (keeps_forIn fun _ _ _ => (hr.const _ _).bind fun _ _ => keeps_pure).bind fun _ => keeps_pure

variable {files : List SourceFile} {p : CheckedProgram}

theorem Makes.plain {c : Collected} {n : Nat} (h : Makes files p c n) : c.decls.Plain where
  structs name s hs := flatMap_eq_nil_iff.1 h.found _ (h.of.structs name s hs)
  enums name e he := flatMap_eq_nil_iff.1 h.found _ (h.of.enums name e he)
  aliases name a ha := flatMap_eq_nil_iff.1 h.found _ (h.of.aliases name a ha)
  consts name k hk := flatMap_eq_nil_iff.1 h.found _ (h.of.consts name k hk)
  traits name t ht := flatMap_eq_nil_iff.1 h.found _ (h.of.traits name t ht)

theorem Makes.sound {c : Collected} {n : Nat} (h : Makes files p c n) : Sound c.decls (c.afterConsts n) := by
  have hstart : Sound c.decls (c.start n) := by
    refine ⟨fun name g hg => ?_, ?_, ?_, ?_, ?_, ?_, ?_, ?_, ?_, ?_⟩
    · obtain ⟨hitem, hself⟩ := h.of.functions name g hg
      have hfound : g.decl.foundTypes = [] := flatMap_eq_nil_iff.1 h.found _ hitem
      exact ⟨by simp [hfound], fun _ => hfound, by simp [hself]⟩
    all_goals simp [Collected.start]
  have himpls : ∀ block ∈ c.impls.reverse, (Item.impl block.decl).foundTypes = [] := fun block hb =>
    flatMap_eq_nil_iff.1 h.found _ (h.of.impls block (mem_reverse.1 hb))
  have hsigned : Sound c.decls (c.afterSignatures n) := by
    rw [Collected.afterSignatures]
    exact (keeps_checkSignatures h.plain himpls _ hstart).1
  rw [Collected.afterConsts]
  exact (keeps_checkConsts h.plain _ hsigned).1

end Signatures

end Typing
end Keel
