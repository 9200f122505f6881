/-
# What stands behind a name

Written types and constant expressions are followed along their syntax; what they need
to know of a name they ask of the resolver, and of nothing else.  `Asks` says so once,
of two resolvers side by side: the two computations are made of the same steps, and
differ only in whom they ask.  What holds of such computations is then shown by
induction on these steps, and no longer on the syntax.  `Peeks` is for the rules that
look at the state besides, and do not write to it themselves.
-/
import Keel.Proofs.Typing.Runs

namespace Keel.Typing

open Typing

variable {α β : Type} {d : Declarations} {r r' : Resolver}

/-- The same steps, taken with one resolver and with another.  Declarations are read and
problems reported, but the state is left to the resolver. -/
inductive Asks (d : Declarations) (r r' : Resolver) : {α : Type} → Check α → Check α → Prop
  | pure {α : Type} (a : α) : Asks d r r' (pure a) (pure a)
  | bind {α β : Type} {m m' : Check α} {k k' : α → Check β} :
    Asks d r r' m m' → (∀ a, Asks d r r' (k a) (k' a)) → Asks d r r' (m >>= k) (m' >>= k')
  | read {α : Type} {k k' : Declarations → Check α} :
    Asks d r r' (k d) (k' d) → Asks d r r' (read >>= k) (read >>= k')
  | report (site : Site) (problem : Problem) : Asks d r r' (report site problem) (report site problem)
  | typeAlias (name : QualName) :
    d.aliases.contains name → Asks d r r' (r.typeAlias name) (r'.typeAlias name)
  | const (name : QualName) (site : Option Site) : Asks d r r' (r.const name site) (r'.const name site)
  | instantiate (base : QualName) (args : List Ty) (site : Site) :
    Asks d r r' (r.instantiate base args site) (r'.instantiate base args site)

namespace Asks

theorem when_bind {p : Prop} [Decidable p] {m m' : Check Unit} {k k' : Unit → Check β}
    (hm : Asks d r r' m m') (hk : Asks d r r' (k ()) (k' ())) :
    Asks d r r' (if p then m >>= k else k ()) (if p then m' >>= k' else k' ()) := by
  split
  · exact hm.bind fun _ => hk
  · exact hk

theorem reject (site : Site) (problem : Problem) :
    Asks d r r' (reject site problem) (reject site problem) :=
  (report site problem).bind fun _ => pure _

theorem lookup (scope : ModuleScope) (path : List String) (space : Namespace) (withPrelude : Bool) :
    Asks d r r' (lookup scope path space withPrelude)
      (lookup scope path space withPrelude) := read (pure _)

theorem found? (site : Site) (kind : NameKind) (written : String) (l : Lookup) :
    Asks d r r' (found? site kind written l) (found? site kind written l) := by
  cases l with
  | found name => exact pure _
  | hidden name | unknownModule module | missing => exact (report _ _).bind fun _ => pure _

theorem conclude (site : Site) (outcome : Outcome) :
    Asks d r r' (Typing.conclude site outcome) (Typing.conclude site outcome) := by
  unfold Typing.conclude
  cases outcome.problem with
  | some problem => exact (report _ _).bind fun _ => pure _
  | none => exact pure _

theorem failConst (site : Site) (problem : Problem) :
    Asks d r r' (failConst site problem) (failConst site problem) := conclude _ _

end Asks

/-! ### Types and constant expressions -/

theorem asks_nominalType (name : QualName) (args : List Ty) (site : Site) :
    Asks d r r' (nominalType r name args site) (nominalType r' name args site) := by
  refine .read ?_
  split
  · rename_i halias
    split
    · exact (Asks.reject _ _).bind fun _ => .pure _
    · exact .typeAlias name halias
  · split
    · exact .pure _
    · split
      · exact .pure _
      · exact .reject _ _
      · exact .reject _ _
      · exact .instantiate _ _ _

theorem asks_rangeType (site : Site) (base : IntKind) (low high : ConstValue) :
    Asks d r r' (rangeType site base low high) (rangeType site base low high) := by
  unfold rangeType
  split
  · split
    · exact .reject _ _
    · exact .pure _
  · exact .pure _

mutual

theorem asks_resolveType (scope : ModuleScope) (env : TypeEnv) :
    ∀ ann : TypeAnn, Asks d r r' (resolveType r scope env ann) (resolveType r' scope env ann)
  | ⟨.unit, _⟩ | ⟨.resolved _, _⟩ => .pure _
  | ⟨.range base low high, span⟩ => by
    rw [resolveType, resolveType]
    refine (asks_resolveType scope env base).bind fun ty => ?_
    split
    · exact (asks_evalConst scope low _).bind fun _ =>
        (asks_evalConst scope high _).bind fun _ => asks_rangeType _ _ _ _
    · exact .pure _
    · exact .reject _ _
  | ⟨.named path args, span⟩ => by
    rw [resolveType, resolveType]
    split
    · exact .pure _
    · dsimp only
      split
      · exact asks_listType scope env _ args
      · exact (asks_resolveTypes scope env args).bind fun _ =>
          (Asks.lookup _ _ _ _).bind fun _ => (Asks.found? _ _ _ _).bind fun name => by
            cases name
            · exact .pure _
            · exact asks_nominalType _ _ _

theorem asks_listType (scope : ModuleScope) (env : TypeEnv) (site : Site) : ∀ anns : List TypeAnn,
      Asks d r r' (listType r scope env site anns) (listType r' scope env site anns)
  | [] => .reject _ _
  | [arg] => (asks_resolveType scope env arg).bind fun _ => .pure _
  | _ :: _ :: _ => .reject _ _

theorem asks_resolveTypes (scope : ModuleScope) (env : TypeEnv) : ∀ anns : List TypeAnn,
      Asks d r r' (resolveTypes r scope env anns) (resolveTypes r' scope env anns)
  | [] => .pure _
  | arg :: rest =>
    (asks_resolveType scope env arg).bind fun _ =>
      (asks_resolveTypes scope env rest).bind fun _ => .pure _

theorem asks_evalConst (scope : ModuleScope) : ∀ (e : Expr) (expected : Option Ty),
      Asks d r r' (evalConst r scope e expected) (evalConst r' scope e expected)
  | ⟨_, .literal (.int value), span⟩, expected => .conclude _ _
  | ⟨_, .literal (.bool value), _⟩, _ | ⟨_, .literal (.str value), _⟩, _ => .pure _
  | ⟨_, .path path, span⟩, _ =>
    (Asks.lookup _ _ _ _).bind fun _ => (Asks.found? _ _ _ _).bind fun name => by
      cases name
      · exact .pure _
      · exact .const _ _
  | ⟨_, .unary .not operand, span⟩, _ | ⟨_, .unary .neg operand, span⟩, _ | ⟨_, .unary .bitNot operand, span⟩, _ =>
    (asks_evalConst scope operand _).bind fun _ => .conclude _ _
  | ⟨_, .binary (.logic op) left right, span⟩, _ => by
    rw [evalConst, evalConst]
    refine (asks_evalConst scope left _).bind fun l => ?_
    split
    · exact .pure _
    · split
      · exact .pure _
      · refine (asks_evalConst scope right _).bind fun b => ?_
        split
        · exact .pure _
        · exact .pure _
        · exact .failConst _ _
    · exact .failConst _ _
  | ⟨_, .binary (.compare op) left right, span⟩, _ | ⟨_, .binary (.arith op) left right, span⟩, _ =>
    (asks_evalConst scope left _).bind fun _ =>
      (asks_evalConst scope right _).bind fun _ => .conclude _ _
  | ⟨_, .cast operand ty, span⟩, _ =>
    (asks_resolveType scope ∅ ty).bind fun _ =>
      (asks_evalConst scope operand _).bind fun _ => .conclude _ _
  | ⟨_, .cond choice, _⟩, expected => asks_evalConditional scope choice expected
  | ⟨_, .block body, _⟩, expected => asks_evalBlock scope body expected
  | ⟨_, .call _ _, span⟩, _ | ⟨_, .member _ _ _, span⟩, _ | ⟨_, .record _ _, span⟩, _ | ⟨_, .select _ _, span⟩, _ =>
    .failConst _ _

theorem asks_evalBlock (scope : ModuleScope) : ∀ (b : Block) (expected : Option Ty),
      Asks d r r' (evalBlock r scope b expected) (evalBlock r' scope b expected)
  | ⟨[], some tail, _⟩, expected => asks_evalConst scope tail expected
  | ⟨[], none, _⟩, _ | ⟨_ :: _, _, _⟩, _ => .failConst _ _

theorem asks_evalConditional (scope : ModuleScope) : ∀ (c : Conditional) (expected : Option Ty),
      Asks d r r' (evalConditional r scope c expected) (evalConditional r' scope c expected)
  | ⟨condition, thenBlock, otherwise, span⟩, expected => by
    rw [evalConditional, evalConditional]
    refine (asks_evalConst scope condition _).bind fun c => ?_
    split
    · exact .pure _
    · exact asks_evalBlock scope thenBlock expected
    · exact asks_evalElse scope span otherwise expected
    · exact .failConst _ _

theorem asks_evalElse (scope : ModuleScope) (span : Span) : ∀ (o : ElseBranch) (expected : Option Ty),
      Asks d r r' (evalElse r scope span o expected) (evalElse r' scope span o expected)
  | .absent, _ => .failConst _ _
  | .block body, expected => asks_evalBlock scope body expected
  | .elseIf choice, expected => asks_evalConditional scope choice expected

end

/-! ### Declarations -/

theorem asks_evalDeclared (c : Declared ConstDef) : Asks d r r' (evalDeclared r c) (evalDeclared r' c) := by
  unfold evalDeclared
  dsimp only
  split
  · refine (asks_resolveType _ _ _).bind fun declared => ?_
    refine (asks_evalConst _ _ _).bind fun actual => ?_
    split
    · exact .pure _
    · exact .conclude _ _
  · refine (asks_evalConst _ _ _).bind fun actual => ?_
    split
    · exact .pure _
    · exact .conclude _ _

theorem asks_structFields (scope : ModuleScope) (env : TypeEnv) (fields : List FieldDef) (seen : List String) :
    Asks d r r' (structFields r scope env fields seen) (structFields r' scope env fields seen) := by
  induction fields generalizing seen with
  | nil => exact .pure _
  | cons f rest ih =>
    rw [structFields, structFields]
    split
    · exact (Asks.report _ _).bind fun _ => ih _
    · exact (asks_resolveType _ _ _).bind fun _ => (ih _).bind fun _ => .pure _

theorem asks_enumVariants (scope : ModuleScope) (env : TypeEnv) (variants : List VariantDef) (seen : List String) :
    Asks d r r' (enumVariants r scope env variants seen) (enumVariants r' scope env variants seen) := by
  induction variants generalizing seen with
  | nil => exact .pure _
  | cons v rest ih =>
    have hrest (payload : Option Ty) : Asks d r r'
        (do return (⟨v.name, payload⟩ : VariantSig) :: (← enumVariants r scope env rest (v.name :: seen)))
        (do return (⟨v.name, payload⟩ : VariantSig) ::
          (← enumVariants r' scope env rest (v.name :: seen))) :=
      (ih _).bind fun _ => .pure _
    rw [enumVariants, enumVariants]
    by_cases hseen : seen.contains v.name
    · rw [if_pos hseen, if_pos hseen]
      exact (Asks.report _ _).bind fun _ => ih _
    · rw [if_neg hseen, if_neg hseen]
      refine (Asks.report _ _).when_bind ?_
      dsimp only
      split
      · exact hrest _
      · exact ((asks_resolveType _ _ _).bind fun _ => .pure _).bind fun _ => hrest _

/-! ### Looking at the state -/

/-- The resolver that the rules for these declarations ask. -/
abbrev Declarations.resolver (d : Declarations) : Resolver := Resolver.within d.depth

/-- The state is looked at, and otherwise only the resolver is asked. -/
inductive Peeks (d : Declarations) : {α : Type} → Check α → Prop
  | pure {α : Type} (a : α) : Peeks d (pure a)
  | bind {α β : Type} {m : Check α} {k : α → Check β} :
    Peeks d m → (∀ a, Peeks d (k a)) → Peeks d (m >>= k)
  | look {α : Type} {k : State → Check α} : (∀ s, Peeks d (k s)) → Peeks d (get >>= k)
  | read {α : Type} {k : Declarations → Check α} : Peeks d (k d) → Peeks d (read >>= k)
  | ask {α : Type} {c : Check α} :
    Asks d (Resolver.within d.depth) (Resolver.within d.depth) c c → Peeks d c

namespace Peeks

theorem report (site : Site) (problem : Problem) : Peeks d (Typing.report site problem) := .ask (.report _ _)

theorem reject (site : Site) (problem : Problem) : Peeks d (reject site problem) := .ask (.reject _ _)

theorem lookup (scope : ModuleScope) (path : List String) (space : Namespace) (withPrelude : Bool) :
    Peeks d (lookup scope path space withPrelude) := .ask (.lookup _ _ _ _)

theorem found? (site : Site) (kind : NameKind) (written : String) (l : Lookup) :
    Peeks d (found? site kind written l) := .ask (.found? _ _ _ _)

theorem struct? (name : QualName) : Peeks d (struct? name) := .look fun _ => .pure _

theorem enum? (name : QualName) : Peeks d (enum? name) := .look fun _ => .pure _

theorem resolver {k : Resolver → Check α} (h : Peeks d (k d.resolver)) :
    Peeks d (resolver >>= k) := .read (k := fun d => k d.resolver) h

theorem typeOf (scope : ModuleScope) (env : TypeEnv) (ann : TypeAnn) :
    Peeks d (Typing.typeOf scope env ann) := resolver (.ask (asks_resolveType scope env ann))

theorem typesOf (scope : ModuleScope) (env : TypeEnv) (anns : List TypeAnn) :
    Peeks d (typesOf scope env anns) := resolver (.ask (asks_resolveTypes scope env anns))

theorem returnTypeOf (scope : ModuleScope) (env : TypeEnv) (ret : Option TypeAnn) :
    Peeks d (returnTypeOf scope env ret) := by
  cases ret with
  | none => exact .pure _
  | some ann => exact typeOf scope env ann

theorem mapM {l : List α} {f : α → Check β} (h : ∀ a, Peeks d (f a)) : Peeks d (l.mapM f) := by
  induction l with
  | nil => exact .pure _
  | cons a rest ih =>
    rw [List.mapM_cons]
    exact (h a).bind fun _ => ih.bind fun _ => .pure _

theorem substituteWithin (env : TypeEnv) (site : Site) (depth : Nat) (ty : Ty) :
    Peeks d (substituteWithin d.resolver env site depth ty) := by
  induction depth generalizing ty with
  | zero => cases ty <;> exact .pure _
  | succ depth ih =>
    cases ty with
    | list t => exact (ih t).bind fun _ => .pure _
    | struct name | enum name =>
      refine .look fun s => ?_
      split
      · exact .pure _
      · exact (mapM ih).bind fun _ => .ask (.instantiate _ _ _)
    | _ => exact .pure _

theorem substitute (env : TypeEnv) (site : Site) (ty : Ty) : Peeks d (substitute env site ty) :=
  resolver (substituteWithin env site _ ty)

theorem unify (pattern actual : Ty) (b : Bindings) : Peeks d (unify pattern actual b) :=
  .look fun _ => .pure _

theorem when_bind {p : Prop} [Decidable p] {m : Check Unit} {k : Unit → Check β} (hm : Peeks d m)
    (hk : Peeks d (k ())) : Peeks d (if p then m >>= k else k ()) := by
  split
  · exact hm.bind fun _ => hk
  · exact hk

theorem forM {l : List α} {f : α → Check Unit} (h : ∀ a, Peeks d (f a)) : Peeks d (l.forM f) := by
  induction l with
  | nil => exact .pure _
  | cons a rest ih => exact (h a).bind fun _ => ih

theorem forIn {l : List α} {b : β} {f : α → β → Check (ForInStep β)} (h : ∀ a b, Peeks d (f a b)) :
    Peeks d (forIn l b f) := by
  induction l generalizing b with
  | nil => exact .pure _
  | cons a rest ih =>
    rw [List.forIn_cons]
    refine (h a b).bind fun step => ?_
    cases step with
    | done b => exact .pure _
    | yield b => exact ih

theorem functionParams (scope : ModuleScope) (env : TypeEnv) (params : List ParamDef) (seen : List String) :
    Peeks d (Typing.functionParams scope env params seen) := by
  induction params generalizing seen with
  | nil => exact .pure _
  | cons p rest ih =>
    rw [Typing.functionParams]
    exact when_bind (report _ _) ((typeOf _ _ _).bind fun _ => (ih _).bind fun _ => .pure _)

end Peeks

end Keel.Typing
