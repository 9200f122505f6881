/-
# The rules for bodies

Each rule of the checker for bodies is followed once, and can be read in two ways
(`Reading.Checks`).  Where the tables are known to be sound, the rule keeps them so, and the
type it finds is a proper one, or that of a number whose type is still open.  Where nothing is
known of the tables, its steps are those of `StepsTo`, at the numbers of the nodes that it checks.

The recursion over the syntax puts the rules together; `holds_checkBlock` and `steps_checkBlock`
are the two readings of the result.
-/
import Keel.Proofs.Typing.Proper
import Keel.Proofs.Typing.Steps

namespace Keel.Typing

open List Option

variable {α β : Type} {params : List String} {env : TypeEnv} {ty : Ty}

/-! ### Frames -/

structure Frame.Sound (f : Frame) : Prop where
  ret : f.ret.Proper
  types : f.types.Over []
  locals : ∀ p ∈ f.locals, p.2.ty.Proper

namespace Frame.Sound

variable {f : Frame}

theorem declare (hf : f.Sound) (name : String) (h : ty.Proper) (isMutable : Bool) :
    (f.declare name ty isMutable).Sound where
  ret := hf.ret
  types := hf.types
  locals := forall_mem_cons.2 ⟨h, hf.locals⟩

theorem find? (hf : f.Sound) {name : String} {l : Local} (h : f.find? name = some l) : l.ty.Proper := by
  obtain ⟨before, after, hlocals, -⟩ := lookup_eq_some_iff.1 h
  exact hf.locals (name, l) (by rw [hlocals]; simp)

theorem local? (hf : f.Sound) {path : PathExpr} {l : Local} (h : f.local? path = some l) : l.ty.Proper := by
  obtain ⟨name, -, hname⟩ := bind_eq_some_iff.1 h
  exact hf.find? hname

end Frame.Sound

/-! ### Two readings -/

/-- A way to read the rules: what is known of functions, where notes may be taken, how many
instances have led here, and whether the tables are sound. -/
structure Reading where
  decls : Declarations
  functions : QualName → FunctionDecl → Prop
  ids : Nat → Prop
  depth : Nat
  sound : Prop
  plain : sound → decls.Plain

namespace Reading

/-- The rule, read in this way, and what it says of its value. -/
structure Checks (R : Reading) (c : Check α) (P : α → Prop) : Prop where
  steps : ¬ R.sound → StepsTo R.decls R.functions R.ids R.depth c P
  holds : R.sound → Holds R.decls (Sound R.decls) c P

variable (R : Reading)

abbrev Runs (c : Check α) : Prop := R.Checks c fun _ => True

abbrev Proper (ty : Ty) : Prop := R.sound → ty.Proper

abbrev Known (ty : Ty) : Prop := R.sound → ty.Known

abbrev Expects (expected : Option Ty) : Prop := R.sound → ∀ t ∈ expected, t.Proper

abbrev All (types : List Ty) : Prop := R.sound → ∀ t ∈ types, t.Proper

abbrev At (id : Nat) : Prop := ¬ R.sound → R.ids id

abbrev Covers (nodes : List Node) : Prop := ¬ R.sound → Typing.Covers R.ids nodes

structure Fits (f : Frame) : Prop where
  depth : ¬ R.sound → f.depth = R.depth
  sound : R.sound → f.Sound

structure Follows (o : Operand) : Prop where
  covers : R.Covers o.expr.nodes
  found : R.All o.expr.foundTypes
  check : ∀ {f : Frame}, R.Fits f → ∀ {expected : Option Ty}, R.Expects expected →
    R.Checks (o.check f expected) R.Known

variable {R}

variable {nodes : List Node}

theorem Covers.left {more : List Node} (h : R.Covers (nodes ++ more)) : R.Covers nodes :=
  fun g => (covers_append.1 (h g)).1

theorem Covers.right {more : List Node} (h : R.Covers (nodes ++ more)) : R.Covers more :=
  fun g => (covers_append.1 (h g)).2

theorem Covers.head {node : Node} (h : R.Covers (node :: nodes)) : R.At node.id :=
  fun g => (covers_cons.1 (h g)).1

theorem Covers.tail {node : Node} (h : R.Covers (node :: nodes)) : R.Covers nodes :=
  fun g => (covers_cons.1 (h g)).2

theorem All.left {types more : List Ty} (h : R.All (types ++ more)) : R.All types :=
  fun g => (forall_mem_append.1 (h g)).1

theorem All.right {types more : List Ty} (h : R.All (types ++ more)) : R.All more :=
  fun g => (forall_mem_append.1 (h g)).2

theorem expects_none : R.Expects none := fun _ => by simp

theorem Proper.expects (h : R.Proper ty) : R.Expects (some ty) := fun g => by simpa using h g

theorem Proper.known (h : R.Proper ty) : R.Known ty := fun g => (h g).known

namespace Fits

variable {f : Frame}

theorem declare (hf : R.Fits f) (name : String) (h : R.Proper ty) (isMutable : Bool) :
    R.Fits (f.declare name ty isMutable) :=
  ⟨hf.depth, fun g => (hf.sound g).declare name (h g) isMutable⟩

theorem types (hf : R.Fits f) (g : R.sound) : f.types.Over [] := (hf.sound g).types

end Fits

namespace Checks

variable {m c : Check α} {k : α → Check β} {P P' : α → Prop} {Q : β → Prop} {a : α}

theorem pure (h : P a) : R.Checks (Pure.pure a) P := ⟨fun _ => .pure h, fun _ => holds_pure h⟩

theorem bind (hm : R.Checks m P) (hk : ∀ a, P a → R.Checks (k a) Q) : R.Checks (m >>= k) Q :=
  ⟨fun g => .bind (hm.steps g) fun a ha => (hk a ha).steps g,
    fun g => (hm.holds g).bind fun a ha => (hk a ha).holds g⟩

theorem returns {b : β} (hm : R.Checks m P) (h : Q b) : R.Checks (m >>= fun _ => Pure.pure b) Q :=
  hm.bind fun _ _ => .pure h

theorem imp (h : R.Checks c P) (hP : ∀ a, P a → P' a) : R.Checks c P' :=
  ⟨fun g => (h.steps g).mono hP, fun g => (h.holds g).imp hP⟩

theorem known {c : Check Ty} (h : R.Checks c R.Proper) : R.Checks c R.Known := h.imp fun _ => Proper.known

/-- What the value is like is only said if the tables are sound. -/
theorem of (hsteps : Steps R.decls R.functions R.ids R.depth c)
    (hholds : R.sound → Holds R.decls (Sound R.decls) c P) : R.Checks c fun a => R.sound → P a :=
  ⟨fun g => hsteps.mono fun _ _ h => absurd h g, fun g => (hholds g).imp fun _ h _ => h⟩

theorem look {k : State → Check α} (hk : ∀ s, R.Checks (k s) P) : R.Checks (get >>= k) P :=
  ⟨fun g => .look fun s => (hk s).steps g, fun g => keeps_get.bind fun s => (hk s).holds g⟩

theorem read {k : Declarations → Check α} (h : R.Checks (k R.decls) P) : R.Checks (read >>= k) P :=
  ⟨fun g => .read (h.steps g), fun g => h.holds g⟩

theorem resolver {k : Resolver → Check α} (h : R.Checks (k (Resolver.within R.decls.depth)) P) :
    R.Checks (Typing.resolver >>= k) P := read (k := fun d => k d.resolver) h

theorem when_bind {p : Prop} [Decidable p] {m : Check Unit} {k : Unit → Check β} (hm : R.Runs m)
    (hk : R.Checks (k ()) Q) : R.Checks (if p then m >>= k else k ()) Q := by
  split
  · exact hm.bind fun _ _ => hk
  · exact hk

theorem forM {l : List α} {f : α → Check Unit} (h : ∀ a ∈ l, R.Runs (f a)) : R.Runs (l.forM f) :=
  ⟨fun g => steps_forM fun a ha => (h a ha).steps g, fun g => keeps_forM fun a ha => (h a ha).holds g⟩

theorem function (target : QualName) {k : Option FunctionDecl → Check α} (hnone : R.Checks (k none) P)
    (hsome : ∀ f, (¬ R.sound → R.functions target f) → (R.sound → f.Sound) → R.Checks (k (some f)) P) :
    R.Checks (function? target >>= k) P where
  steps g := .function target (hnone.steps g) fun f hf => (hsome f (fun _ => hf) fun h => absurd h g).steps g
  holds g := (holds_function? target).bind fun found hfound => by
    cases found with
    | none => exact hnone.holds g
    | some f => exact (hsome f (absurd g) fun _ => hfound f rfl).holds g

theorem call {id : Nat} {target : QualName} {k : Option FunctionSig → Check Ty} {m : FunctionSig → Check Unit}
    (hid : R.At id) (hnone : R.Checks (k none) R.Proper)
    (hk : ∀ sig, k (some sig) = do m sig; recordCall id (.function target); return sig.ret)
    (hm : ∀ sig, (R.sound → sig.Sound) → R.Runs (m sig)) : R.Checks (signature? target >>= k) R.Proper where
  steps g := by
    have hcall : Steps R.decls R.functions R.ids R.depth (signature? target >>= k) :=
      .call (hid g) ((hnone.steps g).mono fun _ _ => trivial) hk fun sig => (hm sig fun h => absurd h g).steps g
    exact hcall.mono fun _ _ h => absurd h g
  holds g := (holds_signature? target).bind fun found hfound => by
    cases found with
    | none => exact hnone.holds g
    | some sig =>
      rw [hk sig]
      exact ((hm sig fun _ => hfound sig rfl).holds g).bind fun _ _ =>
        (keeps_modify fun _ hs => { hs with }).bind fun _ => holds_pure fun _ => (hfound sig rfl).ret

theorem «instance» {n id : Nat} (hn : ¬ R.sound → n = R.depth) {base : QualName} {f : FunctionDecl}
    {args : List Ty} (site : Site) {k : Option QualName → Check α} {m : QualName → Check α} (hid : R.At id)
    (hf : ¬ R.sound → R.functions base f) (hsound : R.sound → f.Sound) (hparams : f.decl.typeParams ≠ [])
    (hargs : R.All args) (hnone : R.Checks (k none) P)
    (hk : ∀ name, k (some name) = do recordCall id (.function name); m name) (hm : ∀ name, R.Checks (m name) P) :
    R.Checks (instantiateFunction base f args n site >>= k) P where
  steps g := by
    rw [hn g]
    exact .instance args site (hid g) (hf g) hparams (hnone.steps g) hk fun name => (hm name).steps g
  holds g := (keeps_instantiateFunction (R.plain g) base (hsound g) hparams (hargs g) n site).bind fun found => by
    cases found with
    | none => exact hnone.holds g
    | some name =>
      rw [hk name]
      exact (keeps_modify fun _ hs => { hs with }).bind fun _ => (hm name).holds g

end Checks

end Reading

open Reading

variable {R : Reading}

/-! ### Reporting, recording and asking -/

theorem checks_report (site : Site) (problem : Problem) : R.Runs (report site problem) :=
  ⟨fun _ => steps_report site problem, fun _ => keeps_report site problem⟩

theorem checks_reject (site : Site) (problem : Problem) : R.Checks (reject site problem) R.Proper :=
  .of (steps_reject site problem) fun _ => holds_reject site problem

section Recording

variable {id : Nat} (hid : R.At id)

include hid

theorem checks_recordType (h : R.Known ty) : R.Runs (recordType id ty) :=
  ⟨fun g => steps_recordType (hid g) ty,
    fun g => keeps_modify fun _ hs => { hs with exprTypes := forall_get?_insert hs.exprTypes (h g) }⟩

theorem checks_recordLet (h : R.Proper ty) : R.Runs (recordLet id ty) :=
  ⟨fun g => steps_recordLet (hid g) ty,
    fun g => keeps_modify fun _ hs => { hs with letTypes := forall_get?_insert hs.letTypes (h g) }⟩

theorem checks_recordVariant {v : VariantRef} (h : R.sound → R.decls.HasVariant v.index) :
    R.Runs (recordVariant id v) :=
  ⟨fun g => steps_recordVariant (hid g) v,
    fun g => keeps_modify fun _ hs => { hs with variants := forall_get?_insert hs.variants (h g) }⟩

theorem checks_recordBuiltin (b : Builtin) : R.Runs (recordCall id (.builtin b)) :=
  ⟨fun g => .builtin b (hid g), fun _ => keeps_modify fun _ hs => { hs with }⟩

theorem checks_recordIntrinsic (op : Intrinsic) : R.Runs (recordIntrinsic id op) :=
  ⟨fun g => steps_recordIntrinsic (hid g) op, fun _ => keeps_modify fun _ hs => { hs with }⟩

theorem checks_recordConst (name : QualName) : R.Runs (recordConst id name) :=
  ⟨fun g => steps_recordConst (hid g) name, fun _ => keeps_modify fun _ hs => { hs with }⟩

theorem checks_recordLiteral (name : QualName) : R.Runs (recordLiteral id name) :=
  ⟨fun g => steps_recordLiteral (hid g) name, fun _ => keeps_modify fun _ hs => { hs with }⟩

end Recording

section Asking

variable {b : Bindings}

variable (scope : ModuleScope)

theorem checks_lookup (path : List String) (space : Namespace) (withPrelude : Bool) :
    R.Runs (lookup scope path space withPrelude) :=
  ⟨fun _ => (Peeks.lookup _ _ _ _).steps, fun _ => keeps_lookup _ _ _ _⟩

theorem checks_found? (site : Site) (kind : NameKind) (written : String) (l : Lookup) :
    R.Runs (found? site kind written l) :=
  ⟨fun _ => (Peeks.found? _ _ _ _).steps, fun _ => keeps_found? _ _ _ _⟩

theorem checks_const (name : QualName) (site : Option Site) :
    R.Checks ((Resolver.within R.decls.depth).const name site) fun c => R.sound → c.Sound :=
  .of (Peeks.ask (.const _ _)).steps fun g => (Resolver.sound_within (R.plain g) _).const _ _

theorem checks_instantiate (base : QualName) {args : List Ty} (hargs : R.All args) (site : Site) :
    R.Checks ((Resolver.within R.decls.depth).instantiate base args site) R.Proper :=
  .of (Peeks.ask (.instantiate _ _ _)).steps fun g =>
    (Resolver.sound_within (R.plain g) _).instantiate _ _ _ fun t ht => (hargs g t ht).settled

theorem checks_evalConst {e : Expr} (he : R.All e.foundTypes) :
    R.Runs (evalConst (Resolver.within R.decls.depth) scope e none) :=
  ⟨fun _ => (Peeks.ask (asks_evalConst _ _ _)).steps, fun g =>
    (holds_evalConst (Resolver.sound_within (R.plain g) _) scope e (by simp) (he g)).keeps⟩

theorem checks_typeOf (henv : R.sound → env.Over params) {ann : TypeAnn}
    (hann : R.All ann.foundTypes) : R.Checks (typeOf scope env ann) fun ty => R.sound → ty.Over params :=
  .of (Peeks.typeOf _ _ _).steps fun g => holds_typeOf (R.plain g) scope (henv g) (hann g)

theorem checks_typesOf (henv : R.sound → env.Over params) {anns : List TypeAnn}
    (hanns : R.All (TypeAnn.allFoundTypes anns)) :
    R.Checks (typesOf scope env anns) fun ts => R.sound → ∀ t ∈ ts, t.Over params :=
  .of (Peeks.typesOf _ _ _).steps fun g => holds_typesOf (R.plain g) scope (henv g) (hanns g)

theorem checks_returnTypeOf (henv : R.sound → env.Over params) {ret : Option TypeAnn}
    (hret : R.All (TypeAnn.optFoundTypes ret)) :
    R.Checks (returnTypeOf scope env ret) fun ty => R.sound → ty.Over params :=
  .of (Peeks.returnTypeOf _ _ _).steps fun g => holds_returnTypeOf (R.plain g) scope (henv g) (hret g)

theorem checks_struct? (name : QualName) : R.Checks (struct? name) fun r => R.sound → ∀ sig ∈ r, sig.Sound :=
  .of (Peeks.struct? _).steps fun _ => holds_struct? name

theorem checks_enum? (name : QualName) :
    R.Checks (enum? name) fun r => R.sound → ∀ sig ∈ r, EnumSig.Sound R.decls sig :=
  .of (Peeks.enum? _).steps fun _ => holds_enum? name

theorem checks_unify (pattern : Ty) {actual : Ty} (hactual : R.Known actual) (hb : R.sound → b.Sound) :
    R.Checks (unify pattern actual b) fun b => R.sound → b.Sound :=
  .of (Peeks.unify _ _ _).steps fun g => holds_unify pattern (hactual g) (hb g)

theorem checks_substitute (henv : R.sound → env.Over []) (site : Site)
    (hty : R.sound → ty.Over params) : R.Checks (substitute env site ty) fun ty => R.sound → ty.Over params :=
  .of (Peeks.substitute _ _ _).steps fun g => holds_substitute (R.plain g) (henv g) site (hty g)

theorem checks_substitute_proper (henv : R.sound → env.Over []) (hbound : ∀ name ∈ params, (env.get? name).isSome)
    (site : Site) (hty : R.sound → ty.Over params) : R.Checks (substitute env site ty) R.Proper :=
  .of (Peeks.substitute _ _ _).steps fun g => holds_substitute_proper (R.plain g) (henv g) hbound site (hty g)

end Asking

/-! ### Settling and agreement -/

section Settle

variable {file : SourcePath} {target : Ty} (htarget : R.Known target)

mutual

theorem checks_settle (htarget : R.Known target) : ∀ e : Expr, R.Covers e.nodes → R.Runs (settle file target e)
  | ⟨id, kind, span⟩, h => by
    refine .look fun s => ?_
    split
    · exact (checks_recordType h.head htarget).bind fun _ _ => checks_settleKind htarget span kind h.tail
    · exact .pure trivial

theorem checks_settleKind (htarget : R.Known target) (span : Span) : ∀ kind : ExprKind, R.Covers kind.nodes →
    R.Runs (settleKind file target span kind)
  | .literal (.int value), _ => by
    unfold settleKind
    split
    · exact checks_report _ _
    · exact .pure trivial
  | .literal (.bool _), _ | .literal (.str _), _ => .pure trivial
  | .unary _ operand, h => checks_settle htarget operand h
  | .binary (.arith _) left right, h =>
    (checks_settle htarget left h.left).bind fun _ _ => checks_settle htarget right h.right
  | .binary (.compare _) _ _, _ | .binary (.logic _) _ _, _ => .pure trivial
  | .cond choice, h => checks_settleConditional htarget choice h
  | .block body, h => checks_settleBlock htarget body h
  | .select _ arms, h => checks_settleArms htarget arms h.right
  | .path _, _ | .cast _ _, _ | .call _ _, _ | .member _ _ _, _ | .record _ _, _ => .pure trivial

theorem checks_settleConditional (htarget : R.Known target) : ∀ c : Conditional, R.Covers c.nodes →
    R.Runs (settleConditional file target c)
  | ⟨_, thenBlock, otherwise, _⟩, h =>
    have h := h.right
    (checks_settleBlock htarget thenBlock h.left).bind fun _ _ => checks_settleElse htarget otherwise h.right

theorem checks_settleElse (htarget : R.Known target) : ∀ o : ElseBranch, R.Covers o.nodes →
    R.Runs (settleElse file target o)
  | .absent, _ => .pure trivial
  | .block body, h => checks_settleBlock htarget body h
  | .elseIf choice, h => checks_settleConditional htarget choice h

theorem checks_settleBlock (htarget : R.Known target) : ∀ b : Block, R.Covers b.nodes →
    R.Runs (settleBlock file target b)
  | ⟨_, some tail, _⟩, h => checks_settle htarget tail h.right
  | ⟨_, none, _⟩, _ => .pure trivial

theorem checks_settleArms (htarget : R.Known target) : ∀ arms : List Arm, R.Covers (Arm.allNodes arms) →
    R.Runs (settleArms file target arms)
  | [], _ => .pure trivial
  | ⟨_, body, _⟩ :: rest, h =>
    have h := h.right
    (checks_settle htarget body h.left).bind fun _ _ => checks_settleArms htarget rest h.right

end

end Settle

theorem known_i64 : R.Known .i64 := fun _ => Ty.Proper.known trivial

theorem checks_expectType (file : SourcePath) {e : Expr} (h : R.Covers e.nodes) (actual : Ty) {expected : Ty}
    (he : R.Known expected) : R.Runs (expectType file e actual expected) := by
  unfold expectType
  split
  · exact .pure trivial
  · split
    · exact checks_settle he e h
    · split
      · exact .pure trivial
      · split
        · split
          · exact checks_report _ _
          · exact checks_report _ _
        · exact checks_report _ _

variable {branches : List (Ty × Bool)}

theorem known_joinBranches (hb : ∀ b ∈ branches, b.1.Known) {expected : Option Ty} (he : ∀ t ∈ expected, t.Proper)
    (h : joinBranches branches expected = .ok ty) : ty.Known := by
  unfold joinBranches at h
  extract_lets live at h
  split at h
  · cases h
    exact Ty.Proper.known trivial
  · split at h
    · cases h
      split
      · cases expected with
        | none => exact Ty.Proper.known trivial
        | some t => exact (he t rfl).known
      · exact Ty.known_untyped
    · rename_i first hfirst
      dsimp only at h
      split at h
      · cases h
      · cases h
        obtain ⟨b, hmem, rfl⟩ := mem_map.1 (mem_of_find?_eq_some hfirst)
        exact hb b (mem_filter.1 hmem).1

theorem checks_joinTypes (site : Site) (hb : ∀ b ∈ branches, R.Known b.1) {expected : Option Ty}
    (he : R.Expects expected) (what : String) : R.Checks (joinTypes site branches expected what) R.Known := by
  unfold joinTypes
  split
  · rename_i ty hty
    exact .pure fun g => known_joinBranches (fun b h => hb b h g) (he g) hty
  · exact (checks_reject _ _).known

section Operands

variable {f : Frame} {o : Operand} {args : List Operand} (hf : R.Fits f)

include hf

theorem checks_discard (ho : R.Follows o) : R.Runs (discard f o) := by
  refine (ho.check hf expects_none).bind fun ty _ => ?_
  split
  · exact checks_settle known_i64 _ ho.covers
  · exact .pure trivial

theorem checks_discardAll (hargs : ∀ o ∈ args, R.Follows o) : R.Runs (discardAll f args) :=
  .forM fun o ho => checks_discard hf (hargs o ho)

theorem checks_checkAgainst (ho : R.Follows o) {expected : Ty} (he : R.Proper expected) :
    R.Runs (checkAgainst f o expected) :=
  (ho.check hf he.expects).bind fun _ _ => checks_expectType _ ho.covers _ he.known

end Operands

/-! ### Literals, names, operators and casts -/

section Operators

variable {f : Frame} {o left right : Operand} {expected : Option Ty}

theorem checks_checkInt (span : Span) (value : Int) (he : R.Expects expected) :
    R.Checks (checkInt f span value expected) R.Known := by
  unfold checkInt
  split
  · rename_i target htarget
    have hproper : R.Proper target := fun g => he g target (filter_eq_some_iff.1 htarget).1
    exact (checks_report _ _).when_bind (.pure hproper.known)
  · split
    · exact .pure fun _ => Ty.known_untyped
    · exact (checks_reject _ _).known

theorem checks_checkLiteral (span : Span) (he : R.Expects expected) (value : Literal) :
    R.Checks (checkLiteral f span expected value) R.Known := by
  cases value with
  | bool _ | str _ => exact .pure fun _ => Ty.Proper.known trivial
  | int value => exact checks_checkInt span value he

theorem checks_checkPath (hf : R.Fits f) {id : Nat} (hid : R.At id) (span : Span) (path : PathExpr) :
    R.Checks (checkPath f id span path) R.Proper := by
  unfold checkPath
  split
  · rename_i l hl
    exact .pure fun g => (hf.sound g).local? hl
  · refine (checks_lookup _ _ _ _).bind fun l _ => ?_
    split
    · refine .resolver ((checks_const _ _).bind fun c hc => ?_)
      exact (checks_recordConst hid _).returns fun g => (hc g).ty
    · exact checks_reject _ _
    · exact checks_reject _ _
    · refine (checks_lookup _ _ _ _).bind fun l _ => ?_
      split
      · exact checks_reject _ _
      · exact checks_reject _ _

theorem checks_negatedType (site : Site) (op : UnaryOp) (ty : Ty) : R.Checks (negatedType site op ty) R.Known := by
  unfold negatedType
  split
  · exact .pure fun _ => Ty.known_untyped
  · exact .pure fun _ => Ty.Proper.known trivial
  · split
    · split
      · exact (checks_reject _ _).known
      · exact .pure fun _ => Ty.Proper.known trivial
    · exact (checks_reject _ _).known

theorem proper_bool : R.Proper .bool := fun _ => trivial

theorem checks_checkUnary (hf : R.Fits f) (op : UnaryOp) (ho : R.Follows o) (he : R.Expects expected) :
    R.Checks (checkUnary f op o expected) R.Known := by
  cases op with
  | not => exact (checks_checkAgainst hf ho proper_bool).returns proper_bool.known
  | neg | bitNot =>
    exact (ho.check hf fun g => proper_optHint (he g)).bind fun _ _ => checks_negatedType _ _ _

theorem checks_commonType (span : Span) (op : BinaryOp) (hleft : R.Follows left) (hright : R.Follows right)
    {l r : Ty} (hl : R.Known l) (hr : R.Known r) : R.Checks (commonType f span op left right l r) R.Known := by
  have hl' : R.Known l.decay := fun g => (hl g).decay
  have hr' : R.Known r.decay := fun g => (hr g).decay
  unfold commonType
  split
  · exact .pure fun _ => Ty.Proper.known trivial
  · split
    · exact .pure fun _ => Ty.known_untyped
    · split
      · exact (checks_settle hr' _ hleft.covers).returns hr'
      · split
        · exact (checks_settle hl' _ hright.covers).returns hl'
        · split
          · exact .pure hl'
          · exact (checks_reject _ _).known

variable (hf : R.Fits f) (hl : R.Follows left) (hr : R.Follows right)

include hf hl hr

theorem checks_checkCompare (span : Span) (op : CompareOp) :
    R.Checks (checkCompare f span op left right) R.Known := by
  refine (hl.check hf expects_none).bind fun l hl' => (hr.check hf expects_none).bind fun r hr' => ?_
  refine (checks_commonType span _ hl hr hl' hr').bind fun operand _ => ?_
  split
  · exact (checks_settle known_i64 _ hl.covers).bind fun _ _ =>
      (checks_settle known_i64 _ hr.covers).returns proper_bool.known
  · exact (checks_report _ _).when_bind (.pure proper_bool.known)

theorem checks_checkArith (span : Span) (op : ArithOp) (he : R.Expects expected) :
    R.Checks (checkArith f span op left right expected) R.Known := by
  have hhint : R.Expects (operandHint expected) := fun g => proper_optHint (he g)
  refine (hl.check hf hhint).bind fun l hl' => (hr.check hf hhint).bind fun r hr' => ?_
  refine (checks_commonType span _ hl hr hl' hr').bind fun operand hoperand => ?_
  split
  · exact .pure hoperand
  · exact (checks_reject _ _).known

theorem checks_checkBinary (span : Span) (op : BinaryOp) (he : R.Expects expected) :
    R.Checks (checkBinary f span op left right expected) R.Known := by
  cases op with
  | logic _ =>
    exact (checks_checkAgainst hf hl proper_bool).bind fun _ _ =>
      (checks_checkAgainst hf hr proper_bool).returns proper_bool.known
  | compare op => exact checks_checkCompare hf hl hr span op
  | arith op => exact checks_checkArith hf hl hr span op he

omit hf hl hr

theorem checks_checkConstantCast {e : Expr} (he : R.All e.foundTypes) (target : Ty) :
    R.Runs (checkConstantCast f e target) := by
  refine .look fun s => ?_
  split
  · refine .resolver ((checks_evalConst _ he).bind fun c _ => ?_)
    split
    · split
      · exact checks_report _ _
      · exact .pure trivial
    · exact .pure trivial
  · exact .pure trivial

theorem checks_checkCast (hf : R.Fits f) (ho : R.Follows o) {ann : TypeAnn} (hann : R.All ann.foundTypes) :
    R.Checks (checkCast f o ann) R.Proper := by
  refine (checks_typeOf _ hf.types hann).bind fun target htarget =>
    (ho.check hf expects_none).bind fun source _ => ?_
  split
  · exact .pure fun _ => trivial
  · split
    · exact (checks_reject _ _).bind fun _ h => .pure h
    · split
      · exact .pure htarget
      · split
        · exact (checks_report _ _).returns htarget
        · exact (checks_checkConstantCast ho.found _).bind fun _ _ =>
            (checks_settle known_i64 _ ho.covers).when_bind (.pure htarget)

end Operators

/-! ### Fields and struct literals -/

theorem StructSig.mem_of_field? {sig : StructSig} {name : String} {i : Nat} {field : FieldSig}
    (h : sig.field? name = some (i, field)) : field ∈ sig.fields := by
  obtain ⟨p, hp, heq⟩ := map_eq_some_iff.1 h
  cases heq
  exact mem_of_getElem? (mem_zipIdx_iff_getElem?.1 (mem_of_find?_eq_some hp))

theorem EnumSig.of_variant? {sig : EnumSig} {name : String} {i : Nat} {v : VariantSig}
    (h : sig.variant? name = some (i, v)) : sig.variants[i]? = some v := by
  obtain ⟨p, hp, heq⟩ := map_eq_some_iff.1 h
  cases heq
  exact mem_zipIdx_iff_getElem?.1 (mem_of_find?_eq_some hp)

def TypeRef.Sound : TypeRef → Prop
  | .concrete ty => ty.Proper
  | _ => True

theorem Reading.Follows.path {o : Operand} (ho : R.Follows o) {path : PathExpr}
    (h : o.path? = some path) : R.All (TypeAnn.allFoundTypes path.args) := by
  obtain ⟨⟨id, kind, span⟩, check⟩ := o
  have found := ho.found
  unfold Operand.path? at h
  split at h
  · rename_i p hp
    cases h
    obtain ⟨segments, args⟩ := path
    change kind = _ at hp
    subst hp
    exact found
  · cases h

section Records

variable {f : Frame}

variable {path : PathExpr}

theorem checks_typeRef? (hf : R.Fits f) (hpath : R.All (TypeAnn.allFoundTypes path.args)) (span : Span) :
    R.Checks (typeRef? f path span) fun r => R.sound → ∀ ref ∈ r, ref.Sound := by
  refine .of (peeks_typeRef? path span).steps fun g => ?_
  unfold typeRef?
  extract_lets rest
  have hrest : Holds R.decls (Sound R.decls) (rest ()) fun r => ∀ ref ∈ r, ref.Sound := by
    refine (keeps_lookup _ _ _ _).bind fun l => ?_
    split
    · exact holds_pure (by simp)
    · exact holds_pure (by simp)
    · exact (keeps_report _ _).bind fun _ => holds_pure (by simp [TypeRef.Sound, Ty.Over])
    · refine (holds_read (P := fun _ => True) trivial).bind fun decls _ => ?_
      extract_lets concrete
      have hconcrete : Holds R.decls (Sound R.decls) (concrete ()) fun r => ∀ ref ∈ r, ref.Sound := by
        refine (holds_typesOf (R.plain g) _ (hf.types g) (hpath g)).bind fun args hargs => ?_
        refine (holds_resolver (R.plain g)).bind fun r hr => ?_
        refine (holds_nominalType hr _ (fun t ht => (hargs t ht).settled) _).bind fun ty hty => ?_
        exact holds_pure (by simpa [TypeRef.Sound] using hty)
      split
      · split
        · exact holds_pure (by split <;> simp [TypeRef.Sound])
        · exact hconcrete
      · exact hconcrete
  split
  · split
    · rename_i ty hty
      obtain ⟨name, -, hname⟩ := bind_eq_some_iff.1 hty
      exact holds_pure (by simpa [TypeRef.Sound] using hf.types g name ty hname)
    · exact hrest
  · exact hrest

theorem checks_fieldType {base : Ty} (field : String) (span : Span) :
    R.Checks (fieldType f base field span) R.Proper := by
  unfold fieldType
  split
  · exact .pure fun _ => trivial
  · refine (checks_struct? _).bind fun sig hsig => ?_
    split
    · exact .pure fun _ => trivial
    · split
      · exact checks_reject _ _
      · rename_i found hfound
        exact (checks_report _ _).when_bind
          (.pure fun g => (hsig g _ rfl).fields _ (StructSig.mem_of_field? hfound))
  · exact checks_reject _ _

theorem checks_fieldPathType (span : Span) (fields : List String) (hty : R.Proper ty) :
    R.Checks (fieldPathType f span ty fields) R.Proper := by
  induction fields generalizing ty with
  | nil => exact .pure hty
  | cons field rest ih => exact (checks_fieldType _ _).bind fun _ h => ih h

/-- A pattern without type parameters is what is expected. -/
theorem proper_hint {s : State} {pattern : Ty} (h : R.sound → pattern.Over params) :
    R.Expects (if s.mentionsParam pattern then none else some pattern) := by
  intro g
  split
  · simp
  · rename_i hmention
    simpa using proper_of_mentionsParam (s := s) (h g).settled (by simpa using hmention)

variable {fields : List FieldOperand} (hf : R.Fits f) (hfields : ∀ o ∈ fields, R.Follows o.value)

include hf hfields

theorem checks_inferFields {decl : Declared StructDef}
    (henv : env.Over params) (hdecl : ∀ field ∈ decl.decl.fields, R.All field.ty.foundTypes) {b : Bindings}
    (hb : R.sound → b.Sound) {seen : Prechecked} (hseen : ∀ p ∈ seen, R.Known p.2) :
    R.Checks (inferFields f decl env fields b seen) fun r => (R.sound → r.1.Sound) ∧ ∀ p ∈ r.2, R.Known p.2 := by
  induction fields generalizing b seen with
  | nil => exact .pure ⟨hb, hseen⟩
  | cons field rest ih =>
    have hrest := @ih fun o ho => hfields o (mem_cons_of_mem _ ho)
    unfold inferFields
    split
    · rename_i declared hdeclared _
      have hmem := mem_of_find?_eq_some hdeclared
      refine (checks_typeOf _ (fun _ => henv) (hdecl declared hmem)).bind fun pattern hpattern => ?_
      refine .look fun s => ?_
      refine ((hfields field mem_cons_self).check hf (proper_hint hpattern)).bind fun ty hty => ?_
      refine (checks_unify pattern hty hb).bind fun b hb => ?_
      exact hrest hb (forall_mem_cons.2 ⟨hty, hseen⟩)
    · exact hrest hb hseen

theorem checks_inferLiteral (span : Span) (base : QualName) :
    R.Checks (inferLiteral f span base fields) fun r => R.Proper r.1 ∧ ∀ p ∈ r.2, R.Known p.2 := by
  refine .read ?_
  split
  · exact .pure ⟨fun _ => trivial, by simp⟩
  · rename_i decl hdecl
    have hfound : ∀ field ∈ decl.decl.fields, R.All field.ty.foundTypes := by
      intro field hfield g t ht
      have hplain := (R.plain g).structs base decl hdecl
      rw [Item.foundTypes, flatMap_eq_nil_iff] at hplain
      rw [hplain field hfield] at ht
      cases ht
    refine (checks_inferFields hf hfields (over_openParams _) hfound (fun _ => Bindings.sound_empty)
      (by simp)).bind ?_
    rintro ⟨b, seen⟩ ⟨hb, hseen⟩
    dsimp only
    split
    · rename_i args hargs
      have hproper : R.All args := fun g => ((hb g).withDefaults _).proper_of_resolve hargs
      exact .resolver ((checks_instantiate _ hproper _).bind fun ty hty => .pure ⟨hty, hseen⟩)
    · exact (checks_report _ _).returns ⟨fun _ => trivial, hseen⟩

theorem checks_literalType (span : Span) (hpath : R.All (TypeAnn.allFoundTypes path.args)) (expected : Option Ty) :
    R.Checks (literalType f span path fields expected) fun r => R.Proper r.1 ∧ ∀ p ∈ r.2, R.Known p.2 := by
  refine (checks_typeRef? hf hpath span).bind fun ref href => ?_
  split
  · exact (checks_reject _ _).bind fun _ h => .pure ⟨h, by simp⟩
  · exact .pure ⟨fun g => href g _ rfl, by simp⟩
  · exact (checks_reject _ _).bind fun _ h => .pure ⟨h, by simp⟩
  · have hinfer := checks_inferLiteral hf hfields span
    split
    · have hinstance (name base : QualName) : R.Runs (isInstanceOf name base) :=
        (checks_struct? name).bind fun _ _ => .pure trivial
      refine (hinstance _ _).bind fun matching _ => ?_
      split
      · exact .pure ⟨fun _ => trivial, by simp⟩
      · exact hinfer _
    · exact hinfer _

theorem checks_checkFields {sig : StructSig} (hsig : R.sound → sig.Sound) (known : Prechecked)
    (seen : List String) : R.Runs (checkFields f sig known fields seen) := by
  induction fields generalizing seen with
  | nil => exact .pure trivial
  | cons field rest ih =>
    have hfield := hfields field mem_cons_self
    have hrest := ih (fun o ho => hfields o (mem_cons_of_mem _ ho)) (field.name :: seen)
    unfold checkFields
    refine (checks_report _ _).when_bind ?_
    dsimp only
    split
    · exact (checks_report _ _).bind fun _ _ => (checks_discard hf hfield).bind fun _ _ => hrest
    · rename_i declared hdeclared
      have hproper : R.Proper declared.ty := fun g => (hsig g).fields _ (StructSig.mem_of_field? hdeclared)
      refine (checks_report _ _).when_bind ?_
      split
      · exact (checks_expectType _ hfield.covers _ hproper.known).bind fun _ _ => hrest
      · exact (hfield.check hf hproper.expects).bind fun _ _ =>
          (checks_expectType _ hfield.covers _ hproper.known).bind fun _ _ => hrest

theorem checks_checkRecord {id : Nat} (hid : R.At id) (span : Span)
    (hpath : R.All (TypeAnn.allFoundTypes path.args)) (expected : Option Ty) :
    R.Checks (checkRecord f id span path fields expected) R.Proper := by
  refine (checks_literalType hf hfields span hpath expected).bind fun ⟨ty, known⟩ ⟨hty, _⟩ => ?_
  dsimp only
  split
  · refine (checks_discardAll hf fun o ho => ?_).returns fun _ => trivial
    obtain ⟨field, hfield, rfl⟩ := mem_map.1 ho
    exact hfields field (mem_filter.1 hfield).1
  · refine (checks_struct? _).bind fun sig hsig => ?_
    split
    · exact .pure fun _ => trivial
    · exact (checks_checkFields hf hfields (fun g => hsig g _ rfl) _ _).bind fun _ _ =>
        (checks_report _ _).when_bind ((checks_recordLiteral hid _).returns fun _ => trivial)
  · exact checks_reject _ _

end Records

/-! ### Calls -/

section Calls

variable {f : Frame} {args : List Operand} {id : Nat} {expected : Option Ty} (hf : R.Fits f)
  (hargs : ∀ o ∈ args, R.Follows o) (hid : R.At id)

include hf hargs

theorem checks_rejectCall (site : Site) (problem : Problem) : R.Checks (rejectCall f site problem args) R.Proper :=
  (checks_report _ _).bind fun _ _ => (checks_discardAll hf hargs).returns fun _ => trivial

theorem checks_checkEach {types : List Ty} (htypes : R.All types) : R.Runs (checkEach f args types) := by
  induction args generalizing types with
  | nil => exact .pure trivial
  | cons arg rest ih =>
    cases types with
    | nil => exact .pure trivial
    | cons ty types =>
      have hty : R.Proper ty := fun g => htypes g ty mem_cons_self
      exact (checks_checkAgainst hf (hargs arg mem_cons_self) hty).bind fun _ _ =>
        ih (fun o ho => hargs o (mem_cons_of_mem _ ho)) fun g t ht => htypes g t (mem_cons_of_mem _ ht)

variable (span : Span)

theorem checks_checkArguments {sig : FunctionSig} (hsig : R.sound → sig.Sound) :
    R.Runs (checkArguments f span sig args) := by
  unfold checkArguments
  split
  · exact (checks_report _ _).bind fun _ _ => checks_discardAll hf hargs
  · exact checks_checkEach hf hargs fun g => by simpa using (hsig g).params

omit hargs

theorem checks_explicitBindings (params : List String) {anns : List TypeAnn}
    (hanns : R.All (TypeAnn.allFoundTypes anns)) {b : Bindings} (hb : R.sound → b.Sound) :
    R.Checks (explicitBindings f params anns b) fun b => R.sound → b.Sound := by
  induction params generalizing anns b with
  | nil => exact .pure hb
  | cons param params ih =>
    cases anns with
    | nil => exact .pure hb
    | cons ann anns =>
      exact (checks_typeOf _ hf.types hanns.left).bind fun ty hty =>
        ih hanns.right fun g => forall_get?_insert (hb g) (hty g)

include hargs

theorem checks_inferArgs {patterns : List Ty}
    (hpatterns : R.sound → ∀ t ∈ patterns, t.Over params) {b : Bindings} (hb : R.sound → b.Sound) :
    R.Checks (inferArgs f args patterns b) fun r => R.sound → r.1.Sound := by
  induction args generalizing patterns b with
  | nil => exact .pure hb
  | cons arg rest ih =>
    cases patterns with
    | nil => exact .pure hb
    | cons pattern patterns =>
      have hrest := @ih fun o ho => hargs o (mem_cons_of_mem _ ho)
      have hpattern (g : R.sound) := hpatterns g pattern mem_cons_self
      refine (checks_substitute hb _ hpattern).bind fun hint hhint => .look fun s => ?_
      refine ((hargs arg mem_cons_self).check hf (proper_hint hhint)).bind fun ty hty => ?_
      refine (checks_unify pattern hty hb).bind fun b hb => ?_
      exact (hrest (fun g t ht => hpatterns g t (mem_cons_of_mem _ ht)) hb).bind fun _ h => .pure h

omit hf

theorem checks_expectArgs (henv : R.sound → env.Over [])
    (hbound : ∀ name ∈ params, (env.get? name).isSome) {patterns : List Ty}
    (hpatterns : R.sound → ∀ t ∈ patterns, t.Over params) (actuals : List Ty) :
    R.Runs (expectArgs f env args patterns actuals) := by
  induction args generalizing patterns actuals with
  | nil => exact .pure trivial
  | cons arg rest ih =>
    cases patterns with
    | nil => exact .pure trivial
    | cons pattern patterns =>
      cases actuals with
      | nil => exact .pure trivial
      | cons actual actuals =>
        have hpattern (g : R.sound) := hpatterns g pattern mem_cons_self
        exact (checks_substitute_proper henv hbound _ hpattern).bind fun _ h =>
          (checks_expectType _ (hargs arg mem_cons_self).covers _ h.known).bind fun _ _ =>
            ih (fun o ho => hargs o (mem_cons_of_mem _ ho))
              (fun g t ht => hpatterns g t (mem_cons_of_mem _ ht)) _

include hf hid

section Generic

variable {base : QualName} {g : FunctionDecl} (hg : ¬ R.sound → R.functions base g) (hsound : R.sound → g.Sound)
  (hparams : g.decl.typeParams ≠ []) (he : R.Expects expected)

include hg hsound hparams he

/-- The only rule that makes instances, and so the only one in which the depth counts. -/
theorem checks_checkOpenCall (span : Span) {patterns : List Ty}
    (hpatterns : R.sound → ∀ t ∈ patterns, t.Over g.decl.typeParams) {retPattern : Ty}
    (hret : R.sound → retPattern.Over g.decl.typeParams) {b : Bindings} (hb : R.sound → b.Sound) :
    R.Checks (checkOpenCall f id span base g patterns retPattern b args expected) R.Proper := by
  refine (checks_inferArgs hf hargs hpatterns hb).bind fun ⟨b, actuals⟩ hb => ?_
  dsimp -zeta only
  extract_lets rest
  -- Once the type parameters are known: the instance, and the call.
  have hrest (b : Bindings) (hb : R.sound → b.Sound) : R.Checks (rest b) R.Proper := by
    unfold rest
    extract_lets b'
    have hb' : R.sound → b'.Sound := fun g => (hb g).withDefaults _
    split
    · exact checks_reject _ _
    · rename_i resolved hresolved
      have hproper : R.All resolved := fun g => (hb' g).proper_of_resolve hresolved
      have hbound := (Bindings.of_resolve hresolved).2
      split
      · exact .pure fun _ => trivial
      · refine (checks_expectArgs hargs hb' hbound hpatterns _).bind fun _ _ => ?_
        refine .instance hf.depth _ hid hg hsound hparams hproper (.pure fun _ => trivial) (fun _ => rfl) fun _ => ?_
        exact checks_substitute_proper hb' hbound _ hret
  cases expected with
  | none => exact hrest b hb
  | some ty => exact (checks_unify _ (fun g => (he g ty rfl).known) hb).bind hrest

theorem checks_checkGenericCall (span : Span) {explicit : List TypeAnn}
    (hexplicit : R.All (TypeAnn.allFoundTypes explicit)) :
    R.Checks (checkGenericCall f id span base g explicit args expected) R.Proper := by
  unfold checkGenericCall
  dsimp only
  split
  · exact (checks_rejectCall hf hargs _ _).bind fun _ h => .pure h
  · refine (checks_explicitBindings hf _ hexplicit fun _ => Bindings.sound_empty).bind fun b hb => ?_
    refine (checks_typesOf _ (fun _ => over_openParams _) fun h => ?_).bind fun patterns hpatterns => ?_
    · rw [allFoundTypes_params]
      exact (hsound h).params
    · refine (checks_returnTypeOf _ (fun _ => over_openParams _) fun h => (hsound h).ret).bind
        fun retPattern hret => ?_
      split
      · exact (checks_rejectCall hf hargs _ _).bind fun _ h => .pure h
      · exact checks_checkOpenCall hf hargs hid hg hsound hparams he span hpatterns hret hb

end Generic

variable {path : PathExpr}

theorem checks_checkFunctionCall (target : QualName) (hpath : R.All (TypeAnn.allFoundTypes path.args))
    (he : R.Expects expected) : R.Checks (checkFunctionCall f id span target path args expected) R.Proper := by
  unfold checkFunctionCall
  extract_lets plain warned
  have hplain : R.Checks (plain ()) R.Proper :=
    .call (m := fun sig => checkArguments f span sig args) hid
      ((checks_discardAll hf hargs).returns fun _ => trivial) (fun _ => rfl)
      fun sig hsig => checks_checkArguments hf hargs span hsig
  have hwarned : R.Checks (warned ()) R.Proper := (checks_report _ _).when_bind hplain
  refine .function target hwarned fun g hg hsound => ?_
  dsimp only
  split
  · rename_i hparams
    exact (checks_checkGenericCall hf hargs hid hg hsound (by simpa using hparams) he span hpath).bind
      fun _ h => .pure h
  · exact hwarned

omit hargs hid

theorem checks_checkPrint {arg : Operand} (harg : R.Follows arg) : R.Checks (checkPrint f arg) R.Proper := by
  refine (harg.check hf expects_none).bind fun ty _ => ?_
  split
  · exact (checks_settle known_i64 _ harg.covers).returns fun _ => trivial
  · exact (checks_report _ _).when_bind (.pure fun _ => trivial)

omit hf

theorem checks_emptyListType (site : Site) (he : R.Expects expected) :
    R.Checks (emptyListType site expected) R.Proper := by
  unfold emptyListType
  split
  · exact .pure fun g => he g _ rfl
  · exact .pure fun _ => trivial
  · exact checks_reject _ _

include hf hargs hid

theorem checks_checkBuiltin (b : Builtin) (he : R.Expects expected) :
    R.Checks (checkBuiltin f id span b args expected) R.Proper := by
  have hstr : R.Proper .str := fun _ => trivial
  unfold checkBuiltin
  split
  · exact (checks_rejectCall hf hargs _ _).bind fun _ h => .pure h
  · refine (checks_recordBuiltin hid b).bind fun _ _ => ?_
    split
    · exact checks_checkPrint hf (hargs _ mem_cons_self)
    · exact (checks_checkAgainst hf (hargs _ mem_cons_self) proper_bool).returns fun _ => trivial
    · exact (checks_checkAgainst hf (hargs _ mem_cons_self) hstr).returns fun _ => trivial
    · exact checks_emptyListType _ he

theorem checks_checkSimpleCall (span calleeSpan : Span) (name : String)
    (hpath : R.All (TypeAnn.allFoundTypes path.args)) (he : R.Expects expected) :
    R.Checks (checkSimpleCall f id span calleeSpan name path args expected) R.Proper := by
  unfold checkSimpleCall
  dsimp only
  split
  · exact (checks_rejectCall hf hargs _ _).bind fun _ h => .pure h
  · refine (checks_lookup _ _ _ _).bind fun l _ => ?_
    split
    · exact checks_checkFunctionCall hf hargs hid _ _ hpath he
    · split
      · exact (checks_report _ _).when_bind (checks_checkBuiltin hf hargs hid _ _ he)
      · refine .read ?_
        split
        · exact checks_checkFunctionCall hf hargs hid _ _ hpath he
        · exact checks_rejectCall hf hargs _ _
        · exact checks_rejectCall hf hargs _ _

theorem checks_checkPathCall (span calleeSpan : Span) (hpath : R.All (TypeAnn.allFoundTypes path.args))
    (he : R.Expects expected) : R.Checks (checkPathCall f id span calleeSpan path args expected) R.Proper := by
  unfold checkPathCall
  split
  · exact checks_checkSimpleCall hf hargs hid _ _ _ hpath he
  · refine (checks_lookup _ _ _ _).bind fun l _ => (checks_found? _ _ _ _).bind fun target _ => ?_
    split
    · exact checks_checkFunctionCall hf hargs hid _ _ hpath he
    · exact (checks_discardAll hf hargs).returns fun _ => trivial

/-! ### Variants and methods -/

omit hargs hid

theorem checks_inferEnum (base : QualName) (variant : String) {payload : Option Operand}
    (hpayload : ∀ o ∈ payload, R.Follows o) (expected : Option Ty) :
    R.Checks (inferEnum f span base variant payload expected) fun r => ∀ t ∈ r.2, R.Known t := by
  unfold inferEnum
  extract_lets rest
  have hrest : R.Checks (rest ()) fun r => ∀ t ∈ r.2, R.Known t := by
    refine .read ?_
    split
    · exact .pure (by simp)
    · rename_i decl hdecl
      extract_lets params declared resolved
      have hresolved (found : Bindings × Option Ty)
          (hfound : (R.sound → found.1.Sound) ∧ ∀ t ∈ found.2, R.Known t) :
          R.Checks (resolved found) fun r => ∀ t ∈ r.2, R.Known t := by
        obtain ⟨b, payloadTy⟩ := found
        unfold resolved
        dsimp only
        split
        · rename_i args hargs
          have hproper : R.All args := fun g => ((hfound.1 g).withDefaults _).proper_of_resolve hargs
          exact .resolver ((checks_instantiate _ hproper _).bind fun ty _ => .pure hfound.2)
        · exact (checks_report _ _).returns hfound.2
      have hann : ∀ ann ∈ declared, R.All ann.foundTypes := by
        intro ann hann g t ht
        obtain ⟨v, hv, hhead⟩ := bind_eq_some_iff.1 hann
        have hplain := (R.plain g).enums base decl hdecl
        rw [Item.foundTypes, flatMap_eq_nil_iff] at hplain
        have hvariant := hplain v (mem_of_find?_eq_some hv)
        obtain ⟨rest, hfields⟩ := List.head?_eq_some_iff.1 hhead
        rw [hfields, TypeAnn.allFoundTypes, append_eq_nil_iff] at hvariant
        rw [hvariant.1] at ht
        cases ht
      clear_value declared
      split
      · rename_i ann value
        refine (checks_typeOf _ (fun _ => over_openParams _) (hann ann rfl)).bind fun pattern _ => ?_
        refine ((hpayload value rfl).check hf expects_none).bind fun ty hty => ?_
        refine (checks_unify pattern hty fun _ => Bindings.sound_empty).bind fun b hb => ?_
        exact Checks.bind (.pure ⟨hb, by simpa using hty⟩) hresolved
      · exact Checks.bind (.pure ⟨fun _ => Bindings.sound_empty, by simp⟩) hresolved
  split
  · refine (checks_enum? _).bind fun sig _ => ?_
    split
    · exact .pure (by simp)
    · exact hrest
  · exact hrest

include hargs hid

theorem checks_checkVariant (span nameSpan : Span) (enum : QualName) (variant : String)
    (known : Option Ty) : R.Checks (checkVariant f id span nameSpan enum variant args known) R.Proper := by
  refine (checks_enum? _).bind fun sig hsig => ?_
  split
  · exact .pure fun _ => trivial
  · split
    · exact checks_rejectCall hf hargs _ _
    · rename_i sig _ _ index v hv
      have hsig (g : R.sound) := hsig g _ rfl
      have hv := EnumSig.of_variant? hv
      extract_lets record
      have hrecord (u : Unit) (_ : True) : R.Checks (record u) R.Proper :=
        (checks_recordVariant hid fun g => (hsig g).index _ (List.getElem?_eq_some_iff.1 hv).1).bind fun _ _ =>
          .pure fun _ => trivial
      split
      · rename_i payload arg hpayload
        have harg := hargs _ mem_cons_self
        have hproper : R.Proper payload := fun g => (hsig g).variants v (mem_of_getElem? hv) payload hpayload
        split
        · exact (checks_expectType _ harg.covers _ hproper.known).bind hrecord
        · exact (harg.check hf hproper.expects).bind fun _ _ =>
            (checks_expectType _ harg.covers _ hproper.known).bind hrecord
      · exact (checks_report _ _).bind fun _ _ => (checks_discardAll hf hargs).bind hrecord
      · exact hrecord () trivial
      · exact (checks_report _ _).bind fun _ _ => (checks_discardAll hf hargs).bind hrecord

theorem checks_checkMethodCall (span nameSpan : Span) (owner : QualName) (name : String) :
    R.Checks (checkMethodCall f id span nameSpan owner name args) R.Proper := by
  unfold checkMethodCall
  extract_lets method
  refine .call (m := fun sig => do
    if !canAccess f.scope.path sig.owner sig.isPublic then
      report (f.site nameSpan) (.privateMethod owner.name name sig.owner)
    checkArguments f span sig args) hid ?_ (fun sig => ?_) fun sig hsig => ?_
  · exact (checks_enum? _).bind fun _ _ => checks_rejectCall hf hargs _ _
  · dsimp only
    split <;> rfl
  · exact (checks_report _ _).when_bind (checks_checkArguments hf hargs span hsig)

theorem checks_checkTypeCall (span nameSpan : Span) (name : String) (expected : Option Ty) (ref : TypeRef) :
    R.Checks (checkTypeCall f id span nameSpan name args expected ref) R.Proper := by
  unfold checkTypeCall
  split
  · exact (checks_discardAll hf hargs).returns fun _ => trivial
  · refine (checks_enum? _).bind fun sig _ => ?_
    split
    · exact checks_checkVariant hf hargs hid _ _ _ _ _
    · exact checks_checkMethodCall hf hargs hid _ _ _ _
  · exact checks_checkMethodCall hf hargs hid _ _ _ _
  · exact checks_rejectCall hf hargs _ _
  · exact checks_rejectCall hf hargs _ _
  · refine (checks_inferEnum hf _ _ _ (fun o ho => hargs o (mem_of_mem_head? ho)) _).bind fun found _ => ?_
    split
    · exact checks_checkVariant hf hargs hid _ _ _ _ _
    · exact .pure fun _ => trivial
    · exact (checks_discardAll hf hargs).returns fun _ => trivial

omit hf hargs hid

theorem proper_of_intrinsic? (hty : ty.Proper) {name : String} {op : Intrinsic}
    {params : List Ty} {ret : Ty} (h : intrinsic? ty name = some (op, params, ret)) :
    (∀ t ∈ params, t.Proper) ∧ ret.Proper := by
  have hi64 : Ty.i64.Proper := trivial
  have hstr : Ty.str.Proper := trivial
  unfold intrinsic? at h
  split at h
  case h_8 => cases h
  all_goals
    cases h
    refine ⟨?_, ?_⟩
    · simp_all [Ty.Over]
    · trivial

include hf hargs hid

theorem checks_checkIntrinsic (span nameSpan : Span) (receiver : String) {l : Local} (hl : R.Proper l.ty)
    (name : String) : R.Checks (checkIntrinsic f id span nameSpan receiver l name args) R.Proper := by
  unfold checkIntrinsic
  split
  · split
    · exact (checks_discardAll hf hargs).returns fun _ => trivial
    · exact checks_rejectCall hf hargs _ _
  · rename_i hintrinsic
    refine (checks_report _ _).when_bind ?_
    split
    · exact (checks_rejectCall hf hargs _ _).bind fun _ h => .pure h
    · exact (checks_checkEach hf hargs fun g => (proper_of_intrinsic? (hl g) hintrinsic).1).bind fun _ _ =>
        (checks_recordIntrinsic hid _).returns fun g => (proper_of_intrinsic? (hl g) hintrinsic).2

variable {base : Operand} (hbase : R.Follows base)

include hbase

omit hid

theorem checks_checkValueCall (nameSpan : Span) (name : String) :
    R.Checks (checkValueCall f nameSpan base name args) R.Proper := by
  refine (hbase.check hf expects_none).bind fun ty _ => ?_
  split
  · exact (checks_discardAll hf hargs).returns fun _ => trivial
  · exact checks_rejectCall hf hargs _ _
  · exact checks_rejectCall hf hargs _ _
  · exact checks_rejectCall hf hargs _ _

include hid

theorem checks_checkMemberCall (span : Span) (name : String) (nameSpan : Span) (expected : Option Ty) :
    R.Checks (checkMemberCall f id span base name nameSpan args expected) R.Proper := by
  unfold checkMemberCall
  split
  · exact checks_checkValueCall hf hargs hbase _ _
  · rename_i path hpath
    split
    · rename_i l hl
      have hproper : R.Proper l.ty := fun g => (hf.sound g).local? hl
      exact (checks_recordType (fun g => (hbase.covers g).id) hproper.known).bind fun _ _ =>
        checks_checkIntrinsic hf hargs hid _ _ _ hproper _
    · refine (checks_typeRef? hf (hbase.path hpath) _).bind fun ref _ => ?_
      split
      · exact checks_checkTypeCall hf hargs hid _ _ _ _ _
      · exact checks_checkValueCall hf hargs hbase _ _

omit hargs hbase

theorem checks_checkTypeMember (span nameSpan : Span) (name : String) (expected : Option Ty) (ref : TypeRef) :
    R.Checks (checkTypeMember f id span nameSpan name expected ref) R.Proper := by
  have hnone : ∀ o ∈ ([] : List Operand), R.Follows o := by simp
  unfold checkTypeMember
  split
  · exact .pure fun _ => trivial
  · exact checks_checkVariant hf hnone hid _ _ _ _ _
  · exact checks_reject _ _
  · exact checks_reject _ _
  · refine (checks_inferEnum hf _ _ _ (by simp) _).bind fun found _ => ?_
    split
    · exact checks_checkVariant hf hnone hid _ _ _ _ _
    · exact .pure fun _ => trivial

include hbase

theorem checks_checkMember (span : Span) (name : String) (nameSpan : Span) (expected : Option Ty) :
    R.Checks (checkMember f id span base name nameSpan expected) R.Proper := by
  unfold checkMember
  extract_lets rest
  have hrest (ref : Option TypeRef) : R.Checks (rest ref) R.Proper := by
    cases ref with
    | some ref => exact checks_checkTypeMember hf hid _ _ _ _ _
    | none => exact (hbase.check hf expects_none).bind fun _ _ => checks_fieldType _ _
  split
  · exact hrest none
  · rename_i path hpath
    split
    · exact hrest none
    · exact (checks_typeRef? hf (hbase.path hpath) _).bind fun ref _ => hrest ref

end Calls

/-! ### Matches -/

def Scrutinee.Sound (d : Declarations) : Scrutinee → Prop
  | .enum sig => EnumSig.Sound d sig
  | _ => True

theorem Covers.patterns {S : Nat → Prop} {ps : List Pattern} (h : Typing.Covers S (Pattern.allNodes ps)) :
    ∀ p ∈ ps, S p.id := by
  induction ps with
  | nil => simp
  | cons p rest ih =>
    obtain ⟨id, kind, span⟩ := p
    obtain ⟨hp, hrest⟩ := covers_append.1 h
    exact forall_mem_cons.2 ⟨(covers_cons.1 hp).1, ih hrest⟩

section Matches

variable {f : Frame} (hf : R.Fits f) {p : Pattern}

theorem checks_scrutineeOf (site : Site) (ty : Ty) :
    R.Checks (scrutineeOf site ty) fun s => R.sound → s.Sound R.decls := by
  unfold scrutineeOf
  split
  · refine (checks_enum? _).bind fun sig hsig => ?_
    split
    · exact .pure fun g => hsig g _ rfl
    · exact .pure fun _ => trivial
  · exact .pure fun _ => trivial
  · exact .pure fun _ => trivial
  · exact .pure fun _ => trivial
  · exact .pure fun _ => trivial
  · exact .pure fun _ => trivial
  · exact (checks_report _ _).returns fun _ => trivial

theorem checks_namesEnum (path : List String) (sig : EnumSig) : R.Runs (namesEnum f path sig) := by
  unfold namesEnum
  split
  · split <;> exact .pure trivial
  · refine (checks_lookup _ _ _ _).bind fun l _ => ?_
    split <;> exact .pure trivial

theorem checks_cover {γ : Type} [BEq γ] (site : Site) (seen : List γ) (value : γ) :
    R.Runs (cover site seen value) := by
  unfold cover
  exact (checks_report _ _).when_bind (.pure trivial)

theorem checks_coverVariant (hid : R.At p.id) {sig : EnumSig} {index : Nat} (h : R.sound → R.decls.HasVariant index)
    (c : Coverage) : R.Runs (coverVariant f p sig index c) :=
  (checks_cover _ _ _).bind fun _ _ => (checks_recordVariant hid h).returns trivial

include hf

theorem checks_checkPayload (hid : R.At p.id) {payload : Ty} (h : R.Proper payload) :
    R.Checks (checkPayload f p payload) R.Fits := by
  unfold checkPayload
  split
  · exact .pure hf
  · exact (checks_recordType hid h.known).returns (hf.declare _ h _)
  · exact (checks_report _ _).returns hf

theorem checks_checkPayloads (site : Site) (enum variant : String) {payload : Option Ty}
    (h : ∀ t ∈ payload, R.Proper t) {fields : List Pattern} (hfields : ∀ p ∈ fields, R.At p.id) :
    R.Checks (checkPayloads f site enum variant payload fields) R.Fits := by
  unfold checkPayloads
  split
  · exact checks_checkPayload hf (hfields _ mem_cons_self) (h _ rfl)
  · exact .pure hf
  · exact (checks_report _ _).returns hf
  · exact (checks_report _ _).returns hf
  · exact (checks_report _ _).returns hf

theorem checks_checkVariantPattern (hid : R.At p.id) {sig : EnumSig} (hsig : R.sound → EnumSig.Sound R.decls sig)
    (c : Coverage) (path : Option (List String)) (variant : String) {fields : List Pattern}
    (hfields : ∀ p ∈ fields, R.At p.id) :
    R.Checks (checkVariantPattern f p sig c path variant fields) fun r => R.Fits r.1 := by
  unfold checkVariantPattern
  extract_lets site rest
  have hrest (u : Unit) : R.Checks (rest u) fun r => R.Fits r.1 := by
    unfold rest
    split
    · exact (checks_report _ _).returns hf
    · rename_i index v hv
      have hv := EnumSig.of_variant? hv
      have hpayload : ∀ t ∈ v.payload, R.Proper t := fun t ht g =>
        (hsig g).variants v (mem_of_getElem? hv) t ht
      refine (checks_checkPayloads hf _ _ _ hpayload hfields).bind fun f' hf' => ?_
      exact (checks_coverVariant hid (fun g => (hsig g).index _ (List.getElem?_eq_some_iff.1 hv).1) c).bind
        fun _ _ => .pure hf'
  split
  · refine (checks_namesEnum _ _).bind fun named _ => ?_
    split
    · exact (checks_report _ _).returns hf
    · exact hrest ()
  · exact hrest ()

variable {s : Scrutinee} (hs : R.sound → s.Sound R.decls) (hty : R.Proper ty) (c : Coverage)

include hs hty

theorem checks_checkBinding (hid : R.At p.id) (name : String) :
    R.Checks (checkBinding f p s ty c name) fun r => R.Fits r.1 := by
  unfold checkBinding
  extract_lets unit
  have hunit : ∀ found ∈ unit, R.sound → R.decls.HasVariant found.2 := by
    intro found hfound g
    unfold unit at hfound
    split at hfound
    · rename_i sig
      obtain ⟨index, hindex, rfl⟩ := map_eq_some_iff.1 hfound
      unfold unitVariant? at hindex
      split at hindex
      · rename_i i v hv
        split at hindex
        · cases hindex
          exact (hs g).index _ (List.getElem?_eq_some_iff.1 (EnumSig.of_variant? hv)).1
        · cases hindex
      · cases hindex
    · cases hfound
  clear_value unit
  split
  · exact (checks_coverVariant hid (hunit _ rfl) c).bind fun _ _ => .pure hf
  · exact (checks_recordType hid hty.known).returns (hf.declare _ hty _)

theorem checks_checkPattern (hp : R.Covers p.nodes) : R.Checks (checkPattern f p s ty c) fun r => R.Fits r.1 := by
  obtain ⟨id, kind, span⟩ := p
  have hid : R.At id := hp.head
  have hkind := hp.tail
  have herror : R.Proper .error := fun _ => trivial
  unfold checkPattern
  dsimp only
  split
  · exact .pure (hf.declare _ herror _)
  · exact .pure hf
  · exact .pure hf
  · exact checks_checkBinding hf hs hty c hid _
  · split
    · exact (checks_report _ _).bind fun _ _ => (checks_cover _ _ _).bind fun _ _ => .pure hf
    · exact (checks_cover _ _ _).bind fun _ _ => .pure hf
  · exact (checks_cover _ _ _).bind fun _ _ => .pure hf
  · exact (checks_cover _ _ _).bind fun _ _ => .pure hf
  · exact checks_checkVariantPattern hf hid hs _ _ _ fun p h g => Covers.patterns (hkind g) p h
  · exact (checks_report _ _).returns hf
  · exact (checks_report _ _).returns hf

structure Reading.FollowsArm (R : Reading) (arm : ArmOperand) : Prop where
  pattern : R.Covers arm.pattern.nodes
  body : R.Follows arm.body

variable {arms : List ArmOperand} (harms : ∀ arm ∈ arms, R.FollowsArm arm) {expected : Option Ty}
  (he : R.Expects expected)

include harms he

theorem checks_checkArms : R.Checks (checkArms f s ty expected arms c) fun r => ∀ b ∈ r.1, R.Known b.1 := by
  induction arms generalizing c with
  | nil => exact .pure (by simp)
  | cons arm rest ih =>
    have harm := harms arm mem_cons_self
    unfold checkArms
    refine (checks_report _ _).when_bind ?_
    refine (checks_checkPattern hf hs hty c harm.pattern).bind fun ⟨inner, c⟩ hinner => ?_
    refine (harm.body.check hinner he).bind fun result hresult => ?_
    exact (ih c fun arm h => harms arm (mem_cons_of_mem _ h)).bind fun _ hresults =>
      .pure (forall_mem_cons.2 ⟨hresult, hresults⟩)

omit hs hty

theorem checks_checkCases {scrutinee : Operand} {ty : Ty} (hty : R.Proper ty) (span : Span) :
    R.Checks (checkCases f span scrutinee arms expected ty) R.Known := by
  refine (checks_scrutineeOf _ _).bind fun s hs =>
    (checks_checkArms hf hs hty {} harms he).bind fun ⟨results, c⟩ hresults => ?_
  dsimp -zeta only
  extract_lets joinUp
  have hjoin (u : Unit) (_ : True) : R.Checks (joinUp u) R.Known := by
    refine (checks_joinTypes _ hresults he _).bind fun joined hjoined => ?_
    refine (Checks.forM fun arm harm => ?_).when_bind (.pure hjoined)
    exact checks_settle hjoined _ (harms arm harm).body.covers
  split
  · exact (checks_report _ _).bind hjoin
  · exact hjoin () trivial

theorem checks_checkSelect {scrutinee : Operand} (hscrutinee : R.Follows scrutinee) (span : Span) :
    R.Checks (checkSelect f span scrutinee arms expected) R.Known := by
  have htype : R.Checks (scrutineeType f scrutinee) R.Proper := by
    refine (hscrutinee.check hf expects_none).bind fun ty hty => ?_
    split
    · exact (checks_settle known_i64 _ hscrutinee.covers).bind fun _ _ => .pure fun _ => trivial
    · rename_i hopen
      exact .pure fun g => (hty g).proper (by simpa using hopen)
  exact htype.bind fun ty hty => checks_checkCases hf harms he hty span

end Matches

/-! ### Statements -/

section Statements

variable {f : Frame} {o : Operand} {value : Option Operand} (hf : R.Fits f)

include hf

theorem checks_checkLet (span : Span) (name : String) {ann : Option TypeAnn}
    (hann : R.All (TypeAnn.optFoundTypes ann)) (hvalue : ∀ o ∈ value, R.Follows o) :
    R.Checks (checkLet f span name ann value) R.Proper := by
  unfold checkLet
  split
  · exact (checks_typeOf _ hf.types hann).bind fun _ h =>
      (checks_checkAgainst hf (hvalue _ rfl) h).returns h
  · exact checks_typeOf _ hf.types hann
  · refine ((hvalue _ rfl).check hf expects_none).bind fun actual hactual => ?_
    split
    · exact (checks_settle known_i64 _ (hvalue _ rfl).covers).returns fun _ => trivial
    · rename_i hopen
      exact .pure fun g => (hactual g).proper (by simpa using hopen)
  · exact checks_reject _ _

variable (ho : R.Follows o)

include ho

variable (span : Span)

theorem checks_checkAssign (target : String) : R.Runs (checkAssign f span target o) := by
  unfold checkAssign
  split
  · exact (checks_report _ _).bind fun _ _ => checks_discard hf ho
  · rename_i l hl
    exact (checks_report _ _).when_bind (checks_checkAgainst hf ho fun g => (hf.sound g).find? hl)

theorem checks_checkAssignField (base : String) (fields : List String) :
    R.Runs (checkAssignField f span base fields o) := by
  unfold checkAssignField
  split
  · exact (checks_report _ _).bind fun _ _ => checks_discard hf ho
  · rename_i l hl
    exact (checks_report _ _).when_bind
      ((checks_fieldPathType _ _ fun g => (hf.sound g).find? hl).bind fun _ h => checks_checkAgainst hf ho h)

omit ho

theorem checks_checkReturn (hvalue : ∀ o ∈ value, R.Follows o) :
    R.Runs (checkReturn f span value) := by
  unfold checkReturn
  split
  · exact checks_checkAgainst hf (hvalue _ rfl) fun g => (hf.sound g).ret
  · split
    · exact checks_report _ _
    · exact .pure trivial

omit hf

theorem checks_checkInLoop (word : String) : R.Runs (checkInLoop f span word) := by
  unfold checkInLoop
  split
  · exact checks_report _ _
  · exact .pure trivial

end Statements

/-! ### The recursion -/

mutual

theorem checks_checkExpr : ∀ e : Expr, R.Covers e.nodes → R.All e.foundTypes → ∀ {f : Frame}, R.Fits f →
    ∀ {expected : Option Ty}, R.Expects expected → R.Checks (checkExpr e f expected) R.Known
  | ⟨_, kind, span⟩, hc, h, _, hf, _, he =>
    (checks_checkKind hc.head span kind hc.tail h hf he).bind fun _ hty =>
      (checks_recordType hc.head hty).returns hty

theorem checks_checkKind {id : Nat} (hid : R.At id) (span : Span) : ∀ kind : ExprKind, R.Covers kind.nodes →
    R.All kind.foundTypes → ∀ {f : Frame}, R.Fits f → ∀ {expected : Option Ty}, R.Expects expected →
      R.Checks (checkKind id span kind f expected) R.Known
  | .literal value, _, _, _, _, _, he => checks_checkLiteral span he value
  | .path path, _, _, _, hf, _, _ => (checks_checkPath hf hid span path).known
  | .unary op operand, hc, h, _, hf, _, he => checks_checkUnary hf op ⟨hc, h, checks_checkExpr operand hc h⟩ he
  | .binary op left right, hc, h, _, hf, _, he =>
    checks_checkBinary hf ⟨hc.left, h.left, checks_checkExpr left hc.left h.left⟩
      ⟨hc.right, h.right, checks_checkExpr right hc.right h.right⟩ span op he
  | .cast operand _, hc, h, _, hf, _, _ =>
    have ho : R.Covers operand.nodes := hc
    (checks_checkCast hf ⟨ho, h.left, checks_checkExpr operand ho h.left⟩ h.right).known
  | .call ⟨_, .member base name nameSpan, _⟩ args, hc, h, _, hf, _, _ =>
    have hcallee : R.Covers (.expr ⟨_, .member base name nameSpan, _⟩ :: base.nodes) := hc.left
    (checks_checkMemberCall hf (follows_operands args hc.right h.right) hid
      ⟨hcallee.tail, h.left, checks_checkExpr base hcallee.tail h.left⟩ span name nameSpan _).known
  | .call ⟨_, .path ⟨segments, typeArgs⟩, calleeSpan⟩ args, hc, h, _, hf, _, he =>
    have hpath : R.All (TypeAnn.allFoundTypes (PathExpr.mk segments typeArgs).args) := h.left
    (checks_checkPathCall hf (follows_operands args hc.right h.right) hid span calleeSpan hpath he).known
  | .call ⟨_, .literal _, _⟩ args, hc, h, _, hf, _, _ | .call ⟨_, .unary _ _, _⟩ args, hc, h, _, hf, _, _
  | .call ⟨_, .binary _ _ _, _⟩ args, hc, h, _, hf, _, _ | .call ⟨_, .cast _ _, _⟩ args, hc, h, _, hf, _, _
  | .call ⟨_, .call _ _, _⟩ args, hc, h, _, hf, _, _ | .call ⟨_, .record _ _, _⟩ args, hc, h, _, hf, _, _
  | .call ⟨_, .select _ _, _⟩ args, hc, h, _, hf, _, _ | .call ⟨_, .cond _, _⟩ args, hc, h, _, hf, _, _
  | .call ⟨_, .block _, _⟩ args, hc, h, _, hf, _, _ =>
    (checks_rejectCall hf (follows_operands args hc.right h.right) _ _).known
  | .member base name nameSpan, hc, h, _, hf, _, _ =>
    have hb : R.Covers base.nodes := hc
    have h : R.All base.foundTypes := h
    (checks_checkMember hf hid ⟨hb, h, checks_checkExpr base hb h⟩ span name nameSpan _).known
  | .record ⟨segments, typeArgs⟩ fields, hc, h, _, hf, _, _ =>
    have hpath : R.All (TypeAnn.allFoundTypes (PathExpr.mk segments typeArgs).args) := h.left
    (checks_checkRecord hf (follows_fieldOperands fields hc h.right) hid span hpath _).known
  | .select scrutinee arms, hc, h, _, hf, _, he =>
    checks_checkSelect hf (follows_armOperands arms hc.right h.right) he
      ⟨hc.left, h.left, checks_checkExpr scrutinee hc.left h.left⟩ span
  | .cond choice, hc, h, _, hf, _, he => checks_checkConditional choice hc h hf he
  | .block body, hc, h, _, hf, _, he => checks_checkBlock body hc h hf he

theorem follows_operands : ∀ es : List Expr, R.Covers (Expr.allNodes es) → R.All (Expr.allFoundTypes es) →
    ∀ o ∈ operands es, R.Follows o
  | [], _, _ => forall_mem_nil _
  | e :: rest, hc, h =>
    forall_mem_cons.2
      ⟨⟨hc.left, h.left, checks_checkExpr e hc.left h.left⟩, follows_operands rest hc.right h.right⟩

theorem follows_operand? : ∀ e : Option Expr, R.Covers (Expr.optNodes e) → R.All (Expr.optFoundTypes e) →
    ∀ o ∈ operand? e, R.Follows o
  | none, _, _ => fun _ h => nomatch h
  | some e, hc, h => fun _ ho => mem_some_iff.1 ho ▸ ⟨hc, h, checks_checkExpr e hc h⟩

theorem follows_fieldOperands : ∀ fs : List FieldInit, R.Covers (FieldInit.allNodes fs) →
    R.All (FieldInit.allFoundTypes fs) → ∀ o ∈ fieldOperands fs, R.Follows o.value
  | [], _, _ => forall_mem_nil _
  | ⟨_, value, _⟩ :: rest, hc, h =>
    forall_mem_cons.2
      ⟨⟨hc.left, h.left, checks_checkExpr value hc.left h.left⟩, follows_fieldOperands rest hc.right h.right⟩

theorem follows_armOperands : ∀ arms : List Arm, R.Covers (Arm.allNodes arms) → R.All (Arm.allFoundTypes arms) →
    ∀ arm ∈ armOperands arms, R.FollowsArm arm
  | [], _, _ => forall_mem_nil _
  | ⟨_, body, _⟩ :: rest, hc, h =>
    have hrest := hc.right
    forall_mem_cons.2 ⟨⟨hc.left, ⟨hrest.left, h.left, checks_checkExpr body hrest.left h.left⟩⟩,
      follows_armOperands rest hrest.right h.right⟩

theorem checks_checkConditional : ∀ c : Conditional, R.Covers c.nodes → R.All c.foundTypes → ∀ {f : Frame},
    R.Fits f → ∀ {expected : Option Ty}, R.Expects expected → R.Checks (checkConditional c f expected) R.Known
  | ⟨condition, thenBlock, otherwise, span⟩, hc, h, f, hf, expected, he => by
    have hbranches := hc.right
    have htypes := h.right
    have hcond : R.Follows ⟨condition, checkExpr condition⟩ :=
      ⟨hc.left, h.left, checks_checkExpr condition hc.left h.left⟩
    refine (checks_checkAgainst hf hcond proper_bool).bind fun _ _ => ?_
    refine (checks_checkBlock thenBlock hbranches.left htypes.left hf he).bind fun thenTy hthen => ?_
    refine (checks_checkElse otherwise hbranches.right htypes.right hf he).bind fun elseTy helse => ?_
    split
    · exact (checks_settleBlock known_i64 _ hbranches.left).returns fun _ => Ty.Proper.known trivial
    · refine (checks_joinTypes _ (by simpa using ⟨hthen, helse _ rfl⟩) he _).bind fun joined hjoined => ?_
      exact (checks_settleConditional hjoined _ hc).when_bind (.pure hjoined)

theorem checks_checkElse : ∀ o : ElseBranch, R.Covers o.nodes → R.All o.foundTypes → ∀ {f : Frame}, R.Fits f →
    ∀ {expected : Option Ty}, R.Expects expected → R.Checks (checkElse o f expected) fun r => ∀ t ∈ r, R.Known t
  | .absent, _, _, _, _, _, _ => .pure (by simp)
  | .block body, hc, h, _, hf, _, he =>
    (checks_checkBlock body hc h hf he).bind fun _ hty => .pure (by simpa using hty)
  | .elseIf choice, hc, h, _, hf, _, he =>
    (checks_checkConditional choice hc h hf he).bind fun _ hty => .pure (by simpa using hty)

/-- **The rules for bodies can be followed.** -/
theorem checks_checkBlock : ∀ b : Block, R.Covers b.nodes → R.All b.foundTypes → ∀ {f : Frame}, R.Fits f →
    ∀ {expected : Option Ty}, R.Expects expected → R.Checks (checkBlock b f expected) R.Known
  | ⟨stmts, tail, _⟩, hc, h, _, hf, _, he =>
    (checks_checkStmts stmts hc.left h.left hf).bind fun _ hinner => checks_checkTail tail hc.right h.right hinner he

theorem checks_checkTail : ∀ e : Option Expr, R.Covers (Expr.optNodes e) → R.All (Expr.optFoundTypes e) →
    ∀ {f : Frame}, R.Fits f → ∀ {expected : Option Ty}, R.Expects expected →
      R.Checks (checkTail e f expected) R.Known
  | none, _, _, _, _, _, _ => .pure fun _ => Ty.Proper.known trivial
  | some e, hc, h, _, hf, _, he => checks_checkExpr e hc h hf he

theorem checks_checkStmts : ∀ ss : List Stmt, R.Covers (Stmt.allNodes ss) → R.All (Stmt.allFoundTypes ss) →
    ∀ {f : Frame}, R.Fits f → R.Checks (checkStmts ss f) R.Fits
  | [], _, _, _, hf => .pure hf
  | s :: rest, hc, h, _, hf =>
    (checks_checkStmt s hc.left h.left hf).bind fun _ hf' => checks_checkStmts rest hc.right h.right hf'

theorem checks_checkStmt : ∀ s : Stmt, R.Covers s.nodes → R.All s.foundTypes → ∀ {f : Frame}, R.Fits f →
    R.Checks (checkStmt s f) R.Fits
  | .bind _ name _ value isMutable span, hc, h, _, hf =>
    (checks_checkLet hf span name h.left (follows_operand? value hc.tail h.right)).bind fun _ hty =>
      (checks_recordLet hc.head hty).returns (hf.declare name hty isMutable)
  | .assign target value span, hc, h, _, hf =>
    have hv : R.Covers value.nodes := hc
    have h : R.All value.foundTypes := h
    (checks_checkAssign hf ⟨hv, h, checks_checkExpr value hv h⟩ span target).returns hf
  | .assignField base fields value span, hc, h, _, hf =>
    have hv : R.Covers value.nodes := hc
    have h : R.All value.foundTypes := h
    (checks_checkAssignField hf ⟨hv, h, checks_checkExpr value hv h⟩ span base fields).returns hf
  | .expr e, hc, h, _, hf =>
    have he : R.Covers e.nodes := hc
    have h : R.All e.foundTypes := h
    (checks_discard hf ⟨he, h, checks_checkExpr e he h⟩).returns hf
  | .ret value span, hc, h, _, hf =>
    (checks_checkReturn hf span (follows_operand? value hc h)).returns hf
  | .cond choice, hc, h, _, hf =>
    (checks_checkConditional choice hc h hf expects_none).bind fun _ _ =>
      (checks_settleConditional known_i64 _ hc).returns hf
  | .loop condition body _, hc, h, f, hf =>
    have hf' : R.Fits { f with inLoop := true } :=
      ⟨hf.depth, fun g => ⟨(hf.sound g).ret, (hf.sound g).types, (hf.sound g).locals⟩⟩
    (checks_checkAgainst hf ⟨hc.left, h.left, checks_checkExpr condition hc.left h.left⟩ proper_bool).bind fun _ _ =>
      (checks_checkBlock body hc.right h.right hf' expects_none).bind fun _ _ =>
        (checks_settleBlock known_i64 _ hc.right).returns hf
  | .brk span, _, _, _, hf | .cont span, _, _, _, hf => (checks_checkInLoop span _).returns hf
  | .block body, hc, h, _, hf =>
    (checks_checkBlock body hc h hf expects_none).bind fun _ _ =>
      (checks_settleBlock known_i64 _ hc).returns hf

end

theorem checks_checkResult (scope : ModuleScope) (decl : FunctionDef) (bodyTy : Ty) {ret : Ty} (hret : R.Proper ret)
    (h : R.Covers decl.body.nodes) : R.Runs (checkResult scope decl bodyTy ret) := by
  unfold checkResult
  split
  · rename_i tail htail
    exact checks_expectType _ (fun g node hnode => h g node (Block.mem_nodes_of_tail htail hnode)) _ hret.known
  · split
    · exact checks_report _ _
    · exact .pure trivial

/-! ### The steps of bodies -/

section Steps

variable {d : Declarations} {F : QualName → FunctionDecl → Prop} {S : Nat → Prop} {depth : Nat}

def Reading.unaware (d : Declarations) (F : QualName → FunctionDecl → Prop) (S : Nat → Prop) (depth : Nat) :
    Reading :=
  ⟨d, F, S, depth, False, False.elim⟩

theorem Reading.Checks.toSteps {c : Check α} {P : α → Prop} (h : (Reading.unaware d F S depth).Checks c P) :
    Steps d F S depth c := (h.steps not_false).mono fun _ _ => trivial

theorem steps_settle (file : SourcePath) (target : Ty) (e : Expr) (h : Covers S e.nodes) :
    Steps d F S depth (settle file target e) :=
  (checks_settle (R := .unaware d F S depth) False.elim e fun _ => h).toSteps

theorem steps_checkExpr (e : Expr) (h : Covers S e.nodes) (f : Frame) (expected : Option Ty)
    (hf : f.depth = depth) : Steps d F S depth (checkExpr e f expected) :=
  (checks_checkExpr (R := .unaware d F S depth) e (fun _ => h) False.elim ⟨fun _ => hf, False.elim⟩
    False.elim).toSteps

theorem steps_checkBlock (b : Block) (h : Covers S b.nodes) (f : Frame) (expected : Option Ty)
    (hf : f.depth = depth) : Steps d F S depth (checkBlock b f expected) :=
  (checks_checkBlock (R := .unaware d F S depth) b (fun _ => h) False.elim ⟨fun _ => hf, False.elim⟩
    False.elim).toSteps

theorem steps_checkResult (scope : ModuleScope) (decl : FunctionDef) (bodyTy ret : Ty)
    (h : Covers S decl.body.nodes) : Steps d F S depth (checkResult scope decl bodyTy ret) :=
  (checks_checkResult (R := .unaware d F S depth) scope decl bodyTy False.elim fun _ => h).toSteps

end Steps

/-! ### Bodies keep the tables sound -/

section Sound

variable {d : Declarations}

def Reading.aware (hd : d.Plain) : Reading := ⟨d, fun _ _ => True, fun _ => True, 0, True, fun _ => hd⟩

/-- **The type of a block is known.** -/
theorem holds_checkBlock (hd : d.Plain) {b : Block} (h : ∀ t ∈ b.foundTypes, t.Proper) {f : Frame} (hf : f.Sound)
    {expected : Option Ty} (he : ∀ t ∈ expected, t.Proper) : Holds d (Sound d) (checkBlock b f expected) Ty.Known :=
  ((checks_checkBlock (R := .aware hd) b (fun g => absurd trivial g) (fun _ => h)
    ⟨fun g => absurd trivial g, fun _ => hf⟩ fun _ => he).holds trivial).imp fun _ hty => hty trivial

theorem keeps_checkResult (hd : d.Plain) (scope : ModuleScope) (decl : FunctionDef) (bodyTy : Ty) {ret : Ty}
    (hret : ret.Proper) : Keeps d (Sound d) (checkResult scope decl bodyTy ret) :=
  (checks_checkResult (R := .aware hd) scope decl bodyTy (fun _ => hret) fun g => absurd trivial g).holds trivial

end Sound

end Keel.Typing
