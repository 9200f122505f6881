/-
# What the rules leave behind

For each rule of the checker: it writes at the nodes of its parts, each of which it looks at once
at most, and leaves them accounted for.  Parts that a rule does not look at stay blank.
-/
import Keel.Proofs.Typing.Lasting

namespace Keel.Typing

open List

variable {α β : Type} {L : Ledger}

/-! ### Settling -/

section Settle

variable {d : Declarations} {file : SourcePath} {target : Ty} {id : Nat} {s : State}

theorem settle_run (kind : ExprKind) (span : Span) :
    settle file target ⟨id, kind, span⟩ d s = (match s.resolutions.exprTypes.get? id with
      | some .untyped => recordType id target >>= fun _ => settleKind file target span kind
      | _ => pure () : Check Unit) d s := rfl

theorem settle_untyped (kind : ExprKind) (span : Span) (h : s.resolutions.exprTypes.get? id = some .untyped) :
    settle file target ⟨id, kind, span⟩ d s =
      (recordType id target >>= fun _ => settleKind file target span kind) d s := by
  rw [settle_run, h]

theorem settle_typed (kind : ExprKind) (span : Span) (h : s.resolutions.exprTypes.get? id ≠ some .untyped) :
    settle file target ⟨id, kind, span⟩ d s = ((), s) := by
  rw [settle_run]
  generalize s.resolutions.exprTypes.get? id = found at h
  cases found with
  | none => rfl
  | some ty =>
    cases ty with
    | untyped => exact absurd rfl h
    | _ => rfl

end Settle

mutual

theorem writes_settle (file : SourcePath) (target : Ty) :
    ∀ (e : Expr) (s : State), L.Writes [] s (settle file target e L.decls s).2
  | ⟨id, kind, span⟩, s => by
    by_cases huntyped : s.resolutions.exprTypes.get? id = some .untyped
    · rw [settle_untyped kind span huntyped]
      have hrecord : L.Writes [] s (recordType id target L.decls s).2 :=
        { later := ⟨suffix_refl _, .refl _⟩
          variants := fun _ _ _ _ => rfl
          types := fun _ id' _ => by
            show Becomes _ ((s.resolutions.exprTypes.insert id target).get? id')
            rw [get?_insert]
            split
            · rename_i heq
              exact .inr (heq ▸ huntyped)
            · exact .refl _ }
      exact hrecord.trans (writes_settleKind file target span kind _)
    · rw [settle_typed kind span huntyped]
      exact .refl _ s

theorem writes_settleKind (file : SourcePath) (target : Ty) (span : Span) :
    ∀ (kind : ExprKind) (s : State), L.Writes [] s (settleKind file target span kind L.decls s).2
  | .literal (.int value), s => by
    have h : L.Mild (settleKind file target span (.literal (.int value))) := by
      unfold settleKind
      split
      · exact grants_report _ _
      · exact .pure trivial
    exact h.writes s
  | .literal (.bool _), s | .literal (.str _), s => .refl _ s
  | .unary _ operand, s => writes_settle file target operand s
  | .binary (.arith _) left right, s =>
    (writes_settle file target left s).trans (writes_settle file target right _)
  | .binary (.compare _) _ _, s | .binary (.logic _) _ _, s => .refl _ s
  | .cond choice, s => writes_settleConditional file target choice s
  | .block body, s => writes_settleBlock file target body s
  | .select _ arms, s => writes_settleArms file target arms s
  | .path _, s | .cast _ _, s | .call _ _, s | .member _ _ _, s | .record _ _, s => .refl _ s

theorem writes_settleConditional (file : SourcePath) (target : Ty) :
    ∀ (c : Conditional) (s : State), L.Writes [] s (settleConditional file target c L.decls s).2
  | ⟨_, thenBlock, otherwise, _⟩, s =>
    (writes_settleBlock file target thenBlock s).trans (writes_settleElse file target otherwise _)

theorem writes_settleElse (file : SourcePath) (target : Ty) :
    ∀ (o : ElseBranch) (s : State), L.Writes [] s (settleElse file target o L.decls s).2
  | .absent, s => .refl _ s
  | .block body, s => writes_settleBlock file target body s
  | .elseIf choice, s => writes_settleConditional file target choice s

theorem writes_settleBlock (file : SourcePath) (target : Ty) :
    ∀ (b : Block) (s : State), L.Writes [] s (settleBlock file target b L.decls s).2
  | ⟨_, some tail, _⟩, s => writes_settle file target tail s
  | ⟨_, none, _⟩, s => .refl _ s

theorem writes_settleArms (file : SourcePath) (target : Ty) :
    ∀ (arms : List Arm) (s : State), L.Writes [] s (settleArms file target arms L.decls s).2
  | [], s => .refl _ s
  | ⟨_, body, _⟩ :: rest, s =>
    (writes_settle file target body s).trans (writes_settleArms file target rest _)

end

theorem mild_settle (file : SourcePath) (target : Ty) (e : Expr) : L.Mild (settle file target e) :=
  ⟨writes_settle file target e, fun _ _ _ => ⟨forall_mem_nil _, trivial⟩⟩

theorem mild_settleBlock (file : SourcePath) (target : Ty) (b : Block) : L.Mild (settleBlock file target b) :=
  ⟨writes_settleBlock file target b, fun _ _ _ => ⟨forall_mem_nil _, trivial⟩⟩

theorem mild_settleConditional (file : SourcePath) (target : Ty) (c : Conditional) :
    L.Mild (settleConditional file target c) :=
  ⟨writes_settleConditional file target c, fun _ _ _ => ⟨forall_mem_nil _, trivial⟩⟩

theorem mild_expectType (file : SourcePath) (e : Expr) (actual expected : Ty) :
    L.Mild (expectType file e actual expected) := by
  unfold expectType
  split
  · exact .pure trivial
  · split
    · exact mild_settle _ _ _
    · split
      · exact .pure trivial
      · split
        · split
          · exact grants_report _ _
          · exact grants_report _ _
        · exact grants_report _ _

theorem mild_joinTypes (site : Site) (branches : List (Ty × Bool)) (expected : Option Ty)
    (what : String) : L.Mild (joinTypes site branches expected what) := by
  unfold joinTypes
  split
  · exact .pure trivial
  · exact grants_reject _ _

/-! ### Operands -/

/-- The check of an operand leaves its nodes accounted for, and records its type. -/
structure Ledger.Checks (L : Ledger) (o : Operand) : Prop where
  check : ∀ f expected, L.Leaves o.expr.nodes (o.check f expected)
  recorded : ∀ f expected s, (o.check f expected L.decls s).2.resolutions.exprTypes.get? o.expr.id =
    some (o.check f expected L.decls s).1

def Operand.allNodes (os : List Operand) : List Node := os.flatMap fun o => o.expr.nodes

section Operands

variable {f : Frame} {o : Operand} {args : List Operand}

theorem leaves_discard (ho : L.Checks o) : L.Leaves o.expr.nodes (discard f o) := by
  refine (ho.check f none).seq_mild fun ty => ?_
  split
  · exact mild_settle _ _ _
  · exact .pure trivial

theorem leaves_checkAgainst (ho : L.Checks o) (expected : Ty) : L.Leaves o.expr.nodes (checkAgainst f o expected) :=
  (ho.check f _).seq_mild fun _ => mild_expectType _ _ _ _

theorem leaves_forM {c : Operand → Check Unit} (hd : L.Numbers (Operand.allNodes args))
    (hc : ∀ o ∈ args, L.Leaves o.expr.nodes (c o)) : L.Leaves (Operand.allNodes args) (args.forM c) := by
  induction args with
  | nil => exact .pure trivial
  | cons arg rest ih =>
    obtain ⟨-, hrest, hapart⟩ := hd.append
    exact (hc arg mem_cons_self).seq (fun _ => ih hrest fun o ho => hc o (mem_cons_of_mem _ ho)) hapart

theorem leaves_discardAll (hargs : ∀ o ∈ args, L.Checks o) (hd : L.Numbers (Operand.allNodes args)) :
    L.Leaves (Operand.allNodes args) (discardAll f args) :=
  leaves_forM hd fun o ho => leaves_discard (hargs o ho)

theorem Ledger.Grants.skipOperands {c : Check α} {Φ : α → Prop} (h : L.Grants [] c Φ) (os : List Operand) :
    L.Grants (Operand.allNodes os) c Φ := by
  have hskip := h.skipAll (os.map Operand.expr) fun _ _ => disjoint_nil_right _
  rwa [append_nil, flatMap_map] at hskip

end Operands

/-! ### Literals, names, operators and casts -/

section Operators

variable {f : Frame} {o left right : Operand} {id : Nat}

theorem mild_checkLiteral (span : Span) (expected : Option Ty) (value : Literal) :
    L.Mild (checkLiteral f span expected value) := by
  cases value with
  | bool _ | str _ => exact .pure trivial
  | int value =>
    show L.Mild (checkInt f span value expected)
    unfold checkInt
    split
    · exact Ledger.Grants.warned (.pure trivial)
    · split
      · exact .pure trivial
      · exact grants_reject _ _

theorem mild_checkPath (span : Span) (path : PathExpr) : L.Mild (checkPath f id span path) := by
  unfold checkPath
  split
  · exact .pure trivial
  · refine (resolving_lookup _ _ _ _).mild_seq fun l => ?_
    split
    · refine grants_resolver_bind (((Resolver.resolving_within _).const _ _).mild_seq fun value => ?_)
      exact (mild_recordConst _).returns
    · exact grants_reject _ _
    · exact grants_reject _ _
    · refine (resolving_lookup _ _ _ _).mild_seq fun l => ?_
      split
      · exact grants_reject _ _
      · exact grants_reject _ _

theorem mild_negatedType (site : Site) (op : UnaryOp) (ty : Ty) : L.Mild (negatedType site op ty) := by
  unfold negatedType
  split
  · exact .pure trivial
  · exact .pure trivial
  · split
    · split
      · exact grants_reject _ _
      · exact .pure trivial
    · exact grants_reject _ _

theorem leaves_checkUnary (op : UnaryOp) (ho : L.Checks o) (expected : Option Ty) :
    L.Leaves o.expr.nodes (checkUnary f op o expected) := by
  cases op with
  | not => exact (leaves_checkAgainst ho _).returns
  | neg | bitNot => exact (ho.check f _).seq_mild fun _ => mild_negatedType _ _ _

theorem mild_commonType (span : Span) (op : BinaryOp) (l r : Ty) :
    L.Mild (commonType f span op left right l r) := by
  unfold commonType
  split
  · exact .pure trivial
  · split
    · exact .pure trivial
    · split
      · exact (mild_settle _ _ _).returns
      · split
        · exact (mild_settle _ _ _).returns
        · split
          · exact .pure trivial
          · exact grants_reject _ _

theorem leaves_checkBinary (hl : L.Checks left) (hr : L.Checks right)
    (hd : Apart left.expr.nodes right.expr.nodes) (span : Span) (op : BinaryOp) (expected : Option Ty) :
    L.Leaves (left.expr.nodes ++ right.expr.nodes) (checkBinary f span op left right expected) := by
  cases op with
  | logic _ =>
    refine (leaves_checkAgainst hl _).seq (fun _ => ?_) hd
    exact (leaves_checkAgainst hr _).returns
  | compare op =>
    refine (hl.check f none).seq (fun l => (hr.check f none).seq_mild fun r => ?_) hd
    refine (mild_commonType span _ l r).seq_mild fun operand => ?_
    split
    · exact (mild_settle _ _ _).seq_mild fun _ => (mild_settle _ _ _).returns
    · exact Ledger.Grants.warned (.pure trivial)
  | arith op =>
    refine (hl.check f _).seq (fun l => (hr.check f _).seq_mild fun r => ?_) hd
    refine (mild_commonType span _ l r).seq_mild fun operand => ?_
    split
    · exact .pure trivial
    · exact grants_reject _ _

theorem mild_checkConstantCast (e : Expr) (target : Ty) : L.Mild (checkConstantCast f e target) := by
  refine resolving_get.mild_seq fun s => ?_
  split
  · refine grants_resolver_bind ((Peeks.ask (asks_evalConst _ _ _)).mild_seq fun c => ?_)
    split
    · split
      · exact grants_report _ _
      · exact .pure trivial
    · exact .pure trivial
  · exact .pure trivial

theorem leaves_checkCast (ho : L.Checks o) (ann : TypeAnn) : L.Leaves o.expr.nodes (checkCast f o ann) := by
  refine (Peeks.typeOf _ _ _).mild_seq fun target => (ho.check f _).seq_mild fun source => ?_
  split
  · exact .pure trivial
  · split
    · exact grants_reject _ _
    · split
      · exact .pure trivial
      · split
        · exact grants_report_pure _ _ _
        · refine (mild_checkConstantCast _ _).seq_mild fun _ => ?_
          split
          · exact (mild_settle _ _ _).returns
          · exact .pure trivial

end Operators

/-! ### Fields and struct literals -/

section Records

variable {f : Frame}

def FieldOperand.allNodes (fields : List FieldOperand) : List Node := fields.flatMap fun o => o.value.expr.nodes

/-- A list made of two, each in its order. -/
inductive Split {α : Type} : List α → List α → List α → Prop
  | nil : Split [] [] []
  | left {a : α} {l first second : List α} : Split l first second → Split (a :: l) (a :: first) second
  | right {a : α} {l first second : List α} : Split l first second → Split (a :: l) first (a :: second)

theorem split_all : ∀ l : List α, Split l [] l
  | [] => .nil
  | _ :: rest => .right (split_all rest)

theorem Split.perm {l first second : List α} (h : Split l first second) : l.Perm (first ++ second) := by
  induction h with
  | nil => exact .refl _
  | left _ ih => exact ih.cons _
  | right _ ih => exact (ih.cons _).trans perm_middle.symm

theorem Split.filter {l first second : List α} (h : Split l first second) {p : α → Bool}
    (hfirst : ∀ a ∈ first, p a = false) : l.filter p = second.filter p := by
  induction h with
  | nil => rfl
  | left _ ih =>
    obtain ⟨ha, hrest⟩ := forall_mem_cons.1 hfirst
    rw [filter_cons_of_neg (by simp [ha]), ih hrest]
  | right _ ih => simp only [filter_cons, ih hfirst]

/-- The fields whose values are checked to find the type arguments. -/
def inferred (decl : Declared StructDef) : List FieldOperand → List String → List FieldOperand
  | [], _ => []
  | field :: rest, seen =>
    if (decl.decl.fields.find? (·.name == field.name)).isSome ∧ field.name ∉ seen then
      field :: inferred decl rest (field.name :: seen)
    else inferred decl rest seen

def notInferred (decl : Declared StructDef) : List FieldOperand → List String → List FieldOperand
  | [], _ => []
  | field :: rest, seen =>
    if (decl.decl.fields.find? (·.name == field.name)).isSome ∧ field.name ∉ seen then
      notInferred decl rest (field.name :: seen)
    else field :: notInferred decl rest seen

theorem split_inferred (decl : Declared StructDef) (fields : List FieldOperand) (seen : List String) :
    Split fields (inferred decl fields seen) (notInferred decl fields seen) := by
  induction fields generalizing seen with
  | nil => exact .nil
  | cons field rest ih =>
    unfold inferred notInferred
    split
    · exact .left (ih _)
    · exact .right (ih _)

theorem lookup_eq_none_iff {known : Prechecked} {name : String} :
    known.lookup name = none ↔ name ∉ known.map Prod.fst := by
  rw [List.lookup_eq_none_iff]
  constructor
  · intro h hmem
    obtain ⟨p, hp, rfl⟩ := mem_map.1 hmem
    simpa using h p hp
  · intro h p hp
    simpa using fun heq => h (mem_map.2 ⟨p, hp, heq.symm⟩)

variable {fields : List FieldOperand}

section Infer

variable {decl : Declared StructDef} {env : TypeEnv} {field : FieldOperand} {b : Bindings}
  {seen : Prechecked}

theorem inferFields_cons_pos {declared : FieldDef}
    (hdeclared : decl.decl.fields.find? (·.name == field.name) = some declared)
    (hseen : field.name ∉ seen.map Prod.fst) : inferFields f decl env (field :: fields) b seen = (do
      let pattern ← typeOf decl.scope env declared.ty
      let hint := if (← get).mentionsParam pattern then none else some pattern
      let ty ← field.value.check f hint
      let b ← unify pattern ty b
      inferFields f decl env fields b ((field.name, ty) :: seen)) := by
  rw [inferFields, hdeclared, lookup_eq_none_iff.2 hseen]

theorem inferFields_cons_neg (h : ¬ ((decl.decl.fields.find? (·.name == field.name)).isSome ∧
      field.name ∉ seen.map Prod.fst)) :
    inferFields f decl env (field :: fields) b seen = inferFields f decl env fields b seen := by
  unfold inferFields
  split
  · rename_i hdeclared hseen
    exact absurd ⟨by rw [hdeclared]; rfl, lookup_eq_none_iff.1 hseen⟩ h
  · rw [← inferFields.eq_def]

/-- Every value that is checked is found again by its name. -/
theorem known_inferFields : Holds L.decls (fun _ => True) (inferFields f decl env fields b seen) fun r =>
    (∀ name ∈ seen.map Prod.fst, name ∈ r.2.map Prod.fst) ∧
      ∀ field ∈ inferred decl fields (seen.map Prod.fst), field.name ∈ r.2.map Prod.fst := by
  have hany {γ : Type} {c : Check γ} : Holds L.decls (fun _ => True) c fun _ => True :=
    fun _ _ => ⟨trivial, trivial⟩
  induction fields generalizing b seen with
  | nil => exact holds_pure ⟨fun _ h => h, by simp [inferred]⟩
  | cons field rest ih =>
    rw [inferred]
    split
    · rename_i h
      obtain ⟨declared, hdeclared⟩ := Option.isSome_iff_exists.1 h.1
      rw [inferFields_cons_pos hdeclared h.2]
      refine hany.bind fun _ _ => hany.bind fun _ _ => hany.bind fun ty _ => hany.bind fun b _ => ?_
      refine ih.imp fun r h => ⟨fun name hname => ?_, ?_⟩
      · exact h.1 name (mem_cons_of_mem _ hname)
      · exact forall_mem_cons.2 ⟨h.1 _ mem_cons_self, h.2⟩
    · rename_i h
      rw [inferFields_cons_neg h]
      exact ih

theorem leaves_inferFields (hfields : ∀ o ∈ fields, L.Checks o.value) (env : TypeEnv) (b : Bindings)
    (seen : Prechecked) (hd : L.Numbers (FieldOperand.allNodes (inferred decl fields (seen.map Prod.fst)))) :
    L.Leaves (FieldOperand.allNodes (inferred decl fields (seen.map Prod.fst)))
      (inferFields f decl env fields b seen) := by
  induction fields generalizing b seen with
  | nil => exact .pure trivial
  | cons field rest ih =>
    obtain ⟨hfield, hrest⟩ := forall_mem_cons.1 hfields
    rw [inferred] at hd ⊢
    by_cases h : (decl.decl.fields.find? (·.name == field.name)).isSome ∧ field.name ∉ seen.map Prod.fst
    · obtain ⟨declared, hdeclared⟩ := Option.isSome_iff_exists.1 h.1
      rw [if_pos h] at hd ⊢
      rw [inferFields_cons_pos hdeclared h.2]
      obtain ⟨-, hdrest, hapart⟩ := hd.append
      refine (Peeks.typeOf _ _ _).mild_seq fun _ => resolving_get.mild_seq fun _ => ?_
      refine (hfield.check f _).seq (fun ty => (Peeks.unify _ _ _).mild_seq fun b => ?_) hapart
      exact ih hrest b ((field.name, ty) :: seen) hdrest
    · rw [if_neg h] at hd ⊢
      rw [inferFields_cons_neg h]
      exact ih hrest b seen hd

end Infer

theorem Split.allNodes {first second : List FieldOperand} (h : Split fields first second) :
    (FieldOperand.allNodes first ++ FieldOperand.allNodes second).Perm (FieldOperand.allNodes fields) := by
  have hperm := h.perm.flatMap_right fun o : FieldOperand => o.value.expr.nodes
  rw [flatMap_append] at hperm
  exact hperm.symm

/-- The type of a struct literal, and then the rest of the rule: some of the fields have
been checked on the way. -/
theorem leaves_literalType (hfields : ∀ o ∈ fields, L.Checks o.value)
    (hd : L.Numbers (FieldOperand.allNodes fields)) (span : Span) (path : PathExpr)
    (expected : Option Ty) {k : Ty × Prechecked → Check β}
    (hk : ∀ ty known first second, Split fields first second →
      (∀ o ∈ first, o.name ∈ known.map Prod.fst) → L.Leaves (FieldOperand.allNodes second) (k (ty, known))) :
    L.Leaves (FieldOperand.allNodes fields) (literalType f span path fields expected >>= k) := by
  have hplain (ty : Ty) : L.Leaves (FieldOperand.allNodes fields) (k (ty, [])) :=
    hk ty [] [] fields (split_all fields) (by simp)
  have hreject (site : Site) (problem : Problem) :
      L.Leaves (FieldOperand.allNodes fields) ((do return (← reject site problem, [])) >>= k) :=
    (hplain .error).reported (k := fun _ => k (.error, []))
  have hinfer (base : QualName) :
      L.Leaves (FieldOperand.allNodes fields) (inferLiteral f span base fields >>= k) := by
    unfold inferLiteral
    rw [bind_assoc]
    refine grants_read_bind ?_
    cases hdecl : L.decls.structs.get? base with
    | none => exact hplain .error
    | some decl =>
      have hsplit := split_inferred decl fields []
      obtain ⟨hd₁, -, hapart⟩ := (hd.perm hsplit.allNodes.symm).append
      dsimp only
      rw [bind_assoc]
      refine Ledger.Grants.congr ((leaves_inferFields (f := f) hfields (openParams decl.decl.params) {} []
        hd₁).bind_to (Ψ := fun _ => True) known_inferFields (fun r hr => ?_) hapart)
        hsplit.allNodes.subset hsplit.allNodes.symm.subset
      · have hrest (ty : Ty) := (hk ty r.2 _ _ hsplit hr.2).imp fun _ _ (_ : True) => trivial
        split
        · simp only [bind_assoc, pure_bind]
          exact grants_resolver_bind (((Resolver.resolving_within _).instantiate _ _ _).mild_seq hrest)
        · exact (hrest .error).reported (k := fun _ => k (.error, r.2))
  unfold literalType
  rw [bind_assoc]
  refine (peeks_typeRef? path span).mild_seq fun ref => ?_
  split
  · exact hreject _ _
  · exact hplain _
  · exact hreject _ _
  · split
    · rw [bind_assoc]
      refine (peeks_isInstanceOf _ _).mild_seq fun matching => ?_
      split
      · exact hplain _
      · exact hinfer _
    · exact hinfer _

theorem leaves_field {field : FieldOperand} (hfield : L.Checks field.value) (sig : StructSig)
    (known : Prechecked) {seen : List String} {nodes : List Node}
    (hrest : Advances L.decls (checkFields f sig known fields (field.name :: seen)))
    (h : ∀ found : FieldSig, L.Leaves nodes (do
      let actual ← match known.lookup field.name with
        | some ty => pure ty
        | none => field.value.check f (some found.ty)
      expectType f.scope.file field.value.expr actual found.ty
      checkFields f sig known fields (field.name :: seen))) :
    L.Leaves nodes (checkFields f sig known (field :: fields) seen) := by
  have hdiscard : Advances L.decls (discard f field.value) := (leaves_discard hfield).advances
  unfold checkFields
  dsimp only
  by_cases hagain : seen.contains field.name = true
  · rw [if_pos hagain]
    refine grants_reported ?_
    split
    · exact (advances_report _ _).bind fun _ => hdiscard.bind fun _ => hrest
    · rw [if_pos hagain]
      have hchecked (found : FieldSig) := (hfield.check f (some found.ty)).advances.bind fun actual =>
        (mild_expectType (L := L) f.scope.file field.value.expr actual found.ty).advances.bind fun _ => hrest
      split
      · exact (advances_report _ _).bind fun _ => hchecked _
      · exact hchecked _
  · rw [if_neg hagain]
    split
    · exact grants_reported (hdiscard.bind fun _ => hrest)
    · rw [if_neg hagain]
      exact (h _).warned

theorem leaves_checkFields {first second : List FieldOperand} (hsplit : Split fields first second)
    (hfields : ∀ o ∈ fields, L.Checks o.value) (hd : L.Numbers (FieldOperand.allNodes second))
    (sig : StructSig) {known : Prechecked} (hknown : ∀ o ∈ first, o.name ∈ known.map Prod.fst)
    (seen : List String) : L.Leaves (FieldOperand.allNodes second) (checkFields f sig known fields seen) := by
  induction hsplit generalizing seen with
  | nil => exact .pure trivial
  | @left field rest first second _ ih =>
    obtain ⟨hfield, hrest⟩ := forall_mem_cons.1 hfields
    obtain ⟨hmem, hknown⟩ := forall_mem_cons.1 hknown
    obtain ⟨ty, hty⟩ := Option.ne_none_iff_exists'.1 (mt lookup_eq_none_iff.1 (not_not_intro hmem))
    have hrest := ih hrest hd hknown (field.name :: seen)
    refine leaves_field hfield sig known hrest.advances fun found => ?_
    simp only [hty, pure_bind]
    exact (mild_expectType _ _ _ _).mild_seq fun _ => hrest
  | @right field rest first second _ ih =>
    obtain ⟨hfield, hrest⟩ := forall_mem_cons.1 hfields
    obtain ⟨-, hdrest, hapart⟩ := hd.append
    have hrest := ih hrest hdrest hknown (field.name :: seen)
    refine leaves_field hfield sig known hrest.advances fun found => ?_
    split
    · -- a value that was checked for another field of that name: it is not looked at
      simp only [pure_bind]
      exact (mild_expectType _ _ _ _).mild_seq fun _ => hrest.skip field.value.expr hapart
    · exact (hfield.check f _).seq (fun actual => (mild_expectType _ _ _ _).mild_seq fun _ => hrest) hapart

theorem leaves_discardSome (hfields : ∀ o ∈ fields, L.Checks o.value)
    (hd : L.Numbers (FieldOperand.allNodes fields)) (p : FieldOperand → Bool) :
    L.Leaves (FieldOperand.allNodes fields) (discardAll f ((fields.filter p).map (·.value))) := by
  induction fields with
  | nil => exact .pure trivial
  | cons field rest ih =>
    obtain ⟨hfield, hrest⟩ := forall_mem_cons.1 hfields
    obtain ⟨-, hdrest, hapart⟩ := hd.append
    rw [filter_cons]
    split
    · exact (leaves_discard hfield).seq (fun _ => ih hrest hdrest) hapart
    · exact (ih hrest hdrest).skip field.value.expr hapart

theorem leaves_checkRecord {id : Nat} (hfields : ∀ o ∈ fields, L.Checks o.value)
    (hd : L.Numbers (FieldOperand.allNodes fields)) (span : Span) (path : PathExpr) (expected : Option Ty) :
    L.Leaves (FieldOperand.allNodes fields) (checkRecord f id span path fields expected) := by
  refine leaves_literalType hfields hd span path expected fun ty known first second hsplit hknown => ?_
  have hsecond : ∀ o ∈ second, L.Checks o.value := fun o ho =>
    hfields o (hsplit.perm.mem_iff.2 (mem_append_right _ ho))
  have hd₂ := (hd.perm hsplit.allNodes.symm).append.2.1
  dsimp only
  split
  · have hfilter := hsplit.filter (p := fun o => (known.lookup o.name).isNone) fun o ho => by
      rw [Option.isNone_eq_false_iff, Option.isSome_iff_ne_none]
      exact mt lookup_eq_none_iff.1 (not_not_intro (hknown o ho))
    rw [hfilter]
    exact (leaves_discardSome hsecond hd₂ _).returns
  · refine (resolving_struct? _).mild_seq fun r => ?_
    split
    · have hskip := (Ledger.Grants.pure (L := L) (a := Ty.error) (Φ := fun _ => True) trivial).skipAll
        (second.map fun o => o.value.expr) fun _ _ => disjoint_nil_right _
      rwa [append_nil, flatMap_map] at hskip
    · rename_i sig
      refine (leaves_checkFields hsplit hfields hd₂ sig hknown []).seq_mild fun seen => ?_
      exact Ledger.Grants.warned ((mild_recordLiteral _).returns)
  · exact grants_reject _ _

end Records

/-! ### Calls -/

section Calls

variable {f : Frame} {args : List Operand} {id : Nat} (hargs : ∀ o ∈ args, L.Checks o)
  (hd : L.Numbers (Operand.allNodes args))

include hargs hd

theorem leaves_discardArgs (ty : Ty) : L.Leaves (Operand.allNodes args) (discardAll f args >>= fun _ => pure ty) :=
  (leaves_discardAll hargs hd).returns

theorem leaves_rejectCall (site : Site) (problem : Problem) {nodes : List Node} :
    L.Leaves nodes (rejectCall f site problem args) :=
  (leaves_discardArgs hargs hd .error).reported

theorem leaves_checkEach (types : List Ty) : L.Leaves (Operand.allNodes args) (checkEach f args types) := by
  induction args generalizing types with
  | nil => exact .pure trivial
  | cons arg rest ih =>
    obtain ⟨harg, hrest⟩ := forall_mem_cons.1 hargs
    obtain ⟨-, hdrest, hapart⟩ := hd.append
    cases types with
    | nil => exact (Ledger.Grants.pure trivial).skipOperands _
    | cons ty types => exact (leaves_checkAgainst harg ty).seq (fun _ => ih hrest hdrest types) hapart

theorem leaves_checkArguments (span : Span) (sig : FunctionSig) :
    L.Leaves (Operand.allNodes args) (checkArguments f span sig args) := by
  unfold checkArguments
  split
  · exact (leaves_discardAll hargs hd).reported
  · exact leaves_checkEach hargs hd _

theorem leaves_inferArgs (patterns : List Ty) (b : Bindings) :
    L.Leaves (Operand.allNodes args) (inferArgs f args patterns b) := by
  induction args generalizing patterns b with
  | nil => exact .pure trivial
  | cons arg rest ih =>
    obtain ⟨harg, hrest⟩ := forall_mem_cons.1 hargs
    obtain ⟨-, hdrest, hapart⟩ := hd.append
    cases patterns with
    | nil => exact (Ledger.Grants.pure trivial).skipOperands _
    | cons pattern patterns =>
      refine (Peeks.substitute _ _ _).mild_seq fun _ => resolving_get.mild_seq fun _ => ?_
      refine (harg.check f _).seq (fun ty => (Peeks.unify _ _ _).mild_seq fun b => ?_) hapart
      exact (ih hrest hdrest patterns b).returns

omit hargs hd

theorem mild_expectArgs (env : TypeEnv) (patterns actuals : List Ty) :
    L.Mild (expectArgs f env args patterns actuals) := by
  induction args generalizing patterns actuals with
  | nil => exact .pure trivial
  | cons arg rest ih =>
    cases patterns with
    | nil => exact .pure trivial
    | cons pattern patterns =>
      cases actuals with
      | nil => exact .pure trivial
      | cons actual actuals =>
        exact (Peeks.substitute _ _ _).mild_seq fun _ => (mild_expectType _ _ _ _).mild_seq fun _ => ih _ _

theorem writes_instantiateFunction (base : QualName) (g : FunctionDecl) (types : List Ty) (depth : Nat)
    (site : Site) (s : State) :
    Sat L.decls s (instantiateFunction base g types depth site) fun _ s' => L.Writes [] s s' := by
  let name := instanceName base g.decl.typeParams types
  let copy := g.decl.instance name.name (bindParams g.decl.typeParams types) s.nextId
  let g' : FunctionDecl := { scope := g.scope, decl := copy.1, selfType := none }
  let s₁ : State := { s with nextId := copy.2, functions := s.functions.insert name g' }
  refine Sat.bind (R := fun r s' => r = s.signatures.functions.get? name ∧ s = s') ⟨rfl, rfl⟩ ?_
  rintro _ _ ⟨rfl, rfl⟩
  split
  · exact .refl _ s
  · split
    · have hreport (problem : Problem) : L.Mild (report site problem) := grants_report _ _
      exact (hreport _).writes s
    · obtain ⟨s₂, sig, hresolves, hbuilt⟩ :=
        resolves_buildFunction (d := L.decls) (show s₁.functions.get? name = some g' by simp [s₁])
      have hwrites : L.Writes [] s { (buildFunction name L.decls s₁).2 with
          pending := name :: (buildFunction name L.decls s₁).2.pending } := by
        rw [hbuilt]
        have hres : s₂.resolutions = s.resolutions := hresolves.resolutions
        exact ⟨⟨hresolves.reports, hresolves.keeps.structs, hresolves.keeps.enums, hresolves.keeps.oldEnums⟩,
          fun _ _ _ _ => by rw [hres], fun _ _ _ => by rw [hres]; exact .refl _⟩
      exact hwrites

theorem mild_instantiateFunction (base : QualName) (g : FunctionDecl) (types : List Ty) (depth : Nat)
    (site : Site) : L.Mild (instantiateFunction base g types depth site) :=
  ⟨writes_instantiateFunction base g types depth site, fun _ _ _ => ⟨forall_mem_nil _, trivial⟩⟩

include hargs hd

theorem leaves_checkOpenCall (base : QualName) (g : FunctionDecl) (span : Span) (patterns : List Ty)
    (retPattern : Ty) (b : Bindings) (expected : Option Ty) : L.Leaves (Operand.allNodes args)
      (checkOpenCall f id span base g patterns retPattern b args expected) := by
  unfold checkOpenCall
  extract_lets site params
  refine (leaves_inferArgs hargs hd patterns b).seq_mild fun r => ?_
  obtain ⟨b, actuals⟩ := r
  dsimp -zeta only
  extract_lets rest
  -- Once the type parameters are known: the instance, and the call.
  have hrest (b : Bindings) : L.Mild (rest b) := by
    unfold rest
    extract_lets b'
    split
    · exact grants_reject _ _
    · split
      · exact .pure trivial
      · refine (mild_expectArgs _ _ _).mild_seq fun _ => (mild_instantiateFunction _ _ _ _ _).mild_seq fun r => ?_
        cases r with
        | none => exact .pure trivial
        | some name => exact (mild_recordCall _).mild_seq fun _ => (Peeks.substitute _ _ _).resolving.mild
  cases expected with
  | none => exact hrest b
  | some ty => exact (Peeks.unify _ _ _).mild_seq hrest

theorem leaves_checkGenericCall (base : QualName) (g : FunctionDecl) (span : Span)
    (explicit : List TypeAnn) (expected : Option Ty) :
    L.Leaves (Operand.allNodes args) (checkGenericCall f id span base g explicit args expected) := by
  unfold checkGenericCall
  dsimp only
  split
  · exact leaves_rejectCall hargs hd _ _
  · refine (peeks_explicitBindings _ _ _).mild_seq fun b => (Peeks.typesOf _ _ _).mild_seq fun patterns => ?_
    refine (Peeks.returnTypeOf _ _ _).mild_seq fun retPattern => ?_
    split
    · exact leaves_rejectCall hargs hd _ _
    · exact leaves_checkOpenCall hargs hd _ _ _ _ _ _ _

theorem leaves_checkFunctionCall (target : QualName) (span : Span) (path : PathExpr) (expected : Option Ty) :
    L.Leaves (Operand.allNodes args) (checkFunctionCall f id span target path args expected) := by
  refine (resolving_function? target).mild_seq fun g => ?_
  extract_lets plain warned
  have hplain : L.Leaves (Operand.allNodes args) (plain ()) := by
    refine (resolving_signature? target).mild_seq fun sig => ?_
    cases sig with
    | none => exact leaves_discardArgs hargs hd _
    | some sig =>
      exact (leaves_checkArguments hargs hd span sig).seq_mild fun _ =>
        (mild_recordCall _).returns
  have hwarned : L.Leaves (Operand.allNodes args) (warned ()) := hplain.warned
  cases g with
  | none => exact hwarned
  | some g =>
    dsimp only
    split
    · exact leaves_checkGenericCall hargs hd _ g span _ _
    · exact hwarned

omit hargs hd in
theorem leaves_checkPrint {arg : Operand} (harg : L.Checks arg) : L.Leaves arg.expr.nodes (checkPrint f arg) := by
  refine (harg.check f none).seq_mild fun ty => ?_
  split
  · exact (mild_settle _ _ _).returns
  · exact Ledger.Grants.warned (.pure trivial)

theorem leaves_checkBuiltin (span : Span) (b : Builtin) (expected : Option Ty) :
    L.Leaves (Operand.allNodes args) (checkBuiltin f id span b args expected) := by
  have hone {arg : Operand} {c : Check Ty} (h : L.Leaves arg.expr.nodes c) :
      L.Leaves (Operand.allNodes [arg]) c := by simpa [Operand.allNodes] using h
  have hagainst {arg : Operand} (harg : L.Checks arg) (ty : Ty) :=
    (leaves_checkAgainst (f := f) harg ty).seq_mild fun _ => .pure (a := Ty.unit) trivial
  unfold checkBuiltin
  split
  · exact leaves_rejectCall hargs hd _ _
  · refine (mild_recordCall _).mild_seq fun _ => ?_
    split
    · exact hone (leaves_checkPrint (hargs _ mem_cons_self))
    · exact hone (hagainst (hargs _ mem_cons_self) .bool)
    · exact hone (hagainst (hargs _ mem_cons_self) .str)
    · unfold emptyListType
      split
      · exact (Ledger.Grants.pure trivial).skipOperands _
      · exact (Ledger.Grants.pure trivial).skipOperands _
      · exact grants_reject _ _

theorem leaves_checkSimpleCall (span calleeSpan : Span) (name : String) (path : PathExpr) (expected : Option Ty) :
    L.Leaves (Operand.allNodes args) (checkSimpleCall f id span calleeSpan name path args expected) := by
  unfold checkSimpleCall
  dsimp only
  split
  · exact leaves_rejectCall hargs hd _ _
  · refine (resolving_lookup _ _ _ _).mild_seq fun l => ?_
    split
    · exact leaves_checkFunctionCall hargs hd _ _ _ _
    · split
      · exact (leaves_checkBuiltin hargs hd _ _ _).warned
      · refine grants_read_bind ?_
        split
        · exact leaves_checkFunctionCall hargs hd _ _ _ _
        · exact leaves_rejectCall hargs hd _ _
        · exact leaves_rejectCall hargs hd _ _

theorem leaves_checkPathCall (span calleeSpan : Span) (path : PathExpr) (expected : Option Ty) :
    L.Leaves (Operand.allNodes args) (checkPathCall f id span calleeSpan path args expected) := by
  unfold checkPathCall
  split
  · exact leaves_checkSimpleCall hargs hd _ _ _ _ _
  · refine (resolving_lookup _ _ _ _).mild_seq fun l => ?_
    cases l with
    | found target => exact leaves_checkFunctionCall hargs hd _ _ _ _
    | hidden name | unknownModule module | missing => exact leaves_rejectCall hargs hd _ _

/-! ### Variants and methods -/

/-- The enum that a variant is built for, and then the rest of the rule: its argument may have
been checked on the way. -/
theorem leaves_inferEnum (span : Span) (base : QualName) (variant : String)
    (expected : Option Ty) {k : Ty × Option Ty → Check β}
    (hnone : ∀ ty, L.Leaves (Operand.allNodes args) (k (ty, none)))
    (hsome : ∀ o rest ty known, args = o :: rest → L.Leaves (Operand.allNodes rest) (k (ty, some known))) :
    L.Leaves (Operand.allNodes args) (inferEnum f span base variant args.head? expected >>= k) := by
  unfold inferEnum
  extract_lets rest
  have hrest : L.Leaves (Operand.allNodes args) (rest () >>= k) := by
    unfold rest
    rw [bind_assoc]
    refine grants_read_bind ?_
    split
    · exact hnone _
    · extract_lets params declared resolved
      have hresolved {nodes : List Node} (b : Bindings) (payload : Option Ty)
          (hk : ∀ ty, L.Leaves nodes (k (ty, payload))) : L.Leaves nodes (resolved (b, payload) >>= k) := by
        unfold resolved
        dsimp only
        split
        · simp only [bind_assoc, pure_bind]
          exact grants_resolver_bind (((Resolver.resolving_within _).instantiate _ _ _).mild_seq hk)
        · exact (hk .error).reported (k := fun _ => k (.error, payload))
      clear_value declared
      split
      · rename_i ann o hhead
        obtain ⟨more, rfl⟩ := List.head?_eq_some_iff.1 hhead
        simp only [bind_assoc, pure_bind]
        refine (Peeks.typeOf _ _ _).mild_seq fun _ => ?_
        refine ((hargs o mem_cons_self).check f none).seq (fun ty => ?_) hd.append.2.2
        exact (Peeks.unify _ _ _).mild_seq fun b => hresolved b (some ty) fun found => hsome o more found ty rfl
      · exact hresolved {} none hnone
  split
  · rw [bind_assoc]
    refine (resolving_enum? _).mild_seq fun sig => ?_
    split
    · exact hnone _
    · exact hrest
  · exact hrest

variable (hid : ¬ L.isPattern id)

include hid

/-- The parts are those arguments that have not been checked. -/
theorem leaves_checkVariant (span nameSpan : Span) (enum : QualName) (variant : String)
    {known : Option Ty} {rest : List Operand}
    (hrest : known = none ∧ rest = args ∨ ∃ o, args = o :: rest ∧ known ≠ none) :
    L.Leaves (Operand.allNodes rest) (checkVariant f id span nameSpan enum variant args known) := by
  refine (resolving_enum? _).mild_seq fun sig => ?_
  split
  · exact (Ledger.Grants.pure trivial).skipOperands _
  · split
    · exact leaves_rejectCall hargs hd _ _
    · rename_i sig _ index v _
      extract_lets record
      have hrecord : L.Mild (record ()) := (mild_recordVariant hid _).returns
      have hdiscard (site : Site) (problem : Problem) : L.Leaves (Operand.allNodes rest) (do
          report site problem
          discardAll f args
          record ()) := ((leaves_discardAll hargs hd).seq_mild fun _ => hrecord).reported
      split
      · rename_i payload arg _
        rcases hrest with ⟨rfl, rfl⟩ | ⟨o, heq, hknown⟩
        · have hsingle : Operand.allNodes [arg] = arg.expr.nodes := append_nil _
          rw [hsingle]
          refine ((hargs arg mem_cons_self).check f _).seq_mild fun actual => ?_
          exact (mild_expectType _ _ _ _).mild_seq fun _ => hrecord
        · cases heq
          obtain ⟨ty, rfl⟩ := Option.ne_none_iff_exists'.1 hknown
          simp only [pure_bind]
          exact (mild_expectType _ _ _ _).mild_seq fun _ => hrecord
      · exact hdiscard _ _
      · exact hrecord.skipOperands _
      · exact hdiscard _ _

theorem leaves_checkTypeCall (span nameSpan : Span) (name : String) (expected : Option Ty) (ref : TypeRef) :
    L.Leaves (Operand.allNodes args) (checkTypeCall f id span nameSpan name args expected ref) := by
  have hmethod (owner : QualName) :
      L.Leaves (Operand.allNodes args) (checkMethodCall f id span nameSpan owner name args) := by
    unfold checkMethodCall
    refine (resolving_signature? _).mild_seq fun sig => ?_
    split
    · exact (resolving_enum? _).mild_seq fun _ => leaves_rejectCall hargs hd _ _
    · refine Ledger.Grants.warned ((leaves_checkArguments hargs hd span _).seq_mild fun _ => ?_)
      exact (mild_recordCall _).returns
  unfold checkTypeCall
  split
  · exact leaves_discardArgs hargs hd _
  · refine (resolving_enum? _).mild_seq fun sig => ?_
    split
    · exact leaves_checkVariant hargs hd hid _ _ _ _ (.inl ⟨rfl, rfl⟩)
    · exact hmethod _
  · exact hmethod _
  · exact leaves_rejectCall hargs hd _ _
  · exact leaves_rejectCall hargs hd _ _
  · refine leaves_inferEnum hargs hd _ _ _ _ (fun ty => ?_) fun o rest ty known heq => ?_
    · split
      · rename_i heq
        cases heq
        exact leaves_checkVariant hargs hd hid _ _ _ _ (.inl ⟨rfl, rfl⟩)
      · rename_i heq
        cases heq
      · exact leaves_discardArgs hargs hd _
    · split
      · rename_i hfound
        cases hfound
        exact leaves_checkVariant hargs hd hid _ _ _ _ (.inr ⟨o, heq, nofun⟩)
      · exact (Ledger.Grants.pure trivial).skipOperands _
      · rename_i hfound
        cases hfound

omit hid

theorem leaves_checkIntrinsic (span nameSpan : Span) (receiver : String) (l : Local) (name : String) :
    L.Leaves (Operand.allNodes args) (checkIntrinsic f id span nameSpan receiver l name args) := by
  unfold checkIntrinsic
  split
  · split
    · exact leaves_discardArgs hargs hd _
    · exact leaves_rejectCall hargs hd _ _
  · refine Ledger.Grants.warned ?_
    split
    · exact leaves_rejectCall hargs hd _ _
    · refine (leaves_checkEach hargs hd _).seq_mild fun _ => ?_
      exact (mild_recordIntrinsic _).returns

omit hargs hd in
theorem Operand.nodes_of_path? {base : Operand} {path : PathExpr} (h : base.path? = some path) :
    base.expr.nodes = [.expr base.expr] ∧ ∀ scrutinee arms, base.expr.kind ≠ .select scrutinee arms := by
  obtain ⟨⟨bid, kind, span⟩, check⟩ := base
  cases kind <;> first | cases h; exact ⟨rfl, fun _ _ => nofun⟩ | cases h

variable {base : Operand} (hbase : L.Checks base) (hapart : Apart base.expr.nodes (Operand.allNodes args))

include hbase hapart

theorem leaves_checkValueCall (nameSpan : Span) (name : String) :
    L.Leaves (base.expr.nodes ++ Operand.allNodes args) (checkValueCall f nameSpan base name args) := by
  refine (hbase.check f none).seq (fun ty => ?_) hapart
  split
  · exact leaves_discardArgs hargs hd _
  · exact leaves_rejectCall hargs hd _ _
  · exact leaves_rejectCall hargs hd _ _
  · exact leaves_rejectCall hargs hd _ _

include hid

theorem leaves_checkMemberCall (span : Span) (name : String) (nameSpan : Span) (expected : Option Ty) :
    L.Leaves (base.expr.nodes ++ Operand.allNodes args)
      (checkMemberCall f id span base name nameSpan args expected) := by
  unfold checkMemberCall
  split
  · exact leaves_checkValueCall hargs hd hbase hapart _ _
  · rename_i path hispath
    obtain ⟨hnodes, hkind⟩ := Operand.nodes_of_path? hispath
    split
    · -- a variable is not checked, but its type is recorded
      have hrecord (ty : Ty) : L.Leaves base.expr.nodes (recordType base.expr.id ty) := by
        rw [hnodes]
        exact ⟨writes_recordType (.expr base.expr) ty, fun _ _ _ =>
          ⟨forall_mem_singleton.2 (.of_kind hkind), trivial⟩⟩
      exact (hrecord _).seq (fun _ => leaves_checkIntrinsic hargs hd _ _ _ _ _) hapart
    · refine (peeks_typeRef? _ _).mild_seq fun ref => ?_
      split
      · exact (leaves_checkTypeCall hargs hd hid _ _ _ _ _).skip base.expr hapart
      · exact leaves_checkValueCall hargs hd hbase hapart _ _

end Calls

/-! ### Members -/

section Members

variable {f : Frame} {id : Nat} {base : Operand}

theorem mild_checkTypeMember (hid : ¬ L.isPattern id) (span nameSpan : Span) (name : String)
    (expected : Option Ty) (ref : TypeRef) : L.Mild (checkTypeMember f id span nameSpan name expected ref) := by
  have hargs : ∀ o ∈ ([] : List Operand), L.Checks o := by simp
  have hd : L.Numbers (Operand.allNodes []) := ⟨.nil, by simp [Operand.allNodes]⟩
  have hvariant (enum : QualName) : L.Mild (checkVariant f id span nameSpan enum name [] none) :=
    leaves_checkVariant hargs hd hid _ _ _ _ (.inl ⟨rfl, rfl⟩)
  unfold checkTypeMember
  split
  · exact .pure trivial
  · exact hvariant _
  · exact grants_reject _ _
  · exact grants_reject _ _
  · refine leaves_inferEnum hargs hd _ _ _ _ (fun ty => ?_) fun o rest ty known heq => nomatch heq
    split
    · exact hvariant _
    · exact .pure trivial

theorem leaves_checkMember (hid : ¬ L.isPattern id) (hbase : L.Checks base) (span : Span) (name : String)
    (nameSpan : Span) (expected : Option Ty) :
    L.Leaves base.expr.nodes (checkMember f id span base name nameSpan expected) := by
  unfold checkMember
  extract_lets rest
  have hfield : L.Leaves base.expr.nodes (rest none) :=
    (hbase.check f none).seq_mild fun _ => (peeks_fieldType _ _ _).resolving.mild
  split
  · exact hfield
  · split
    · exact hfield
    · refine (peeks_typeRef? _ _).mild_seq fun ref => ?_
      cases ref with
      | none => exact hfield
      | some ref =>
        have hskip := (mild_checkTypeMember (f := f) hid span nameSpan name expected ref).skip base.expr
          (disjoint_nil_right _)
        rwa [append_nil] at hskip

end Members

/-! ### Statements -/

section Statements

variable {f : Frame} {o : Operand}

theorem leaves_checkLet (ho : L.Checks o) (span : Span) (name : String) (ann : Option TypeAnn) :
    L.Leaves o.expr.nodes (checkLet f span name ann (some o)) := by
  cases ann with
  | some ann =>
    refine (Peeks.typeOf _ _ _).mild_seq fun declared => ?_
    exact (leaves_checkAgainst ho declared).returns
  | none =>
    refine (ho.check f none).seq_mild fun actual => ?_
    split
    · exact (mild_settle _ _ _).returns
    · exact .pure trivial

theorem mild_checkLet (span : Span) (name : String) (ann : Option TypeAnn) :
    L.Mild (checkLet f span name ann none) := by
  cases ann with
  | some ann => exact (Peeks.typeOf _ _ _).resolving.mild
  | none => exact grants_reject _ _

theorem leaves_checkAssign (ho : L.Checks o) (span : Span) (target : String) :
    L.Leaves o.expr.nodes (checkAssign f span target o) := by
  unfold checkAssign
  split
  · exact (leaves_discard ho).reported (k := fun _ => discard f o)
  · exact (leaves_checkAgainst ho _).warned

theorem leaves_checkAssignField (ho : L.Checks o) (span : Span) (base : String) (fields : List String) :
    L.Leaves o.expr.nodes (checkAssignField f span base fields o) := by
  unfold checkAssignField
  split
  · exact (leaves_discard ho).reported (k := fun _ => discard f o)
  · exact Ledger.Grants.warned ((peeks_fieldPathType _ _ _).mild_seq fun ty => leaves_checkAgainst ho _)

theorem mild_checkReturn (span : Span) : L.Mild (checkReturn f span none) := by
  unfold checkReturn
  dsimp only
  split
  · exact grants_report _ _
  · exact .pure trivial

theorem mild_checkInLoop (span : Span) (word : String) : L.Mild (checkInLoop f span word) := by
  unfold checkInLoop
  split
  · exact grants_report _ _
  · exact .pure trivial

end Statements

end Keel.Typing
