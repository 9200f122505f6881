/-
# What is known about the nodes of a body

The checks of patterns and arms leave what `Decided` says of a match.  By recursion on a body, from
the rules: if nothing is reported in the end, then every node of it is accounted for, and so
every match that was looked at is decided.
-/
import Keel.Proofs.Typing.Outcomes
import Keel.Proofs.Typing.Generations

namespace Keel

open List

theorem Pattern.mem_nodes (p : Pattern) : Node.pattern p ∈ p.nodes := by
  cases p
  exact mem_cons_self

theorem Ty.isUntyped_iff {ty : Ty} : ty.isUntyped = true ↔ ty = .untyped := by
  cases ty <;> simp [isUntyped]

namespace Typing

variable {α β : Type} {L : Ledger}

/-! ### Patterns -/

mutual

theorem accounted_pattern {t : State} : ∀ p : Pattern, ∀ node ∈ p.nodes, Accounted t node
  | ⟨_, kind, _⟩ => forall_mem_cons.2 ⟨trivial, accounted_patternKind kind⟩

theorem accounted_patternKind {t : State} : ∀ k : PatternKind, ∀ node ∈ k.nodes, Accounted t node
  | .variant _ _ fields => accounted_patterns fields
  | .wildcard | .bind _ | .int _ | .bool _ | .str _ => forall_mem_nil _

theorem accounted_patterns {t : State} : ∀ ps : List Pattern, ∀ node ∈ Pattern.allNodes ps, Accounted t node
  | [] => forall_mem_nil _
  | p :: rest => forall_mem_append.2 ⟨accounted_pattern p, accounted_patterns rest⟩

end

section Patterns

variable {f : Frame} {p : Pattern} {s : Scrutinee} {c : Coverage}

theorem Ledger.Grants.inPattern {c : Check α} {Φ : α → Prop} (h : L.Grants [.pattern p] c Φ) :
    L.Grants p.nodes c Φ := by
  have hsub : [.pattern p] ⊆ p.nodes := by simpa using p.mem_nodes
  exact ⟨fun s => (h.writes s).mono hsub, fun s hb hl =>
    ⟨accounted_pattern p, (h.gives s (hb.mono hsub) (hl.mono hsub)).2⟩⟩

theorem grants_cover_bind [BEq α] [LawfulBEq α] {site : Site} {seen : List α} {value : α} {nodes : List Node}
    {k : List α → Check β} {Ψ : β → Prop} (h : L.Grants nodes (k (value :: seen)) fun b => value ∉ seen → Ψ b) :
    L.Grants nodes (cover site seen value >>= k) Ψ := by
  unfold cover
  by_cases hmem : seen.contains value = true
  · rw [if_pos hmem]
    exact h.reported (k := fun _ => k (value :: seen))
  · rw [if_neg hmem]
    exact h.imp fun b hb => hb (by simpa using hmem)

theorem grants_coverVariant (hp : L.isPattern p.id) {sig : EnumSig} {index : Nat}
    (hindex : index < sig.variants.length) :
    L.Grants [.pattern p] (coverVariant f p sig index c) (Adds L.last (.enum sig) c p) := by
  refine grants_cover_bind ((grants_recordVariant hp _).bind_mild fun _ => .pure fun hvariant hnew => ?_)
  refine ⟨.variant index, ?_, hindex, .inr hnew, fun other => ?_⟩
  · rw [Resolutions.taken?, hvariant]
  · cases other <;> simp [Coverage.takes, or_comm]

/-- Where nothing is recorded about the pattern, its form tells what it takes. -/
theorem grants_untouched (hp : L.isPattern p.id) {a : α} {Φ : α → Prop}
    (h : L.last.resolutions.variants.get? p.id = none → Φ a) : L.Grants p.nodes (pure a) Φ where
  writes s := .refl _ s
  gives _ hb hl := ⟨accounted_pattern p, h ((hl.variants _ p.mem_nodes hp).trans ((hb _ p.mem_nodes).1 hp))⟩

theorem leaves_checkPayload (hp : L.isPattern p.id) (payload : Ty) :
    L.Leaves p.nodes (checkPayload f p payload) := by
  unfold checkPayload
  split
  · exact grants_untouched hp fun _ => trivial
  · exact (grants_recordType hp payload).inPattern.returns
  · exact grants_report_pure _ _ _

theorem leaves_checkPayloads {fields : List Pattern} (hfields : L.Numbers (Pattern.allNodes fields))
    (site : Site) (enum variant : String) (payload : Option Ty) :
    L.Leaves (Pattern.allNodes fields) (checkPayloads f site enum variant payload fields) := by
  unfold checkPayloads
  split
  · rename_i field
    have hnodes : Pattern.allNodes [field] = field.nodes := append_nil _
    rw [hnodes] at hfields ⊢
    exact leaves_checkPayload (hfields.sorts _ field.mem_nodes) _
  · exact .pure trivial
  · exact grants_report_pure _ _ _
  · exact grants_report_pure _ _ _
  · exact grants_report_pure _ _ _

theorem grants_checkVariantPattern {id : Nat} {span : Span} {sig : EnumSig} {path : Option (List String)}
    {variant : String} {fields : List Pattern}
    (hd : L.Numbers (Pattern.mk id (.variant path variant fields) span).nodes) :
    L.Grants (Pattern.mk id (.variant path variant fields) span).nodes
      (checkVariantPattern f ⟨id, .variant path variant fields, span⟩ sig c path variant fields) fun r =>
        Adds L.last (.enum sig) c ⟨id, .variant path variant fields, span⟩ r.2 := by
  obtain ⟨hp, hapart, hfields⟩ := hd.cons
  unfold checkVariantPattern
  extract_lets site rest
  have hrest : L.Grants (Pattern.mk id (.variant path variant fields) span).nodes (rest ()) fun r =>
      Adds L.last (.enum sig) c ⟨id, .variant path variant fields, span⟩ r.2 := by
    unfold rest
    split
    · exact grants_report_pure _ _ _
    · rename_i index v hfound
      have h := (leaves_checkPayloads (f := f) hfields site sig.name.name variant v.payload).bind
        (Ψ := fun r : Frame × Coverage => Adds L.last (.enum sig) c ⟨id, .variant path variant fields, span⟩ r.2)
        (fun inner => (grants_coverVariant (f := inner) (c := c) hp (EnumSig.lt_of_variant? hfound)).bind_mild
          fun c' => .pure (a := (inner, c')) fun hadds _ => hadds) hapart.symm
      refine h.congr ?_ ?_
      · simp [Pattern.nodes, PatternKind.nodes]
      · simp [Pattern.nodes, PatternKind.nodes]
  split
  · refine (peeks_namesEnum _ _).mild_seq fun named => ?_
    split
    · exact grants_report_pure _ _ _
    · exact hrest
  · exact hrest

theorem grants_checkBinding (hp : L.isPattern p.id) {name : String} (hkind : p.kind = .bind name) (ty : Ty) :
    L.Grants p.nodes (checkBinding f p s ty c name) fun r => Adds L.last s c p r.2 := by
  unfold checkBinding
  extract_lets unit
  have hunit (sig : EnumSig) (index : Nat) (h : unit = some (sig, index)) :
      s = .enum sig ∧ index < sig.variants.length := by
    unfold unit at h
    split at h
    · obtain ⟨i, hi, heq⟩ := Option.map_eq_some_iff.1 h
      cases heq
      exact ⟨rfl, unitVariant?_eq_some hi⟩
    · cases h
  cases hfound : unit with
  | some found =>
    obtain ⟨sig, index⟩ := found
    obtain ⟨rfl, hindex⟩ := hunit sig index hfound
    exact (grants_coverVariant hp hindex).inPattern.bind_mild fun c' => .pure fun hadds => hadds
  | none =>
    exact (grants_recordType hp ty).inPattern.bind_mild fun _ => .pure fun hnone =>
      adds_all (taken?_bind hkind hnone)

theorem grants_checkPattern (hd : L.Numbers p.nodes) (ty : Ty) :
    L.Grants p.nodes (checkPattern f p s ty c) fun r => PatternOutcome L.last s c p r.2 := by
  have hp : L.isPattern p.id := hd.sorts _ p.mem_nodes
  unfold checkPattern
  extract_lets site
  split
  · exact grants_untouched hp id
  · exact grants_untouched hp id
  · rename_i hkind hs
    refine grants_untouched hp fun h => patternOutcome_of_adds (adds_all ?_) hs
    rw [Resolutions.taken?, h, hkind]
  · rename_i hkind hs
    exact (grants_checkBinding hp hkind ty).imp fun _ h => patternOutcome_of_adds h hs
  · rename_i value ty hkind
    refine Ledger.Grants.unless (grants_cover_bind (grants_untouched hp fun h hnew hadmits => ?_))
    refine adds_of_literal (.int value) (by rw [Resolutions.taken?, h, hkind]) ?_ hnew ?_
    · simpa [Scrutinee.Suits] using hadmits
    · exact fun other => by cases other <;> simp [Coverage.takes]
  · rename_i value hkind
    refine grants_cover_bind (grants_untouched hp fun h hnew => ?_)
    exact adds_of_literal (.bool value) (by rw [Resolutions.taken?, h, hkind]) trivial hnew
      fun other => by cases other <;> simp [Coverage.takes]
  · rename_i value hkind
    refine grants_cover_bind (grants_untouched hp fun h hnew => ?_)
    exact adds_of_literal (.str value) (by rw [Resolutions.taken?, h, hkind]) trivial hnew
      fun other => by cases other <;> simp [Coverage.takes]
  · rename_i path variant fields hkind
    obtain ⟨id, kind, span⟩ := p
    subst hkind
    exact grants_checkVariantPattern hd
  · exact grants_report_pure _ _ _
  · exact grants_report_pure _ _ _

end Patterns

/-! ### Matches -/

section Matches

variable {f : Frame} {o : Operand} {s : Scrutinee} {arms : List ArmOperand}

def ArmOperand.allNodes (arms : List ArmOperand) : List Node :=
  arms.flatMap fun arm => arm.pattern.nodes ++ arm.body.expr.nodes

theorem grants_checkArms (hd : L.Numbers (ArmOperand.allNodes arms)) (harms : ∀ arm ∈ arms, L.Checks arm.body)
    (ty : Ty) (expected : Option Ty) (c : Coverage) :
    L.Grants (ArmOperand.allNodes arms) (checkArms f s ty expected arms c) fun r =>
      ArmsOutcome L.last s c (arms.map (·.pattern)) r.2 := by
  induction arms generalizing c with
  | nil => exact .pure (armsOutcome_nil s c)
  | cons arm rest ih =>
    have hnodes : ArmOperand.allNodes (arm :: rest) =
        arm.pattern.nodes ++ (arm.body.expr.nodes ++ ArmOperand.allNodes rest) := by
      simp [ArmOperand.allNodes]
    rw [hnodes] at hd ⊢
    obtain ⟨hpattern, hd, hapart⟩ := hd.append
    obtain ⟨-, hrest, hapart'⟩ := hd.append
    obtain ⟨harm, harms⟩ := forall_mem_cons.1 harms
    unfold checkArms
    refine Ledger.Grants.unless ((grants_checkPattern hpattern ty).bind (fun r => ?_) hapart)
    obtain ⟨inner, c₁⟩ := r
    refine (harm.check inner expected).bind (fun result => (ih hrest harms c₁).bind_mild fun r => .pure ?_) hapart'
    exact fun hr _ hp hnot => hr.cons hp hnot

theorem grants_enum? (name : QualName) : L.Grants [] (enum? name) fun r =>
    (∀ sig, r = some sig → L.last.signatures.enums.get? name = some sig) ∧
      (r = none → ∀ sig, L.last.signatures.enums.get? name = some sig → sig.origin ≠ none) where
  writes := (resolving_enum? (d := L.decls) name).mild.writes
  gives s _ hl := by
    refine ⟨forall_mem_nil _, fun sig hsig => hl.later.types.enums name sig hsig, ?_⟩
    intro hnone sig hsig horigin
    have hold : s.signatures.enums.get? name = some sig := hl.later.types.oldEnums name sig hsig horigin
    have hnone : s.signatures.enums.get? name = none := hnone
    rw [hold] at hnone
    cases hnone

theorem grants_scrutineeOf (site : Site) (ty : Ty) : L.Grants [] (scrutineeOf site ty) (ScrutineeOf L.last ty) := by
  unfold scrutineeOf
  split
  · refine (grants_enum? _).mild_bind fun r => ?_
    split
    · exact .pure fun h => .inl ⟨_, rfl, h.1 _ rfl⟩
    · exact .pure fun h => .inr ⟨rfl, h.2 rfl⟩
  · exact .pure rfl
  · exact .pure rfl
  · exact .pure rfl
  · exact .pure rfl
  · exact .pure rfl
  · exact grants_report_pure _ _ _

/-- A number without a type has one after it was settled. -/
theorem settle_records {file : SourcePath} {target : Ty} {e : Expr} {s : State}
    (h : s.resolutions.exprTypes.get? e.id = some .untyped) (htarget : target ≠ .untyped)
    (hc : (settle file target e L.decls s).2.Clean) :
    (settle file target e L.decls s).2.resolutions.exprTypes.get? e.id = some target := by
  obtain ⟨id, kind, span⟩ := e
  rw [settle_untyped kind span h] at hc ⊢
  have hbecomes :=
    (writes_settleKind file target span kind (recordType id target L.decls s).2).types hc id (by simp)
  rw [show (recordType id target L.decls s).2.resolutions.exprTypes.get? id = some target from
    (get?_insert _ _ _ _).trans (if_pos rfl)] at hbecomes
  exact hbecomes.resolve_right fun heq => htarget (Option.some.inj heq)

/-- The type of what is matched is the one that is known in the end. -/
theorem grants_scrutineeType (ho : L.Checks o) : L.Grants o.expr.nodes (scrutineeType f o) fun ty =>
    L.last.resolutions.exprTypes.get? o.expr.id = some ty := by
  have hbase : L.Leaves o.expr.nodes (scrutineeType f o) := by
    refine (ho.check f none).seq_mild fun ty => ?_
    split
    · exact (mild_settle _ _ _).returns
    · exact .pure trivial
  refine ⟨hbase.writes, fun s hb hl => ⟨(hbase.gives s hb hl).1, ?_⟩⟩
  have hrecorded := ho.recorded f none s
  have htypes : Becomes _ (L.last.resolutions.exprTypes.get? o.expr.id) := hl.types _ o.expr.mem_nodes
  by_cases huntyped : (o.check f none L.decls s).1.isUntyped = true
  · have hrun : scrutineeType f o L.decls s =
        (Ty.i64, (settle f.scope.file .i64 o.expr L.decls (o.check f none L.decls s).2).2) := by
      show (if (o.check f none L.decls s).1.isUntyped = true then _ else _ : Check Ty) L.decls _ = _
      rw [if_pos huntyped]
      rfl
    rw [Ty.isUntyped_iff.1 huntyped] at hrecorded
    have hclean := hl.cleanBefore
    rw [hrun] at htypes hclean ⊢
    rw [show (Node.expr o.expr).id = o.expr.id from rfl,
      settle_records hrecorded (by simp [Ty.i64]) hclean] at htypes
    exact htypes.resolve_right nofun
  · have hrun : scrutineeType f o L.decls s = o.check f none L.decls s := by
      show (if (o.check f none L.decls s).1.isUntyped = true then _ else _ : Check Ty) L.decls _ = _
      rw [if_neg huntyped]
      rfl
    rw [hrun, show (Node.expr o.expr).id = o.expr.id from rfl, hrecorded] at htypes
    rw [hrun]
    exact htypes.resolve_right fun heq => huntyped (by rw [Option.some.inj heq]; rfl)

theorem mild_settleBodies (file : SourcePath) (ty : Ty) (arms : List ArmOperand) :
    L.Mild (arms.forM fun arm => settle file ty arm.body.expr) := by
  induction arms with
  | nil => exact .pure trivial
  | cons arm rest ih => exact (mild_settle _ _ _).mild_seq fun _ => ih

theorem grants_checkCases (harms : ∀ arm ∈ arms, L.Checks arm.body)
    (hd : L.Numbers (ArmOperand.allNodes arms)) (span : Span) (expected : Option Ty) (ty : Ty) :
    L.Grants (ArmOperand.allNodes arms) (checkCases f span o arms expected ty) fun _ => ∃ s c,
      ScrutineeOf L.last ty s ∧ ArmsOutcome L.last s {} (arms.map (·.pattern)) c ∧ s.missing c = none := by
  refine (grants_scrutineeOf _ ty).mild_bind fun s => ?_
  refine (grants_checkArms hd harms ty expected {}).bind_mild fun r => ?_
  obtain ⟨results, c⟩ := r
  dsimp -zeta only
  extract_lets rest
  have hrest : L.Mild (rest ()) := by
    refine (mild_joinTypes _ _ _ _).mild_seq fun joined => ?_
    split
    · exact (mild_settleBodies _ _ _).returns
    · exact .pure trivial
  cases hmissing : s.missing c with
  | some problem => exact hrest.reported (k := rest)
  | none => exact hrest.imp fun _ _ harms hs => ⟨s, c, hs, harms, hmissing⟩

theorem grants_checkSelect (ho : L.Checks o) (harms : ∀ arm ∈ arms, L.Checks arm.body)
    (hd : L.Numbers (o.expr.nodes ++ ArmOperand.allNodes arms)) (span : Span) (expected : Option Ty) :
    L.Grants (o.expr.nodes ++ ArmOperand.allNodes arms) (checkSelect f span o arms expected) fun _ =>
      Decided L.last o.expr (arms.map (·.pattern)) := by
  obtain ⟨-, hd, hapart⟩ := hd.append
  unfold checkSelect
  refine (grants_scrutineeType ho).bind (fun ty => ?_) hapart
  refine (grants_checkCases harms hd span expected ty).imp fun _ h hty => ?_
  obtain ⟨s, c, hs, hc, hmissing⟩ := h
  exact ⟨ty, s, c, hty, hs, hc, hmissing⟩

end Matches

/-! ### Lists of operands -/

theorem nodes_operands (es : List Expr) : Operand.allNodes (operands es) = Expr.allNodes es := by
  induction es with
  | nil => rfl
  | cons e rest ih => exact congrArg (e.nodes ++ ·) ih

theorem nodes_fieldOperands (fs : List FieldInit) :
    FieldOperand.allNodes (fieldOperands fs) = FieldInit.allNodes fs := by
  induction fs with
  | nil => rfl
  | cons f rest ih =>
    obtain ⟨name, value, span⟩ := f
    exact congrArg (value.nodes ++ ·) ih

theorem nodes_armOperands (arms : List Arm) : ArmOperand.allNodes (armOperands arms) = Arm.allNodes arms := by
  induction arms with
  | nil => rfl
  | cons arm rest ih =>
    obtain ⟨pattern, body, span⟩ := arm
    simp only [armOperands, ArmOperand.allNodes, flatMap_cons, append_assoc, Arm.allNodes]
    exact congrArg (fun nodes => pattern.nodes ++ (body.nodes ++ nodes)) ih

theorem patterns_armOperands (arms : List Arm) : (armOperands arms).map (·.pattern) = arms.map (·.pattern) := by
  induction arms with
  | nil => rfl
  | cons arm rest ih =>
    obtain ⟨pattern, body, span⟩ := arm
    simp [armOperands, ih]

/-! ### The recursion -/

mutual

theorem checks_expr : ∀ e : Expr, L.Numbers e.nodes → L.Checks ⟨e, checkExpr e⟩
  | ⟨id, kind, span⟩, hd => by
    obtain ⟨hid, hapart, hkind⟩ := hd.cons
    refine ⟨fun f expected => ?_, fun f expected s => (get?_insert _ _ _ _).trans (if_pos rfl)⟩
    exact (grants_checkKind id span kind hid hkind f expected).typed hapart fun _ h => h

theorem grants_checkKind (id : Nat) (span : Span) : ∀ kind : ExprKind, ¬ L.isPattern id →
    L.Numbers kind.nodes → ∀ f expected, L.Grants kind.nodes (checkKind id span kind f expected) fun _ =>
      Accounted L.last (.expr ⟨id, kind, span⟩)
  | .literal value, _, _, _, expected => (mild_checkLiteral span expected value).imp fun _ _ => trivial
  | .path path, _, _, _, _ => (mild_checkPath span path).imp fun _ _ => trivial
  | .unary op operand, _, hd, _, expected =>
    (leaves_checkUnary op (checks_expr operand hd) expected).imp fun _ _ => trivial
  | .binary op left right, _, hd, _, expected =>
    have ⟨hl, hr, hapart⟩ := hd.append
    (leaves_checkBinary (checks_expr left hl) (checks_expr right hr) hapart span op expected).imp fun _ _ => trivial
  | .cast operand ty, _, hd, _, _ => (leaves_checkCast (checks_expr operand hd) ty).imp fun _ _ => trivial
  | .call ⟨calleeId, .member base name nameSpan, calleeSpan⟩ args, hid, hd, _, expected => by
    have hnodes : (ExprKind.call ⟨calleeId, .member base name nameSpan, calleeSpan⟩ args).nodes =
      .expr ⟨calleeId, .member base name nameSpan, calleeSpan⟩ :: (base.nodes ++ Expr.allNodes args) := rfl
    rw [hnodes] at hd ⊢
    obtain ⟨hbase, hargs, hapart⟩ := hd.cons.2.2.append
    rw [← nodes_operands] at hapart ⊢
    refine Ledger.Grants.cons (Ledger.Grants.imp (?_ : L.Leaves _ _) fun _ _ => trivial) trivial
    exact leaves_checkMemberCall (checks_operands args hargs) (by rwa [nodes_operands]) hid
      (checks_expr base hbase) hapart span name nameSpan expected
  | .call ⟨calleeId, .path path, calleeSpan⟩ args, hid, hd, _, expected => by
    have hnodes : (ExprKind.call ⟨calleeId, .path path, calleeSpan⟩ args).nodes =
      .expr ⟨calleeId, .path path, calleeSpan⟩ :: Expr.allNodes args := rfl
    rw [hnodes] at hd ⊢
    have hargs := hd.cons.2.2
    rw [← nodes_operands]
    refine Ledger.Grants.cons (Ledger.Grants.imp (?_ : L.Leaves _ _) fun _ _ => trivial) trivial
    exact leaves_checkPathCall (checks_operands args hargs) (by rwa [nodes_operands]) span calleeSpan path expected
  | .call ⟨_, .literal _, _⟩ args, _, hd, _, _ | .call ⟨_, .unary _ _, _⟩ args, _, hd, _, _
  | .call ⟨_, .binary _ _ _, _⟩ args, _, hd, _, _ | .call ⟨_, .cast _ _, _⟩ args, _, hd, _, _
  | .call ⟨_, .call _ _, _⟩ args, _, hd, _, _ | .call ⟨_, .record _ _, _⟩ args, _, hd, _, _
  | .call ⟨_, .select _ _, _⟩ args, _, hd, _, _ | .call ⟨_, .cond _, _⟩ args, _, hd, _, _
  | .call ⟨_, .block _, _⟩ args, _, hd, _, _ =>
    have hargs := hd.append.2.1
    (leaves_rejectCall (checks_operands args hargs) (by rwa [nodes_operands]) _ _).imp fun _ _ => trivial
  | .member base name nameSpan, hid, hd, _, expected =>
    (leaves_checkMember hid (checks_expr base hd) span name nameSpan expected).imp fun _ _ => trivial
  | .record path fields, _, hd, _, expected => by
    have hfields := checks_fieldOperands fields hd
    rw [ExprKind.nodes, ← nodes_fieldOperands] at hd ⊢
    exact (leaves_checkRecord hfields hd span path expected).imp fun _ _ => trivial
  | .select scrutinee arms, _, hd, _, expected => by
    obtain ⟨hscrutinee, harms, -⟩ := hd.append
    have hbodies := checks_armOperands arms harms
    rw [ExprKind.nodes, ← nodes_armOperands] at hd ⊢
    refine (grants_checkSelect (checks_expr scrutinee hscrutinee) hbodies hd span expected).imp fun _ h => ?_
    rw [patterns_armOperands] at h
    exact .inr h
  | .cond choice, _, hd, _, expected => (leaves_checkConditional choice hd _ expected).imp fun _ _ => trivial
  | .block body, _, hd, _, expected => (leaves_checkBlock body hd _ expected).imp fun _ _ => trivial

theorem checks_operands : ∀ es : List Expr, L.Numbers (Expr.allNodes es) → ∀ o ∈ operands es, L.Checks o
  | [], _ => forall_mem_nil _
  | e :: rest, hd =>
    have ⟨he, hrest, _⟩ := hd.append
    forall_mem_cons.2 ⟨checks_expr e he, checks_operands rest hrest⟩

theorem checks_fieldOperands : ∀ fs : List FieldInit, L.Numbers (FieldInit.allNodes fs) →
    ∀ o ∈ fieldOperands fs, L.Checks o.value
  | [], _ => forall_mem_nil _
  | ⟨_, value, _⟩ :: rest, hd =>
    have ⟨hvalue, hrest, _⟩ := hd.append
    forall_mem_cons.2 ⟨checks_expr value hvalue, checks_fieldOperands rest hrest⟩

theorem checks_armOperands : ∀ arms : List Arm, L.Numbers (Arm.allNodes arms) →
    ∀ arm ∈ armOperands arms, L.Checks arm.body
  | [], _ => forall_mem_nil _
  | ⟨_, body, _⟩ :: rest, hd =>
    have ⟨hbody, hrest, _⟩ := hd.append.2.1.append
    forall_mem_cons.2 ⟨checks_expr body hbody, checks_armOperands rest hrest⟩

theorem leaves_checkConditional : ∀ c : Conditional, L.Numbers c.nodes → ∀ f expected,
    L.Leaves c.nodes (checkConditional c f expected)
  | ⟨condition, thenBlock, otherwise, span⟩, hd, f, expected => by
    obtain ⟨hc, hd, hapart⟩ := hd.append
    obtain ⟨ht, ho, hapart'⟩ := hd.append
    refine (leaves_checkAgainst (checks_expr condition hc) _).seq (fun _ => ?_) hapart
    refine (leaves_checkBlock thenBlock ht f expected).seq (fun thenTy => ?_) hapart'
    refine (leaves_checkElse otherwise ho f expected).seq_mild fun elseTy => ?_
    split
    · exact (mild_settleBlock _ _ _).returns
    · refine (mild_joinTypes _ _ _ _).mild_seq fun joined => ?_
      split
      · exact (mild_settleConditional _ _ _).returns
      · exact .pure trivial

theorem leaves_checkElse : ∀ o : ElseBranch, L.Numbers o.nodes → ∀ f expected,
    L.Leaves o.nodes (checkElse o f expected)
  | .absent, _, _, _ => .pure trivial
  | .block body, hd, f, expected => (leaves_checkBlock body hd f expected).returns
  | .elseIf choice, hd, f, expected =>
    (leaves_checkConditional choice hd f expected).returns

theorem leaves_checkBlock : ∀ b : Block, L.Numbers b.nodes → ∀ f expected,
    L.Leaves b.nodes (checkBlock b f expected)
  | ⟨stmts, tail, _⟩, hd, f, expected =>
    have ⟨hs, htail, hapart⟩ := hd.append
    (leaves_checkStmts stmts hs f).seq (fun inner => leaves_checkTail tail htail inner expected) hapart

theorem leaves_checkTail : ∀ e : Option Expr, L.Numbers (Expr.optNodes e) → ∀ f expected,
    L.Leaves (Expr.optNodes e) (checkTail e f expected)
  | none, _, _, _ => .pure trivial
  | some e, hd, f, expected => (checks_expr e hd).check f expected

theorem leaves_checkStmts : ∀ ss : List Stmt, L.Numbers (Stmt.allNodes ss) → ∀ f,
    L.Leaves (Stmt.allNodes ss) (checkStmts ss f)
  | [], _, _ => .pure trivial
  | s :: rest, hd, f =>
    have ⟨hs, hrest, hapart⟩ := hd.append
    (leaves_checkStmt s hs f).seq (fun inner => leaves_checkStmts rest hrest inner) hapart

theorem leaves_checkStmt : ∀ s : Stmt, L.Numbers s.nodes → ∀ f, L.Leaves s.nodes (checkStmt s f)
  | .bind id name ann none isMutable span, _, f =>
    Ledger.Grants.cons ((mild_checkLet span name ann).mild_seq fun ty =>
      (mild_recordLet ty).returns) trivial
  | .bind id name ann (some value) isMutable span, hd, f =>
    Ledger.Grants.cons ((leaves_checkLet (checks_expr value hd.cons.2.2) span name ann).seq_mild fun ty =>
      (mild_recordLet ty).returns) trivial
  | .assign target value span, hd, f =>
    (leaves_checkAssign (checks_expr value hd) span target).returns
  | .assignField base fields value span, hd, f =>
    (leaves_checkAssignField (checks_expr value hd) span base fields).returns
  | .expr e, hd, f => (leaves_discard (checks_expr e hd)).returns
  | .ret none span, _, f => (mild_checkReturn span).returns
  | .ret (some value) span, hd, f =>
    (leaves_checkAgainst (checks_expr value hd) _).returns
  | .cond choice, hd, f =>
    (leaves_checkConditional choice hd f none).seq_mild fun _ =>
      (mild_settleConditional _ _ _).returns
  | .loop condition body _, hd, f => by
    obtain ⟨hc, hb, hapart⟩ := hd.append
    refine (leaves_checkAgainst (checks_expr condition hc) _).seq (fun _ => ?_) hapart
    refine (leaves_checkBlock body hb { f with inLoop := true } none).seq_mild fun _ => ?_
    exact (mild_settleBlock _ _ _).returns
  | .brk span, _, f | .cont span, _, f => (mild_checkInLoop span _).returns
  | .block body, hd, f =>
    (leaves_checkBlock body hd f none).seq_mild fun _ => (mild_settleBlock _ _ _).returns

end

/-! ### In later states -/

section Congr

variable {s s' : State} {id : Nat}

theorem types_congr {r r' : Resolutions} (h : r'.entry id = r.entry id) :
    r'.exprTypes.get? id = r.exprTypes.get? id := by
  simp only [Resolutions.entry, Prod.mk.injEq] at h
  tauto

theorem variants_congr {r r' : Resolutions} (h : r'.entry id = r.entry id) :
    r'.variants.get? id = r.variants.get? id := by
  simp only [Resolutions.entry, Prod.mk.injEq] at h
  tauto

theorem ScrutineeOf.congr {ty : Ty} {k : Scrutinee} (h : ScrutineeOf s ty k)
    (htypes : Signatures.Keeps s.signatures s'.signatures) : ScrutineeOf s' ty k := by
  cases ty with
  | enum name =>
    rcases h with ⟨sig, hk, hsig⟩ | ⟨hk, hnone⟩
    · exact .inl ⟨sig, hk, htypes.enums name sig hsig⟩
    · refine .inr ⟨hk, fun sig hsig horigin => ?_⟩
      exact hnone sig (htypes.oldEnums name sig hsig horigin) horigin
  | _ => exact h

theorem ArmsOutcome.congr {k : Scrutinee} {c c' : Coverage} {ps : List Pattern} (h : ArmsOutcome s k c ps c')
    (hps : ∀ p ∈ ps, s'.resolutions.variants.get? p.id = s.resolutions.variants.get? p.id) :
    ArmsOutcome s' k c ps c' := by
  have htaken : ps.map s'.resolutions.taken? = ps.map s.resolutions.taken? :=
    map_congr_left fun p hp => by rw [Resolutions.taken?, Resolutions.taken?, hps p hp]
  have hvalid (h : ∃ takens, Chain s k c ps takens c') : ∃ takens, Chain s' k c ps takens c' := by
    obtain ⟨takens, hchain⟩ := h
    exact ⟨takens, { hchain with taken := htaken.trans hchain.taken }⟩
  cases k with
  | invalid => exact fun p hp => (hps p hp).trans (h p hp)
  | _ => exact hvalid h

theorem pattern_mem_nodes {arms : List Arm} {p : Pattern} (h : p ∈ arms.map (·.pattern)) :
    Node.pattern p ∈ Arm.allNodes arms := by
  induction arms with
  | nil => cases h
  | cons arm rest ih =>
    obtain ⟨pattern, body, span⟩ := arm
    rcases mem_cons.1 h with rfl | h
    · obtain ⟨id, kind, span⟩ := p
      exact mem_append_left _ mem_cons_self
    · exact mem_append_right _ (mem_append_right _ (ih h))

/-- What is accounted for stays so, as long as what is known about the nodes stays. -/
theorem Accounted.congr {e : Expr} (h : Accounted s (.expr e))
    (htypes : Signatures.Keeps s.signatures s'.signatures)
    (hnodes : ∀ node ∈ e.nodes, s'.resolutions.entry node.id = s.resolutions.entry node.id) :
    Accounted s' (.expr e) := by
  obtain ⟨id, kind, span⟩ := e
  cases kind with
  | select scrutinee arms =>
    have hscrutinee : s'.resolutions.exprTypes.get? scrutinee.id = s.resolutions.exprTypes.get? scrutinee.id :=
      types_congr (hnodes (.expr scrutinee) (mem_cons_of_mem _ (mem_append_left _ scrutinee.mem_nodes)))
    have hpatterns : ∀ p ∈ arms.map (·.pattern),
        s'.resolutions.variants.get? p.id = s.resolutions.variants.get? p.id := fun p hp =>
      variants_congr (hnodes (.pattern p) (mem_cons_of_mem _ (mem_append_right _ (pattern_mem_nodes hp))))
    refine Or.imp hscrutinee.trans ?_ h
    rintro ⟨ty, k, c, hty, hk, hc, hmissing⟩
    exact ⟨ty, k, c, hscrutinee.trans hty, hk.congr htypes, hc.congr hpatterns, hmissing⟩
  | _ => trivial

end Congr

/-! ### Functions -/

variable {g : FunctionDecl} {sig : FunctionSig} {depth : Nat}

theorem mild_checkResult (scope : ModuleScope) (decl : FunctionDef) (bodyTy ret : Ty) :
    L.Mild (checkResult scope decl bodyTy ret) := by
  unfold checkResult
  split
  · exact mild_expectType _ _ _ _
  · split
    · exact grants_report _ _
    · exact .pure trivial

theorem leaves_checkBody (hd : L.Numbers g.decl.body.nodes) : L.Leaves g.decl.body.nodes (checkBody g sig depth) :=
  (leaves_checkBlock g.decl.body hd (g.frame sig depth) (some sig.ret)).seq_mild fun _ => mild_checkResult _ _ _ _

def bodyLedger (d : Declarations) (g : FunctionDecl) (last : State) : Ledger where
  decls := d
  last := last
  isPattern id := ∃ p, Node.pattern p ∈ g.decl.body.nodes ∧ p.id = id

theorem numbers_bodyLedger {d : Declarations} {last : State} (hd : (g.decl.body.nodes.map Node.id).Nodup) :
    (bodyLedger d g last).Numbers g.decl.body.nodes where
  nodup := hd
  sorts node hnode := by
    cases node with
    | expr e =>
      rintro ⟨p, hp, hid⟩
      cases inj_on_of_nodup_map hd hp hnode hid
    | pattern p => exact ⟨p, hnode, rfl⟩
    | bind id => trivial

def FunctionAccounted (s : State) (f : CheckedFunction) : Prop :=
  ∀ node ∈ f.decl.body.nodes, Accounted s node

/-- **A body that is checked without a report is accounted for.** -/
theorem establishes_accounted (d : Declarations) : Establishes d (fun _ => True) FunctionAccounted where
  keeps _ _ := keeps_true _
  taken _ _ := trivial
  congr s s' f htypes _ hentries hnodes node hnode := by
    match node with
    | .pattern _ | .bind _ => trivial
    | .expr e =>
      refine (hnodes (.expr e) hnode).congr htypes fun part hpart => hentries _ ?_
      exact ⟨part, f.decl.body.holdsParts e hnode part hpart, rfl⟩
  holds depth name s g sig hg _ _ hspread hunknown hclean := by
    have hnumbers : (bodyLedger d g (checkBody g sig depth d s).2).Numbers g.decl.body.nodes :=
      numbers_bodyLedger (hspread.numbered name g hg).nodup
    refine ((leaves_checkBody hnumbers).gives s (fun node hnode => ?_)
      ⟨.refl _, hclean, fun _ _ _ => rfl, fun _ _ => .refl _⟩).1
    have hid := hunknown node.id ⟨node, hnode, rfl⟩
    simp only [Resolutions.Knows, not_or] at hid
    simp only [Std.TreeMap.get?_eq_getElem?, Std.TreeMap.getElem?_eq_none, hid, implies_true, and_self,
      not_false_eq_true]

/-- **Every node of an accepted program is accounted for.** -/
theorem Makes.accounted {files : List SourceFile} {p : CheckedProgram} {c : Collected} {n : Nat}
    (h : Makes files p c n) {name : QualName} {f : CheckedFunction}
    (hf : p.functions.get? name = some f) : FunctionAccounted (c.afterBodies n) f := by
  have hlast := (h.underway trivial (establishes_accounted c.decls)).1.facts h.clean name f
  rw [h.program] at hf
  generalize c.afterBodies n = s at hf hlast ⊢
  exact hlast hf

end Typing
end Keel
