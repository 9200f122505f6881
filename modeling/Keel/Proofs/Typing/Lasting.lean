/-
# What a check leaves behind

A rule of the checker records something about a node, and goes on; whether that is what
is known in the end depends on everything that happens later.  Two things make it so.
What comes later writes at other nodes, except that a number without a type may still be
given one.  And if nothing is reported in the end, nothing was reported on the way.

What matters here are the types of expressions and the variants that patterns stand for.  A
`Ledger` says what the state is in the end, and which numbers are those of patterns.
`L.Grants nodes c Φ` says that `c` writes at these nodes only.  If they were blank before, and
nothing but later types changes there until the end, then they are accounted for, and `Φ` is true
of the value of `c`; what `Φ` says is mostly about the end.  Grants compose as long as the parts
of a computation write at different nodes.
-/
import Keel.Proofs.Typing.Coverage

namespace Keel

open List

/-! ### Nodes and their parts -/

/-- With an expression the nodes hold all of its nodes. -/
def HoldsParts (nodes : List Node) : Prop :=
  ∀ e, Node.expr e ∈ nodes → ∀ node ∈ e.nodes, node ∈ nodes

namespace HoldsParts

variable {nodes more : List Node}

theorem nil : HoldsParts [] := fun _ h => nomatch h

theorem append (h : HoldsParts nodes) (h' : HoldsParts more) : HoldsParts (nodes ++ more) :=
  fun e hmem node hnode => by
    rcases mem_append.1 hmem with hmem | hmem
    · exact mem_append_left _ (h e hmem node hnode)
    · exact mem_append_right _ (h' e hmem node hnode)

theorem cons {node : Node} (h : HoldsParts nodes)
    (hnode : ∀ e, node = .expr e → e.nodes ⊆ node :: nodes) : HoldsParts (node :: nodes) :=
  fun e hmem part hpart => by
    rcases mem_cons.1 hmem with heq | hmem
    · exact hnode e heq.symm hpart
    · exact mem_cons_of_mem _ (h e hmem part hpart)

end HoldsParts

mutual

theorem Pattern.holdsParts : ∀ p : Pattern, HoldsParts p.nodes
  | ⟨_, kind, _⟩ => (PatternKind.holdsParts kind).cons fun _ => nofun

theorem PatternKind.holdsParts : ∀ k : PatternKind, HoldsParts k.nodes
  | .variant _ _ fields => Pattern.allHoldParts fields
  | .wildcard | .bind _ | .int _ | .bool _ | .str _ => .nil

theorem Pattern.allHoldParts : ∀ ps : List Pattern, HoldsParts (Pattern.allNodes ps)
  | [] => .nil
  | p :: rest => (Pattern.holdsParts p).append (Pattern.allHoldParts rest)

end

mutual

theorem Expr.holdsParts : ∀ e : Expr, HoldsParts e.nodes
  | ⟨id, kind, span⟩ => by
    refine (ExprKind.holdsParts kind).cons fun e heq => ?_
    cases heq
    exact List.Subset.refl _

theorem ExprKind.holdsParts : ∀ k : ExprKind, HoldsParts k.nodes
  | .path _ | .literal _ => .nil
  | .unary _ operand | .cast operand _ | .member operand _ _ => operand.holdsParts
  | .binary _ left right => left.holdsParts.append right.holdsParts
  | .call callee args => callee.holdsParts.append (Expr.allHoldParts args)
  | .record _ fields => FieldInit.allHoldParts fields
  | .select scrutinee arms => scrutinee.holdsParts.append (Arm.allHoldParts arms)
  | .cond choice => choice.holdsParts
  | .block body => body.holdsParts

theorem Expr.allHoldParts : ∀ es : List Expr, HoldsParts (Expr.allNodes es)
  | [] => .nil
  | e :: rest => e.holdsParts.append (Expr.allHoldParts rest)

theorem Expr.optHoldsParts : ∀ e : Option Expr, HoldsParts (Expr.optNodes e)
  | none => .nil
  | some e => e.holdsParts

theorem FieldInit.allHoldParts : ∀ fs : List FieldInit, HoldsParts (FieldInit.allNodes fs)
  | [] => .nil
  | ⟨_, value, _⟩ :: rest => value.holdsParts.append (FieldInit.allHoldParts rest)

theorem Arm.allHoldParts : ∀ arms : List Arm, HoldsParts (Arm.allNodes arms)
  | [] => .nil
  | ⟨pattern, body, _⟩ :: rest =>
    pattern.holdsParts.append (body.holdsParts.append (Arm.allHoldParts rest))

theorem Conditional.holdsParts : ∀ c : Conditional, HoldsParts c.nodes
  | ⟨condition, thenBlock, otherwise, _⟩ =>
    condition.holdsParts.append (thenBlock.holdsParts.append otherwise.holdsParts)

theorem ElseBranch.holdsParts : ∀ o : ElseBranch, HoldsParts o.nodes
  | .absent => .nil
  | .block body => body.holdsParts
  | .elseIf choice => choice.holdsParts

theorem Block.holdsParts : ∀ b : Block, HoldsParts b.nodes
  | ⟨stmts, tail, _⟩ => (Stmt.allHoldParts stmts).append (Expr.optHoldsParts tail)

theorem Stmt.allHoldParts : ∀ ss : List Stmt, HoldsParts (Stmt.allNodes ss)
  | [] => .nil
  | s :: rest => s.holdsParts.append (Stmt.allHoldParts rest)

theorem Stmt.holdsParts : ∀ s : Stmt, HoldsParts s.nodes
  | .bind _ _ _ value _ _ => (Expr.optHoldsParts value).cons fun _ => nofun
  | .assign _ value _ | .assignField _ _ value _ | .expr value => value.holdsParts
  | .ret value _ => Expr.optHoldsParts value
  | .cond choice => choice.holdsParts
  | .loop condition body _ => condition.holdsParts.append body.holdsParts
  | .brk _ | .cont _ => .nil
  | .block body => body.holdsParts

end

namespace Typing

/-- A number without a type may get one; other types stay. -/
def Becomes (before after : Option Ty) : Prop := after = before ∨ before = some .untyped

theorem Becomes.refl (ty : Option Ty) : Becomes ty ty := .inl rfl

theorem Becomes.trans {a b c : Option Ty} (h : Becomes a b) (h' : Becomes b c) : Becomes a c := by
  rcases h with rfl | h
  · exact h'
  · exact .inr h

/-- Reports and signatures of types that were there are there as before. -/
structure State.Later (s s' : State) : Prop where
  reports : s.reports <:+ s'.reports
  types : Signatures.Keeps s.signatures s'.signatures

theorem State.Later.refl (s : State) : s.Later s := ⟨suffix_refl _, .refl _⟩

theorem State.Later.trans {s s₁ s₂ : State} (h : s.Later s₁) (h' : s₁.Later s₂) : s.Later s₂ :=
  ⟨h.reports.trans h'.reports, h.types.trans h'.types⟩

theorem State.Later.clean {s s' : State} (h : s.Later s') (hc : s'.Clean) : s.Clean := by
  have := h.reports
  rw [State.Clean] at hc
  rwa [hc, suffix_nil] at this

/-! ### Ledgers -/

/-- What is to be said of a body: the state in the end, and the numbers of its patterns. -/
structure Ledger where
  decls : Declarations
  last : State
  isPattern : Nat → Prop

/-- The nodes have other numbers. -/
def Apart (nodes more : List Node) : Prop := List.Disjoint (nodes.map Node.id) (more.map Node.id)

theorem Apart.symm {nodes more : List Node} (h : Apart nodes more) : Apart more nodes :=
  disjoint_symm h

namespace Ledger

variable (L : Ledger)

def Sorts : Node → Prop
  | .expr e => ¬ L.isPattern e.id
  | .pattern p => L.isPattern p.id
  | .bind _ => True

structure Numbers (nodes : List Node) : Prop where
  nodup : (nodes.map Node.id).Nodup
  sorts : ∀ node ∈ nodes, L.Sorts node

def Blank (nodes : List Node) (s : State) : Prop :=
  ∀ node ∈ nodes, (L.isPattern node.id → s.resolutions.variants.get? node.id = none) ∧
    s.resolutions.exprTypes.get? node.id = none

/-- If nothing is reported, then what is known about nodes changes only at these. -/
structure Writes (nodes : List Node) (s s' : State) : Prop where
  later : s.Later s'
  variants : s'.Clean → ∀ id ∉ nodes.map Node.id, L.isPattern id →
    s'.resolutions.variants.get? id = s.resolutions.variants.get? id
  types : s'.Clean → ∀ id ∉ nodes.map Node.id,
    Becomes (s.resolutions.exprTypes.get? id) (s'.resolutions.exprTypes.get? id)

/-- What is known about the nodes is what is known in the end, and nothing is reported. -/
structure Lasts (nodes : List Node) (s : State) : Prop where
  later : s.Later L.last
  clean : L.last.Clean
  variants : ∀ node ∈ nodes, L.isPattern node.id →
    L.last.resolutions.variants.get? node.id = s.resolutions.variants.get? node.id
  types : ∀ node ∈ nodes,
    Becomes (s.resolutions.exprTypes.get? node.id) (L.last.resolutions.exprTypes.get? node.id)

variable {L} {nodes more : List Node} {s s₁ s₂ : State}

theorem Numbers.append (h : L.Numbers (nodes ++ more)) : L.Numbers nodes ∧ L.Numbers more ∧ Apart nodes more := by
  obtain ⟨hnodup, hsorts⟩ := h
  rw [map_append] at hnodup
  obtain ⟨h₁, h₂, hd⟩ := nodup_append'.1 hnodup
  obtain ⟨hs₁, hs₂⟩ := forall_mem_append.1 hsorts
  exact ⟨⟨h₁, hs₁⟩, ⟨h₂, hs₂⟩, hd⟩

theorem Numbers.cons {node : Node} (h : L.Numbers (node :: nodes)) :
    L.Sorts node ∧ Apart [node] nodes ∧ L.Numbers nodes := by
  replace h : L.Numbers ([node] ++ nodes) := h
  obtain ⟨hnode, hnodes, hd⟩ := h.append
  exact ⟨hnode.sorts node mem_cons_self, hd, hnodes⟩

theorem Numbers.perm (h : L.Numbers nodes) (hp : nodes.Perm more) : L.Numbers more :=
  ⟨(hp.map _).nodup_iff.1 h.nodup, fun node hnode => h.sorts node (hp.mem_iff.2 hnode)⟩

theorem Writes.refl (nodes : List Node) (s : State) : L.Writes nodes s s :=
  ⟨.refl s, fun _ _ _ _ => rfl, fun _ _ _ => .refl _⟩

theorem Writes.trans (h : L.Writes nodes s s₁) (h' : L.Writes nodes s₁ s₂) : L.Writes nodes s s₂ where
  later := h.later.trans h'.later
  variants hc id hid hp := (h'.variants hc id hid hp).trans (h.variants (h'.later.clean hc) id hid hp)
  types hc id hid := (h.types (h'.later.clean hc) id hid).trans (h'.types hc id hid)

theorem Writes.mono (h : L.Writes nodes s s₁) (hsub : nodes ⊆ more) : L.Writes more s s₁ where
  later := h.later
  variants hc id hid := h.variants hc id fun hm => hid (map_subset _ hsub hm)
  types hc id hid := h.types hc id fun hm => hid (map_subset _ hsub hm)

theorem Lasts.mono (h : L.Lasts more s) (hsub : nodes ⊆ more) : L.Lasts nodes s where
  later := h.later
  clean := h.clean
  variants node hnode := h.variants node (hsub hnode)
  types node hnode := h.types node (hsub hnode)

theorem Lasts.cleanBefore (h : L.Lasts nodes s) : s.Clean := h.later.clean h.clean

/-- What is written elsewhere does not matter. -/
theorem Lasts.before (h : L.Lasts nodes s₁) (hw : L.Writes more s s₁) (hd : Apart nodes more) :
    L.Lasts nodes s where
  later := hw.later.trans h.later
  clean := h.clean
  variants node hnode hp := (h.variants node hnode hp).trans
    (hw.variants h.cleanBefore _ (hd (mem_map_of_mem hnode)) hp)
  types node hnode := (hw.types h.cleanBefore _ (hd (mem_map_of_mem hnode))).trans (h.types node hnode)

theorem Blank.mono (h : L.Blank more s) (hsub : nodes ⊆ more) : L.Blank nodes s :=
  fun node hnode => h node (hsub hnode)

theorem Blank.after (h : L.Blank nodes s) (hw : L.Writes more s s₁) (hc : s₁.Clean)
    (hd : Apart nodes more) : L.Blank nodes s₁ := fun node hnode => by
  have hid : node.id ∉ more.map Node.id := hd (mem_map_of_mem hnode)
  refine ⟨fun hp => (hw.variants hc _ hid hp).trans ((h node hnode).1 hp), ?_⟩
  have hbecomes := hw.types hc _ hid
  rw [(h node hnode).2] at hbecomes
  exact hbecomes.resolve_right nofun

/-- A blank node where nothing is written has no type in the end. -/
theorem Lasts.untyped {node : Node} (h : L.Lasts [node] s) (hb : L.Blank [node] s) :
    L.last.resolutions.exprTypes.get? node.id = none := by
  have hbecomes := h.types node mem_cons_self
  rw [(hb node mem_cons_self).2] at hbecomes
  exact hbecomes.resolve_right nofun

end Ledger

/-! ### Grants -/

/-- A computation writes at these nodes, and if they stay as it leaves them, they are accounted for
and its value is as said. -/
structure Ledger.Grants {α : Type} (L : Ledger) (nodes : List Node) (c : Check α) (Φ : α → Prop) : Prop where
  writes : ∀ s, L.Writes nodes s (c L.decls s).2
  gives : ∀ s, L.Blank nodes s → L.Lasts nodes (c L.decls s).2 →
    (∀ node ∈ nodes, Accounted L.last node) ∧ Φ (c L.decls s).1

abbrev Ledger.Leaves {α : Type} (L : Ledger) (nodes : List Node) (c : Check α) : Prop :=
  L.Grants nodes c fun _ => True

/-- The computation at most gives types to numbers. -/
abbrev Ledger.Mild {α : Type} (L : Ledger) (c : Check α) : Prop := L.Leaves [] c

/-- Reports and signatures stay. -/
def Advances {α : Type} (d : Declarations) (c : Check α) : Prop := ∀ s : State, s.Later (c d s).2

variable {α β : Type} {L : Ledger} {nodes nodes₁ nodes₂ more : List Node}

namespace Ledger.Grants

variable {c : Check α} {k : α → Check β} {Φ Φ' : α → Prop} {Ψ : β → Prop}

theorem pure {a : α} (h : Φ a) : L.Grants [] (Pure.pure a) Φ :=
  ⟨fun s => .refl [] s, fun _ _ _ => ⟨forall_mem_nil _, h⟩⟩

theorem imp (h : L.Grants nodes c Φ) (himp : ∀ a, Φ a → Φ' a) : L.Grants nodes c Φ' :=
  ⟨h.writes, fun s hb hl => (h.gives s hb hl).imp_right (himp _)⟩

theorem congr (h : L.Grants nodes c Φ) (hsub : nodes ⊆ more) (hsub' : more ⊆ nodes) : L.Grants more c Φ where
  writes s := (h.writes s).mono hsub
  gives s hb hl :=
    have ⟨haccounted, ha⟩ := h.gives s (hb.mono hsub) (hl.mono hsub)
    ⟨fun node hnode => haccounted node (hsub' hnode), ha⟩

theorem cons {node : Node} (h : L.Grants nodes c Φ) (hnode : Accounted L.last node) :
    L.Grants (node :: nodes) c Φ where
  writes s := (h.writes s).mono (subset_cons_self _ _)
  gives s hb hl :=
    have ⟨hnodes, ha⟩ := h.gives s (hb.mono (subset_cons_self _ _)) (hl.mono (subset_cons_self _ _))
    ⟨forall_mem_cons.2 ⟨hnode, hnodes⟩, ha⟩

/-- One computation after another that writes elsewhere.  The second may rely on what is always
true of the first one's value. -/
theorem bind_to {R : α → Prop} (hc : L.Grants nodes₁ c Φ) (hR : Holds L.decls (fun _ => True) c R)
    (hk : ∀ a, R a → L.Grants nodes₂ (k a) fun b => Φ a → Ψ b) (hd : Apart nodes₁ nodes₂) :
    L.Grants (nodes₁ ++ nodes₂) (c >>= k) Ψ := by
  have hk' (s : State) := hk (c L.decls s).1 (hR s trivial).2
  constructor
  · intro s
    exact ((hc.writes s).mono (subset_append_left _ _)).trans
      (((hk' s).writes _).mono (subset_append_right _ _))
  · intro s hblank hlasts
    have hlasts₁ : L.Lasts nodes₁ (c L.decls s).2 :=
      (hlasts.mono (subset_append_left _ _)).before ((hk' s).writes _) hd
    obtain ⟨haccounted₁, ha⟩ := hc.gives s (hblank.mono (subset_append_left _ _)) hlasts₁
    have hblank₂ : L.Blank nodes₂ (c L.decls s).2 :=
      (hblank.mono (subset_append_right _ _)).after (hc.writes s) hlasts₁.cleanBefore hd.symm
    obtain ⟨haccounted₂, hb⟩ := (hk' s).gives _ hblank₂ (hlasts.mono (subset_append_right _ _))
    exact ⟨forall_mem_append.2 ⟨haccounted₁, haccounted₂⟩, hb ha⟩

theorem bind (hc : L.Grants nodes₁ c Φ) (hk : ∀ a, L.Grants nodes₂ (k a) fun b => Φ a → Ψ b)
    (hd : Apart nodes₁ nodes₂) : L.Grants (nodes₁ ++ nodes₂) (c >>= k) Ψ :=
  hc.bind_to (keeps_true _) (fun a _ => hk a) hd

theorem seq (hc : L.Grants nodes₁ c Φ) (hk : ∀ a, L.Leaves nodes₂ (k a)) (hd : Apart nodes₁ nodes₂) :
    L.Leaves (nodes₁ ++ nodes₂) (c >>= k) :=
  hc.bind (fun a => (hk a).imp fun _ _ _ => trivial) hd

theorem bind_mild (hc : L.Grants nodes c Φ) (hk : ∀ a, L.Grants [] (k a) fun b => Φ a → Ψ b) :
    L.Grants nodes (c >>= k) Ψ := by
  have h := hc.bind hk (disjoint_nil_right _)
  rwa [append_nil] at h

theorem seq_mild (hc : L.Grants nodes c Φ) (hk : ∀ a, L.Mild (k a)) : L.Leaves nodes (c >>= k) :=
  hc.bind_mild fun a => (hk a).imp fun _ _ _ => trivial

theorem returns {b : α → β} (hc : L.Grants nodes c Φ) : L.Leaves nodes (c >>= fun a => Pure.pure (b a)) :=
  hc.seq_mild fun _ => .pure trivial

theorem mild_bind (hc : L.Grants [] c Φ) (hk : ∀ a, L.Grants nodes (k a) fun b => Φ a → Ψ b) :
    L.Grants nodes (c >>= k) Ψ := hc.bind hk (disjoint_nil_left _)

theorem mild_seq (hc : L.Grants [] c Φ) (hk : ∀ a, L.Grants nodes (k a) Ψ) : L.Grants nodes (c >>= k) Ψ :=
  hc.mild_bind fun a => (hk a).imp fun _ hb _ => hb

theorem advances (h : L.Grants nodes c Φ) : Advances L.decls c := fun s => (h.writes s).later

end Ledger.Grants

section Reports

variable {d : Declarations} {c : Check α} {k : α → Check β} {Ψ : β → Prop}

theorem Advances.bind (hc : Advances d c) (hk : ∀ a, Advances d (k a)) : Advances d (c >>= k) :=
  fun s => (hc s).trans (hk _ _)

theorem advances_report (site : Site) (problem : Problem) : Advances d (report site problem) :=
  fun _ => ⟨suffix_cons _ _, .refl _⟩

variable {site : Site} {problem : Problem}

/-- Where something is reported, all is granted. -/
theorem grants_reported {k : Unit → Check β} (hk : Advances L.decls (k ())) :
    L.Grants nodes (report site problem >>= k) Ψ := by
  have hunclean (s : State) : ¬ (k () L.decls (report site problem L.decls s).2).2.Clean := fun hc => by
    have := (hk _).clean hc
    cases this
  refine ⟨fun s => ⟨?_, fun hc => absurd hc (hunclean s), fun hc => absurd hc (hunclean s)⟩,
    fun s _ hl => absurd hl.cleanBefore (hunclean s)⟩
  exact (advances_report site problem).bind (fun _ => hk) s

theorem Ledger.Grants.reported {k : Unit → Check β} {Ψ' : β → Prop} (hk : L.Grants more (k ()) Ψ') :
    L.Grants nodes (report site problem >>= k) Ψ :=
  grants_reported hk.advances

theorem grants_report_pure (site : Site) (problem : Problem) (a : β) :
    L.Grants nodes (report site problem >>= fun _ => pure a) Ψ :=
  grants_reported fun s => .refl s

theorem grants_report (site : Site) (problem : Problem) {Φ : Unit → Prop} :
    L.Grants nodes (report site problem) Φ := grants_report_pure site problem ()

theorem grants_reject (site : Site) (problem : Problem) {Φ : Ty → Prop} :
    L.Grants nodes (reject site problem) Φ := grants_report_pure site problem Ty.error

/-- What is reported in one case is not the case in the end. -/
theorem Ledger.Grants.unless {p : Prop} [Decidable p] {k : Unit → Check β}
    (hk : L.Grants nodes (k ()) fun b => ¬ p → Ψ b) :
    L.Grants nodes (if p then report site problem >>= k else k ()) Ψ := by
  split
  · exact hk.reported
  · exact hk.imp fun _ h => h ‹_›

theorem Ledger.Grants.warned {p : Prop} [Decidable p] {k : Unit → Check β} (hk : L.Leaves nodes (k ())) :
    L.Leaves nodes (if p then report site problem >>= k else k ()) :=
  (hk.imp fun _ _ _ => trivial).unless

theorem Resolving.mild (h : Resolving L.decls c) : L.Mild c where
  writes s :=
    { later := ⟨(h s).reports, (h s).keeps⟩
      variants := fun _ _ _ _ => by rw [(h s).resolutions]
      types := fun _ _ _ => by rw [(h s).resolutions]; exact .refl _ }
  gives _ _ _ := ⟨forall_mem_nil _, trivial⟩

theorem Resolving.mild_seq (h : Resolving L.decls c) (hk : ∀ a, L.Grants nodes (k a) Ψ) :
    L.Grants nodes (c >>= k) Ψ := h.mild.mild_seq hk

theorem Peeks.mild_seq (h : Peeks L.decls c) (hk : ∀ a, L.Grants nodes (k a) Ψ) :
    L.Grants nodes (c >>= k) Ψ := h.resolving.mild_seq hk

theorem grants_resolver_bind {k : Resolver → Check β}
    (h : L.Grants nodes (k (Resolver.within L.decls.depth)) Ψ) : L.Grants nodes (resolver >>= k) Ψ :=
  ⟨fun s => h.writes s, fun s => h.gives s⟩

theorem grants_read_bind {k : Declarations → Check β} (h : L.Grants nodes (k L.decls) Ψ) :
    L.Grants nodes (read >>= k) Ψ :=
  ⟨fun s => h.writes s, fun s => h.gives s⟩

end Reports

/-! ### Nodes that are not looked at -/

section Skip

variable {c : Check α} {Φ : α → Prop}

theorem accounted_of_untyped {t : State} {e : Expr}
    (h : ∀ node ∈ e.nodes, t.resolutions.exprTypes.get? node.id = none) :
    ∀ node ∈ e.nodes, Accounted t node := fun node hnode => by
  unfold Accounted
  split
  · rename_i scrutinee _ _
    refine .inl (h (.expr scrutinee) (e.holdsParts _ hnode _ ?_))
    exact mem_cons_of_mem _ (mem_append_left _ scrutinee.mem_nodes)
  · trivial

theorem Ledger.Grants.skipAll (h : L.Grants nodes c Φ) (es : List Expr)
    (hd : ∀ e ∈ es, Apart e.nodes nodes) : L.Grants (es.flatMap Expr.nodes ++ nodes) c Φ where
  writes s := (h.writes s).mono (subset_append_right _ _)
  gives s hb hl := by
    obtain ⟨haccounted, ha⟩ := h.gives s (hb.mono (subset_append_right _ _))
      (hl.mono (subset_append_right _ _))
    refine ⟨forall_mem_append.2 ⟨fun node hnode => ?_, haccounted⟩, ha⟩
    obtain ⟨e, he, hnode⟩ := mem_flatMap.1 hnode
    refine accounted_of_untyped (fun part hpart => ?_) node hnode
    have hmem : [part] ⊆ es.flatMap Expr.nodes ++ nodes := by
      simpa using .inl ⟨e, he, hpart⟩
    have hapart : Apart [part] nodes := by
      simpa [Apart] using hd e he (mem_map_of_mem hpart)
    exact (hl.mono hmem).untyped ((hb.mono hmem).after (h.writes s) hl.cleanBefore hapart)

theorem Ledger.Grants.skip (h : L.Grants nodes c Φ) (e : Expr) (hd : Apart e.nodes nodes) :
    L.Grants (e.nodes ++ nodes) c Φ := by
  simpa using h.skipAll [e] (by simpa using hd)

end Skip

/-! ### Recording -/

section Recording

variable {id : Nat}

theorem mild_note {f : Resolutions → Resolutions} (htypes : ∀ r, (f r).exprTypes = r.exprTypes)
    (hvariants : ∀ r id, L.isPattern id → (f r).variants.get? id = r.variants.get? id) :
    L.Mild (modifyResolutions f) where
  writes s :=
    { later := ⟨suffix_refl _, .refl _⟩
      variants := fun _ id _ => hvariants s.resolutions id
      types := fun _ id _ => .inl (congrArg (·.get? id) (htypes s.resolutions)) }
  gives _ _ _ := ⟨forall_mem_nil _, trivial⟩

theorem mild_recordLet (ty : Ty) : L.Mild (recordLet id ty) := mild_note (fun _ => rfl) fun _ _ _ => rfl

theorem mild_recordCall (target : CallTarget) : L.Mild (recordCall id target) :=
  mild_note (fun _ => rfl) fun _ _ _ => rfl

theorem mild_recordIntrinsic (op : Intrinsic) : L.Mild (recordIntrinsic id op) :=
  mild_note (fun _ => rfl) fun _ _ _ => rfl

theorem mild_recordConst (name : QualName) : L.Mild (recordConst id name) :=
  mild_note (fun _ => rfl) fun _ _ _ => rfl

theorem mild_recordLiteral (name : QualName) : L.Mild (recordLiteral id name) :=
  mild_note (fun _ => rfl) fun _ _ _ => rfl

theorem mild_recordVariant (hid : ¬ L.isPattern id) (ref : VariantRef) : L.Mild (recordVariant id ref) := by
  refine mild_note (fun _ => rfl) fun r other hother => ?_
  rw [get?_insert, if_neg]
  rintro rfl
  exact hid hother

theorem grants_recordVariant {p : Pattern} (hp : L.isPattern p.id) (ref : VariantRef) :
    L.Grants [.pattern p] (recordVariant p.id ref) fun _ =>
      L.last.resolutions.variants.get? p.id = some ref where
  writes s :=
    { later := ⟨suffix_refl _, .refl _⟩
      variants := fun _ other hne _ => by
        show (s.resolutions.variants.insert p.id ref).get? other = _
        rw [get?_insert, if_neg fun h => hne (by simp [← h, Node.id])]
      types := fun _ _ _ => .refl _ }
  gives s _ hl := by
    refine ⟨forall_mem_singleton.2 trivial, (hl.variants (.pattern p) mem_cons_self hp).trans ?_⟩
    exact (get?_insert _ _ _ _).trans (if_pos rfl)

theorem writes_recordType (node : Node) (ty : Ty) (s : State) :
    L.Writes [node] s (recordType node.id ty L.decls s).2 where
  later := ⟨suffix_refl _, .refl _⟩
  variants _ _ _ _ := rfl
  types _ id hne := .inl <| by
    show (s.resolutions.exprTypes.insert node.id ty).get? id = _
    rw [get?_insert, if_neg fun h => hne (by simp [h])]

theorem grants_recordType {p : Pattern} (hp : L.isPattern p.id) (ty : Ty) :
    L.Grants [.pattern p] (recordType p.id ty) fun _ => L.last.resolutions.variants.get? p.id = none where
  writes := writes_recordType (.pattern p) ty
  gives _ hb hl := ⟨forall_mem_singleton.2 trivial,
    (hl.variants (.pattern p) mem_cons_self hp).trans ((hb _ mem_cons_self).1 hp)⟩

theorem Ledger.Grants.typed {id : Nat} {kind : ExprKind} {span : Span} {c : Check Ty} {Φ : Ty → Prop}
    (h : L.Grants kind.nodes c Φ) (hd : Apart [.expr ⟨id, kind, span⟩] kind.nodes)
    (haccounted : ∀ ty, Φ ty → Accounted L.last (.expr ⟨id, kind, span⟩)) :
    L.Leaves (Expr.mk id kind span).nodes (c >>= fun ty => recordType id ty >>= fun _ => Pure.pure ty) where
  writes s := ((h.writes s).mono (subset_cons_self _ _)).trans
    ((writes_recordType (.expr ⟨id, kind, span⟩) _ _).mono (by simp))
  gives s hb hl := by
    have hlasts : L.Lasts kind.nodes (c L.decls s).2 :=
      (hl.mono (subset_cons_self _ _)).before (writes_recordType (.expr ⟨id, kind, span⟩) _ _) hd.symm
    obtain ⟨hkind, hty⟩ := h.gives s (hb.mono (subset_cons_self _ _)) hlasts
    exact ⟨forall_mem_cons.2 ⟨haccounted _ hty, hkind⟩, trivial⟩

end Recording

end Typing
end Keel
