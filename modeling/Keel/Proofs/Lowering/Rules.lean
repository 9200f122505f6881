/-
# What the rules of lowering do

For each rule, when it succeeds: what has to be recorded for the nodes, which parts run
and in which order, and the builder that is left.  Proofs about lowered code use these
lemmas and do not open the rules.
-/
import Keel.Proofs.Lowering.Yields
import Keel.Proofs.Semantics.Resolved

namespace Keel.Lowering

open Ir (Storage Operand Terminator BlockId SlotId)

variable {ctx : Context} {b b' : Builder} {v : Operand} {s inner : Scope}

/-! ### Simple expressions -/

/-- The literal at a node is this operand. -/
def Context.LiteralIs (ctx : Context) (id : NodeId) : Literal → Operand → Prop
  | .bool value, v => v = .bool value
  | .str value, v => v = .str value
  | .int value, v => ∃ kind, ctx.Stores id (.int kind) ∧ v = .int value kind

variable {id : NodeId} {name : String} {values : List (String × Operand)} {callee : Expr} {args : List Part}
  {p : Pattern} {ty : Storage} {scrutinee : Operand} {rest : List (Pattern × Nat)} {join no : BlockId}
  {chosen : List (BlockId × ArmPart)} {result : Option SlotId} {u : Unit} {span : Span} {body : Block}

theorem yields_lowerLiteral {lit : Literal} :
    Yields (lowerLiteral id lit) ctx b v b' ↔ ctx.LiteralIs id lit v ∧ b' = b := by
  cases lit with
  | bool value | str value => exact yields_pure
  | int value =>
    simp only [lowerLiteral, yields_typeOf_bind, Context.LiteralIs]
    grind [yields_pure, yields_throw]

/-- The constant is this operand. -/
def Context.ConstIs (ctx : Context) (name : QualName) (v : Operand) : Prop :=
  ∃ c ty, ctx.program.consts.get? name = some c ∧ storage c.ty = .ok ty ∧
    ((∃ value kind, c.value = .int value ∧ ty = .int kind ∧ v = .int value kind) ∨
      (∃ value, c.value = .bool value ∧ v = .bool value) ∨
        ∃ value, c.value = .str value ∧ v = .str value)

theorem yields_lowerConst {name : QualName} :
    Yields (lowerConst name) ctx b v b' ↔ ctx.ConstIs name v ∧ b' = b := by
  simp only [lowerConst, yields_bind, yields_read]
  constructor
  · rintro ⟨_, _, ⟨rfl, rfl⟩, h⟩
    split at h
    · exact (yields_throw.1 h).elim
    · simp only [yields_bind, yields_liftStorage] at h
      obtain ⟨ty, _, ⟨hty, rfl⟩, h⟩ := h
      split at h
      · obtain ⟨rfl, rfl⟩ := yields_pure.1 h
        exact ⟨⟨_, _, ‹_›, hty, .inl ⟨_, _, ‹_›, rfl, rfl⟩⟩, rfl⟩
      · obtain ⟨rfl, rfl⟩ := yields_pure.1 h
        exact ⟨⟨_, _, ‹_›, hty, .inr (.inl ⟨_, ‹_›, rfl⟩)⟩, rfl⟩
      · obtain ⟨rfl, rfl⟩ := yields_pure.1 h
        exact ⟨⟨_, _, ‹_›, hty, .inr (.inr ⟨_, ‹_›, rfl⟩)⟩, rfl⟩
      · exact (yields_throw.1 h).elim
  · rintro ⟨⟨c, ty, hc, hty, hv⟩, rfl⟩
    refine ⟨_, _, ⟨rfl, rfl⟩, ?_⟩
    rw [hc]
    simp only [yields_bind, yields_liftStorage]
    refine ⟨ty, _, ⟨hty, rfl⟩, ?_⟩
    rcases hv with ⟨value, kind, hv, rfl, rfl⟩ | ⟨value, hv, rfl⟩ | ⟨value, hv, rfl⟩ <;>
      rw [hv] <;> exact yields_pure.2 ⟨rfl, rfl⟩

theorem yields_lowerPath {path : PathExpr} : Yields (lowerPath id path s) ctx b v b' ↔
      (∃ slot, path.simple?.bind s.find? = some slot ∧ v = .temp ⟨b.temps.size⟩ ∧ b' = b.load slot) ∨
      (path.simple?.bind s.find? = none ∧ ∃ name,
        ctx.program.resolutions.constRefs.get? id = some name ∧ ctx.ConstIs name v ∧ b' = b) := by
  unfold lowerPath
  cases path.simple?.bind s.find? with
  | some slot => simp
  | none =>
    simp only [yields_resolutions_bind]
    cases ctx.program.resolutions.constRefs.get? id with
    | none => simp
    | some name => simp [yields_lowerConst]

theorem yields_lowerUnary {op : UnaryOp} {operand : Operand} : Yields (lowerUnary id op operand) ctx b v b' ↔
      (∃ value kind, op = .neg ∧ operand = .int value kind ∧ v = .int (-value) kind ∧ b' = b) ∨
      ((∀ value kind, op = .neg → operand ≠ .int value kind) ∧ ∃ ty, ctx.Stores id ty ∧
        v = .temp ⟨b.temps.size⟩ ∧ b' = b.define ty fun dest => .unary dest op operand) := by
  unfold lowerUnary
  split
  · rename_i value kind
    constructor
    · intro h
      obtain ⟨rfl, rfl⟩ := yields_pure.1 h
      exact .inl ⟨value, kind, rfl, rfl, rfl, rfl⟩
    · rintro (⟨_, _, -, heq, rfl, rfl⟩ | ⟨hne, -⟩)
      · cases heq
        exact yields_pure.2 ⟨rfl, rfl⟩
      · exact absurd rfl (hne value kind rfl)
  · rename_i hne
    simp only [yields_typeOf_bind, yields_define]
    constructor
    · exact fun h => .inr ⟨hne, h⟩
    · rintro (⟨value, kind, rfl, rfl, -⟩ | ⟨-, h⟩)
      · exact absurd rfl (hne value kind rfl)
      · exact h

theorem yields_lowerEager {op : Ir.EagerOp} {left right : Part} :
    Yields (lowerEager id op left right) ctx b v b' ↔ ∃ operands l b₁ r b₂ ty,
      ctx.Stores left.id operands ∧ Yields left.lower ctx b l b₁ ∧
        Yields right.lower ctx b₁ r b₂ ∧ ctx.Stores id ty ∧ v = .temp ⟨b₂.temps.size⟩ ∧
          b' = b₂.define ty fun dest => .binary dest op l r operands := by
  simp [lowerEager, and_assoc]

/-- `and` goes on if its left side holds, `or` if it does not. -/
def branchOnLeft (op : LogicOp) (left : Operand) (right short : BlockId) : Terminator :=
  match op with
  | .and => .branch left right short
  | .or => .branch left short right

/-- One way of the branch leads on to the right side, the other stores the result that is
then known and goes to the common block. -/
def Builder.shortcut (b : Builder) (op : LogicOp) (left : Operand) (result : SlotId) : Builder :=
  let right : BlockId := ⟨b.blocks.size⟩
  let short : BlockId := ⟨b.blocks.size + 1⟩
  let join : BlockId := ⟨b.blocks.size + 2⟩
  ((((b.addBlock.addBlock.addBlock.terminate (branchOnLeft op left right short)).switchTo short).emit
    (.store result (.bool (op == .or)))).terminate (.jump join)).switchTo right

theorem yields_lowerLogic {op : LogicOp} {left right : Lower Operand} :
    Yields (lowerLogic op left right) ctx b v b' ↔ ∃ l b₁ r b₂,
      Yields left ctx (b.addSlot .bool) l b₁ ∧
        Yields right ctx (b₁.shortcut op l ⟨b.slots.size⟩) r b₂ ∧
          v = .temp ⟨b₂.temps.size⟩ ∧
            b' = (b₂.endBranch (some ⟨b.slots.size⟩) r ⟨b₁.blocks.size + 2⟩).resume
              (some ⟨b.slots.size⟩) ⟨b₁.blocks.size + 2⟩ := by
  cases op <;>
    simp [lowerLogic, Builder.shortcut, branchOnLeft, Builder.endBranch, Builder.resume,
      Builder.storeResult, Builder.loadResult, and_assoc]

/-- Only a cast to a range is checked. -/
def Builder.checkRange (b : Builder) (target : Ty) (value : Operand) (source : IntKind) : Builder :=
  match target with
  | .range _ low high => b.emit (.rangeCheck value source low high)
  | _ => b

theorem Builder.checkRange_of_ne (b : Builder) {target : Ty} {value : Operand} {source : IntKind}
    (h : ∀ base low high, target = .range base low high → False) : b.checkRange target value source = b := by
  unfold checkRange
  split
  · exact (h _ _ _ rfl).elim
  · rfl

def Builder.convert (b : Builder) (value : Operand) (source kind : IntKind) : Builder :=
  if source = kind then b else b.define (.int kind) fun dest => .cast dest value source kind

def Builder.converted (b : Builder) (value : Operand) (source kind : IntKind) : Operand :=
  if source = kind then value else .temp ⟨b.temps.size⟩

theorem yields_convert {target : Ty} {value : Operand} {source : IntKind} :
    Yields (convert target value source) ctx b v b' ↔
    ∃ kind, storage target = .ok (.int kind) ∧ v = b.converted value source kind ∧
      b' = b.convert value source kind := by
  simp only [convert, yields_bind, yields_liftStorage, Builder.converted, Builder.convert]
  grind [yields_pure, yields_throw, yields_define]

theorem yields_lowerCast {operand : Part} :
    Yields (lowerCast id operand) ctx b v b' ↔ ∃ target source value b₁ kind,
      ctx.program.resolutions.exprTypes.get? id = some target ∧
        ctx.Stores operand.id (.int source) ∧ Yields operand.lower ctx b value b₁ ∧
          storage target = .ok (.int kind) ∧
            v = (b₁.checkRange target value source).converted value source kind ∧
              b' = (b₁.checkRange target value source).convert value source kind := by
  simp only [lowerCast, yields_bind, yields_checkedType, yields_typeOf, and_assoc, exists_and_left, exists_eq_left]
  constructor
  · rintro ⟨target, htarget, ty, hty, h⟩
    split at h
    · simp only [yields_bind] at h
      obtain ⟨value, b₁, hvalue, h⟩ := h
      refine ⟨target, htarget, _, hty, value, b₁, hvalue, ?_⟩
      split at h
      · obtain ⟨_, _, he, h⟩ := yields_bind.1 h
        cases yields_emit.1 he
        exact yields_convert.1 h
      · rw [b₁.checkRange_of_ne ‹_›]
        exact yields_convert.1 h
    · exact (yields_throw.1 h).elim
  · rintro ⟨target, htarget, source, hty, value, b₁, hvalue, h⟩
    refine ⟨target, htarget, _, hty, ?_⟩
    simp only [yields_bind]
    refine ⟨value, b₁, hvalue, ?_⟩
    split
    · exact yields_bind.2 ⟨(), _, yields_emit.2 rfl, yields_convert.2 h⟩
    · rw [b₁.checkRange_of_ne ‹_›] at h
      exact yields_convert.2 h

@[simp] theorem yields_lowerVariant {ref : VariantRef} {payload : Option Operand} :
    Yields (lowerVariant ref payload) ctx b v b' ↔ v = .temp ⟨b.temps.size⟩ ∧
      b' = b.define (.enum ref.enum.text) fun dest =>
        .makeVariant dest ref.enum.text ref.index payload := yields_define

theorem yields_lowerMember {base : Part} : Yields (lowerMember id base name) ctx b v b' ↔
      (∃ ref, ctx.program.resolutions.variants.get? id = some ref ∧ Yields (lowerVariant ref none) ctx b v b') ∨
      (ctx.program.resolutions.variants.get? id = none ∧ ∃ struct value b₁ field ty,
        ctx.Stores base.id (.struct struct) ∧ Yields base.lower ctx b value b₁ ∧
          ctx.FieldAt struct name field ty ∧ v = .temp ⟨b₁.temps.size⟩ ∧
            b' = b₁.define ty fun dest => .getField dest value field) := by
  simp only [lowerMember, yields_resolutions_bind]
  cases ctx.program.resolutions.variants.get? id with
  | some ref => simp
  | none =>
    simp only [yields_typeOf_bind]
    constructor
    · rintro ⟨ty, hty, h⟩
      cases ty <;> simp [yields_fieldOf, and_assoc] at h
      obtain ⟨value, b₁, hvalue, field, ty, h⟩ := h
      exact .inr ⟨trivial, _, value, b₁, field, ty, hty, hvalue, h⟩
    · rintro (⟨_, h, -⟩ | ⟨-, struct, value, b₁, field, ty, hty, h⟩)
      · cases h
      · exact ⟨_, hty, by simpa [yields_fieldOf, and_assoc] using ⟨value, b₁, h.1, field, ty, h.2⟩⟩

/-! ### Struct literals -/

/-- The values in the order of the fields, if there is one for each. -/
def arranged? {α : Type} : List (String × α) → List (String × Storage) → Option (List α)
  | _, [] => some []
  | values, (field, _) :: rest =>
    match values.lookup field with
    | some value => (arranged? (values.filter (·.1 != field)) rest).map (value :: ·)
    | none => none

theorem yields_arrange {struct : String} {fields : List (String × Storage)} {ordered : List Operand} :
    Yields (arrange struct values fields) ctx b ordered b' ↔ arranged? values fields = some ordered ∧ b' = b := by
  induction fields generalizing values ordered b' with
  | nil => simp [arrange, arranged?, eq_comm]
  | cons f rest ih =>
    obtain ⟨field, ty⟩ := f
    simp only [arrange, arranged?]
    cases values.lookup field with
    | none => simp
    | some value =>
      simp only [yields_bind, ih, yields_pure, Option.map_eq_some_iff]
      grind

theorem yields_lowerRecord {fields : Lower (List (String × Operand))} :
    Yields (lowerRecord id fields) ctx b v b' ↔ ∃ name values b₁ layout ordered,
      ctx.program.resolutions.structLiterals.get? id = some name ∧
        Yields fields ctx b values b₁ ∧ ctx.structs.get? name.text = some layout ∧
          arranged? values.reverse layout.fields = some ordered ∧
            v = .temp ⟨b₁.temps.size⟩ ∧ b' = b₁.define (.struct name.text) fun dest =>
              .makeStruct dest name.text ordered := by
  simp only [lowerRecord, yields_resolutions_bind]
  cases ctx.program.resolutions.structLiterals.get? id with
  | none => simp
  | some name =>
    simp only [yields_bind (m := fields), yields_read_bind, Option.some.injEq, exists_and_left, exists_eq_left']
    cases ctx.structs.get? name.text <;> simp [yields_arrange, and_assoc]

/-! ### Calls -/

@[simp] theorem yields_lowerParts_nil {vs : List Operand} :
    Yields (lowerParts []) ctx b vs b' ↔ vs = [] ∧ b' = b := yields_pure

@[simp] theorem yields_lowerParts_cons {p : Part} {parts : List Part} {vs : List Operand} :
    Yields (lowerParts (p :: parts)) ctx b vs b' ↔ ∃ v b₁ rest,
      Yields p.lower ctx b v b₁ ∧ Yields (lowerParts parts) ctx b₁ rest b' ∧ vs = v :: rest := by
  simp only [lowerParts, List.mapM_cons, yields_bind, yields_pure]
  grind

theorem yields_receiverOf {slot : SlotId} : Yields (receiverOf s callee) ctx b slot b' ↔
      callee.receiver?.bind s.find? = some slot ∧ b' = b := by
  obtain ⟨_, kind, _⟩ := callee
  cases kind with
  | member base _ _ =>
    obtain ⟨_, base, _⟩ := base
    cases base with
    | path path => cases h : path.simple? <;> simp [receiverOf, Expr.receiver?, h]
    | _ => simp [receiverOf, Expr.receiver?]
  | _ => simp [receiverOf, Expr.receiver?]

theorem yields_lowerIntrinsic {op : Intrinsic} :
    Yields (lowerIntrinsic id op s callee args) ctx b v b' ↔ ∃ receiver values b₁ ty,
      callee.receiver?.bind s.find? = some receiver ∧
        Yields (lowerParts args) ctx b values b₁ ∧ ctx.Stores id ty ∧
          v = .temp ⟨b₁.temps.size⟩ ∧ b' = b₁.define ty fun dest =>
            .intrinsic dest op receiver values (elementOf? (b.slotType receiver)) := by
  simp [lowerIntrinsic, yields_receiverOf, and_assoc]

theorem yields_lowerService {which : Ir.Service} {builtin : Builtin} :
    Yields (lowerService which builtin args) ctx b v b' ↔ ∃ arg ty value b₁,
      args.head? = some arg ∧ ctx.Stores arg.id ty ∧ Yields arg.lower ctx b value b₁ ∧
        v = .unit ∧ b' = b₁.emit (.service which value ty) := by
  unfold lowerService
  cases args with
  | nil => simp
  | cons arg rest => simp [and_assoc]

def Builtin.service? : Builtin → Option Ir.Service
  | .print => some .print
  | .assert => some .assert
  | .panic => some .panic
  | .list => none

theorem yields_lowerBuiltin {builtin : Builtin} : Yields (lowerBuiltin id builtin args) ctx b v b' ↔
      (∃ which, Builtin.service? builtin = some which ∧ Yields (lowerService which builtin args) ctx b v b') ∨
      (builtin = .list ∧ ∃ element, ctx.Stores id (.list element) ∧ v = .temp ⟨b.temps.size⟩ ∧
        b' = b.define (.list element) fun dest => .newList dest element) := by
  cases builtin with
  | list =>
    simp only [lowerBuiltin, yields_typeOf_bind, Builtin.service?]
    grind [yields_define, yields_throw]
  | _ => simp [lowerBuiltin, Builtin.service?]

/-- The code of a call, by what is called. -/
def lowerCallee (id : NodeId) (s : Scope) (callee : Expr) (args : List Part) : Callee → Lower Operand
  | .intrinsic op => lowerIntrinsic id op s callee args
  | .variant ref => lowerVariantCall ref args
  | .builtin which => lowerBuiltin id which args
  | .function name => lowerFunctionCall id name args

theorem yields_lowerCall : Yields (lowerCall id s callee args) ctx b v b' ↔
      ∃ target, ctx.program.resolutions.callee? id = some target ∧
        Yields (lowerCallee id s callee args target) ctx b v b' := by
  simp only [lowerCall, yields_resolutions_bind, Resolutions.callee?]
  cases ctx.program.resolutions.intrinsics.get? id with
  | some op => simp [lowerCallee]
  | none =>
    cases ctx.program.resolutions.variants.get? id with
    | some ref => simp [lowerCallee]
    | none =>
      cases ctx.program.resolutions.calls.get? id with
      | none => simp
      | some target => cases target <;> simp [lowerCallee]

theorem yields_payload {payload : Option Operand} : Yields (args.head?.mapM (·.lower)) ctx b payload b' ↔
      (args = [] ∧ payload = none ∧ b' = b) ∨
      ∃ arg rest value, args = arg :: rest ∧ payload = some value ∧
        Yields arg.lower ctx b value b' := by
  cases args <;> simp [and_comm]

theorem yields_lowerFunctionCall {name : QualName} :
    Yields (lowerFunctionCall id name args) ctx b v b' ↔ ∃ values b₁ ty,
      Yields (lowerParts args) ctx b values b₁ ∧ ctx.Stores id ty ∧
        v = .temp ⟨b₁.temps.size⟩ ∧ b' = b₁.define ty fun dest => .call dest name.text values := by
  simp [lowerFunctionCall, and_assoc]

/-! ### Matches -/

/-- What a value is compared with for a pattern, if it is compared. -/
def Context.test? (ctx : Context) (p : Pattern) (ty : Storage) : Option (Option Operand) :=
  match ctx.program.resolutions.variants.get? p.id with
  | some ref => some (some (.int ref.index .i32))
  | none =>
    match p.kind, ty with
    | .wildcard, _ | .bind _, _ => some none
    | .int value, .int kind => some (some (.int value kind))
    | .bool value, .bool => some (some (.bool value))
    | .str value, .str => some (some (.str value))
    | _, _ => none

theorem yields_armTest {test : Option Operand} :
    Yields (armTest p ty) ctx b test b' ↔ ctx.test? p ty = some test ∧ b' = b := by
  simp only [armTest, yields_resolutions_bind, Context.test?]
  cases ctx.program.resolutions.variants.get? p.id with
  | some ref => simp [eq_comm]
  | none =>
    generalize p.kind = kind
    cases kind <;> cases ty <;> simp [eq_comm]

theorem yields_discriminantOf {r : Operand × Storage} : Yields (discriminantOf scrutinee ty) ctx b r b' ↔
      (∃ enum, ty = .enum enum ∧ r = (.temp ⟨b.temps.size⟩, .int .i32) ∧
        b' = b.define (.int .i32) fun dest => .tag dest scrutinee) ∨
      ((∀ enum, ty ≠ .enum enum) ∧ r = (scrutinee, ty) ∧ b' = b) := by
  cases ty with
  | enum name =>
    simp only [discriminantOf, yields_bind, yields_define, yields_pure]
    grind
  | _ => simp [discriminantOf]

theorem yields_bindPayload_bind {ref : VariantRef} {variant : String} {field : Nat}
    (hp : p.kind = .bind name) : Yields (bindPayload scrutinee ref variant ((p, field) :: rest) s) ctx b inner b' ↔
      ∃ ty, ctx.Stores p.id ty ∧
        Yields (bindPayload scrutinee ref variant rest (s.declare name ⟨b.slots.size⟩)) ctx
          (((b.define ty fun dest =>
            .payload dest scrutinee ref.enum.text variant ref.index field).addSlot ty).emit
              (.store ⟨b.slots.size⟩ (.temp ⟨b.temps.size⟩))) inner b' := by
  simp only [bindPayload, hp, yields_resolutions_bind, Context.Stores]
  cases ctx.program.resolutions.exprTypes.get? p.id with
  | none => simp
  | some t => simp [and_assoc]

theorem yields_bindPayload_other {ref : VariantRef} {variant : String} {field : Nat}
    (hp : ∀ name, p.kind ≠ .bind name) :
    Yields (bindPayload scrutinee ref variant ((p, field) :: rest) s) ctx b inner b' ↔
      Yields (bindPayload scrutinee ref variant rest s) ctx b inner b' := by
  rw [bindPayload]
  split
  · exact absurd ‹_› (hp _)
  · exact Iff.rfl

theorem yields_bindPattern : Yields (bindPattern scrutinee ty p s) ctx b inner b' ↔
      match p.kind, ctx.program.resolutions.variants.get? p.id with
      | .bind name, none => inner = s.declare name ⟨b.slots.size⟩ ∧
          b' = (b.addSlot ty).emit (.store ⟨b.slots.size⟩ scrutinee)
      | .variant _ variant fields, some ref =>
          Yields (bindPayload scrutinee ref variant fields.zipIdx s) ctx b inner b'
      | _, _ => inner = s ∧ b' = b := by
  simp only [bindPattern, yields_resolutions_bind]
  generalize p.kind = kind
  cases ctx.program.resolutions.variants.get? p.id with
  | none =>
    cases kind with
    | bind name => simp [and_assoc]
    | _ => exact yields_pure
  | some ref =>
    cases kind with
    | variant _ variant fields => exact Iff.rfl
    | _ => exact yields_pure

theorem yields_lowerTests_nil {discriminant : Operand} {compared : Storage} :
    Yields (lowerTests discriminant compared ty join []) ctx b chosen b' ↔
      chosen = [] ∧ b' = b.terminate (.jump join) := by
  simp [lowerTests]

/-- A test: the comparison, and the branch to the arm or to the next test. -/
def Builder.test (b : Builder) (discriminant expected : Operand) (compared : Storage)
    (block : BlockId) : Builder :=
  let tested := (b.define .bool fun dest =>
    .binary dest (.compare .eq) discriminant expected compared).addBlock
  (tested.terminate (.branch (.temp ⟨b.temps.size⟩) block ⟨b.blocks.size⟩)).switchTo
    ⟨b.blocks.size⟩

theorem yields_lowerTests_cons {discriminant : Operand} {compared : Storage} {arm : ArmPart} {rest : List ArmPart} :
    Yields (lowerTests discriminant compared ty join (arm :: rest)) ctx b chosen b' ↔
      ∃ test, ctx.test? arm.pattern ty = some test ∧
        match test with
        | none => chosen = [(⟨b.blocks.size⟩, arm)] ∧
            b' = b.addBlock.terminate (.jump ⟨b.blocks.size⟩)
        | some expected => ∃ more,
            Yields (lowerTests discriminant compared ty join rest) ctx
              (b.addBlock.test discriminant expected compared ⟨b.blocks.size⟩) more b' ∧
                chosen = (⟨b.blocks.size⟩, arm) :: more := by
  simp only [lowerTests, yields_bind, yields_newBlock, yields_armTest, and_assoc, exists_and_left, exists_eq_left]
  refine exists_congr fun test => and_congr_right fun _ => ?_
  cases test <;> simp [Builder.test, and_assoc, and_comm]

theorem yields_lowerArms_nil : Yields (lowerArms scrutinee ty result join s []) ctx b u b' ↔ b' = b := by
  simp [lowerArms]

theorem yields_lowerArms_cons {block : BlockId} {arm : ArmPart} {rest : List (BlockId × ArmPart)} :
    Yields (lowerArms scrutinee ty result join s ((block, arm) :: rest)) ctx b u b' ↔
      ∃ inner b₁ value b₂,
        Yields (bindPattern scrutinee ty arm.pattern s) ctx (b.switchTo block) inner b₁ ∧
          Yields (arm.body inner) ctx b₁ value b₂ ∧
            Yields (lowerArms scrutinee ty result join s rest) ctx (b₂.endBranch result value join) u b' := by
  simp [lowerArms, Builder.endBranch]

theorem yields_lowerSelect {scrutinee : Part} {arms : List ArmPart} :
    Yields (lowerSelect id scrutinee arms s) ctx b v b' ↔
      ∃ ty value b₁ discriminant compared b₂ result b₃ chosen b₄ u b₅,
        ctx.Stores scrutinee.id ty ∧ Yields scrutinee.lower ctx b value b₁ ∧
          Yields (discriminantOf value ty) ctx b₁ (discriminant, compared) b₂ ∧
            Yields (resultSlot id) ctx b₂ result b₃ ∧
              Yields (lowerTests discriminant compared ty ⟨b₃.blocks.size⟩ arms) ctx b₃.addBlock chosen b₄ ∧
                Yields (lowerArms value ty result ⟨b₃.blocks.size⟩ s chosen) ctx b₄ u b₅ ∧
                  v = b₅.resultOf result ∧ b' = b₅.resume result ⟨b₃.blocks.size⟩ := by
  simp [lowerSelect, Builder.resume, and_assoc]

/-! ### Conditionals -/

/-- The blocks of an `if` and the branch to them.  Without `else` control goes to the
common block instead. -/
def Builder.choose (b : Builder) (condition : Operand) (hasElse : Bool) : Builder :=
  let yes : BlockId := ⟨b.blocks.size⟩
  let no : BlockId := ⟨if hasElse then b.blocks.size + 2 else b.blocks.size + 1⟩
  let grown := if hasElse then b.addBlock.addBlock.addBlock else b.addBlock.addBlock
  (grown.terminate (.branch condition yes no)).switchTo yes

theorem yields_lowerConditional {condition : Expr} {thenBlock : Block} {otherwise : ElseBranch} :
    Yields (lowerConditional ⟨condition, thenBlock, otherwise, span⟩ s result) ctx b v b' ↔
      ∃ c b₁ value b₂ u b₃, Yields (lowerExpr condition s) ctx b c b₁ ∧
        Yields (lowerBlock thenBlock s) ctx (b₁.choose c otherwise.isPresent) value b₂ ∧
          Yields (lowerElse otherwise s result
            ⟨if otherwise.isPresent then b₁.blocks.size + 2 else b₁.blocks.size + 1⟩
            ⟨b₁.blocks.size + 1⟩) ctx (b₂.endBranch result value ⟨b₁.blocks.size + 1⟩) u b₃ ∧
              v = b₃.resultOf result ∧ b' = b₃.resume result ⟨b₁.blocks.size + 1⟩ := by
  rw [lowerConditional]
  cases otherwise.isPresent <;>
    simp [Builder.choose, Builder.endBranch, Builder.resume, and_assoc]

attribute [local simp] lowerElse lowerStmt

theorem yields_lowerElse_absent : Yields (lowerElse .absent s result no join) ctx b u b' ↔ b' = b := by
  simp

theorem yields_lowerElse_block : Yields (lowerElse (.block body) s result no join) ctx b u b' ↔ ∃ value b₁,
      Yields (lowerBlock body s) ctx (b.switchTo no) value b₁ ∧ b' = b₁.endBranch result value join := by
  simp [Builder.endBranch]

theorem yields_lowerElse_elseIf {choice : Conditional} :
    Yields (lowerElse (.elseIf choice) s result no join) ctx b u b' ↔ ∃ value b₁,
      Yields (lowerConditional choice s result) ctx (b.switchTo no) value b₁ ∧ b' = b₁.terminate (.jump join) := by
  simp

/-! ### Statements -/

def Context.LetStores (ctx : Context) (id : NodeId) (ty : Storage) : Prop :=
  ∃ t, ctx.program.resolutions.letTypes.get? id = some t ∧ storage t = .ok ty

/-- The names lead from a type through its fields. -/
inductive Context.FieldsAt (ctx : Context) : Storage → List String → List Ir.FieldRef → Storage → Prop
  | nil {ty : Storage} : FieldsAt ctx ty [] [] ty
  | cons {struct name names field fields ty last} :
      ctx.FieldAt struct name field ty → FieldsAt ctx ty names fields last →
        FieldsAt ctx (.struct struct) (name :: names) (field :: fields) last

theorem yields_fieldPath {names : List String} {fields : List Ir.FieldRef} :
    Yields (fieldPath ty names) ctx b fields b' ↔ (∃ last, ctx.FieldsAt ty names fields last) ∧ b' = b := by
  induction names generalizing ty fields with
  | nil =>
    rw [fieldPath, yields_pure]
    constructor
    · rintro ⟨rfl, rfl⟩
      exact ⟨⟨ty, .nil⟩, rfl⟩
    · rintro ⟨⟨last, h⟩, rfl⟩
      cases h
      exact ⟨rfl, rfl⟩
  | cons name names ih =>
    constructor
    · intro h
      cases ty with
      | struct struct =>
        simp only [fieldPath, yields_bind, yields_fieldOf, yields_pure] at h
        obtain ⟨⟨field, ty⟩, _, ⟨hfield, rfl⟩, rest, _, hrest, rfl, rfl⟩ := h
        obtain ⟨⟨last, hlast⟩, rfl⟩ := ih.1 hrest
        exact ⟨⟨last, .cons hfield hlast⟩, rfl⟩
      | _ => exact (yields_throw.1 h).elim
    · rintro ⟨⟨last, h⟩, rfl⟩
      cases h with
      | cons hfield hlast =>
        simp only [fieldPath, yields_bind, yields_fieldOf, yields_pure]
        exact ⟨(_, _), _, ⟨hfield, rfl⟩, _, _, ih.2 ⟨⟨last, hlast⟩, rfl⟩, rfl, rfl⟩

variable {target : LoopTargets → BlockId}

theorem yields_lowerJump : Yields (lowerJump s target) ctx b u b' ↔
      ∃ targets, s.loop = some targets ∧ b' = b.leave (.jump (target targets)) := by
  unfold lowerJump
  cases s.loop with
  | _ => simp

theorem yields_lowerInit_some {e : Expr} {slot : SlotId} :
    Yields (lowerInit (some e) s slot) ctx b u b' ↔ ∃ value b₁,
      Yields (lowerExpr e s) ctx b value b₁ ∧ b' = b₁.emit (.store slot value) := by
  simp only [lowerInit, yields_bind, yields_emit]

theorem yields_lowerStmt_bind {ann : Option TypeAnn} {value : Option Expr} {isMutable : Bool} :
    Yields (lowerStmt (.bind id name ann value isMutable span) s) ctx b inner b' ↔ ∃ ty u,
      ctx.LetStores id ty ∧
        Yields (lowerInit value s ⟨b.slots.size⟩) ctx (b.addSlot ty) u b' ∧
          inner = s.declare name ⟨b.slots.size⟩ := by
  simp only [lowerStmt, yields_resolutions_bind, Context.LetStores]
  cases ctx.program.resolutions.letTypes.get? id with
  | none => simp
  | some t => simp [and_assoc, and_comm]

theorem yields_lowerStmt_assign {target : String} {value : Expr} :
    Yields (lowerStmt (.assign target value span) s) ctx b inner b' ↔ ∃ v b₁ slot,
      Yields (lowerExpr value s) ctx b v b₁ ∧ s.find? target = some slot ∧
        inner = s ∧ b' = b₁.emit (.store slot v) := by
  simp [and_assoc]

theorem yields_lowerStmt_assignField {base : String} {fields : List String} {value : Expr} :
    Yields (lowerStmt (.assignField base fields value span) s) ctx b inner b' ↔
      ∃ v b₁ slot path last, Yields (lowerExpr value s) ctx b v b₁ ∧ s.find? base = some slot ∧
        ctx.FieldsAt (b₁.slotType slot) fields path last ∧ inner = s ∧ b' = b₁.emit (.storeField slot path v) := by
  simp [yields_fieldPath, and_assoc]

theorem yields_lowerStmt_expr {e : Expr} : Yields (lowerStmt (.expr e) s) ctx b inner b' ↔ ∃ v,
      Yields (lowerExpr e s) ctx b v b' ∧ inner = s := yields_bind_pure

theorem yields_lowerStmt_ret {value : Option Expr} : Yields (lowerStmt (.ret value span) s) ctx b inner b' ↔ ∃ v b₁,
      Yields (lowerTail value s) ctx b v b₁ ∧ inner = s ∧ b' = b₁.leave (.ret v) := by
  simp

theorem yields_lowerStmt_cond {choice : Conditional} : Yields (lowerStmt (.cond choice) s) ctx b inner b' ↔ ∃ v,
      Yields (lowerConditional choice s none) ctx b v b' ∧ inner = s := yields_bind_pure

/-- The three blocks of a loop; control goes to the first of them, for the condition. -/
def Builder.enterLoop (b : Builder) : Builder :=
  (b.addBlock.addBlock.addBlock.terminate (.jump ⟨b.blocks.size⟩)).switchTo ⟨b.blocks.size⟩

/-- After the condition of a loop, control goes to its body or behind it. -/
def Builder.enterBody (b : Builder) (condition : Operand) (inside after : BlockId) : Builder :=
  (b.terminate (.branch condition inside after)).switchTo inside

/-- After the body of a loop, control goes back to the condition. -/
def Builder.endLoop (b : Builder) (head after : BlockId) : Builder :=
  (b.terminate (.jump head)).switchTo after

theorem yields_lowerStmt_loop {condition : Expr} :
    Yields (lowerStmt (.loop condition body span) s) ctx b inner b' ↔ ∃ c b₁ v b₂,
      Yields (lowerExpr condition s) ctx b.enterLoop c b₁ ∧
        Yields (lowerBlock body { s with loop := some ⟨⟨b.blocks.size⟩, ⟨b.blocks.size + 2⟩⟩ }) ctx
          (b₁.enterBody c ⟨b.blocks.size + 1⟩ ⟨b.blocks.size + 2⟩) v b₂ ∧
            inner = s ∧ b' = b₂.endLoop ⟨b.blocks.size⟩ ⟨b.blocks.size + 2⟩ := by
  simp [Builder.enterLoop, Builder.enterBody, Builder.endLoop, and_assoc]

theorem yields_lowerJump_pure : Yields (lowerJump s target >>= fun _ => pure s) ctx b inner b' ↔ ∃ targets,
      s.loop = some targets ∧ inner = s ∧ b' = b.leave (.jump (target targets)) := by
  simp only [yields_bind, yields_lowerJump, yields_pure]
  grind

theorem yields_lowerStmt_brk : Yields (lowerStmt (.brk span) s) ctx b inner b' ↔ ∃ targets,
    s.loop = some targets ∧ inner = s ∧ b' = b.leave (.jump targets.done) := yields_lowerJump_pure

theorem yields_lowerStmt_cont : Yields (lowerStmt (.cont span) s) ctx b inner b' ↔ ∃ targets,
    s.loop = some targets ∧ inner = s ∧ b' = b.leave (.jump targets.next) := yields_lowerJump_pure

theorem yields_lowerStmt_block : Yields (lowerStmt (.block body) s) ctx b inner b' ↔ ∃ v,
      Yields (lowerBlock body s) ctx b v b' ∧ inner = s := yields_bind_pure

theorem yields_lowerStmts_nil : Yields (lowerStmts [] s) ctx b inner b' ↔ inner = s ∧ b' = b := yields_pure

theorem yields_lowerStmts_cons {stmt : Stmt} {rest : List Stmt} :
    Yields (lowerStmts (stmt :: rest) s) ctx b inner b' ↔ ∃ s₁ b₁,
      Yields (lowerStmt stmt s) ctx b s₁ b₁ ∧ Yields (lowerStmts rest s₁) ctx b₁ inner b' := yields_bind

theorem yields_lowerBlock {stmts : List Stmt} {tail : Option Expr} :
    Yields (lowerBlock ⟨stmts, tail, span⟩ s) ctx b v b' ↔ ∃ inner b₁,
      Yields (lowerStmts stmts s) ctx b inner b₁ ∧ Yields (lowerTail tail inner) ctx b₁ v b' := yields_bind

theorem yields_lowerFields_nil : Yields (lowerFields [] s) ctx b values b' ↔ values = [] ∧ b' = b := yields_pure

theorem yields_lowerFields_cons {value : Expr} {rest : List FieldInit} :
    Yields (lowerFields (⟨name, value, span⟩ :: rest) s) ctx b values b' ↔ ∃ v b₁ more,
      Yields (lowerExpr value s) ctx b v b₁ ∧ Yields (lowerFields rest s) ctx b₁ more b' ∧
        values = (name, v) :: more := by
  rw [lowerFields]
  simp only [yields_bind (m := lowerExpr value s), yields_bind_pure, exists_and_left]

/-! ### Functions -/

theorem yields_lowerParams_nil : Yields (lowerParams [] s) ctx b inner b' ↔ inner = s ∧ b' = b := yields_pure

theorem yields_lowerParams_cons {index : Nat} {rest : List (String × Storage × Nat)} :
    Yields (lowerParams ((name, ty, index) :: rest) s) ctx b inner b' ↔
      Yields (lowerParams rest (s.declare name ⟨b.slots.size⟩)) ctx
        ((b.addSlot ty).emit (.store ⟨b.slots.size⟩ (.param index))) inner b' := by
  simp [lowerParams, and_assoc]

/-- How the body of a function ends: with its value, if it has one to give. -/
def bodyEnd (decl : FunctionDef) (ret : Storage) (value : Operand) : Terminator :=
  if decl.body.tail.isSome || ret == .unit then .ret value else .unreachable

theorem yields_lowerBody {decl : FunctionDef} {params : List Storage} {ret : Storage} :
    Yields (lowerBody decl params ret) ctx b u b' ↔ ∃ s b₁ v b₂,
      Yields (lowerParams ((decl.params.map (·.name)).zip params.zipIdx) {}) ctx
        (b.addBlock.switchTo ⟨b.blocks.size⟩) s b₁ ∧
          Yields (lowerBlock decl.body s) ctx b₁ v b₂ ∧ b' = b₂.terminate (bodyEnd decl ret v) := by
  simp [lowerBody, bodyEnd, and_assoc]

end Keel.Lowering
