/-
# Running a program in blocks

A machine runs one function and remembers the callers that wait for it.  A step carries
out one instruction, or the terminator at the end of a block.  A call enters the first
block of the function, and `return` goes back to the caller, whose temporary is set.

A slot or temporary that has not been set has no value, and a step that reads it is not
possible.
-/
import Keel.Proofs.Semantics.Resolved

namespace Keel.Ir

/-! ### Values -/

def Constant.denote : Constant → Value
  | unit => .unit
  | bool value => .bool value
  | int value kind => .int (.ofInt kind value)
  | str value => .str value

def Storage.holds : Storage → Value → Bool
  | unit, .unit | bool, .bool _ | str, .str _ => true
  | struct _, .struct _ | enum _, .variant _ _ | list _, .list _ => true
  | int kind, .int n => n.kind == kind
  | _, _ => false

def EagerOp.perform? (op : EagerOp) (ty : Storage) (l r : Value) : Option (Except Failure Value) :=
  match op with
  | arith op =>
    match ty with
    | .int kind => Value.arith? op kind l r
    | _ => none
  | compare op =>
    if ty.holds l then (Value.compare? op l r).map fun holds => .ok (.bool holds) else none

def Service.builtin : Service → Builtin
  | print => .print
  | assert => .assert
  | panic => .panic

/-! ### Machines -/

/-- A function that is running: its arguments, what its temporaries and slots hold, and
the instruction that comes next. -/
structure Frame where
  function : Function
  args : List Value
  temps : TempId → Option Value
  slots : SlotId → Option Value
  block : BlockId
  index : Nat

structure Machine where
  frame : Frame
  /-- The functions that wait for a result, and where they want it. -/
  callers : List (Frame × TempId)
  world : World

namespace Frame

def enter (f : Function) (args : List Value) : Option Frame :=
  f.blocks.head?.map fun block => ⟨f, args, fun _ => none, fun _ => none, block.id, 0⟩

def value? (f : Frame) : Operand → Option Value
  | .param index => f.args[index]?
  | .temp id => f.temps id
  | .const value => some value.denote

def values? (f : Frame) (operands : List Operand) : Option (List Value) := operands.mapM f.value?

def setTemp (f : Frame) (dest : TempId) (value : Value) : Frame :=
  { f with temps := fun t => if t = dest then some value else f.temps t }

def setSlot (f : Frame) (slot : SlotId) (value : Value) : Frame :=
  { f with slots := fun s => if s = slot then some value else f.slots s }

def advance (f : Frame) : Frame := { f with index := f.index + 1 }

def jump (f : Frame) (target : BlockId) : Frame := { f with block := target, index := 0 }

end Frame

inductive Effect where
  /-- Sets a temporary. -/
  | define (dest : TempId) (value : Value)
  /-- Sets a slot. -/
  | assign (slot : SlotId) (value : Value)
  /-- Changes neither. -/
  | proceed
  | fail (failure : Failure)

namespace Effect

def ofResult (dest : TempId) : Except Failure Value → Effect
  | .ok value => define dest value
  | .error failure => fail failure

def ofCheck : Except Failure Unit → Effect
  | .ok _ => proceed
  | .error failure => fail failure

end Effect

def Instr.effect? (f : Frame) (w : World) : Instr → Option (Effect × World)
  | load dest slot => return (.define dest (← f.slots slot), w)
  | store slot value => return (.assign slot (← f.value? value), w)
  | storeField slot path value => do
    let new ← (← f.slots slot).setField? (path.map (·.index)) (← f.value? value)
    return (.assign slot new, w)
  | unary dest op operand => return (.define dest (← Value.unary? op (← f.value? operand)), w)
  | binary dest op left right ty =>
    return (.ofResult dest (← op.perform? ty (← f.value? left) (← f.value? right)), w)
  | cast dest value source target => do
    match ← f.value? value with
    | .int n => if n.kind = source then some (.define dest (.int (.ofInt target n.value)), w) else none
    | _ => none
  | rangeCheck value kind low high => do
    match ← f.value? value with
    | .int n =>
      if n.kind = kind then
        if low ≤ n.value ∧ n.value ≤ high then some (.proceed, w)
        else some (.fail (.outOfRange low high), w)
      else none
    | _ => none
  | service which arg ty => do
    let value ← f.value? arg
    if ty.holds value then
      let (result, w) ← which.builtin.perform value w
      return (.ofCheck result, w)
    else none
  | makeStruct dest _ fields => return (.define dest (.struct (← f.values? fields)), w)
  | getField dest base field =>
    return (.define dest (← (← f.value? base).field? field.index), w)
  | makeVariant dest _ variant carried => do
    if h : variant < 2147483648 then
      return (.define dest (.variant ⟨variant, h⟩ (← carried.mapM f.value?)), w)
    else none
  | tag dest value => do
    match ← f.value? value with
    | .variant which _ => some (.define dest (.int (.ofInt .i32 which.val)), w)
    | _ => none
  | payload dest value _ _ index field => do
    match ← f.value? value with
    | .variant which carried =>
      if which.val = index ∧ field = 0 then return (.define dest (← carried), w) else none
    | _ => none
  | newList dest _ => some (.define dest w.newList.1, w.newList.2)
  | intrinsic dest op receiver args _ => do
    let (result, w) ← op.perform (← f.slots receiver) (← f.values? args) w
    return (.ofResult dest result, w)
  | call _ _ _ => none

/-- What comes after a step: another step, or the end of the run. -/
inductive Next where
  | go (m : Machine)
  | halt (result : Except Failure Value) (world : World)

def resume (callers : List (Frame × TempId)) (value : Value) (w : World) : Next :=
  match callers with
  | [] => .halt (.ok value) w
  | (caller, dest) :: rest => .go ⟨(caller.setTemp dest value).advance, rest, w⟩

namespace Machine

def apply (m : Machine) : Effect × World → Next
  | (.define dest value, w) => .go ⟨(m.frame.setTemp dest value).advance, m.callers, w⟩
  | (.assign slot value, w) => .go ⟨(m.frame.setSlot slot value).advance, m.callers, w⟩
  | (.proceed, w) => .go ⟨m.frame.advance, m.callers, w⟩
  | (.fail failure, w) => .halt (.error failure) w

def leave? (m : Machine) : Terminator → Option Next
  | .ret value => return resume m.callers (← m.frame.value? value) m.world
  | .jump target => some (.go { m with frame := m.frame.jump target })
  | .branch condition thenBlock elseBlock => do
    match ← m.frame.value? condition with
    | .bool holds => some (.go { m with frame := m.frame.jump (if holds then thenBlock else elseBlock) })
    | _ => none
  | .unreachable => none

def call? (program : Program) (m : Machine) (dest : TempId) (function : String)
    (args : List Operand) : Option Next := do
  let values ← m.frame.values? args
  let frame ← Frame.enter (← program.functions.get? function) values
  return .go ⟨frame, (m.frame, dest) :: m.callers, m.world⟩

def step? (program : Program) (m : Machine) : Option Next := do
  let block ← m.frame.function.block? m.frame.block
  match block.instrs[m.frame.index]? with
  | some (.call dest function args) => m.call? program dest function args
  | some i => return m.apply (← i.effect? m.frame m.world)
  | none => m.leave? block.terminator

end Machine

/-! ### Runs -/

/-- After some steps, possibly none. -/
inductive Leads (program : Program) : Machine → Next → Prop
  | refl (m : Machine) : Leads program m (.go m)
  | step {m m' : Machine} {next : Next} :
      m.step? program = some (.go m') → Leads program m' next → Leads program m next
  | halt {m : Machine} {result : Except Failure Value} {w : World} :
      m.step? program = some (.halt result w) → Leads program m (.halt result w)

namespace Leads

variable {program : Program} {m m' : Machine} {next : Next}

theorem single (h : m.step? program = some next) : Leads program m next := by
  cases next with
  | go m' => exact .step h (.refl m')
  | halt result w => exact .halt h

theorem trans (h : Leads program m (.go m')) (h' : Leads program m' next) : Leads program m next := by
  generalize hn : Next.go m' = n at h
  induction h with
  | refl m => cases hn; exact h'
  | step hstep _ ih => exact .step hstep (ih hn)
  | halt => cases hn

theorem halt_unique {r r' : Except Failure Value} {w w' : World}
    (h : Leads program m (.halt r w)) (h' : Leads program m (.halt r' w')) : r = r' ∧ w = w' := by
  generalize hn : Next.halt r w = n at h
  induction h with
  | refl m => cases hn
  | step hstep _ ih =>
    cases h' with
    | step hstep' h' =>
      cases hstep.symm.trans hstep'
      exact ih h' hn
    | halt hstep' => cases hstep.symm.trans hstep'
  | halt hstep =>
    cases hn
    cases h' with
    | step hstep' _ => cases hstep.symm.trans hstep'
    | halt hstep' =>
      cases hstep.symm.trans hstep'
      exact ⟨rfl, rfl⟩

end Leads

/-- The end of a run of less than the given number of steps. -/
def Machine.run? (program : Program) : Nat → Machine → Option (Except Failure Value × World)
  | 0, _ => none
  | n + 1, m =>
    match m.step? program with
    | some (.go m') => m'.run? program n
    | some (.halt result w) => some (result, w)
    | none => none

variable {result : Except Failure Value} {w : World}

theorem Leads.of_run? {program : Program} {n : Nat} {m : Machine} (h : m.run? program n = some (result, w)) :
    Leads program m (.halt result w) := by
  induction n generalizing m with
  | zero => cases h
  | succ n ih =>
    rw [Machine.run?] at h
    split at h
    · exact .step ‹_› (ih h)
    · cases h
      exact .halt ‹_›
    · cases h

def Ends (program : Program) (f : Function) (args : List Value) (w : World)
    (result : Except Failure Value) (w' : World) : Prop :=
  ∃ frame, Frame.enter f args = some frame ∧ Leads program ⟨frame, [], w⟩ (.halt result w')

/-- The end of a call that takes less than the given number of steps. -/
def Function.run? (program : Program) (f : Function) (n : Nat) (args : List Value) (w : World) :
    Option (Except Failure Value × World) := do
  Machine.run? program n ⟨← Frame.enter f args, [], w⟩

theorem Ends.of_run? {program : Program} {f : Function} {n : Nat} {args : List Value} {w' : World}
    (h : f.run? program n args w = some (result, w')) : Ends program f args w result w' := by
  obtain ⟨frame, hframe, hrun⟩ := Option.bind_eq_some_iff.1 h
  exact ⟨frame, hframe, .of_run? hrun⟩

theorem Ends.unique {program : Program} {f : Function} {args : List Value} {w₁ w₂ : World}
    {r₁ r₂ : Except Failure Value} (h₁ : Ends program f args w r₁ w₁) (h₂ : Ends program f args w r₂ w₂) :
    r₁ = r₂ ∧ w₁ = w₂ := by
  obtain ⟨frame, hframe, hl₁⟩ := h₁
  obtain ⟨frame', hframe', hl₂⟩ := h₂
  cases hframe.symm.trans hframe'
  exact hl₁.halt_unique hl₂

end Keel.Ir
