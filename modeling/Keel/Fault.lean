/-
# Faults

A fault says that one stage of the compiler handed something to the next that it must
not.  A program that the checker has accepted should cause none.
-/
import Keel.Ir.Listing

namespace Keel

inductive Fault where
  -- blocks
  | noBlocks (function : String)
  | repeatedBlock (function : String)
  | missingTarget (block : Ir.BlockId) (function : String) (target : Ir.BlockId)
  | missingBlock (function : String) (block : Ir.BlockId)
  | noTerminator (block : Ir.BlockId) (function : String)
  -- declarations
  | noSignature (name : QualName)
  | noEntry (name : QualName)
  | unstorable (ty : Ty)
  | unknownStruct (name : String)
  | noField (struct field : String)
  -- statements
  | unbound (name function : String)
  | noLetType (name : String)
  | fieldOfNonStruct (ty : Ir.Storage)
  | outsideLoop (function : String)
  -- expressions
  | noType (id : NodeId)
  | unresolvedValue (path : String)
  | constMissing (name : QualName)
  | constUnusable (name : QualName)
  | literalType (ty : Ir.Storage)
  | memberOfNonStruct (name : String)
  | castSource
  | castTarget (ty : Ty)
  | noCallTarget (id : NodeId)
  | noArgument (builtin : Builtin)
  | listType
  | receiverNotLocal
  | noReceiver
  | literalUnresolved (id : NodeId)
  | uninitialized (field struct : String)
  -- matches
  | patternType (ty : Ir.Storage)
  | payloadType (name : String)
  -- instructions
  | unknownTemp (function : String) (temp : Ir.TempId)
  | operatorType (function symbol : String) (ty : Ir.Storage)
  | stringOperator (function symbol : String)
  | serviceType (function : String) (which : Ir.Service) (ty : Ir.Storage)
  | missingArgument (function : String) (op : Intrinsic) (index : Nat)
  | receiverNotList (function : String) (op : Intrinsic)
deriving DecidableEq, Repr

namespace Fault

def cause : Fault → String
  | noBlocks function => s!"function `{function}` has no blocks"
  | repeatedBlock function => s!"function `{function}` defines a block twice"
  | missingTarget block function target =>
    s!"block {block.text} of `{function}` jumps to missing block {target.text}"
  | missingBlock function block => s!"`{function}` jumps to missing block {block.text}"
  | noTerminator block function => s!"block {block.text} of `{function}` has no terminator"
  | noSignature name => s!"no signature for `{name.text}`"
  | noEntry name => s!"entry function `{name.text}` was not lowered"
  | unstorable ty => s!"type `{ty.text}` reached lowering"
  | unknownStruct name => s!"unknown struct `{name}`"
  | noField struct field => s!"struct `{struct}` has no field `{field}`"
  | unbound name function => s!"unbound local `{name}` in `{function}`"
  | noLetType name => s!"`let {name}` has no recorded type"
  | fieldOfNonStruct ty => s!"field assignment through non-struct type `{ty.text}`"
  | outsideLoop function => s!"loop control outside a loop in `{function}`"
  | noType id => s!"expression {id.text} has no recorded type"
  | unresolvedValue path => s!"unresolved value `{path}`"
  | constMissing name => s!"constant `{name.text}` was not evaluated"
  | constUnusable name => s!"constant `{name.text}` has no usable value"
  | literalType ty => s!"integer literal typed as `{ty.text}`"
  | memberOfNonStruct name => s!"field `{name}` read from a non-struct value"
  | castSource => "cast from a non-integer value"
  | castTarget ty => s!"cast to non-integer type `{ty.text}`"
  | noCallTarget id => s!"call {id.text} has no resolved target"
  | noArgument builtin => s!"`{builtin.name}` without an argument"
  | listType => "`list()` without a list type"
  | receiverNotLocal => "intrinsic receiver is not a local"
  | noReceiver => "intrinsic call without a receiver"
  | literalUnresolved id => s!"struct literal {id.text} is unresolved"
  | uninitialized field struct => s!"field `{field}` of `{struct}` is not initialized"
  | patternType ty => s!"pattern does not apply to a scrutinee of type `{ty.text}`"
  | payloadType name => s!"payload binding `{name}` has no type"
  | unknownTemp function temp => s!"in `{function}`: unknown temporary {temp.text}"
  | operatorType function symbol ty =>
    s!"in `{function}`: `{symbol}` does not apply to `{ty.text}`"
  | stringOperator function symbol => s!"in `{function}`: `{symbol}` does not apply to strings"
  | serviceType function which ty =>
    s!"in `{function}`: `{which.text}` cannot take a value of type `{ty.text}`"
  | missingArgument function op index =>
    s!"in `{function}`: {op.text} is missing argument {index}"
  | receiverNotList function op =>
    s!"in `{function}`: {op.text} on a receiver that is not a list"

def message (f : Fault) : String := "internal compiler error: " ++ f.cause

end Fault

namespace Ir

/-- A function has to have blocks, each number once, and may jump only to those. -/
def Function.verify (f : Function) : Except Fault Unit := do
  let ids := f.blocks.map (·.id)
  if ids.isEmpty then
    throw (.noBlocks f.name)
  if !ids.Nodup then
    throw (.repeatedBlock f.name)
  f.blocks.forM fun b =>
    b.terminator.targets.forM fun target =>
      if ids.contains target then pure () else throw (.missingTarget b.id f.name target)

end Ir
end Keel
