/-
# Listings

The text of a program in blocks: a line per instruction, indented below the number of
its block.
-/
import Keel.Ir.Basic
import Keel.Text.Quoted

namespace Keel

def Intrinsic.text : Intrinsic → String
  | listPush => "ListPush"
  | listLen => "ListLen"
  | listGet => "ListGet"
  | listSet => "ListSet"
  | strLen => "StrLen"
  | strConcat => "StrConcat"
  | strByteAt => "StrByteAt"

namespace Ir

def BlockId.text (id : BlockId) : String := "bb" ++ toString id.index

def TempId.text (id : TempId) : String := "t" ++ toString id.index

def SlotId.text (id : SlotId) : String := "s" ++ toString id.index

def Storage.text : Storage → String
  | unit => "unit"
  | bool => "bool"
  | int kind => kind.name
  | str => "string"
  | struct name => "struct " ++ name
  | enum name => "enum " ++ name
  | list element => "List[" ++ element.text ++ "]"

def Constant.text : Constant → String
  | unit => "()"
  | bool value => if value then "true" else "false"
  | int value kind => toString value ++ kind.name
  | str value => Text.quote value

def Operand.text : Operand → String
  | param index => "p" ++ toString index
  | temp id => id.text
  | const value => value.text

def Service.text : Service → String
  | print => "print"
  | assert => "assert"
  | panic => "panic"

def Operand.texts (operands : List Operand) : String :=
  String.intercalate ", " (operands.map Operand.text)

def Instr.text : Instr → String
  | load dest slot => s!"{dest.text} = load {slot.text}"
  | store slot value => s!"store {slot.text}, {value.text}"
  | storeField slot path value =>
    let fields := String.intercalate "." (path.map fun f => toString f.index)
    s!"store {slot.text}.{fields}, {value.text}"
  | unary dest op operand => s!"{dest.text} = {op.symbol}{operand.text}"
  | binary dest op left right ty =>
    s!"{dest.text} = {left.text} {op.symbol} {right.text} : {ty.text}"
  | cast dest value source target =>
    s!"{dest.text} = cast {value.text} {source.name} -> {target.name}"
  | rangeCheck value kind low high =>
    s!"range_check {value.text} : {kind.name}[{low}..={high}]"
  | call dest function args =>
    let shown := Operand.texts args
    s!"{dest.text} = call {function}({shown})"
  | service which arg ty => s!"{which.text}({arg.text} : {ty.text})"
  | makeStruct dest name fields =>
    let shown := Operand.texts fields
    s!"{dest.text} = struct {name} \x7b {shown} \x7d"
  | getField dest base field => s!"{dest.text} = {base.text}.{field.index}"
  | makeVariant dest enum variant none => s!"{dest.text} = variant {enum}#{variant}"
  | makeVariant dest enum variant (some value) =>
    s!"{dest.text} = variant {enum}#{variant}({value.text})"
  | tag dest value => s!"{dest.text} = tag {value.text}"
  | payload dest value _ variant _ field =>
    s!"{dest.text} = payload {value.text}.{variant}.{field}"
  | newList dest element => s!"{dest.text} = list[{element.text}]"
  | intrinsic dest op receiver args _ =>
    let shown := Operand.texts args
    s!"{dest.text} = {op.text} {receiver.text}({shown})"

def Terminator.text : Terminator → String
  | ret value => s!"return {value.text}"
  | jump target => s!"jump {target.text}"
  | branch condition thenBlock elseBlock =>
    s!"branch {condition.text}, {thenBlock.text}, {elseBlock.text}"
  | unreachable => "unreachable"

def Block.lines (b : Block) : List String :=
  (b.id.text ++ ":") ::
    (b.instrs.map fun i => "    " ++ i.text) ++ ["    " ++ b.terminator.text]

/-- The parameters `p0: i32, p1: bool`. -/
def paramsText (params : List Storage) : String :=
  String.intercalate ", " (params.zipIdx.map fun (ty, i) => s!"p{i}: {ty.text}")

def Function.text (f : Function) : String :=
  let shown := paramsText f.params
  let head := s!"fn {f.name}({shown}) -> {f.ret.text} \x7b"
  String.intercalate "\n" (head :: f.blocks.flatMap Block.lines ++ ["\x7d"])

def Program.text (p : Program) : String :=
  String.join (p.functions.values.map fun f => f.text ++ "\n")

end Ir
end Keel
