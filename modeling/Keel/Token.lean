/-
# Tokens

A lexeme is a word, a number, a string or a symbol of the language; a token is a
lexeme with the span it was read from.  The end of the text is a token too.
-/
import Keel.Source.Span

namespace Keel

/-- Words with a fixed meaning; `_` counts among them. -/
inductive Keyword where
  | fnKw | letKw | mutKw | constKw | structKw | enumKw | traitKw | implKw | importKw | typeKw
  | returnKw | ifKw | elseKw | whileKw | matchKw | breakKw | continueKw | pubKw | trueKw | falseKw
  | asKw | forKw | underscore
deriving DecidableEq, Repr

namespace Keyword

def all : List Keyword :=
  [fnKw, letKw, mutKw, constKw, structKw, enumKw, traitKw, implKw, importKw, typeKw, returnKw,
    ifKw, elseKw, whileKw, matchKw, breakKw, continueKw, pubKw, trueKw, falseKw, asKw, forKw,
    underscore]

def text : Keyword → String
  | fnKw => "fn"
  | letKw => "let"
  | mutKw => "mut"
  | constKw => "const"
  | structKw => "struct"
  | enumKw => "enum"
  | traitKw => "trait"
  | implKw => "impl"
  | importKw => "import"
  | typeKw => "type"
  | returnKw => "return"
  | ifKw => "if"
  | elseKw => "else"
  | whileKw => "while"
  | matchKw => "match"
  | breakKw => "break"
  | continueKw => "continue"
  | pubKw => "pub"
  | trueKw => "true"
  | falseKw => "false"
  | asKw => "as"
  | forKw => "for"
  | underscore => "_"

def ofText? (word : String) : Option Keyword := all.find? (·.text == word)

theorem ofText?_text (k : Keyword) : ofText? k.text = some k := by cases k <;> rfl

end Keyword

/-- Punctuation and operators. -/
inductive Symbol where
  | dotDotEq
  | arrow | fatArrow | colonColon | ampAmp | pipePipe | eqEq | bangEq | ltEq | gtEq | ltLt | gtGt
  | amp | pipe | caret | tilde | bang | eq | lt | gt | plus | minus | star | slash | percent
  | dot | comma | colon | semi | lParen | rParen | lBrace | rBrace | lBracket | rBracket
deriving DecidableEq, Repr

namespace Symbol

/-- All symbols, the longest first, so that the first one found at the front of a
text is the longest one there. -/
def all : List Symbol :=
  [dotDotEq, arrow, fatArrow, colonColon, ampAmp, pipePipe, eqEq, bangEq, ltEq, gtEq, ltLt, gtGt,
    amp, pipe, caret, tilde, bang, eq, lt, gt, plus, minus, star, slash, percent, dot, comma,
    colon, semi, lParen, rParen, lBrace, rBrace, lBracket, rBracket]

def text : Symbol → String
  | dotDotEq => "..="
  | arrow => "->"
  | fatArrow => "=>"
  | colonColon => "::"
  | ampAmp => "&&"
  | pipePipe => "||"
  | eqEq => "=="
  | bangEq => "!="
  | ltEq => "<="
  | gtEq => ">="
  | ltLt => "<<"
  | gtGt => ">>"
  | amp => "&"
  | pipe => "|"
  | caret => "^"
  | tilde => "~"
  | bang => "!"
  | eq => "="
  | lt => "<"
  | gt => ">"
  | plus => "+"
  | minus => "-"
  | star => "*"
  | slash => "/"
  | percent => "%"
  | dot => "."
  | comma => ","
  | colon => ":"
  | semi => ";"
  | lParen => "("
  | rParen => ")"
  | lBrace => "\x7b"
  | rBrace => "\x7d"
  | lBracket => "["
  | rBracket => "]"

end Symbol

/-- What a token is. -/
inductive Lexeme where
  | ident (name : String)
  | int (value : Nat)
  | str (value : String)
  | keyword (word : Keyword)
  | symbol (sign : Symbol)
  | eof
deriving DecidableEq, Repr

namespace Lexeme

/-- Fixed text between backticks, as messages quote it. -/
def quoted (text : String) : String := "`" ++ text ++ "`"

/-- How messages name a lexeme. -/
def describe : Lexeme → String
  | ident name => "identifier " ++ quoted name
  | int value => "integer " ++ quoted (toString value)
  | str _ => "string literal"
  | keyword word => quoted word.text
  | symbol sign => quoted sign.text
  | eof => "end of file"

end Lexeme

/-- A lexeme and where it stands. -/
structure Token where
  lexeme : Lexeme
  span : Span
deriving DecidableEq, Repr

end Keel
