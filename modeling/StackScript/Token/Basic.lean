import StackScript.Span
import StackScript.Decimal.Positional

/-!
# Tokens

The kinds of token of the language: literals (numbers, strings, booleans), identifiers, the
reserved words, operators and delimiters, and the end of input.  Five words (`class`, `fun`,
`return`, `super`, `this`) are reserved for later and refused by the parser; `int`, `float` and
`bool` name types in declarations.

Each kind has a fixed spelling (`lexeme`; literal kinds answer their category), a text
(`render`; literals show their value), and two classes used by the parser: the words that begin
a statement, where error recovery resumes, and the reserved words.
-/

namespace StackScript

/-- What a token is, with the value of a literal or the name of an identifier. -/
inductive TokenKind where
  | number (value : Float)
  | string (text : String)
  | bool (value : Bool)
  | identifier (name : String)
  | kwAnd | kwOr | kwVar | kwPrint | kwIf | kwElse | kwWhile | kwFor | kwIn | kwNil
  | kwClass | kwFun | kwReturn | kwSuper | kwThis
  | kwInt | kwFloat | kwBool
  | plus | minus | star | slash | equal | equalEqual | bang | bangEqual
  | less | lessEqual | greater | greaterEqual
  | leftParen | rightParen | leftBrace | rightBrace | comma | dot | semicolon
  | eof
deriving Repr, BEq, Inhabited

/-- A token: its kind and where it stands. -/
structure Token where
  kind : TokenKind
  span : Span
deriving Repr, Inhabited

namespace TokenKind

/-- The kind a word stands for, if it is a reserved word; `true` and `false` are literals. -/
def keyword? : String → Option TokenKind
  | "and" => some kwAnd
  | "or" => some kwOr
  | "var" => some kwVar
  | "print" => some kwPrint
  | "if" => some kwIf
  | "else" => some kwElse
  | "while" => some kwWhile
  | "for" => some kwFor
  | "in" => some kwIn
  | "nil" => some kwNil
  | "true" => some (bool true)
  | "false" => some (bool false)
  | "class" => some kwClass
  | "fun" => some kwFun
  | "return" => some kwReturn
  | "super" => some kwSuper
  | "this" => some kwThis
  | "int" => some kwInt
  | "float" => some kwFloat
  | "bool" => some kwBool
  | _ => none

/-- The words where a statement begins; the parser resumes there after an error. -/
def startsStatement : TokenKind → Bool
  | kwVar | kwPrint | kwIf | kwWhile | kwFor | kwClass | kwFun | kwReturn => true
  | _ => false

/-- The words kept for later, which the parser refuses. -/
def isReserved : TokenKind → Bool
  | kwClass | kwFun | kwReturn | kwSuper | kwThis => true
  | _ => false

/-- The fixed spelling of a kind; a literal or identifier kind answers its category. -/
def lexeme : TokenKind → String
  | number _ => "number"
  | string _ => "string"
  | bool true => "true"
  | bool false => "false"
  | identifier _ => "identifier"
  | kwAnd => "and"
  | kwOr => "or"
  | kwVar => "var"
  | kwPrint => "print"
  | kwIf => "if"
  | kwElse => "else"
  | kwWhile => "while"
  | kwFor => "for"
  | kwIn => "in"
  | kwNil => "nil"
  | kwClass => "class"
  | kwFun => "fun"
  | kwReturn => "return"
  | kwSuper => "super"
  | kwThis => "this"
  | kwInt => "int"
  | kwFloat => "float"
  | kwBool => "bool"
  | plus => "+"
  | minus => "-"
  | star => "*"
  | slash => "/"
  | equal => "="
  | equalEqual => "=="
  | bang => "!"
  | bangEqual => "!="
  | less => "<"
  | lessEqual => "<="
  | greater => ">"
  | greaterEqual => ">="
  | leftParen => "("
  | rightParen => ")"
  | leftBrace => "\x7b"
  | rightBrace => "\x7d"
  | comma => ","
  | dot => "."
  | semicolon => ";"
  | eof => "EOF"

/-- The text of a token: a literal shows its value (a string in double quotes), an identifier
its name, and every other kind its spelling. -/
def render : TokenKind → String
  | number x => Decimal.render x
  | string s => "\"" ++ s ++ "\""
  | bool b => toString b
  | identifier n => n
  | k => k.lexeme

/-- The position of the kind in the list of kinds; two tokens are of one kind exactly when
their positions agree, whatever their values. -/
def ordinal : TokenKind → Nat
  | number _ => 0
  | string _ => 1
  | bool _ => 2
  | identifier _ => 3
  | kwAnd => 4
  | kwOr => 5
  | kwVar => 6
  | kwPrint => 7
  | kwIf => 8
  | kwElse => 9
  | kwWhile => 10
  | kwFor => 11
  | kwIn => 12
  | kwNil => 13
  | kwClass => 14
  | kwFun => 15
  | kwReturn => 16
  | kwSuper => 17
  | kwThis => 18
  | kwInt => 19
  | kwFloat => 20
  | kwBool => 21
  | plus => 22
  | minus => 23
  | star => 24
  | slash => 25
  | equal => 26
  | equalEqual => 27
  | bang => 28
  | bangEqual => 29
  | less => 30
  | lessEqual => 31
  | greater => 32
  | greaterEqual => 33
  | leftParen => 34
  | rightParen => 35
  | leftBrace => 36
  | rightBrace => 37
  | comma => 38
  | dot => 39
  | semicolon => 40
  | eof => 41

/-- Two kinds are alike when they are the same kind, values aside. -/
def alike (a b : TokenKind) : Bool := a.ordinal == b.ordinal

end TokenKind

end StackScript
