import Lox.Text.Json

/-!
# Tokens

A token is a kind, the stretch of source it was read from, and the line it ends on.  What a
literal token denotes is a function of its kind and lexeme, so two tokens with equal fields
denote the same value.  A `Terminal` is what a reader of tokens finds next: a token or the end
of the text.
-/

namespace Lox

/-- Words that cannot be used as names. -/
inductive Keyword where
  | and
  | class_
  | else_
  | false_
  | fun_
  | for_
  | if_
  | null
  | or
  | print
  | return_
  | super
  | this
  | true_
  | var
  | while_
deriving DecidableEq, Repr

namespace Keyword

/-- How a keyword is written. -/
def spelling : Keyword → String
  | .and => "and"
  | .class_ => "class"
  | .else_ => "else"
  | .false_ => "false"
  | .fun_ => "fun"
  | .for_ => "for"
  | .if_ => "if"
  | .null => "null"
  | .or => "or"
  | .print => "print"
  | .return_ => "return"
  | .super => "super"
  | .this => "this"
  | .true_ => "true"
  | .var => "var"
  | .while_ => "while"

/-- The name under which a keyword is listed. -/
def label : Keyword → String
  | .and => "AND"
  | .class_ => "CLASS"
  | .else_ => "ELSE"
  | .false_ => "FALSE"
  | .fun_ => "FUN"
  | .for_ => "FOR"
  | .if_ => "IF"
  | .null => "NIL"
  | .or => "OR"
  | .print => "PRINT"
  | .return_ => "RETURN"
  | .super => "SUPER"
  | .this => "THIS"
  | .true_ => "TRUE"
  | .var => "VAR"
  | .while_ => "WHILE"

/-- All keywords. -/
def all : List Keyword :=
  [.and, .class_, .else_, .false_, .fun_, .for_, .if_, .null, .or, .print, .return_, .super,
    .this, .true_, .var, .while_]

/-- The keyword with the given spelling. -/
def ofSpelling? (word : String) : Option Keyword :=
  all.find? fun k => k.spelling = word

end Keyword

/-- Marks made of one or two signs. -/
inductive Punct where
  | leftParen
  | rightParen
  | leftBrace
  | rightBrace
  | comma
  | dot
  | minus
  | plus
  | semicolon
  | slash
  | star
  | bang
  | bangEqual
  | equal
  | equalEqual
  | greater
  | greaterEqual
  | less
  | lessEqual
deriving DecidableEq, Repr

namespace Punct

/-- How a mark is written. -/
def spelling : Punct → String
  | .leftParen => "("
  | .rightParen => ")"
  | .leftBrace => "\x7b"
  | .rightBrace => "\x7d"
  | .comma => ","
  | .dot => "."
  | .minus => "-"
  | .plus => "+"
  | .semicolon => ";"
  | .slash => "/"
  | .star => "*"
  | .bang => "!"
  | .bangEqual => "!="
  | .equal => "="
  | .equalEqual => "=="
  | .greater => ">"
  | .greaterEqual => ">="
  | .less => "<"
  | .lessEqual => "<="

/-- The name under which a mark is listed. -/
def label : Punct → String
  | .leftParen => "LEFT_PAREN"
  | .rightParen => "RIGHT_PAREN"
  | .leftBrace => "LEFT_BRACE"
  | .rightBrace => "RIGHT_BRACE"
  | .comma => "COMMA"
  | .dot => "DOT"
  | .minus => "MINUS"
  | .plus => "PLUS"
  | .semicolon => "SEMICOLON"
  | .slash => "SLASH"
  | .star => "STAR"
  | .bang => "BANG"
  | .bangEqual => "BANG_EQUAL"
  | .equal => "EQUAL"
  | .equalEqual => "EQUAL_EQUAL"
  | .greater => "GREATER"
  | .greaterEqual => "GREATER_EQUAL"
  | .less => "LESS"
  | .lessEqual => "LESS_EQUAL"

end Punct

/-- What a literal denotes. -/
inductive Literal where
  | number (value : Float)
  | string (value : String)
  | bool (value : Bool)
  | nil
deriving DecidableEq

/-- The kinds of tokens. -/
inductive Token.Kind where
  | punct (mark : Punct)
  | keyword (word : Keyword)
  | identifier
  | string
  | number
deriving DecidableEq, Repr

/-- The name under which a kind is listed. -/
def Token.Kind.label : Token.Kind → String
  | .punct mark => mark.label
  | .keyword word => word.label
  | .identifier => "IDENTIFIER"
  | .string => "STRING"
  | .number => "NUMBER"

/-- A token: its kind, the text it was read from, and the line its last character stands on. -/
structure Token where
  kind : Token.Kind
  lexeme : String
  line : Nat
deriving DecidableEq, Repr

namespace Token

/-- The number a run of digits with at most one point denotes: the double nearest to the decimal. -/
def numberValue (lexeme : String) : Float :=
  let whole := lexeme.toList.takeWhile Char.isDigit
  let fraction := (lexeme.toList.dropWhile Char.isDigit).drop 1
  let digits := (whole ++ fraction).foldl (fun n c => 10 * n + (c.toNat - '0'.toNat)) 0
  Float.ofScientific digits true fraction.length

/-- The text between the quotes of a string lexeme. -/
def stringValue (lexeme : String) : String :=
  String.ofList (lexeme.toList.drop 1).dropLast

/-- What a string or number token denotes. -/
def literal? (t : Token) : Option Literal :=
  match t.kind with
  | .string => some (.string (stringValue t.lexeme))
  | .number => some (.number (numberValue t.lexeme))
  | _ => none

/-- Numbers in token listings: never with an exponent; whole ones below `10 ^ 15` end in `.0`. -/
def numberLayout : Decimal.Layout where
  tie := .up
  positional _ := true
  pointed x := x < 15
  exact := false
  mark := "e"
  plus := ""
  pointedDigit := false
  nan := "NaN"
  infinity := "inf"

/-- How the denoted value is listed. -/
def literalText (t : Token) : String :=
  match t.literal? with
  | some (.string s) => s
  | some (.number x) => numberLayout.text x
  | _ => "null"

/-- The line a token is listed as. -/
def listing (t : Token) : String :=
  t.kind.label ++ " " ++ t.lexeme ++ " " ++ t.literalText

/-- A kind in a JSON document, with the value of a token that carries one. -/
def Kind.json (kind : Kind) : Option Literal → Text.Json
  | some (.string s) => .object [(kind.label, .string s)]
  | some (.number x) => .object [(kind.label, .number x)]
  | _ => .string kind.label

/-- A token as a JSON document, with the value it carries. -/
def jsonWith (t : Token) (value : Option Literal) : Text.Json :=
  .object [("token_type", t.kind.json value), ("lexeme", .string t.lexeme), ("line", .count t.line)]

/-- A token as a JSON document; a literal carries the value it denotes. -/
def json (t : Token) : Text.Json :=
  t.jsonWith t.literal?

end Token

/-- What stands next in a token list: a token, or the end of the text with its line. -/
inductive Terminal where
  | token (t : Token)
  | eof (line : Nat)
deriving DecidableEq, Repr

namespace Terminal

/-- The line of a terminal. -/
def line : Terminal → Nat
  | .token t => t.line
  | .eof line => line

/-- How a diagnostic points at a terminal. -/
def location : Terminal → String
  | .token t => " at '" ++ t.lexeme ++ "'"
  | .eof _ => " at end"

/-- The line a terminal is listed as. -/
def listing : Terminal → String
  | .token t => t.listing
  | .eof _ => "EOF  null"

/-- A terminal as a JSON document. -/
def json : Terminal → Text.Json
  | .token t => t.json
  | .eof line =>
      .object [("token_type", .string "EOF"), ("lexeme", .string ""), ("line", .count line)]

end Terminal

end Lox
