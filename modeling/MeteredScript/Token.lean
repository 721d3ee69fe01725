import MeteredScript.Decimal.Text
import MeteredScript.Operator
import MeteredScript.Span

namespace MeteredScript

/-! # Tokens

The words of a program: keywords, punctuation, operators, names and literals. Comments and white
space are no tokens.
-/

/-- Reserved words. -/
inductive Keyword where
  | functionWord | varWord | letWord | constWord
  | ifWord | elseWord | forWord | whileWord
  | breakWord | continueWord | returnWord
  | typeofWord | voidWord
  | trueWord | falseWord | nullWord | undefinedWord
deriving DecidableEq, Repr, Inhabited

/-- Brackets and separators. -/
inductive Punctuation where
  | openParen | closeParen
  | openBrace | closeBrace
  | openBracket | closeBracket
  | comma | semicolon | point | colon
deriving DecidableEq, Repr, Inhabited

/-- Operator signs. `+` and `-` are the binary ones, wherever they stand. -/
inductive Sign where
  | question
  | assign (op : AssignOp)
  | binary (op : BinaryOp)
  | logical (op : LogicalOp)
  | update (op : UpdateOp)
  | bitNot
  | not
deriving DecidableEq, Repr, Inhabited

/-- One word of a program. String and regex contents are kept as written, escapes included. -/
inductive Token where
  | keyword (word : Keyword)
  | punctuation (mark : Punctuation)
  | sign (sign : Sign)
  | ident (name : String)
  | number (value : Decimal)
  | bigInt (value : Decimal)
  | string (body : String)
  | regex (body flags : String)
  /-- A comment that a token list holds; source texts are read without them. -/
  | comment
deriving DecidableEq, Repr, Inhabited

/-- A token with the range it was read from and the line, counted from one, on which it starts. -/
structure Lexeme where
  token : Token
  span : Span
  line : Nat
deriving DecidableEq, Repr, Inhabited

namespace Keyword

def text : Keyword → String
  | functionWord => "function"
  | varWord => "var"
  | letWord => "let"
  | constWord => "const"
  | ifWord => "if"
  | elseWord => "else"
  | forWord => "for"
  | whileWord => "while"
  | breakWord => "break"
  | continueWord => "continue"
  | returnWord => "return"
  | typeofWord => "typeof"
  | voidWord => "void"
  | trueWord => "true"
  | falseWord => "false"
  | nullWord => "null"
  | undefinedWord => "undefined"

def all : List Keyword :=
  [functionWord, varWord, letWord, constWord, ifWord, elseWord, forWord, whileWord, breakWord,
   continueWord, returnWord, typeofWord, voidWord, trueWord, falseWord, nullWord, undefinedWord]

def ofText? (word : String) : Option Keyword := all.find? fun k => k.text == word

end Keyword

namespace Punctuation

def text : Punctuation → String
  | openParen => "("
  | closeParen => ")"
  | openBrace => "\x7b"
  | closeBrace => "\x7d"
  | openBracket => "["
  | closeBracket => "]"
  | comma => ","
  | semicolon => ";"
  | point => "."
  | colon => ":"

def all : List Punctuation :=
  [openParen, closeParen, openBrace, closeBrace, openBracket, closeBracket, comma, semicolon, point,
   colon]

end Punctuation

namespace Sign

def text : Sign → String
  | question => "?"
  | assign op => op.text
  | binary op => op.text
  | logical op => op.text
  | update op => op.text
  | bitNot => "~"
  | not => "!"

def all : List Sign :=
  [question, assign .plain] ++ ArithOp.all.map (fun op => assign (.compound op)) ++
    ArithOp.all.map (fun op => binary (.arith op)) ++
    Comparison.all.map (fun op => binary (.compare op)) ++
    [logical .and, logical .or, update .increment, update .decrement, bitNot, not]

end Sign

namespace Token

/-- The kinds of token that tools tell apart. -/
inductive Category where
  | keyword | punctuation | operator | identifier | number | bigInt | string | regex
deriving DecidableEq, Repr, Inhabited

def Category.name : Category → String
  | keyword => "keyword"
  | punctuation => "punctuation"
  | operator => "operator"
  | identifier => "identifier"
  | number => "number"
  | bigInt => "bigInt"
  | string => "string"
  | regex => "regex"

def category : Token → Category
  | .keyword _ => .keyword
  | .punctuation _ => .punctuation
  | .sign _ => .operator
  | .ident _ => .identifier
  | .number _ => .number
  | .bigInt _ => .bigInt
  | .string _ => .string
  | .regex _ _ => .regex
  | .comment => .operator

/-- How a token is shown: numbers in canonical form, strings in single quotes, everything else as
it is spelled. -/
def text : Token → String
  | .keyword word => word.text
  | .punctuation mark => mark.text
  | .sign mark => mark.text
  | .ident name => name
  | .number value => value.text
  | .bigInt value => value.text
  | .string body => "'" ++ body ++ "'"
  | .regex body flags => "/" ++ body ++ "/" ++ flags
  | .comment => "comment"

/-- Whether a regex literal may stand directly behind the token: after a token that ends a value, a
slash divides. -/
def allowsRegexAfter : Token → Bool
  | .punctuation mark =>
    match mark with
    | .closeParen | .closeBracket | .closeBrace => false
    | _ => true
  | .keyword word =>
    match word with
    | .trueWord | .falseWord | .nullWord | .undefinedWord => false
    | _ => true
  | .sign (.update _) => false
  | .sign _ | .comment => true
  | _ => false

end Token

end MeteredScript
