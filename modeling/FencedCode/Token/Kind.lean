import FencedCode.Text.Basic

/-!
# Kinds of tokens

The lexical categories, their names, their numbering, and the reserved words. The five type
words share one constructor, so that "is a type word" is a pattern.
-/

namespace FencedCode

/-- The types a program can declare. -/
inductive BaseType where
  | string
  | char
  | int
  | float
  | bool
  deriving DecidableEq, Repr, Inhabited

/-- The word for a type. -/
def BaseType.name : BaseType → String
  | string => "STRING"
  | char => "CHAR"
  | int => "INT"
  | float => "FLOAT"
  | bool => "BOOL"

/-- A lexical category. -/
inductive Kind where
  | eof
  | identifier
  | stringLit
  | charLit
  | intLit
  | floatLit
  | trueLit
  | falseLit
  | nullLit
  | newline
  | kwBegin
  | kwEnd
  | kwCode
  | kwDisplay
  | kwScan
  | type (t : BaseType)
  | kwIf
  | kwElse
  | kwWhile
  | kwAnd
  | kwOr
  | kwNot
  | kwFn
  | kwImmut
  | kwReturn
  | leftParen
  | rightParen
  | comma
  | colon
  | semicolon
  | plus
  | minus
  | star
  | slash
  | percent
  | ampersand
  | assign
  | equalEqual
  | notEqual
  | greater
  | greaterEqual
  | less
  | lessEqual
  /-- No category of the language; only a host can make such a token. -/
  | unknown
  deriving DecidableEq, Repr, Inhabited

namespace Kind

/-- The name of a category, as messages and listings show it. -/
def name : Kind → String
  | eof => "EOF"
  | identifier => "identifier"
  | stringLit => "string literal"
  | charLit => "character literal"
  | intLit => "integer literal"
  | floatLit => "float literal"
  | trueLit => "TRUE"
  | falseLit => "FALSE"
  | nullLit => "null"
  | newline => "$"
  | kwBegin => "BEGIN"
  | kwEnd => "END"
  | kwCode => "CODE"
  | kwDisplay => "DISPLAY"
  | kwScan => "SCAN"
  | type t => t.name
  | kwIf => "IF"
  | kwElse => "ELSE"
  | kwWhile => "WHILE"
  | kwAnd => "AND"
  | kwOr => "OR"
  | kwNot => "NOT"
  | kwFn => "FN"
  | kwImmut => "IMMUT"
  | kwReturn => "RETURN"
  | leftParen => "("
  | rightParen => ")"
  | comma => ","
  | colon => ":"
  | semicolon => ";"
  | plus => "+"
  | minus => "-"
  | star => "*"
  | slash => "/"
  | percent => "%"
  | ampersand => "&"
  | assign => "="
  | equalEqual => "=="
  | notEqual => "<>"
  | greater => ">"
  | greaterEqual => ">="
  | less => "<"
  | lessEqual => "<="
  | unknown => "unknown"

/-- The name as a text. -/
def label (k : Kind) : Text :=
  utf8 k.name

/-- The categories in the order of their numbers. -/
def numbered : List Kind :=
  [eof, identifier, stringLit, charLit, intLit, floatLit, trueLit, falseLit, nullLit, newline,
   kwBegin, kwEnd, kwCode, kwDisplay, kwScan, type .string, type .char, type .int, type .float,
   type .bool, kwIf, kwElse, kwWhile, kwAnd, kwOr, kwNot, kwFn, kwImmut, kwReturn, leftParen,
   rightParen, comma, colon, semicolon, plus, minus, star, slash, percent, ampersand, assign,
   equalEqual, notEqual, greater, greaterEqual, less, lessEqual]

/-- The category with the given number. -/
def ofNumber : Int → Kind
  | .ofNat n => numbered.getD n unknown
  | .negSucc _ => unknown

/-- The type that a type word names. -/
def type? : Kind → Option BaseType
  | type t => some t
  | _ => none

/-- The reserved words. -/
def words : List Kind :=
  [kwBegin, kwEnd, kwCode, kwDisplay, kwScan, type .string, type .char, type .int, type .float,
   type .bool, kwIf, kwElse, kwWhile, kwAnd, kwOr, kwNot, kwFn, kwImmut, kwReturn, nullLit]

/-- The category of a word: reserved, or else an identifier. -/
def ofWord (w : Text) : Kind :=
  (words.find? fun k => k.label == w).getD identifier

end Kind

end FencedCode
