import FencedCode.Token.Basic

/-!
# Diagnostics

What is wrong with a source text and where. Lexical and syntactic complaints are causes with one
wording each; a diagnostic adds the place, and whether the only thing wrong is that the text ended
too early.
-/

namespace FencedCode

/-! ## 1. Causes -/

/-- Why a piece of text is no token. -/
inductive LexicalError where
  | unexpected (c : Char)
  | unexpectedBracket
  | unterminatedChar
  | unterminatedString
  | wordAfterNumber
  | floatOutOfRange (text : Text)
  | intOutOfRange (text : Text)

/-- The wording of a lexical complaint. -/
def LexicalError.message : LexicalError → Text
  | unexpected c => utf8 "Unexpected character " ++ Text.quotedChar c ++ utf8 "."
  | unexpectedBracket => utf8 "Unexpected character '['."
  | unterminatedChar => utf8 "Unterminated character literal."
  | unterminatedString => utf8 "Unterminated string."
  | wordAfterNumber => utf8 "Unexpected character found after a number."
  | floatOutOfRange t => utf8 "Invalid float literal " ++ t ++ utf8 "."
  | intOutOfRange t => utf8 "Integer literal " ++ t ++ utf8 " is out of range."

/-- What the grammar wanted at a token. -/
inductive SyntaxError where
  | beginOfProgram
  | codeAfterBegin
  | endOfProgram
  | codeAfterEnd
  | nothingAfterProgram
  | typeAfterImmut
  | variableName
  | functionName
  | parenAfterFunctionName
  | tooManyParameters
  | parameterType
  | parameterName
  | parenAfterParameters
  | beginBeforeFunctionBody
  | fnAfterBegin
  | endAfterFunctionBody
  | fnAfterEnd
  | declarationTooLate
  | functionTooLate
  | colonAfterDisplay
  | colonAfterScan
  | identifierAfterScan
  | parenAfter (keyword : String)
  | parenAfterCondition
  | beginAfterCondition
  | fenceAfterBegin (fence : Kind)
  | endAfterStatements
  | fenceAfterEnd (fence : Kind)
  | endAfterBlock
  | assignmentTarget
  | tooManyArguments
  | parenAfterArguments
  | parenAfterExpression
  | expression
  /-- The nesting exceeds what the parser was given room for. -/
  | nesting

/-- The wording of a syntactic complaint. -/
def SyntaxError.message : SyntaxError → String
  | beginOfProgram => "Expecting BEGIN."
  | codeAfterBegin => "Expecting 'CODE' after BEGIN."
  | endOfProgram => "Expecting END."
  | codeAfterEnd => "Expecting 'CODE' after END."
  | nothingAfterProgram => "Unexpected input after END CODE."
  | typeAfterImmut => "Expecting a variable type after 'IMMUT' keyword."
  | variableName => "Expect variable name."
  | functionName => "Expect function name."
  | parenAfterFunctionName => "Expect '(' after function name."
  | tooManyParameters => "Can't have more than 255 parameters."
  | parameterType => "Expect parameter type."
  | parameterName => "Expect parameter name."
  | parenAfterParameters => "Expect ')' after parameters."
  | beginBeforeFunctionBody => "Expect 'BEGIN' before function body."
  | fnAfterBegin => "Expect 'FN' after BEGIN."
  | endAfterFunctionBody => "Expect 'END' after function body."
  | fnAfterEnd => "Expect 'FN' after END."
  | declarationTooLate => "Declarations must come before statements."
  | functionTooLate => "Functions must be declared before statements."
  | colonAfterDisplay => "Expecting ':' after DISPLAY."
  | colonAfterScan => "Expecting ':' after SCAN."
  | identifierAfterScan => "Expecting identifier after 'SCAN'."
  | parenAfter keyword => "Expecting '(' after " ++ keyword ++ "."
  | parenAfterCondition => "Expecting ')' after condition."
  | beginAfterCondition => "Expecting BEGIN after condition."
  | fenceAfterBegin fence => "Expecting " ++ fence.name ++ " after BEGIN."
  | endAfterStatements => "Expecting END after statements."
  | fenceAfterEnd fence => "Expecting " ++ fence.name ++ " after END."
  | endAfterBlock => "Expect 'END' after block."
  | assignmentTarget => "Invalid assignment target."
  | tooManyArguments => "Can't have more than 255 arguments."
  | parenAfterArguments => "Expecting ')' after arguments."
  | parenAfterExpression => "Expect ')' after expression."
  | expression => "Expect expression."
  | nesting => "Nesting is too deep."

/-! ## 2. Diagnostics -/

/-- A complaint about a place in a source text. -/
structure Diagnostic where
  /-- The line complained about. -/
  line : Int
  /-- The column. -/
  column : Int
  /-- The complaint; a host may leave it out. -/
  message : Option Text
  /-- Did the text end before a construct was closed? -/
  incomplete : Bool

namespace Diagnostic

/-- A lexical complaint. -/
def lexical (p : Position) (e : LexicalError) : Diagnostic :=
  ⟨p.line, p.column, some e.message, false⟩

/-- A syntactic complaint about a token. At the end of the text it only means that the text is
    incomplete. -/
def atToken (t : Token) (e : SyntaxError) : Diagnostic :=
  let place := if t.kind = .eof then utf8 "at end" else utf8 "at '" ++ t.lexeme ++ utf8 "'"
  ⟨t.pos.line, t.pos.column, some (place ++ utf8 ": " ++ utf8 e.message), t.kind = .eof⟩

/-- The complaint without its place. -/
def shortText (d : Diagnostic) : Text :=
  d.message.getD []

/-- The complaint with its line. -/
def text (d : Diagnostic) : Text :=
  match d.message with
  | some m => utf8 "line " ++ Text.ofInt d.line ++ utf8 ": " ++ m
  | none => []

/-- The first complaint of a list and the number of the others. -/
def summary : List Diagnostic → Text
  | [] => utf8 "no errors"
  | [d] => d.text
  | d :: ds => d.text ++ utf8 " (and " ++ Text.ofNat ds.length ++ utf8 " more errors)"

/-- Do the complaints only say that the text ended too early? -/
def allIncomplete (ds : List Diagnostic) : Bool :=
  !ds.isEmpty && ds.all (·.incomplete)

end Diagnostic

end FencedCode
