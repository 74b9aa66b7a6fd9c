import Lox.Tree.Stmt

/-!
# Parsers

A parser reads tokens from the front of a list.  It can report faults and go on, or fail with
one; in either case the tokens read, the numbers given out and the faults reported so far stay as
they are.  What a failure does to the rest of the list is decided by whoever catches it.
-/

namespace Lox

/-- Functions are declared by `fun`; methods stand in class bodies. -/
inductive FunctionSort where
  | function
  | method
deriving DecidableEq, Repr

/-- The word for a sort of function. -/
def FunctionSort.word : FunctionSort → String
  | .function => "function"
  | .method => "method"

/-- What a token list can lack or have too much of. -/
inductive SyntaxFault where
  | expression
  | expressionEnd
  | assignmentTarget
  | tooManyParameters
  | tooManyArguments
  | className
  | superclassName
  | classBodyStart
  | classBodyEnd
  | functionName (sort : FunctionSort)
  | parametersStart (sort : FunctionSort)
  | parameterName
  | parametersEnd
  | functionBodyStart (sort : FunctionSort)
  | blockEnd
  | variableName
  | variableEnd
  | forStart
  | forConditionEnd
  | forEnd
  | ifStart
  | ifEnd
  | whileStart
  | whileEnd
  | returnEnd
  | printEnd
  | statementEnd
  | propertyName
  | argumentsEnd
  | superDot
  | superMethod
  | groupingEnd
deriving DecidableEq, Repr

/-- The wording of a fault. -/
def SyntaxFault.message : SyntaxFault → String
  | .expression => "Expected expression."
  | .expressionEnd => "Expected end of expression."
  | .assignmentTarget => "Invalid assignment target."
  | .tooManyParameters => "Can't have more than 255 parameters."
  | .tooManyArguments => "Can't have more than 255 arguments."
  | .className => "Expected class name."
  | .superclassName => "Expected superclass name."
  | .classBodyStart => "Expected '\x7b' before class body."
  | .classBodyEnd => "Expected '\x7d' after class body."
  | .functionName sort => "Expected " ++ sort.word ++ " name."
  | .parametersStart sort => "Expected '(' after " ++ sort.word ++ " name."
  | .parameterName => "Expected parameter name."
  | .parametersEnd => "Expected ')' after parameters."
  | .functionBodyStart sort => "Expected '\x7b' before " ++ sort.word ++ " body."
  | .blockEnd => "Expected '\x7d' after block."
  | .variableName => "Expected variable name."
  | .variableEnd => "Expected ';' after variable declaration."
  | .forStart => "Expected '(' after 'for'."
  | .forConditionEnd => "Expected ';' after loop condition."
  | .forEnd => "Expected ')' after for clauses."
  | .ifStart => "Expected '(' after 'if'."
  | .ifEnd => "Expected ')' after if condition."
  | .whileStart => "Expected '(' after 'while'."
  | .whileEnd => "Expected ')' after condition."
  | .returnEnd => "Expected ';' after return value."
  | .printEnd => "Expected ';' after value."
  | .statementEnd => "Expected ';' after expression."
  | .propertyName => "Expected property name after '.'."
  | .argumentsEnd => "Expected ')' after arguments."
  | .superDot => "Expected '.' after 'super'."
  | .superMethod => "Expected superclass method name."
  | .groupingEnd => "Expected ')' after expression."

/-- A fault and the terminal it was noticed at. -/
structure SyntaxError where
  found : Terminal
  fault : SyntaxFault
deriving DecidableEq, Repr

/-- Where a parser stands. -/
structure Parser.State where
  /-- The tokens not yet read. -/
  rest : List Token
  /-- The line of the end of the text. -/
  endLine : Nat
  /-- The number of the next reference. -/
  nextId : Nat
  /-- The faults reported so far, in order. -/
  errors : List SyntaxError
deriving DecidableEq, Repr

/-- A parser for an `α`. -/
def Parser (α : Type) : Type :=
  Parser.State → Except SyntaxError α × Parser.State

namespace Parser

/-- The terminal that a parser finds next. -/
def State.next (s : State) : Terminal :=
  match s.rest with
  | [] => .eof s.endLine
  | t :: _ => .token t

/-- Adds a fault to those reported. -/
def State.report (s : State) (e : SyntaxError) : State :=
  { s with errors := s.errors ++ [e] }

@[always_inline]
instance : Monad Parser where
  pure a := fun s => (.ok a, s)
  bind p f := fun s =>
    match p s with
    | (.ok a, s) => f a s
    | (.error e, s) => (.error e, s)

@[simp] theorem pure_apply {α : Type} (a : α) (s : State) :
    (pure a : Parser α) s = (.ok a, s) := by
  rfl

/-- The second parser goes on where the first one succeeded. -/
theorem bind_apply {α β : Type} (p : Parser α) (f : α → Parser β) (s : State) :
    (p >>= f) s =
      match p s with
      | (.ok a, s) => f a s
      | (.error e, s) => (.error e, s) := by
  rfl

/-- Fails with a fault at the next terminal. -/
def fail {α : Type} (fault : SyntaxFault) : Parser α := fun s =>
  (.error ⟨s.next, fault⟩, s)

/-- Reports a fault and goes on. -/
def report (found : Terminal) (fault : SyntaxFault) : Parser Unit := fun s =>
  (.ok (), s.report ⟨found, fault⟩)

/-- Reports a fault at the next terminal and goes on. -/
def reportNext (fault : SyntaxFault) : Parser Unit := fun s =>
  (.ok (), s.report ⟨s.next, fault⟩)

/-- Whether no token is left. -/
def atEnd : Parser Bool := fun s =>
  (.ok s.rest.isEmpty, s)

/-- How many tokens are left. -/
def remaining : Parser Nat := fun s =>
  (.ok s.rest.length, s)

/-- A number that no other reference has. -/
def fresh : Parser Nat := fun s =>
  (.ok s.nextId, { s with nextId := s.nextId + 1 })

/-- Whether the next token is of the given kind. -/
def check (kind : Token.Kind) : Parser Bool := fun s =>
  match s.rest with
  | [] => (.ok false, s)
  | t :: _ => (.ok (t.kind = kind), s)

/-- Reads the next token if its kind is among the given ones. -/
def acceptAny? (kinds : List Token.Kind) : Parser (Option Token) := fun s =>
  match s.rest with
  | [] => (.ok none, s)
  | t :: rest => if t.kind ∈ kinds then (.ok (some t), { s with rest }) else (.ok none, s)

/-- Reads the next token if it is of the given kind. -/
def accept? (kind : Token.Kind) : Parser (Option Token) :=
  acceptAny? [kind]

/-- Reads the next token if it is of the given kind, and tells whether it was. -/
def accept (kind : Token.Kind) : Parser Bool := do
  return (← accept? kind).isSome

/-- Reads a token of the given kind, or fails. -/
def expect (kind : Token.Kind) (fault : SyntaxFault) : Parser Token := do
  match ← accept? kind with
  | some t => return t
  | none => fail fault

/-- Reads items until `done` holds, at most `count` of them. -/
def manyUntil {α : Type} (done : Parser Bool) (item : Parser α) : Nat → Parser (List α)
  | 0 => pure []
  | count + 1 => do
      if ← done then
        return []
      else
        let first ← item
        return first :: (← manyUntil done item count)

/-- The most parameters or arguments a list of them may have. -/
def maxArity : Nat := 255

/-- Reads items with commas between them, at most `count` of them, after `before` others.  Each
item beyond the allowed number is reported. -/
def commaSeparated {α : Type} (item : Parser α) (excess : SyntaxFault) :
    Nat → Nat → Parser (List α)
  | 0, _ => pure []
  | count + 1, before => do
      if maxArity ≤ before then
        reportNext excess
      let first ← item
      if ← accept (.punct .comma) then
        return first :: (← commaSeparated item excess count (before + 1))
      else
        return [first]

/-- Reads a list of items, possibly empty, that a closing parenthesis follows. -/
def parenthesized {α : Type} (item : Parser α) (excess : SyntaxFault) : Parser (List α) := do
  if ← check (.punct .rightParen) then
    return []
  else
    commaSeparated item excess ((← remaining) + 1) 0

end Parser

/-- What reading a whole token list gives: a result, the faults, and how many references were
numbered. -/
structure Parse (α : Type) where
  result : α
  errors : List SyntaxError
  idCount : Nat

end Lox
