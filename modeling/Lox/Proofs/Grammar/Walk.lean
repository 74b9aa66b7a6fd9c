import Lox.Proofs.Grammar.ReadExpression

/-!
# Walking along a list of terminals

The grammar once more, for a reader who stands at an index into a list of terminals, moves it
forward one by one, and looks at the terminal in front of it or at the one behind it.  The loops and
the nesting are not bounded by what is left to read, but by fuel, which is the same for all of them,
and nothing but the list keeps the index in range: a walk has no answer if it looks where there is no
terminal, or if it runs out of fuel.  One that never ends has no answer with any amount of it.  All
looks are kept, in order.
-/

namespace Lox

/-- A look at the terminal in front of a walker or at the one behind, from where it stands. -/
inductive Look where
  | ahead (position : Nat)
  | back (position : Nat)
deriving DecidableEq, Repr

/-- Where the walker stands who looks. -/
def Look.position : Look → Nat
  | .ahead position => position
  | .back position => position

/-- Where a walker stands, and what happened on the way. -/
structure Walker where
  /-- The index of the terminal in front. -/
  current : Nat
  /-- The number of the next reference. -/
  nextId : Nat
  /-- The faults reported so far, in order. -/
  errors : List SyntaxError
  /-- The looks so far, in order. -/
  looks : List Look

/-- In front of a whole list. -/
def Walker.start : Walker :=
  ⟨0, 0, [], []⟩

/-- Keeps a look. -/
def Walker.look (k : Walker) (x : Look) : Walker :=
  { k with looks := k.looks ++ [x] }

/-- A walk along a list of terminals, which can fail and can be without an answer. -/
abbrev Walk := ReaderT (List Terminal) (ExceptT SyntaxError (StateT Walker Option))

namespace Walk

open Lox.Grammar

variable {α : Type}

/-- Without an answer. -/
def stuck : Walk α := fun _ _ =>
  none

/-- The terminal in front. -/
def peek : Walk Terminal := fun terminals k =>
  match terminals[k.current]? with
  | some t => some (.ok t, k.look (.ahead k.current))
  | none => none

/-- The token behind. -/
def previous : Walk Token := fun terminals k =>
  if k.current = 0 then none
  else
    match terminals[k.current - 1]? with
    | some (.token t) => some (.ok t, k.look (.back k.current))
    | _ => none

/-- One terminal forward. -/
def step : Walk Unit := fun _ k =>
  some (.ok (), { k with current := k.current + 1 })

/-- Adds a fault to those reported. -/
def file (e : SyntaxError) : Walk Unit := fun _ k =>
  some (.ok (), { k with errors := k.errors ++ [e] })

/-- A number that no other reference has. -/
def fresh : Walk Nat := fun _ k =>
  some (.ok k.nextId, { k with nextId := k.nextId + 1 })

/-- Whether the end of the text is in front. -/
def atEnd : Walk Bool := do
  match ← peek with
  | .token _ => return false
  | .eof _ => return true

/-- Moves over the token in front, but not over the end of the text, and gives the token behind. -/
def advance : Walk Token := do
  unless ← atEnd do
    step
  previous

/-- Whether the token in front is of the given kind. -/
def check (kind : Token.Kind) : Walk Bool := do
  if ← atEnd then
    return false
  else
    match ← peek with
    | .token t => return t.kind = kind
    | .eof _ => return false

/-- Moves over a token of the given kind, and tells whether there was one. -/
def accept (kind : Token.Kind) : Walk Bool := do
  if ← check kind then
    let _ ← advance
    return true
  else
    return false

/-- Moves over a token of one of the given kinds, which are tried in turn. -/
def acceptAny : List Token.Kind → Walk Bool
  | [] => return false
  | kind :: rest => do
      if ← accept kind then
        return true
      else
        acceptAny rest

/-- Moves over a token of one of the given kinds, and gives it. -/
def acceptAny? (kinds : List Token.Kind) : Walk (Option Token) := do
  if ← acceptAny kinds then
    return some (← previous)
  else
    return none

/-- Fails with a fault at the terminal in front. -/
def fail (fault : SyntaxFault) : Walk α := do
  let found ← peek
  throw ⟨found, fault⟩

/-- Reports a fault at the terminal in front and goes on. -/
def reportNext (fault : SyntaxFault) : Walk Unit := do
  let found ← peek
  file ⟨found, fault⟩

/-- Moves over a token of the given kind and gives it, or fails. -/
def expect (kind : Token.Kind) (fault : SyntaxFault) : Walk Token := do
  if ← check kind then
    advance
  else
    fail fault

/-- `super "." NAME`, behind the keyword. -/
def superAccess (keyword : Token) : Walk Expr := do
  let _ ← expect (.punct .dot) .superDot
  let method ← expect .identifier .superMethod
  return .super (← fresh) keyword method

/-- Turns the left side of an equals sign into an assignment, if it can be assigned to. -/
def assignTo (target : Expr) (equals : Token) (value : Expr) : Walk Expr :=
  match target with
  | .var id name => return .assign id name value
  | .get object name => return .set object name value
  | other => do
      file ⟨.token equals, .assignmentTarget⟩
      return other

mutual

/-- An expression. -/
def expression : Nat → Walk Expr
  | 0 => stuck
  | fuel + 1 => do
      let target ← operation fuel 1
      match ← acceptAny? [.punct .equal] with
      | none => return target
      | some equals =>
          let value ← expression fuel
          assignTo target equals value

/-- An operand of the given rank, with the operators of that rank behind it. -/
def operation : Nat → Nat → Walk Expr
  | 0, _ => stuck
  | fuel + 1, rank => do
      if rank ≤ 6 then
        let left ← operation fuel (rank + 1)
        joinLeft fuel rank left
      else
        unary fuel

/-- Further operators of the given rank with their right operands. -/
def joinLeft : Nat → Nat → Expr → Walk Expr
  | 0, _, _ => stuck
  | fuel + 1, rank, left => do
      match ← acceptAny? (operatorKinds rank) with
      | none => return left
      | some operator =>
          let right ← operation fuel (rank + 1)
          joinLeft fuel rank (operatorNode rank left operator right)

/-- A call with the signs in front of it. -/
def unary : Nat → Walk Expr
  | 0 => stuck
  | fuel + 1 => do
      match ← acceptAny? signKinds with
      | none => call fuel
      | some sign =>
          let operand ← unary fuel
          return .unary sign operand

/-- A primary expression with its calls and property names. -/
def call : Nat → Walk Expr
  | 0 => stuck
  | fuel + 1 => do
      let e ← primary fuel
      suffixes fuel e

/-- Further calls and property names. -/
def suffixes : Nat → Expr → Walk Expr
  | 0, _ => stuck
  | fuel + 1, e => do
      if ← accept (.punct .leftParen) then
        let called ← finishCall fuel e
        suffixes fuel called
      else if ← accept (.punct .dot) then
        let name ← expect .identifier .propertyName
        suffixes fuel (.get e name)
      else
        return e

/-- `arguments? ")"`, behind the parenthesis that opens a call. -/
def finishCall : Nat → Expr → Walk Expr
  | 0, _ => stuck
  | fuel + 1, callee => do
      let values ← argumentList fuel
      let paren ← expect (.punct .rightParen) .argumentsEnd
      return .call callee paren values

/-- The arguments of a call, if there are any. -/
def argumentList : Nat → Walk (List Expr)
  | 0 => stuck
  | fuel + 1 => do
      if ← check (.punct .rightParen) then
        return []
      else
        arguments fuel 0

/-- Arguments with commas between them, behind a number of others. -/
def arguments : Nat → Nat → Walk (List Expr)
  | 0, _ => stuck
  | fuel + 1, before => do
      if Parser.maxArity ≤ before then
        reportNext .tooManyArguments
      let first ← expression fuel
      if ← accept (.punct .comma) then
        let others ← arguments fuel (before + 1)
        return first :: others
      else
        return [first]

/-- Literals, references and parenthesized expressions. -/
def primary : Nat → Walk Expr
  | 0 => stuck
  | fuel + 1 => do
      match ← acceptAny? primaryKinds with
      | none => fail .expression
      | some t =>
          match t.kind with
          | .identifier => return .var (← fresh) t
          | .keyword .this => return .this (← fresh) t
          | .keyword .super => superAccess t
          | .punct .leftParen => grouped fuel
          | _ => return .literal ((literalOf? t).getD .nil)

/-- `expression ")"`, behind the parenthesis. -/
def grouped : Nat → Walk Expr
  | 0 => stuck
  | fuel + 1 => do
      let inner ← expression fuel
      let _ ← expect (.punct .rightParen) .groupingEnd
      return .grouping inner

end

/-- An expression that no token follows. -/
def loneExpression (fuel : Nat) : Walk Expr := do
  let e ← expression fuel
  if ← atEnd then
    return e
  else
    fail .expressionEnd

/-- An expression, unless a token of the given kind comes next. -/
def optionalExpression (fuel : Nat) (kind : Token.Kind) : Walk (Option Expr) := do
  if ← check kind then
    return none
  else
    return some (← expression fuel)

/-- Whether a body in braces ends here. -/
def bodyEnds : Walk Bool := do
  if ← check (.punct .rightBrace) then
    return true
  else
    atEnd

/-- Parameters with commas between them, behind a number of others. -/
def parameters : Nat → Nat → Walk (List Token)
  | 0, _ => stuck
  | fuel + 1, before => do
      if Parser.maxArity ≤ before then
        reportNext .tooManyParameters
      let first ← expect .identifier .parameterName
      if ← accept (.punct .comma) then
        let others ← parameters fuel (before + 1)
        return first :: others
      else
        return [first]

/-- The parameters of a function, if there are any. -/
def parameterList (fuel : Nat) : Walk (List Token) := do
  if ← check (.punct .rightParen) then
    return []
  else
    parameters fuel 0

/-- `("<" NAME)?`. -/
def superclass : Walk (Option Expr) := do
  if ← accept (.punct .less) then
    let name ← expect .identifier .superclassName
    return some (.var (← fresh) name)
  else
    return none

/-- `NAME ("=" expression)? ";"`, behind the keyword. -/
def variableDeclaration (fuel : Nat) : Walk Stmt := do
  let name ← expect .identifier .variableName
  let initializer ←
    if ← accept (.punct .equal) then
      pure (some (← expression fuel))
    else
      pure none
  let _ ← expect (.punct .semicolon) .variableEnd
  return .var name initializer

/-- `expression ";"`. -/
def expressionStatement (fuel : Nat) : Walk Stmt := do
  let e ← expression fuel
  let _ ← expect (.punct .semicolon) .statementEnd
  return .expression e

/-- A print statement, behind the keyword. -/
def printStatement (fuel : Nat) : Walk Stmt := do
  let e ← expression fuel
  let _ ← expect (.punct .semicolon) .printEnd
  return .print e

/-- A return, behind its keyword. -/
def returnStatement (fuel : Nat) (keyword : Token) : Walk Stmt := do
  let value ← optionalExpression fuel (.punct .semicolon)
  let _ ← expect (.punct .semicolon) .returnEnd
  return .ret keyword value

/-- The first clause of a `for` loop. -/
def forInitializer (fuel : Nat) : Walk (Option Stmt) := do
  if ← accept (.punct .semicolon) then
    return none
  else if ← accept (.keyword .var) then
    return some (← variableDeclaration fuel)
  else
    return some (← expressionStatement fuel)

/-- Moves on to a place where a statement can start: behind a semicolon, or in front of a keyword
that starts one. -/
def moveToStatement : Nat → Walk Unit
  | 0 => stuck
  | fuel + 1 => do
      if ← atEnd then
        return ()
      else if (← previous).kind = .punct .semicolon then
        return ()
      else
        match ← peek with
        | .eof _ => return ()
        | .token t =>
            if startsStatement t.kind then
              return ()
            else
              let _ ← advance
              moveToStatement fuel

/-- Gives what was read; or reports a failure, and moves over the terminal it was noticed at and
over what belongs to it. -/
def recovered (fuel : Nat) (result : Except SyntaxError Stmt) : Walk (Option Stmt) :=
  match result with
  | .ok s => return some s
  | .error e => do
      file e
      let _ ← advance
      moveToStatement fuel
      return none

mutual

/-- A statement. -/
def statement : Nat → Walk Stmt
  | 0 => stuck
  | fuel + 1 => do
      match ← acceptAny? statementKinds with
      | none => expressionStatement fuel
      | some t =>
          match t.kind with
          | .keyword .for_ => forStatement fuel
          | .keyword .if_ => ifStatement fuel
          | .keyword .while_ => whileStatement fuel
          | .keyword .return_ => returnStatement fuel t
          | .punct .leftBrace =>
              let body ← block fuel
              return .block body
          | _ => printStatement fuel

/-- A `for` loop, behind the keyword. -/
def forStatement : Nat → Walk Stmt
  | 0 => stuck
  | fuel + 1 => do
      let _ ← expect (.punct .leftParen) .forStart
      let initializer ← forInitializer fuel
      let condition ← optionalExpression fuel (.punct .semicolon)
      let _ ← expect (.punct .semicolon) .forConditionEnd
      let increment ← optionalExpression fuel (.punct .rightParen)
      let _ ← expect (.punct .rightParen) .forEnd
      let body ← statement fuel
      return forLoop initializer condition increment body

/-- A conditional, behind the keyword. -/
def ifStatement : Nat → Walk Stmt
  | 0 => stuck
  | fuel + 1 => do
      let _ ← expect (.punct .leftParen) .ifStart
      let condition ← expression fuel
      let _ ← expect (.punct .rightParen) .ifEnd
      let thenBranch ← statement fuel
      if ← accept (.keyword .else_) then
        let elseBranch ← statement fuel
        return .ifElse condition thenBranch elseBranch
      else
        return .ifThen condition thenBranch

/-- A `while` loop, behind the keyword. -/
def whileStatement : Nat → Walk Stmt
  | 0 => stuck
  | fuel + 1 => do
      let _ ← expect (.punct .leftParen) .whileStart
      let condition ← expression fuel
      let _ ← expect (.punct .rightParen) .whileEnd
      let body ← statement fuel
      return .loop condition body

/-- `declaration* "}"`, behind the brace that opens a block. -/
def block : Nat → Walk (List Stmt)
  | 0 => stuck
  | fuel + 1 => do
      let body ← declarations fuel
      let _ ← expect (.punct .rightBrace) .blockEnd
      return body.filterMap id

/-- Declarations up to the end of a body. -/
def declarations : Nat → Walk (List (Option Stmt))
  | 0 => stuck
  | fuel + 1 => do
      if ← bodyEnds then
        return []
      else
        let first ← declaration fuel
        let others ← declarations fuel
        return first :: others

/-- `NAME "(" parameters? ")" "{" declaration* "}"`. -/
def function : Nat → FunctionSort → Walk FunctionDecl
  | 0, _ => stuck
  | fuel + 1, sort => do
      let name ← expect .identifier (.functionName sort)
      let _ ← expect (.punct .leftParen) (.parametersStart sort)
      let params ← parameterList fuel
      let _ ← expect (.punct .rightParen) .parametersEnd
      let _ ← expect (.punct .leftBrace) (.functionBodyStart sort)
      let body ← block fuel
      return .mk name params body

/-- Methods up to the end of a class. -/
def methods : Nat → Walk (List FunctionDecl)
  | 0 => stuck
  | fuel + 1 => do
      if ← bodyEnds then
        return []
      else
        let first ← function fuel .method
        let others ← methods fuel
        return first :: others

/-- `NAME ("<" NAME)? "{" function* "}"`, behind the keyword. -/
def classDeclaration : Nat → Walk Stmt
  | 0 => stuck
  | fuel + 1 => do
      let name ← expect .identifier .className
      let parent ← superclass
      let _ ← expect (.punct .leftBrace) .classBodyStart
      let members ← methods fuel
      let _ ← expect (.punct .rightBrace) .classBodyEnd
      return .classDecl name parent members

/-- A declaration or statement that may fail. -/
def attempt : Nat → Walk Stmt
  | 0 => stuck
  | fuel + 1 => do
      if ← accept (.keyword .class_) then
        classDeclaration fuel
      else if ← accept (.keyword .fun_) then
        let decl ← function fuel .function
        return .function decl
      else if ← accept (.keyword .var) then
        variableDeclaration fuel
      else
        statement fuel

/-- A declaration or statement, or nothing where there was a failure. -/
def declaration : Nat → Walk (Option Stmt)
  | 0 => stuck
  | fuel + 1 => fun terminals k => do
      let (result, k) ← attempt fuel terminals k
      recovered fuel result terminals k

end

/-- Declarations up to the end of the text. -/
def program : Nat → Walk (List (Option Stmt))
  | 0 => stuck
  | fuel + 1 => do
      if ← atEnd then
        return []
      else
        let first ← declaration fuel
        let others ← program fuel
        return first :: others

end Walk

end Lox
