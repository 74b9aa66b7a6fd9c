import Lox.Grammar.Statement
import Lox.Scope.Resolution
import Lox.Token.Scan

/-!
# Diagnostics

What a user is told about a source.  Lexical, parse and resolve errors are static: they are found
before anything runs.
-/

namespace Lox

/-- A reported error. -/
inductive Diagnostic where
  | lexical (line : Nat) (message : String)
  | parse (found : Terminal) (message : String)
  | resolve (found : Terminal) (message : String)
  | runtime (line : Nat) (message : String)
deriving DecidableEq, Repr

namespace Diagnostic

/-- Whether an error was found before anything ran. -/
def isStatic : Diagnostic → Bool
  | .runtime _ _ => false
  | _ => true

/-- The line an error is reported for. -/
def line : Diagnostic → Nat
  | .lexical line _ => line
  | .parse found _ => found.line
  | .resolve found _ => found.line
  | .runtime line _ => line

/-- What an error says. -/
def message : Diagnostic → String
  | .lexical _ message => message
  | .parse _ message => message
  | .resolve _ message => message
  | .runtime _ message => message

/-- Where an error points to, for those that are tied to a terminal. -/
def location? : Diagnostic → Option String
  | .parse found _ => some found.location
  | .resolve found _ => some found.location
  | _ => none

/-- The text of an error. -/
def text (d : Diagnostic) : String :=
  let line := String.ofList (Decimal.digitsOf d.line)
  if d.isStatic then "[line " ++ line ++ "] Error" ++ d.location?.getD "" ++ ": " ++ d.message
  else d.message ++ "\n[line " ++ line ++ "]"

/-- The diagnostic of a lexical fault. -/
def ofLexical (entry : Nat × LexFault) : Diagnostic :=
  .lexical entry.1 entry.2.message

/-- The diagnostic of a fault in the token list. -/
def ofSyntax (e : SyntaxError) : Diagnostic :=
  .parse e.found e.fault.message

/-- The diagnostic of a violated scope rule. -/
def ofScope (e : ScopeError) : Diagnostic :=
  .resolve (.token e.found) e.fault.message

end Diagnostic

end Lox
