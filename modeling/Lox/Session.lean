import Lox.Log
import Lox.Machine.Eval

/-!
# Sessions

From source text to outcome.  Each phase reports to a log, and a phase that needs a sound program
starts only if no static error was reported, be it by this source or by an earlier one.
Programs need not end: a run is given up when the host's fuel is used up, and then has no outcome.
-/

namespace Lox

/-- What programs run on. -/
structure Host where
  /-- The readings of the clock, in seconds. -/
  clock : Nat → Float
  /-- How deep evaluations may nest and how often a loop may go round. -/
  fuel : Nat

namespace Session

/-- Scans a source, and reports what is wrong with it. -/
def tokenize (source : String) (log : Log) : Scan × Log :=
  let scan := Scan.ofSource source
  (scan, log.report (scan.faults.map Diagnostic.ofLexical))

/-- Reads the tokens of a scan as a program, and reports what is wrong with them. -/
def readProgram (scan : Scan) (log : Log) : List Stmt × Log :=
  let parsed := Grammar.readProgram scan.tokens scan.endLine
  (parsed.result, log.report (parsed.errors.map Diagnostic.ofSyntax))

/-- Reads the tokens of a scan as an expression, and reports what is wrong with them. -/
def readExpression (scan : Scan) (log : Log) : Option Expr × Log :=
  let parsed := Grammar.readExpression scan.tokens scan.endLine
  (parsed.result, log.report (parsed.errors.map Diagnostic.ofSyntax))

/-- Scans and reads a program. -/
def parse (source : String) (log : Log) : List Stmt × Log :=
  let (scan, log) := tokenize source log
  readProgram scan log

/-- Scans and reads an expression. -/
def parseExpression (source : String) (log : Log) : Option Expr × Log :=
  let (scan, log) := tokenize source log
  readExpression scan log

/-- Reports what is wrong with the scopes of a tree. -/
def resolve (resolution : Resolution) (log : Log) : Locals × Log :=
  (resolution.locals, log.report (resolution.errors.map Diagnostic.ofScope))

/-- Runs statements that were resolved, on a new machine. -/
def interpret (host : Host) (locals : Locals) (statements : List Stmt) (log : Log) :
    Option (Outcome × Log) :=
  match Machine.interpret ⟨locals, host.clock⟩ host.fuel statements .start with
  | (.ok (), m) => some (.success, log.print m.output.toList)
  | (.error (.fault e), m) =>
      some (.runtimeError, (log.print m.output.toList).report [.ofRuntime e])
  | (.error .outOfFuel, _) => none

/-- Runs a source as a program. -/
def run (host : Host) (source : String) (log : Log) : Option (Outcome × Log) :=
  let (statements, log) := parse source log
  if log.hasStaticError then some (.staticError, log)
  else
    let (locals, log) := resolve (.ofProgram statements) log
    if log.hasStaticError then some (.staticError, log)
    else interpret host locals statements log

/-- Evaluates an expression that was resolved, on a new machine. -/
def evaluateResolved (host : Host) (locals : Locals) (e : Expr) (log : Log) :
    Option (Option Value × Log) :=
  match eval ⟨locals, host.clock⟩ host.fuel e .start with
  | (.ok value, m) => some (some value, log.print m.output.toList)
  | (.error (.fault error), m) =>
      some (none, (log.print m.output.toList).report [.ofRuntime error])
  | (.error .outOfFuel, _) => none

/-- Evaluates a source as a single expression; there is a value only if nothing is reported. -/
def evaluate (host : Host) (source : String) (log : Log) : Option (Option Value × Log) :=
  match parseExpression source log with
  | (none, log) => some (none, log)
  | (some e, log) =>
      if log.hasStaticError then some (none, log)
      else
        let (locals, log) := resolve (.ofExpression e) log
        if log.hasStaticError then some (none, log)
        else evaluateResolved host locals e log

/-- Scans, reads and resolves a program, whatever is reported. -/
def analyse (source : String) (log : Log) : List Stmt × Locals × Log :=
  let (statements, log) := parse source log
  let (locals, log) := resolve (.ofProgram statements) log
  (statements, locals, log)

/-- What running one statement of a program did. -/
structure Step where
  statement : Stmt
  lines : List String
  error : Option RuntimeError

/-- Runs each statement by itself on the same machine, going on after errors. -/
def stepsFrom (host : Host) (locals : Locals) (m : Machine) :
    List Stmt → Option (List Step)
  | [] => some []
  | s :: rest =>
      match Machine.interpret ⟨locals, host.clock⟩ host.fuel [s] { m with output := #[] } with
      | (.ok (), m) =>
          (stepsFrom host locals m rest).map (⟨s, m.output.toList, none⟩ :: ·)
      | (.error (.fault e), m) =>
          (stepsFrom host locals m rest).map (⟨s, m.output.toList, some e⟩ :: ·)
      | (.error .outOfFuel, _) => none

/-- Runs each statement by itself, starting on a new machine. -/
def steps (host : Host) (locals : Locals) (statements : List Stmt) : Option (List Step) :=
  stepsFrom host locals .start statements

end Session

end Lox
