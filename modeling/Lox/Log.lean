import Lox.Diagnostic
import Lox.Machine.Fault

/-!
# Logs

A log keeps what runs report and print, in order, over any number of runs.  How things stand is
read off the log: a static error outweighs a runtime error.
-/

namespace Lox

/-- How a run ended. -/
inductive Outcome where
  | success
  | staticError
  | runtimeError
deriving DecidableEq, Repr

namespace Outcome

/-- The name of an outcome. -/
def name : Outcome → String
  | .success => "Success"
  | .staticError => "StaticError"
  | .runtimeError => "RuntimeError"

/-- The exit status that tells an outcome. -/
def exitCode : Outcome → Nat
  | .success => 0
  | .staticError => 65
  | .runtimeError => 70

end Outcome

/-- The diagnostic of a runtime error. -/
def Diagnostic.ofRuntime (e : RuntimeError) : Diagnostic :=
  .runtime e.found.line e.fault.message

/-- What was reported and what was printed, each in order. -/
structure Log where
  diagnostics : List Diagnostic
  lines : List String
deriving DecidableEq, Repr

namespace Log

/-- The log before the first run. -/
def empty : Log :=
  ⟨[], []⟩

/-- Adds diagnostics. -/
def report (log : Log) (diagnostics : List Diagnostic) : Log :=
  { log with diagnostics := log.diagnostics ++ diagnostics }

/-- Adds printed lines. -/
def print (log : Log) (lines : List String) : Log :=
  { log with lines := log.lines ++ lines }

/-- Whether a static error was reported. -/
def hasStaticError (log : Log) : Bool :=
  log.diagnostics.any Diagnostic.isStatic

/-- Whether a runtime error was reported. -/
def hasRuntimeError (log : Log) : Bool :=
  log.diagnostics.any fun d => !d.isStatic

/-- How things stand. -/
def outcome (log : Log) : Outcome :=
  if log.hasStaticError then .staticError
  else if log.hasRuntimeError then .runtimeError
  else .success

/-- The texts of all diagnostics. -/
def messages (log : Log) : List String :=
  log.diagnostics.map Diagnostic.text

end Log

end Lox
