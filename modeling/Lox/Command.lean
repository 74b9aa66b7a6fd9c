import Lox.Session
import Lox.Text.Quoted
import Lox.Text.Utf8
import Lox.Tree.Dump
import Lox.Tree.Outline

/-!
# The command line

A command names what is to be done with a source file: list its tokens, show its tree, evaluate
it as an expression, or run it.  Reading the arguments and carrying the command out are functions
of the arguments and the contents of the file; the outer program only fetches the file and prints.
-/

namespace Lox
namespace Command

/-- What is to be done with a file. -/
inductive Action where
  | tokenize (json : Bool)
  | parse (json : Bool)
  | evaluate
  | run
deriving DecidableEq, Repr

/-- A command: an action, the file it is for, and whether a log file is kept. -/
structure Request where
  action : Action
  file : String
  log : Bool
deriving DecidableEq, Repr

/-- The arguments behind the name of an action, as far as they were read. -/
structure Options where
  file : Option String
  json : Bool
  log : Bool
deriving DecidableEq, Repr

/-- Whether an argument has the form of an option. -/
def isOption (argument : String) : Bool :=
  match argument.toList with
  | '-' :: _ :: _ => true
  | _ => false

/-- Takes an argument as the name of the file; there is one file, and its name is not empty. -/
def takeFile (options : Options) (argument : String) : Option Options :=
  if options.file.isNone ∧ argument ≠ "" then some { options with file := some argument }
  else none

/-- Takes arguments as names, whatever they look like. -/
def takeFiles (options : Options) : List String → Option Options
  | [] => some options
  | argument :: rest =>
      match takeFile options argument with
      | some options => takeFiles options rest
      | none => none

/-- Reads the arguments behind the name of an action.  No option is given twice, and two hyphens
end the options. -/
def readOptions (allowJson : Bool) (options : Options) : List String → Option Options
  | [] => some options
  | argument :: rest =>
      if argument = "--" then takeFiles options rest
      else if argument = "--log" then
        if options.log then none else readOptions allowJson { options with log := true } rest
      else if argument = "--json" then
        if options.json ∨ !allowJson then none
        else readOptions allowJson { options with json := true } rest
      else if isOption argument then none
      else
        match takeFile options argument with
        | some options => readOptions allowJson options rest
        | none => none

/-- Reads the arguments behind the name of an action as a request. -/
def readAction (log allowJson : Bool) (action : Bool → Action) (arguments : List String) :
    Option Request :=
  match readOptions allowJson ⟨none, false, false⟩ arguments with
  | some ⟨some file, json, logToo⟩ => some ⟨action json, file, log || logToo⟩
  | _ => none

/-- Reads arguments, where `log` tells whether a log file was asked for already. -/
def readFrom (log : Bool) : List String → Option Request
  | [] => none
  | argument :: rest =>
      match argument with
      | "--log" => if log then none else readFrom true rest
      | "tokenize" => readAction log true .tokenize rest
      | "parse" => readAction log true .parse rest
      | "evaluate" => readAction log false (fun _ => .evaluate) rest
      | "run" => readAction log false (fun _ => .run) rest
      | _ => none

/-- Reads the arguments of the command line; there is no request if they are misused. -/
def Request.ofArguments (arguments : List String) : Option Request :=
  readFrom false arguments

/-- Why the system refuses a file. -/
inductive Refusal where
  | missing
  | denied
  | notDirectory
  | tooLong
  | directory
deriving DecidableEq, Repr

/-- The system's wording of a refusal, with its number. -/
def Refusal.message : Refusal → String
  | .missing => "No such file or directory (os error 2)"
  | .denied => "Permission denied (os error 13)"
  | .notDirectory => "Not a directory (os error 20)"
  | .tooLong => "File name too long (os error 36)"
  | .directory => "No such device (os error 19)"

/-- What a command writes and how it ends. -/
structure Report where
  exit : Nat
  stdout : String
  stderr : String
deriving DecidableEq, Repr

/-- The exit status for misused arguments. -/
def usageExit : Nat := 2

/-- Texts, a line each. -/
def linesOf (texts : List String) : String :=
  String.join (texts.map (· ++ "\n"))

namespace Report

/-- A command that could not start, with what was tried and why it failed. -/
def failed (attempt cause : String) : Report :=
  ⟨1, "", "Error: " ++ attempt ++ "\n\nCaused by:\n    " ++ cause ++ "\n"⟩

/-- The report of a file that could not be read. -/
def refused (file : String) (refusal : Refusal) : Report :=
  match refusal with
  | .directory => failed ("Failed to map file " ++ Text.quoted file) refusal.message
  | _ => failed ("Failed to open file " ++ Text.quoted file) refusal.message

/-- A command that had nothing to complain of. -/
def done (stdout : String) : Report :=
  ⟨Outcome.success.exitCode, stdout, ""⟩

/-- A command that ends by showing all that was reported, with the status this calls for. -/
def finish (stdout : String) (log : Log) : Report :=
  ⟨log.outcome.exitCode, stdout, linesOf log.messages⟩

end Report

/-- What is written while the items of a scan are listed, and what is reported meanwhile. -/
structure Listing where
  stdout : String
  stderr : String
  log : Log

namespace Listing

/-- A listing of nothing. -/
def empty : Listing :=
  ⟨"", "", .empty⟩

/-- Writes the next item at once: a token as it is listed, a fault as its error reads. -/
def add (listing : Listing) : Scan.Item → Listing
  | .token t => { listing with stdout := listing.stdout ++ (t.listing ++ "\n") }
  | .fault line cause =>
      let error := Diagnostic.ofLexical (line, cause)
      { listing with
        stderr := listing.stderr ++ (error.text ++ "\n")
        log := listing.log.report [error] }

/-- Lists the items of a scan, and then the end of the text. -/
def ofScan (scan : Scan) : Listing :=
  let listing := scan.items.foldl add empty
  { listing with stdout := listing.stdout ++ ((Terminal.eof scan.endLine).listing ++ "\n") }

/-- The report of a listing; its errors are shown already. -/
def report (listing : Listing) : Report :=
  let outcome : Outcome := if listing.log.hasStaticError then .staticError else .success
  ⟨outcome.exitCode, listing.stdout, listing.stderr⟩

end Listing

/-- Carries out an action on a source.  There is no report if the host's fuel is used up. -/
def Action.perform (host : Host) (source : String) : Action → Option Report
  | .tokenize false => some (Listing.ofScan (.ofSource source)).report
  | .tokenize true =>
      let (scan, log) := Session.tokenize source .empty
      let listing := scan.json.pretty ++ "\n"
      some (if log.hasStaticError then .finish listing log else .done listing)
  | .parse json =>
      let (statements, log) := Session.parse source .empty
      if log.hasStaticError then some (.finish "" log)
      else
        some (.done
          (if json then (Text.Json.array (Stmt.dumpAll statements)).pretty ++ "\n"
          else linesOf (Stmt.outlineAll statements)))
  | .evaluate =>
      (Session.evaluate host source .empty).map fun
        | (some value, log) => .done (linesOf (log.lines ++ [value.display #[]]))
        | (none, log) => .finish (linesOf log.lines) log
  | .run =>
      (Session.run host source .empty).map fun (outcome, log) =>
        if outcome = .success then .done (linesOf log.lines) else .finish (linesOf log.lines) log

/-- Carries out a request, given the bytes of its file. -/
def Request.perform (host : Host) (request : Request)
    (contents : Except Refusal (List UInt8)) : Option Report :=
  match contents with
  | .error refusal => some (.refused request.file refusal)
  | .ok bytes =>
      match Text.ofBytes bytes with
      | .error fault =>
          let attempt := "File " ++ Text.quoted request.file ++ " is not valid UTF-8"
          some (.failed attempt fault.message)
      | .ok source => request.action.perform host source

end Command
end Lox
