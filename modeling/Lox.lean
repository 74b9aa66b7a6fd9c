import Lox.Command
import Lox.Decimal.Layout
import Lox.Diagnostic
import Lox.Grammar.Statement
import Lox.Log
import Lox.Machine.Eval
import Lox.Main
import Lox.Proofs.Command.ExitStatus
import Lox.Proofs.Decimal.Doubles
import Lox.Proofs.Decimal.Numerals
import Lox.Proofs.Decimal.Rounding
import Lox.Proofs.Grammar.Language
import Lox.Proofs.Grammar.Recovery
import Lox.Proofs.Grammar.Resumption
import Lox.Proofs.Grammar.RoundTrip
import Lox.Proofs.Loop.SameLoop
import Lox.Proofs.Machine.Agreement
import Lox.Proofs.Machine.Binding
import Lox.Proofs.Machine.Blame
import Lox.Proofs.Machine.CurrentFrame
import Lox.Proofs.Machine.Dispatch
import Lox.Proofs.Machine.Fallbacks
import Lox.Proofs.Machine.Leaks
import Lox.Proofs.Machine.Returns
import Lox.Proofs.Machine.SuperFrames
import Lox.Proofs.Rename.SameRun
import Lox.Proofs.Scope.Numbering
import Lox.Proofs.Scope.Violations
import Lox.Proofs.Session.JsonTexts
import Lox.Proofs.Session.Locations
import Lox.Proofs.Session.PrintedValue
import Lox.Proofs.Session.SingleExpression
import Lox.Proofs.Store.AppendOnly
import Lox.Proofs.Store.FrameTree
import Lox.Proofs.Text.Json
import Lox.Proofs.Text.Utf8
import Lox.Proofs.Token.Boundaries
import Lox.Proofs.Token.Composition
import Lox.Proofs.Token.Placement
import Lox.Proofs.Unlined.Sources
import Lox.Scope.Resolution
import Lox.Session
import Lox.Text.Json
import Lox.Text.Quoted
import Lox.Text.Utf8
import Lox.Token.Cursor
import Lox.Token.Scan
import Lox.Tree.Dump
import Lox.Tree.Outline
