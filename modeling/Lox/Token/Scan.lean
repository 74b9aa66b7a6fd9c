import Lox.Token.Piece

/-!
# Scans

A scan lists what the pieces of a source yield, in order: tokens and lexical faults, each with
the line its piece ends on, and the line of the end of the text.
-/

namespace Lox

/-- What can be wrong with a piece of source. -/
inductive LexFault where
  | unexpected (c : Char)
  | unterminatedString
  | unterminatedComment
deriving DecidableEq, Repr

/-- The wording of a lexical fault. -/
def LexFault.message : LexFault → String
  | .unexpected c => "Unexpected character: " ++ String.singleton c
  | .unterminatedString => "Unterminated string."
  | .unterminatedComment => "Unterminated block comment."

/-- What a piece of source yields. -/
inductive Scan.Item where
  | token (t : Token)
  | fault (line : Nat) (cause : LexFault)
deriving DecidableEq, Repr

/-- What a piece that ends on the given line yields, if anything. -/
def Piece.item? (p : Piece) (line : Nat) : Option Scan.Item :=
  match p.shape, p.text with
  | .token kind, text => some (.token ⟨kind, String.ofList text, line⟩)
  | .stray, c :: _ => some (.fault line (.unexpected c))
  | .openString, _ => some (.fault line .unterminatedString)
  | .openComment, _ => some (.fault line .unterminatedComment)
  | _, _ => none

/-- The items of a source in order, and the line of its end. -/
structure Scan where
  items : List Scan.Item
  endLine : Nat
deriving DecidableEq, Repr

namespace Scan

/-- What pieces yield when the first of them starts on the given line. -/
def ofPieces (line : Nat) : List Piece → Scan
  | [] => ⟨[], line⟩
  | p :: rest =>
      let line := line + p.lineBreaks
      let tail := ofPieces line rest
      ⟨(p.item? line).toList ++ tail.items, tail.endLine⟩

/-- Scans a text given as characters. -/
def ofChars (cs : List Char) : Scan :=
  ofPieces 1 (Piece.cut cs)

/-- Scans a source text. -/
def ofSource (source : String) : Scan :=
  ofChars source.toList

/-- The tokens of a scan. -/
def tokens (s : Scan) : List Token :=
  s.items.filterMap fun
    | .token t => some t
    | .fault _ _ => none

/-- The faults of a scan with their lines. -/
def faults (s : Scan) : List (Nat × LexFault) :=
  s.items.filterMap fun
    | .token _ => none
    | .fault line cause => some (line, cause)

/-- The tokens of a scan followed by the end of the text. -/
def terminals (s : Scan) : List Terminal :=
  s.tokens.map .token ++ [.eof s.endLine]

/-- The tokens and the end of the text as a JSON document. -/
def json (s : Scan) : Text.Json :=
  .array (s.terminals.map Terminal.json)

end Scan

end Lox
