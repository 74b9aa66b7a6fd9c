import Lox.Proofs.Text.Encoding
import Lox.Token.Cursor

/-!
# Reading a source byte by byte

The cursor once more, for a reader that stands at an index into the bytes of a source.  It looks at
one byte at a time, searches bytes for line breaks, quotes and end marks without regard to where
characters begin, and takes stretches of the source as texts by their first byte and the one behind
their last.  Nothing but the source keeps these indices in range and between characters: a read has no
answer if it goes on where there is no byte, or if it takes a stretch that is none of characters, or if
it runs out of fuel.  All stretches are kept, in order.
-/

namespace Lox

namespace Scan

/-- A stretch of a source: its first byte, and the byte behind its last. -/
structure Stretch where
  first : Nat
  stop : Nat
deriving DecidableEq, Repr

/-- Where a byte reader stands, and what it has taken on the way. -/
structure ByteReader where
  /-- The index of the first byte of the piece that is read. -/
  start : Nat
  /-- The index of the byte in front. -/
  current : Nat
  line : Nat
  /-- The stretches that were taken as texts, in order. -/
  taken : List Stretch
deriving DecidableEq, Repr

namespace ByteReader

/-- In front of a whole source. -/
def initial : ByteReader :=
  ⟨0, 0, 1, []⟩

/-- So many bytes further. -/
def move (k : ByteReader) (count : Nat) : ByteReader :=
  { k with current := k.current + count }

/-- As many lines further down as there are line breaks among the bytes. -/
def count (k : ByteReader) (passed : List UInt8) : ByteReader :=
  { k with line := k.line + passed.countP fun b => Char.ofUInt8 b = '\n' }

/-- Keeps a stretch. -/
def take (k : ByteReader) (s : Stretch) : ByteReader :=
  { k with taken := k.taken ++ [s] }

end ByteReader

/-- An entry, and what it denotes if it is a literal. -/
structure Reading where
  entry : Entry
  value : Option Literal
deriving DecidableEq

/-- What reading a piece leaves to be given out. -/
inductive Found where
  | nothing
  /-- A token of a kind, whose lexeme is still to be taken. -/
  | pending (kind : Token.Kind) (value : Option Literal)
  | fault (line : Nat) (cause : LexFault)
deriving DecidableEq

/-- A read of the bytes of a source, which can be without an answer. -/
abbrev ByteRead := ReaderT String (StateT ByteReader Option)

namespace ByteRead

open Text

variable {α : Type}

/-- Without an answer. -/
def stuck : ByteRead α := fun _ _ =>
  none

/-- Where the reader stands. -/
def here : ByteRead ByteReader := fun _ k =>
  some (k, k)

/-- The number of bytes. -/
def size : ByteRead Nat := fun source k =>
  some ((bytes source).length, k)

/-- The byte in front, which must be there, and one byte forward. -/
def advance : ByteRead UInt8 := fun source k =>
  match (bytes source)[k.current]? with
  | some b => some (b, k.move 1)
  | none => none

/-- The byte in front, or `0` behind the last one. -/
def peek : ByteRead UInt8 := fun source k =>
  some ((bytes source)[k.current]?.getD 0, k)

/-- The byte behind the one in front, or `0`. -/
def peekNext : ByteRead UInt8 := fun source k =>
  some ((bytes source)[k.current + 1]?.getD 0, k)

/-- Whether no byte is in front. -/
def atEnd : ByteRead Bool := fun source k =>
  some (decide ((bytes source).length ≤ k.current), k)

/-- All bytes from the one in front on. -/
def ahead : ByteRead (List UInt8) := fun source k =>
  if k.current ≤ (bytes source).length then some ((bytes source).drop k.current, k) else none

/-- The bytes of a stretch. -/
def raw (s : Stretch) : ByteRead (List UInt8) := fun source k =>
  if s.first ≤ s.stop ∧ s.stop ≤ (bytes source).length then
    some (((bytes source).take s.stop).drop s.first, k)
  else none

/-- The text of a stretch, which must begin and end between characters. -/
def text (s : Stretch) : ByteRead String := fun source k =>
  if s.first ≤ s.stop ∧ String.Pos.Raw.isValid source ⟨s.first⟩ ∧
      String.Pos.Raw.isValid source ⟨s.stop⟩ then
    some (String.Pos.Raw.extract source ⟨s.first⟩ ⟨s.stop⟩, k.take s)
  else none

/-- So many bytes forward. -/
def move (count : Nat) : ByteRead Unit := fun _ k =>
  some ((), k.move count)

/-- Goes to the byte with the given index. -/
def goTo (index : Nat) : ByteRead Unit := fun _ k =>
  some ((), { k with current := index })

/-- Begins a piece at the byte in front. -/
def begin : ByteRead Unit := fun _ k =>
  some ((), { k with start := k.current })

/-- Counts the line breaks among bytes. -/
def count (passed : List UInt8) : ByteRead Unit := fun _ k =>
  some ((), k.count passed)

/-- Moves over the given sign, and tells whether it was in front. -/
def accept (sign : Char) : ByteRead Bool := do
  let ended ← atEnd
  let b ← peek
  if ended = false ∧ Char.ofUInt8 b = sign then
    let _ ← advance
    return true
  else
    return false

/-- Moves over the bytes in front that pass a test. -/
def skipRun (q : Char → Bool) : Nat → ByteRead Unit
  | 0 => stuck
  | fuel + 1 => do
      let b ← peek
      if q (Char.ofUInt8 b) then
        let _ ← advance
        skipRun q fuel
      else
        return ()

/-- Moves in front of the next quote, or behind the last byte. -/
def skipQuoted : Nat → ByteRead Unit
  | 0 => stuck
  | fuel + 1 => do
      let ended ← atEnd
      let b ← peek
      if ended = false ∧ Char.ofUInt8 b ≠ '"' then
        let passed ← advance
        count [passed]
        skipQuoted fuel
      else
        return ()

/-- Moves in front of the next line break, or behind the last byte. -/
def skipLine : ByteRead Found := do
  let rest ← ahead
  match rest.findIdx? fun b => Char.ofUInt8 b = '\n' with
  | some distance =>
      move distance
      return .nothing
  | none =>
      goTo (← size)
      return .nothing

/-- The index of the first end mark of a block comment. -/
def findMark : List UInt8 → Option Nat
  | [] => none
  | b :: rest =>
      if Char.ofUInt8 b = '*' ∧ rest.head?.map Char.ofUInt8 = some '/' then some 0
      else (findMark rest).map (· + 1)

/-- Moves behind the next end mark, or behind the last byte. -/
def skipComment : ByteRead Found := do
  let rest ← ahead
  match findMark rest with
  | some distance =>
      count (rest.take distance)
      move (distance + 2)
      return .nothing
  | none =>
      count rest
      goTo (← size)
      return .fault (← here).line .unterminatedComment

/-- What a quote opens. -/
def readString (fuel : Nat) : ByteRead Found := do
  skipQuoted fuel
  if ← atEnd then
    return .fault (← here).line .unterminatedString
  else
    let _ ← advance
    let k ← here
    let content ← text ⟨k.start + 1, k.current - 1⟩
    return .pending .string (some (.string content))

/-- Moves over a point with digits behind it. -/
def skipFraction (fuel : Nat) : ByteRead Unit := do
  let point ← peek
  let digit ← peekNext
  if Char.ofUInt8 point = '.' ∧ (Char.ofUInt8 digit).isDigit then
    let _ ← advance
    skipRun Char.isDigit fuel
  else
    return ()

/-- Moves over digits, and over a point with digits behind it. -/
def skipNumber (fuel : Nat) : ByteRead Unit := do
  skipRun Char.isDigit fuel
  skipFraction fuel

/-- What a digit opens. -/
def readNumber (fuel : Nat) : ByteRead Found := do
  skipNumber fuel
  let k ← here
  let numeral ← text ⟨k.start, k.current⟩
  return .pending .number (some (.number (Token.numberValue numeral)))

/-- The kind of a word that is given by its bytes. -/
def wordKind (word : List UInt8) : Token.Kind :=
  match Keyword.all.find? fun k => bytes k.spelling = word with
  | some k => .keyword k
  | none => .identifier

/-- What a letter opens. -/
def readWord (fuel : Nat) : ByteRead Found := do
  skipRun Piece.isWordChar fuel
  let k ← here
  let word ← raw ⟨k.start, k.current⟩
  return .pending (wordKind word) none

/-- What a slash opens. -/
def readSlash : ByteRead Found := do
  if ← accept '/' then
    skipLine
  else if ← accept '*' then
    skipComment
  else
    return .pending (.punct .slash) none

/-- Moves over the character that begins where the piece does. -/
def skipStray : ByteRead Found := do
  let k ← here
  let rest ← text ⟨k.start, ← size⟩
  let c := rest.toList.head?.getD (Char.ofNat 0xFFFD)
  goTo (k.start + c.utf8Size)
  return .fault k.line (.unexpected c)

/-- What a sign opens that is neither blank nor quote nor part of a word or a number. -/
def readSign (c : Char) : ByteRead Found :=
  match Piece.twoSigns? c, Piece.oneSign? c with
  | some long, some short => do
      if ← accept '=' then
        return .pending (.punct long) none
      else
        return .pending (.punct short) none
  | none, some mark => return .pending (.punct mark) none
  | _, none => skipStray

/-- Reads the rest of a piece behind its first byte. -/
def readBehind (fuel : Nat) (b : UInt8) : ByteRead Found :=
  let c := Char.ofUInt8 b
  if Piece.isBlank c then do
    count [b]
    return .nothing
  else if c = '"' then
    readString fuel
  else if c.isDigit then
    readNumber fuel
  else if Piece.isWordStart c then
    readWord fuel
  else if c = '/' then
    readSlash
  else
    readSign c

/-- Reads one piece. -/
def readPiece (fuel : Nat) : ByteRead Found := do
  let b ← advance
  readBehind fuel b

/-- Gives out what a piece left, or goes on if it left nothing. -/
def giveOut (onward : ByteRead (Option Reading)) : Found → ByteRead (Option Reading)
  | .nothing => onward
  | .pending kind value => do
      let k ← here
      let lexeme ← text ⟨k.start, k.current⟩
      return some ⟨.item (.token ⟨kind, lexeme, k.line⟩), value⟩
  | .fault line cause => return some ⟨.item (.fault line cause), none⟩

/-- What the next call gives out: what the next piece leaves that leaves something, or the end of the
text, which is given out once. -/
def next : Nat → ByteRead (Option Reading)
  | 0 => stuck
  | fuel + 1 => do
      let k ← here
      let length ← size
      if length < k.current then
        return none
      else if k.current = length then
        move 1
        return some ⟨.eof k.line, none⟩
      else
        begin
        let found ← readPiece (fuel + 1)
        giveOut (next fuel) found

/-- Where the reader stands after the given number of calls. -/
def afterCalls (fuel : Nat) (source : String) : Nat → Option ByteReader
  | 0 => some .initial
  | n + 1 => do
      let k ← afterCalls fuel source n
      let (_, behind) ← next fuel source k
      return behind

end ByteRead

end Scan

end Lox
