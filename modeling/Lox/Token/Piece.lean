import Lox.Token.Basic

/-!
# Pieces of source

A source text is cut into consecutive non-empty pieces: blanks, comments, tokens, stray
characters, and an unterminated string or comment at the end.  Each piece is the longest one
that starts where it does.
-/

namespace Lox

/-- What a piece of source is. -/
inductive Piece.Shape where
  | blank
  | lineComment
  | blockComment
  | token (kind : Token.Kind)
  /-- A character that starts no token. -/
  | stray
  /-- A string without closing quote, up to the end of the text. -/
  | openString
  /-- A block comment without end mark, up to the end of the text. -/
  | openComment
deriving DecidableEq, Repr

/-- A stretch of source and what it is. -/
structure Piece where
  shape : Piece.Shape
  text : List Char
deriving DecidableEq, Repr

namespace Piece

/-- Characters that separate tokens. -/
def isBlank (c : Char) : Bool :=
  c = ' ' || c = '\t' || c = '\r' || c = '\n'

/-- Characters that can start a name. -/
def isWordStart (c : Char) : Bool :=
  c.isAlpha || c = '_'

/-- Characters that can go on in a name. -/
def isWordChar (c : Char) : Bool :=
  c.isAlphanum || c = '_'

/-- The kind of a word: a keyword if it is spelled like one. -/
def wordKind (word : List Char) : Token.Kind :=
  match Keyword.ofSpelling? (String.ofList word) with
  | some k => .keyword k
  | none => .identifier

/-- The mark that a single sign makes. -/
def oneSign? (c : Char) : Option Punct :=
  match c with
  | '(' => some .leftParen
  | ')' => some .rightParen
  | '\x7b' => some .leftBrace
  | '\x7d' => some .rightBrace
  | ',' => some .comma
  | '.' => some .dot
  | '-' => some .minus
  | '+' => some .plus
  | ';' => some .semicolon
  | '/' => some .slash
  | '*' => some .star
  | '!' => some .bang
  | '=' => some .equal
  | '>' => some .greater
  | '<' => some .less
  | _ => none

/-- The mark that a sign makes together with an equals sign after it. -/
def twoSigns? (c : Char) : Option Punct :=
  match c with
  | '!' => some .bangEqual
  | '=' => some .equalEqual
  | '>' => some .greaterEqual
  | '<' => some .lessEqual
  | _ => none

/-- Splits behind the first end mark of a block comment. -/
def splitComment? : List Char → Option (List Char × List Char)
  | '*' :: '/' :: rest => some (['*', '/'], rest)
  | c :: rest => (splitComment? rest).map fun (body, after) => (c :: body, after)
  | [] => none

/-- Splits behind the longest number at the front: digits, and a point with digits after it. -/
def splitNumber (cs : List Char) : List Char × List Char :=
  let whole := cs.takeWhile Char.isDigit
  match cs.dropWhile Char.isDigit with
  | '.' :: d :: rest =>
      if d.isDigit then
        (whole ++ '.' :: (d :: rest).takeWhile Char.isDigit, (d :: rest).dropWhile Char.isDigit)
      else (whole, '.' :: d :: rest)
  | rest => (whole, rest)

/-- The piece that a quote opens, and what follows it. -/
def leadString (cs : List Char) : Piece × List Char :=
  match cs.dropWhile (· ≠ '"') with
  | [] => (⟨.openString, '"' :: cs⟩, [])
  | close :: rest => (⟨.token .string, '"' :: (cs.takeWhile (· ≠ '"') ++ [close])⟩, rest)

/-- The piece that a sign `c` opens, and what follows it. -/
def leadSign (c : Char) (cs : List Char) : Piece × List Char :=
  match c, cs with
  | '/', '/' :: rest =>
      (⟨.lineComment, '/' :: '/' :: rest.takeWhile (· ≠ '\n')⟩, rest.dropWhile (· ≠ '\n'))
  | '/', '*' :: rest =>
      match splitComment? rest with
      | some (body, after) => (⟨.blockComment, '/' :: '*' :: body⟩, after)
      | none => (⟨.openComment, '/' :: '*' :: rest⟩, [])
  | c, '=' :: rest =>
      match twoSigns? c, oneSign? c with
      | some mark, _ => (⟨.token (.punct mark), [c, '=']⟩, rest)
      | none, some mark => (⟨.token (.punct mark), [c]⟩, '=' :: rest)
      | none, none => (⟨.stray, [c]⟩, '=' :: rest)
  | c, rest =>
      match oneSign? c with
      | some mark => (⟨.token (.punct mark), [c]⟩, rest)
      | none => (⟨.stray, [c]⟩, rest)

/-- The first piece of the text `c :: cs`, and what follows it. -/
def lead (c : Char) (cs : List Char) : Piece × List Char :=
  if isBlank c then (⟨.blank, [c]⟩, cs)
  else if c = '"' then leadString cs
  else if c.isDigit then
    let (number, rest) := splitNumber (c :: cs)
    (⟨.token .number, number⟩, rest)
  else if isWordStart c then
    let word := c :: cs.takeWhile isWordChar
    (⟨.token (wordKind word), word⟩, cs.dropWhile isWordChar)
  else leadSign c cs

/-- Cuts at most `count` pieces off a text. -/
def cutAtMost : Nat → List Char → List Piece
  | 0, _ => []
  | _ + 1, [] => []
  | count + 1, c :: cs => (lead c cs).1 :: cutAtMost count (lead c cs).2

/-- The pieces of a text.  No piece is empty, so there are at most as many as characters. -/
def cut (cs : List Char) : List Piece :=
  cutAtMost cs.length cs

/-- What is cut off a comment and what follows it make up the whole. -/
theorem append_of_splitComment?
    {cs body after : List Char}
    (h : splitComment? cs = some (body, after)) :
    body ++ after = cs := by
  fun_induction splitComment? cs generalizing body after with
  | case1 rest =>
      simp only [Option.some.injEq, Prod.mk.injEq] at h
      obtain ⟨rfl, rfl⟩ := h
      rfl
  | case2 c rest _ ih =>
      simp only [Option.map_eq_some_iff] at h
      obtain ⟨⟨inner, tail⟩, hsplit, heq⟩ := h
      simp only [Prod.mk.injEq] at heq
      obtain ⟨rfl, rfl⟩ := heq
      simp [ih hsplit]
  | case3 =>
      simp at h

/-- A number and what follows it make up the whole. -/
theorem splitNumber_append
    (cs : List Char) :
    (splitNumber cs).1 ++ (splitNumber cs).2 = cs := by
  have hsplit := List.takeWhile_append_dropWhile (p := Char.isDigit) (l := cs)
  unfold splitNumber
  dsimp only
  split
  · rename_i d rest hrest
    rw [hrest] at hsplit
    split
    · have htail := List.takeWhile_append_dropWhile (p := Char.isDigit) (l := d :: rest)
      simp_all
    · simpa using hsplit
  · exact hsplit

/-- A string piece and what follows it make up the whole. -/
theorem leadString_append
    (cs : List Char) :
    (leadString cs).1.text ++ (leadString cs).2 = '"' :: cs := by
  have hsplit := List.takeWhile_append_dropWhile (p := (· ≠ '"')) (l := cs)
  unfold leadString
  split
  · simp
  · rename_i hrest
    rw [hrest] at hsplit
    simpa using hsplit

/-- The piece of a sign and what follows it make up the whole. -/
theorem leadSign_append
    (c : Char)
    (cs : List Char) :
    (leadSign c cs).1.text ++ (leadSign c cs).2 = c :: cs := by
  unfold leadSign
  split
  · simp
  · split
    · rename_i hsplit
      simp [append_of_splitComment? hsplit]
    · simp
  · split <;> simp
  · split <;> simp

/-- The first piece and what follows it make up the whole. -/
theorem lead_append
    (c : Char)
    (cs : List Char) :
    (lead c cs).1.text ++ (lead c cs).2 = c :: cs := by
  unfold lead
  split
  · rfl
  · split
    · rename_i hquote
      rw [hquote]
      exact leadString_append cs
    · split
      · exact splitNumber_append (c :: cs)
      · split
        · simp
        · exact leadSign_append c cs

/-- The first piece is not empty. -/
theorem lead_text_ne_nil
    (c : Char)
    (cs : List Char) :
    (lead c cs).1.text ≠ [] := by
  unfold lead
  split
  · simp
  · split
    · unfold leadString
      split <;> simp
    · split
      · rename_i hdigit
        unfold splitNumber
        dsimp only
        split
        · split <;> simp [hdigit]
        · simp [hdigit]
      · split
        · simp
        · unfold leadSign
          split
          · simp
          · split <;> simp
          · split <;> simp
          · split <;> simp

/-- What follows the first piece is shorter than the whole. -/
theorem length_lead_lt
    (c : Char)
    (cs : List Char) :
    (lead c cs).2.length < (c :: cs).length := by
  have hwhole := congrArg List.length (lead_append c cs)
  have hpos := List.length_pos_iff.2 (lead_text_ne_nil c cs)
  simp only [List.length_append] at hwhole
  omega

/-- Beyond the length of the text the bound on the number of pieces does not matter. -/
theorem cutAtMost_eq_cutAtMost
    {count other : Nat}
    {cs : List Char}
    (h : cs.length ≤ count)
    (hother : cs.length ≤ other) :
    cutAtMost count cs = cutAtMost other cs := by
  induction count generalizing other cs with
  | zero =>
      have hnil : cs = [] := List.length_eq_zero_iff.1 (by omega)
      subst hnil
      cases other <;> rfl
  | succ count ih =>
      cases cs with
      | nil =>
          cases other <;> rfl
      | cons c cs =>
          cases other with
          | zero =>
              simp at hother
          | succ other =>
              have hlt := length_lead_lt c cs
              simp only [List.length_cons] at hlt h hother
              have hrest : cutAtMost count (lead c cs).2 = cutAtMost other (lead c cs).2 :=
                ih (by omega) (by omega)
              simp only [cutAtMost, hrest]

/-- The pieces of a text are its first piece and the pieces of what follows. -/
theorem cut_cons
    (c : Char)
    (cs : List Char) :
    cut (c :: cs) = (lead c cs).1 :: cut (lead c cs).2 := by
  have hlt := length_lead_lt c cs
  simp only [List.length_cons] at hlt
  simp only [cut, List.length_cons, cutAtMost]
  rw [cutAtMost_eq_cutAtMost (by omega) (Nat.le_refl _)]

/-- The number of line breaks in a piece. -/
def lineBreaks (p : Piece) : Nat :=
  p.text.count '\n'

end Piece

end Lox
