import Lox.Token.Scan

/-!
# Reading a source item by item

A cursor stands between two pieces of a source.  Each call takes it behind the next piece that
yields something, and gives out what that piece yields.  When no such piece is left the end of the
text is given out, once; from then on there is nothing.
-/

namespace Lox

namespace Scan

/-- What a cursor gives out: an item, or the end of the text with its line. -/
inductive Entry where
  | item (i : Item)
  | eof (line : Nat)
deriving DecidableEq, Repr

/-- All that a scan lists: its items, and the end of the text behind them. -/
def entries (s : Scan) : List Entry :=
  s.items.map .item ++ [.eof s.endLine]

/-- Where a reader of a source stands. -/
inductive Cursor where
  /-- On the given line, in front of the given characters. -/
  | reading (line : Nat) (rest : List Char)
  /-- Behind the end of the text. -/
  | done
deriving DecidableEq, Repr

namespace Cursor

/-- In front of a whole source. -/
def start (source : String) : Cursor :=
  reading 1 source.toList

/-- How many characters are still to be read. -/
def left : Cursor → Nat
  | reading _ rest => rest.length
  | done => 0

/-- What the next call gives out, and where the cursor stands after it. -/
def next : Cursor → Option Entry × Cursor
  | done => (none, done)
  | reading line [] => (some (.eof line), done)
  | reading line (c :: cs) =>
      let line := line + (Piece.lead c cs).1.lineBreaks
      let behind := reading line (Piece.lead c cs).2
      match (Piece.lead c cs).1.item? line with
      | some item => (some (.item item), behind)
      | none => behind.next
termination_by k => k.left
decreasing_by exact Piece.length_lead_lt c cs

/-- What the call with the given number gives out, the first one being number `0`. -/
def call (k : Cursor) : Nat → Option Entry
  | 0 => k.next.1
  | n + 1 => k.next.2.call n

theorem call_done
    (n : Nat) :
    done.call n = none := by
  induction n with
  | zero =>
      rw [call, next]
  | succ n ih =>
      rw [call, next]
      exact ih

/-- The end of the text is given out once. -/
theorem call_reading_nil
    (line n : Nat) :
    (reading line []).call n = [Entry.eof line][n]? := by
  cases n with
  | zero =>
      rw [call, next]
      rfl
  | succ n =>
      rw [call, next, call_done]
      rfl

section Step

variable {line : Nat}
variable {c : Char}
variable {cs : List Char}

/-- A call passes over a piece that yields nothing. -/
theorem next_of_item?_eq_none
    (h : (Piece.lead c cs).1.item? (line + (Piece.lead c cs).1.lineBreaks) = none) :
    (reading line (c :: cs)).next =
      (reading (line + (Piece.lead c cs).1.lineBreaks) (Piece.lead c cs).2).next := by
  rw [next, h]

/-- A call stops behind a piece that yields something. -/
theorem next_of_item?_eq_some
    {item : Item}
    (h : (Piece.lead c cs).1.item? (line + (Piece.lead c cs).1.lineBreaks) = some item) :
    (reading line (c :: cs)).next =
      (some (.item item),
        reading (line + (Piece.lead c cs).1.lineBreaks) (Piece.lead c cs).2) := by
  rw [next, h]

end Step

theorem call_congr
    {k other : Cursor}
    (h : k.next = other.next)
    (n : Nat) :
    k.call n = other.call n := by
  cases n with
  | zero =>
      rw [call, call, h]
  | succ n =>
      rw [call, call, h]

end Cursor

/-- The entries of pieces are what the first one yields and the entries of the others. -/
theorem entries_cons
    (line : Nat)
    (p : Piece)
    (rest : List Piece) :
    (ofPieces line (p :: rest)).entries =
      (p.item? (line + p.lineBreaks)).toList.map .item ++
        (ofPieces (line + p.lineBreaks) rest).entries := by
  simp only [ofPieces, entries, List.map_append, List.append_assoc]

/-- A cursor gives out the entries of what it has in front of it, one with each call, and nothing
behind them. -/
theorem Cursor.call_reading
    (line : Nat)
    (cs : List Char)
    (n : Nat) :
    (reading line cs).call n = (ofPieces line (Piece.cut cs)).entries[n]? := by
  -- One call may pass over several pieces, so the induction is on how much is left.
  induction hlength : cs.length using Nat.strongRecOn generalizing line cs n with
  | _ length ih =>
      subst hlength
      cases cs with
      | nil =>
          exact call_reading_nil line n
      | cons c cs =>
          have hrest := fun n => ih _ (Piece.length_lead_lt c cs)
            (line + (Piece.lead c cs).1.lineBreaks) _ n rfl
          rw [Piece.cut_cons, entries_cons]
          cases hitem : (Piece.lead c cs).1.item? (line + (Piece.lead c cs).1.lineBreaks) with
          | none =>
              rw [call_congr (next_of_item?_eq_none hitem)]
              exact hrest n
          | some item =>
              cases n with
              | zero =>
                  rw [call, next_of_item?_eq_some hitem]
                  rfl
              | succ n =>
                  rw [call, next_of_item?_eq_some hitem]
                  exact hrest n

/-- Reading a source call by call gives out the entries of its scan. -/
theorem Cursor.call_start
    (source : String)
    (n : Nat) :
    (start source).call n = (ofSource source).entries[n]? :=
  call_reading 1 source.toList n

end Scan

end Lox
