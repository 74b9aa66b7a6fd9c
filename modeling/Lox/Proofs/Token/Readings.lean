import Lox.Proofs.Token.Boundaries

/-!
# All that is given out

The calls of a byte reader, one after the other, give out a list of readings and then nothing.  A
reading carries the value that was read from the bytes for it, and from here on a value is this one: the
value of a reading is what its lexeme denotes because the reader takes both from one place, not because
it is said so.
-/

namespace Lox

/-- All of a token but its line: its kind, its lexeme and what it denotes. -/
def Token.content (t : Token) : Token.Kind × String × Option Literal :=
  (t.kind, t.lexeme, t.literal?)

namespace Scan

open Text

namespace ByteRead

/-- What the calls give out before the first that gives out nothing, which is one of so many. -/
def giveAll (fuel : Nat) : Nat → ByteRead (List Reading)
  | 0 => stuck
  | calls + 1 => do
      match ← next fuel with
      | none => return []
      | some reading =>
          let rest ← giveAll fuel calls
          return reading :: rest

/-- All that reading a source byte by byte gives out.  No source gives out more than the end of the text
and something for each byte. -/
def readings (source : String) : Option (List Reading) :=
  let enough := (bytes source).length + 2
  (giveAll enough enough source .initial).map Prod.fst

end ByteRead

namespace Reading

/-- The token, or the end of the text, that is given out. -/
def terminal? (r : Reading) : Option Terminal :=
  match r.entry with
  | .item (.token t) => some (.token t)
  | .item (.fault _ _) => none
  | .eof line => some (.eof line)

/-- The token, or the end of the text, as a JSON document that shows the value of the reading. -/
def json? (r : Reading) : Option Json :=
  match r.entry with
  | .item (.token t) => some (t.jsonWith r.value)
  | .item (.fault _ _) => none
  | .eof line => some (Terminal.eof line).json

/-- All of a token but its line, with the value of the reading. -/
def content? (r : Reading) : Option (Token.Kind × String × Option Literal) :=
  match r.entry with
  | .item (.token t) => some (t.kind, t.lexeme, r.value)
  | _ => none

/-- The tokens among readings, and the end of the text. -/
def terminals (given : List Reading) : List Terminal :=
  given.filterMap terminal?

/-- The tokens among readings and the end of the text as a JSON document. -/
def document (given : List Reading) : Json :=
  .array (given.filterMap json?)

end Reading

/-- Reading a source byte by byte gives these out, and a scan lists the same tokens and the same end of
the text, as they are and as a JSON document. -/
structure Lists (s : Scan) (source : String) (given : List Reading) : Prop where
  read : ByteRead.readings source = some given
  terminals : s.terminals = Reading.terminals given
  json : s.json = Reading.document given

/-- Every piece that yields something takes a byte. -/
theorem length_loud_le
    (before cs : List Char) :
    (loud before cs).length ≤ String.utf8Len cs := by
  induction hlength : String.utf8Len cs using Nat.strongRecOn generalizing before cs with
  | _ length ih =>
      subst hlength
      cases cs with
      | nil =>
          rw [loud_nil]
          exact Nat.zero_le _
      | cons c cs =>
          have hless := utf8Len_lead_lt c cs
          have hrest := ih _ hless (before ++ (Piece.lead c cs).1.text) _ rfl
          cases hsilent : (Piece.lead c cs).1.isSilent with
          | true =>
              rw [loud_of_silent hsilent]
              omega
          | false =>
              rw [loud_of_not_silent hsilent, List.length_cons]
              omega

theorem length_entries_le
    (source : String) :
    (ofSource source).entries.length ≤ (bytes source).length + 1 := by
  have hitems := (holds_loud source).length_eq
  have hloud := length_loud_le [] source.toList
  rw [← length_bytes] at hloud
  simp only [entries, List.length_append, List.length_map, List.length_cons, List.length_nil]
  omega

section Calls

variable {source : String}
variable {fuel : Nat}

/-- From any call on, what is still to be given out is given out. -/
theorem giveAll_afterCalls
    (hfuel : (bytes source).length < fuel)
    {calls n : Nat}
    (hn : n ≤ (ofSource source).entries.length)
    (hcalls : (ofSource source).entries.length < n + calls) :
    ∃ k behind, ByteRead.afterCalls fuel source n = some k ∧
      ByteRead.giveAll fuel calls source k =
        some (((ofSource source).entries.drop n).map Entry.reading, behind) := by
  induction calls generalizing n with
  | zero =>
      omega
  | succ calls ih =>
      obtain ⟨k, answer, behind, hk, hnext, -, hfollows⟩ := exists_call hfuel n
      have hanswer : answer = (ofSource source).entries[n]?.map Entry.reading := by
        rw [← Cursor.call_start, Cursor.call_eq_next, hfollows.answer]
      cases hentry : (ofSource source).entries[n]? with
      | none =>
          rw [hentry] at hanswer
          subst hanswer
          refine ⟨k, behind, hk, ?_⟩
          rw [ByteRead.giveAll, ByteRead.bind_of_eq hnext,
            List.drop_eq_nil_of_le (List.getElem?_eq_none_iff.mp hentry)]
          rfl
      | some entry =>
          rw [hentry] at hanswer
          subst hanswer
          obtain ⟨hlt, hget⟩ := List.getElem?_eq_some_iff.mp hentry
          obtain ⟨k', behind', hk', hrest⟩ := ih (n := n + 1) hlt (by omega)
          rw [afterCalls_succ hk hnext] at hk'
          cases hk'
          refine ⟨k, behind', hk, ?_⟩
          rw [ByteRead.giveAll, ByteRead.bind_of_eq hnext, List.drop_eq_getElem_cons hlt, hget]
          exact ByteRead.bind_of_eq hrest

end Calls

/-- Reading a source byte by byte gives out the entries of its scan, with what they denote. -/
theorem readings_eq
    (source : String) :
    ByteRead.readings source = some ((ofSource source).entries.map Entry.reading) := by
  have hfuel : (bytes source).length < (bytes source).length + 2 := by
    omega
  have hcalls : (ofSource source).entries.length < 0 + ((bytes source).length + 2) := by
    have hlength := length_entries_le source
    omega
  obtain ⟨k, behind, hk, hall⟩ := giveAll_afterCalls hfuel (Nat.zero_le _) hcalls
  cases hk
  rw [ByteRead.readings, hall]
  rfl

section Entries

variable (s : Scan)

theorem terminals_entries :
    Reading.terminals (s.entries.map Entry.reading) = s.terminals := by
  have hitems : (s.items.map Entry.item).filterMap (Reading.terminal? ∘ Entry.reading) =
      s.tokens.map .token := by
    rw [tokens, List.filterMap_map, List.map_filterMap]
    refine List.filterMap_congr ?_
    intro item _
    cases item <;> rfl
  rw [Reading.terminals, List.filterMap_map, entries, List.filterMap_append, hitems]
  rfl

theorem document_entries :
    Reading.document (s.entries.map Entry.reading) = s.json := by
  rw [Reading.document, json, ← terminals_entries, Reading.terminals, List.map_filterMap,
    List.filterMap_map, List.filterMap_map]
  refine congrArg Json.array ?_
  refine List.filterMap_congr ?_
  rintro (⟨⟨t⟩ | ⟨line, cause⟩⟩ | line) _ <;> rfl

theorem content?_entries :
    (s.entries.map Entry.reading).filterMap Reading.content? =
      s.tokens.map Token.content := by
  have hitems : (s.items.map Entry.item).filterMap (Reading.content? ∘ Entry.reading) =
      s.tokens.map Token.content := by
    rw [tokens, List.filterMap_map, List.map_filterMap]
    refine List.filterMap_congr ?_
    intro item _
    cases item <;> rfl
  rw [List.filterMap_map, entries, List.filterMap_append, hitems]
  exact List.append_nil _

end Entries

theorem value_of_mem_entries
    {s : Scan}
    {x : Reading}
    {t : Token}
    (hx : x ∈ s.entries.map Entry.reading)
    (ht : x.entry = .item (.token t)) :
    x.value = t.literal? := by
  obtain ⟨entry, -, rfl⟩ := List.mem_map.mp hx
  obtain rfl : entry = .item (.token t) := ht
  rfl

/-- What is listed was given out. -/
theorem Lists.exists_reading
    {s : Scan}
    {source : String}
    {given : List Reading}
    {t : Token}
    (h : s.Lists source given)
    (ht : .token t ∈ s.terminals) :
    ∃ x ∈ given, x.entry = .item (.token t) := by
  rw [h.terminals] at ht
  obtain ⟨x, hx, hterminal⟩ := List.mem_filterMap.mp ht
  refine ⟨x, hx, ?_⟩
  unfold Reading.terminal? at hterminal
  split at hterminal
  · cases hterminal
    assumption
  · cases hterminal
  · cases hterminal

/-- The scan of a source lists what reading the source byte by byte gives out. -/
theorem lists_readings
    (source : String) :
    (ofSource source).Lists source ((ofSource source).entries.map Entry.reading) where
  read := readings_eq source
  terminals := (terminals_entries _).symm
  json := (document_entries _).symm

end Scan

end Lox
