import Lox.Proofs.Token.Readings

/-!
# Scanning texts put together

Two ways to put texts together that a scan can be told of beforehand.  The lexemes of a scan,
written with blanks between them, scan to the same tokens again.  And a text that leaves nothing
open scans the same with a line break and another text behind it, which in turn scans as it does
alone, further down.
-/

namespace Lox

open Lexeme

namespace Scan

section Pieces

variable {pieces : List Piece}

/-- Every item comes from one of the pieces. -/
theorem exists_piece_of_mem
    {line : Nat}
    {item : Item}
    (h : item ∈ (ofPieces line pieces).items) :
    ∃ p ∈ pieces, ∃ on, p.item? on = some item := by
  induction pieces generalizing line with
  | nil =>
      cases h
  | cons p rest ih =>
      rw [ofPieces] at h
      rcases List.mem_append.mp h with h | h
      · exact ⟨p, List.mem_cons_self, _, Option.mem_toList.mp h⟩
      · obtain ⟨q, hq, hitem⟩ := ih h
        exact ⟨q, List.mem_cons_of_mem p hq, hitem⟩

/-- Every piece yields its item on some line. -/
theorem exists_line_of_mem
    {p : Piece}
    (line : Nat)
    (h : p ∈ pieces) :
    ∃ on, ∀ item, p.item? on = some item → item ∈ (ofPieces line pieces).items := by
  induction pieces generalizing line with
  | nil =>
      cases h
  | cons q rest ih =>
      rw [ofPieces]
      rcases List.mem_cons.mp h with rfl | h
      · exact ⟨_, fun item hitem => List.mem_append_left _ (Option.mem_toList.mpr hitem)⟩
      · obtain ⟨on, hon⟩ := ih (line + q.lineBreaks) h
        exact ⟨on, fun item hitem => List.mem_append_right _ (hon item hitem)⟩

end Pieces

/-! ## Lexemes with blanks between them -/

/-- Blanks that stand between two lexemes, at least one. -/
structure Separator where
  text : List Char
  ne_nil : text ≠ []
  blank : ∀ c ∈ text, Blank c

/-- A single space. -/
instance : Inhabited Separator :=
  ⟨[' '], by simp, by simp [Blank]⟩

/-- Tokens written one after the other, with a separator in front of each. -/
def following (sep : Nat → Separator) : List Token → List Char
  | [] => []
  | t :: rest =>
      (sep 0).text ++ (t.lexeme.toList ++ following (fun i => sep (i + 1)) rest)

/-- Tokens written one after the other, with a separator between each two of them. -/
def spaced (sep : Nat → Separator) : List Token → String
  | [] => ""
  | t :: rest => String.ofList (t.lexeme.toList ++ following sep rest)

theorem blank_of_head?_following
    (sep : Nat → Separator)
    (ts : List Token) :
    ∀ c ∈ (following sep ts).head?, Blank c := by
  cases ts with
  | nil =>
      simp [following]
  | cons t rest =>
      intro c hc
      have hne := (sep 0).ne_nil
      have hblank := (sep 0).blank
      rw [following] at hc
      generalize (sep 0).text = text at hc hne hblank
      cases text with
      | nil =>
          exact absurd rfl hne
      | cons d ds =>
          cases hc
          exact hblank c List.mem_cons_self

/-- Blanks in front of a text only move it further down. -/
theorem items_blanks
    {blanks : List Char}
    (h : ∀ c ∈ blanks, Blank c)
    (cs : List Char)
    (line : Nat) :
    ∃ on, (ofPieces line (Piece.cut (blanks ++ cs))).items = (ofPieces on (Piece.cut cs)).items := by
  induction blanks generalizing line with
  | nil =>
      exact ⟨line, rfl⟩
  | cons c blanks ih =>
      have hlead := Piece.lead_of_blank (h c List.mem_cons_self) (blanks ++ cs)
      rw [List.cons_append, Piece.cut_of_lead hlead, ofPieces]
      exact ih (fun d hd => h d (List.mem_cons_of_mem c hd)) _

/-- An item is a token of the same kind and with the same lexeme, on whatever line. -/
def Item.Repeats (item : Item) (t : Token) : Prop :=
  ∃ line, item = .token ⟨t.kind, t.lexeme, line⟩

theorem items_lexeme
    {t : Token}
    {after : List Char}
    (h : Lexeme t.kind t.lexeme.toList)
    (hafter : ∀ c ∈ after.head?, Blank c)
    (line : Nat) :
    ∃ item on, item.Repeats t ∧
      (ofPieces line (Piece.cut (t.lexeme.toList ++ after))).items =
        item :: (ofPieces on (Piece.cut after)).items := by
  rw [h.cut_append hafter, ofPieces]
  exact ⟨_, _, ⟨_, by rw [String.ofList_toList]⟩, rfl⟩

theorem repeats_following
    {ts : List Token}
    (h : ∀ t ∈ ts, Lexeme t.kind t.lexeme.toList)
    (sep : Nat → Separator)
    (line : Nat) :
    List.Forall₂ Item.Repeats (ofPieces line (Piece.cut (following sep ts))).items ts := by
  induction ts generalizing sep line with
  | nil =>
      exact .nil
  | cons t rest ih =>
      obtain ⟨on, hblanks⟩ := items_blanks (sep 0).blank
        (t.lexeme.toList ++ following (fun i => sep (i + 1)) rest) line
      obtain ⟨item, behind, hitem, hitems⟩ :=
        items_lexeme (h t List.mem_cons_self) (blank_of_head?_following _ rest) on
      rw [following, hblanks, hitems]
      exact .cons hitem (ih (fun u hu => h u (List.mem_cons_of_mem t hu)) _ _)

theorem repeats_spaced
    {ts : List Token}
    (h : ∀ t ∈ ts, Lexeme t.kind t.lexeme.toList)
    (sep : Nat → Separator) :
    List.Forall₂ Item.Repeats (ofSource (spaced sep ts)).items ts := by
  cases ts with
  | nil =>
      exact .nil
  | cons t rest =>
      obtain ⟨item, behind, hitem, hitems⟩ :=
        items_lexeme (h t List.mem_cons_self) (blank_of_head?_following sep rest) 1
      rw [ofSource, ofChars, spaced, String.toList_ofList, hitems]
      exact .cons hitem (repeats_following (fun u hu => h u (List.mem_cons_of_mem t hu)) sep behind)

theorem lexeme_of_mem_tokens
    {source : String}
    {t : Token}
    (h : t ∈ (ofSource source).tokens) :
    Lexeme t.kind t.lexeme.toList := by
  obtain ⟨item, hitem, htoken⟩ := List.mem_filterMap.mp h
  obtain ⟨p, hp, on, hyields⟩ := exists_piece_of_mem hitem
  obtain ⟨after, hlead⟩ := (Piece.cuts_cut source.toList).leads p hp
  rcases hlead.yields on with ⟨-, hnone⟩ | ⟨-, other, hsome, hother⟩
  · rw [hnone] at hyields
    cases hyields
  · rw [hsome] at hyields
    cases hyields
    cases hother with
    | token kind text line =>
        cases htoken
        rw [String.toList_ofList]
        exact hlead.lexeme rfl
    | stray | openString | openComment =>
        cases htoken

section Repeats

variable {s : Scan}
variable {ts : List Token}

theorem faults_of_repeats
    (h : List.Forall₂ Item.Repeats s.items ts) :
    s.faults = [] := by
  unfold faults
  generalize s.items = items at h
  induction h with
  | nil =>
      rfl
  | cons hitem hrest ih =>
      obtain ⟨line, rfl⟩ := hitem
      exact ih

theorem content_tokens_of_repeats
    (h : List.Forall₂ Item.Repeats s.items ts) :
    s.tokens.map Token.content = ts.map Token.content := by
  unfold tokens
  generalize s.items = items at h
  induction h with
  | nil =>
      rfl
  | cons hitem hrest ih =>
      obtain ⟨line, rfl⟩ := hitem
      simpa [Token.content, Token.literal?] using ih

end Repeats

/-- The lexemes of a source, with any blanks between them, scan without faults to as many tokens of
the same kinds, with the same lexemes, that denote the same values; and so are the values the same that
are read from the bytes of the two texts. -/
theorem spaced_lexemes_scan_alike
    (source : String)
    (sep : Nat → Separator) :
    let again := spaced sep (ofSource source).tokens
    (ofSource again).faults = [] ∧
      (ofSource again).tokens.map Token.content = (ofSource source).tokens.map Token.content ∧
      ∃ given given', (ofSource source).Lists source given ∧ (ofSource again).Lists again given' ∧
        given'.filterMap Reading.content? = given.filterMap Reading.content? := by
  intro again
  have hlexemes : ∀ t ∈ (ofSource source).tokens, Lexeme t.kind t.lexeme.toList :=
    fun t ht => lexeme_of_mem_tokens ht
  have hrepeats := repeats_spaced hlexemes sep
  have hcontent := content_tokens_of_repeats hrepeats
  refine ⟨faults_of_repeats hrepeats, hcontent, _, _, lists_readings source, lists_readings again, ?_⟩
  rw [content?_entries, content?_entries, hcontent]

example : spaced (fun _ => default) (ofSource "a!=1.5//\n@b").tokens = "a != 1.5 b" := by
  decide +kernel

/-! ## Texts with a line break between them -/

/-- An item that stands the given number of lines further down. -/
def Item.later (count : Nat) : Item → Item
  | .token t => .token ⟨t.kind, t.lexeme, t.line + count⟩
  | .fault line cause => .fault (line + count) cause

/-- An entry that stands the given number of lines further down. -/
def Entry.later (count : Nat) : Entry → Entry
  | .item i => .item (i.later count)
  | .eof line => .eof (line + count)

theorem item?_add
    (p : Piece)
    (line count : Nat) :
    p.item? (line + count) = (p.item? line).map (Item.later count) := by
  obtain ⟨shape, text⟩ := p
  cases shape with
  | stray =>
      cases text <;> rfl
  | _ =>
      rfl

/-- Pieces that start further down yield the same further down. -/
theorem entries_add
    (line count : Nat)
    (pieces : List Piece) :
    (ofPieces (line + count) pieces).entries =
      (ofPieces line pieces).entries.map (Entry.later count) := by
  induction pieces generalizing line with
  | nil =>
      rfl
  | cons p rest ih =>
      have hline : line + count + p.lineBreaks = line + p.lineBreaks + count := by
        omega
      rw [entries_cons, entries_cons, hline, ih, item?_add, List.map_append]
      cases p.item? (line + p.lineBreaks) <;> rfl

theorem entries_append
    (line : Nat)
    (pieces later : List Piece) :
    (ofPieces line (pieces ++ later)).entries =
      (ofPieces line pieces).items.map .item ++
        (ofPieces (ofPieces line pieces).endLine later).entries := by
  induction pieces generalizing line with
  | nil =>
      rfl
  | cons p rest ih =>
      rw [List.cons_append, entries_cons, ih, ofPieces, List.map_append, List.append_assoc]

theorem mem_faults_of_mem_items
    {s : Scan}
    {line : Nat}
    {cause : LexFault}
    (h : .fault line cause ∈ s.items) :
    (line, cause) ∈ s.faults :=
  List.mem_filterMap.mpr ⟨_, h, rfl⟩

/-- What is left open is reported as such. -/
theorem isOpen_eq_false_of_not_mem
    {line : Nat}
    {pieces : List Piece}
    (hstring : ∀ on, (on, .unterminatedString) ∉ (ofPieces line pieces).faults)
    (hcomment : ∀ on, (on, .unterminatedComment) ∉ (ofPieces line pieces).faults) :
    ∀ p ∈ pieces, p.isOpen = false := by
  intro p hp
  obtain ⟨on, hon⟩ := exists_line_of_mem line hp
  obtain ⟨shape, text⟩ := p
  cases shape with
  | openString =>
      exact absurd (mem_faults_of_mem_items (hon _ rfl)) (hstring on)
  | openComment =>
      exact absurd (mem_faults_of_mem_items (hon _ rfl)) (hcomment on)
  | blank | lineComment | blockComment | token | stray =>
      rfl

/-- A source that leaves nothing open, then a line break and another source, give out what the first
one does up to its end, and then what the other one does, with its end, further down. -/
theorem entries_across_line_break
    {a b : String}
    (hstring : ∀ line, (line, .unterminatedString) ∉ (ofSource a).faults)
    (hcomment : ∀ line, (line, .unterminatedComment) ∉ (ofSource a).faults) :
    (ofSource (a ++ "\n" ++ b)).entries =
      (ofSource a).items.map .item ++
        (ofSource b).entries.map (Entry.later (1 + a.toList.count '\n')) := by
  have hclosed := isOpen_eq_false_of_not_mem hstring hcomment
  have hchars : (a ++ "\n" ++ b).toList = a.toList ++ '\n' :: b.toList := by
    simp
  have hbreak : Piece.cut ('\n' :: b.toList) = ⟨.blank, ['\n']⟩ :: Piece.cut b.toList :=
    Piece.cut_of_lead rfl
  have hend : (ofSource a).endLine + 1 = 1 + (1 + a.toList.count '\n') := by
    rw [endLine_ofSource]
    omega
  calc
    (ofSource (a ++ "\n" ++ b)).entries
        = (ofPieces 1 (Piece.cut a.toList ++ ⟨.blank, ['\n']⟩ :: Piece.cut b.toList)).entries := by
          rw [ofSource, ofChars, hchars, Piece.cut_append_newline hclosed, hbreak]
    _ = (ofSource a).items.map .item ++
          (ofPieces ((ofSource a).endLine + 1) (Piece.cut b.toList)).entries := by
          rw [entries_append, entries_cons]
          rfl
    _ = _ := by
          rw [hend, entries_add]
          rfl

/-- A quote in a comment opens no string, and one behind the line break does. -/
theorem entries_across_line_break_comment :
    (ofSource "1 # // \"").faults = [(1, .unexpected '#')] ∧
      (ofSource ("1 # // \"" ++ "\n" ++ "x\n\"")).entries =
        [.item (.token ⟨.number, "1", 1⟩), .item (.fault 1 (.unexpected '#')),
          .item (.token ⟨.identifier, "x", 2⟩), .item (.fault 3 .unterminatedString), .eof 3] := by
  have hfaults : (ofSource "1 # // \"").faults = [(1, .unexpected '#')] := by
    decide +kernel
  refine ⟨hfaults, ?_⟩
  rw [entries_across_line_break (by simp [hfaults]) (by simp [hfaults])]
  decide +kernel

end Scan

end Lox
