import Lox.Proofs.Token.ByteMoves
import Lox.Proofs.Token.MaximalMunch

/-!
# Reading one piece byte by byte

What opens with a quote, a digit, a letter or a sign, read byte by byte.  The reader may stop inside a
character on its way, but when it has read a piece it stands behind the last byte of the same piece that
a scan of the characters cuts off, and every stretch that it took began and ended between characters.
-/

namespace Lox

namespace Scan

open Text
open Lexeme

/-- What a piece that ends on the given line leaves to be given out. -/
def found (p : Piece) (line : Nat) : Found :=
  match p.item? line with
  | some (.token t) => .pending t.kind t.literal?
  | some (.fault on cause) => .fault on cause
  | none => .nothing

/-- The reader has moved over a piece behind the given characters, and took nothing that does not
begin and end between characters. -/
structure ByteReader.Passes (k : ByteReader) (source : String) (before : List Char) (p : Piece)
    (behind : ByteReader) : Prop where
  start : behind.start = k.start
  current : behind.current = String.utf8Len (before ++ p.text)
  line : behind.line = k.line + p.lineBreaks
  taken : ∃ more, behind.taken = k.taken ++ more ∧ ∀ s ∈ more, s.Fits source

section Passes

variable {source : String}
variable {k behind : ByteReader}
variable {before : List Char}
variable {p : Piece}

/-- Nothing was taken on the way. -/
theorem ByteReader.Passes.of_taken_eq
    (hstart : behind.start = k.start)
    (hcurrent : behind.current = String.utf8Len (before ++ p.text))
    (hline : behind.line = k.line + p.lineBreaks)
    (htaken : behind.taken = k.taken) :
    k.Passes source before p behind :=
  ⟨hstart, hcurrent, hline, [], htaken.trans (List.append_nil _).symm, nofun⟩

/-- One stretch was taken on the way. -/
theorem ByteReader.Passes.of_fits
    {s : Stretch}
    (hfits : s.Fits source)
    (hstart : behind.start = k.start)
    (hcurrent : behind.current = String.utf8Len (before ++ p.text))
    (hline : behind.line = k.line + p.lineBreaks)
    (htaken : behind.taken = k.taken ++ [s]) :
    k.Passes source before p behind :=
  ⟨hstart, hcurrent, hline, [s], htaken, List.forall_mem_singleton.mpr hfits⟩

end Passes

/-- A read moves over a piece behind the given characters, and leaves what the piece does. -/
def ByteRead.Reads (m : ByteRead Found) (source : String) (k : ByteReader) (before : List Char)
    (p : Piece) : Prop :=
  ∃ behind, m source k = some (found p (k.line + p.lineBreaks), behind) ∧
    k.Passes source before p behind

namespace ByteRead

variable {source : String}
variable {k : ByteReader}
variable {fuel : Nat}
variable {before cs : List Char}

theorem Reads.of_eq
    {m : ByteRead Found}
    {p : Piece}
    {left : Found}
    {behind : ByteReader}
    (hread : m source k = some (left, behind))
    (hfound : found p (k.line + p.lineBreaks) = left)
    (hpasses : k.Passes source before p behind) :
    m.Reads source k before p := by
  refine ⟨behind, ?_, hpasses⟩
  rw [hread, hfound]

/-- A read that moves the reader within the piece and then goes on with another. -/
theorem Reads.of_move
    {m onward : ByteRead Found}
    {p : Piece}
    {distance : Nat}
    (hstep : m source k = onward source (k.move distance))
    (h : onward.Reads source (k.move distance) before p) :
    m.Reads source k before p := by
  obtain ⟨behind, hread, hstart, hcurrent, hline, htaken⟩ := h
  exact ⟨behind, hstep.trans hread, hstart, hcurrent, hline, htaken⟩

theorem utf8Len_append_append
    (before opener run : List Char) :
    String.utf8Len (before ++ (opener ++ run)) =
      String.utf8Len (before ++ opener) + String.utf8Len run := by
  rw [← String.utf8Len_append, List.append_assoc]

theorem utf8Len_append_cons
    (before : List Char)
    (c : Char)
    (run : List Char) :
    String.utf8Len (before ++ c :: run) = String.utf8Len (before ++ [c]) + String.utf8Len run :=
  utf8Len_append_append before [c] run

theorem line_count_encode
    (k : ByteReader)
    (cs : List Char) :
    (k.count (encode cs)).line = k.line + cs.count '\n' := by
  rw [ByteReader.count, countP_encode (by decide)]

theorem skipRun_text
    {q : Char → Bool}
    (hq : Bytewise q)
    (hnone : q '\x00' = false)
    (h : k.At source before cs)
    (hfuel : String.utf8Len cs < fuel) :
    skipRun q fuel source k = some ((), k.move (encode (cs.takeWhile q)).length) := by
  rw [skipRun_eq hnone h.faces (by rwa [length_encode]), takeWhile_encode hq]

/-! ## Strings -/

/-- A string that is closed is taken without its quotes. -/
theorem readString_closed
    {body after : List Char}
    (h : k.At source (before ++ ['"']) (body ++ '"' :: after))
    (hbody : '"' ∉ body)
    (hstart : k.start = String.utf8Len before)
    (hfuel : String.utf8Len (body ++ '"' :: after) < fuel) :
    (readString fuel).Reads source k before ⟨.token .string, '"' :: (body ++ ['"'])⟩ := by
  have hrun : (body ++ '"' :: after).takeWhile (fun c => decide (c ≠ '"')) = body :=
    Piece.takeWhile_run (Piece.run_of_not_mem hbody) (by simp)
  have hskip := skipQuoted_eq h.faces (by rwa [length_encode])
  rw [takeWhile_encode (bytewise_ne (by decide)), hrun] at hskip
  obtain ⟨b, hquote, -⟩ := encode_cons_of_lt (c := '"') (by decide) after
  have hfaces := (h.count (encode body)).move.faces
  rw [hquote] at hfaces
  have hfirst : k.start + 1 = String.utf8Len (before ++ ['"']) := by
    rw [hstart, String.utf8Len_append]
    rfl
  have hstop : k.current + (encode body).length + 1 - 1 =
      String.utf8Len (before ++ ['"'] ++ body) := by
    rw [h.current, length_encode, String.utf8Len_append (before ++ ['"'])]
    rfl
  have htext := text_eq (k := ((k.count (encode body)).move (encode body).length).move 1) h.whole
  rw [← hfirst, ← hstop] at htext
  have hread : readString fuel source k = some (.pending .string (some (.string (String.ofList body))),
      (((k.count (encode body)).move (encode body).length).move 1).take
        ⟨k.start + 1, k.current + (encode body).length + 1 - 1⟩) := by
    rw [readString, bind_of_eq hskip, bind_of_eq (atEnd_eq hfaces), List.isEmpty_cons,
      if_neg (by simp), bind_of_eq (advance_eq hfaces), bind_of_eq here_eq]
    exact bind_of_eq htext
  have hfits := Stretch.fits h.whole
  rw [← hfirst, ← hstop] at hfits
  have hbreaks : Piece.lineBreaks ⟨.token .string, '"' :: (body ++ ['"'])⟩ = body.count '\n' := by
    simp [Piece.lineBreaks]
  refine .of_eq hread ?_ (.of_fits hfits rfl ?_ ?_ rfl)
  · simp [found, Piece.item?, Token.literal?, Token.stringValue]
  · rw [utf8Len_append_cons, ← h.current, String.utf8Len_append, ← length_encode body, ← Nat.add_assoc]
    rfl
  · rw [hbreaks]
    exact line_count_encode k body

theorem readString_open
    (h : k.At source (before ++ ['"']) cs)
    (hquote : '"' ∉ cs)
    (hfuel : String.utf8Len cs < fuel) :
    (readString fuel).Reads source k before ⟨.openString, '"' :: cs⟩ := by
  have hrun : cs.takeWhile (fun c => decide (c ≠ '"')) = cs :=
    List.takeWhile_eq_self_iff.mpr (Piece.run_of_not_mem hquote)
  have hskip := skipQuoted_eq h.faces (by rwa [length_encode])
  rw [takeWhile_encode (bytewise_ne (by decide)), hrun] at hskip
  have hfaces : ((k.count (encode cs)).move (encode cs).length).Faces source [] :=
    ByteReader.Faces.move (by simpa using (h.count (encode cs)).faces)
  have hread : readString fuel source k = some
      (.fault (k.count (encode cs)).line .unterminatedString,
        (k.count (encode cs)).move (encode cs).length) := by
    rw [readString, bind_of_eq hskip, bind_of_eq (atEnd_eq hfaces), List.isEmpty_nil, if_pos rfl,
      bind_of_eq here_eq]
    rfl
  have hbreaks : Piece.lineBreaks ⟨.openString, '"' :: cs⟩ = cs.count '\n' := by
    simp [Piece.lineBreaks]
  refine .of_eq hread ?_ (.of_taken_eq rfl ?_ ?_ rfl)
  · rw [hbreaks, line_count_encode]
    rfl
  · rw [utf8Len_append_cons, ← h.current, ← length_encode cs]
    rfl
  · rw [hbreaks]
    exact line_count_encode k cs

theorem readString_reads
    (h : k.At source (before ++ ['"']) cs)
    (hstart : k.start = String.utf8Len before)
    (hfuel : String.utf8Len cs < fuel) :
    (readString fuel).Reads source k before (Piece.leadString cs).1 := by
  by_cases hquote : '"' ∈ cs
  · obtain ⟨body, after, rfl, hbody⟩ := List.eq_append_cons_of_mem hquote
    rw [Piece.leadString_quoted hbody]
    exact readString_closed h hbody hstart hfuel
  · rw [Piece.leadString_open hquote]
    exact readString_open h hquote hfuel

/-! ## Numbers and words -/

/-- The point at the front of a text and the digits behind it, if there are any. -/
def fraction (cs : List Char) : List Char :=
  match cs with
  | '.' :: d :: rest => if d.isDigit then '.' :: (d :: rest).takeWhile Char.isDigit else []
  | _ => []

theorem splitNumber_eq_fraction
    (cs : List Char) :
    (Piece.splitNumber cs).1 =
      cs.takeWhile Char.isDigit ++ fraction (cs.dropWhile Char.isDigit) := by
  unfold Piece.splitNumber
  generalize cs.dropWhile Char.isDigit = rest
  fun_cases fraction rest with
  | case1 d rest hd =>
      simp [hd]
  | case2 d rest hd =>
      simp [hd]
  | case3 rest hnone =>
      split
      · exact absurd rfl (hnone _ _)
      · simp

theorem bytewise_isDigit : Bytewise Char.isDigit := by
  refine .of_const false fun c hc => ?_
  rw [Bool.eq_false_iff]
  intro hdigit
  have hlast : c.toNat ≤ 57 := (isDigit_iff.mp hdigit).2
  omega

theorem skipFraction_eq
    (h : k.At source before cs)
    (hfuel : String.utf8Len cs < fuel) :
    skipFraction fuel source k = some ((), k.move (encode (fraction cs)).length) := by
  have hpoint := test_head_encode (bytewise_eq (show '.'.toNat < 0x80 by decide)) (by decide) cs
  rw [skipFraction, bind_of_eq (peek_eq h.faces), bind_of_eq (peekNext_eq h.faces)]
  cases cs with
  | nil =>
      rfl
  | cons c cs =>
      by_cases hc : c = '.'
      · subst hc
        obtain ⟨b, hb, hsign⟩ := encode_cons_of_lt (c := '.') (by decide) cs
        have hdigit := test_head_encode bytewise_isDigit (by decide) cs
        have hfaces := h.faces
        rw [hb] at hfaces
        rw [hb, List.head?_cons, Option.getD_some, List.tail_cons, hsign, hdigit]
        cases cs with
        | nil =>
            rfl
        | cons d rest =>
            cases hd : d.isDigit with
            | true =>
                have hrun := skipRun_text bytewise_isDigit (by decide)
                  (h.move_one (by decide)) (Nat.lt_of_le_of_lt (Nat.le_add_right _ _) hfuel)
                have hfraction : fraction ('.' :: d :: rest) =
                    '.' :: (d :: rest).takeWhile Char.isDigit := if_pos hd
                obtain ⟨b', hb', -⟩ := encode_cons_of_lt (c := '.') (by decide)
                  ((d :: rest).takeWhile Char.isDigit)
                rw [if_pos ⟨rfl, by simpa using hd⟩, bind_of_eq (advance_eq hfaces), hrun, hfraction,
                  hb', ByteReader.move_move, List.length_cons, Nat.add_comm]
            | false =>
                have hfraction : fraction ('.' :: d :: rest) = [] := if_neg (by simp [hd])
                rw [if_neg (by simp [hd]), hfraction]
                rfl
      · have hnone : ¬ (Char.ofUInt8 ((encode (c :: cs)).head?.getD 0) = '.' ∧
            (Char.ofUInt8 ((encode (c :: cs)).tail.head?.getD 0)).isDigit = true) := by
          rintro ⟨hsame, -⟩
          simp [hsame, hc] at hpoint
        have hfraction : fraction (c :: cs) = [] := by
          unfold fraction
          split
          · exact absurd (List.cons.inj ‹_›).1 hc
          · rfl
        rw [if_neg hnone, hfraction]
        rfl

theorem count_takeWhile
    {q : Char → Bool}
    (hq : q '\n' = false)
    (cs : List Char) :
    (cs.takeWhile q).count '\n' = 0 := by
  refine List.count_eq_zero.mpr fun hmem => ?_
  rw [List.mem_takeWhile_imp hmem] at hq
  cases hq

theorem count_fraction
    (cs : List Char) :
    (fraction cs).count '\n' = 0 := by
  fun_cases fraction cs with
  | case1 d rest hd =>
      rw [List.count_cons_of_ne (by decide), count_takeWhile (by decide)]
  | case2 | case3 =>
      rfl

theorem utf8Len_dropWhile_le
    (q : Char → Bool)
    (cs : List Char) :
    String.utf8Len (cs.dropWhile q) ≤ String.utf8Len cs := by
  nth_rewrite 2 [← List.takeWhile_append_dropWhile (p := q) (l := cs)]
  rw [String.utf8Len_append]
  exact Nat.le_add_left _ _

/-- Behind a digit the reader moves over the rest of the number, which is on one line. -/
theorem exists_skipNumber_eq
    {c : Char}
    (h : k.At source (before ++ [c]) cs)
    (hdigit : c.isDigit)
    (hfuel : String.utf8Len cs < fuel) :
    ∃ digits, (Piece.splitNumber (c :: cs)).1 = c :: digits ∧ digits.count '\n' = 0 ∧
      skipNumber fuel source k = some ((), k.move (encode digits).length) := by
  have hskip := skipRun_text bytewise_isDigit (by decide) h hfuel
  have hfraction := skipFraction_eq (h.move_takeWhile Char.isDigit)
    (Nat.lt_of_le_of_lt (utf8Len_dropWhile_le _ _) hfuel)
  refine ⟨cs.takeWhile Char.isDigit ++ fraction (cs.dropWhile Char.isDigit), ?_, ?_, ?_⟩
  · rw [splitNumber_eq_fraction, List.takeWhile_cons_of_pos hdigit,
      List.dropWhile_cons_of_pos hdigit, List.cons_append]
  · rw [List.count_append, count_takeWhile (by decide), count_fraction]
  · rw [skipNumber, bind_of_eq hskip, hfraction, ByteReader.move_move, encode_append,
      List.length_append]

theorem readNumber_reads
    {c : Char}
    (h : k.At source (before ++ [c]) cs)
    (hdigit : c.isDigit)
    (hstart : k.start = String.utf8Len before)
    (hfuel : String.utf8Len cs < fuel) :
    (readNumber fuel).Reads source k before ⟨.token .number, (Piece.splitNumber (c :: cs)).1⟩ := by
  obtain ⟨digits, hnumber, hcount, hskip⟩ := exists_skipNumber_eq h hdigit hfuel
  have hwhole : source.toList = before ++ (c :: digits ++ (Piece.splitNumber (c :: cs)).2) := by
    rw [h.whole, ← hnumber, Piece.splitNumber_append, List.append_assoc, List.singleton_append]
  have hstop : k.current + (encode digits).length = String.utf8Len (before ++ c :: digits) := by
    rw [utf8Len_append_cons, ← h.current, length_encode]
  have htext := text_eq (k := k.move (encode digits).length) hwhole
  have hfits := Stretch.fits hwhole
  rw [← hstop, ← hstart] at htext hfits
  have hread : readNumber fuel source k = some
      (.pending .number (some (.number (Token.numberValue (String.ofList (c :: digits))))),
        (k.move (encode digits).length).take ⟨k.start, k.current + (encode digits).length⟩) := by
    rw [readNumber, bind_of_eq hskip, bind_of_eq here_eq]
    exact bind_of_eq htext
  have hne : c ≠ '\n' := by
    rintro rfl
    cases hdigit
  rw [hnumber]
  refine .of_eq hread rfl (.of_fits hfits rfl hstop ?_ rfl)
  rw [Piece.lineBreaks, List.count_cons_of_ne hne, hcount]
  rfl

theorem isWordChar_of_le
    {c : Char}
    (hc : 0x80 ≤ c.toNat) :
    Piece.isWordChar c = false := by
  rw [Bool.eq_false_iff]
  intro hword
  rcases isWordChar_iff.mp hword with (⟨-, hlast⟩ | ⟨-, hlast⟩ | rfl) | ⟨-, hlast⟩
  · have hlast : c.toNat ≤ 122 := hlast
    omega
  · have hlast : c.toNat ≤ 90 := hlast
    omega
  · exact absurd hc (by decide)
  · have hlast : c.toNat ≤ 57 := hlast
    omega

theorem bytewise_isWordChar : Bytewise Piece.isWordChar :=
  .of_const false fun _ => isWordChar_of_le

theorem wordKind_encode
    (word : List Char) :
    wordKind (encode word) = Piece.wordKind word := by
  have hsame : (fun k : Keyword => decide (bytes k.spelling = encode word)) =
      fun k => decide (k.spelling = String.ofList word) := by
    funext k
    rw [decide_eq_decide, bytes_eq_encode, encode_injective.eq_iff, ← String.toList_inj,
      String.toList_ofList]
  rw [wordKind, hsame]
  rfl

/-- A word denotes nothing. -/
theorem found_wordKind
    (word text : List Char)
    (line : Nat) :
    found ⟨.token (Piece.wordKind word), text⟩ line = .pending (Piece.wordKind word) none := by
  unfold Piece.wordKind
  cases Keyword.ofSpelling? (String.ofList word) <;> rfl

theorem readWord_reads
    {c : Char}
    (h : k.At source (before ++ [c]) cs)
    (hletter : Letter c)
    (hstart : k.start = String.utf8Len before)
    (hfuel : String.utf8Len cs < fuel) :
    (readWord fuel).Reads source k before
      ⟨.token (Piece.wordKind (c :: cs.takeWhile Piece.isWordChar)),
        c :: cs.takeWhile Piece.isWordChar⟩ := by
  have hskip := skipRun_text bytewise_isWordChar (by decide) h hfuel
  have hwhole : source.toList = before ++
      ((c :: cs.takeWhile Piece.isWordChar) ++ cs.dropWhile Piece.isWordChar) := by
    rw [h.whole, List.cons_append, List.takeWhile_append_dropWhile, List.append_assoc,
      List.singleton_append]
  have hstop : k.current + (encode (cs.takeWhile Piece.isWordChar)).length =
      String.utf8Len (before ++ c :: cs.takeWhile Piece.isWordChar) := by
    rw [utf8Len_append_cons, ← h.current, length_encode]
  have hraw := raw_eq (k := k.move (encode (cs.takeWhile Piece.isWordChar)).length) hwhole
  rw [← hstop, ← hstart] at hraw
  have hread : readWord fuel source k = some
      (.pending (Piece.wordKind (c :: cs.takeWhile Piece.isWordChar)) none,
        k.move (encode (cs.takeWhile Piece.isWordChar)).length) := by
    rw [readWord, bind_of_eq hskip, bind_of_eq here_eq, ← wordKind_encode]
    exact bind_of_eq hraw
  have hne : c ≠ '\n' := by
    rintro rfl
    exact absurd hletter (by decide)
  refine .of_eq hread (found_wordKind _ _ _) (.of_taken_eq rfl hstop ?_ rfl)
  rw [Piece.lineBreaks, List.count_cons_of_ne hne, count_takeWhile (by decide)]
  rfl

/-! ## Comments -/

theorem skipLine_eq
    {rest : List UInt8}
    (h : k.Faces source rest) :
    skipLine source k = some (.nothing,
      k.move (rest.takeWhile fun b => decide (Char.ofUInt8 b ≠ '\n')).length) := by
  have hrun : (rest.takeWhile fun b => decide (Char.ofUInt8 b ≠ '\n')).length =
      rest.findIdx fun b => decide (Char.ofUInt8 b = '\n') := by
    rw [List.takeWhile_eq_take_findIdx_not, List.length_take]
    simp only [decide_not, Bool.not_not]
    exact Nat.min_eq_left List.findIdx_le_length
  rw [skipLine, bind_of_eq (ahead_eq h), hrun]
  cases hfind : rest.findIdx? fun b => decide (Char.ofUInt8 b = '\n') with
  | none =>
      rw [List.findIdx?_eq_none_iff_findIdx_eq.mp hfind]
      exact (bind_of_eq size_eq).trans (bind_of_eq (goTo_size_eq h))
  | some distance =>
      rw [(List.findIdx?_eq_some_iff_findIdx_eq.mp hfind).2]
      rfl

theorem skipLine_reads
    (h : k.At source (before ++ ['/', '/']) cs) :
    skipLine.Reads source k before
      ⟨.lineComment, '/' :: '/' :: cs.takeWhile fun c => decide (c ≠ '\n')⟩ := by
  have hread := skipLine_eq h.faces
  rw [takeWhile_encode (bytewise_ne (by decide))] at hread
  refine .of_eq hread rfl (.of_taken_eq rfl ?_ ?_ rfl)
  · change k.current + _ = String.utf8Len (before ++ (['/', '/'] ++ _))
    rw [utf8Len_append_append, ← h.current, length_encode]
  · rw [Piece.lineBreaks, List.count_cons_of_ne (by decide), List.count_cons_of_ne (by decide),
      count_takeWhile (by decide)]
    rfl

theorem findMark_append
    {run : List UInt8}
    (h : ∀ b ∈ run, Char.ofUInt8 b ≠ '*')
    (rest : List UInt8) :
    findMark (run ++ rest) = (findMark rest).map (· + run.length) := by
  induction run with
  | nil =>
      simp
  | cons b run ih =>
      have hb : ¬ (Char.ofUInt8 b = '*' ∧
          (run ++ rest).head?.map Char.ofUInt8 = some '/') :=
        fun hmark => h b List.mem_cons_self hmark.1
      rw [List.cons_append, findMark, if_neg hb,
        ih (fun b' hb' => h b' (List.mem_cons_of_mem b hb')), Option.map_map]
      congr 1

theorem head_encode_eq_some
    {sign : Char}
    (hsign : sign.toNat < 0x80)
    (cs : List Char) :
    (encode cs).head?.map Char.ofUInt8 = some sign ↔ cs.head? = some sign := by
  cases cs with
  | nil =>
      simp
  | cons c cs =>
      cases hbytes : String.utf8EncodeChar c with
      | nil =>
          exact absurd hbytes String.utf8EncodeChar_ne_nil
      | cons b bs =>
          have hb : decide (Char.ofUInt8 b = sign) = decide (c = sign) :=
            bytewise_eq hsign c b (hbytes ▸ List.mem_cons_self)
          rw [encode_cons, hbytes]
          simpa using hb

/-- The end mark of a comment stands where the comment ends in the text. -/
theorem findMark_encode
    (cs : List Char) :
    (findMark (encode cs)).map (· + 2) =
      (Piece.splitComment? cs).map fun split => String.utf8Len split.1 := by
  fun_induction Piece.splitComment? cs with
  | case1 rest =>
      obtain ⟨b, hb, hstar⟩ := encode_cons_of_lt (c := '*') (by decide) ('/' :: rest)
      have hslash := (head_encode_eq_some (by decide) ('/' :: rest)).mpr rfl
      rw [hb, findMark, if_pos ⟨hstar, hslash⟩]
      rfl
  | case2 c rest hnot ih =>
      -- No byte of this character begins a mark, so that the search goes on behind it.
      have hpass : findMark (encode (c :: rest)) =
          (findMark (encode rest)).map (· + c.utf8Size) := by
        by_cases hc : c = '*'
        · subst hc
          obtain ⟨b, hb, -⟩ := encode_cons_of_lt (c := '*') (by decide) rest
          have hslash : ¬ (encode rest).head?.map Char.ofUInt8 = some '/' := by
            intro hmark
            obtain ⟨after, hafter⟩ := List.head?_eq_some_iff.mp
              ((head_encode_eq_some (by decide) rest).mp hmark)
            exact hnot after rfl hafter
          rw [hb, findMark, if_neg fun hmark => hslash hmark.2]
          rfl
        · have hbytes : ∀ b ∈ String.utf8EncodeChar c, Char.ofUInt8 b ≠ '*' := by
            intro b hb
            have hsame : decide (Char.ofUInt8 b ≠ '*') = decide (c ≠ '*') :=
              bytewise_ne (by decide) c b hb
            simpa [hc] using hsame
          rw [encode_cons, findMark_append hbytes, String.length_utf8EncodeChar]
      have hbehind := congrArg (Option.map (· + c.utf8Size)) ih
      rw [hpass]
      simpa [Option.map_map, Function.comp_def, Nat.add_right_comm] using hbehind
  | case3 =>
      rfl

theorem skipComment_closed
    {text after : List Char}
    (h : k.At source (before ++ ['/', '*']) cs)
    (hsplit : Piece.splitComment? cs = some (text, after)) :
    skipComment.Reads source k before ⟨.blockComment, '/' :: '*' :: text⟩ := by
  obtain ⟨body, rfl, -⟩ := Piece.exists_body_of_splitComment? hsplit
  have hcs : encode cs = encode body ++ encode (['*', '/'] ++ after) := by
    rw [← Piece.append_of_splitComment? hsplit, List.append_assoc, encode_append]
  have hmark : findMark (encode cs) = some (encode body).length := by
    have hmap := findMark_encode cs
    rw [hsplit, Option.map_some, String.utf8Len_append, ← length_encode body] at hmap
    obtain ⟨distance, hfind, hdistance⟩ := Option.map_eq_some_iff.mp hmap
    rw [hfind, Nat.add_right_cancel hdistance]
  have hread : skipComment source k = some (.nothing,
      (k.count (encode body)).move ((encode body).length + 2)) := by
    rw [skipComment, bind_of_eq (ahead_eq h.faces), hmark]
    dsimp only
    rw [hcs, List.take_left]
    rfl
  refine .of_eq hread rfl (.of_taken_eq rfl ?_ ?_ rfl)
  · change k.current + _ = String.utf8Len (before ++ (['/', '*'] ++ (body ++ ['*', '/'])))
    rw [utf8Len_append_append, ← h.current, String.utf8Len_append, length_encode]
    rfl
  · change (k.count (encode body)).line = _
    rw [line_count_encode]
    simp [Piece.lineBreaks]

theorem skipComment_open
    (h : k.At source (before ++ ['/', '*']) cs)
    (hsplit : Piece.splitComment? cs = none) :
    skipComment.Reads source k before ⟨.openComment, '/' :: '*' :: cs⟩ := by
  have hmark : findMark (encode cs) = none := by
    have hmap := findMark_encode cs
    rw [hsplit, Option.map_none] at hmap
    exact Option.map_eq_none_iff.mp hmap
  have hread : skipComment source k = some
      (.fault (k.count (encode cs)).line .unterminatedComment,
        (k.count (encode cs)).move (encode cs).length) := by
    have hcount : count (encode cs) source k = some ((), k.count (encode cs)) := rfl
    rw [skipComment, bind_of_eq (ahead_eq h.faces), hmark]
    dsimp only
    rw [bind_of_eq hcount, bind_of_eq size_eq, bind_of_eq (goTo_size_eq (h.count _).faces)]
    rfl
  have hbreaks : Piece.lineBreaks ⟨.openComment, '/' :: '*' :: cs⟩ = cs.count '\n' := by
    simp [Piece.lineBreaks]
  refine .of_eq hread ?_ (.of_taken_eq rfl ?_ ?_ rfl)
  · rw [hbreaks, line_count_encode]
    rfl
  · change k.current + _ = String.utf8Len (before ++ (['/', '*'] ++ cs))
    rw [utf8Len_append_append, ← h.current, length_encode]
  · rw [hbreaks]
    exact line_count_encode k cs

/-! ## Signs -/

section Signs

variable {sign : Char}

theorem accept_of_head
    (hsign : sign.toNat < 0x80)
    (h : k.At source before (sign :: cs)) :
    accept sign source k = some (true, k.move 1) := by
  obtain ⟨b, hb, hsame⟩ := encode_cons_of_lt hsign cs
  have hfaces := h.faces
  rw [hb] at hfaces
  rw [accept, bind_of_eq (atEnd_eq hfaces), bind_of_eq (peek_eq hfaces), List.isEmpty_cons,
    List.head?_cons, Option.getD_some, if_pos ⟨rfl, hsame⟩]
  exact bind_of_eq (advance_eq hfaces)

theorem accept_of_ne
    (hsign : sign.toNat < 0x80)
    (h : k.At source before cs)
    (hne : cs.head? ≠ some sign) :
    accept sign source k = some (false, k) := by
  rw [accept, bind_of_eq (atEnd_eq h.faces), bind_of_eq (peek_eq h.faces), if_neg]
  · rfl
  · rintro ⟨hsome, hsame⟩
    apply hne
    rw [← head_encode_eq_some hsign]
    cases hbytes : encode cs with
    | nil =>
        rw [hbytes] at hsome
        cases hsome
    | cons b bs =>
        rw [hbytes] at hsame
        exact congrArg some hsame

end Signs

theorem leadSign_slash
    (hslash : cs.head? ≠ some '/')
    (hstar : cs.head? ≠ some '*') :
    (Piece.leadSign '/' cs).1 = ⟨.token (.punct .slash), ['/']⟩ := by
  unfold Piece.leadSign
  split
  · exact absurd rfl hslash
  · exact absurd rfl hstar
  · rfl
  · rfl

/-- A character that starts nothing is passed with all of its bytes. -/
theorem skipStray_reads
    {c : Char}
    (hwhole : source.toList = before ++ c :: cs)
    (hline : c ≠ '\n')
    (hstart : k.start = String.utf8Len before) :
    skipStray.Reads source k before ⟨.stray, [c]⟩ := by
  have hall : source.toList = before ++ (c :: cs ++ []) := by
    rw [hwhole, List.append_nil]
  have hstop : (bytes source).length = String.utf8Len (before ++ c :: cs) := by
    rw [length_bytes, hwhole]
  have htext := text_eq (k := k) hall
  have hfits := Stretch.fits hall
  rw [← hstop, ← hstart] at htext hfits
  have hread : skipStray source k = some (.fault k.line (.unexpected c),
      { k.take ⟨k.start, (bytes source).length⟩ with current := k.start + c.utf8Size }) := by
    rw [skipStray, bind_of_eq here_eq, bind_of_eq size_eq, bind_of_eq htext, String.toList_ofList]
    rfl
  have hbreaks : Piece.lineBreaks ⟨.stray, [c]⟩ = 0 := by
    rw [Piece.lineBreaks, List.count_singleton, if_neg (by simpa using hline)]
  refine .of_eq hread ?_ (.of_fits hfits rfl ?_ ?_ rfl)
  · rw [hbreaks]
    rfl
  · change k.start + c.utf8Size = _
    rw [hstart, String.utf8Len_append]
    simp
  · rw [hbreaks]
    rfl

theorem exists_oneSign
    {c : Char}
    {long : Punct}
    (h : Piece.twoSigns? c = some long) :
    ∃ short, Piece.oneSign? c = some short := by
  unfold Piece.twoSigns? at h
  split at h <;> cases h <;> exact ⟨_, rfl⟩

/-- A mark of one sign is passed with that sign. -/
theorem reads_oneSign
    {c : Char}
    {mark : Punct}
    {m : ByteRead Found}
    (h : k.At source (before ++ [c]) cs)
    (hline : c ≠ '\n')
    (hread : m source k = some (.pending (.punct mark) none, k)) :
    m.Reads source k before ⟨.token (.punct mark), [c]⟩ := by
  refine .of_eq hread rfl (.of_taken_eq rfl h.current ?_ rfl)
  rw [Piece.lineBreaks, List.count_singleton, if_neg (by simpa using hline)]
  rfl

theorem reads_twoSigns
    {c : Char}
    {mark : Punct}
    {m : ByteRead Found}
    (h : k.At source (before ++ [c]) cs)
    (hline : c ≠ '\n')
    (hread : m source k = some (.pending (.punct mark) none, k.move 1)) :
    m.Reads source k before ⟨.token (.punct mark), [c, '=']⟩ := by
  refine .of_eq hread rfl (.of_taken_eq rfl ?_ ?_ rfl)
  · rw [utf8Len_append_cons, ← h.current]
    rfl
  · rw [Piece.lineBreaks, List.count_cons_of_ne hline]
    rfl

theorem readSlash_reads
    (h : k.At source (before ++ ['/']) cs) :
    readSlash.Reads source k before (Piece.leadSign '/' cs).1 := by
  by_cases hslash : cs.head? = some '/'
  · obtain ⟨rest, rfl⟩ := List.head?_eq_some_iff.mp hslash
    have hbehind := h.move_one (by decide)
    rw [List.append_assoc] at hbehind
    exact (skipLine_reads hbehind).of_move (bind_of_eq (accept_of_head (by decide) h))
  have hline : accept '/' source k = some (false, k) := accept_of_ne (by decide) h hslash
  by_cases hstar : cs.head? = some '*'
  · obtain ⟨rest, rfl⟩ := List.head?_eq_some_iff.mp hstar
    have hbehind := h.move_one (by decide)
    rw [List.append_assoc] at hbehind
    have hstep : readSlash source k = skipComment source (k.move 1) :=
      (bind_of_eq hline).trans (bind_of_eq (accept_of_head (by decide) h))
    cases hsplit : Piece.splitComment? rest with
    | none =>
        simp only [Piece.leadSign, hsplit]
        exact (skipComment_open hbehind hsplit).of_move hstep
    | some split =>
        simp only [Piece.leadSign, hsplit]
        exact (skipComment_closed hbehind hsplit).of_move hstep
  · rw [leadSign_slash hslash hstar]
    refine reads_oneSign h (by decide) ?_
    exact (bind_of_eq hline).trans (bind_of_eq (accept_of_ne (by decide) h hstar))

theorem readSign_reads
    {c : Char}
    (h : k.At source (before ++ [c]) cs)
    (hsign : Sign c)
    (hslash : c ≠ '/')
    (hstart : k.start = String.utf8Len before) :
    (readSign c).Reads source k before (Piece.leadSign c cs).1 := by
  have hline : c ≠ '\n' := by
    rintro rfl
    exact hsign.not_blank (by decide)
  have hwhole : source.toList = before ++ c :: cs := by
    rw [h.whole, List.append_assoc, List.singleton_append]
  fun_cases Piece.leadSign c cs with
  | case1 | case2 | case3 =>
      exact absurd rfl hslash
  | case4 c rest mark htwo =>
      obtain ⟨short, hone⟩ := exists_oneSign htwo
      refine reads_twoSigns h hline ?_
      rw [readSign, htwo, hone]
      exact bind_of_eq (accept_of_head (by decide) h)
  | case5 c rest mark hone htwo =>
      refine reads_oneSign h hline ?_
      rw [readSign, htwo, hone]
      rfl
  | case6 c rest hone htwo =>
      rw [readSign, htwo, hone]
      exact skipStray_reads hwhole hline hstart
  | case7 c cs _ _ hequal mark hone =>
      refine reads_oneSign h hline ?_
      cases htwo : Piece.twoSigns? c with
      | none =>
          rw [readSign, htwo, hone]
          rfl
      | some long =>
          have hne : cs.head? ≠ some '=' := by
            intro hhead
            obtain ⟨rest, hrest⟩ := List.head?_eq_some_iff.mp hhead
            exact hequal rest hrest
          rw [readSign, htwo, hone]
          exact bind_of_eq (accept_of_ne (by decide) h hne)
  | case8 c cs _ _ hequal hone =>
      have hread : readSign c = skipStray := by
        rw [readSign, hone]
        cases Piece.twoSigns? c <;> rfl
      rw [hread]
      exact skipStray_reads hwhole hline hstart

/-! ## The first byte tells -/

/-- The signs of marks are among the first 128 characters. -/
theorem lt_of_oneSign
    {c : Char}
    {mark : Punct}
    (h : Piece.oneSign? c = some mark) :
    c.toNat < 0x80 := by
  unfold Piece.oneSign? at h
  split at h <;> cases h <;> decide

/-- Beyond the first 128 characters there is none that starts anything. -/
theorem sign_of_le
    {c : Char}
    (h : 0x80 ≤ c.toNat) :
    Sign c ∧ c ≠ '/' ∧ Piece.twoSigns? c = none ∧ Piece.oneSign? c = none := by
  have hne : ∀ sign : Char, sign.toNat < 0x80 → c ≠ sign := by
    rintro sign hsign rfl
    omega
  have hword : ¬ (Letter c ∨ Digit c) := by
    rw [← isWordChar_iff, isWordChar_of_le h]
    simp
  have hblank : ¬ Blank c := by
    rintro (rfl | rfl | rfl | rfl) <;> exact absurd h (by decide)
  have hone : ∀ mark, Piece.oneSign? c ≠ some mark := by
    intro mark hmark
    have hlt := lt_of_oneSign hmark
    omega
  refine ⟨⟨hblank, hne _ (by decide), fun hdigit => hword (.inr hdigit), fun hletter =>
    hword (.inl hletter)⟩, hne _ (by decide), ?_, Option.eq_none_iff_forall_ne_some.mpr hone⟩
  apply Option.eq_none_iff_forall_ne_some.mpr
  intro long hlong
  obtain ⟨short, hshort⟩ := exists_oneSign hlong
  exact hone short hshort

theorem lead_of_le
    {c : Char}
    (h : 0x80 ≤ c.toNat)
    (cs : List Char) :
    Piece.lead c cs = (⟨.stray, [c]⟩, cs) := by
  obtain ⟨hsign, hslash, htwo, hone⟩ := sign_of_le h
  rw [Piece.lead_of_sign hsign]
  fun_cases Piece.leadSign c cs with
  | case1 | case2 | case3 =>
      exact absurd rfl hslash
  | case4 c rest mark hmark =>
      rw [htwo] at hmark
      cases hmark
  | case5 c rest mark hmark | case7 c cs _ _ _ mark hmark =>
      rw [hone] at hmark
      cases hmark
  | case6 | case8 =>
      rfl

theorem readBehind_of_sign
    {b : UInt8}
    (h : Sign (Char.ofUInt8 b))
    (hslash : Char.ofUInt8 b ≠ '/') :
    readBehind fuel b = readSign (Char.ofUInt8 b) := by
  have hblank : ¬ Piece.isBlank (Char.ofUInt8 b) := fun hc => h.not_blank (isBlank_iff.mp hc)
  have hdigit : ¬ (Char.ofUInt8 b).isDigit := fun hc => h.not_digit (isDigit_iff.mp hc)
  have hletter : ¬ Piece.isWordStart (Char.ofUInt8 b) :=
    fun hc => h.not_letter (isWordStart_iff.mp hc)
  rw [readBehind, if_neg hblank, if_neg h.not_quote, if_neg hdigit, if_neg hletter, if_neg hslash]

theorem readBehind_blank
    {b : UInt8}
    (h : k.At source (before ++ [Char.ofUInt8 b]) cs)
    (hb : encode [Char.ofUInt8 b] = [b])
    (hblank : Piece.isBlank (Char.ofUInt8 b)) :
    (readBehind fuel b).Reads source k before ⟨.blank, [Char.ofUInt8 b]⟩ := by
  have hread : readBehind fuel b source k = some (.nothing, k.count [b]) := by
    rw [readBehind, if_pos hblank]
    rfl
  refine .of_eq hread rfl (.of_taken_eq rfl h.current ?_ rfl)
  rw [← hb]
  exact line_count_encode k _

/-- One of the first 128 characters tells what it opens. -/
theorem readBehind_reads
    {b : UInt8}
    (h : k.At source (before ++ [Char.ofUInt8 b]) cs)
    (hb : encode [Char.ofUInt8 b] = [b])
    (hstart : k.start = String.utf8Len before)
    (hfuel : String.utf8Len cs < fuel) :
    (readBehind fuel b).Reads source k before (Piece.lead (Char.ofUInt8 b) cs).1 := by
  by_cases hblank : Piece.isBlank (Char.ofUInt8 b)
  · rw [Piece.lead_of_blank (isBlank_iff.mp hblank)]
    exact readBehind_blank h hb hblank
  by_cases hquote : Char.ofUInt8 b = '"'
  · rw [readBehind, if_neg hblank, if_pos hquote]
    rw [hquote] at h ⊢
    exact readString_reads h hstart hfuel
  by_cases hdigit : (Char.ofUInt8 b).isDigit
  · rw [readBehind, if_neg hblank, if_neg hquote, if_pos hdigit,
      Piece.lead_of_digit (isDigit_iff.mp hdigit)]
    exact readNumber_reads h hdigit hstart hfuel
  by_cases hletter : Piece.isWordStart (Char.ofUInt8 b)
  · rw [readBehind, if_neg hblank, if_neg hquote, if_neg hdigit, if_pos hletter,
      Piece.lead_of_letter (isWordStart_iff.mp hletter)]
    exact readWord_reads h (isWordStart_iff.mp hletter) hstart hfuel
  have hsign : Sign (Char.ofUInt8 b) :=
    ⟨fun hc => hblank (isBlank_iff.mpr hc), hquote, fun hc => hdigit (isDigit_iff.mpr hc),
      fun hc => hletter (isWordStart_iff.mpr hc)⟩
  rw [Piece.lead_of_sign hsign]
  by_cases hslash : Char.ofUInt8 b = '/'
  · rw [readBehind, if_neg hblank, if_neg hquote, if_neg hdigit, if_neg hletter, if_pos hslash]
    rw [hslash] at h ⊢
    exact readSlash_reads h
  · rw [readBehind_of_sign hsign hslash]
    exact readSign_reads h hsign hslash hstart

/-- A piece is told by its first byte, and passed as it is cut off. -/
theorem readPiece_reads
    {c : Char}
    (h : k.At source before (c :: cs))
    (hstart : k.start = String.utf8Len before)
    (hfuel : String.utf8Len (c :: cs) < fuel) :
    (readPiece fuel).Reads source k before (Piece.lead c cs).1 := by
  have hfaces := h.faces
  by_cases hc : c.toNat < 0x80
  · obtain ⟨b, hb, rfl⟩ := utf8EncodeChar_of_lt hc
    rw [encode_cons, hb, List.singleton_append] at hfaces
    have hsingle : encode [Char.ofUInt8 b] = [b] := by
      rw [encode_cons, hb]
      rfl
    have hrest : String.utf8Len cs < fuel := by
      rw [String.utf8Len_cons] at hfuel
      omega
    exact (readBehind_reads (h.move_one hc) hsingle hstart hrest).of_move
      (bind_of_eq (advance_eq hfaces))
  · have hle : 0x80 ≤ c.toNat := Nat.le_of_not_lt hc
    cases hbytes : String.utf8EncodeChar c with
    | nil =>
        exact absurd hbytes String.utf8EncodeChar_ne_nil
    | cons b bs =>
        -- The lead byte is none of the first 128 either, so that it is taken for a sign.
        have hb : 0x80 ≤ (Char.ofUInt8 b).toNat :=
          le_of_mem_utf8EncodeChar hle (hbytes ▸ List.mem_cons_self)
        obtain ⟨hsign, hslash, htwo, hone⟩ := sign_of_le hb
        have hread : readBehind fuel b = skipStray := by
          rw [readBehind_of_sign hsign hslash, readSign, htwo, hone]
        have hline : c ≠ '\n' := by
          rintro rfl
          exact absurd hle (by decide)
        rw [encode_cons, hbytes, List.cons_append] at hfaces
        rw [lead_of_le hle]
        have hstep := bind_of_eq (f := readBehind fuel) (advance_eq hfaces)
        rw [hread] at hstep
        have hstray : skipStray.Reads source (k.move 1) before ⟨.stray, [c]⟩ :=
          skipStray_reads h.whole hline hstart
        exact hstray.of_move hstep

end ByteRead

end Scan

end Lox
