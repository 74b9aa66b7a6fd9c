import Lox.Proofs.Token.Words
import Mathlib.Data.List.TakeWhile

/-!
# The token grammar

Which texts are tokens, said without a scanner: marks and keywords by their spelling, names,
numerals and quoted texts by their form.  The first sign of a lexeme tells its class, so a lexeme
has one kind only; and a lexeme with a blank or nothing behind it is cut off as one piece.
-/

namespace Lox

namespace Lexeme

/-- Letters, among which the underscore counts. -/
def Letter (c : Char) : Prop :=
  ('a' ≤ c ∧ c ≤ 'z') ∨ ('A' ≤ c ∧ c ≤ 'Z') ∨ c = '_'

/-- Decimal digits. -/
def Digit (c : Char) : Prop :=
  '0' ≤ c ∧ c ≤ '9'

/-- Spaces, tabulators and the signs that end lines. -/
def Blank (c : Char) : Prop :=
  c = ' ' ∨ c = '\t' ∨ c = '\r' ∨ c = '\n'

instance : DecidablePred Letter :=
  fun c => inferInstanceAs (Decidable (('a' ≤ c ∧ c ≤ 'z') ∨ ('A' ≤ c ∧ c ≤ 'Z') ∨ c = '_'))

instance : DecidablePred Digit :=
  fun c => inferInstanceAs (Decidable ('0' ≤ c ∧ c ≤ '9'))

instance : DecidablePred Blank :=
  fun c => inferInstanceAs (Decidable (c = ' ' ∨ c = '\t' ∨ c = '\r' ∨ c = '\n'))

/-- Words start with a letter and go on with letters and digits. -/
def Word (text : List Char) : Prop :=
  ∃ c cs, text = c :: cs ∧ Letter c ∧ ∀ d ∈ cs, Letter d ∨ Digit d

/-- Digits, at least one. -/
def Digits (text : List Char) : Prop :=
  text ≠ [] ∧ ∀ d ∈ text, Digit d

/-- Numerals are digits, or digits on both sides of a point. -/
def Numeral (text : List Char) : Prop :=
  ∃ whole, Digits whole ∧
    (text = whole ∨ ∃ part, Digits part ∧ text = whole ++ '.' :: part)

/-- Quoted texts have a quote at both ends and none between. -/
def Quoted (text : List Char) : Prop :=
  ∃ body, '"' ∉ body ∧ text = '"' :: (body ++ ['"'])

end Lexeme

open Lexeme

/-- The texts of the tokens of a kind. -/
inductive Lexeme : Token.Kind → List Char → Prop
  | punct
      (mark : Punct) :
      Lexeme (.punct mark) mark.spelling.toList
  | keyword
      (k : Keyword) :
      Lexeme (.keyword k) k.spelling.toList
  | identifier
      {text : List Char}
      (hword : Word text)
      (hname : ∀ k : Keyword, text ≠ k.spelling.toList) :
      Lexeme .identifier text
  | number
      {text : List Char}
      (hnumeral : Numeral text) :
      Lexeme .number text
  | string
      {text : List Char}
      (hquoted : Quoted text) :
      Lexeme .string text

section Classes

variable {c : Char}

theorem isBlank_iff : Piece.isBlank c ↔ Blank c := by
  simp [Piece.isBlank, Blank, or_assoc]

theorem isDigit_iff : c.isDigit ↔ Digit c := by
  simp [Char.isDigit, Digit, Char.le_def]

theorem isWordStart_iff : Piece.isWordStart c ↔ Letter c := by
  have hupper : c.isUpper ↔ 'A' ≤ c ∧ c ≤ 'Z' := decide_eq_true_iff
  have hlower : c.isLower ↔ 'a' ≤ c ∧ c ≤ 'z' := by
    apply (Bool.and_eq_true_iff).trans
    exact and_congr decide_eq_true_iff decide_eq_true_iff
  have halpha : c.isAlpha ↔ c.isUpper ∨ c.isLower := Bool.or_eq_true_iff
  rw [Piece.isWordStart, Bool.or_eq_true_iff, halpha, hupper, hlower, decide_eq_true_iff, Letter]
  grind

theorem isWordChar_iff : Piece.isWordChar c ↔ Letter c ∨ Digit c := by
  rw [← isWordStart_iff, ← isDigit_iff]
  simp only [Piece.isWordChar, Piece.isWordStart, Char.isAlphanum, Bool.or_eq_true]
  grind

/-- Signs that are neither blanks nor quotes nor part of words and numerals. -/
structure Lexeme.Sign (c : Char) : Prop where
  not_blank : ¬ Blank c
  not_quote : c ≠ '"'
  not_digit : ¬ Digit c
  not_letter : ¬ Letter c

theorem Lexeme.Digit.not_letter
    (h : Digit c) :
    ¬ Letter c := by
  simp only [Digit, Letter, Char.le_def, UInt32.le_iff_toNat_le] at h ⊢
  change 48 ≤ c.val.toNat ∧ c.val.toNat ≤ 57 at h
  rintro (⟨hleast, -⟩ | ⟨hleast, -⟩ | rfl)
  · change 97 ≤ c.val.toNat at hleast
    omega
  · change 65 ≤ c.val.toNat at hleast
    omega
  · exact absurd h (by decide)

theorem Lexeme.Blank.not_wordChar
    (h : Blank c) :
    ¬ (Letter c ∨ Digit c) := by
  rcases h with rfl | rfl | rfl | rfl <;> decide

end Classes

/-! ## The first sign tells the class -/

theorem Keyword.word
    (k : Keyword) :
    Word k.spelling.toList := by
  have hchars : ∀ d ∈ k.spelling.toList, Piece.isWordChar d := by
    rw [← List.all_eq_true]
    cases k <;> rfl
  cases htext : k.spelling.toList with
  | nil =>
      cases k <;> cases htext
  | cons c cs =>
      have hletter : Letter c := by
        cases k <;> cases htext <;> decide
      refine ⟨c, cs, rfl, hletter, ?_⟩
      intro d hd
      rw [htext] at hchars
      exact isWordChar_iff.mp (hchars d (List.mem_cons_of_mem c hd))

theorem Punct.sign
    {mark : Punct}
    {c : Char}
    {cs : List Char}
    (h : mark.spelling.toList = c :: cs) :
    Sign c := by
  cases mark <;> cases h <;> exact ⟨by decide, by decide, by decide, by decide⟩

namespace Lexeme

section Heads

variable {c : Char}
variable {cs : List Char}

theorem Word.head
    (h : Word (c :: cs)) :
    Letter c := by
  obtain ⟨d, ds, htext, hletter, -⟩ := h
  cases htext
  exact hletter

theorem Numeral.head
    (h : Numeral (c :: cs)) :
    Digit c := by
  obtain ⟨whole, ⟨hne, hdigits⟩, htext⟩ := h
  cases whole with
  | nil =>
      exact absurd rfl hne
  | cons d ds =>
      have hd : Digit d := hdigits d List.mem_cons_self
      rcases htext with htext | ⟨part, -, htext⟩
      · cases htext
        exact hd
      · cases htext
        exact hd

theorem Digits.isDigit
    {text : List Char}
    (h : Digits text) :
    ∀ c ∈ text, c.isDigit :=
  fun c hc => isDigit_iff.mpr (h.2 c hc)

theorem Quoted.head
    (h : Quoted (c :: cs)) :
    c = '"' := by
  obtain ⟨body, -, htext⟩ := h
  exact (List.cons.inj htext).1

variable {kind : Token.Kind}

/-- A lexeme is a mark, a word, a numeral or a quoted text, as its first sign says. -/
theorem opens
    (h : Lexeme kind (c :: cs)) :
    (Sign c ∧ ∃ mark : Punct, mark.spelling.toList = c :: cs) ∨
      (Letter c ∧ Word (c :: cs)) ∨
      (Digit c ∧ Numeral (c :: cs)) ∨
      (c = '"' ∧ Quoted (c :: cs)) := by
  generalize htext : c :: cs = text at h
  cases h with
  | punct mark =>
      exact .inl ⟨Punct.sign htext.symm, mark, rfl⟩
  | keyword k =>
      have hword := k.word
      exact .inr (.inl ⟨Word.head (htext ▸ hword), hword⟩)
  | identifier hword hname =>
      exact .inr (.inl ⟨Word.head (htext ▸ hword), hword⟩)
  | number hnumeral =>
      exact .inr (.inr (.inl ⟨Numeral.head (htext ▸ hnumeral), hnumeral⟩))
  | string hquoted =>
      exact .inr (.inr (.inr ⟨Quoted.head (htext ▸ hquoted), hquoted⟩))

theorem not_blank
    (h : Lexeme kind (c :: cs)) :
    ¬ Blank c := by
  intro hblank
  rcases h.opens with ⟨hsign, -⟩ | ⟨hletter, -⟩ | ⟨hdigit, -⟩ | ⟨rfl, -⟩
  · exact hsign.not_blank hblank
  · exact hblank.not_wordChar (.inl hletter)
  · exact hblank.not_wordChar (.inr hdigit)
  · exact absurd hblank (by decide)

theorem mark_of_sign
    (h : Lexeme kind (c :: cs))
    (hsign : Sign c) :
    ∃ mark : Punct, mark.spelling.toList = c :: cs := by
  rcases h.opens with ⟨-, hmark⟩ | ⟨hletter, -⟩ | ⟨hdigit, -⟩ | ⟨hquote, -⟩
  · exact hmark
  · exact absurd hletter hsign.not_letter
  · exact absurd hdigit hsign.not_digit
  · exact absurd hquote hsign.not_quote

theorem word_of_letter
    (h : Lexeme kind (c :: cs))
    (hletter : Letter c) :
    Word (c :: cs) := by
  rcases h.opens with ⟨hsign, -⟩ | ⟨-, hword⟩ | ⟨hdigit, -⟩ | ⟨rfl, -⟩
  · exact absurd hletter hsign.not_letter
  · exact hword
  · exact absurd hletter hdigit.not_letter
  · exact absurd hletter (by decide)

theorem numeral_of_digit
    (h : Lexeme kind (c :: cs))
    (hdigit : Digit c) :
    Numeral (c :: cs) := by
  rcases h.opens with ⟨hsign, -⟩ | ⟨hletter, -⟩ | ⟨-, hnumeral⟩ | ⟨rfl, -⟩
  · exact absurd hdigit hsign.not_digit
  · exact absurd hletter hdigit.not_letter
  · exact hnumeral
  · exact absurd hdigit (by decide)

theorem quoted_of_quote
    (h : Lexeme kind ('"' :: cs)) :
    Quoted ('"' :: cs) := by
  rcases h.opens with ⟨hsign, -⟩ | ⟨hletter, -⟩ | ⟨hdigit, -⟩ | ⟨-, hquoted⟩
  · exact absurd rfl hsign.not_quote
  · exact absurd hletter (by decide)
  · exact absurd hdigit (by decide)
  · exact hquoted

end Heads

theorem ne_nil
    {kind : Token.Kind}
    {text : List Char}
    (h : Lexeme kind text) :
    text ≠ [] := by
  cases h with
  | punct mark =>
      cases mark <;> simp [Punct.spelling]
  | keyword k =>
      cases k <;> simp [Keyword.spelling]
  | identifier hword hname =>
      obtain ⟨c, cs, rfl, -, -⟩ := hword
      simp
  | number hnumeral =>
      obtain ⟨whole, ⟨hne, -⟩, rfl | ⟨part, -, rfl⟩⟩ := hnumeral
      · exact hne
      · simp
  | string hquoted =>
      obtain ⟨body, -, rfl⟩ := hquoted
      simp

theorem quoted
    {text : List Char}
    (h : Lexeme .string text) :
    Quoted text := by
  cases h with
  | string hquoted =>
      exact hquoted

end Lexeme

/-! ## Lexemes as pieces -/

namespace Piece

section Lead

variable {c : Char}

theorem lead_of_blank
    (h : Blank c)
    (cs : List Char) :
    lead c cs = (⟨.blank, [c]⟩, cs) := by
  rw [lead, if_pos (isBlank_iff.mpr h)]

theorem lead_quote
    (cs : List Char) :
    lead '"' cs = leadString cs := by
  rfl

theorem lead_of_digit
    (h : Digit c)
    (cs : List Char) :
    lead c cs =
      (⟨.token .number, (splitNumber (c :: cs)).1⟩, (splitNumber (c :: cs)).2) := by
  have hblank : ¬ isBlank c := fun hc => (isBlank_iff.mp hc).not_wordChar (.inr h)
  have hquote : c ≠ '"' := by
    rintro rfl
    exact absurd h (by decide)
  rw [lead, if_neg hblank, if_neg hquote, if_pos (isDigit_iff.mpr h)]

theorem lead_of_letter
    (h : Letter c)
    (cs : List Char) :
    lead c cs =
      (⟨.token (wordKind (c :: cs.takeWhile isWordChar)), c :: cs.takeWhile isWordChar⟩,
        cs.dropWhile isWordChar) := by
  have hblank : ¬ isBlank c := fun hc => (isBlank_iff.mp hc).not_wordChar (.inl h)
  have hdigit : ¬ c.isDigit := fun hc => (isDigit_iff.mp hc).not_letter h
  have hquote : c ≠ '"' := by
    rintro rfl
    exact absurd h (by decide)
  rw [lead, if_neg hblank, if_neg hquote, if_neg hdigit, if_pos (isWordStart_iff.mpr h)]

theorem lead_of_sign
    (h : Sign c)
    (cs : List Char) :
    lead c cs = leadSign c cs := by
  have hblank : ¬ isBlank c := fun hc => h.not_blank (isBlank_iff.mp hc)
  have hdigit : ¬ c.isDigit := fun hc => h.not_digit (isDigit_iff.mp hc)
  have hletter : ¬ isWordStart c := fun hc => h.not_letter (isWordStart_iff.mp hc)
  rw [lead, if_neg hblank, if_neg h.not_quote, if_neg hdigit, if_neg hletter]

end Lead

section Runs

variable {p : Char → Bool}
variable {run after : List Char}

/-- A run ends where the first sign behind it does not belong to it. -/
theorem takeWhile_run
    (hrun : ∀ c ∈ run, p c)
    (hafter : ∀ c ∈ after.head?, p c = false) :
    (run ++ after).takeWhile p = run := by
  rw [List.takeWhile_append_of_pos hrun]
  cases after with
  | nil =>
      simp
  | cons c cs =>
      simp [hafter c rfl]

theorem dropWhile_run
    (hrun : ∀ c ∈ run, p c)
    (hafter : ∀ c ∈ after.head?, p c = false) :
    (run ++ after).dropWhile p = after := by
  rw [List.dropWhile_append_of_pos hrun]
  cases after with
  | nil =>
      rfl
  | cons c cs =>
      simp [hafter c rfl]

/-- What lacks a sign is a run of other ones. -/
theorem run_of_not_mem
    {sign : Char}
    (h : sign ∉ run) :
    ∀ c ∈ run, decide (c ≠ sign) := by
  intro c hc
  rw [decide_eq_true_iff]
  rintro rfl
  exact h hc

/-- Signs at the front that all belong to a run are part of it. -/
theorem length_le_takeWhile
    {cs : List Char}
    (hrun : ∀ c ∈ run, p c)
    (hfront : run <+: cs) :
    run.length ≤ (cs.takeWhile p).length := by
  obtain ⟨after, rfl⟩ := hfront
  rw [List.takeWhile_append_of_pos hrun, List.length_append]
  omega

end Runs

section Numerals

variable {whole after : List Char}

/-- Digits with no fraction behind them are a whole number. -/
theorem splitNumber_whole
    (hwhole : ∀ c ∈ whole, c.isDigit)
    (hafter : ∀ c ∈ after.head?, c.isDigit = false)
    (hpoint : ∀ d rest, after = '.' :: d :: rest → d.isDigit = false) :
    splitNumber (whole ++ after) = (whole, after) := by
  unfold splitNumber
  rw [takeWhile_run hwhole hafter, dropWhile_run hwhole hafter]
  split
  · rename_i d rest
    rw [if_neg (by simp [hpoint d rest rfl])]
  · rfl

/-- A point with a digit behind it belongs to the number. -/
theorem splitNumber_fraction
    {d : Char}
    {rest : List Char}
    (hwhole : ∀ c ∈ whole, c.isDigit)
    (hd : d.isDigit) :
    splitNumber (whole ++ '.' :: d :: rest) =
      (whole ++ '.' :: (d :: rest).takeWhile Char.isDigit,
        (d :: rest).dropWhile Char.isDigit) := by
  have hafter : ∀ c ∈ ('.' :: d :: rest).head?, c.isDigit = false := by
    intro c hc
    cases hc
    rfl
  unfold splitNumber
  rw [takeWhile_run hwhole hafter, dropWhile_run hwhole hafter]
  exact if_pos hd

theorem splitNumber_numeral
    {text : List Char}
    (h : Numeral text)
    (hafter : ∀ c ∈ after.head?, c.isDigit = false ∧ c ≠ '.') :
    splitNumber (text ++ after) = (text, after) := by
  have hdigit : ∀ c ∈ after.head?, c.isDigit = false := fun c hc => (hafter c hc).1
  obtain ⟨whole, hwhole, rfl | ⟨part, hpart, rfl⟩⟩ := h
  · apply splitNumber_whole hwhole.isDigit hdigit
    rintro d rest rfl
    exact absurd rfl (hafter '.' rfl).2
  · cases part with
    | nil =>
        exact absurd rfl hpart.1
    | cons d ds =>
        have hds := hpart.isDigit
        have hsplit : splitNumber (whole ++ '.' :: d :: (ds ++ after)) = _ :=
          splitNumber_fraction hwhole.isDigit (hds d List.mem_cons_self)
        rw [← List.cons_append, takeWhile_run hds hdigit, dropWhile_run hds hdigit] at hsplit
        simpa using hsplit

end Numerals

theorem leadString_quoted
    {body : List Char}
    (h : '"' ∉ body)
    (after : List Char) :
    leadString (body ++ '"' :: after) = (⟨.token .string, '"' :: (body ++ ['"'])⟩, after) := by
  have hbody := run_of_not_mem h
  have hafter : ∀ c ∈ ('"' :: after).head?, decide (c ≠ '"') = false := by
    intro c hc
    cases hc
    rfl
  unfold leadString
  rw [takeWhile_run hbody hafter, dropWhile_run hbody hafter]

theorem wordKind_spelling
    (k : Keyword) :
    wordKind k.spelling.toList = .keyword k := by
  cases k <;> rfl

theorem wordKind_of_ne
    {word : List Char}
    (h : ∀ k : Keyword, word ≠ k.spelling.toList) :
    wordKind word = .identifier := by
  unfold wordKind
  cases hspelling : Keyword.ofSpelling? (String.ofList word) with
  | none =>
      rfl
  | some k =>
      have hword := Keyword.spelling_of_ofSpelling? hspelling
      exact absurd (by rw [← hword, String.toList_ofList]) (h k)

section Cut

variable {after : List Char}

theorem cut_of_lead
    {c : Char}
    {cs : List Char}
    {p : Piece}
    (h : lead c cs = (p, after)) :
    cut (c :: cs) = p :: cut after := by
  rw [cut_cons, h]

/-- A word ends where no letter or digit follows. -/
theorem cut_word
    {text : List Char}
    (h : Word text)
    (hafter : ∀ c ∈ after.head?, isWordChar c = false) :
    cut (text ++ after) = ⟨.token (wordKind text), text⟩ :: cut after := by
  obtain ⟨c, cs, rfl, hletter, hcs⟩ := h
  have hrun : ∀ d ∈ cs, isWordChar d := fun d hd => isWordChar_iff.mpr (hcs d hd)
  apply cut_of_lead
  rw [List.append_eq, lead_of_letter hletter, takeWhile_run hrun hafter, dropWhile_run hrun hafter]

theorem cut_numeral
    {text : List Char}
    (h : Numeral text)
    (hafter : ∀ c ∈ after.head?, c.isDigit = false ∧ c ≠ '.') :
    cut (text ++ after) = ⟨.token .number, text⟩ :: cut after := by
  have hsplit := splitNumber_numeral h hafter
  cases text with
  | nil =>
      exact absurd rfl (Lexeme.number h).ne_nil
  | cons c cs =>
      apply cut_of_lead
      rw [List.append_eq, lead_of_digit h.head, ← List.cons_append, hsplit]

theorem cut_mark
    (mark : Punct)
    (hafter : ∀ c ∈ after.head?, Blank c) :
    cut (mark.spelling.toList ++ after) =
      ⟨.token (.punct mark), mark.spelling.toList⟩ :: cut after := by
  cases after with
  | nil =>
      cases mark <;> rfl
  | cons b rest =>
      rcases hafter b rfl with rfl | rfl | rfl | rfl <;> cases mark <;> exact cut_of_lead rfl

end Cut

end Piece

/-- A lexeme with a blank or nothing behind it is cut off as one piece. -/
theorem Lexeme.cut_append
    {kind : Token.Kind}
    {text after : List Char}
    (h : Lexeme kind text)
    (hafter : ∀ c ∈ after.head?, Blank c) :
    Piece.cut (text ++ after) = ⟨.token kind, text⟩ :: Piece.cut after := by
  have hword : ∀ c ∈ after.head?, Piece.isWordChar c = false := by
    intro c hc
    rw [Bool.eq_false_iff]
    exact fun hchar => (hafter c hc).not_wordChar (isWordChar_iff.mp hchar)
  cases h with
  | punct mark =>
      exact Piece.cut_mark mark hafter
  | keyword k =>
      rw [Piece.cut_word k.word hword, Piece.wordKind_spelling]
  | identifier hform hname =>
      rw [Piece.cut_word hform hword, Piece.wordKind_of_ne hname]
  | number hnumeral =>
      apply Piece.cut_numeral hnumeral
      intro c hc
      rcases hafter c hc with rfl | rfl | rfl | rfl <;> decide
  | string hquoted =>
      obtain ⟨body, hbody, rfl⟩ := hquoted
      apply Piece.cut_of_lead
      rw [Piece.lead_quote]
      simpa using Piece.leadString_quoted hbody after

/-- A text is a lexeme of one kind at most. -/
theorem Lexeme.kind_unique
    {kind other : Token.Kind}
    {text : List Char}
    (h : Lexeme kind text)
    (hother : Lexeme other text) :
    kind = other := by
  have hcut : Piece.cut (text ++ []) = _ := h.cut_append (by simp)
  rw [hother.cut_append (by simp)] at hcut
  cases hcut
  rfl

end Lox
