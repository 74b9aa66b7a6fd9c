import Lox.Proofs.Token.Lexemes
import Lox.Proofs.Token.Lines
import Lox.Proofs.Token.Separation
import Lox.Token.Cursor
import Mathlib.Data.List.Forall2

/-!
# Maximal munch

What the first piece of a text is, said by the token grammar and without a scanner: a blank, a
comment, the longest lexeme that stands there, a sign that starts no lexeme, or a string or comment
that is left open.  A text can be cut in one way only so that this holds of every piece, and that is
how the scanner cuts it.  The main statement puts this together with what the pieces yield.
-/

namespace Lox

open Lexeme

/-- No lexeme at the front of the input is longer than the text. -/
def Lexeme.Longest (text input : List Char) : Prop :=
  ∀ kind other, Lexeme kind other → other <+: input → other.length ≤ text.length

/-- Lexemes at the front of an input start with its first sign. -/
theorem Lexeme.longest_of_head
    {c : Char}
    {cs text : List Char}
    (h : ∀ kind ds, Lexeme kind (c :: ds) → ds <+: cs → ds.length + 1 ≤ text.length) :
    Longest text (c :: cs) := by
  intro kind other hother hfront
  cases other with
  | nil =>
      exact absurd rfl hother.ne_nil
  | cons d ds =>
      obtain ⟨rfl, hds⟩ := List.cons_prefix_cons.mp hfront
      exact h kind ds hother hds

namespace Piece

/-- A piece is the first one of a text, with the given characters behind it. -/
inductive Leads : Piece → List Char → Prop
  | blank
      {c : Char} {after : List Char}
      (hblank : Blank c) :
      Leads ⟨.blank, [c]⟩ after
  /-- Up to the end of the line. -/
  | lineComment
      {body after : List Char}
      (hbody : '\n' ∉ body)
      (hafter : after = [] ∨ ∃ rest, after = '\n' :: rest) :
      Leads ⟨.lineComment, '/' :: '/' :: body⟩ after
  /-- Up to the first end mark. -/
  | blockComment
      {body after : List Char}
      (hbody : ¬ ['*', '/'] <:+: body ++ ['*']) :
      Leads ⟨.blockComment, '/' :: '*' :: (body ++ ['*', '/'])⟩ after
  /-- The longest lexeme, unless a comment starts here. -/
  | token
      {kind : Token.Kind} {text after : List Char}
      (hlexeme : Lexeme kind text)
      (hlongest : Longest text (text ++ after))
      (hline : ¬ ['/', '/'] <+: text ++ after)
      (hblock : ¬ ['/', '*'] <+: text ++ after) :
      Leads ⟨.token kind, text⟩ after
  | stray
      {c : Char} {after : List Char}
      (hblank : ¬ Blank c)
      (hstray : ∀ kind text, Lexeme kind text → text.head? ≠ some c) :
      Leads ⟨.stray, [c]⟩ after
  | openString
      {body : List Char}
      (hbody : '"' ∉ body) :
      Leads ⟨.openString, '"' :: body⟩ []
  | openComment
      {body : List Char}
      (hbody : ¬ ['*', '/'] <:+: body) :
      Leads ⟨.openComment, '/' :: '*' :: body⟩ []

/-- A text is cut into pieces each of which is the first one of what is left. -/
inductive Cuts : List Char → List Piece → Prop
  | nil :
      Cuts [] []
  | cons
      {p : Piece} {after : List Char} {rest : List Piece}
      (hlead : Leads p after)
      (hrest : Cuts after rest) :
      Cuts (p.text ++ after) (p :: rest)

/-! ## Comments -/

section Comments

variable {cs body after : List Char}

theorem splitComment?_eq_none_iff :
    splitComment? cs = none ↔ ¬ ['*', '/'] <:+: cs := by
  fun_induction splitComment? cs with
  | case1 rest =>
      simp [List.infix_cons_iff]
  | case2 c rest hnot ih =>
      rw [Option.map_eq_none_iff, ih, List.infix_cons_iff]
      have hfront : ¬ ['*', '/'] <+: c :: rest := by
        rintro ⟨tail, htail⟩
        cases htail
        exact hnot tail rfl rfl
      grind
  | case3 =>
      simp

/-- What is cut off a comment ends with the first end mark. -/
theorem exists_body_of_splitComment?
    {text : List Char}
    (h : splitComment? cs = some (text, after)) :
    ∃ body, text = body ++ ['*', '/'] ∧ ¬ ['*', '/'] <:+: body ++ ['*'] := by
  fun_induction splitComment? cs generalizing text after with
  | case1 rest =>
      cases h
      exact ⟨[], rfl, by decide⟩
  | case2 c rest hnot ih =>
      obtain ⟨⟨inner, tail⟩, hsplit, heq⟩ := Option.map_eq_some_iff.mp h
      cases heq
      obtain ⟨body, rfl, hbody⟩ := ih hsplit
      refine ⟨c :: body, rfl, ?_⟩
      have hrest := append_of_splitComment? hsplit
      rw [List.cons_append, List.infix_cons_iff]
      rintro (⟨before, hbefore⟩ | hinner)
      · cases body with
        | nil => cases hbefore
        | cons d body =>
            cases hbefore
            exact hnot _ rfl (by rw [← hrest]; rfl)
      · exact hbody hinner
  | case3 =>
      cases h

theorem splitComment?_closed
    (hbody : ¬ ['*', '/'] <:+: body ++ ['*'])
    (after : List Char) :
    splitComment? (body ++ '*' :: '/' :: after) = some (body ++ ['*', '/'], after) := by
  induction body with
  | nil =>
      rfl
  | cons c body ih =>
      rw [List.cons_append, List.infix_cons_iff, not_or] at hbody
      obtain ⟨hfront, hinner⟩ := hbody
      have hnot : ∀ tail, c = '*' → body ++ '*' :: '/' :: after = '/' :: tail → False := by
        rintro tail rfl htail
        cases body with
        | nil => cases htail
        | cons d body =>
            cases htail
            exact hfront ⟨body ++ ['*'], rfl⟩
      rw [List.cons_append, splitComment?, ih hinner]
      · rfl
      · exact hnot

end Comments

theorem leadSign_lineComment
    {body after : List Char}
    (hbody : '\n' ∉ body)
    (hafter : after = [] ∨ ∃ rest, after = '\n' :: rest) :
    leadSign '/' ('/' :: (body ++ after)) = (⟨.lineComment, '/' :: '/' :: body⟩, after) := by
  have hrun := run_of_not_mem hbody
  have hstop : ∀ c ∈ after.head?, decide (c ≠ '\n') = false := by
    rcases hafter with rfl | ⟨rest, rfl⟩
    · simp
    · simp
  simp only [leadSign, takeWhile_run hrun hstop, dropWhile_run hrun hstop]

theorem leadSign_blockComment
    {body : List Char}
    (hbody : ¬ ['*', '/'] <:+: body ++ ['*'])
    (after : List Char) :
    leadSign '/' ('*' :: (body ++ ['*', '/'] ++ after)) =
      (⟨.blockComment, '/' :: '*' :: (body ++ ['*', '/'])⟩, after) := by
  have hsplit := splitComment?_closed hbody after
  rw [List.append_assoc]
  simp only [leadSign, List.cons_append, List.nil_append, hsplit]

theorem leadSign_openComment
    {body : List Char}
    (hbody : ¬ ['*', '/'] <:+: body) :
    leadSign '/' ('*' :: body) = (⟨.openComment, '/' :: '*' :: body⟩, []) := by
  simp only [leadSign, splitComment?_eq_none_iff.mpr hbody]

theorem leadString_open
    {body : List Char}
    (hbody : '"' ∉ body) :
    leadString body = (⟨.openString, '"' :: body⟩, []) := by
  have hdrop : body.dropWhile (· ≠ '"') = [] :=
    List.dropWhile_eq_nil_iff.mpr (run_of_not_mem hbody)
  unfold leadString
  rw [hdrop]

/-- A text goes on up to the first sign of a kind, or to its end. -/
theorem exists_run
    (c : Char)
    (cs : List Char) :
    ∃ body after, cs = body ++ after ∧ c ∉ body ∧ (after = [] ∨ ∃ rest, after = c :: rest) := by
  by_cases hmem : c ∈ cs
  · obtain ⟨body, rest, hcs, hbody⟩ := List.eq_append_cons_of_mem hmem
    exact ⟨body, c :: rest, hcs, hbody, .inr ⟨rest, rfl⟩⟩
  · exact ⟨cs, [], (List.append_nil cs).symm, hmem, .inl rfl⟩

/-! ## Marks -/

section Marks

variable {c : Char}
variable {cs : List Char}

theorem spelling_of_oneSign?
    {mark : Punct}
    (h : oneSign? c = some mark) :
    mark.spelling.toList = [c] := by
  unfold oneSign? at h
  split at h <;> cases h <;> rfl

theorem spelling_of_twoSigns?
    {mark : Punct}
    (h : twoSigns? c = some mark) :
    mark.spelling.toList = [c, '='] := by
  unfold twoSigns? at h
  split at h <;> cases h <;> rfl

/-- A mark is a single sign, or one with an equals sign behind it. -/
theorem signs_of_spelling
    {mark : Punct}
    (h : mark.spelling.toList = c :: cs) :
    (oneSign? c).isSome ∧ (cs = [] ∨ cs = ['='] ∧ twoSigns? c = some mark) := by
  cases mark <;> cases h <;> exact ⟨rfl, by decide⟩

/-- A sign stands for itself unless the next one makes a comment or a longer mark of it. -/
theorem leads_oneSign
    {mark : Punct}
    (hone : oneSign? c = some mark)
    (hslash : ∀ rest, c = '/' → cs = '/' :: rest → False)
    (hstar : ∀ rest, c = '/' → cs = '*' :: rest → False)
    (hequal : ∀ rest, cs = '=' :: rest → twoSigns? c = none) :
    Leads ⟨.token (.punct mark), [c]⟩ cs := by
  have hspelling := spelling_of_oneSign? hone
  refine .token ?_ ?_ ?_ ?_
  · rw [← hspelling]
    exact .punct mark
  · apply Lexeme.longest_of_head
    intro kind ds hother hds
    obtain ⟨long, hlong⟩ := hother.mark_of_sign (Punct.sign hspelling)
    rcases (signs_of_spelling hlong).2 with rfl | ⟨rfl, htwo⟩
    · exact Nat.le_refl _
    · obtain ⟨rest, hrest⟩ := hds
      rw [hequal rest hrest.symm] at htwo
      cases htwo
  · rintro ⟨rest, hrest⟩
    cases hrest
    exact hslash rest rfl rfl
  · rintro ⟨rest, hrest⟩
    cases hrest
    exact hstar rest rfl rfl

theorem leads_twoSigns
    {mark : Punct}
    (htwo : twoSigns? c = some mark)
    (rest : List Char) :
    Leads ⟨.token (.punct mark), [c, '=']⟩ rest := by
  have hspelling := spelling_of_twoSigns? htwo
  refine .token ?_ ?_ ?_ ?_
  · rw [← hspelling]
    exact .punct mark
  · apply Lexeme.longest_of_head
    intro kind ds hother hds
    obtain ⟨long, hlong⟩ := hother.mark_of_sign (Punct.sign hspelling)
    rcases (signs_of_spelling hlong).2 with rfl | ⟨rfl, -⟩
    · exact Nat.le_succ _
    · exact Nat.le_refl _
  · rintro ⟨rest, hrest⟩
    cases hrest
  · rintro ⟨rest, hrest⟩
    cases hrest

theorem leads_stray
    (hsign : Sign c)
    (hone : oneSign? c = none)
    (cs : List Char) :
    Leads ⟨.stray, [c]⟩ cs := by
  refine .stray hsign.not_blank ?_
  intro kind text htext hhead
  cases text with
  | nil =>
      cases hhead
  | cons d ds =>
      cases hhead
      obtain ⟨mark, hmark⟩ := htext.mark_of_sign hsign
      have hsome := (signs_of_spelling hmark).1
      rw [hone] at hsome
      cases hsome

/-- The piece of a sign is the first one. -/
theorem leadSign_leads
    (hsign : Sign c)
    (cs : List Char) :
    Leads (leadSign c cs).1 (leadSign c cs).2 := by
  fun_cases leadSign c cs with
  | case1 rest =>
      obtain ⟨body, after, rfl, hbody, hafter⟩ := exists_run '\n' rest
      have hlead := leadSign_lineComment hbody hafter
      simp only [leadSign, Prod.mk.injEq] at hlead
      rw [hlead.1, hlead.2]
      exact .lineComment hbody hafter
  | case2 rest body after hsplit =>
      obtain ⟨inner, rfl, hinner⟩ := exists_body_of_splitComment? hsplit
      exact .blockComment hinner
  | case3 rest hsplit =>
      exact .openComment (splitComment?_eq_none_iff.mp hsplit)
  | case4 c rest mark htwo =>
      exact leads_twoSigns htwo rest
  | case5 c rest mark hone htwo =>
      exact leads_oneSign hone (by simp) (by simp) (fun _ _ => htwo)
  | case6 c rest hone htwo =>
      exact leads_stray hsign hone _
  | case7 c cs hslash hstar hequal mark hone =>
      exact leads_oneSign hone hslash hstar (fun rest hrest => (hequal rest hrest).elim)
  | case8 c cs hslash hstar hequal hone =>
      exact leads_stray hsign hone _

end Marks

/-! ## Strings, numbers and words -/

/-- A lexeme that starts with another sign than a slash leads where it is the longest. -/
theorem Leads.of_lexeme
    {kind : Token.Kind}
    {c : Char}
    {cs text after : List Char}
    (hinput : text ++ after = c :: cs)
    (hslash : c ≠ '/')
    (hlexeme : Lexeme kind text)
    (hlongest : Longest text (c :: cs)) :
    Leads ⟨.token kind, text⟩ after := by
  refine .token hlexeme (hinput ▸ hlongest) ?_ ?_
  · rw [hinput]
    rintro ⟨rest, hrest⟩
    exact hslash (List.cons.inj hrest).1.symm
  · rw [hinput]
    rintro ⟨rest, hrest⟩
    exact hslash (List.cons.inj hrest).1.symm

theorem longest_quoted
    {body : List Char}
    (hbody : '"' ∉ body)
    (after : List Char) :
    Longest ('"' :: (body ++ ['"'])) ('"' :: (body ++ '"' :: after)) := by
  apply Lexeme.longest_of_head
  rintro kind ds hother ⟨rest, hrest⟩
  obtain ⟨inner, hinner, heq⟩ := hother.quoted_of_quote
  cases heq
  -- Both texts end at the first quote, so that the two are the same.
  have hlead := leadString_quoted hbody after
  rw [← hrest, List.append_assoc, List.singleton_append, leadString_quoted hinner] at hlead
  have htext := congrArg (fun found => found.1.text.length) hlead
  exact Nat.le_of_eq htext

theorem leadString_leads
    (cs : List Char) :
    Leads (leadString cs).1 (leadString cs).2 := by
  by_cases hquote : '"' ∈ cs
  · obtain ⟨body, after, rfl, hbody⟩ := List.eq_append_cons_of_mem hquote
    rw [leadString_quoted hbody]
    exact .of_lexeme (by simp) (by decide) (.string ⟨body, hbody, rfl⟩) (longest_quoted hbody after)
  · rw [leadString_open hquote]
    exact .openString hquote

section Numbers

variable {c : Char}
variable {cs : List Char}

theorem length_takeWhile_le_splitNumber
    (cs : List Char) :
    (cs.takeWhile Char.isDigit).length ≤ (splitNumber cs).1.length := by
  unfold splitNumber
  dsimp only
  split
  · split
    · rw [List.length_append]
      omega
    · exact Nat.le_refl _
  · exact Nat.le_refl _

theorem numeral_splitNumber
    (hdigit : Digit c)
    (cs : List Char) :
    Numeral (splitNumber (c :: cs)).1 := by
  have hwhole : Digits ((c :: cs).takeWhile Char.isDigit) := by
    constructor
    · simp [isDigit_iff.mpr hdigit]
    · intro d hd
      exact isDigit_iff.mp (List.mem_takeWhile_imp hd)
  unfold splitNumber
  dsimp only
  split
  · rename_i d rest hrest
    split
    · rename_i hd
      refine ⟨_, hwhole, .inr ⟨_, ⟨?_, ?_⟩, rfl⟩⟩
      · simp [hd]
      · intro e he
        exact isDigit_iff.mp (List.mem_takeWhile_imp he)
    · exact ⟨_, hwhole, .inl rfl⟩
  · exact ⟨_, hwhole, .inl rfl⟩

/-- No numeral at the front is longer than the number that is cut off. -/
theorem length_le_splitNumber
    {text : List Char}
    (h : Numeral text)
    (hfront : text <+: cs) :
    text.length ≤ (splitNumber cs).1.length := by
  obtain ⟨whole, hwhole, rfl | ⟨part, hpart, rfl⟩⟩ := h
  · have hlength := length_le_takeWhile hwhole.isDigit hfront
    exact Nat.le_trans hlength (length_takeWhile_le_splitNumber cs)
  · obtain ⟨after, rfl⟩ := hfront
    cases part with
    | nil =>
        exact absurd rfl hpart.1
    | cons d ds =>
        have hds := hpart.isDigit
        have hsplit : splitNumber (whole ++ '.' :: d :: (ds ++ after)) = _ :=
          splitNumber_fraction hwhole.isDigit (hds d List.mem_cons_self)
        rw [List.append_assoc, List.cons_append, List.cons_append, hsplit, ← List.cons_append,
          List.takeWhile_append_of_pos hds]
        simp only [List.length_append, List.length_cons]
        omega

theorem leads_number
    (hdigit : Digit c)
    (cs : List Char) :
    Leads ⟨.token .number, (splitNumber (c :: cs)).1⟩ (splitNumber (c :: cs)).2 := by
  have hslash : c ≠ '/' := by
    rintro rfl
    exact absurd hdigit (by decide)
  apply Leads.of_lexeme (splitNumber_append (c :: cs)) hslash (.number (numeral_splitNumber hdigit cs))
  apply Lexeme.longest_of_head
  intro kind ds hother hds
  have hfront : c :: ds <+: c :: cs := List.cons_prefix_cons.mpr ⟨rfl, hds⟩
  exact length_le_splitNumber (hother.numeral_of_digit hdigit) hfront

end Numbers

section Words

variable {c : Char}

theorem lexeme_wordKind
    {text : List Char}
    (h : Word text) :
    Lexeme (wordKind text) text := by
  by_cases hkeyword : ∃ k : Keyword, text = k.spelling.toList
  · obtain ⟨k, rfl⟩ := hkeyword
    rw [wordKind_spelling]
    exact .keyword k
  · have hname : ∀ k : Keyword, text ≠ k.spelling.toList := fun k hk => hkeyword ⟨k, hk⟩
    rw [wordKind_of_ne hname]
    exact .identifier h hname

theorem leads_word
    (hletter : Letter c)
    (cs : List Char) :
    Leads ⟨.token (wordKind (c :: cs.takeWhile isWordChar)), c :: cs.takeWhile isWordChar⟩
      (cs.dropWhile isWordChar) := by
  have hslash : c ≠ '/' := by
    rintro rfl
    exact absurd hletter (by decide)
  have hword : Word (c :: cs.takeWhile isWordChar) :=
    ⟨c, _, rfl, hletter, fun d hd => isWordChar_iff.mp (List.mem_takeWhile_imp hd)⟩
  have hinput : c :: cs.takeWhile isWordChar ++ cs.dropWhile isWordChar = c :: cs := by
    simp
  apply Leads.of_lexeme hinput hslash (lexeme_wordKind hword)
  apply Lexeme.longest_of_head
  intro kind ds hother hds
  obtain ⟨d, es, heq, -, hes⟩ := hother.word_of_letter hletter
  cases heq
  have hrun : ∀ e ∈ ds, isWordChar e := fun e he => isWordChar_iff.mpr (hes e he)
  have hlength := length_le_takeWhile hrun hds
  rw [List.length_cons]
  omega

end Words

/-- The first piece that the scanner cuts off is the first one by the grammar. -/
theorem lead_leads
    (c : Char)
    (cs : List Char) :
    Leads (lead c cs).1 (lead c cs).2 := by
  by_cases hblank : Blank c
  · rw [lead_of_blank hblank]
    exact .blank hblank
  by_cases hquote : c = '"'
  · subst hquote
    exact leadString_leads cs
  by_cases hdigit : Digit c
  · rw [lead_of_digit hdigit]
    exact leads_number hdigit cs
  by_cases hletter : Letter c
  · rw [lead_of_letter hletter]
    exact leads_word hletter cs
  · have hsign : Sign c := ⟨hblank, hquote, hdigit, hletter⟩
    rw [lead_of_sign hsign]
    exact leadSign_leads hsign cs

/-! ## The cut is unique -/

section Unique

variable {p : Piece}
variable {after : List Char}

/-- The longest lexeme at the front of a text is the first piece that the scanner cuts off. -/
theorem lead_of_longest
    {kind : Token.Kind}
    {c : Char}
    {cs : List Char}
    (hlexeme : Lexeme kind (c :: cs))
    (hlongest : Longest (c :: cs) (c :: (cs ++ after)))
    (hline : ¬ ['/', '/'] <+: c :: (cs ++ after))
    (hblock : ¬ ['/', '*'] <+: c :: (cs ++ after)) :
    lead c (cs ++ after) = (⟨.token kind, c :: cs⟩, after) := by
  have hwhole := lead_append c (cs ++ after)
  have hleads := lead_leads c (cs ++ after)
  generalize lead c (cs ++ after) = found at hwhole hleads ⊢
  obtain ⟨q, behind⟩ := found
  dsimp only at hwhole hleads
  cases hleads with
  | blank hblank =>
      cases hwhole
      exact absurd hblank hlexeme.not_blank
  | lineComment hbody hafter =>
      exact absurd ⟨_, hwhole⟩ hline
  | blockComment hbody =>
      exact absurd ⟨_, hwhole⟩ hblock
  | @token other text _ hother hfarther _ _ =>
      -- Neither lexeme is longer than the other one, so that they are the same.
      have hle : text.length ≤ (c :: cs).length := hlongest other text hother ⟨_, hwhole⟩
      have hge : (c :: cs).length ≤ text.length :=
        hfarther kind (c :: cs) hlexeme ⟨after, hwhole.symm⟩
      obtain ⟨rfl, rfl⟩ := List.append_inj hwhole (Nat.le_antisymm hle hge)
      rw [hlexeme.kind_unique hother]
  | stray hblank hstray =>
      cases hwhole
      exact absurd rfl (hstray kind _ hlexeme)
  | openString hbody =>
      rw [List.append_nil] at hwhole
      obtain ⟨rfl, rfl⟩ := List.cons.inj hwhole
      obtain ⟨body, -, hquoted⟩ := hlexeme.quoted_of_quote
      simp [(List.cons.inj hquoted).2] at hbody
  | openComment hbody =>
      exact absurd ⟨_, hwhole⟩ hblock

/-- A sign that starts no lexeme stands by itself. -/
theorem lead_of_stray
    {c : Char}
    (hblank : ¬ Blank c)
    (hstray : ∀ kind text, Lexeme kind text → text.head? ≠ some c)
    (cs : List Char) :
    lead c cs = (⟨.stray, [c]⟩, cs) := by
  have hsign : Sign c := by
    refine ⟨hblank, ?_, ?_, ?_⟩
    · rintro rfl
      exact hstray .string ['"', '"'] (.string ⟨[], by simp, rfl⟩) rfl
    · intro hdigit
      exact hstray .number [c] (.number ⟨[c], ⟨by simp, by simpa using hdigit⟩, .inl rfl⟩) rfl
    · intro hletter
      exact hstray _ [c] (lexeme_wordKind ⟨c, [], rfl, hletter, by simp⟩) rfl
  have hone : oneSign? c = none := by
    cases hmark : oneSign? c with
    | none =>
        rfl
    | some mark =>
        have hspelling := spelling_of_oneSign? hmark
        exact absurd (by rw [hspelling]; rfl) (hstray _ _ (.punct mark))
  rw [lead_of_sign hsign]
  fun_cases leadSign c cs with
  | case1 rest =>
      cases hone
  | case2 rest body after hsplit =>
      cases hone
  | case3 rest hsplit =>
      cases hone
  | case4 c rest mark htwo =>
      have hspelling := spelling_of_twoSigns? htwo
      exact absurd (by rw [hspelling]; rfl) (hstray _ _ (.punct mark))
  | case5 c rest mark hmark htwo =>
      rw [hone] at hmark
      cases hmark
  | case6 c rest hmark htwo =>
      rfl
  | case7 c cs hslash hstar hequal mark hmark =>
      rw [hone] at hmark
      cases hmark
  | case8 c cs hslash hstar hequal hmark =>
      rfl

/-- A piece that is the first one by the grammar is the one that the scanner cuts off. -/
theorem Leads.cut_append
    (h : Leads p after) :
    cut (p.text ++ after) = p :: cut after := by
  cases h with
  | blank hblank =>
      exact cut_of_lead (lead_of_blank hblank after)
  | lineComment hbody hafter =>
      exact cut_of_lead (leadSign_lineComment hbody hafter)
  | blockComment hbody =>
      exact cut_of_lead (leadSign_blockComment hbody after)
  | @token kind text _ hlexeme hlongest hline hblock =>
      cases text with
      | nil =>
          exact absurd rfl hlexeme.ne_nil
      | cons c cs =>
          exact cut_of_lead (lead_of_longest hlexeme hlongest hline hblock)
  | stray hblank hstray =>
      exact cut_of_lead (lead_of_stray hblank hstray after)
  | @openString body hbody =>
      rw [List.append_nil]
      exact cut_of_lead (leadString_open hbody)
  | @openComment body hbody =>
      rw [List.append_nil]
      exact cut_of_lead (leadSign_openComment hbody)

end Unique

theorem cuts_cut
    (cs : List Char) :
    Cuts cs (cut cs) := by
  induction hlength : cs.length using Nat.strongRecOn generalizing cs with
  | _ length ih =>
      subst hlength
      cases cs with
      | nil =>
          exact .nil
      | cons c cs =>
          have hrest := ih _ (length_lead_lt c cs) _ rfl
          rw [cut_cons]
          nth_rewrite 1 [← lead_append c cs]
          exact .cons (lead_leads c cs) hrest

theorem Cuts.eq_cut
    {cs : List Char}
    {pieces : List Piece}
    (h : Cuts cs pieces) :
    pieces = cut cs := by
  induction h with
  | nil =>
      rfl
  | cons hlead hrest ih =>
      rw [hlead.cut_append, ih]

/-- Each piece of a cut is the first one of what is left there. -/
theorem Cuts.leads
    {cs : List Char}
    {pieces : List Piece}
    (h : Cuts cs pieces) :
    ∀ p ∈ pieces, ∃ after, Leads p after := by
  induction h with
  | nil =>
      simp
  | cons hlead hrest ih =>
      intro p hp
      rcases List.mem_cons.mp hp with rfl | hp
      · exact ⟨_, hlead⟩
      · exact ih p hp

theorem Leads.text_ne_nil
    {p : Piece}
    {after : List Char}
    (h : Leads p after) :
    p.text ≠ [] := by
  cases h with
  | token hlexeme hlongest hline hblock =>
      exact hlexeme.ne_nil
  | _ =>
      simp

/-- A piece that is a token is a lexeme of its kind. -/
theorem Leads.lexeme
    {p : Piece}
    {after : List Char}
    {kind : Token.Kind}
    (h : Leads p after)
    (hshape : p.shape = .token kind) :
    Lexeme kind p.text := by
  cases h with
  | token hlexeme hlongest hline hblock =>
      cases hshape
      exact hlexeme
  | _ =>
      cases hshape

/-- A piece that reads like a word is a token. -/
theorem Leads.lexeme_of_word
    {p : Piece}
    {after : List Char}
    (h : Leads p after)
    (hword : Word p.text) :
    ∃ kind, p.shape = .token kind ∧ Lexeme kind p.text := by
  have hfirst : ∀ c cs, p.text = c :: cs → Letter c := by
    intro c cs htext
    exact Word.head (htext ▸ hword)
  cases h with
  | token hlexeme hlongest hline hblock =>
      exact ⟨_, rfl, hlexeme⟩
  | blank hblank =>
      exact absurd (.inl (hfirst _ _ rfl)) hblank.not_wordChar
  | stray hblank hstray =>
      exact absurd rfl (hstray _ _ (lexeme_wordKind hword))
  | lineComment | blockComment | openString | openComment =>
      exact absurd (hfirst _ _ rfl) (by decide)

/-- A piece that reads like a word is a keyword if it is spelled like one, and a name otherwise. -/
theorem Leads.shape_of_word
    {p : Piece}
    {after : List Char}
    (h : Leads p after)
    (hword : Word p.text) :
    (∀ k : Keyword, p.shape = .token (.keyword k) ↔ p.text = k.spelling.toList) ∧
      ((∀ k : Keyword, p.text ≠ k.spelling.toList) → p.shape = .token .identifier) := by
  obtain ⟨kind, hshape, hlexeme⟩ := h.lexeme_of_word hword
  rw [hshape]
  constructor
  · intro k
    constructor
    · intro heq
      cases heq
      generalize p.text = text at hlexeme ⊢
      cases hlexeme
      rfl
    · intro htext
      rw [htext] at hlexeme
      rw [hlexeme.kind_unique (.keyword k)]
  · intro hname
    rw [hlexeme.kind_unique (.identifier hword hname)]

/-- Blanks and closed comments yield nothing. -/
def isSilent (p : Piece) : Bool :=
  p.shape = .blank || p.shape = .lineComment || p.shape = .blockComment

/-- What a piece yields, on whatever line. -/
inductive Yields : Piece → Scan.Item → Prop
  | token
      (kind : Token.Kind) (text : List Char) (line : Nat) :
      Yields ⟨.token kind, text⟩ (.token ⟨kind, String.ofList text, line⟩)
  | stray
      (c : Char) (line : Nat) :
      Yields ⟨.stray, [c]⟩ (.fault line (.unexpected c))
  | openString
      (text : List Char) (line : Nat) :
      Yields ⟨.openString, text⟩ (.fault line .unterminatedString)
  | openComment
      (text : List Char) (line : Nat) :
      Yields ⟨.openComment, text⟩ (.fault line .unterminatedComment)

/-- A piece is silent, or yields one item that stands on the line where the piece ends. -/
theorem Leads.yields
    {p : Piece}
    {after : List Char}
    (h : Leads p after)
    (line : Nat) :
    (p.isSilent = true ∧ p.item? line = none) ∨
      (p.isSilent = false ∧ ∃ item, p.item? line = some item ∧ p.Yields item) := by
  cases h with
  | blank | lineComment | blockComment =>
      exact .inl ⟨rfl, rfl⟩
  | token =>
      exact .inr ⟨rfl, _, rfl, .token _ _ _⟩
  | stray =>
      exact .inr ⟨rfl, _, rfl, .stray _ _⟩
  | openString =>
      exact .inr ⟨rfl, _, rfl, .openString _ _⟩
  | openComment =>
      exact .inr ⟨rfl, _, rfl, .openComment _ _⟩

end Piece

namespace Scan

theorem yields_ofPieces
    {pieces : List Piece}
    (h : ∀ p ∈ pieces, ∃ after, p.Leads after)
    (line : Nat) :
    List.Forall₂ Piece.Yields (pieces.filter fun p => !p.isSilent) (ofPieces line pieces).items := by
  induction pieces generalizing line with
  | nil =>
      exact .nil
  | cons p rest ih =>
      have hrest := ih (fun q hq => h q (List.mem_cons_of_mem _ hq)) (line + p.lineBreaks)
      obtain ⟨after, hlead⟩ := h p List.mem_cons_self
      rw [ofPieces]
      rcases hlead.yields (line + p.lineBreaks) with ⟨hsilent, hitem⟩ | ⟨hloud, item, hitem, hyields⟩
      · simpa [hsilent, hitem] using hrest
      · simpa [hloud, hitem] using ⟨hyields, hrest⟩

/-- A source is cut in one way only, and the scanner cuts it that way.  Blanks and closed comments
yield nothing, and every other piece one item: a token whose lexeme is the piece, or a fault.  Read
call by call, a source gives out these items, then its end once, and then nothing. -/
theorem source_cut_by_maximal_munch
    (source : String) :
    ∃ pieces : List Piece,
      Piece.Cuts source.toList pieces ∧
      (∀ other, Piece.Cuts source.toList other → other = pieces) ∧
      (pieces.map Piece.text).flatten = source.toList ∧
      (∀ p ∈ pieces, p.text ≠ []) ∧
      (∀ p ∈ pieces, Word p.text →
        (∀ k : Keyword, p.shape = .token (.keyword k) ↔ p.text = k.spelling.toList) ∧
          ((∀ k : Keyword, p.text ≠ k.spelling.toList) → p.shape = .token .identifier)) ∧
      List.Forall₂ Piece.Yields (pieces.filter fun p => !p.isSilent) (ofSource source).items ∧
      ∀ n, (Cursor.start source).call n =
        ((ofSource source).items.map Entry.item ++ [Entry.eof (ofSource source).endLine])[n]? := by
  have hcuts := Piece.cuts_cut source.toList
  refine ⟨Piece.cut source.toList, hcuts, ?_,
    Piece.cut_flatten source.toList, ?_, ?_, ?_, ?_⟩
  · intro other hother
    exact hother.eq_cut
  · intro p hp
    obtain ⟨after, hlead⟩ := hcuts.leads p hp
    exact hlead.text_ne_nil
  · intro p hp hword
    obtain ⟨after, hlead⟩ := hcuts.leads p hp
    exact hlead.shape_of_word hword
  · exact yields_ofPieces hcuts.leads 1
  · exact Cursor.call_start source

end Scan

end Lox
