import Lox.Token.Scan

/-!
# A line break ends every piece

A piece of source reaches as far as it can.  If a text has no string or comment that is left open,
and a line break follows it, then none of its pieces can reach beyond its end: the pieces of the
whole are those of the text and those of what follows.  So scanning a text does not depend on what
comes behind a line break.
-/

namespace Lox

namespace Piece

/-- Whether a piece lacks its end. -/
def isOpen (p : Piece) : Bool :=
  p.shape = .openString || p.shape = .openComment

section Runs

variable {p : Char → Bool}
variable (hp : p '\n' = false)

include hp

theorem takeWhile_append_newline
    (cs rest : List Char) :
    (cs ++ '\n' :: rest).takeWhile p = cs.takeWhile p := by
  induction cs with
  | nil =>
      simp [hp]
  | cons c cs ih =>
      simp [List.takeWhile_cons, ih]

theorem dropWhile_append_newline
    (cs rest : List Char) :
    (cs ++ '\n' :: rest).dropWhile p = cs.dropWhile p ++ '\n' :: rest := by
  induction cs with
  | nil =>
      simp [hp]
  | cons c cs ih =>
      by_cases hc : p c
      · simp [hc, ih]
      · simp [hc]

end Runs

variable {cs rest : List Char}

/-- A closed comment stays as it is. -/
theorem splitComment?_append
    {body after : List Char}
    (h : splitComment? cs = some (body, after))
    (rest : List Char) :
    splitComment? (cs ++ rest) = some (body, after ++ rest) := by
  fun_induction splitComment? cs generalizing body after with
  | case1 tail =>
      cases h
      rfl
  | case2 c tail hnot ih =>
      obtain ⟨⟨inner, behind⟩, hsplit, heq⟩ := Option.map_eq_some_iff.mp h
      cases heq
      -- An end mark that starts here would start here in the longer text only if `tail` is empty.
      have hnot' : ∀ tail', c = '*' → tail ++ rest = '/' :: tail' → False := by
        intro tail' hc htail
        cases tail with
        | nil =>
            cases hsplit
        | cons d tail =>
            exact hnot tail hc (by rw [(List.cons.inj htail).1])
      rw [List.cons_append, splitComment?, ih hsplit]
      · rfl
      · exact hnot'
  | case3 =>
      cases h

theorem splitNumber_append_newline
    (cs rest : List Char) :
    splitNumber (cs ++ '\n' :: rest) = ((splitNumber cs).1, (splitNumber cs).2 ++ '\n' :: rest) := by
  have htake := takeWhile_append_newline (p := Char.isDigit) rfl
  have hdrop := dropWhile_append_newline (p := Char.isDigit) rfl
  unfold splitNumber
  rw [htake, hdrop]
  rcases cs.dropWhile Char.isDigit with _ | ⟨c, _ | ⟨d, tail⟩⟩
  · rfl
  · by_cases hc : c = '.'
    · subst hc
      rfl
    · simp [hc]
  · by_cases hc : c = '.'
    · subst hc
      by_cases hd : d.isDigit
      · have htake' := htake (d :: tail) rest
        have hdrop' := hdrop (d :: tail) rest
        simp only [List.cons_append] at htake' hdrop'
        simp [hd, htake', hdrop']
      · simp [hd]
    · simp [hc]

/-- A closed string stays as it is. -/
theorem leadString_append_of_closed
    (hclosed : (leadString cs).1.isOpen = false)
    (rest : List Char) :
    leadString (cs ++ rest) = ((leadString cs).1, (leadString cs).2 ++ rest) := by
  unfold leadString at hclosed ⊢
  cases hquote : cs.dropWhile (· ≠ '"') with
  | nil =>
      rw [hquote] at hclosed
      cases hclosed
  | cons close tail =>
      have hlength : (cs.takeWhile (· ≠ '"')).length ≠ cs.length := by
        have hwhole := congrArg List.length
          (List.takeWhile_append_dropWhile (p := (· ≠ '"')) (l := cs))
        rw [hquote, List.length_append, List.length_cons] at hwhole
        omega
      rw [List.takeWhile_append, if_neg hlength, List.dropWhile_append, hquote]
      rfl

/-- A text goes on with the same sign when a line break and more are added behind it, unless that
sign is the line break. -/
theorem exists_eq_cons_of_append_newline
    {d : Char}
    {tail : List Char}
    (hd : d ≠ '\n')
    (h : cs ++ '\n' :: rest = d :: tail) :
    ∃ before, cs = d :: before := by
  cases cs with
  | nil =>
      exact absurd (List.cons.inj h).1.symm hd
  | cons c before =>
      exact ⟨before, by rw [(List.cons.inj h).1]⟩

/-- The piece of a sign by itself. -/
def loneSign (c : Char) : Piece :=
  ⟨(oneSign? c).elim .stray fun mark => .token (.punct mark), [c]⟩

/-- A sign stands by itself unless the next one makes a comment or a longer sign of it. -/
theorem leadSign_of_lone
    {c : Char}
    (hslash : ∀ tail, c = '/' → cs = '/' :: tail → False)
    (hstar : ∀ tail, c = '/' → cs = '*' :: tail → False)
    (heq : ∀ tail, cs = '=' :: tail → False) :
    leadSign c cs = (loneSign c, cs) := by
  unfold leadSign
  split
  · exact (hslash _ rfl rfl).elim
  · exact (hstar _ rfl rfl).elim
  · exact (heq _ rfl).elim
  · unfold loneSign
    cases oneSign? c <;> rfl

/-- The line break continues no sign. -/
theorem leadSign_append_newline
    (c : Char)
    (hclosed : (leadSign c cs).1.isOpen = false)
    (rest : List Char) :
    leadSign c (cs ++ '\n' :: rest) =
      ((leadSign c cs).1, (leadSign c cs).2 ++ '\n' :: rest) := by
  have htake := takeWhile_append_newline (p := (· ≠ '\n')) rfl
  have hdrop := dropWhile_append_newline (p := (· ≠ '\n')) rfl
  have hlone :
      (∀ tail, c = '/' → cs = '/' :: tail → False) →
      (∀ tail, c = '/' → cs = '*' :: tail → False) →
      (∀ tail, cs = '=' :: tail → False) →
      leadSign c (cs ++ '\n' :: rest) = (loneSign c, cs ++ '\n' :: rest) := by
    intro hslash hstar heq
    apply leadSign_of_lone
    · intro tail hc htail
      obtain ⟨before, hcs⟩ := exists_eq_cons_of_append_newline (by decide) htail
      exact hslash before hc hcs
    · intro tail hc htail
      obtain ⟨before, hcs⟩ := exists_eq_cons_of_append_newline (by decide) htail
      exact hstar before hc hcs
    · intro tail htail
      obtain ⟨before, hcs⟩ := exists_eq_cons_of_append_newline (by decide) htail
      exact heq before hcs
  fun_cases leadSign c cs with
  | case1 tail =>
      simp only [List.cons_append, leadSign, htake, hdrop]
  | case2 tail body after hsplit =>
      simp only [List.cons_append, leadSign, splitComment?_append hsplit]
  | case3 tail hsplit =>
      simp [leadSign, hsplit, isOpen] at hclosed
  | case4 c tail mark htwo =>
      simp [leadSign, htwo]
  | case5 c tail mark hone htwo =>
      simp [leadSign, htwo, hone]
  | case6 c tail hone htwo =>
      simp [leadSign, htwo, hone]
  | case7 c cs hslash hstar heq mark hone =>
      rw [hlone hslash hstar heq, loneSign, hone]
      rfl
  | case8 c cs hslash hstar heq hone =>
      rw [hlone hslash hstar heq, loneSign, hone]
      rfl

/-- A closed piece ends before the line break behind it. -/
theorem lead_append_newline
    (c : Char)
    (hclosed : (lead c cs).1.isOpen = false)
    (rest : List Char) :
    lead c (cs ++ '\n' :: rest) = ((lead c cs).1, (lead c cs).2 ++ '\n' :: rest) := by
  unfold lead at hclosed ⊢
  split
  · rfl
  · rename_i hblank
    rw [if_neg hblank] at hclosed
    split
    · rename_i hquote
      rw [if_pos hquote] at hclosed
      exact leadString_append_of_closed hclosed _
    · rename_i hquote
      rw [if_neg hquote] at hclosed
      split
      · rw [← List.cons_append, splitNumber_append_newline]
      · rename_i hdigit
        rw [if_neg hdigit] at hclosed
        split
        · rw [takeWhile_append_newline (by decide), dropWhile_append_newline (by decide)]
        · rename_i hword
          rw [if_neg hword] at hclosed
          exact leadSign_append_newline c hclosed rest

/-- The pieces of a text that leaves nothing open do not depend on what follows a line break. -/
theorem cut_append_newline
    (hclosed : ∀ p ∈ cut cs, p.isOpen = false)
    (rest : List Char) :
    cut (cs ++ '\n' :: rest) = cut cs ++ cut ('\n' :: rest) := by
  induction hn : cs.length using Nat.strongRecOn generalizing cs with
  | _ n ih =>
      cases cs with
      | nil =>
          rfl
      | cons c cs =>
          rw [cut_cons] at hclosed
          have hshorter := length_lead_lt c cs
          have htail := ih _ (hn ▸ hshorter)
            (fun p hp => hclosed p (List.mem_cons_of_mem _ hp)) rfl
          rw [List.cons_append, cut_cons, cut_cons,
            lead_append_newline c (hclosed _ List.mem_cons_self), htail, List.cons_append]

end Piece

namespace Scan

theorem ofPieces_append
    (line : Nat)
    (pieces later : List Piece) :
    (ofPieces line (pieces ++ later)).items =
      (ofPieces line pieces).items ++ (ofPieces (ofPieces line pieces).endLine later).items := by
  induction pieces generalizing line with
  | nil =>
      rfl
  | cons p rest ih =>
      simp only [List.cons_append, ofPieces, ih, List.append_assoc]

/-- An open piece is a fault. -/
theorem isOpen_eq_false_of_faults
    {line : Nat}
    {pieces : List Piece}
    (h : (ofPieces line pieces).faults = []) :
    ∀ p ∈ pieces, p.isOpen = false := by
  induction pieces generalizing line with
  | nil =>
      intro p hp
      cases hp
  | cons first rest ih =>
      simp only [ofPieces, faults, List.filterMap_append, List.append_eq_nil_iff] at h
      obtain ⟨hfirst, hrest⟩ := h
      intro p hp
      rcases List.mem_cons.mp hp with rfl | hp
      · obtain ⟨shape, text⟩ := p
        cases shape with
        | openString | openComment =>
            simp [Piece.item?] at hfirst
        | blank | lineComment | blockComment | token | stray =>
            rfl
      · exact ih hrest p hp

end Scan

end Lox
