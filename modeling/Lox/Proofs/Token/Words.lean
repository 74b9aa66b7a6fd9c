import Lox.Token.Scan

/-!
# Words

The scanner calls a word a keyword exactly if it is spelled like one.  So the tokens of a scan are
worded: a name never reads like a keyword, and a keyword always reads like itself.
-/

namespace Lox

/-- The lexeme of a name or keyword fits its kind. -/
def Token.Worded (t : Token) : Prop :=
  match t.kind with
  | .identifier => ∀ k : Keyword, t.lexeme ≠ k.spelling
  | .keyword k => t.lexeme = k.spelling
  | _ => True

namespace Keyword

theorem mem_all (k : Keyword) : k ∈ all := by
  cases k <;> decide

theorem spelling_of_ofSpelling?
    {word : String}
    {k : Keyword}
    (h : ofSpelling? word = some k) :
    word = k.spelling := by
  have hfound := List.find?_some h
  simp only [decide_eq_true_eq] at hfound
  exact hfound.symm

theorem ne_spelling_of_ofSpelling?
    {word : String}
    (h : ofSpelling? word = none)
    (k : Keyword) :
    word ≠ k.spelling := by
  have hmissed := List.find?_eq_none.mp h k (mem_all k)
  simp only [decide_eq_true_eq] at hmissed
  exact fun heq => hmissed heq.symm

end Keyword

namespace Piece

/-- A piece that is a token makes a worded token. -/
def Worded (p : Piece) : Prop :=
  ∀ line t, p.item? line = some (.token t) → t.Worded

theorem worded_of_shape
    {p : Piece}
    (h : ∀ kind line, p.shape = .token kind →
      (⟨kind, String.ofList p.text, line⟩ : Token).Worded) :
    p.Worded := by
  intro line t hitem
  obtain ⟨shape, text⟩ := p
  unfold item? at hitem
  cases shape with
  | token kind =>
      simp only [Option.some.injEq, Scan.Item.token.injEq] at hitem
      rw [← hitem]
      exact h kind line rfl
  | stray =>
      cases text <;> simp at hitem
  | blank =>
      simp at hitem
  | lineComment =>
      simp at hitem
  | blockComment =>
      simp at hitem
  | openString =>
      simp at hitem
  | openComment =>
      simp at hitem

theorem worded_of_not_word
    {p : Piece}
    (hname : p.shape ≠ .token .identifier)
    (hkeyword : ∀ k, p.shape ≠ .token (.keyword k)) :
    p.Worded := by
  apply worded_of_shape
  intro kind line hshape
  cases kind with
  | identifier =>
      exact absurd hshape hname
  | keyword k =>
      exact absurd hshape (hkeyword k)
  | _ =>
      trivial

theorem leadString_worded (cs : List Char) : (leadString cs).1.Worded := by
  unfold leadString
  split <;> exact worded_of_not_word (by simp) (by simp)

theorem leadSign_worded
    (c : Char)
    (cs : List Char) :
    (leadSign c cs).1.Worded := by
  unfold leadSign
  split
  · exact worded_of_not_word (by simp) (by simp)
  · split <;> exact worded_of_not_word (by simp) (by simp)
  · split <;> exact worded_of_not_word (by simp) (by simp)
  · split <;> exact worded_of_not_word (by simp) (by simp)

theorem word_worded (word : List Char) : (⟨.token (wordKind word), word⟩ : Piece).Worded := by
  apply worded_of_shape
  intro kind line hshape
  simp only [Shape.token.injEq] at hshape
  subst hshape
  unfold wordKind Token.Worded
  cases hspelling : Keyword.ofSpelling? (String.ofList word) with
  | some k =>
      exact Keyword.spelling_of_ofSpelling? hspelling
  | none =>
      exact Keyword.ne_spelling_of_ofSpelling? hspelling

theorem lead_worded
    (c : Char)
    (cs : List Char) :
    (lead c cs).1.Worded := by
  unfold lead
  split
  · exact worded_of_not_word (by simp) (by simp)
  · split
    · exact leadString_worded cs
    · split
      · exact worded_of_not_word (by simp) (by simp)
      · split
        · exact word_worded _
        · exact leadSign_worded c cs

theorem cutAtMost_worded
    {count : Nat}
    {cs : List Char} :
    ∀ p ∈ cutAtMost count cs, p.Worded := by
  induction count generalizing cs with
  | zero =>
      simp [cutAtMost]
  | succ count ih =>
      cases cs with
      | nil =>
          simp [cutAtMost]
      | cons c cs =>
          intro p hp
          rcases List.mem_cons.mp hp with rfl | hp
          · exact lead_worded c cs
          · exact ih p hp

end Piece

namespace Scan

theorem ofPieces_worded
    {pieces : List Piece}
    (h : ∀ p ∈ pieces, p.Worded)
    (line : Nat) :
    ∀ t, .token t ∈ (ofPieces line pieces).items → t.Worded := by
  induction pieces generalizing line with
  | nil =>
      simp [ofPieces]
  | cons p rest ih =>
      intro t ht
      simp only [ofPieces, List.mem_append, Option.mem_toList] at ht
      rcases ht with ht | ht
      · exact h p List.mem_cons_self _ t ht
      · exact ih (fun q hq => h q (List.mem_cons_of_mem _ hq)) _ t ht

/-- All tokens of a source are worded. -/
theorem tokens_worded (source : String) : ∀ t ∈ (ofSource source).tokens, t.Worded := by
  intro t ht
  simp only [tokens, List.mem_filterMap] at ht
  obtain ⟨item, hitem, hsome⟩ := ht
  cases item with
  | token u =>
      cases hsome
      exact ofPieces_worded (fun p hp => Piece.cutAtMost_worded p hp) 1 t hitem
  | fault line cause =>
      cases hsome

end Scan

end Lox
