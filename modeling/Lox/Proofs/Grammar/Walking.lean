import Lox.Proofs.Grammar.Walk
import Lox.Proofs.Tree.Renumbered

/-!
# Walks that do what parsers do

A parser has only the tokens in front of it.  A walker stands in a whole list, of which the parser may
see a stretch: other tokens may stand behind it, and numbers may have been given out and faults
reported before.  `Walks` is the judgement that a walk does in such a passage what a parser does
on the stretch, unless the parser comes to the end of the stretch and there finds the end of the
text where the walker does not.

The judgement also says how far a parser gets, in three ways: it leaves fewer tokens than a bound,
it reads tokens of certain kinds only, and its walk looks at terminals of the list only, never
further back than before.
-/

namespace Lox

open Lox.Parser (State)

namespace Parser

/-- What a parser can do to its state: read tokens of the given kinds. -/
structure State.Advances (A : Token.Kind → Prop) (s t : State) : Prop where
  reads : ∃ front, s.rest = front ++ t.rest ∧ ∀ x ∈ front, A x.kind
  endLine : t.endLine = s.endLine

namespace State.Advances

variable {A : Token.Kind → Prop}
variable {s t u : State}

theorem of_rest_eq
    (hrest : t.rest = s.rest)
    (hend : t.endLine = s.endLine) :
    s.Advances A t where
  reads := ⟨[], by simp [hrest], by simp⟩
  endLine := hend

theorem refl (s : State) : s.Advances A s :=
  of_rest_eq rfl rfl

theorem trans
    (h : s.Advances A t)
    (h' : t.Advances A u) :
    s.Advances A u where
  reads := by
    obtain ⟨front, hfront, hkinds⟩ := h.reads
    obtain ⟨front', hfront', hkinds'⟩ := h'.reads
    refine ⟨front ++ front', by rw [hfront, hfront', List.append_assoc], ?_⟩
    intro x hx
    rcases List.mem_append.mp hx with hx | hx
    · exact hkinds x hx
    · exact hkinds' x hx
  endLine := h'.endLine.trans h.endLine

theorem length_le (h : s.Advances A t) : t.rest.length ≤ s.rest.length := by
  obtain ⟨front, hfront, -⟩ := h.reads
  simp [hfront]

theorem rest_eq_nil
    (h : s.Advances A t)
    (hs : s.rest = []) :
    t.rest = [] := by
  have hlength := h.length_le
  rw [hs] at hlength
  exact List.eq_nil_of_length_eq_zero (Nat.le_zero.mp hlength)

/-- One token was read. -/
theorem token
    {x : Token}
    {rest : List Token}
    (hrest : s.rest = x :: rest)
    (hx : A x.kind) :
    s.Advances A { s with rest } where
  reads := ⟨[x], hrest, by simpa using hx⟩
  endLine := rfl

end State.Advances

end Parser

/-- A look that finds a terminal, in a list of that many tokens with the end of the text behind. -/
def Look.Within (n : Nat) : Look → Prop
  | .ahead position => position ≤ n
  | .back position => 1 ≤ position ∧ position ≤ n

/-- A walker comes from one place to another, looking at terminals of the list and not moving
backward. -/
structure Walker.Reaches (n : Nat) (k k' : Walker) : Prop where
  le : k.current ≤ k'.current
  looks : ∃ looks, k'.looks = k.looks ++ looks ∧
    (∀ x ∈ looks, x.Within n ∧ k.current ≤ x.position ∧ x.position ≤ k'.current) ∧
    looks.Pairwise fun x y => x.position ≤ y.position

namespace Walker.Reaches

variable {n : Nat}
variable {k k' k'' : Walker}

/-- Without a look. -/
theorem of_looks_eq
    (hle : k.current ≤ k'.current)
    (hlooks : k'.looks = k.looks) :
    k.Reaches n k' where
  le := hle
  looks := ⟨[], by simp [hlooks], by simp, .nil⟩

theorem refl (k : Walker) : k.Reaches n k :=
  of_looks_eq (Nat.le_refl _) rfl

theorem trans
    (h : k.Reaches n k')
    (h' : k'.Reaches n k'') :
    k.Reaches n k'' where
  le := Nat.le_trans h.le h'.le
  looks := by
    obtain ⟨looks, hlooks, hwithin, hsorted⟩ := h.looks
    obtain ⟨looks', hlooks', hwithin', hsorted'⟩ := h'.looks
    have hle := h.le
    have hle' := h'.le
    refine ⟨looks ++ looks', by rw [hlooks', hlooks, List.append_assoc], ?_, ?_⟩
    · intro x hx
      rcases List.mem_append.mp hx with hx | hx
      · obtain ⟨hx, hfrom, hto⟩ := hwithin x hx
        exact ⟨hx, hfrom, by omega⟩
      · obtain ⟨hx, hfrom, hto⟩ := hwithin' x hx
        exact ⟨hx, by omega, hto⟩
    · rw [List.pairwise_append]
      refine ⟨hsorted, hsorted', ?_⟩
      intro x hx y hy
      have hto := (hwithin x hx).2.2
      have hfrom := (hwithin' y hy).2.1
      omega

/-- A look from where the walker stands. -/
theorem look
    {x : Look}
    (hx : x.Within n)
    (hposition : x.position = k.current) :
    k.Reaches n (k.look x) where
  le := Nat.le_refl _
  looks := by
    refine ⟨[x], rfl, ?_, List.pairwise_singleton _ _⟩
    intro y hy
    rw [List.mem_singleton] at hy
    subst hy
    exact ⟨hx, Nat.le_of_eq hposition.symm, Nat.le_of_eq hposition⟩

end Walker.Reaches

/-- A list of tokens in which a parser sees a stretch: what stands behind the stretch, how many
references were numbered before, and which faults were reported. -/
structure Passage where
  tokens : List Token
  endLine : Nat
  behind : List Token
  ids : Nat
  errors : List SyntaxError

namespace Passage

variable {α β γ δ : Type}

/-- The list that a walker walks along. -/
def terminals (c : Passage) : List Terminal :=
  c.tokens.map .token ++ [.eof c.endLine]

/-- The walker stands where the parser stands. -/
structure Stands (c : Passage) (s : State) (k : Walker) : Prop where
  le : k.current ≤ c.tokens.length
  rest : c.tokens.drop k.current = s.rest ++ c.behind
  nextId : k.nextId = s.nextId + c.ids
  errors : k.errors = c.errors ++ s.errors

/-- Where the stretch ends, so does the list, and on the same line. -/
def Shows (c : Passage) (s : State) : Prop :=
  s.rest = [] → c.behind = [] ∧ s.endLine = c.endLine

/-- The token that stands behind the walker. -/
def Passed (c : Passage) (s : State) (t : Token) : Prop :=
  ∃ front, c.tokens = front ++ t :: (s.rest ++ c.behind)

variable {c : Passage}
variable {s s' s'' : State}
variable {k : Walker}
variable {t : Token}
variable {rest : List Token}

theorem shows_of_rest (h : s.rest = t :: rest) : c.Shows s := by
  intro hnil
  rw [h] at hnil
  cases hnil

theorem Shows.of_advances
    {A : Token.Kind → Prop}
    (h : c.Shows s')
    (hadvances : s.Advances A s') :
    c.Shows s := by
  intro hnil
  obtain ⟨hbehind, hend⟩ := h (hadvances.rest_eq_nil hnil)
  exact ⟨hbehind, hadvances.endLine.symm.trans hend⟩

namespace Stands

theorem front (h : c.Stands s k) : c.tokens = c.tokens.take k.current ++ (s.rest ++ c.behind) := by
  rw [← h.rest, List.take_append_drop]

theorem length (h : c.Stands s k) :
    k.current + (s.rest.length + c.behind.length) = c.tokens.length := by
  have hlength := congrArg List.length h.rest
  have hle := h.le
  simp only [List.length_drop, List.length_append] at hlength
  omega

/-- What the parser finds next is the terminal in front of the walker. -/
theorem next
    (h : c.Stands s k)
    (hshows : c.Shows s) :
    c.terminals[k.current]? = some s.next := by
  have hlength := h.length
  cases hrest : s.rest with
  | nil =>
      obtain ⟨hbehind, hend⟩ := hshows hrest
      have hcurrent : k.current = c.tokens.length := by
        simpa [hrest, hbehind] using hlength
      simp [terminals, hcurrent, State.next, hrest, hend]
  | cons t rest =>
      have hlt : k.current < c.tokens.length := by
        simp only [hrest, List.length_cons] at hlength
        omega
      have hat : c.tokens[k.current]? = some t := by
        have hhead := congrArg List.head? h.rest
        simpa [List.head?_drop, hrest] using hhead
      rw [terminals, List.getElem?_append_left (by simpa using hlt), List.getElem?_map, hat]
      simp [State.next, hrest]

/-- Moving over a token of the stretch. -/
theorem step
    (h : c.Stands s k)
    (hrest : s.rest = t :: rest) :
    c.Stands { s with rest } { k with current := k.current + 1 } where
  le := by
    have hlength := h.length
    simp only [hrest, List.length_cons] at hlength
    exact (by omega : k.current + 1 ≤ c.tokens.length)
  rest := by
    have htail := congrArg List.tail h.rest
    simpa [hrest] using htail
  nextId := h.nextId
  errors := h.errors

theorem passed
    (h : c.Stands s k)
    (hrest : s.rest = t :: rest) :
    c.Passed { s with rest } t := by
  refine ⟨c.tokens.take k.current, ?_⟩
  have hfront := h.front
  rw [hrest] at hfront
  exact hfront

/-- The token that was moved over stands behind the walker. -/
theorem previous
    (h : c.Stands s k)
    (hpassed : c.Passed s t) :
    1 ≤ k.current ∧ c.terminals[k.current - 1]? = some (.token t) := by
  obtain ⟨front, htokens⟩ := hpassed
  have hlength := h.length
  rw [htokens] at hlength
  simp only [List.length_append, List.length_cons] at hlength
  have hcurrent : k.current - 1 = front.length := by
    omega
  refine ⟨by omega, ?_⟩
  simp [terminals, hcurrent, htokens]

end Stands

/-- A walk from wherever the parser stands in the one state to where it stands in the other. -/
def Runs (c : Passage) (s : State) (w : Walk β) (r : Except SyntaxError β) (s' : State) : Prop :=
  ∀ k, c.Stands s k →
    ∃ k', w c.terminals k = some (r, k') ∧ c.Stands s' k' ∧ k.Reaches c.tokens.length k'

end Passage

/-- The second walk goes on where the first one succeeded. -/
theorem Walk.bind_apply
    {α β : Type}
    (w : Walk α)
    (v : α → Walk β)
    (terminals : List Terminal)
    (k : Walker) :
    (w >>= v) terminals k =
      match w terminals k with
      | none => none
      | some (.ok a, k) => v a terminals k
      | some (.error e, k) => some (.error e, k) := by
  change (w terminals k).bind _ = _
  rcases w terminals k with _ | ⟨_ | _, _⟩ <;> rfl

namespace Passage

variable {α β γ δ : Type}
variable {c : Passage}
variable {s s' s'' : State}
variable {t : Token}
variable {rest : List Token}

namespace Runs

theorem pure (b : β) : c.Runs s (Pure.pure b) (.ok b) s :=
  fun k hk => ⟨k, rfl, hk, .refl k⟩

theorem bind
    {w : Walk α}
    {v : α → Walk β}
    {a : α}
    {r : Except SyntaxError β}
    (hw : c.Runs s w (.ok a) s')
    (hv : c.Runs s' (v a) r s'') :
    c.Runs s (w >>= v) r s'' := by
  intro k hk
  obtain ⟨k', hrun, hk', hreach⟩ := hw k hk
  obtain ⟨k'', hrun', hk'', hreach'⟩ := hv k' hk'
  refine ⟨k'', ?_, hk'', hreach.trans hreach'⟩
  rw [Walk.bind_apply, hrun]
  exact hrun'

end Runs

theorem runs_peek (h : c.Shows s) : c.Runs s Walk.peek (.ok s.next) s := by
  intro k hk
  refine ⟨k.look (.ahead k.current), ?_, ⟨hk.le, hk.rest, hk.nextId, hk.errors⟩, ?_⟩
  · simp [Walk.peek, hk.next h]
  · exact .look hk.le rfl

theorem runs_previous (h : c.Passed s t) : c.Runs s Walk.previous (.ok t) s := by
  intro k hk
  obtain ⟨hpos, hprevious⟩ := hk.previous h
  refine ⟨k.look (.back k.current), ?_, ⟨hk.le, hk.rest, hk.nextId, hk.errors⟩, ?_⟩
  · simp [Walk.previous, Nat.ne_of_gt hpos, hprevious]
  · exact .look ⟨hpos, hk.le⟩ rfl

theorem runs_step (h : s.rest = t :: rest) : c.Runs s Walk.step (.ok ()) { s with rest } :=
  fun _ hk => ⟨_, rfl, hk.step h, .of_looks_eq (Nat.le_succ _) rfl⟩

theorem runs_file (e : SyntaxError) : c.Runs s (Walk.file e) (.ok ()) (s.report e) := by
  intro k hk
  refine ⟨_, rfl, ⟨hk.le, hk.rest, hk.nextId, ?_⟩, .of_looks_eq (Nat.le_refl _) rfl⟩
  simp [State.report, hk.errors]

theorem runs_fresh :
    c.Runs s Walk.fresh (.ok (s.nextId + c.ids)) { s with nextId := s.nextId + 1 } := by
  intro k hk
  refine ⟨{ k with nextId := k.nextId + 1 }, ?_, ⟨hk.le, hk.rest, ?_, hk.errors⟩,
    .of_looks_eq (Nat.le_refl _) rfl⟩
  · simp [Walk.fresh, hk.nextId]
  · have hnext := hk.nextId
    simp only
    omega

theorem runs_atEnd (h : c.Shows s) : c.Runs s Walk.atEnd (.ok s.rest.isEmpty) s := by
  refine (runs_peek h).bind ?_
  cases hrest : s.rest with
  | nil =>
      simp only [State.next, hrest]
      exact .pure true
  | cons t rest =>
      simp only [State.next, hrest]
      exact .pure false

theorem runs_fail
    (h : c.Shows s)
    (fault : SyntaxFault) :
    c.Runs s (Walk.fail fault : Walk α) (.error ⟨s.next, fault⟩) s := by
  refine (runs_peek h).bind ?_
  intro k hk
  exact ⟨k, rfl, hk, .refl k⟩

theorem runs_reportNext
    (h : c.Shows s)
    (fault : SyntaxFault) :
    c.Runs s (Walk.reportNext fault) (.ok ()) (s.report ⟨s.next, fault⟩) :=
  (runs_peek h).bind (runs_file _)

/-- Moving over a token gives that token, which then stands behind. -/
theorem runs_advance (h : s.rest = t :: rest) : c.Runs s Walk.advance (.ok t) { s with rest } := by
  intro k hk
  have hmove : c.Runs s Walk.advance (.ok t) { s with rest } := by
    refine (runs_atEnd (shows_of_rest h)).bind ?_
    simp only [h, List.isEmpty_cons, Bool.false_eq_true, if_false]
    exact (runs_step h).bind (runs_previous (hk.passed h))
  exact hmove k hk

/-- At the end of the text there is nothing to move over, but a token stands behind if there is one
at all. -/
theorem exists_runs_advance
    (hrest : s.rest = [])
    (hshows : c.Shows s)
    (htokens : c.tokens ≠ []) :
    ∃ t, c.Runs s Walk.advance (.ok t) s := by
  have hbehind := (hshows hrest).1
  obtain ⟨front, t, hlast⟩ := (List.eq_nil_or_concat c.tokens).resolve_left htokens
  have hpassed : c.Passed s t := ⟨front, by simp [hlast, hrest, hbehind]⟩
  refine ⟨t, ?_⟩
  refine (runs_atEnd hshows).bind ?_
  simp only [hrest, List.isEmpty_nil, if_true]
  exact runs_previous hpassed

theorem runs_check
    (h : c.Shows s)
    (kind : Token.Kind) :
    c.Runs s (Walk.check kind) (Parser.check kind s).1 s := by
  refine (runs_atEnd h).bind ?_
  cases hrest : s.rest with
  | nil =>
      simp only [Parser.check, hrest, List.isEmpty_nil, if_true]
      exact .pure false
  | cons t rest =>
      simp only [Parser.check, hrest, List.isEmpty_cons, Bool.false_eq_true, if_false]
      refine (runs_peek h).bind ?_
      simp only [State.next, hrest]
      exact .pure _

theorem runs_accept_hit
    (h : s.rest = t :: rest) :
    c.Runs s (Walk.accept t.kind) (.ok true) { s with rest } := by
  have hcheck := runs_check (c := c) (shows_of_rest h) t.kind
  simp only [Parser.check, h, decide_true] at hcheck
  exact hcheck.bind ((runs_advance h).bind (.pure true))

theorem runs_accept_miss
    {kind : Token.Kind}
    (h : c.Shows s)
    (hmiss : Parser.Avoids [kind] s.rest) :
    c.Runs s (Walk.accept kind) (.ok false) s := by
  have hcheck := runs_check h kind
  rw [Parser.check_miss hmiss] at hcheck
  exact hcheck.bind (.pure false)

theorem runs_acceptAny?_miss
    {kinds : List Token.Kind}
    (h : c.Shows s)
    (hmiss : Parser.Avoids kinds s.rest) :
    c.Runs s (Walk.acceptAny? kinds) (.ok none) s := by
  have hnone : c.Runs s (Walk.acceptAny kinds) (.ok false) s := by
    induction kinds with
    | nil =>
        exact .pure false
    | cons kind others ih =>
        have hfirst : Parser.Avoids [kind] s.rest := hmiss.mono (by simp)
        have hothers : Parser.Avoids others s.rest := hmiss.mono (List.subset_cons_self kind others)
        exact (runs_accept_miss h hfirst).bind (ih hothers)
  exact hnone.bind (.pure none)

theorem runs_acceptAny?_hit
    {kinds : List Token.Kind}
    (h : s.rest = t :: rest)
    (hkind : t.kind ∈ kinds) :
    c.Runs s (Walk.acceptAny? kinds) (.ok (some t)) { s with rest } := by
  have hsome : c.Runs s (Walk.acceptAny kinds) (.ok true) { s with rest } := by
    induction kinds with
    | nil =>
        cases hkind
    | cons kind others ih =>
        by_cases hfirst : t.kind = kind
        · subst hfirst
          exact (runs_accept_hit h).bind (.pure true)
        · have hmiss : Parser.Avoids [kind] s.rest := by
            rw [h]
            exact Parser.avoids_cons (by simpa using hfirst)
          have hothers : t.kind ∈ others := by
            rcases List.mem_cons.mp hkind with hkind | hkind
            · exact absurd hkind hfirst
            · exact hkind
          exact (runs_accept_miss (shows_of_rest h) hmiss).bind (ih hothers)
  intro k hk
  have hall : c.Runs s (Walk.acceptAny? kinds) (.ok (some t)) { s with rest } :=
    hsome.bind ((runs_previous (hk.passed h)).bind (.pure (some t)))
  exact hall k hk

/-- The walk runs like this with enough fuel, however much that is. -/
def Arrives (c : Passage) (s : State) (w : Nat → Walk β) (r : Except SyntaxError β) (s' : State) :
    Prop :=
  ∀ k, c.Stands s k →
    ∃ k', (∃ enough, ∀ fuel, enough ≤ fuel → w fuel c.terminals k = some (r, k')) ∧
      c.Stands s' k' ∧ k.Reaches c.tokens.length k'

namespace Arrives

theorem of_runs
    {w : Walk β}
    {r : Except SyntaxError β}
    (h : c.Runs s w r s') :
    c.Arrives s (fun _ => w) r s' := by
  intro k hk
  obtain ⟨k', hrun, hk', hreach⟩ := h k hk
  exact ⟨k', ⟨0, fun _ _ => hrun⟩, hk', hreach⟩

/-- One call takes one unit of fuel. -/
theorem unfold
    {w v : Nat → Walk β}
    {r : Except SyntaxError β}
    (hw : ∀ fuel, w (fuel + 1) = v fuel)
    (h : c.Arrives s v r s') :
    c.Arrives s w r s' := by
  intro k hk
  obtain ⟨k', ⟨enough, hrun⟩, hk', hreach⟩ := h k hk
  refine ⟨k', ⟨enough + 1, ?_⟩, hk', hreach⟩
  intro fuel hfuel
  obtain ⟨fuel, rfl⟩ := Nat.exists_eq_add_of_le' (Nat.le_of_add_left_le hfuel)
  rw [hw]
  exact hrun fuel (Nat.le_of_succ_le_succ hfuel)

theorem bind
    {w : Nat → Walk α}
    {v : Nat → α → Walk β}
    {a : α}
    {r : Except SyntaxError β}
    (hw : c.Arrives s w (.ok a) s')
    (hv : c.Arrives s' (fun fuel => v fuel a) r s'') :
    c.Arrives s (fun fuel => w fuel >>= v fuel) r s'' := by
  intro k hk
  obtain ⟨k', ⟨enough, hrun⟩, hk', hreach⟩ := hw k hk
  obtain ⟨k'', ⟨enough', hrun'⟩, hk'', hreach'⟩ := hv k' hk'
  refine ⟨k'', ⟨max enough enough', ?_⟩, hk'', hreach.trans hreach'⟩
  intro fuel hfuel
  rw [Nat.max_le] at hfuel
  simp only [Walk.bind_apply, hrun fuel hfuel.1]
  exact hrun' fuel hfuel.2

theorem bind_error
    {w : Nat → Walk α}
    {v : Nat → α → Walk β}
    {e : SyntaxError}
    (hw : c.Arrives s w (.error e) s') :
    c.Arrives s (fun fuel => w fuel >>= v fuel) (.error e) s' := by
  intro k hk
  obtain ⟨k', ⟨enough, hrun⟩, hk', hreach⟩ := hw k hk
  refine ⟨k', ⟨enough, ?_⟩, hk', hreach⟩
  intro fuel hfuel
  simp only [Walk.bind_apply, hrun fuel hfuel]

end Arrives

/-- A walk without fuel, and then one with fuel. -/
theorem Runs.bind_arrives
    {w : Walk α}
    {v : Nat → α → Walk β}
    {a : α}
    {r : Except SyntaxError β}
    (hw : c.Runs s w (.ok a) s')
    (hv : c.Arrives s' (fun fuel => v fuel a) r s'') :
    c.Arrives s (fun fuel => w >>= v fuel) r s'' :=
  (Arrives.of_runs hw).bind hv

end Passage

namespace Parser

variable {α β γ δ : Type}
variable {c : Passage}
variable {A : Token.Kind → Prop}
variable {m n : Nat}

instance : LawfulMonad Parser :=
  LawfulMonad.mk' Parser
    (by
      intro α p
      funext s
      change (p >>= fun a => Pure.pure (id a)) s = p s
      rw [bind_apply]
      rcases p s with ⟨_ | _, _⟩ <;> rfl)
    (by
      intro α β a g
      rfl)
    (by
      intro α β γ p g h
      funext s
      simp only [bind_apply]
      rcases p s with ⟨_ | _, _⟩ <;> rfl)

theorem exists_of_not_avoids
    {kind : Token.Kind}
    {rest : List Token}
    (h : ¬ Avoids [kind] rest) :
    ∃ t tail, rest = t :: tail ∧ t.kind = kind := by
  cases rest with
  | nil =>
      exact absurd (avoids_nil _) h
  | cons t tail =>
      refine ⟨t, tail, rfl, ?_⟩
      apply Classical.byContradiction
      intro hkind
      exact h (avoids_cons (by simpa using hkind))

theorem expect_miss
    {kind : Token.Kind}
    {fault : SyntaxFault}
    {s : State}
    (h : Avoids [kind] s.rest) :
    expect kind fault s = (.error ⟨s.next, fault⟩, s) := by
  obtain ⟨rest, endLine, i, errors⟩ := s
  rw [expect, bind_apply, accept?_miss h]
  rfl

/-- On fewer than `m` tokens the parser reads tokens of the kinds `A` and leaves fewer than `bound`
says, and in the passage the walk does, with enough fuel, what the parser does; `f` turns what the
parser gives into what the walk gives. -/
def Walks (c : Passage) (A : Token.Kind → Prop) (m : Nat) (f : α → β) (p : Parser α)
    (w : Nat → Walk β) (bound : α → Nat) : Prop :=
  ∀ s : State, s.rest.length < m →
    s.Advances A (p s).2 ∧
      (∀ a, (p s).1 = .ok a → (p s).2.rest.length < bound a) ∧
        (c.Shows (p s).2 → c.Arrives s w ((p s).1.map f) (p s).2)

namespace Walks

variable {f : α → β}
variable {p : Parser α}
variable {w : Nat → Walk β}
variable {bound bound' : α → Nat}

/-- No list has fewer than no tokens. -/
theorem none : Walks c A 0 f p w bound := by
  intro s hs
  cases hs

theorem mono
    (h : Walks c A m f p w bound)
    (hm : n ≤ m)
    (hbound : ∀ a, bound a ≤ bound' a) :
    Walks c A n f p w bound' := by
  intro s hs
  obtain ⟨hadvances, hleaves, hruns⟩ := h s (Nat.lt_of_lt_of_le hs hm)
  exact ⟨hadvances, fun a ha => Nat.lt_of_lt_of_le (hleaves a ha) (hbound a), hruns⟩

/-- No parser leaves more tokens than it found. -/
theorem stays
    (h : Walks c A m f p w bound)
    (hm : n ≤ m) :
    Walks c A n f p w fun _ => n := by
  intro s hs
  obtain ⟨hadvances, -, hruns⟩ := h s (Nat.lt_of_lt_of_le hs hm)
  exact ⟨hadvances, fun _ _ => Nat.lt_of_le_of_lt hadvances.length_le hs, hruns⟩

theorem pure
    {a : α}
    {b : β}
    (hf : f a = b)
    (hbound : m ≤ bound a) :
    Walks c A m f (Pure.pure a) (fun _ => Pure.pure b) bound := by
  intro s hs
  refine ⟨.refl s, ?_, ?_⟩
  · intro a' ha'
    cases ha'
    exact Nat.lt_of_lt_of_le hs hbound
  · intro _
    rw [← hf]
    exact .of_runs (.pure (f a))

/-- One call takes one unit of fuel. -/
theorem unfold
    {v : Nat → Walk β}
    (hw : ∀ fuel, w (fuel + 1) = v fuel)
    (h : Walks c A m f p v bound) :
    Walks c A m f p w bound := by
  intro s hs
  obtain ⟨hadvances, hleaves, hruns⟩ := h s hs
  exact ⟨hadvances, hleaves, fun hshows => (hruns hshows).unfold hw⟩

theorem bind
    {g : γ → δ}
    {q : α → Parser γ}
    {v : Nat → β → Walk δ}
    {bound'' : γ → Nat}
    (hp : Walks c A m f p w bound)
    (hq : ∀ a, Walks c A (bound a) g (q a) (fun fuel => v fuel (f a)) bound'') :
    Walks c A m g (p >>= q) (fun fuel => w fuel >>= v fuel) bound'' := by
  intro s hs
  obtain ⟨hadvances, hleaves, hruns⟩ := hp s hs
  rw [bind_apply]
  rcases hrun : p s with ⟨result, s'⟩
  rw [hrun] at hadvances hleaves hruns
  cases result with
  | error e =>
      refine ⟨hadvances, ?_, fun hshows => (hruns hshows).bind_error⟩
      intro a ha
      cases ha
  | ok a =>
      obtain ⟨hadvances', hleaves', hruns'⟩ := hq a s' (hleaves a rfl)
      refine ⟨hadvances.trans hadvances', hleaves', ?_⟩
      intro hshows
      exact (hruns (hshows.of_advances hadvances')).bind (hruns' hshows)

/-- Both branch the same way. -/
theorem ite
    {q : Parser α}
    {v : Nat → Walk β}
    {b : Prop}
    [Decidable b]
    (hp : b → Walks c A m f p w bound)
    (hq : ¬ b → Walks c A m f q v bound) :
    Walks c A m f (if b then p else q) (fun fuel => if b then w fuel else v fuel) bound := by
  by_cases h : b
  · simp only [if_pos h]
    exact hp h
  · simp only [if_neg h]
    exact hq h

/-- A parser that counts the tokens left, where the walk does not. -/
theorem remaining
    {q : Nat → Parser α}
    (h : ∀ n, n < m → Walks c A (n + 1) f (q n) w bound) :
    Walks c A m f (Parser.remaining >>= q) w bound := by
  intro s hs
  exact h s.rest.length hs s (Nat.lt_succ_self _)

/-- A parser that has come to its bound gives what it has: there are no tokens left, and then the
walk does so too. -/
theorem exhausted
    {a : α}
    (hm : m ≤ 1)
    (hbound : m ≤ bound a)
    (hw : ∀ s : State, s.rest = [] → c.Shows s → c.Arrives s w (.ok (f a)) s) :
    Walks c A m f (Pure.pure a) w bound := by
  intro s hs
  have hrest : s.rest = [] := List.eq_nil_of_length_eq_zero (by omega)
  refine ⟨.refl s, ?_, hw s hrest⟩
  intro a' ha'
  cases ha'
  exact Nat.lt_of_lt_of_le hs hbound

end Walks

theorem walks_fail
    (f : α → β)
    (fault : SyntaxFault)
    (bound : α → Nat) :
    Walks c A m f (fail fault) (fun _ => Walk.fail fault) bound := by
  intro s hs
  refine ⟨.refl s, ?_, fun hshows => .of_runs (Passage.runs_fail hshows fault)⟩
  intro a ha
  cases ha

theorem walks_report
    (found : Terminal)
    (fault : SyntaxFault) :
    Walks c A m id (report found fault) (fun _ => Walk.file ⟨found, fault⟩) fun _ => m := by
  intro s hs
  exact ⟨.of_rest_eq rfl rfl, fun _ _ => hs, fun _ => .of_runs (Passage.runs_file _)⟩

theorem walks_reportNext
    (fault : SyntaxFault) :
    Walks c A m id (reportNext fault) (fun _ => Walk.reportNext fault) fun _ => m := by
  intro s hs
  refine ⟨.of_rest_eq rfl rfl, fun _ _ => hs, fun hshows => ?_⟩
  have hfront : c.Shows s := hshows
  exact .of_runs (Passage.runs_reportNext hfront fault)

theorem walks_fresh : Walks c A m (· + c.ids) fresh (fun _ => Walk.fresh) fun _ => m := by
  intro s hs
  exact ⟨.of_rest_eq rfl rfl, fun _ _ => hs, fun _ => .of_runs Passage.runs_fresh⟩

theorem walks_atEnd : Walks c A m id atEnd (fun _ => Walk.atEnd) fun _ => m := by
  intro s hs
  exact ⟨.refl s, fun _ _ => hs, fun hshows => .of_runs (Passage.runs_atEnd hshows)⟩

theorem walks_check
    (kind : Token.Kind) :
    Walks c A m id (check kind) (fun _ => Walk.check kind) fun _ => m := by
  intro s hs
  have hstate : (check kind s).2 = s := by
    unfold check
    split <;> rfl
  rw [hstate]
  refine ⟨.refl s, fun _ _ => hs, fun hshows => .of_runs ?_⟩
  have hruns := Passage.runs_check hshows kind
  cases hrest : s.rest with
  | nil =>
      simpa [check, hrest, Except.map] using hruns
  | cons t rest =>
      simpa [check, hrest, Except.map] using hruns

/-- One token fewer is left if a token was accepted. -/
theorem walks_acceptAny?
    {kinds : List Token.Kind}
    (hkinds : ∀ kind ∈ kinds, A kind) :
    Walks c A m id (acceptAny? kinds) (fun _ => Walk.acceptAny? kinds) fun found =>
      cond found.isSome (m - 1) m := by
  rintro ⟨rest, endLine, nextId, errors⟩ hs
  cases rest with
  | nil =>
      refine ⟨.refl _, ?_, fun hshows => .of_runs
        (Passage.runs_acceptAny?_miss hshows (avoids_nil _))⟩
      intro found hfound
      cases hfound
      exact hs
  | cons t rest =>
      by_cases hkind : t.kind ∈ kinds
      · rw [acceptAny?_hit hkind]
        refine ⟨.token rfl (hkinds _ hkind), ?_, fun _ => .of_runs
          (Passage.runs_acceptAny?_hit rfl hkind)⟩
        intro found hfound
        cases hfound
        exact Nat.lt_sub_of_add_lt hs
      · have hmiss : Avoids kinds (t :: rest) := avoids_cons hkind
        rw [acceptAny?_miss hmiss]
        refine ⟨.refl _, ?_, fun hshows => .of_runs
          (Passage.runs_acceptAny?_miss hshows hmiss)⟩
        intro found hfound
        cases hfound
        exact hs

theorem walks_accept
    {kind : Token.Kind}
    (hkind : A kind) :
    Walks c A m id (accept kind) (fun _ => Walk.accept kind) fun found =>
      cond found (m - 1) m := by
  rintro ⟨rest, endLine, nextId, errors⟩ hs
  by_cases hmiss : Avoids [kind] rest
  · rw [accept_miss hmiss]
    refine ⟨.refl _, ?_, fun hshows => .of_runs (Passage.runs_accept_miss hshows hmiss)⟩
    intro found hfound
    cases hfound
    exact hs
  · obtain ⟨t, tail, rfl, rfl⟩ := exists_of_not_avoids hmiss
    rw [accept_hit rfl]
    refine ⟨.token rfl hkind, ?_, fun _ => .of_runs (Passage.runs_accept_hit rfl)⟩
    intro found hfound
    cases hfound
    exact Nat.lt_sub_of_add_lt hs

theorem walks_expect
    {kind : Token.Kind}
    (hkind : A kind)
    (fault : SyntaxFault) :
    Walks c A m id (expect kind fault) (fun _ => Walk.expect kind fault) fun _ => m - 1 := by
  rintro ⟨rest, endLine, nextId, errors⟩ hs
  by_cases hmiss : Avoids [kind] rest
  · rw [expect_miss hmiss]
    refine ⟨.refl _, ?_, fun hshows => .of_runs ?_⟩
    · intro found hfound
      cases hfound
    · have hcheck := Passage.runs_check hshows kind
      rw [check_miss hmiss] at hcheck
      exact hcheck.bind (Passage.runs_fail hshows fault)
  · obtain ⟨t, tail, rfl, rfl⟩ := exists_of_not_avoids hmiss
    rw [expect_hit rfl]
    refine ⟨.token rfl hkind, ?_, fun _ => .of_runs ?_⟩
    · intro found hfound
      cases hfound
      exact Nat.lt_sub_of_add_lt hs
    · have hcheck := Passage.runs_check (c := c) (s := ⟨t :: tail, endLine, nextId, errors⟩)
        (Passage.shows_of_rest rfl) t.kind
      rw [check_hit rfl] at hcheck
      exact hcheck.bind (Passage.runs_advance rfl)

section Lists

variable {f : α → β}
variable {item : Parser α}
variable {v : Nat → Walk β}

/-- Every further item has a comma in front, so that the bound on their number is never what ends
the list. -/
theorem walks_commaSeparated
    {excess : SyntaxFault}
    {w : Nat → Nat → Walk (List β)}
    (hw : ∀ fuel before, w (fuel + 1) before = (do
      if maxArity ≤ before then
        Walk.reportNext excess
      let first ← v fuel
      if ← Walk.accept (.punct .comma) then
        let others ← w fuel (before + 1)
        return first :: others
      else
        return [first]))
    (hcomma : A (.punct .comma))
    (hitem : Walks c A m f item v fun _ => m)
    (count before : Nat)
    (hm : n ≤ m)
    (hcount : n ≤ count) :
    Walks c A n (List.map f) (commaSeparated item excess count before)
      (fun fuel => w fuel before) fun _ => n := by
  induction count generalizing before n with
  | zero =>
      obtain rfl : n = 0 := by
        omega
      exact .none
  | succ count ih =>
      have hitems : Walks c A n (List.map f)
          (do
            let first ← item
            if ← accept (.punct .comma) then
              return first :: (← commaSeparated item excess count (before + 1))
            else
              return [first])
          (fun fuel => do
            let first ← v fuel
            if ← Walk.accept (.punct .comma) then
              let others ← w fuel (before + 1)
              return first :: others
            else
              return [first])
          fun _ => n := by
        refine (hitem.stays hm).bind fun first => (walks_accept hcomma).bind fun more => ?_
        cases more with
        | false =>
            exact .pure rfl (Nat.le_refl n)
        | true =>
            have hothers := ih (n := n - 1) (before + 1) (by omega) (by omega)
            exact hothers.bind fun others => .pure rfl (Nat.sub_le n 1)
      refine .unfold (fun fuel => hw fuel before) ?_
      rw [commaSeparated]
      exact .ite (fun _ => (walks_reportNext excess).bind fun _ => hitems) fun _ => hitems

theorem walks_parenthesized
    {excess : SyntaxFault}
    {w : Nat → Nat → Walk (List β)}
    (hw : ∀ fuel before, w (fuel + 1) before = (do
      if maxArity ≤ before then
        Walk.reportNext excess
      let first ← v fuel
      if ← Walk.accept (.punct .comma) then
        let others ← w fuel (before + 1)
        return first :: others
      else
        return [first]))
    (hcomma : A (.punct .comma))
    (hitem : Walks c A m f item v fun _ => m) :
    Walks c A m (List.map f) (parenthesized item excess)
      (fun fuel => do
        if ← Walk.check (.punct .rightParen) then
          return []
        else
          w fuel 0)
      fun _ => m := by
  refine (walks_check _).bind fun closes => .ite (fun _ => .pure rfl (Nat.le_refl m)) fun _ => ?_
  refine .remaining fun count hcount => ?_
  have hlist := walks_commaSeparated hw hcomma hitem (count + 1) 0 hcount (Nat.le_refl _)
  exact hlist.mono (Nat.le_refl _) fun _ => hcount

/-- Every item takes a token as long as there are tokens, so that the bound on their number is never
what ends the list. -/
theorem walks_manyUntil
    {done : Parser Bool}
    {ended : Walk Bool}
    {w : Nat → Walk (List β)}
    (hw : ∀ fuel, w (fuel + 1) = (do
      if ← ended then
        return []
      else
        let first ← v fuel
        let others ← w fuel
        return first :: others))
    (hdone : ∀ n, Walks c A n id done (fun _ => ended) fun _ => n)
    (hends : ∀ s : State, s.rest = [] → c.Shows s → c.Runs s ended (.ok true) s)
    (hitem : ∀ n ≤ m, Walks c A n f item v fun _ => max (n - 1) 1)
    (count : Nat)
    (hm : n ≤ m)
    (hcount : n ≤ count + 1) :
    Walks c A n (List.map f) (manyUntil done item count) w fun _ => n := by
  induction count generalizing n with
  | zero =>
      refine .exhausted hcount (Nat.le_refl n) ?_
      intro s hrest hshows
      exact .unfold hw ((hends s hrest hshows).bind_arrives (.of_runs (.pure [])))
  | succ count ih =>
      rcases Nat.eq_zero_or_pos n with rfl | hpos
      · exact .none
      · refine .unfold hw ?_
        rw [manyUntil]
        refine (hdone n).bind fun ends => .ite (fun _ => .pure rfl (Nat.le_refl n)) fun _ => ?_
        refine (hitem n hm).bind fun first => ?_
        have hothers := ih (n := max (n - 1) 1) (by omega) (by omega)
        exact hothers.bind fun others => .pure rfl (by omega)

end Lists

end Parser

end Lox
