import Lox.Proofs.Scope.Visits

/-!
# Scopes on the walk

What the open scopes look like at each visit of name resolution.  A name that cannot be read yet
is only found in the innermost scope, while its initializer is visited; and inside classes the
scopes of `this` and `super` are open, one next to the other.
-/

namespace Lox

/-- A name that a program can declare: neither `this` nor `super`. -/
def Ordinary (name : String) : Prop :=
  name ≠ "this" ∧ name ≠ "super"

namespace Scopes

/-- All names of all scopes can be read. -/
def Settled (scopes : Scopes) : Prop :=
  ∀ scope ∈ scopes, ∀ name, scope.lookup name ≠ some false

/-- Only in the innermost scope there are names that cannot be read yet. -/
def Tidy (scopes : Scopes) : Prop :=
  ∀ (d : Nat) (scope : Scope) (name : String), scopes[d]? = some scope →
    scope.lookup name = some false → d = 0 ∧ Ordinary name

/-- The name can be read in the scope that many scopes out. -/
def ReadableAt (scopes : Scopes) (d : Nat) (name : String) : Prop :=
  ∃ scope, scopes[d]? = some scope ∧ scope.lookup name = some true

/-- The scopes of `this` and `super` as the innermost class demands. -/
def InClass (scopes : Scopes) : ClassContext → Prop
  | .none => True
  | .plain => ∃ d, scopes.distance? "this" = some d
  | .derived => ∃ d, scopes.distance? "super" = some (d + 1) ∧ scopes.distance? "this" = some d

theorem distance?_spec
    {scopes : Scopes}
    {name : String}
    {d : Nat}
    (h : scopes.distance? name = some d) :
    ∃ scope, scopes[d]? = some scope ∧ (scope.lookup name).isSome = true := by
  induction scopes generalizing d with
  | nil =>
      cases h
  | cons scope outer ih =>
      unfold distance? at h
      split at h
      · rename_i hsome
        cases h
        exact ⟨scope, rfl, hsome⟩
      · obtain ⟨d', hd', rfl⟩ := Option.map_eq_some_iff.mp h
        exact ih hd'

theorem distance?_lt
    {scopes : Scopes}
    {name : String}
    {d : Nat}
    (h : scopes.distance? name = some d) :
    d < scopes.length := by
  obtain ⟨scope, hscope, -⟩ := distance?_spec h
  exact (List.getElem?_eq_some_iff.mp hscope).1

theorem lookup_cons_of_ne
    {scope : Scope}
    {name other : String}
    {readable : Bool}
    (hne : other ≠ name) :
    List.lookup other ((name, readable) :: scope) = scope.lookup other := by
  have hbeq : (other == name) = false := by
    simpa using hne
  simp [List.lookup_cons, hbeq]

theorem lookup_cons_self
    {scope : Scope}
    {name : String}
    {readable : Bool} :
    List.lookup name ((name, readable) :: scope) = some readable := by
  simp

theorem distance?_add_of_ne
    (scopes : Scopes)
    {name other : String}
    {readable : Bool}
    (hne : other ≠ name) :
    (scopes.add name readable).distance? other = scopes.distance? other := by
  cases scopes with
  | nil =>
      rfl
  | cons scope outer =>
      simp only [add, distance?, lookup_cons_of_ne hne]

theorem distance?_push
    (scopes : Scopes)
    (name : String) :
    distance? ([] :: scopes) name = (scopes.distance? name).map (· + 1) := by
  rfl

theorem length_add
    (scopes : Scopes)
    (name : String)
    (readable : Bool) :
    (scopes.add name readable).length = scopes.length := by
  cases scopes <;> rfl

/-- What can be read next to a new name could be read before. -/
theorem readableAt_of_declare_define
    {scopes : Scopes}
    {name : Token}
    {other : String}
    {d : Nat}
    (hne : other ≠ name.lexeme)
    (h : ((scopes.declare name).define name).ReadableAt d other) :
    scopes.ReadableAt d other := by
  obtain ⟨scope, hscope, hlookup⟩ := h
  cases scopes with
  | nil =>
      cases hscope
  | cons innermost outer =>
      cases d with
      | zero =>
          cases hscope
          rw [lookup_cons_of_ne hne, lookup_cons_of_ne hne] at hlookup
          exact ⟨innermost, rfl, hlookup⟩
      | succ d =>
          exact ⟨scope, hscope, hlookup⟩

section Settled

variable {scopes : Scopes}

theorem settled_push
    (h : scopes.Settled) :
    Settled ([] :: scopes) := by
  intro scope hscope name
  rcases List.mem_cons.mp hscope with rfl | hscope
  · simp
  · exact h scope hscope name

/-- The scopes of `this` and `super` hold these words only, and they can be read. -/
theorem Settled.word
    (h : scopes.Settled)
    (word : String) :
    Settled ([(word, true)] :: scopes) := by
  intro scope hscope name
  rcases List.mem_cons.mp hscope with rfl | hscope
  · rw [List.lookup_cons]
    split <;> simp
  · exact h scope hscope name

/-- A name that is added so that it can be read leaves nothing unsettled but other names. -/
theorem Settled.add_true
    (h : ∀ scope ∈ scopes, ∀ other, other ≠ name → scope.lookup other ≠ some false)
    (houter : Settled scopes.tail) :
    Settled (scopes.add name true) := by
  cases scopes with
  | nil =>
      intro scope hscope
      cases hscope
  | cons scope outer =>
      intro scope' hscope' other
      rcases List.mem_cons.mp hscope' with rfl | hscope'
      · by_cases hother : other = name
        · subst hother
          rw [lookup_cons_self]
          simp
        · rw [lookup_cons_of_ne hother]
          exact h scope List.mem_cons_self other hother
      · exact houter scope' hscope' other

theorem Settled.define
    (h : scopes.Settled)
    (name : Token) :
    Settled (scopes.define name) := by
  apply Settled.add_true
  · intro scope hscope other _
    exact h scope hscope other
  · intro scope hscope
    exact h scope (List.mem_of_mem_tail hscope)

theorem Settled.declare_define
    (h : scopes.Settled)
    (name : Token) :
    Settled ((scopes.declare name).define name) := by
  cases scopes with
  | nil =>
      intro scope hscope
      cases hscope
  | cons scope outer =>
      apply Settled.add_true
      · intro scope' hscope' other hother
        rcases List.mem_cons.mp hscope' with rfl | hscope'
        · rw [lookup_cons_of_ne hother]
          exact h scope List.mem_cons_self other
        · exact h scope' (List.mem_cons_of_mem _ hscope') other
      · intro scope' hscope'
        exact h scope' (List.mem_cons_of_mem _ hscope')

theorem Settled.declareParams
    (h : scopes.Settled)
    (params : List Token) :
    Settled (scopes.declareParams params) := by
  induction params generalizing scopes with
  | nil =>
      exact h
  | cons p rest ih =>
      exact ih (h.define p)

theorem Settled.tidy
    (h : scopes.Settled) :
    scopes.Tidy := by
  intro d scope name hscope hfalse
  exact absurd hfalse (h scope (List.mem_of_getElem? hscope) name)

/-- While the initializer of a variable is visited, only that variable cannot be read. -/
theorem Settled.tidy_declare
    (h : scopes.Settled)
    {name : Token}
    (hname : Ordinary name.lexeme) :
    Tidy (scopes.declare name) := by
  cases scopes with
  | nil =>
      intro d scope other hscope
      cases hscope
  | cons scope outer =>
      intro d scope' other hscope hfalse
      cases d with
      | zero =>
          refine ⟨rfl, ?_⟩
          simp only [declare, add, List.getElem?_cons_zero, Option.some.injEq] at hscope
          subst hscope
          by_cases hother : other = name.lexeme
          · rw [hother]
            exact hname
          · rw [lookup_cons_of_ne hother] at hfalse
            exact absurd hfalse (h scope List.mem_cons_self other)
      | succ d =>
          simp only [declare, add, List.getElem?_cons_succ] at hscope
          exact absurd hfalse (h scope' (List.mem_cons_of_mem _ (List.mem_of_getElem? hscope)) other)

end Settled

section InClass

variable {scopes : Scopes}
variable {cls : ClassContext}

/-- The scopes of `this` and `super` are where they were. -/
theorem InClass.of_distance?
    {scopes' : Scopes}
    (h : scopes.InClass cls)
    (hsame : ∀ name, ¬ Ordinary name → scopes'.distance? name = scopes.distance? name) :
    scopes'.InClass cls := by
  have hthis := hsame "this" (by simp [Ordinary])
  have hsuper := hsame "super" (by simp [Ordinary])
  cases cls with
  | none =>
      trivial
  | plain =>
      obtain ⟨d, hd⟩ := h
      exact ⟨d, by rw [hthis, hd]⟩
  | derived =>
      obtain ⟨d, hd, hd'⟩ := h
      exact ⟨d, by rw [hsuper, hd], by rw [hthis, hd']⟩

theorem InClass.add
    (h : scopes.InClass cls)
    {name : String}
    (hname : Ordinary name)
    (readable : Bool) :
    InClass (scopes.add name readable) cls := by
  apply h.of_distance?
  intro other hother
  exact distance?_add_of_ne scopes fun heq => hother (heq ▸ hname)

theorem InClass.push
    (h : scopes.InClass cls) :
    InClass ([] :: scopes) cls := by
  cases cls with
  | none =>
      trivial
  | plain =>
      obtain ⟨d, hd⟩ := h
      exact ⟨d + 1, by simp [distance?_push, hd]⟩
  | derived =>
      obtain ⟨d, hd, hd'⟩ := h
      exact ⟨d + 1, by simp [distance?_push, hd], by simp [distance?_push, hd']⟩

theorem InClass.declareParams
    (h : scopes.InClass cls)
    {params : List Token}
    (hparams : ∀ p ∈ params, Ordinary p.lexeme) :
    InClass (scopes.declareParams params) cls := by
  induction params generalizing scopes with
  | nil =>
      exact h
  | cons p rest ih =>
      exact ih (h.add (hparams p List.mem_cons_self) true)
        fun q hq => hparams q (List.mem_cons_of_mem _ hq)

theorem inClass_methodScopes_plain
    (scopes : Scopes) :
    InClass (Stmt.methodScopes scopes false) .plain := by
  exact ⟨0, by simp [Stmt.methodScopes, distance?]⟩

theorem inClass_methodScopes_derived
    (scopes : Scopes) :
    InClass (Stmt.methodScopes scopes true) .derived := by
  exact ⟨0, by simp [Stmt.methodScopes, distance?], by simp [Stmt.methodScopes, distance?]⟩

theorem Settled.methodScopes
    (h : scopes.Settled)
    (hasSuperclass : Bool) :
    Settled (Stmt.methodScopes scopes hasSuperclass) := by
  cases hasSuperclass with
  | false =>
      exact h.word "this"
  | true =>
      exact (h.word "super").word "this"

end InClass

end Scopes

/-- Nothing that can stand as a branch changes the scopes around it. -/
theorem Stmt.resolve_branch
    (ctx : Context)
    (scopes : Scopes) :
    ∀ s : Stmt, s.Shaped → s.isBranch = true → (s.resolve ctx scopes).1 = scopes
  | .expression _, _, _ => rfl
  | .print _, _, _ => rfl
  | .block _, _, _ => rfl
  | .ret _ _, _, _ => rfl
  | .ifThen _ thenBranch, hshaped, _ =>
      resolve_branch ctx scopes thenBranch hshaped.2.2 hshaped.2.1
  | .ifElse _ thenBranch elseBranch, hshaped, _ => by
      have hfirst := resolve_branch ctx scopes thenBranch hshaped.2.2.1 hshaped.2.1
      have hsecond := resolve_branch ctx scopes elseBranch hshaped.2.2.2.2 hshaped.2.2.2.1
      simp only [Stmt.resolve, hfirst, hsecond]
  | .loop _ body, hshaped, _ =>
      resolve_branch ctx scopes body hshaped.2.2 hshaped.2.1
  | .var _ _, _, hbranch => by
      cases hbranch
  | .function _, _, hbranch => by
      cases hbranch
  | .classDecl _ _ _, _, hbranch => by
      cases hbranch

end Lox
