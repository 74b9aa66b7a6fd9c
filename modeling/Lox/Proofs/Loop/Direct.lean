import Lox.Proofs.Grammar.WellFormed
import Lox.Proofs.Machine.Fuel
import Lox.Proofs.Scope.Accepted
import Lox.Proofs.Tree.Renumbered

/-!
# The `for` loop by itself

There is no tree for a `for` loop, which is read as a `while` loop in blocks.  Here is the loop that
is meant, resolved and run as it stands.  Its initializer opens a scope that ends with the loop, and
nothing else in it opens one.  Before each round the condition is evaluated; a round is the body and,
if the body ended normally, the increment.

The tree that is read instead runs like this loop but for one thing: if there is an increment, each
round gets a frame of its own.  Blocks and literals take some fuel besides.
-/

namespace Lox

open Run

/-- The parts of a `for` loop. -/
structure ForLoop where
  initializer : Option Stmt
  condition : Option Expr
  increment : Option Expr
  body : Stmt
  branch : body.isBranch = true

theorem Stmt.isBranch_shifted (k : Nat) (s : Stmt) : (s.shifted k).isBranch = s.isBranch := by
  cases s <;> rfl

namespace ForLoop

/-- What the loop is read as. -/
def tree (l : ForLoop) : Stmt :=
  Grammar.forLoop l.initializer l.condition l.increment l.body

/-- The loop with larger numbers. -/
def shifted (k : Nat) (l : ForLoop) : ForLoop where
  initializer := l.initializer.map (Stmt.shifted k)
  condition := l.condition.map (Expr.shifted k)
  increment := l.increment.map (Expr.shifted k)
  body := l.body.shifted k
  branch := (Stmt.isBranch_shifted k l.body).trans l.branch

section Resolution

variable (ctx : Context)
variable (scopes : Scopes)
variable (l : ForLoop)

/-- The scopes behind the initializer. -/
def inside : Scopes :=
  match l.initializer with
  | none => scopes
  | some first => (first.resolve ctx ([] :: scopes)).1

/-- What resolution finds in the initializer. -/
def initializerFindings : List Finding :=
  match l.initializer with
  | none => []
  | some first => (first.resolve ctx ([] :: scopes)).2

/-- What resolution finds in the loop. -/
def findings : List Finding :=
  let inside := l.inside ctx scopes
  l.initializerFindings ctx scopes
    ++ Expr.findingsOption ctx inside l.condition
    ++ (l.body.resolve ctx inside).2
    ++ Expr.findingsOption ctx inside l.increment

/-- A table to which the local references of the loop are added. -/
def locals (table : Locals) : Locals :=
  ((l.findings ctx scopes).filterMap Finding.entry?).foldl
    (fun table entry => table.insert entry.1 entry.2) table

end Resolution

section Execution

/-- Goes round as long as a test holds and no round returns, at most `count` times. -/
def rounds (test : Run Bool) (round : Run Flow) : Nat → Run Flow
  | 0 => outOfFuel
  | count + 1 => do
      if ← test then
        match ← round with
        | .normal => rounds test round count
        | .returned value => return .returned value
      else
        return .normal

variable (eval : Expr → Run Value)
variable (exec : Stmt → Run Flow)
variable (l : ForLoop)

/-- Whether the condition holds; a missing one does. -/
def holds : Run Bool :=
  match l.condition with
  | none => pure true
  | some e => do
      return (← eval e).isTruthy

/-- The body and, if it ended normally, the increment. -/
def round : Run Flow := do
  match ← exec l.body with
  | .normal =>
      match l.increment with
      | none => return .normal
      | some e => do
          let _ ← eval e
          return .normal
  | .returned value => return .returned value

/-- Runs the initializer, if there is one, in a new frame, and there what follows it. -/
def opened (rest : Run Flow) : Run Flow :=
  match l.initializer with
  | none => rest
  | some first => do
      let frame ← pushFrame (← read Machine.current)
      within frame do
        match ← exec first with
        | .normal => rest
        | .returned value => return .returned value

end Execution

/-- Runs the loop. -/
def run (σ : Setting) (fuel : Nat) (l : ForLoop) : Run Flow :=
  l.opened (exec σ fuel) (rounds (l.holds (eval σ fuel)) (l.round (eval σ fuel) (exec σ fuel)) fuel)

/-- A round in a frame of its own, if there is an increment. -/
def roundApart (eval : Expr → Run Value) (exec : Stmt → Run Flow) (l : ForLoop) : Run Flow :=
  match l.increment with
  | none => exec l.body
  | some _ => do
      let frame ← pushFrame (← read Machine.current)
      within frame (l.round eval exec)

/-- Runs the loop with its rounds in frames of their own. -/
def runApart (σ : Setting) (fuel : Nat) (l : ForLoop) : Run Flow :=
  l.opened (exec σ fuel)
    (rounds (l.holds (eval σ fuel)) (l.roundApart (eval σ fuel) (exec σ fuel)) fuel)

end ForLoop

namespace Grammar

open Lox.Parser

theorem yields_forLoop
    {ts : List Token}
    {nested : Parser Stmt}
    (hnested : Yields ts nested (BranchFits ts)) :
    Yields ts (forStatement nested) fun _ tree _ => ∃ l : ForLoop, tree = l.tree := by
  refine (yields_expect _ _).bind fun left => yields_forInitializer.bind fun first => ?_
  refine (yields_optionalExpression _).bind fun condition => ?_
  refine (yields_expect _ _).bind fun semicolon => ?_
  refine (yields_optionalExpression _).bind fun increment => ?_
  refine (yields_expect _ _).bind fun right => hnested.bind fun body => .pure ?_
  rintro j k hbody l - l' - m - m' - n - i -
  exact ⟨⟨first, condition, increment, body, hbody.shaped.1⟩, rfl⟩

/-- Every `for` statement is read as the tree of a loop. -/
theorem exists_forLoop
    {depth : Nat}
    {s s' : State}
    {tree : Stmt}
    (h : forStatement (statementWithin depth) s = (.ok tree, s')) :
    ∃ l : ForLoop, tree = l.tree := by
  have hwithin : Yields s.rest (statementWithin depth) (BranchFits s.rest) :=
    (yields_within depth).1
  obtain ⟨-, -, hgives⟩ := yields_forLoop hwithin s (List.Subset.refl _)
  exact hgives tree (by rw [h])

end Grammar

namespace Run

theorem Approximates.trans
    {α : Type}
    {r r' r'' : Run α}
    (h : r.Approximates r')
    (h' : r'.Approximates r'') :
    r.Approximates r'' := by
  intro m
  rcases h m with hfuel | heq
  · exact .inl hfuel
  · rcases h' m with hfuel' | heq'
    · left
      rw [← heq]
      exact hfuel'
    · right
      rw [heq', heq]

end Run

namespace ForLoop

section Rounds

variable {test test' : Run Bool}
variable {round round' : Run Flow}

theorem rounds_approximates
    (htest : test.Approximates test')
    (hround : round.Approximates round')
    {count more : Nat}
    (hle : count ≤ more) :
    (rounds test round count).Approximates (rounds test' round' more) := by
  induction count generalizing more with
  | zero =>
      exact fun _ => .inl rfl
  | succ count ih =>
      obtain ⟨more, rfl⟩ : ∃ k, more = k + 1 := ⟨more - 1, by omega⟩
      refine htest.bind fun holds => ?_
      split
      · refine hround.bind fun flow => ?_
        cases flow with
        | normal =>
            exact ih (by omega)
        | returned value =>
            exact .refl _
      · exact .refl _

/-- A `while` loop goes round as long as its condition is truthy. -/
theorem rounds_isTruthy (condition : Run Value) (body : Run Flow) (count : Nat) :
    rounds (do return (← condition).isTruthy) body count = repeatWhile condition body count := by
  induction count with
  | zero =>
      rfl
  | succ count ih =>
      funext m
      simp only [rounds, repeatWhile, ih, bind_apply]
      rcases condition m with ⟨_ | _, _⟩ <;> rfl

end Rounds

section Opened

variable {exec exec' : Stmt → Run Flow}
variable {rest rest' : Run Flow}

theorem opened_approximates
    (l : ForLoop)
    (hexec : ∀ s, (exec s).Approximates (exec' s))
    (hrest : rest.Approximates rest') :
    (l.opened exec rest).Approximates (l.opened exec' rest') := by
  unfold opened
  cases l.initializer with
  | none =>
      exact hrest
  | some first =>
      refine (Approximates.refl _).bind fun _ => (Approximates.refl _).bind fun frame => ?_
      refine Approximates.within ?_ frame
      refine (hexec first).bind fun flow => ?_
      cases flow with
      | normal =>
          exact hrest
      | returned value =>
          exact .refl _

end Opened

section Fuel

variable (σ : Setting)
variable (l : ForLoop)

/-- The condition of the tree. -/
def treeCondition : Expr :=
  l.condition.getD (.literal (.bool true))

/-- The `while` loop in the tree. -/
def treeLoop : Stmt :=
  .loop l.treeCondition (Grammar.roundOf l.increment l.body)

theorem exec_tree (fuel : Nat) :
    exec σ (fuel + 1) l.tree =
      if l.initializer.isSome then l.opened (exec σ fuel) (exec σ fuel l.treeLoop)
      else exec σ (fuel + 1) l.treeLoop := by
  unfold tree opened
  cases l.initializer with
  | none =>
      rfl
  | some first =>
      have hbody := execAll_pair (exec σ fuel) first l.treeLoop
      simp only [Option.isSome_some, if_true]
      exact congrArg (fun body => do
        let frame ← pushFrame (← read Machine.current)
        within frame body) hbody

theorem exec_treeLoop (fuel : Nat) :
    exec σ (fuel + 1) l.treeLoop =
      rounds (do return (← eval σ fuel l.treeCondition).isTruthy)
        (exec σ fuel (Grammar.roundOf l.increment l.body)) fuel := by
  rw [rounds_isTruthy]
  rfl

theorem treeCondition_approximates (fuel : Nat) :
    (do return (← eval σ fuel l.treeCondition).isTruthy : Run Bool).Approximates
        (l.holds (eval σ fuel)) ∧
      (l.holds (eval σ fuel)).Approximates
        (do return (← eval σ (fuel + 1) l.treeCondition).isTruthy) := by
  unfold holds treeCondition
  cases l.condition with
  | none =>
      constructor
      · cases fuel with
        | zero =>
            exact fun _ => .inl rfl
        | succ fuel =>
            exact .refl _
      · exact .refl _
  | some e =>
      exact ⟨.refl _, ((approximates_of_le σ (Nat.le_succ fuel)).1 e).bind fun _ => .refl _⟩

theorem exec_roundOf
    {e : Expr}
    (hincrement : l.increment = some e)
    (fuel : Nat) :
    exec σ (fuel + 1) (Grammar.roundOf l.increment l.body) = (do
      let frame ← pushFrame (← read Machine.current)
      within frame (execAll (exec σ fuel) [l.body, .expression e])) := by
  rw [hincrement]
  rfl

theorem roundOf_approximates (fuel : Nat) :
    (exec σ fuel (Grammar.roundOf l.increment l.body)).Approximates
        (l.roundApart (eval σ fuel) (exec σ fuel)) ∧
      (l.roundApart (eval σ fuel) (exec σ fuel)).Approximates
        (exec σ (fuel + 2) (Grammar.roundOf l.increment l.body)) := by
  cases hincrement : l.increment with
  | none =>
      simp only [roundApart, hincrement]
      exact ⟨.refl _, (approximates_of_le σ (Nat.le_add_right fuel 2)).2 l.body⟩
  | some e =>
      have htree := l.exec_roundOf σ hincrement
      rw [hincrement] at htree
      simp only [roundApart, round, hincrement]
      constructor
      · cases fuel with
        | zero =>
            exact fun _ => .inl rfl
        | succ fuel =>
            obtain ⟨heval, hexec⟩ := approximates_of_le σ (Nat.le_succ fuel)
            rw [htree, execAll_pair]
            refine (Approximates.refl _).bind fun _ => (Approximates.refl _).bind fun frame => ?_
            refine ((hexec l.body).bind fun flow => ?_).within frame
            cases flow with
            | normal =>
                cases fuel with
                | zero =>
                    exact fun _ => .inl rfl
                | succ fuel =>
                    exact ((approximates_of_le σ (Nat.le_add_right fuel 2)).1 e).bind fun _ =>
                      .refl _
            | returned value =>
                exact .refl _
      · rw [htree, execAll_pair]
        obtain ⟨heval, hexec⟩ := approximates_of_le σ (Nat.le_succ fuel)
        refine (Approximates.refl _).bind fun _ => (Approximates.refl _).bind fun frame => ?_
        refine ((hexec l.body).bind fun flow => ?_).within frame
        cases flow with
        | normal =>
            exact .refl _
        | returned value =>
            exact .refl _

theorem treeLoop_approximates (fuel : Nat) :
    let apart := rounds (l.holds (eval σ fuel)) (l.roundApart (eval σ fuel) (exec σ fuel)) fuel
    (exec σ fuel l.treeLoop).Approximates apart ∧
      apart.Approximates (exec σ (fuel + 3) l.treeLoop) := by
  intro apart
  constructor
  · have h : (rounds (do return (← eval σ fuel l.treeCondition).isTruthy)
        (exec σ fuel (Grammar.roundOf l.increment l.body)) fuel).Approximates apart :=
      rounds_approximates (l.treeCondition_approximates σ fuel).1 (l.roundOf_approximates σ fuel).1
        (Nat.le_refl fuel)
    rw [← exec_treeLoop] at h
    exact ((approximates_of_le σ (Nat.le_succ fuel)).2 _).trans h
  · rw [exec_treeLoop]
    refine rounds_approximates ?_ (l.roundOf_approximates σ fuel).2 (Nat.le_add_right fuel 2)
    refine (l.treeCondition_approximates σ fuel).2.trans ?_
    exact ((approximates_of_le σ (Nat.le_succ (fuel + 1))).1 _).bind fun _ => .refl _

/-- Up to fuel, the tree runs like the loop with its rounds in frames of their own. -/
theorem tree_approximates (fuel : Nat) :
    (exec σ fuel l.tree).Approximates (l.runApart σ fuel) ∧
      (l.runApart σ fuel).Approximates (exec σ (fuel + 4) l.tree) := by
  obtain ⟨hbelow, habove⟩ := l.treeLoop_approximates σ fuel
  have hnone : l.initializer = none → ∀ rest, l.opened (exec σ fuel) rest = rest := by
    intro hinitializer rest
    simp only [opened, hinitializer]
  constructor
  · cases fuel with
    | zero =>
        exact fun _ => .inl rfl
    | succ fuel =>
        rw [exec_tree]
        cases hinitializer : l.initializer with
        | none =>
            rw [runApart, hnone hinitializer]
            exact hbelow
        | some first =>
            obtain ⟨-, hexec⟩ := approximates_of_le σ (Nat.le_succ fuel)
            exact l.opened_approximates hexec ((hexec _).trans hbelow)
  · rw [exec_tree]
    cases hinitializer : l.initializer with
    | none =>
        rw [runApart, hnone hinitializer]
        exact habove.trans ((approximates_of_le σ (Nat.le_succ (fuel + 3))).2 _)
    | some first =>
        exact l.opened_approximates (approximates_of_le σ (Nat.le_add_right fuel 3)).2 habove

end Fuel

end ForLoop

end Lox
