import Lox.Machine.Eval

/-!
# More fuel

Fuel only decides whether a run ends.  A run approximates another one if the two agree wherever the
first does not run out of fuel; every form of expression and statement keeps this order, and so more
fuel never changes how a run ended.
-/

namespace Lox

namespace Run

/-- The second run does what the first does, wherever the first does not run out of fuel. -/
def Approximates {α : Type} (r r' : Run α) : Prop :=
  ∀ m, (r m).1 = .error .outOfFuel ∨ r' m = r m

namespace Approximates

variable {α β : Type}

theorem refl (r : Run α) : r.Approximates r :=
  fun _ => .inr rfl

theorem bind
    {r r' : Run α}
    {f f' : α → Run β}
    (h : r.Approximates r')
    (hf : ∀ a, (f a).Approximates (f' a)) :
    (r >>= f).Approximates (r' >>= f') := by
  intro m
  rw [bind_apply, bind_apply]
  rcases h m with hfuel | heq
  · left
    rcases hrun : r m with ⟨_ | _, m'⟩
    · rw [hrun] at hfuel
      cases hfuel
      rfl
    · rw [hrun] at hfuel
      cases hfuel
  · rw [heq]
    rcases r m with ⟨_ | a, m'⟩
    · exact .inr rfl
    · exact hf a m'

theorem within
    {r r' : Run α}
    (h : r.Approximates r')
    (frame : Nat) :
    (within frame r).Approximates (within frame r') := by
  intro m
  rcases h { m with current := frame } with hfuel | heq
  · exact .inl hfuel
  · exact .inr (by simp only [Run.within, heq])

end Approximates

section Sequences

variable {eval eval' : Expr → Run Value}
variable {exec exec' : Stmt → Run Flow}

theorem evalAll_approximates
    (heval : ∀ e, (eval e).Approximates (eval' e)) :
    ∀ es, (evalAll eval es).Approximates (evalAll eval' es)
  | [] => .refl _
  | e :: rest => (heval e).bind fun _ => (evalAll_approximates heval rest).bind fun _ => .refl _

theorem execAll_approximates
    (hexec : ∀ s, (exec s).Approximates (exec' s)) :
    ∀ body, (execAll exec body).Approximates (execAll exec' body)
  | [] => .refl _
  | s :: rest => by
      refine (hexec s).bind fun flow => ?_
      cases flow with
      | normal =>
          exact execAll_approximates hexec rest
      | returned value =>
          exact .refl _

theorem repeatWhile_approximates
    {condition condition' : Run Value}
    {body body' : Run Flow}
    (hcondition : condition.Approximates condition')
    (hbody : body.Approximates body')
    {count more : Nat}
    (hle : count ≤ more) :
    (repeatWhile condition body count).Approximates (repeatWhile condition' body' more) := by
  induction count generalizing more with
  | zero =>
      exact fun _ => .inl rfl
  | succ count ih =>
      obtain ⟨more, rfl⟩ : ∃ k, more = k + 1 := ⟨more - 1, by omega⟩
      refine hcondition.bind fun value => ?_
      split
      · refine hbody.bind fun flow => ?_
        cases flow with
        | normal =>
            exact ih (by omega)
        | returned value =>
            exact .refl _
      · exact .refl _

end Sequences

end Run

open Run

section Calls

variable {exec exec' : List Stmt → Run Flow}
variable (hexec : ∀ body, (exec body).Approximates (exec' body))

include hexec

theorem invoke_approximates
    (closure : Closure)
    (arguments : List Value) :
    (closure.invoke exec arguments).Approximates (closure.invoke exec' arguments) :=
  (Approximates.refl _).bind fun frame =>
    (Approximates.refl _).bind fun _ =>
      ((hexec closure.decl.body).within frame).bind fun _ => .refl _

theorem call_approximates
    (σ : Setting)
    (callee : Value)
    (paren : Token)
    (arguments : List Value) :
    (callee.call σ exec paren arguments).Approximates
      (callee.call σ exec' paren arguments) := by
  unfold Value.call
  split
  · exact .refl _
  · split
    · unfold Value.apply
      split
      · exact .refl _
      · exact invoke_approximates hexec _ arguments
      · rename_i c
        refine (Approximates.refl _).bind fun place => ?_
        split
        · exact (Approximates.refl _).bind fun method =>
            (invoke_approximates hexec method arguments).bind fun _ => .refl _
        · exact .refl _
      · exact .refl _
    · exact .refl _

end Calls

theorem evalStep_approximates
    (σ : Setting)
    {eval eval' : Expr → Run Value}
    {exec exec' : List Stmt → Run Flow}
    (heval : ∀ e, (eval e).Approximates (eval' e))
    (hexec : ∀ body, (exec body).Approximates (exec' body))
    (e : Expr) :
    (evalStep σ eval exec e).Approximates (evalStep σ eval' exec' e) := by
  cases e with
  | literal | var | this | super =>
      exact .refl _
  | grouping inner =>
      exact heval inner
  | unary operator right =>
      exact (heval right).bind fun _ => .refl _
  | binary left operator right =>
      exact (heval left).bind fun _ => (heval right).bind fun _ => .refl _
  | logical left operator right =>
      refine (heval left).bind fun a => ?_
      split
      · exact .refl _
      · exact heval right
  | assign id name value =>
      exact (heval value).bind fun _ => .refl _
  | call callee paren arguments =>
      exact (heval callee).bind fun f =>
        (evalAll_approximates heval arguments).bind fun values =>
          call_approximates hexec σ f paren values
  | get object name =>
      exact (heval object).bind fun _ => .refl _
  | set object name value =>
      refine (heval object).bind fun o => ?_
      split
      · exact (heval value).bind fun _ => .refl _
      · exact .refl _

theorem execStep_approximates
    {eval eval' : Expr → Run Value}
    {exec exec' : Stmt → Run Flow}
    (heval : ∀ e, (eval e).Approximates (eval' e))
    (hexec : ∀ s, (exec s).Approximates (exec' s))
    {rounds more : Nat}
    (hle : rounds ≤ more)
    (s : Stmt) :
    (execStep eval exec rounds s).Approximates (execStep eval' exec' more s) := by
  cases s with
  | expression e | print e =>
      exact (heval e).bind fun _ => .refl _
  | var name initializer =>
      cases initializer with
      | none =>
          exact .refl _
      | some e =>
          exact (heval e).bind fun _ => .refl _
  | block body =>
      exact (Approximates.refl _).bind fun _ => (Approximates.refl _).bind fun frame =>
        (execAll_approximates hexec body).within frame
  | ifThen condition thenBranch =>
      refine (heval condition).bind fun value => ?_
      split
      · exact hexec thenBranch
      · exact .refl _
  | ifElse condition thenBranch elseBranch =>
      refine (heval condition).bind fun value => ?_
      split
      · exact hexec thenBranch
      · exact hexec elseBranch
  | loop condition body =>
      exact repeatWhile_approximates (heval condition) (hexec body) hle
  | function decl =>
      exact .refl _
  | ret keyword value =>
      cases value with
      | none =>
          exact .refl _
      | some e =>
          exact (heval e).bind fun _ => .refl _
  | classDecl name superclass methods =>
      cases superclass with
      | none =>
          exact .refl _
      | some superclass =>
          exact (heval superclass).bind fun _ => .refl _

/-- More fuel changes nothing but whether evaluations and executions end. -/
theorem approximates_of_le
    (σ : Setting)
    {fuel more : Nat}
    (hle : fuel ≤ more) :
    (∀ e, (eval σ fuel e).Approximates (eval σ more e)) ∧
      ∀ s, (exec σ fuel s).Approximates (exec σ more s) := by
  induction fuel generalizing more with
  | zero =>
      exact ⟨fun e m => .inl (by rw [eval]; rfl), fun s m => .inl (by rw [exec]; rfl)⟩
  | succ fuel ih =>
      obtain ⟨more, rfl⟩ : ∃ k, more = k + 1 := ⟨more - 1, by omega⟩
      obtain ⟨heval, hexec⟩ := ih (Nat.le_of_succ_le_succ hle)
      constructor
      · intro e
        rw [eval, eval]
        exact evalStep_approximates σ heval (execAll_approximates hexec) e
      · intro s
        rw [exec, exec]
        exact execStep_approximates heval hexec (Nat.le_of_succ_le_succ hle) s

end Lox
