import Lox.Machine.Eval

/-!
# Watched runs

To speak about everything that happens while a program runs, a run is watched.  A watcher sees each
expression and each statement when its evaluation begins and again when it is over, with its result
and the machine as it is then, and may stop the run.  A sight is part of a run if whoever waits for
it stops the run there.

Watching changes nothing but the end: up to the first sight at which a watcher stops a run, all
watchers who let more pass see the same.  So a watcher stops a run only at a sight that is part of
it.
-/

namespace Lox

open Run

/-- What is seen of a run. -/
inductive Sight where
  | evaluates (e : Expr)
  | evaluated (e : Expr) (value : Value)
  | executes (s : Stmt)
  | executed (s : Stmt) (flow : Flow)

/-- Says at each sight whether the run is to stop, and with which error. -/
abbrev Watcher := Sight → Machine → Option RuntimeError

namespace Watcher

/-- Goes on if the watcher lets a sight pass. -/
def pass (w : Watcher) (x : Sight) : Run Unit := fun m =>
  match w x m with
  | some error => (.error (.fault error), m)
  | none => (.ok (), m)

/-- Lets everything pass. -/
def idle : Watcher :=
  fun _ _ => none

open Classical in
/-- Waits for a sight on a machine. -/
noncomputable def waiting (x : Sight) (m : Machine) (error : RuntimeError) : Watcher :=
  fun x' m' => if x' = x ∧ m' = m then some error else none

open Classical in
/-- Stops wherever something is not so. -/
noncomputable def demanding (holds : Sight → Machine → Prop) (error : RuntimeError) : Watcher :=
  fun x m => if holds x m then none else some error

/-- Stops wherever a test finds something. -/
def finding (test : Sight → Machine → Bool) (error : RuntimeError) : Watcher :=
  fun x m => if test x m then some error else none

/-- Stops where the first watcher does, and else where the second one does. -/
def orElse (w w' : Watcher) : Watcher :=
  fun x m => (w x m).or (w' x m)

/-- The second watcher lets everything pass that the first one does. -/
def Laxer (w w' : Watcher) : Prop :=
  ∀ x m, w x m = none → w' x m = none

section Waiting

variable (x : Sight)
variable (m : Machine)
variable (error : RuntimeError)

theorem waiting_self : waiting x m error x m = some error :=
  if_pos ⟨rfl, rfl⟩

theorem waiting_of_ne
    (x' : Sight)
    (m' : Machine)
    (h : x' ≠ x) :
    waiting x m error x' m' = none :=
  if_neg fun hsame => h hsame.1

end Waiting

section Passing

variable {w : Watcher}
variable {x : Sight}
variable {m : Machine}

theorem pass_of_eq_none
    (h : w x m = none) :
    w.pass x m = (.ok (), m) := by
  simp only [pass, h]

theorem pass_of_eq_some
    {error : RuntimeError}
    (h : w x m = some error) :
    w.pass x m = (.error (.fault error), m) := by
  simp only [pass, h]

variable {α : Type}
variable {r : Run α}
variable {y : α → Sight}
variable {m' : Machine}
variable (hx : w x m = none)

include hx

/-- Between two sights that are let pass, a run is what it is by itself. -/
theorem between_of_ok
    {a : α}
    (hr : r m = (.ok a, m'))
    (hy : w (y a) m' = none) :
    (do
      w.pass x
      let a ← r
      w.pass (y a)
      return a) m = (.ok a, m') := by
  simp only [bind_apply, pass_of_eq_none hx, hr, pass_of_eq_none hy]
  rfl

/-- The second sight may stop the run. -/
theorem between_of_stop
    {a : α}
    {error : RuntimeError}
    (hr : r m = (.ok a, m'))
    (hy : w (y a) m' = some error) :
    (do
      w.pass x
      let a ← r
      w.pass (y a)
      return a) m = (.error (.fault error), m') := by
  simp only [bind_apply, pass_of_eq_none hx, hr, pass_of_eq_some hy]

theorem between_of_error
    {stop : Stop}
    (hr : r m = (.error stop, m')) :
    (do
      w.pass x
      let a ← r
      w.pass (y a)
      return a) m = (.error stop, m') := by
  simp only [bind_apply, pass_of_eq_none hx, hr]

end Passing

end Watcher

mutual

/-- Evaluates an expression as `eval` does, with a watcher. -/
def evalWatched (σ : Setting) (w : Watcher) : Nat → Expr → Run Value
  | 0, e => do
      w.pass (.evaluates e)
      outOfFuel
  | fuel + 1, e => do
      w.pass (.evaluates e)
      let value ← evalStep σ (evalWatched σ w fuel) (execAll (execWatched σ w fuel)) e
      w.pass (.evaluated e value)
      return value

/-- Executes a statement as `exec` does, with a watcher. -/
def execWatched (σ : Setting) (w : Watcher) : Nat → Stmt → Run Flow
  | 0, s => do
      w.pass (.executes s)
      outOfFuel
  | fuel + 1, s => do
      w.pass (.executes s)
      let flow ← execStep (evalWatched σ w fuel) (execWatched σ w fuel) fuel s
      w.pass (.executed s flow)
      return flow

end

/-- A sight on a machine is part of running statements: whoever waits for it stops the run. -/
def Machine.Meets (σ : Setting) (fuel : Nat) (statements : List Stmt) (x : Sight) (m : Machine) :
    Prop :=
  ∀ error, ∃ m', execAll (execWatched σ (.waiting x m error) fuel) statements .start =
    (.error (.fault error), m')

/-- A watcher who lets everything pass changes nothing. -/
theorem watched_idle
    (σ : Setting)
    (fuel : Nat) :
    evalWatched σ .idle fuel = eval σ fuel ∧ execWatched σ .idle fuel = exec σ fuel := by
  have hpass : ∀ {α : Type} (r : Run α) (x : Sight) (y : α → Sight),
      (do
        Watcher.idle.pass x
        let a ← r
        Watcher.idle.pass (y a)
        return a) = r := by
    intro α r x y
    funext m
    simp only [bind_apply, Watcher.pass, Watcher.idle]
    rcases r m with ⟨result, m'⟩
    cases result <;> rfl
  induction fuel with
  | zero =>
      constructor
      · funext e m
        rfl
      · funext s m
        rfl
  | succ fuel ih =>
      constructor
      · funext e
        rw [evalWatched, hpass, ih.1, ih.2, eval]
      · funext s
        rw [execWatched, hpass, ih.1, ih.2, exec]

/-- A run that stops is not gone on with. -/
theorem Run.fst_bind_of_error
    {α β : Type}
    {r : Run α}
    {f : α → Run β}
    {stop : Stop}
    {m : Machine}
    (h : (r m).1 = .error stop) :
    ((r >>= f) m).1 = .error stop := by
  rw [bind_apply]
  rcases hrun : r m with ⟨result, m'⟩
  rw [hrun] at h
  cases h
  rfl

/-- The machine that a run of statements leaves, however it ends. -/
theorem Machine.snd_interpret
    (σ : Setting)
    (fuel : Nat)
    (statements : List Stmt)
    (m : Machine) :
    (Machine.interpret σ fuel statements m).2 =
      (execAll (execWatched σ .idle fuel) statements m).2 := by
  rw [(watched_idle σ fuel).2, Machine.interpret, bind_apply]
  rcases execAll (exec σ fuel) statements m with ⟨_ | flow, m'⟩ <;> rfl

/-- Under all watchers a run is the same, up to the sight at which it is stopped. -/
def Run.Uniform {α : Type} (r : Watcher → Run α) : Prop :=
  ∀ w m, (∀ w', w.Laxer w' → r w' m = r w m) ∨
    ∃ x m', w x m' ≠ none ∧ ∀ w' error, w.Laxer w' → w' x m' = some error →
      (r w' m).1 = .error (.fault error)

namespace Run.Uniform

variable {α β : Type}

theorem const
    (r : Run α) :
    Uniform fun _ => r :=
  fun _ _ => .inl fun _ _ => rfl

theorem pass
    (x : Sight) :
    Uniform fun w => w.pass x := by
  intro w m
  cases hsight : w x m with
  | none =>
      refine .inl ?_
      intro w' hlaxer
      simp only [Watcher.pass, hsight, hlaxer x m hsight]
  | some error =>
      refine .inr ⟨x, m, by simp [hsight], ?_⟩
      intro w' error' _ hstop
      simp only [Watcher.pass, hstop]

theorem bind
    {r : Watcher → Run α}
    {f : Watcher → α → Run β}
    (hr : Uniform r)
    (hf : ∀ a, Uniform fun w => f w a) :
    Uniform fun w => r w >>= f w := by
  intro w m
  rcases hr w m with hcalm | ⟨x, m', hsight, hstop⟩
  · rcases hrun : r w m with ⟨result, m₁⟩
    cases result with
    | error stop =>
        refine .inl ?_
        intro w' hlaxer
        simp only [bind_apply, hcalm w' hlaxer, hrun]
    | ok a =>
        have hnext : ∀ w', w.Laxer w' → (r w' >>= f w') m = f w' a m₁ := by
          intro w' hlaxer
          simp only [bind_apply, hcalm w' hlaxer, hrun]
        rcases hf a w m₁ with hcalm' | ⟨x, m', hsight, hstop⟩
        · refine .inl ?_
          intro w' hlaxer
          exact (hnext w' hlaxer).trans ((hcalm' w' hlaxer).trans (hnext w fun _ _ h => h).symm)
        · refine .inr ⟨x, m', hsight, ?_⟩
          intro w' error hlaxer herror
          exact (congrArg Prod.fst (hnext w' hlaxer)).trans (hstop w' error hlaxer herror)
  · refine .inr ⟨x, m', hsight, ?_⟩
    intro w' error hlaxer herror
    exact fst_bind_of_error (hstop w' error hlaxer herror)

theorem within
    {r : Watcher → Run α}
    (hr : Uniform r)
    (frame : Nat) :
    Uniform fun w => within frame (r w) := by
  intro w m
  rcases hr w { m with current := frame } with hcalm | ⟨x, m', hsight, hstop⟩
  · refine .inl ?_
    intro w' hlaxer
    simp only [Run.within, hcalm w' hlaxer]
  · refine .inr ⟨x, m', hsight, ?_⟩
    intro w' error hlaxer herror
    exact hstop w' error hlaxer herror

end Run.Uniform

section Uniform

variable {eval : Watcher → Expr → Run Value}
variable {exec : Watcher → Stmt → Run Flow}
variable {body : Watcher → List Stmt → Run Flow}

theorem uniform_evalAll
    (heval : ∀ e, Uniform fun w => eval w e)
    (es : List Expr) :
    Uniform fun w => evalAll (eval w) es := by
  induction es with
  | nil =>
      exact .const _
  | cons e rest ih =>
      exact (heval e).bind fun value => ih.bind fun values => .const _

theorem uniform_execAll
    (hexec : ∀ s, Uniform fun w => exec w s)
    (statements : List Stmt) :
    Uniform fun w => execAll (exec w) statements := by
  induction statements with
  | nil =>
      exact .const _
  | cons s rest ih =>
      refine (hexec s).bind fun flow => ?_
      cases flow with
      | normal =>
          exact ih
      | returned value =>
          exact .const _

theorem uniform_repeatWhile
    {condition : Watcher → Run Value}
    {round : Watcher → Run Flow}
    (hcondition : Uniform condition)
    (hround : Uniform round)
    (count : Nat) :
    Uniform fun w => repeatWhile (condition w) (round w) count := by
  induction count with
  | zero =>
      exact .const _
  | succ count ih =>
      refine hcondition.bind fun value => ?_
      cases value.isTruthy with
      | true =>
          refine hround.bind fun flow => ?_
          cases flow with
          | normal =>
              exact ih
          | returned value =>
              exact .const _
      | false =>
          exact .const _

theorem uniform_invoke
    (hbody : ∀ statements, Uniform fun w => body w statements)
    (closure : Closure)
    (arguments : List Value) :
    Uniform fun w => closure.invoke (body w) arguments := by
  refine (Uniform.const _).bind fun frame => (Uniform.const _).bind fun _ => ?_
  exact ((hbody _).within frame).bind fun flow => .const _

theorem uniform_call
    (hbody : ∀ statements, Uniform fun w => body w statements)
    (σ : Setting)
    (callee : Value)
    (paren : Token)
    (arguments : List Value) :
    Uniform fun w => callee.call σ (body w) paren arguments := by
  unfold Value.call
  cases callee.arity? with
  | none =>
      exact .const _
  | some arity =>
      by_cases hlength : arguments.length = arity
      · simp only [hlength, if_true]
        cases callee with
        | function identity closure =>
            exact uniform_invoke hbody closure arguments
        | cls c =>
            refine (Uniform.const _).bind fun place => ?_
            cases c.findMethod? initializerName with
            | none =>
                exact .const _
            | some initializer =>
                refine (Uniform.const _).bind fun method => ?_
                exact (uniform_invoke hbody method arguments).bind fun _ => .const _
        | _ =>
            exact .const _
      · simp only [hlength, if_false]
        exact .const _

theorem uniform_evalStep
    (heval : ∀ e, Uniform fun w => eval w e)
    (hbody : ∀ statements, Uniform fun w => body w statements)
    (σ : Setting)
    (e : Expr) :
    Uniform fun w => evalStep σ (eval w) (body w) e := by
  cases e with
  | literal value =>
      exact .const _
  | grouping inner =>
      exact heval inner
  | unary operator right =>
      exact (heval right).bind fun value => .const _
  | binary left operator right =>
      exact (heval left).bind fun a => (heval right).bind fun b => .const _
  | logical left operator right =>
      refine (heval left).bind fun a => ?_
      by_cases hdecides : Operator.decides operator a
      · simp only [hdecides, if_true]
        exact .const _
      · simp only [hdecides]
        exact heval right
  | var id name =>
      exact .const _
  | assign id name value =>
      exact (heval value).bind fun v => .const _
  | call callee paren arguments =>
      refine (heval callee).bind fun f => ?_
      exact (uniform_evalAll heval arguments).bind fun values =>
        uniform_call hbody σ f paren values
  | get object name =>
      exact (heval object).bind fun o => .const _
  | set object name value =>
      refine (heval object).bind fun o => ?_
      cases o with
      | object place =>
          exact (heval value).bind fun v => .const _
      | _ =>
          exact .const _
  | this id keyword =>
      exact .const _
  | super id keyword method =>
      exact .const _

theorem uniform_execStep
    (heval : ∀ e, Uniform fun w => eval w e)
    (hexec : ∀ s, Uniform fun w => exec w s)
    (rounds : Nat)
    (s : Stmt) :
    Uniform fun w => execStep (eval w) (exec w) rounds s := by
  cases s with
  | expression e =>
      exact (heval e).bind fun _ => .const _
  | print e =>
      exact (heval e).bind fun value => .const _
  | var name initializer =>
      cases initializer with
      | none =>
          exact .const _
      | some e =>
          exact (heval e).bind fun value => .const _
  | block body =>
      refine (Uniform.const _).bind fun current => (Uniform.const _).bind fun frame => ?_
      exact (uniform_execAll hexec body).within frame
  | ifThen condition thenBranch =>
      refine (heval condition).bind fun value => ?_
      cases value.isTruthy with
      | true =>
          exact hexec thenBranch
      | false =>
          exact .const _
  | ifElse condition thenBranch elseBranch =>
      refine (heval condition).bind fun value => ?_
      cases value.isTruthy with
      | true =>
          exact hexec thenBranch
      | false =>
          exact hexec elseBranch
  | loop condition body =>
      exact uniform_repeatWhile (heval condition) (hexec body) rounds
  | function decl =>
      exact .const _
  | ret keyword value =>
      cases value with
      | none =>
          exact .const _
      | some e =>
          exact (heval e).bind fun value => .const _
  | classDecl name superclass methods =>
      cases superclass with
      | none =>
          exact .const _
      | some superclass =>
          refine (heval superclass).bind fun value => ?_
          cases value with
          | cls parent =>
              exact .const _
          | _ =>
              exact .const _

/-- Evaluation and execution are the same under all watchers, up to where they are stopped. -/
theorem uniform_watched
    (σ : Setting)
    (fuel : Nat) :
    (∀ e, Uniform fun w => evalWatched σ w fuel e) ∧
      ∀ s, Uniform fun w => execWatched σ w fuel s := by
  induction fuel with
  | zero =>
      exact ⟨fun e => (Uniform.pass _).bind fun _ => .const _,
        fun s => (Uniform.pass _).bind fun _ => .const _⟩
  | succ fuel ih =>
      obtain ⟨heval, hexec⟩ := ih
      constructor
      · intro e
        have hstep := uniform_evalStep heval (uniform_execAll hexec) σ e
        exact (Uniform.pass _).bind fun _ => hstep.bind fun value =>
          (Uniform.pass _).bind fun _ => .const _
      · intro s
        have hstep := uniform_execStep heval hexec fuel s
        exact (Uniform.pass _).bind fun _ => hstep.bind fun flow =>
          (Uniform.pass _).bind fun _ => .const _

end Uniform

section Shows

variable {α : Type}
variable {r : Watcher → Run α}
variable {w w' : Watcher}
variable {x : Sight}
variable {m m' : Machine}

/-- A sight on a machine is part of a run from another one: whoever waits for it stops the run. -/
def Run.Shows (r : Watcher → Run α) (m : Machine) (x : Sight) (m' : Machine) : Prop :=
  ∀ error, ∃ m'', r (.waiting x m' error) m = (.error (.fault error), m'')

theorem Watcher.laxer_waiting
    (h : w x m ≠ none)
    (error : RuntimeError) :
    w.Laxer (.waiting x m error) := by
  intro x' m' hpass
  refine if_neg ?_
  rintro ⟨rfl, rfl⟩
  exact h hpass

/-- A watcher who changes a run stops it at a sight that is part of it. -/
theorem Run.Uniform.exists_shows
    (hr : Uniform r)
    (hlaxer : w.Laxer w')
    (hne : r w' m ≠ r w m) :
    ∃ x m', w x m' ≠ none ∧ Shows r m x m' ∧
      ∀ error, w x m' = some error → (r w m).1 = .error (.fault error) := by
  rcases hr w m with hcalm | ⟨x, m', hsight, hstop⟩
  · exact absurd (hcalm w' hlaxer) hne
  · refine ⟨x, m', hsight, ?_, fun error => hstop w error fun _ _ h => h⟩
    intro error
    have hwaiting := hstop _ error (Watcher.laxer_waiting hsight error) (if_pos ⟨rfl, rfl⟩)
    exact ⟨_, Prod.ext hwaiting rfl⟩

/-- If a run that ends stops when something is tested, the test finds something in it. -/
theorem Run.Uniform.exists_shows_of_finding
    {test : Sight → Machine → Bool}
    (hr : Uniform r)
    (error : RuntimeError)
    (hstops : (r (.finding test error) m).1.isOk = false)
    (hends : (r .idle m).1.isOk = true) :
    ∃ x m', test x m' = true ∧ Shows r m x m' := by
  have hne : r .idle m ≠ r (.finding test error) m := by
    intro heq
    rw [heq, hstops] at hends
    cases hends
  obtain ⟨x, m', hsight, hshows, -⟩ := hr.exists_shows (fun _ _ _ => rfl) hne
  refine ⟨x, m', ?_, hshows⟩
  simpa [Watcher.finding] using hsight

/-- Something holds at all sights that are part of a run if demanding it, too, of them makes no
difference. -/
theorem Run.Uniform.holds
    {holds : Sight → Machine → Prop}
    (hr : Uniform r)
    (h : Shows r m x m')
    (hpass : ∀ x m', Shows r m x m' → w x m' = none)
    (hsame : ∀ error, r (w.orElse (.demanding holds error)) m = r w m) :
    holds x m' := by
  apply Classical.byContradiction
  intro hfails
  -- Whatever the error, the run would stop with it.
  have hstop : ∀ error, (r w m).1 = .error (.fault error) := by
    intro error
    rw [← hsame error]
    have hsight : w.orElse (.demanding holds error) x m' = some error := by
      simp [Watcher.orElse, Watcher.demanding, hpass x m' h, hfails]
    obtain ⟨m'', hwaiting⟩ := h error
    by_cases hcalm : r (.waiting x m' error) m = r (w.orElse (.demanding holds error)) m
    · rw [← hcalm, hwaiting]
    · obtain ⟨x', m₁, hsight', hshows, herror⟩ :=
        hr.exists_shows (Watcher.laxer_waiting (by simp [hsight]) error) hcalm
      refine herror error ?_
      simp only [Watcher.orElse, Watcher.demanding, hpass x' m₁ hshows, Option.none_or]
        at hsight' ⊢
      split at hsight' <;> simp_all
  have hone := hstop ⟨⟨.identifier, "", 0⟩, .notCallable⟩
  have htwo := hstop ⟨⟨.identifier, "", 0⟩, .notAClass⟩
  rw [hone] at htwo
  cases htwo

end Shows

section Meets

variable {σ : Setting}
variable {fuel : Nat}
variable {statements : List Stmt}

theorem Machine.exists_meets
    {w w' : Watcher}
    (hlaxer : w.Laxer w')
    (hne : execAll (execWatched σ w' fuel) statements .start ≠
      execAll (execWatched σ w fuel) statements .start) :
    ∃ x m, w x m ≠ none ∧ Machine.Meets σ fuel statements x m ∧
      ∀ error, w x m = some error →
        (execAll (execWatched σ w fuel) statements .start).1 = .error (.fault error) :=
  (uniform_execAll (uniform_watched σ fuel).2 statements).exists_shows hlaxer hne

theorem Machine.exists_meets_of_finding
    {test : Sight → Machine → Bool}
    (error : RuntimeError)
    (hstops : (execAll (execWatched σ (.finding test error) fuel) statements .start).1.isOk = false)
    (hends : (execAll (exec σ fuel) statements .start).1.isOk = true) :
    ∃ x m, test x m = true ∧ Machine.Meets σ fuel statements x m := by
  rw [← (watched_idle σ fuel).2] at hends
  exact (uniform_execAll (uniform_watched σ fuel).2 statements).exists_shows_of_finding error
    hstops hends

/-- Who stops a run only where a sight is not part of it does not stop it. -/
theorem Machine.demanding_meets
    (error : RuntimeError) :
    execAll (execWatched σ (.demanding (Machine.Meets σ fuel statements) error) fuel) statements
      .start = execAll (exec σ fuel) statements .start := by
  rw [← (watched_idle σ fuel).2]
  have hlaxer : Watcher.Laxer (.demanding (Machine.Meets σ fuel statements) error) .idle :=
    fun _ _ _ => rfl
  apply Classical.byContradiction
  intro hne
  obtain ⟨x, m, hsight, hmeets, -⟩ := Machine.exists_meets hlaxer (Ne.symm hne)
  exact hsight (if_pos hmeets)

theorem Machine.Meets.holds
    {holds : Sight → Machine → Prop}
    {x : Sight}
    {m : Machine}
    (h : Machine.Meets σ fuel statements x m)
    (outside : RuntimeError)
    (hsame : ∀ error,
      let inside : Watcher := .demanding (Machine.Meets σ fuel statements) outside
      execAll (execWatched σ (inside.orElse (.demanding holds error)) fuel) statements .start =
        execAll (execWatched σ inside fuel) statements .start) :
    holds x m :=
  (uniform_execAll (uniform_watched σ fuel).2 statements).holds h
    (fun _ _ hmeets => if_pos hmeets) hsame

end Meets

end Lox
