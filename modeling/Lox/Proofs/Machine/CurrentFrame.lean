import Lox.Machine.Eval

/-!
# The current frame

Only a block and a call run in another frame than the one around them, and both go back however what
runs in them ends.  Nothing else touches the current frame: not a fault at any depth, not a return
out of a loop, not an initializer that fails.  So every run leaves the current frame as it found it,
for trees of any kind and on machines of any kind, and a machine that is used again after a fault
starts in the global frame.
-/

namespace Lox

open Run

namespace Run

/-- However the run ends, the current frame is the one it began with. -/
def Restores {α : Type} (r : Run α) : Prop :=
  ∀ m, (r m).2.current = m.current

namespace Restores

variable {α β : Type}

theorem bind
    {r : Run α}
    {f : α → Run β}
    (hr : r.Restores)
    (hf : ∀ a, (f a).Restores) :
    (r >>= f).Restores := by
  intro m
  have hfirst := hr m
  rw [bind_apply]
  rcases hrun : r m with ⟨result, m'⟩
  rw [hrun] at hfirst
  cases result with
  | ok a =>
      exact (hf a m').trans hfirst
  | error stop =>
      exact hfirst

/-- What runs in another frame may do there what it likes. -/
theorem within
    (r : Run α)
    (frame : Nat) :
    (within frame r).Restores :=
  fun _ => rfl

theorem pure
    (a : α) :
    (Pure.pure a : Run α).Restores :=
  fun _ => rfl

theorem stop
    (error : RuntimeError) :
    (stop error : Run α).Restores :=
  fun _ => rfl

theorem read
    (f : Machine → α) :
    (read f).Restores :=
  fun _ => rfl

end Restores

section Primitives

theorem restores_check
    (found : Token)
    (outcome : Except RuntimeFault Value) :
    (check found outcome).Restores := by
  cases outcome with
  | ok a =>
      exact .pure a
  | error fault =>
      exact .stop ⟨found, fault⟩

theorem restores_readVariable
    (σ : Setting)
    (id : Nat)
    (name : Token) :
    (readVariable σ id name).Restores := by
  intro m
  unfold readVariable
  dsimp only
  split <;> rfl

theorem restores_writeIn
    (target : Option Nat)
    (name : Token)
    (value : Value) :
    (writeIn target name value).Restores := by
  cases target with
  | none =>
      exact .stop (.undefined name)
  | some frame =>
      exact fun _ => rfl

theorem restores_bindParams
    (frame : Nat)
    (params : List Token)
    (values : List Value) :
    (bindParams frame params values).Restores := by
  induction params generalizing values with
  | nil =>
      exact .pure ()
  | cons p params ih =>
      cases values with
      | nil =>
          exact .pure ()
      | cons value values =>
          exact .bind (fun _ => rfl) fun _ => ih values

end Primitives

section Sequences

theorem restores_evalAll
    {eval : Expr → Run Value}
    (heval : ∀ e, (eval e).Restores)
    (es : List Expr) :
    (evalAll eval es).Restores := by
  induction es with
  | nil =>
      exact .pure []
  | cons e rest ih =>
      exact (heval e).bind fun _ => ih.bind fun _ => .pure _

theorem restores_execAll
    {exec : Stmt → Run Flow}
    (hexec : ∀ s, (exec s).Restores)
    (statements : List Stmt) :
    (execAll exec statements).Restores := by
  induction statements with
  | nil =>
      exact .pure Flow.normal
  | cons s rest ih =>
      refine (hexec s).bind fun flow => ?_
      cases flow with
      | normal =>
          exact ih
      | returned value =>
          exact .pure (Flow.returned value)

theorem restores_repeatWhile
    {condition : Run Value}
    {body : Run Flow}
    (hcondition : condition.Restores)
    (hbody : body.Restores)
    (count : Nat) :
    (repeatWhile condition body count).Restores := by
  induction count with
  | zero =>
      exact fun _ => rfl
  | succ count ih =>
      refine hcondition.bind fun value => ?_
      split
      · refine hbody.bind fun flow => ?_
        cases flow with
        | normal =>
            exact ih
        | returned value =>
            exact .pure (Flow.returned value)
      · exact .pure Flow.normal

end Sequences

end Run

section Calls

/-! A body runs in the frame of its call, so nothing is asked of it. -/

theorem restores_bind
    (closure : Closure)
    (place : Nat) :
    (closure.bind place).Restores :=
  .bind (fun _ => rfl) fun _ => .bind (fun _ => rfl) fun _ => .pure _

variable (exec : List Stmt → Run Flow)

theorem restores_invoke
    (closure : Closure)
    (arguments : List Value) :
    (closure.invoke exec arguments).Restores := by
  refine .bind (fun _ => rfl) fun frame => ?_
  refine (restores_bindParams frame _ arguments).bind fun _ => ?_
  refine (Restores.within _ frame).bind fun flow => ?_
  cases closure.isInitializer with
  | true =>
      exact .bind (.read _) fun _ => .pure _
  | false =>
      cases flow with
      | normal | returned value =>
          exact .pure _

theorem restores_instantiate
    (c : Class)
    (arguments : List Value) :
    (c.instantiate exec arguments).Restores := by
  refine .bind (fun _ => rfl) fun place => ?_
  cases c.findMethod? initializerName with
  | none =>
      exact .pure _
  | some initializer =>
      exact (restores_bind initializer place).bind fun method =>
        (restores_invoke exec method arguments).bind fun _ => .pure _

theorem restores_apply
    (σ : Setting)
    (callee : Value)
    (paren : Token)
    (arguments : List Value) :
    (callee.apply σ exec paren arguments).Restores := by
  cases callee with
  | native n =>
      exact fun _ => rfl
  | function identity closure =>
      exact restores_invoke exec closure arguments
  | cls c =>
      exact restores_instantiate exec c arguments
  | nil | bool | number | string | object =>
      exact .stop ⟨paren, .notCallable⟩

theorem restores_call
    (σ : Setting)
    (callee : Value)
    (paren : Token)
    (arguments : List Value) :
    (callee.call σ exec paren arguments).Restores := by
  unfold Value.call
  cases callee.arity? with
  | none =>
      exact .stop ⟨paren, .notCallable⟩
  | some arity =>
      simp only
      split
      · exact restores_apply exec σ callee paren arguments
      · exact .stop ⟨paren, .wrongArity arity arguments.length⟩

end Calls

section Objects

theorem restores_property
    (object : Value)
    (name : Token) :
    (object.property name).Restores := by
  cases object with
  | object place =>
      refine .bind (.read _) fun found => ?_
      cases found with
      | none =>
          exact .stop ⟨name, .undefinedProperty name.lexeme⟩
      | some o =>
          simp only
          cases o.fields.lookup name.lexeme with
          | some value =>
              exact .pure value
          | none =>
              simp only
              cases o.cls.findMethod? name.lexeme with
              | none =>
                  exact .stop ⟨name, .undefinedProperty name.lexeme⟩
              | some method =>
                  exact (restores_bind method place).bind fun _ _ => rfl
  | nil | bool | number | string | native | function | cls =>
      exact .stop ⟨name, .noProperties⟩

theorem restores_superMethod
    (σ : Setting)
    (id : Nat)
    (keyword method : Token) :
    (superMethod σ id keyword method).Restores := by
  unfold superMethod
  cases σ.locals.get? id with
  | none =>
      exact .stop (.undefined keyword)
  | some distance =>
      refine .bind (.read _) fun parent => ?_
      split
      · refine .bind (.read _) fun object => ?_
        split
        · split
          · exact (restores_bind _ _).bind fun _ _ => rfl
          · exact .stop _
        · exact .stop _
      · exact .stop _

theorem restores_declareClass
    (name : Token)
    (superclass : Option Class)
    (methods : List FunctionDecl) :
    (declareClass name superclass methods).Restores := by
  refine .bind (fun _ => rfl) fun _ => .bind (.read _) fun outer => ?_
  have hmake : ∀ frame : Nat, Restores (do
      let c ← newClass name.lexeme superclass (methodTable frame methods)
      overwrite name c) := fun frame =>
    .bind (fun _ => rfl) fun c => .bind (.read _) fun target => restores_writeIn target name c
  cases superclass with
  | none =>
      exact .bind (.pure outer) hmake
  | some parent =>
      exact .bind (fun _ => rfl) fun frame => .bind (fun _ => rfl) fun _ =>
        .bind (.pure frame) hmake

end Objects

section Steps

variable {eval : Expr → Run Value}
variable (heval : ∀ e, (eval e).Restores)

include heval

theorem restores_evalStep
    (σ : Setting)
    (exec : List Stmt → Run Flow)
    (e : Expr) :
    (evalStep σ eval exec e).Restores := by
  cases e with
  | literal value =>
      exact .pure _
  | grouping inner =>
      exact heval inner
  | unary operator right =>
      exact (heval right).bind fun _ => restores_check operator _
  | binary left operator right =>
      exact (heval left).bind fun _ => (heval right).bind fun _ =>
        .bind (.read _) fun _ => restores_check operator _
  | logical left operator right =>
      refine (heval left).bind fun a => ?_
      split
      · exact .pure a
      · exact heval right
  | var id name | this id name =>
      exact restores_readVariable σ id name
  | assign id name value =>
      refine (heval value).bind fun v => ?_
      refine .bind ?_ fun _ => .pure v
      exact .bind (.read _) fun target => restores_writeIn target name v
  | call callee paren arguments =>
      exact (heval callee).bind fun f => (restores_evalAll heval arguments).bind fun values =>
        restores_call exec σ f paren values
  | get object name =>
      exact (heval object).bind fun o => restores_property o name
  | set object name value =>
      refine (heval object).bind fun o => ?_
      split
      · exact (heval value).bind fun _ => .bind (fun _ => rfl) fun _ => .pure _
      · exact .stop _
  | super id keyword method =>
      exact restores_superMethod σ id keyword method

theorem restores_execStep
    {exec : Stmt → Run Flow}
    (hexec : ∀ s, (exec s).Restores)
    (rounds : Nat)
    (s : Stmt) :
    (execStep eval exec rounds s).Restores := by
  cases s with
  | expression e =>
      exact (heval e).bind fun _ => .pure _
  | print e =>
      exact (heval e).bind fun _ => .bind (.read _) fun _ => .bind (fun _ => rfl) fun _ => .pure _
  | var name initializer =>
      cases initializer with
      | none =>
          exact .bind (fun _ => rfl) fun _ => .pure _
      | some e =>
          exact (heval e).bind fun _ => .bind (fun _ => rfl) fun _ => .pure _
  | block body =>
      exact .bind (.read _) fun _ => .bind (fun _ => rfl) fun frame => .within _ frame
  | ifThen condition thenBranch =>
      refine (heval condition).bind fun value => ?_
      split
      · exact hexec thenBranch
      · exact .pure _
  | ifElse condition thenBranch elseBranch =>
      refine (heval condition).bind fun value => ?_
      split
      · exact hexec thenBranch
      · exact hexec elseBranch
  | loop condition body =>
      exact restores_repeatWhile (heval condition) (hexec body) rounds
  | function decl =>
      exact .bind (.read _) fun _ => .bind (fun _ => rfl) fun _ =>
        .bind (fun _ => rfl) fun _ => .pure _
  | ret keyword value =>
      cases value with
      | none =>
          exact .pure _
      | some e =>
          exact (heval e).bind fun _ => .pure _
  | classDecl name superclass methods =>
      cases superclass with
      | none =>
          exact (restores_declareClass name none methods).bind fun _ => .pure _
      | some superclass =>
          refine (heval superclass).bind fun value => ?_
          split
          · exact (restores_declareClass name _ methods).bind fun _ => .pure _
          · exact .stop _

end Steps

theorem eval_exec_restores
    (σ : Setting)
    (fuel : Nat) :
    (∀ e, (eval σ fuel e).Restores) ∧ ∀ s, (exec σ fuel s).Restores := by
  induction fuel with
  | zero =>
      exact ⟨fun _ _ => rfl, fun _ _ => rfl⟩
  | succ fuel ih =>
      exact ⟨fun e => restores_evalStep ih.1 σ _ e, fun s => restores_execStep ih.1 ih.2 fuel s⟩

/-- One use of a machine: statements, what they run with, and how long they may run. -/
structure Use where
  setting : Setting
  fuel : Nat
  statements : List Stmt

/-- The machine on which each use starts, and the one that is left in the end.  A use starts where
the one before it ended, however that was. -/
def Machine.usedBy (m : Machine) : List Use → List Machine
  | [] => [m]
  | use :: rest =>
      m :: ((Machine.interpret use.setting use.fuel use.statements m).2).usedBy rest

theorem Machine.interpret_restores
    (σ : Setting)
    (fuel : Nat)
    (statements : List Stmt) :
    (Machine.interpret σ fuel statements).Restores :=
  (restores_execAll (eval_exec_restores σ fuel).2 statements).bind fun _ => .pure ()

theorem Machine.current_of_mem_usedBy
    (uses : List Use)
    {m m' : Machine}
    (h : m' ∈ m.usedBy uses) :
    m'.current = m.current := by
  induction uses generalizing m with
  | nil =>
      rw [List.mem_singleton.mp h]
  | cons use rest ih =>
      rcases List.mem_cons.mp h with rfl | hrest
      · rfl
      · exact (ih hrest).trans (Machine.interpret_restores _ _ _ m)

/-- The current frame is always restored: evaluating an expression, executing a statement or
several, and calling a function or a class leave it as it was on any machine, however they end.  So
all uses of one new machine, whatever they run and however the ones before them ended, start in the
global frame and leave it current. -/
theorem current_frame_restored
    (σ : Setting)
    (fuel : Nat) :
    (∀ e m, (eval σ fuel e m).2.current = m.current) ∧
      (∀ s m, (exec σ fuel s m).2.current = m.current) ∧
      (∀ statements m, (execAll (exec σ fuel) statements m).2.current = m.current) ∧
      (∀ (callee : Value) paren arguments m,
        (callee.call σ (execAll (exec σ fuel)) paren arguments m).2.current = m.current) ∧
      ∀ uses, (Machine.start.usedBy uses).map Machine.current =
        List.replicate (uses.length + 1) Machine.globals := by
  obtain ⟨heval, hexec⟩ := eval_exec_restores σ fuel
  refine ⟨heval, hexec, restores_execAll hexec, restores_call _ σ, ?_⟩
  intro uses
  have hlength : ∀ m : Machine, (m.usedBy uses).length = uses.length + 1 := by
    induction uses with
    | nil =>
        exact fun _ => rfl
    | cons use rest ih =>
        exact fun m => congrArg (· + 1) (ih _)
  rw [List.eq_replicate_iff]
  refine ⟨by rw [List.length_map, hlength], ?_⟩
  intro frame hframe
  obtain ⟨m, hm, rfl⟩ := List.mem_map.mp hframe
  exact Machine.current_of_mem_usedBy uses hm

end Lox
