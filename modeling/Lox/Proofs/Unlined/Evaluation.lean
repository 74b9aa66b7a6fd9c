import Lox.Machine.Eval
import Lox.Proofs.Machine.Safety
import Lox.Proofs.Unlined.Machines

/-!
# Running programs without lines

A run on a machine without lines goes as it goes with them: the same value up to lines, the same
stop up to its line, and the same machine up to lines.  This is shown for each step that programs are
made of, for each form of expression and statement, and so for whole programs by induction on fuel.
-/

namespace Lox

/-- Why a run stops early, without lines. -/
def Stop.unlined : Stop → Stop
  | .fault error => .fault error.unlined
  | .outOfFuel => .outOfFuel

/-- How a statement ends, without lines. -/
def Flow.unlined : Flow → Flow
  | .normal => .normal
  | .returned value => .returned value.unlined

namespace Run

variable {α β γ δ : Type}

/-- What a run ends with, without lines. -/
def forget (f : α → β) : Except Stop α × Machine → Except Stop β × Machine
  | (.ok a, m) => (.ok (f a), m.unlined)
  | (.error stop, m) => (.error stop.unlined, m.unlined)

/-- Without lines, the second run does what the first one does with them; `f` forgets the lines of
the result. -/
def Mirrors (f : α → β) (r : Run α) (r' : Run β) : Prop :=
  ∀ m : Machine, r' m.unlined = forget f (r m)

namespace Mirrors

theorem pure
    {f : α → β}
    {a : α}
    {b : β}
    (h : f a = b) :
    Mirrors f (Pure.pure a) (Pure.pure b) := by
  intro m
  rw [← h]
  rfl

theorem bind
    {f : α → β}
    {g : γ → δ}
    {r : Run α}
    {r' : Run β}
    {k : α → Run γ}
    {k' : β → Run δ}
    (hr : Mirrors f r r')
    (hk : ∀ a, Mirrors g (k a) (k' (f a))) :
    Mirrors g (r >>= k) (r' >>= k') := by
  intro m
  rw [bind_apply, bind_apply, hr m]
  rcases r m with ⟨_ | a, m'⟩
  · rfl
  · exact hk a m'

/-- Both runs branch the same way. -/
theorem ite
    {f : α → β}
    {r q : Run α}
    {r' q' : Run β}
    {c : Prop}
    [Decidable c]
    (hr : Mirrors f r r')
    (hq : Mirrors f q q') :
    Mirrors f (if c then r else q) (if c then r' else q') := by
  split
  · exact hr
  · exact hq

theorem within
    {f : α → β}
    {r : Run α}
    {r' : Run β}
    (hr : Mirrors f r r')
    (frame : Nat) :
    Mirrors f (within frame r) (within frame r') := by
  intro m
  have hinside : r' { m.unlined with current := frame } = _ := hr { m with current := frame }
  unfold Run.within
  dsimp only
  rw [hinside]
  rcases r { m with current := frame } with ⟨_ | a, m'⟩ <;> rfl

end Mirrors

theorem mirrors_stop
    (f : α → β)
    (error : RuntimeError) :
    Mirrors f (stop error) (stop error.unlined) :=
  fun _ => rfl

theorem mirrors_fail
    (f : α → β)
    (found : Token)
    (fault : RuntimeFault) :
    Mirrors f (fail found fault) (fail found.unlined fault) :=
  fun _ => rfl

theorem mirrors_outOfFuel (f : α → β) : Mirrors f outOfFuel outOfFuel :=
  fun _ => rfl

theorem mirrors_read
    {f : α → β}
    {look : Machine → α}
    {look' : Machine → β}
    (h : ∀ m : Machine, look' m.unlined = f (look m)) :
    Mirrors f (read look) (read look') := by
  intro m
  unfold read
  rw [h m]
  rfl

/-- Operators make values without lines. -/
theorem mirrors_check
    {outcome : Except RuntimeFault Value}
    (hplain : ∀ value, outcome = .ok value → value.Plain)
    (found : Token) :
    Mirrors Value.unlined (check found outcome) (check found.unlined outcome) := by
  cases outcome with
  | error fault =>
      exact mirrors_fail _ _ _
  | ok value =>
      refine .pure ?_
      have hvalue := hplain value rfl
      cases value with
      | function | cls =>
          exact hvalue.elim
      | _ =>
          rfl

theorem mirrors_print (line : String) : Mirrors id (print line) (print line) :=
  fun _ => rfl

theorem mirrors_define
    (name : String)
    (value : Value) :
    Mirrors id (define name value) (define name value.unlined) := by
  intro m
  simp only [define, forget, Machine.unlined, Frames.define_unlined, id]

theorem mirrors_defineIn
    (frame : Nat)
    (name : String)
    (value : Value) :
    Mirrors id (defineIn frame name value) (defineIn frame name value.unlined) := by
  intro m
  simp only [defineIn, forget, Machine.unlined, Frames.define_unlined, id]

theorem mirrors_pushFrame
    (enclosing : Nat) :
    Mirrors id (pushFrame enclosing) (pushFrame enclosing) := by
  intro m
  simp only [pushFrame, forget, Machine.unlined, Frames.push_unlined, Frames.size_unlined, id]

theorem mirrors_newFunction
    (closure : Closure) :
    Mirrors Value.unlined (newFunction closure) (newFunction closure.unlined) :=
  fun _ => rfl

theorem mirrors_newClass
    (name : String)
    (superclass : Option Class)
    (methods : List (String × Closure)) :
    Mirrors Value.unlined (newClass name superclass methods)
      (newClass name (superclass.map Class.unlined) (mapBindings Closure.unlined methods)) := by
  intro m
  simp only [newClass, forget, Machine.unlined, Value.unlined, Class.unlined_mk]

theorem mirrors_newObject
    (c : Class) :
    Mirrors id (newObject c) (newObject c.unlined) := by
  intro m
  simp [newObject, forget, Machine.unlined, Instance.unlined, mapBindings]

theorem mirrors_setField
    (place : Nat)
    (name : String)
    (value : Value) :
    Mirrors id (setField place name value) (setField place name value.unlined) := by
  intro m
  simp only [setField, forget, Machine.unlined, id]
  congr 2
  apply Array.ext
  · simp
  · intro i h₁ h₂
    simp only [Array.getElem_modify, Array.getElem_map]
    split
    · rw [Instance.setField_unlined]
    · rfl

theorem mirrors_readClock (σ : Setting) : Mirrors Value.unlined (readClock σ) (readClock σ) :=
  fun _ => rfl

theorem mirrors_current : Mirrors id (read Machine.current) (read Machine.current) :=
  fun _ => rfl

theorem mirrors_objects :
    Mirrors (Array.map Instance.unlined) (read Machine.objects) (read Machine.objects) :=
  fun _ => rfl

theorem mirrors_readVariable
    (σ : Setting)
    (ref : Nat)
    (name : Token) :
    Mirrors Value.unlined (readVariable σ ref name) (readVariable σ ref name.unlined) := by
  intro m
  unfold readVariable
  simp only [Machine.unlined, Token.lexeme_unlined, Frames.getAt?_unlined, Frames.get?_unlined]
  cases σ.locals.get? ref with
  | none =>
      dsimp only
      cases m.frames.get? Machine.globals name.lexeme <;> rfl
  | some distance =>
      dsimp only
      cases m.frames.getAt? m.current distance name.lexeme <;> rfl

theorem mirrors_writeIn
    (target : Option Nat)
    (name : Token)
    (value : Value) :
    Mirrors id (writeIn target name value) (writeIn target name.unlined value.unlined) := by
  cases target with
  | none =>
      exact mirrors_stop _ _
  | some frame =>
      exact mirrors_defineIn frame name.lexeme value

theorem mirrors_writeVariable
    (σ : Setting)
    (ref : Nat)
    (name : Token)
    (value : Value) :
    Mirrors id (writeVariable σ ref name value)
      (writeVariable σ ref name.unlined value.unlined) := by
  have htarget : Mirrors id (read (variableFrame? σ ref name))
      (read (variableFrame? σ ref name.unlined)) := by
    refine mirrors_read fun m => ?_
    simp only [variableFrame?, Machine.unlined, Token.lexeme_unlined, Frames.outward?_unlined,
      Frames.holder?_unlined, id]
  exact htarget.bind fun target => mirrors_writeIn target name value

theorem mirrors_overwrite
    (name : Token)
    (value : Value) :
    Mirrors id (overwrite name value) (overwrite name.unlined value.unlined) := by
  have htarget : Mirrors id (read fun m => m.frames.holder? m.current name.lexeme)
      (read fun m => m.frames.holder? m.current name.unlined.lexeme) :=
    mirrors_read fun m => m.frames.holder?_unlined m.current name.lexeme
  exact htarget.bind fun target => mirrors_writeIn target name value

section Sequences

variable {eval eval' : Expr → Run Value}
variable {exec exec' : Stmt → Run Flow}

theorem mirrors_evalAll
    (heval : ∀ e, Mirrors Value.unlined (eval e) (eval' e.unlined))
    (es : List Expr) :
    Mirrors (List.map Value.unlined) (evalAll eval es) (evalAll eval' (Expr.unlinedAll es)) := by
  induction es with
  | nil =>
      exact .pure rfl
  | cons e rest ih =>
      exact (heval e).bind fun _ => ih.bind fun _ => .pure rfl

theorem mirrors_execAll
    (hexec : ∀ s, Mirrors Flow.unlined (exec s) (exec' s.unlined))
    (body : List Stmt) :
    Mirrors Flow.unlined (execAll exec body) (execAll exec' (Stmt.unlinedAll body)) := by
  induction body with
  | nil =>
      exact .pure rfl
  | cons s rest ih =>
      refine (hexec s).bind fun flow => ?_
      cases flow with
      | normal =>
          exact ih
      | returned value =>
          exact .pure rfl

theorem mirrors_repeatWhile
    {condition condition' : Run Value}
    {body body' : Run Flow}
    (hcondition : Mirrors Value.unlined condition condition')
    (hbody : Mirrors Flow.unlined body body')
    (count : Nat) :
    Mirrors Flow.unlined (repeatWhile condition body count)
      (repeatWhile condition' body' count) := by
  induction count with
  | zero =>
      exact mirrors_outOfFuel _
  | succ count ih =>
      refine hcondition.bind fun value => ?_
      rw [Value.isTruthy_unlined]
      refine .ite ?_ (.pure rfl)
      refine hbody.bind fun flow => ?_
      cases flow with
      | normal =>
          exact ih
      | returned value =>
          exact .pure rfl

end Sequences

end Run

open Run

section Calls

theorem mirrors_bindParams
    (frame : Nat) :
    ∀ (params : List Token) (values : List Value),
      Mirrors id (bindParams frame params values)
        (bindParams frame (params.map Token.unlined) (values.map Value.unlined))
  | [], _ => .pure rfl
  | _ :: _, [] => .pure rfl
  | p :: params, value :: values =>
      (mirrors_defineIn frame p.lexeme value).bind fun _ => mirrors_bindParams frame params values

theorem mirrors_closureBind
    (closure : Closure)
    (place : Nat) :
    Mirrors Closure.unlined (closure.bind place) (closure.unlined.bind place) :=
  (mirrors_pushFrame closure.frame).bind fun frame =>
    (mirrors_defineIn frame "this" (.object place)).bind fun _ => .pure rfl

variable {exec exec' : List Stmt → Run Flow}
variable (hexec : ∀ body, Mirrors Flow.unlined (exec body) (exec' (Stmt.unlinedAll body)))

include hexec

theorem mirrors_invoke
    (closure : Closure)
    (arguments : List Value) :
    Mirrors Value.unlined (closure.invoke exec arguments)
      (closure.unlined.invoke exec' (arguments.map Value.unlined)) := by
  obtain ⟨⟨name, params, body⟩, frame, isInitializer⟩ := closure
  refine (mirrors_pushFrame frame).bind fun inner =>
    (mirrors_bindParams inner params arguments).bind fun _ =>
      ((hexec body).within inner).bind fun flow => .ite ?_ ?_
  · refine (mirrors_read (f := Option.map Value.unlined) ?_).bind fun this => .pure ?_
    · intro m
      exact Frames.getAt?_unlined _ _ _ _
    · cases this <;> rfl
  · cases flow <;> exact .pure rfl

theorem mirrors_instantiate
    (c : Class)
    (arguments : List Value) :
    Mirrors Value.unlined (c.instantiate exec arguments)
      (c.unlined.instantiate exec' (arguments.map Value.unlined)) := by
  refine (mirrors_newObject c).bind fun place => ?_
  rw [Class.findMethod?_unlined]
  cases c.findMethod? initializerName with
  | none =>
      exact .pure rfl
  | some initializer =>
      exact (mirrors_closureBind initializer place).bind fun method =>
        (mirrors_invoke hexec method arguments).bind fun _ => .pure rfl

theorem mirrors_apply
    (σ : Setting)
    (callee : Value)
    (paren : Token)
    (arguments : List Value) :
    Mirrors Value.unlined (callee.apply σ exec paren arguments)
      (callee.unlined.apply σ exec' paren.unlined (arguments.map Value.unlined)) := by
  cases callee with
  | native function =>
      cases function
      exact mirrors_readClock σ
  | function identity closure =>
      exact mirrors_invoke hexec closure arguments
  | cls c =>
      exact mirrors_instantiate hexec c arguments
  | _ =>
      exact mirrors_fail _ _ _

theorem mirrors_call
    (σ : Setting)
    (callee : Value)
    (paren : Token)
    (arguments : List Value) :
    Mirrors Value.unlined (callee.call σ exec paren arguments)
      (callee.unlined.call σ exec' paren.unlined (arguments.map Value.unlined)) := by
  have harity : callee.unlined.arity? = callee.arity? := by
    cases callee with
    | function identity closure =>
        exact congrArg some closure.decl.arity_unlined
    | cls c =>
        exact congrArg some (c.arity_unlined _)
    | _ =>
        rfl
  unfold Value.call
  rw [harity, List.length_map]
  cases callee.arity? with
  | none =>
      exact mirrors_fail _ _ _
  | some arity =>
      exact .ite (mirrors_apply hexec σ callee paren arguments) (mirrors_fail _ _ _)

omit hexec

theorem mirrors_property
    (object : Value)
    (name : Token) :
    Mirrors Value.unlined (object.property name) (object.unlined.property name.unlined) := by
  cases object with
  | object place =>
      refine (mirrors_read (f := Option.map Instance.unlined) ?_).bind fun found => ?_
      · intro m
        exact Array.getElem?_map
      · cases found with
        | none =>
            exact mirrors_fail _ _ _
        | some o =>
            simp only [Option.map_some, Instance.unlined, Token.lexeme_unlined,
              lookup_mapBindings, Class.findMethod?_unlined]
            cases o.fields.lookup name.lexeme with
            | some value =>
                exact .pure rfl
            | none =>
                cases o.cls.findMethod? name.lexeme with
                | some method =>
                    exact (mirrors_closureBind method place).bind mirrors_newFunction
                | none =>
                    exact mirrors_fail _ _ _
  | _ =>
      exact mirrors_fail _ _ _

theorem mirrors_superMethod
    (σ : Setting)
    (id : Nat)
    (keyword method : Token) :
    Mirrors Value.unlined (superMethod σ id keyword method)
      (superMethod σ id keyword.unlined method.unlined) := by
  have hread : ∀ distance name, Mirrors (Option.map Value.unlined)
      (read fun m => m.frames.getAt? m.current distance name)
      (read fun m => m.frames.getAt? m.current distance name) :=
    fun distance name => mirrors_read fun m => Frames.getAt?_unlined _ _ _ _
  unfold superMethod
  cases σ.locals.get? id with
  | none =>
      exact mirrors_stop _ _
  | some distance =>
      refine (hread distance "super").bind fun found => ?_
      rcases found with _ | value
      · exact mirrors_stop _ _
      · cases value with
        | cls parent =>
            refine (hread (distance - 1) "this").bind fun this => ?_
            rcases this with _ | object
            · exact mirrors_fail _ _ _
            · cases object with
              | object place =>
                  simp only [Option.map_some, Value.unlined, Class.findMethod?_unlined,
                    Token.lexeme_unlined]
                  cases parent.findMethod? method.lexeme with
                  | some found =>
                      exact (mirrors_closureBind found place).bind mirrors_newFunction
                  | none =>
                      exact mirrors_fail _ _ _
              | _ =>
                  exact mirrors_fail _ _ _
        | _ =>
            exact mirrors_stop _ _

theorem methodTable_unlined
    (frame : Nat)
    (methods : List FunctionDecl) :
    methodTable frame (Stmt.unlinedMethods methods) =
      mapBindings Closure.unlined (methodTable frame methods) := by
  have hstep : ∀ table : List (String × Closure),
      (methods.map FunctionDecl.unlined).foldl
          (fun table decl => putBinding decl.name.lexeme
            ⟨decl, frame, decl.name.lexeme = initializerName⟩ table)
          (mapBindings Closure.unlined table) =
        mapBindings Closure.unlined (methods.foldl
          (fun table decl => putBinding decl.name.lexeme
            ⟨decl, frame, decl.name.lexeme = initializerName⟩ table) table) := by
    induction methods with
    | nil =>
        exact fun _ => rfl
    | cons decl rest ih =>
        intro table
        simp only [List.map_cons, List.foldl_cons, FunctionDecl.name_unlined, Token.lexeme_unlined]
        rw [← ih, ← putBinding_mapBindings]
        rfl
  rw [Stmt.unlinedMethods_eq_map]
  exact hstep []

theorem mirrors_declareClass
    (name : Token)
    (superclass : Option Class)
    (methods : List FunctionDecl) :
    Mirrors id (declareClass name superclass methods)
      (declareClass name.unlined (superclass.map Class.unlined) (Stmt.unlinedMethods methods)) := by
  have hfinish : ∀ frame, Mirrors id
      (do
        let c ← newClass name.lexeme superclass (methodTable frame methods)
        overwrite name c)
      (do
        let c ← newClass name.unlined.lexeme (superclass.map Class.unlined)
          (methodTable frame (Stmt.unlinedMethods methods))
        overwrite name.unlined c) := by
    intro frame
    rw [methodTable_unlined]
    exact (mirrors_newClass _ _ _).bind fun c => mirrors_overwrite name c
  refine (mirrors_define name.lexeme .nil).bind fun _ =>
    mirrors_current.bind fun outer => ?_
  cases superclass with
  | none =>
      exact (Mirrors.pure (f := id) rfl).bind hfinish
  | some parent =>
      refine (mirrors_pushFrame outer).bind fun frame =>
        (mirrors_defineIn frame "super" (.cls parent)).bind fun _ => ?_
      exact (Mirrors.pure (f := id) rfl).bind hfinish

end Calls

section Trees

variable (σ : Setting)

theorem mirrors_evalStep
    {eval : Expr → Run Value}
    {exec : List Stmt → Run Flow}
    (heval : ∀ e, Mirrors Value.unlined (eval e) (eval e.unlined))
    (hexec : ∀ body, Mirrors Flow.unlined (exec body) (exec (Stmt.unlinedAll body)))
    (e : Expr) :
    Mirrors Value.unlined (evalStep σ eval exec e) (evalStep σ eval exec e.unlined) := by
  cases e with
  | literal value =>
      exact .pure (Value.ofLiteral_unlined value)
  | grouping inner =>
      exact heval inner
  | unary operator right =>
      refine (heval right).bind fun value => ?_
      rw [Operator.unary_unlined]
      exact mirrors_check (fun _ h => Operator.unary_plain h) operator
  | binary left operator right =>
      refine (heval left).bind fun a => (heval right).bind fun b =>
        mirrors_objects.bind fun objects => ?_
      rw [Operator.binary_unlined]
      exact mirrors_check (fun _ h => Operator.binary_plain h) operator
  | logical left operator right =>
      refine (heval left).bind fun a => ?_
      rw [Operator.decides_unlined]
      exact .ite (.pure rfl) (heval right)
  | var id name =>
      exact mirrors_readVariable σ id name
  | assign id name value =>
      exact (heval value).bind fun v => (mirrors_writeVariable σ id name v).bind fun _ => .pure rfl
  | call callee paren arguments =>
      exact (heval callee).bind fun f => (mirrors_evalAll heval arguments).bind fun values =>
        mirrors_call hexec σ f paren values
  | get object name =>
      exact (heval object).bind fun o => mirrors_property o name
  | set object name value =>
      refine (heval object).bind fun o => ?_
      cases o with
      | object place =>
          exact (heval value).bind fun v =>
            (mirrors_setField place name.lexeme v).bind fun _ => .pure rfl
      | _ =>
          exact mirrors_fail _ _ _
  | this id keyword =>
      exact mirrors_readVariable σ id keyword
  | super id keyword method =>
      exact mirrors_superMethod σ id keyword method

theorem superclassToken_unlined
    (name : Token)
    (superclass : Expr) :
    superclassToken name.unlined superclass.unlined =
      (superclassToken name superclass).unlined := by
  cases superclass <;> rfl

theorem mirrors_execStep
    {eval : Expr → Run Value}
    {exec : Stmt → Run Flow}
    (heval : ∀ e, Mirrors Value.unlined (eval e) (eval e.unlined))
    (hexec : ∀ s, Mirrors Flow.unlined (exec s) (exec s.unlined))
    (rounds : Nat)
    (s : Stmt) :
    Mirrors Flow.unlined (execStep eval exec rounds s) (execStep eval exec rounds s.unlined) := by
  cases s with
  | expression e =>
      exact (heval e).bind fun _ => .pure rfl
  | print e =>
      refine (heval e).bind fun value =>
        mirrors_objects.bind fun objects => ?_
      rw [Value.display_unlined]
      exact (mirrors_print _).bind fun _ => .pure rfl
  | var name initializer =>
      cases initializer with
      | none =>
          exact (mirrors_define name.lexeme .nil).bind fun _ => .pure rfl
      | some e =>
          exact (heval e).bind fun value =>
            (mirrors_define name.lexeme value).bind fun _ => .pure rfl
  | block body =>
      exact mirrors_current.bind fun outer =>
        (mirrors_pushFrame outer).bind fun frame => (mirrors_execAll hexec body).within frame
  | ifThen condition thenBranch =>
      refine (heval condition).bind fun value => ?_
      rw [Value.isTruthy_unlined]
      exact .ite (hexec thenBranch) (.pure rfl)
  | ifElse condition thenBranch elseBranch =>
      refine (heval condition).bind fun value => ?_
      rw [Value.isTruthy_unlined]
      exact .ite (hexec thenBranch) (hexec elseBranch)
  | loop condition body =>
      exact mirrors_repeatWhile (heval condition) (hexec body) rounds
  | function decl =>
      obtain ⟨name, params, body⟩ := decl
      exact mirrors_current.bind fun frame =>
        (mirrors_newFunction ⟨.mk name params body, frame, false⟩).bind fun f =>
          (mirrors_define name.lexeme f).bind fun _ => .pure rfl
  | ret keyword value =>
      cases value with
      | none =>
          exact .pure rfl
      | some e =>
          exact (heval e).bind fun _ => .pure rfl
  | classDecl name superclass methods =>
      cases superclass with
      | none =>
          exact (mirrors_declareClass name none methods).bind fun _ => .pure rfl
      | some superclass =>
          refine (heval superclass).bind fun value => ?_
          cases value with
          | cls parent =>
              exact (mirrors_declareClass name (some parent) methods).bind fun _ => .pure rfl
          | _ =>
              rw [superclassToken_unlined]
              exact mirrors_fail _ _ _

/-- Trees without lines are evaluated and executed the same way, with any amount of fuel. -/
theorem eval_exec_mirrors
    (fuel : Nat) :
    (∀ e, Mirrors Value.unlined (eval σ fuel e) (eval σ fuel e.unlined)) ∧
      ∀ s, Mirrors Flow.unlined (exec σ fuel s) (exec σ fuel s.unlined) := by
  induction fuel with
  | zero =>
      constructor
      · intro e
        rw [eval, eval]
        exact mirrors_outOfFuel _
      · intro s
        rw [exec, exec]
        exact mirrors_outOfFuel _
  | succ fuel ih =>
      constructor
      · intro e
        rw [eval, eval]
        exact mirrors_evalStep σ ih.1 (mirrors_execAll ih.2) e
      · intro s
        rw [exec, exec]
        exact mirrors_execStep ih.1 ih.2 fuel s

/-- Programs without lines run the same way. -/
theorem interpret_mirrors
    (fuel : Nat)
    (statements : List Stmt) :
    Mirrors id (Machine.interpret σ fuel statements)
      (Machine.interpret σ fuel (statements.map Stmt.unlined)) := by
  rw [← Stmt.unlinedAll_eq_map]
  exact (mirrors_execAll (eval_exec_mirrors σ fuel).2 statements).bind fun _ => .pure rfl

end Trees

end Lox
