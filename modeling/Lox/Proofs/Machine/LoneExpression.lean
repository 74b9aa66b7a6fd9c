import Lox.Proofs.Machine.KeepsCalls
import Lox.Proofs.Machine.Safety
import Lox.Proofs.Store.Trace

/-!
# Evaluation without a program

A machine that has run nothing knows no functions but the provided ones, and no classes.  Evaluating
expressions on it never makes any: a call finds nothing to run but the clock, and no property can be
read or written.  So everything stays as basic as it was, and nothing is printed.  That is so at the
end of an evaluation, and at everything that can be seen of it.
-/

namespace Lox

open Run

/-- A value that no declaration has a part in: neither a declared function nor a class nor an
object. -/
def Value.Basic : Value → Prop
  | .function _ _ | .cls _ | .object _ => False
  | _ => True

/-- A machine without objects, whose frames hold nothing but basic values. -/
structure Machine.Basic (m : Machine) : Prop where
  bound : ∀ {frame name value}, m.frames.lookup? frame name = some value → value.Basic
  objects : m.objects = #[]

/-- A run that leaves a basic machine basic, prints nothing, and gives only what is wanted. -/
structure Run.Idles {α : Type} (r : Run α) (post : α → Prop) (m : Machine) : Prop where
  basic : (r m).2.Basic
  output : (r m).2.output = m.output
  ok : ∀ a, (r m).1 = .ok a → post a

theorem Value.Plain.basic
    {value : Value}
    (h : value.Plain) :
    value.Basic := by
  cases value with
  | function _ _ =>
      exact h
  | cls _ =>
      exact h
  | object _ =>
      exact h
  | _ =>
      trivial

/-- Only objects are printed with the help of the machine. -/
theorem Value.Basic.display_eq
    {value : Value}
    (h : value.Basic)
    (objects objects' : Array Instance) :
    value.display objects = value.display objects' := by
  cases value with
  | object place =>
      exact h.elim
  | bool b =>
      cases b <;> rfl
  | _ =>
      rfl

/-- The machine that has run nothing. -/
theorem Machine.start_basic : Machine.start.Basic where
  bound := by
    intro frame name value hlookup
    rw [(Machine.lookup?_start hlookup).2]
    trivial
  objects := rfl

/-- Binding a name to a basic value. -/
theorem Machine.Basic.define
    {m : Machine}
    (h : m.Basic)
    {value : Value}
    (hvalue : value.Basic)
    (frame : Nat)
    (name : String) :
    Machine.Basic { m with frames := m.frames.define frame name value } where
  bound := by
    intro frame' name' value' hlookup
    rcases Frames.lookup?_define hlookup with ⟨-, -, rfl⟩ | hold
    · exact hvalue
    · exact h.bound hold
  objects := h.objects

/-- A basic machine in the same frame, on which nothing was made or printed since. -/
structure Machine.Still (m m' : Machine) : Prop where
  basic : m'.Basic
  current : m'.current = m.current
  classCount : m'.classCount = m.classCount
  functionCount : m'.functionCount = m.functionCount
  output : m'.output = m.output

/-- A run with a trace on which nothing is ever made or printed, up to the end of the run; no value
there is other than basic, and the result is as wanted. -/
structure Run.Quieted {α : Type} (r : Watcher → Run α) (post : α → Prop) (m : Machine)
    (trace : List (Sight × Machine)) : Prop where
  traced : Traced r m trace
  fine : ∀ entry ∈ trace, m.Still entry.2 ∧ ∀ value ∈ entry.1.values, value.Basic
  still : m.Still (r .idle m).2
  ok : ∀ a, (r .idle m).1 = .ok a → post a

/-- A run in which nothing is ever made or printed. -/
def Run.Quiet {α : Type} (r : Watcher → Run α) (post : α → Prop) (m : Machine) : Prop :=
  ∃ trace, Quieted r post m trace

/-- A sight on a machine is part of evaluating an expression that is all there is: whoever waits for
it stops the evaluation. -/
def Machine.MeetsAlone (σ : Setting) (fuel : Nat) (e : Expr) (x : Sight) (m : Machine) : Prop :=
  ∀ error, ∃ m', evalWatched σ (.waiting x m error) fuel e .start = (.error (.fault error), m')

namespace Machine.Still

variable {m m' m'' : Machine}

theorem refl
    (h : m.Basic) :
    Still m m :=
  ⟨h, rfl, rfl, rfl, rfl⟩

theorem trans
    (h : Still m m')
    (h' : Still m' m'') :
    Still m m'' :=
  ⟨h'.basic, h'.current.trans h.current, h'.classCount.trans h.classCount,
    h'.functionCount.trans h.functionCount, h'.output.trans h.output⟩

end Machine.Still

namespace Run.Quiet

variable {α β : Type}
variable {m : Machine}
variable {post : α → Prop}

/-- A step that nobody can watch. -/
theorem of_ok
    {r : Run α}
    {a : α}
    {m' : Machine}
    (h : r m = (.ok a, m'))
    (hstill : m.Still m')
    (ha : post a) :
    Quiet (fun _ => r) post m := by
  refine ⟨[], .nil r m, by simp, by rw [h]; exact hstill, ?_⟩
  intro b hb
  rw [h] at hb
  cases hb
  exact ha

/-- A step that stops at once. -/
theorem of_error
    {r : Run α}
    {stop : Stop}
    (hm : m.Basic)
    (h : r m = (.error stop, m)) :
    Quiet (fun _ => r) post m := by
  refine ⟨[], .nil r m, by simp, by rw [h]; exact .refl hm, ?_⟩
  intro b hb
  rw [h] at hb
  cases hb

theorem bind
    {r : Watcher → Run α}
    {f : Watcher → α → Run β}
    {post' : β → Prop}
    (hr : Quiet r post m)
    (hf : ∀ {m' a}, m'.Basic → post a → Quiet (fun w => f w a) post' m') :
    Quiet (fun w => r w >>= f w) post' m := by
  obtain ⟨trace, htraced, hfine, hstill, hok⟩ := hr
  rcases hrun : r .idle m with ⟨result, m'⟩
  rw [hrun] at hstill hok
  cases result with
  | error stop =>
      have heq := bind_of_error hrun (f .idle)
      refine ⟨trace, htraced.bind_error hrun, hfine, ?_, ?_⟩
      · rw [heq]
        exact hstill
      · intro b hb
        rw [heq] at hb
        cases hb
  | ok a =>
      have heq := bind_of_ok hrun (f .idle)
      obtain ⟨later, htraced', hfine', hstill', hok'⟩ := hf hstill.basic (hok a rfl)
      refine ⟨trace ++ later, htraced.bind_ok hrun hstill.current htraced', ?_, ?_, ?_⟩
      · intro entry hentry
        rcases List.mem_append.mp hentry with hentry | hentry
        · exact hfine entry hentry
        · exact ⟨hstill.trans (hfine' entry hentry).1, (hfine' entry hentry).2⟩
      · rw [heq]
        exact hstill.trans hstill'
      · intro b hb
        rw [heq] at hb
        exact hok' b hb

theorem pass
    {x : Sight}
    (hm : m.Basic)
    (hx : ∀ value ∈ x.values, value.Basic) :
    Quiet (fun w => w.pass x) (fun _ => True) m := by
  refine ⟨[(x, m)], .pass x m, ?_, .refl hm, fun _ _ => trivial⟩
  intro entry hentry
  obtain rfl := List.mem_singleton.mp hentry
  exact ⟨.refl hm, hx⟩

end Run.Quiet

section Steps

variable {α : Type}
variable {m : Machine}
variable {post : α → Prop}
variable (hm : m.Basic)

include hm

theorem quiet_pure
    {a : α}
    (ha : post a) :
    Quiet (fun _ => (pure a : Run α)) post m :=
  .of_ok rfl (.refl hm) ha

theorem quiet_read (f : Machine → α) :
    Quiet (fun _ => read f) (fun _ => True) m :=
  .of_ok rfl (.refl hm) trivial

theorem quiet_check
    {found : Token}
    {outcome : Except RuntimeFault Value}
    (h : ∀ value, outcome = .ok value → value.Basic) :
    Quiet (fun _ => check found outcome) Value.Basic m := by
  cases outcome with
  | ok value =>
      exact quiet_pure hm (h value rfl)
  | error fault =>
      exact .of_error hm rfl

theorem quiet_readVariable
    (σ : Setting)
    (id : Nat)
    (name : Token) :
    Quiet (fun _ => readVariable σ id name) Value.Basic m := by
  rcases readVariable_cases σ id name m with ⟨value, target, hrun, hlookup⟩ | hrun
  · exact .of_ok hrun (.refl hm) (hm.bound hlookup)
  · exact .of_error hm hrun

theorem quiet_writeVariable
    {value : Value}
    (hvalue : value.Basic)
    (σ : Setting)
    (id : Nat)
    (name : Token) :
    Quiet (fun _ => writeVariable σ id name value) (fun _ => True) m := by
  refine (quiet_read hm (variableFrame? σ id name)).bind ?_
  intro m' target hm' _
  cases target with
  | none =>
      exact .of_error hm' rfl
  | some frame =>
      exact .of_ok rfl ⟨hm'.define hvalue frame name.lexeme, rfl, rfl, rfl, rfl⟩ trivial

/-- Nothing but the clock can be called. -/
theorem quiet_call
    {callee : Value}
    (hcallee : callee.Basic)
    (σ : Setting)
    (exec : Watcher → List Stmt → Run Flow)
    (paren : Token)
    (arguments : List Value) :
    Quiet (fun w => callee.call σ (exec w) paren arguments) Value.Basic m := by
  unfold Value.call
  cases harity : callee.arity? with
  | none =>
      exact .of_error hm rfl
  | some arity =>
      by_cases hlength : arguments.length = arity
      · simp only [hlength, if_true]
        cases callee with
        | native f =>
            exact .of_ok rfl ⟨⟨hm.bound, hm.objects⟩, rfl, rfl, rfl, rfl⟩ trivial
        | function _ _ =>
            exact hcallee.elim
        | cls _ =>
            exact hcallee.elim
        | _ =>
            cases harity
      · simp only [hlength, if_false]
        exact .of_error hm rfl

/-- Basic values have no properties. -/
theorem quiet_property
    {object : Value}
    (hobject : object.Basic)
    (name : Token) :
    Quiet (fun _ => object.property name) Value.Basic m := by
  cases object with
  | object place =>
      exact hobject.elim
  | _ =>
      exact .of_error hm rfl

/-- No class stands under `super`. -/
theorem quiet_superMethod
    (σ : Setting)
    (id : Nat)
    (keyword method : Token) :
    Quiet (fun _ => superMethod σ id keyword method) Value.Basic m := by
  unfold superMethod
  cases σ.locals.get? id with
  | none =>
      exact .of_error hm rfl
  | some distance =>
      refine .of_error hm (?_ : _ = (Except.error (Stop.fault (.undefined keyword)), m))
      simp only [bind_apply, Run.read]
      cases hsuper : m.frames.getAt? m.current distance "super" with
      | none =>
          rfl
      | some value =>
          obtain ⟨target, -, hlookup⟩ := Frames.exists_of_getAt? hsuper
          have hvalue := hm.bound hlookup
          cases value with
          | cls parent =>
              exact hvalue.elim
          | _ =>
              rfl

end Steps

section Evaluation

variable {eval : Watcher → Expr → Run Value}
variable (heval : ∀ e {m : Machine}, m.Basic → Quiet (fun w => eval w e) Value.Basic m)

include heval

theorem quiet_evalAll
    {m : Machine}
    (hm : m.Basic)
    (es : List Expr) :
    Quiet (fun w => evalAll (eval w) es) (fun _ => True) m := by
  induction es generalizing m with
  | nil =>
      exact quiet_pure hm trivial
  | cons e rest ih =>
      refine (heval e hm).bind ?_
      intro m₁ value hm₁ _
      refine (ih hm₁).bind ?_
      intro m₂ values hm₂ _
      exact quiet_pure hm₂ trivial

/-- One level of evaluation, whatever bodies of functions would do. -/
theorem quiet_evalStep
    (σ : Setting)
    (exec : Watcher → List Stmt → Run Flow)
    (e : Expr)
    {m : Machine}
    (hm : m.Basic) :
    Quiet (fun w => evalStep σ (eval w) (exec w) e) Value.Basic m := by
  cases e with
  | literal value =>
      refine quiet_pure hm ?_
      cases value <;> trivial
  | grouping inner =>
      exact heval inner hm
  | unary operator right =>
      refine (heval right hm).bind ?_
      intro m₁ value hm₁ _
      exact quiet_check hm₁ fun _ hresult => (Operator.unary_plain hresult).basic
  | binary left operator right =>
      refine (heval left hm).bind ?_
      intro m₁ a hm₁ _
      refine (heval right hm₁).bind ?_
      intro m₂ b hm₂ _
      refine (quiet_read hm₂ _).bind ?_
      intro m₃ objects hm₃ _
      exact quiet_check hm₃ fun _ hresult => (Operator.binary_plain hresult).basic
  | logical left operator right =>
      refine (heval left hm).bind ?_
      intro m₁ a hm₁ ha
      by_cases hdecides : Operator.decides operator a
      · simp only [hdecides, if_true]
        exact quiet_pure hm₁ ha
      · simp only [hdecides]
        exact heval right hm₁
  | var id name =>
      exact quiet_readVariable hm σ id name
  | assign id name value =>
      refine (heval value hm).bind ?_
      intro m₁ v hm₁ hv
      refine (quiet_writeVariable hm₁ hv σ id name).bind ?_
      intro m₂ _ hm₂ _
      exact quiet_pure hm₂ hv
  | call callee paren arguments =>
      refine (heval callee hm).bind ?_
      intro m₁ f hm₁ hf
      refine (quiet_evalAll heval hm₁ arguments).bind ?_
      intro m₂ values hm₂ _
      exact quiet_call hm₂ hf σ exec paren values
  | get object name =>
      refine (heval object hm).bind ?_
      intro m₁ o hm₁ ho
      exact quiet_property hm₁ ho name
  | set object name value =>
      refine (heval object hm).bind ?_
      intro m₁ o hm₁ ho
      cases o with
      | object place =>
          exact ho.elim
      | _ =>
          exact .of_error hm₁ rfl
  | this id keyword =>
      exact quiet_readVariable hm σ id keyword
  | super id keyword method =>
      exact quiet_superMethod hm σ id keyword method

end Evaluation

/-- Evaluation on a basic machine is quiet. -/
theorem quiet_evalWatched
    (σ : Setting)
    (fuel : Nat)
    (e : Expr)
    {m : Machine}
    (hm : m.Basic) :
    Quiet (fun w => evalWatched σ w fuel e) Value.Basic m := by
  have hevaluates : ∀ (e : Expr) {m : Machine}, m.Basic →
      Quiet (fun w => w.pass (.evaluates e)) (fun _ => True) m :=
    fun e _ hm => .pass hm (by simp [Sight.values])
  induction fuel generalizing e m with
  | zero =>
      exact (hevaluates e hm).bind fun hm₁ _ => .of_error hm₁ rfl
  | succ fuel ih =>
      refine (hevaluates e hm).bind fun hm₁ _ => ?_
      refine (quiet_evalStep ih σ (fun w => execAll (execWatched σ w fuel)) e hm₁).bind ?_
      intro m₂ value hm₂ hvalue
      have hevaluated : Quiet (fun w => w.pass (.evaluated e value)) (fun _ => True) m₂ :=
        .pass hm₂ (by simpa [Sight.values] using hvalue)
      exact hevaluated.bind fun hm₃ _ => quiet_pure hm₃ hvalue

/-- Evaluation on a basic machine leaves it basic, prints nothing, and gives a basic value. -/
theorem eval_idles
    (σ : Setting)
    (fuel : Nat)
    (e : Expr)
    {m : Machine}
    (hm : m.Basic) :
    (eval σ fuel e).Idles Value.Basic m := by
  obtain ⟨trace, -, -, hstill, hok⟩ := quiet_evalWatched σ fuel e hm
  rw [(watched_idle σ fuel).1] at hstill hok
  exact ⟨hstill.basic, hstill.output, hok⟩

/-- Whatever is seen while an expression is evaluated that is all there is, nothing was made or
printed, and all values are basic. -/
theorem Machine.MeetsAlone.still
    {σ : Setting}
    {fuel : Nat}
    {e : Expr}
    {x : Sight}
    {m : Machine}
    (h : Machine.MeetsAlone σ fuel e x m) :
    Machine.start.Still m ∧ ∀ value ∈ x.values, value.Basic := by
  obtain ⟨trace, htraced, hfine, -⟩ := quiet_evalWatched σ fuel e Machine.start_basic
  exact hfine (x, m) ((htraced.mem_iff x m).mpr h)

end Lox
