import Lox.Proofs.Machine.KeepsCalls
import Lox.Proofs.Machine.Safety

/-!
# Programs that end

A statement is straight if there is no loop in it, no function and no method.  Where only straight
statements run, nothing that is called has a body: functions are never made, and classes have no
methods, not even inherited ones.  So a call runs no statements, and an evaluation needs only as much
fuel as its expression nests, an execution as much as its statement does.
-/

namespace Lox

open Run

namespace Expr

mutual

/-- How deep the expression nests. -/
def nesting : Expr → Nat
  | .literal _ | .var _ _ | .this _ _ | .super _ _ _ => 1
  | .grouping inner => inner.nesting + 1
  | .unary _ right => right.nesting + 1
  | .binary left _ right => max left.nesting right.nesting + 1
  | .logical left _ right => max left.nesting right.nesting + 1
  | .assign _ _ value => value.nesting + 1
  | .call callee _ arguments => max callee.nesting (nestingAll arguments) + 1
  | .get object _ => object.nesting + 1
  | .set object _ value => max object.nesting value.nesting + 1

/-- How deep the deepest expression of a list nests. -/
def nestingAll : List Expr → Nat
  | [] => 0
  | e :: rest => max e.nesting (nestingAll rest)

end

/-- How deep an expression nests that may be missing. -/
def nestingOption : Option Expr → Nat
  | none => 0
  | some e => e.nesting

end Expr

namespace Stmt

mutual

/-- Whether there are no loops, no functions and no methods in the statement. -/
def straight : Stmt → Bool
  | .expression _ | .print _ | .var _ _ | .ret _ _ => true
  | .block body => straightAll body
  | .ifThen _ thenBranch => thenBranch.straight
  | .ifElse _ thenBranch elseBranch => thenBranch.straight && elseBranch.straight
  | .loop _ _ | .function _ => false
  | .classDecl _ _ methods => methods.isEmpty

/-- Whether all statements of a list are straight. -/
def straightAll : List Stmt → Bool
  | [] => true
  | s :: rest => s.straight && straightAll rest

end

mutual

/-- How deep the statement nests. -/
def nesting : Stmt → Nat
  | .expression value | .print value => value.nesting + 1
  | .var _ initializer => Expr.nestingOption initializer + 1
  | .block body => nestingAll body + 1
  | .ifThen condition thenBranch => max condition.nesting thenBranch.nesting + 1
  | .ifElse condition thenBranch elseBranch =>
      max condition.nesting (max thenBranch.nesting elseBranch.nesting) + 1
  | .loop condition body => max condition.nesting body.nesting + 1
  | .function _ => 1
  | .ret _ value => Expr.nestingOption value + 1
  | .classDecl _ superclass _ => Expr.nestingOption superclass + 1

/-- How deep the deepest statement of a list nests. -/
def nestingAll : List Stmt → Nat
  | [] => 0
  | s :: rest => max s.nesting (nestingAll rest)

end

end Stmt

/-- A class without methods of its own or inherited ones. -/
def Class.Inert (c : Class) : Prop :=
  ∀ name, c.findMethod? name = none

/-- A value that runs no statements when it is called. -/
def Value.Inert : Value → Prop
  | .function _ _ => False
  | .cls c => c.Inert
  | _ => True

/-- A machine that holds nothing but inert values. -/
structure Machine.Inert (m : Machine) : Prop where
  bound : ∀ {frame name value}, m.frames.lookup? frame name = some value → value.Inert
  objects : ∀ {place : Nat} {o : Instance}, m.objects[place]? = some o →
    o.cls.Inert ∧ ∀ name value, o.fields.lookup name = some value → value.Inert

/-- A run that does not want for fuel and leaves the machine inert, with a result as wanted. -/
structure Run.Ends {α : Type} (r : Run α) (post : α → Prop) (m : Machine) : Prop where
  ends : (r m).1 ≠ .error .outOfFuel
  inert : (r m).2.Inert
  ok : ∀ a, (r m).1 = .ok a → post a

theorem Value.Plain.inert
    {value : Value}
    (h : value.Plain) :
    value.Inert := by
  cases value with
  | function identity closure =>
      exact h
  | cls c =>
      exact h.elim
  | _ =>
      trivial

namespace Machine.Inert

variable {m : Machine}

theorem of_same
    {m' : Machine}
    (h : m.Inert)
    (hframes : m'.frames = m.frames)
    (hobjects : m'.objects = m.objects) :
    m'.Inert where
  bound := by
    rw [hframes]
    exact h.bound
  objects := by
    rw [hobjects]
    exact h.objects

theorem define
    (h : m.Inert)
    {value : Value}
    (hvalue : value.Inert)
    (frame : Nat)
    (name : String) :
    Machine.Inert { m with frames := m.frames.define frame name value } where
  bound := by
    intro frame' name' value' hlookup
    rcases Frames.lookup?_define hlookup with ⟨-, -, rfl⟩ | hold
    · exact hvalue
    · exact h.bound hold
  objects := h.objects

theorem push
    (h : m.Inert)
    (outer : Nat) :
    Machine.Inert { m with frames := m.frames.push outer } where
  bound := by
    intro frame name value hlookup
    rw [Frames.lookup?_push] at hlookup
    exact h.bound hlookup
  objects := h.objects

theorem newObject
    (h : m.Inert)
    {c : Class}
    (hc : c.Inert) :
    Machine.Inert { m with objects := m.objects.push ⟨c, []⟩ } where
  bound := h.bound
  objects := by
    intro place o ho
    simp only [Array.getElem?_push] at ho
    split at ho
    · cases ho
      exact ⟨hc, by simp⟩
    · exact h.objects ho

theorem setField
    (h : m.Inert)
    {value : Value}
    (hvalue : value.Inert)
    (place : Nat)
    (name : String) :
    Machine.Inert { m with objects := m.objects.modify place (·.setField name value) } where
  bound := h.bound
  objects := by
    intro place' o ho
    simp only [Array.getElem?_modify] at ho
    split at ho
    · obtain ⟨old, hold, rfl⟩ := Option.map_eq_some_iff.mp ho
      obtain ⟨hcls, hfields⟩ := h.objects hold
      refine ⟨hcls, ?_⟩
      intro field v hv
      by_cases hfield : field = name
      · rw [hfield] at hv
        simp only [Instance.setField, lookup_putBinding_self, Option.some.injEq] at hv
        rw [← hv]
        exact hvalue
      · simp only [Instance.setField, lookup_putBinding_of_ne hfield] at hv
        exact hfields field v hv
    · exact h.objects ho

theorem start : Machine.start.Inert where
  bound := by
    intro frame name value hlookup
    rw [(Machine.lookup?_start hlookup).2]
    trivial
  objects := by
    intro place o ho
    simp [Machine.start] at ho

end Machine.Inert

namespace Run.Ends

variable {α β : Type}
variable {m m' : Machine}
variable {r : Run α}
variable {post : α → Prop}

theorem of_ok
    {a : α}
    (h : r m = (.ok a, m'))
    (hm' : m'.Inert)
    (ha : post a) :
    r.Ends post m := by
  refine ⟨?_, ?_, ?_⟩
  · simp [h]
  · rw [h]
    exact hm'
  · intro b hb
    rw [h] at hb
    cases hb
    exact ha

theorem of_fault
    {error : RuntimeError}
    (h : r m = (.error (.fault error), m'))
    (hm' : m'.Inert) :
    r.Ends post m := by
  refine ⟨?_, ?_, ?_⟩
  · simp [h]
  · rw [h]
    exact hm'
  · intro b hb
    rw [h] at hb
    cases hb

theorem bind
    {f : α → Run β}
    {post' : β → Prop}
    (hr : r.Ends post m)
    (hf : ∀ {a m'}, r m = (.ok a, m') → m'.Inert → post a → (f a).Ends post' m') :
    (r >>= f).Ends post' m := by
  obtain ⟨hends, hinert, hok⟩ := hr
  rcases hrun : r m with ⟨result, m'⟩
  rw [hrun] at hends hinert hok
  cases result with
  | ok a =>
      have hnext := hf hrun hinert (hok a rfl)
      have heq := bind_of_ok hrun f
      exact ⟨by rw [heq]; exact hnext.ends, by rw [heq]; exact hnext.inert,
        by rw [heq]; exact hnext.ok⟩
  | error stop =>
      cases stop with
      | fault error =>
          exact of_fault (bind_of_error hrun f) hinert
      | outOfFuel =>
          exact absurd rfl hends

theorem within
    {frame : Nat}
    (hr : r.Ends post { m with current := frame }) :
    (Run.within frame r).Ends post m :=
  ⟨hr.ends, hr.inert.of_same rfl rfl, hr.ok⟩

end Run.Ends

section Steps

variable {α : Type}
variable {m : Machine}
variable (hm : m.Inert)

include hm

theorem ends_pure
    {post : α → Prop}
    {a : α}
    (ha : post a) :
    (pure a : Run α).Ends post m :=
  .of_ok rfl hm ha

theorem ends_read
    (f : Machine → α) :
    (read f).Ends (fun a => a = f m) m :=
  .of_ok rfl hm rfl

theorem ends_fail
    {post : α → Prop}
    (found : Token)
    (fault : RuntimeFault) :
    (fail found fault : Run α).Ends post m :=
  .of_fault rfl hm

theorem ends_check
    {found : Token}
    {outcome : Except RuntimeFault Value}
    (h : ∀ value, outcome = .ok value → value.Inert) :
    (check found outcome).Ends Value.Inert m := by
  cases outcome with
  | ok value =>
      exact ends_pure hm (h value rfl)
  | error fault =>
      exact ends_fail hm found fault

theorem ends_defineIn
    {value : Value}
    (hvalue : value.Inert)
    (frame : Nat)
    (name : String) :
    (defineIn frame name value).Ends (fun _ => True) m :=
  .of_ok rfl (hm.define hvalue frame name) trivial

theorem ends_define
    {value : Value}
    (hvalue : value.Inert)
    (name : String) :
    (define name value).Ends (fun _ => True) m :=
  .of_ok rfl (hm.define hvalue m.current name) trivial

theorem ends_pushFrame
    (outer : Nat) :
    (pushFrame outer).Ends (fun _ => True) m :=
  .of_ok rfl (hm.push outer) trivial

theorem ends_readVariable
    (σ : Setting)
    (id : Nat)
    (name : Token) :
    (readVariable σ id name).Ends Value.Inert m := by
  rcases readVariable_cases σ id name m with ⟨value, target, hrun, hlookup⟩ | hrun
  · exact .of_ok hrun hm (hm.bound hlookup)
  · exact .of_fault hrun hm

theorem ends_writeIn
    {value : Value}
    (hvalue : value.Inert)
    (target : Option Nat)
    (name : Token) :
    (writeIn target name value).Ends (fun _ => True) m := by
  cases target with
  | none =>
      exact .of_fault rfl hm
  | some frame =>
      exact ends_defineIn hm hvalue frame name.lexeme

theorem ends_writeVariable
    {value : Value}
    (hvalue : value.Inert)
    (σ : Setting)
    (id : Nat)
    (name : Token) :
    (writeVariable σ id name value).Ends (fun _ => True) m :=
  (ends_read hm _).bind fun _ hm₁ _ => ends_writeIn hm₁ hvalue _ name

theorem ends_overwrite
    {value : Value}
    (hvalue : value.Inert)
    (name : Token) :
    (overwrite name value).Ends (fun _ => True) m :=
  (ends_read hm _).bind fun _ hm₁ _ => ends_writeIn hm₁ hvalue _ name

/-- A call of a value without a body. -/
theorem ends_call
    {callee : Value}
    (hcallee : callee.Inert)
    (σ : Setting)
    (exec : List Stmt → Run Flow)
    (paren : Token)
    (arguments : List Value) :
    (callee.call σ exec paren arguments).Ends Value.Inert m := by
  unfold Value.call
  cases harity : callee.arity? with
  | none =>
      exact ends_fail hm paren .notCallable
  | some arity =>
      dsimp only
      split
      · cases callee with
        | native f =>
            exact .of_ok rfl (hm.of_same rfl rfl) trivial
        | function identity closure =>
            exact hcallee.elim
        | cls c =>
            have hinitializer : c.findMethod? initializerName = none := hcallee initializerName
            have hmake : c.instantiate exec arguments m = (.ok (.object m.objects.size),
                { m with objects := m.objects.push ⟨c, []⟩ }) := by
              unfold Class.instantiate
              rw [hinitializer]
              rfl
            exact .of_ok hmake (hm.newObject hcallee) trivial
        | _ =>
            cases harity
      · exact ends_fail hm paren _

/-- A property is a field: there are no methods. -/
theorem ends_property
    (object : Value)
    (name : Token) :
    (object.property name).Ends Value.Inert m := by
  cases object with
  | object place =>
      refine (ends_read hm _).bind fun _ hm₁ hfound => ?_
      subst hfound
      cases ho : m.objects[place]? with
      | none =>
          exact ends_fail hm₁ name _
      | some o =>
          obtain ⟨hcls, hfields⟩ := hm.objects ho
          dsimp only
          cases hfield : o.fields.lookup name.lexeme with
          | some value =>
              exact ends_pure hm₁ (hfields _ value hfield)
          | none =>
              rw [hcls name.lexeme]
              exact ends_fail hm₁ name _
  | _ =>
      exact ends_fail hm name _

theorem ends_superMethod
    (σ : Setting)
    (id : Nat)
    (keyword method : Token) :
    (superMethod σ id keyword method).Ends Value.Inert m := by
  unfold superMethod
  cases σ.locals.get? id with
  | none =>
      exact .of_fault rfl hm
  | some distance =>
      refine (ends_read hm _).bind fun _ hm₁ hfound => ?_
      subst hfound
      split
      · rename_i parent hparent
        obtain ⟨target, -, hlookup⟩ := Frames.exists_of_getAt? hparent
        have hinert : parent.Inert := hm.bound hlookup
        refine (ends_read hm₁ _).bind fun _ hm₂ _ => ?_
        rw [hinert method.lexeme]
        split
        · exact ends_fail hm₂ method _
        · exact ends_fail hm₂ keyword _
      · exact .of_fault rfl hm₁

/-- A class without methods is inert if the superclass is. -/
theorem ends_declareClass
    {superclass : Option Class}
    (hsuperclass : ∀ parent, superclass = some parent → parent.Inert)
    (name : Token) :
    (declareClass name superclass []).Ends (fun _ => True) m := by
  have hmake : ∀ (frame : Nat) {m : Machine}, m.Inert → Run.Ends (do
      let c ← newClass name.lexeme superclass (methodTable frame [])
      overwrite name c) (fun _ => True) m := by
    intro frame m hm
    have hclass : (Class.mk m.classCount name.lexeme superclass (methodTable frame [])).Inert := by
      intro method
      cases superclass with
      | none =>
          rfl
      | some parent =>
          exact hsuperclass parent rfl method
    have hnew : (newClass name.lexeme superclass (methodTable frame [])).Ends Value.Inert m :=
      .of_ok rfl (hm.of_same rfl rfl) hclass
    exact hnew.bind fun _ hm₁ hvalue => ends_overwrite hm₁ hvalue name
  have hnil : Value.nil.Inert := trivial
  refine (ends_define hm hnil name.lexeme).bind fun _ hm₁ _ => ?_
  refine (ends_read hm₁ _).bind fun {outer _} _ hm₂ _ => ?_
  cases superclass with
  | none =>
      have houter : (pure outer : Run Nat).Ends (fun _ => True) _ := ends_pure hm₂ trivial
      exact houter.bind fun {frame _} _ hm₃ _ => hmake frame hm₃
  | some parent =>
      refine (ends_pushFrame hm₂ outer).bind fun {frame _} _ hm₃ _ => ?_
      have hparent : (Value.cls parent).Inert := hsuperclass parent rfl
      refine (ends_defineIn hm₃ hparent frame "super").bind fun _ hm₄ _ => ?_
      exact hmake frame hm₄

end Steps

section Evaluation

variable {m : Machine}

/-- The expressions of a list end if each that nests no deeper than the deepest one does. -/
theorem ends_evalAll
    {eval : Expr → Run Value}
    {es : List Expr}
    (heval : ∀ e, e.nesting ≤ Expr.nestingAll es → ∀ {m : Machine}, m.Inert →
      (eval e).Ends Value.Inert m)
    (hm : m.Inert) :
    (evalAll eval es).Ends (fun _ => True) m := by
  induction es generalizing m with
  | nil =>
      exact ends_pure hm trivial
  | cons e rest ih =>
      simp only [Expr.nestingAll] at heval
      refine (heval e (by omega) hm).bind fun _ hm₁ _ => ?_
      refine (ih (fun e' he' => heval e' (by omega)) hm₁).bind fun _ hm₂ _ => ?_
      exact ends_pure hm₂ trivial

/-- An evaluation ends if it ends for all expressions that nest less deep, whatever the bodies of
functions would do. -/
theorem ends_evalStep
    {eval : Expr → Run Value}
    {e : Expr}
    (heval : ∀ e', e'.nesting < e.nesting → ∀ {m : Machine}, m.Inert →
      (eval e').Ends Value.Inert m)
    (σ : Setting)
    (exec : List Stmt → Run Flow)
    (hm : m.Inert) :
    (evalStep σ eval exec e).Ends Value.Inert m := by
  cases e with
  | literal value =>
      refine ends_pure hm ?_
      cases value <;> trivial
  | var id name =>
      exact ends_readVariable hm σ id name
  | this id keyword =>
      exact ends_readVariable hm σ id keyword
  | super id keyword method =>
      exact ends_superMethod hm σ id keyword method
  | grouping inner =>
      exact heval inner (by simp [Expr.nesting]) hm
  | unary operator right =>
      refine (heval right (by simp [Expr.nesting]) hm).bind fun _ hm₁ _ => ?_
      exact ends_check hm₁ fun _ hresult => (Operator.unary_plain hresult).inert
  | binary left operator right =>
      simp only [Expr.nesting] at heval
      refine (heval left (by omega) hm).bind fun _ hm₁ _ => ?_
      refine (heval right (by omega) hm₁).bind fun _ hm₂ _ => ?_
      refine (ends_read hm₂ _).bind fun _ hm₃ _ => ?_
      exact ends_check hm₃ fun _ hresult => (Operator.binary_plain hresult).inert
  | logical left operator right =>
      simp only [Expr.nesting] at heval
      refine (heval left (by omega) hm).bind fun _ hm₁ ha => ?_
      split
      · exact ends_pure hm₁ ha
      · exact heval right (by omega) hm₁
  | assign id name value =>
      refine (heval value (by simp [Expr.nesting]) hm).bind fun _ hm₁ hv => ?_
      refine (ends_writeVariable hm₁ hv σ id name).bind fun _ hm₂ _ => ?_
      exact ends_pure hm₂ hv
  | call callee paren arguments =>
      simp only [Expr.nesting] at heval
      refine (heval callee (by omega) hm).bind fun _ hm₁ hf => ?_
      refine (ends_evalAll (fun e he => heval e (by omega)) hm₁).bind fun _ hm₂ _ => ?_
      exact ends_call hm₂ hf σ exec paren _
  | get object name =>
      refine (heval object (by simp [Expr.nesting]) hm).bind fun _ hm₁ _ => ?_
      exact ends_property hm₁ _ name
  | set object name value =>
      simp only [Expr.nesting] at heval
      refine (heval object (by omega) hm).bind fun {o _} _ hm₁ _ => ?_
      cases o with
      | object place =>
          refine (heval value (by omega) hm₁).bind fun {v m₂} _ hm₂ hv => ?_
          have hset : (setField place name.lexeme v).Ends (fun _ => True) m₂ :=
            .of_ok rfl (hm₂.setField hv place name.lexeme) trivial
          exact hset.bind fun _ hm₃ _ => ends_pure hm₃ hv
      | _ =>
          exact ends_fail hm₁ name _

/-- The statements of a list end if each does that is straight and nests no deeper than the deepest
one. -/
theorem ends_execAll
    {exec : Stmt → Run Flow}
    {statements : List Stmt}
    (hexec : ∀ s : Stmt, s.straight = true → s.nesting ≤ Stmt.nestingAll statements →
      ∀ {m : Machine}, m.Inert → (exec s).Ends (fun _ => True) m)
    (hstraight : Stmt.straightAll statements = true)
    (hm : m.Inert) :
    (execAll exec statements).Ends (fun _ => True) m := by
  induction statements generalizing m with
  | nil =>
      exact ends_pure hm trivial
  | cons s rest ih =>
      simp only [Stmt.nestingAll] at hexec
      simp only [Stmt.straightAll, Bool.and_eq_true] at hstraight
      refine (hexec s hstraight.1 (by omega) hm).bind fun {flow _} _ hm₁ _ => ?_
      cases flow with
      | normal =>
          exact ih (fun t ht hle => hexec t ht (by omega)) hstraight.2 hm₁
      | returned value =>
          exact ends_pure hm₁ trivial

/-- An execution ends if all evaluations and executions end that nest less deep. -/
theorem ends_execStep
    {eval : Expr → Run Value}
    {exec : Stmt → Run Flow}
    {s : Stmt}
    (heval : ∀ e, e.nesting < s.nesting → ∀ {m : Machine}, m.Inert → (eval e).Ends Value.Inert m)
    (hexec : ∀ t : Stmt, t.straight = true → t.nesting < s.nesting →
      ∀ {m : Machine}, m.Inert → (exec t).Ends (fun _ => True) m)
    (hstraight : s.straight = true)
    (rounds : Nat)
    (hm : m.Inert) :
    (execStep eval exec rounds s).Ends (fun _ => True) m := by
  cases s with
  | expression e =>
      refine (heval e (by simp [Stmt.nesting]) hm).bind fun _ hm₁ _ => ?_
      exact ends_pure hm₁ trivial
  | print e =>
      refine (heval e (by simp [Stmt.nesting]) hm).bind fun _ hm₁ _ => ?_
      refine (ends_read hm₁ _).bind fun {_ m₂} _ hm₂ _ => ?_
      have hprint : ∀ line, (print line).Ends (fun _ => True) m₂ :=
        fun _ => .of_ok rfl (hm₂.of_same rfl rfl) trivial
      exact (hprint _).bind fun _ hm₃ _ => ends_pure hm₃ trivial
  | var name initializer =>
      cases initializer with
      | none =>
          have hnil : Value.nil.Inert := trivial
          exact (ends_define hm hnil name.lexeme).bind fun _ hm₁ _ => ends_pure hm₁ trivial
      | some e =>
          refine (heval e (by simp [Stmt.nesting, Expr.nestingOption]) hm).bind fun _ hm₁ hv => ?_
          exact (ends_define hm₁ hv name.lexeme).bind fun _ hm₂ _ => ends_pure hm₂ trivial
  | block body =>
      simp only [Stmt.nesting] at hexec
      refine (ends_read hm _).bind fun {outer _} _ hm₁ _ => ?_
      refine (ends_pushFrame hm₁ outer).bind fun {frame m₂} _ hm₂ _ => ?_
      have hinside : Machine.Inert { m₂ with current := frame } := hm₂.of_same rfl rfl
      exact (ends_execAll (fun t ht hle => hexec t ht (by omega)) hstraight hinside).within
  | ifThen condition thenBranch =>
      simp only [Stmt.nesting] at heval hexec
      refine (heval condition (by omega) hm).bind fun _ hm₁ _ => ?_
      split
      · exact hexec thenBranch hstraight (by omega) hm₁
      · exact ends_pure hm₁ trivial
  | ifElse condition thenBranch elseBranch =>
      simp only [Stmt.nesting] at heval hexec
      simp only [Stmt.straight, Bool.and_eq_true] at hstraight
      refine (heval condition (by omega) hm).bind fun _ hm₁ _ => ?_
      split
      · exact hexec thenBranch hstraight.1 (by omega) hm₁
      · exact hexec elseBranch hstraight.2 (by omega) hm₁
  | loop condition body =>
      cases hstraight
  | function decl =>
      cases hstraight
  | ret keyword value =>
      cases value with
      | none =>
          exact ends_pure hm trivial
      | some e =>
          refine (heval e (by simp [Stmt.nesting, Expr.nestingOption]) hm).bind fun _ hm₁ _ => ?_
          exact ends_pure hm₁ trivial
  | classDecl name superclass methods =>
      obtain rfl : methods = [] := List.isEmpty_iff.mp hstraight
      cases superclass with
      | none =>
          exact (ends_declareClass hm (by simp) name).bind fun _ hm₁ _ => ends_pure hm₁ trivial
      | some superclass =>
          refine (heval superclass (by simp [Stmt.nesting, Expr.nestingOption]) hm).bind
            fun {value _} _ hm₁ hvalue => ?_
          cases value with
          | cls parent =>
              have hparent : ∀ other, some parent = some other → other.Inert := by
                intro other hother
                cases hother
                exact hvalue
              exact (ends_declareClass hm₁ hparent name).bind fun _ hm₂ _ => ends_pure hm₂ trivial
          | _ =>
              exact ends_fail hm₁ _ .notAClass

end Evaluation

/-- With as much fuel as they nest, expressions and straight statements come to an end. -/
theorem eval_exec_ends
    (σ : Setting)
    (fuel : Nat) :
    (∀ e : Expr, e.nesting ≤ fuel → ∀ {m : Machine}, m.Inert → (eval σ fuel e).Ends Value.Inert m) ∧
      ∀ s : Stmt, s.straight = true → s.nesting ≤ fuel → ∀ {m : Machine}, m.Inert →
        (exec σ fuel s).Ends (fun _ => True) m := by
  induction fuel with
  | zero =>
      constructor
      · intro e he
        cases e <;> simp [Expr.nesting] at he
      · intro s _ hs
        cases s <;> simp [Stmt.nesting] at hs
  | succ fuel ih =>
      constructor
      · intro e he m hm
        exact ends_evalStep (fun e' hlt => ih.1 e' (by omega)) σ (execAll (exec σ fuel)) hm
      · intro s hstraight hs m hm
        exact ends_execStep (fun e hlt => ih.1 e (by omega))
          (fun t ht hlt => ih.2 t ht (by omega)) hstraight fuel hm

/-- Straight programs end. -/
theorem Machine.interpret_ends
    (σ : Setting)
    {statements : List Stmt}
    {fuel : Nat}
    (hstraight : Stmt.straightAll statements = true)
    (hfuel : Stmt.nestingAll statements ≤ fuel) :
    (Machine.interpret σ fuel statements .start).1 ≠ .error .outOfFuel := by
  have hbody := ends_execAll (fun s hs hle => (eval_exec_ends σ fuel).2 s hs (by omega)) hstraight
    Machine.Inert.start
  have hall : (Machine.interpret σ fuel statements).Ends (fun _ => True) .start :=
    hbody.bind fun _ hm _ => ends_pure hm trivial
  exact hall.ends

end Lox
