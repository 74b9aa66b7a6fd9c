import Lox.Proofs.Machine.KeepsCalls
import Lox.Proofs.Machine.Safety
import Lox.Proofs.Store.Trace

/-!
# Programs build stores in order

Evaluating expressions and executing statements, watched or not, keeps the store in order: whatever
they bind, store or return exists.  Nothing is asked of the program, nor of the table of its local
references.
-/

namespace Lox

open Run

/-- What the value of a return refers to exists. -/
def Flow.Exists (R : Registry) (m : Machine) : Flow → Prop
  | .normal => True
  | .returned value => value.Exists R m

/-- Evaluation keeps stores in order, and gives values that exist. -/
def EvalBuilds (eval : Watcher → Expr → Run Value) : Prop :=
  ∀ {R : Registry} {m : Machine} (e : Expr), m.Stored R →
    Builds R (fun w => eval w e) m fun R' m' value => value.Exists R' m'

/-- Execution keeps stores in order, and returns values that exist. -/
def ExecBuilds {β : Type} (exec : Watcher → β → Run Flow) : Prop :=
  ∀ {R : Registry} {m : Machine} (s : β), m.Stored R →
    Builds R (fun w => exec w s) m fun R' m' flow => flow.Exists R' m'

theorem Flow.Exists.mono
    {R R' : Registry}
    {m m' : Machine}
    (hR : R.Grows R')
    (hm : m.Precedes m')
    {flow : Flow}
    (h : flow.Exists R m) :
    flow.Exists R' m' := by
  cases flow with
  | normal =>
      trivial
  | returned value =>
      exact Value.Exists.mono hR hm h

theorem Value.Plain.exists_
    {R : Registry}
    {m : Machine}
    {value : Value}
    (h : value.Plain) :
    value.Exists R m := by
  cases value with
  | function | cls | object =>
      exact h.elim
  | _ =>
      trivial

/-- A machine that stands in another frame. -/
theorem Machine.Stored.enter
    {R : Registry}
    {m : Machine}
    (h : m.Stored R)
    {frame : Nat}
    (hframe : frame < m.frames.size) :
    Machine.Stored R { m with current := frame } :=
  ⟨h.wellFormed.of_same rfl rfl hframe (.of_same rfl rfl (Nat.le_refl _) (Nat.le_refl _)),
    h.classes, h.functions⟩

section Values

variable {R : Registry}
variable {m : Machine}
variable (hm : m.Stored R)

include hm

theorem builds_check
    {outcome : Except RuntimeFault Value}
    (hplain : ∀ value, outcome = .ok value → value.Plain)
    (found : Token) :
    Builds R (fun _ => check found outcome) m fun R' m' value => value.Exists R' m' := by
  cases outcome with
  | error fault =>
      exact .of_error hm rfl
  | ok value =>
      exact builds_pure hm (hplain value rfl).exists_

theorem builds_readVariable
    (σ : Setting)
    (id : Nat)
    (name : Token) :
    Builds R (fun _ => readVariable σ id name) m fun R' m' value => value.Exists R' m' := by
  rcases readVariable_cases σ id name m with ⟨value, target, hrun, hlookup⟩ | hrun
  · exact .of_ok hrun (.refl R) (.refl m) rfl hm (hm.wellFormed.bound hlookup)
  · exact .of_error hm hrun

theorem builds_writeVariable
    {value : Value}
    (hvalue : value.Exists R m)
    (σ : Setting)
    (id : Nat)
    (name : Token) :
    Builds R (fun _ => writeVariable σ id name value) m fun _ _ _ => True := by
  refine (builds_read hm (variableFrame? σ id name)).bind ?_
  rintro R₁ m₁ target - - - hm₁ ⟨rfl, rfl, -⟩
  exact builds_writeIn hm₁ hvalue target name

theorem builds_overwrite
    {value : Value}
    (hvalue : value.Exists R m)
    (name : Token) :
    Builds R (fun _ => overwrite name value) m fun _ _ _ => True := by
  refine (builds_read hm fun m => m.frames.holder? m.current name.lexeme).bind ?_
  rintro R₁ m₁ target - - - hm₁ ⟨rfl, rfl, -⟩
  exact builds_writeIn hm₁ hvalue target name

end Values

section Calls

theorem builds_bindParams
    (frame : Nat)
    {R : Registry}
    {m : Machine}
    (hm : m.Stored R)
    (params : List Token)
    {arguments : List Value}
    (harguments : ∀ value ∈ arguments, value.Exists R m) :
    Builds R (fun _ => bindParams frame params arguments) m fun _ _ _ => True := by
  induction params generalizing R m arguments with
  | nil =>
      exact builds_pure hm trivial
  | cons p params ih =>
      cases arguments with
      | nil =>
          exact builds_pure hm trivial
      | cons value arguments =>
          refine (builds_defineIn hm (harguments value List.mem_cons_self) frame p.lexeme).bind ?_
          intro R₁ m₁ _ hR₁ hm₁ _ hstored₁ _
          refine ih hstored₁ ?_
          intro other hother
          exact (harguments other (List.mem_cons_of_mem _ hother)).mono hR₁ hm₁

variable {R : Registry}
variable {m : Machine}
variable (hm : m.Stored R)

include hm

/-- A method made for an object that exists. -/
theorem builds_closureBind
    {closure : Closure}
    (hframe : closure.frame < m.frames.size)
    {place : Nat}
    (hplace : place < m.objects.size) :
    Builds R (fun _ => closure.bind place) m fun _ m' method => method.frame < m'.frames.size := by
  refine (builds_pushFrame hm hframe).bind ?_
  intro R₁ m₁ frame _ hm₁ _ hstored₁ hlt
  have hobject : (Value.object place).Exists R₁ m₁ := Nat.lt_of_lt_of_le hplace hm₁.objects_size
  refine (builds_defineIn hstored₁ hobject frame "this").bind ?_
  intro R₂ m₂ _ _ hm₂ _ hstored₂ _
  exact builds_pure hstored₂ (Nat.lt_of_lt_of_le hlt hm₂.frames)

/-- A bound method as a value of its own. -/
theorem builds_boundMethod
    {closure : Closure}
    (hframe : closure.frame < m.frames.size)
    {place : Nat}
    (hplace : place < m.objects.size) :
    Builds R (fun _ => closure.bind place >>= newFunction) m fun R' m' value =>
      value.Exists R' m' := by
  refine (builds_closureBind hm hframe hplace).bind ?_
  intro R₁ m₁ method _ _ _ hstored₁ hlt
  exact builds_newFunction hstored₁ hlt

section Bodies

variable {exec : Watcher → List Stmt → Run Flow}
variable (hexec : ExecBuilds exec)

include hexec

/-- A body is run in a frame that exists. -/
theorem builds_inside
    {frame : Nat}
    (hframe : frame < m.frames.size)
    (body : List Stmt) :
    Builds R (fun w => within frame (exec w body)) m fun R' m' flow => flow.Exists R' m' := by
  refine .within hm.wellFormed (hexec body (hm.enter hframe)) ?_
  intro R₁ m₁ flow hflow
  have hback : m₁.Precedes { m₁ with current := m.current } :=
    .of_same rfl rfl (Nat.le_refl _) (Nat.le_refl _)
  exact hflow.mono (.refl R₁) hback

theorem builds_invoke
    {closure : Closure}
    (hframe : closure.frame < m.frames.size)
    {arguments : List Value}
    (harguments : ∀ value ∈ arguments, value.Exists R m) :
    Builds R (fun w => closure.invoke (exec w) arguments) m fun R' m' value =>
      value.Exists R' m' := by
  refine (builds_pushFrame hm hframe).bind ?_
  intro R₁ m₁ frame hR₁ hm₁ _ hstored₁ hlt
  refine (builds_bindParams frame hstored₁ closure.decl.params
    fun value hvalue => (harguments value hvalue).mono hR₁ hm₁).bind ?_
  intro R₂ m₂ _ _ hm₂ _ hstored₂ _
  have hlt₂ := Nat.lt_of_lt_of_le hlt hm₂.frames
  refine (builds_inside hstored₂ hexec hlt₂ closure.decl.body).bind ?_
  intro R₃ m₃ flow _ _ _ hstored₃ hflow
  split
  · refine (builds_read hstored₃ fun m => m.frames.getAt? closure.frame 0 "this").bind ?_
    rintro R₄ m₄ this - - - hstored₄ ⟨rfl, rfl, rfl⟩
    refine builds_pure hstored₄ ?_
    cases hthis : m₄.frames.getAt? closure.frame 0 "this" with
    | none =>
        trivial
    | some value =>
        obtain ⟨target, -, hlookup⟩ := Frames.exists_of_getAt? hthis
        exact hstored₄.wellFormed.bound hlookup
  · cases flow with
    | normal =>
        exact builds_pure hstored₃ trivial
    | returned value =>
        exact builds_pure hstored₃ hflow

theorem builds_instantiate
    {c : Class}
    (hc : c.Exists R m)
    {arguments : List Value}
    (harguments : ∀ value ∈ arguments, value.Exists R m) :
    Builds R (fun w => c.instantiate (exec w) arguments) m fun R' m' value =>
      value.Exists R' m' := by
  refine (builds_newObject hm hc).bind ?_
  intro R₁ m₁ place hR₁ hm₁ _ hstored₁ hplace
  cases hfound : c.findMethod? initializerName with
  | none =>
      exact builds_pure hstored₁ hplace
  | some initializer =>
      have hframe := (hc.mono hR₁ hm₁).findMethod? hfound
      refine (builds_closureBind hstored₁ hframe hplace).bind ?_
      intro R₂ m₂ method hR₂ hm₂ _ hstored₂ hlt
      refine (builds_invoke hstored₂ hexec hlt fun value hvalue =>
        (harguments value hvalue).mono (hR₁.trans hR₂) (hm₁.trans hm₂)).bind ?_
      intro R₃ m₃ _ _ hm₃ _ hstored₃ _
      exact builds_pure hstored₃
        (Nat.lt_of_lt_of_le hplace (Nat.le_trans hm₂.objects_size hm₃.objects_size))

theorem builds_call
    (σ : Setting)
    {callee : Value}
    (hcallee : callee.Exists R m)
    (paren : Token)
    {arguments : List Value}
    (harguments : ∀ value ∈ arguments, value.Exists R m) :
    Builds R (fun w => callee.call σ (exec w) paren arguments) m fun R' m' value =>
      value.Exists R' m' := by
  unfold Value.call
  cases callee.arity? with
  | none =>
      exact .of_error hm rfl
  | some arity =>
      by_cases hlength : arguments.length = arity
      · simp only [hlength, if_true]
        cases callee with
        | native function =>
            exact builds_readClock hm σ
        | function identity closure =>
            exact builds_invoke hm hexec hcallee.2.2 harguments
        | cls c =>
            exact builds_instantiate hm hexec hcallee harguments
        | _ =>
            exact .of_error hm rfl
      · simp only [hlength, if_false]
        exact .of_error hm rfl

end Bodies

theorem builds_property
    {object : Value}
    (hobject : object.Exists R m)
    (name : Token) :
    Builds R (fun _ => object.property name) m fun R' m' value => value.Exists R' m' := by
  cases object with
  | object place =>
      refine (builds_read hm fun m => m.objects[place]?).bind ?_
      rintro R₁ m₁ found - - - hm₁ ⟨rfl, rfl, rfl⟩
      cases ho : m₁.objects[place]? with
      | none =>
          exact .of_error hm₁ rfl
      | some o =>
          have hexists := hm₁.wellFormed.objects ho
          dsimp only
          cases hfield : o.fields.lookup name.lexeme with
          | some value =>
              exact builds_pure hm₁ (hexists.fields hfield)
          | none =>
              cases hfound : o.cls.findMethod? name.lexeme with
              | some method =>
                  exact builds_boundMethod hm₁ (hexists.cls.findMethod? hfound) hobject
              | none =>
                  exact .of_error hm₁ rfl
  | _ =>
      exact .of_error hm rfl

theorem builds_superMethod
    (σ : Setting)
    (id : Nat)
    (keyword method : Token) :
    Builds R (fun _ => superMethod σ id keyword method) m fun R' m' value =>
      value.Exists R' m' := by
  have hread : ∀ {distance name value}, m.frames.getAt? m.current distance name = some value →
      value.Exists R m := by
    intro distance name value hvalue
    obtain ⟨target, -, hlookup⟩ := Frames.exists_of_getAt? hvalue
    exact hm.wellFormed.bound hlookup
  unfold superMethod
  cases σ.locals.get? id with
  | none =>
      exact .of_error hm rfl
  | some distance =>
      refine (builds_read hm fun m => m.frames.getAt? m.current distance "super").bind ?_
      rintro R₁ m₁ found - - - hm₁ ⟨rfl, rfl, rfl⟩
      cases hsuper : m₁.frames.getAt? m₁.current distance "super" with
      | none =>
          exact .of_error hm₁ rfl
      | some value =>
          cases value with
          | cls parent =>
              refine (builds_read hm₁ fun m =>
                m.frames.getAt? m.current (distance - 1) "this").bind ?_
              rintro R₂ m₂ this - - - hm₂ ⟨rfl, rfl, rfl⟩
              cases hthis : m₂.frames.getAt? m₂.current (distance - 1) "this" with
              | none =>
                  exact .of_error hm₂ rfl
              | some object =>
                  cases object with
                  | object place =>
                      dsimp only
                      cases hfound : parent.findMethod? method.lexeme with
                      | some found =>
                          have hparent : parent.Exists R₂ m₂ := hread hsuper
                          exact builds_boundMethod hm₂ (hparent.findMethod? hfound) (hread hthis)
                      | none =>
                          exact .of_error hm₂ rfl
                  | _ =>
                      exact .of_error hm₂ rfl
          | _ =>
              exact .of_error hm₁ rfl

theorem builds_frame
    {frame : Nat}
    (hframe : frame < m.frames.size) :
    Builds R (fun _ => pure frame) m fun _ m' frame => frame < m'.frames.size :=
  builds_pure hm hframe

theorem builds_declareClass
    (name : Token)
    {superclass : Option Class}
    (hsuperclass : ∀ parent, superclass = some parent → parent.Exists R m)
    (methods : List FunctionDecl) :
    Builds R (fun _ => declareClass name superclass methods) m fun _ _ _ => True := by
  -- Whatever frame the methods stand in, the class is made and bound.
  have hfinish : ∀ {R₁ m₁ frame}, R.Grows R₁ → m.Precedes m₁ → m₁.Stored R₁ →
      frame < m₁.frames.size →
      Builds R₁ (fun _ => newClass name.lexeme superclass (methodTable frame methods) >>=
        overwrite name) m₁ fun _ _ _ => True := by
    intro R₁ m₁ frame hR₁ hm₁ hstored₁ hframe
    refine (builds_newClass hstored₁
      (fun parent hparent => (hsuperclass parent hparent).mono hR₁ hm₁) ?_ name.lexeme).bind ?_
    · intro other method hlookup
      obtain ⟨decl, -, -, rfl⟩ := mem_methodTable hlookup
      exact hframe
    · intro R₂ m₂ c _ _ _ hstored₂ hc
      exact builds_overwrite hstored₂ hc name
  have hnil : Value.nil.Exists R m := trivial
  refine (builds_define hm hnil name.lexeme).bind ?_
  intro R₁ m₁ _ hR₁ hm₁ _ hstored₁ _
  refine (builds_read hstored₁ Machine.current).bind ?_
  rintro R₁ m₁ outer - - - hstored₁ ⟨rfl, rfl, rfl⟩
  cases superclass with
  | none =>
      refine (builds_frame hstored₁ hstored₁.wellFormed.current).bind ?_
      intro R₂ m₂ frame hR₂ hm₂ _ hstored₂ hframe
      exact hfinish (hR₁.trans hR₂) (hm₁.trans hm₂) hstored₂ hframe
  | some parent =>
      refine (builds_pushFrame hstored₁ hstored₁.wellFormed.current).bind ?_
      intro R₂ m₂ frame hR₂ hm₂ _ hstored₂ hframe
      have hparent : (Value.cls parent).Exists R₂ m₂ :=
        (hsuperclass parent rfl).mono (hR₁.trans hR₂) (hm₁.trans hm₂)
      refine (builds_defineIn hstored₂ hparent frame "super").bind ?_
      intro R₃ m₃ _ hR₃ hm₃ _ hstored₃ _
      refine (builds_frame hstored₃ (Nat.lt_of_lt_of_le hframe hm₃.frames)).bind ?_
      intro R₄ m₄ frame hR₄ hm₄ _ hstored₄ hframe
      exact hfinish (((hR₁.trans hR₂).trans hR₃).trans hR₄) (((hm₁.trans hm₂).trans hm₃).trans hm₄)
        hstored₄ hframe

end Calls

end Lox
