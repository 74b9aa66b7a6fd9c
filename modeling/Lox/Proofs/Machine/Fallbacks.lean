import Lox.Proofs.Grammar.Provenance
import Lox.Proofs.Machine.Returns

/-!
# Fallbacks that are never needed

Evaluation is defined on all trees, also on those that no token list stands for, and has fallbacks
for them: an operator that is none, a superclass that is no variable.  Trees that are read are shaped,
and what a program runs are parts of the tree it was read as, also where they were carried around in
functions and classes.  So every sight of a run is regular, and at regular sights no fallback is
needed; the names that a program binds are its own, and only the machine binds `this` and `super`.
-/

namespace Lox

open Run

/-- The second frames came out of the first ones as they do in a run.  A program binds names of its
own; `this` and `super` are bound only in a frame that is made with them, to an object and to a
class. -/
inductive Frames.Written (origin : Frames) : Frames → Prop where
  | refl : Written origin origin
  | push {fs : Frames} (h : Written origin fs) (outer : Nat) : Written origin (fs.push outer)
  | named {fs : Frames} {name : String} (h : Written origin fs) (hname : Ordinary name)
      (frame : Nat) (value : Value) : Written origin (fs.define frame name value)
  | this {fs : Frames} (h : Written origin fs) (outer place : Nat) :
      Written origin (fs.pushWith outer "this" (.object place))
  | super {fs : Frames} (h : Written origin fs) (outer : Nat) (parent : Class) :
      Written origin (fs.pushWith outer "super" (.cls parent))

/-- An error that does not come from a fallback: no operator between values is unknown, and the only
sign that asks for a number is the minus. -/
def RuntimeError.Regular (error : RuntimeError) : Prop :=
  (∀ operator, error.fault ≠ .invalidOperator operator) ∧
    ∀ operator, error.fault = .operandNotNumber operator → error.found.kind = .punct .minus

/-- The parameters of a function are names of its own. -/
def Closure.Regular (closure : Closure) : Prop :=
  ∀ p ∈ closure.decl.params, Ordinary p.lexeme

def Value.Regular : Value → Prop
  | .function _ closure => closure.Regular
  | .cls c => ∀ name method, c.findMethod? name = some method → method.Regular
  | _ => True

/-- A part of a shaped program that writes only names of its own. -/
def Part.Regular (part : Part) : Prop :=
  part.Shaped ∧ ∀ name, part.written? = some name → Ordinary name.lexeme

def Sight.Regular : Sight → Prop
  | .evaluates e => (Part.expr e).Regular
  | .evaluated _ value => value.Regular
  | .executes s => (Part.stmt s).Regular
  | .executed _ _ => True

section Regularity

variable {k : Course}
variable (hshaped : k.program.Shaped)
variable (hnamed : k.program.Named)

include hnamed

theorem Closure.regular_of_at?
    {closure : Closure}
    {a : Address}
    {sort : FunctionSort}
    (h : k.program.at? a = some (.function sort closure.decl)) :
    closure.Regular := by
  intro p hp
  obtain ⟨i, hparam, -⟩ := Part.exists_child h (List.mem_append_left _ (List.mem_map_of_mem hp))
  exact hnamed hparam rfl

theorem Value.Proper.regular
    {m : Machine}
    {value : Value}
    (h : value.Proper k m) :
    value.Regular := by
  cases value with
  | function identity closure =>
      obtain ⟨⟨a, sort, hdecl, -⟩, -⟩ := h
      exact Closure.regular_of_at? hnamed hdecl
  | cls c =>
      intro name method hmethod
      obtain ⟨owner, howner, hlookup⟩ := Class.exists_of_findMethod? hmethod
      obtain ⟨a, hdecl, -⟩ := Class.Proper.exists_method h howner hlookup
      exact Closure.regular_of_at? hnamed hdecl
  | _ =>
      trivial

include hshaped

/-- What is as it should be is regular. -/
theorem Course.Fine.regular
    {x : Sight}
    {m : Machine}
    (h : k.Fine x m) :
    x.Regular := by
  have hsight := h.sight
  cases x with
  | evaluates e =>
      obtain ⟨a, hat, -⟩ := hsight
      exact ⟨hshaped.at? hat, fun _ hwritten => hnamed hat hwritten⟩
  | evaluated e value =>
      exact Value.Proper.regular hnamed hsight
  | executes s =>
      obtain ⟨a, hat, -⟩ := hsight
      exact ⟨hshaped.at? hat, fun _ hwritten => hnamed hat hwritten⟩
  | executed s flow =>
      trivial

end Regularity

namespace Operator

/-- A sign that stands in front of an operand asks for a number only if it is a minus. -/
theorem unary_regular
    {operator : Token}
    {right : Value}
    {fault : RuntimeFault}
    (hsign : operator.kind ∈ Grammar.signKinds)
    (h : unary operator right = .error fault) :
    RuntimeError.Regular ⟨operator, fault⟩ := by
  simp only [Grammar.signKinds, List.mem_cons, List.not_mem_nil, or_false] at hsign
  rcases hsign with hbang | hminus
  · simp [unary, hbang] at h
  · unfold unary at h
    split at h
    · cases h
    · cases h
    · cases h
      exact ⟨fun _ => by simp, fun _ _ => hminus⟩

theorem exists_arithmetic?
    {kind : Token.Kind}
    (hkind : kind ∈ binaryKinds)
    (hplus : kind ≠ .punct .plus)
    (hequal : kind ≠ .punct .equalEqual)
    (hunequal : kind ≠ .punct .bangEqual)
    (a b : Float) :
    ∃ value, arithmetic? kind a b = some value := by
  simp only [binaryKinds, List.mem_cons, List.not_mem_nil, or_false] at hkind
  rcases hkind with rfl | rfl | rfl | rfl | rfl | rfl | rfl | rfl | rfl | rfl
  · exact absurd rfl hunequal
  · exact absurd rfl hequal
  · exact ⟨_, rfl⟩
  · exact ⟨_, rfl⟩
  · exact ⟨_, rfl⟩
  · exact ⟨_, rfl⟩
  · exact ⟨_, rfl⟩
  · exact absurd rfl hplus
  · exact ⟨_, rfl⟩
  · exact ⟨_, rfl⟩

/-- Every operator that stands between operands is known. -/
theorem binary_regular
    {objects : Array Instance}
    {operator : Token}
    {left right : Value}
    {fault : RuntimeFault}
    (hkind : operator.kind ∈ binaryKinds)
    (h : binary objects operator left right = .error fault) :
    RuntimeError.Regular ⟨operator, fault⟩ := by
  unfold binary at h
  split at h
  · unfold add at h
    split at h <;> cases h
    exact ⟨fun _ => by simp, fun _ => by simp⟩
  · cases h
  · cases h
  · rename_i kind hplus hequal hunequal
    split at h
    · rename_i a b
      obtain ⟨value, hvalue⟩ := exists_arithmetic? hkind hplus hequal hunequal a b
      rw [hvalue] at h
      cases h
    · cases h
      exact ⟨fun _ => by simp, fun _ => by simp⟩

end Operator

/-- Demands that all sights are part of the course. -/
noncomputable def Watcher.lax (seen : Sight → Machine → Prop) (outside : RuntimeError) : Watcher :=
  .demanding seen outside

/-- Demands, too, that the frames came out of the first ones as they should. -/
noncomputable def Watcher.strict (seen : Sight → Machine → Prop) (outside : RuntimeError)
    (origin : Frames) (error : RuntimeError) : Watcher :=
  (Watcher.lax seen outside).orElse (.demanding (fun _ m => origin.Written m.frames) error)

/-- How a run goes that needs no fallback: the frames are as they should be afterwards and, for who
looks at them, at every sight; it gives only what is wanted, and all its errors are regular. -/
structure Run.Minds (seen : Sight → Machine → Prop) (outside : RuntimeError) (origin : Frames)
    {α : Type} (r : Watcher → Run α) (m : Machine) (post : α → Prop) : Prop where
  written : origin.Written (r (.lax seen outside) m).2.frames
  ok : ∀ {a}, (r (.lax seen outside) m).1 = .ok a → post a
  fault : ∀ {e}, (r (.lax seen outside) m).1 = .error (.fault e) → e.Regular
  same : ∀ error, r (.strict seen outside origin error) m = r (.lax seen outside) m

namespace Run

variable {seen : Sight → Machine → Prop}
variable {outside : RuntimeError}
variable {origin : Frames}
variable {α β : Type}
variable {m : Machine}

namespace Minds

theorem of_ok
    {r : Run α}
    {post : α → Prop}
    {a : α}
    {m' : Machine}
    (h : r m = (.ok a, m'))
    (hwritten : origin.Written m'.frames)
    (hpost : post a) :
    Minds seen outside origin (fun _ => r) m post where
  written := by
    rw [h]
    exact hwritten
  ok := by
    intro b hb
    rw [h] at hb
    cases hb
    exact hpost
  fault := by
    intro e he
    rw [h] at he
    cases he
  same := fun _ => rfl

theorem of_error
    {r : Run α}
    {post : α → Prop}
    {stop : Stop}
    (h : r m = (.error stop, m))
    (hm : origin.Written m.frames)
    (hregular : ∀ e, stop = .fault e → e.Regular) :
    Minds seen outside origin (fun _ => r) m post where
  written := by
    rw [h]
    exact hm
  ok := by
    intro b hb
    rw [h] at hb
    cases hb
  fault := by
    intro e he
    rw [h] at he
    cases he
    exact hregular e rfl
  same := fun _ => rfl

theorem bind
    {r : Watcher → Run α}
    {f : Watcher → α → Run β}
    {post : α → Prop}
    {post' : β → Prop}
    (hr : Minds seen outside origin r m post)
    (hf : ∀ {m' a}, origin.Written m'.frames → post a →
      Minds seen outside origin (fun w => f w a) m' post') :
    Minds seen outside origin (fun w => r w >>= f w) m post' := by
  have hwritten := hr.written
  have hsame := hr.same
  rcases hrun : r (.lax seen outside) m with ⟨result, m'⟩
  rw [hrun] at hwritten hsame
  cases result with
  | error stop =>
      have heq := bind_of_error hrun (f (.lax seen outside))
      constructor
      · rw [heq]
        exact hwritten
      · intro b hb
        rw [heq] at hb
        cases hb
      · intro e he
        rw [heq] at he
        cases he
        exact hr.fault (congrArg Prod.fst hrun)
      · intro error
        rw [heq, bind_apply, hsame error]
  | ok a =>
      have hnext := hf hwritten (hr.ok (congrArg Prod.fst hrun))
      have heq := bind_of_ok hrun (f (.lax seen outside))
      constructor
      · rw [heq]
        exact hnext.written
      · intro b hb
        rw [heq] at hb
        exact hnext.ok hb
      · intro e he
        rw [heq] at he
        exact hnext.fault he
      · intro error
        rw [heq, bind_apply, hsame error]
        exact hnext.same error

theorem weaken
    {r : Watcher → Run α}
    {post : α → Prop}
    (hr : Minds seen outside origin r m post) :
    Minds seen outside origin r m fun _ => True :=
  ⟨hr.written, fun _ => trivial, hr.fault, hr.same⟩

theorem within
    {r : Watcher → Run α}
    {post : α → Prop}
    (frame : Nat)
    (hr : Minds seen outside origin r { m with current := frame } post) :
    Minds seen outside origin (fun w => within frame (r w)) m post where
  written := hr.written
  ok := hr.ok
  fault := hr.fault
  same := by
    intro error
    simp only [Run.within, hr.same error]

/-- Whoever lets a sight pass knows that it is part of the course, and so regular. -/
theorem pass
    (x : Sight)
    (hm : origin.Written m.frames)
    (hseen : ∀ x m, seen x m → x.Regular)
    (houtside : outside.Regular) :
    Minds seen outside origin (fun w => w.pass x) m fun _ => x.Regular := by
  by_cases hx : seen x m
  · have hlax : Watcher.lax seen outside x m = none := if_pos hx
    have hpass : (Watcher.lax seen outside).pass x m = (.ok (), m) :=
      Watcher.pass_of_eq_none hlax
    constructor
    · rw [hpass]
      exact hm
    · intro a _
      exact hseen x m hx
    · intro e he
      rw [hpass] at he
      cases he
    · intro error
      have hstrict : Watcher.strict seen outside origin error x m = none := by
        simp only [Watcher.strict, Watcher.orElse, hlax, Watcher.demanding, if_pos hm,
          Option.or_none]
      rw [hpass]
      exact Watcher.pass_of_eq_none hstrict
  · have hlax : Watcher.lax seen outside x m = some outside := if_neg hx
    have hpass : (Watcher.lax seen outside).pass x m = (.error (.fault outside), m) :=
      Watcher.pass_of_eq_some hlax
    constructor
    · rw [hpass]
      exact hm
    · intro a ha
      rw [hpass] at ha
      cases ha
    · intro e he
      rw [hpass] at he
      cases he
      exact houtside
    · intro error
      rw [hpass]
      simp only [Watcher.pass, Watcher.strict, Watcher.orElse, hlax, Option.some_or]

end Minds

section Primitives

variable (hm : origin.Written m.frames)
variable {post : α → Prop}

include hm

theorem minds_pure
    {a : α}
    (hpost : post a) :
    Minds seen outside origin (fun _ => pure a) m post :=
  .of_ok rfl hm hpost

theorem minds_read
    (f : Machine → α) :
    Minds seen outside origin (fun _ => read f) m fun _ => True :=
  .of_ok rfl hm trivial

theorem minds_stop
    {e : RuntimeError}
    (he : e.Regular) :
    Minds seen outside origin (fun _ => (stop e : Run α)) m post := by
  refine .of_error rfl hm ?_
  rintro _ ⟨⟩
  exact he

/-- Only operators have to do with fallbacks. -/
theorem minds_fail
    {found : Token}
    {fault : RuntimeFault}
    (hunknown : ∀ operator, fault ≠ .invalidOperator operator)
    (hsign : ∀ operator, fault ≠ .operandNotNumber operator) :
    Minds seen outside origin (fun _ => (fail found fault : Run α)) m post :=
  minds_stop hm ⟨hunknown, fun operator h => absurd h (hsign operator)⟩

theorem minds_undefined
    (name : Token) :
    Minds seen outside origin (fun _ => (stop (.undefined name) : Run α)) m post :=
  minds_fail hm (by simp) (by simp)

theorem minds_outOfFuel : Minds seen outside origin (fun _ => (outOfFuel : Run α)) m post := by
  refine .of_error rfl hm ?_
  rintro _ ⟨⟩

theorem minds_check
    {found : Token}
    {outcome : Except RuntimeFault Value}
    (h : ∀ fault, outcome = .error fault → RuntimeError.Regular ⟨found, fault⟩) :
    Minds seen outside origin (fun _ => check found outcome) m fun _ => True := by
  cases outcome with
  | ok value =>
      exact minds_pure hm trivial
  | error fault =>
      exact minds_stop hm (h fault rfl)

theorem minds_readVariable
    (σ : Setting)
    (id : Nat)
    (name : Token) :
    Minds seen outside origin (fun _ => readVariable σ id name) m fun _ => True := by
  rcases readVariable_cases σ id name m with ⟨value, target, hread, -⟩ | hundefined
  · exact .of_ok hread hm trivial
  · refine .of_error hundefined hm ?_
    rintro _ ⟨⟩
    exact ⟨by simp [RuntimeError.undefined], by simp [RuntimeError.undefined]⟩

theorem minds_defineIn
    {name : String}
    (hname : Ordinary name)
    (frame : Nat)
    (value : Value) :
    Minds seen outside origin (fun _ => defineIn frame name value) m fun _ => True :=
  .of_ok rfl (hm.named hname frame value) trivial

theorem minds_define
    {name : String}
    (hname : Ordinary name)
    (value : Value) :
    Minds seen outside origin (fun _ => define name value) m fun _ => True :=
  .of_ok rfl (hm.named hname m.current value) trivial

theorem minds_writeIn
    {name : Token}
    (hname : Ordinary name.lexeme)
    (target : Option Nat)
    (value : Value) :
    Minds seen outside origin (fun _ => writeIn target name value) m fun _ => True := by
  cases target with
  | none =>
      exact minds_undefined hm name
  | some frame =>
      exact minds_defineIn hm hname frame value

theorem minds_pushFrame
    (outer : Nat) :
    Minds seen outside origin (fun _ => pushFrame outer) m fun _ => True :=
  .of_ok rfl (hm.push outer) trivial

theorem minds_print
    (line : String) :
    Minds seen outside origin (fun _ => print line) m fun _ => True :=
  .of_ok rfl hm trivial

theorem minds_readClock
    (σ : Setting) :
    Minds seen outside origin (fun _ => readClock σ) m fun _ => True :=
  .of_ok rfl hm trivial

theorem minds_newFunction
    (closure : Closure) :
    Minds seen outside origin (fun _ => newFunction closure) m fun _ => True :=
  .of_ok rfl hm trivial

theorem minds_newClass
    (name : String)
    (superclass : Option Class)
    (methods : List (String × Closure)) :
    Minds seen outside origin (fun _ => newClass name superclass methods) m fun _ => True :=
  .of_ok rfl hm trivial

theorem minds_newObject
    (c : Class) :
    Minds seen outside origin (fun _ => newObject c) m fun _ => True :=
  .of_ok rfl hm trivial

theorem minds_setField
    (place : Nat)
    (name : String)
    (value : Value) :
    Minds seen outside origin (fun _ => setField place name value) m fun _ => True :=
  .of_ok rfl hm trivial

end Primitives

end Run

section Calls

variable {seen : Sight → Machine → Prop}
variable {outside : RuntimeError}
variable {origin : Frames}
variable {m : Machine}
variable (hm : origin.Written m.frames)

include hm

theorem minds_bindParams
    (frame : Nat)
    {params : List Token}
    (hparams : ∀ p ∈ params, Ordinary p.lexeme)
    (values : List Value) :
    Minds seen outside origin (fun _ => bindParams frame params values) m fun _ => True := by
  induction params generalizing values m with
  | nil =>
      exact minds_pure hm trivial
  | cons p params ih =>
      rw [List.forall_mem_cons] at hparams
      cases values with
      | nil =>
          exact minds_pure hm trivial
      | cons value values =>
          exact (minds_defineIn hm hparams.1 frame value).bind fun hm₁ _ =>
            ih hm₁ hparams.2 values

/-- A frame is made with `this` in it. -/
theorem minds_bind
    (closure : Closure)
    (place : Nat) :
    Minds seen outside origin (fun _ => closure.bind place) m fun method =>
      method.decl = closure.decl :=
  .of_ok rfl (hm.this closure.frame place) rfl

theorem minds_property
    (object : Value)
    (name : Token) :
    Minds seen outside origin (fun _ => object.property name) m fun _ => True := by
  cases object with
  | object place =>
      refine (minds_read hm _).bind fun {m₁ found} hm₁ _ => ?_
      cases found with
      | none =>
          exact minds_fail hm₁ (by simp) (by simp)
      | some o =>
          simp only
          cases o.fields.lookup name.lexeme with
          | some value =>
              exact minds_pure hm₁ trivial
          | none =>
              simp only
              cases o.cls.findMethod? name.lexeme with
              | none =>
                  exact minds_fail hm₁ (by simp) (by simp)
              | some method =>
                  exact (minds_bind hm₁ method place).bind fun hm₂ _ =>
                    minds_newFunction hm₂ _
  | nil | bool | number | string | native | function | cls =>
      exact minds_fail hm (by simp) (by simp)

theorem minds_superMethod
    (σ : Setting)
    (id : Nat)
    (keyword method : Token) :
    Minds seen outside origin (fun _ => superMethod σ id keyword method) m fun _ => True := by
  unfold superMethod
  cases σ.locals.get? id with
  | none =>
      exact minds_undefined hm keyword
  | some distance =>
      refine (minds_read hm _).bind fun {m₁ parent} hm₁ _ => ?_
      split
      · refine (minds_read hm₁ _).bind fun {m₂ object} hm₂ _ => ?_
        split
        · split
          · exact (minds_bind hm₂ _ _).bind fun hm₃ _ => minds_newFunction hm₃ _
          · exact minds_fail hm₂ (by simp) (by simp)
        · exact minds_fail hm₂ (by simp) (by simp)
      · exact minds_undefined hm₁ keyword

/-- A frame is made with `super` in it, if the class is derived. -/
theorem minds_declareClass
    {name : Token}
    (hname : Ordinary name.lexeme)
    (superclass : Option Class)
    (methods : List FunctionDecl) :
    Minds seen outside origin (fun _ => declareClass name superclass methods) m fun _ => True := by
  refine (minds_define hm hname .nil).bind fun {m₁ _} hm₁ _ => ?_
  refine (minds_read hm₁ Machine.current).bind fun {m₂ outer} hm₂ _ => ?_
  have hmake : ∀ {m₃ : Machine} (frame : Nat), origin.Written m₃.frames →
      Minds seen outside origin (fun _ => do
        let c ← newClass name.lexeme superclass (methodTable frame methods)
        overwrite name c) m₃ fun _ => True := fun frame hm₃ =>
    (minds_newClass hm₃ _ _ _).bind fun hm₄ _ =>
      (minds_read hm₄ _).bind fun hm₅ _ => minds_writeIn hm₅ hname _ _
  cases superclass with
  | none =>
      exact hmake outer hm₂
  | some parent =>
      have hframe : Minds seen outside origin (fun _ => do
          let frame ← pushFrame outer
          defineIn frame "super" (.cls parent)
          pure frame) m₂ fun _ => True :=
        .of_ok rfl (hm₂.super outer parent) trivial
      have hwhole := hframe.bind fun {_ frame} hm₃ _ => hmake frame hm₃
      exact hwhole

variable {body : Watcher → List Stmt → Run Flow}
variable (hbody : ∀ {m : Machine} statements, origin.Written m.frames →
  Minds seen outside origin (fun w => body w statements) m fun _ => True)

include hbody

theorem minds_invoke
    {closure : Closure}
    (hclosure : closure.Regular)
    (arguments : List Value) :
    Minds seen outside origin (fun w => closure.invoke (body w) arguments) m fun _ => True := by
  refine (minds_pushFrame hm closure.frame).bind fun {m₁ frame} hm₁ _ => ?_
  refine (minds_bindParams hm₁ frame hclosure arguments).bind fun {m₂ _} hm₂ _ => ?_
  refine (Minds.within frame (hbody closure.decl.body hm₂)).bind fun {m₃ flow} hm₃ _ => ?_
  cases closure.isInitializer with
  | true =>
      exact (minds_read hm₃ _).bind fun hm₄ _ => minds_pure hm₄ trivial
  | false =>
      cases flow with
      | normal | returned value =>
          exact minds_pure hm₃ trivial

theorem minds_call
    (σ : Setting)
    {callee : Value}
    (hcallee : callee.Regular)
    (paren : Token)
    (arguments : List Value) :
    Minds seen outside origin (fun w => callee.call σ (body w) paren arguments) m
      fun _ => True := by
  unfold Value.call
  cases callee.arity? with
  | none =>
      exact minds_fail hm (by simp) (by simp)
  | some arity =>
      by_cases hlength : arguments.length = arity
      · simp only [hlength, if_true]
        cases callee with
        | native n =>
            exact minds_readClock hm σ
        | function identity closure =>
            exact minds_invoke hm hbody hcallee arguments
        | cls c =>
            refine (minds_newObject hm c).bind fun {m₁ place} hm₁ _ => ?_
            cases hfind : c.findMethod? initializerName with
            | none =>
                exact minds_pure hm₁ trivial
            | some initializer =>
                refine (minds_bind hm₁ initializer place).bind fun {m₂ method} hm₂ hdecl => ?_
                have hmethod : method.Regular := by
                  intro p hp
                  rw [hdecl] at hp
                  exact hcallee _ _ hfind p hp
                exact (minds_invoke hm₂ hbody hmethod arguments).bind fun hm₃ _ =>
                  minds_pure hm₃ trivial
        | nil | bool | number | string | object =>
            exact minds_fail hm (by simp) (by simp)
      · simp only [hlength, if_false]
        exact minds_fail hm (by simp) (by simp)

end Calls

section Sequences

variable {seen : Sight → Machine → Prop}
variable {outside : RuntimeError}
variable {origin : Frames}
variable {m : Machine}
variable {eval : Watcher → Expr → Run Value}
variable {exec : Watcher → Stmt → Run Flow}

theorem minds_evalAll
    (heval : ∀ {m : Machine} e, origin.Written m.frames →
      Minds seen outside origin (fun w => eval w e) m Value.Regular)
    (es : List Expr)
    (hm : origin.Written m.frames) :
    Minds seen outside origin (fun w => evalAll (eval w) es) m fun _ => True := by
  induction es generalizing m with
  | nil =>
      exact minds_pure hm trivial
  | cons e rest ih =>
      exact (heval e hm).bind fun hm₁ _ => (ih hm₁).bind fun hm₂ _ => minds_pure hm₂ trivial

theorem minds_execAll
    (hexec : ∀ {m : Machine} s, origin.Written m.frames →
      Minds seen outside origin (fun w => exec w s) m fun _ => True)
    (statements : List Stmt)
    (hm : origin.Written m.frames) :
    Minds seen outside origin (fun w => execAll (exec w) statements) m fun _ => True := by
  induction statements generalizing m with
  | nil =>
      exact minds_pure hm trivial
  | cons s rest ih =>
      refine (hexec s hm).bind fun {m₁ flow} hm₁ _ => ?_
      cases flow with
      | normal =>
          exact ih hm₁
      | returned value =>
          exact minds_pure hm₁ trivial

theorem minds_repeatWhile
    {condition : Watcher → Run Value}
    {round : Watcher → Run Flow}
    (hcondition : ∀ {m : Machine}, origin.Written m.frames →
      Minds seen outside origin condition m Value.Regular)
    (hround : ∀ {m : Machine}, origin.Written m.frames →
      Minds seen outside origin round m fun _ => True)
    (count : Nat)
    (hm : origin.Written m.frames) :
    Minds seen outside origin (fun w => repeatWhile (condition w) (round w) count) m
      fun _ => True := by
  induction count generalizing m with
  | zero =>
      exact minds_outOfFuel hm
  | succ count ih =>
      refine (hcondition hm).bind fun {m₁ value} hm₁ _ => ?_
      cases value.isTruthy with
      | true =>
          refine (hround hm₁).bind fun {m₂ flow} hm₂ _ => ?_
          cases flow with
          | normal =>
              exact ih hm₂
          | returned value =>
              exact minds_pure hm₂ trivial
      | false =>
          exact minds_pure hm₁ trivial

end Sequences

section Steps

variable {seen : Sight → Machine → Prop}
variable {outside : RuntimeError}
variable {origin : Frames}
variable {m : Machine}
variable {eval : Watcher → Expr → Run Value}
variable (heval : ∀ {m : Machine} e, origin.Written m.frames →
  Minds seen outside origin (fun w => eval w e) m Value.Regular)

include heval

theorem minds_evalStep
    {body : Watcher → List Stmt → Run Flow}
    (hbody : ∀ {m : Machine} statements, origin.Written m.frames →
      Minds seen outside origin (fun w => body w statements) m fun _ => True)
    (σ : Setting)
    {e : Expr}
    (he : (Part.expr e).Regular)
    (hm : origin.Written m.frames) :
    Minds seen outside origin (fun w => evalStep σ (eval w) (body w) e) m fun _ => True := by
  obtain ⟨hshaped, hwritten⟩ := he
  cases e with
  | literal value =>
      exact minds_pure hm trivial
  | grouping inner =>
      exact (heval inner hm).weaken
  | unary operator right =>
      exact (heval right hm).bind fun hm₁ _ =>
        minds_check hm₁ fun _ h => Operator.unary_regular hshaped.1 h
  | binary left operator right =>
      exact (heval left hm).bind fun hm₁ _ => (heval right hm₁).bind fun hm₂ _ =>
        (minds_read hm₂ _).bind fun hm₃ _ =>
          minds_check hm₃ fun _ h => Operator.binary_regular hshaped.2.1 h
  | logical left operator right =>
      refine (heval left hm).bind fun {m₁ a} hm₁ _ => ?_
      by_cases hdecides : Operator.decides operator a
      · simp only [hdecides, if_true]
        exact minds_pure hm₁ trivial
      · simp only [hdecides]
        exact (heval right hm₁).weaken
  | var id name | this id name =>
      exact minds_readVariable hm σ id name
  | assign id name value =>
      refine (heval value hm).bind fun {m₁ v} hm₁ _ => ?_
      refine ((minds_read hm₁ _).bind fun hm₂ _ =>
        minds_writeIn hm₂ (hwritten name rfl) _ v).bind fun hm₃ _ => minds_pure hm₃ trivial
  | call callee paren arguments =>
      exact (heval callee hm).bind fun hm₁ hf => (minds_evalAll heval arguments hm₁).bind
        fun hm₂ _ => minds_call hm₂ hbody σ hf paren _
  | get object name =>
      exact (heval object hm).bind fun hm₁ _ => minds_property hm₁ _ name
  | set object name value =>
      refine (heval object hm).bind fun {m₁ o} hm₁ _ => ?_
      cases o with
      | object place =>
          exact (heval value hm₁).bind fun hm₂ _ =>
            (minds_setField hm₂ place name.lexeme _).bind fun hm₃ _ => minds_pure hm₃ trivial
      | nil | bool | number | string | native | function | cls =>
          exact minds_fail hm₁ (by simp) (by simp)
  | super id keyword method =>
      exact minds_superMethod hm σ id keyword method

theorem minds_execStep
    {exec : Watcher → Stmt → Run Flow}
    (hexec : ∀ {m : Machine} s, origin.Written m.frames →
      Minds seen outside origin (fun w => exec w s) m fun _ => True)
    (rounds : Nat)
    {s : Stmt}
    (hs : (Part.stmt s).Regular)
    (hm : origin.Written m.frames) :
    Minds seen outside origin (fun w => execStep (eval w) (exec w) rounds s) m
      fun _ => True := by
  obtain ⟨-, hwritten⟩ := hs
  cases s with
  | expression e =>
      exact (heval e hm).bind fun hm₁ _ => minds_pure hm₁ trivial
  | print e =>
      exact (heval e hm).bind fun hm₁ _ => (minds_read hm₁ _).bind fun hm₂ _ =>
        (minds_print hm₂ _).bind fun hm₃ _ => minds_pure hm₃ trivial
  | var name initializer =>
      cases initializer with
      | none =>
          exact (minds_define hm (hwritten name rfl) .nil).bind fun hm₁ _ =>
            minds_pure hm₁ trivial
      | some e =>
          exact (heval e hm).bind fun hm₁ _ =>
            (minds_define hm₁ (hwritten name rfl) _).bind fun hm₂ _ => minds_pure hm₂ trivial
  | block body =>
      exact (minds_read hm _).bind fun hm₁ _ => (minds_pushFrame hm₁ _).bind fun {_ frame} hm₂ _ =>
        Minds.within frame (minds_execAll hexec body hm₂)
  | ifThen condition thenBranch =>
      refine (heval condition hm).bind fun {m₁ value} hm₁ _ => ?_
      cases value.isTruthy with
      | true =>
          exact hexec thenBranch hm₁
      | false =>
          exact minds_pure hm₁ trivial
  | ifElse condition thenBranch elseBranch =>
      refine (heval condition hm).bind fun {m₁ value} hm₁ _ => ?_
      cases value.isTruthy with
      | true =>
          exact hexec thenBranch hm₁
      | false =>
          exact hexec elseBranch hm₁
  | loop condition body =>
      exact minds_repeatWhile (heval condition) (hexec body) rounds hm
  | function decl =>
      exact (minds_read hm _).bind fun hm₁ _ =>
        (minds_newFunction hm₁ _).bind fun hm₂ _ =>
          (minds_define hm₂ (hwritten decl.name rfl) _).bind fun hm₃ _ => minds_pure hm₃ trivial
  | ret keyword value =>
      cases value with
      | none =>
          exact minds_pure hm trivial
      | some e =>
          exact (heval e hm).bind fun hm₁ _ => minds_pure hm₁ trivial
  | classDecl name superclass methods =>
      have hname : Ordinary name.lexeme := hwritten name rfl
      cases superclass with
      | none =>
          exact (minds_declareClass hm hname none methods).bind fun hm₁ _ =>
            minds_pure hm₁ trivial
      | some superclass =>
          refine (heval superclass hm).bind fun {m₁ value} hm₁ _ => ?_
          cases value with
          | cls parent =>
              exact (minds_declareClass hm₁ hname _ methods).bind fun hm₂ _ =>
                minds_pure hm₂ trivial
          | nil | bool | number | string | native | function | object =>
              exact minds_fail hm₁ (by simp) (by simp)

end Steps

/-- Watched evaluation and execution need no fallback if all sights are regular. -/
theorem minds_watched
    {seen : Sight → Machine → Prop}
    {outside : RuntimeError}
    {origin : Frames}
    (hseen : ∀ x m, seen x m → x.Regular)
    (houtside : outside.Regular)
    (σ : Setting)
    (fuel : Nat) :
    (∀ {m : Machine} e, origin.Written m.frames →
        Minds seen outside origin (fun w => evalWatched σ w fuel e) m Value.Regular) ∧
      ∀ {m : Machine} s, origin.Written m.frames →
        Minds seen outside origin (fun w => execWatched σ w fuel s) m fun _ => True := by
  induction fuel with
  | zero =>
      constructor
      · intro m e hm
        exact (Minds.pass (.evaluates e) hm hseen houtside).bind fun hm₁ _ => minds_outOfFuel hm₁
      · intro m s hm
        exact (Minds.pass (.executes s) hm hseen houtside).bind fun hm₁ _ => minds_outOfFuel hm₁
  | succ fuel ih =>
      obtain ⟨heval, hexec⟩ := ih
      constructor
      · intro m e hm
        refine (Minds.pass (.evaluates e) hm hseen houtside).bind fun {m₁ _} hm₁ he => ?_
        refine (minds_evalStep heval (minds_execAll hexec) σ he hm₁).bind
          fun {m₂ value} hm₂ _ => ?_
        exact (Minds.pass (.evaluated e value) hm₂ hseen houtside).bind fun hm₃ hvalue =>
          minds_pure hm₃ hvalue
      · intro m s hm
        refine (Minds.pass (.executes s) hm hseen houtside).bind fun {m₁ _} hm₁ hs => ?_
        refine (minds_execStep heval hexec fuel hs hm₁).bind fun {m₂ flow} hm₂ _ => ?_
        exact (Minds.pass (.executed s flow) hm₂ hseen houtside).bind fun hm₃ _ =>
          minds_pure hm₃ trivial

section Statements

variable {statements : List Stmt}
variable (hshaped : Stmt.ShapedAll statements)
variable (hnamed : (Part.program statements).Named)
variable (σ : Setting)
variable (fuel : Nat)

include hshaped hnamed

/-- In a run of shaped statements all sights are regular, frames come out of the first ones as they
should, up to each sight and up to the end, and errors are regular. -/
theorem Machine.regular_of_shaped :
    (∀ x m, Machine.Meets σ fuel statements x m →
        x.Regular ∧ Machine.start.frames.Written m.frames) ∧
      Machine.start.frames.Written (execAll (exec σ fuel) statements .start).2.frames ∧
      ∀ e, (execAll (exec σ fuel) statements .start).1 = .error (.fault e) → e.Regular := by
  let outside : RuntimeError := ⟨⟨.identifier, "", 0⟩, .notCallable⟩
  have houtside : outside.Regular := ⟨fun _ => by simp [outside], fun _ => by simp [outside]⟩
  have hprogram : (Course.ofRun σ fuel statements).program.Shaped := hshaped
  have hregular : ∀ x m, Machine.Meets σ fuel statements x m → x.Regular :=
    fun x m hmeets => (hmeets.fine hnamed).regular hprogram hnamed
  have hminds := minds_execAll (minds_watched hregular houtside σ fuel).2 statements
    (m := .start) .refl
  have hsame : execAll (execWatched σ (.lax (Machine.Meets σ fuel statements) outside) fuel)
      statements .start = execAll (exec σ fuel) statements .start :=
    Machine.demanding_meets outside
  rw [← hsame]
  exact ⟨fun x m hmeets => ⟨hregular x m hmeets, hmeets.holds outside hminds.same⟩,
    hminds.written, fun _ => hminds.fault⟩

/-- So they are for who asks only how the run ends. -/
theorem Machine.interpret_regular :
    Machine.start.frames.Written (Machine.interpret σ fuel statements .start).2.frames ∧
      ∀ e, (Machine.interpret σ fuel statements .start).1 = .error (.fault e) → e.Regular := by
  obtain ⟨-, hwritten, herrors⟩ := Machine.regular_of_shaped hshaped hnamed σ fuel
  rw [Machine.interpret, bind_apply]
  rcases hrun : execAll (exec σ fuel) statements .start with ⟨stop | flow, m⟩
  · rw [hrun] at hwritten herrors
    refine ⟨hwritten, fun e he => herrors e ?_⟩
    cases he
    rfl
  · rw [hrun] at hwritten
    refine ⟨hwritten, fun e he => ?_⟩
    cases he

end Statements

/-- A superclass that is met is a variable, and the one that is blamed if it is no class. -/
theorem Sight.Regular.superclass
    {name : Token}
    {superclass : Expr}
    {methods : List FunctionDecl}
    (h : Sight.Regular (.executes (.classDecl name (some superclass) methods))) :
    ∃ id parent, superclass = .var id parent ∧ superclassToken name superclass = parent := by
  have hvariable : Expr.VariableOption (some superclass) := h.1.2.1
  cases superclass with
  | var id parent =>
      exact ⟨id, parent, rfl, rfl⟩
  | _ =>
      exact hvariable.elim

/-- An expression is evaluated as it is in a statement of its own. -/
theorem execAll_expression
    (σ : Setting)
    (fuel : Nat)
    (e : Expr)
    (m : Machine) :
    execAll (exec σ (fuel + 1)) [.expression e] m =
      ((eval σ fuel e m).1.map fun _ => .normal, (eval σ fuel e m).2) := by
  simp only [execAll, exec, execStep, bind_apply]
  rcases eval σ fuel e m with ⟨_ | value, m'⟩ <;> rfl

/-- A shaped expression that is evaluated by itself needs no fallback, either. -/
theorem eval_regular
    {lone : Expr}
    (hshaped : lone.Shaped)
    (hworded : ∀ t ∈ lone.tokens, t.Worded)
    (σ : Setting)
    (fuel : Nat) :
    Machine.start.frames.Written (eval σ fuel lone .start).2.frames ∧
      ∀ e, (eval σ fuel lone .start).1 = .error (.fault e) → e.Regular := by
  have hstatement : Stmt.ShapedAll [.expression lone] := ⟨hshaped, trivial⟩
  have hnamed : (Part.program [.expression lone]).Named := by
    refine Part.named_of_worded hstatement fun t ht => hworded t ?_
    simpa [Part.tokens] using ht
  obtain ⟨-, hwritten, herrors⟩ := Machine.regular_of_shaped hstatement hnamed σ (fuel + 1)
  rw [execAll_expression] at hwritten herrors
  refine ⟨hwritten, fun e he => herrors e ?_⟩
  rw [he]
  rfl

/-- Trees that are read are shaped, also if something is wrong with them: whatever the tokens, every
node has operators and names of the right kinds, and every superclass is a variable.  So whatever
the source, the table of local references and the fuel, running what was read needs no fallback.  At
each sight that is part of a run, the node is regular and the frames were bound as they should be,
`this` and `super` by the machine alone; a superclass is a variable; and a run or an evaluation never
stops because an operator is unknown, nor for the operand of a sign that is no minus. -/
theorem trees_need_no_fallback :
    (∀ tokens endLine,
      Stmt.ShapedAll (Grammar.readProgram tokens endLine).result ∧
        ∀ e, (Grammar.readExpression tokens endLine).result = some e → e.Shaped) ∧
    (∀ source σ fuel,
      let statements := (Session.parse source .empty).1
      (∀ x m, Machine.Meets σ fuel statements x m →
          x.Regular ∧ Machine.start.frames.Written m.frames) ∧
        (∀ name superclass methods m,
          Machine.Meets σ fuel statements
              (.executes (.classDecl name (some superclass) methods)) m →
            ∃ id parent, superclass = .var id parent ∧ superclassToken name superclass = parent) ∧
        Machine.start.frames.Written (Machine.interpret σ fuel statements .start).2.frames ∧
        ∀ e, (Machine.interpret σ fuel statements .start).1 = .error (.fault e) → e.Regular) ∧
    ∀ source σ fuel lone, (Session.parseExpression source .empty).1 = some lone →
      Machine.start.frames.Written (eval σ fuel lone .start).2.frames ∧
        ∀ e, (eval σ fuel lone .start).1 = .error (.fault e) → e.Regular := by
  refine ⟨?_, ?_, ?_⟩
  · intro tokens endLine
    exact ⟨(Grammar.readProgram_fits tokens endLine).shaped,
      fun e he => (Grammar.readExpression_exprFits he).shaped⟩
  · intro source σ fuel statements
    obtain ⟨hshaped, hnamed, -⟩ :
        Stmt.ShapedAll statements ∧ (Part.program statements).Named ∧ _ :=
      Session.parse_named source .empty
    -- only what is known of the statements counts from here on, not how they were read
    clear_value statements
    have hmet := (Machine.regular_of_shaped hshaped hnamed σ fuel).1
    exact ⟨hmet, fun _ _ _ _ hmeets => (hmet _ _ hmeets).1.superclass,
      Machine.interpret_regular hshaped hnamed σ fuel⟩
  · intro source σ fuel lone hlone
    simp only [Session.parseExpression, Session.tokenize, Session.readExpression] at hlone
    have hfits := Grammar.readExpression_exprFits hlone
    have hworded : ∀ t ∈ lone.tokens, t.Worded := fun t ht =>
      Scan.tokens_worded source t (hfits.kept t ht)
    exact eval_regular hfits.shaped hworded σ fuel

end Lox
