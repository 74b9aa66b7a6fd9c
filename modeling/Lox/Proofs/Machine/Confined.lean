import Lox.Proofs.Machine.Binding
import Lox.Proofs.Machine.Safety
import Lox.Proofs.Store.FrameTree

/-!
# Nothing leaks out of blocks and calls

A write at a distance binds the name if the frame there does not have it.  In a program without faults
that happens only in the current frame: a name that is declared in a scope farther out can be read
there, and the frame of that scope has it.  A block and a call have a frame of their own, so whatever
happens in them, and however it ends, the frames from before have the names that they had.

The proof is by induction on the fuel, for all runs whose current frame is not one of the first
`count` frames; a call asks nothing of the current frame.
-/

namespace Lox

open Run

/-- The first frames have the names that they had. -/
def Frames.SameNames (count : Nat) (fs fs' : Frames) : Prop :=
  ∀ frame < count, ∀ name, fs'.Bound frame name ↔ fs.Bound frame name

/-- However the run ends, the first frames have the names that they had. -/
def Run.Confined {α : Type} (count : Nat) (r : Run α) (m : Machine) : Prop :=
  count ≤ m.frames.size →
    count ≤ (r m).2.frames.size ∧ m.frames.SameNames count (r m).2.frames

/-- A machine that runs what was visited with the given scopes, not in one of the first frames. -/
structure Machine.Inside (visits : List Visit) (count : Nat) (scopes : Scopes) (m : Machine) :
    Prop where
  sound : m.Sound visits
  covers : m.frames.Covers m.current scopes
  current : count ≤ m.current

theorem Machine.Inside.later
    {visits : List Visit}
    {count : Nat}
    {scopes scopes' : Scopes}
    {m m' : Machine}
    (h : m.Inside visits count scopes)
    (hlater : m.Later m')
    (hsound : m'.Sound visits)
    (hcovers : m'.frames.Covers m'.current scopes') :
    m'.Inside visits count scopes' :=
  ⟨hsound, hcovers, by rw [hlater.current]; exact h.current⟩

/-- An evaluation that is safe, and confined wherever it is not in one of the first frames. -/
structure EvalConfined (visits : List Visit) (locals : Locals) (eval : Expr → Run Value) : Prop where
  safe : EvalSafe visits locals eval
  confined : ∀ ⦃count ctx scopes e m⦄, (∀ v ∈ Expr.visits ctx scopes e, v ∈ visits) →
    m.Sound visits → m.Serves scopes e → count ≤ m.current → Confined count (eval e) m

/-- An execution that is confined in the same way. -/
structure ExecConfined (visits : List Visit) (locals : Locals) (exec : Stmt → Run Flow) : Prop where
  safe : ExecSafe visits locals exec
  confined : ∀ ⦃count ctx scopes s m⦄, (∀ v ∈ Stmt.visits ctx scopes s, v ∈ visits) →
    m.Inside visits count scopes → Confined count (exec s) m

/-- An execution of lists of statements that is confined in the same way. -/
structure BodyConfined (visits : List Visit) (locals : Locals) (exec : List Stmt → Run Flow) :
    Prop where
  safe : BodySafe visits locals exec
  confined : ∀ ⦃count ctx scopes body m⦄, (∀ v ∈ Stmt.visitsAll ctx scopes body, v ∈ visits) →
    m.Inside visits count scopes → Confined count (exec body) m

namespace Run

variable {α β : Type}
variable {count : Nat}
variable {m : Machine}

namespace Confined

variable {r : Run α}

/-- A run that leaves the frames alone. -/
theorem of_frames
    (h : (r m).2.frames = m.frames) :
    Confined count r m := by
  intro hcount
  rw [h]
  exact ⟨hcount, fun _ _ _ => Iff.rfl⟩

theorem pure
    (a : α) :
    Confined count (Pure.pure a) m :=
  of_frames rfl

theorem read
    (f : Machine → α) :
    Confined count (Run.read f) m :=
  of_frames rfl

theorem stop
    (error : RuntimeError) :
    Confined count (Run.stop error : Run α) m :=
  of_frames rfl

theorem bind
    {f : α → Run β}
    (hr : Confined count r m)
    (hf : ∀ {a m'}, r m = (.ok a, m') → Confined count (f a) m') :
    Confined count (r >>= f) m := by
  intro hcount
  obtain ⟨hsize, hsame⟩ := hr hcount
  rcases hrun : r m with ⟨result, m'⟩
  rw [hrun] at hsize hsame
  cases result with
  | ok a =>
      rw [bind_of_ok hrun f]
      obtain ⟨hsize', hsame'⟩ := hf hrun hsize
      exact ⟨hsize', fun frame hframe name =>
        (hsame' frame hframe name).trans (hsame frame hframe name)⟩
  | error stop =>
      rw [bind_of_error hrun f]
      exact ⟨hsize, hsame⟩

theorem within
    {frame : Nat}
    (hr : Confined count r { m with current := frame }) :
    Confined count (Run.within frame r) m :=
  hr

end Confined

section Primitives

/-- A name is bound where it was bound already, or not in one of the first frames. -/
theorem confined_defineIn
    {frame : Nat}
    {name : String}
    (h : count ≤ frame ∨ m.frames.Bound frame name)
    (value : Value) :
    Confined count (defineIn frame name value) m := by
  intro hcount
  refine ⟨by simpa [defineIn, Frames.size_define] using hcount, ?_⟩
  intro inner hinner other
  rcases h with houtside | hbound
  · unfold Frames.Bound defineIn
    rw [Frames.lookup?_define_eq, if_neg (by omega)]
  · exact Frames.bound_define_iff hbound value inner other

theorem confined_define
    (hcurrent : count ≤ m.current)
    (name : String)
    (value : Value) :
    Confined count (define name value) m :=
  confined_defineIn (.inl hcurrent) value

/-- A new frame is none of the first ones. -/
theorem confined_pushFrame_bind
    {f : Nat → Run β}
    (outer : Nat)
    (hf : count ≤ m.frames.size →
      Confined count (f m.frames.size) { m with frames := m.frames.push outer }) :
    Confined count (pushFrame outer >>= f) m := by
  intro hcount
  have hpush : Confined count (pushFrame outer) m := by
    intro _
    refine ⟨?_, fun frame _ name => by unfold Frames.Bound; rw [pushFrame, Frames.lookup?_push]⟩
    simp only [pushFrame, Frames.size_push]
    omega
  refine hpush.bind ?_ hcount
  intro frame m' hrun
  cases hrun
  exact hf hcount

theorem confined_check
    (found : Token)
    (outcome : Except RuntimeFault α) :
    Confined count (check found outcome) m := by
  cases outcome with
  | ok a =>
      exact .pure a
  | error fault =>
      exact .stop ⟨found, fault⟩

theorem confined_readVariable
    (σ : Setting)
    (id : Nat)
    (name : Token) :
    Confined count (readVariable σ id name) m := by
  apply Confined.of_frames
  unfold readVariable
  dsimp only
  split <;> rfl

theorem confined_writeIn
    {target : Option Nat}
    {name : Token}
    (h : ∀ frame, target = some frame → count ≤ frame ∨ m.frames.Bound frame name.lexeme)
    (value : Value) :
    Confined count (writeIn target name value) m := by
  cases target with
  | none =>
      exact .stop (.undefined name)
  | some frame =>
      exact confined_defineIn (h frame rfl) value

/-- A name is overwritten where it is bound. -/
theorem confined_overwrite
    (name : Token)
    (value : Value) :
    Confined count (overwrite name value) m := by
  refine (Confined.read _).bind ?_
  intro target m' hrun
  cases hrun
  exact confined_writeIn (fun _ hholder => .inr (Frames.bound_of_holder? hholder)) value

theorem confined_bindParams
    {frame : Nat}
    (hframe : count ≤ frame)
    (params : List Token)
    (values : List Value) :
    Confined count (bindParams frame params values) m := by
  induction params generalizing m values with
  | nil =>
      exact .pure ()
  | cons p params ih =>
      cases values with
      | nil =>
          exact .pure ()
      | cons value values =>
          exact (confined_defineIn (.inl hframe) value).bind fun _ => ih values

/-- A method is made for an object in a new frame. -/
theorem confined_bind
    (closure : Closure)
    (place : Nat) :
    Confined count (closure.bind place) m :=
  confined_pushFrame_bind closure.frame fun hcount =>
    (confined_defineIn (.inl hcount) (.object place)).bind fun _ => .pure _

theorem confined_property
    (object : Value)
    (name : Token) :
    Confined count (object.property name) m := by
  cases object with
  | object place =>
      refine (Confined.read _).bind fun {found _} _ => ?_
      cases found with
      | none =>
          exact .stop ⟨name, .undefinedProperty name.lexeme⟩
      | some o =>
          simp only
          cases o.fields.lookup name.lexeme with
          | some value =>
              exact .pure value
          | none =>
              simp only
              cases o.cls.findMethod? name.lexeme with
              | none =>
                  exact .stop ⟨name, .undefinedProperty name.lexeme⟩
              | some method =>
                  exact (confined_bind method place).bind fun _ => .of_frames rfl
  | nil | bool | number | string | native | function | cls =>
      exact .stop ⟨name, .noProperties⟩

theorem confined_superMethod
    (σ : Setting)
    (id : Nat)
    (keyword method : Token) :
    Confined count (superMethod σ id keyword method) m := by
  unfold superMethod
  cases σ.locals.get? id with
  | none =>
      exact .stop (.undefined keyword)
  | some distance =>
      refine (Confined.read _).bind fun {_ _} _ => ?_
      split
      · refine (Confined.read _).bind fun {_ _} _ => ?_
        split
        · split
          · exact (confined_bind _ _).bind fun _ => .of_frames rfl
          · exact .stop _
        · exact .stop _
      · exact .stop _

/-- A class is bound in the current frame; its methods are made there, or in a new frame. -/
theorem confined_declareClass
    (hcurrent : count ≤ m.current)
    (name : Token)
    (superclass : Option Class)
    (methods : List FunctionDecl) :
    Confined count (declareClass name superclass methods) m := by
  have hmake : ∀ (frame : Nat) {m : Machine}, Confined count (do
      let c ← newClass name.lexeme superclass (methodTable frame methods)
      overwrite name c) m := fun frame _ =>
    (Confined.of_frames rfl).bind fun _ => confined_overwrite name _
  refine (confined_define hcurrent name.lexeme .nil).bind fun _ => ?_
  refine (Confined.read _).bind fun {outer _} _ => ?_
  cases superclass with
  | none =>
      exact (Confined.pure outer).bind fun {frame _} _ => hmake frame
  | some parent =>
      refine confined_pushFrame_bind outer fun hcount => ?_
      exact (confined_defineIn (.inl hcount) (.cls parent)).bind fun _ =>
        (Confined.pure _).bind fun {frame _} _ => hmake frame

end Primitives

end Run

section Variables

variable {visits : List Visit}
variable {σ : Setting}
variable {count : Nat}
variable {m : Machine}
variable {ctx : Context}
variable {scopes : Scopes}
variable {id : Nat}
variable {name : Token}

/-- The frame that an assignment writes has the name, or is the current one: only what is being
declared cannot be read, and that is declared in the innermost scope. -/
theorem Visit.Good.assign_bound
    {value : Expr}
    (hgood : Visit.Good σ.locals ⟨ctx, scopes, .expr (.assign id name value)⟩)
    (hm : m.Inside visits count scopes)
    {frame : Nat}
    (hframe : variableFrame? σ id name m = some frame) :
    count ≤ frame ∨ m.frames.Bound frame name.lexeme := by
  unfold variableFrame? at hframe
  split at hframe
  · rename_i d hget
    rw [hgood.assign.2] at hget
    obtain ⟨scope, hscope, hdeclared⟩ := Scopes.distance?_spec hget
    cases hlookup : scope.lookup name.lexeme with
    | none =>
        rw [hlookup] at hdeclared
        cases hdeclared
    | some readable =>
        cases readable with
        | true =>
            obtain ⟨old, target, htarget, hold, -⟩ := hm.covers.getAt? ⟨scope, hscope, hlookup⟩
            rw [htarget] at hframe
            cases hframe
            exact .inr ⟨old, hold⟩
        | false =>
            obtain ⟨rfl, -⟩ := hgood.tidy d scope name.lexeme hscope hlookup
            cases hframe
            exact .inl hm.current
  · exact .inr (Frames.bound_of_holder? hframe)

theorem confined_writeVariable
    {value : Expr}
    (hgood : Visit.Good σ.locals ⟨ctx, scopes, .expr (.assign id name value)⟩)
    (hm : m.Inside visits count scopes)
    (v : Value) :
    Confined count (writeVariable σ id name v) m := by
  refine (Confined.read _).bind ?_
  intro target m' hrun
  cases hrun
  exact confined_writeIn (fun _ => hgood.assign_bound hm) v

end Variables

section Functions

variable {visits : List Visit}
variable {locals : Locals}
variable {count : Nat}
variable {m : Machine}
variable {exec : List Stmt → Run Flow}
variable {arguments : List Value}
variable (hgood : ∀ v ∈ visits, v.Good locals)
variable (hexec : BodyConfined visits locals exec)

include hgood hexec

/-- The body of a function runs in a new frame. -/
theorem confined_invoke
    {closure : Closure}
    (hm : m.Sound visits)
    (hclosure : closure.Sound visits m.frames)
    (harguments : ∀ value ∈ arguments, value.Sound visits m)
    (hlength : arguments.length = closure.decl.arity) :
    Confined count (closure.invoke exec arguments) m := by
  obtain ⟨ctx, scopes, hcovers, hvisits⟩ := hclosure
  obtain ⟨decl, outer, isInitializer⟩ := closure
  obtain ⟨name, params, body⟩ := decl
  have hfunction := hgood _ (hvisits _ List.mem_cons_self)
  refine confined_pushFrame_bind outer fun hcount => ?_
  refine (confined_bindParams hcount _ _).bind fun {_ m₂} hrun => ?_
  have hparams : Safe visits locals (bindParams m.frames.size params arguments)
      { m with frames := m.frames.push outer } _ :=
    safe_bindParams (hm.push outer)
      (fun value hvalue => (harguments value hvalue).mono (.push ..) (Nat.le_refl _)) hlength
      hfunction.params (hcovers.push hm.rooted)
  obtain ⟨-, hm₂, hcovers₂⟩ := hparams.ok hrun
  have hinside : Machine.Inside visits count (Scopes.declareParams ([] :: scopes) params)
      { m₂ with current := m.frames.size } :=
    ⟨hm₂.of_same rfl rfl, hcovers₂, hcount⟩
  have hbody := hexec.confined (fun v hv => hvisits v (List.mem_cons_of_mem _ hv)) hinside
  refine hbody.within.bind fun {flow _} _ => ?_
  apply Confined.of_frames
  cases isInitializer with
  | true =>
      rfl
  | false =>
      cases flow <;> rfl

theorem confined_instantiate
    {c : Class}
    (hm : m.Sound visits)
    (hc : c.Sound visits m.frames)
    (harguments : ∀ value ∈ arguments, value.Sound visits m)
    (hlength : arguments.length = c.arity initializerName) :
    Confined count (c.instantiate exec arguments) m := by
  refine (Confined.of_frames rfl).bind fun {place m₁} hrun₁ => ?_
  have hnew : Safe visits locals (newObject c) m _ := safe_newObject hm hc
  obtain ⟨hlater₁, hm₁, hframes₁, hplace⟩ := hnew.ok hrun₁
  cases hinit : c.findMethod? initializerName with
  | none =>
      exact .pure _
  | some initializer =>
      simp only [Class.arity, hinit] at hlength
      have hinitializer : initializer.SoundMethod visits m₁.frames := by
        rw [hframes₁]
        exact hc initializerName initializer hinit
      refine (confined_bind initializer place).bind fun {method m₂} hrun₂ => ?_
      have hbind : Safe visits locals (initializer.bind place) m₁ _ :=
        safe_bind hm₁ hinitializer hplace
      obtain ⟨hlater₂, hm₂, hmethod, hdecl⟩ := hbind.ok hrun₂
      have hlater := hlater₁.trans hlater₂
      refine (confined_invoke hgood hexec hm₂ hmethod ?_ ?_).bind fun _ => .pure _
      · intro value hvalue
        exact (harguments value hvalue).mono hlater.frames hlater.objects
      · rw [hdecl]
        exact hlength

/-- A call is confined wherever it happens. -/
theorem confined_call
    {σ : Setting}
    {callee : Value}
    {paren : Token}
    (hm : m.Sound visits)
    (hcallee : callee.Sound visits m)
    (harguments : ∀ value ∈ arguments, value.Sound visits m) :
    Confined count (callee.call σ exec paren arguments) m := by
  unfold Value.call
  cases harity : callee.arity? with
  | none =>
      exact .stop ⟨paren, .notCallable⟩
  | some arity =>
      dsimp only
      split
      · rename_i hlength
        cases callee with
        | native n =>
            exact .of_frames rfl
        | function identity closure =>
            cases harity
            exact confined_invoke hgood hexec hm hcallee harguments hlength
        | cls c =>
            cases harity
            exact confined_instantiate hgood hexec hm hcallee harguments hlength
        | _ =>
            cases harity
      · exact .stop ⟨paren, .wrongArity arity arguments.length⟩

end Functions

section Lists

variable {visits : List Visit}
variable {locals : Locals}
variable {count : Nat}
variable {m : Machine}
variable {ctx : Context}
variable {scopes : Scopes}

/-- Evaluates, and goes on with the same scopes. -/
theorem EvalConfined.bind
    {β : Type}
    {eval : Expr → Run Value}
    {e : Expr}
    {f : Value → Run β}
    (h : EvalConfined visits locals eval)
    (hvisits : ∀ v ∈ Expr.visits ctx scopes e, v ∈ visits)
    (hm : m.Inside visits count scopes)
    (hf : ∀ {value m'}, m.Later m' → m'.Inside visits count scopes → value.Sound visits m' →
      Confined count (f value) m') :
    Confined count (eval e >>= f) m := by
  refine (h.confined hvisits hm.sound (.inl hm.covers) hm.current).bind fun {value m'} hrun => ?_
  obtain ⟨hlater, hsound, hvalue⟩ := (h.safe hvisits hm.sound (.inl hm.covers)).ok hrun
  exact hf hlater (hm.later hlater hsound (hlater.covers hm.covers)) hvalue

theorem confined_evalAll
    {eval : Expr → Run Value}
    {es : List Expr}
    (heval : EvalConfined visits locals eval)
    (hvisits : ∀ v ∈ Expr.visitsAll ctx scopes es, v ∈ visits)
    (hm : m.Inside visits count scopes) :
    Confined count (evalAll eval es) m := by
  induction es generalizing m with
  | nil =>
      exact .pure _
  | cons e rest ih =>
      refine heval.bind (fun v hv => hvisits v (List.mem_append_left _ hv)) hm fun _ hm₁ _ => ?_
      exact (ih (fun v hv => hvisits v (List.mem_append_right _ hv)) hm₁).bind fun _ => .pure _

theorem confined_execAll
    {exec : Stmt → Run Flow}
    (hexec : ExecConfined visits locals exec) :
    BodyConfined visits locals (execAll exec) where
  safe := safe_execAll hexec.safe
  confined := by
    intro count ctx scopes body m hvisits hm
    induction body generalizing m scopes with
    | nil =>
        exact .pure _
    | cons s rest ih =>
        have hs : ∀ v ∈ Stmt.visits ctx scopes s, v ∈ visits :=
          fun v hv => hvisits v (List.mem_append_left _ hv)
        refine (hexec.confined hs hm).bind fun {flow m₁} hrun => ?_
        obtain ⟨hlater, hsound, hflow⟩ := (hexec.safe hs hm.sound hm.covers).ok hrun
        cases flow with
        | normal =>
            exact ih (fun v hv => hvisits v (List.mem_append_right _ hv))
              (hm.later hlater hsound hflow)
        | returned value =>
            exact .pure _

/-- A block is confined wherever it is executed, since its statements run in a new frame. -/
theorem confined_block
    {exec : Stmt → Run Flow}
    {eval : Expr → Run Value}
    {rounds : Nat}
    {body : List Stmt}
    (hexec : ExecConfined visits locals exec)
    (hvisits : ∀ v ∈ Stmt.visitsAll ctx ([] :: scopes) body, v ∈ visits)
    (hm : m.Sound visits)
    (hcovers : m.frames.Covers m.current scopes) :
    Confined count (execStep eval exec rounds (.block body)) m := by
  refine (Confined.read _).bind fun {outer m₁} hrun => ?_
  cases hrun
  refine confined_pushFrame_bind m.current fun hcount => ?_
  have hinside : Machine.Inside visits count ([] :: scopes)
      { m with frames := m.frames.push m.current, current := m.frames.size } :=
    ⟨(hm.push m.current).of_same rfl rfl, hcovers.push hm.rooted, hcount⟩
  exact ((confined_execAll hexec).confined hvisits hinside).within

/-- Each round of a loop starts with the same scopes covered. -/
theorem confined_repeatWhile
    {eval : Expr → Run Value}
    {exec : Stmt → Run Flow}
    {condition : Expr}
    {body : Stmt}
    (heval : EvalConfined visits locals eval)
    (hexec : ExecConfined visits locals exec)
    (hcondition : ∀ v ∈ Expr.visits ctx scopes condition, v ∈ visits)
    (hbody : ∀ v ∈ Stmt.visits ctx scopes body, v ∈ visits)
    (hscopes : (Stmt.resolve ctx scopes body).1 = scopes)
    (hm : m.Inside visits count scopes)
    (rounds : Nat) :
    Confined count (repeatWhile (eval condition) (exec body) rounds) m := by
  induction rounds generalizing m with
  | zero =>
      exact .of_frames rfl
  | succ rounds ih =>
      refine heval.bind hcondition hm fun {_ m₁} _ hm₁ _ => ?_
      split
      · refine (hexec.confined hbody hm₁).bind fun {flow m₂} hrun => ?_
        obtain ⟨hlater, hsound, hflow⟩ := (hexec.safe hbody hm₁.sound hm₁.covers).ok hrun
        rw [hscopes] at hflow
        cases flow with
        | normal =>
            exact ih (hm₁.later hlater hsound hflow)
        | returned value =>
            exact .pure _
      · exact .pure _

end Lists

section Induction

variable {visits : List Visit}
variable {σ : Setting}
variable (hgood : ∀ v ∈ visits, v.Good σ.locals)

include hgood

/-- Evaluation is confined if it is confined for parts and bodies. -/
theorem confined_evalStep
    {eval : Expr → Run Value}
    {exec : List Stmt → Run Flow}
    (heval : EvalConfined visits σ.locals eval)
    (hexec : BodyConfined visits σ.locals exec) :
    EvalConfined visits σ.locals (evalStep σ eval exec) where
  safe := safe_evalStep hgood heval.safe hexec.safe
  confined := by
    intro count ctx scopes e m hvisits hsound hserves hcurrent
    have hinside (hsubclass : ∀ id name, e ≠ .var id name) : m.Inside visits count scopes :=
      ⟨hsound, hserves.covers hsubclass, hcurrent⟩
    cases e with
    | literal value =>
        exact .pure _
    | var id name =>
        exact confined_readVariable σ id name
    | this id keyword =>
        exact confined_readVariable σ id keyword
    | super id keyword method =>
        exact confined_superMethod σ id keyword method
    | grouping inner =>
        have hm := hinside (by simp)
        exact heval.confined (fun v hv => hvisits v (List.mem_append_left _ hv)) hm.sound
          (.inl hm.covers) hm.current
    | unary operator right =>
        exact heval.bind (fun v hv => hvisits v (List.mem_append_left _ hv)) (hinside (by simp))
          fun _ _ _ => confined_check operator _
    | binary left operator right =>
        refine heval.bind (fun v hv => hvisits v (List.mem_append_left _ hv)) (hinside (by simp))
          fun _ hm₁ _ => ?_
        refine heval.bind
          (fun v hv => hvisits v (List.mem_append_right _ (List.mem_append_left _ hv))) hm₁
          fun _ _ _ => ?_
        exact (Confined.read _).bind fun _ => confined_check operator _
    | logical left operator right =>
        refine heval.bind (fun v hv => hvisits v (List.mem_append_left _ hv)) (hinside (by simp))
          fun _ hm₁ _ => ?_
        split
        · exact .pure _
        · exact heval.confined
            (fun v hv => hvisits v (List.mem_append_right _ (List.mem_append_left _ hv)))
            hm₁.sound (.inl hm₁.covers) hm₁.current
    | assign id name value =>
        have hnode := hgood _ (hvisits _ (List.mem_append_right _ List.mem_cons_self))
        refine heval.bind (fun v hv => hvisits v (List.mem_append_left _ hv)) (hinside (by simp))
          fun _ hm₁ _ => ?_
        exact (confined_writeVariable hnode hm₁ _).bind fun _ => .pure _
    | call callee paren arguments =>
        refine heval.bind (fun v hv => hvisits v (List.mem_append_left _ hv)) (hinside (by simp))
          fun {f m₁} _ hm₁ hf => ?_
        have harguments : ∀ v ∈ Expr.visitsAll ctx scopes arguments, v ∈ visits :=
          fun v hv => hvisits v (List.mem_append_right _ (List.mem_append_left _ hv))
        refine (confined_evalAll heval harguments hm₁).bind fun {values m₂} hrun => ?_
        obtain ⟨hlater₂, hm₂, hvalues⟩ :=
          (safe_evalAll heval.safe harguments hm₁.sound hm₁.covers).ok hrun
        exact confined_call hgood hexec hm₂ (hf.mono hlater₂.frames hlater₂.objects) hvalues
    | get object name =>
        exact heval.bind (fun v hv => hvisits v (List.mem_append_left _ hv)) (hinside (by simp))
          fun _ _ _ => confined_property _ name
    | set object name value =>
        refine heval.bind
          (fun v hv => hvisits v (List.mem_append_right _ (List.mem_append_left _ hv)))
          (hinside (by simp)) fun {o m₁} _ hm₁ _ => ?_
        cases o with
        | object place =>
            refine heval.bind (fun v hv => hvisits v (List.mem_append_left _ hv)) hm₁
              fun _ _ _ => ?_
            exact (Confined.of_frames rfl).bind fun _ => .pure _
        | _ =>
            exact .stop ⟨name, .noFields⟩

/-- Execution is confined if it is confined for parts. -/
theorem confined_execStep
    {eval : Expr → Run Value}
    {exec : Stmt → Run Flow}
    (heval : EvalConfined visits σ.locals eval)
    (hexec : ExecConfined visits σ.locals exec)
    (rounds : Nat) :
    ExecConfined visits σ.locals (execStep eval exec rounds) where
  safe := safe_execStep hgood heval.safe hexec.safe rounds
  confined := by
    intro count ctx scopes s m hvisits hm
    cases s with
    | expression e =>
        exact heval.bind (fun v hv => hvisits v (List.mem_cons_of_mem _ hv)) hm
          fun _ _ _ => .pure _
    | print e =>
        refine heval.bind (fun v hv => hvisits v (List.mem_cons_of_mem _ hv)) hm fun _ _ _ => ?_
        exact (Confined.read _).bind fun _ => (Confined.of_frames rfl).bind fun _ => .pure _
    | var name initializer =>
        cases initializer with
        | none =>
            exact (confined_define hm.current _ _).bind fun _ => .pure _
        | some e =>
            have he : ∀ v ∈ Expr.visits ctx (scopes.declare name) e, v ∈ visits :=
              fun v hv => hvisits v (List.mem_cons_of_mem _ hv)
            have hdeclared : m.Inside visits count (scopes.declare name) :=
              ⟨hm.sound, hm.covers.declare name, hm.current⟩
            refine heval.bind he hdeclared fun _ hm₁ _ => ?_
            exact (confined_define hm₁.current _ _).bind fun _ => .pure _
    | block body =>
        exact confined_block hexec (fun v hv => hvisits v (List.mem_cons_of_mem _ hv)) hm.sound
          hm.covers
    | ifThen condition thenBranch =>
        refine heval.bind
          (fun v hv => hvisits v (List.mem_cons_of_mem _ (List.mem_append_left _ hv))) hm
          fun _ hm₁ _ => ?_
        split
        · exact hexec.confined
            (fun v hv => hvisits v (List.mem_cons_of_mem _ (List.mem_append_right _ hv))) hm₁
        · exact .pure _
    | ifElse condition thenBranch elseBranch =>
        obtain ⟨-, hbranch, hshaped, -, -⟩ := (hgood _ (hvisits _ List.mem_cons_self)).shaped
        have hscopes := Stmt.resolve_branch ctx scopes thenBranch hshaped hbranch
        simp only [Stmt.visits, hscopes] at hvisits
        refine heval.bind
          (fun v hv => hvisits v (List.mem_cons_of_mem _ (List.mem_append_left _ hv))) hm
          fun _ hm₁ _ => ?_
        split
        · exact hexec.confined (fun v hv => hvisits v (List.mem_cons_of_mem _
            (List.mem_append_right _ (List.mem_append_left _ hv)))) hm₁
        · exact hexec.confined (fun v hv => hvisits v (List.mem_cons_of_mem _
            (List.mem_append_right _ (List.mem_append_right _ hv)))) hm₁
    | loop condition body =>
        obtain ⟨-, hbranch, hshaped⟩ := (hgood _ (hvisits _ List.mem_cons_self)).shaped
        exact confined_repeatWhile heval hexec
          (fun v hv => hvisits v (List.mem_cons_of_mem _ (List.mem_append_left _ hv)))
          (fun v hv => hvisits v (List.mem_cons_of_mem _ (List.mem_append_right _ hv)))
          (Stmt.resolve_branch ctx scopes body hshaped hbranch) hm rounds
    | function decl =>
        refine (Confined.read _).bind fun {_ m₁} hrun => ?_
        cases hrun
        refine (Confined.of_frames rfl).bind fun {_ m₂} hrun => ?_
        cases hrun
        exact (confined_define hm.current _ _).bind fun _ => .pure Flow.normal
    | ret keyword value =>
        cases value with
        | none =>
            exact .pure _
        | some e =>
            exact heval.bind (fun v hv => hvisits v (List.mem_cons_of_mem _ hv)) hm
              fun _ _ _ => .pure _
    | classDecl name superclass methods =>
        cases superclass with
        | none =>
            exact (confined_declareClass hm.current name none methods).bind fun _ => .pure _
        | some superclass =>
            obtain ⟨id, parent, hvar, hne⟩ := (hgood _ (hvisits _ List.mem_cons_self)).superclass
            have hsuperclass : ∀ v ∈ Expr.visits (ctx.inClass .derived)
                ((scopes.declare name).define name) superclass, v ∈ visits :=
              fun v hv => hvisits v (List.mem_cons_of_mem _ (List.mem_append_left _ hv))
            have hserves : m.Serves ((scopes.declare name).define name) superclass :=
              .inr ⟨scopes, name, id, parent, rfl, hvar, hne, hm.covers⟩
            refine (heval.confined hsuperclass hm.sound hserves hm.current).bind
              fun {value m₁} hrun => ?_
            have hlater := ((heval.safe hsuperclass hm.sound hserves).ok hrun).1
            cases value with
            | cls parent =>
                have hcurrent : count ≤ m₁.current := by
                  rw [hlater.current]
                  exact hm.current
                exact (confined_declareClass hcurrent name (some parent) methods).bind
                  fun _ => .pure _
            | _ =>
                exact .stop ⟨superclassToken name superclass, .notAClass⟩

/-- Evaluation and execution are confined, with any amount of fuel. -/
theorem eval_exec_confined
    (fuel : Nat) :
    EvalConfined visits σ.locals (eval σ fuel) ∧ ExecConfined visits σ.locals (exec σ fuel) := by
  induction fuel with
  | zero =>
      obtain ⟨heval, hexec⟩ := eval_exec_safe hgood 0
      exact ⟨⟨heval, fun _ _ _ _ _ _ _ _ _ => .of_frames rfl⟩,
        ⟨hexec, fun _ _ _ _ _ _ _ => .of_frames rfl⟩⟩
  | succ fuel ih =>
      exact ⟨confined_evalStep hgood ih.1 (confined_execAll ih.2),
        confined_execStep hgood ih.1 ih.2 fuel⟩

end Induction

end Lox
