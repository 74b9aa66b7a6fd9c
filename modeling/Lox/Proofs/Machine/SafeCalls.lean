import Lox.Proofs.Machine.Safe

/-!
# Variables, calls and classes are safe

The parts of evaluation that do not depend on how expressions and statements are evaluated, but for
a function that is handed to them.
-/

namespace Lox

open Run

/-- What holds after statements that were visited up to the given scopes. -/
def Flow.Settles (visits : List Visit) (scopes : Scopes) (m : Machine) : Flow → Prop
  | .normal => m.frames.Covers m.current scopes
  | .returned value => value.Sound visits m

/-- The frames have what an expression can need that was visited with the given scopes.  They cover
the scopes; only a superclass is visited with its class in scope, and evaluated before that is
bound. -/
def Machine.Serves (m : Machine) (scopes : Scopes) (e : Expr) : Prop :=
  m.frames.Covers m.current scopes ∨
    ∃ (outer : Scopes) (cls : Token) (id : Nat) (name : Token),
      scopes = (outer.declare cls).define cls ∧ e = .var id name ∧ name.lexeme ≠ cls.lexeme ∧
        m.frames.Covers m.current outer

/-- An evaluation that is safe wherever the frames serve the scopes of the expression. -/
def EvalSafe (visits : List Visit) (locals : Locals) (eval : Expr → Run Value) : Prop :=
  ∀ ⦃ctx scopes e m⦄, (∀ v ∈ Expr.visits ctx scopes e, v ∈ visits) → m.Sound visits →
    m.Serves scopes e →
    Safe visits locals (eval e) m fun m' value => value.Sound visits m'

/-- An execution that is safe wherever the frames cover the scopes of the statement. -/
def ExecSafe (visits : List Visit) (locals : Locals) (exec : Stmt → Run Flow) : Prop :=
  ∀ ⦃ctx scopes s m⦄, (∀ v ∈ Stmt.visits ctx scopes s, v ∈ visits) → m.Sound visits →
    m.frames.Covers m.current scopes →
    Safe visits locals (exec s) m fun m' flow =>
      flow.Settles visits (Stmt.resolve ctx scopes s).1 m'

/-- An execution of lists of statements that is safe in the same way. -/
def BodySafe (visits : List Visit) (locals : Locals) (exec : List Stmt → Run Flow) : Prop :=
  ∀ ⦃ctx scopes body m⦄, (∀ v ∈ Stmt.visitsAll ctx scopes body, v ∈ visits) → m.Sound visits →
    m.frames.Covers m.current scopes →
    Safe visits locals (exec body) m fun m' flow =>
      flow.Settles visits (Stmt.resolveAll ctx scopes body).1 m'

/-- Only variables can be superclasses. -/
theorem Machine.Serves.covers
    {m : Machine}
    {scopes : Scopes}
    {e : Expr}
    (h : m.Serves scopes e)
    (he : ∀ id name, e ≠ .var id name) :
    m.frames.Covers m.current scopes := by
  rcases h with hcovers | ⟨outer, cls, id, name, -, heq, -, -⟩
  · exact hcovers
  · exact absurd heq (he id name)

section Variables

variable {visits : List Visit}
variable {σ : Setting}
variable {m : Machine}
variable {id : Nat}
variable {name : Token}

/-- A variable can be read if the frame at its distance has it. -/
theorem safe_readVariable
    (hm : m.Sound visits)
    (hname : σ.locals.get? id = none → Ordinary name.lexeme ∧
      ∃ v ∈ visits, v.node = .expr (.var id name))
    (hbound : ∀ d, σ.locals.get? id = some d →
      ∃ value, m.frames.getAt? m.current d name.lexeme = some value) :
    Safe visits σ.locals (readVariable σ id name) m fun m' value => value.Sound visits m' := by
  have hfound : ∀ {target value}, m.frames.lookup? target name.lexeme = some value →
      value.Sound visits m :=
    fun h => (hm.bound h).1
  cases hget : σ.locals.get? id with
  | some d =>
      obtain ⟨value, hvalue⟩ := hbound d hget
      have hrun : readVariable σ id name m = (.ok value, m) := by
        simp [readVariable, hget, hvalue]
      refine .of_ok hrun (.refl m) hm ?_
      unfold Frames.getAt? at hvalue
      split at hvalue
      · exact hfound hvalue
      · cases hvalue
  | none =>
      obtain ⟨hordinary, v, hv, hnode⟩ := hname hget
      cases hglobal : m.frames.get? Machine.globals name.lexeme with
      | some value =>
          have hrun : readVariable σ id name m = (.ok value, m) := by
            simp [readVariable, hget, hglobal]
          refine .of_ok hrun (.refl m) hm ?_
          unfold Frames.get? at hglobal
          split at hglobal
          · exact hfound hglobal
          · cases hglobal
      | none =>
          have hrun : readVariable σ id name m = (.error (.fault (.undefined name)), m) := by
            simp [readVariable, hget, hglobal]
          refine .of_error hrun ?_
          intro other hother
          cases hother
          exact ⟨rfl, hordinary, v, hv, id, hget, .inl hnode⟩

theorem safe_writeVariable
    {value : Value}
    (hm : m.Sound visits)
    (hvalue : value.Sound visits m)
    (hname : Ordinary name.lexeme)
    (hvisit : ∃ v ∈ visits, ∃ e, v.node = .expr (.assign id name e))
    (hframe : ∀ d, σ.locals.get? id = some d →
      ∃ target, m.frames.outward? d m.current = some target) :
    Safe visits σ.locals (writeVariable σ id name value) m fun _ _ => True := by
  unfold writeVariable
  refine (safe_read hm _).bind ?_
  rintro m' target - hm' ⟨rfl, rfl⟩
  cases htarget : variableFrame? σ id name m' with
  | some frame =>
      exact (safe_defineIn hm' hvalue (Value.suits_of_ordinary hname value)).weaken
        fun _ _ => trivial
  | none =>
      refine .of_error rfl ?_
      intro other hother
      cases hother
      obtain ⟨v, hv, e, hnode⟩ := hvisit
      refine ⟨rfl, hname, v, hv, id, ?_, .inr ⟨e, hnode⟩⟩
      unfold variableFrame? at htarget
      split at htarget
      · rename_i d hget
        obtain ⟨frame, hframe⟩ := hframe d hget
        rw [hframe] at htarget
        cases htarget
      · assumption

end Variables

section Functions

variable {visits : List Visit}
variable {locals : Locals}
variable {m : Machine}

/-- Binding parameters covers their scope. -/
theorem safe_bindParams
    {frame : Nat}
    {params : List Token}
    {values : List Value}
    {scopes : Scopes}
    (hm : m.Sound visits)
    (hvalues : ∀ value ∈ values, value.Sound visits m)
    (hlength : values.length = params.length)
    (hparams : ∀ p ∈ params, Ordinary p.lexeme)
    (hcovers : m.frames.Covers frame scopes) :
    Safe visits locals (bindParams frame params values) m fun m' _ =>
      m'.frames.Covers frame (scopes.declareParams params) := by
  induction params generalizing m values scopes with
  | nil =>
      exact safe_pure hm hcovers
  | cons p params ih =>
      cases values with
      | nil =>
          cases hlength
      | cons value values =>
          have hvalue := hvalues value List.mem_cons_self
          have hp := hparams p List.mem_cons_self
          refine (safe_defineIn hm hvalue (Value.suits_of_ordinary hp value)).bind ?_
          intro m' _ hlater hm' hframes
          refine ih hm' ?_ (Nat.succ.inj hlength)
            (fun q hq => hparams q (List.mem_cons_of_mem _ hq)) ?_
          · intro v hv
            exact (hvalues v (List.mem_cons_of_mem _ hv)).mono hlater.frames hlater.objects
          · rw [hframes]
            exact hcovers.define p value

/-- A method made for an object has a frame for the scope of `this`. -/
theorem safe_bind
    {closure : Closure}
    {place : Nat}
    (hm : m.Sound visits)
    (hclosure : closure.SoundMethod visits m.frames)
    (hplace : place < m.objects.size) :
    Safe visits locals (closure.bind place) m fun m' method =>
      method.Sound visits m'.frames ∧ method.decl = closure.decl := by
  obtain ⟨ctx, scopes, hcovers, hvisits⟩ := hclosure
  refine (safe_pushFrame hm closure.frame).bind ?_
  rintro m₁ frame hlater hm₁ ⟨rfl, hframes⟩
  have hplace₁ : (Value.object place).Sound visits m₁ :=
    Nat.lt_of_lt_of_le hplace hlater.objects
  refine (safe_defineIn hm₁ hplace₁ ⟨by simp, by simp⟩).bind ?_
  intro m₂ _ hlater₂ hm₂ hframes₂
  refine safe_pure hm₂ ⟨⟨ctx, _, ?_, hvisits⟩, rfl⟩
  rw [hframes₂, hframes]
  exact (hcovers.push hm.rooted).define ⟨.keyword .this, "this", 0⟩ (.object place)

variable {exec : List Stmt → Run Flow}
variable {arguments : List Value}
variable (hgood : ∀ v ∈ visits, v.Good locals)
variable (hexec : BodySafe visits locals exec)

include hexec

/-- A body that is run in its frame. -/
theorem safe_body
    {ctx : Context}
    {scopes : Scopes}
    {body : List Stmt}
    {frame : Nat}
    (hvisits : ∀ v ∈ Stmt.visitsAll ctx scopes body, v ∈ visits)
    (hm : m.Sound visits)
    (hcovers : m.frames.Covers frame scopes) :
    Safe visits locals (within frame (exec body)) m fun m' flow =>
      ∀ value, flow = .returned value → value.Sound visits m' := by
  have hinside : Machine.Sound visits { m with current := frame } :=
    hm.of_same rfl rfl
  refine (hexec hvisits hinside hcovers).within ?_
  intro m' flow hext hsettles value hflow
  subst hflow
  exact hsettles.mono (.refl _) (Nat.le_refl _)

include hgood

/-- Calling a function with as many arguments as it has parameters. -/
theorem safe_invoke
    {closure : Closure}
    (hm : m.Sound visits)
    (hclosure : closure.Sound visits m.frames)
    (harguments : ∀ value ∈ arguments, value.Sound visits m)
    (hlength : arguments.length = closure.decl.arity) :
    Safe visits locals (closure.invoke exec arguments) m fun m' value =>
      value.Sound visits m' := by
  obtain ⟨ctx, scopes, hcovers, hvisits⟩ := hclosure
  obtain ⟨decl, outer, isInitializer⟩ := closure
  obtain ⟨name, params, body⟩ := decl
  have hfunction := hgood _ (hvisits _ List.mem_cons_self)
  refine (safe_pushFrame hm outer).bind ?_
  rintro m₁ frame hlater₁ hm₁ ⟨rfl, hframes₁⟩
  have hcovers₁ : m₁.frames.Covers m.frames.size ([] :: scopes) := by
    rw [hframes₁]
    exact hcovers.push hm.rooted
  refine (safe_bindParams hm₁ ?_ hlength hfunction.params hcovers₁).bind ?_
  · intro value hvalue
    exact (harguments value hvalue).mono hlater₁.frames hlater₁.objects
  · intro m₂ _ hlater₂ hm₂ hcovers₂
    refine (safe_body hexec (fun v hv => hvisits v (List.mem_cons_of_mem _ hv)) hm₂
      hcovers₂).bind ?_
    intro m₃ flow hlater₃ hm₃ hflow
    dsimp only
    split
    · refine (safe_read hm₃ _).bind ?_
      rintro m₄ found - hm₄ ⟨rfl, rfl⟩
      apply safe_pure hm₄
      cases hfound : m₄.frames.lookup? outer "this" with
      | none =>
          simp [Frames.getAt?, Frames.outward?, hfound, Value.Sound]
      | some value =>
          simpa [Frames.getAt?, Frames.outward?, hfound] using (hm₄.bound hfound).1
    · cases flow with
      | returned value =>
          exact safe_pure hm₃ (hflow value rfl)
      | normal =>
          exact safe_pure hm₃ trivial

/-- Making an object. -/
theorem safe_instantiate
    {c : Class}
    (hm : m.Sound visits)
    (hc : c.Sound visits m.frames)
    (harguments : ∀ value ∈ arguments, value.Sound visits m)
    (hlength : arguments.length = c.arity initializerName) :
    Safe visits locals (c.instantiate exec arguments) m fun m' value =>
      value.Sound visits m' := by
  refine (safe_newObject hm hc).bind ?_
  rintro m₁ place hlater₁ hm₁ ⟨hframes₁, hplace⟩
  cases hinit : c.findMethod? initializerName with
  | none =>
      exact safe_pure hm₁ hplace
  | some initializer =>
      simp only [Class.arity, hinit] at hlength
      have hinitializer : initializer.SoundMethod visits m₁.frames := by
        rw [hframes₁]
        exact hc initializerName initializer hinit
      refine (safe_bind hm₁ hinitializer hplace).bind ?_
      rintro m₂ method hlater₂ hm₂ ⟨hmethod, hdecl⟩
      have hlater := hlater₁.trans hlater₂
      refine (safe_invoke hgood hexec hm₂ hmethod ?_ ?_).bind ?_
      · intro value hvalue
        exact (harguments value hvalue).mono hlater.frames hlater.objects
      · rw [hdecl]
        exact hlength
      · intro m₃ _ hlater₃ hm₃ _
        exact safe_pure hm₃ (Nat.lt_of_lt_of_le hplace (hlater₂.trans hlater₃).objects)

/-- Calling a value. -/
theorem safe_call
    {σ : Setting}
    {callee : Value}
    {paren : Token}
    (hm : m.Sound visits)
    (hcallee : callee.Sound visits m)
    (harguments : ∀ value ∈ arguments, value.Sound visits m) :
    Safe visits locals (callee.call σ exec paren arguments) m fun m' value =>
      value.Sound visits m' := by
  unfold Value.call
  cases harity : callee.arity? with
  | none =>
      exact safe_fail (by simp)
  | some arity =>
      dsimp only
      split
      · rename_i hlength
        cases callee with
        | native n =>
            exact safe_readClock hm σ
        | function identity closure =>
            cases harity
            exact safe_invoke hgood hexec hm hcallee harguments hlength
        | cls c =>
            cases harity
            exact safe_instantiate hgood hexec hm hcallee harguments hlength
        | _ =>
            cases harity
      · exact safe_fail (by simp)

end Functions

section Objects

variable {visits : List Visit}
variable {locals : Locals}
variable {m : Machine}

theorem safe_property
    {object : Value}
    {name : Token}
    (hm : m.Sound visits)
    (hobject : object.Sound visits m) :
    Safe visits locals (object.property name) m fun m' value => value.Sound visits m' := by
  cases object with
  | object place =>
      refine (safe_read hm _).bind ?_
      rintro m₁ found - hm₁ ⟨rfl, rfl⟩
      cases ho : m₁.objects[place]? with
      | none =>
          exact safe_fail (by simp)
      | some o =>
          obtain ⟨hcls, hfields⟩ := hm₁.objects ho
          dsimp only
          cases hfield : o.fields.lookup name.lexeme with
          | some value =>
              exact safe_pure hm₁ (hfields _ value hfield)
          | none =>
              cases hmethod : o.cls.findMethod? name.lexeme with
              | none =>
                  exact safe_fail (by simp)
              | some method =>
                  refine (safe_bind hm₁ (hcls _ method hmethod) hobject).bind ?_
                  rintro m₂ made hlater₂ hm₂ ⟨hmade, -⟩
                  exact (safe_newFunction hm₂ hmade).weaken fun _ h => h.2
  | _ =>
      exact safe_fail (by simp)

theorem safe_superMethod
    {σ : Setting}
    {id d place : Nat}
    {keyword method : Token}
    {parent : Class}
    (hm : m.Sound visits)
    (hget : σ.locals.get? id = some (d + 1))
    (hsuper : m.frames.getAt? m.current (d + 1) "super" = some (.cls parent))
    (hthis : m.frames.getAt? m.current d "this" = some (.object place))
    (hparent : parent.Sound visits m.frames)
    (hplace : place < m.objects.size) :
    Safe visits locals (superMethod σ id keyword method) m fun m' value =>
      value.Sound visits m' := by
  unfold superMethod
  rw [hget]
  refine (safe_read hm _).bind ?_
  rintro m₁ found - hm₁ ⟨rfl, rfl⟩
  rw [hsuper]
  refine (safe_read hm₁ _).bind ?_
  rintro m₂ found - hm₂ ⟨rfl, rfl⟩
  rw [Nat.add_sub_cancel, hthis]
  dsimp only
  cases hmethod : parent.findMethod? method.lexeme with
  | none =>
      exact safe_fail (by simp)
  | some found =>
      refine (safe_bind hm₂ (hparent _ found hmethod) hplace).bind ?_
      rintro m₃ made hlater₃ hm₃ ⟨hmade, -⟩
      exact (safe_newFunction hm₃ hmade).weaken fun _ h => h.2

end Objects

section Classes

variable {visits : List Visit}
variable {locals : Locals}
variable {m : Machine}

/-- Every method in a table is one of the declared methods, under its name and made in the given
frame. -/
theorem mem_methodTable
    {frame : Nat}
    {methods : List FunctionDecl}
    {name : String}
    {closure : Closure}
    (h : (methodTable frame methods).lookup name = some closure) :
    ∃ decl ∈ methods, decl.name.lexeme = name ∧
      closure = ⟨decl, frame, decl.name.lexeme = initializerName⟩ := by
  have hfold : ∀ (methods : List FunctionDecl) (table : List (String × Closure)),
      (methods.foldl (fun table decl => putBinding decl.name.lexeme
        ⟨decl, frame, decl.name.lexeme = initializerName⟩ table) table).lookup name =
          some closure →
      (∃ decl ∈ methods, decl.name.lexeme = name ∧
        closure = ⟨decl, frame, decl.name.lexeme = initializerName⟩) ∨
        table.lookup name = some closure := by
    intro methods
    induction methods with
    | nil =>
        intro table htable
        exact .inr htable
    | cons decl rest ih =>
        intro table htable
        rcases ih _ htable with ⟨found, hmem, hfound⟩ | htable
        · exact .inl ⟨found, List.mem_cons_of_mem _ hmem, hfound⟩
        · by_cases hname : name = decl.name.lexeme
          · rw [hname, lookup_putBinding_self] at htable
            exact .inl ⟨decl, List.mem_cons_self, hname.symm, (Option.some.inj htable).symm⟩
          · rw [lookup_putBinding_of_ne hname] at htable
            exact .inr htable
  rcases hfold methods [] h with hfound | hnone
  · exact hfound
  · cases hnone

theorem visitsFunction_of_mem
    {ctx : Context}
    {scopes : Scopes}
    {methods : List FunctionDecl}
    {decl : FunctionDecl}
    (h : decl ∈ methods) :
    ∀ v ∈ Stmt.visitsFunction (ctx.inFunction (.ofMethod decl.name)) scopes decl,
      v ∈ Stmt.visitsMethods ctx scopes methods := by
  intro v hv
  induction methods with
  | nil =>
      cases h
  | cons f rest ih =>
      rcases List.mem_cons.mp h with rfl | h
      · exact List.mem_append_left _ hv
      · exact List.mem_append_right _ (ih h)

/-- A class whose methods are made in a frame that covers the scopes around `this`. -/
theorem sound_class
    {fs : Frames}
    {frame identity : Nat}
    {name : String}
    {superclass : Option Class}
    {methods : List FunctionDecl}
    {ctx : Context}
    {scopes : Scopes}
    (hcovers : fs.Covers frame scopes)
    (hsuperclass : ∀ parent, superclass = some parent → parent.Sound visits fs)
    (hvisits : ∀ v ∈ Stmt.visitsMethods ctx ([("this", true)] :: scopes) methods, v ∈ visits) :
    (Class.mk identity name superclass (methodTable frame methods)).Sound visits fs := by
  have hown : ∀ method closure, (methodTable frame methods).lookup method = some closure →
      closure.SoundMethod visits fs := by
    intro method closure hlookup
    obtain ⟨decl, hmem, -, rfl⟩ := mem_methodTable hlookup
    exact ⟨_, scopes, hcovers, fun v hv => hvisits v (visitsFunction_of_mem hmem v hv)⟩
  intro method closure hfind
  cases superclass with
  | none =>
      exact hown method closure hfind
  | some parent =>
      simp only [Class.findMethod?] at hfind
      split at hfind
      · rename_i found hlookup
        cases hfind
        exact hown method _ hlookup
      · exact hsuperclass parent rfl method closure hfind

theorem safe_overwrite
    {name : Token}
    {value : Value}
    (hm : m.Sound visits)
    (hname : Ordinary name.lexeme)
    (hvalue : value.Sound visits m)
    (hbound : m.frames.Bound m.current name.lexeme) :
    Safe visits locals (overwrite name value) m fun _ _ => True := by
  refine (safe_read hm _).bind ?_
  rintro m' target - hm' ⟨rfl, rfl⟩
  rw [Frames.holder?_of_bound hbound hm'.rooted]
  exact (safe_defineIn hm' hvalue (Value.suits_of_ordinary hname value)).weaken
    fun _ _ => trivial

/-- Making a class whose name is bound already, with its methods in a given frame. -/
theorem safe_fillClass
    {name : Token}
    {superclass : Option Class}
    {methods : List FunctionDecl}
    {ctx : Context}
    {scopes : Scopes}
    {frame : Nat}
    (hm : m.Sound visits)
    (hname : Ordinary name.lexeme)
    (hbound : m.frames.Bound m.current name.lexeme)
    (hsuperclass : ∀ parent, superclass = some parent → parent.Sound visits m.frames)
    (hcovers : m.frames.Covers frame scopes)
    (hvisits : ∀ v ∈ Stmt.visitsMethods ctx ([("this", true)] :: scopes) methods, v ∈ visits) :
    Safe visits locals
      (newClass name.lexeme superclass (methodTable frame methods) >>= overwrite name) m
      fun _ _ => True := by
  refine (safe_newClass hm fun identity => sound_class hcovers hsuperclass hvisits).bind ?_
  rintro m₁ value hlater₁ hm₁ ⟨hframes₁, hvalue⟩
  refine safe_overwrite hm₁ hname hvalue ?_
  rw [hframes₁, hlater₁.current]
  exact hbound

/-- Declaring a class. -/
theorem safe_declareClass
    {name : Token}
    {superclass : Option Class}
    {methods : List FunctionDecl}
    {ctx : Context}
    {scopes : Scopes}
    (hm : m.Sound visits)
    (hname : Ordinary name.lexeme)
    (hsuperclass : ∀ parent, superclass = some parent → parent.Sound visits m.frames)
    (hcovers : m.frames.Covers m.current scopes)
    (hvisits : ∀ v ∈ Stmt.visitsMethods ctx
      (Stmt.methodScopes ((scopes.declare name).define name) superclass.isSome) methods,
      v ∈ visits) :
    Safe visits locals (declareClass name superclass methods) m fun m' _ =>
      m'.frames.Covers m'.current ((scopes.declare name).define name) := by
  have hnil : Value.nil.Sound visits m := trivial
  refine (safe_define hm hnil (Value.suits_of_ordinary hname _)).bind ?_
  intro m₁ _ hlater₁ hm₁ hframes₁
  have hbound₁ : m₁.frames.Bound m₁.current name.lexeme := by
    rw [hframes₁, hlater₁.current]
    exact ⟨.nil, Frames.lookup?_define_self (hcovers.lt_size hm.rooted) _ _⟩
  have hcovers₁ : m₁.frames.Covers m₁.current ((scopes.declare name).define name) := by
    rw [hframes₁, hlater₁.current]
    exact hcovers.declare_define name .nil
  refine (safe_read hm₁ _).bind ?_
  rintro m₂ outer - hm₂ ⟨rfl, rfl⟩
  cases superclass with
  | none =>
      refine (safe_fillClass hm₂ hname hbound₁ (by simp) hcovers₁ hvisits).weaken ?_
      intro m₃ _ hlater₃ _
      exact hlater₃.covers hcovers₁
  | some parent =>
      refine (safe_pushFrame hm₂ m₂.current).bind ?_
      rintro m₃ frame hlater₃ hm₃ ⟨rfl, hframes₃⟩
      have hparent : (Value.cls parent).Sound visits m₃ :=
        (hsuperclass parent rfl).mono (hlater₁.trans hlater₃).frames
      refine (safe_defineIn hm₃ hparent ⟨by simp, by simp⟩).bind ?_
      intro m₄ _ hlater₄ hm₄ hframes₄
      have hlater := hlater₃.trans hlater₄
      have hcovers₄ : m₄.frames.Covers m₂.frames.size
          ([("super", true)] :: (scopes.declare name).define name) := by
        rw [hframes₄, hframes₃]
        exact (hcovers₁.push hm₂.rooted).define ⟨.keyword .super, "super", 0⟩ (.cls parent)
      have hbound₄ : m₄.frames.Bound m₄.current name.lexeme := by
        rw [hlater.current]
        exact hlater.frames.bound hbound₁
      have hparent₄ : ∀ other, some parent = some other → other.Sound visits m₄.frames := by
        intro other hother
        cases hother
        exact hparent.mono hlater₄.frames hlater₄.objects
      refine (safe_fillClass hm₄ hname hbound₄ hparent₄ hcovers₄ hvisits).weaken ?_
      intro m₅ _ hlater₅ _
      exact (hlater.trans hlater₅).covers hcovers₁

end Classes

end Lox
