import Lox.Proofs.Machine.Keeps
import Lox.Proofs.Machine.SafeCalls
import Lox.Proofs.Scope.Written

/-!
# Variables, calls and classes keep machines proper

The parts of evaluation that do not depend on how expressions and statements are evaluated, but for
a function that is handed to them.  Methods come out of class tables only by being bound to an object
whose class has the owner of the table on its lineage.
-/

namespace Lox

open Run

/-- An evaluation that keeps machines proper, at every expression of the program. -/
def EvalKeeps (k : Course) (outside : RuntimeError) (eval : Watcher → Expr → Run Value) : Prop :=
  ∀ ⦃a e m⦄, k.program.at? a = some (.expr e) → m.Proper k →
    m.Stands k m.current (k.program.scopesAround a) →
    Keeps k outside (fun w => eval w e) m fun m' value =>
      value.Proper k m' ∧ k.seen (.evaluated e value) m'

/-- An execution that keeps machines proper, at every statement of the program. -/
def ExecKeeps (k : Course) (outside : RuntimeError) (exec : Watcher → Stmt → Run Flow) : Prop :=
  ∀ ⦃a s m⦄, k.program.at? a = some (.stmt s) → m.Proper k →
    m.Stands k m.current (k.program.scopesAround a) →
    Keeps k outside (fun w => exec w s) m fun m' flow => flow.Proper k m'

/-- Statements of the program, all with the same scopes around them. -/
def Course.HasBody (k : Course) (scopes : List Address) (body : List Stmt) : Prop :=
  ∀ s ∈ body, ∃ a, k.program.at? a = some (.stmt s) ∧ k.program.scopesAround a = scopes

/-- An execution of lists of statements that keeps machines proper. -/
def BodyKeeps (k : Course) (outside : RuntimeError) (exec : Watcher → List Stmt → Run Flow) :
    Prop :=
  ∀ ⦃scopes body m⦄, k.HasBody scopes body → m.Proper k → m.Stands k m.current scopes →
    Keeps k outside (fun w => exec w body) m fun m' flow => flow.Proper k m'

/-- The children of a part that opens a scope. -/
theorem Course.hasBody_of_scope
    {k : Course}
    {p : Address}
    {part : Part}
    {body : List Stmt}
    (hpart : k.program.at? p = some part)
    (hscope : part.isScope = true)
    (hbody : ∀ s ∈ body, .stmt s ∈ part.children) :
    k.HasBody (p :: k.program.scopesAround p) body := by
  intro s hs
  obtain ⟨i, hchild, hscopes⟩ := Part.exists_child hpart (hbody s hs)
  rw [if_pos hscope] at hscopes
  exact ⟨p ++ [i], hchild, hscopes⟩

section Stands

variable {k : Course}
variable {m m' : Machine}
variable {frame : Nat}
variable {scopes : List Address}

theorem Machine.Stands.after
    (h : m.Stands k m.current scopes)
    (honward : m.Onward m')
    (hcurrent : m'.current = m.current) :
    m'.Stands k m'.current scopes := by
  rw [hcurrent]
  exact h.mono honward

/-- A frame without `this` suits all scopes but class bodies. -/
theorem Machine.holds_of_not_classBody
    {scope : Address}
    {part : Part}
    {around : Nat}
    (hscope : k.program.at? scope = some part)
    (hpart : part.isClassBody = false)
    (hthis : m.frames.lookup? frame "this" = none) :
    m.Holds k scope frame around := by
  unfold Machine.Holds
  split
  · rename_i derived methods hbody
    rw [hscope] at hbody
    cases hbody
    cases hpart
  · exact hthis

/-- A new frame, for a scope that is no class body. -/
theorem Machine.Stands.push
    {scope : Address}
    {part : Part}
    (h : m.Stands k frame scopes)
    (hscope : k.program.at? scope = some part)
    (hpart : part.isClassBody = false) :
    Machine.Stands k { m with frames := m.frames.push frame } m.frames.size (scope :: scopes) := by
  refine ⟨frame, Frames.enclosing?_push_self .., h.mono (.push m frame), ?_⟩
  apply Machine.holds_of_not_classBody hscope hpart
  rw [Frames.lookup?_push, Frames.lookup?_of_size_le (Nat.le_refl _)]

/-- A new frame with `super`, for the scope around a class body. -/
theorem Machine.Stands.pushSuper
    {scope : Address}
    {methods : List FunctionDecl}
    (h : m.Stands k frame scopes)
    (hscope : k.program.at? scope = some (.inheritance methods))
    (value : Value) :
    Machine.Stands k { m with frames := m.frames.pushWith frame "super" value } m.frames.size
      (scope :: scopes) := by
  refine ⟨frame, Frames.enclosing?_pushWith_self .., h.mono (.pushWith m frame _ _), ?_⟩
  apply Machine.holds_of_not_classBody hscope rfl
  rw [Frames.lookup?_pushWith, if_neg (by simp), Frames.lookup?_of_size_le (Nat.le_refl _)]

/-- Going outward, frames and scopes keep step. -/
theorem Machine.Stands.of_outward?
    (h : m.Stands k frame scopes)
    {d target : Nat}
    (htarget : m.frames.outward? d frame = some target) :
    m.Stands k target (scopes.drop d) := by
  induction d generalizing frame scopes with
  | zero =>
      cases htarget
      exact h
  | succ d ih =>
      simp only [Frames.outward?] at htarget
      cases scopes with
      | nil =>
          obtain ⟨-, -, houtmost, -⟩ := h
          rw [houtmost] at htarget
          cases htarget
      | cons scope scopes =>
          obtain ⟨around, henclosing, hstands, -⟩ := h
          rw [henclosing] at htarget
          exact ih hstands htarget

end Stands

/-- A variable that can be read is bound in some frame. -/
theorem readVariable_cases (σ : Setting) (id : Nat) (name : Token) (m : Machine) :
    (∃ value target, readVariable σ id name m = (.ok value, m) ∧
      m.frames.lookup? target name.lexeme = some value) ∨
    readVariable σ id name m = (.error (.fault (.undefined name)), m) := by
  unfold readVariable
  dsimp only
  split
  · rename_i value hfound
    refine .inl ⟨value, ?_⟩
    split at hfound
    · obtain ⟨target, -, hlookup⟩ := Frames.exists_of_getAt? hfound
      exact ⟨target, rfl, hlookup⟩
    · obtain ⟨target, hlookup⟩ := Frames.exists_of_get? hfound
      exact ⟨target, rfl, hlookup⟩
  · exact .inr rfl

section Variables

variable {k : Course}
variable {outside : RuntimeError}
variable {m : Machine}
variable {name : Token}
variable {value : Value}
variable (hm : m.Proper k)

include hm

theorem keeps_readVariable (σ : Setting) (id : Nat) (name : Token) :
    Keeps k outside (fun _ => readVariable σ id name) m fun m' value => value.Proper k m' := by
  rcases readVariable_cases σ id name m with ⟨value, target, hrun, hlookup⟩ | hrun
  · exact .of_ok hrun (.refl m) rfl hm (hm.bound hlookup)
  · exact .of_error hm hrun

theorem keeps_writeIn
    (hname : Ordinary name.lexeme)
    (hvalue : value.Proper k m)
    (target : Option Nat) :
    Keeps k outside (fun _ => writeIn target name value) m fun _ _ => True := by
  cases target with
  | none =>
      exact .of_error hm rfl
  | some frame =>
      exact (keeps_defineIn hm hname hvalue frame).weaken fun _ _ => trivial

theorem keeps_writeVariable
    (hname : Ordinary name.lexeme)
    (hvalue : value.Proper k m)
    (σ : Setting)
    (id : Nat) :
    Keeps k outside (fun _ => writeVariable σ id name value) m fun _ _ => True := by
  refine (keeps_read hm (variableFrame? σ id name)).bind ?_
  rintro m' target - - hm' ⟨rfl, -⟩
  exact keeps_writeIn hm' hname hvalue target

theorem keeps_overwrite
    (hname : Ordinary name.lexeme)
    (hvalue : value.Proper k m) :
    Keeps k outside (fun _ => overwrite name value) m fun _ _ => True := by
  refine (keeps_read hm fun m => m.frames.holder? m.current name.lexeme).bind ?_
  rintro m' target - - hm' ⟨rfl, -⟩
  exact keeps_writeIn hm' hname hvalue target

theorem keeps_bindParams
    {params : List Token}
    {values : List Value}
    (hparams : ∀ p ∈ params, Ordinary p.lexeme)
    (hvalues : ∀ value ∈ values, value.Proper k m)
    (frame : Nat) :
    Keeps k outside (fun _ => bindParams frame params values) m fun _ _ => True := by
  induction params generalizing m values with
  | nil =>
      exact keeps_pure hm trivial
  | cons p params ih =>
      cases values with
      | nil =>
          exact keeps_pure hm trivial
      | cons value values =>
          have hvalue := hvalues value List.mem_cons_self
          refine (keeps_defineIn hm (hparams p List.mem_cons_self) hvalue frame).bind ?_
          intro m' _ honward _ hm' _
          refine ih hm' (fun q hq => hparams q (List.mem_cons_of_mem _ hq)) ?_
          intro v hv
          exact (hvalues v (List.mem_cons_of_mem _ hv)).mono honward

end Variables

section Methods

variable {k : Course}
variable {outside : RuntimeError}
variable {m : Machine}

/-- Binding a method to an object whose class has the owner of the method on its lineage. -/
theorem keeps_bind
    {place : Nat}
    {o : Instance}
    {owner : Class}
    {name : String}
    {method : Closure}
    (hm : m.Proper k)
    (ho : m.objects[place]? = some o)
    (howner : owner ∈ o.cls.lineage)
    (hmethod : owner.methods.lookup name = some method) :
    Keeps k outside (fun _ => method.bind place) m fun m' made =>
      made.Placed k m' ∧ made.Bound m' ∧ made.decl.name.lexeme = name ∧
        m'.frames.lookup? made.frame "this" = some (.object place) := by
  obtain ⟨body, frame, hmade, hstands, hsuper⟩ := (hm.objects ho).1 owner howner
  obtain ⟨methods, hbody, htable⟩ := hmade.body
  rw [htable] at hmethod
  obtain ⟨decl, hdecl, rfl, rfl⟩ := mem_methodTable hmethod
  let m' : Machine := { m with frames := m.frames.pushWith frame "this" (.object place) }
  have honward : m.Onward m' := .pushWith m frame "this" (.object place)
  have hthis : m'.frames.lookup? m.frames.size "this" = some (.object place) := by
    rw [Frames.lookup?_pushWith, if_pos ⟨rfl, rfl⟩]
  have henclosing : m'.frames.enclosing? m.frames.size = some frame :=
    Frames.enclosing?_pushWith_self ..
  have hobject : (Value.object place).Proper k m := ⟨o, ho⟩
  refine .of_ok rfl honward rfl (hm.pushWith hobject frame "this") ⟨?_, ?_, rfl, hthis⟩
  · -- The new frame is that of the class body, which is the innermost scope around the method.
    obtain ⟨i, hchild, hscopes⟩ := Part.exists_child hbody (List.mem_map_of_mem hdecl)
    refine ⟨body ++ [i], .method, hchild, ?_⟩
    rw [hscopes.trans (if_pos rfl)]
    refine ⟨frame, henclosing, hstands.mono honward, ?_⟩
    unfold Machine.Holds
    rw [hbody]
    exact ⟨place, o, owner, hthis, ho, howner, hmade,
      (honward.kept hstands.lt_size not_ordinary_super).trans hsuper⟩
  · refine ⟨place, o, owner, frame, hthis, ho, howner, ?_, ?_, henclosing, by simp⟩
    · rw [htable]
      exact hmethod
    · intro other method hother
      rw [htable] at hother
      obtain ⟨-, -, -, rfl⟩ := mem_methodTable hother
      rfl

/-- Reading a method off an object. -/
theorem keeps_boundMethod
    {place : Nat}
    {o : Instance}
    {c : Class}
    {name : String}
    {method : Closure}
    (hm : m.Proper k)
    (ho : m.objects[place]? = some o)
    (hc : c ∈ o.cls.lineage)
    (hmethod : c.findMethod? name = some method) :
    Keeps k outside (fun _ => method.bind place >>= newFunction) m fun m' value =>
      value.Proper k m' := by
  obtain ⟨owner, howner, hlookup⟩ := Class.exists_of_findMethod? hmethod
  refine (keeps_bind hm ho (Class.lineage_subset _ _ hc howner) hlookup).bind ?_
  rintro m' made - - hm' ⟨hplaced, hbound, -⟩
  exact keeps_newFunction hm' ⟨hplaced, .inr hbound⟩

theorem keeps_property
    {object : Value}
    (hm : m.Proper k)
    (name : Token) :
    Keeps k outside (fun _ => object.property name) m fun m' value => value.Proper k m' := by
  cases object with
  | object place =>
      refine (keeps_read hm fun m => m.objects[place]?).bind ?_
      rintro m' found - - hm' ⟨rfl, rfl⟩
      cases ho : m'.objects[place]? with
      | none =>
          exact .of_error hm' rfl
      | some o =>
          dsimp only
          cases hfield : o.fields.lookup name.lexeme with
          | some value =>
              exact keeps_pure hm' ((hm'.objects ho).2 _ value hfield)
          | none =>
              cases hmethod : o.cls.findMethod? name.lexeme with
              | none =>
                  exact .of_error hm' rfl
              | some method =>
                  exact keeps_boundMethod hm' ho (Class.mem_lineage_self _) hmethod
  | _ =>
      exact .of_error hm rfl

/-- Where an object stands under `this`, the class one frame further out under `super` is a
superclass of a class on its lineage: only frames of class bodies have `this`. -/
theorem Machine.Stands.this_super
    {frame d place : Nat}
    {scopes : List Address}
    {parent : Class}
    (h : m.Stands k frame scopes)
    (hbare : m.frames.lookup? frame "this" = none)
    (hsuper : m.frames.getAt? frame d "super" = some (.cls parent))
    (hthis : m.frames.getAt? frame (d - 1) "this" = some (.object place)) :
    ∃ o, m.objects[place]? = some o ∧ parent ∈ o.cls.lineage := by
  cases d with
  | zero =>
      -- `this` would be looked for in the current frame, too, and is not there.
      obtain ⟨target, htarget, hlookup⟩ := Frames.exists_of_getAt? hthis
      cases htarget
      rw [hbare] at hlookup
      cases hlookup
  | succ d =>
      obtain ⟨target, htarget, hlookup⟩ := Frames.exists_of_getAt? hthis
      obtain ⟨outer, houter, hlookup'⟩ := Frames.exists_of_getAt? hsuper
      rw [Frames.outward?_succ, show m.frames.outward? d frame = some target from htarget,
        Option.bind_some] at houter
      have hstands := h.of_outward? htarget
      cases hdrop : scopes.drop (d + 1 - 1) with
      | nil =>
          rw [hdrop] at hstands
          obtain ⟨-, -, -, hnone⟩ := hstands
          rw [hnone] at hlookup
          cases hlookup
      | cons scope rest =>
          rw [hdrop] at hstands
          obtain ⟨around, henclosing, -, hholds⟩ := hstands
          rw [henclosing] at houter
          cases houter
          unfold Machine.Holds at hholds
          split at hholds
          · obtain ⟨place', o, c, hthis', ho, hc, -, hsuper'⟩ := hholds
            rw [hlookup] at hthis'
            cases hthis'
            rw [hlookup'] at hsuper'
            obtain ⟨parent', hparent, hsame⟩ := Option.map_eq_some_iff.mp hsuper'.symm
            cases hsame
            exact ⟨o, ho, Class.lineage_subset _ _ hc (Class.mem_lineage_of_superclass hparent)⟩
          · rw [hholds] at hlookup
            cases hlookup

theorem keeps_superMethod
    {scopes : List Address}
    (hm : m.Proper k)
    (hstands : m.Stands k m.current scopes)
    (σ : Setting)
    (id : Nat)
    (keyword method : Token) :
    Keeps k outside (fun _ => superMethod σ id keyword method) m fun m' value =>
      value.Proper k m' := by
  unfold superMethod
  cases hget : σ.locals.get? id with
  | none =>
      exact .of_error hm rfl
  | some d =>
      refine (keeps_read hm fun m => m.frames.getAt? m.current d "super").bind ?_
      rintro m' found - - hm' ⟨rfl, rfl⟩
      split
      · rename_i parent hsuper
        refine (keeps_read hm' fun m => m.frames.getAt? m.current (d - 1) "this").bind ?_
        rintro m' found - - hm' ⟨rfl, rfl⟩
        split
        · rename_i place hthis
          obtain ⟨o, ho, hparent⟩ :=
            hstands.this_super (hm'.bare "this" not_ordinary_this) hsuper hthis
          cases hmethod : parent.findMethod? method.lexeme with
          | none =>
              exact .of_error hm' rfl
          | some found =>
              exact keeps_boundMethod hm' ho hparent hmethod
        · exact .of_error hm' rfl
      · exact .of_error hm' rfl

end Methods

section Calls

variable {k : Course}
variable {outside : RuntimeError}
variable {m : Machine}
variable {exec : Watcher → List Stmt → Run Flow}
variable {arguments : List Value}
variable (hnamed : k.program.Named)
variable (hexec : BodyKeeps k outside exec)

include hnamed hexec

omit hnamed hexec in
/-- A body that is run in its frame. -/
theorem keeps_within
    {r : Watcher → Run Flow}
    {frame : Nat}
    (hm : m.Proper k)
    (hr : Keeps k outside r { m with current := frame } fun m' flow => flow.Proper k m') :
    Keeps k outside (fun w => within frame (r w)) m fun m' flow => flow.Proper k m' := by
  refine hr.within hm ?_
  intro m' flow _ hflow
  cases flow with
  | normal =>
      trivial
  | returned value =>
      exact Value.Proper.mono hflow (.of_same rfl rfl)

/-- Calling a function.  What an initializer gives is the object under `this`. -/
theorem keeps_invoke
    {closure : Closure}
    (hm : m.Proper k)
    (hplaced : closure.Placed k m)
    (harguments : ∀ value ∈ arguments, value.Proper k m) :
    Keeps k outside (fun w => closure.invoke (exec w) arguments) m fun m' value =>
      value.Proper k m' ∧ (closure.isInitializer = true → ∀ place,
        m.frames.lookup? closure.frame "this" = some (.object place) → value = .object place) := by
  obtain ⟨a, sort, hfunction, hstands⟩ := hplaced
  have hparams : ∀ p ∈ closure.decl.params, Ordinary p.lexeme := by
    intro p hp
    obtain ⟨i, hparam, -⟩ := Part.exists_child hfunction
      (List.mem_append_left _ (List.mem_map_of_mem hp))
    exact hnamed hparam rfl
  have hbody : k.HasBody (a :: k.program.scopesAround a) closure.decl.body :=
    Course.hasBody_of_scope hfunction rfl fun s hs =>
      List.mem_append_right _ (List.mem_map_of_mem hs)
  refine (keeps_pushFrame hm closure.frame).bind ?_
  rintro m₁ frame honward₁ hcurrent₁ hm₁ ⟨rfl, rfl⟩
  have hstands₁ := hstands.push hfunction rfl
  refine (keeps_bindParams hm₁ hparams (fun v hv => (harguments v hv).mono honward₁)
    m.frames.size).bind ?_
  intro m₂ _ honward₂ hcurrent₂ hm₂ _
  have hstands₂ := hstands₁.mono honward₂
  have hinside : Machine.Proper k { m₂ with current := m.frames.size } := by
    refine hm₂.enter hstands₂.lt_size ?_
    intro name hname
    rw [honward₂.kept hstands₁.lt_size hname, Frames.lookup?_push,
      Frames.lookup?_of_size_le (Nat.le_refl _)]
  refine (keeps_within hm₂ (hexec hbody hinside (hstands₂.mono (.of_same rfl rfl)))).bind ?_
  intro m₃ flow honward₃ hcurrent₃ hm₃ hflow
  have honward := (honward₁.trans honward₂).trans honward₃
  split
  · refine (keeps_read hm₃ fun m => m.frames.getAt? closure.frame 0 "this").bind ?_
    rintro m₄ found - - hm₄ ⟨rfl, rfl⟩
    have hfound : m₄.frames.getAt? closure.frame 0 "this" =
        m₄.frames.lookup? closure.frame "this" := rfl
    rw [hfound]
    apply keeps_pure hm₄
    constructor
    · cases hlookup : m₄.frames.lookup? closure.frame "this" with
      | none =>
          trivial
      | some value =>
          exact hm₄.bound hlookup
    · -- No parameter and no statement of the body can have changed what stands under `this`.
      intro _ place hplace
      rw [honward.lookup_some not_ordinary_this hplace]
      rfl
  · rename_i hfunction
    cases flow with
    | returned value =>
        exact keeps_pure hm₃ ⟨hflow, fun h => absurd h hfunction⟩
    | normal =>
        exact keeps_pure hm₃ ⟨trivial, fun h => absurd h hfunction⟩

theorem keeps_instantiate
    {c : Class}
    (hm : m.Proper k)
    (hc : c.Proper k m)
    (harguments : ∀ value ∈ arguments, value.Proper k m) :
    Keeps k outside (fun w => c.instantiate (exec w) arguments) m fun m' value =>
      value.Proper k m' := by
  refine (keeps_newObject hm hc).bind ?_
  rintro m₁ place honward₁ hcurrent₁ hm₁ ⟨rfl, rfl⟩
  let o : Instance := ⟨c, []⟩
  have ho : (m.objects.push o)[m.objects.size]? = some o := by
    simp
  cases hinit : c.findMethod? initializerName with
  | none =>
      exact keeps_pure hm₁ ⟨o, ho⟩
  | some initializer =>
      obtain ⟨owner, howner, hlookup⟩ := Class.exists_of_findMethod? hinit
      refine (keeps_bind hm₁ ho howner hlookup).bind ?_
      rintro m₂ made honward₂ hcurrent₂ hm₂ ⟨hplaced, -⟩
      refine (keeps_invoke hnamed hexec hm₂ hplaced
        fun v hv => (harguments v hv).mono (honward₁.trans honward₂)).bind ?_
      intro m₃ _ honward₃ _ hm₃ _
      obtain ⟨o', ho', -⟩ := (honward₂.trans honward₃).objects ho
      exact keeps_pure hm₃ ⟨o', ho'⟩

theorem keeps_call
    {callee : Value}
    (hm : m.Proper k)
    (hcallee : callee.Proper k m)
    (harguments : ∀ value ∈ arguments, value.Proper k m)
    (σ : Setting)
    (paren : Token) :
    Keeps k outside (fun w => callee.call σ (exec w) paren arguments) m fun m' value =>
      value.Proper k m' := by
  unfold Value.call
  cases callee.arity? with
  | none =>
      exact .of_error hm rfl
  | some arity =>
      by_cases hlength : arguments.length = arity
      · simp only [hlength, if_true]
        cases callee with
        | native n =>
            exact keeps_same hm rfl rfl rfl rfl trivial
        | function identity closure =>
            exact (keeps_invoke hnamed hexec hm hcallee.1 harguments).weaken fun _ h => h.1
        | cls c =>
            exact keeps_instantiate hnamed hexec hm hcallee harguments
        | _ =>
            exact .of_error hm rfl
      · simp only [hlength, if_false]
        exact .of_error hm rfl

end Calls

section Classes

variable {k : Course}
variable {outside : RuntimeError}
variable {m : Machine}
variable {q : Address}
variable {name : Token}
variable {methods : List FunctionDecl}

/-- A class without a superclass, made where neither `this` nor `super` stand. -/
theorem Class.proper_plain
    {frame identity : Nat}
    (hstatement : k.program.at? q = some (.stmt (.classDecl name none methods)))
    (hstands : m.Stands k frame (k.program.scopesAround q))
    (hsuper : m.frames.lookup? frame "super" = none) :
    (Class.mk identity name.lexeme none (methodTable frame methods)).Proper k m := by
  intro owner howner
  obtain rfl := List.mem_singleton.mp howner
  refine ⟨q ++ [0], frame, .plain hstatement, ?_, hsuper⟩
  rw [Part.scopesAround, Part.enclosing_snoc hstatement]
  exact hstands

/-- A class with a superclass, made in a frame that has it under `super`. -/
theorem Class.proper_derived
    {superclass : Expr}
    {parent : Class}
    {m₀ : Machine}
    (hstatement : k.program.at? q = some (.stmt (.classDecl name (some superclass) methods)))
    (hseen : k.seen (.evaluated superclass (.cls parent)) m₀)
    (hparent : parent.Proper k m)
    (hstands : m.Stands k m₀.frames.size ((q ++ [1]) :: k.program.scopesAround q))
    (hsuper : m.frames.lookup? m₀.frames.size "super" = some (.cls parent)) :
    (Class.mk m₀.classCount name.lexeme (some parent)
      (methodTable m₀.frames.size methods)).Proper k m := by
  intro owner howner
  rcases List.mem_cons.mp howner with rfl | howner
  · refine ⟨q ++ [1, 0], m₀.frames.size, .derived hstatement hseen, ?_, hsuper⟩
    rw [Part.scopesAround_derivedBody hstatement]
    exact hstands
  · exact hparent owner howner

/-- Making a class, and binding its name to it. -/
theorem keeps_fillClass
    {superclass : Option Class}
    {table : List (String × Closure)}
    (hm : m.Proper k)
    (hname : Ordinary name.lexeme)
    (hclass : (Class.mk m.classCount name.lexeme superclass table).Proper k m) :
    Keeps k outside (fun _ => newClass name.lexeme superclass table >>= overwrite name) m
      fun _ _ => True := by
  refine (keeps_newClass hm hclass).bind ?_
  intro m' c _ _ hm' hc
  exact keeps_overwrite hm' hname hc

theorem keeps_declareClass_plain
    (hm : m.Proper k)
    (hnamed : k.program.Named)
    (hstatement : k.program.at? q = some (.stmt (.classDecl name none methods)))
    (hstands : m.Stands k m.current (k.program.scopesAround q)) :
    Keeps k outside (fun _ => declareClass name none methods) m fun _ _ => True := by
  have hname : Ordinary name.lexeme := hnamed hstatement rfl
  have hnil : Value.nil.Proper k m := trivial
  refine (keeps_define hm hname hnil).bind ?_
  intro m₁ _ honward₁ hcurrent₁ hm₁ _
  refine (keeps_read hm₁ Machine.current).bind ?_
  rintro m₁ outer - - hm₁ ⟨rfl, rfl⟩
  have hfill : Keeps k outside
      (fun _ => newClass name.lexeme none (methodTable m₁.current methods) >>= overwrite name) m₁
      fun _ _ => True :=
    keeps_fillClass hm₁ hname (Class.proper_plain hstatement
      (hstands.after honward₁ hcurrent₁) (hm₁.bare "super" not_ordinary_super))
  exact hfill.of_moved (fun _ => rfl) (.refl m₁) rfl

theorem keeps_declareClass_derived
    {superclass : Expr}
    {parent : Class}
    (hm : m.Proper k)
    (hnamed : k.program.Named)
    (hstatement : k.program.at? q = some (.stmt (.classDecl name (some superclass) methods)))
    (hstands : m.Stands k m.current (k.program.scopesAround q))
    (hparent : parent.Proper k m)
    (hseen : k.seen (.evaluated superclass (.cls parent)) m) :
    Keeps k outside (fun _ => declareClass name (some parent) methods) m fun _ _ => True := by
  have hname : Ordinary name.lexeme := hnamed hstatement rfl
  have hnil : Value.nil.Proper k m := trivial
  refine (keeps_define hm hname hnil).bind ?_
  intro m₁ _ honward₁ hcurrent₁ hm₁ heq
  -- Defining the name makes neither a frame nor a class, so that the numbers that the class gets are
  -- those of the machine on which its superclass was seen.
  have hsize : m₁.frames.size = m.frames.size := by
    rw [heq]
    exact Frames.size_define ..
  have hcount : m₁.classCount = m.classCount := by
    rw [heq]
  clear heq
  refine (keeps_read hm₁ Machine.current).bind ?_
  rintro m₁ outer - - hm₁ ⟨rfl, rfl⟩
  have hparent₁ : (Value.cls parent).Proper k m₁ := hparent.mono honward₁
  have honward₂ := Machine.Onward.pushWith m₁ m₁.current "super" (.cls parent)
  have hm₂ := hm₁.pushWith hparent₁ m₁.current "super"
  have hstands₂ := (hstands.after honward₁ hcurrent₁).pushSuper
    (Part.at?_inheritance hstatement) (.cls parent)
  have hsuper₂ : (m₁.frames.pushWith m₁.current "super" (.cls parent)).lookup? m₁.frames.size
      "super" = some (.cls parent) := by
    rw [Frames.lookup?_pushWith, if_pos ⟨rfl, rfl⟩]
  rw [hsize] at hstands₂ hsuper₂
  have hclass := Class.proper_derived hstatement hseen (hparent₁.mono honward₂) hstands₂ hsuper₂
  rw [← hsize, ← hcount] at hclass
  exact (keeps_fillClass hm₂ hname hclass).of_moved (fun _ => rfl) honward₂ rfl

end Classes

end Lox
