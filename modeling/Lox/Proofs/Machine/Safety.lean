import Lox.Proofs.Machine.SafeCalls

/-!
# Evaluation is safe

In a program without faults, an expression or statement that is evaluated where the frames cover
its scopes keeps the machine sound.  The proof is by induction on the fuel; each case follows the
walk of name resolution over the node.
-/

namespace Lox

open Run

section References

variable {visits : List Visit}
variable {locals : Locals}
variable {m : Machine}
variable {ctx : Context}
variable {scopes : Scopes}
variable {id : Nat}
variable {name : Token}

/-- A distance on file does not lead out of the open scopes. -/
theorem Locals.le_length
    {lexeme : String}
    {d : Nat}
    (hentry : locals.get? id = scopes.distance? lexeme)
    (hd : locals.get? id = some d) :
    d ≤ scopes.length := by
  rw [hentry] at hd
  exact Nat.le_of_lt (Scopes.distance?_lt hd)

/-- A variable with an entry is found at its distance. -/
theorem Visit.Good.var_found
    (hgood : Visit.Good locals ⟨ctx, scopes, .expr (.var id name)⟩)
    (hserves : m.Serves scopes (.var id name)) :
    ∀ d, locals.get? id = some d →
      ∃ value, m.frames.getAt? m.current d name.lexeme = some value := by
  obtain ⟨-, hget, hreadable⟩ := hgood.var
  intro d hd
  rw [hget] at hd
  have hread := hreadable d hd
  rcases hserves with hcovers | ⟨outer, cls, _, _, rfl, heq, hne, hcovers⟩
  · obtain ⟨value, -, -, -, hvalue⟩ := hcovers.getAt? hread
    exact ⟨value, hvalue⟩
  · cases heq
    obtain ⟨value, -, -, -, hvalue⟩ :=
      hcovers.getAt? (Scopes.readableAt_of_declare_define hne hread)
    exact ⟨value, hvalue⟩

/-- An assignment with an entry has a frame at its distance. -/
theorem Visit.Good.assign_found
    {value : Expr}
    (hgood : Visit.Good locals ⟨ctx, scopes, .expr (.assign id name value)⟩)
    (hcovers : m.frames.Covers m.current scopes) :
    ∀ d, locals.get? id = some d → ∃ target, m.frames.outward? d m.current = some target := by
  obtain ⟨-, hget⟩ := hgood.assign
  intro d hd
  obtain ⟨target, htarget, -⟩ := hcovers.outward? (Locals.le_length hget hd)
  exact ⟨target, htarget⟩

/-- Under `this` an object is found, at the distance of the entry. -/
theorem Visit.Good.this_found
    (hgood : Visit.Good locals ⟨ctx, scopes, .expr (.this id name)⟩)
    (hm : m.Sound visits)
    (hcovers : m.frames.Covers m.current scopes) :
    ∃ d place, locals.get? id = some d ∧ place < m.objects.size ∧
      m.frames.getAt? m.current d name.lexeme = some (.object place) := by
  obtain ⟨hlexeme, d, hget, -, hreadable⟩ := hgood.this
  obtain ⟨value, target, -, hlookup, hvalue⟩ := hcovers.getAt? hreadable
  obtain ⟨hsound, hsuits⟩ := hm.bound hlookup
  obtain ⟨place, rfl⟩ := hsuits.1 rfl
  refine ⟨d, place, hget, hsound, ?_⟩
  rw [hlexeme]
  exact hvalue

/-- Under `super` a class is found at the distance of the entry, and one frame nearer an object
under `this`. -/
theorem Visit.Good.super_found
    {method : Token}
    (hgood : Visit.Good locals ⟨ctx, scopes, .expr (.super id name method)⟩)
    (hm : m.Sound visits)
    (hcovers : m.frames.Covers m.current scopes) :
    ∃ d parent place, locals.get? id = some (d + 1) ∧
      m.frames.getAt? m.current (d + 1) "super" = some (.cls parent) ∧
      m.frames.getAt? m.current d "this" = some (.object place) ∧
      parent.Sound visits m.frames ∧ place < m.objects.size := by
  obtain ⟨-, d, hget, hsuper, hthis⟩ := hgood.super
  obtain ⟨cls, _, -, hlookup, hcls⟩ := hcovers.getAt? hsuper
  obtain ⟨object, _, -, hlookup', hobject⟩ := hcovers.getAt? hthis
  obtain ⟨hsound, hsuits⟩ := hm.bound hlookup
  obtain ⟨hsound', hsuits'⟩ := hm.bound hlookup'
  obtain ⟨parent, rfl⟩ := hsuits.2 rfl
  obtain ⟨place, rfl⟩ := hsuits'.1 rfl
  exact ⟨d, parent, place, hget, hcls, hobject, hsound, hsound'⟩

end References

/-- A number, a text or a truth value. -/
def Value.Plain : Value → Prop
  | .number _ | .string _ | .bool _ => True
  | _ => False

theorem Value.Plain.sound
    {visits : List Visit}
    {m : Machine}
    {value : Value}
    (h : value.Plain) :
    value.Sound visits m := by
  cases value with
  | number _ =>
      trivial
  | string _ =>
      trivial
  | bool _ =>
      trivial
  | _ =>
      exact h.elim

namespace Operator

/-- Operators make no functions, classes or objects. -/
theorem unary_plain
    {operator : Token}
    {right value : Value}
    (h : unary operator right = .ok value) :
    value.Plain := by
  unfold unary at h
  split at h <;> cases h <;> trivial

theorem binary_plain
    {objects : Array Instance}
    {operator : Token}
    {left right value : Value}
    (h : binary objects operator left right = .ok value) :
    value.Plain := by
  unfold binary at h
  split at h
  · unfold add at h
    split at h <;> cases h <;> trivial
  · cases h
    trivial
  · cases h
    trivial
  · split at h
    · split at h
      · rename_i value' harithmetic
        cases h
        unfold arithmetic? at harithmetic
        split at harithmetic <;> cases harithmetic <;> trivial
      · cases h
    · cases h

theorem unary_ne_undefined
    (operator : Token)
    (right : Value)
    (name : String) :
    unary operator right ≠ .error (.undefinedVariable name) := by
  unfold unary
  split <;> simp

theorem binary_ne_undefined
    (objects : Array Instance)
    (operator : Token)
    (left right : Value)
    (name : String) :
    binary objects operator left right ≠ .error (.undefinedVariable name) := by
  unfold binary
  split
  · unfold add
    split <;> simp
  · simp
  · simp
  · split
    · split <;> simp
    · simp

end Operator

section Lists

variable {visits : List Visit}
variable {locals : Locals}
variable {m : Machine}
variable {ctx : Context}
variable {scopes : Scopes}

theorem safe_evalAll
    {eval : Expr → Run Value}
    {es : List Expr}
    (heval : EvalSafe visits locals eval)
    (hvisits : ∀ v ∈ Expr.visitsAll ctx scopes es, v ∈ visits)
    (hm : m.Sound visits)
    (hcovers : m.frames.Covers m.current scopes) :
    Safe visits locals (evalAll eval es) m fun m' values =>
      ∀ value ∈ values, value.Sound visits m' := by
  induction es generalizing m with
  | nil =>
      exact safe_pure hm (by simp)
  | cons e rest ih =>
      refine (heval (fun v hv => hvisits v (List.mem_append_left _ hv)) hm (.inl hcovers)).bind ?_
      intro m₁ value hlater₁ hm₁ hvalue
      refine (ih (fun v hv => hvisits v (List.mem_append_right _ hv)) hm₁
        (hlater₁.covers hcovers)).bind ?_
      intro m₂ values hlater₂ hm₂ hvalues
      refine safe_pure hm₂ ?_
      intro v hv
      rcases List.mem_cons.mp hv with rfl | hv
      · exact hvalue.mono hlater₂.frames hlater₂.objects
      · exact hvalues v hv

theorem safe_execAll
    {exec : Stmt → Run Flow}
    (hexec : ExecSafe visits locals exec) :
    BodySafe visits locals (execAll exec) := by
  intro ctx scopes body m hvisits hm hcovers
  induction body generalizing m scopes with
  | nil =>
      exact safe_pure hm hcovers
  | cons s rest ih =>
      refine (hexec (fun v hv => hvisits v (List.mem_append_left _ hv)) hm hcovers).bind ?_
      intro m₁ flow hlater₁ hm₁ hflow
      cases flow with
      | normal =>
          exact ih (fun v hv => hvisits v (List.mem_append_right _ hv)) hm₁ hflow
      | returned value =>
          exact safe_pure hm₁ hflow

/-- Each round of a loop starts with the same scopes covered. -/
theorem safe_repeatWhile
    {condition : Run Value}
    {body : Run Flow}
    (hcondition : ∀ {m : Machine}, m.Sound visits → m.frames.Covers m.current scopes →
      Safe visits locals condition m fun m' value => value.Sound visits m')
    (hbody : ∀ {m : Machine}, m.Sound visits → m.frames.Covers m.current scopes →
      Safe visits locals body m fun m' flow => flow.Settles visits scopes m')
    (count : Nat)
    (hm : m.Sound visits)
    (hcovers : m.frames.Covers m.current scopes) :
    Safe visits locals (repeatWhile condition body count) m fun m' flow =>
      flow.Settles visits scopes m' := by
  induction count generalizing m with
  | zero =>
      exact safe_outOfFuel
  | succ count ih =>
      refine (hcondition hm hcovers).bind ?_
      intro m₁ value hlater₁ hm₁ _
      have hcovers₁ := hlater₁.covers hcovers
      split
      · refine (hbody hm₁ hcovers₁).bind ?_
        intro m₂ flow hlater₂ hm₂ hflow
        cases flow with
        | normal =>
            exact ih hm₂ hflow
        | returned value =>
            exact safe_pure hm₂ hflow
      · exact safe_pure hm₁ hcovers₁

end Lists

section Induction

variable {visits : List Visit}
variable {σ : Setting}
variable (hgood : ∀ v ∈ visits, v.Good σ.locals)

theorem safe_check
    {m : Machine}
    {found : Token}
    {outcome : Except RuntimeFault Value}
    (hm : m.Sound visits)
    (hvalue : ∀ value, outcome = .ok value → value.Sound visits m)
    (hfault : ∀ name, outcome ≠ .error (.undefinedVariable name)) :
    Safe visits σ.locals (check found outcome) m fun m' value => value.Sound visits m' := by
  cases outcome with
  | ok value =>
      exact safe_pure hm (hvalue value rfl)
  | error fault =>
      exact safe_fail fun name hname => hfault name (by rw [hname])

include hgood

/-- Evaluation is safe if it is safe for parts and bodies. -/
theorem safe_evalStep
    {eval : Expr → Run Value}
    {exec : List Stmt → Run Flow}
    (heval : EvalSafe visits σ.locals eval)
    (hexec : BodySafe visits σ.locals exec) :
    EvalSafe visits σ.locals (evalStep σ eval exec) := by
  intro ctx scopes e m hvisits hm hserves
  cases e with
  | literal value =>
      refine safe_pure hm ?_
      cases value <;> trivial
  | grouping inner =>
      have hcovers := hserves.covers (by simp)
      exact heval (fun v hv => hvisits v (List.mem_append_left _ hv)) hm (.inl hcovers)
  | unary operator right =>
      have hcovers := hserves.covers (by simp)
      refine (heval (fun v hv => hvisits v (List.mem_append_left _ hv)) hm (.inl hcovers)).bind ?_
      intro m₁ value hlater₁ hm₁ hvalue
      refine safe_check hm₁ ?_ ?_
      · intro result hresult
        exact (Operator.unary_plain hresult).sound
      · exact Operator.unary_ne_undefined operator value
  | binary left operator right =>
      have hcovers := hserves.covers (by simp)
      refine (heval (fun v hv => hvisits v (List.mem_append_left _ hv)) hm (.inl hcovers)).bind ?_
      intro m₁ a hlater₁ hm₁ ha
      refine (heval (fun v hv => hvisits v (List.mem_append_right _ (List.mem_append_left _ hv)))
        hm₁ (.inl (hlater₁.covers hcovers))).bind ?_
      intro m₂ b hlater₂ hm₂ hb
      refine (safe_read hm₂ _).bind ?_
      rintro m₃ objects - hm₃ ⟨rfl, rfl⟩
      refine safe_check hm₃ ?_ ?_
      · intro result hresult
        exact (Operator.binary_plain hresult).sound
      · exact Operator.binary_ne_undefined _ operator a b
  | logical left operator right =>
      have hcovers := hserves.covers (by simp)
      refine (heval (fun v hv => hvisits v (List.mem_append_left _ hv)) hm (.inl hcovers)).bind ?_
      intro m₁ a hlater₁ hm₁ ha
      split
      · exact safe_pure hm₁ ha
      · exact heval (fun v hv => hvisits v (List.mem_append_right _ (List.mem_append_left _ hv)))
          hm₁ (.inl (hlater₁.covers hcovers))
  | var id name =>
      have hv := hvisits _ List.mem_cons_self
      have hnode := hgood _ hv
      exact safe_readVariable hm (fun _ => ⟨hnode.var.1, _, hv, rfl⟩) (hnode.var_found hserves)
  | assign id name value =>
      have hcovers := hserves.covers (by simp)
      have hv := hvisits _ (List.mem_append_right _ List.mem_cons_self)
      have hnode := hgood _ hv
      refine (heval (fun v hv => hvisits v (List.mem_append_left _ hv)) hm (.inl hcovers)).bind ?_
      intro m₁ value hlater₁ hm₁ hvalue
      refine (safe_writeVariable hm₁ hvalue hnode.assign.1 ⟨_, hv, _, rfl⟩
        (hnode.assign_found (hlater₁.covers hcovers))).bind ?_
      intro m₂ _ hlater₂ hm₂ _
      exact safe_pure hm₂ (hvalue.mono hlater₂.frames hlater₂.objects)
  | call callee paren arguments =>
      have hcovers := hserves.covers (by simp)
      refine (heval (fun v hv => hvisits v (List.mem_append_left _ hv)) hm (.inl hcovers)).bind ?_
      intro m₁ f hlater₁ hm₁ hf
      refine (safe_evalAll heval
        (fun v hv => hvisits v (List.mem_append_right _ (List.mem_append_left _ hv))) hm₁
        (hlater₁.covers hcovers)).bind ?_
      intro m₂ values hlater₂ hm₂ hvalues
      exact safe_call hgood hexec hm₂ (hf.mono hlater₂.frames hlater₂.objects)
        hvalues
  | get object name =>
      have hcovers := hserves.covers (by simp)
      refine (heval (fun v hv => hvisits v (List.mem_append_left _ hv)) hm (.inl hcovers)).bind ?_
      intro m₁ o hlater₁ hm₁ ho
      exact safe_property hm₁ ho
  | set object name value =>
      have hcovers := hserves.covers (by simp)
      refine (heval (fun v hv => hvisits v (List.mem_append_right _ (List.mem_append_left _ hv)))
        hm (.inl hcovers)).bind ?_
      intro m₁ o hlater₁ hm₁ ho
      cases o with
      | object place =>
          refine (heval (fun v hv => hvisits v (List.mem_append_left _ hv)) hm₁
            (.inl (hlater₁.covers hcovers))).bind ?_
          intro m₂ v hlater₂ hm₂ hv
          refine (safe_setField hm₂ hv).bind ?_
          intro m₃ _ hlater₃ hm₃ _
          exact safe_pure hm₃ (hv.mono hlater₃.frames hlater₃.objects)
      | _ =>
          exact safe_fail (by simp)
  | this id keyword =>
      have hcovers := hserves.covers (by simp)
      have hnode := hgood _ (hvisits _ List.mem_cons_self)
      obtain ⟨d, place, hget, -, hfound⟩ := hnode.this_found hm hcovers
      refine safe_readVariable hm (by simp [hget]) ?_
      intro d' hd'
      rw [hget] at hd'
      cases hd'
      exact ⟨_, hfound⟩
  | super id keyword method =>
      have hcovers := hserves.covers (by simp)
      have hnode := hgood _ (hvisits _ List.mem_cons_self)
      obtain ⟨d, parent, place, hget, hsuper, hthis, hparent, hplace⟩ :=
        hnode.super_found hm hcovers
      exact safe_superMethod hm hget hsuper hthis hparent hplace

omit hgood

/-- A function is sound only once its name is bound: its body can refer to it. -/
theorem safe_declareFunction
    {m : Machine}
    {ctx : Context}
    {scopes : Scopes}
    {decl : FunctionDecl}
    {eval : Expr → Run Value}
    {exec : Stmt → Run Flow}
    {rounds : Nat}
    (hm : m.Sound visits)
    (hname : Ordinary decl.name.lexeme)
    (hcovers : m.frames.Covers m.current scopes)
    (hvisits : ∀ v ∈ Stmt.visitsFunction ctx
      ((scopes.declare decl.name).define decl.name) decl, v ∈ visits) :
    Safe visits σ.locals (execStep eval exec rounds (.function decl)) m fun m' flow =>
      flow.Settles visits ((scopes.declare decl.name).define decl.name) m' := by
  let value : Value := .function m.functionCount ⟨decl, m.current, false⟩
  have hcovers' : (m.frames.define m.current decl.name.lexeme value).Covers m.current
      ((scopes.declare decl.name).define decl.name) :=
    hcovers.declare_define decl.name value
  have hvalue : value.Sound visits
      { m with frames := m.frames.define m.current decl.name.lexeme value } :=
    ⟨ctx, _, hcovers', hvisits⟩
  have hbound := hm.define_after hvalue (Value.suits_of_ordinary hname value)
  exact .of_ok rfl ⟨.define .., Nat.le_refl _, rfl⟩ (hbound.of_same rfl rfl) hcovers'

include hgood

/-- Execution is safe if it is safe for parts. -/
theorem safe_execStep
    {eval : Expr → Run Value}
    {exec : Stmt → Run Flow}
    (heval : EvalSafe visits σ.locals eval)
    (hexec : ExecSafe visits σ.locals exec)
    (rounds : Nat) :
    ExecSafe visits σ.locals (execStep eval exec rounds) := by
  intro ctx scopes s m hvisits hm hcovers
  cases s with
  | expression e =>
      refine (heval (fun v hv => hvisits v (List.mem_cons_of_mem _ hv)) hm (.inl hcovers)).bind ?_
      intro m₁ _ hlater₁ hm₁ _
      exact safe_pure hm₁ (hlater₁.covers hcovers)
  | print e =>
      refine (heval (fun v hv => hvisits v (List.mem_cons_of_mem _ hv)) hm (.inl hcovers)).bind ?_
      intro m₁ value hlater₁ hm₁ _
      refine (safe_read hm₁ _).bind ?_
      rintro m₂ objects - hm₂ ⟨rfl, rfl⟩
      refine (safe_print hm₂ _).bind ?_
      intro m₃ _ hlater₃ hm₃ _
      exact safe_pure hm₃ ((hlater₁.trans hlater₃).covers hcovers)
  | var name initializer =>
      have hname := (hgood _ (hvisits _ List.mem_cons_self)).varDecl.1
      cases initializer with
      | none =>
          have hnil : Value.nil.Sound visits m := trivial
          refine (safe_define hm hnil (Value.suits_of_ordinary hname _)).bind ?_
          intro m₁ _ hlater₁ hm₁ hframes₁
          refine safe_pure hm₁ ?_
          simp only [Flow.Settles, Stmt.resolve, hframes₁, hlater₁.current]
          exact hcovers.declare_define name .nil
      | some e =>
          refine (heval (fun v hv => hvisits v (List.mem_cons_of_mem _ hv)) hm
            (.inl (hcovers.declare name))).bind ?_
          intro m₁ value hlater₁ hm₁ hvalue
          refine (safe_define hm₁ hvalue (Value.suits_of_ordinary hname _)).bind ?_
          intro m₂ _ hlater₂ hm₂ hframes₂
          refine safe_pure hm₂ ?_
          simp only [Flow.Settles, Stmt.resolve, hframes₂, hlater₂.current]
          exact (hlater₁.covers hcovers).declare_define name value
  | block body =>
      refine (safe_read hm _).bind ?_
      rintro m₁ outer - hm₁ ⟨rfl, rfl⟩
      refine (safe_pushFrame hm₁ m₁.current).bind ?_
      rintro m₂ frame hlater₂ hm₂ ⟨rfl, hframes₂⟩
      have hinside : Machine.Sound visits { m₂ with current := m₁.frames.size } :=
        hm₂.of_same rfl rfl
      have hcovers₂ : m₂.frames.Covers m₁.frames.size ([] :: scopes) := by
        rw [hframes₂]
        exact hcovers.push hm₁.rooted
      refine (safe_execAll hexec (fun v hv => hvisits v (List.mem_cons_of_mem _ hv)) hinside
        hcovers₂).within ?_
      intro m₃ flow hext hflow
      cases flow with
      | normal =>
          exact (hlater₂.covers hcovers).mono hext
      | returned value =>
          exact hflow.mono (.refl _) (Nat.le_refl _)
  | ifThen condition thenBranch =>
      obtain ⟨-, hbranch, hshaped⟩ := (hgood _ (hvisits _ List.mem_cons_self)).shaped
      have hscopes := Stmt.resolve_branch ctx scopes thenBranch hshaped hbranch
      refine (heval (fun v hv => hvisits v (List.mem_cons_of_mem _ (List.mem_append_left _ hv)))
        hm (.inl hcovers)).bind ?_
      intro m₁ value hlater₁ hm₁ _
      have hcovers₁ := hlater₁.covers hcovers
      split
      · exact hexec (fun v hv => hvisits v (List.mem_cons_of_mem _ (List.mem_append_right _ hv)))
          hm₁ hcovers₁
      · refine safe_pure hm₁ ?_
        simp only [Flow.Settles, Stmt.resolve, hscopes]
        exact hcovers₁
  | ifElse condition thenBranch elseBranch =>
      obtain ⟨-, hbranch, hshaped, hbranch', hshaped'⟩ :=
        (hgood _ (hvisits _ List.mem_cons_self)).shaped
      have hscopes := Stmt.resolve_branch ctx scopes thenBranch hshaped hbranch
      have hscopes' := Stmt.resolve_branch ctx scopes elseBranch hshaped' hbranch'
      simp only [Stmt.visits, hscopes] at hvisits
      refine (heval (fun v hv => hvisits v (List.mem_cons_of_mem _ (List.mem_append_left _ hv)))
        hm (.inl hcovers)).bind ?_
      intro m₁ value hlater₁ hm₁ _
      have hcovers₁ := hlater₁.covers hcovers
      simp only [Stmt.resolve, hscopes]
      split
      · have hthen := hexec (fun v hv => hvisits v (List.mem_cons_of_mem _
          (List.mem_append_right _ (List.mem_append_left _ hv)))) hm₁ hcovers₁
        rw [hscopes] at hthen
        rw [hscopes']
        exact hthen
      · exact hexec (fun v hv => hvisits v (List.mem_cons_of_mem _
          (List.mem_append_right _ (List.mem_append_right _ hv)))) hm₁ hcovers₁
  | loop condition body =>
      obtain ⟨-, hbranch, hshaped⟩ := (hgood _ (hvisits _ List.mem_cons_self)).shaped
      have hscopes := Stmt.resolve_branch ctx scopes body hshaped hbranch
      simp only [Stmt.resolve, hscopes]
      refine safe_repeatWhile ?_ ?_ rounds hm hcovers
      · intro m' hm' hcovers'
        exact heval (fun v hv => hvisits v (List.mem_cons_of_mem _ (List.mem_append_left _ hv)))
          hm' (.inl hcovers')
      · intro m' hm' hcovers'
        have hbody := hexec (fun v hv => hvisits v (List.mem_cons_of_mem _
          (List.mem_append_right _ hv))) hm' hcovers'
        rw [hscopes] at hbody
        exact hbody
  | function decl =>
      have hname := (hgood _ (hvisits _ List.mem_cons_self)).function.1
      exact safe_declareFunction hm hname hcovers
        fun v hv => hvisits v (List.mem_cons_of_mem _ hv)
  | ret keyword value =>
      cases value with
      | none =>
          exact safe_pure hm trivial
      | some e =>
          refine (heval (fun v hv => hvisits v (List.mem_cons_of_mem _ hv)) hm (.inl hcovers)).bind ?_
          intro m₁ value hlater₁ hm₁ hvalue
          exact safe_pure hm₁ hvalue
  | classDecl name superclass methods =>
      cases superclass with
      | none =>
          have hname := (hgood _ (hvisits _ List.mem_cons_self)).classDecl.1
          refine (safe_declareClass hm hname (by simp) hcovers
            fun v hv => hvisits v (List.mem_cons_of_mem _ hv)).bind ?_
          intro m₁ _ hlater₁ hm₁ hcovers₁
          exact safe_pure hm₁ hcovers₁
      | some superclass =>
          have hname := (hgood _ (hvisits _ List.mem_cons_self)).classDecl.1
          obtain ⟨id, parent, hvar, hne⟩ := (hgood _ (hvisits _ List.mem_cons_self)).superclass
          refine (heval (fun v hv => hvisits v (List.mem_cons_of_mem _ (List.mem_append_left _ hv)))
            hm (.inr ⟨scopes, name, id, parent, rfl, hvar, hne, hcovers⟩)).bind ?_
          intro m₁ value hlater₁ hm₁ hvalue
          cases value with
          | cls parent =>
              refine (safe_declareClass hm₁ hname ?_ (hlater₁.covers hcovers)
                fun v hv => hvisits v (List.mem_cons_of_mem _ (List.mem_append_right _ hv))).bind ?_
              · intro other hother
                cases hother
                exact hvalue
              · intro m₂ _ hlater₂ hm₂ hcovers₂
                exact safe_pure hm₂ hcovers₂
          | _ =>
              exact safe_fail (by simp)

/-- Evaluation and execution are safe, with any amount of fuel. -/
theorem eval_exec_safe :
    ∀ fuel, EvalSafe visits σ.locals (eval σ fuel) ∧ ExecSafe visits σ.locals (exec σ fuel) := by
  intro fuel
  induction fuel with
  | zero =>
      exact ⟨fun _ _ _ _ _ _ _ => safe_outOfFuel, fun _ _ _ _ _ _ _ => safe_outOfFuel⟩
  | succ fuel ih =>
      exact ⟨safe_evalStep hgood ih.1 (safe_execAll ih.2), safe_execStep hgood ih.1 ih.2 fuel⟩

end Induction

end Lox
