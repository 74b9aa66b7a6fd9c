import Lox.Proofs.Loop.Folded
import Lox.Proofs.Machine.Safe

/-!
# The same steps without the additional frames

Two runs are folded if, started on folded machines, both end with the same result or the same error,
and the machines are folded again.  The frames that there were keep what stands for them.  Shown here
for the steps that programs are made of: variables, calls, objects and classes.
-/

namespace Lox

/-- Two runs that end alike on machines that stay folded: both with results as wanted, or both with
the same error. -/
inductive Run.Folds (L : Tables) (φ : Folding) (p : Gap) {α : Type} (r r' : Run α)
    (m m' : Machine) (post : Folding → α → α → Prop) : Prop where
  | ok {ψ : Folding} {a a' : α} {m₁ m₁' : Machine} (hrun : r m = (.ok a, m₁))
      (hrun' : r' m' = (.ok a', m₁')) (hgrows : φ.Grows ψ) (hm : Machine.FoldsAt L ψ p m₁ m₁')
      (hpost : post ψ a a')
  | error {ψ : Folding} {stop : Stop} {m₁ m₁' : Machine} (hrun : r m = (.error stop, m₁))
      (hrun' : r' m' = (.error stop, m₁')) (hgrows : φ.Grows ψ)
      (hm : Machine.FoldsAt L ψ p m₁ m₁')

/-- An expression and its copy. -/
def EvalFolds (L : Tables) (eval eval' : Expr → Run Value) : Prop :=
  ∀ ⦃n e φ p m m'⦄, Expr.Lowers L n p e → Machine.FoldsAt L φ p m m' →
    Run.Folds L φ p (eval e) (eval' (e.shifted n)) m m' (Value.Folds L)

/-- A statement and its copy. -/
def ExecFolds (L : Tables) (exec exec' : Stmt → Run Flow) : Prop :=
  ∀ ⦃n s φ p m m'⦄, Stmt.Lowers L n p s → Machine.FoldsAt L φ p m m' →
    Run.Folds L φ p (exec s) (exec' (s.shifted n)) m m' (Flow.Folds L)

/-- A list of statements and its copy. -/
def BodyFolds (L : Tables) (exec exec' : List Stmt → Run Flow) : Prop :=
  ∀ ⦃n body φ p m m'⦄, Stmt.LowersAll L n p body → Machine.FoldsAt L φ p m m' →
    Run.Folds L φ p (exec body) (exec' (Stmt.shiftedAll n body)) m m' (Flow.Folds L)

namespace Run

variable {L : Tables}
variable {φ ψ : Folding}
variable {p : Gap}
variable {m m' : Machine}
variable {α β : Type}

namespace Folds

variable {r r' : Run α}
variable {post : Folding → α → α → Prop}

/-- Runs that go on elsewhere. -/
theorem of_moved
    {q q' : Run α}
    {m₁ m₁' : Machine}
    (hrun : r m = q m₁)
    (hrun' : r' m' = q' m₁')
    (hgrows : φ.Grows ψ)
    (h : Folds L ψ p q q' m₁ m₁' post) :
    Folds L φ p r r' m m' post := by
  cases h with
  | ok hnext hnext' hgrows' hm hpost =>
      exact .ok (hrun.trans hnext) (hrun'.trans hnext') (hgrows.trans hgrows') hm hpost
  | error hnext hnext' hgrows' hm =>
      exact .error (hrun.trans hnext) (hrun'.trans hnext') (hgrows.trans hgrows') hm

theorem bind
    {f f' : α → Run β}
    {post' : Folding → β → β → Prop}
    (hr : Folds L φ p r r' m m' post)
    (hf : ∀ {ψ m₁ m₁' a a'}, φ.Grows ψ → Machine.FoldsAt L ψ p m₁ m₁' → post ψ a a' →
      Folds L ψ p (f a) (f' a') m₁ m₁' post') :
    Folds L φ p (r >>= f) (r' >>= f') m m' post' := by
  cases hr with
  | ok hrun hrun' hgrows hm hpost =>
      exact .of_moved (bind_of_ok hrun f) (bind_of_ok hrun' f') hgrows (hf hgrows hm hpost)
  | error hrun hrun' hgrows hm =>
      exact .error (bind_of_error hrun f) (bind_of_error hrun' f') hgrows hm

/-- Runs that first read off their machine. -/
theorem read
    {f f' : Machine → β}
    {k k' : β → Run α}
    (h : Folds L φ p (k (f m)) (k' (f' m')) m m' post) :
    Folds L φ p (Run.read f >>= k) (Run.read f' >>= k') m m' post := by
  cases h with
  | ok hrun hrun' hgrows hm hpost =>
      exact .ok hrun hrun' hgrows hm hpost
  | error hrun hrun' hgrows hm =>
      exact .error hrun hrun' hgrows hm

/-- Runs inside frames that stand for each other. -/
theorem within
    {frame frame' : Nat}
    {q : Gap}
    (hm : Machine.FoldsAt L φ p m m')
    (hr : Folds L φ q r r' { m with current := frame } { m' with current := frame' } post) :
    Folds L φ p (Run.within frame r) (Run.within frame' r') m m' post := by
  cases hr with
  | ok hrun hrun' hgrows hm₁ hpost =>
      exact .ok (within_apply hrun) (within_apply hrun') hgrows
        ⟨{ hm₁.folds with }, hgrows hm.current⟩ hpost
  | error hrun hrun' hgrows hm₁ =>
      exact .error (within_apply hrun) (within_apply hrun') hgrows
        ⟨{ hm₁.folds with }, hgrows hm.current⟩

end Folds

section Primitives

variable (hm : Machine.FoldsAt L φ p m m')

include hm

theorem folds_pure
    {post : Folding → α → α → Prop}
    {a a' : α}
    (hpost : post φ a a') :
    Folds L φ p (pure a) (pure a') m m' post :=
  .ok rfl rfl (.refl φ) hm hpost

theorem folds_outOfFuel
    {post : Folding → α → α → Prop} :
    Folds L φ p outOfFuel outOfFuel m m' post :=
  .error rfl rfl (.refl φ) hm

theorem folds_stop
    {post : Folding → α → α → Prop}
    (error : RuntimeError) :
    Folds L φ p (stop error) (stop error) m m' post :=
  .error rfl rfl (.refl φ) hm

theorem folds_check
    {outcome : Except RuntimeFault Value}
    (found : Token)
    (hplain : ∀ value, outcome = .ok value → value.Plain) :
    Folds L φ p (check found outcome) (check found outcome) m m' (Value.Folds L) := by
  cases outcome with
  | ok value =>
      exact folds_pure hm (hplain value rfl).folds
  | error fault =>
      exact folds_stop hm _

theorem folds_print (line : String) :
    Folds L φ p (print line) (print line) m m' fun _ _ _ => True := by
  refine .ok rfl rfl (.refl φ) ⟨{ hm.folds with output := ?_ }, hm.current⟩ trivial
  simp only [hm.folds.output]

theorem folds_readClock (old new : Locals) (clock : Nat → Float) :
    Folds L φ p (readClock ⟨old, clock⟩) (readClock ⟨new, clock⟩) m m' (Value.Folds L) := by
  refine .ok rfl rfl (.refl φ) ⟨{ hm.folds with readings := ?_ }, hm.current⟩ ?_
  · simp only [hm.folds.readings]
  · rw [hm.folds.readings]
    exact .number _

theorem folds_defineIn
    {frame frame' : Nat}
    {q : Gap}
    {value value' : Value}
    (hframe : φ frame = some (frame', Gap.inner q))
    (hvalue : Value.Folds L φ value value')
    (name : String) :
    Folds L φ p (defineIn frame name value) (defineIn frame' name value') m m'
      fun _ _ _ => True :=
  .ok rfl rfl (.refl φ) ⟨hm.folds.define hframe hvalue name, hm.current⟩ trivial

theorem folds_define
    {value value' : Value}
    (hp : p ≠ some 0)
    (hvalue : Value.Folds L φ value value')
    (name : String) :
    Folds L φ p (define name value) (define name value') m m' fun _ _ _ => True := by
  obtain ⟨q, rfl⟩ := Gap.exists_inner hp
  have hrun (value : Value) (m : Machine) :
      define name value m = defineIn m.current name value m := rfl
  exact .of_moved (hrun _ _) (hrun _ _) (.refl φ) (folds_defineIn hm hm.current hvalue name)

theorem folds_pushFrame
    {outer outer' : Nat}
    {q : Gap}
    (houter : φ outer = some (outer', q)) :
    Folds L φ p (pushFrame outer) (pushFrame outer') m m' fun ψ frame frame' =>
      ψ frame = some (frame', q.inner) := by
  have hgrows := hm.folds.frames.grows_push (m'.frames.size, q.inner)
  exact .ok rfl rfl hgrows ⟨hm.folds.push houter, hgrows hm.current⟩ (Folding.push_self _ _ _)

theorem folds_newFunction
    {closure closure' : Closure}
    (hclosure : Closure.Folds L φ id closure closure') :
    Folds L φ p (newFunction closure) (newFunction closure') m m' (Value.Folds L) := by
  refine .ok rfl rfl (.refl φ) ⟨{ hm.folds with functionCount := ?_ }, hm.current⟩ ?_
  · simp only [hm.folds.functionCount]
  · rw [hm.folds.functionCount]
    exact .function _ hclosure

theorem folds_newObject
    {c c' : Class}
    (hclass : Class.Folds L φ c c') :
    Folds L φ p (newObject c) (newObject c') m m' fun _ place place' => place' = place :=
  .ok rfl rfl (.refl φ) ⟨hm.folds.newObject hclass, hm.current⟩ hm.folds.count

theorem folds_setField
    {value value' : Value}
    (place : Nat)
    (name : String)
    (hvalue : Value.Folds L φ value value') :
    Folds L φ p (setField place name value) (setField place name value') m m'
      fun _ _ _ => True :=
  .ok rfl rfl (.refl φ) ⟨hm.folds.setField place name hvalue, hm.current⟩ trivial

end Primitives

section Variables

variable {n id : Nat}
variable {clock : Nat → Float}
variable (hm : Machine.FoldsAt L φ p m m')

include hm

/-- Values that are found or missing on both machines. -/
theorem folds_found
    {r r' : Run Value}
    {found found' : Option Value}
    (name : Token)
    (hrun : r m = match found with
      | some value => (.ok value, m)
      | none => (.error (.fault (.undefined name)), m))
    (hrun' : r' m' = match found' with
      | some value => (.ok value, m')
      | none => (.error (.fault (.undefined name)), m'))
    (hfound : Option.Rel (Value.Folds L φ) found found') :
    Folds L φ p r r' m m' (Value.Folds L) := by
  cases hfound with
  | some hvalue =>
      exact .ok hrun hrun' (.refl φ) hm hvalue
  | none =>
      exact .error hrun hrun' (.refl φ) hm

variable (hreads : L.Reads n p id)

include hreads

theorem folds_readVariable (name : Token) :
    Folds L φ p (readVariable ⟨L.old, clock⟩ id name) (readVariable ⟨L.new, clock⟩ (id + n) name)
      m m' (Value.Folds L) := by
  have hlowered := hreads.lowered
  cases hget : L.old.get? id with
  | none =>
      rw [hget, Option.map_none] at hlowered
      have hfound := hm.folds.frames.globals hm.folds.globals hm.folds.outermost name.lexeme
      have hread := readVariable_of_unfiled (σ := ⟨L.old, clock⟩) hget name m
      have hread' := readVariable_of_unfiled (σ := ⟨L.new, clock⟩) hlowered name m'
      exact folds_found hm name hread hread' hfound.2
  | some d =>
      rw [hget, Option.map_some] at hlowered
      have hfound := hm.folds.frames.getAt? hm.current (hreads.ne_gap hget) name.lexeme
      have hread := readVariable_of_filed (σ := ⟨L.old, clock⟩) hget name m
      have hread' := readVariable_of_filed (σ := ⟨L.new, clock⟩) hlowered name m'
      exact folds_found hm name hread hread' hfound

theorem folds_writeVariable
    {value value' : Value}
    (hvalue : Value.Folds L φ value value')
    (name : Token) :
    Folds L φ p (writeVariable ⟨L.old, clock⟩ id name value)
      (writeVariable ⟨L.new, clock⟩ (id + n) name value') m m' fun _ _ _ => True := by
  have hlowered := hreads.lowered
  unfold writeVariable
  refine .read ?_
  unfold variableFrame?
  cases hget : L.old.get? id with
  | none =>
      rw [hget, Option.map_none] at hlowered
      obtain ⟨hholder, -⟩ := hm.folds.frames.globals hm.folds.globals hm.folds.outermost name.lexeme
      simp only [hlowered, hholder]
      cases htarget : m.frames.holder? Machine.globals name.lexeme with
      | none =>
          exact folds_stop hm _
      | some target =>
          rw [Frames.holder?_outermost hm.folds.outermost htarget]
          exact folds_defineIn (q := none) hm hm.folds.globals hvalue _
  | some d =>
      rw [hget, Option.map_some] at hlowered
      simp only [hlowered]
      obtain ⟨hnone, hnone'⟩ | ⟨target, target', htarget, htarget', q, hthere⟩ :=
        optionRel_cases (hm.folds.frames.outward? hm.current (hreads.ne_gap hget))
      · rw [hnone, hnone']
        exact folds_stop hm _
      · rw [htarget, htarget']
        exact folds_defineIn hm hthere hvalue _

end Variables

section Calls

variable {exec exec' : List Stmt → Run Flow}
variable {arguments arguments' : List Value}

theorem folds_bindParams
    {frame frame' : Nat}
    {q : Gap}
    {values values' : List Value}
    (hm : Machine.FoldsAt L φ p m m')
    (hframe : φ frame = some (frame', Gap.inner q))
    (hvalues : List.Forall₂ (Value.Folds L φ) values values')
    (params : List Token) :
    Folds L φ p (bindParams frame params values) (bindParams frame' params values') m m'
      fun _ _ _ => True := by
  induction params generalizing φ m m' values values' with
  | nil =>
      exact folds_pure hm trivial
  | cons param params ih =>
      cases hvalues with
      | nil =>
          exact folds_pure hm trivial
      | cons hvalue hvalues =>
          refine (folds_defineIn hm hframe hvalue param.lexeme).bind ?_
          intro ψ m₁ m₁' _ _ hgrows hm₁ _
          exact ih hm₁ (hgrows hframe) (hvalues.imp fun _ _ h => h.mono hgrows)

/-- Methods are made for the same object. -/
theorem folds_bind
    {closure closure' : Closure}
    (hm : Machine.FoldsAt L φ p m m')
    (hclosure : Closure.Folds L φ Gap.inner closure closure')
    (place : Nat) :
    Folds L φ p (closure.bind place) (closure'.bind place) m m' fun ψ => Closure.Folds L ψ id := by
  obtain ⟨n, q, hframe, hdecl, hinit, hlowers⟩ := hclosure
  refine (folds_pushFrame hm hframe).bind ?_
  intro ψ m₁ m₁' frame frame' _ hm₁ hframe₁
  refine (folds_defineIn hm₁ hframe₁ (.object place) "this").bind ?_
  intro χ m₂ m₂' _ _ hgrows₂ hm₂ _
  exact folds_pure hm₂ ⟨n, q.inner, hgrows₂ hframe₁, hdecl, hinit, hlowers⟩

theorem folds_body
    {n : Nat}
    {body : List Stmt}
    {frame frame' : Nat}
    {q : Gap}
    (hexec : BodyFolds L exec exec')
    (hm : Machine.FoldsAt L φ p m m')
    (hframe : φ frame = some (frame', q))
    (hbody : Stmt.LowersAll L n q body) :
    Folds L φ p (within frame (exec body)) (within frame' (exec' (Stmt.shiftedAll n body))) m m'
      (Flow.Folds L) :=
  .within hm (hexec hbody ⟨{ hm.folds with }, hframe⟩)

variable (hexec : BodyFolds L exec exec')

include hexec

theorem folds_invoke
    {closure closure' : Closure}
    (hm : Machine.FoldsAt L φ p m m')
    (hclosure : Closure.Folds L φ id closure closure')
    (harguments : List.Forall₂ (Value.Folds L φ) arguments arguments') :
    Folds L φ p (closure.invoke exec arguments) (closure'.invoke exec' arguments') m m'
      (Value.Folds L) := by
  obtain ⟨decl, outer, isInitializer⟩ := closure
  obtain ⟨decl', outer', isInitializer'⟩ := closure'
  obtain ⟨n, q, hframe, hdecl, hinit, hlowers⟩ := hclosure
  obtain ⟨name, params, body⟩ := decl
  dsimp only at hframe hdecl hinit
  subst hdecl hinit
  refine (folds_pushFrame hm hframe).bind ?_
  intro ψ₁ m₁ m₁' frame frame' hgrows₁ hm₁ hframe₁
  refine (folds_bindParams hm₁ hframe₁ (harguments.imp fun _ _ h => h.mono hgrows₁) params).bind ?_
  intro ψ₂ m₂ m₂' _ _ hgrows₂ hm₂ _
  refine (folds_body hexec hm₂ (hgrows₂ hframe₁) hlowers).bind ?_
  intro ψ₃ m₃ m₃' flow flow' hgrows₃ hm₃ hflow
  dsimp only
  split
  · refine .read ?_
    have hthis := hm₃.folds.frames.getAt? (d := 0) (hgrows₃ (hgrows₂ (hgrows₁ hframe)))
      q.inner_ne_zero "this"
    rw [Gap.lower_zero] at hthis
    exact folds_pure hm₃ (optionRel_getD hthis .nil)
  · cases hflow with
    | returned hvalue =>
        exact folds_pure hm₃ hvalue
    | normal =>
        exact folds_pure hm₃ .nil

theorem folds_instantiate
    {c c' : Class}
    (hm : Machine.FoldsAt L φ p m m')
    (hclass : Class.Folds L φ c c')
    (harguments : List.Forall₂ (Value.Folds L φ) arguments arguments') :
    Folds L φ p (c.instantiate exec arguments) (c'.instantiate exec' arguments') m m'
      (Value.Folds L) := by
  refine (folds_newObject hm hclass).bind ?_
  rintro ψ₁ m₁ m₁' place _ hgrows₁ hm₁ rfl
  obtain ⟨hnone, hnone'⟩ | ⟨initializer, initializer', hinit, hinit', hfolds⟩ :=
    optionRel_cases (hclass.methods initializerName)
  · rw [hnone, hnone']
    exact folds_pure hm₁ (.object _)
  · rw [hinit, hinit']
    refine (folds_bind hm₁ (hfolds.mono hgrows₁) _).bind ?_
    intro ψ₂ m₂ m₂' method method' hgrows₂ hm₂ hmethod
    refine (folds_invoke hexec hm₂ hmethod
      (harguments.imp fun _ _ h => (h.mono hgrows₁).mono hgrows₂)).bind ?_
    intro ψ₃ m₃ m₃' _ _ _ hm₃ _
    exact folds_pure hm₃ (.object _)

theorem folds_call
    {callee callee' : Value}
    (clock : Nat → Float)
    (paren : Token)
    (hm : Machine.FoldsAt L φ p m m')
    (hcallee : Value.Folds L φ callee callee')
    (harguments : List.Forall₂ (Value.Folds L φ) arguments arguments') :
    Folds L φ p (callee.call ⟨L.old, clock⟩ exec paren arguments)
      (callee'.call ⟨L.new, clock⟩ exec' paren arguments') m m' (Value.Folds L) := by
  unfold Value.call
  rw [hcallee.toMatches.arity?_eq, ← harguments.length_eq]
  cases harity : callee.arity? with
  | none =>
      exact folds_stop hm _
  | some arity =>
      dsimp only
      split
      · cases hcallee with
        | native native =>
            exact folds_readClock hm _ _ clock
        | function identity hclosure =>
            exact folds_invoke hexec hm hclosure harguments
        | cls hclass =>
            exact folds_instantiate hexec hm hclass harguments
        | _ =>
            cases harity
      · exact folds_stop hm _

end Calls

section Objects

variable (hm : Machine.FoldsAt L φ p m m')

include hm

/-- A method that is looked up in a class and made for an object. -/
theorem folds_method
    {c c' : Class}
    (hclass : Class.Folds L φ c c')
    (place : Nat)
    (name : Token) :
    Folds L φ p
      (match c.findMethod? name.lexeme with
        | some method => method.bind place >>= newFunction
        | none => fail name (.undefinedProperty name.lexeme))
      (match c'.findMethod? name.lexeme with
        | some method => method.bind place >>= newFunction
        | none => fail name (.undefinedProperty name.lexeme)) m m' (Value.Folds L) := by
  obtain ⟨hnone, hnone'⟩ | ⟨method, method', hmethod, hmethod', hclosure⟩ :=
    optionRel_cases (hclass.methods name.lexeme)
  · rw [hnone, hnone']
    exact folds_stop hm _
  · rw [hmethod, hmethod']
    refine (folds_bind hm hclosure place).bind ?_
    intro ψ m₁ m₁' _ _ _ hm₁ hmade
    exact folds_newFunction hm₁ hmade

theorem folds_property
    {object object' : Value}
    (hobject : Value.Folds L φ object object')
    (name : Token) :
    Folds L φ p (object.property name) (object'.property name) m m' (Value.Folds L) := by
  cases hobject with
  | object place =>
      refine .read ?_
      obtain ⟨hnone, hnone'⟩ | ⟨o, o', ho, ho', hfolds⟩ := optionRel_cases (hm.folds.objects place)
      · rw [hnone, hnone']
        exact folds_stop hm _
      · rw [ho, ho']
        dsimp only
        obtain ⟨hnone, hnone'⟩ | ⟨value, value', hvalue, hvalue', hfield⟩ :=
          optionRel_cases (hfolds.fields name.lexeme)
        · rw [hnone, hnone']
          exact folds_method hm hfolds.cls place name
        · rw [hvalue, hvalue']
          exact folds_pure hm hfield
  | _ =>
      exact folds_stop hm _

/-- The class under `super` and the object under `this` are found in frames next to each other. -/
theorem folds_superMethod
    {n id : Nat}
    {clock : Nat → Float}
    {keyword method : Token}
    (hreads : L.Reads n p id)
    (hthis : ∀ d, L.old.get? id = some d → p ≠ some (d - 1)) :
    Folds L φ p (superMethod ⟨L.old, clock⟩ id keyword method)
      (superMethod ⟨L.new, clock⟩ (id + n) keyword method) m m' (Value.Folds L) := by
  have hlowered := hreads.lowered
  unfold superMethod
  cases hget : L.old.get? id with
  | none =>
      rw [hget, Option.map_none] at hlowered
      simp only [hlowered]
      exact folds_stop hm _
  | some d =>
      rw [hget, Option.map_some] at hlowered
      simp only [hlowered]
      refine .read ?_
      have hd := hreads.ne_gap hget
      obtain ⟨hnone, hnone'⟩ | ⟨_, _, hsuper, hsuper', hfolds⟩ :=
        optionRel_cases (hm.folds.frames.getAt? hm.current hd "super")
      · rw [hnone, hnone']
        exact folds_stop hm _
      rw [hsuper, hsuper']
      cases hfolds with
      | cls hclass =>
          refine .read ?_
          have hobject := hm.folds.frames.getAt? hm.current (hthis d hget) "this"
          rw [Gap.lower_pred hd (hthis d hget)] at hobject
          obtain ⟨hnone, hnone'⟩ | ⟨_, _, hthis, hthis', hfolds⟩ := optionRel_cases hobject
          · rw [hnone, hnone']
            exact folds_stop hm _
          rw [hthis, hthis']
          cases hfolds with
          | object place =>
              exact folds_method hm hclass place method
          | _ =>
              exact folds_stop hm _
      | _ =>
          exact folds_stop hm _

end Objects

section Classes

variable {n : Nat}
variable {superclass superclass' : Option Class}
variable {methods : List FunctionDecl}

/-- Methods by name, made in frames that stand for each other. -/
theorem methodTable_folds
    {frame frame' : Nat}
    {q : Gap}
    (hframe : φ frame = some (frame', Gap.inner q))
    (hmethods : Stmt.LowersMethods L n (Gap.inner q) methods)
    (name : String) :
    Option.Rel (Closure.Folds L φ Gap.inner) ((methodTable frame methods).lookup name)
      ((methodTable frame' (Stmt.shiftedMethods n methods)).lookup name) := by
  let put (frame : Nat) (table : List (String × Closure)) (decl : FunctionDecl) :
      List (String × Closure) :=
    putBinding decl.name.lexeme ⟨decl, frame, decl.name.lexeme = initializerName⟩ table
  have hfold : ∀ (methods : List FunctionDecl) (table table' : List (String × Closure)),
      Stmt.LowersMethods L n (Gap.inner q) methods →
      Option.Rel (Closure.Folds L φ Gap.inner) (table.lookup name) (table'.lookup name) →
      Option.Rel (Closure.Folds L φ Gap.inner) ((methods.foldl (put frame) table).lookup name)
        (((Stmt.shiftedMethods n methods).foldl (put frame') table').lookup name) := by
    intro methods
    induction methods with
    | nil =>
        intro table table' _ htable
        exact htable
    | cons decl rest ih =>
        intro table table' hmethods htable
        refine ih _ _ hmethods.2 ?_
        simp only [put, Stmt.name_shiftedFunction]
        by_cases hname : name = decl.name.lexeme
        · rw [hname, lookup_putBinding_self, lookup_putBinding_self]
          exact .some ⟨n, q, hframe, rfl, rfl, hmethods.1⟩
        · rw [lookup_putBinding_of_ne hname, lookup_putBinding_of_ne hname]
          exact htable
  exact hfold methods [] [] hmethods .none

theorem folds_class
    {frame frame' : Nat}
    {q : Gap}
    (hframe : φ frame = some (frame', Gap.inner q))
    (hsuperclass : Option.Rel (Class.Folds L φ) superclass superclass')
    (hmethods : Stmt.LowersMethods L n (Gap.inner q) methods)
    (identity : Nat)
    (name : String) :
    Class.Folds L φ (.mk identity name superclass (methodTable frame methods))
      (.mk identity name superclass' (methodTable frame' (Stmt.shiftedMethods n methods))) := by
  refine ⟨rfl, rfl, ?_⟩
  intro method
  have hown := methodTable_folds hframe hmethods method
  cases hsuperclass with
  | none =>
      exact hown
  | some hparent =>
      simp only [Class.findMethod?]
      obtain ⟨hnone, hnone'⟩ | ⟨found, found', hfound, hfound', hclosure⟩ := optionRel_cases hown
      · simp only [hnone, hnone']
        exact hparent.methods method
      · simp only [hfound, hfound']
        exact .some hclosure

/-- A name that is bound in the current frame is overwritten there. -/
theorem folds_overwrite
    {value value' : Value}
    {name : Token}
    (hm : Machine.FoldsAt L φ p m m')
    (hp : p ≠ some 0)
    (hbound : m.frames.Bound m.current name.lexeme)
    (hvalue : Value.Folds L φ value value') :
    Folds L φ p (overwrite name value) (overwrite name value') m m' fun _ _ _ => True := by
  obtain ⟨q, rfl⟩ := Gap.exists_inner hp
  obtain ⟨hlt, hlt'⟩ := hm.folds.frames.inside hm.current
  have hbound' : m'.frames.Bound m'.current name.lexeme := by
    obtain ⟨old, hold⟩ := hbound
    obtain ⟨hnone, -⟩ | ⟨_, old', -, hold', -⟩ :=
      optionRel_cases (hm.folds.frames.bound hm.current name.lexeme)
    · rw [hold] at hnone
      cases hnone
    · exact ⟨old', hold'⟩
  unfold overwrite
  refine .read ?_
  rw [Frames.holder?_of_bound hbound (Nat.zero_lt_of_lt hlt),
    Frames.holder?_of_bound hbound' (Nat.zero_lt_of_lt hlt')]
  exact folds_defineIn hm hm.current hvalue _

/-- Making a class whose name is bound already, with its methods in given frames. -/
theorem folds_fillClass
    {frame frame' : Nat}
    {q : Gap}
    {name : Token}
    (hm : Machine.FoldsAt L φ p m m')
    (hp : p ≠ some 0)
    (hbound : m.frames.Bound m.current name.lexeme)
    (hframe : φ frame = some (frame', Gap.inner q))
    (hsuperclass : Option.Rel (Class.Folds L φ) superclass superclass')
    (hmethods : Stmt.LowersMethods L n (Gap.inner q) methods) :
    Folds L φ p (newClass name.lexeme superclass (methodTable frame methods) >>= overwrite name)
      (newClass name.lexeme superclass' (methodTable frame' (Stmt.shiftedMethods n methods)) >>=
        overwrite name) m m' fun _ _ _ => True := by
  have hclass := folds_class hframe hsuperclass hmethods m.classCount name.lexeme
  have hrun (superclass : Option Class) (table : List (String × Closure)) (m : Machine) :
      (newClass name.lexeme superclass table >>= overwrite name) m =
        overwrite name (.cls (.mk m.classCount name.lexeme superclass table))
          { m with classCount := m.classCount + 1 } := rfl
  refine .of_moved (hrun _ _ _) (hrun _ _ _) (.refl φ) ?_
  rw [hm.folds.classCount]
  exact folds_overwrite ⟨{ hm.folds with classCount := rfl }, hm.current⟩ hp hbound (.cls hclass)

theorem folds_declareClass
    {name : Token}
    (hm : Machine.FoldsAt L φ p m m')
    (hp : p ≠ some 0)
    (hsuperclass : Option.Rel (Class.Folds L φ) superclass superclass')
    (hmethods : Stmt.LowersMethods L n (if superclass.isSome then p.inner else p) methods) :
    Folds L φ p (declareClass name superclass methods)
      (declareClass name superclass' (Stmt.shiftedMethods n methods)) m m' fun _ _ _ => True := by
  obtain ⟨q, rfl⟩ := Gap.exists_inner hp
  have hm₁ := hm.folds.define hm.current .nil name.lexeme
  have hbound₁ : (m.frames.define m.current name.lexeme .nil).Bound m.current name.lexeme :=
    ⟨.nil, Frames.lookup?_define_self (hm.folds.frames.inside hm.current).1 _ _⟩
  cases hsuperclass with
  | none =>
      have hrun (methods : List FunctionDecl) (m : Machine) :
          declareClass name none methods m =
            (newClass name.lexeme none (methodTable m.current methods) >>= overwrite name)
              { m with frames := m.frames.define m.current name.lexeme .nil } := rfl
      exact .of_moved (hrun _ _) (hrun _ _) (.refl φ)
        (folds_fillClass ⟨hm₁, hm.current⟩ hp hbound₁ hm.current .none hmethods)
  | @some parent parent' hparent =>
      have hrun (parent : Class) (methods : List FunctionDecl) (m : Machine) :
          let fs := m.frames.define m.current name.lexeme .nil
          declareClass name (some parent) methods m =
            (newClass name.lexeme (some parent) (methodTable fs.size methods) >>= overwrite name)
              { m with frames := fs.pushWith m.current "super" (.cls parent) } := rfl
      have hm₂ := hm₁.pushWith hm.current (.cls hparent) "super"
      have hgrows := hm₁.frames.grows_push ((m'.frames.define m'.current name.lexeme .nil).size,
        (Gap.inner q).inner)
      have hbound₂ := (Frames.Extends.pushWith _ m.current "super" (.cls parent)).bound hbound₁
      exact .of_moved (hrun _ _ _) (hrun _ _ _) hgrows (folds_fillClass ⟨hm₂, hgrows hm.current⟩ hp
        hbound₂ (Folding.push_self _ _ _) (.some (hparent.mono hgrows)) hmethods)

end Classes

end Run

end Lox
