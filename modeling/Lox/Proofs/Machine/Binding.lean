import Lox.Proofs.Machine.Kept

/-!
# `this` is always the right object

Methods leave the tables of their classes only bound to an object.  Wherever a function value turns up
in a run, in a variable, in a field or as a result, it was made by a function statement or is bound,
and what its frame has under `this` never changes.  So a call of an initializer gives the object that
the initializer is bound to, and a call of a class gives an object that was not there before.

What is said of calls is said of evaluation without watchers, from every machine that is met, with
any amount of fuel.  For that the course is widened: all sights count as part of it.
-/

namespace Lox

open Run

/-- The course with all sights as part of it. -/
def Course.widen (k : Course) : Course :=
  { k with seen := fun _ _ => True }

section Widen

variable {k : Course}
variable {m : Machine}

theorem Class.MadeFrom.widen
    {body : Address}
    {frame : Nat}
    {c : Class}
    (h : c.MadeFrom k body frame) :
    c.MadeFrom k.widen body frame := by
  cases h with
  | plain hstatement =>
      exact .plain hstatement
  | derived hstatement _ =>
      exact .derived hstatement trivial

theorem Machine.Stands.widen
    {frame : Nat}
    {scopes : List Address}
    (h : m.Stands k frame scopes) :
    m.Stands k.widen frame scopes := by
  induction scopes generalizing frame with
  | nil =>
      exact h
  | cons scope scopes ih =>
      obtain ⟨around, henclosing, hstands, hholds⟩ := h
      refine ⟨around, henclosing, ih hstands, ?_⟩
      have hprogram : k.widen.program = k.program := rfl
      unfold Machine.Holds at hholds ⊢
      rw [hprogram]
      split
      · rename_i derived methods hscope
        rw [hscope] at hholds
        obtain ⟨place, o, c, hthis, ho, hc, hmade, hsuper⟩ := hholds
        exact ⟨place, o, c, hthis, ho, hc, hmade.widen, hsuper⟩
      · rename_i hscope
        split at hholds
        · exact absurd ‹_› (hscope _ _)
        · exact hholds

theorem Class.Proper.widen
    {c : Class}
    (h : c.Proper k m) :
    c.Proper k.widen m := by
  intro owner howner
  obtain ⟨body, frame, hmade, hstands, hsuper⟩ := h owner howner
  exact ⟨body, frame, hmade.widen, hstands.widen, hsuper⟩

theorem Value.Proper.widen
    {value : Value}
    (h : value.Proper k m) :
    value.Proper k.widen m := by
  cases value with
  | function identity closure =>
      obtain ⟨⟨a, sort, hfunction, hstands⟩, horigin⟩ := h
      refine ⟨⟨a, sort, hfunction, hstands.widen⟩, horigin.imp ?_ id⟩
      rintro ⟨m₀, -, hidentity, hclosure⟩
      exact ⟨m₀, trivial, hidentity, hclosure⟩
  | cls c =>
      exact Class.Proper.widen h
  | object place =>
      exact h
  | _ =>
      trivial

theorem Machine.Proper.widen
    (h : m.Proper k) :
    m.Proper k.widen where
  current := h.current
  bare := h.bare
  bound := fun hvalue => (h.bound hvalue).widen
  objects := fun ho =>
    ⟨(h.objects ho).1.widen, fun name value hvalue => ((h.objects ho).2 name value hvalue).widen⟩

/-- A run without a watcher. -/
theorem Run.Keeps.idle
    {α : Type}
    {r : Watcher → Run α}
    {post : Machine → α → Prop}
    {outside : RuntimeError}
    {a : α}
    {m' : Machine}
    (h : Keeps k.widen outside r m post)
    (hrun : r .idle m = (.ok a, m')) :
    m.Onward m' ∧ m'.current = m.current ∧ m'.Proper k.widen ∧ post m' a := by
  rw [← k.widen.lax_eq_idle (fun _ _ => trivial) outside] at hrun
  have honward := h.onward
  have hcurrent := h.current
  have hproper := h.proper
  rw [hrun] at honward hcurrent hproper
  exact ⟨honward, hcurrent, hproper, h.ok hrun⟩

end Widen

/-- A value is at hand at a sight: in a variable, in a field or as a result. -/
inductive Machine.Has (m : Machine) : Sight → Value → Prop where
  | bound {x : Sight} {frame : Nat} {name : String} {value : Value}
      (hvalue : m.frames.lookup? frame name = some value) :
      Has m x value
  | field {x : Sight} {place : Nat} {o : Instance} {name : String} {value : Value}
      (ho : m.objects[place]? = some o)
      (hvalue : o.fields.lookup name = some value) :
      Has m x value
  | evaluated (e : Expr) (value : Value) :
      Has m (.evaluated e value) value
  | returned (s : Stmt) (value : Value) :
      Has m (.executed s (.returned value)) value

/-- What is at hand is proper. -/
theorem Course.Fine.has
    {k : Course}
    {x : Sight}
    {m : Machine}
    {value : Value}
    (h : k.Fine x m)
    (hhas : m.Has x value) :
    value.Proper k m := by
  cases hhas with
  | bound hvalue =>
      exact h.proper.bound hvalue
  | field ho hvalue =>
      exact (h.proper.objects ho).2 _ _ hvalue
  | evaluated e value =>
      exact h.sight
  | returned s value =>
      exact h.sight

/-- A call of an initializer that ends gives the object that the initializer is bound to. -/
def Closure.Yields (closure : Closure) (m : Machine) (result : Value) : Prop :=
  closure.isInitializer = true →
    ∃ place, m.frames.lookup? closure.frame "this" = some (.object place) ∧
      result = .object place

/-- A call of a class that ends gives a new object of the class; if there is an initializer, it was
called, bound to the object, and its call gave the object, too. -/
def Class.Yields (exec : List Stmt → Run Flow) (c : Class) (arguments : List Value)
    (m : Machine) (result : Value) (m' : Machine) : Prop :=
  ∃ place, result = .object place ∧ m.objects[place]? = none ∧
    (∃ o, m'.objects[place]? = some o ∧ o.cls = c) ∧
    ∀ initializer, c.findMethod? initializerName = some initializer →
      ∃ made m₁, initializer.bind place { m with objects := m.objects.push ⟨c, []⟩ } =
          (.ok made, m₁) ∧
        made.invoke exec arguments m₁ = (.ok (.object place), m')

section Calls

variable {k : Course}
variable {outside : RuntimeError}
variable {m m' : Machine}
variable {exec : Watcher → List Stmt → Run Flow}
variable {arguments : List Value}
variable {result : Value}
variable (hnamed : k.widen.program.Named)
variable (hexec : BodyKeeps k.widen outside exec)
variable (hm : m.Proper k.widen)
variable (harguments : ∀ value ∈ arguments, value.Proper k.widen m)

include hnamed hexec hm harguments

theorem yields_of_invoke
    {closure : Closure}
    (hplaced : closure.Placed k.widen m)
    (hbound : closure.isInitializer = true → closure.Bound m)
    (hrun : closure.invoke (exec .idle) arguments m = (.ok result, m')) :
    closure.Yields m result := by
  obtain ⟨-, -, -, -, hthis⟩ := (keeps_invoke hnamed hexec hm hplaced harguments).idle hrun
  intro hinit
  obtain ⟨place, -, -, -, hplace, -⟩ := hbound hinit
  exact ⟨place, hplace, hthis hinit place hplace⟩

theorem yields_of_instantiate
    {c : Class}
    (hc : c.Proper k.widen m)
    (hrun : c.instantiate (exec .idle) arguments m = (.ok result, m')) :
    c.Yields (exec .idle) arguments m result m' := by
  let m₁ : Machine := { m with objects := m.objects.push ⟨c, []⟩ }
  have hm₁ : m₁.Proper k.widen := hm.newObject hc
  have honward₁ : m.Onward m₁ := .newObject m c
  have hfresh : m.objects[m.objects.size]? = none := Array.getElem?_eq_none (Nat.le_refl _)
  have ho : m₁.objects[m.objects.size]? = some ⟨c, []⟩ := Array.getElem?_push_size
  obtain ⟨place, m₁', hnew, hrun⟩ := ok_of_bind hrun
  cases hnew
  cases hinit : c.findMethod? initializerName with
  | none =>
      rw [hinit] at hrun
      cases hrun
      exact ⟨m.objects.size, rfl, hfresh, ⟨_, ho, rfl⟩, by simp [hinit]⟩
  | some initializer =>
      rw [hinit] at hrun
      obtain ⟨made, m₂, hbind, hrun⟩ := ok_of_bind hrun
      obtain ⟨value, m₃, hinvoke, hrun⟩ := ok_of_bind hrun
      cases hrun
      -- The initializer may be inherited: it is bound to an object of `c`, not of its owner.
      obtain ⟨owner, howner, hlookup⟩ := Class.exists_of_findMethod? hinit
      have hkeeps : Keeps k.widen outside (fun _ => initializer.bind m.objects.size) m₁ _ :=
        keeps_bind hm₁ ho howner hlookup
      obtain ⟨honward₂, -, hm₂, hplaced, hbound, hname, hthis⟩ := hkeeps.idle hbind
      have hkeeps' := keeps_invoke hnamed hexec hm₂ hplaced
        fun v hv => (harguments v hv).mono (honward₁.trans honward₂)
      obtain ⟨honward₃, -, -, -, hvalue⟩ := hkeeps'.idle hinvoke
      obtain ⟨-, -, -, -, -, -, -, -, -, -, hinitializer⟩ := hbound
      obtain ⟨o, ho', hcls⟩ := (honward₂.trans honward₃).objects ho
      refine ⟨m.objects.size, rfl, hfresh, ⟨o, ho', hcls⟩, ?_⟩
      intro other hother
      cases hinit.symm.trans hother
      rw [hvalue (hinitializer.mpr hname) _ hthis] at hinvoke
      exact ⟨made, m₂, hbind, hinvoke⟩

end Calls

/-- A call that ends had the right number of arguments. -/
theorem Value.apply_of_call
    {σ : Setting}
    {exec : List Stmt → Run Flow}
    {f result : Value}
    {paren : Token}
    {values : List Value}
    {m m' : Machine}
    (h : f.call σ exec paren values m = (.ok result, m')) :
    f.apply σ exec paren values m = (.ok result, m') := by
  unfold Value.call at h
  cases harity : f.arity? with
  | none =>
      rw [harity] at h
      cases h
  | some arity =>
      simp only [harity] at h
      by_cases hlength : values.length = arity
      · rw [if_pos hlength] at h
        exact h
      · rw [if_neg hlength] at h
        cases h

/-- What a call yields that is evaluated on a proper machine. -/
theorem yields_of_call
    {k : Course}
    {a : Address}
    {callee : Expr}
    {paren : Token}
    {arguments : List Expr}
    {f result : Value}
    {values : List Value}
    {m m₁ m₂ m₃ : Machine}
    {n : Nat}
    {σ : Setting}
    (hnamed : k.program.Named)
    (hcall : k.program.at? a = some (.expr (.call callee paren arguments)))
    (hm : m.Proper k)
    (hstands : m.Stands k m.current (k.program.scopesAround a))
    (hcallee : eval σ n callee m = (.ok f, m₁))
    (harguments : evalAll (eval σ n) arguments m₁ = (.ok values, m₂))
    (hrun : f.call σ (execAll (exec σ n)) paren values m₂ = (.ok result, m₃)) :
    (∀ identity closure, f = .function identity closure → closure.Yields m₂ result) ∧
      ∀ c, f = .cls c → c.Yields (execAll (exec σ n)) values m₂ result m₃ := by
  let outside : RuntimeError := ⟨paren, .notCallable⟩
  have hnamed' : k.widen.program.Named := hnamed
  have hkeeps := keeps_watched hnamed' outside σ n
  have hstands' := hstands.widen
  rw [← (watched_idle σ n).1] at hcallee harguments
  rw [← (watched_idle σ n).2] at hrun ⊢
  obtain ⟨honward₁, hcurrent₁, hm₁, hf, -⟩ :=
    (keeps_child hkeeps.1 hcall rfl List.mem_cons_self hm.widen hstands').idle hcallee
  obtain ⟨honward₂, -, hm₂, hvalues⟩ :=
    (keeps_evalAll hkeeps.1 (Part.exists_argument hcall) hm₁
      (hstands'.after honward₁ hcurrent₁)).idle harguments
  have hf₂ := hf.mono honward₂
  have happly := Value.apply_of_call hrun
  have hbody := keeps_execAll hkeeps.2
  constructor
  · rintro identity closure rfl
    obtain ⟨hplaced, horigin⟩ := hf₂
    refine yields_of_invoke hnamed' hbody hm₂ hvalues hplaced ?_ happly
    -- Function statements never make initializers, not even where the name is that of one.
    intro hinit
    refine horigin.resolve_left ?_
    intro hdeclared
    rw [hdeclared.isInitializer_eq_false] at hinit
    cases hinit
  · rintro c rfl
    exact yields_of_instantiate hnamed' hbody hm₂ hvalues hf₂ happly

/-- In every run of a program that was read, whatever table of local references it is run with: each
function value at hand was made by a function statement or is bound to an object; what a frame has
under `this` is the same whenever the frame is there; and where a call is evaluated, an initializer
gives the object it is bound to, and a class an object that was not there. -/
theorem this_is_bound
    (source : String)
    (σ : Setting)
    (fuel : Nat) :
    let statements := (Session.parse source .empty).1
    (∀ x m identity closure, Machine.Meets σ fuel statements x m →
      m.Has x (.function identity closure) →
      closure.Declared (.ofRun σ fuel statements) identity ∨ closure.Bound m) ∧
    (∀ x m x' m' frame place, Machine.Meets σ fuel statements x m →
      Machine.Meets σ fuel statements x' m' →
      m.frames.lookup? frame "this" = some (.object place) → frame < m'.frames.size →
      m'.frames.lookup? frame "this" = some (.object place)) ∧
    ∀ callee paren arguments m n f m₁ values m₂ result m₃,
      Machine.Meets σ fuel statements (.evaluates (.call callee paren arguments)) m →
      eval σ n callee m = (.ok f, m₁) →
      evalAll (eval σ n) arguments m₁ = (.ok values, m₂) →
      f.call σ (execAll (exec σ n)) paren values m₂ = (.ok result, m₃) →
      (∀ identity closure, f = .function identity closure → closure.Yields m₂ result) ∧
        ∀ c, f = .cls c → c.Yields (execAll (exec σ n)) values m₂ result m₃ := by
  intro statements
  have hnamed : (Part.program statements).Named := Scan.readProgram_named source
  refine ⟨?_, ?_, ?_⟩
  · intro x m identity closure hmeets hhas
    exact ((hmeets.fine hnamed).has hhas).2
  · intro x m x' m' frame place hmeets hmeets' hthis hframe
    rw [← (hmeets'.fine hnamed).onward.kept hframe not_ordinary_this]
    exact (hmeets.fine hnamed).onward.lookup_some not_ordinary_this hthis
  · intro callee paren arguments m n f m₁ values m₂ result m₃ hmeets hcallee harguments hrun
    have hfine := hmeets.fine hnamed
    obtain ⟨a, hcall, hstands⟩ := hfine.sight
    exact yields_of_call hnamed hcall hfine.proper hstands hcallee harguments hrun

/-- An initializer is about to be given as the value of an expression. -/
def Sight.givesInitializer : Sight → Bool
  | .evaluated _ (.function _ closure) => closure.isInitializer
  | _ => false

/-- In `class A{init(){}}A().init;`, the value that is read is bound. -/
theorem this_is_bound_initializer :
    ∃ e identity closure m,
      Machine.Meets ⟨⟨#[]⟩, fun _ => 0⟩ 6 (Session.parse "class A{init(){}}A().init;" .empty).1
        (.evaluated e (.function identity closure)) m ∧
      closure.isInitializer = true ∧ closure.Bound m := by
  have hfound : ∃ x m, Sight.givesInitializer x = true ∧
      Machine.Meets ⟨⟨#[]⟩, fun _ => 0⟩ 6 (Session.parse "class A{init(){}}A().init;" .empty).1 x m :=
    Machine.exists_meets_of_finding ⟨⟨.identifier, "", 0⟩, .notCallable⟩ (by decide +kernel)
      (by decide +kernel)
  obtain ⟨x, m, htest, hmeets⟩ := hfound
  unfold Sight.givesInitializer at htest
  split at htest
  · rename_i e identity closure
    refine ⟨e, identity, closure, m, hmeets, htest, ?_⟩
    refine ((this_is_bound _ _ _).1 _ _ _ _ hmeets (.evaluated e _)).resolve_left ?_
    intro hdeclared
    rw [hdeclared.isInitializer_eq_false] at htest
    cases htest
  · cases htest

end Lox
