import Lox.Proofs.Machine.Invariant
import Lox.Proofs.Machine.Watched
import Lox.Proofs.Scope.Position

/-!
# Where values come from

An invariant that follows functions and classes back to the places in the program that made them.
The frames around a function are those of the scopes around its declaration; among them a frame of
a class body has under `this` an object whose class is derived from a class made from that body, and
has around it the frame that this class gave its methods.  A function was either made by a function
statement, or it is a method that was bound to an object.

All this is kept when a machine goes on: frames keep what surrounds them and what they have under
`this` and `super`, and objects keep their class.
-/

namespace Lox

namespace Class

/-- A class and those that it is derived from, nearest first. -/
def lineage : Class → List Class
  | .mk identity name none methods => [.mk identity name none methods]
  | .mk identity name (some parent) methods =>
      .mk identity name (some parent) methods :: parent.lineage

theorem mem_lineage_self (c : Class) : c ∈ c.lineage := by
  obtain ⟨identity, name, superclass, methods⟩ := c
  cases superclass with
  | none =>
      exact List.mem_cons_self
  | some parent =>
      exact List.mem_cons_self

/-- The nearest method is that of the nearest class that has one. -/
theorem findMethod?_eq_findSome? (method : String) :
    ∀ c : Class, c.findMethod? method = c.lineage.findSome? (·.methods.lookup method)
  | .mk identity name none methods => by
      cases hlookup : methods.lookup method <;>
        simp [findMethod?, lineage, Class.methods, hlookup]
  | .mk identity name (some parent) methods => by
      cases hlookup : methods.lookup method with
      | none =>
          simp [findMethod?, lineage, Class.methods, hlookup,
            findMethod?_eq_findSome? method parent]
      | some found =>
          simp [findMethod?, lineage, Class.methods, hlookup]

theorem exists_of_findMethod?
    {c : Class}
    {method : String}
    {found : Closure}
    (h : c.findMethod? method = some found) :
    ∃ owner ∈ c.lineage, owner.methods.lookup method = some found := by
  rw [findMethod?_eq_findSome?] at h
  exact List.exists_of_findSome?_eq_some h

/-- Whatever a superclass is derived from, the class is, too. -/
theorem lineage_subset :
    ∀ (c owner : Class), owner ∈ c.lineage → owner.lineage ⊆ c.lineage
  | .mk identity name none methods, owner, hmem => by
      rw [lineage, List.mem_singleton] at hmem
      subst hmem
      exact List.Subset.refl _
  | .mk identity name (some parent) methods, owner, hmem => by
      rw [lineage, List.mem_cons] at hmem
      rcases hmem with rfl | hmem
      · exact List.Subset.refl _
      · exact List.Subset.trans (lineage_subset parent owner hmem) (List.subset_cons_self _ _)

theorem mem_lineage_of_superclass
    {c parent : Class}
    (h : c.superclass = some parent) :
    parent ∈ c.lineage := by
  obtain ⟨identity, name, superclass, methods⟩ := c
  cases h
  exact List.mem_cons_of_mem _ (mem_lineage_self parent)

end Class

/-- A program, what is seen of a run of it, and the machine on which the run ends. -/
structure Course where
  program : Part
  seen : Sight → Machine → Prop
  last : Machine

/-- A class was made from the class body at an address, with its methods in a frame.  If it is
derived, its superclass is what was seen as the value of the superclass in its class statement, on
the machine on which the class was made. -/
inductive Class.MadeFrom (k : Course) : Address → Nat → Class → Prop where
  | plain {q : Address} {name : Token} {methods : List FunctionDecl} {identity frame : Nat}
      (hstatement : k.program.at? q = some (.stmt (.classDecl name none methods))) :
      MadeFrom k (q ++ [0]) frame (.mk identity name.lexeme none (methodTable frame methods))
  | derived {q : Address} {name : Token} {superclass : Expr} {methods : List FunctionDecl}
      {parent : Class} {m : Machine}
      (hstatement : k.program.at? q = some (.stmt (.classDecl name (some superclass) methods)))
      (hseen : k.seen (.evaluated superclass (.cls parent)) m) :
      MadeFrom k (q ++ [1, 0]) m.frames.size
        (.mk m.classCount name.lexeme (some parent) (methodTable m.frames.size methods))

/-- What the frame of a scope has under `this`: nothing, unless the scope is a class body. -/
def Machine.Holds (k : Course) (m : Machine) (scope : Address) (frame around : Nat) : Prop :=
  match k.program.at? scope with
  | some (.classBody _ _) =>
      ∃ place o c, m.frames.lookup? frame "this" = some (.object place) ∧
        m.objects[place]? = some o ∧ c ∈ o.cls.lineage ∧ c.MadeFrom k scope around ∧
        m.frames.lookup? around "super" = c.superclass.map .cls
  | _ => m.frames.lookup? frame "this" = none

/-- The frames from `frame` outward are those of the scopes, up to the global frame. -/
def Machine.Stands (k : Course) (m : Machine) (frame : Nat) : List Address → Prop
  | [] =>
      frame = Machine.globals ∧ frame < m.frames.size ∧ m.frames.enclosing? frame = none ∧
        m.frames.lookup? frame "this" = none
  | scope :: scopes =>
      ∃ around, m.frames.enclosing? frame = some around ∧ m.Stands k around scopes ∧
        m.Holds k scope frame around

/-- The frames around a function are those of the scopes around its declaration. -/
def Closure.Placed (k : Course) (m : Machine) (closure : Closure) : Prop :=
  ∃ a sort, k.program.at? a = some (.function sort closure.decl) ∧
    m.Stands k closure.frame (k.program.scopesAround a)

/-- A function was made by a function statement, with the given number. -/
def Closure.Declared (k : Course) (identity : Nat) (closure : Closure) : Prop :=
  ∃ m, k.seen (.executes (.function closure.decl)) m ∧ m.functionCount = identity ∧
    closure = ⟨closure.decl, m.current, false⟩

theorem Closure.Declared.isInitializer_eq_false
    {k : Course}
    {identity : Nat}
    {closure : Closure}
    (h : closure.Declared k identity) :
    closure.isInitializer = false := by
  obtain ⟨m, -, -, hclosure⟩ := h
  exact congrArg Closure.isInitializer hclosure

/-- A method bound to an object.  The class of the object has on its lineage a class that declares
the method, and the frame with `this` stands in the frame that this class gave its methods. -/
def Closure.Bound (m : Machine) (closure : Closure) : Prop :=
  ∃ place o c outer, m.frames.lookup? closure.frame "this" = some (.object place) ∧
    m.objects[place]? = some o ∧ c ∈ o.cls.lineage ∧
    c.methods.lookup closure.decl.name.lexeme = some { closure with frame := outer } ∧
    (∀ name method, c.methods.lookup name = some method → method.frame = outer) ∧
    m.frames.enclosing? closure.frame = some outer ∧
    (closure.isInitializer = true ↔ closure.decl.name.lexeme = initializerName)

/-- Every class on a lineage was made from a class body, in a frame of the scopes around it. -/
def Class.Proper (k : Course) (m : Machine) (c : Class) : Prop :=
  ∀ owner ∈ c.lineage, ∃ body frame, owner.MadeFrom k body frame ∧
    m.Stands k frame (k.program.scopesAround body) ∧
    m.frames.lookup? frame "super" = owner.superclass.map .cls

/-- A value that came about as it should. -/
def Value.Proper (k : Course) (m : Machine) : Value → Prop
  | .function identity closure =>
      closure.Placed k m ∧ (closure.Declared k identity ∨ closure.Bound m)
  | .cls c => c.Proper k m
  | .object place => ∃ o, m.objects[place]? = some o
  | _ => True

def Flow.Proper (k : Course) (m : Machine) : Flow → Prop
  | .normal => True
  | .returned value => value.Proper k m

def Instance.Proper (k : Course) (m : Machine) (o : Instance) : Prop :=
  o.cls.Proper k m ∧ ∀ name value, o.fields.lookup name = some value → value.Proper k m

/-- A machine that holds nothing but proper values, and has neither `this` nor `super` in its current
frame. -/
structure Machine.Proper (k : Course) (m : Machine) : Prop where
  current : m.current < m.frames.size
  bare : ∀ name, ¬ Ordinary name → m.frames.lookup? m.current name = none
  bound : ∀ {frame name value}, m.frames.lookup? frame name = some value → value.Proper k m
  objects : ∀ {place : Nat} {o : Instance}, m.objects[place]? = some o → o.Proper k m

/-- A machine that went on: frames keep what surrounds them and what they have under `this` and
`super`, and objects keep their class. -/
structure Machine.Onward (m m' : Machine) : Prop where
  frames : m.frames.size ≤ m'.frames.size
  enclosing : ∀ {frame}, frame < m.frames.size →
    m'.frames.enclosing? frame = m.frames.enclosing? frame
  kept : ∀ {frame name}, frame < m.frames.size → ¬ Ordinary name →
    m'.frames.lookup? frame name = m.frames.lookup? frame name
  objects : ∀ {place : Nat} {o : Instance}, m.objects[place]? = some o →
    ∃ o', m'.objects[place]? = some o' ∧ o'.cls = o.cls

theorem not_ordinary_this : ¬ Ordinary "this" := by
  simp [Ordinary]

theorem not_ordinary_super : ¬ Ordinary "super" := by
  simp [Ordinary]

/-- The body that a class was made from. -/
theorem Class.MadeFrom.body
    {k : Course}
    {body : Address}
    {frame : Nat}
    {c : Class}
    (h : c.MadeFrom k body frame) :
    ∃ methods, k.program.at? body = some (.classBody c.superclass.isSome methods) ∧
      c.methods = methodTable frame methods := by
  cases h with
  | @plain q name methods identity frame hstatement =>
      refine ⟨methods, ?_, rfl⟩
      rw [Part.at?_snoc, hstatement]
      rfl
  | @derived q name superclass methods parent m hstatement hseen =>
      refine ⟨methods, ?_, rfl⟩
      rw [Part.at?_append, hstatement]
      rfl

namespace Machine.Onward

variable {m m' m'' : Machine}

theorem refl (m : Machine) : m.Onward m :=
  ⟨Nat.le_refl _, fun _ => rfl, fun _ _ => rfl, fun ho => ⟨_, ho, rfl⟩⟩

theorem trans
    (h : m.Onward m')
    (h' : m'.Onward m'') :
    m.Onward m'' where
  frames := Nat.le_trans h.frames h'.frames
  enclosing := fun hlt =>
    (h'.enclosing (Nat.lt_of_lt_of_le hlt h.frames)).trans (h.enclosing hlt)
  kept := fun hlt hname =>
    (h'.kept (Nat.lt_of_lt_of_le hlt h.frames) hname).trans (h.kept hlt hname)
  objects := by
    intro place o ho
    obtain ⟨o', ho', hcls⟩ := h.objects ho
    obtain ⟨o'', ho'', hcls'⟩ := h'.objects ho'
    exact ⟨o'', ho'', hcls'.trans hcls⟩

theorem enclosing_some
    (h : m.Onward m')
    {frame outer : Nat}
    (henclosing : m.frames.enclosing? frame = some outer) :
    m'.frames.enclosing? frame = some outer := by
  rw [h.enclosing (Frames.lt_size_of_enclosing? henclosing), henclosing]

theorem lookup_some
    (h : m.Onward m')
    {frame : Nat}
    {name : String}
    {value : Value}
    (hname : ¬ Ordinary name)
    (hlookup : m.frames.lookup? frame name = some value) :
    m'.frames.lookup? frame name = some value := by
  rw [h.kept (Frames.lt_size_of_lookup? hlookup) hname, hlookup]

end Machine.Onward

section Mono

variable {k : Course}
variable {m m' : Machine}

theorem Machine.Stands.lt_size
    {frame : Nat}
    {scopes : List Address}
    (h : m.Stands k frame scopes) :
    frame < m.frames.size := by
  cases scopes with
  | nil =>
      exact h.2.1
  | cons scope scopes =>
      obtain ⟨around, henclosing, -, -⟩ := h
      exact Frames.lt_size_of_enclosing? henclosing

theorem Machine.Holds.mono
    {scope : Address}
    {frame around : Nat}
    (h : m.Holds k scope frame around)
    (honward : m.Onward m')
    (hframe : frame < m.frames.size)
    (haround : around < m.frames.size) :
    m'.Holds k scope frame around := by
  unfold Holds at h ⊢
  split
  · rename_i derived methods hscope
    rw [hscope] at h
    obtain ⟨place, o, c, hthis, ho, hc, hmade, hsuper⟩ := h
    obtain ⟨o', ho', hcls⟩ := honward.objects ho
    exact ⟨place, o', c, honward.lookup_some not_ordinary_this hthis, ho', hcls ▸ hc, hmade,
      (honward.kept haround not_ordinary_super).trans hsuper⟩
  · rename_i hscope
    rw [honward.kept hframe not_ordinary_this]
    split at h
    · exact absurd ‹_› (hscope _ _)
    · exact h

theorem Machine.Stands.mono
    {frame : Nat}
    {scopes : List Address}
    (h : m.Stands k frame scopes)
    (honward : m.Onward m') :
    m'.Stands k frame scopes := by
  induction scopes generalizing frame with
  | nil =>
      obtain ⟨hglobals, hlt, houtmost, hthis⟩ := h
      exact ⟨hglobals, Nat.lt_of_lt_of_le hlt honward.frames, (honward.enclosing hlt).trans houtmost,
        (honward.kept hlt not_ordinary_this).trans hthis⟩
  | cons scope scopes ih =>
      obtain ⟨around, henclosing, hstands, hholds⟩ := h
      exact ⟨around, honward.enclosing_some henclosing, ih hstands,
        hholds.mono honward (Frames.lt_size_of_enclosing? henclosing) hstands.lt_size⟩

theorem Closure.Placed.mono
    {closure : Closure}
    (h : closure.Placed k m)
    (honward : m.Onward m') :
    closure.Placed k m' := by
  obtain ⟨a, sort, hat, hstands⟩ := h
  exact ⟨a, sort, hat, hstands.mono honward⟩

theorem Closure.Bound.mono
    {closure : Closure}
    (h : closure.Bound m)
    (honward : m.Onward m') :
    closure.Bound m' := by
  obtain ⟨place, o, c, outer, hthis, ho, hc, hmethod, hframes, henclosing, hinit⟩ := h
  obtain ⟨o', ho', hcls⟩ := honward.objects ho
  exact ⟨place, o', c, outer, honward.lookup_some not_ordinary_this hthis, ho', hcls ▸ hc, hmethod,
    hframes, honward.enclosing_some henclosing, hinit⟩

theorem Class.Proper.mono
    {c : Class}
    (h : c.Proper k m)
    (honward : m.Onward m') :
    c.Proper k m' := by
  intro owner howner
  obtain ⟨body, frame, hmade, hstands, hsuper⟩ := h owner howner
  exact ⟨body, frame, hmade, hstands.mono honward,
    (honward.kept hstands.lt_size not_ordinary_super).trans hsuper⟩

theorem Value.Proper.mono
    {value : Value}
    (h : value.Proper k m)
    (honward : m.Onward m') :
    value.Proper k m' := by
  cases value with
  | function identity closure =>
      exact ⟨h.1.mono honward, h.2.imp id fun hbound => hbound.mono honward⟩
  | cls c =>
      exact Class.Proper.mono h honward
  | object place =>
      obtain ⟨o, ho⟩ := h
      obtain ⟨o', ho', -⟩ := honward.objects ho
      exact ⟨o', ho'⟩
  | _ =>
      trivial

theorem Instance.Proper.mono
    {o : Instance}
    (h : o.Proper k m)
    (honward : m.Onward m') :
    o.Proper k m' :=
  ⟨h.1.mono honward, fun name value hvalue => (h.2 name value hvalue).mono honward⟩

end Mono

namespace Machine.Onward

variable {m m' : Machine}

theorem of_same
    (hframes : m'.frames = m.frames)
    (hobjects : m'.objects = m.objects) :
    m.Onward m' where
  frames := by
    rw [hframes]
  enclosing := by
    intro frame _
    rw [hframes]
  kept := by
    intro frame name _ _
    rw [hframes]
  objects := by
    intro place o ho
    exact ⟨o, by rw [hobjects, ho], rfl⟩

theorem define
    (m : Machine)
    {name : String}
    (hname : Ordinary name)
    (frame : Nat)
    (value : Value) :
    m.Onward { m with frames := m.frames.define frame name value } where
  frames := Nat.le_of_eq (Frames.size_define ..).symm
  enclosing := fun _ => Frames.enclosing?_define ..
  kept := by
    intro frame' other _ hother
    rw [Frames.lookup?_define_eq]
    refine if_neg ?_
    rintro ⟨-, rfl, -⟩
    exact hother hname
  objects := fun ho => ⟨_, ho, rfl⟩

theorem push
    (m : Machine)
    (outer : Nat) :
    m.Onward { m with frames := m.frames.push outer } where
  frames := by
    rw [Frames.size_push]
    omega
  enclosing := fun hlt => Frames.enclosing?_push_of_ne (Nat.ne_of_lt hlt) outer
  kept := fun _ _ => Frames.lookup?_push ..
  objects := fun ho => ⟨_, ho, rfl⟩

theorem pushWith
    (m : Machine)
    (outer : Nat)
    (name : String)
    (value : Value) :
    m.Onward { m with frames := m.frames.pushWith outer name value } where
  frames := by
    rw [Frames.size_pushWith]
    omega
  enclosing := fun hlt => Frames.enclosing?_pushWith_of_lt _ _ _ _ hlt
  kept := by
    intro frame other hlt _
    rw [Frames.lookup?_pushWith]
    exact if_neg fun h => Nat.ne_of_lt hlt h.1
  objects := fun ho => ⟨_, ho, rfl⟩

theorem newObject
    (m : Machine)
    (c : Class) :
    m.Onward { m with objects := m.objects.push ⟨c, []⟩ } where
  frames := Nat.le_refl _
  enclosing := fun _ => rfl
  kept := fun _ _ => rfl
  objects := by
    intro place o ho
    have hlt := (Array.getElem?_eq_some_iff.mp ho).1
    refine ⟨o, ?_, rfl⟩
    rw [Array.getElem?_push, if_neg (Nat.ne_of_lt hlt), ho]

theorem setField
    (m : Machine)
    (place : Nat)
    (name : String)
    (value : Value) :
    m.Onward { m with objects := m.objects.modify place (·.setField name value) } where
  frames := Nat.le_refl _
  enclosing := fun _ => rfl
  kept := fun _ _ => rfl
  objects := by
    intro place' o ho
    by_cases hplace : place = place'
    · exact ⟨o.setField name value, by simp [Array.getElem?_modify, hplace, ho], rfl⟩
    · exact ⟨o, by simp [Array.getElem?_modify, hplace, ho], rfl⟩

end Machine.Onward

namespace Machine.Proper

variable {k : Course}
variable {m m' : Machine}

/-- A machine stays proper if only what is proper is added. -/
theorem step
    (h : m.Proper k)
    (honward : m.Onward m')
    (hcurrent : m'.current = m.current)
    (hbound : ∀ {frame name value}, m'.frames.lookup? frame name = some value →
      m.frames.lookup? frame name = some value ∨ value.Proper k m')
    (hobjects : ∀ {place : Nat} {o : Instance}, m'.objects[place]? = some o →
      m.objects[place]? = some o ∨ o.Proper k m') :
    m'.Proper k where
  current := by
    rw [hcurrent]
    exact Nat.lt_of_lt_of_le h.current honward.frames
  bare := by
    intro name hname
    rw [hcurrent, honward.kept h.current hname]
    exact h.bare name hname
  bound := by
    intro frame name value hvalue
    exact (hbound hvalue).elim (fun hold => (h.bound hold).mono honward) id
  objects := by
    intro place o ho
    exact (hobjects ho).elim (fun hold => (h.objects hold).mono honward) id

theorem of_same
    (h : m.Proper k)
    (hframes : m'.frames = m.frames)
    (hobjects : m'.objects = m.objects)
    (hcurrent : m'.current = m.current) :
    m'.Proper k :=
  h.step (.of_same hframes hobjects) hcurrent (fun hvalue => .inl (hframes ▸ hvalue))
    fun ho => .inl (hobjects ▸ ho)

/-- Another frame without `this` and `super` becomes the current one. -/
theorem enter
    (h : m.Proper k)
    {frame : Nat}
    (hlt : frame < m.frames.size)
    (hbare : ∀ name, ¬ Ordinary name → m.frames.lookup? frame name = none) :
    Machine.Proper k { m with current := frame } where
  current := hlt
  bare := hbare
  bound := fun hvalue => (h.bound hvalue).mono (.of_same rfl rfl)
  objects := fun ho => (h.objects ho).mono (.of_same rfl rfl)

theorem define
    (h : m.Proper k)
    {name : String}
    {value : Value}
    (hname : Ordinary name)
    (hvalue : value.Proper k m)
    (frame : Nat) :
    Machine.Proper k { m with frames := m.frames.define frame name value } := by
  have honward := Onward.define m hname frame value
  refine h.step honward rfl ?_ .inl
  intro frame' name' value' hlookup
  rcases Frames.lookup?_define hlookup with ⟨-, -, rfl⟩ | hold
  · exact .inr (hvalue.mono honward)
  · exact .inl hold

theorem push
    (h : m.Proper k)
    (outer : Nat) :
    Machine.Proper k { m with frames := m.frames.push outer } := by
  refine h.step (.push m outer) rfl ?_ .inl
  intro frame name value hlookup
  rw [Frames.lookup?_push] at hlookup
  exact .inl hlookup

theorem pushWith
    (h : m.Proper k)
    {value : Value}
    (hvalue : value.Proper k m)
    (outer : Nat)
    (name : String) :
    Machine.Proper k { m with frames := m.frames.pushWith outer name value } := by
  have honward := Onward.pushWith m outer name value
  refine h.step honward rfl ?_ .inl
  intro frame other value' hlookup
  rw [Frames.lookup?_pushWith] at hlookup
  split at hlookup
  · cases hlookup
    exact .inr (hvalue.mono honward)
  · exact .inl hlookup

theorem newObject
    (h : m.Proper k)
    {c : Class}
    (hc : c.Proper k m) :
    Machine.Proper k { m with objects := m.objects.push ⟨c, []⟩ } := by
  have honward := Onward.newObject m c
  refine h.step honward rfl .inl ?_
  intro place o ho
  simp only [Array.getElem?_push] at ho
  split at ho
  · cases ho
    exact .inr ⟨hc.mono honward, by simp⟩
  · exact .inl ho

theorem setField
    (h : m.Proper k)
    {name : String}
    {value : Value}
    (hvalue : value.Proper k m)
    (place : Nat) :
    Machine.Proper k
      { m with objects := m.objects.modify place (·.setField name value) } := by
  have honward := Onward.setField m place name value
  refine h.step honward rfl .inl ?_
  intro place' o ho
  simp only [Array.getElem?_modify] at ho
  split at ho
  · obtain ⟨old, hold, rfl⟩ := Option.map_eq_some_iff.mp ho
    obtain ⟨hcls, hfields⟩ := (h.objects hold).mono honward
    refine .inr ⟨hcls, ?_⟩
    intro field v hv
    by_cases hfield : field = name
    · rw [hfield] at hv
      simp only [Instance.setField, lookup_putBinding_self, Option.some.injEq] at hv
      exact hv ▸ hvalue.mono honward
    · simp only [Instance.setField, lookup_putBinding_of_ne hfield] at hv
      exact hfields field v hv
  · exact .inl ho

/-- The machine that has run nothing. -/
theorem start (k : Course) : Machine.start.Proper k where
  current := by
    simp [Machine.start, Frames.root, Frames.size, Frames.define, globals]
  bare := by
    intro name hname
    cases hlookup : Machine.start.frames.lookup? Machine.start.current name with
    | none =>
        rfl
    | some value =>
        rw [(Machine.lookup?_start hlookup).1] at hname
        exact absurd (by simp [Ordinary]) hname
  bound := by
    intro frame name value hlookup
    rw [(Machine.lookup?_start hlookup).2]
    trivial
  objects := by
    intro place o ho
    simp [Machine.start] at ho

end Machine.Proper

end Lox
