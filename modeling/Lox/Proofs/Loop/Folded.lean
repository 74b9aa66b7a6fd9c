import Lox.Proofs.Loop.Lowered
import Lox.Proofs.Machine.Matching
import Lox.Proofs.Machine.Safety

/-!
# Machines without the frame of a scope

A program runs on two machines, on the first with frames for an additional scope, on the second
without.  A `Folding` tells which frame of the second machine stands for a frame of the first, and how
far out from there the additional frame lies.  For the additional frame itself, in which nothing is
bound, stands the frame around it.

Machines are folded if the same names are bound in frames that stand for each other, to values that
are folded in turn: their code is the same but for what is between it and the frame that it was made
in.
-/

namespace Lox

/-- Which frame stands for a frame, and how far out from there the additional frame lies. -/
abbrev Folding := Nat → Option (Nat × Gap)

namespace Folding

/-- All frames keep what stands for them. -/
def Grows (φ ψ : Folding) : Prop :=
  ∀ ⦃frame there⦄, φ frame = some there → ψ frame = some there

/-- The folding after a frame was added. -/
def push (φ : Folding) (size : Nat) (there : Nat × Gap) : Folding :=
  fun frame => if frame = size then some there else φ frame

variable {φ ψ : Folding}

theorem Grows.refl (φ : Folding) : Grows φ φ :=
  fun _ _ h => h

theorem Grows.trans
    {χ : Folding}
    (h : Grows φ ψ)
    (h' : Grows ψ χ) :
    Grows φ χ :=
  fun _ _ hthere => h' (h hthere)

theorem push_self (φ : Folding) (size : Nat) (there : Nat × Gap) :
    φ.push size there size = some there := by
  simp [push]

theorem push_of_ne
    {frame size : Nat}
    (h : frame ≠ size)
    (there : Nat × Gap) :
    φ.push size there frame = φ frame := by
  simp [push, h]

end Folding

theorem Gap.inner_injective : Function.Injective Gap.inner := by
  intro p q h
  cases p <;> cases q <;> simp_all [inner]

section Folds

variable (L : Tables)
variable (φ : Folding)

/-- The same code, made in frames that stand for each other.  Between the frame and the function there
can be another scope, as that of `this` around a method. -/
def Closure.Folds (around : Gap → Gap) (closure closure' : Closure) : Prop :=
  ∃ n q, φ closure.frame = some (closure'.frame, Gap.inner q) ∧
    closure'.decl = Stmt.shiftedFunction n closure.decl ∧
    closure'.isInitializer = closure.isInitializer ∧
    Stmt.LowersFunction L n (around (Gap.inner q)) closure.decl

/-- Classes with the same identity and name and the same methods. -/
structure Class.Folds (c c' : Class) : Prop where
  identity : c'.identity = c.identity
  name : c'.name = c.name
  methods : ∀ name, Option.Rel (Closure.Folds L φ Gap.inner) (c.findMethod? name)
    (c'.findMethod? name)

/-- Values that differ at most by the frames that code was made in. -/
inductive Value.Folds : Value → Value → Prop where
  | native (n : Native) : Value.Folds (.native n) (.native n)
  | function (identity : Nat) {closure closure' : Closure}
      (h : Closure.Folds L φ id closure closure') :
      Value.Folds (.function identity closure) (.function identity closure')
  | cls {c c' : Class} (h : Class.Folds L φ c c') : Value.Folds (.cls c) (.cls c')
  | object (place : Nat) : Value.Folds (.object place) (.object place)
  | number (x : Float) : Value.Folds (.number x) (.number x)
  | string (s : String) : Value.Folds (.string s) (.string s)
  | bool (b : Bool) : Value.Folds (.bool b) (.bool b)
  | nil : Value.Folds .nil .nil

/-- Objects of the same class with the same fields. -/
structure Instance.Folds (o o' : Instance) : Prop where
  cls : Class.Folds L φ o.cls o'.cls
  fields : ∀ name, Option.Rel (Value.Folds L φ) (o.fields.lookup name) (o'.fields.lookup name)

/-- Both statements end normally, or both return the same value. -/
inductive Flow.Folds : Flow → Flow → Prop where
  | normal : Flow.Folds .normal .normal
  | returned {value value' : Value} (h : Value.Folds L φ value value') :
      Flow.Folds (.returned value) (.returned value')

/-- Frames that stand for each other are enclosed by such frames and hold the same values. -/
structure Frames.Folds (fs fs' : Frames) : Prop where
  inside : ∀ {frame there p}, φ frame = some (there, p) → frame < fs.size ∧ there < fs'.size
  injective : ∀ {frame other there p q}, φ frame = some (there, Gap.inner p) →
    φ other = some (there, Gap.inner q) → other = frame
  folded : ∀ {frame there}, φ frame = some (there, some 0) →
    ∃ outer, fs.enclosing? frame = some outer ∧ φ outer = some (there, none)
  enclosing : ∀ {frame there q}, φ frame = some (there, Gap.inner q) →
    Option.Rel (fun outer outer' => φ outer = some (outer', q)) (fs.enclosing? frame)
      (fs'.enclosing? there)
  bound : ∀ {frame there q}, φ frame = some (there, Gap.inner q) → ∀ name,
    Option.Rel (Value.Folds L φ) (fs.lookup? frame name) (fs'.lookup? there name)

/-- Machines that differ at most by the additional frames. -/
structure Machine.Folds (m m' : Machine) : Prop where
  globals : φ Machine.globals = some (Machine.globals, none)
  outermost : m.frames.enclosing? Machine.globals = none
  frames : Frames.Folds L φ m.frames m'.frames
  count : m'.objects.size = m.objects.size
  objects : ∀ place : Nat, Option.Rel (Instance.Folds L φ) m.objects[place]? m'.objects[place]?
  classCount : m'.classCount = m.classCount
  functionCount : m'.functionCount = m.functionCount
  readings : m'.readings = m.readings
  output : m'.output = m.output

/-- Such machines at the same place of the program, which has the additional frame so far out. -/
structure Machine.FoldsAt (p : Gap) (m m' : Machine) : Prop where
  folds : Machine.Folds L φ m m'
  current : φ m.current = some (m'.current, p)

end Folds

section Values

variable {L : Tables}
variable {φ ψ : Folding}

theorem Stmt.name_shiftedFunction (n : Nat) (decl : FunctionDecl) :
    (Stmt.shiftedFunction n decl).name = decl.name := by
  cases decl
  rfl

theorem Stmt.arity_shiftedFunction (n : Nat) (decl : FunctionDecl) :
    (Stmt.shiftedFunction n decl).arity = decl.arity := by
  cases decl
  rfl

theorem Class.Folds.arity_eq
    {c c' : Class}
    (h : Class.Folds L φ c c')
    (initializer : String) :
    c'.arity initializer = c.arity initializer := by
  unfold Class.arity
  obtain ⟨hnone, hnone'⟩ | ⟨method, method', hmethod, hmethod', hclosure⟩ :=
    optionRel_cases (h.methods initializer)
  · rw [hnone, hnone']
  · obtain ⟨n, _, -, hdecl, -⟩ := hclosure
    simp only [hmethod, hmethod', hdecl, Stmt.arity_shiftedFunction]

theorem Value.Folds.toMatches
    {value value' : Value}
    (h : Value.Folds L φ value value') :
    value.Matches value' := by
  cases h with
  | native n =>
      exact .native n
  | function identity hclosure =>
      obtain ⟨n, _, -, hdecl, -⟩ := hclosure
      refine .function identity ?_ ?_
      · rw [hdecl, Stmt.name_shiftedFunction]
      · rw [hdecl, Stmt.arity_shiftedFunction]
  | cls hclass =>
      exact .cls hclass.identity hclass.name (hclass.arity_eq _)
  | object place =>
      exact .object place
  | number x =>
      exact .number x
  | string s =>
      exact .string s
  | bool b =>
      exact .bool b
  | nil =>
      exact .nil

theorem Value.Plain.folds
    {value : Value}
    (h : value.Plain) :
    Value.Folds L φ value value := by
  cases value with
  | number x =>
      exact .number x
  | string s =>
      exact .string s
  | bool b =>
      exact .bool b
  | _ =>
      exact h.elim

theorem Machine.Folds.toMatches
    {m m' : Machine}
    (h : Machine.Folds L φ m m') :
    Instance.Matches m.objects m'.objects :=
  fun place => optionRel_mono (fun ho => ho.cls.name) (h.objects place)

variable (hgrows : φ.Grows ψ)

include hgrows

theorem Closure.Folds.mono
    {around : Gap → Gap}
    {closure closure' : Closure}
    (h : Closure.Folds L φ around closure closure') :
    Closure.Folds L ψ around closure closure' := by
  obtain ⟨n, q, hframe, hrest⟩ := h
  exact ⟨n, q, hgrows hframe, hrest⟩

theorem Class.Folds.mono
    {c c' : Class}
    (h : Class.Folds L φ c c') :
    Class.Folds L ψ c c' where
  identity := h.identity
  name := h.name
  methods name := optionRel_mono (fun hmethod => hmethod.mono hgrows) (h.methods name)

theorem Value.Folds.mono
    {value value' : Value}
    (h : Value.Folds L φ value value') :
    Value.Folds L ψ value value' := by
  cases h with
  | function identity hclosure =>
      exact .function identity (hclosure.mono hgrows)
  | cls hclass =>
      exact .cls (hclass.mono hgrows)
  | native n =>
      exact .native n
  | object place =>
      exact .object place
  | number x =>
      exact .number x
  | string s =>
      exact .string s
  | bool b =>
      exact .bool b
  | nil =>
      exact .nil

theorem Instance.Folds.mono
    {o o' : Instance}
    (h : Instance.Folds L φ o o') :
    Instance.Folds L ψ o o' where
  cls := h.cls.mono hgrows
  fields name := optionRel_mono (fun hvalue => hvalue.mono hgrows) (h.fields name)

end Values

namespace Frames.Folds

variable {L : Tables}
variable {φ : Folding}
variable {fs fs' : Frames}

/-- Going outward, one arrives at frames that stand for each other, unless the first is the additional
one. -/
theorem outward?
    (h : Frames.Folds L φ fs fs')
    {d frame there : Nat}
    {p : Gap}
    (hframe : φ frame = some (there, p))
    (hd : p ≠ some d) :
    Option.Rel (fun target target' => ∃ q, φ target = some (target', Gap.inner q))
      (fs.outward? d frame) (fs'.outward? (p.lower d) there) := by
  induction d generalizing frame there p with
  | zero =>
      obtain ⟨q, rfl⟩ := Gap.exists_inner hd
      rw [Gap.lower_zero]
      exact .some ⟨q, hframe⟩
  | succ d ih =>
      by_cases hp : p = some 0
      · subst hp
        obtain ⟨outer, houter, hthere⟩ := h.folded hframe
        rw [Gap.lower_here_succ]
        simp only [Frames.outward?, houter]
        exact ih hthere (by simp)
      · obtain ⟨q, rfl⟩ := Gap.exists_inner hp
        have hq : q ≠ some d := by
          rintro rfl
          exact hd rfl
        rw [Gap.lower_inner_succ]
        simp only [Frames.outward?]
        obtain ⟨hnone, hnone'⟩ | ⟨outer, outer', houter, houter', hthere⟩ :=
          optionRel_cases (h.enclosing hframe)
        · simp only [hnone, hnone']
          exact .none
        · simp only [houter, houter']
          exact ih hthere hq

theorem getAt?
    (h : Frames.Folds L φ fs fs')
    {d frame there : Nat}
    {p : Gap}
    (hframe : φ frame = some (there, p))
    (hd : p ≠ some d)
    (name : String) :
    Option.Rel (Value.Folds L φ) (fs.getAt? frame d name) (fs'.getAt? there (p.lower d) name) := by
  unfold Frames.getAt?
  obtain ⟨hnone, hnone'⟩ | ⟨target, target', htarget, htarget', q, hthere⟩ :=
    optionRel_cases (h.outward? hframe hd)
  · simp only [hnone, hnone']
    exact .none
  · simp only [htarget, htarget']
    exact h.bound hthere name

/-- In the global frame the same names are bound. -/
theorem globals
    (h : Frames.Folds L φ fs fs')
    (hglobals : φ Machine.globals = some (Machine.globals, none))
    (houtermost : fs.enclosing? Machine.globals = none)
    (name : String) :
    fs'.holder? Machine.globals name = fs.holder? Machine.globals name ∧
      Option.Rel (Value.Folds L φ) (fs.get? Machine.globals name)
        (fs'.get? Machine.globals name) := by
  obtain ⟨hlt, hlt'⟩ := h.inside hglobals
  have houtermost' : fs'.enclosing? Machine.globals = none := by
    obtain ⟨-, hnone⟩ | ⟨outer, _, houter, -⟩ :=
      optionRel_cases (h.enclosing (q := none) hglobals)
    · exact hnone
    · rw [houtermost] at houter
      cases houter
  have hbound := h.bound (q := none) hglobals name
  unfold Frames.get? Frames.holder?
  rw [← Nat.succ_pred_eq_of_pos hlt, ← Nat.succ_pred_eq_of_pos hlt']
  simp only [Frames.holderWithin?, houtermost, houtermost']
  obtain ⟨hnone, hnone'⟩ | ⟨value, value', hvalue, hvalue', hfolds⟩ := optionRel_cases hbound
  · simp only [hnone, hnone', true_and]
    exact .none
  · simp only [hvalue, hvalue', true_and]
    exact .some hfolds

/-- The same name is bound in frames that stand for each other. -/
theorem define
    {frame there : Nat}
    {q : Gap}
    {value value' : Value}
    (h : Frames.Folds L φ fs fs')
    (hframe : φ frame = some (there, Gap.inner q))
    (hvalue : Value.Folds L φ value value')
    (name : String) :
    Frames.Folds L φ (fs.define frame name value) (fs'.define there name value') where
  inside hother := by
    rw [size_define, size_define]
    exact h.inside hother
  injective := h.injective
  folded hother := by
    rw [enclosing?_define]
    exact h.folded hother
  enclosing hother := by
    rw [enclosing?_define, enclosing?_define]
    exact h.enclosing hother
  bound := by
    intro other other' p hother n
    obtain ⟨hlt, hlt'⟩ := h.inside hother
    have hsame : other' = there ↔ other = frame := by
      constructor
      · rintro rfl
        exact h.injective hframe hother
      · rintro rfl
        rw [hframe] at hother
        exact (Prod.mk.inj (Option.some.inj hother)).1.symm
    simp only [lookup?_define_eq, hlt, hlt', and_true, hsame]
    split
    · exact .some hvalue
    · exact h.bound hother n

section Push

variable {outer outer' : Nat}
variable {p : Gap}

theorem grows_push
    (h : Frames.Folds L φ fs fs')
    (there : Nat × Gap) :
    φ.Grows (φ.push fs.size there) := by
  intro frame _ hframe
  rw [Folding.push_of_ne (Nat.ne_of_lt (h.inside hframe).1)]
  exact hframe

/-- Frames are added to both. -/
theorem push
    (h : Frames.Folds L φ fs fs')
    (houter : φ outer = some (outer', p)) :
    Frames.Folds L (φ.push fs.size (fs'.size, p.inner)) (fs.push outer) (fs'.push outer') := by
  have hgrows := h.grows_push (fs'.size, p.inner)
  have hcases : ∀ {frame there q},
      φ.push fs.size (fs'.size, p.inner) frame = some (there, q) →
      (frame = fs.size ∧ there = fs'.size ∧ q = p.inner) ∨
        (φ frame = some (there, q) ∧ frame < fs.size ∧ there < fs'.size) := by
    intro frame there q hframe
    by_cases hself : frame = fs.size
    · subst hself
      rw [Folding.push_self] at hframe
      cases hframe
      exact .inl ⟨rfl, rfl, rfl⟩
    · rw [Folding.push_of_ne hself] at hframe
      exact .inr ⟨hframe, h.inside hframe⟩
  constructor
  · intro frame there q hframe
    rw [size_push, size_push]
    obtain ⟨rfl, rfl, -⟩ | ⟨-, hlt, hlt'⟩ := hcases hframe <;> omega
  · intro frame other there q q' hframe hother
    obtain ⟨rfl, rfl, -⟩ | ⟨hframe, hlt, hlt'⟩ := hcases hframe
    · obtain ⟨rfl, -, -⟩ | ⟨-, -, hlt'⟩ := hcases hother
      · rfl
      · omega
    · obtain ⟨rfl, rfl, -⟩ | ⟨hother, -, -⟩ := hcases hother
      · omega
      · exact h.injective hframe hother
  · intro frame there hframe
    obtain ⟨-, -, hp⟩ | ⟨hframe, hlt, -⟩ := hcases hframe
    · exact absurd hp.symm p.inner_ne_zero
    · rw [enclosing?_push_of_ne (Nat.ne_of_lt hlt)]
      obtain ⟨around, haround, hthere⟩ := h.folded hframe
      exact ⟨around, haround, hgrows hthere⟩
  · intro frame there q hframe
    obtain ⟨rfl, rfl, hq⟩ | ⟨hframe, hlt, hlt'⟩ := hcases hframe
    · rw [Gap.inner_injective hq, enclosing?_push_self, enclosing?_push_self]
      exact .some (hgrows houter)
    · rw [enclosing?_push_of_ne (Nat.ne_of_lt hlt), enclosing?_push_of_ne (Nat.ne_of_lt hlt')]
      exact optionRel_mono (fun hthere => hgrows hthere) (h.enclosing hframe)
  · intro frame there q hframe name
    rw [lookup?_push, lookup?_push]
    obtain ⟨rfl, rfl, -⟩ | ⟨hframe, -⟩ := hcases hframe
    · rw [lookup?_of_size_le (Nat.le_refl _), lookup?_of_size_le (Nat.le_refl _)]
      exact .none
    · exact optionRel_mono (fun hvalue => hvalue.mono hgrows) (h.bound hframe name)

/-- An additional frame is added to the first. -/
theorem fold
    (h : Frames.Folds L φ fs fs')
    (houter : φ outer = some (outer', none)) :
    Frames.Folds L (φ.push fs.size (outer', some 0)) (fs.push outer) fs' := by
  have hgrows := h.grows_push (outer', some 0)
  have hold : ∀ {frame there q},
      φ.push fs.size (outer', some 0) frame = some (there, Gap.inner q) →
      φ frame = some (there, Gap.inner q) ∧ frame < fs.size := by
    intro frame there q hframe
    by_cases hself : frame = fs.size
    · subst hself
      rw [Folding.push_self] at hframe
      exact absurd (Prod.mk.inj (Option.some.inj hframe)).2.symm q.inner_ne_zero
    · rw [Folding.push_of_ne hself] at hframe
      exact ⟨hframe, (h.inside hframe).1⟩
  constructor
  · intro frame there q hframe
    rw [size_push]
    by_cases hself : frame = fs.size
    · subst hself
      rw [Folding.push_self] at hframe
      cases hframe
      exact ⟨Nat.lt_succ_self _, (h.inside houter).2⟩
    · rw [Folding.push_of_ne hself] at hframe
      obtain ⟨hlt, hlt'⟩ := h.inside hframe
      exact ⟨Nat.lt_succ_of_lt hlt, hlt'⟩
  · intro frame other there q q' hframe hother
    exact h.injective (hold hframe).1 (hold hother).1
  · intro frame there hframe
    by_cases hself : frame = fs.size
    · subst hself
      rw [Folding.push_self] at hframe
      cases hframe
      exact ⟨outer, enclosing?_push_self fs outer, hgrows houter⟩
    · rw [Folding.push_of_ne hself] at hframe
      rw [enclosing?_push_of_ne hself]
      obtain ⟨around, haround, hthere⟩ := h.folded hframe
      exact ⟨around, haround, hgrows hthere⟩
  · intro frame there q hframe
    obtain ⟨hframe, hlt⟩ := hold hframe
    rw [enclosing?_push_of_ne (Nat.ne_of_lt hlt)]
    exact optionRel_mono (fun hthere => hgrows hthere) (h.enclosing hframe)
  · intro frame there q hframe name
    obtain ⟨hframe, -⟩ := hold hframe
    rw [lookup?_push]
    exact optionRel_mono (fun hvalue => hvalue.mono hgrows) (h.bound hframe name)

end Push

end Frames.Folds

namespace Machine.Folds

variable {L : Tables}
variable {φ ψ : Folding}
variable {m m' : Machine}

/-- Frames are added or filled. -/
theorem reframe
    {fs fs' : Frames}
    (h : Machine.Folds L φ m m')
    (hgrows : φ.Grows ψ)
    (houtermost : fs.enclosing? Machine.globals = none)
    (hframes : Frames.Folds L ψ fs fs') :
    Machine.Folds L ψ { m with frames := fs } { m' with frames := fs' } :=
  { h with
    globals := hgrows h.globals
    outermost := houtermost
    frames := hframes
    objects := fun place => optionRel_mono (fun ho => ho.mono hgrows) (h.objects place) }

theorem define
    {frame there : Nat}
    {q : Gap}
    {value value' : Value}
    (h : Machine.Folds L φ m m')
    (hframe : φ frame = some (there, Gap.inner q))
    (hvalue : Value.Folds L φ value value')
    (name : String) :
    Machine.Folds L φ { m with frames := m.frames.define frame name value }
      { m' with frames := m'.frames.define there name value' } := by
  apply h.reframe (.refl _)
  · rw [Frames.enclosing?_define]
    exact h.outermost
  · exact h.frames.define hframe hvalue name

theorem enclosing?_push
    (h : Machine.Folds L φ m m')
    (outer : Nat) :
    (m.frames.push outer).enclosing? Machine.globals = none := by
  rw [Frames.enclosing?_push_of_ne (Nat.ne_of_lt (h.frames.inside h.globals).1)]
  exact h.outermost

theorem push
    {outer outer' : Nat}
    {p : Gap}
    (h : Machine.Folds L φ m m')
    (houter : φ outer = some (outer', p)) :
    Machine.Folds L (φ.push m.frames.size (m'.frames.size, p.inner))
      { m with frames := m.frames.push outer } { m' with frames := m'.frames.push outer' } :=
  h.reframe (h.frames.grows_push _) (h.enclosing?_push outer) (h.frames.push houter)

/-- Frames with one name are added to both. -/
theorem pushWith
    {outer outer' : Nat}
    {p : Gap}
    {value value' : Value}
    (h : Machine.Folds L φ m m')
    (houter : φ outer = some (outer', p))
    (hvalue : Value.Folds L φ value value')
    (name : String) :
    Machine.Folds L (φ.push m.frames.size (m'.frames.size, p.inner))
      { m with frames := m.frames.pushWith outer name value }
      { m' with frames := m'.frames.pushWith outer' name value' } :=
  (h.push houter).define (Folding.push_self _ _ _) (hvalue.mono (h.frames.grows_push _)) name

theorem fold
    {outer outer' : Nat}
    (h : Machine.Folds L φ m m')
    (houter : φ outer = some (outer', none)) :
    Machine.Folds L (φ.push m.frames.size (outer', some 0))
      { m with frames := m.frames.push outer } m' :=
  h.reframe (h.frames.grows_push _) (h.enclosing?_push outer) (h.frames.fold houter)

theorem newObject
    {c c' : Class}
    (h : Machine.Folds L φ m m')
    (hclass : Class.Folds L φ c c') :
    Machine.Folds L φ { m with objects := m.objects.push ⟨c, []⟩ }
      { m' with objects := m'.objects.push ⟨c', []⟩ } :=
  { h with
    count := by
      simp only [Array.size_push, h.count]
    objects := by
      intro place
      simp only [Array.getElem?_push, h.count]
      split
      · exact .some ⟨hclass, fun _ => .none⟩
      · exact h.objects place }

theorem setField
    {value value' : Value}
    (h : Machine.Folds L φ m m')
    (place : Nat)
    (name : String)
    (hvalue : Value.Folds L φ value value') :
    Machine.Folds L φ
      { m with objects := m.objects.modify place (·.setField name value) }
      { m' with objects := m'.objects.modify place (·.setField name value') } :=
  { h with
    count := by
      simp only [Array.size_modify, h.count]
    objects := by
      intro other
      have hother := h.objects other
      simp only [Array.getElem?_modify]
      split
      · obtain ⟨hnone, hnone'⟩ | ⟨o, o', ho, ho', hfolds⟩ := optionRel_cases hother
        · simp only [hnone, hnone']
          exact .none
        · simp only [ho, ho']
          refine .some ⟨hfolds.cls, ?_⟩
          intro field
          by_cases hfield : field = name
          · simp only [Instance.setField, hfield, lookup_putBinding_self]
            exact .some hvalue
          · simp only [Instance.setField, lookup_putBinding_of_ne hfield]
            exact hfolds.fields field
      · exact hother }

end Machine.Folds

end Lox
