import Lox.Proofs.Machine.Frames
import Lox.Proofs.Machine.Standing

/-!
# Well-formed stores

Frames and objects are numbered by their place, functions and classes by the order in which they were
made.  A machine is well formed if everything that it refers to exists, and if frames stand in older
frames and classes are derived from older classes, so that walking outward comes to an end.

Functions and classes never change once they are made.  A `Registry` says what was made under which
number; that all machines of a run agree with one registry is what immutability comes to.
-/

namespace Lox

/-- The classes and functions that were made, by their numbers. -/
structure Registry where
  classes : List Class
  functions : List Closure

/-- A registry to which classes and functions were added. -/
structure Registry.Grows (R R' : Registry) : Prop where
  classes : R.classes <+: R'.classes
  functions : R.functions <+: R'.functions

/-- A class by itself: it is filed under its number, its methods stand in frames that exist, and its
superclass is older. -/
structure Class.Filed (R : Registry) (m : Machine) (c : Class) : Prop where
  made : c.identity < m.classCount
  filed : R.classes[c.identity]? = some c
  methods : ∀ {name method}, c.methods.lookup name = some method → method.frame < m.frames.size
  superclass : ∀ {parent}, c.superclass = some parent → parent.identity < c.identity

/-- A class exists, and so do those that it is derived from. -/
def Class.Exists (R : Registry) (m : Machine) (c : Class) : Prop :=
  ∀ owner ∈ c.lineage, owner.Filed R m

/-- What a value refers to exists. -/
def Value.Exists (R : Registry) (m : Machine) : Value → Prop
  | .function identity closure =>
      identity < m.functionCount ∧ R.functions[identity]? = some closure ∧
        closure.frame < m.frames.size
  | .cls c => c.Exists R m
  | .object place => place < m.objects.size
  | _ => True

/-- What an object refers to exists. -/
structure Instance.Exists (R : Registry) (m : Machine) (o : Instance) : Prop where
  cls : o.cls.Exists R m
  fields : ∀ {name value}, o.fields.lookup name = some value → value.Exists R m

/-- Everything that a machine refers to exists, and every frame but the global one stands in an older
frame. -/
structure Machine.WellFormed (R : Registry) (m : Machine) : Prop where
  current : m.current < m.frames.size
  outermost : m.frames.enclosing? Machine.globals = none
  enclosing : ∀ {frame}, frame < m.frames.size → frame ≠ Machine.globals →
    ∃ outer < frame, m.frames.enclosing? frame = some outer
  bound : ∀ {frame name value}, m.frames.lookup? frame name = some value → value.Exists R m
  objects : ∀ {place : Nat} {o : Instance}, m.objects[place]? = some o → o.Exists R m

/-- A store to which things were only added: frames keep what surrounds them and the names they have,
objects keep their class and the fields they have. -/
structure Machine.Precedes (m m' : Machine) : Prop where
  frames : m.frames.size ≤ m'.frames.size
  enclosing : ∀ {frame}, frame < m.frames.size →
    m'.frames.enclosing? frame = m.frames.enclosing? frame
  bound : ∀ {frame name}, m.frames.Bound frame name → m'.frames.Bound frame name
  objects : ∀ {place : Nat} {o : Instance}, m.objects[place]? = some o →
    ∃ o', m'.objects[place]? = some o' ∧ o'.cls = o.cls ∧
      ∀ name, (o.fields.lookup name).isSome → (o'.fields.lookup name).isSome
  classes : m.classCount ≤ m'.classCount
  functions : m.functionCount ≤ m'.functionCount

namespace Registry.Grows

variable {R R' R'' : Registry}

theorem refl (R : Registry) : R.Grows R :=
  ⟨List.prefix_refl _, List.prefix_refl _⟩

theorem trans
    (h : R.Grows R')
    (h' : R'.Grows R'') :
    R.Grows R'' :=
  ⟨h.classes.trans h'.classes, h.functions.trans h'.functions⟩

theorem getElem?_classes
    (h : R.Grows R')
    {identity : Nat}
    {c : Class}
    (hc : R.classes[identity]? = some c) :
    R'.classes[identity]? = some c := by
  obtain ⟨added, hadded⟩ := h.classes
  rw [← hadded, List.getElem?_append_left (List.getElem?_eq_some_iff.mp hc).1, hc]

theorem getElem?_functions
    (h : R.Grows R')
    {identity : Nat}
    {closure : Closure}
    (hclosure : R.functions[identity]? = some closure) :
    R'.functions[identity]? = some closure := by
  obtain ⟨added, hadded⟩ := h.functions
  rw [← hadded, List.getElem?_append_left (List.getElem?_eq_some_iff.mp hclosure).1, hclosure]

end Registry.Grows

namespace Machine.Precedes

variable {m m' m'' : Machine}

theorem refl (m : Machine) : m.Precedes m where
  frames := Nat.le_refl _
  enclosing := fun _ => rfl
  bound := id
  objects := fun ho => ⟨_, ho, rfl, fun _ => id⟩
  classes := Nat.le_refl _
  functions := Nat.le_refl _

theorem trans
    (h : m.Precedes m')
    (h' : m'.Precedes m'') :
    m.Precedes m'' where
  frames := Nat.le_trans h.frames h'.frames
  enclosing := fun hlt =>
    (h'.enclosing (Nat.lt_of_lt_of_le hlt h.frames)).trans (h.enclosing hlt)
  bound := fun hbound => h'.bound (h.bound hbound)
  objects := by
    intro place o ho
    obtain ⟨o', ho', hcls, hfields⟩ := h.objects ho
    obtain ⟨o'', ho'', hcls', hfields'⟩ := h'.objects ho'
    exact ⟨o'', ho'', hcls'.trans hcls, fun name hname => hfields' name (hfields name hname)⟩
  classes := Nat.le_trans h.classes h'.classes
  functions := Nat.le_trans h.functions h'.functions

/-- Only frames, objects and counts matter. -/
theorem of_same
    (hframes : m'.frames = m.frames)
    (hobjects : m'.objects = m.objects)
    (hclasses : m.classCount ≤ m'.classCount)
    (hfunctions : m.functionCount ≤ m'.functionCount) :
    m.Precedes m' where
  frames := Nat.le_of_eq (by rw [hframes])
  enclosing := fun _ => by rw [hframes]
  bound := fun hbound => by rwa [hframes]
  objects := fun ho => ⟨_, by rw [hobjects, ho], rfl, fun _ => id⟩
  classes := hclasses
  functions := hfunctions

/-- Frames that are extended, with all else as it was. -/
theorem of_frames
    {fs : Frames}
    (hextends : m.frames.Extends fs)
    (henclosing : ∀ {frame}, frame < m.frames.size →
      fs.enclosing? frame = m.frames.enclosing? frame) :
    m.Precedes { m with frames := fs } where
  frames := hextends.size
  enclosing := henclosing
  bound := hextends.bound
  objects := fun ho => ⟨_, ho, rfl, fun _ => id⟩
  classes := Nat.le_refl _
  functions := Nat.le_refl _

theorem define (m : Machine) (frame : Nat) (name : String) (value : Value) :
    m.Precedes { m with frames := m.frames.define frame name value } :=
  .of_frames (.define _ _ _ _) fun _ => Frames.enclosing?_define _ _ _ _ _

theorem push (m : Machine) (outer : Nat) :
    m.Precedes { m with frames := m.frames.push outer } :=
  .of_frames (.push _ _) fun hlt => Frames.enclosing?_push_of_ne (Nat.ne_of_lt hlt) _

theorem newObject (m : Machine) (c : Class) :
    m.Precedes { m with objects := m.objects.push ⟨c, []⟩ } where
  frames := Nat.le_refl _
  enclosing := fun _ => rfl
  bound := id
  objects := by
    intro place o ho
    have hlt := (Array.getElem?_eq_some_iff.mp ho).1
    refine ⟨o, ?_, rfl, fun _ => id⟩
    rw [Array.getElem?_push, if_neg (Nat.ne_of_lt hlt), ho]
  classes := Nat.le_refl _
  functions := Nat.le_refl _

theorem setField (m : Machine) (place : Nat) (name : String) (value : Value) :
    m.Precedes { m with objects := m.objects.modify place (·.setField name value) } where
  frames := Nat.le_refl _
  enclosing := fun _ => rfl
  bound := id
  objects := by
    intro place' o ho
    by_cases hplace : place = place'
    · refine ⟨o.setField name value, ?_, rfl, ?_⟩
      · rw [Array.getElem?_modify, if_pos hplace, ho]
        rfl
      · intro other hother
        by_cases hname : other = name
        · simp [Instance.setField, hname]
        · simpa [Instance.setField, lookup_putBinding_of_ne hname] using hother
    · exact ⟨o, by rw [Array.getElem?_modify, if_neg hplace, ho], rfl, fun _ => id⟩
  classes := Nat.le_refl _
  functions := Nat.le_refl _

theorem objects_size
    (h : m.Precedes m') :
    m.objects.size ≤ m'.objects.size := by
  apply Nat.le_of_not_lt
  intro hlt
  obtain ⟨o', ho', -, -⟩ := h.objects (Array.getElem?_eq_getElem hlt)
  exact Nat.lt_irrefl _ (Array.getElem?_eq_some_iff.mp ho').1

end Machine.Precedes

section Mono

variable {R R' : Registry}
variable {m m' : Machine}
variable (hR : R.Grows R')
variable (hm : m.Precedes m')

include hR hm

theorem Class.Exists.mono
    {c : Class}
    (h : c.Exists R m) :
    c.Exists R' m' := by
  intro owner howner
  obtain ⟨hmade, hfiled, hmethods, hsuperclass⟩ := h owner howner
  exact ⟨Nat.lt_of_lt_of_le hmade hm.classes, hR.getElem?_classes hfiled,
    fun hmethod => Nat.lt_of_lt_of_le (hmethods hmethod) hm.frames, hsuperclass⟩

/-- What exists goes on to exist. -/
theorem Value.Exists.mono
    {value : Value}
    (h : value.Exists R m) :
    value.Exists R' m' := by
  cases value with
  | function identity closure =>
      obtain ⟨hmade, hfiled, hframe⟩ := h
      exact ⟨Nat.lt_of_lt_of_le hmade hm.functions, hR.getElem?_functions hfiled,
        Nat.lt_of_lt_of_le hframe hm.frames⟩
  | cls c =>
      exact Class.Exists.mono hR hm h
  | object place =>
      exact Nat.lt_of_lt_of_le h hm.objects_size
  | _ =>
      trivial

theorem Instance.Exists.mono
    {o : Instance}
    (h : o.Exists R m) :
    o.Exists R' m' :=
  ⟨h.cls.mono hR hm, fun hfield => (h.fields hfield).mono hR hm⟩

end Mono

/-- The closure of a method stands in a frame that exists. -/
theorem Class.Exists.findMethod?
    {R : Registry}
    {m : Machine}
    {c : Class}
    {name : String}
    {method : Closure}
    (h : c.Exists R m)
    (hfound : c.findMethod? name = some method) :
    method.frame < m.frames.size := by
  obtain ⟨owner, howner, hlookup⟩ := Class.exists_of_findMethod? hfound
  exact (h owner howner).methods hlookup

namespace Machine.WellFormed

variable {R R' : Registry}
variable {m : Machine}

theorem grow
    (h : m.WellFormed R)
    (hR : R.Grows R') :
    m.WellFormed R' where
  current := h.current
  outermost := h.outermost
  enclosing := h.enclosing
  bound := fun hlookup => (h.bound hlookup).mono hR (.refl m)
  objects := fun ho => (h.objects ho).mono hR (.refl m)

/-- A machine that differs in nothing but counts, and in where it stands. -/
theorem of_same
    (h : m.WellFormed R)
    {m' : Machine}
    (hframes : m'.frames = m.frames)
    (hobjects : m'.objects = m.objects)
    (hcurrent : m'.current < m.frames.size)
    (hprecedes : m.Precedes m') :
    m'.WellFormed R where
  current := by rwa [hframes]
  outermost := by
    rw [hframes]
    exact h.outermost
  enclosing := by
    intro frame hlt hne
    rw [hframes] at hlt ⊢
    exact h.enclosing hlt hne
  bound := by
    intro frame name value hlookup
    rw [hframes] at hlookup
    exact (h.bound hlookup).mono (.refl R) hprecedes
  objects := by
    intro place o ho
    rw [hobjects] at ho
    exact (h.objects ho).mono (.refl R) hprecedes

theorem define
    (h : m.WellFormed R)
    {value : Value}
    (hvalue : value.Exists R m)
    (frame : Nat)
    (name : String) :
    Machine.WellFormed R { m with frames := m.frames.define frame name value } where
  current := by
    rw [Frames.size_define]
    exact h.current
  outermost := by
    rw [Frames.enclosing?_define]
    exact h.outermost
  enclosing := by
    intro frame' hlt hne
    rw [Frames.size_define] at hlt
    simp only [Frames.enclosing?_define]
    exact h.enclosing hlt hne
  bound := by
    intro frame' name' value' hlookup
    rcases Frames.lookup?_define hlookup with ⟨-, -, rfl⟩ | hold
    · exact hvalue.mono (.refl R) (.define m frame name _)
    · exact (h.bound hold).mono (.refl R) (.define m frame name _)
  objects := fun ho => (h.objects ho).mono (.refl R) (.define m frame name _)

theorem push
    (h : m.WellFormed R)
    {outer : Nat}
    (houter : outer < m.frames.size) :
    Machine.WellFormed R { m with frames := m.frames.push outer } where
  current := by
    rw [Frames.size_push]
    exact Nat.lt_succ_of_lt h.current
  outermost := by
    have hold : Machine.globals ≠ m.frames.size := Nat.ne_of_lt (Nat.zero_lt_of_lt houter)
    rw [Frames.enclosing?_push_of_ne hold]
    exact h.outermost
  enclosing := by
    intro frame hlt hne
    rw [Frames.size_push] at hlt
    by_cases hnew : frame = m.frames.size
    · subst hnew
      exact ⟨outer, houter, Frames.enclosing?_push_self _ _⟩
    · rw [Frames.enclosing?_push_of_ne hnew]
      exact h.enclosing (by omega) hne
  bound := by
    intro frame name value hlookup
    rw [Frames.lookup?_push] at hlookup
    exact (h.bound hlookup).mono (.refl R) (.push m outer)
  objects := fun ho => (h.objects ho).mono (.refl R) (.push m outer)

theorem newObject
    (h : m.WellFormed R)
    {c : Class}
    (hc : c.Exists R m) :
    Machine.WellFormed R { m with objects := m.objects.push ⟨c, []⟩ } where
  current := h.current
  outermost := h.outermost
  enclosing := h.enclosing
  bound := fun hlookup => (h.bound hlookup).mono (.refl R) (.newObject m c)
  objects := by
    intro place o ho
    have hnext := Machine.Precedes.newObject m c
    rw [Array.getElem?_push] at ho
    split at ho
    · cases ho
      exact ⟨hc.mono (.refl R) hnext, fun hfield => by cases hfield⟩
    · exact (h.objects ho).mono (.refl R) hnext

theorem setField
    (h : m.WellFormed R)
    {value : Value}
    (hvalue : value.Exists R m)
    (place : Nat)
    (name : String) :
    Machine.WellFormed R { m with objects := m.objects.modify place (·.setField name value) } where
  current := h.current
  outermost := h.outermost
  enclosing := h.enclosing
  bound := fun hlookup => (h.bound hlookup).mono (.refl R) (.setField m place name value)
  objects := by
    intro place' o ho
    have hnext := Machine.Precedes.setField m place name value
    rw [Array.getElem?_modify] at ho
    split at ho
    · obtain ⟨old, hold, rfl⟩ := Option.map_eq_some_iff.mp ho
      refine ⟨(h.objects hold).cls.mono (.refl R) hnext, ?_⟩
      intro other v hfield
      by_cases hname : other = name
      · subst hname
        rw [Instance.setField, lookup_putBinding_self] at hfield
        cases hfield
        exact hvalue.mono (.refl R) hnext
      · rw [Instance.setField, lookup_putBinding_of_ne hname] at hfield
        exact ((h.objects hold).fields hfield).mono (.refl R) hnext
    · exact (h.objects ho).mono (.refl R) hnext

end Machine.WellFormed

/-! ## Walking outward -/

namespace Machine.WellFormed

variable {R : Registry}
variable {m : Machine}
variable (h : m.WellFormed R)

include h

/-- From every frame the global frame is reached, at no greater distance than the place of the
frame. -/
theorem outward?_globals
    {frame : Nat}
    (hframe : frame < m.frames.size) :
    ∃ distance ≤ frame, m.frames.outward? distance frame = some Machine.globals := by
  induction frame using Nat.strongRecOn with
  | _ frame ih =>
      by_cases hglobals : frame = Machine.globals
      · exact ⟨0, Nat.zero_le _, by rw [hglobals]; rfl⟩
      · obtain ⟨outer, hlt, houter⟩ := h.enclosing hframe hglobals
        obtain ⟨distance, hle, hreach⟩ := ih outer hlt (Nat.lt_trans hlt hframe)
        refine ⟨distance + 1, by omega, ?_⟩
        simp only [Frames.outward?, houter, hreach]

/-- Looking at more frames than the place of a frame tells makes no difference. -/
theorem holderWithin?_eq
    {frame count more : Nat}
    (hframe : frame < m.frames.size)
    (hcount : frame < count)
    (hmore : frame < more)
    (name : String) :
    m.frames.holderWithin? name count frame = m.frames.holderWithin? name more frame := by
  induction count generalizing frame more with
  | zero =>
      omega
  | succ count ih =>
      obtain ⟨more, rfl⟩ : ∃ k, more = k + 1 := ⟨more - 1, by omega⟩
      unfold Frames.holderWithin?
      split
      · rfl
      · by_cases hglobals : frame = Machine.globals
        · rw [hglobals, h.outermost]
        · obtain ⟨outer, hlt, houter⟩ := h.enclosing hframe hglobals
          rw [houter]
          exact ih (Nat.lt_trans hlt hframe) (by omega) (by omega)

/-- The search for the frame of a name never ends early. -/
theorem holder?_eq
    {frame : Nat}
    (hframe : frame < m.frames.size)
    {count : Nat}
    (hcount : m.frames.size ≤ count)
    (name : String) :
    m.frames.holderWithin? name count frame = m.frames.holder? frame name :=
  h.holderWithin?_eq hframe (Nat.lt_of_lt_of_le hframe hcount) hframe name

end Machine.WellFormed

theorem Class.lineage_eq_cons (c : Class) : ∃ rest, c.lineage = c :: rest := by
  obtain ⟨identity, name, superclass, methods⟩ := c
  cases superclass with
  | none =>
      exact ⟨[], rfl⟩
  | some parent =>
      exact ⟨parent.lineage, rfl⟩

/-- Along the superclasses of a class, numbers go down. -/
theorem Class.Exists.pairwise_lineage
    {R : Registry}
    {m : Machine} :
    ∀ {c : Class}, c.Exists R m → (c.lineage.map Class.identity).Pairwise (· > ·)
  | .mk identity name none methods, _ => by
      simp [Class.lineage]
  | .mk identity name (some parent) methods, h => by
      have hparent : parent.Exists R m := fun owner howner => h owner (List.mem_cons_of_mem _ howner)
      have holder : parent.identity < identity := (h _ (Class.mem_lineage_self _)).superclass rfl
      have hrest := Class.Exists.pairwise_lineage hparent
      rw [Class.lineage, List.map_cons, List.pairwise_cons]
      refine ⟨?_, hrest⟩
      -- The superclass heads its own lineage, so all numbers there are at most its number.
      obtain ⟨rest, heq⟩ := parent.lineage_eq_cons
      rw [heq, List.map_cons, List.pairwise_cons] at hrest
      rw [heq]
      intro other hother
      rcases List.mem_cons.mp hother with rfl | hmem
      · exact holder
      · exact Nat.lt_trans (hrest.1 other hmem) holder

/-- Walks come to an end: from a frame outward to the global frame, in the search for the frame of a
name, which is never cut short, and from a class along its superclasses. -/
structure Machine.WalksEnd (R : Registry) (m : Machine) : Prop where
  outward : ∀ {frame}, frame < m.frames.size → ∃ distance ≤ frame,
    m.frames.outward? distance frame = some Machine.globals ∧
      m.frames.outward? (distance + 1) frame = none
  search : ∀ {frame}, frame < m.frames.size → ∀ (name : String) (count : Nat),
    m.frames.size ≤ count → m.frames.holderWithin? name count frame = m.frames.holder? frame name
  superclasses : ∀ {c : Class}, c.Exists R m → (c.lineage.map Class.identity).Pairwise (· > ·)

theorem Machine.WellFormed.walksEnd
    {R : Registry}
    {m : Machine}
    (h : m.WellFormed R) :
    m.WalksEnd R where
  outward := by
    intro frame hframe
    obtain ⟨distance, hle, hreach⟩ := h.outward?_globals hframe
    refine ⟨distance, hle, hreach, ?_⟩
    rw [Frames.outward?_succ, hreach, Option.bind_some, h.outermost]
  search := fun hframe name count hcount => h.holder?_eq hframe hcount name
  superclasses := Class.Exists.pairwise_lineage

end Lox
