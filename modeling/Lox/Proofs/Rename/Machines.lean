import Lox.Proofs.Machine.Matching
import Lox.Proofs.Rename.Scopes

/-!
# Machines of renamed programs

A program and the renamed one run on machines with the same frames, in which the same names are
bound to values that are alike.  Only in some frames, the marked ones, the old and the new name are
exchanged: these are the frames made for the scope of the renamed declaration.  `Marks` says that the
marks on the frames around a piece of code are where the renaming of that code takes them to be.
-/

namespace Lox

/-- Which frames are marked. -/
abbrev Marking := Nat → Prop

/-- The marks on the first so many frames are the same. -/
def Marking.Keeps (size : Nat) (marked marked' : Marking) : Prop :=
  ∀ frame < size, marked' frame ↔ marked frame

/-- From the frame outward there are so many frames before the global one, and the one at the given
place, if any, is marked. -/
def Frames.Marks (marked : Marking) (fs : Frames) (frame : Nat) : Nat → Place → Prop
  | 0, place => frame = Machine.globals ∧ place = none ∧ ¬ marked frame
  | depth + 1, place =>
      frame ≠ Machine.globals ∧ (marked frame ↔ place = some 0) ∧
        ∃ outer around, fs.enclosing? frame = some outer ∧ Place.Opens around place ∧
          fs.Marks marked outer depth around

section Alike

variable (ρ : Renaming)
variable (marked : Marking)
variable (fs : Frames)

/-- Functions made in the same frame whose declarations are alike. -/
def Closure.Alike (closure closure' : Closure) : Prop :=
  closure'.frame = closure.frame ∧ closure'.isInitializer = closure.isInitializer ∧
    ∃ depth place inner, fs.Marks marked closure.frame depth place ∧ Place.Opens place inner ∧
      AlikeFunction ρ inner closure.decl closure'.decl

/-- Methods made in the same frame whose declarations are alike; the scope of `this` lies between. -/
def Closure.AlikeMethod (closure closure' : Closure) : Prop :=
  closure'.frame = closure.frame ∧ closure'.isInitializer = closure.isInitializer ∧
    ∃ depth place inner, fs.Marks marked closure.frame depth place ∧
      Place.Opens place.inner inner ∧ AlikeFunction ρ inner closure.decl closure'.decl

/-- Classes with the same identity and name whose methods are alike. -/
structure Class.Alike (c c' : Class) : Prop where
  identity : c'.identity = c.identity
  name : c'.name = c.name
  methods : ∀ name, Option.Rel (Closure.AlikeMethod ρ marked fs) (c.findMethod? name)
    (c'.findMethod? name)

/-- Values that differ at most by the renaming of code. -/
inductive Value.Alike : Value → Value → Prop where
  | native (n : Native) : Value.Alike (.native n) (.native n)
  | function (identity : Nat) {closure closure' : Closure}
      (h : Closure.Alike ρ marked fs closure closure') :
      Value.Alike (.function identity closure) (.function identity closure')
  | cls {c c' : Class} (h : Class.Alike ρ marked fs c c') : Value.Alike (.cls c) (.cls c')
  | object (place : Nat) : Value.Alike (.object place) (.object place)
  | number (x : Float) : Value.Alike (.number x) (.number x)
  | string (s : String) : Value.Alike (.string s) (.string s)
  | bool (b : Bool) : Value.Alike (.bool b) (.bool b)
  | nil : Value.Alike .nil .nil

/-- Objects of classes that are alike, with fields that are alike. -/
structure Instance.Alike (o o' : Instance) : Prop where
  cls : Class.Alike ρ marked fs o.cls o'.cls
  fields : ∀ name, Option.Rel (Value.Alike ρ marked fs) (o.fields.lookup name)
    (o'.fields.lookup name)

/-- The same frames, with names exchanged in marked ones, and values that are alike. -/
structure Frames.Alike (fs' : Frames) : Prop where
  size : fs'.size = fs.size
  enclosing : ∀ frame, fs'.enclosing? frame = fs.enclosing? frame
  bound : ∀ {frame place}, (marked frame ↔ place = some 0) → ∀ name,
    Option.Rel (Value.Alike ρ marked fs) (fs.lookup? frame name)
      (fs'.lookup? frame (ρ.name place name))

/-- Machines that differ at most by the renaming of code, and by the names in marked frames. -/
structure Machine.Alike (m m' : Machine) : Prop where
  rooted : 0 < m.frames.size
  unmarked : ¬ marked Machine.globals
  outermost : m.frames.enclosing? Machine.globals = none
  frames : Frames.Alike ρ marked m.frames m'.frames
  count : m'.objects.size = m.objects.size
  objects : ∀ place : Nat,
    Option.Rel (Instance.Alike ρ marked m.frames) m.objects[place]? m'.objects[place]?
  current : m'.current = m.current
  classCount : m'.classCount = m.classCount
  functionCount : m'.functionCount = m.functionCount
  readings : m'.readings = m.readings
  output : m'.output = m.output

end Alike

namespace Frames.Marks

variable {marked marked' : Marking}
variable {fs fs' : Frames}
variable {frame depth : Nat}
variable {place : Place}

theorem here
    (h : fs.Marks marked frame depth place) :
    marked frame ↔ place = some 0 := by
  cases depth with
  | zero =>
      obtain ⟨-, rfl, hmarked⟩ := h
      simp [hmarked]
  | succ depth =>
      exact h.2.1

theorem mono
    (h : fs.Marks marked frame depth place)
    (hext : fs.Extends fs')
    (hkeeps : Marking.Keeps fs.size marked marked')
    (hroot : 0 < fs.size) :
    fs'.Marks marked' frame depth place := by
  induction depth generalizing frame place with
  | zero =>
      obtain ⟨rfl, hplace, hmarked⟩ := h
      exact ⟨rfl, hplace, fun h => hmarked ((hkeeps _ hroot).mp h)⟩
  | succ depth ih =>
      obtain ⟨hglobal, hmarked, outer, around, houter, hopens, hrest⟩ := h
      have hframe := hkeeps frame (lt_size_of_enclosing? houter)
      exact ⟨hglobal, hframe.trans hmarked, outer, around, hext.enclosing houter, hopens,
        ih hrest⟩

/-- A new frame, marked or not. -/
theorem push
    {inner : Place}
    (h : fs.Marks marked frame depth place)
    (hopens : place.Opens inner)
    (hkeeps : Marking.Keeps fs.size marked marked')
    (hmarked : marked' fs.size ↔ inner = some 0)
    (hroot : 0 < fs.size) :
    (fs.push frame).Marks marked' fs.size (depth + 1) inner :=
  ⟨Nat.ne_of_gt hroot, hmarked, frame, place, enclosing?_push_self fs frame, hopens,
    h.mono (.push fs frame) hkeeps hroot⟩

/-- Going outward, the marked frame is met at its place. -/
theorem outward?
    (h : fs.Marks marked frame depth place)
    {d target : Nat}
    (hd : d ≤ depth)
    (htarget : fs.outward? d frame = some target) :
    marked target ↔ place = some d := by
  induction d generalizing frame depth place with
  | zero =>
      cases htarget
      exact h.here
  | succ d ih =>
      cases depth with
      | zero =>
          omega
      | succ depth =>
          obtain ⟨-, -, outer, around, houter, hopens, hrest⟩ := h
          simp only [Frames.outward?, houter] at htarget
          rw [ih hrest (Nat.le_of_succ_le_succ hd) htarget]
          rcases hopens with rfl | ⟨rfl, rfl⟩
          · simp [Place.inner]
          · simp

/-- The frames counted are those that scopes are covered by. -/
theorem depth_eq
    {scopes : Scopes}
    (h : fs.Marks marked frame depth place)
    (hcovers : fs.Covers frame scopes) :
    depth = scopes.length := by
  induction scopes generalizing frame depth place with
  | nil =>
      cases depth with
      | zero =>
          rfl
      | succ depth =>
          exact absurd hcovers h.1
  | cons scope scopes ih =>
      obtain ⟨hglobal, -, outer, houter, hcovers⟩ := hcovers
      cases depth with
      | zero =>
          exact absurd h.1 hglobal
      | succ depth =>
          obtain ⟨-, -, outer', around, houter', -, hrest⟩ := h
          rw [houter] at houter'
          cases houter'
          rw [ih hrest hcovers, List.length_cons]

end Frames.Marks

namespace Marking

theorem keeps_refl (size : Nat) (marked : Marking) : Keeps size marked marked :=
  fun _ _ => Iff.rfl

theorem Keeps.trans
    {size size' : Nat}
    {marked marked' marked'' : Marking}
    (h : Keeps size marked marked')
    (h' : Keeps size' marked' marked'')
    (hsize : size ≤ size') :
    Keeps size marked marked'' :=
  fun frame hframe => (h' frame (Nat.lt_of_lt_of_le hframe hsize)).trans (h frame hframe)

/-- The marking after a frame was added whose scope is opened at a place. -/
def push (marked : Marking) (size : Nat) (inner : Place) : Marking :=
  fun frame => if frame = size then inner = some 0 else marked frame

theorem keeps_push (marked : Marking) (size : Nat) (inner : Place) :
    Keeps size marked (marked.push size inner) := by
  intro frame hframe
  simp [push, Nat.ne_of_lt hframe]

theorem push_self (marked : Marking) (size : Nat) (inner : Place) :
    marked.push size inner size ↔ inner = some 0 := by
  simp [push]

end Marking

section Mono

variable {ρ : Renaming}
variable {marked marked' : Marking}
variable {fs fs' : Frames}
variable (hext : fs.Extends fs')
variable (hkeeps : Marking.Keeps fs.size marked marked')
variable (hroot : 0 < fs.size)

include hext hkeeps hroot

theorem Closure.Alike.mono
    {closure closure' : Closure}
    (h : Closure.Alike ρ marked fs closure closure') :
    Closure.Alike ρ marked' fs' closure closure' := by
  obtain ⟨hframe, hinit, depth, place, inner, hmarks, hopens, hdecl⟩ := h
  exact ⟨hframe, hinit, depth, place, inner, hmarks.mono hext hkeeps hroot, hopens, hdecl⟩

theorem Closure.AlikeMethod.mono
    {closure closure' : Closure}
    (h : Closure.AlikeMethod ρ marked fs closure closure') :
    Closure.AlikeMethod ρ marked' fs' closure closure' := by
  obtain ⟨hframe, hinit, depth, place, inner, hmarks, hopens, hdecl⟩ := h
  exact ⟨hframe, hinit, depth, place, inner, hmarks.mono hext hkeeps hroot, hopens, hdecl⟩

theorem Class.Alike.mono
    {c c' : Class}
    (h : Class.Alike ρ marked fs c c') :
    Class.Alike ρ marked' fs' c c' where
  identity := h.identity
  name := h.name
  methods name := optionRel_mono (fun hmethod => hmethod.mono hext hkeeps hroot) (h.methods name)

theorem Value.Alike.mono
    {value value' : Value}
    (h : Value.Alike ρ marked fs value value') :
    Value.Alike ρ marked' fs' value value' := by
  cases h with
  | function identity hclosure =>
      exact .function identity (hclosure.mono hext hkeeps hroot)
  | cls hclass =>
      exact .cls (hclass.mono hext hkeeps hroot)
  | native n =>
      exact .native n
  | object place =>
      exact .object place
  | number x =>
      exact .number x
  | string s =>
      exact .string s
  | bool b =>
      exact .bool b
  | nil =>
      exact .nil

theorem Instance.Alike.mono
    {o o' : Instance}
    (h : Instance.Alike ρ marked fs o o') :
    Instance.Alike ρ marked' fs' o o' :=
  ⟨h.cls.mono hext hkeeps hroot,
    fun name => optionRel_mono (fun hvalue => hvalue.mono hext hkeeps hroot) (h.fields name)⟩

end Mono

section Frames

variable {ρ : Renaming}
variable {marked : Marking}
variable {fs fs' : Frames}

theorem Frames.Alike.outward?
    (h : Frames.Alike ρ marked fs fs')
    (d frame : Nat) :
    fs'.outward? d frame = fs.outward? d frame := by
  induction d generalizing frame with
  | zero =>
      rfl
  | succ d ih =>
      simp only [Frames.outward?, h.enclosing]
      cases fs.enclosing? frame with
      | none =>
          rfl
      | some outer =>
          exact ih outer

/-- What a name becomes in the frame that many frames out. -/
def Renaming.nameAt (ρ : Renaming) (place : Place) (d : Nat) (n : String) : String :=
  if place = some d then ρ.swap n else n

theorem Renaming.nameAt_keyword
    (hρ : ρ.Proper)
    (place : Place)
    (d : Nat)
    {n : String}
    (hn : ¬ Ordinary n) :
    ρ.nameAt place d n = n := by
  unfold nameAt
  split
  · exact ρ.swap_of_ne (fun h => hn (h ▸ hρ.old)) fun h => hn (h ▸ hρ.new)
  · rfl

/-- A local reference is renamed just as its name is in the frame at its distance. -/
theorem Renaming.nameAt_reference
    {id d : Nat}
    {name : Token}
    (hnew : name.lexeme ≠ ρ.new)
    (hget : ρ.locals.get? id = some d)
    (place : Place) :
    (ρ.reference place id name).lexeme = ρ.nameAt place d name.lexeme := by
  rw [Renaming.lexeme_reference, hget]
  unfold nameAt
  by_cases hplace : place = some d
  · by_cases hold : name.lexeme = ρ.old
    · simp [hplace, hold, ρ.swap_old]
    · simp [hplace, hold, ρ.swap_of_ne hold hnew]
  · have hne : ¬ some d = place := fun h => hplace h.symm
    simp [hplace, hne]

/-- A frame some frames out has a place of its own. -/
theorem Frames.Marks.there
    {frame depth d target : Nat}
    {place : Place}
    (h : fs.Marks marked frame depth place)
    (hd : d ≤ depth)
    (htarget : fs.outward? d frame = some target) :
    ∃ there : Place, (marked target ↔ there = some 0) ∧
      ∀ n, ρ.name there n = ρ.nameAt place d n := by
  have hmarked := h.outward? hd htarget
  by_cases hplace : place = some d
  · refine ⟨some 0, by simp [hmarked, hplace], fun n => ?_⟩
    simp [Renaming.name, Renaming.nameAt, hplace]
  · refine ⟨none, by simp [hmarked, hplace], fun n => ?_⟩
    simp [Renaming.name, Renaming.nameAt, hplace]

theorem Frames.Alike.getAt?
    {frame depth d : Nat}
    {place : Place}
    (h : Frames.Alike ρ marked fs fs')
    (hmarks : fs.Marks marked frame depth place)
    (hd : d ≤ depth)
    (n : String) :
    Option.Rel (Value.Alike ρ marked fs) (fs.getAt? frame d n)
      (fs'.getAt? frame d (ρ.nameAt place d n)) := by
  unfold Frames.getAt?
  rw [h.outward?]
  cases htarget : fs.outward? d frame with
  | none =>
      exact .none
  | some target =>
      obtain ⟨there, hthere, hname⟩ := hmarks.there hd htarget
      rw [← hname]
      exact h.bound hthere n

/-- Names in the global frame stay. -/
theorem Frames.Alike.get?_globals
    (h : Frames.Alike ρ marked fs fs')
    (hunmarked : ¬ marked Machine.globals)
    (houtermost : fs.enclosing? Machine.globals = none)
    (n : String) :
    Option.Rel (Value.Alike ρ marked fs) (fs.get? Machine.globals n)
        (fs'.get? Machine.globals n) ∧
      fs'.holder? Machine.globals n = fs.holder? Machine.globals n := by
  have hplace : marked Machine.globals ↔ (none : Place) = some 0 := by
    simp [hunmarked]
  have hbound := h.bound hplace n
  have houtermost' : fs'.enclosing? Machine.globals = none := by
    rw [h.enclosing, houtermost]
  have hname : ρ.name none n = n := rfl
  rw [hname] at hbound
  unfold Frames.get? Frames.holder?
  rw [h.size]
  cases fs.size with
  | zero =>
      exact ⟨.none, rfl⟩
  | succ count =>
      simp only [Frames.holderWithin?, houtermost, houtermost']
      obtain ⟨hnone, hnone'⟩ | ⟨value, value', hvalue, hvalue', halike⟩ := optionRel_cases hbound
      · simp only [hnone, hnone', and_true]
        exact .none
      · simp only [hvalue, hvalue', and_true]
        exact .some halike

theorem Renaming.name_congr
    {place there : Place}
    (h : place = some 0 ↔ there = some 0)
    (n : String) :
    ρ.name place n = ρ.name there n := by
  simp only [name, h]

theorem Renaming.name_injective (place : Place) : Function.Injective (ρ.name place) := by
  intro n n' h
  unfold name at h
  split at h
  · exact ρ.swap.injective h
  · exact h

/-- A scope that is not that of the declaration keeps its names. -/
theorem Renaming.name_inner (place : Place) (n : String) : ρ.name place.inner n = n :=
  if_neg place.inner_ne_zero

/-- The same name, up to renaming, is bound in the same frame. -/
theorem Frames.Alike.define
    {frame : Nat}
    {place : Place}
    {value value' : Value}
    (h : Frames.Alike ρ marked fs fs')
    (hrooted : 0 < fs.size)
    (hplace : marked frame ↔ place = some 0)
    (hvalue : Value.Alike ρ marked fs value value')
    (n : String) :
    Frames.Alike ρ marked (fs.define frame n value)
      (fs'.define frame (ρ.name place n) value') := by
  have hext := Extends.define fs frame n value
  have hkeeps := Marking.keeps_refl fs.size marked
  constructor
  · rw [size_define, size_define, h.size]
  · intro other
    rw [enclosing?_define, enclosing?_define, h.enclosing]
  · intro other there hthere n'
    have hname : other = frame → (ρ.name there n' = ρ.name place n ↔ n' = n) := by
      rintro rfl
      rw [ρ.name_congr (hthere.symm.trans hplace)]
      exact (ρ.name_injective place).eq_iff
    rw [lookup?_define_eq, lookup?_define_eq, h.size]
    by_cases hhere : other = frame ∧ n' = n ∧ other < fs.size
    · rw [if_pos hhere, if_pos ⟨hhere.1, (hname hhere.1).mpr hhere.2.1, hhere.2.2⟩]
      exact .some (hvalue.mono hext hkeeps hrooted)
    · rw [if_neg hhere, if_neg fun h => hhere ⟨h.1, (hname h.1).mp h.2.1, h.2.2⟩]
      exact optionRel_mono (fun hold => hold.mono hext hkeeps hrooted) (h.bound hthere n')

/-- A frame is added that is marked if the scope opened there is that of the declaration. -/
theorem Frames.Alike.push
    (h : Frames.Alike ρ marked fs fs')
    (hrooted : 0 < fs.size)
    (outer : Nat)
    (inner : Place) :
    Frames.Alike ρ (marked.push fs.size inner) (fs.push outer) (fs'.push outer) := by
  have hext := Extends.push fs outer
  have hkeeps := Marking.keeps_push marked fs.size inner
  constructor
  · rw [size_push, size_push, h.size]
  · intro frame
    by_cases hself : frame = fs.size
    · rw [hself, enclosing?_push_self, ← h.size, enclosing?_push_self]
    · have hself' : frame ≠ fs'.size := by
        rw [h.size]
        exact hself
      rw [enclosing?_push_of_ne hself, enclosing?_push_of_ne hself', h.enclosing]
  · intro frame there hthere n
    rw [lookup?_push, lookup?_push]
    by_cases hlt : frame < fs.size
    · exact optionRel_mono (fun hold => hold.mono hext hkeeps hrooted)
        (h.bound ((hkeeps frame hlt).symm.trans hthere) n)
    · have hle : fs.size ≤ frame := Nat.le_of_not_lt hlt
      have hle' : fs'.size ≤ frame := by
        rw [h.size]
        exact hle
      rw [lookup?_of_size_le hle, lookup?_of_size_le hle']
      exact .none

end Frames

namespace Machine.Alike

variable {ρ : Renaming}
variable {marked marked' : Marking}
variable {m m' : Machine}

/-- Frames are added or filled. -/
theorem reframe
    {fs fs' : Frames}
    (h : Machine.Alike ρ marked m m')
    (hext : m.frames.Extends fs)
    (hkeeps : Marking.Keeps m.frames.size marked marked')
    (houtermost : fs.enclosing? Machine.globals = none)
    (hframes : Frames.Alike ρ marked' fs fs') :
    Machine.Alike ρ marked' { m with frames := fs } { m' with frames := fs' } :=
  { h with
    rooted := Nat.lt_of_lt_of_le h.rooted hext.size
    unmarked := fun hmarked => h.unmarked ((hkeeps _ h.rooted).mp hmarked)
    outermost := houtermost
    frames := hframes
    objects := fun place =>
      optionRel_mono (fun ho => ho.mono hext hkeeps h.rooted) (h.objects place) }

theorem define
    {frame : Nat}
    {place : Place}
    {value value' : Value}
    (h : Machine.Alike ρ marked m m')
    (hplace : marked frame ↔ place = some 0)
    (hvalue : Value.Alike ρ marked m.frames value value')
    (n : String) :
    Machine.Alike ρ marked { m with frames := m.frames.define frame n value }
      { m' with frames := m'.frames.define frame (ρ.name place n) value' } := by
  apply h.reframe (.define ..) (Marking.keeps_refl _ _)
  · rw [Frames.enclosing?_define]
    exact h.outermost
  · exact h.frames.define h.rooted hplace hvalue n

theorem push
    (h : Machine.Alike ρ marked m m')
    (outer : Nat)
    (inner : Place) :
    Machine.Alike ρ (marked.push m.frames.size inner) { m with frames := m.frames.push outer }
      { m' with frames := m'.frames.push outer } := by
  have hne : Machine.globals ≠ m.frames.size := Nat.ne_of_lt h.rooted
  apply h.reframe (.push ..) (Marking.keeps_push _ _ _)
  · rw [Frames.enclosing?_push_of_ne hne]
    exact h.outermost
  · exact h.frames.push h.rooted outer inner

/-- Running elsewhere, in the same frame. -/
theorem within
    (h : Machine.Alike ρ marked m m')
    (frame : Nat) :
    Machine.Alike ρ marked { m with current := frame } { m' with current := frame } :=
  { h with
    current := rfl }

theorem newObject
    {c c' : Class}
    (h : Machine.Alike ρ marked m m')
    (hclass : Class.Alike ρ marked m.frames c c') :
    Machine.Alike ρ marked { m with objects := m.objects.push ⟨c, []⟩ }
      { m' with objects := m'.objects.push ⟨c', []⟩ } :=
  { h with
    count := by
      simp only [Array.size_push, h.count]
    objects := by
      intro place
      simp only [Array.getElem?_push, h.count]
      split
      · exact .some ⟨hclass, fun _ => .none⟩
      · exact h.objects place }

theorem setField
    {value value' : Value}
    (h : Machine.Alike ρ marked m m')
    (place : Nat)
    (name : String)
    (hvalue : Value.Alike ρ marked m.frames value value') :
    Machine.Alike ρ marked
      { m with objects := m.objects.modify place (·.setField name value) }
      { m' with objects := m'.objects.modify place (·.setField name value') } :=
  { h with
    count := by
      simp only [Array.size_modify, h.count]
    objects := by
      intro other
      have hother := h.objects other
      simp only [Array.getElem?_modify]
      split
      · obtain ⟨hnone, hnone'⟩ | ⟨o, o', ho, ho', halike⟩ := optionRel_cases hother
        · simp only [hnone, hnone']
          exact .none
        · simp only [ho, ho']
          refine .some ⟨halike.cls, ?_⟩
          intro field
          by_cases hfield : field = name
          · simp only [Instance.setField, hfield, lookup_putBinding_self]
            exact .some hvalue
          · simp only [Instance.setField, lookup_putBinding_of_ne hfield]
            exact halike.fields field
      · exact hother }

/-- A machine that has run nothing holds no code, and no frame is marked. -/
theorem start (ρ : Renaming) : Machine.Alike ρ (fun _ => False) .start .start where
  rooted := (Machine.Sound.start []).rooted
  unmarked := id
  outermost := by
    decide
  frames := by
    refine ⟨rfl, fun _ => rfl, ?_⟩
    intro frame place hplace n
    have hname : ρ.name place n = n := if_neg fun h => hplace.mpr h
    rw [hname]
    cases hlookup : Machine.start.frames.lookup? frame n with
    | none =>
        exact .none
    | some value =>
        obtain ⟨-, rfl⟩ := Machine.lookup?_start hlookup
        exact .some (.native .clock)
  count := rfl
  objects := by
    intro place
    simp [Machine.start]
  current := rfl
  classCount := rfl
  functionCount := rfl
  readings := rfl
  output := rfl

end Machine.Alike

end Lox
