import Lox.Machine.Eval
import Lox.Proofs.Machine.Frames
import Lox.Proofs.Scope.Accepted

/-!
# The invariant of running programs

A program is given by the visits of its name resolution.  A function value is sound if its frame
covers the scopes in which its declaration was visited; a machine is sound if all the values it
holds are, and if only objects stand under `this` and only classes under `super`.  Whatever is sound
stays so when frames and objects are added or filled.
-/

namespace Lox

/-- The body of a function that can be called, in scopes that its frame covers. -/
def Closure.Sound (visits : List Visit) (fs : Frames) (closure : Closure) : Prop :=
  ∃ ctx scopes, fs.Covers closure.frame scopes ∧
    ∀ v ∈ Stmt.visitsFunction ctx scopes closure.decl, v ∈ visits

/-- A method that is not yet made for an object: the scope of `this` has no frame yet. -/
def Closure.SoundMethod (visits : List Visit) (fs : Frames) (closure : Closure) : Prop :=
  ∃ ctx scopes, fs.Covers closure.frame scopes ∧
    ∀ v ∈ Stmt.visitsFunction ctx ([("this", true)] :: scopes) closure.decl, v ∈ visits

/-- All methods that a class has, its own or not, are sound. -/
def Class.Sound (visits : List Visit) (fs : Frames) (c : Class) : Prop :=
  ∀ name method, c.findMethod? name = some method → method.SoundMethod visits fs

/-- A value whose functions are sound, and whose object there is. -/
def Value.Sound (visits : List Visit) (m : Machine) : Value → Prop
  | .function _ closure => closure.Sound visits m.frames
  | .cls c => c.Sound visits m.frames
  | .object place => place < m.objects.size
  | _ => True

/-- Only objects stand under `this`, and only classes under `super`. -/
def Value.Suits (value : Value) (name : String) : Prop :=
  (name = "this" → ∃ place, value = .object place) ∧ (name = "super" → ∃ c, value = .cls c)

/-- An object whose class and fields are sound. -/
def Instance.Sound (visits : List Visit) (m : Machine) (o : Instance) : Prop :=
  o.cls.Sound visits m.frames ∧
    ∀ name value, o.fields.lookup name = some value → value.Sound visits m

/-- A machine that holds nothing but sound values. -/
structure Machine.Sound (visits : List Visit) (m : Machine) : Prop where
  rooted : 0 < m.frames.size
  bound : ∀ {frame name value}, m.frames.lookup? frame name = some value →
    value.Sound visits m ∧ value.Suits name
  objects : ∀ {place : Nat} {o : Instance}, m.objects[place]? = some o → o.Sound visits m

/-- A machine on which something was run: the current frame is the same. -/
structure Machine.Later (m m' : Machine) : Prop where
  frames : m.frames.Extends m'.frames
  objects : m.objects.size ≤ m'.objects.size
  current : m'.current = m.current

/-- What an early stop may say: a variable is undefined only if it is a visited variable, not `this`
or `super`, and the table has no entry for it. -/
def Stop.Justified (visits : List Visit) (locals : Locals) : Stop → Prop
  | .outOfFuel => True
  | .fault error => ∀ name, error.fault = .undefinedVariable name →
      name = error.found.lexeme ∧ Ordinary name ∧
        ∃ v ∈ visits, ∃ id, locals.get? id = none ∧
          (v.node = .expr (.var id error.found) ∨
            ∃ value, v.node = .expr (.assign id error.found value))

theorem Value.suits_of_ordinary
    {name : String}
    (h : Ordinary name)
    (value : Value) :
    value.Suits name :=
  ⟨fun hthis => absurd hthis h.1, fun hsuper => absurd hsuper h.2⟩

namespace Machine.Later

variable {m m' m'' : Machine}

theorem refl (m : Machine) : Later m m :=
  ⟨.refl _, Nat.le_refl _, rfl⟩

theorem trans
    (h : Later m m')
    (h' : Later m' m'') :
    Later m m'' :=
  ⟨h.frames.trans h'.frames, Nat.le_trans h.objects h'.objects, h'.current.trans h.current⟩

theorem covers
    (h : Later m m')
    {scopes : Scopes}
    (hcovers : m.frames.Covers m.current scopes) :
    m'.frames.Covers m'.current scopes := by
  rw [h.current]
  exact hcovers.mono h.frames

end Machine.Later

section Mono

variable {visits : List Visit}
variable {fs fs' : Frames}
variable {m m' : Machine}

theorem Closure.Sound.mono
    {closure : Closure}
    (h : closure.Sound visits fs)
    (hext : fs.Extends fs') :
    closure.Sound visits fs' := by
  obtain ⟨ctx, scopes, hcovers, hvisits⟩ := h
  exact ⟨ctx, scopes, hcovers.mono hext, hvisits⟩

theorem Closure.SoundMethod.mono
    {closure : Closure}
    (h : closure.SoundMethod visits fs)
    (hext : fs.Extends fs') :
    closure.SoundMethod visits fs' := by
  obtain ⟨ctx, scopes, hcovers, hvisits⟩ := h
  exact ⟨ctx, scopes, hcovers.mono hext, hvisits⟩

theorem Class.Sound.mono
    {c : Class}
    (h : c.Sound visits fs)
    (hext : fs.Extends fs') :
    c.Sound visits fs' :=
  fun name method hmethod => (h name method hmethod).mono hext

theorem Value.Sound.mono
    {value : Value}
    (h : value.Sound visits m)
    (hframes : m.frames.Extends m'.frames)
    (hobjects : m.objects.size ≤ m'.objects.size) :
    value.Sound visits m' := by
  cases value with
  | function identity closure =>
      exact Closure.Sound.mono h hframes
  | cls c =>
      exact Class.Sound.mono h hframes
  | object place =>
      exact Nat.lt_of_lt_of_le h hobjects
  | _ =>
      trivial

theorem Instance.Sound.mono
    {o : Instance}
    (h : o.Sound visits m)
    (hframes : m.frames.Extends m'.frames)
    (hobjects : m.objects.size ≤ m'.objects.size) :
    o.Sound visits m' :=
  ⟨h.1.mono hframes, fun name value hvalue => (h.2 name value hvalue).mono hframes hobjects⟩

end Mono

/-- At the start only the clock is bound. -/
theorem Machine.lookup?_start
    {frame : Nat}
    {name : String}
    {value : Value}
    (h : Machine.start.frames.lookup? frame name = some value) :
    name = "clock" ∧ value = .native .clock := by
  rcases Frames.lookup?_define h with ⟨-, hname, hvalue⟩ | hroot
  · exact ⟨hname, hvalue⟩
  · simp only [Frames.lookup?, Frames.root] at hroot
    split at hroot
    · rename_i f hf
      obtain ⟨hlt, hf⟩ := Array.getElem?_eq_some_iff.mp hf
      simp at hf
      rw [← hf] at hroot
      cases hroot
    · cases hroot

namespace Machine.Sound

variable {visits : List Visit}
variable {m m' : Machine}

/-- A machine stays sound if only what is sound is added. -/
theorem step
    (h : m.Sound visits)
    (hframes : m.frames.Extends m'.frames)
    (hobjects : m.objects.size ≤ m'.objects.size)
    (hbound : ∀ {frame name value}, m'.frames.lookup? frame name = some value →
      m.frames.lookup? frame name = some value ∨ (value.Sound visits m' ∧ value.Suits name))
    (hinstances : ∀ {place : Nat} {o : Instance}, m'.objects[place]? = some o →
      m.objects[place]? = some o ∨ o.Sound visits m') :
    m'.Sound visits where
  rooted := Nat.lt_of_lt_of_le h.rooted hframes.size
  bound := by
    intro frame name value hvalue
    rcases hbound hvalue with hold | hnew
    · exact ⟨(h.bound hold).1.mono hframes hobjects, (h.bound hold).2⟩
    · exact hnew
  objects := by
    intro place o ho
    rcases hinstances ho with hold | hnew
    · exact (h.objects hold).mono hframes hobjects
    · exact hnew

/-- Only the frames and the objects matter. -/
theorem of_same
    (h : m.Sound visits)
    (hframes : m'.frames = m.frames)
    (hobjects : m'.objects = m.objects) :
    m'.Sound visits := by
  apply h.step
  · rw [hframes]
    exact .refl _
  · exact Nat.le_of_eq (congrArg Array.size hobjects.symm)
  · intro frame name value hvalue
    rw [hframes] at hvalue
    exact .inl hvalue
  · intro place o ho
    rw [hobjects] at ho
    exact .inl ho

/-- Binding a name to a value that is sound once it is bound. -/
theorem define_after
    (h : m.Sound visits)
    {frame : Nat}
    {name : String}
    {value : Value}
    (hvalue : value.Sound visits { m with frames := m.frames.define frame name value })
    (hsuits : value.Suits name) :
    Machine.Sound visits { m with frames := m.frames.define frame name value } := by
  refine h.step (.define ..) (Nat.le_refl _) ?_ .inl
  intro frame' name' value' hlookup
  rcases Frames.lookup?_define hlookup with ⟨-, rfl, rfl⟩ | hold
  · exact .inr ⟨hvalue, hsuits⟩
  · exact .inl hold

theorem define
    (h : m.Sound visits)
    {frame : Nat}
    {name : String}
    {value : Value}
    (hvalue : value.Sound visits m)
    (hsuits : value.Suits name) :
    Machine.Sound visits { m with frames := m.frames.define frame name value } :=
  h.define_after (hvalue.mono (.define ..) (Nat.le_refl _)) hsuits

theorem push
    (h : m.Sound visits)
    (outer : Nat) :
    Machine.Sound visits { m with frames := m.frames.push outer } := by
  refine h.step (.push ..) (Nat.le_refl _) ?_ .inl
  intro frame name value hlookup
  rw [Frames.lookup?_push] at hlookup
  exact .inl hlookup

theorem newObject
    (h : m.Sound visits)
    {c : Class}
    (hc : c.Sound visits m.frames) :
    Machine.Sound visits { m with objects := m.objects.push ⟨c, []⟩ } := by
  refine h.step (.refl _) (by simp) .inl ?_
  intro place o ho
  simp only [Array.getElem?_push] at ho
  split at ho
  · cases ho
    exact .inr ⟨hc, by simp⟩
  · exact .inl ho

theorem setField
    (h : m.Sound visits)
    {place : Nat}
    {name : String}
    {value : Value}
    (hvalue : value.Sound visits m) :
    Machine.Sound visits
      { m with objects := m.objects.modify place (·.setField name value) } := by
  have hsize : m.objects.size ≤ (m.objects.modify place (·.setField name value)).size := by
    simp
  refine h.step (.refl _) hsize .inl ?_
  intro place' o ho
  simp only [Array.getElem?_modify] at ho
  split at ho
  · obtain ⟨old, hold, rfl⟩ := Option.map_eq_some_iff.mp ho
    obtain ⟨hcls, hfields⟩ := h.objects hold
    refine .inr ⟨hcls, ?_⟩
    intro field v hv
    by_cases hfield : field = name
    · rw [hfield] at hv
      simp only [Instance.setField, lookup_putBinding_self, Option.some.injEq] at hv
      rw [← hv]
      exact hvalue.mono (.refl _) hsize
    · simp only [Instance.setField, lookup_putBinding_of_ne hfield] at hv
      exact (hfields field v hv).mono (.refl _) hsize
  · exact .inl ho

/-- The machine that has run nothing. -/
theorem start (visits : List Visit) : Machine.start.Sound visits where
  rooted := by
    simp [Machine.start, Frames.root, Frames.size, Frames.define]
  bound := by
    intro frame name value hlookup
    obtain ⟨rfl, rfl⟩ := Machine.lookup?_start hlookup
    exact ⟨trivial, Value.suits_of_ordinary (by simp [Ordinary]) _⟩
  objects := by
    intro place o ho
    simp [Machine.start] at ho

end Machine.Sound

end Lox
