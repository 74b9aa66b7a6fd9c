import Lox.Machine.Run
import Lox.Proofs.Scope.Scopes

/-!
# Frames and scopes

How the frames of a running program follow the scopes of name resolution.  `Covers fs f scopes`
says that the frames from `f` outward are, up to the global frame, one for each scope, and that
each has the names that can be read in its scope.  Frames are only ever added and filled, and
`Extends` is kept by both; what a chain of frames covers, it covers from then on.
-/

namespace Lox

/-- The name is bound in the frame. -/
def Frames.Bound (fs : Frames) (frame : Nat) (name : String) : Prop :=
  ∃ value, fs.lookup? frame name = some value

/-- Frames to which frames and names were added. -/
structure Frames.Extends (fs fs' : Frames) : Prop where
  size : fs.size ≤ fs'.size
  enclosing : ∀ {frame outer}, fs.enclosing? frame = some outer → fs'.enclosing? frame = some outer
  bound : ∀ {frame name}, fs.Bound frame name → fs'.Bound frame name

/-- The chain of frames from `frame` outward has one frame for each scope, with the names that can
be read there, and then comes to the global frame. -/
def Frames.Covers (fs : Frames) (frame : Nat) : Scopes → Prop
  | [] => frame = Machine.globals
  | scope :: scopes =>
      frame ≠ Machine.globals ∧ (∀ name, scope.lookup name = some true → fs.Bound frame name) ∧
        ∃ outer, fs.enclosing? frame = some outer ∧ fs.Covers outer scopes

namespace Frames

variable {fs fs' : Frames}
variable {frame outer : Nat}

section Updates

theorem size_push (fs : Frames) (outer : Nat) : (fs.push outer).size = fs.size + 1 := by
  simp [size, push]

theorem size_define (fs : Frames) (frame : Nat) (name : String) (value : Value) :
    (fs.define frame name value).size = fs.size := by
  simp [size, define]

theorem lt_size_of_enclosing?
    (h : fs.enclosing? frame = some outer) :
    frame < fs.size := by
  unfold enclosing? at h
  split at h
  · rename_i f hf
    exact (Array.getElem?_eq_some_iff.mp hf).1
  · cases h

theorem enclosing?_push_self (fs : Frames) (outer : Nat) :
    (fs.push outer).enclosing? fs.size = some outer := by
  simp [enclosing?, push, size]

theorem enclosing?_push_of_ne
    (h : frame ≠ fs.size)
    (outer : Nat) :
    (fs.push outer).enclosing? frame = fs.enclosing? frame := by
  have hne : frame ≠ fs.frames.size := h
  simp [enclosing?, push, Array.getElem?_push, hne]

theorem lookup?_push (fs : Frames) (outer frame : Nat) (name : String) :
    (fs.push outer).lookup? frame name = fs.lookup? frame name := by
  unfold lookup? push
  by_cases hframe : frame = fs.frames.size
  · subst hframe
    rw [Array.getElem?_push, if_pos rfl, Array.getElem?_eq_none (Nat.le_refl _)]
    rfl
  · rw [Array.getElem?_push, if_neg hframe]

theorem enclosing?_define (fs : Frames) (target frame : Nat) (name : String) (value : Value) :
    (fs.define target name value).enclosing? frame = fs.enclosing? frame := by
  unfold enclosing? define
  by_cases htarget : target = frame
  · rw [Array.getElem?_modify, if_pos htarget]
    cases fs.frames[frame]? <;> rfl
  · rw [Array.getElem?_modify, if_neg htarget]

theorem lookup?_of_size_le
    (h : fs.size ≤ frame)
    (name : String) :
    fs.lookup? frame name = none := by
  unfold lookup?
  rw [Array.getElem?_eq_none h]

/-- What is read after a name was bound. -/
theorem lookup?_define_eq (fs : Frames) (target frame : Nat) (name other : String) (value : Value) :
    (fs.define target name value).lookup? frame other =
      if frame = target ∧ other = name ∧ frame < fs.size then some value
      else fs.lookup? frame other := by
  by_cases hframe : frame = target
  · subst hframe
    by_cases hlt : frame < fs.size
    · obtain ⟨f, hf⟩ : ∃ f, fs.frames[frame]? = some f := ⟨_, Array.getElem?_eq_getElem hlt⟩
      have hafter : (fs.define frame name value).lookup? frame other =
          (putBinding name value f.bindings).lookup other := by
        simp [lookup?, define, Array.getElem?_modify, hf]
      have hbefore : fs.lookup? frame other = f.bindings.lookup other := by
        simp [lookup?, hf]
      rw [hafter, hbefore]
      by_cases hname : other = name
      · rw [hname, lookup_putBinding_self, if_pos ⟨rfl, rfl, hlt⟩]
      · rw [lookup_putBinding_of_ne hname, if_neg fun h => hname h.2.1]
    · rw [if_neg fun h => hlt h.2.2, lookup?_of_size_le (Nat.le_of_not_lt hlt),
        lookup?_of_size_le (by rw [size_define]; exact Nat.le_of_not_lt hlt)]
  · rw [if_neg fun h => hframe h.1]
    unfold lookup? define
    rw [Array.getElem?_modify, if_neg fun h => hframe h.symm]

theorem lookup?_define_self
    (h : frame < fs.size)
    (name : String)
    (value : Value) :
    (fs.define frame name value).lookup? frame name = some value := by
  rw [lookup?_define_eq, if_pos ⟨rfl, rfl, h⟩]

/-- What is read after a name was bound is its value, or what was read before. -/
theorem lookup?_define
    {target : Nat}
    {name other : String}
    {value v : Value}
    (h : (fs.define target name value).lookup? frame other = some v) :
    (frame = target ∧ other = name ∧ v = value) ∨ fs.lookup? frame other = some v := by
  rw [lookup?_define_eq] at h
  split at h
  · rename_i hhere
    exact .inl ⟨hhere.1, hhere.2.1, (Option.some.inj h).symm⟩
  · exact .inr h

/-- A name that is bound in a frame is found there first. -/
theorem holder?_of_bound
    {name : String}
    (h : fs.Bound frame name)
    (hsize : 0 < fs.size) :
    fs.holder? frame name = some frame := by
  obtain ⟨value, hvalue⟩ := h
  unfold holder?
  rw [← Nat.succ_pred_eq_of_pos hsize]
  simp only [holderWithin?, hvalue]

end Updates

section Reads

variable {d : Nat}
variable {name : String}
variable {value : Value}

theorem lt_size_of_lookup?
    (h : fs.lookup? frame name = some value) :
    frame < fs.size := by
  apply Nat.lt_of_not_le
  intro hle
  rw [lookup?_of_size_le hle] at h
  cases h

/-- One step further outward. -/
theorem outward?_succ (fs : Frames) (d frame : Nat) :
    fs.outward? (d + 1) frame = (fs.outward? d frame).bind fs.enclosing? := by
  induction d generalizing frame with
  | zero =>
      simp only [outward?, Option.bind_some]
      cases fs.enclosing? frame <;> rfl
  | succ d ih =>
      rw [outward?, outward?]
      cases fs.enclosing? frame with
      | none =>
          rfl
      | some outer =>
          exact ih outer

theorem exists_of_getAt?
    (h : fs.getAt? frame d name = some value) :
    ∃ target, fs.outward? d frame = some target ∧ fs.lookup? target name = some value := by
  unfold getAt? at h
  split at h
  · exact ⟨_, by assumption, h⟩
  · cases h

theorem exists_of_get?
    (h : fs.get? frame name = some value) :
    ∃ target, fs.lookup? target name = some value := by
  unfold get? at h
  split at h
  · exact ⟨_, h⟩
  · cases h

/-- A frame that no frame is around is looked at alone. -/
theorem holder?_outermost
    {target : Nat}
    (houtermost : fs.enclosing? frame = none)
    (h : fs.holder? frame name = some target) :
    target = frame := by
  unfold Frames.holder? at h
  cases hsize : fs.size with
  | zero =>
      rw [hsize] at h
      cases h
  | succ count =>
      rw [hsize] at h
      simp only [Frames.holderWithin?, houtermost] at h
      split at h
      · exact (Option.some.inj h).symm
      · cases h

end Reads

/-- A new frame with one name. -/
def pushWith (fs : Frames) (outer : Nat) (name : String) (value : Value) : Frames :=
  (fs.push outer).define fs.size name value

section PushWith

variable (fs : Frames)
variable (outer : Nat)
variable (name : String)
variable (value : Value)

theorem size_pushWith : (fs.pushWith outer name value).size = fs.size + 1 := by
  rw [pushWith, size_define, size_push]

theorem enclosing?_pushWith_self :
    (fs.pushWith outer name value).enclosing? fs.size = some outer := by
  rw [pushWith, enclosing?_define, enclosing?_push_self]

theorem enclosing?_pushWith_of_lt
    {frame : Nat}
    (h : frame < fs.size) :
    (fs.pushWith outer name value).enclosing? frame = fs.enclosing? frame := by
  rw [pushWith, enclosing?_define, enclosing?_push_of_ne (Nat.ne_of_lt h)]

theorem lookup?_pushWith (frame : Nat) (other : String) :
    (fs.pushWith outer name value).lookup? frame other =
      if frame = fs.size ∧ other = name then some value else fs.lookup? frame other := by
  rw [pushWith, lookup?_define_eq, lookup?_push, size_push]
  by_cases hframe : frame = fs.size
  · simp [hframe]
  · simp [hframe]

end PushWith

namespace Extends

theorem refl (fs : Frames) : Extends fs fs :=
  ⟨Nat.le_refl _, id, id⟩

theorem trans
    {fs'' : Frames}
    (h : Extends fs fs')
    (h' : Extends fs' fs'') :
    Extends fs fs'' :=
  ⟨Nat.le_trans h.size h'.size, fun he => h'.enclosing (h.enclosing he),
    fun hb => h'.bound (h.bound hb)⟩

theorem push (fs : Frames) (outer : Nat) : Extends fs (fs.push outer) where
  size := by
    rw [size_push]
    omega
  enclosing := by
    intro frame outer' h
    rw [enclosing?_push_of_ne (Nat.ne_of_lt (lt_size_of_enclosing? h))]
    exact h
  bound := by
    rintro frame name ⟨value, hvalue⟩
    exact ⟨value, by rw [lookup?_push, hvalue]⟩

theorem define (fs : Frames) (target : Nat) (name : String) (value : Value) :
    Extends fs (fs.define target name value) where
  size := Nat.le_of_eq (size_define fs target name value).symm
  enclosing := by
    intro frame outer h
    rw [enclosing?_define]
    exact h
  bound := by
    rintro frame other ⟨old, hold⟩
    unfold Bound
    rw [lookup?_define_eq]
    split
    · exact ⟨value, rfl⟩
    · exact ⟨old, hold⟩

theorem pushWith (fs : Frames) (outer : Nat) (name : String) (value : Value) :
    Extends fs (fs.pushWith outer name value) :=
  (push fs outer).trans (define _ fs.size name value)

end Extends

namespace Covers

variable {scope : Scope}
variable {scopes : Scopes}

theorem mono
    (h : fs.Covers frame scopes)
    (hext : Extends fs fs') :
    fs'.Covers frame scopes := by
  induction scopes generalizing frame with
  | nil =>
      exact h
  | cons scope scopes ih =>
      obtain ⟨hroot, hbound, outer, houter, hcovers⟩ := h
      exact ⟨hroot, fun name hname => hext.bound (hbound name hname), outer,
        hext.enclosing houter, ih hcovers⟩

theorem lt_size
    (h : fs.Covers frame scopes)
    (hsize : 0 < fs.size) :
    frame < fs.size := by
  cases scopes with
  | nil =>
      rw [show frame = Machine.globals from h]
      exact hsize
  | cons scope scopes =>
      obtain ⟨-, -, outer, houter, -⟩ := h
      exact lt_size_of_enclosing? houter

/-- A new frame covers a new scope. -/
theorem push
    (h : fs.Covers frame scopes)
    (hsize : 0 < fs.size) :
    (fs.push frame).Covers fs.size ([] :: scopes) :=
  ⟨Nat.ne_of_gt hsize, by simp, frame, enclosing?_push_self fs frame,
    h.mono (Extends.push fs frame)⟩

/-- A name that cannot be read yet asks for nothing. -/
theorem declare
    (h : fs.Covers frame scopes)
    (name : Token) :
    fs.Covers frame (scopes.declare name) := by
  cases scopes with
  | nil =>
      exact h
  | cons scope scopes =>
      obtain ⟨hroot, hbound, hrest⟩ := h
      refine ⟨hroot, ?_, hrest⟩
      intro other hother
      by_cases hname : other = name.lexeme
      · subst hname
        rw [Scopes.lookup_cons_self] at hother
        cases hother
      · rw [Scopes.lookup_cons_of_ne hname] at hother
        exact hbound other hother

/-- A name that is bound in a frame can be read in its scope. -/
theorem define
    (h : fs.Covers frame scopes)
    (name : Token)
    (value : Value) :
    (fs.define frame name.lexeme value).Covers frame (scopes.define name) := by
  have hafter := h.mono (Extends.define fs frame name.lexeme value)
  cases scopes with
  | nil =>
      exact h
  | cons scope scopes =>
      obtain ⟨hroot, hbound, hrest⟩ := hafter
      refine ⟨hroot, ?_, hrest⟩
      intro other hother
      by_cases hname : other = name.lexeme
      · obtain ⟨-, -, outer, houter, -⟩ := h
        exact ⟨value, by rw [hname, lookup?_define_self (lt_size_of_enclosing? houter)]⟩
      · rw [Scopes.lookup_cons_of_ne hname] at hother
        exact hbound other hother

theorem declare_define
    (h : fs.Covers frame scopes)
    (name : Token)
    (value : Value) :
    (fs.define frame name.lexeme value).Covers frame ((scopes.declare name).define name) :=
  (h.declare name).define name value

/-- Going outward, frames and scopes keep step. -/
theorem outward?
    (h : fs.Covers frame scopes)
    {d : Nat}
    (hd : d ≤ scopes.length) :
    ∃ target, fs.outward? d frame = some target ∧ fs.Covers target (scopes.drop d) := by
  induction d generalizing frame scopes with
  | zero =>
      exact ⟨frame, rfl, h⟩
  | succ d ih =>
      cases scopes with
      | nil =>
          simp at hd
      | cons scope scopes =>
          obtain ⟨-, -, outer, houter, hcovers⟩ := h
          obtain ⟨target, htarget, hrest⟩ := ih hcovers (Nat.le_of_succ_le_succ hd)
          refine ⟨target, ?_, hrest⟩
          simp only [Frames.outward?, houter]
          exact htarget

/-- The global frame is reached after as many steps as there are scopes, and not before. -/
theorem depth
    (h : fs.Covers frame scopes) :
    fs.outward? scopes.length frame = some Machine.globals ∧
      ∀ d < scopes.length, ∃ target, fs.outward? d frame = some target ∧
        target ≠ Machine.globals := by
  constructor
  · obtain ⟨target, htarget, hcovers⟩ := h.outward? (Nat.le_refl _)
    rw [List.drop_length] at hcovers
    rw [htarget, show target = Machine.globals from hcovers]
  · intro d hd
    obtain ⟨target, htarget, hcovers⟩ := h.outward? (Nat.le_of_lt hd)
    rw [List.drop_eq_getElem_cons hd] at hcovers
    exact ⟨target, htarget, hcovers.1⟩

/-- A name that can be read in a scope is found in the frame at its distance. -/
theorem getAt?
    (h : fs.Covers frame scopes)
    {d : Nat}
    {name : String}
    (hread : scopes.ReadableAt d name) :
    ∃ value target, fs.outward? d frame = some target ∧ fs.lookup? target name = some value ∧
      fs.getAt? frame d name = some value := by
  obtain ⟨scope, hscope, hlookup⟩ := hread
  obtain ⟨hlt, hget⟩ := List.getElem?_eq_some_iff.mp hscope
  obtain ⟨target, htarget, hcovers⟩ := h.outward? (Nat.le_of_lt hlt)
  rw [List.drop_eq_getElem_cons hlt, hget] at hcovers
  obtain ⟨value, hvalue⟩ := hcovers.2.1 name hlookup
  refine ⟨value, target, htarget, hvalue, ?_⟩
  unfold Frames.getAt?
  rw [htarget]
  exact hvalue

end Covers

end Frames

end Lox
