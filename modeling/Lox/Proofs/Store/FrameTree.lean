import Lox.Proofs.Machine.Frames
import Mathlib.Order.Bounds.Basic

/-!
# Walking outward and going a distance

A variable is reached by walking outward to the nearest frame that has its name, or by going a given
number of frames outward.  The walk goes the least distance at which there is a frame with the name:
reading and writing by walking are reading and writing at that distance, and both fail if there is
none.  A write is seen from all frames from which one comes to the frame that was written, and from no
other.
-/

namespace Lox
namespace Frames

/-- Reads a variable by walking outward. -/
def read (fs : Frames) (frame : Nat) (name : Token) : Except RuntimeError Value :=
  match fs.get? frame name.lexeme with
  | some value => .ok value
  | none => .error (.undefined name)

/-- Writes a variable by walking outward, and gives the frames after that.  A write that fails leaves
the frames as they were. -/
def write (fs : Frames) (frame : Nat) (name : Token) (value : Value) :
    Except RuntimeError Unit × Frames :=
  match fs.assign? frame name.lexeme value with
  | some fs' => (.ok (), fs')
  | none => (.error (.undefined name), fs)

/-- Writes a name in the frame at a distance, says whether there is one, and gives the frames after
that. -/
def writeAt (fs : Frames) (frame distance : Nat) (name : String) (value : Value) : Bool × Frames :=
  match fs.assignAt? frame distance name value with
  | some fs' => (true, fs')
  | none => (false, fs)

/-- The frames that can come out of a single root frame. -/
inductive Tree : Frames → Prop
  | root : Tree root
  | push {fs : Frames} (h : Tree fs) {frame : Nat} (hframe : frame < fs.size) :
      Tree (fs.push frame)
  | define {fs : Frames} (h : Tree fs) (frame : Nat) (name : String) (value : Value) :
      Tree (fs.define frame name value)
  | write {fs : Frames} (h : Tree fs) (frame : Nat) (name : Token) (value : Value) :
      Tree (fs.write frame name value).2
  | writeAt {fs : Frames} (h : Tree fs) (frame distance : Nat) (name : String) (value : Value) :
      Tree (fs.writeAt frame distance name value).2

/-- Every frame stands in an older one. -/
def Nested (fs : Frames) : Prop :=
  ∀ ⦃frame outer⦄, fs.enclosing? frame = some outer → outer < frame

/-- The least number of frames outward from a frame to one that has a name. -/
def Nearest (fs : Frames) (frame : Nat) (name : String) (distance : Nat) : Prop :=
  IsLeast { d | ∃ target, fs.outward? d frame = some target ∧ fs.Bound target name } distance

/-- The walk from a frame to the nearest one that has a name ends in the target. -/
def WalksTo (fs : Frames) (frame : Nat) (name : String) (target : Nat) : Prop :=
  ∃ d, fs.Nearest frame name d ∧ fs.outward? d frame = some target

/-- The second frames differ from the first ones in the value of one name in one frame, and so does
what is read from them. -/
structure Overwritten (fs : Frames) (target : Nat) (name : String) (value : Value) (fs' : Frames) :
    Prop where
  size : fs'.size = fs.size
  enclosing : ∀ frame, fs'.enclosing? frame = fs.enclosing? frame
  lookup : ∀ frame other, fs'.lookup? frame other =
    if frame = target ∧ other = name then some value else fs.lookup? frame other
  read_here : ∀ frame (other : Token), other.lexeme = name → fs.WalksTo frame name target →
    fs'.read frame other = .ok value
  read_elsewhere : ∀ frame (other : Token),
    ¬ (other.lexeme = name ∧ fs.WalksTo frame name target) →
    fs'.read frame other = fs.read frame other
  getAt_here : ∀ frame d, fs.outward? d frame = some target → fs'.getAt? frame d name = some value
  getAt_elsewhere : ∀ frame d other, ¬ (other = name ∧ fs.outward? d frame = some target) →
    fs'.getAt? frame d other = fs.getAt? frame d other

section Machines

open Run

/-- Reading a variable without an entry in the table is reading from the global frame. -/
theorem readVariable_eq_read
    {σ : Setting}
    {id : Nat}
    (hget : σ.locals.get? id = none)
    (name : Token)
    (m : Machine) :
    readVariable σ id name m = ((m.frames.read Machine.globals name).mapError Stop.fault, m) := by
  rw [readVariable_of_unfiled hget, read]
  cases m.frames.get? Machine.globals name.lexeme <;> rfl

/-- A write on a machine is one of its frames. -/
theorem writeIn_holder?
    (name : Token)
    (value : Value)
    (frame : Nat)
    (m : Machine) :
    writeIn (m.frames.holder? frame name.lexeme) name value m =
      ((m.frames.write frame name value).1.mapError Stop.fault,
        { m with frames := (m.frames.write frame name value).2 }) := by
  unfold write assign?
  cases m.frames.holder? frame name.lexeme <;> rfl

theorem overwrite_eq_write
    (name : Token)
    (value : Value)
    (m : Machine) :
    overwrite name value m =
      ((m.frames.write m.current name value).1.mapError Stop.fault,
        { m with frames := (m.frames.write m.current name value).2 }) :=
  writeIn_holder? name value m.current m

/-- Writing a variable is writing at the distance in the table, or else from the global frame. -/
theorem writeVariable_eq_write
    (σ : Setting)
    (id : Nat)
    (name : Token)
    (value : Value)
    (m : Machine) :
    writeVariable σ id name value m =
      match σ.locals.get? id with
      | some distance =>
          match m.frames.writeAt m.current distance name.lexeme value with
          | (true, fs) => (.ok (), { m with frames := fs })
          | (false, fs) => (.error (.fault (.undefined name)), { m with frames := fs })
      | none =>
          ((m.frames.write Machine.globals name value).1.mapError Stop.fault,
            { m with frames := (m.frames.write Machine.globals name value).2 }) := by
  rw [writeVariable, bind_apply, Run.read]
  cases hget : σ.locals.get? id with
  | none =>
      simp only [variableFrame?, hget]
      exact writeIn_holder? name value Machine.globals m
  | some distance =>
      simp only [variableFrame?, hget, writeAt, assignAt?]
      cases m.frames.outward? distance m.current <;> rfl

end Machines

section Walks

variable {fs : Frames}
variable {frame outer target d count : Nat}
variable {name : String}

/-- A walk outward goes to older and older frames, so it is not longer than the place of its start. -/
theorem Nested.add_le
    (h : fs.Nested)
    (hreach : fs.outward? d frame = some target) :
    target + d ≤ frame := by
  induction d generalizing frame with
  | zero =>
      cases hreach
      exact Nat.le_refl _
  | succ d ih =>
      rw [outward?] at hreach
      split at hreach
      · rename_i outer houter
        have hle := ih hreach
        have hlt := h houter
        omega
      · cases hreach

/-- Where a name is not bound, the nearest frame is that from one frame outward. -/
theorem nearest_succ
    (hunbound : fs.lookup? frame name = none)
    (houter : fs.enclosing? frame = some outer)
    (hnearest : fs.Nearest outer name d) :
    fs.Nearest frame name (d + 1) := by
  have hreach (n : Nat) : fs.outward? (n + 1) frame = fs.outward? n outer := by
    rw [outward?, houter]
  obtain ⟨⟨target, htarget, hbound⟩, hleast⟩ := hnearest
  refine ⟨⟨target, (hreach d).trans htarget, hbound⟩, ?_⟩
  rintro n ⟨target', htarget', hbound'⟩
  cases n with
  | zero =>
      cases htarget'
      obtain ⟨value, hvalue⟩ := hbound'
      rw [hunbound] at hvalue
      cases hvalue
  | succ n =>
      exact Nat.succ_le_succ (hleast ⟨target', (hreach n).symm.trans htarget', hbound'⟩)

/-- The search for the frame of a name walks to the nearest one. -/
theorem walksTo_of_holderWithin?
    (h : fs.holderWithin? name count frame = some target) :
    fs.WalksTo frame name target := by
  induction count generalizing frame with
  | zero =>
      cases h
  | succ count ih =>
      rw [holderWithin?] at h
      split at h
      · rename_i value hvalue
        cases h
        exact ⟨0, ⟨⟨_, rfl, value, hvalue⟩, fun _ _ => Nat.zero_le _⟩, rfl⟩
      · rename_i hunbound
        split at h
        · rename_i outer houter
          obtain ⟨d, hnearest, hreach⟩ := ih h
          refine ⟨d + 1, nearest_succ hunbound houter hnearest, ?_⟩
          simp only [outward?, houter, hreach]
        · cases h

/-- If the search finds nothing, no frame that it looked at has the name. -/
theorem not_bound_of_holderWithin?
    (h : fs.holderWithin? name count frame = none)
    (hcount : d < count)
    (hreach : fs.outward? d frame = some target) :
    ¬ fs.Bound target name := by
  induction count generalizing frame d with
  | zero =>
      omega
  | succ count ih =>
      rw [holderWithin?] at h
      split at h
      · cases h
      · rename_i hunbound
        cases d with
        | zero =>
            cases hreach
            rintro ⟨value, hvalue⟩
            rw [hunbound] at hvalue
            cases hvalue
        | succ d =>
            rw [outward?] at hreach
            split at hreach
            · rename_i outer houter
              rw [houter] at h
              exact ih h (by omega) hreach
            · cases hreach

/-- The frame that a walk ends in has the name. -/
theorem WalksTo.bound
    (h : fs.WalksTo frame name target) :
    fs.Bound target name := by
  obtain ⟨d, ⟨⟨target', htarget', hbound⟩, -⟩, hreach⟩ := h
  rw [htarget'] at hreach
  cases hreach
  exact hbound

theorem WalksTo.exists_nearest
    (h : fs.Nearest frame name d) :
    ∃ target, fs.outward? d frame = some target ∧ fs.WalksTo frame name target := by
  obtain ⟨target, hreach, -⟩ := h.1
  exact ⟨target, hreach, d, h, hreach⟩

theorem bound_of_holder?
    (h : fs.holder? frame name = some target) :
    fs.Bound target name :=
  (walksTo_of_holderWithin? h).bound

theorem lt_size_of_bound
    (h : fs.Bound target name) :
    target < fs.size := by
  obtain ⟨value, hvalue⟩ := h
  exact lt_size_of_lookup? hvalue

/-- There is nothing to walk to from where there is no frame. -/
theorem lt_size_of_outward?
    (hreach : fs.outward? d frame = some target)
    (hbound : fs.Bound target name) :
    frame < fs.size := by
  cases d with
  | zero =>
      cases hreach
      exact lt_size_of_bound hbound
  | succ d =>
      rw [outward?] at hreach
      split at hreach
      · exact lt_size_of_enclosing? (by assumption)
      · cases hreach

/-- The search finds just the frame that the walk ends in, since no walk is longer than the search. -/
theorem Nested.holder?_eq_some_iff
    (h : fs.Nested) :
    fs.holder? frame name = some target ↔ fs.WalksTo frame name target := by
  constructor
  · exact walksTo_of_holderWithin?
  · rintro ⟨d, hnearest, hreach⟩
    cases hholder : fs.holder? frame name with
    | none =>
        obtain ⟨target', htarget', hbound⟩ := hnearest.1
        have hle := h.add_le htarget'
        have hlt := lt_size_of_outward? htarget' hbound
        exact absurd hbound (not_bound_of_holderWithin? hholder (by omega) htarget')
    | some found =>
        obtain ⟨d', hnearest', hreach'⟩ := walksTo_of_holderWithin? hholder
        rw [hnearest.unique hnearest', hreach'] at hreach
        exact hreach

theorem Nested.holder?_eq_none_iff
    (h : fs.Nested) :
    fs.holder? frame name = none ↔ ∀ d, ¬ fs.Nearest frame name d := by
  constructor
  · intro hnone d hnearest
    obtain ⟨target, -, hwalk⟩ := WalksTo.exists_nearest hnearest
    rw [h.holder?_eq_some_iff.mpr hwalk] at hnone
    cases hnone
  · intro hnever
    rw [Option.eq_none_iff_forall_ne_some]
    intro target hholder
    obtain ⟨d, hnearest, -⟩ := h.holder?_eq_some_iff.mp hholder
    exact hnever d hnearest

end Walks

section Writes

variable {fs : Frames}
variable {frame target d : Nat}
variable {name : String}
variable {value : Value}

theorem outward?_define
    (fs : Frames)
    (target d frame : Nat)
    (name : String)
    (value : Value) :
    (fs.define target name value).outward? d frame = fs.outward? d frame := by
  induction d generalizing frame with
  | zero =>
      rfl
  | succ d ih =>
      rw [outward?, outward?, enclosing?_define]
      cases fs.enclosing? frame with
      | none =>
          rfl
      | some outer =>
          exact ih outer

/-- A name that is bound is read as its new value in its frame, and all else as before. -/
theorem lookup?_define_of_bound
    (hbound : fs.Bound target name)
    (value : Value)
    (frame : Nat)
    (other : String) :
    (fs.define target name value).lookup? frame other =
      if frame = target ∧ other = name then some value else fs.lookup? frame other := by
  rw [lookup?_define_eq]
  by_cases hhere : frame = target ∧ other = name
  · rw [if_pos hhere, if_pos ⟨hhere.1, hhere.2, by rw [hhere.1]; exact lt_size_of_bound hbound⟩]
  · rw [if_neg hhere, if_neg fun h => hhere ⟨h.1, h.2.1⟩]

/-- Overwriting a name binds no name. -/
theorem bound_define_iff
    (hbound : fs.Bound target name)
    (value : Value)
    (frame : Nat)
    (other : String) :
    (fs.define target name value).Bound frame other ↔ fs.Bound frame other := by
  unfold Bound
  rw [lookup?_define_of_bound hbound]
  split
  · rename_i hhere
    rw [hhere.1, hhere.2]
    exact ⟨fun _ => hbound, fun _ => ⟨value, rfl⟩⟩
  · exact Iff.rfl

theorem holderWithin?_define
    (hbound : fs.Bound target name)
    (value : Value)
    (other : String)
    (count frame : Nat) :
    (fs.define target name value).holderWithin? other count frame =
      fs.holderWithin? other count frame := by
  induction count generalizing frame with
  | zero =>
      rfl
  | succ count ih =>
      have hiff := bound_define_iff hbound value frame other
      unfold Bound at hiff
      rw [holderWithin?, holderWithin?, enclosing?_define]
      cases hnew : (fs.define target name value).lookup? frame other with
      | some v =>
          obtain ⟨old, hold⟩ := hiff.mp ⟨v, hnew⟩
          rw [hold]
      | none =>
          cases hold : fs.lookup? frame other with
          | some old =>
              obtain ⟨v, hv⟩ := hiff.mpr ⟨old, hold⟩
              rw [hnew] at hv
              cases hv
          | none =>
              cases fs.enclosing? frame with
              | none =>
                  rfl
              | some outer =>
                  exact ih outer

theorem get?_define_of_bound
    (hbound : fs.Bound target name)
    (value : Value)
    (frame : Nat)
    (other : String) :
    (fs.define target name value).get? frame other =
      if fs.holder? frame other = some target ∧ other = name then some value
      else fs.get? frame other := by
  unfold get? holder?
  rw [size_define, holderWithin?_define hbound]
  cases fs.holderWithin? other fs.size frame with
  | none =>
      simp
  | some holder =>
      simp only [lookup?_define_of_bound hbound, Option.some.injEq]

/-- Overwriting a name in one frame changes what is read there, and nothing else. -/
theorem Nested.overwritten
    (h : fs.Nested)
    (hbound : fs.Bound target name)
    (value : Value) :
    fs.Overwritten target name value (fs.define target name value) where
  size := size_define fs target name value
  enclosing := fun frame => enclosing?_define fs target frame name value
  lookup := lookup?_define_of_bound hbound value
  read_here := by
    rintro frame other rfl hwalk
    rw [read, get?_define_of_bound hbound, if_pos ⟨h.holder?_eq_some_iff.mpr hwalk, rfl⟩]
  read_elsewhere := by
    intro frame other helsewhere
    have hnot : ¬ (fs.holder? frame other.lexeme = some target ∧ other.lexeme = name) := by
      rintro ⟨hholder, hname⟩
      rw [hname] at hholder
      exact helsewhere ⟨hname, h.holder?_eq_some_iff.mp hholder⟩
    rw [read, get?_define_of_bound hbound, if_neg hnot]
    rfl
  getAt_here := by
    intro frame d hreach
    simp only [getAt?, outward?_define, hreach]
    rw [lookup?_define_of_bound hbound, if_pos ⟨rfl, rfl⟩]
  getAt_elsewhere := by
    intro frame d other helsewhere
    simp only [getAt?, outward?_define]
    cases hreach : fs.outward? d frame with
    | none =>
        rfl
    | some reached =>
        refine (lookup?_define_of_bound hbound value reached other).trans (if_neg ?_)
        rintro ⟨rfl, hname⟩
        exact helsewhere ⟨hname, hreach⟩

theorem Nested.push
    (h : fs.Nested)
    (hframe : frame < fs.size) :
    (fs.push frame).Nested := by
  intro inner outer houter
  by_cases hinner : inner = fs.size
  · rw [hinner, enclosing?_push_self] at houter
    cases houter
    omega
  · rw [enclosing?_push_of_ne hinner] at houter
    exact h houter

theorem Nested.define
    (h : fs.Nested)
    (frame : Nat)
    (name : String)
    (value : Value) :
    (fs.define frame name value).Nested := by
  intro inner outer houter
  rw [enclosing?_define] at houter
  exact h houter

/-- Whatever the frames came out of, they are nested. -/
theorem Tree.nested
    (h : fs.Tree) :
    fs.Nested := by
  induction h with
  | root =>
      intro frame outer houter
      have hlt := lt_size_of_enclosing? houter
      obtain rfl : frame = 0 := Nat.lt_one_iff.mp hlt
      cases houter
  | push _ hframe ih =>
      exact ih.push hframe
  | define _ frame name value ih =>
      exact ih.define frame name value
  | @write fs _ frame name value ih =>
      unfold Frames.write assign?
      cases fs.holder? frame name.lexeme with
      | none =>
          exact ih
      | some target =>
          exact ih.define target name.lexeme value
  | @writeAt fs _ frame distance name value ih =>
      unfold Frames.writeAt assignAt?
      cases fs.outward? distance frame with
      | none =>
          exact ih
      | some target =>
          exact ih.define target name value

/-- Reading and writing where a walk ends. -/
theorem Nested.of_nearest
    (h : fs.Nested)
    {name : Token}
    (hnearest : fs.Nearest frame name.lexeme d) :
    ∃ target old, fs.outward? d frame = some target ∧
      fs.getAt? frame d name.lexeme = some old ∧ fs.read frame name = .ok old ∧
      ∀ value, fs.write frame name value = (.ok (), fs.define target name.lexeme value) ∧
        fs.writeAt frame d name.lexeme value = (true, fs.define target name.lexeme value) ∧
        fs.Overwritten target name.lexeme value (fs.define target name.lexeme value) := by
  obtain ⟨target, hreach, hwalk⟩ := WalksTo.exists_nearest hnearest
  have hholder := h.holder?_eq_some_iff.mpr hwalk
  obtain ⟨old, hold⟩ := hwalk.bound
  refine ⟨target, old, hreach, ?_, ?_, ?_⟩
  · simp only [getAt?, hreach, hold]
  · simp only [read, get?, hholder, hold]
  · intro value
    refine ⟨?_, ?_, h.overwritten hwalk.bound value⟩
    · simp only [write, assign?, hholder]
    · simp only [writeAt, assignAt?, hreach]

end Writes

/-- Walking and jumping agree, in all frames that can come out of a root frame.

From a frame, take the least distance at which there is a frame that has the name.  Reading by walking
is reading at that distance; writing by walking succeeds and is writing at that distance, and it
changes what is read of the name in that one frame and nothing else.  If there is no such distance,
and only then, reading and writing by walking are errors of an undefined variable.  A write that fails
leaves the frames as they were, and one at a distance fails if and only if there is no frame. -/
theorem walk_and_jump_agree
    {fs : Frames}
    (h : fs.Tree)
    (frame : Nat)
    (name : Token) :
    (∀ d, fs.Nearest frame name.lexeme d →
      fs.get? frame name.lexeme = fs.getAt? frame d name.lexeme ∧
      ∃ target old, fs.outward? d frame = some target ∧
        fs.getAt? frame d name.lexeme = some old ∧ fs.read frame name = .ok old ∧
        ∀ value, ∃ fs', fs.write frame name value = (.ok (), fs') ∧
          fs.writeAt frame d name.lexeme value = (true, fs') ∧
          fs.Overwritten target name.lexeme value fs') ∧
    (fs.read frame name = .error (.undefined name) ↔ ∀ d, ¬ fs.Nearest frame name.lexeme d) ∧
    (∀ value, (fs.write frame name value).1 = .ok () ↔ ∃ d, fs.Nearest frame name.lexeme d) ∧
    (∀ value, (∀ d, ¬ fs.Nearest frame name.lexeme d) →
      fs.write frame name value = (.error (.undefined name), fs)) ∧
    ∀ d value, fs.outward? d frame = none ↔
      fs.writeAt frame d name.lexeme value = (false, fs) := by
  have hnested := h.nested
  have hnone : (∀ d, ¬ fs.Nearest frame name.lexeme d) →
      fs.read frame name = .error (.undefined name) ∧
        ∀ value, fs.write frame name value = (.error (.undefined name), fs) := by
    intro hnever
    have hholder := hnested.holder?_eq_none_iff.mpr hnever
    exact ⟨by simp only [read, get?, hholder], fun _ => by simp only [write, assign?, hholder]⟩
  refine ⟨?_, ?_, ?_, fun value hnever => (hnone hnever).2 value, ?_⟩
  · intro d hnearest
    obtain ⟨target, old, hreach, hgetAt, hread, hwrites⟩ := hnested.of_nearest hnearest
    refine ⟨?_, target, old, hreach, hgetAt, hread, fun value => ⟨_, hwrites value⟩⟩
    rw [hgetAt]
    unfold read at hread
    split at hread
    · cases hread
      assumption
    · cases hread
  · refine ⟨?_, fun hnever => (hnone hnever).1⟩
    intro hread d hnearest
    obtain ⟨_, old, _, _, hread', _⟩ := hnested.of_nearest hnearest
    rw [hread] at hread'
    cases hread'
  · intro value
    constructor
    · intro hwrite
      apply Classical.byContradiction
      intro hnever
      rw [(hnone (not_exists.mp hnever)).2 value] at hwrite
      cases hwrite
    · rintro ⟨d, hnearest⟩
      obtain ⟨_, _, _, _, _, hwrites⟩ := hnested.of_nearest hnearest
      rw [(hwrites value).1]
  · intro d value
    unfold writeAt assignAt?
    cases fs.outward? d frame <;> simp

/-- Two frames in one that has a name, which is in the root frame too. -/
def siblings : Frames :=
  ((((root.define 0 "a" .nil).push 0).define 1 "a" .nil).push 1).push 1

theorem siblings_tree : siblings.Tree :=
  ((((Tree.root.define 0 "a" .nil).push (by decide)).define 1 "a" .nil).push (by decide)).push
    (by decide)

/-- From the siblings, the nearest frame that has the name is one frame outward. -/
theorem siblings_nearest
    {frame : Nat}
    (hframe : frame = 2 ∨ frame = 3) :
    siblings.Nearest frame "a" 1 ∧ siblings.outward? 1 frame = some 1 := by
  have hreach : siblings.outward? 1 frame = some 1 := by
    obtain rfl | rfl := hframe <;> rfl
  refine ⟨⟨⟨1, hreach, .nil, rfl⟩, ?_⟩, hreach⟩
  rintro d ⟨target, htarget, value, hvalue⟩
  cases d with
  | zero =>
      cases htarget
      obtain rfl | rfl := hframe <;> cases hvalue
  | succ d =>
      exact Nat.succ_le_succ (Nat.zero_le d)

/-- What one of the siblings writes is read by the other, and not from the root frame. -/
theorem siblings_walk_and_jump_agree :
    siblings.Tree ∧ ∃ fs',
      siblings.write 2 ⟨.identifier, "a", 1⟩ (.bool true) = (.ok (), fs') ∧
      siblings.writeAt 2 1 "a" (.bool true) = (true, fs') ∧
      fs'.read 3 ⟨.identifier, "a", 1⟩ = .ok (.bool true) ∧
      fs'.read 0 ⟨.identifier, "a", 1⟩ = .ok .nil := by
  have hhere := siblings_nearest (.inl rfl)
  have hthere := siblings_nearest (.inr rfl)
  obtain ⟨-, target, _, hreach, -, -, hwrites⟩ :=
    (walk_and_jump_agree siblings_tree 2 ⟨.identifier, "a", 1⟩).1 1 hhere.1
  obtain rfl : 1 = target := Option.some.inj (hhere.2.symm.trans hreach)
  obtain ⟨fs', hwrite, hwriteAt, hafter⟩ := hwrites (.bool true)
  refine ⟨siblings_tree, fs', hwrite, hwriteAt, ?_, ?_⟩
  · exact hafter.read_here 3 ⟨.identifier, "a", 1⟩ rfl ⟨1, hthere⟩
  · refine (hafter.read_elsewhere 0 ⟨.identifier, "a", 1⟩ ?_).trans rfl
    rintro ⟨-, d, ⟨-, -⟩, hd⟩
    have hle := siblings_tree.nested.add_le hd
    omega

end Frames
end Lox
