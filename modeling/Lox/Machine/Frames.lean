import Lox.Machine.Value

/-!
# Frames

Variables live in frames.  Every frame but a root is enclosed by an older frame, so that frames
form a tree, and a write to a frame is seen from all frames inside it.  A variable can be reached
in two ways: by walking outward to the nearest frame that has its name, or by going exactly the
given number of frames outward.
-/

namespace Lox

/-- Variables and the frame around them. -/
structure Frame where
  bindings : List (String × Value)
  enclosing : Option Nat

/-- All frames, by their place. -/
structure Frames where
  frames : Array Frame

namespace Frames

/-- A single root frame, at place `0`. -/
def root : Frames :=
  ⟨#[⟨[], none⟩]⟩

/-- The number of frames, which is the place of the next one. -/
def size (fs : Frames) : Nat :=
  fs.frames.size

/-- Adds an empty frame inside the given one. -/
def push (fs : Frames) (enclosing : Nat) : Frames :=
  ⟨fs.frames.push ⟨[], some enclosing⟩⟩

/-- Reads a name in one frame. -/
def lookup? (fs : Frames) (frame : Nat) (name : String) : Option Value :=
  match fs.frames[frame]? with
  | some f => f.bindings.lookup name
  | none => none

/-- Binds a name in one frame, whether it was bound or not. -/
def define (fs : Frames) (frame : Nat) (name : String) (value : Value) : Frames :=
  ⟨fs.frames.modify frame fun f => { f with bindings := putBinding name value f.bindings }⟩

/-- The frame around a frame. -/
def enclosing? (fs : Frames) (frame : Nat) : Option Nat :=
  match fs.frames[frame]? with
  | some f => f.enclosing
  | none => none

/-- The frame exactly `distance` frames outward. -/
def outward? (fs : Frames) : Nat → Nat → Option Nat
  | 0, frame => some frame
  | distance + 1, frame =>
      match fs.enclosing? frame with
      | some outer => outward? fs distance outer
      | none => none

/-- Reads a name in the frame exactly `distance` frames outward. -/
def getAt? (fs : Frames) (frame distance : Nat) (name : String) : Option Value :=
  match fs.outward? distance frame with
  | some target => fs.lookup? target name
  | none => none

/-- Binds a name in the frame exactly `distance` frames outward, if there is one. -/
def assignAt? (fs : Frames) (frame distance : Nat) (name : String) (value : Value) :
    Option Frames :=
  match fs.outward? distance frame with
  | some target => some (fs.define target name value)
  | none => none

/-- The nearest frame that has a name, looking at no more than `count` frames outward. -/
def holderWithin? (fs : Frames) (name : String) : Nat → Nat → Option Nat
  | 0, _ => none
  | count + 1, frame =>
      match fs.lookup? frame name with
      | some _ => some frame
      | none =>
          match fs.enclosing? frame with
          | some outer => holderWithin? fs name count outer
          | none => none

/-- The nearest frame outward that has a name.  No chain of frames is longer than there are
frames. -/
def holder? (fs : Frames) (frame : Nat) (name : String) : Option Nat :=
  fs.holderWithin? name fs.size frame

/-- Reads a name in the nearest frame that has it. -/
def get? (fs : Frames) (frame : Nat) (name : String) : Option Value :=
  match fs.holder? frame name with
  | some target => fs.lookup? target name
  | none => none

/-- Overwrites a name in the nearest frame that has it. -/
def assign? (fs : Frames) (frame : Nat) (name : String) (value : Value) : Option Frames :=
  match fs.holder? frame name with
  | some target => some (fs.define target name value)
  | none => none

end Frames

end Lox
