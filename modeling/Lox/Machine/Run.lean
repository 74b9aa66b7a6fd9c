import Lox.Machine.Fault
import Lox.Machine.Frames
import Lox.Scope.Resolution

/-!
# Machines and runs

A machine holds what a running program can read and change: frames, objects, the frame that is
current, and the lines printed so far.  A `Run` is a step of a program on a machine.  It can stop
early, on a fault or because its fuel is used up, and the machine stays as it is then.
-/

namespace Lox

/-- The state of a running program. -/
structure Machine where
  frames : Frames
  objects : Array Instance
  /-- The frame in which names are defined and from which distances count. -/
  current : Nat
  /-- How many classes were made. -/
  classCount : Nat
  /-- How many functions were made. -/
  functionCount : Nat
  /-- How often the clock was read. -/
  readings : Nat
  /-- The lines printed. -/
  output : Array String

/-- The place of the frame of global variables. -/
def Machine.globals : Nat := 0

/-- A machine that has run nothing: its global frame holds the provided functions. -/
def Machine.start : Machine where
  frames := Frames.root.define globals "clock" (.native .clock)
  objects := #[]
  current := globals
  classCount := 0
  functionCount := 0
  readings := 0
  output := #[]

/-- What a program runs with: the distances of its local references, and a clock, whose readings
are numbered. -/
structure Setting where
  locals : Locals
  clock : Nat → Float

/-- Why a run stops early. -/
inductive Stop where
  | fault (error : RuntimeError)
  | outOfFuel
deriving DecidableEq, Repr

/-- A run that gives an `α`. -/
def Run (α : Type) : Type :=
  Machine → Except Stop α × Machine

/-- How a statement ends. -/
inductive Flow where
  | normal
  | returned (value : Value)

namespace Run

@[always_inline]
instance : Monad Run where
  pure a := fun m => (.ok a, m)
  bind r f := fun m =>
    match r m with
    | (.ok a, m) => f a m
    | (.error e, m) => (.error e, m)

@[simp] theorem pure_apply {α : Type} (a : α) (m : Machine) :
    (pure a : Run α) m = (.ok a, m) := by
  rfl

/-- The second run goes on where the first one ended without stopping. -/
theorem bind_apply {α β : Type} (r : Run α) (f : α → Run β) (m : Machine) :
    (r >>= f) m =
      match r m with
      | (.ok a, m) => f a m
      | (.error e, m) => (.error e, m) := by
  rfl

theorem bind_of_ok {α β : Type}
    {r : Run α}
    {m m' : Machine}
    {a : α}
    (h : r m = (.ok a, m'))
    (f : α → Run β) :
    (r >>= f) m = f a m' := by
  rw [bind_apply, h]

theorem bind_of_error {α β : Type}
    {r : Run α}
    {m m' : Machine}
    {stop : Stop}
    (h : r m = (.error stop, m'))
    (f : α → Run β) :
    (r >>= f) m = (.error stop, m') := by
  rw [bind_apply, h]

/-- Stops for want of fuel. -/
def outOfFuel {α : Type} : Run α := fun m =>
  (.error .outOfFuel, m)

/-- Stops with an error. -/
def stop {α : Type} (error : RuntimeError) : Run α := fun m =>
  (.error (.fault error), m)

/-- Stops with a fault at a token. -/
def fail {α : Type} (found : Token) (fault : RuntimeFault) : Run α :=
  stop ⟨found, fault⟩

/-- The value of an outcome, or its fault at a token. -/
def check {α : Type} (found : Token) : Except RuntimeFault α → Run α
  | .ok a => pure a
  | .error fault => fail found fault

/-- Reads something off the machine. -/
def read {α : Type} (f : Machine → α) : Run α := fun m =>
  (.ok (f m), m)

/-- Prints a line. -/
def print (line : String) : Run Unit := fun m =>
  (.ok (), { m with output := m.output.push line })

/-- Binds a name in the current frame. -/
def define (name : String) (value : Value) : Run Unit := fun m =>
  (.ok (), { m with frames := m.frames.define m.current name value })

/-- Adds a frame inside the given one, and gives its place. -/
def pushFrame (enclosing : Nat) : Run Nat := fun m =>
  (.ok m.frames.size, { m with frames := m.frames.push enclosing })

/-- Binds a name in the given frame. -/
def defineIn (frame : Nat) (name : String) (value : Value) : Run Unit := fun m =>
  (.ok (), { m with frames := m.frames.define frame name value })

/-- Runs with another current frame, and goes back to the old one however the run ends. -/
def within {α : Type} (frame : Nat) (r : Run α) : Run α := fun m =>
  let back := m.current
  match r { m with current := frame } with
  | (result, m) => (result, { m with current := back })

/-- Makes a function value, different from all others. -/
def newFunction (closure : Closure) : Run Value := fun m =>
  (.ok (.function m.functionCount closure), { m with functionCount := m.functionCount + 1 })

/-- Makes a class, different from all others. -/
def newClass (name : String) (superclass : Option Class) (methods : List (String × Closure)) :
    Run Value := fun m =>
  (.ok (.cls (.mk m.classCount name superclass methods)), { m with classCount := m.classCount + 1 })

/-- Makes an object without fields, and gives its place. -/
def newObject (c : Class) : Run Nat := fun m =>
  (.ok m.objects.size, { m with objects := m.objects.push ⟨c, []⟩ })

/-- Writes a field of an object. -/
def setField (place : Nat) (name : String) (value : Value) : Run Unit := fun m =>
  (.ok (), { m with objects := m.objects.modify place (·.setField name value) })

/-- Reads the clock. -/
def readClock (σ : Setting) : Run Value := fun m =>
  (.ok (.number (σ.clock m.readings)), { m with readings := m.readings + 1 })

/-- Reads a variable: in the frame at its filed distance, or in the global frame. -/
def readVariable (σ : Setting) (id : Nat) (name : Token) : Run Value := fun m =>
  let found :=
    match σ.locals.get? id with
    | some distance => m.frames.getAt? m.current distance name.lexeme
    | none => m.frames.get? Machine.globals name.lexeme
  match found with
  | some value => (.ok value, m)
  | none => (.error (.fault (.undefined name)), m)

theorem readVariable_of_filed
    {σ : Setting}
    {id distance : Nat}
    (hget : σ.locals.get? id = some distance)
    (name : Token)
    (m : Machine) :
    readVariable σ id name m =
      match m.frames.getAt? m.current distance name.lexeme with
      | some value => (.ok value, m)
      | none => (.error (.fault (.undefined name)), m) := by
  simp only [readVariable, hget]

theorem readVariable_of_unfiled
    {σ : Setting}
    {id : Nat}
    (hget : σ.locals.get? id = none)
    (name : Token)
    (m : Machine) :
    readVariable σ id name m =
      match m.frames.get? Machine.globals name.lexeme with
      | some value => (.ok value, m)
      | none => (.error (.fault (.undefined name)), m) := by
  simp only [readVariable, hget]

/-- The frame that holds a variable for writing: the one at its filed distance, or the global frame
if the name is bound there. -/
def variableFrame? (σ : Setting) (id : Nat) (name : Token) (m : Machine) : Option Nat :=
  match σ.locals.get? id with
  | some distance => m.frames.outward? distance m.current
  | none => m.frames.holder? Machine.globals name.lexeme

/-- Writes a name in a frame, or stops if there is no such frame. -/
def writeIn (target : Option Nat) (name : Token) (value : Value) : Run Unit :=
  match target with
  | some frame => defineIn frame name.lexeme value
  | none => stop (.undefined name)

/-- Writes a variable: in the frame at its filed distance, or in the global frame. -/
def writeVariable (σ : Setting) (id : Nat) (name : Token) (value : Value) : Run Unit := do
  writeIn (← read (variableFrame? σ id name)) name value

/-- Overwrites a name in the nearest frame, from the current one outward, that has it. -/
def overwrite (name : Token) (value : Value) : Run Unit := do
  writeIn (← read fun m => m.frames.holder? m.current name.lexeme) name value

/-- Evaluates expressions one after the other. -/
def evalAll (eval : Expr → Run Value) : List Expr → Run (List Value)
  | [] => pure []
  | e :: rest => do
      let value ← eval e
      return value :: (← evalAll eval rest)

/-- Executes statements one after the other, up to a return. -/
def execAll (exec : Stmt → Run Flow) : List Stmt → Run Flow
  | [] => pure .normal
  | s :: rest => do
      match ← exec s with
      | .normal => execAll exec rest
      | .returned value => return .returned value

/-- Two statements, one after the other. -/
theorem execAll_pair (exec : Stmt → Run Flow) (s t : Stmt) :
    execAll exec [s, t] = do
      match ← exec s with
      | .normal => exec t
      | .returned value => return .returned value := by
  have hlast : execAll exec [t] = exec t := by
    funext m
    simp only [execAll, bind_apply]
    rcases exec t m with ⟨result, m'⟩
    rcases result with _ | (_ | _) <;> rfl
  rw [execAll, hlast]

/-- Runs a body as long as a condition holds and no return happens, at most `count` times. -/
def repeatWhile (condition : Run Value) (body : Run Flow) : Nat → Run Flow
  | 0 => outOfFuel
  | count + 1 => do
      if (← condition).isTruthy then
        match ← body with
        | .normal => repeatWhile condition body count
        | .returned value => return .returned value
      else
        return .normal

end Run

end Lox
