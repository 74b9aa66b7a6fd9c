import Lox.Machine.Operator
import Lox.Machine.Run

/-!
# Evaluation

Expressions evaluate to values and statements run, both on a machine.  A program need not end, so
evaluation takes fuel: a bound on how deep evaluations nest and how often a loop goes round.
With more fuel a run that ended ends the same way.
-/

namespace Lox

open Run

/-- Binds parameters to arguments in the given frame. -/
def bindParams (frame : Nat) : List Token → List Value → Run Unit
  | p :: params, value :: values => do
      defineIn frame p.lexeme value
      bindParams frame params values
  | _, _ => pure ()

namespace Closure

/-- A method made for an object: its calls find the object under `this`. -/
def bind (closure : Closure) (place : Nat) : Run Closure := do
  let frame ← pushFrame closure.frame
  defineIn frame "this" (.object place)
  return { closure with frame }

/-- Runs the body of a function in a new frame with its arguments.  An initializer gives the
object it was made for, any other function what it returns. -/
def invoke (exec : List Stmt → Run Flow) (closure : Closure) (arguments : List Value) :
    Run Value := do
  let frame ← pushFrame closure.frame
  bindParams frame closure.decl.params arguments
  let flow ← within frame (exec closure.decl.body)
  if closure.isInitializer then
    return (← read fun m => m.frames.getAt? closure.frame 0 "this").getD .nil
  else
    match flow with
    | .returned value => return value
    | .normal => return .nil

end Closure

/-- Makes an object of a class and runs the initializer on it, if there is one. -/
def Class.instantiate (exec : List Stmt → Run Flow) (c : Class) (arguments : List Value) :
    Run Value := do
  let place ← newObject c
  match c.findMethod? initializerName with
  | some initializer =>
      let method ← initializer.bind place
      let _ ← method.invoke exec arguments
      return .object place
  | none => return .object place

namespace Value

/-- How many arguments a value takes when it is called, if it can be called. -/
def arity? : Value → Option Nat
  | .native n => some n.arity
  | .function _ closure => some closure.decl.arity
  | .cls c => some (c.arity initializerName)
  | _ => none

/-- Calls a value whose arity was checked. -/
def apply (σ : Setting) (exec : List Stmt → Run Flow) (callee : Value) (paren : Token)
    (arguments : List Value) : Run Value :=
  match callee with
  | .native .clock => readClock σ
  | .function _ closure => closure.invoke exec arguments
  | .cls c => c.instantiate exec arguments
  | _ => fail paren .notCallable

/-- Calls a value. -/
def call (σ : Setting) (exec : List Stmt → Run Flow) (callee : Value) (paren : Token)
    (arguments : List Value) : Run Value :=
  match callee.arity? with
  | none => fail paren .notCallable
  | some arity =>
      if arguments.length = arity then callee.apply σ exec paren arguments
      else fail paren (.wrongArity arity arguments.length)

/-- Reads a property of a value: a field, or else a method made for the object. -/
def property (object : Value) (name : Token) : Run Value := do
  match object with
  | .object place =>
      match ← read fun m => m.objects[place]? with
      | none => fail name (.undefinedProperty name.lexeme)
      | some o =>
          match o.fields.lookup name.lexeme with
          | some value => return value
          | none =>
              match o.cls.findMethod? name.lexeme with
              | some method => newFunction (← method.bind place)
              | none => fail name (.undefinedProperty name.lexeme)
  | _ => fail name .noProperties

end Value

/-- Reads `super.method`: the method is looked up from the class under `super`, and made for the
object under `this`, one frame nearer. -/
def superMethod (σ : Setting) (id : Nat) (keyword method : Token) : Run Value := do
  match σ.locals.get? id with
  | none => stop (.undefined keyword)
  | some distance =>
      match ← read fun m => m.frames.getAt? m.current distance "super" with
      | some (.cls parent) =>
          match ← read fun m => m.frames.getAt? m.current (distance - 1) "this" with
          | some (.object place) =>
              match parent.findMethod? method.lexeme with
              | some found => newFunction (← found.bind place)
              | none => fail method (.undefinedProperty method.lexeme)
          | _ => fail keyword (.undefinedVariable "this")
      | _ => stop (.undefined keyword)

/-- The methods of a class by name; of two with one name the later counts. -/
def methodTable (frame : Nat) (methods : List FunctionDecl) : List (String × Closure) :=
  methods.foldl
    (fun table decl =>
      putBinding decl.name.lexeme ⟨decl, frame, decl.name.lexeme = initializerName⟩ table)
    []

/-- The token that is blamed for a superclass that is no class. -/
def superclassToken (name : Token) : Expr → Token
  | .var _ parent => parent
  | _ => name

/-- Makes a class whose superclass is known.  The name is bound first, so that methods can refer to
the class; methods of a derived class are made in a frame with `super`. -/
def declareClass (name : Token) (superclass : Option Class) (methods : List FunctionDecl) :
    Run Unit := do
  define name.lexeme .nil
  let outer ← read Machine.current
  let frame ←
    match superclass with
    | none => pure outer
    | some parent => do
        let frame ← pushFrame outer
        defineIn frame "super" (.cls parent)
        pure frame
  let c ← newClass name.lexeme superclass (methodTable frame methods)
  overwrite name c

/-- Evaluates an expression, given how expressions and bodies inside it are run. -/
def evalStep (σ : Setting) (eval : Expr → Run Value) (exec : List Stmt → Run Flow) :
    Expr → Run Value
  | .literal value => pure (.ofLiteral value)
  | .grouping inner => eval inner
  | .unary operator right => do
      let value ← eval right
      check operator (Operator.unary operator value)
  | .binary left operator right => do
      let a ← eval left
      let b ← eval right
      check operator (Operator.binary (← read Machine.objects) operator a b)
  | .logical left operator right => do
      let a ← eval left
      if Operator.decides operator a then
        return a
      else
        eval right
  | .var id name => readVariable σ id name
  | .assign id name value => do
      let v ← eval value
      writeVariable σ id name v
      return v
  | .call callee paren arguments => do
      let f ← eval callee
      let values ← evalAll eval arguments
      f.call σ exec paren values
  | .get object name => do
      let o ← eval object
      o.property name
  | .set object name value => do
      match ← eval object with
      | .object place =>
          let v ← eval value
          setField place name.lexeme v
          return v
      | _ => fail name .noFields
  | .this id keyword => readVariable σ id keyword
  | .super id keyword method => superMethod σ id keyword method

/-- Executes a statement, given how expressions and statements inside it are run, and how often a
loop may go round. -/
def execStep (eval : Expr → Run Value) (exec : Stmt → Run Flow) (rounds : Nat) : Stmt → Run Flow
  | .expression e => do
      let _ ← eval e
      return .normal
  | .print e => do
      let value ← eval e
      print (value.display (← read Machine.objects))
      return .normal
  | .var name none => do
      define name.lexeme .nil
      return .normal
  | .var name (some e) => do
      let value ← eval e
      define name.lexeme value
      return .normal
  | .block body => do
      let frame ← pushFrame (← read Machine.current)
      within frame (execAll exec body)
  | .ifThen condition thenBranch => do
      if (← eval condition).isTruthy then
        exec thenBranch
      else
        return .normal
  | .ifElse condition thenBranch elseBranch => do
      if (← eval condition).isTruthy then
        exec thenBranch
      else
        exec elseBranch
  | .loop condition body => repeatWhile (eval condition) (exec body) rounds
  | .function decl => do
      let f ← newFunction ⟨decl, ← read Machine.current, false⟩
      define decl.name.lexeme f
      return .normal
  | .ret _ none => return .returned .nil
  | .ret _ (some e) => do
      let value ← eval e
      return .returned value
  | .classDecl name none methods => do
      declareClass name none methods
      return .normal
  | .classDecl name (some superclass) methods => do
      match ← eval superclass with
      | .cls parent =>
          declareClass name (some parent) methods
          return .normal
      | _ => fail (superclassToken name superclass) .notAClass

mutual

/-- Evaluates an expression. -/
def eval (σ : Setting) : Nat → Expr → Run Value
  | 0, _ => outOfFuel
  | fuel + 1, e => evalStep σ (eval σ fuel) (execAll (exec σ fuel)) e

/-- Executes a statement. -/
def exec (σ : Setting) : Nat → Stmt → Run Flow
  | 0, _ => outOfFuel
  | fuel + 1, s => execStep (eval σ fuel) (exec σ fuel) fuel s

end

namespace Machine

/-- Runs statements on a machine, up to a return or a fault. -/
def interpret (σ : Setting) (fuel : Nat) (statements : List Stmt) : Run Unit := do
  let _ ← execAll (exec σ fuel) statements
  return ()

end Machine

end Lox
