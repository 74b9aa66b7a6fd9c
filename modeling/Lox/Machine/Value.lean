import Lox.Machine.Bindings
import Lox.Tree.Stmt

/-!
# Values

What expressions evaluate to.  Functions, classes and instances have an identity: two of them are
equal only if they were made by the same evaluation step.  Classes never change once they are
made, so a class value holds its superclass and its methods.  Instances do change: an instance
value names a place among the objects of the machine.
-/

namespace Lox

/-- Functions that the machine provides. -/
inductive Native where
  /-- The current time in seconds. -/
  | clock
deriving DecidableEq, Repr

/-- How many arguments a provided function takes. -/
def Native.arity : Native → Nat
  | .clock => 0

/-- The code of a function with the frame it was made in. -/
structure Closure where
  decl : FunctionDecl
  /-- The frame around the frames of its calls. -/
  frame : Nat
  /-- Whether it is the method that is run on new instances. -/
  isInitializer : Bool

/-- A class. -/
inductive Class where
  | mk (identity : Nat) (name : String) (superclass : Option Class)
      (methods : List (String × Closure))

namespace Class

/-- The number that tells a class from all others. -/
def identity : Class → Nat
  | .mk identity _ _ _ => identity

/-- The name a class was declared under. -/
def name : Class → String
  | .mk _ name _ _ => name

/-- The class that a class was derived from. -/
def superclass : Class → Option Class
  | .mk _ _ superclass _ => superclass

/-- The methods that a class declares itself. -/
def methods : Class → List (String × Closure)
  | .mk _ _ _ methods => methods

/-- The nearest method of the given name, from the class outward along its superclasses. -/
def findMethod? (method : String) : Class → Option Closure
  | .mk _ _ none methods => methods.lookup method
  | .mk _ _ (some parent) methods =>
      match methods.lookup method with
      | some found => some found
      | none => findMethod? method parent

end Class

/-- A value. -/
inductive Value where
  | native (function : Native)
  | function (identity : Nat) (closure : Closure)
  | cls (c : Class)
  /-- The object at a place. -/
  | object (place : Nat)
  | number (value : Float)
  | string (value : String)
  | bool (value : Bool)
  | nil

/-- An object: its class and its fields. -/
structure Instance where
  cls : Class
  fields : List (String × Value)

/-- Writes a field of an object, whether it was there or not. -/
def Instance.setField (o : Instance) (name : String) (value : Value) : Instance :=
  { o with fields := putBinding name value o.fields }

/-- Numbers as they are printed: positional from `0.001` to below `10 ^ 7`, whole ones without a
point; otherwise with an exponent and at least one digit behind the point. -/
def Value.numberLayout : Decimal.Layout where
  tie := .up
  positional x := -3 ≤ x ∧ x ≤ 6
  pointed _ := false
  exact := false
  mark := "E"
  plus := ""
  pointedDigit := true
  nan := "NaN"
  infinity := "Infinity"

namespace Value

/-- The value of a literal. -/
def ofLiteral : Literal → Value
  | .number x => .number x
  | .string s => .string s
  | .bool b => .bool b
  | .nil => .nil

/-- Only `false` and `nil` count as false. -/
def isTruthy : Value → Bool
  | .nil => false
  | .bool b => b
  | _ => true

/-- Equality: by value for simple values, by identity for all others, and never across kinds. -/
def same : Value → Value → Bool
  | .nil, .nil => true
  | .bool a, .bool b => a = b
  | .number a, .number b => a == b
  | .string a, .string b => a = b
  | .native a, .native b => a = b
  | .function a _, .function b _ => a = b
  | .cls a, .cls b => a.identity = b.identity
  | .object a, .object b => a = b
  | _, _ => false

/-- How a value is printed, given the objects there are. -/
def display (objects : Array Instance) : Value → String
  | .native _ => "<native fn>"
  | .function _ closure => "<fn " ++ closure.decl.name.lexeme ++ ">"
  | .cls c => c.name
  | .object place =>
      match objects[place]? with
      | some o => o.cls.name ++ " instance"
      | none => "instance"
  | .number x => numberLayout.text x
  | .string s => s
  | .bool true => "true"
  | .bool false => "false"
  | .nil => "nil"

end Value

/-- How many arguments a class takes: those of its initializer. -/
def Class.arity (initializerName : String) (c : Class) : Nat :=
  match c.findMethod? initializerName with
  | some closure => closure.decl.arity
  | none => 0

end Lox
