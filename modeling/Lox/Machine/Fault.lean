import Lox.Machine.Value

/-!
# Runtime faults

What can go wrong while a program runs.
-/

namespace Lox

/-- A cause for a program to stop. -/
inductive RuntimeFault where
  | undefinedVariable (name : String)
  | undefinedProperty (name : String)
  | notCallable
  | wrongArity (expected got : Nat)
  | noProperties
  | noFields
  | notAClass
  | operandNotNumber (operator : String)
  | operandsNotNumbers (operator : String)
  | operandsNotAddable
  | invalidOperator (operator : String)
deriving DecidableEq, Repr

/-- The wording of a fault. -/
def RuntimeFault.message : RuntimeFault → String
  | .undefinedVariable name => "Undefined variable '" ++ name ++ "'."
  | .undefinedProperty name => "Undefined property '" ++ name ++ "'."
  | .notCallable => "Can only call functions and classes."
  | .wrongArity expected got =>
      "Expected " ++ String.ofList (Decimal.digitsOf expected) ++ " arguments but got "
        ++ String.ofList (Decimal.digitsOf got) ++ "."
  | .noProperties => "Only instances have properties."
  | .noFields => "Only instances have fields."
  | .notAClass => "Superclass must be a class."
  | .operandNotNumber operator => "Operand of '" ++ operator ++ "' must be a number."
  | .operandsNotNumbers operator => "Operands of '" ++ operator ++ "' must be numbers."
  | .operandsNotAddable => "Operands of '+' must be two numbers or include a string."
  | .invalidOperator operator => "Invalid binary operator '" ++ operator ++ "'."

/-- A fault and the token whose evaluation raised it. -/
structure RuntimeError where
  found : Token
  fault : RuntimeFault
deriving DecidableEq, Repr

/-- The error of using a name that is not bound. -/
def RuntimeError.undefined (name : Token) : RuntimeError :=
  ⟨name, .undefinedVariable name.lexeme⟩

end Lox
