import Lox.Machine.Fault

/-!
# Operators

Operators on values.  Only `+` and the two comparisons for equality accept other operands than
numbers.
-/

namespace Lox
namespace Operator

/-- A sign in front of a value. -/
def unary (operator : Token) (right : Value) : Except RuntimeFault Value :=
  match operator.kind, right with
  | .punct .bang, value => .ok (.bool (!value.isTruthy))
  | .punct .minus, .number x => .ok (.number (-x))
  | _, _ => .error (.operandNotNumber operator.lexeme)

/-- A sum of numbers, or a text with another value's printed form joined to it. -/
def add (objects : Array Instance) (left right : Value) : Except RuntimeFault Value :=
  match left, right with
  | .number a, .number b => .ok (.number (a + b))
  | .string a, other => .ok (.string (a ++ other.display objects))
  | other, .string b => .ok (.string (other.display objects ++ b))
  | _, _ => .error .operandsNotAddable

/-- Operators on two numbers. -/
def arithmetic? (kind : Token.Kind) (a b : Float) : Option Value :=
  match kind with
  | .punct .minus => some (.number (a - b))
  | .punct .star => some (.number (a * b))
  | .punct .slash => some (.number (a / b))
  | .punct .greater => some (.bool (decide (b < a)))
  | .punct .greaterEqual => some (.bool (decide (b ≤ a)))
  | .punct .less => some (.bool (decide (a < b)))
  | .punct .lessEqual => some (.bool (decide (a ≤ b)))
  | _ => none

/-- An operator between two values. -/
def binary (objects : Array Instance) (operator : Token) (left right : Value) :
    Except RuntimeFault Value :=
  match operator.kind with
  | .punct .plus => add objects left right
  | .punct .equalEqual => .ok (.bool (left.same right))
  | .punct .bangEqual => .ok (.bool (!left.same right))
  | kind =>
      match left, right with
      | .number a, .number b =>
          match arithmetic? kind a b with
          | some value => .ok value
          | none => .error (.invalidOperator operator.lexeme)
      | _, _ => .error (.operandsNotNumbers operator.lexeme)

/-- Whether the left operand alone decides `or` or `and`. -/
def decides (operator : Token) (left : Value) : Bool :=
  if operator.kind = .keyword .or then left.isTruthy else !left.isTruthy

end Operator
end Lox
