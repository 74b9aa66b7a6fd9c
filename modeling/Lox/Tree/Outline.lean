import Lox.Tree.Stmt

/-!
# Outlines

The outline of a tree is its text with every node in parentheses, the operator first:
`(* (- 123.0) (group 45.67))`.
-/

namespace Lox

/-- Numbers in outlines: never with an exponent; whole ones in full and with `.0`. -/
def Literal.numberLayout : Decimal.Layout where
  tie := .up
  positional _ := true
  pointed _ := true
  exact := true
  mark := "e"
  plus := ""
  pointedDigit := false
  nan := "NaN"
  infinity := "inf"

/-- The outline of a literal. -/
def Literal.outline : Literal → String
  | .number x => numberLayout.text x
  | .string s => s
  | .bool true => "true"
  | .bool false => "false"
  | .nil => "nil"

/-- Texts with a blank in front of each, in one text. -/
def spaced (texts : List String) : String :=
  String.join (texts.map (" " ++ ·))

namespace Expr

mutual

/-- The outline of an expression. -/
def outline : Expr → String
  | .literal value => value.outline
  | .grouping inner => "(group " ++ outline inner ++ ")"
  | .unary operator right => "(" ++ operator.lexeme ++ " " ++ outline right ++ ")"
  | .binary left operator right =>
      "(" ++ operator.lexeme ++ " " ++ outline left ++ " " ++ outline right ++ ")"
  | .logical left operator right =>
      "(" ++ operator.lexeme ++ " " ++ outline left ++ " " ++ outline right ++ ")"
  | .var _ name => name.lexeme
  | .assign _ name value => "(= " ++ name.lexeme ++ " " ++ outline value ++ ")"
  | .call callee _ arguments =>
      "(call " ++ outline callee ++ spaced (outlineAll arguments) ++ ")"
  | .get object name => "(. " ++ outline object ++ " " ++ name.lexeme ++ ")"
  | .set object name value =>
      "(= (. " ++ outline object ++ " " ++ name.lexeme ++ ") " ++ outline value ++ ")"
  | .this _ _ => "this"
  | .super _ _ method => "(super " ++ method.lexeme ++ ")"

/-- The outlines of expressions. -/
def outlineAll : List Expr → List String
  | [] => []
  | e :: rest => outline e :: outlineAll rest

end

end Expr

namespace Stmt

mutual

/-- The outline of a statement. -/
def outline : Stmt → String
  | .expression value => "(; " ++ value.outline ++ ")"
  | .print value => "(print " ++ value.outline ++ ")"
  | .var name none => "(var " ++ name.lexeme ++ ")"
  | .var name (some value) => "(var " ++ name.lexeme ++ " " ++ value.outline ++ ")"
  | .block body => "(block" ++ spaced (outlineAll body) ++ ")"
  | .ifThen condition thenBranch =>
      "(if " ++ condition.outline ++ " " ++ outline thenBranch ++ ")"
  | .ifElse condition thenBranch elseBranch =>
      "(if-else " ++ condition.outline ++ " " ++ outline thenBranch ++ " "
        ++ outline elseBranch ++ ")"
  | .loop condition body => "(while " ++ condition.outline ++ " " ++ outline body ++ ")"
  | .function decl => outlineFunction "fun" decl
  | .ret _ none => "(return)"
  | .ret _ (some value) => "(return " ++ value.outline ++ ")"
  | .classDecl name none methods =>
      "(class " ++ name.lexeme ++ spaced (outlineMethods methods) ++ ")"
  | .classDecl name (some superclass) methods =>
      "(class " ++ name.lexeme ++ " < " ++ superclass.outline
        ++ spaced (outlineMethods methods) ++ ")"

/-- The outlines of statements. -/
def outlineAll : List Stmt → List String
  | [] => []
  | s :: rest => outline s :: outlineAll rest

/-- The outline of a function declaration under the given word. -/
def outlineFunction (word : String) : FunctionDecl → String
  | .mk name params body =>
      "(" ++ word ++ " " ++ name.lexeme ++ "("
        ++ String.intercalate " " (params.map Token.lexeme) ++ ")"
        ++ spaced (outlineAll body) ++ ")"

/-- The outlines of method declarations. -/
def outlineMethods : List FunctionDecl → List String
  | [] => []
  | f :: rest => outlineFunction "method" f :: outlineMethods rest

end

end Stmt

end Lox
