import Lox.Tree.Stmt

/-!
# Dumps

The dump of a tree is a JSON document that shows every field of every node: a node is an object
with one member, named for the kind of node.
-/

namespace Lox

open Text (Json)

/-- A node with named fields. -/
def dumpNode (name : String) (fields : List (String × Json)) : Json :=
  .object [(name, .object fields)]

/-- The dump of a literal. -/
def Literal.dump : Literal → Json
  | .number x => .object [("Number", .number x)]
  | .string s => .object [("Str", .string s)]
  | .bool true => .string "True"
  | .bool false => .string "False"
  | .nil => .string "Nil"

namespace Expr

mutual

/-- The dump of an expression. -/
def dump : Expr → Json
  | .literal value => .object [("Literal", value.dump)]
  | .grouping inner => .object [("Grouping", dump inner)]
  | .unary operator right =>
      dumpNode "Unary" [("operator", operator.json), ("right", dump right)]
  | .binary left operator right =>
      dumpNode "Binary"
        [("left", dump left), ("operator", operator.json), ("right", dump right)]
  | .logical left operator right =>
      dumpNode "Logical"
        [("left", dump left), ("operator", operator.json), ("right", dump right)]
  | .var id name => dumpNode "Variable" [("id", .count id), ("name", name.json)]
  | .assign id name value =>
      dumpNode "Assign" [("id", .count id), ("name", name.json), ("value", dump value)]
  | .call callee paren arguments =>
      dumpNode "Call"
        [("callee", dump callee), ("paren", paren.json), ("arguments", .array (dumpAll arguments))]
  | .get object name => dumpNode "Get" [("object", dump object), ("name", name.json)]
  | .set object name value =>
      dumpNode "Set" [("object", dump object), ("name", name.json), ("value", dump value)]
  | .this id keyword => dumpNode "This" [("id", .count id), ("keyword", keyword.json)]
  | .super id keyword method =>
      dumpNode "Super" [("id", .count id), ("keyword", keyword.json), ("method", method.json)]

/-- The dumps of expressions. -/
def dumpAll : List Expr → List Json
  | [] => []
  | e :: rest => dump e :: dumpAll rest

end

/-- The dump of an expression that may be missing. -/
def dumpOption : Option Expr → Json
  | none => .null
  | some e => e.dump

end Expr

namespace Stmt

mutual

/-- The dump of a statement. -/
def dump : Stmt → Json
  | .expression value => .object [("Expression", value.dump)]
  | .print value => .object [("Print", value.dump)]
  | .var name initializer =>
      dumpNode "Var" [("name", name.json), ("initializer", Expr.dumpOption initializer)]
  | .block body => .object [("Block", .array (dumpAll body))]
  | .ifThen condition thenBranch =>
      dumpNode "If"
        [("condition", condition.dump), ("then_branch", dump thenBranch), ("else_branch", .null)]
  | .ifElse condition thenBranch elseBranch =>
      dumpNode "If"
        [("condition", condition.dump), ("then_branch", dump thenBranch),
          ("else_branch", dump elseBranch)]
  | .loop condition body =>
      dumpNode "While" [("condition", condition.dump), ("body", dump body)]
  | .function decl => .object [("Function", dumpFunction decl)]
  | .ret keyword value =>
      dumpNode "Return" [("keyword", keyword.json), ("value", Expr.dumpOption value)]
  | .classDecl name superclass methods =>
      dumpNode "Class"
        [("name", name.json), ("superclass", Expr.dumpOption superclass),
          ("methods", .array (dumpFunctions methods))]

/-- The dumps of statements. -/
def dumpAll : List Stmt → List Json
  | [] => []
  | s :: rest => dump s :: dumpAll rest

/-- The dump of a function declaration. -/
def dumpFunction : FunctionDecl → Json
  | .mk name params body =>
      .object
        [("name", name.json), ("params", .array (params.map Token.json)),
          ("body", .array (dumpAll body))]

/-- The dumps of function declarations. -/
def dumpFunctions : List FunctionDecl → List Json
  | [] => []
  | f :: rest => dumpFunction f :: dumpFunctions rest

end

end Stmt

end Lox
