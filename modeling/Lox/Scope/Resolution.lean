import Lox.Scope.Locals
import Lox.Tree.Stmt

/-!
# Name resolution

Resolution walks a tree once with the scopes that are open at each node, innermost first; the
global scope is not among them.  It finds the distance of every local reference and every
violation of the scope rules, in the order of the walk:

* a name is declared at most once in a local scope;
* the initializer of a local variable does not read that variable;
* `return` stands inside functions, and without a value in initializers;
* `this` stands inside classes, `super` inside classes with a superclass;
* no class is its own superclass.
-/

namespace Lox

/-- How a program can violate the scope rules. -/
inductive ScopeFault where
  | redeclared
  | ownInitializer
  | selfInheritance
  | topLevelReturn
  | initializerReturn
  | thisOutsideClass
  | superOutsideClass
  | superWithoutSuperclass
deriving DecidableEq, Repr

/-- The wording of a fault. -/
def ScopeFault.message : ScopeFault → String
  | .redeclared => "Already a variable with this name in this scope."
  | .ownInitializer => "Can't read local variable in its own initializer."
  | .selfInheritance => "A class can't inherit from itself."
  | .topLevelReturn => "Can't return from top-level code."
  | .initializerReturn => "Can't return a value from an initializer."
  | .thisOutsideClass => "Can't use 'this' outside of a class."
  | .superOutsideClass => "Can't use 'super' outside of a class."
  | .superWithoutSuperclass => "Can't use 'super' in a class with no superclass."

/-- A fault and the token it is found at. -/
structure ScopeError where
  found : Token
  fault : ScopeFault
deriving DecidableEq, Repr

/-- What resolution finds out at a node. -/
inductive Finding where
  /-- A reference is bound that many scopes out. -/
  | bound (id distance : Nat)
  | fault (error : ScopeError)
deriving DecidableEq, Repr

/-- The names of a scope, latest first, each with whether its value can be read yet. -/
abbrev Scope := List (String × Bool)

/-- The open scopes, innermost first. -/
abbrev Scopes := List Scope

namespace Scopes

/-- How many scopes out the nearest scope with the name is. -/
def distance? : Scopes → String → Option Nat
  | [], _ => none
  | scope :: outer, name =>
      if (scope.lookup name).isSome then some 0 else (distance? outer name).map (· + 1)

/-- Adds a name to the innermost scope.  Global names are not kept. -/
def add (scopes : Scopes) (name : String) (readable : Bool) : Scopes :=
  match scopes with
  | [] => []
  | scope :: outer => ((name, readable) :: scope) :: outer

/-- Declares a name, not yet to be read. -/
def declare (scopes : Scopes) (name : Token) : Scopes :=
  scopes.add name.lexeme false

/-- Declares a name that can be read at once. -/
def define (scopes : Scopes) (name : Token) : Scopes :=
  scopes.add name.lexeme true

/-- What the innermost scope knows of a name. -/
def innermost? (scopes : Scopes) (name : String) : Option Bool :=
  match scopes with
  | [] => none
  | scope :: _ => scope.lookup name

/-- The fault of declaring a name, if the innermost scope has it already. -/
def clash (scopes : Scopes) (name : Token) : List Finding :=
  if (scopes.innermost? name.lexeme).isSome then [.fault ⟨name, .redeclared⟩] else []

/-- The fault of reading a name, if it is the one being initialized. -/
def unreadable (scopes : Scopes) (name : Token) : List Finding :=
  if scopes.innermost? name.lexeme = some false then [.fault ⟨name, .ownInitializer⟩] else []

/-- The entry of a reference, if a local scope has its name. -/
def binding (scopes : Scopes) (id : Nat) (name : Token) : List Finding :=
  match scopes.distance? name.lexeme with
  | some distance => [.bound id distance]
  | none => []

/-- Declares parameters one after the other. -/
def declareParams : Scopes → List Token → Scopes
  | scopes, [] => scopes
  | scopes, p :: rest => declareParams (scopes.define p) rest

/-- The faults of declaring parameters one after the other. -/
def paramClashes : Scopes → List Token → List Finding
  | _, [] => []
  | scopes, p :: rest => scopes.clash p ++ paramClashes (scopes.define p) rest

end Scopes

/-- The innermost function around a node. -/
inductive FunctionContext where
  | none
  | function
  | method
  | initializer
deriving DecidableEq, Repr

/-- The innermost class around a node. -/
inductive ClassContext where
  | none
  | plain
  | derived
deriving DecidableEq, Repr

/-- What a node stands in. -/
structure Context where
  function : FunctionContext
  cls : ClassContext
deriving DecidableEq, Repr

namespace Context

/-- Outside every function and class. -/
def topLevel : Context :=
  ⟨.none, .none⟩

/-- Inside a function of the given sort. -/
def inFunction (ctx : Context) (sort : FunctionContext) : Context :=
  { ctx with function := sort }

/-- Inside a class of the given sort. -/
def inClass (ctx : Context) (sort : ClassContext) : Context :=
  { ctx with cls := sort }

end Context

/-- The name of the method that is run on new instances. -/
def initializerName : String := "init"

/-- The sort of function that a method with the given name is. -/
def FunctionContext.ofMethod (name : Token) : FunctionContext :=
  if name.lexeme = initializerName then .initializer else .method

namespace Expr

mutual

/-- What resolution finds in an expression. -/
def findings (ctx : Context) (scopes : Scopes) : Expr → List Finding
  | .literal _ => []
  | .grouping inner => findings ctx scopes inner
  | .unary _ right => findings ctx scopes right
  | .binary left _ right => findings ctx scopes left ++ findings ctx scopes right
  | .logical left _ right => findings ctx scopes left ++ findings ctx scopes right
  | .var id name => scopes.unreadable name ++ scopes.binding id name
  | .assign id name value => findings ctx scopes value ++ scopes.binding id name
  | .call callee _ arguments =>
      findings ctx scopes callee ++ findingsAll ctx scopes arguments
  | .get object _ => findings ctx scopes object
  | .set object _ value => findings ctx scopes value ++ findings ctx scopes object
  | .this id keyword =>
      match ctx.cls with
      | .none => [.fault ⟨keyword, .thisOutsideClass⟩]
      | _ => scopes.binding id keyword
  | .super id keyword _ =>
      (match ctx.cls with
        | .none => [.fault ⟨keyword, .superOutsideClass⟩]
        | .plain => [.fault ⟨keyword, .superWithoutSuperclass⟩]
        | .derived => [])
      ++ scopes.binding id keyword

/-- What resolution finds in a list of expressions. -/
def findingsAll (ctx : Context) (scopes : Scopes) : List Expr → List Finding
  | [] => []
  | e :: rest => findings ctx scopes e ++ findingsAll ctx scopes rest

end

/-- What resolution finds in an expression that may be missing. -/
def findingsOption (ctx : Context) (scopes : Scopes) : Option Expr → List Finding
  | none => []
  | some e => e.findings ctx scopes

end Expr

/-- The fault of a class whose superclass has its own name. -/
def selfInheritance (name : Token) (superclass : Expr) : List Finding :=
  match superclass with
  | .var _ parent =>
      if parent.lexeme = name.lexeme then [.fault ⟨parent, .selfInheritance⟩] else []
  | _ => []

/-- The faults of a return statement. -/
def returnFaults (ctx : Context) (keyword : Token) (value : Option Expr) : List Finding :=
  (if ctx.function = .none then [.fault ⟨keyword, .topLevelReturn⟩] else [])
  ++ (if value.isSome ∧ ctx.function = .initializer then
        [.fault ⟨keyword, .initializerReturn⟩]
      else [])

namespace Stmt

/-- The scopes open around the methods of a class: one with `this`, and around it, if there is a
superclass, one with `super`. -/
def methodScopes (scopes : Scopes) (hasSuperclass : Bool) : Scopes :=
  [("this", true)] :: (if hasSuperclass then [("super", true)] :: scopes else scopes)

mutual

/-- The scopes behind a statement, and what resolution finds in it. -/
def resolve (ctx : Context) (scopes : Scopes) : Stmt → Scopes × List Finding
  | .expression e => (scopes, e.findings ctx scopes)
  | .print e => (scopes, e.findings ctx scopes)
  | .var name initializer =>
      ((scopes.declare name).define name,
        scopes.clash name ++ Expr.findingsOption ctx (scopes.declare name) initializer)
  | .block body => (scopes, (resolveAll ctx ([] :: scopes) body).2)
  | .ifThen condition thenBranch =>
      let first := resolve ctx scopes thenBranch
      (first.1, condition.findings ctx scopes ++ first.2)
  | .ifElse condition thenBranch elseBranch =>
      let first := resolve ctx scopes thenBranch
      let second := resolve ctx first.1 elseBranch
      (second.1, condition.findings ctx scopes ++ first.2 ++ second.2)
  | .loop condition body =>
      let first := resolve ctx scopes body
      (first.1, condition.findings ctx scopes ++ first.2)
  | .function decl =>
      let inner := (scopes.declare decl.name).define decl.name
      (inner, scopes.clash decl.name ++ resolveFunction (ctx.inFunction .function) inner decl)
  | .ret keyword value =>
      (scopes, returnFaults ctx keyword value ++ Expr.findingsOption ctx scopes value)
  | .classDecl name none methods =>
      let inner := (scopes.declare name).define name
      (inner,
        scopes.clash name
          ++ resolveMethods (ctx.inClass .plain) (methodScopes inner false) methods)
  | .classDecl name (some superclass) methods =>
      let inner := (scopes.declare name).define name
      (inner,
        scopes.clash name ++ selfInheritance name superclass
          ++ superclass.findings (ctx.inClass .derived) inner
          ++ resolveMethods (ctx.inClass .derived) (methodScopes inner true) methods)

/-- The scopes behind a list of statements, and what resolution finds in them. -/
def resolveAll (ctx : Context) (scopes : Scopes) : List Stmt → Scopes × List Finding
  | [] => (scopes, [])
  | s :: rest =>
      let first := resolve ctx scopes s
      let others := resolveAll ctx first.1 rest
      (others.1, first.2 ++ others.2)

/-- What resolution finds in a function: its parameters and its body share a scope. -/
def resolveFunction (ctx : Context) (scopes : Scopes) : FunctionDecl → List Finding
  | .mk _ params body =>
      Scopes.paramClashes ([] :: scopes) params
        ++ (resolveAll ctx (Scopes.declareParams ([] :: scopes) params) body).2

/-- What resolution finds in the methods of a class. -/
def resolveMethods (ctx : Context) (scopes : Scopes) : List FunctionDecl → List Finding
  | [] => []
  | f :: rest =>
      resolveFunction (ctx.inFunction (.ofMethod f.name)) scopes f
        ++ resolveMethods ctx scopes rest

end

end Stmt

/-- What a whole resolution gives: the table of local references, and the faults in order. -/
structure Resolution where
  locals : Locals
  errors : List ScopeError

namespace Resolution

/-- Collects findings. -/
def ofFindings (findings : List Finding) : Resolution where
  locals := .ofPairs (findings.filterMap fun
    | .bound id distance => some (id, distance)
    | .fault _ => none)
  errors := findings.filterMap fun
    | .bound _ _ => none
    | .fault error => some error

/-- Resolves a program. -/
def ofProgram (statements : List Stmt) : Resolution :=
  ofFindings (Stmt.resolveAll .topLevel [] statements).2

/-- Resolves a lone expression. -/
def ofExpression (e : Expr) : Resolution :=
  ofFindings (e.findings .topLevel [])

end Resolution

end Lox
