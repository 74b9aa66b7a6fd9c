import Lox.Scope.Resolution
import Lox.Token.Scan

/-!
# Trees without lines

Tokens carry the line they end on, and trees are full of tokens.  Here is what is left of either
when all lines are forgotten.  Two trees have the same unlined form if and only if they agree up to
the lines of their tokens; the numbers of references are kept.  Resolution does not look at lines:
it finds the same in a tree and in its unlined form.
-/

namespace Lox

namespace Token

/-- A token without its line. -/
def unlined (t : Token) : Token :=
  { t with line := 0 }

@[simp] theorem kind_unlined (t : Token) : t.unlined.kind = t.kind := rfl

@[simp] theorem lexeme_unlined (t : Token) : t.unlined.lexeme = t.lexeme := rfl

end Token

/-- A terminal without its line. -/
def Terminal.unlined : Terminal → Terminal
  | .token t => .token t.unlined
  | .eof _ => .eof 0

namespace Expr

mutual

/-- An expression whose tokens have no lines. -/
def unlined : Expr → Expr
  | .literal value => .literal value
  | .grouping inner => .grouping (unlined inner)
  | .unary operator right => .unary operator.unlined (unlined right)
  | .binary left operator right => .binary (unlined left) operator.unlined (unlined right)
  | .logical left operator right => .logical (unlined left) operator.unlined (unlined right)
  | .var id name => .var id name.unlined
  | .assign id name value => .assign id name.unlined (unlined value)
  | .call callee paren arguments => .call (unlined callee) paren.unlined (unlinedAll arguments)
  | .get object name => .get (unlined object) name.unlined
  | .set object name value => .set (unlined object) name.unlined (unlined value)
  | .this id keyword => .this id keyword.unlined
  | .super id keyword method => .super id keyword.unlined method.unlined

/-- Expressions whose tokens have no lines. -/
def unlinedAll : List Expr → List Expr
  | [] => []
  | e :: rest => unlined e :: unlinedAll rest

end

theorem unlinedAll_eq_map (es : List Expr) : unlinedAll es = es.map unlined := by
  induction es with
  | nil =>
      rfl
  | cons e rest ih =>
      simp only [unlinedAll, ih, List.map_cons]

end Expr

namespace Stmt

mutual

/-- A statement whose tokens have no lines. -/
def unlined : Stmt → Stmt
  | .expression e => .expression e.unlined
  | .print e => .print e.unlined
  | .var name initializer => .var name.unlined (initializer.map Expr.unlined)
  | .block body => .block (unlinedAll body)
  | .ifThen condition thenBranch => .ifThen condition.unlined (unlined thenBranch)
  | .ifElse condition thenBranch elseBranch =>
      .ifElse condition.unlined (unlined thenBranch) (unlined elseBranch)
  | .loop condition body => .loop condition.unlined (unlined body)
  | .function decl => .function (unlinedFunction decl)
  | .ret keyword value => .ret keyword.unlined (value.map Expr.unlined)
  | .classDecl name superclass methods =>
      .classDecl name.unlined (superclass.map Expr.unlined) (unlinedMethods methods)

/-- Statements whose tokens have no lines. -/
def unlinedAll : List Stmt → List Stmt
  | [] => []
  | s :: rest => unlined s :: unlinedAll rest

/-- A function whose tokens have no lines. -/
def unlinedFunction : FunctionDecl → FunctionDecl
  | .mk name params body => .mk name.unlined (params.map Token.unlined) (unlinedAll body)

/-- Methods whose tokens have no lines. -/
def unlinedMethods : List FunctionDecl → List FunctionDecl
  | [] => []
  | f :: rest => unlinedFunction f :: unlinedMethods rest

end

theorem unlinedAll_eq_map (body : List Stmt) : unlinedAll body = body.map unlined := by
  induction body with
  | nil =>
      rfl
  | cons s rest ih =>
      simp only [unlinedAll, ih, List.map_cons]

theorem unlinedMethods_eq_map (methods : List FunctionDecl) :
    unlinedMethods methods = methods.map unlinedFunction := by
  induction methods with
  | nil =>
      rfl
  | cons f rest ih =>
      simp only [unlinedMethods, ih, List.map_cons]

end Stmt

namespace FunctionDecl

/-- A function whose tokens have no lines. -/
abbrev unlined (decl : FunctionDecl) : FunctionDecl :=
  Stmt.unlinedFunction decl

@[simp] theorem name_unlined (decl : FunctionDecl) : decl.unlined.name = decl.name.unlined := by
  cases decl
  rfl

@[simp] theorem params_unlined (decl : FunctionDecl) :
    decl.unlined.params = decl.params.map Token.unlined := by
  cases decl
  rfl

@[simp] theorem body_unlined (decl : FunctionDecl) :
    decl.unlined.body = decl.body.map Stmt.unlined := by
  cases decl
  exact Stmt.unlinedAll_eq_map _

@[simp] theorem arity_unlined (decl : FunctionDecl) : decl.unlined.arity = decl.arity := by
  simp [arity]

end FunctionDecl

/-- A violated scope rule, found at a token without a line. -/
def ScopeError.unlined (e : ScopeError) : ScopeError :=
  ⟨e.found.unlined, e.fault⟩

/-- What resolution finds out, without lines. -/
def Finding.unlined : Finding → Finding
  | .bound id distance => .bound id distance
  | .fault error => .fault error.unlined

section Resolution

variable (ctx : Context)
variable (scopes : Scopes)

namespace Scopes

@[simp] theorem declare_unlined (name : Token) :
    scopes.declare name.unlined = scopes.declare name := rfl

@[simp] theorem define_unlined (name : Token) :
    scopes.define name.unlined = scopes.define name := rfl

@[simp] theorem binding_unlined (id : Nat) (name : Token) :
    scopes.binding id name.unlined = (scopes.binding id name).map Finding.unlined := by
  simp only [binding, Token.lexeme_unlined]
  cases scopes.distance? name.lexeme <;> rfl

@[simp] theorem clash_unlined (name : Token) :
    scopes.clash name.unlined = (scopes.clash name).map Finding.unlined := by
  by_cases h : (scopes.innermost? name.lexeme).isSome
  · simp [clash, h, Finding.unlined, ScopeError.unlined]
  · simp [clash, h]

@[simp] theorem unreadable_unlined (name : Token) :
    scopes.unreadable name.unlined = (scopes.unreadable name).map Finding.unlined := by
  by_cases h : scopes.innermost? name.lexeme = some false
  · simp [unreadable, h, Finding.unlined, ScopeError.unlined]
  · simp [unreadable, h]

@[simp] theorem declareParams_unlined (params : List Token) :
    declareParams scopes (params.map Token.unlined) = declareParams scopes params := by
  induction params generalizing scopes with
  | nil =>
      rfl
  | cons p rest ih =>
      simp only [List.map_cons, declareParams, define_unlined, ih]

@[simp] theorem paramClashes_unlined (params : List Token) :
    paramClashes scopes (params.map Token.unlined) =
      (paramClashes scopes params).map Finding.unlined := by
  induction params generalizing scopes with
  | nil =>
      rfl
  | cons p rest ih =>
      simp only [List.map_cons, paramClashes, clash_unlined, define_unlined, ih, List.map_append]

end Scopes

mutual

/-- Resolution finds the same in an expression without lines. -/
theorem findings_unlined :
    ∀ e : Expr, e.unlined.findings ctx scopes = (e.findings ctx scopes).map Finding.unlined
  | .literal _ => rfl
  | .grouping inner => findings_unlined inner
  | .unary _ right => findings_unlined right
  | .binary left _ right => by
      simp only [Expr.unlined, Expr.findings, findings_unlined left, findings_unlined right,
        List.map_append]
  | .logical left _ right => by
      simp only [Expr.unlined, Expr.findings, findings_unlined left, findings_unlined right,
        List.map_append]
  | .var _ _ => by
      simp only [Expr.unlined, Expr.findings, Scopes.unreadable_unlined, Scopes.binding_unlined,
        List.map_append]
  | .assign _ _ value => by
      simp only [Expr.unlined, Expr.findings, findings_unlined value, Scopes.binding_unlined,
        List.map_append]
  | .call callee _ arguments => by
      simp only [Expr.unlined, Expr.findings, findings_unlined callee,
        findingsAll_unlined arguments, List.map_append]
  | .get object _ => findings_unlined object
  | .set object _ value => by
      simp only [Expr.unlined, Expr.findings, findings_unlined object, findings_unlined value,
        List.map_append]
  | .this _ _ => by
      simp only [Expr.unlined, Expr.findings, Scopes.binding_unlined]
      split <;> rfl
  | .super _ _ _ => by
      simp only [Expr.unlined, Expr.findings, Scopes.binding_unlined, List.map_append]
      split <;> rfl

theorem findingsAll_unlined :
    ∀ es : List Expr, Expr.findingsAll ctx scopes (Expr.unlinedAll es) =
      (Expr.findingsAll ctx scopes es).map Finding.unlined
  | [] => rfl
  | e :: rest => by
      simp only [Expr.unlinedAll, Expr.findingsAll, findings_unlined e, findingsAll_unlined rest,
        List.map_append]

end

theorem findingsOption_unlined (value : Option Expr) :
    Expr.findingsOption ctx scopes (value.map Expr.unlined) =
      (Expr.findingsOption ctx scopes value).map Finding.unlined := by
  cases value with
  | none =>
      rfl
  | some e =>
      exact findings_unlined ctx scopes e

theorem selfInheritance_unlined (name : Token) (superclass : Expr) :
    selfInheritance name.unlined superclass.unlined =
      (selfInheritance name superclass).map Finding.unlined := by
  cases superclass with
  | var id parent =>
      by_cases h : parent.lexeme = name.lexeme
      · simp [Expr.unlined, selfInheritance, h, Finding.unlined, ScopeError.unlined]
      · simp [Expr.unlined, selfInheritance, h]
  | _ =>
      rfl

theorem returnFaults_unlined (keyword : Token) (value : Option Expr) :
    returnFaults ctx keyword.unlined (value.map Expr.unlined) =
      (returnFaults ctx keyword value).map Finding.unlined := by
  simp only [returnFaults, Option.isSome_map, List.map_append]
  split <;> split <;> rfl

mutual

/-- Resolution opens the same scopes and finds the same in a statement without lines. -/
theorem resolve_unlined (ctx : Context) (scopes : Scopes) :
    ∀ s : Stmt, s.unlined.resolve ctx scopes =
      ((s.resolve ctx scopes).1, (s.resolve ctx scopes).2.map Finding.unlined)
  | .expression e => by
      simp only [Stmt.unlined, Stmt.resolve, findings_unlined]
  | .print e => by
      simp only [Stmt.unlined, Stmt.resolve, findings_unlined]
  | .var name initializer => by
      simp only [Stmt.unlined, Stmt.resolve, Scopes.declare_unlined, Scopes.define_unlined,
        Scopes.clash_unlined, findingsOption_unlined, List.map_append]
  | .block body => by
      simp only [Stmt.unlined, Stmt.resolve, resolveAll_unlined ctx ([] :: scopes) body]
  | .ifThen condition thenBranch => by
      simp only [Stmt.unlined, Stmt.resolve, findings_unlined,
        resolve_unlined ctx scopes thenBranch, List.map_append]
  | .ifElse condition thenBranch elseBranch => by
      simp only [Stmt.unlined, Stmt.resolve, findings_unlined,
        resolve_unlined ctx scopes thenBranch, resolve_unlined ctx _ elseBranch, List.map_append]
  | .loop condition body => by
      simp only [Stmt.unlined, Stmt.resolve, findings_unlined,
        resolve_unlined ctx scopes body, List.map_append]
  | .function decl => by
      simp only [Stmt.unlined, Stmt.resolve, FunctionDecl.name_unlined, Scopes.declare_unlined,
        Scopes.define_unlined, Scopes.clash_unlined, resolveFunction_unlined _ _ decl,
        List.map_append]
  | .ret keyword value => by
      simp only [Stmt.unlined, Stmt.resolve, returnFaults_unlined, findingsOption_unlined,
        List.map_append]
  | .classDecl name none methods => by
      simp only [Stmt.unlined, Option.map_none, Stmt.resolve, Scopes.declare_unlined,
        Scopes.define_unlined, Scopes.clash_unlined, resolveMethods_unlined _ _ methods,
        List.map_append]
  | .classDecl name (some superclass) methods => by
      simp only [Stmt.unlined, Option.map_some, Stmt.resolve, Scopes.declare_unlined,
        Scopes.define_unlined, Scopes.clash_unlined, selfInheritance_unlined, findings_unlined,
        resolveMethods_unlined _ _ methods, List.map_append]

theorem resolveAll_unlined (ctx : Context) (scopes : Scopes) :
    ∀ body : List Stmt, Stmt.resolveAll ctx scopes (Stmt.unlinedAll body) =
      ((Stmt.resolveAll ctx scopes body).1,
        (Stmt.resolveAll ctx scopes body).2.map Finding.unlined)
  | [] => rfl
  | s :: rest => by
      simp only [Stmt.unlinedAll, Stmt.resolveAll, resolve_unlined ctx scopes s,
        resolveAll_unlined ctx _ rest, List.map_append]

theorem resolveFunction_unlined (ctx : Context) (scopes : Scopes) :
    ∀ decl : FunctionDecl, Stmt.resolveFunction ctx scopes (Stmt.unlinedFunction decl) =
      (Stmt.resolveFunction ctx scopes decl).map Finding.unlined
  | .mk name params body => by
      simp only [Stmt.unlinedFunction, Stmt.resolveFunction, Scopes.paramClashes_unlined,
        Scopes.declareParams_unlined, resolveAll_unlined ctx _ body, List.map_append]

theorem resolveMethods_unlined (ctx : Context) (scopes : Scopes) :
    ∀ methods : List FunctionDecl,
      Stmt.resolveMethods ctx scopes (Stmt.unlinedMethods methods) =
        (Stmt.resolveMethods ctx scopes methods).map Finding.unlined
  | [] => rfl
  | f :: rest => by
      simp only [Stmt.unlinedMethods, Stmt.resolveMethods, FunctionDecl.name_unlined,
        FunctionContext.ofMethod, Token.lexeme_unlined, resolveFunction_unlined _ scopes f,
        resolveMethods_unlined ctx scopes rest, List.map_append]

end

end Resolution

namespace Resolution

theorem ofFindings_unlined (findings : List Finding) :
    ofFindings (findings.map Finding.unlined) =
      ⟨(ofFindings findings).locals, (ofFindings findings).errors.map ScopeError.unlined⟩ := by
  simp only [ofFindings, List.filterMap_map, List.map_filterMap]
  congr 1
  · congr 2
    funext finding
    cases finding <;> rfl
  · congr 1
    funext finding
    cases finding <;> rfl

/-- A program and its unlined form have the same table of local references. -/
theorem ofProgram_unlined (statements : List Stmt) :
    ofProgram (statements.map Stmt.unlined) =
      ⟨(ofProgram statements).locals, (ofProgram statements).errors.map ScopeError.unlined⟩ := by
  rw [ofProgram, ← Stmt.unlinedAll_eq_map, resolveAll_unlined, ofFindings_unlined]
  rfl

end Resolution

end Lox
