import Lox.Proofs.Grammar.Shape
import Lox.Scope.Resolution

/-!
# The walk of name resolution

Name resolution comes to every node of a tree once, with certain scopes open.  `visits` lists the
nodes in the order of that walk, each with its scopes.  What is found in a tree is what is found at
the nodes of its walk, one after the other; so whatever is to be known about resolution can be
asked of single visits.
-/

namespace Lox

/-- What name resolution looks at. -/
inductive Node where
  | expr (e : Expr)
  | stmt (s : Stmt)
  /-- A function or method, apart from its name. -/
  | function (decl : FunctionDecl)

/-- A node, and what is open around it when name resolution comes to it. -/
structure Visit where
  ctx : Context
  scopes : Scopes
  node : Node

namespace Visit

/-- What is found at a node itself. -/
def findings (v : Visit) : List Finding :=
  match v.node with
  | .expr (.var id name) => (Expr.var id name).findings v.ctx v.scopes
  | .expr (.assign id name _) => v.scopes.binding id name
  | .expr (.this id keyword) => (Expr.this id keyword).findings v.ctx v.scopes
  | .expr (.super id keyword method) => (Expr.super id keyword method).findings v.ctx v.scopes
  | .stmt (.var name _) => v.scopes.clash name
  | .stmt (.function decl) => v.scopes.clash decl.name
  | .stmt (.ret keyword value) => returnFaults v.ctx keyword value
  | .stmt (.classDecl name none _) => v.scopes.clash name
  | .stmt (.classDecl name (some superclass) _) =>
      v.scopes.clash name ++ selfInheritance name superclass
  | .function decl => Scopes.paramClashes ([] :: v.scopes) decl.params
  | _ => []

/-- The number of the reference that a visit comes to, if it comes to one. -/
def ids (v : Visit) : List Nat :=
  match v.node with
  | .expr (.var id _) => [id]
  | .expr (.assign id _ _) => [id]
  | .expr (.this id _) => [id]
  | .expr (.super id _ _) => [id]
  | _ => []

end Visit

namespace Expr

mutual

/-- The walk over an expression: operands first. -/
def visits (ctx : Context) (scopes : Scopes) : Expr → List Visit
  | .literal value => [⟨ctx, scopes, .expr (.literal value)⟩]
  | .grouping inner => visits ctx scopes inner ++ [⟨ctx, scopes, .expr (.grouping inner)⟩]
  | .unary operator right =>
      visits ctx scopes right ++ [⟨ctx, scopes, .expr (.unary operator right)⟩]
  | .binary left operator right =>
      visits ctx scopes left ++ (visits ctx scopes right ++
        [⟨ctx, scopes, .expr (.binary left operator right)⟩])
  | .logical left operator right =>
      visits ctx scopes left ++ (visits ctx scopes right ++
        [⟨ctx, scopes, .expr (.logical left operator right)⟩])
  | .var id name => [⟨ctx, scopes, .expr (.var id name)⟩]
  | .assign id name value =>
      visits ctx scopes value ++ [⟨ctx, scopes, .expr (.assign id name value)⟩]
  | .call callee paren arguments =>
      visits ctx scopes callee ++ (visitsAll ctx scopes arguments ++
        [⟨ctx, scopes, .expr (.call callee paren arguments)⟩])
  | .get object name => visits ctx scopes object ++ [⟨ctx, scopes, .expr (.get object name)⟩]
  | .set object name value =>
      visits ctx scopes value ++ (visits ctx scopes object ++
        [⟨ctx, scopes, .expr (.set object name value)⟩])
  | .this id keyword => [⟨ctx, scopes, .expr (.this id keyword)⟩]
  | .super id keyword method => [⟨ctx, scopes, .expr (.super id keyword method)⟩]

/-- The walk over a list of expressions. -/
def visitsAll (ctx : Context) (scopes : Scopes) : List Expr → List Visit
  | [] => []
  | e :: rest => visits ctx scopes e ++ visitsAll ctx scopes rest

end

/-- The walk over an expression that may be missing. -/
def visitsOption (ctx : Context) (scopes : Scopes) : Option Expr → List Visit
  | none => []
  | some e => e.visits ctx scopes

end Expr

namespace Stmt

mutual

/-- The walk over a statement: first the statement, then its parts. -/
def visits (ctx : Context) (scopes : Scopes) : Stmt → List Visit
  | .expression e => ⟨ctx, scopes, .stmt (.expression e)⟩ :: e.visits ctx scopes
  | .print e => ⟨ctx, scopes, .stmt (.print e)⟩ :: e.visits ctx scopes
  | .var name initializer =>
      ⟨ctx, scopes, .stmt (.var name initializer)⟩ ::
        Expr.visitsOption ctx (scopes.declare name) initializer
  | .block body => ⟨ctx, scopes, .stmt (.block body)⟩ :: visitsAll ctx ([] :: scopes) body
  | .ifThen condition thenBranch =>
      ⟨ctx, scopes, .stmt (.ifThen condition thenBranch)⟩ ::
        (condition.visits ctx scopes ++ visits ctx scopes thenBranch)
  | .ifElse condition thenBranch elseBranch =>
      ⟨ctx, scopes, .stmt (.ifElse condition thenBranch elseBranch)⟩ ::
        (condition.visits ctx scopes ++ (visits ctx scopes thenBranch ++
          visits ctx (resolve ctx scopes thenBranch).1 elseBranch))
  | .loop condition body =>
      ⟨ctx, scopes, .stmt (.loop condition body)⟩ ::
        (condition.visits ctx scopes ++ visits ctx scopes body)
  | .function decl =>
      ⟨ctx, scopes, .stmt (.function decl)⟩ ::
        visitsFunction (ctx.inFunction .function)
          ((scopes.declare decl.name).define decl.name) decl
  | .ret keyword value =>
      ⟨ctx, scopes, .stmt (.ret keyword value)⟩ :: Expr.visitsOption ctx scopes value
  | .classDecl name none methods =>
      ⟨ctx, scopes, .stmt (.classDecl name none methods)⟩ ::
        visitsMethods (ctx.inClass .plain)
          (methodScopes ((scopes.declare name).define name) false) methods
  | .classDecl name (some superclass) methods =>
      ⟨ctx, scopes, .stmt (.classDecl name (some superclass) methods)⟩ ::
        (superclass.visits (ctx.inClass .derived) ((scopes.declare name).define name) ++
          visitsMethods (ctx.inClass .derived)
            (methodScopes ((scopes.declare name).define name) true) methods)

/-- The walk over a list of statements. -/
def visitsAll (ctx : Context) (scopes : Scopes) : List Stmt → List Visit
  | [] => []
  | s :: rest => visits ctx scopes s ++ visitsAll ctx (resolve ctx scopes s).1 rest

/-- The walk over a function: its parameters and its body share a scope. -/
def visitsFunction (ctx : Context) (scopes : Scopes) : FunctionDecl → List Visit
  | .mk name params body =>
      ⟨ctx, scopes, .function (.mk name params body)⟩ ::
        visitsAll ctx (Scopes.declareParams ([] :: scopes) params) body

/-- The walk over the methods of a class. -/
def visitsMethods (ctx : Context) (scopes : Scopes) : List FunctionDecl → List Visit
  | [] => []
  | f :: rest =>
      visitsFunction (ctx.inFunction (.ofMethod f.name)) scopes f ++ visitsMethods ctx scopes rest

end

/-- The walk over a program. -/
def walk (statements : List Stmt) : List Visit :=
  visitsAll .topLevel [] statements

end Stmt

theorem Expr.self_mem_visits
    (ctx : Context)
    (scopes : Scopes)
    (e : Expr) :
    ⟨ctx, scopes, .expr e⟩ ∈ e.visits ctx scopes := by
  cases e <;> simp [visits]

section Findings

mutual

/-- What is found in an expression is found at the nodes of its walk. -/
theorem findings_eq_flatMap
    (ctx : Context)
    (scopes : Scopes) :
    ∀ e : Expr, e.findings ctx scopes = (e.visits ctx scopes).flatMap Visit.findings
  | .literal _ => rfl
  | .grouping inner => by
      simp [Expr.findings, Expr.visits, Visit.findings, findings_eq_flatMap ctx scopes inner]
  | .unary _ right => by
      simp [Expr.findings, Expr.visits, Visit.findings, findings_eq_flatMap ctx scopes right]
  | .binary left _ right => by
      simp [Expr.findings, Expr.visits, Visit.findings, findings_eq_flatMap ctx scopes left,
        findings_eq_flatMap ctx scopes right]
  | .logical left _ right => by
      simp [Expr.findings, Expr.visits, Visit.findings, findings_eq_flatMap ctx scopes left,
        findings_eq_flatMap ctx scopes right]
  | .var id name => by
      simp [Expr.visits, Visit.findings]
  | .assign id name value => by
      simp [Expr.findings, Expr.visits, Visit.findings, findings_eq_flatMap ctx scopes value]
  | .call callee _ arguments => by
      simp [Expr.findings, Expr.visits, Visit.findings, findings_eq_flatMap ctx scopes callee,
        findingsAll_eq_flatMap ctx scopes arguments]
  | .get object _ => by
      simp [Expr.findings, Expr.visits, Visit.findings, findings_eq_flatMap ctx scopes object]
  | .set object _ value => by
      simp [Expr.findings, Expr.visits, Visit.findings, findings_eq_flatMap ctx scopes object,
        findings_eq_flatMap ctx scopes value]
  | .this id keyword => by
      simp [Expr.visits, Visit.findings]
  | .super id keyword method => by
      simp [Expr.visits, Visit.findings]

theorem findingsAll_eq_flatMap
    (ctx : Context)
    (scopes : Scopes) :
    ∀ es : List Expr,
      Expr.findingsAll ctx scopes es = (Expr.visitsAll ctx scopes es).flatMap Visit.findings
  | [] => rfl
  | e :: rest => by
      simp [Expr.findingsAll, Expr.visitsAll, findings_eq_flatMap ctx scopes e,
        findingsAll_eq_flatMap ctx scopes rest]

end

theorem findingsOption_eq_flatMap
    (ctx : Context)
    (scopes : Scopes)
    (value : Option Expr) :
    Expr.findingsOption ctx scopes value =
      (Expr.visitsOption ctx scopes value).flatMap Visit.findings := by
  cases value with
  | none =>
      rfl
  | some e =>
      exact findings_eq_flatMap ctx scopes e

mutual

/-- What is found in a statement is found at the nodes of its walk. -/
theorem resolve_eq_flatMap
    (ctx : Context)
    (scopes : Scopes) :
    ∀ s : Stmt, (s.resolve ctx scopes).2 = (s.visits ctx scopes).flatMap Visit.findings
  | .expression e => by
      simp [Stmt.resolve, Stmt.visits, Visit.findings, findings_eq_flatMap]
  | .print e => by
      simp [Stmt.resolve, Stmt.visits, Visit.findings, findings_eq_flatMap]
  | .var name initializer => by
      simp [Stmt.resolve, Stmt.visits, Visit.findings, findingsOption_eq_flatMap]
  | .block body => by
      simp [Stmt.resolve, Stmt.visits, Visit.findings, resolveAll_eq_flatMap ctx _ body]
  | .ifThen condition thenBranch => by
      simp [Stmt.resolve, Stmt.visits, Visit.findings, findings_eq_flatMap,
        resolve_eq_flatMap ctx _ thenBranch]
  | .ifElse condition thenBranch elseBranch => by
      simp [Stmt.resolve, Stmt.visits, Visit.findings, findings_eq_flatMap,
        resolve_eq_flatMap ctx _ thenBranch, resolve_eq_flatMap ctx _ elseBranch]
  | .loop condition body => by
      simp [Stmt.resolve, Stmt.visits, Visit.findings, findings_eq_flatMap,
        resolve_eq_flatMap ctx _ body]
  | .function decl => by
      simp [Stmt.resolve, Stmt.visits, Visit.findings, resolveFunction_eq_flatMap _ _ decl]
  | .ret keyword value => by
      simp [Stmt.resolve, Stmt.visits, Visit.findings, findingsOption_eq_flatMap]
  | .classDecl name none methods => by
      simp [Stmt.resolve, Stmt.visits, Visit.findings, resolveMethods_eq_flatMap _ _ methods]
  | .classDecl name (some superclass) methods => by
      simp [Stmt.resolve, Stmt.visits, Visit.findings, findings_eq_flatMap,
        resolveMethods_eq_flatMap _ _ methods]

theorem resolveAll_eq_flatMap
    (ctx : Context)
    (scopes : Scopes) :
    ∀ body : List Stmt,
      (Stmt.resolveAll ctx scopes body).2 =
        (Stmt.visitsAll ctx scopes body).flatMap Visit.findings
  | [] => rfl
  | s :: rest => by
      simp [Stmt.resolveAll, Stmt.visitsAll, resolve_eq_flatMap ctx scopes s,
        resolveAll_eq_flatMap ctx _ rest]

theorem resolveFunction_eq_flatMap
    (ctx : Context)
    (scopes : Scopes) :
    ∀ decl : FunctionDecl,
      Stmt.resolveFunction ctx scopes decl =
        (Stmt.visitsFunction ctx scopes decl).flatMap Visit.findings
  | .mk name params body => by
      simp [Stmt.resolveFunction, Stmt.visitsFunction, Visit.findings, FunctionDecl.params,
        resolveAll_eq_flatMap ctx _ body]

theorem resolveMethods_eq_flatMap
    (ctx : Context)
    (scopes : Scopes) :
    ∀ methods : List FunctionDecl,
      Stmt.resolveMethods ctx scopes methods =
        (Stmt.visitsMethods ctx scopes methods).flatMap Visit.findings
  | [] => rfl
  | f :: rest => by
      simp [Stmt.resolveMethods, Stmt.visitsMethods, resolveFunction_eq_flatMap _ scopes f,
        resolveMethods_eq_flatMap ctx scopes rest]

end

end Findings

section Closed

/-- A walk that comes to an expression comes to all its parts, with the same scopes. -/
def Closed (visits : List Visit) : Prop :=
  ∀ ⦃ctx scopes e⦄, ⟨ctx, scopes, .expr e⟩ ∈ visits → ∀ v ∈ e.visits ctx scopes, v ∈ visits

theorem closed_nil : Closed [] := by
  intro ctx scopes e h
  cases h

theorem closed_append
    {first second : List Visit}
    (hfirst : Closed first)
    (hsecond : Closed second) :
    Closed (first ++ second) := by
  intro ctx scopes e h v hv
  rcases List.mem_append.mp h with h | h
  · exact List.mem_append_left _ (hfirst h v hv)
  · exact List.mem_append_right _ (hsecond h v hv)

/-- An expression behind its parts. -/
theorem closed_self
    {parts : List Visit}
    {ctx : Context}
    {scopes : Scopes}
    {e : Expr}
    (hparts : Closed parts)
    (he : e.visits ctx scopes = parts ++ [⟨ctx, scopes, .expr e⟩]) :
    Closed (e.visits ctx scopes) := by
  intro ctx' scopes' e' h v hv
  rw [he] at h
  rcases List.mem_append.mp h with h | h
  · rw [he]
    exact List.mem_append_left _ (hparts h v hv)
  · cases List.mem_singleton.mp h
    exact hv

/-- A statement or function in front of its parts. -/
theorem closed_cons
    {parts : List Visit}
    {v : Visit}
    (hv : ∀ e, v.node ≠ .expr e)
    (hparts : Closed parts) :
    Closed (v :: parts) := by
  intro ctx scopes e h w hw
  rcases List.mem_cons.mp h with h | h
  · exact absurd (congrArg Visit.node h).symm (hv e)
  · exact List.mem_cons_of_mem _ (hparts h w hw)

mutual

theorem closed_expr
    (ctx : Context)
    (scopes : Scopes) :
    ∀ e : Expr, Closed (e.visits ctx scopes)
  | .literal _ => closed_self closed_nil rfl
  | .grouping inner => closed_self (closed_expr ctx scopes inner) rfl
  | .unary _ right => closed_self (closed_expr ctx scopes right) rfl
  | .binary left _ right =>
      closed_self (closed_append (closed_expr ctx scopes left) (closed_expr ctx scopes right))
        (List.append_assoc _ _ _).symm
  | .logical left _ right =>
      closed_self (closed_append (closed_expr ctx scopes left) (closed_expr ctx scopes right))
        (List.append_assoc _ _ _).symm
  | .var _ _ => closed_self closed_nil rfl
  | .assign _ _ value => closed_self (closed_expr ctx scopes value) rfl
  | .call callee _ arguments =>
      closed_self
        (closed_append (closed_expr ctx scopes callee) (closed_exprs ctx scopes arguments))
        (List.append_assoc _ _ _).symm
  | .get object _ => closed_self (closed_expr ctx scopes object) rfl
  | .set object _ value =>
      closed_self (closed_append (closed_expr ctx scopes value) (closed_expr ctx scopes object))
        (List.append_assoc _ _ _).symm
  | .this _ _ => closed_self closed_nil rfl
  | .super _ _ _ => closed_self closed_nil rfl

theorem closed_exprs
    (ctx : Context)
    (scopes : Scopes) :
    ∀ es : List Expr, Closed (Expr.visitsAll ctx scopes es)
  | [] => closed_nil
  | e :: rest => closed_append (closed_expr ctx scopes e) (closed_exprs ctx scopes rest)

end

theorem closed_option
    (ctx : Context)
    (scopes : Scopes)
    (value : Option Expr) :
    Closed (Expr.visitsOption ctx scopes value) := by
  cases value with
  | none =>
      exact closed_nil
  | some e =>
      exact closed_expr ctx scopes e

mutual

theorem closed_stmt
    (ctx : Context)
    (scopes : Scopes) :
    ∀ s : Stmt, Closed (s.visits ctx scopes)
  | .expression e => closed_cons (by simp) (closed_expr ctx scopes e)
  | .print e => closed_cons (by simp) (closed_expr ctx scopes e)
  | .var _ initializer => closed_cons (by simp) (closed_option ctx _ initializer)
  | .block body => closed_cons (by simp) (closed_body ctx _ body)
  | .ifThen condition thenBranch =>
      closed_cons (by simp)
        (closed_append (closed_expr ctx scopes condition) (closed_stmt ctx _ thenBranch))
  | .ifElse condition thenBranch elseBranch =>
      closed_cons (by simp)
        (closed_append (closed_expr ctx scopes condition)
          (closed_append (closed_stmt ctx _ thenBranch) (closed_stmt ctx _ elseBranch)))
  | .loop condition body =>
      closed_cons (by simp)
        (closed_append (closed_expr ctx scopes condition) (closed_stmt ctx _ body))
  | .function decl => closed_cons (by simp) (closed_function _ _ decl)
  | .ret _ value => closed_cons (by simp) (closed_option ctx scopes value)
  | .classDecl _ none methods => closed_cons (by simp) (closed_methods _ _ methods)
  | .classDecl _ (some superclass) methods =>
      closed_cons (by simp)
        (closed_append (closed_expr _ _ superclass) (closed_methods _ _ methods))

theorem closed_body
    (ctx : Context)
    (scopes : Scopes) :
    ∀ body : List Stmt, Closed (Stmt.visitsAll ctx scopes body)
  | [] => closed_nil
  | s :: rest => closed_append (closed_stmt ctx scopes s) (closed_body ctx _ rest)

theorem closed_function
    (ctx : Context)
    (scopes : Scopes) :
    ∀ decl : FunctionDecl, Closed (Stmt.visitsFunction ctx scopes decl)
  | .mk _ _ body => closed_cons (by simp) (closed_body ctx _ body)

theorem closed_methods
    (ctx : Context)
    (scopes : Scopes) :
    ∀ methods : List FunctionDecl, Closed (Stmt.visitsMethods ctx scopes methods)
  | [] => closed_nil
  | f :: rest => closed_append (closed_function _ scopes f) (closed_methods ctx scopes rest)

end

mutual

/-- The parts of an expression are visited with its own scopes. -/
theorem scopes_of_mem_visits
    (ctx : Context)
    (scopes : Scopes) :
    ∀ e : Expr, ∀ v ∈ e.visits ctx scopes, v.scopes = scopes
  | .literal _ => by
      simp [Expr.visits]
  | .grouping inner => by
      simpa [Expr.visits, or_imp, forall_and] using scopes_of_mem_visits ctx scopes inner
  | .unary _ right => by
      simpa [Expr.visits, or_imp, forall_and] using scopes_of_mem_visits ctx scopes right
  | .binary left _ right => by
      simpa [Expr.visits, or_imp, forall_and] using
        ⟨scopes_of_mem_visits ctx scopes left, scopes_of_mem_visits ctx scopes right⟩
  | .logical left _ right => by
      simpa [Expr.visits, or_imp, forall_and] using
        ⟨scopes_of_mem_visits ctx scopes left, scopes_of_mem_visits ctx scopes right⟩
  | .var _ _ => by
      simp [Expr.visits]
  | .assign _ _ value => by
      simpa [Expr.visits, or_imp, forall_and] using scopes_of_mem_visits ctx scopes value
  | .call callee _ arguments => by
      simpa [Expr.visits, or_imp, forall_and] using
        ⟨scopes_of_mem_visits ctx scopes callee, scopes_of_mem_visitsAll ctx scopes arguments⟩
  | .get object _ => by
      simpa [Expr.visits, or_imp, forall_and] using scopes_of_mem_visits ctx scopes object
  | .set object _ value => by
      simpa [Expr.visits, or_imp, forall_and] using
        ⟨scopes_of_mem_visits ctx scopes value, scopes_of_mem_visits ctx scopes object⟩
  | .this _ _ => by
      simp [Expr.visits]
  | .super _ _ _ => by
      simp [Expr.visits]

theorem scopes_of_mem_visitsAll
    (ctx : Context)
    (scopes : Scopes) :
    ∀ es : List Expr, ∀ v ∈ Expr.visitsAll ctx scopes es, v.scopes = scopes
  | [] => by
      simp [Expr.visitsAll]
  | e :: rest => by
      simpa [Expr.visitsAll, or_imp, forall_and] using
        ⟨scopes_of_mem_visits ctx scopes e, scopes_of_mem_visitsAll ctx scopes rest⟩

end

end Closed

section Entire

/-- A walk that comes to a statement goes on as the walk over that statement does. -/
def Entire (visits : List Visit) : Prop :=
  ∀ ⦃ctx scopes s⦄, ⟨ctx, scopes, .stmt s⟩ ∈ visits → (s.visits ctx scopes).Sublist visits

theorem entire_append
    {first second : List Visit}
    (hfirst : Entire first)
    (hsecond : Entire second) :
    Entire (first ++ second) := by
  intro ctx scopes s h
  rcases List.mem_append.mp h with h | h
  · exact (hfirst h).trans (List.sublist_append_left first second)
  · exact (hsecond h).trans (List.sublist_append_right first second)

theorem entire_of_no_stmt
    {visits : List Visit}
    (h : ∀ v ∈ visits, ∀ s, v.node ≠ .stmt s) :
    Entire visits :=
  fun _ _ s hs => absurd rfl (h _ hs s)

/-- A statement in front of its parts. -/
theorem entire_cons
    {parts : List Visit}
    {ctx : Context}
    {scopes : Scopes}
    {s : Stmt}
    (hparts : Entire parts)
    (hs : s.visits ctx scopes = ⟨ctx, scopes, .stmt s⟩ :: parts) :
    Entire (s.visits ctx scopes) := by
  intro ctx' scopes' s' h
  rw [hs] at h
  rcases List.mem_cons.mp h with h | h
  · cases h
    exact .refl _
  · rw [hs]
    exact (hparts h).cons _

mutual

/-- There are no statements in expressions. -/
theorem no_stmt_of_mem_visits
    (ctx : Context)
    (scopes : Scopes) :
    ∀ e : Expr, ∀ v ∈ e.visits ctx scopes, ∀ s, v.node ≠ .stmt s
  | .literal _ => by
      simp [Expr.visits]
  | .grouping inner => by
      simpa [Expr.visits, or_imp, forall_and] using no_stmt_of_mem_visits ctx scopes inner
  | .unary _ right => by
      simpa [Expr.visits, or_imp, forall_and] using no_stmt_of_mem_visits ctx scopes right
  | .binary left _ right => by
      simpa [Expr.visits, or_imp, forall_and] using
        ⟨no_stmt_of_mem_visits ctx scopes left, no_stmt_of_mem_visits ctx scopes right⟩
  | .logical left _ right => by
      simpa [Expr.visits, or_imp, forall_and] using
        ⟨no_stmt_of_mem_visits ctx scopes left, no_stmt_of_mem_visits ctx scopes right⟩
  | .var _ _ => by
      simp [Expr.visits]
  | .assign _ _ value => by
      simpa [Expr.visits, or_imp, forall_and] using no_stmt_of_mem_visits ctx scopes value
  | .call callee _ arguments => by
      simpa [Expr.visits, or_imp, forall_and] using
        ⟨no_stmt_of_mem_visits ctx scopes callee, no_stmt_of_mem_visitsAll ctx scopes arguments⟩
  | .get object _ => by
      simpa [Expr.visits, or_imp, forall_and] using no_stmt_of_mem_visits ctx scopes object
  | .set object _ value => by
      simpa [Expr.visits, or_imp, forall_and] using
        ⟨no_stmt_of_mem_visits ctx scopes value, no_stmt_of_mem_visits ctx scopes object⟩
  | .this _ _ => by
      simp [Expr.visits]
  | .super _ _ _ => by
      simp [Expr.visits]

theorem no_stmt_of_mem_visitsAll
    (ctx : Context)
    (scopes : Scopes) :
    ∀ es : List Expr, ∀ v ∈ Expr.visitsAll ctx scopes es, ∀ s, v.node ≠ .stmt s
  | [] => by
      simp [Expr.visitsAll]
  | e :: rest => by
      simpa [Expr.visitsAll, or_imp, forall_and] using
        ⟨no_stmt_of_mem_visits ctx scopes e, no_stmt_of_mem_visitsAll ctx scopes rest⟩

end

theorem entire_expr
    (ctx : Context)
    (scopes : Scopes)
    (e : Expr) :
    Entire (e.visits ctx scopes) :=
  entire_of_no_stmt (no_stmt_of_mem_visits ctx scopes e)

theorem entire_option
    (ctx : Context)
    (scopes : Scopes)
    (value : Option Expr) :
    Entire (Expr.visitsOption ctx scopes value) := by
  cases value with
  | none =>
      exact entire_of_no_stmt (by simp [Expr.visitsOption])
  | some e =>
      exact entire_expr ctx scopes e

mutual

theorem entire_stmt
    (ctx : Context)
    (scopes : Scopes) :
    ∀ s : Stmt, Entire (s.visits ctx scopes)
  | .expression e => entire_cons (entire_expr ctx scopes e) rfl
  | .print e => entire_cons (entire_expr ctx scopes e) rfl
  | .var _ initializer => entire_cons (entire_option ctx _ initializer) rfl
  | .block body => entire_cons (entire_body ctx _ body) rfl
  | .ifThen condition thenBranch =>
      entire_cons
        (entire_append (entire_expr ctx scopes condition) (entire_stmt ctx _ thenBranch)) rfl
  | .ifElse condition thenBranch elseBranch =>
      entire_cons
        (entire_append (entire_expr ctx scopes condition)
          (entire_append (entire_stmt ctx _ thenBranch) (entire_stmt ctx _ elseBranch))) rfl
  | .loop condition body =>
      entire_cons
        (entire_append (entire_expr ctx scopes condition) (entire_stmt ctx _ body)) rfl
  | .function decl => entire_cons (entire_function _ _ decl) rfl
  | .ret _ value => entire_cons (entire_option ctx scopes value) rfl
  | .classDecl _ none methods => entire_cons (entire_methods _ _ methods) rfl
  | .classDecl _ (some superclass) methods =>
      entire_cons (entire_append (entire_expr _ _ superclass) (entire_methods _ _ methods)) rfl

theorem entire_body
    (ctx : Context)
    (scopes : Scopes) :
    ∀ body : List Stmt, Entire (Stmt.visitsAll ctx scopes body)
  | [] => entire_of_no_stmt (by simp [Stmt.visitsAll])
  | s :: rest => entire_append (entire_stmt ctx scopes s) (entire_body ctx _ rest)

theorem entire_function
    (ctx : Context)
    (scopes : Scopes) :
    ∀ decl : FunctionDecl, Entire (Stmt.visitsFunction ctx scopes decl)
  | .mk name params body => by
      have hself : Entire [⟨ctx, scopes, .function (.mk name params body)⟩] :=
        entire_of_no_stmt (by simp)
      exact entire_append hself (entire_body ctx _ body)

theorem entire_methods
    (ctx : Context)
    (scopes : Scopes) :
    ∀ methods : List FunctionDecl, Entire (Stmt.visitsMethods ctx scopes methods)
  | [] => entire_of_no_stmt (by simp [Stmt.visitsMethods])
  | f :: rest => entire_append (entire_function _ scopes f) (entire_methods ctx scopes rest)

end

end Entire

end Lox
