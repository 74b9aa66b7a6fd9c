import Lox.Proofs.Scope.Position
import Lox.Proofs.Scope.Scopes

/-!
# Surroundings

Name resolution comes to each part of a program with certain scopes open, in a certain context.
Here these surroundings are followed from the program down: what a part does to them for its first
child, and what it leaves to the part behind it.  What is found in a part is what is found at the
part itself and in its children, each in its own surroundings.

The main statement is `Surroundings.Fits`: at every address the open scopes have the names that are
declared in front of it in the scopes around it, and the context is given by the innermost function
and the innermost class body around it.  So whatever resolution decides at a node depends on the
address of the node only.
-/

namespace Lox

/-- What is open around a part when name resolution comes to it. -/
structure Surroundings where
  ctx : Context
  scopes : Scopes

/-- The context inside a function of a sort with a name. -/
def FunctionSort.context (name : Token) : FunctionSort → FunctionContext
  | .function => .function
  | .method => .ofMethod name

namespace Part

/-- The context inside a part, if it is a function. -/
def functionContext : Part → FunctionContext
  | .function sort decl => sort.context decl.name
  | _ => .none

/-- The context inside a part, if it is the body of a class. -/
def classContext : Part → ClassContext
  | .classBody true _ => .derived
  | .classBody false _ => .plain
  | _ => .none

end Part

namespace Surroundings

/-- Outside everything. -/
def topLevel : Surroundings :=
  ⟨.topLevel, []⟩

/-- The surroundings of what stands behind a part. -/
def behind (around : Surroundings) : Part → Surroundings
  | .param name => { around with scopes := around.scopes.define name }
  | part =>
      match part.declared? with
      | none => around
      | some name => { around with scopes := (around.scopes.declare name).define name }

/-- The surroundings of the first child of a part.  A variable cannot be read in its initializer. -/
def enter (around : Surroundings) : Part → Surroundings
  | .stmt (.var name _) => { around with scopes := around.scopes.declare name }
  | .stmt (.block _) => { around with scopes := [] :: around.scopes }
  | .function sort decl =>
      ⟨around.ctx.inFunction (sort.context decl.name), [] :: around.scopes⟩
  | .inheritance _ => { around with scopes := [("super", true)] :: around.scopes }
  | .classBody derived methods =>
      ⟨around.ctx.inClass (Part.classBody derived methods).classContext,
        [("this", true)] :: around.scopes⟩
  | part => around.behind part

/-- The parts of a list one after the other, each with its surroundings. -/
def thread (around : Surroundings) : List Part → List (Surroundings × Part)
  | [] => []
  | part :: rest => (around, part) :: thread (around.behind part) rest

/-- The children of a part, each with its surroundings. -/
def inside (around : Surroundings) (part : Part) : List (Surroundings × Part) :=
  (around.enter part).thread part.children

/-- The part at an address, with its surroundings. -/
def reach? (around : Surroundings) (part : Part) : Address → Option (Surroundings × Part)
  | [] => some (around, part)
  | i :: p => ((around.inside part)[i]?).bind fun child => child.1.reach? child.2 p

end Surroundings

namespace Part

/-- What resolution finds in a part. -/
def findings (around : Surroundings) : Part → List Finding
  | .program statements => (Stmt.resolveAll around.ctx around.scopes statements).2
  | .expr e => e.findings around.ctx around.scopes
  | .stmt s => (s.resolve around.ctx around.scopes).2
  | .param name => around.scopes.clash name
  | .function sort decl =>
      Stmt.resolveFunction (around.ctx.inFunction (sort.context decl.name)) around.scopes decl
  | .superclass name parent =>
      selfInheritance name parent ++ parent.findings around.ctx around.scopes
  | .inheritance methods =>
      Stmt.resolveMethods (around.ctx.inClass .derived) (Stmt.methodScopes around.scopes true)
        methods
  | .classBody derived methods =>
      Stmt.resolveMethods (around.ctx.inClass (Part.classBody derived methods).classContext)
        (Stmt.methodScopes around.scopes false) methods

/-- The faults that are found at a part itself. -/
def faults (around : Surroundings) : Part → List Finding
  | .expr (.var _ name) => around.scopes.unreadable name
  | .expr (.this _ keyword) =>
      if around.ctx.cls = .none then [.fault ⟨keyword, .thisOutsideClass⟩] else []
  | .expr (.super _ keyword _) =>
      match around.ctx.cls with
      | .none => [.fault ⟨keyword, .superOutsideClass⟩]
      | .plain => [.fault ⟨keyword, .superWithoutSuperclass⟩]
      | .derived => []
  | .stmt (.ret keyword value) => returnFaults around.ctx keyword value
  | .superclass name parent => selfInheritance name parent
  | part =>
      match part.declared? with
      | none => []
      | some name => around.scopes.clash name

/-- The entry that is made at a part itself. -/
def entries (around : Surroundings) : Part → List Finding
  | .expr (.var id name) => around.scopes.binding id name
  | .expr (.assign id name _) => around.scopes.binding id name
  | .expr (.this id keyword) =>
      if around.ctx.cls = .none then [] else around.scopes.binding id keyword
  | .expr (.super id keyword _) => around.scopes.binding id keyword
  | _ => []

end Part

section Findings

/-- What resolution finds in parts, each in its own surroundings. -/
def Part.findingsAll (parts : List (Surroundings × Part)) : List Finding :=
  parts.flatMap fun part => part.2.findings part.1

variable (ctx : Context)
variable (scopes : Scopes)

theorem Surroundings.thread_append
    (around : Surroundings)
    (first second : List Part) :
    around.thread (first ++ second) =
      around.thread first ++ (first.foldl Surroundings.behind around).thread second := by
  induction first generalizing around with
  | nil =>
      rfl
  | cons part rest ih =>
      rw [List.cons_append, thread, thread, ih]
      rfl

/-- Behind a statement there is at most one name more. -/
theorem Stmt.resolve_behind
    {s : Stmt}
    (hshaped : s.Shaped) :
    Surroundings.behind ⟨ctx, scopes⟩ (.stmt s) = ⟨ctx, (s.resolve ctx scopes).1⟩ := by
  cases s with
  | var name initializer =>
      rfl
  | function decl =>
      rfl
  | classDecl name superclass methods =>
      cases superclass <;> rfl
  | _ =>
      rw [Stmt.resolve_branch ctx scopes _ hshaped rfl]
      rfl

namespace Part

theorem findingsAll_append
    (first second : List (Surroundings × Part)) :
    findingsAll (first ++ second) = findingsAll first ++ findingsAll second :=
  List.flatMap_append

theorem findingsAll_exprs
    (es : List Expr) :
    findingsAll (Surroundings.thread ⟨ctx, scopes⟩ (es.map .expr)) =
      Expr.findingsAll ctx scopes es := by
  induction es with
  | nil =>
      rfl
  | cons e rest ih =>
      exact congrArg (e.findings ctx scopes ++ ·) ih

theorem findingsAll_ofOption
    (value : Option Expr) :
    findingsAll (Surroundings.thread ⟨ctx, scopes⟩ (ofOption value)) =
      Expr.findingsOption ctx scopes value := by
  cases value with
  | none =>
      rfl
  | some e =>
      exact List.append_nil _

theorem findingsAll_params
    (params : List Token) :
    findingsAll (Surroundings.thread ⟨ctx, scopes⟩ (params.map .param)) =
        scopes.paramClashes params ∧
      (params.map Part.param).foldl Surroundings.behind ⟨ctx, scopes⟩ =
        ⟨ctx, scopes.declareParams params⟩ := by
  induction params generalizing scopes with
  | nil =>
      exact ⟨rfl, rfl⟩
  | cons p rest ih =>
      obtain ⟨hfindings, hbehind⟩ := ih (scopes.define p)
      exact ⟨congrArg (scopes.clash p ++ ·) hfindings, hbehind⟩

theorem findingsAll_body
    {body : List Stmt}
    (hshaped : Stmt.ShapedAll body) :
    findingsAll (Surroundings.thread ⟨ctx, scopes⟩ (body.map .stmt)) =
      (Stmt.resolveAll ctx scopes body).2 := by
  induction body generalizing scopes with
  | nil =>
      rfl
  | cons s rest ih =>
      rw [List.map_cons, Surroundings.thread, Stmt.resolve_behind ctx scopes hshaped.1]
      exact congrArg ((s.resolve ctx scopes).2 ++ ·) (ih _ hshaped.2)

theorem findingsAll_methods
    (methods : List FunctionDecl) :
    findingsAll (Surroundings.thread ⟨ctx, scopes⟩ (methods.map (.function .method))) =
      Stmt.resolveMethods ctx scopes methods := by
  induction methods with
  | nil =>
      rfl
  | cons decl rest ih =>
      exact congrArg (_ ++ ·) ih

theorem findings_expr
    (e : Expr) :
    (Part.expr e).findings ⟨ctx, scopes⟩ =
      (Part.expr e).faults ⟨ctx, scopes⟩ ++ findingsAll (Surroundings.inside ⟨ctx, scopes⟩ (.expr e))
        ++ (Part.expr e).entries ⟨ctx, scopes⟩ := by
  cases e with
  | call callee paren arguments =>
      have harguments := findingsAll_exprs ctx scopes arguments
      simp only [findings, Expr.findings, ← harguments]
      exact (List.append_nil _).symm
  | this id keyword =>
      cases hcls : ctx.cls <;>
        simp [findings, Expr.findings, faults, entries, findingsAll, Surroundings.inside, children,
          Surroundings.thread, hcls]
  | super id keyword method =>
      cases hcls : ctx.cls <;>
        simp [findings, Expr.findings, faults, entries, findingsAll, Surroundings.inside, children,
          Surroundings.thread, hcls]
  | _ =>
      simp [findings, Expr.findings, faults, entries, findingsAll, Surroundings.inside, children,
        Surroundings.thread, Surroundings.enter, Surroundings.behind, declared?]

theorem findings_stmt
    {s : Stmt}
    (hshaped : s.Shaped) :
    (Part.stmt s).findings ⟨ctx, scopes⟩ =
      (Part.stmt s).faults ⟨ctx, scopes⟩ ++
        findingsAll (Surroundings.inside ⟨ctx, scopes⟩ (.stmt s)) := by
  cases s with
  | var name initializer =>
      exact congrArg (scopes.clash name ++ ·) (findingsAll_ofOption ctx _ initializer).symm
  | ret keyword value =>
      exact congrArg (returnFaults ctx keyword value ++ ·) (findingsAll_ofOption ctx _ value).symm
  | block body =>
      exact (findingsAll_body ctx _ hshaped).symm
  | ifElse condition thenBranch elseBranch =>
      have hfirst := Stmt.resolve_behind ctx scopes hshaped.2.2.1
      have hinside : findingsAll (Surroundings.inside ⟨ctx, scopes⟩
          (.stmt (.ifElse condition thenBranch elseBranch))) =
          findingsAll [(⟨ctx, scopes⟩, .expr condition), (⟨ctx, scopes⟩, .stmt thenBranch),
            (Surroundings.behind ⟨ctx, scopes⟩ (.stmt thenBranch), .stmt elseBranch)] := rfl
      rw [hinside, hfirst]
      simp [findings, Stmt.resolve, faults, declared?, findingsAll]
  | function decl =>
      exact congrArg (scopes.clash decl.name ++ ·) (List.append_nil _).symm
  | classDecl name superclass methods =>
      cases superclass with
      | none =>
          exact congrArg (scopes.clash name ++ ·) (List.append_nil _).symm
      | some parent =>
          -- a variable is resolved in the same way outside of the class
          obtain ⟨id, token, rfl, -⟩ := shaped_variable hshaped.2.1
          simp [findings, Stmt.resolve, Expr.findings, faults, declared?, findingsAll,
            Surroundings.inside, children, Surroundings.enter, Surroundings.thread,
            Surroundings.behind]
  | _ =>
      simp [findings, Stmt.resolve, faults, declared?, findingsAll, Surroundings.inside, children,
        Surroundings.enter, Surroundings.thread, Surroundings.behind]

/-- What is found in a part is found at the part itself and in its children. -/
theorem findings_eq
    {part : Part}
    (around : Surroundings)
    (hshaped : part.Shaped) :
    part.findings around =
      part.faults around ++ findingsAll (around.inside part) ++ part.entries around := by
  obtain ⟨ctx, scopes⟩ := around
  cases part with
  | program statements =>
      exact ((findingsAll_body ctx scopes hshaped).symm.trans (List.append_nil _).symm)
  | expr e =>
      exact findings_expr ctx scopes e
  | stmt s =>
      exact (findings_stmt ctx scopes hshaped).trans (List.append_nil _).symm
  | param name =>
      simp [findings, faults, entries, findingsAll, Surroundings.inside, children,
        Surroundings.thread, declared?]
  | function sort decl =>
      obtain ⟨name, params, body⟩ := decl
      obtain ⟨hparams, hbehind⟩ :=
        findingsAll_params (ctx.inFunction (sort.context name)) ([] :: scopes) params
      have hbody := findingsAll_body (ctx.inFunction (sort.context name))
        (Scopes.declareParams ([] :: scopes) params) hshaped.2.2
      simp only [findings, Stmt.resolveFunction, FunctionDecl.name, faults, declared?, entries,
        Surroundings.inside, Surroundings.enter, children, FunctionDecl.params, FunctionDecl.body,
        Surroundings.thread_append, findingsAll_append, hparams, hbehind, hbody, List.nil_append,
        List.append_nil]
  | superclass name parent =>
      simp [findings, faults, entries, findingsAll, Surroundings.inside, children,
        Surroundings.enter, Surroundings.thread, Surroundings.behind, declared?]
  | inheritance methods =>
      simp [findings, faults, entries, findingsAll, Surroundings.inside, children,
        Surroundings.enter, Surroundings.thread, declared?, Stmt.methodScopes, classContext]
  | classBody derived methods =>
      have hmethods := findingsAll_methods
        (ctx.inClass (Part.classBody derived methods).classContext)
        ([("this", true)] :: scopes) methods
      simp only [findings, faults, declared?, entries, Surroundings.inside, Surroundings.enter,
        children, hmethods, List.nil_append, List.append_nil]
      rfl

end Part

end Findings

section Fits

/-- A scope has the names that are declared, in front of an address, in the scope at another. -/
def Part.Agrees (program : Part) (p : Address) (names : Scope) (scope : Address) : Prop :=
  ∀ name, (names.lookup name).isSome = true ↔ program.DeclaredBefore scope p name

/-- What is open at an address is what stands around it. -/
structure Surroundings.Fits (program : Part) (p : Address) (around : Surroundings) : Prop where
  scopes : List.Forall₂ (program.Agrees p) around.scopes (program.scopesAround p)
  settled : program.enclosing Part.isVariable p = [] → around.scopes.Settled
  unreadable : ∀ name,
    around.scopes.innermost? name = some false ↔ program.Initializing p name
  function : around.ctx.function =
    (program.innermost? Part.isFunction p).elim .none Part.functionContext
  cls : around.ctx.cls = (program.innermost? Part.isClassBody p).elim .none Part.classContext

variable {program part : Part}
variable {p p' : Address}
variable {scopes : Scopes}
variable {around : Surroundings}

theorem forall₂_imp_of_mem
    {α β : Type}
    {R R' : α → β → Prop}
    {xs : List α}
    {ys : List β}
    (h : List.Forall₂ R xs ys)
    (himp : ∀ x, ∀ y ∈ ys, R x y → R' x y) :
    List.Forall₂ R' xs ys := by
  induction h with
  | nil =>
      exact .nil
  | cons hxy _ ih =>
      exact .cons (himp _ _ List.mem_cons_self hxy)
        (ih fun x y hy => himp x y (List.mem_cons_of_mem _ hy))

/-- Behind an address at which nothing is declared, the scopes are the same. -/
theorem agrees_next
    (hshaped : program.Shaped)
    (hlt : p < p')
    (hbetween : ∀ q, q < p' → q < p ∨ ∃ t, q = p ++ t)
    (hnone : (program.at? p).bind Part.declared? = none)
    (h : List.Forall₂ (program.Agrees p) scopes (program.scopesAround p)) :
    List.Forall₂ (program.Agrees p') scopes (program.scopesAround p) := by
  apply forall₂_imp_of_mem h
  intro names scope hmem hagrees name
  rw [hagrees name, hshaped.declaredBefore_next hlt hbetween hmem]
  constructor
  · exact .inl
  · rintro (hbefore | ⟨token, hdeclares, -⟩)
    · exact hbefore
    · rw [Part.Declares, hnone] at hdeclares
      cases hdeclares

/-- Behind a declaration, the innermost scope has its name. -/
theorem agrees_next_add
    {token : Token}
    (hshaped : program.Shaped)
    (hlt : p < p')
    (hbetween : ∀ q, q < p' → q < p ∨ ∃ t, q = p ++ t)
    (hdeclares : program.Declares p token)
    (h : List.Forall₂ (program.Agrees p) scopes (program.scopesAround p))
    (readable : Bool) :
    List.Forall₂ (program.Agrees p') (scopes.add token.lexeme readable)
      (program.scopesAround p) := by
  have hnodup : (program.scopesAround p).Nodup := Part.nodup_enclosing _ p
  have hnext : ∀ scope ∈ program.scopesAround p, ∀ name,
      program.DeclaredBefore scope p' name ↔ program.DeclaredBefore scope p name ∨
        ∃ token, program.Declares p token ∧ token.lexeme = name ∧
          (program.scopesAround p).head? = some scope :=
    fun scope hmem => hshaped.declaredBefore_next hlt hbetween hmem
  generalize hlist : program.scopesAround p = list at h hnodup hnext
  cases h with
  | nil =>
      exact .nil
  | @cons names scope outer rest hagrees houter =>
      obtain ⟨hfirst, -⟩ := List.nodup_cons.mp hnodup
      constructor
      · intro name
        rw [hnext scope List.mem_cons_self name, ← hagrees name]
        by_cases hname : name = token.lexeme
        · subst hname
          rw [Scopes.lookup_cons_self]
          simp only [Option.isSome_some, true_iff]
          exact .inr ⟨token, hdeclares, rfl, by simp⟩
        · rw [Scopes.lookup_cons_of_ne hname]
          constructor
          · exact .inl
          · rintro (hbefore | ⟨other, hother, rfl, -⟩)
            · exact hbefore
            · exact absurd (congrArg Token.lexeme (Option.some.inj (hother.symm.trans hdeclares))) hname
      · apply forall₂_imp_of_mem houter
        intro names' scope' hmem hagrees' name
        rw [hagrees' name, hnext scope' (List.mem_cons_of_mem _ hmem) name]
        constructor
        · exact .inl
        · rintro (hbefore | ⟨-, -, -, hhead⟩)
          · exact hbefore
          · simp only [List.head?_cons, Option.some.injEq] at hhead
            exact absurd (hhead ▸ hmem) hfirst

theorem agrees_next_define
    {token : Token}
    (hshaped : program.Shaped)
    (hlt : p < p')
    (hbetween : ∀ q, q < p' → q < p ∨ ∃ t, q = p ++ t)
    (hdeclares : program.Declares p token)
    (h : List.Forall₂ (program.Agrees p) scopes (program.scopesAround p)) :
    List.Forall₂ (program.Agrees p') ((scopes.declare token).define token)
      (program.scopesAround p) := by
  have hfirst := agrees_next_add hshaped hlt hbetween hdeclares h false
  cases scopes with
  | nil =>
      exact hfirst
  | cons names outer =>
      simp only [Scopes.declare, Scopes.define, Scopes.add] at hfirst ⊢
      generalize program.scopesAround p = list at hfirst ⊢
      cases hfirst with
      | cons hagrees houter =>
          refine .cons ?_ houter
          intro name
          rw [← hagrees name]
          by_cases hname : name = token.lexeme
          · subst hname
            simp
          · rw [Scopes.lookup_cons_of_ne hname, Scopes.lookup_cons_of_ne hname]

/-- Behind a part, the scopes have what it declares. -/
theorem agrees_behind
    (hshaped : program.Shaped)
    (hlt : p < p')
    (hbetween : ∀ q, q < p' → q < p ∨ ∃ t, q = p ++ t)
    (hpart : program.at? p = some part)
    (h : List.Forall₂ (program.Agrees p) around.scopes (program.scopesAround p)) :
    List.Forall₂ (program.Agrees p') (around.behind part).scopes (program.scopesAround p) := by
  cases hdeclared : part.declared? with
  | none =>
      have hbehind : around.behind part = around := by
        unfold Surroundings.behind
        split
        · cases hdeclared
        · rw [hdeclared]
      rw [hbehind]
      exact agrees_next hshaped hlt hbetween (by rw [hpart]; exact hdeclared) h
  | some token =>
      have hdeclares : program.Declares p token := by
        rw [Part.Declares, hpart]
        exact hdeclared
      unfold Surroundings.behind
      split
      · cases hdeclared
        exact agrees_next_add hshaped hlt hbetween hdeclares h true
      · rw [hdeclared]
        exact agrees_next_define hshaped hlt hbetween hdeclares h

/-- In a scope that has just been opened there is nothing but what the part brings along. -/
theorem agrees_opened
    {names : Scope}
    (hnames : ∀ name, (names.lookup name).isSome = true ↔
      (name = "this" ∧ part.isClassBody = true) ∨
        (name = "super" ∧ ∃ methods, part = .inheritance methods))
    (hpart : program.at? p = some part) :
    program.Agrees (p ++ [0]) names p := by
  intro name
  rw [hnames name]
  constructor
  · rintro (⟨rfl, hclass⟩ | ⟨rfl, methods, rfl⟩)
    · cases part with
      | classBody derived methods =>
          exact .this hpart
      | _ =>
          cases hclass
    · exact .super hpart
  · intro hbefore
    cases hbefore with
    | this hscope =>
        cases hpart.symm.trans hscope
        exact .inl ⟨rfl, rfl⟩
    | super hscope =>
        cases hpart.symm.trans hscope
        exact .inr ⟨rfl, _, rfl⟩
    | @declared q token hdeclares hscope hbefore =>
        obtain ⟨i, r, -, rfl, -, -⟩ := Part.of_mem_enclosing (List.mem_of_mem_head? hscope)
        exact absurd hbefore (Part.not_lt_snoc_zero p r i)

theorem agrees_enter
    (hshaped : program.Shaped)
    (hpart : program.at? p = some part)
    (h : List.Forall₂ (program.Agrees p) around.scopes (program.scopesAround p)) :
    List.Forall₂ (program.Agrees (p ++ [0])) (around.enter part).scopes
      (program.scopesAround (p ++ [0])) := by
  have hlt : p < p ++ [0] := Part.lt_snoc_iff.mpr (.inr (.inl rfl))
  have hbehind := agrees_behind hshaped hlt (fun q => Part.between_parent) hpart h
  rw [Part.scopesAround, Part.enclosing_snoc hpart]
  cases part with
  | stmt s =>
      cases s with
      | var name initializer =>
          have hdeclares : program.Declares p name := by
            rw [Part.Declares, hpart]
            rfl
          exact agrees_next_add hshaped hlt (fun q => Part.between_parent) hdeclares h false
      | block body =>
          exact .cons (agrees_opened (by simp [Part.isClassBody]) hpart) hbehind
      | _ =>
          exact hbehind
  | function sort decl =>
      exact .cons (agrees_opened (by simp [Part.isClassBody]) hpart) hbehind
  | inheritance methods =>
      exact .cons (agrees_opened (by simp [Part.isClassBody]) hpart) hbehind
  | classBody derived methods =>
      exact .cons (agrees_opened (by simp [Part.isClassBody]) hpart) hbehind
  | _ =>
      exact hbehind

theorem Surroundings.ctx_behind
    (around : Surroundings)
    (part : Part) :
    (around.behind part).ctx = around.ctx := by
  unfold behind
  split
  · rfl
  · split <;> rfl

theorem Surroundings.ctx_enter
    (around : Surroundings)
    (part : Part) :
    (around.enter part).ctx =
      ⟨if part.isFunction then part.functionContext else around.ctx.function,
        if part.isClassBody then part.classContext else around.ctx.cls⟩ := by
  cases part with
  | stmt s =>
      cases s <;> rfl
  | _ =>
      rfl

theorem Surroundings.settled_behind
    (h : around.scopes.Settled)
    (part : Part) :
    (around.behind part).scopes.Settled := by
  unfold behind
  split
  · exact h.define _
  · split
    · exact h
    · exact h.declare_define _

/-- Only what is opened by a variable declaration can be unsettled. -/
theorem Surroundings.settled_enter
    (h : around.scopes.Settled)
    (hpart : part.isVariable = false) :
    (around.enter part).scopes.Settled := by
  unfold enter
  split
  · cases hpart
  · exact Scopes.settled_push h
  · exact Scopes.settled_push h
  · exact h.word "super"
  · exact h.word "this"
  · exact settled_behind h _

/-- Around what is no expression there is no variable declaration. -/
theorem Part.enclosing_isVariable
    (hpart : program.at? p = some part)
    (hexpr : part.isExpr = false) :
    program.enclosing isVariable p = [] := by
  induction p using List.reverseRecOn generalizing part with
  | nil =>
      rfl
  | append_singleton r i ih =>
      rw [at?_snoc] at hpart
      obtain ⟨parent, hparent, hchild⟩ := Option.bind_eq_some_iff.mp hpart
      have hsort : ¬ (parent.isExpr = true ∨ parent.isVariable = true) := by
        intro hsort
        rw [isExpr_of_child (List.mem_of_getElem? hchild) hsort] at hexpr
        cases hexpr
      rw [not_or, Bool.not_eq_true, Bool.not_eq_true] at hsort
      rw [enclosing_snoc hparent, if_neg (by simp [hsort.2])]
      exact ih hparent hsort.1

theorem not_initializing
    (h : program.enclosing Part.isVariable p = [])
    (name : String) :
    ¬ program.Initializing p name := by
  rintro ⟨q, token, initializer, hq, -⟩
  rw [h] at hq
  cases hq

theorem Scopes.Settled.innermost?
    (h : scopes.Settled)
    (name : String) :
    scopes.innermost? name ≠ some false := by
  cases scopes with
  | nil =>
      simp [Scopes.innermost?]
  | cons names outer =>
      exact h names List.mem_cons_self name

namespace Surroundings.Fits

/-- To be unreadable means nothing where there is no initializer around. -/
theorem unreadable_of_settled
    (hsettled : scopes.Settled)
    (hnone : program.enclosing Part.isVariable p = [])
    (name : String) :
    scopes.innermost? name = some false ↔ program.Initializing p name :=
  iff_of_false (hsettled.innermost? name) (not_initializing hnone name)

theorem initializing_snoc
    (hpart : program.at? p = some part)
    (hvariable : part.isVariable = false)
    (i : Nat)
    (name : String) :
    program.Initializing (p ++ [i]) name ↔ program.Initializing p name := by
  unfold Part.Initializing
  rw [Part.enclosing_snoc hpart, if_neg (by simp [hvariable])]

/-- In the initializer of a local variable, that variable cannot be read. -/
theorem unreadable_initializer
    {token : Token}
    {initializer : Option Expr}
    (hpart : program.at? p = some (.stmt (.var token initializer)))
    (h : around.Fits program p)
    (name : String) :
    (around.scopes.declare token).innermost? name = some false ↔
      program.Initializing (p ++ [0]) name := by
  have hnone : program.enclosing Part.isVariable p = [] := Part.enclosing_isVariable hpart rfl
  have hinside : program.Initializing (p ++ [0]) name ↔
      token.lexeme = name ∧ program.scopesAround p ≠ [] := by
    unfold Part.Initializing
    rw [Part.enclosing_snoc hpart, hnone]
    constructor
    · rintro ⟨q, other, value, hq, hother, hname, hlocal⟩
      obtain rfl : q = p := by
        simpa [Part.isVariable] using hq
      cases hpart.symm.trans hother
      exact ⟨hname, hlocal⟩
    · rintro ⟨hname, hlocal⟩
      exact ⟨p, token, initializer, by simp [Part.isVariable], hpart, hname, hlocal⟩
  have hsettled := h.settled hnone
  have hscopes := h.scopes
  rw [hinside]
  cases hlist : around.scopes with
  | nil =>
      rw [hlist, List.forall₂_nil_left_iff] at hscopes
      simp [hscopes, Scopes.declare, Scopes.add, Scopes.innermost?]
  | cons names outer =>
      have hlocal : program.scopesAround p ≠ [] := by
        intro hempty
        rw [hlist, hempty] at hscopes
        cases hscopes
      simp only [Scopes.declare, Scopes.add, Scopes.innermost?]
      by_cases hname : name = token.lexeme
      · rw [hname, Scopes.lookup_cons_self]
        exact iff_of_true rfl ⟨rfl, hlocal⟩
      · rw [Scopes.lookup_cons_of_ne hname]
        exact iff_of_false (hsettled names (hlist ▸ List.mem_cons_self) name)
          (fun h => hname h.1.symm)

theorem enter
    (hshaped : program.Shaped)
    (hpart : program.at? p = some part)
    (h : around.Fits program p) :
    (around.enter part).Fits program (p ++ [0]) where
  scopes := agrees_enter hshaped hpart h.scopes
  settled := by
    rw [Part.enclosing_snoc hpart]
    intro hnone
    split at hnone
    · cases hnone
    · rename_i hvariable
      exact settled_enter (h.settled hnone) (by simpa using hvariable)
  unreadable := by
    intro name
    cases hvariable : part.isVariable with
    | true =>
        cases part with
        | stmt s =>
            cases s with
            | var token initializer =>
                exact unreadable_initializer hpart h name
            | _ =>
                cases hvariable
        | _ =>
            cases hvariable
    | false =>
        cases hexpr : part.isExpr with
        | true =>
            have hsame : around.enter part = around := by
              cases part with
              | expr e =>
                  rfl
              | _ =>
                  cases hexpr
            rw [hsame, initializing_snoc hpart hvariable]
            exact h.unreadable name
        | false =>
            have hnone := Part.enclosing_isVariable hpart hexpr
            apply unreadable_of_settled (settled_enter (h.settled hnone) hvariable)
            rw [Part.enclosing_snoc hpart, if_neg (by simp [hvariable])]
            exact hnone
  function := by
    rw [ctx_enter, Part.innermost?_snoc hpart]
    dsimp only
    split
    · rfl
    · exact h.function
  cls := by
    rw [ctx_enter, Part.innermost?_snoc hpart]
    dsimp only
    split
    · rfl
    · exact h.cls

/-- From one child to the next. -/
theorem behind
    {i : Nat}
    (hshaped : program.Shaped)
    (hpart : program.at? (p ++ [i]) = some part)
    (h : around.Fits program (p ++ [i])) :
    (around.behind part).Fits program (p ++ [i + 1]) := by
  obtain ⟨parent, hparent, hchild⟩ : ∃ parent, program.at? p = some parent ∧
      parent.children[i]? = some part := by
    rw [Part.at?_snoc] at hpart
    exact Option.bind_eq_some_iff.mp hpart
  have henclosing : ∀ sort, program.enclosing sort (p ++ [i + 1]) =
      program.enclosing sort (p ++ [i]) := by
    intro sort
    rw [Part.enclosing_snoc hparent, Part.enclosing_snoc hparent]
  have hlt : p ++ [i] < p ++ [i + 1] :=
    Part.lt_snoc_iff.mpr (.inr (.inr ⟨i, [], rfl, Nat.lt_succ_self i⟩))
  constructor
  · rw [Part.scopesAround, henclosing]
    exact agrees_behind hshaped hlt (fun q => Part.between_siblings) hpart h.scopes
  · rw [henclosing]
    exact fun hnone => settled_behind (h.settled hnone) part
  · intro name
    have hsame : program.Initializing (p ++ [i + 1]) name ↔ program.Initializing (p ++ [i]) name := by
      unfold Part.Initializing
      rw [henclosing]
    cases hexpr : part.isExpr with
    | true =>
        have hbehind : around.behind part = around := by
          cases part with
          | expr e =>
              rfl
          | _ =>
              cases hexpr
        rw [hbehind, hsame]
        exact h.unreadable name
    | false =>
        have hnone := Part.enclosing_isVariable hpart hexpr
        rw [hsame]
        exact unreadable_of_settled (settled_behind (h.settled hnone) part) hnone name
  · rw [ctx_behind, h.function, Part.innermost?, Part.innermost?, henclosing]
  · rw [ctx_behind, h.cls, Part.innermost?, Part.innermost?, henclosing]

theorem topLevel
    (statements : List Stmt) :
    topLevel.Fits (.program statements) [] where
  scopes := .nil
  settled := by
    intro _ scope hscope
    cases hscope
  unreadable := by
    intro name
    refine iff_of_false ?_ (not_initializing rfl name)
    simp [Surroundings.topLevel, Scopes.innermost?]
  function := rfl
  cls := rfl

theorem function_eq_none_iff
    (h : around.Fits program p) :
    around.ctx.function = .none ↔ program.innermost? Part.isFunction p = none := by
  rw [h.function]
  cases hinnermost : program.innermost? Part.isFunction p with
  | none =>
      simp
  | some part =>
      cases part with
      | function sort decl =>
          cases sort with
          | function =>
              simp [Part.functionContext, FunctionSort.context]
          | method =>
              simp only [Option.elim_some, Part.functionContext, FunctionSort.context,
                FunctionContext.ofMethod]
              split <;> simp
      | _ =>
          cases Part.sort_of_innermost? hinnermost

theorem function_eq_initializer_iff
    (h : around.Fits program p) :
    around.ctx.function = .initializer ↔
      ∃ decl, program.innermost? Part.isFunction p = some (.function .method decl) ∧
        decl.name.lexeme = initializerName := by
  rw [h.function]
  cases hinnermost : program.innermost? Part.isFunction p with
  | none =>
      simp
  | some part =>
      cases part with
      | function sort decl =>
          cases sort with
          | function =>
              simp [Part.functionContext, FunctionSort.context]
          | method =>
              simp only [Option.elim_some, Part.functionContext, FunctionSort.context,
                FunctionContext.ofMethod]
              split <;> simp_all
      | _ =>
          cases Part.sort_of_innermost? hinnermost

theorem cls_eq_none_iff
    (h : around.Fits program p) :
    around.ctx.cls = .none ↔ program.innermost? Part.isClassBody p = none := by
  rw [h.cls]
  cases hinnermost : program.innermost? Part.isClassBody p with
  | none =>
      simp
  | some part =>
      cases part with
      | classBody derived methods =>
          cases derived <;> simp [Part.classContext]
      | _ =>
          cases Part.sort_of_innermost? hinnermost

theorem cls_eq_plain_iff
    (h : around.Fits program p) :
    around.ctx.cls = .plain ↔
      ∃ methods, program.innermost? Part.isClassBody p = some (.classBody false methods) := by
  rw [h.cls]
  cases hinnermost : program.innermost? Part.isClassBody p with
  | none =>
      simp
  | some part =>
      cases part with
      | classBody derived methods =>
          cases derived <;> simp [Part.classContext]
      | _ =>
          cases Part.sort_of_innermost? hinnermost

/-- The children of a part fit from some child on, if that child does. -/
theorem thread
    {parts : List Part}
    {child : Surroundings × Part}
    {i k : Nat}
    (hshaped : program.Shaped)
    (hpart : program.at? p = some part)
    (hparts : parts = part.children.drop k)
    (h : around.Fits program (p ++ [k]))
    (hchild : (around.thread parts)[i]? = some child) :
    child.1.Fits program (p ++ [k + i]) := by
  induction parts generalizing around i k with
  | nil =>
      cases hchild
  | cons first rest ih =>
      have hfirst : program.at? (p ++ [k]) = some first := by
        rw [Part.at?_snoc, hpart, Option.bind_some, ← List.head?_drop, ← hparts]
        rfl
      have hrest : rest = part.children.drop (k + 1) := by
        rw [← List.tail_drop, ← hparts]
        rfl
      cases i with
      | zero =>
          cases hchild
          exact h
      | succ i =>
          have hnext := ih hrest (h.behind hshaped hfirst) hchild
          rwa [Nat.add_assoc, Nat.add_comm 1 i] at hnext

theorem inside
    {child : Surroundings × Part}
    {i : Nat}
    (hshaped : program.Shaped)
    (hpart : program.at? p = some part)
    (h : around.Fits program p)
    (hchild : (around.inside part)[i]? = some child) :
    child.1.Fits program (p ++ [i]) := by
  have hfits := (h.enter hshaped hpart).thread hshaped hpart rfl hchild
  rwa [Nat.zero_add] at hfits

end Surroundings.Fits

namespace Surroundings

theorem map_snd_thread
    (around : Surroundings)
    (parts : List Part) :
    (around.thread parts).map Prod.snd = parts := by
  induction parts generalizing around with
  | nil =>
      rfl
  | cons part rest ih =>
      rw [thread, List.map_cons, ih]

theorem mem_children_of_inside
    {child : Surroundings × Part}
    (h : child ∈ around.inside part) :
    child.2 ∈ part.children := by
  rw [← map_snd_thread (around.enter part) part.children]
  exact List.mem_map_of_mem h

theorem getElem?_inside
    (around : Surroundings)
    (part : Part)
    (i : Nat) :
    ((around.inside part)[i]?).map Prod.snd = part.children[i]? := by
  rw [← List.getElem?_map, inside, map_snd_thread]

theorem map_snd_reach?
    (around : Surroundings)
    (part : Part)
    (p : Address) :
    (around.reach? part p).map Prod.snd = part.at? p := by
  induction p generalizing around part with
  | nil =>
      rfl
  | cons i p ih =>
      rw [reach?, Part.at?, ← getElem?_inside around part i]
      cases (around.inside part)[i]? with
      | none =>
          rfl
      | some child =>
          exact ih child.1 child.2

/-- The surroundings that are reached at an address fit it. -/
theorem fits_of_reach?
    {child : Surroundings × Part}
    {r : Address}
    (hshaped : program.Shaped)
    (hpart : program.at? p = some part)
    (h : around.Fits program p)
    (hreach : around.reach? part r = some child) :
    child.1.Fits program (p ++ r) := by
  induction r generalizing around part p with
  | nil =>
      cases hreach
      rw [List.append_nil]
      exact h
  | cons i r ih =>
      obtain ⟨next, hnext, hreach⟩ := Option.bind_eq_some_iff.mp hreach
      have hat : program.at? (p ++ [i]) = some next.2 := by
        rw [Part.at?_snoc, hpart]
        exact (getElem?_inside around part i).symm.trans (congrArg (Option.map Prod.snd) hnext)
      have hfits := ih hat (h.inside hshaped hpart hnext) hreach
      rwa [List.append_assoc, List.singleton_append] at hfits

/-- At every address of a program there are surroundings that fit. -/
theorem exists_reach?
    {statements : List Stmt}
    (hshaped : (Part.program statements).Shaped)
    (hpart : (Part.program statements).at? p = some part) :
    ∃ around, topLevel.reach? (.program statements) p = some (around, part) ∧
      around.Fits (.program statements) p := by
  rw [← map_snd_reach? topLevel] at hpart
  obtain ⟨⟨around, part'⟩, hreach, rfl⟩ := Option.map_eq_some_iff.mp hpart
  exact ⟨around, hreach, fits_of_reach? hshaped rfl (.topLevel statements) hreach⟩

end Surroundings

end Fits

end Lox
