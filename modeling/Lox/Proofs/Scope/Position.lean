import Lox.Proofs.Grammar.Shape
import Lox.Scope.Resolution
import Mathlib.Data.List.Infix
import Mathlib.Data.List.Lex
import Mathlib.Data.List.Nodup

/-!
# Positions in a program

A program is seen as a tree of parts, and a part is found by its address: which child to take, from
the program down.  Addresses are ordered like the parts in the text: a part stands in front of its
children, and these follow one after the other.

Everything that the scope rules ask about a node is said here about its address alone: which scopes
stand around it, which function and which class it stands in, what is declared in front of it.
-/

namespace Lox

/-- A part of a program that has an address of its own. -/
inductive Part where
  | program (statements : List Stmt)
  | expr (e : Expr)
  | stmt (s : Stmt)
  | param (name : Token)
  /-- A function or method, apart from its name. -/
  | function (sort : FunctionSort) (decl : FunctionDecl)
  /-- The superclass of the class with the given name. -/
  | superclass (name : Token) (parent : Expr)
  /-- What is around the body of a class with a superclass. -/
  | inheritance (methods : List FunctionDecl)
  | classBody (derived : Bool) (methods : List FunctionDecl)

/-- Which child to take, from the program down. -/
abbrev Address := List Nat

namespace Part

/-- The parts of an expression that may be missing. -/
def ofOption : Option Expr → List Part
  | none => []
  | some e => [.expr e]

/-- The parts that a part is made of, in the order of their resolution. -/
def children : Part → List Part
  | .program statements => statements.map .stmt
  | .expr (.literal _) => []
  | .expr (.grouping inner) => [.expr inner]
  | .expr (.unary _ right) => [.expr right]
  | .expr (.binary left _ right) => [.expr left, .expr right]
  | .expr (.logical left _ right) => [.expr left, .expr right]
  | .expr (.var _ _) => []
  | .expr (.assign _ _ value) => [.expr value]
  | .expr (.call callee _ arguments) => .expr callee :: arguments.map .expr
  | .expr (.get object _) => [.expr object]
  | .expr (.set object _ value) => [.expr value, .expr object]
  | .expr (.this _ _) => []
  | .expr (.super _ _ _) => []
  | .stmt (.expression e) => [.expr e]
  | .stmt (.print e) => [.expr e]
  | .stmt (.var _ initializer) => ofOption initializer
  | .stmt (.block body) => body.map .stmt
  | .stmt (.ifThen condition thenBranch) => [.expr condition, .stmt thenBranch]
  | .stmt (.ifElse condition thenBranch elseBranch) =>
      [.expr condition, .stmt thenBranch, .stmt elseBranch]
  | .stmt (.loop condition body) => [.expr condition, .stmt body]
  | .stmt (.function decl) => [.function .function decl]
  | .stmt (.ret _ value) => ofOption value
  | .stmt (.classDecl _ none methods) => [.classBody false methods]
  | .stmt (.classDecl name (some parent) methods) =>
      [.superclass name parent, .inheritance methods]
  | .param _ => []
  | .function _ decl => decl.params.map .param ++ decl.body.map .stmt
  | .superclass _ parent => [.expr parent]
  | .inheritance methods => [.classBody true methods]
  | .classBody _ methods => methods.map (.function .method)

/-- The part at an address. -/
def at? (part : Part) : Address → Option Part
  | [] => some part
  | i :: p => (part.children[i]?).bind (·.at? p)

/-- Whether a part opens a scope.  The program does not: global names are in no scope. -/
def isScope : Part → Bool
  | .stmt (.block _) => true
  | .function _ _ => true
  | .inheritance _ => true
  | .classBody _ _ => true
  | _ => false

def isFunction : Part → Bool
  | .function _ _ => true
  | _ => false

def isClassBody : Part → Bool
  | .classBody _ _ => true
  | _ => false

def isVariable : Part → Bool
  | .stmt (.var _ _) => true
  | _ => false

def isExpr : Part → Bool
  | .expr _ => true
  | _ => false

/-- The name that a part declares in the scope around it. -/
def declared? : Part → Option Token
  | .stmt (.var name _) => some name
  | .stmt (.function decl) => some decl.name
  | .stmt (.classDecl name _ _) => some name
  | .param name => some name
  | _ => none

variable (program : Part)

/-- The addresses above an address whose parts are of some sort, nearest first. -/
def enclosing (sort : Part → Bool) (p : Address) : List Address :=
  p.inits.dropLast.reverse.filter fun q => (program.at? q).any sort

/-- The scopes around an address, innermost first. -/
def scopesAround (p : Address) : List Address :=
  program.enclosing isScope p

/-- The nearest part of some sort around an address. -/
def innermost? (sort : Part → Bool) (p : Address) : Option Part :=
  (program.enclosing sort p).head?.bind program.at?

/-- The part at an address declares a name. -/
def Declares (p : Address) (name : Token) : Prop :=
  (program.at? p).bind declared? = some name

/-- A scope has a name, for what stands in front of an address. -/
inductive DeclaredBefore (scope p : Address) : String → Prop where
  | this {derived : Bool} {methods : List FunctionDecl}
      (hscope : program.at? scope = some (.classBody derived methods)) :
      DeclaredBefore scope p "this"
  | super {methods : List FunctionDecl}
      (hscope : program.at? scope = some (.inheritance methods)) :
      DeclaredBefore scope p "super"
  | declared {q : Address} {name : Token}
      (hdeclares : program.Declares q name)
      (hscope : (program.scopesAround q).head? = some scope)
      (hbefore : q < p) :
      DeclaredBefore scope p name.lexeme

/-- An address stands in the initializer of a local variable with the given name. -/
def Initializing (p : Address) (name : String) : Prop :=
  ∃ q token initializer, q ∈ program.enclosing isVariable p ∧
    program.at? q = some (.stmt (.var token initializer)) ∧ token.lexeme = name ∧
    program.scopesAround q ≠ []

variable {program}

@[simp]
theorem mem_ofOption
    {value : Option Expr}
    {part : Part} :
    part ∈ ofOption value ↔ ∃ e, value = some e ∧ part = .expr e := by
  cases value <;> simp [ofOption]

/-- A part of a program is not a program. -/
theorem not_program_of_child
    {part child : Part}
    (hchild : child ∈ part.children)
    (statements : List Stmt) :
    child ≠ .program statements := by
  revert hchild
  fun_cases children part <;> grind [mem_ofOption]

/-- Inside a variable declaration and inside an expression there are only expressions. -/
theorem isExpr_of_child
    {part child : Part}
    (hchild : child ∈ part.children)
    (hpart : part.isExpr = true ∨ part.isVariable = true) :
    child.isExpr = true := by
  revert hchild hpart
  fun_cases children part <;> grind [mem_ofOption, isExpr, isVariable]

theorem at?_append
    (p r : Address) :
    program.at? (p ++ r) = (program.at? p).bind (·.at? r) := by
  induction p generalizing program with
  | nil =>
      rfl
  | cons i p ih =>
      rw [List.cons_append, at?, at?]
      cases program.children[i]? with
      | none =>
          rfl
      | some child =>
          exact ih

theorem at?_snoc
    (p : Address)
    (i : Nat) :
    program.at? (p ++ [i]) = (program.at? p).bind (·.children[i]?) := by
  rw [at?_append]
  congr 1
  funext part
  rw [at?]
  cases part.children[i]? with
  | none =>
      rfl
  | some child =>
      rfl

theorem inits_snoc
    (p : Address)
    (i : Nat) :
    (p ++ [i]).inits.dropLast = p.inits.dropLast ++ [p] := by
  have hself : p.inits = p.inits.dropLast ++ [p] := by
    rcases List.eq_nil_or_concat p with rfl | ⟨r, j, rfl⟩
    · rfl
    · simp [List.inits_append]
  rw [← hself]
  simp [List.inits_append]

theorem of_mem_inits
    {p q : Address}
    (h : q ∈ p.inits.dropLast) :
    ∃ i r, p = q ++ i :: r := by
  rcases List.eq_nil_or_concat p with rfl | ⟨r, j, rfl⟩
  · cases h
  · have hprefix : q <+: r := by
      simpa [List.inits_append] using h
    obtain ⟨t, rfl⟩ := hprefix
    cases t with
    | nil =>
        exact ⟨j, [], by simp⟩
    | cons i t =>
        exact ⟨i, t ++ [j], by simp⟩

/-- Around a child stands what is around its parent, and perhaps the parent. -/
theorem enclosing_snoc
    {p : Address}
    {part : Part}
    (hpart : program.at? p = some part)
    (sort : Part → Bool)
    (i : Nat) :
    program.enclosing sort (p ++ [i]) =
      if sort part then p :: program.enclosing sort p else program.enclosing sort p := by
  rw [enclosing, inits_snoc, List.reverse_append, List.reverse_singleton, List.singleton_append,
    List.filter_cons, hpart]
  rfl

theorem innermost?_snoc
    {p : Address}
    {part : Part}
    (hpart : program.at? p = some part)
    (sort : Part → Bool)
    (i : Nat) :
    program.innermost? sort (p ++ [i]) =
      if sort part then some part else program.innermost? sort p := by
  unfold innermost?
  rw [enclosing_snoc hpart]
  split
  · exact hpart
  · rfl

/-- What stands around an address is above it. -/
theorem of_mem_enclosing
    {sort : Part → Bool}
    {p q : Address}
    (h : q ∈ program.enclosing sort p) :
    ∃ i r part, p = q ++ i :: r ∧ program.at? q = some part ∧ sort part = true := by
  obtain ⟨hmem, hsort⟩ := List.mem_filter.mp h
  obtain ⟨i, r, hp⟩ := of_mem_inits (List.mem_reverse.mp hmem)
  cases hpart : program.at? q with
  | none =>
      simp [hpart] at hsort
  | some part =>
      rw [hpart] at hsort
      exact ⟨i, r, part, hp, rfl, hsort⟩

theorem sort_of_innermost?
    {sort : Part → Bool}
    {p : Address}
    {part : Part}
    (h : program.innermost? sort p = some part) :
    sort part = true := by
  obtain ⟨q, hq, hpart⟩ := Option.bind_eq_some_iff.mp h
  obtain ⟨-, -, part', -, hpart', hsort⟩ := of_mem_enclosing (List.mem_of_mem_head? hq)
  rw [hpart] at hpart'
  cases hpart'
  exact hsort

theorem nodup_enclosing
    (sort : Part → Bool)
    (p : Address) :
    (program.enclosing sort p).Nodup := by
  have habove : p.inits.dropLast.Nodup := by
    induction p using List.reverseRecOn with
    | nil =>
        simp
    | append_singleton p i ih =>
        rw [inits_snoc, ← List.concat_eq_append]
        refine ih.concat ?_
        intro hmem
        obtain ⟨j, r, hp⟩ := of_mem_inits hmem
        simpa using congrArg List.length hp
  exact (List.nodup_reverse.mpr habove).filter _

/-- In front of a child stand its parent, and what is in front of that or in an earlier child. -/
theorem lt_snoc_iff
    {p q : Address}
    {i : Nat} :
    q < p ++ [i] ↔ q < p ∨ q = p ∨ ∃ j r, q = p ++ j :: r ∧ j < i := by
  induction p generalizing q with
  | nil =>
      cases q with
      | nil =>
          simp
      | cons j r =>
          simp [List.cons_lt_cons_iff]
  | cons k p ih =>
      cases q with
      | nil =>
          simp
      | cons j r =>
          rw [List.cons_append, List.cons_lt_cons_iff, ih, List.cons_lt_cons_iff]
          constructor
          · rintro (hlt | ⟨rfl, hlt | rfl | ⟨j', r', rfl, hj⟩⟩)
            · exact .inl (.inl hlt)
            · exact .inl (.inr ⟨rfl, hlt⟩)
            · exact .inr (.inl rfl)
            · exact .inr (.inr ⟨j', r', rfl, hj⟩)
          · rintro ((hlt | ⟨rfl, hlt⟩) | heq | ⟨j', r', heq, hj⟩)
            · exact .inl hlt
            · exact .inr ⟨rfl, .inl hlt⟩
            · obtain ⟨rfl, rfl⟩ := List.cons.inj heq
              exact .inr ⟨rfl, .inr (.inl rfl)⟩
            · obtain ⟨rfl, rfl⟩ := List.cons.inj heq
              exact .inr ⟨rfl, .inr (.inr ⟨j', r', rfl, hj⟩)⟩

/-- Nothing below an address is in front of its first child. -/
theorem not_lt_snoc_zero
    (p r : Address)
    (i : Nat) :
    ¬ p ++ i :: r < p ++ [0] := by
  induction p with
  | nil =>
      simp [List.cons_lt_cons_iff]
  | cons k p ih =>
      simpa [List.cons_lt_cons_iff] using ih

theorem between_parent
    {p q : Address}
    (h : q < p ++ [0]) :
    q < p ∨ ∃ t, q = p ++ t := by
  rcases lt_snoc_iff.mp h with hlt | rfl | ⟨j, r, -, hj⟩
  · exact .inl hlt
  · exact .inr ⟨[], by simp⟩
  · omega

theorem between_siblings
    {p q : Address}
    {i : Nat}
    (h : q < p ++ [i + 1]) :
    q < p ++ [i] ∨ ∃ t, q = (p ++ [i]) ++ t := by
  rcases lt_snoc_iff.mp h with hlt | rfl | ⟨j, r, rfl, hj⟩
  · exact .inl (lt_snoc_iff.mpr (.inl hlt))
  · exact .inl (lt_snoc_iff.mpr (.inr (.inl rfl)))
  · rcases Nat.lt_succ_iff_lt_or_eq.mp hj with hj | rfl
    · exact .inl (lt_snoc_iff.mpr (.inr (.inr ⟨j, r, rfl, hj⟩)))
    · exact .inr ⟨r, by simp⟩

section Shape

/-- Shape of a part. -/
def Shaped : Part → Prop
  | .program statements => Stmt.ShapedAll statements
  | .expr e => e.Shaped
  | .stmt s => s.Shaped
  | .param name => name.kind = .identifier
  | .function _ decl => Stmt.ShapedFunction decl
  | .superclass _ parent => Expr.VariableOption (some parent)
  | .inheritance methods => Stmt.ShapedFunctions methods
  | .classBody _ methods => Stmt.ShapedFunctions methods

variable {part : Part}

theorem shapedAll_iff
    {es : List Expr} :
    Expr.ShapedAll es ↔ ∀ e ∈ es, e.Shaped := by
  induction es with
  | nil =>
      simp [Expr.ShapedAll]
  | cons e rest ih =>
      simp [Expr.ShapedAll, ih]

theorem shaped_body_iff
    {body : List Stmt} :
    Stmt.ShapedAll body ↔ ∀ s ∈ body, s.Shaped := by
  induction body with
  | nil =>
      simp [Stmt.ShapedAll]
  | cons s rest ih =>
      simp [Stmt.ShapedAll, ih]

theorem shapedFunctions_iff
    {methods : List FunctionDecl} :
    Stmt.ShapedFunctions methods ↔ ∀ decl ∈ methods, Stmt.ShapedFunction decl := by
  induction methods with
  | nil =>
      simp [Stmt.ShapedFunctions]
  | cons decl rest ih =>
      simp [Stmt.ShapedFunctions, ih]

theorem shaped_variable
    {parent : Expr}
    (h : Expr.VariableOption (some parent)) :
    ∃ id name, parent = .var id name ∧ parent.Shaped := by
  cases parent with
  | var id name =>
      exact ⟨id, name, rfl, h⟩
  | _ =>
      cases h

theorem shaped_ofOption
    {value : Option Expr}
    (h : Expr.ShapedOption value) :
    ∀ child ∈ ofOption value, child.Shaped := by
  intro child hchild
  obtain ⟨e, rfl, rfl⟩ := mem_ofOption.mp hchild
  exact h

/-- The parts of a shaped part are shaped. -/
theorem Shaped.child
    {child : Part}
    (h : part.Shaped)
    (hchild : child ∈ part.children) :
    child.Shaped := by
  cases part with
  | program statements =>
      obtain ⟨s, hs, rfl⟩ := List.mem_map.mp hchild
      exact shaped_body_iff.mp h s hs
  | expr e =>
      cases e with
      | call callee paren arguments =>
          obtain ⟨hcallee, -, harguments⟩ := h
          rcases List.mem_cons.mp hchild with rfl | hchild
          · exact hcallee
          · obtain ⟨e, he, rfl⟩ := List.mem_map.mp hchild
            exact shapedAll_iff.mp harguments e he
      | _ =>
          grind [children, Shaped, Expr.Shaped]
  | stmt s =>
      cases s with
      | var name initializer =>
          exact shaped_ofOption h.2 _ hchild
      | ret keyword value =>
          exact shaped_ofOption h.2 _ hchild
      | block body =>
          obtain ⟨s, hs, rfl⟩ := List.mem_map.mp hchild
          exact shaped_body_iff.mp h s hs
      | classDecl name superclass methods =>
          cases superclass with
          | none =>
              rw [List.mem_singleton.mp hchild]
              exact h.2.2
          | some parent =>
              simp only [children, List.mem_cons, List.not_mem_nil, or_false] at hchild
              rcases hchild with rfl | rfl
              · exact h.2.1
              · exact h.2.2
      | _ =>
          grind [children, Shaped, Stmt.Shaped]
  | param name =>
      cases hchild
  | function sort decl =>
      obtain ⟨name, params, body⟩ := decl
      obtain ⟨-, hparams, hbody⟩ := h
      rcases List.mem_append.mp hchild with hchild | hchild
      · obtain ⟨p, hp, rfl⟩ := List.mem_map.mp hchild
        exact hparams p hp
      · obtain ⟨s, hs, rfl⟩ := List.mem_map.mp hchild
        exact shaped_body_iff.mp hbody s hs
  | superclass name parent =>
      obtain ⟨-, -, -, hparent⟩ := shaped_variable h
      rw [List.mem_singleton.mp hchild]
      exact hparent
  | inheritance methods =>
      rw [List.mem_singleton.mp hchild]
      exact h
  | classBody derived methods =>
      obtain ⟨decl, hdecl, rfl⟩ := List.mem_map.mp hchild
      exact shapedFunctions_iff.mp h decl hdecl

theorem Shaped.at?
    {p : Address}
    (h : program.Shaped)
    (hpart : program.at? p = some part) :
    part.Shaped := by
  induction p generalizing program with
  | nil =>
      cases hpart
      exact h
  | cons i p ih =>
      obtain ⟨child, hchild, hpart⟩ := Option.bind_eq_some_iff.mp hpart
      exact ih (h.child (List.mem_of_getElem? hchild)) hpart

theorem declared?_of_isBranch
    {s : Stmt}
    (h : s.isBranch = true) :
    (Part.stmt s).declared? = none := by
  cases s with
  | var name initializer =>
      cases h
  | function decl =>
      cases h
  | classDecl name superclass methods =>
      cases h
  | _ =>
      rfl

/-- A declaration stands directly in a scope, or in the program. -/
theorem Shaped.parent_of_declared
    {child : Part}
    {name : Token}
    (h : part.Shaped)
    (hchild : child ∈ part.children)
    (hdeclared : child.declared? = some name) :
    part.isScope = true ∨ ∃ statements, part = .program statements := by
  revert h hchild hdeclared
  fun_cases children part <;>
    grind [mem_ofOption, declared?, declared?_of_isBranch, isScope, Shaped, Stmt.Shaped]

theorem eq_nil_of_at?_program
    {p : Address}
    {statements : List Stmt}
    (hpart : program.at? p = some (.program statements)) :
    p = [] := by
  rcases List.eq_nil_or_concat p with rfl | ⟨r, i, rfl⟩
  · rfl
  · rw [List.concat_eq_append, at?_snoc] at hpart
    obtain ⟨parent, -, hchild⟩ := Option.bind_eq_some_iff.mp hpart
    exact absurd rfl (not_program_of_child (List.mem_of_getElem? hchild) statements)

/-- A declaration stands directly in its scope. -/
theorem Shaped.eq_snoc_of_declares
    {q scope : Address}
    {name : Token}
    (h : program.Shaped)
    (hdeclares : program.Declares q name)
    (hscope : (program.scopesAround q).head? = some scope) :
    ∃ k, q = scope ++ [k] := by
  rcases List.eq_nil_or_concat q with rfl | ⟨r, k, rfl⟩
  · cases hscope
  · rw [List.concat_eq_append] at hdeclares hscope ⊢
    unfold Declares at hdeclares
    rw [at?_snoc] at hdeclares
    obtain ⟨child, hchild, hdeclared⟩ := Option.bind_eq_some_iff.mp hdeclares
    obtain ⟨parent, hparent, hchild⟩ := Option.bind_eq_some_iff.mp hchild
    rw [scopesAround, enclosing_snoc hparent] at hscope
    rcases (h.at? hparent).parent_of_declared (List.mem_of_getElem? hchild) hdeclared with
      hsort | ⟨statements, rfl⟩
    · rw [if_pos hsort] at hscope
      cases hscope
      exact ⟨k, rfl⟩
    · rw [eq_nil_of_at?_program hparent] at hscope
      cases hscope

/-- From an address to the next one, the scopes around it get at most the name that is declared at
the address: what is declared below it is in a scope of its own. -/
theorem Shaped.declaredBefore_next
    {p p' scope : Address}
    (h : program.Shaped)
    (hlt : p < p')
    (hbetween : ∀ q, q < p' → q < p ∨ ∃ t, q = p ++ t)
    (hmem : scope ∈ program.scopesAround p)
    (name : String) :
    program.DeclaredBefore scope p' name ↔
      program.DeclaredBefore scope p name ∨
        ∃ token, program.Declares p token ∧ token.lexeme = name ∧
          (program.scopesAround p).head? = some scope := by
  constructor
  · intro hbefore
    cases hbefore with
    | this hscope =>
        exact .inl (.this hscope)
    | super hscope =>
        exact .inl (.super hscope)
    | @declared q token hdeclares hscope hq =>
        rcases hbetween q hq with hq | ⟨t, rfl⟩
        · exact .inl (.declared hdeclares hscope hq)
        · obtain ⟨k, heq⟩ := h.eq_snoc_of_declares hdeclares hscope
          obtain ⟨i, r, -, hp, -, -⟩ := of_mem_enclosing hmem
          have hlength := congrArg List.length heq
          have hlength' := congrArg List.length hp
          simp only [List.length_append, List.length_cons, List.length_nil] at hlength hlength'
          obtain rfl : t = [] := List.eq_nil_of_length_eq_zero (by omega)
          rw [List.append_nil] at hdeclares hscope
          exact .inr ⟨token, hdeclares, rfl, hscope⟩
  · rintro (hbefore | ⟨token, hdeclares, rfl, hscope⟩)
    · cases hbefore with
      | this hscope =>
          exact .this hscope
      | super hscope =>
          exact .super hscope
      | declared hdeclares hscope hq =>
          exact .declared hdeclares hscope (List.lt_trans hq hlt)
    · exact .declared hdeclares hscope hlt

end Shape

section Children

variable {part : Part}
variable {p q body : Address}
variable {name : Token}
variable {superclass : Expr}
variable {methods : List FunctionDecl}

/-- The address of a child, and the scopes around it. -/
theorem exists_child
    {child : Part}
    (hpart : program.at? p = some part)
    (hchild : child ∈ part.children) :
    ∃ i, program.at? (p ++ [i]) = some child ∧
      program.scopesAround (p ++ [i]) =
        if part.isScope then p :: program.scopesAround p else program.scopesAround p := by
  obtain ⟨i, hi⟩ := List.mem_iff_getElem?.mp hchild
  refine ⟨i, ?_, enclosing_snoc hpart isScope i⟩
  rw [at?_snoc, hpart]
  exact hi

/-- The arguments of a call have the scopes around them that the call has. -/
theorem exists_argument
    {callee : Expr}
    {paren : Token}
    {arguments : List Expr}
    (hcall : program.at? p = some (.expr (.call callee paren arguments))) :
    ∀ e ∈ arguments, ∃ a, program.at? a = some (.expr e) ∧
      program.scopesAround a = program.scopesAround p := by
  intro e he
  obtain ⟨i, hchild, hscopes⟩ := exists_child hcall
    (List.mem_cons_of_mem _ (List.mem_map_of_mem he))
  exact ⟨_, hchild, hscopes⟩

theorem at?_inheritance
    (hstatement : program.at? q = some (.stmt (.classDecl name (some superclass) methods))) :
    program.at? (q ++ [1]) = some (.inheritance methods) := by
  rw [at?_snoc, hstatement]
  rfl

theorem at?_derivedBody
    (hstatement : program.at? q = some (.stmt (.classDecl name (some superclass) methods))) :
    program.at? (q ++ [1, 0]) = some (.classBody true methods) := by
  rw [at?_append, hstatement]
  rfl

/-- Around the body of a class with a superclass stands the scope of `super`. -/
theorem scopesAround_derivedBody
    (hstatement : program.at? q = some (.stmt (.classDecl name (some superclass) methods))) :
    program.scopesAround (q ++ [1, 0]) = (q ++ [1]) :: program.scopesAround q := by
  rw [show q ++ [1, 0] = (q ++ [1]) ++ [0] by simp, scopesAround,
    enclosing_snoc (at?_inheritance hstatement), enclosing_snoc hstatement]
  rfl

theorem isScope_of_isClassBody
    (h : part.isClassBody = true) :
    part.isScope = true := by
  cases part with
  | classBody derived methods =>
      rfl
  | _ =>
      cases h

/-- Between a part and the nearest class body around it there are only blocks and functions. -/
theorem scopesAround_of_classBody
    (hpart : program.at? p = some part)
    (hinside : part.isClassBody = false)
    (hbody : (program.enclosing isClassBody p).head? = some body) :
    ∃ inner, program.scopesAround p = inner ++ body :: program.scopesAround body ∧
      ∀ scope ∈ inner, ∀ derived methods, program.at? scope ≠ some (.classBody derived methods) ∧
        program.at? scope ≠ some (.inheritance methods) := by
  induction p using List.reverseRecOn generalizing part with
  | nil =>
      cases hbody
  | append_singleton p i ih =>
      rw [at?_snoc] at hpart
      obtain ⟨parent, hparent, hchild⟩ := Option.bind_eq_some_iff.mp hpart
      rw [enclosing_snoc hparent] at hbody
      rw [scopesAround, enclosing_snoc hparent]
      cases hclass : parent.isClassBody with
      | true =>
          rw [if_pos hclass] at hbody
          cases hbody
          rw [if_pos (isScope_of_isClassBody hclass)]
          exact ⟨[], rfl, by simp⟩
      | false =>
          rw [if_neg (by simp [hclass])] at hbody
          obtain ⟨inner, hinner, hplain⟩ := ih hparent hclass hbody
          by_cases hscope : parent.isScope = true
          · rw [if_pos hscope]
            refine ⟨p :: inner, congrArg (p :: ·) hinner, ?_⟩
            intro scope hmem derived methods
            rcases List.mem_cons.mp hmem with rfl | hmem
            · rw [hparent]
              constructor
              · rintro ⟨⟩
                cases hclass
              · -- The only child of an inheritance is a class body.
                rintro ⟨⟩
                rw [List.mem_singleton.mp (List.mem_of_getElem? hchild)] at hinside
                cases hinside
            · exact hplain scope hmem derived methods
          · rw [if_neg hscope]
            exact ⟨inner, hinner, hplain⟩

end Children

/-- A number that is smaller for the parts of a part. -/
noncomputable def weight : Part → Nat
  | .program statements => 3 * sizeOf statements + 1
  | .expr e => sizeOf e
  | .stmt s => 3 * sizeOf s
  | .param _ => 0
  | .function _ decl => 3 * sizeOf decl + 1
  | .superclass _ parent => sizeOf parent + 1
  | .inheritance methods => 3 * sizeOf methods + 2
  | .classBody _ methods => 3 * sizeOf methods + 1

theorem weight_child
    (part : Part) :
    ∀ child ∈ part.children, child.weight < part.weight := by
  cases part with
  | program statements =>
      simp only [children, List.forall_mem_map, weight]
      intro s hs
      have := List.sizeOf_lt_of_mem hs
      omega
  | expr e =>
      cases e with
      | call callee paren arguments =>
          simp only [children, List.forall_mem_cons, List.forall_mem_map, weight,
            Expr.call.sizeOf_spec]
          refine ⟨by omega, ?_⟩
          intro e he
          have := List.sizeOf_lt_of_mem he
          omega
      | _ =>
          simp [children, weight] <;> omega
  | stmt s =>
      cases s with
      | var name initializer =>
          cases initializer with
          | none =>
              simp [children, ofOption]
          | some e =>
              simp [children, ofOption, weight]
              omega
      | ret keyword value =>
          cases value with
          | none =>
              simp [children, ofOption]
          | some e =>
              simp [children, ofOption, weight]
              omega
      | block body =>
          simp only [children, List.forall_mem_map, weight, Stmt.block.sizeOf_spec]
          intro s hs
          have := List.sizeOf_lt_of_mem hs
          omega
      | classDecl name superclass methods =>
          cases superclass with
          | none =>
              simp [children, weight]
              omega
          | some parent =>
              simp [children, weight]
              omega
      | _ =>
          simp [children, weight]
          omega
  | param name =>
      simp [children]
  | function sort decl =>
      obtain ⟨name, params, body⟩ := decl
      simp only [children, List.forall_mem_append, List.forall_mem_map, weight,
        FunctionDecl.mk.sizeOf_spec, FunctionDecl.params, FunctionDecl.body]
      refine ⟨fun _ _ => by omega, ?_⟩
      intro s hs
      have := List.sizeOf_lt_of_mem hs
      omega
  | superclass name parent =>
      simp [children, weight]
  | inheritance methods =>
      simp [children, weight]
  | classBody derived methods =>
      simp only [children, List.forall_mem_map, weight]
      intro decl hdecl
      have := List.sizeOf_lt_of_mem hdecl
      omega

end Part

end Lox
