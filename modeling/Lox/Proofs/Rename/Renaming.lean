import Lox.Proofs.Machine.Safety

/-!
# Renaming a local variable

A declaration of a local variable or parameter can be given another name, together with all the
references that the table of local references sends to it.  On the way through the tree it counts
how many scopes out the scope of the declaration is; a reference goes there if its entry is just
that number.

`Renames` says that one tree is made from another by renaming one declaration.  `Alike` is made for
proofs: it says of two trees that they differ at most by such a renaming, given where the scope of
the renamed declaration is.
-/

namespace Lox

/-- How many scopes out the scope of the renamed declaration is, if it is open. -/
abbrev Place := Option Nat

/-- The place seen from one scope further in. -/
def Place.inner (place : Place) : Place :=
  place.map (· + 1)

/-- The place seen from the scope of `this` in a class. -/
def Place.inClass (place : Place) (hasSuperclass : Bool) : Place :=
  if hasSuperclass then place.inner.inner else place.inner

/-- A table of local references, the name that a declaration has, and the name it gets. -/
structure Renaming where
  locals : Locals
  old : String
  new : String

namespace Renaming

/-- A token under the new name. -/
def token (ρ : Renaming) (t : Token) : Token :=
  { t with lexeme := ρ.new }

/-- The name token of a reference: another one if the table sends it to the declaration. -/
def reference (ρ : Renaming) (place : Place) (id : Nat) (name : Token) : Token :=
  if name.lexeme = ρ.old ∧ place.isSome ∧ ρ.locals.get? id = place then ρ.token name else name

/-- The name token of a declared variable: another one in the scope of the declaration. -/
def declared (ρ : Renaming) (place : Place) (name : Token) : Token :=
  if name.lexeme = ρ.old ∧ place = some 0 then ρ.token name else name

end Renaming

namespace Expr

mutual

/-- An expression with the references to the declaration renamed. -/
def rename (ρ : Renaming) (place : Place) : Expr → Expr
  | .literal value => .literal value
  | .grouping inner => .grouping (rename ρ place inner)
  | .unary operator right => .unary operator (rename ρ place right)
  | .binary left operator right =>
      .binary (rename ρ place left) operator (rename ρ place right)
  | .logical left operator right =>
      .logical (rename ρ place left) operator (rename ρ place right)
  | .var id name => .var id (ρ.reference place id name)
  | .assign id name value => .assign id (ρ.reference place id name) (rename ρ place value)
  | .call callee paren arguments =>
      .call (rename ρ place callee) paren (renameAll ρ place arguments)
  | .get object name => .get (rename ρ place object) name
  | .set object name value => .set (rename ρ place object) name (rename ρ place value)
  | .this id keyword => .this id keyword
  | .super id keyword method => .super id keyword method

/-- A list of expressions with the references to the declaration renamed. -/
def renameAll (ρ : Renaming) (place : Place) : List Expr → List Expr
  | [] => []
  | e :: rest => rename ρ place e :: renameAll ρ place rest

end

/-- An expression that may be missing, renamed. -/
def renameOption (ρ : Renaming) (place : Place) : Option Expr → Option Expr
  | none => none
  | some e => some (e.rename ρ place)

end Expr

namespace Stmt

mutual

/-- A statement with the declaration and the references to it renamed. -/
def rename (ρ : Renaming) (place : Place) : Stmt → Stmt
  | .expression e => .expression (e.rename ρ place)
  | .print e => .print (e.rename ρ place)
  | .var name initializer =>
      .var (ρ.declared place name) (Expr.renameOption ρ place initializer)
  | .block body => .block (renameAll ρ place.inner body)
  | .ifThen condition thenBranch => .ifThen (condition.rename ρ place) (rename ρ place thenBranch)
  | .ifElse condition thenBranch elseBranch =>
      .ifElse (condition.rename ρ place) (rename ρ place thenBranch) (rename ρ place elseBranch)
  | .loop condition body => .loop (condition.rename ρ place) (rename ρ place body)
  | .function decl => .function (renameFunction ρ place.inner decl)
  | .ret keyword value => .ret keyword (Expr.renameOption ρ place value)
  | .classDecl name superclass methods =>
      .classDecl name (Expr.renameOption ρ place superclass)
        (renameMethods ρ (place.inClass superclass.isSome) methods)

/-- A list of statements with the declaration and the references to it renamed. -/
def renameAll (ρ : Renaming) (place : Place) : List Stmt → List Stmt
  | [] => []
  | s :: rest => rename ρ place s :: renameAll ρ place rest

/-- A function with the declaration and the references to it renamed; the place is that seen from
the scope of its parameters. -/
def renameFunction (ρ : Renaming) (place : Place) : FunctionDecl → FunctionDecl
  | .mk name params body => .mk name (params.map (ρ.declared place)) (renameAll ρ place body)

/-- Methods with the declaration and the references to it renamed. -/
def renameMethods (ρ : Renaming) (place : Place) : List FunctionDecl → List FunctionDecl
  | [] => []
  | f :: rest => renameFunction ρ place.inner f :: renameMethods ρ place rest

end

/-- A variable of the given name is declared right among the statements. -/
def DeclaresVariable (name : String) (body : List Stmt) : Prop :=
  ∃ token initializer, .var token initializer ∈ body ∧ token.lexeme = name

mutual

/-- One declaration of a variable or parameter inside a statement is renamed, and the references to
it: in the scope of a block, or of a function, or further inside. -/
inductive Renames (ρ : Renaming) : Stmt → Stmt → Prop where
  | block {body : List Stmt} (hdeclares : DeclaresVariable ρ.old body) :
      Renames ρ (.block body) (.block (renameAll ρ (some 0) body))
  | inBlock {body body' : List Stmt} (hbody : RenamesIn ρ body body') :
      Renames ρ (.block body) (.block body')
  | inThen {condition : Expr} {thenBranch thenBranch' : Stmt}
      (hthen : Renames ρ thenBranch thenBranch') :
      Renames ρ (.ifThen condition thenBranch) (.ifThen condition thenBranch')
  | inThenElse {condition : Expr} {thenBranch thenBranch' elseBranch : Stmt}
      (hthen : Renames ρ thenBranch thenBranch') :
      Renames ρ (.ifElse condition thenBranch elseBranch)
        (.ifElse condition thenBranch' elseBranch)
  | inElse {condition : Expr} {thenBranch elseBranch elseBranch' : Stmt}
      (helse : Renames ρ elseBranch elseBranch') :
      Renames ρ (.ifElse condition thenBranch elseBranch)
        (.ifElse condition thenBranch elseBranch')
  | inLoop {condition : Expr} {body body' : Stmt} (hbody : Renames ρ body body') :
      Renames ρ (.loop condition body) (.loop condition body')
  | inFunction {decl decl' : FunctionDecl} (hdecl : RenamesFunction ρ decl decl') :
      Renames ρ (.function decl) (.function decl')
  | inMethod (name : Token) (superclass : Option Expr) (before after : List FunctionDecl)
      {f f' : FunctionDecl} (hmethod : RenamesFunction ρ f f') :
      Renames ρ (.classDecl name superclass (before ++ f :: after))
        (.classDecl name superclass (before ++ f' :: after))

/-- One declaration inside one of the statements is renamed. -/
inductive RenamesIn (ρ : Renaming) : List Stmt → List Stmt → Prop where
  | mk {before after : List Stmt} {s s' : Stmt} (hstmt : Renames ρ s s') :
      RenamesIn ρ (before ++ s :: after) (before ++ s' :: after)

/-- One declaration in a function is renamed: a parameter, a variable right in its body, or one
further inside. -/
inductive RenamesFunction (ρ : Renaming) : FunctionDecl → FunctionDecl → Prop where
  | here {decl : FunctionDecl}
      (hdeclares : (∃ p ∈ decl.params, p.lexeme = ρ.old) ∨ DeclaresVariable ρ.old decl.body) :
      RenamesFunction ρ decl (renameFunction ρ (some 0) decl)
  | inBody {name : Token} {params : List Token} {body body' : List Stmt}
      (hbody : RenamesIn ρ body body') :
      RenamesFunction ρ (.mk name params body) (.mk name params body')

end

end Stmt

/-- A new scope may be that of the renamed declaration, if this is not open yet. -/
def Place.Opens (place inner : Place) : Prop :=
  inner = place.inner ∨ (place = none ∧ inner = some 0)

mutual

/-- The statements differ at most by a renaming. -/
inductive Alike (ρ : Renaming) : Place → Stmt → Stmt → Prop where
  | expression (place : Place) (e : Expr) :
      Alike ρ place (.expression e) (.expression (e.rename ρ place))
  | print (place : Place) (e : Expr) : Alike ρ place (.print e) (.print (e.rename ρ place))
  | var (place : Place) (name : Token) (initializer : Option Expr) :
      Alike ρ place (.var name initializer)
        (.var (ρ.declared place name) (Expr.renameOption ρ place initializer))
  | block {place inner : Place} {body body' : List Stmt} (hopens : place.Opens inner)
      (hbody : AlikeAll ρ inner body body') : Alike ρ place (.block body) (.block body')
  | ifThen {place : Place} (condition : Expr) {thenBranch thenBranch' : Stmt}
      (hthen : Alike ρ place thenBranch thenBranch') :
      Alike ρ place (.ifThen condition thenBranch)
        (.ifThen (condition.rename ρ place) thenBranch')
  | ifElse {place : Place} (condition : Expr) {thenBranch thenBranch' elseBranch elseBranch' : Stmt}
      (hthen : Alike ρ place thenBranch thenBranch')
      (helse : Alike ρ place elseBranch elseBranch') :
      Alike ρ place (.ifElse condition thenBranch elseBranch)
        (.ifElse (condition.rename ρ place) thenBranch' elseBranch')
  | loop {place : Place} (condition : Expr) {body body' : Stmt}
      (hbody : Alike ρ place body body') :
      Alike ρ place (.loop condition body) (.loop (condition.rename ρ place) body')
  | function {place inner : Place} {decl decl' : FunctionDecl}
      (hname : place = some 0 → decl.name.lexeme ≠ ρ.old) (hopens : place.Opens inner)
      (hdecl : AlikeFunction ρ inner decl decl') :
      Alike ρ place (.function decl) (.function decl')
  | ret (place : Place) (keyword : Token) (value : Option Expr) :
      Alike ρ place (.ret keyword value) (.ret keyword (Expr.renameOption ρ place value))
  | classDecl {place : Place} {name : Token} (superclass : Option Expr)
      {methods methods' : List FunctionDecl} (hname : place = some 0 → name.lexeme ≠ ρ.old)
      (hmethods : AlikeMethods ρ (place.inClass superclass.isSome) methods methods') :
      Alike ρ place (.classDecl name superclass methods)
        (.classDecl name (Expr.renameOption ρ place superclass) methods')

/-- The lists of statements differ at most by a renaming. -/
inductive AlikeAll (ρ : Renaming) : Place → List Stmt → List Stmt → Prop where
  | nil (place : Place) : AlikeAll ρ place [] []
  | cons {place : Place} {s s' : Stmt} {rest rest' : List Stmt} (hfirst : Alike ρ place s s')
      (hrest : AlikeAll ρ place rest rest') : AlikeAll ρ place (s :: rest) (s' :: rest')

/-- The functions differ at most by a renaming; the place is that seen from the scope of the
parameters. -/
inductive AlikeFunction (ρ : Renaming) : Place → FunctionDecl → FunctionDecl → Prop where
  | mk {place : Place} (name : Token) (params : List Token) {body body' : List Stmt}
      (hbody : AlikeAll ρ place body body') :
      AlikeFunction ρ place (.mk name params body)
        (.mk name (params.map (ρ.declared place)) body')

/-- The methods differ at most by a renaming; the place is that seen from the scope of `this`. -/
inductive AlikeMethods (ρ : Renaming) : Place → List FunctionDecl → List FunctionDecl → Prop where
  | nil (place : Place) : AlikeMethods ρ place [] []
  | cons {place inner : Place} {f f' : FunctionDecl} {rest rest' : List FunctionDecl}
      (hopens : place.Opens inner) (hfirst : AlikeFunction ρ inner f f')
      (hrest : AlikeMethods ρ place rest rest') :
      AlikeMethods ρ place (f :: rest) (f' :: rest')

end

namespace Place

theorem inner_ne_zero (place : Place) : place.inner ≠ some 0 := by
  cases place <;> simp [inner]

theorem inClass_none (hasSuperclass : Bool) : inClass none hasSuperclass = none := by
  cases hasSuperclass <;> rfl

end Place

section Unchanged

variable (ρ : Renaming)

theorem Renaming.reference_none (id : Nat) (name : Token) : ρ.reference none id name = name := by
  simp [reference]

theorem Renaming.declared_of_ne
    {place : Place}
    (h : place ≠ some 0)
    (name : Token) :
    ρ.declared place name = name := by
  simp [declared, h]

theorem Renaming.map_declared_none (params : List Token) :
    params.map (ρ.declared none) = params := by
  have hid : ρ.declared none = id := by
    funext name
    exact ρ.declared_of_ne (by simp) name
  rw [hid, List.map_id]

mutual

/-- Where the scope of the declaration is not open, nothing is renamed. -/
theorem rename_none :
    ∀ e : Expr, e.rename ρ none = e
  | .literal _ => rfl
  | .grouping inner => by
      simp only [Expr.rename, rename_none inner]
  | .unary _ right => by
      simp only [Expr.rename, rename_none right]
  | .binary left _ right => by
      simp only [Expr.rename, rename_none left, rename_none right]
  | .logical left _ right => by
      simp only [Expr.rename, rename_none left, rename_none right]
  | .var id name => by
      simp only [Expr.rename, ρ.reference_none]
  | .assign id name value => by
      simp only [Expr.rename, ρ.reference_none, rename_none value]
  | .call callee _ arguments => by
      simp only [Expr.rename, rename_none callee, renameAll_none arguments]
  | .get object _ => by
      simp only [Expr.rename, rename_none object]
  | .set object _ value => by
      simp only [Expr.rename, rename_none object, rename_none value]
  | .this _ _ => rfl
  | .super _ _ _ => rfl

theorem renameAll_none :
    ∀ es : List Expr, Expr.renameAll ρ none es = es
  | [] => rfl
  | e :: rest => by
      simp only [Expr.renameAll, rename_none e, renameAll_none rest]

end

theorem renameOption_none (value : Option Expr) : Expr.renameOption ρ none value = value := by
  cases value with
  | none =>
      rfl
  | some e =>
      simp only [Expr.renameOption, rename_none]

mutual

/-- A statement is alike to itself. -/
theorem alike_self :
    ∀ s : Stmt, Alike ρ none s s
  | .expression e => by
      simpa only [rename_none] using Alike.expression none e
  | .print e => by
      simpa only [rename_none] using Alike.print none e
  | .var name initializer => by
      simpa only [renameOption_none, ρ.declared_of_ne (by simp : none ≠ some 0)] using
        Alike.var (ρ := ρ) none name initializer
  | .block body => .block (.inl rfl) (alike_selfAll body)
  | .ifThen condition thenBranch => by
      simpa only [rename_none] using Alike.ifThen condition (alike_self thenBranch)
  | .ifElse condition thenBranch elseBranch => by
      simpa only [rename_none] using
        Alike.ifElse condition (alike_self thenBranch) (alike_self elseBranch)
  | .loop condition body => by
      simpa only [rename_none] using Alike.loop condition (alike_self body)
  | .function decl => .function (by simp) (.inl rfl) (alike_selfFunction decl)
  | .ret keyword value => by
      simpa only [renameOption_none] using Alike.ret none keyword value
  | .classDecl name superclass methods => by
      have hmethods : AlikeMethods ρ (Place.inClass none superclass.isSome) methods methods := by
        rw [Place.inClass_none]
        exact alike_selfMethods methods
      simpa only [renameOption_none] using Alike.classDecl superclass (by simp) hmethods

theorem alike_selfAll :
    ∀ body : List Stmt, AlikeAll ρ none body body
  | [] => .nil none
  | s :: rest => .cons (alike_self s) (alike_selfAll rest)

theorem alike_selfFunction :
    ∀ decl : FunctionDecl, AlikeFunction ρ none decl decl
  | .mk name params body => by
      simpa only [ρ.map_declared_none] using
        AlikeFunction.mk name params (alike_selfAll body)

theorem alike_selfMethods :
    ∀ methods : List FunctionDecl, AlikeMethods ρ none methods methods
  | [] => .nil none
  | f :: rest => .cons (.inl rfl) (alike_selfFunction f) (alike_selfMethods rest)

end

end Unchanged

/-- The statement declares no function and no class of the given name, unless further inside. -/
def Stmt.Spares (name : String) : Stmt → Prop
  | .function decl => decl.name.lexeme ≠ name
  | .classDecl token _ _ => token.lexeme ≠ name
  | .ifThen _ thenBranch => thenBranch.Spares name
  | .ifElse _ thenBranch elseBranch => thenBranch.Spares name ∧ elseBranch.Spares name
  | .loop _ body => body.Spares name
  | _ => True

section Renamed

variable (ρ : Renaming)

mutual

/-- A renamed statement is alike to the old one, if the name is not that of a function or class. -/
theorem alike_rename
    (place : Place) :
    ∀ s : Stmt, (place = some 0 → s.Spares ρ.old) → Alike ρ place s (s.rename ρ place)
  | .expression e, _ => .expression place e
  | .print e, _ => .print place e
  | .var name initializer, _ => .var place name initializer
  | .block body, _ =>
      .block (.inl rfl)
        (alike_renameAll place.inner body fun h => absurd h place.inner_ne_zero)
  | .ifThen condition thenBranch, h => .ifThen condition (alike_rename place thenBranch h)
  | .ifElse condition thenBranch elseBranch, h =>
      .ifElse condition (alike_rename place thenBranch fun hplace => (h hplace).1)
        (alike_rename place elseBranch fun hplace => (h hplace).2)
  | .loop condition body, h => .loop condition (alike_rename place body h)
  | .function decl, h =>
      .function h (.inl rfl)
        (alike_renameFunction place.inner decl fun h => absurd h place.inner_ne_zero)
  | .ret keyword value, _ => .ret place keyword value
  | .classDecl _ superclass methods, h =>
      .classDecl superclass h (alike_renameMethods (place.inClass superclass.isSome) methods)

theorem alike_renameAll
    (place : Place) :
    ∀ body : List Stmt, (place = some 0 → ∀ s ∈ body, s.Spares ρ.old) →
      AlikeAll ρ place body (Stmt.renameAll ρ place body)
  | [], _ => .nil place
  | s :: rest, h =>
      .cons (alike_rename place s fun hplace => h hplace s List.mem_cons_self)
        (alike_renameAll place rest
          fun hplace s' hs' => h hplace s' (List.mem_cons_of_mem _ hs'))

theorem alike_renameFunction
    (place : Place) :
    ∀ decl : FunctionDecl, (place = some 0 → ∀ s ∈ decl.body, s.Spares ρ.old) →
      AlikeFunction ρ place decl (Stmt.renameFunction ρ place decl)
  | .mk name params body, h => .mk name params (alike_renameAll place body h)

theorem alike_renameMethods
    (place : Place) :
    ∀ methods : List FunctionDecl,
      AlikeMethods ρ place methods (Stmt.renameMethods ρ place methods)
  | [] => .nil place
  | f :: rest =>
      .cons (.inl rfl)
        (alike_renameFunction place.inner f fun h => absurd h place.inner_ne_zero)
        (alike_renameMethods place rest)

end

end Renamed

end Lox
