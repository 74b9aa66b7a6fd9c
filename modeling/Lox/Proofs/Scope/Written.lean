import Lox.Proofs.Grammar.WellFormed
import Lox.Proofs.Scope.Placed
import Lox.Proofs.Scope.Position
import Lox.Session

/-!
# Names that programs write

No program declares or assigns a name that reads `this` or `super`: such a name is an identifier of
the source, and the scanner makes keywords of the two words.  This holds of everything that can be
read, whatever else is wrong with it.
-/

namespace Lox

namespace Part

/-- The name that a part binds to a value when it is run. -/
def written? : Part → Option Token
  | .expr (.assign _ name _) => some name
  | part => part.declared?

theorem written?_of_declared?
    {part : Part}
    {name : Token}
    (h : part.declared? = some name) :
    part.written? = some name := by
  unfold written?
  split
  · cases h
  · exact h

/-- No name that is written in a program is `this` or `super`. -/
def Named (program : Part) : Prop :=
  ∀ ⦃p part name⦄, program.at? p = some part → part.written? = some name → Ordinary name.lexeme

/-- The tokens that a part keeps. -/
def tokens : Part → List Token
  | .program statements => Stmt.tokensAll statements
  | .expr e => e.tokens
  | .stmt s => s.tokens
  | .param name => [name]
  | .function _ decl => Stmt.tokensFunction decl
  | .superclass _ parent => parent.tokens
  | .inheritance methods => Stmt.tokensFunctions methods
  | .classBody _ methods => Stmt.tokensFunctions methods

theorem tokens_of_mem_exprs
    {es : List Expr}
    {e : Expr}
    (h : e ∈ es) :
    e.tokens ⊆ Expr.tokensAll es := by
  induction es with
  | nil =>
      cases h
  | cons first rest ih =>
      rcases List.mem_cons.mp h with rfl | h
      · exact List.subset_append_left _ _
      · exact List.subset_append_of_subset_right _ (ih h)

theorem tokens_of_mem_body
    {body : List Stmt}
    {s : Stmt}
    (h : s ∈ body) :
    s.tokens ⊆ Stmt.tokensAll body := by
  induction body with
  | nil =>
      cases h
  | cons first rest ih =>
      rcases List.mem_cons.mp h with rfl | h
      · exact List.subset_append_left _ _
      · exact List.subset_append_of_subset_right _ (ih h)

theorem tokens_of_mem_methods
    {methods : List FunctionDecl}
    {decl : FunctionDecl}
    (h : decl ∈ methods) :
    Stmt.tokensFunction decl ⊆ Stmt.tokensFunctions methods := by
  induction methods with
  | nil =>
      cases h
  | cons first rest ih =>
      rcases List.mem_cons.mp h with rfl | h
      · exact List.subset_append_left _ _
      · exact List.subset_append_of_subset_right _ (ih h)

/-- A part keeps the tokens of its children. -/
theorem tokens_child
    {part child : Part}
    (hchild : child ∈ part.children) :
    child.tokens ⊆ part.tokens := by
  cases part with
  | program statements =>
      obtain ⟨s, hs, rfl⟩ := List.mem_map.mp hchild
      exact tokens_of_mem_body hs
  | expr e =>
      cases e with
      | call callee paren arguments =>
          rcases List.mem_cons.mp hchild with rfl | hchild
          · exact List.subset_append_left _ _
          · obtain ⟨e, he, rfl⟩ := List.mem_map.mp hchild
            exact List.subset_append_of_subset_right _
              (List.subset_append_of_subset_left _ (tokens_of_mem_exprs he))
      | _ =>
          grind [children, tokens, Expr.tokens]
  | stmt s =>
      cases s with
      | var name initializer =>
          obtain ⟨e, rfl, rfl⟩ := mem_ofOption.mp hchild
          exact List.subset_cons_self _ _
      | ret keyword value =>
          obtain ⟨e, rfl, rfl⟩ := mem_ofOption.mp hchild
          exact List.subset_cons_self _ _
      | block body =>
          obtain ⟨s, hs, rfl⟩ := List.mem_map.mp hchild
          exact tokens_of_mem_body hs
      | classDecl name superclass methods =>
          cases superclass <;> grind [children, tokens, Stmt.tokens, Expr.tokensOption]
      | _ =>
          grind [children, tokens, Stmt.tokens]
  | param name =>
      cases hchild
  | function sort decl =>
      obtain ⟨name, params, body⟩ := decl
      rcases List.mem_append.mp hchild with hchild | hchild
      · obtain ⟨p, hp, rfl⟩ := List.mem_map.mp hchild
        intro t ht
        rw [List.mem_singleton.mp ht]
        exact List.mem_cons_of_mem _ (List.mem_append_left _ hp)
      · obtain ⟨s, hs, rfl⟩ := List.mem_map.mp hchild
        exact List.subset_cons_of_subset _
          (List.subset_append_of_subset_right _ (tokens_of_mem_body hs))
  | superclass name parent =>
      rw [List.mem_singleton.mp hchild]
      exact List.Subset.refl _
  | inheritance methods =>
      rw [List.mem_singleton.mp hchild]
      exact List.Subset.refl _
  | classBody derived methods =>
      obtain ⟨decl, hdecl, rfl⟩ := List.mem_map.mp hchild
      exact tokens_of_mem_methods hdecl

theorem tokens_at?
    {program part : Part}
    {p : Address}
    (hpart : program.at? p = some part) :
    part.tokens ⊆ program.tokens := by
  induction p generalizing program with
  | nil =>
      cases hpart
      exact List.Subset.refl _
  | cons i p ih =>
      obtain ⟨child, hchild, hpart⟩ := Option.bind_eq_some_iff.mp hpart
      exact List.Subset.trans (ih hpart) (tokens_child (List.mem_of_getElem? hchild))

/-- A written name is an identifier that the part keeps. -/
theorem Shaped.written
    {part : Part}
    {name : Token}
    (h : part.Shaped)
    (hwritten : part.written? = some name) :
    name.kind = .identifier ∧ name ∈ part.tokens := by
  unfold written? at hwritten
  split at hwritten
  · cases hwritten
    exact ⟨h.1, List.mem_cons_self⟩
  · unfold declared? at hwritten
    split at hwritten
    · cases hwritten
      exact ⟨h.1, List.mem_cons_self⟩
    · rename_i decl _
      obtain ⟨name', params, body⟩ := decl
      cases hwritten
      exact ⟨h.1, List.mem_cons_self⟩
    · cases hwritten
      exact ⟨h.1, List.mem_cons_self⟩
    · cases hwritten
      exact ⟨h, List.mem_cons_self⟩
    · cases hwritten

/-- A program whose tokens come from a source writes no `this` or `super`. -/
theorem named_of_worded
    {program : Part}
    (hshaped : program.Shaped)
    (hworded : ∀ t ∈ program.tokens, t.Worded) :
    program.Named := by
  intro p part name hpart hwritten
  obtain ⟨hkind, htoken⟩ := (hshaped.at? hpart).written hwritten
  exact ordinary_of_identifier hkind (hworded name (tokens_at? hpart htoken))

/-- Only class bodies and what is around them have the names `this` and `super`. -/
theorem DeclaredBefore.keyword
    {program : Part}
    {scope p : Address}
    {name : String}
    (h : program.DeclaredBefore scope p name)
    (hnamed : program.Named)
    (hname : ¬ Ordinary name) :
    (name = "this" ∧ ∃ derived methods, program.at? scope = some (.classBody derived methods)) ∨
      (name = "super" ∧ ∃ methods, program.at? scope = some (.inheritance methods)) := by
  cases h with
  | this hscope =>
      exact .inl ⟨rfl, _, _, hscope⟩
  | super hscope =>
      exact .inr ⟨rfl, _, hscope⟩
  | declared hdeclares =>
      obtain ⟨part, hpart, hdeclared⟩ := Option.bind_eq_some_iff.mp hdeclares
      exact absurd (hnamed hpart (written?_of_declared? hdeclared)) hname

end Part

/-- What is read of a source writes no `this` or `super`. -/
theorem Scan.readProgram_named
    (source : String) :
    (Part.program (Grammar.readProgram (ofSource source).tokens (ofSource source).endLine).result
      ).Named := by
  have hfits := Grammar.readProgram_fits (ofSource source).tokens (ofSource source).endLine
  exact Part.named_of_worded hfits.shaped fun t ht => tokens_worded source t (hfits.kept t ht)

end Lox
