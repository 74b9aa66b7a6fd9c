import Lox.Proofs.Grammar.Shape
import Lox.Proofs.Scope.Scopes
import Lox.Proofs.Token.Words

/-!
# Visits of well-formed trees

In a tree of the right shape whose tokens read like what they are, every visit of name resolution
comes to a node of the right shape, with scopes as `Scopes` describes them.
-/

namespace Lox

namespace Node

/-- Shape of a node. -/
def Shaped : Node → Prop
  | .expr e => e.Shaped
  | .stmt s => s.Shaped
  | .function decl => Stmt.ShapedFunction decl

/-- The tokens that a node keeps. -/
def tokens : Node → List Token
  | .expr e => e.tokens
  | .stmt s => s.tokens
  | .function decl => Stmt.tokensFunction decl

/-- Whether a node is `this` or `super`. -/
def isSelf : Node → Bool
  | .expr (.this _ _) => true
  | .expr (.super _ _ _) => true
  | _ => false

end Node

/-- What a visit of a shaped tree looks like whose tokens all have a property. -/
structure Visit.Placed (q : Token → Prop) (v : Visit) : Prop where
  shaped : v.node.Shaped
  kept : ∀ t ∈ v.node.tokens, q t
  tidy : v.scopes.Tidy
  inClass : v.node.isSelf = true → v.scopes.InClass v.ctx.cls

section Placed

variable {q : Token → Prop}
variable {ctx : Context}
variable {scopes : Scopes}

theorem ordinary_of_identifier
    {t : Token}
    (hkind : t.kind = .identifier)
    (hworded : t.Worded) :
    Ordinary t.lexeme := by
  unfold Token.Worded at hworded
  rw [hkind] at hworded
  exact ⟨hworded .this, hworded .super⟩

theorem lexeme_of_keyword
    {t : Token}
    {k : Keyword}
    (hkind : t.kind = .keyword k)
    (hworded : t.Worded) :
    t.lexeme = k.spelling := by
  unfold Token.Worded at hworded
  rw [hkind] at hworded
  exact hworded

/-- The visit of the expression itself, given those of its parts. -/
theorem placed_append
    {front : List Visit}
    {e : Expr}
    (hfront : ∀ v ∈ front, v.Placed q)
    (hself : Visit.Placed q ⟨ctx, scopes, .expr e⟩) :
    ∀ v ∈ front ++ [⟨ctx, scopes, .expr e⟩], v.Placed q := by
  intro v hv
  rcases List.mem_append.mp hv with hv | hv
  · exact hfront v hv
  · rw [List.mem_singleton.mp hv]
    exact hself

theorem placed_append_append
    {first second : List Visit}
    {e : Expr}
    (hfirst : ∀ v ∈ first, v.Placed q)
    (hsecond : ∀ v ∈ second, v.Placed q)
    (hself : Visit.Placed q ⟨ctx, scopes, .expr e⟩) :
    ∀ v ∈ first ++ (second ++ [⟨ctx, scopes, .expr e⟩]), v.Placed q := by
  intro v hv
  rcases List.mem_append.mp hv with hv | hv
  · exact hfirst v hv
  · exact placed_append hsecond hself v hv

mutual

theorem placed_expr
    (htidy : scopes.Tidy)
    (hclass : scopes.InClass ctx.cls) :
    ∀ e : Expr, e.Shaped → (∀ t ∈ e.tokens, q t) → ∀ v ∈ e.visits ctx scopes, v.Placed q
  | .literal value, hshaped, hkept => by
      intro v hv
      rw [List.mem_singleton.mp hv]
      exact ⟨hshaped, hkept, htidy, fun _ => hclass⟩
  | .grouping inner, hshaped, hkept =>
      placed_append (placed_expr htidy hclass inner hshaped hkept)
        ⟨hshaped, hkept, htidy, fun _ => hclass⟩
  | .unary operator right, hshaped, hkept =>
      placed_append
        (placed_expr htidy hclass right hshaped.2
          fun t ht => hkept t (List.mem_cons_of_mem _ ht))
        ⟨hshaped, hkept, htidy, fun _ => hclass⟩
  | .binary left operator right, hshaped, hkept =>
      placed_append_append
        (placed_expr htidy hclass left hshaped.1
          fun t ht => hkept t (List.mem_append_left _ ht))
        (placed_expr htidy hclass right hshaped.2.2
          fun t ht => hkept t (List.mem_append_right _ (List.mem_cons_of_mem _ ht)))
        ⟨hshaped, hkept, htidy, fun _ => hclass⟩
  | .logical left operator right, hshaped, hkept =>
      placed_append_append
        (placed_expr htidy hclass left hshaped.1
          fun t ht => hkept t (List.mem_append_left _ ht))
        (placed_expr htidy hclass right hshaped.2.2
          fun t ht => hkept t (List.mem_append_right _ (List.mem_cons_of_mem _ ht)))
        ⟨hshaped, hkept, htidy, fun _ => hclass⟩
  | .var id name, hshaped, hkept => by
      intro v hv
      rw [List.mem_singleton.mp hv]
      exact ⟨hshaped, hkept, htidy, fun _ => hclass⟩
  | .assign id name value, hshaped, hkept =>
      placed_append
        (placed_expr htidy hclass value hshaped.2
          fun t ht => hkept t (List.mem_cons_of_mem _ ht))
        ⟨hshaped, hkept, htidy, fun _ => hclass⟩
  | .call callee paren arguments, hshaped, hkept =>
      placed_append_append
        (placed_expr htidy hclass callee hshaped.1
          fun t ht => hkept t (List.mem_append_left _ ht))
        (placed_exprs htidy hclass arguments hshaped.2.2
          fun t ht => hkept t (List.mem_append_right _ (List.mem_append_left _ ht)))
        ⟨hshaped, hkept, htidy, fun _ => hclass⟩
  | .get object name, hshaped, hkept =>
      placed_append
        (placed_expr htidy hclass object hshaped.1
          fun t ht => hkept t (List.mem_append_left _ ht))
        ⟨hshaped, hkept, htidy, fun _ => hclass⟩
  | .set object name value, hshaped, hkept =>
      placed_append_append
        (placed_expr htidy hclass value hshaped.2.2
          fun t ht => hkept t (List.mem_append_right _ (List.mem_cons_of_mem _ ht)))
        (placed_expr htidy hclass object hshaped.1
          fun t ht => hkept t (List.mem_append_left _ ht))
        ⟨hshaped, hkept, htidy, fun _ => hclass⟩
  | .this id keyword, hshaped, hkept => by
      intro v hv
      rw [List.mem_singleton.mp hv]
      exact ⟨hshaped, hkept, htidy, fun _ => hclass⟩
  | .super id keyword method, hshaped, hkept => by
      intro v hv
      rw [List.mem_singleton.mp hv]
      exact ⟨hshaped, hkept, htidy, fun _ => hclass⟩

theorem placed_exprs
    (htidy : scopes.Tidy)
    (hclass : scopes.InClass ctx.cls) :
    ∀ es : List Expr, Expr.ShapedAll es → (∀ t ∈ Expr.tokensAll es, q t) →
      ∀ v ∈ Expr.visitsAll ctx scopes es, v.Placed q
  | [], _, _ => by
      simp [Expr.visitsAll]
  | e :: rest, hshaped, hkept => by
      intro v hv
      rcases List.mem_append.mp hv with hv | hv
      · exact placed_expr htidy hclass e hshaped.1
          (fun t ht => hkept t (List.mem_append_left _ ht)) v hv
      · exact placed_exprs htidy hclass rest hshaped.2
          (fun t ht => hkept t (List.mem_append_right _ ht)) v hv

end

theorem placed_option
    (htidy : scopes.Tidy)
    (hclass : scopes.InClass ctx.cls)
    {value : Option Expr}
    (hshaped : Expr.ShapedOption value)
    (hkept : ∀ t ∈ Expr.tokensOption value, q t) :
    ∀ v ∈ Expr.visitsOption ctx scopes value, v.Placed q := by
  cases value with
  | none =>
      simp [Expr.visitsOption]
  | some e =>
      exact placed_expr htidy hclass e hshaped hkept

/-- What holds of the scopes around statements. -/
structure Scopes.Open (scopes : Scopes) (ctx : Context) : Prop where
  settled : scopes.Settled
  inClass : scopes.InClass ctx.cls

namespace Scopes.Open

theorem push
    (h : scopes.Open ctx) :
    Scopes.Open ([] :: scopes) ctx where
  settled := Scopes.settled_push h.settled
  inClass := h.inClass.push

theorem declare_define
    (h : scopes.Open ctx)
    {name : Token}
    (hname : Ordinary name.lexeme) :
    Scopes.Open ((scopes.declare name).define name) ctx where
  settled := h.settled.declare_define name
  inClass := (h.inClass.add hname false).add hname true

theorem declareParams
    (h : scopes.Open ctx)
    {params : List Token}
    (hparams : ∀ p ∈ params, Ordinary p.lexeme) :
    Scopes.Open (scopes.declareParams params) ctx where
  settled := h.settled.declareParams params
  inClass := h.inClass.declareParams hparams

theorem inFunction
    (h : scopes.Open ctx)
    (sort : FunctionContext) :
    scopes.Open (ctx.inFunction sort) where
  settled := h.settled
  inClass := h.inClass

end Scopes.Open

/-- The visit of the statement itself, given those of its parts. -/
theorem placed_cons
    {others : List Visit}
    {node : Node}
    (hself : Visit.Placed q ⟨ctx, scopes, node⟩)
    (hothers : ∀ v ∈ others, v.Placed q) :
    ∀ v ∈ (⟨ctx, scopes, node⟩ : Visit) :: others, v.Placed q := by
  intro v hv
  rcases List.mem_cons.mp hv with rfl | hv
  · exact hself
  · exact hothers v hv

theorem placed_both
    {first second : List Visit}
    (hfirst : ∀ v ∈ first, v.Placed q)
    (hsecond : ∀ v ∈ second, v.Placed q) :
    ∀ v ∈ first ++ second, v.Placed q := by
  intro v hv
  rcases List.mem_append.mp hv with hv | hv
  · exact hfirst v hv
  · exact hsecond v hv

theorem placed_superclass
    {superclass : Expr}
    (htidy : scopes.Tidy)
    (hshaped : Expr.VariableOption (some superclass))
    (hkept : ∀ t ∈ superclass.tokens, q t) :
    ∀ v ∈ superclass.visits ctx scopes, v.Placed q := by
  cases superclass with
  | var id name =>
      intro v hv
      rw [List.mem_singleton.mp hv]
      exact ⟨hshaped, hkept, htidy, by simp [Node.isSelf]⟩
  | _ =>
      exact hshaped.elim

mutual

/-- All visits of a statement are placed, and behind it the scopes are open as before. -/
theorem placed_stmt
    (hq : ∀ t, q t → t.Worded)
    {ctx : Context}
    {scopes : Scopes}
    (hopen : scopes.Open ctx) :
    ∀ s : Stmt, s.Shaped → (∀ t ∈ s.tokens, q t) →
      (∀ v ∈ s.visits ctx scopes, v.Placed q) ∧ (s.resolve ctx scopes).1.Open ctx
  | .expression e, hshaped, hkept =>
      ⟨placed_cons ⟨hshaped, hkept, hopen.settled.tidy, fun _ => hopen.inClass⟩
        (placed_expr hopen.settled.tidy hopen.inClass e hshaped hkept), hopen⟩
  | .print e, hshaped, hkept =>
      ⟨placed_cons ⟨hshaped, hkept, hopen.settled.tidy, fun _ => hopen.inClass⟩
        (placed_expr hopen.settled.tidy hopen.inClass e hshaped hkept), hopen⟩
  | .var name initializer, hshaped, hkept => by
      have hname := ordinary_of_identifier hshaped.1 (hq name (hkept name List.mem_cons_self))
      refine ⟨placed_cons ⟨hshaped, hkept, hopen.settled.tidy, fun _ => hopen.inClass⟩ ?_,
        hopen.declare_define hname⟩
      exact placed_option (hopen.settled.tidy_declare hname) (hopen.inClass.add hname false)
        hshaped.2 fun t ht => hkept t (List.mem_cons_of_mem _ ht)
  | .block body, hshaped, hkept =>
      ⟨placed_cons ⟨hshaped, hkept, hopen.settled.tidy, fun _ => hopen.inClass⟩
        (placed_body hq hopen.push body hshaped hkept), hopen⟩
  | .ifThen condition thenBranch, hshaped, hkept => by
      obtain ⟨hplaced, hafter⟩ := placed_stmt hq hopen thenBranch hshaped.2.2
        fun t ht => hkept t (List.mem_append_right _ ht)
      refine ⟨placed_cons ⟨hshaped, hkept, hopen.settled.tidy, fun _ => hopen.inClass⟩
        (placed_both ?_ hplaced), hafter⟩
      exact placed_expr hopen.settled.tidy hopen.inClass condition hshaped.1
        fun t ht => hkept t (List.mem_append_left _ ht)
  | .ifElse condition thenBranch elseBranch, hshaped, hkept => by
      obtain ⟨hplaced, hafter⟩ := placed_stmt hq hopen thenBranch hshaped.2.2.1
        fun t ht => hkept t (List.mem_append_right _ (List.mem_append_left _ ht))
      obtain ⟨hplaced', hafter'⟩ := placed_stmt hq hafter elseBranch hshaped.2.2.2.2
        fun t ht => hkept t (List.mem_append_right _ (List.mem_append_right _ ht))
      refine ⟨placed_cons ⟨hshaped, hkept, hopen.settled.tidy, fun _ => hopen.inClass⟩
        (placed_both ?_ (placed_both hplaced hplaced')), hafter'⟩
      exact placed_expr hopen.settled.tidy hopen.inClass condition hshaped.1
        fun t ht => hkept t (List.mem_append_left _ ht)
  | .loop condition body, hshaped, hkept => by
      obtain ⟨hplaced, hafter⟩ := placed_stmt hq hopen body hshaped.2.2
        fun t ht => hkept t (List.mem_append_right _ ht)
      refine ⟨placed_cons ⟨hshaped, hkept, hopen.settled.tidy, fun _ => hopen.inClass⟩
        (placed_both ?_ hplaced), hafter⟩
      exact placed_expr hopen.settled.tidy hopen.inClass condition hshaped.1
        fun t ht => hkept t (List.mem_append_left _ ht)
  | .function decl, hshaped, hkept => by
      have hname : Ordinary decl.name.lexeme := by
        obtain ⟨name, params, body⟩ := decl
        exact ordinary_of_identifier hshaped.1 (hq name (hkept name List.mem_cons_self))
      refine ⟨placed_cons ⟨hshaped, hkept, hopen.settled.tidy, fun _ => hopen.inClass⟩ ?_,
        hopen.declare_define hname⟩
      exact placed_function hq ((hopen.declare_define hname).inFunction _) decl hshaped hkept
  | .ret keyword value, hshaped, hkept =>
      ⟨placed_cons ⟨hshaped, hkept, hopen.settled.tidy, fun _ => hopen.inClass⟩
        (placed_option hopen.settled.tidy hopen.inClass hshaped.2
          fun t ht => hkept t (List.mem_cons_of_mem _ ht)), hopen⟩
  | .classDecl name none methods, hshaped, hkept => by
      have hname := ordinary_of_identifier hshaped.1 (hq name (hkept name List.mem_cons_self))
      have hinner := hopen.declare_define hname
      refine ⟨placed_cons ⟨hshaped, hkept, hopen.settled.tidy, fun _ => hopen.inClass⟩ ?_,
        hinner⟩
      exact placed_methods hq
        ⟨hinner.settled.methodScopes false, Scopes.inClass_methodScopes_plain _⟩ methods
        hshaped.2.2 fun t ht => hkept t (List.mem_cons_of_mem _ (List.mem_append_right _ ht))
  | .classDecl name (some superclass) methods, hshaped, hkept => by
      have hname := ordinary_of_identifier hshaped.1 (hq name (hkept name List.mem_cons_self))
      have hinner := hopen.declare_define hname
      refine ⟨placed_cons ⟨hshaped, hkept, hopen.settled.tidy, fun _ => hopen.inClass⟩
        (placed_both ?_ ?_), hinner⟩
      · exact placed_superclass hinner.settled.tidy hshaped.2.1
          fun t ht => hkept t (List.mem_cons_of_mem _ (List.mem_append_left _ ht))
      · exact placed_methods hq
          ⟨hinner.settled.methodScopes true, Scopes.inClass_methodScopes_derived _⟩ methods
          hshaped.2.2 fun t ht => hkept t (List.mem_cons_of_mem _ (List.mem_append_right _ ht))

theorem placed_body
    (hq : ∀ t, q t → t.Worded)
    {ctx : Context}
    {scopes : Scopes}
    (hopen : scopes.Open ctx) :
    ∀ body : List Stmt, Stmt.ShapedAll body → (∀ t ∈ Stmt.tokensAll body, q t) →
      ∀ v ∈ Stmt.visitsAll ctx scopes body, v.Placed q
  | [], _, _ => by
      simp [Stmt.visitsAll]
  | s :: rest, hshaped, hkept => by
      obtain ⟨hplaced, hafter⟩ := placed_stmt hq hopen s hshaped.1
        fun t ht => hkept t (List.mem_append_left _ ht)
      exact placed_both hplaced (placed_body hq hafter rest hshaped.2
        fun t ht => hkept t (List.mem_append_right _ ht))

theorem placed_function
    (hq : ∀ t, q t → t.Worded)
    {ctx : Context}
    {scopes : Scopes}
    (hopen : scopes.Open ctx) :
    ∀ decl : FunctionDecl, Stmt.ShapedFunction decl →
      (∀ t ∈ Stmt.tokensFunction decl, q t) →
      ∀ v ∈ Stmt.visitsFunction ctx scopes decl, v.Placed q
  | .mk name params body, hshaped, hkept => by
      have hparams : ∀ p ∈ params, Ordinary p.lexeme := fun p hp =>
        ordinary_of_identifier (hshaped.2.1 p hp)
          (hq p (hkept p (List.mem_cons_of_mem _ (List.mem_append_left _ hp))))
      refine placed_cons ⟨hshaped, hkept, hopen.settled.tidy, fun _ => hopen.inClass⟩ ?_
      exact placed_body hq (hopen.push.declareParams hparams) body hshaped.2.2
        fun t ht => hkept t (List.mem_cons_of_mem _ (List.mem_append_right _ ht))

theorem placed_methods
    (hq : ∀ t, q t → t.Worded)
    {ctx : Context}
    {scopes : Scopes}
    (hopen : scopes.Open ctx) :
    ∀ methods : List FunctionDecl, Stmt.ShapedFunctions methods →
      (∀ t ∈ Stmt.tokensFunctions methods, q t) →
      ∀ v ∈ Stmt.visitsMethods ctx scopes methods, v.Placed q
  | [], _, _ => by
      simp [Stmt.visitsMethods]
  | f :: rest, hshaped, hkept =>
      placed_both
        (placed_function hq (hopen.inFunction _) f hshaped.1
          fun t ht => hkept t (List.mem_append_left _ ht))
        (placed_methods hq hopen rest hshaped.2
          fun t ht => hkept t (List.mem_append_right _ ht))

end

end Placed

end Lox
