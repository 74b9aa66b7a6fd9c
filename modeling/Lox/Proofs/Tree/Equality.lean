import Lox.Proofs.Decimal.Doubles
import Lox.Proofs.Grammar.Provenance

/-!
# Trees that agree are equal

Whether two trees agree is checked node by node, and numbers are compared by their values.  For numbers
in general this is not equality: the two zeros have one value, and an undefined number does not agree
with itself.  But trees without negative and undefined numbers agree if and only if they are equal.
Whatever a program says, its tree is one of these.
-/

namespace Lox

section Literals

/-- A literal is no number that is negative or undefined. -/
def Literal.Unsigned : Literal → Prop
  | .number x => Decimal.Unsigned x
  | _ => True

/-- Literals of one value are equal. -/
theorem Literal.same_iff_eq
    {a b : Literal}
    (ha : a.Unsigned)
    (hb : b.Unsigned) :
    a.same b = true ↔ a = b := by
  cases a with
  | number x =>
      cases b with
      | number y =>
          rw [same, Literal.number.injEq]
          exact Decimal.beq_iff_eq_of_unsigned ha hb
      | _ =>
          simp [same]
  | string s | bool value | nil =>
      cases b <;> simp [same]

end Literals

namespace Expr

mutual

theorem same_iff_eq
    {e e' : Expr}
    (he : e.EveryLiteral Literal.Unsigned)
    (he' : e'.EveryLiteral Literal.Unsigned) :
    e.same e' = true ↔ e = e' := by
  cases e with
  | literal value =>
      cases e' with
      | literal value' =>
          rw [same, Literal.same_iff_eq he he', literal.injEq]
      | _ =>
          simp [same]
  | grouping inner =>
      cases e' with
      | grouping inner' =>
          rw [EveryLiteral] at he he'
          rw [same, same_iff_eq he he', grouping.injEq]
      | _ =>
          simp [same]
  | unary operator right =>
      cases e' with
      | unary operator' right' =>
          rw [EveryLiteral] at he he'
          rw [same, Bool.and_eq_true, decide_eq_true_eq, same_iff_eq he he', unary.injEq]
      | _ =>
          simp [same]
  | binary left operator right =>
      cases e' with
      | binary left' operator' right' =>
          rw [same, Bool.and_eq_true, Bool.and_eq_true, decide_eq_true_eq, same_iff_eq he.1 he'.1,
            same_iff_eq he.2 he'.2, binary.injEq, and_assoc]
      | _ =>
          simp [same]
  | logical left operator right =>
      cases e' with
      | logical left' operator' right' =>
          rw [same, Bool.and_eq_true, Bool.and_eq_true, decide_eq_true_eq, same_iff_eq he.1 he'.1,
            same_iff_eq he.2 he'.2, logical.injEq, and_assoc]
      | _ =>
          simp [same]
  | var id name =>
      cases e' <;> simp [same]
  | assign id name value =>
      cases e' with
      | assign id' name' value' =>
          rw [EveryLiteral] at he he'
          rw [same, Bool.and_eq_true, Bool.and_eq_true, decide_eq_true_eq, decide_eq_true_eq,
            same_iff_eq he he', assign.injEq, and_assoc]
      | _ =>
          simp [same]
  | call callee paren arguments =>
      cases e' with
      | call callee' paren' arguments' =>
          rw [same, Bool.and_eq_true, Bool.and_eq_true, decide_eq_true_eq, same_iff_eq he.1 he'.1,
            sameAll_iff_eq he.2 he'.2, call.injEq, and_assoc]
      | _ =>
          simp [same]
  | get object name =>
      cases e' with
      | get object' name' =>
          rw [EveryLiteral] at he he'
          rw [same, Bool.and_eq_true, decide_eq_true_eq, same_iff_eq he he', get.injEq]
      | _ =>
          simp [same]
  | set object name value =>
      cases e' with
      | set object' name' value' =>
          rw [same, Bool.and_eq_true, Bool.and_eq_true, decide_eq_true_eq, same_iff_eq he.1 he'.1,
            same_iff_eq he.2 he'.2, set.injEq, and_assoc]
      | _ =>
          simp [same]
  | this id keyword =>
      cases e' <;> simp [same]
  | super id keyword method =>
      cases e' <;> simp [same, and_assoc]

theorem sameAll_iff_eq
    {es es' : List Expr}
    (hes : EveryLiteralAll Literal.Unsigned es)
    (hes' : EveryLiteralAll Literal.Unsigned es') :
    sameAll es es' = true ↔ es = es' := by
  cases es with
  | nil =>
      cases es' <;> simp [sameAll]
  | cons e es =>
      cases es' with
      | nil =>
          simp [sameAll]
      | cons e' es' =>
          rw [sameAll, Bool.and_eq_true, same_iff_eq hes.1 hes'.1, sameAll_iff_eq hes.2 hes'.2,
            List.cons.injEq]

end

theorem sameOption_iff_eq
    {e e' : Option Expr}
    (he : EveryLiteralOption Literal.Unsigned e)
    (he' : EveryLiteralOption Literal.Unsigned e') :
    Stmt.sameOption e e' = true ↔ e = e' := by
  cases e with
  | none =>
      cases e' <;> simp [Stmt.sameOption]
  | some e =>
      cases e' with
      | none =>
          simp [Stmt.sameOption]
      | some e' =>
          rw [EveryLiteralOption] at he he'
          rw [Stmt.sameOption, same_iff_eq he he', Option.some.injEq]

end Expr

namespace Stmt

mutual

theorem same_iff_eq
    {s s' : Stmt}
    (hs : s.EveryLiteral Literal.Unsigned)
    (hs' : s'.EveryLiteral Literal.Unsigned) :
    s.same s' = true ↔ s = s' := by
  cases s with
  | expression value =>
      cases s' with
      | expression value' =>
          rw [EveryLiteral] at hs hs'
          rw [same, Expr.same_iff_eq hs hs', expression.injEq]
      | _ =>
          simp [same]
  | print value =>
      cases s' with
      | print value' =>
          rw [EveryLiteral] at hs hs'
          rw [same, Expr.same_iff_eq hs hs', print.injEq]
      | _ =>
          simp [same]
  | var name initializer =>
      cases s' with
      | var name' initializer' =>
          rw [EveryLiteral] at hs hs'
          rw [same, Bool.and_eq_true, decide_eq_true_eq, Expr.sameOption_iff_eq hs hs', var.injEq]
      | _ =>
          simp [same]
  | block body =>
      cases s' with
      | block body' =>
          rw [EveryLiteral] at hs hs'
          rw [same, sameAll_iff_eq hs hs', block.injEq]
      | _ =>
          simp [same]
  | ifThen condition thenBranch =>
      cases s' with
      | ifThen condition' thenBranch' =>
          rw [same, Bool.and_eq_true, Expr.same_iff_eq hs.1 hs'.1, same_iff_eq hs.2 hs'.2,
            ifThen.injEq]
      | _ =>
          simp [same]
  | ifElse condition thenBranch elseBranch =>
      cases s' with
      | ifElse condition' thenBranch' elseBranch' =>
          rw [same, Bool.and_eq_true, Bool.and_eq_true, Expr.same_iff_eq hs.1 hs'.1,
            same_iff_eq hs.2.1 hs'.2.1, same_iff_eq hs.2.2 hs'.2.2, ifElse.injEq, and_assoc]
      | _ =>
          simp [same]
  | loop condition body =>
      cases s' with
      | loop condition' body' =>
          rw [same, Bool.and_eq_true, Expr.same_iff_eq hs.1 hs'.1, same_iff_eq hs.2 hs'.2,
            loop.injEq]
      | _ =>
          simp [same]
  | function decl =>
      cases s' with
      | function decl' =>
          rw [EveryLiteral] at hs hs'
          rw [same, sameFunction_iff_eq hs hs', function.injEq]
      | _ =>
          simp [same]
  | ret keyword value =>
      cases s' with
      | ret keyword' value' =>
          rw [EveryLiteral] at hs hs'
          rw [same, Bool.and_eq_true, decide_eq_true_eq, Expr.sameOption_iff_eq hs hs', ret.injEq]
      | _ =>
          simp [same]
  | classDecl name superclass methods =>
      cases s' with
      | classDecl name' superclass' methods' =>
          rw [same, Bool.and_eq_true, Bool.and_eq_true, decide_eq_true_eq,
            Expr.sameOption_iff_eq hs.1 hs'.1, sameFunctions_iff_eq hs.2 hs'.2, classDecl.injEq,
            and_assoc]
      | _ =>
          simp [same]
termination_by structural s

theorem sameAll_iff_eq
    {body body' : List Stmt}
    (hbody : EveryLiteralAll Literal.Unsigned body)
    (hbody' : EveryLiteralAll Literal.Unsigned body') :
    sameAll body body' = true ↔ body = body' := by
  cases body with
  | nil =>
      cases body' <;> simp [sameAll]
  | cons first rest =>
      cases body' with
      | nil =>
          simp [sameAll]
      | cons first' rest' =>
          rw [sameAll, Bool.and_eq_true, same_iff_eq hbody.1 hbody'.1,
            sameAll_iff_eq hbody.2 hbody'.2, List.cons.injEq]
termination_by structural body

theorem sameFunction_iff_eq
    {f f' : FunctionDecl}
    (hf : EveryLiteralFunction Literal.Unsigned f)
    (hf' : EveryLiteralFunction Literal.Unsigned f') :
    sameFunction f f' = true ↔ f = f' := by
  obtain ⟨name, params, body⟩ := f
  obtain ⟨name', params', body'⟩ := f'
  rw [EveryLiteralFunction] at hf hf'
  rw [sameFunction, Bool.and_eq_true, Bool.and_eq_true, decide_eq_true_eq, decide_eq_true_eq,
    sameAll_iff_eq hf hf', FunctionDecl.mk.injEq, and_assoc]
termination_by structural f

theorem sameFunctions_iff_eq
    {methods methods' : List FunctionDecl}
    (hmethods : EveryLiteralFunctions Literal.Unsigned methods)
    (hmethods' : EveryLiteralFunctions Literal.Unsigned methods') :
    sameFunctions methods methods' = true ↔ methods = methods' := by
  cases methods with
  | nil =>
      cases methods' <;> simp [sameFunctions]
  | cons first rest =>
      cases methods' with
      | nil =>
          simp [sameFunctions]
      | cons first' rest' =>
          rw [sameFunctions, Bool.and_eq_true, sameFunction_iff_eq hmethods.1 hmethods'.1,
            sameFunctions_iff_eq hmethods.2 hmethods'.2, List.cons.injEq]
termination_by structural methods

end

end Stmt

section Read

/-- The literals that tokens denote are no numbers that are negative or undefined. -/
theorem unsigned_literalOf?
    (t : Token) :
    Literal.Unsigned ((Grammar.literalOf? t).getD .nil) := by
  unfold Grammar.literalOf?
  split
  · trivial
  · trivial
  · trivial
  · unfold Token.literal?
    split
    · trivial
    · exact Decimal.unsigned_ofScientific _ _
    · trivial

namespace Grammar

variable {ts : List Token}
variable {endLine : Nat}

theorem unsigned_readProgram
    (ts : List Token)
    (endLine : Nat) :
    Stmt.EveryLiteralAll Literal.Unsigned (readProgram ts endLine).result := by
  have hliteral : ∀ t ∈ ts, Literal.Unsigned ((literalOf? t).getD .nil) :=
    fun t _ => unsigned_literalOf? t
  exact (readProgram_cites hliteral trivial endLine).2

/-- What agrees with the program that is read is that program. -/
theorem readProgram_eq_of_same
    {statements : List Stmt}
    (hstatements : Stmt.EveryLiteralAll Literal.Unsigned statements)
    (h : Stmt.sameAll (readProgram ts endLine).result statements = true) :
    (readProgram ts endLine).result = statements :=
  (Stmt.sameAll_iff_eq (unsigned_readProgram ts endLine) hstatements).mp h

/-- What agrees with the expression that is read is that expression. -/
theorem readExpression_eq_of_same
    {e : Expr}
    (he : e.EveryLiteral Literal.Unsigned)
    (h : Stmt.sameOption (readExpression ts endLine).result (some e) = true) :
    (readExpression ts endLine).result = some e := by
  have hread : Expr.EveryLiteralOption Literal.Unsigned (readExpression ts endLine).result :=
    (readExpression_cites (fun t _ => unsigned_literalOf? t) endLine).2
  have hgiven : Expr.EveryLiteralOption Literal.Unsigned (some e) := he
  exact (Expr.sameOption_iff_eq hread hgiven).mp h

/-- If the `for` statement that is read agrees with a tree, it is that tree. -/
theorem forStatement_of_same
    {depth : Nat}
    {tree : Stmt}
    (htree : tree.EveryLiteral Literal.Unsigned)
    (h : (forStatement (statementWithin depth) ⟨ts, endLine, 0, []⟩).1.toOption.any
      (·.same tree) = true) :
    ∃ s', forStatement (statementWithin depth) ⟨ts, endLine, 0, []⟩ = (.ok tree, s') := by
  have hliteral : ∀ t ∈ ts, Literal.Unsigned ((literalOf? t).getD .nil) :=
    fun t _ => unsigned_literalOf? t
  have hstart : Parser.State.Of ts endLine ⟨ts, endLine, 0, []⟩ :=
    ⟨List.Subset.refl ts, rfl, by simp⟩
  have hgives := (cites_forStatement hliteral trivial (cites_within hliteral trivial depth).1
    _ hstart).2.1
  rcases hrun : forStatement (statementWithin depth) ⟨ts, endLine, 0, []⟩ with ⟨result, s'⟩
  rw [hrun] at h hgives
  cases result with
  | error e =>
      cases h
  | ok read =>
      have hread : read.EveryLiteral Literal.Unsigned := hgives read rfl
      have hsame : read.same tree = true := h
      exact ⟨s', by rw [(Stmt.same_iff_eq hread htree).mp hsame]⟩

end Grammar

end Read

end Lox
