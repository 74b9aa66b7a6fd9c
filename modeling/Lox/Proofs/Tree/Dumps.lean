import Lox.Proofs.Text.Json
import Lox.Proofs.Token.Words
import Lox.Proofs.Tree.Equality
import Lox.Token.Scan
import Lox.Tree.Dump
import Mathlib.Data.List.Nodup

/-!
# Dumps tell trees apart

The JSON document of a token tells its kind, its lexeme and its line; that of a tree tells every node.
Documents are compared with infinite numbers taken for `null`, as their texts are.  In a tree without
negative and undefined numbers only one number is written as `null`.
-/

namespace Lox

open Text (Json)

section Tokens

/-- The marks, in the order of their names. -/
def Punct.all : List Punct :=
  [.leftParen, .rightParen, .leftBrace, .rightBrace, .comma, .dot, .minus, .plus, .semicolon, .slash,
    .star, .bang, .bangEqual, .equal, .equalEqual, .greater, .greaterEqual, .less, .lessEqual]

/-- All kinds of tokens. -/
def Token.Kind.all : List Token.Kind :=
  Punct.all.map punct ++ Keyword.all.map keyword ++ [identifier, string, number]

theorem Token.Kind.mem_all
    (kind : Token.Kind) :
    kind ∈ all := by
  cases kind with
  | punct mark =>
      cases mark <;> decide
  | keyword word =>
      cases word <;> decide
  | identifier | string | number =>
      decide

/-- No two kinds have the same name, and none has that of the end of the text. -/
theorem Token.Kind.nodup_labels : ("EOF" :: all.map label).Nodup := by
  decide +kernel

theorem Token.Kind.label_injective
    {kind other : Token.Kind}
    (h : kind.label = other.label) :
    kind = other :=
  List.inj_on_of_nodup_map (List.nodup_cons.mp nodup_labels).2 (mem_all kind) (mem_all other) h

theorem Token.Kind.label_ne_eof
    (kind : Token.Kind) :
    kind.label ≠ "EOF" := by
  intro h
  have hnew := (List.nodup_cons.mp nodup_labels).1
  rw [← h] at hnew
  exact hnew (List.mem_map_of_mem (mem_all kind))

/-- The name in the document of a kind, with a value or without one. -/
def labelOf : Json → String
  | .object ((name, _) :: _) => name
  | .string name => name
  | _ => ""

theorem Token.Kind.labelOf_json
    (kind : Token.Kind)
    (value : Option Literal) :
    labelOf (kind.json value).normal = kind.label := by
  unfold json
  split
  · rfl
  · rfl
  · rfl

theorem Token.json_injective
    {t u : Token}
    (h : t.json.normal = u.json.normal) :
    t = u := by
  obtain ⟨kind, lexeme, line⟩ := t
  obtain ⟨kind', lexeme', line'⟩ := u
  simp only [json, jsonWith, Json.normal, Json.normalMembers, Json.object.injEq, List.cons.injEq,
    Prod.mk.injEq, true_and, and_true, Json.string.injEq, Json.count.injEq] at h
  obtain ⟨hkind, rfl, rfl⟩ := h
  have hlabel := congrArg labelOf hkind
  rw [Kind.labelOf_json, Kind.labelOf_json] at hlabel
  obtain rfl : kind = kind' := Token.Kind.label_injective hlabel
  rfl

theorem Terminal.json_injective
    {t u : Terminal}
    (h : t.json.normal = u.json.normal) :
    t = u := by
  have hlabel : ∀ {t : Token} {line : Nat},
      t.json.normal ≠ (Terminal.eof line).json.normal := by
    intro t line hsame
    simp only [json, Token.json, Token.jsonWith, Json.normal, Json.normalMembers, Json.object.injEq,
      List.cons.injEq, Prod.mk.injEq, true_and, and_true] at hsame
    have hname := congrArg labelOf hsame.1
    rw [Token.Kind.labelOf_json] at hname
    exact t.kind.label_ne_eof hname
  cases t with
  | token t =>
      cases u with
      | token u =>
          rw [Token.json_injective h]
      | eof line =>
          exact absurd h hlabel
  | eof line =>
      cases u with
      | token u =>
          exact absurd h.symm hlabel
      | eof line' =>
          simp only [json, Json.normal, Json.normalMembers, Json.object.injEq, List.cons.injEq,
            Prod.mk.injEq, true_and, and_true, Json.count.injEq] at h
          rw [h]

/-- The JSON text of a scan tells its tokens, and where the text ends. -/
theorem Scan.pretty_json_eq_iff
    (s s' : Scan) :
    s.json.pretty = s'.json.pretty ↔ s.terminals = s'.terminals := by
  rw [Json.pretty_eq_iff]
  constructor
  · intro h
    rw [json, json, Json.normal, Json.normal, Json.normalItems_eq_map, Json.normalItems_eq_map,
      List.map_map, List.map_map, Json.array.injEq] at h
    exact List.map_injective_iff.mpr (fun _ _ => Terminal.json_injective) h
  · intro h
    rw [json, json, h]

end Tokens

section Fields

variable {a b c : String}
variable {x y z x' y' z' : Json}

theorem fields_two
    (h : (Json.object [(a, x), (b, y)]).normal = (Json.object [(a, x'), (b, y')]).normal) :
    x.normal = x'.normal ∧ y.normal = y'.normal := by
  simpa [Json.normal, Json.normalMembers] using h

theorem fields_three
    (h : (Json.object [(a, x), (b, y), (c, z)]).normal =
      (Json.object [(a, x'), (b, y'), (c, z')]).normal) :
    x.normal = x'.normal ∧ y.normal = y'.normal ∧ z.normal = z'.normal := by
  simpa [Json.normal, Json.normalMembers] using h

end Fields

section Literals

/-- Numbers are told by their texts; there is only one that is written as `null`. -/
theorem number_injective
    {x y : Float}
    (hx : Decimal.Unsigned x)
    (hy : Decimal.Unsigned y)
    (h : (Json.number x).normal = (Json.number y).normal) :
    x = y := by
  obtain ⟨hnegative, hdefined⟩ := hx.spec
  obtain ⟨hnegative', hdefined'⟩ := hy.spec
  rw [Json.normal, Json.normal] at h
  split at h
  · split at h
    · cases h
      rfl
    · cases h
  · rename_i hinfinite
    split at h
    · cases h
    · rename_i hinfinite'
      have hx' : Decimal.magnitude x = .infinite := by
        cases hmagnitude : Decimal.magnitude x <;> simp_all
      have hy' : Decimal.magnitude y = .infinite := by
        cases hmagnitude : Decimal.magnitude y <;> simp_all
      exact Decimal.eq_of_magnitude (hnegative.trans hnegative'.symm) (hx'.trans hy'.symm) hdefined

theorem Literal.dump_injective
    {a b : Literal}
    (ha : a.Unsigned)
    (hb : b.Unsigned)
    (h : a.dump.normal = b.dump.normal) :
    a = b := by
  cases a with
  | number x =>
      cases b with
      | number y =>
          simp only [dump, Json.normal, Json.normalMembers, Json.object.injEq, List.cons.injEq,
            Prod.mk.injEq, true_and, and_true] at h
          rw [number_injective ha hb h]
      | bool value =>
          cases value <;> cases h
      | string | nil =>
          simp [dump, Json.normal, Json.normalMembers] at h
  | string s =>
      cases b with
      | string t =>
          simp only [dump, Json.normal, Json.normalMembers, Json.object.injEq, List.cons.injEq,
            Prod.mk.injEq, true_and, and_true, Json.string.injEq] at h
          rw [h]
      | bool value =>
          cases value <;> cases h
      | number | nil =>
          simp [dump, Json.normal, Json.normalMembers] at h
  | bool value =>
      cases b with
      | bool value' =>
          cases value <;> cases value' <;> simp_all [dump, Json.normal]
      | _ =>
          cases value <;> simp [dump, Json.normal] at h
  | nil =>
      cases b with
      | nil =>
          rfl
      | bool value =>
          cases value <;> simp [dump, Json.normal] at h
      | _ =>
          cases h

end Literals

namespace Expr

/-- The kind of a node, as its dump names it. -/
def kind : Expr → String
  | .literal _ => "Literal"
  | .grouping _ => "Grouping"
  | .unary _ _ => "Unary"
  | .binary _ _ _ => "Binary"
  | .logical _ _ _ => "Logical"
  | .var _ _ => "Variable"
  | .assign _ _ _ => "Assign"
  | .call _ _ _ => "Call"
  | .get _ _ => "Get"
  | .set _ _ _ => "Set"
  | .this _ _ => "This"
  | .super _ _ _ => "Super"

/-- What the dump of a node shows under its kind. -/
def node : Expr → Json
  | .literal value => value.dump
  | .grouping inner => inner.dump
  | .unary operator right => .object [("operator", operator.json), ("right", right.dump)]
  | .binary left operator right | .logical left operator right =>
      .object [("left", left.dump), ("operator", operator.json), ("right", right.dump)]
  | .var id name => .object [("id", .count id), ("name", name.json)]
  | .assign id name value =>
      .object [("id", .count id), ("name", name.json), ("value", value.dump)]
  | .call callee paren arguments =>
      .object [("callee", callee.dump), ("paren", paren.json),
        ("arguments", .array (dumpAll arguments))]
  | .get object name => .object [("object", object.dump), ("name", name.json)]
  | .set object name value =>
      .object [("object", object.dump), ("name", name.json), ("value", value.dump)]
  | .this id keyword => .object [("id", .count id), ("keyword", keyword.json)]
  | .super id keyword method =>
      .object [("id", .count id), ("keyword", keyword.json), ("method", method.json)]

theorem dump_eq_node
    (e : Expr) :
    e.dump = .object [(e.kind, e.node)] := by
  cases e <;> rfl

/-- Nodes with one dump are of one kind and show the same. -/
theorem node_of_normal
    {e e' : Expr}
    (h : e.dump.normal = e'.dump.normal) :
    e.kind = e'.kind ∧ e.node.normal = e'.node.normal := by
  rw [dump_eq_node, dump_eq_node] at h
  simp only [Json.normal, Json.normalMembers, Json.object.injEq, List.cons.injEq, Prod.mk.injEq,
    and_true] at h
  exact h

mutual

theorem dump_injective
    {e e' : Expr}
    (he : e.EveryLiteral Literal.Unsigned)
    (he' : e'.EveryLiteral Literal.Unsigned)
    (h : e.dump.normal = e'.dump.normal) :
    e = e' := by
  obtain ⟨hkind, hfields⟩ := node_of_normal h
  cases e with
  | literal value =>
      cases e' with
      | literal value' =>
          obtain rfl := Literal.dump_injective he he' hfields
          rfl
      | _ =>
          simp [kind] at hkind
  | grouping inner =>
      cases e' with
      | grouping inner' =>
          rw [EveryLiteral] at he he'
          obtain rfl := dump_injective he he' hfields
          rfl
      | _ =>
          simp [kind] at hkind
  | unary operator right =>
      cases e' with
      | unary operator' right' =>
          rw [EveryLiteral] at he he'
          obtain ⟨hoperator, hright⟩ := fields_two hfields
          obtain rfl := Token.json_injective hoperator
          obtain rfl := dump_injective he he' hright
          rfl
      | _ =>
          simp [kind] at hkind
  | binary left operator right =>
      cases e' with
      | binary left' operator' right' =>
          obtain ⟨hleft, hoperator, hright⟩ := fields_three hfields
          obtain rfl := dump_injective he.1 he'.1 hleft
          obtain rfl := Token.json_injective hoperator
          obtain rfl := dump_injective he.2 he'.2 hright
          rfl
      | _ =>
          simp [kind] at hkind
  | logical left operator right =>
      cases e' with
      | logical left' operator' right' =>
          obtain ⟨hleft, hoperator, hright⟩ := fields_three hfields
          obtain rfl := dump_injective he.1 he'.1 hleft
          obtain rfl := Token.json_injective hoperator
          obtain rfl := dump_injective he.2 he'.2 hright
          rfl
      | _ =>
          simp [kind] at hkind
  | var id name =>
      cases e' with
      | var id' name' =>
          obtain ⟨hid, hname⟩ := fields_two hfields
          cases hid
          obtain rfl := Token.json_injective hname
          rfl
      | _ =>
          simp [kind] at hkind
  | assign id name value =>
      cases e' with
      | assign id' name' value' =>
          rw [EveryLiteral] at he he'
          obtain ⟨hid, hname, hvalue⟩ := fields_three hfields
          cases hid
          obtain rfl := Token.json_injective hname
          obtain rfl := dump_injective he he' hvalue
          rfl
      | _ =>
          simp [kind] at hkind
  | call callee paren arguments =>
      cases e' with
      | call callee' paren' arguments' =>
          obtain ⟨hcallee, hparen, harguments⟩ := fields_three hfields
          obtain rfl := dump_injective he.1 he'.1 hcallee
          obtain rfl := Token.json_injective hparen
          obtain rfl := dumpAll_injective he.2 he'.2 (Json.array.inj harguments)
          rfl
      | _ =>
          simp [kind] at hkind
  | get object name =>
      cases e' with
      | get object' name' =>
          rw [EveryLiteral] at he he'
          obtain ⟨hobject, hname⟩ := fields_two hfields
          obtain rfl := dump_injective he he' hobject
          obtain rfl := Token.json_injective hname
          rfl
      | _ =>
          simp [kind] at hkind
  | set object name value =>
      cases e' with
      | set object' name' value' =>
          obtain ⟨hobject, hname, hvalue⟩ := fields_three hfields
          obtain rfl := dump_injective he.1 he'.1 hobject
          obtain rfl := Token.json_injective hname
          obtain rfl := dump_injective he.2 he'.2 hvalue
          rfl
      | _ =>
          simp [kind] at hkind
  | this id keyword =>
      cases e' with
      | this id' keyword' =>
          obtain ⟨hid, hkeyword⟩ := fields_two hfields
          cases hid
          obtain rfl := Token.json_injective hkeyword
          rfl
      | _ =>
          simp [kind] at hkind
  | super id keyword method =>
      cases e' with
      | super id' keyword' method' =>
          obtain ⟨hid, hkeyword, hmethod⟩ := fields_three hfields
          cases hid
          obtain rfl := Token.json_injective hkeyword
          obtain rfl := Token.json_injective hmethod
          rfl
      | _ =>
          simp [kind] at hkind

theorem dumpAll_injective
    {es es' : List Expr}
    (hes : EveryLiteralAll Literal.Unsigned es)
    (hes' : EveryLiteralAll Literal.Unsigned es')
    (h : Json.normalItems (dumpAll es) = Json.normalItems (dumpAll es')) :
    es = es' := by
  cases es with
  | nil =>
      cases es' with
      | nil =>
          rfl
      | cons e' es' =>
          cases h
  | cons e es =>
      cases es' with
      | nil =>
          cases h
      | cons e' es' =>
          obtain ⟨hfirst, hrest⟩ := List.cons.inj h
          obtain rfl := dump_injective hes.1 hes'.1 hfirst
          obtain rfl := dumpAll_injective hes.2 hes'.2 hrest
          rfl

end

/-- A missing expression is told from every other one. -/
theorem dumpOption_injective
    {e e' : Option Expr}
    (he : EveryLiteralOption Literal.Unsigned e)
    (he' : EveryLiteralOption Literal.Unsigned e')
    (h : (dumpOption e).normal = (dumpOption e').normal) :
    e = e' := by
  cases e with
  | none =>
      cases e' with
      | none =>
          rfl
      | some e' =>
          rw [dumpOption, dumpOption, dump_eq_node] at h
          cases h
  | some e =>
      cases e' with
      | none =>
          rw [dumpOption, dumpOption, dump_eq_node] at h
          cases h
      | some e' =>
          rw [EveryLiteralOption] at he he'
          rw [dump_injective he he' h]

end Expr

namespace Stmt

theorem params_injective
    {params params' : List Token}
    (h : Json.normalItems (params.map Token.json) = Json.normalItems (params'.map Token.json)) :
    params = params' := by
  rw [Json.normalItems_eq_map, Json.normalItems_eq_map, List.map_map, List.map_map] at h
  exact List.map_injective_iff.mpr (fun _ _ => Token.json_injective) h

/-- The kind of a statement, as its dump names it. -/
def kind : Stmt → String
  | .expression _ => "Expression"
  | .print _ => "Print"
  | .var _ _ => "Var"
  | .block _ => "Block"
  | .ifThen _ _ | .ifElse _ _ _ => "If"
  | .loop _ _ => "While"
  | .function _ => "Function"
  | .ret _ _ => "Return"
  | .classDecl _ _ _ => "Class"

/-- What the dump of a statement shows under its kind. -/
def node : Stmt → Json
  | .expression value | .print value => value.dump
  | .var name initializer =>
      .object [("name", name.json), ("initializer", Expr.dumpOption initializer)]
  | .block body => .array (dumpAll body)
  | .ifThen condition thenBranch =>
      .object [("condition", condition.dump), ("then_branch", dump thenBranch),
        ("else_branch", .null)]
  | .ifElse condition thenBranch elseBranch =>
      .object [("condition", condition.dump), ("then_branch", dump thenBranch),
        ("else_branch", dump elseBranch)]
  | .loop condition body => .object [("condition", condition.dump), ("body", dump body)]
  | .function decl => dumpFunction decl
  | .ret keyword value => .object [("keyword", keyword.json), ("value", Expr.dumpOption value)]
  | .classDecl name superclass methods =>
      .object [("name", name.json), ("superclass", Expr.dumpOption superclass),
        ("methods", .array (dumpFunctions methods))]

theorem dump_eq_node
    (s : Stmt) :
    s.dump = .object [(s.kind, s.node)] := by
  cases s <;> rfl

/-- Statements with one dump are of one kind and show the same. -/
theorem node_of_normal
    {s s' : Stmt}
    (h : s.dump.normal = s'.dump.normal) :
    s.kind = s'.kind ∧ s.node.normal = s'.node.normal := by
  rw [dump_eq_node, dump_eq_node] at h
  simp only [Json.normal, Json.normalMembers, Json.object.injEq, List.cons.injEq, Prod.mk.injEq,
    and_true] at h
  exact h

/-- A missing branch is told from every statement. -/
theorem normal_dump_ne_null
    (s : Stmt) :
    s.dump.normal ≠ Json.null.normal := by
  intro h
  rw [dump_eq_node] at h
  cases h

mutual

theorem dump_injective
    {s s' : Stmt}
    (hs : s.EveryLiteral Literal.Unsigned)
    (hs' : s'.EveryLiteral Literal.Unsigned)
    (h : s.dump.normal = s'.dump.normal) :
    s = s' := by
  obtain ⟨hkind, hfields⟩ := node_of_normal h
  cases s with
  | expression value =>
      cases s' with
      | expression value' =>
          rw [EveryLiteral] at hs hs'
          obtain rfl := Expr.dump_injective hs hs' hfields
          rfl
      | _ =>
          simp [kind] at hkind
  | print value =>
      cases s' with
      | print value' =>
          rw [EveryLiteral] at hs hs'
          obtain rfl := Expr.dump_injective hs hs' hfields
          rfl
      | _ =>
          simp [kind] at hkind
  | var name initializer =>
      cases s' with
      | var name' initializer' =>
          rw [EveryLiteral] at hs hs'
          obtain ⟨hname, hinitializer⟩ := fields_two hfields
          obtain rfl := Token.json_injective hname
          obtain rfl := Expr.dumpOption_injective hs hs' hinitializer
          rfl
      | _ =>
          simp [kind] at hkind
  | block body =>
      cases s' with
      | block body' =>
          rw [EveryLiteral] at hs hs'
          obtain rfl := dumpAll_injective hs hs' (Json.array.inj hfields)
          rfl
      | _ =>
          simp [kind] at hkind
  | ifThen condition thenBranch =>
      cases s' with
      | ifThen condition' thenBranch' =>
          obtain ⟨hcondition, hthen, -⟩ := fields_three hfields
          obtain rfl := Expr.dump_injective hs.1 hs'.1 hcondition
          obtain rfl := dump_injective hs.2 hs'.2 hthen
          rfl
      | ifElse condition' thenBranch' elseBranch' =>
          obtain ⟨-, -, helse⟩ := fields_three hfields
          exact absurd helse.symm (normal_dump_ne_null elseBranch')
      | _ =>
          simp [kind] at hkind
  | ifElse condition thenBranch elseBranch =>
      cases s' with
      | ifElse condition' thenBranch' elseBranch' =>
          obtain ⟨hcondition, hthen, helse⟩ := fields_three hfields
          obtain rfl := Expr.dump_injective hs.1 hs'.1 hcondition
          obtain rfl := dump_injective hs.2.1 hs'.2.1 hthen
          obtain rfl := dump_injective hs.2.2 hs'.2.2 helse
          rfl
      | ifThen condition' thenBranch' =>
          obtain ⟨-, -, helse⟩ := fields_three hfields
          exact absurd helse (normal_dump_ne_null elseBranch)
      | _ =>
          simp [kind] at hkind
  | loop condition body =>
      cases s' with
      | loop condition' body' =>
          obtain ⟨hcondition, hbody⟩ := fields_two hfields
          obtain rfl := Expr.dump_injective hs.1 hs'.1 hcondition
          obtain rfl := dump_injective hs.2 hs'.2 hbody
          rfl
      | _ =>
          simp [kind] at hkind
  | function decl =>
      cases s' with
      | function decl' =>
          rw [EveryLiteral] at hs hs'
          obtain rfl := dumpFunction_injective hs hs' hfields
          rfl
      | _ =>
          simp [kind] at hkind
  | ret keyword value =>
      cases s' with
      | ret keyword' value' =>
          rw [EveryLiteral] at hs hs'
          obtain ⟨hkeyword, hvalue⟩ := fields_two hfields
          obtain rfl := Token.json_injective hkeyword
          obtain rfl := Expr.dumpOption_injective hs hs' hvalue
          rfl
      | _ =>
          simp [kind] at hkind
  | classDecl name superclass methods =>
      cases s' with
      | classDecl name' superclass' methods' =>
          obtain ⟨hname, hsuperclass, hmethods⟩ := fields_three hfields
          obtain rfl := Token.json_injective hname
          obtain rfl := Expr.dumpOption_injective hs.1 hs'.1 hsuperclass
          obtain rfl := dumpFunctions_injective hs.2 hs'.2 (Json.array.inj hmethods)
          rfl
      | _ =>
          simp [kind] at hkind
termination_by structural s

theorem dumpAll_injective
    {body body' : List Stmt}
    (hbody : EveryLiteralAll Literal.Unsigned body)
    (hbody' : EveryLiteralAll Literal.Unsigned body')
    (h : Json.normalItems (dumpAll body) = Json.normalItems (dumpAll body')) :
    body = body' := by
  cases body with
  | nil =>
      cases body' with
      | nil =>
          rfl
      | cons first rest =>
          cases h
  | cons first rest =>
      cases body' with
      | nil =>
          cases h
      | cons first' rest' =>
          obtain ⟨hfirst, hrest⟩ := List.cons.inj h
          obtain rfl := dump_injective hbody.1 hbody'.1 hfirst
          obtain rfl := dumpAll_injective hbody.2 hbody'.2 hrest
          rfl
termination_by structural body

theorem dumpFunction_injective
    {f f' : FunctionDecl}
    (hf : EveryLiteralFunction Literal.Unsigned f)
    (hf' : EveryLiteralFunction Literal.Unsigned f')
    (h : (dumpFunction f).normal = (dumpFunction f').normal) :
    f = f' := by
  obtain ⟨name, params, body⟩ := f
  obtain ⟨name', params', body'⟩ := f'
  rw [EveryLiteralFunction] at hf hf'
  obtain ⟨hname, hparams, hbody⟩ := fields_three h
  obtain rfl := Token.json_injective hname
  obtain rfl := params_injective (Json.array.inj hparams)
  obtain rfl := dumpAll_injective hf hf' (Json.array.inj hbody)
  rfl
termination_by structural f

theorem dumpFunctions_injective
    {methods methods' : List FunctionDecl}
    (hmethods : EveryLiteralFunctions Literal.Unsigned methods)
    (hmethods' : EveryLiteralFunctions Literal.Unsigned methods')
    (h : Json.normalItems (dumpFunctions methods) = Json.normalItems (dumpFunctions methods')) :
    methods = methods' := by
  cases methods with
  | nil =>
      cases methods' with
      | nil =>
          rfl
      | cons first rest =>
          cases h
  | cons first rest =>
      cases methods' with
      | nil =>
          cases h
      | cons first' rest' =>
          obtain ⟨hfirst, hrest⟩ := List.cons.inj h
          obtain rfl := dumpFunction_injective hmethods.1 hmethods'.1 hfirst
          obtain rfl := dumpFunctions_injective hmethods.2 hmethods'.2 hrest
          rfl
termination_by structural methods

end

end Stmt

end Lox
