import Lox.Grammar.Statement

/-!
# The grammar as a table of rules

The rules of the language, written as right-hand sides over kinds of tokens, and the token lists
that can be derived from them.  Nothing here refers to a parser: the table can be read beside the
description of the language, and `Derives` is the usual meaning of such a table.  Lists of
parameters and of arguments are the only bounded repetitions.

`Derives.lang` is the way to use a derivation: whatever is closed under the rules, one right-hand
side at a time, holds of all that is derived.
-/

namespace Lox
namespace Grammar

/-- The names on the left of the rules. -/
inductive Rule where
  | program
  | declaration
  | classDecl
  | funDecl
  | function
  | parameters
  | varDecl
  | statement
  | exprStmt
  | forStmt
  | ifStmt
  | printStmt
  | returnStmt
  | whileStmt
  | block
  | expression
  | assignment
  | logicOr
  | logicAnd
  | equality
  | comparison
  | term
  | factor
  | unary
  | call
  | arguments
  | primary
deriving DecidableEq, Repr

/-- Right-hand sides of rules. -/
inductive Ebnf where
  /-- A single token. -/
  | token (kind : Token.Kind)
  /-- Whatever a rule derives. -/
  | rule (name : Rule)
  /-- One behind the other. -/
  | seq (first second : Ebnf)
  /-- One or the other. -/
  | alt (first second : Ebnf)
  /-- Once or not at all. -/
  | opt (inner : Ebnf)
  /-- Any number of times. -/
  | star (inner : Ebnf)
  /-- At most the given number of times. -/
  | upTo (count : Nat) (inner : Ebnf)
deriving DecidableEq, Repr

namespace Ebnf

/-- Several right-hand sides, one behind the other. -/
def inOrder (first : Ebnf) : List Ebnf → Ebnf
  | [] => first
  | second :: rest => .seq first (inOrder second rest)

/-- One of several right-hand sides. -/
def oneOf (first : Ebnf) : List Ebnf → Ebnf
  | [] => first
  | second :: rest => .alt first (oneOf second rest)

/-- A mark. -/
def mark (m : Punct) : Ebnf :=
  .token (.punct m)

/-- A keyword. -/
def word (k : Keyword) : Ebnf :=
  .token (.keyword k)

/-- A name. -/
def name : Ebnf :=
  .token .identifier

/-- Operands with operators of one level between them. -/
def joinedBy (operand operator : Ebnf) : Ebnf :=
  .seq operand (.star (.seq operator operand))

/-- Entries with commas between them: at least one, and no more than are allowed. -/
def listOf (entry : Ebnf) : Ebnf :=
  .seq entry (.upTo (Parser.maxArity - 1) (.seq (mark .comma) entry))

end Ebnf

open Ebnf in
/-- The right-hand side of each rule.  The end of the text is not among the tokens. -/
@[simp]
def Rule.production : Rule → Ebnf
  | .program => .star (.rule .declaration)
  | .declaration =>
      oneOf (.rule .classDecl) [.rule .funDecl, .rule .varDecl, .rule .statement]
  | .classDecl =>
      inOrder (word .class_)
        [name, .opt (.seq (mark .less) name), mark .leftBrace, .star (.rule .function),
          mark .rightBrace]
  | .funDecl => inOrder (word .fun_) [.rule .function]
  | .function =>
      inOrder name
        [mark .leftParen, .opt (.rule .parameters), mark .rightParen, .rule .block]
  | .parameters => listOf name
  | .varDecl =>
      inOrder (word .var)
        [name, .opt (.seq (mark .equal) (.rule .expression)), mark .semicolon]
  | .statement =>
      oneOf (.rule .exprStmt)
        [.rule .forStmt, .rule .ifStmt, .rule .printStmt, .rule .returnStmt, .rule .whileStmt,
          .rule .block]
  | .exprStmt => inOrder (.rule .expression) [mark .semicolon]
  | .forStmt =>
      inOrder (word .for_)
        [mark .leftParen, oneOf (.rule .varDecl) [.rule .exprStmt, mark .semicolon],
          .opt (.rule .expression), mark .semicolon, .opt (.rule .expression),
          mark .rightParen, .rule .statement]
  | .ifStmt =>
      inOrder (word .if_)
        [mark .leftParen, .rule .expression, mark .rightParen, .rule .statement,
          .opt (.seq (word .else_) (.rule .statement))]
  | .printStmt => inOrder (word .print) [.rule .expression, mark .semicolon]
  | .returnStmt => inOrder (word .return_) [.opt (.rule .expression), mark .semicolon]
  | .whileStmt =>
      inOrder (word .while_)
        [mark .leftParen, .rule .expression, mark .rightParen, .rule .statement]
  | .block => inOrder (mark .leftBrace) [.star (.rule .declaration), mark .rightBrace]
  | .expression => .rule .assignment
  | .assignment =>
      .alt
        (inOrder (.opt (.seq (.rule .call) (mark .dot)))
          [name, mark .equal, .rule .assignment])
        (.rule .logicOr)
  | .logicOr => joinedBy (.rule .logicAnd) (word .or)
  | .logicAnd => joinedBy (.rule .equality) (word .and)
  | .equality => joinedBy (.rule .comparison) (oneOf (mark .bangEqual) [mark .equalEqual])
  | .comparison =>
      joinedBy (.rule .term)
        (oneOf (mark .greater) [mark .greaterEqual, mark .less, mark .lessEqual])
  | .term => joinedBy (.rule .factor) (oneOf (mark .minus) [mark .plus])
  | .factor => joinedBy (.rule .unary) (oneOf (mark .slash) [mark .star])
  | .unary =>
      .alt (.seq (oneOf (mark .bang) [mark .minus]) (.rule .unary)) (.rule .call)
  | .call =>
      .seq (.rule .primary)
        (.star
          (.alt
            (inOrder (mark .leftParen) [.opt (.rule .arguments), mark .rightParen])
            (.seq (mark .dot) name)))
  | .arguments => listOf (.rule .expression)
  | .primary =>
      oneOf (.token .number)
        [.token .string, word .true_, word .false_, word .null, word .this, name,
          inOrder (mark .leftParen) [.rule .expression, mark .rightParen],
          inOrder (word .super) [mark .dot, name]]

/-- The token lists that can be derived from a right-hand side. -/
inductive Derives : Ebnf → List Token → Prop where
  | token {kind : Token.Kind} (t : Token) :
      t.kind = kind → Derives (.token kind) [t]
  | rule {name : Rule} {ts : List Token} :
      Derives name.production ts → Derives (.rule name) ts
  | seq {a b : Ebnf} {xs ys : List Token} :
      Derives a xs → Derives b ys → Derives (.seq a b) (xs ++ ys)
  | first {a b : Ebnf} {ts : List Token} :
      Derives a ts → Derives (.alt a b) ts
  | second {a b : Ebnf} {ts : List Token} :
      Derives b ts → Derives (.alt a b) ts
  | absent {a : Ebnf} :
      Derives (.opt a) []
  | present {a : Ebnf} {ts : List Token} :
      Derives a ts → Derives (.opt a) ts
  | stop {a : Ebnf} :
      Derives (.star a) []
  | more {a : Ebnf} {xs ys : List Token} :
      Derives a xs → Derives (.star a) ys → Derives (.star a) (xs ++ ys)
  | stopBelow {a : Ebnf} (count : Nat) :
      Derives (.upTo count a) []
  | moreBelow {a : Ebnf} {count : Nat} {xs ys : List Token} :
      Derives a xs → Derives (.upTo count a) ys → Derives (.upTo (count + 1) a) (xs ++ ys)

/-- Token lists made of the given number of parts. -/
inductive Repeats (P : List Token → Prop) : Nat → List Token → Prop where
  | zero : Repeats P 0 []
  | succ {n : Nat} {xs ys : List Token} :
      P xs → Repeats P n ys → Repeats P (n + 1) (xs ++ ys)

/-- What a right-hand side says of a token list when each rule is read as a property of token
lists. -/
@[simp]
def Ebnf.Lang (M : Rule → List Token → Prop) : Ebnf → List Token → Prop
  | .token kind, ts => ∃ t : Token, t.kind = kind ∧ ts = [t]
  | .rule name, ts => M name ts
  | .seq a b, ts => ∃ xs ys, ts = xs ++ ys ∧ a.Lang M xs ∧ b.Lang M ys
  | .alt a b, ts => a.Lang M ts ∨ b.Lang M ts
  | .opt a, ts => ts = [] ∨ a.Lang M ts
  | .star a, ts => ∃ n, Repeats (a.Lang M) n ts
  | .upTo count a, ts => ∃ n, n ≤ count ∧ Repeats (a.Lang M) n ts

/-- Properties of token lists that are closed under the rules hold of all derived lists. -/
theorem Derives.lang
    (M : Rule → List Token → Prop)
    (closed : ∀ (name : Rule) (ts : List Token), name.production.Lang M ts → M name ts)
    {g : Ebnf}
    {ts : List Token}
    (h : Derives g ts) :
    g.Lang M ts := by
  induction h with
  | token t hkind =>
      exact ⟨t, hkind, rfl⟩
  | rule _ ih =>
      exact closed _ _ ih
  | seq _ _ iha ihb =>
      exact ⟨_, _, rfl, iha, ihb⟩
  | first _ ih =>
      exact Or.inl ih
  | second _ ih =>
      exact Or.inr ih
  | absent =>
      exact Or.inl rfl
  | present _ ih =>
      exact Or.inr ih
  | stop =>
      exact ⟨0, .zero⟩
  | more _ _ iha ihb =>
      obtain ⟨n, hn⟩ := ihb
      exact ⟨n + 1, .succ iha hn⟩
  | stopBelow count =>
      exact ⟨0, Nat.zero_le _, .zero⟩
  | moreBelow _ _ iha ihb =>
      obtain ⟨n, hle, hn⟩ := ihb
      exact ⟨n + 1, Nat.succ_le_succ hle, .succ iha hn⟩

end Grammar
end Lox
