import Lox.Proofs.Grammar.ReadStatement
import Lox.Proofs.Grammar.Shape

/-!
# Spelling trees out

A tree is spelled by writing its tokens from left to right, with the marks and keywords that the tree
does not keep put back in.  `Spelled` is this relation; it is defined by recursion on trees and knows
nothing of precedence.  `Ranked` says that every operand is at least as tight as its place demands,
that lists keep to the limit, and that no `else` could be taken by a conditional in front of it.

Main statement: a tree that is shaped and ranked, with its references numbered in order, is what
its spellings are read as.
-/

namespace Lox

/-- The rank of the operators of a kind, loosest first. -/
def operatorRank : Token.Kind → Nat
  | .keyword .or => 1
  | .keyword .and => 2
  | .punct .bangEqual => 3
  | .punct .equalEqual => 3
  | .punct .greater => 4
  | .punct .greaterEqual => 4
  | .punct .less => 4
  | .punct .lessEqual => 4
  | .punct .minus => 5
  | .punct .plus => 5
  | .punct .star => 6
  | .punct .slash => 6
  | _ => 0

/-- Numbers in order, from `i` on. -/
def Numbered (i : Nat) (ids : List Nat) : Prop :=
  ids = List.range' i ids.length

namespace Expr

/-- How tight an expression is: assignments, then the levels of operators, signs, calls and
properties, and what needs no parentheses anywhere. -/
def rank : Expr → Nat
  | .assign _ _ _ => 0
  | .set _ _ _ => 0
  | .logical _ operator _ => operatorRank operator.kind
  | .binary _ operator _ => operatorRank operator.kind
  | .unary _ _ => 7
  | .call _ _ _ => 8
  | .get _ _ => 8
  | _ => 9

mutual

/-- Every operand is as tight as its place demands, and no list of arguments is too long.  A left
operand may be on the level of its operator, a right operand may not. -/
def Ranked : Expr → Prop
  | .literal _ => True
  | .grouping inner => Ranked inner
  | .unary _ right => 7 ≤ right.rank ∧ Ranked right
  | .binary left operator right =>
      operatorRank operator.kind ≤ left.rank ∧ Ranked left ∧
        operatorRank operator.kind < right.rank ∧ Ranked right
  | .logical left operator right =>
      operatorRank operator.kind ≤ left.rank ∧ Ranked left ∧
        operatorRank operator.kind < right.rank ∧ Ranked right
  | .var _ _ => True
  | .assign _ _ value => Ranked value
  | .call callee _ arguments =>
      8 ≤ callee.rank ∧ Ranked callee ∧ arguments.length ≤ Parser.maxArity ∧ RankedAll arguments
  | .get object _ => 8 ≤ object.rank ∧ Ranked object
  | .set object _ value => 8 ≤ object.rank ∧ Ranked object ∧ Ranked value
  | .this _ _ => True
  | .super _ _ _ => True

/-- Every expression of the list is ranked. -/
def RankedAll : List Expr → Prop
  | [] => True
  | e :: rest => Ranked e ∧ RankedAll rest

end

mutual

/-- `ts` are the tokens of the expression from left to right. -/
def Spelled : Expr → List Token → Prop
  | .literal value, ts => ∃ t, Grammar.literalOf? t = some value ∧ ts = [t]
  | .grouping inner, ts =>
      ∃ left xs right, left.kind = .punct .leftParen ∧ right.kind = .punct .rightParen ∧
        Spelled inner xs ∧ ts = left :: (xs ++ [right])
  | .unary operator right, ts => ∃ xs, Spelled right xs ∧ ts = operator :: xs
  | .binary left operator right, ts =>
      ∃ xs ys, Spelled left xs ∧ Spelled right ys ∧ ts = xs ++ operator :: ys
  | .logical left operator right, ts =>
      ∃ xs ys, Spelled left xs ∧ Spelled right ys ∧ ts = xs ++ operator :: ys
  | .var _ name, ts => ts = [name]
  | .assign _ name value, ts =>
      ∃ equals xs, equals.kind = .punct .equal ∧ Spelled value xs ∧ ts = name :: equals :: xs
  | .call callee paren arguments, ts =>
      ∃ xs left ys, left.kind = .punct .leftParen ∧ Spelled callee xs ∧
        SpelledAll arguments ys ∧ ts = xs ++ left :: (ys ++ [paren])
  | .get object name, ts =>
      ∃ xs dot, dot.kind = .punct .dot ∧ Spelled object xs ∧ ts = xs ++ [dot, name]
  | .set object name value, ts =>
      ∃ xs dot equals ys, dot.kind = .punct .dot ∧ equals.kind = .punct .equal ∧
        Spelled object xs ∧ Spelled value ys ∧ ts = xs ++ dot :: name :: equals :: ys
  | .this _ keyword, ts => ts = [keyword]
  | .super _ keyword method, ts =>
      ∃ dot, dot.kind = .punct .dot ∧ ts = [keyword, dot, method]

/-- `ts` are the tokens of the expressions from left to right, with commas between them. -/
def SpelledAll : List Expr → List Token → Prop
  | [], ts => ts = []
  | [e], ts => Spelled e ts
  | e :: other :: rest, ts =>
      ∃ xs comma ys, comma.kind = .punct .comma ∧ Spelled e xs ∧ SpelledAll (other :: rest) ys ∧
        ts = xs ++ comma :: ys

end

/-- Rank of an expression that may be missing. -/
def RankedOption : Option Expr → Prop
  | none => True
  | some e => e.Ranked

/-- Spelling of an expression that may be missing. -/
def SpelledOption : Option Expr → List Token → Prop
  | none, ts => ts = []
  | some e, ts => e.Spelled ts

end Expr

/-- `ts` are the names from left to right, with commas between them. -/
def SpelledNames : List Token → List Token → Prop
  | [], ts => ts = []
  | [name], ts => ts = [name]
  | name :: other :: rest, ts =>
      ∃ comma xs, comma.kind = .punct .comma ∧ SpelledNames (other :: rest) xs ∧
        ts = name :: comma :: xs

namespace Stmt

/-- Whether an `else` behind the statement would belong to it. -/
def isOpen : Stmt → Bool
  | .ifThen _ _ => true
  | .ifElse _ _ elseBranch => isOpen elseBranch
  | .loop _ body => isOpen body
  | _ => false

mutual

/-- The expressions in the statement are ranked, no list of parameters is too long, and no branch
in front of an `else` is open. -/
def Ranked : Stmt → Prop
  | .expression e => e.Ranked
  | .print e => e.Ranked
  | .var _ initializer => Expr.RankedOption initializer
  | .block body => RankedAll body
  | .ifThen condition thenBranch => condition.Ranked ∧ Ranked thenBranch
  | .ifElse condition thenBranch elseBranch =>
      condition.Ranked ∧ thenBranch.isOpen = false ∧ Ranked thenBranch ∧ Ranked elseBranch
  | .loop condition body => condition.Ranked ∧ Ranked body
  | .function decl => RankedFunction decl
  | .ret _ value => Expr.RankedOption value
  | .classDecl _ _ methods => RankedFunctions methods

/-- Every statement of the list is ranked. -/
def RankedAll : List Stmt → Prop
  | [] => True
  | s :: rest => Ranked s ∧ RankedAll rest

/-- A function with a ranked body and not too many parameters. -/
def RankedFunction : FunctionDecl → Prop
  | .mk _ params body => params.length ≤ Parser.maxArity ∧ RankedAll body

/-- Every function of the list is ranked. -/
def RankedFunctions : List FunctionDecl → Prop
  | [] => True
  | f :: rest => RankedFunction f ∧ RankedFunctions rest

end

/-- Spelling of what a class is derived from. -/
def SpelledParent : Option Expr → List Token → Prop
  | none, ts => ts = []
  | some e, ts => ∃ less xs, less.kind = .punct .less ∧ e.Spelled xs ∧ ts = less :: xs

mutual

/-- `ts` are the tokens of the statement from left to right. -/
def Spelled : Stmt → List Token → Prop
  | .expression e, ts =>
      ∃ xs semicolon, semicolon.kind = .punct .semicolon ∧ e.Spelled xs ∧ ts = xs ++ [semicolon]
  | .print e, ts =>
      ∃ keyword xs semicolon, keyword.kind = .keyword .print ∧
        semicolon.kind = .punct .semicolon ∧ e.Spelled xs ∧ ts = keyword :: (xs ++ [semicolon])
  | .var name none, ts =>
      ∃ keyword semicolon, keyword.kind = .keyword .var ∧ semicolon.kind = .punct .semicolon ∧
        ts = [keyword, name, semicolon]
  | .var name (some e), ts =>
      ∃ keyword equals xs semicolon, keyword.kind = .keyword .var ∧ equals.kind = .punct .equal ∧
        semicolon.kind = .punct .semicolon ∧ e.Spelled xs ∧
        ts = keyword :: name :: equals :: (xs ++ [semicolon])
  | .block body, ts =>
      ∃ left xs right, left.kind = .punct .leftBrace ∧ right.kind = .punct .rightBrace ∧
        SpelledAll body xs ∧ ts = left :: (xs ++ [right])
  | .ifThen condition thenBranch, ts =>
      ∃ keyword left cs right xs, keyword.kind = .keyword .if_ ∧ left.kind = .punct .leftParen ∧
        right.kind = .punct .rightParen ∧ condition.Spelled cs ∧ Spelled thenBranch xs ∧
        ts = keyword :: left :: (cs ++ right :: xs)
  | .ifElse condition thenBranch elseBranch, ts =>
      ∃ keyword left cs right xs other ys, keyword.kind = .keyword .if_ ∧
        left.kind = .punct .leftParen ∧ right.kind = .punct .rightParen ∧
        other.kind = .keyword .else_ ∧ condition.Spelled cs ∧ Spelled thenBranch xs ∧
        Spelled elseBranch ys ∧ ts = keyword :: left :: (cs ++ right :: (xs ++ other :: ys))
  | .loop condition body, ts =>
      ∃ keyword left cs right xs, keyword.kind = .keyword .while_ ∧
        left.kind = .punct .leftParen ∧ right.kind = .punct .rightParen ∧ condition.Spelled cs ∧
        Spelled body xs ∧ ts = keyword :: left :: (cs ++ right :: xs)
  | .function decl, ts =>
      ∃ keyword xs, keyword.kind = .keyword .fun_ ∧ SpelledFunction decl xs ∧ ts = keyword :: xs
  | .ret keyword value, ts =>
      ∃ xs semicolon, semicolon.kind = .punct .semicolon ∧ Expr.SpelledOption value xs ∧
        ts = keyword :: (xs ++ [semicolon])
  | .classDecl name superclass methods, ts =>
      ∃ keyword ps left ms right, keyword.kind = .keyword .class_ ∧
        left.kind = .punct .leftBrace ∧ right.kind = .punct .rightBrace ∧
        SpelledParent superclass ps ∧ SpelledFunctions methods ms ∧
        ts = keyword :: name :: (ps ++ left :: (ms ++ [right]))

/-- `ts` are the tokens of the statements one after the other. -/
def SpelledAll : List Stmt → List Token → Prop
  | [], ts => ts = []
  | s :: rest, ts => ∃ xs ys, Spelled s xs ∧ SpelledAll rest ys ∧ ts = xs ++ ys

/-- `ts` are the tokens of a function or method. -/
def SpelledFunction : FunctionDecl → List Token → Prop
  | .mk name params body, ts =>
      ∃ left ps right brace xs close, left.kind = .punct .leftParen ∧
        right.kind = .punct .rightParen ∧ brace.kind = .punct .leftBrace ∧
        close.kind = .punct .rightBrace ∧ SpelledNames params ps ∧ SpelledAll body xs ∧
        ts = name :: left :: (ps ++ right :: brace :: (xs ++ [close]))

/-- `ts` are the tokens of the methods one after the other. -/
def SpelledFunctions : List FunctionDecl → List Token → Prop
  | [], ts => ts = []
  | f :: rest, ts => ∃ xs ys, SpelledFunction f xs ∧ SpelledFunctions rest ys ∧ ts = xs ++ ys

end

end Stmt

end Lox
