import Lox.Proofs.Loop.FoldedSteps
import Lox.Proofs.Loop.Resolved
import Lox.Proofs.Machine.CurrentFrame

/-!
# The same runs without the additional frames

Code that finds the same without the additional scope runs the same without its frames, with the same
amount of fuel.  The loop with its rounds in frames of their own has such frames, one for each round
and none around anything else, so that it runs like the loop whose rounds have no frames.
-/

namespace Lox

open Run

section Sequences

variable {L : Tables}
variable {φ : Folding}
variable {p : Gap}
variable {n : Nat}
variable {m m' : Machine}
variable {eval eval' : Expr → Run Value}
variable {exec exec' : Stmt → Run Flow}

theorem folds_evalAll
    {es : List Expr}
    (heval : EvalFolds L eval eval')
    (hes : Expr.LowersAll L n p es)
    (hm : Machine.FoldsAt L φ p m m') :
    Run.Folds L φ p (evalAll eval es) (evalAll eval' (Expr.shiftedAll n es)) m m'
      fun ψ => List.Forall₂ (Value.Folds L ψ) := by
  induction es generalizing φ m m' with
  | nil =>
      exact folds_pure hm .nil
  | cons e rest ih =>
      refine (heval hes.1 hm).bind ?_
      intro ψ m₁ m₁' value value' _ hm₁ hvalue
      refine (ih hes.2 hm₁).bind ?_
      intro χ m₂ m₂' values values' hgrows hm₂ hvalues
      exact folds_pure hm₂ (.cons (hvalue.mono hgrows) hvalues)

theorem folds_execAll
    (hexec : ExecFolds L exec exec') :
    BodyFolds L (execAll exec) (execAll exec') := by
  intro n body φ p m m' hbody hm
  induction body generalizing φ m m' with
  | nil =>
      exact folds_pure hm .normal
  | cons s rest ih =>
      refine (hexec hbody.1 hm).bind ?_
      intro ψ m₁ m₁' flow flow' _ hm₁ hflow
      cases hflow with
      | normal =>
          exact ih hbody.2 hm₁
      | returned hvalue =>
          exact folds_pure hm₁ (.returned hvalue)

/-- Both loops go round equally often. -/
theorem folds_rounds
    {test test' : Run Bool}
    {round round' : Run Flow}
    (htest : ∀ {φ m m'}, Machine.FoldsAt L φ p m m' →
      Run.Folds L φ p test test' m m' fun _ holds holds' => holds' = holds)
    (hround : ∀ {φ m m'}, Machine.FoldsAt L φ p m m' →
      Run.Folds L φ p round round' m m' (Flow.Folds L))
    (count : Nat)
    (hm : Machine.FoldsAt L φ p m m') :
    Run.Folds L φ p (ForLoop.rounds test round count) (ForLoop.rounds test' round' count) m m'
      (Flow.Folds L) := by
  induction count generalizing φ m m' with
  | zero =>
      exact folds_outOfFuel hm
  | succ count ih =>
      refine (htest hm).bind ?_
      rintro ψ m₁ m₁' holds _ _ hm₁ rfl
      split
      · refine (hround hm₁).bind ?_
        intro χ m₂ m₂' flow flow' _ hm₂ hflow
        cases hflow with
        | normal =>
            exact ih hm₂
        | returned hvalue =>
            exact folds_pure hm₂ (.returned hvalue)
      · exact folds_pure hm₁ .normal

/-- A condition holds for both or for none. -/
theorem folds_isTruthy
    {r r' : Run Value}
    (hr : Run.Folds L φ p r r' m m' (Value.Folds L)) :
    Run.Folds L φ p (do return (← r).isTruthy) (do return (← r').isTruthy) m m'
      fun _ holds holds' => holds' = holds := by
  refine hr.bind ?_
  intro ψ m₁ m₁' value value' _ hm₁ hvalue
  exact folds_pure hm₁ hvalue.toMatches.isTruthy_eq

end Sequences

section Induction

variable {L : Tables}

/-- Expressions run the same if their parts and bodies do. -/
theorem folds_evalStep
    {clock : Nat → Float}
    {eval eval' : Expr → Run Value}
    {exec exec' : List Stmt → Run Flow}
    (heval : EvalFolds L eval eval')
    (hexec : BodyFolds L exec exec') :
    EvalFolds L (evalStep ⟨L.old, clock⟩ eval exec) (evalStep ⟨L.new, clock⟩ eval' exec') := by
  intro n e φ p m m' he hm
  cases e with
  | literal value =>
      refine folds_pure hm ?_
      cases value with
      | number x =>
          exact .number x
      | string s =>
          exact .string s
      | bool b =>
          exact .bool b
      | nil =>
          exact .nil
  | grouping inner =>
      exact heval he hm
  | unary operator right =>
      have hright : right.Lowers L n p := he
      refine (heval hright hm).bind ?_
      intro ψ m₁ m₁' value value' _ hm₁ hvalue
      rw [Operator.unary_matches operator hvalue.toMatches]
      exact folds_check hm₁ operator fun _ => Operator.unary_plain
  | binary left operator right =>
      refine (heval he.1 hm).bind ?_
      intro ψ m₁ m₁' a a' _ hm₁ ha
      refine (heval he.2 hm₁).bind ?_
      intro χ m₂ m₂' b b' hgrows hm₂ hb
      refine .read ?_
      rw [Operator.binary_matches operator hm₂.folds.toMatches (ha.mono hgrows).toMatches
        hb.toMatches]
      exact folds_check hm₂ operator fun _ => Operator.binary_plain
  | logical left operator right =>
      refine (heval he.1 hm).bind ?_
      intro ψ m₁ m₁' a a' _ hm₁ ha
      rw [Operator.decides_matches operator ha.toMatches]
      split
      · exact folds_pure hm₁ ha
      · exact heval he.2 hm₁
  | var id name =>
      exact folds_readVariable hm he name
  | assign id name value =>
      refine (heval he.2 hm).bind ?_
      intro ψ m₁ m₁' value value' _ hm₁ hvalue
      refine (folds_writeVariable hm₁ he.1 hvalue name).bind ?_
      intro χ m₂ m₂' _ _ hgrows hm₂ _
      exact folds_pure hm₂ (hvalue.mono hgrows)
  | call callee paren arguments =>
      refine (heval he.1 hm).bind ?_
      intro ψ m₁ m₁' f f' _ hm₁ hf
      refine (folds_evalAll heval he.2 hm₁).bind ?_
      intro χ m₂ m₂' values values' hgrows hm₂ hvalues
      exact folds_call hexec clock paren hm₂ (hf.mono hgrows) hvalues
  | get object name =>
      have hobject : object.Lowers L n p := he
      refine (heval hobject hm).bind ?_
      intro ψ m₁ m₁' o o' _ hm₁ ho
      exact folds_property hm₁ ho name
  | set object name value =>
      refine (heval he.1 hm).bind ?_
      intro ψ m₁ m₁' o o' _ hm₁ ho
      cases ho with
      | object place =>
          refine (heval he.2 hm₁).bind ?_
          intro χ m₂ m₂' value value' _ hm₂ hvalue
          refine (folds_setField hm₂ place name.lexeme hvalue).bind ?_
          intro _ m₃ m₃' _ _ hgrows hm₃ _
          exact folds_pure hm₃ (hvalue.mono hgrows)
      | _ =>
          exact folds_stop hm₁ _
  | this id keyword =>
      exact folds_readVariable hm he keyword
  | super id keyword method =>
      exact folds_superMethod hm he.1 he.2

theorem superclassToken_shifted (n : Nat) (name : Token) (e : Expr) :
    superclassToken name (e.shifted n) = superclassToken name e := by
  cases e <;> rfl

/-- Statements run the same if their parts do. -/
theorem folds_execStep
    {eval eval' : Expr → Run Value}
    {exec exec' : Stmt → Run Flow}
    (heval : EvalFolds L eval eval')
    (hexec : ExecFolds L exec exec')
    (rounds : Nat) :
    ExecFolds L (execStep eval exec rounds) (execStep eval' exec' rounds) := by
  intro n s φ p m m' hs hm
  cases s with
  | expression e =>
      refine (heval hs hm).bind ?_
      intro ψ m₁ m₁' _ _ _ hm₁ _
      exact folds_pure hm₁ .normal
  | print e =>
      refine (heval hs hm).bind ?_
      intro ψ m₁ m₁' value value' _ hm₁ hvalue
      refine .read ?_
      rw [hvalue.toMatches.display_eq hm₁.folds.toMatches]
      refine (folds_print hm₁ _).bind ?_
      intro χ m₂ m₂' _ _ _ hm₂ _
      exact folds_pure hm₂ .normal
  | var name initializer =>
      cases initializer with
      | none =>
          refine (folds_define hm hs.1 .nil name.lexeme).bind ?_
          intro ψ m₁ m₁' _ _ _ hm₁ _
          exact folds_pure hm₁ .normal
      | some e =>
          refine (heval hs.2 hm).bind ?_
          intro ψ m₁ m₁' value value' _ hm₁ hvalue
          refine (folds_define hm₁ hs.1 hvalue name.lexeme).bind ?_
          intro χ m₂ m₂' _ _ _ hm₂ _
          exact folds_pure hm₂ .normal
  | block body =>
      refine .read ((folds_pushFrame hm hm.current).bind ?_)
      intro ψ m₁ m₁' frame frame' _ hm₁ hframe
      exact folds_body (folds_execAll hexec) hm₁ hframe hs
  | ifThen condition thenBranch =>
      refine (heval hs.1 hm).bind ?_
      intro ψ m₁ m₁' value value' _ hm₁ hvalue
      rw [hvalue.toMatches.isTruthy_eq]
      split
      · exact hexec hs.2 hm₁
      · exact folds_pure hm₁ .normal
  | ifElse condition thenBranch elseBranch =>
      refine (heval hs.1 hm).bind ?_
      intro ψ m₁ m₁' value value' _ hm₁ hvalue
      rw [hvalue.toMatches.isTruthy_eq]
      split
      · exact hexec hs.2.1 hm₁
      · exact hexec hs.2.2 hm₁
  | loop condition body =>
      simp only [execStep, Stmt.shifted, ← ForLoop.rounds_isTruthy]
      exact folds_rounds (fun hm => folds_isTruthy (heval hs.1 hm)) (fun hm => hexec hs.2 hm)
        rounds hm
  | function decl =>
      obtain ⟨hp, hdecl⟩ := hs
      obtain ⟨q, rfl⟩ := Gap.exists_inner hp
      have hclosure : Closure.Folds L φ id ⟨decl, m.current, false⟩
          ⟨Stmt.shiftedFunction n decl, m'.current, false⟩ :=
        ⟨n, q, hm.current, rfl, rfl, hdecl⟩
      refine .read ((folds_newFunction hm hclosure).bind ?_)
      intro ψ m₁ m₁' value value' _ hm₁ hvalue
      rw [Stmt.name_shiftedFunction]
      refine (folds_define hm₁ hp hvalue decl.name.lexeme).bind ?_
      intro χ m₂ m₂' _ _ _ hm₂ _
      exact folds_pure hm₂ .normal
  | ret keyword value =>
      cases value with
      | none =>
          exact folds_pure hm (.returned .nil)
      | some e =>
          refine (heval hs hm).bind ?_
          intro ψ m₁ m₁' value value' _ hm₁ hvalue
          exact folds_pure hm₁ (.returned hvalue)
  | classDecl name superclass methods =>
      cases superclass with
      | none =>
          refine (folds_declareClass hm hs.1 .none hs.2).bind ?_
          intro ψ m₁ m₁' _ _ _ hm₁ _
          exact folds_pure hm₁ .normal
      | some superclass =>
          obtain ⟨hp, hsuperclass, hmethods⟩ := hs
          refine (heval hsuperclass hm).bind ?_
          intro ψ m₁ m₁' value value' _ hm₁ hvalue
          cases hvalue with
          | cls hclass =>
              refine (folds_declareClass hm₁ hp (.some hclass) hmethods).bind ?_
              intro χ m₂ m₂' _ _ _ hm₂ _
              exact folds_pure hm₂ .normal
          | _ =>
              simp only [superclassToken_shifted]
              exact folds_stop hm₁ _

/-- Code runs the same with any amount of fuel. -/
theorem eval_exec_folds
    (L : Tables)
    (clock : Nat → Float)
    (fuel : Nat) :
    EvalFolds L (eval ⟨L.old, clock⟩ fuel) (eval ⟨L.new, clock⟩ fuel) ∧
      ExecFolds L (exec ⟨L.old, clock⟩ fuel) (exec ⟨L.new, clock⟩ fuel) := by
  induction fuel with
  | zero =>
      constructor
      · intro n e φ p m m' _ hm
        exact folds_outOfFuel hm
      · intro n s φ p m m' _ hm
        exact folds_outOfFuel hm
  | succ fuel ih =>
      exact ⟨folds_evalStep ih.1 (folds_execAll ih.2), folds_execStep ih.1 ih.2 fuel⟩

end Induction

namespace ForLoop

variable {L : Tables}
variable {φ : Folding}
variable {p : Gap}
variable {n : Nat}
variable {m m' : Machine}
variable {eval eval' : Expr → Run Value}
variable {exec exec' : Stmt → Run Flow}
variable {l : ForLoop}

theorem folds_holds
    (heval : EvalFolds L eval eval')
    (hl : l.Lowers L n)
    (hm : Machine.FoldsAt L φ none m m') :
    Run.Folds L φ none (l.holds eval) ((l.shifted n).holds eval') m m'
      fun _ holds holds' => holds' = holds := by
  have hlowers := hl.condition
  unfold holds shifted
  cases hcondition : l.condition with
  | none =>
      exact folds_pure hm rfl
  | some e =>
      rw [hcondition] at hlowers
      exact folds_isTruthy (heval hlowers hm)

theorem folds_round
    (heval : EvalFolds L eval eval')
    (hexec : ExecFolds L exec exec')
    (hl : l.Lowers L n)
    (hm : Machine.FoldsAt L φ l.gap m m') :
    Run.Folds L φ l.gap (l.round eval exec) ((l.shifted n).round eval' exec') m m'
      (Flow.Folds L) := by
  refine (hexec hl.body hm).bind ?_
  intro ψ m₁ m₁' flow flow' _ hm₁ hflow
  cases hflow with
  | normal =>
      have hlowers := hl.increment
      unfold shifted
      cases hincrement : l.increment with
      | none =>
          exact folds_pure hm₁ .normal
      | some e =>
          rw [hincrement] at hlowers
          refine (heval hlowers hm₁).bind ?_
          intro χ m₂ m₂' _ _ _ hm₂ _
          exact folds_pure hm₂ .normal
  | returned hvalue =>
      exact folds_pure hm₁ (.returned hvalue)

/-- A run in an additional frame, and one without it. -/
theorem folds_apart
    {α : Type}
    {r r' : Run α}
    {post : Folding → α → α → Prop}
    (hr : ∀ {φ m m'}, Machine.FoldsAt L φ (some 0) m m' →
      Run.Folds L φ (some 0) r r' m m' post)
    (hrestores : r'.Restores)
    (hm : Machine.FoldsAt L φ none m m') :
    Run.Folds L φ none (do
      let frame ← pushFrame (← read Machine.current)
      within frame r) r' m m' post := by
  have hgrows := hm.folds.frames.grows_push (m'.current, some 0)
  let inside : Machine :=
    { m with frames := m.frames.push m.current, current := m.frames.size }
  have hinside : Machine.FoldsAt L (φ.push m.frames.size (m'.current, some 0)) (some 0) inside m' :=
    ⟨{ hm.folds.fold hm.current with }, Folding.push_self _ _ _⟩
  have hcurrent := hrestores m'
  have hrun {result : Except Stop α} {m₁ : Machine} (h : r inside = (result, m₁)) :
      (do
        let frame ← pushFrame (← read Machine.current)
        within frame r) m = (result, { m₁ with current := m.current }) :=
    within_apply (m := { m with frames := m.frames.push m.current }) h
  cases hr hinside with
  | ok hrun₁ hrun₁' hgrows₁ hm₁ hpost =>
      rw [hrun₁'] at hcurrent
      refine .ok (hrun hrun₁) hrun₁' (hgrows.trans hgrows₁) ⟨{ hm₁.folds with }, ?_⟩ hpost
      rw [hcurrent]
      exact hgrows₁ (hgrows hm.current)
  | error hrun₁ hrun₁' hgrows₁ hm₁ =>
      rw [hrun₁'] at hcurrent
      refine .error (hrun hrun₁) hrun₁' (hgrows.trans hgrows₁) ⟨{ hm₁.folds with }, ?_⟩
      rw [hcurrent]
      exact hgrows₁ (hgrows hm.current)

theorem restores_round
    (heval : ∀ e, (eval e).Restores)
    (hexec : ∀ s, (exec s).Restores)
    (l : ForLoop) :
    (l.round eval exec).Restores := by
  refine (hexec l.body).bind fun flow => ?_
  cases flow with
  | normal =>
      cases l.increment with
      | none =>
          exact .pure _
      | some e =>
          exact (heval e).bind fun _ => .pure _
  | returned value =>
      exact .pure _

/-- Without an increment a round is just the body. -/
theorem round_of_none
    (hincrement : l.increment = none) :
    l.round eval exec = exec l.body := by
  funext m
  simp only [round, hincrement, bind_apply]
  rcases exec l.body m with ⟨_ | _ | _, _⟩ <;> rfl

/-- A round in a frame of its own, and one without. -/
theorem folds_roundApart
    (heval : EvalFolds L eval eval')
    (hexec : ExecFolds L exec exec')
    (hrestores : ((l.shifted n).round eval' exec').Restores)
    (hl : l.Lowers L n)
    (hm : Machine.FoldsAt L φ none m m') :
    Run.Folds L φ none (l.roundApart eval exec) ((l.shifted n).round eval' exec') m m'
      (Flow.Folds L) := by
  have hround {φ : Folding} {m m' : Machine} (hm : Machine.FoldsAt L φ l.gap m m') :=
    folds_round heval hexec hl hm
  unfold roundApart
  cases hincrement : l.increment with
  | none =>
      have hgap : l.gap = none := by
        rw [gap, hincrement]
        rfl
      rw [hgap, round_of_none hincrement] at hround
      exact hround hm
  | some e =>
      have hgap : l.gap = some 0 := by
        rw [gap, hincrement]
        rfl
      rw [hgap] at hround
      exact folds_apart hround hrestores hm

/-- The initializer is run in a frame of its own for both. -/
theorem folds_opened
    {rest rest' : Run Flow}
    (hexec : ExecFolds L exec exec')
    (hl : l.Lowers L n)
    (hrest : ∀ {φ m m'}, Machine.FoldsAt L φ none m m' →
      Run.Folds L φ none rest rest' m m' (Flow.Folds L))
    (hm : Machine.FoldsAt L φ none m m') :
    Run.Folds L φ none (l.opened exec rest) ((l.shifted n).opened exec' rest') m m'
      (Flow.Folds L) := by
  have hlowers {first : Stmt} := @hl.initializer first
  unfold opened shifted
  cases hinitializer : l.initializer with
  | none =>
      exact hrest hm
  | some first =>
      refine .read ((folds_pushFrame hm hm.current).bind ?_)
      intro ψ m₁ m₁' frame frame' _ hm₁ hframe
      have hinside : Machine.FoldsAt L ψ none { m₁ with current := frame }
          { m₁' with current := frame' } := ⟨{ hm₁.folds with }, hframe⟩
      refine .within hm₁ ((hexec (hlowers hinitializer) hinside).bind ?_)
      intro χ m₂ m₂' flow flow' _ hm₂ hflow
      cases hflow with
      | normal =>
          exact hrest hm₂
      | returned hvalue =>
          exact folds_pure hm₂ (.returned hvalue)

/-- The loop runs the same whether its rounds have frames of their own or not. -/
theorem runApart_folds
    (clock : Nat → Float)
    (fuel : Nat)
    (hl : l.Lowers L n)
    (hm : Machine.FoldsAt L φ none m m') :
    Run.Folds L φ none (l.runApart ⟨L.old, clock⟩ fuel) ((l.shifted n).run ⟨L.new, clock⟩ fuel)
      m m' (Flow.Folds L) := by
  obtain ⟨heval, hexec⟩ := eval_exec_folds L clock fuel
  obtain ⟨hrestoresEval, hrestoresExec⟩ := eval_exec_restores ⟨L.new, clock⟩ fuel
  refine folds_opened hexec hl (fun hm => ?_) hm
  refine folds_rounds (fun hm => folds_holds heval hl hm) (fun hm => ?_) fuel hm
  exact folds_roundApart heval hexec (restores_round hrestoresEval hrestoresExec _) hl hm

end ForLoop

end Lox
