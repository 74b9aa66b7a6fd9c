import Lox.Proofs.Machine.KeepsCalls
import Lox.Proofs.Machine.Safety

/-!
# Everything that is met is proper

Evaluation and execution keep machines proper.  The proof is by induction on the fuel, with one case
for each form of expression and statement; nothing is asked of the table of local references, nor of
the program but that it was read.  So at every sight that is part of a run, the machine and the
values are proper.
-/

namespace Lox

open Run

section Lists

variable {k : Course}
variable {outside : RuntimeError}
variable {m : Machine}
variable {eval : Watcher → Expr → Run Value}
variable {exec : Watcher → Stmt → Run Flow}

/-- Expressions that are evaluated one after the other. -/
theorem keeps_evalAll
    {es : List Expr}
    {scopes : List Address}
    (heval : EvalKeeps k outside eval)
    (hes : ∀ e ∈ es, ∃ a, k.program.at? a = some (.expr e) ∧ k.program.scopesAround a = scopes)
    (hm : m.Proper k)
    (hstands : m.Stands k m.current scopes) :
    Keeps k outside (fun w => evalAll (eval w) es) m fun m' values =>
      ∀ value ∈ values, value.Proper k m' := by
  induction es generalizing m with
  | nil =>
      exact keeps_pure hm (by simp)
  | cons e rest ih =>
      obtain ⟨a, he, rfl⟩ := hes e List.mem_cons_self
      refine (heval he hm hstands).bind ?_
      rintro m₁ value honward₁ hcurrent₁ hm₁ ⟨hvalue, -⟩
      refine (ih (fun e he => hes e (List.mem_cons_of_mem _ he)) hm₁
        (hstands.after honward₁ hcurrent₁)).bind ?_
      intro m₂ values honward₂ _ hm₂ hvalues
      refine keeps_pure hm₂ ?_
      intro v hv
      rcases List.mem_cons.mp hv with rfl | hv
      · exact hvalue.mono honward₂
      · exact hvalues v hv

theorem keeps_execAll
    (hexec : ExecKeeps k outside exec) :
    BodyKeeps k outside fun w => execAll (exec w) := by
  intro scopes body m hbody hm hstands
  induction body generalizing m with
  | nil =>
      exact keeps_pure hm trivial
  | cons s rest ih =>
      obtain ⟨a, hs, rfl⟩ := hbody s List.mem_cons_self
      refine (hexec hs hm hstands).bind ?_
      intro m₁ flow honward₁ hcurrent₁ hm₁ hflow
      cases flow with
      | normal =>
          exact ih (fun s hs => hbody s (List.mem_cons_of_mem _ hs)) hm₁
            (hstands.after honward₁ hcurrent₁)
      | returned value =>
          exact keeps_pure hm₁ hflow

/-- Each round of a loop starts on a proper machine. -/
theorem keeps_repeatWhile
    {condition : Watcher → Run Value}
    {round : Watcher → Run Flow}
    {scopes : List Address}
    (hcondition : ∀ {m : Machine}, m.Proper k → m.Stands k m.current scopes →
      Keeps k outside condition m fun m' value => value.Proper k m')
    (hround : ∀ {m : Machine}, m.Proper k → m.Stands k m.current scopes →
      Keeps k outside round m fun m' flow => flow.Proper k m')
    (count : Nat)
    (hm : m.Proper k)
    (hstands : m.Stands k m.current scopes) :
    Keeps k outside (fun w => repeatWhile (condition w) (round w) count) m fun m' flow =>
      flow.Proper k m' := by
  induction count generalizing m with
  | zero =>
      exact .of_error hm rfl
  | succ count ih =>
      refine (hcondition hm hstands).bind ?_
      intro m₁ value honward₁ hcurrent₁ hm₁ _
      have hstands₁ := hstands.after honward₁ hcurrent₁
      cases value.isTruthy with
      | true =>
          refine (hround hm₁ hstands₁).bind ?_
          intro m₂ flow honward₂ hcurrent₂ hm₂ hflow
          cases flow with
          | normal =>
              exact ih hm₂ (hstands₁.after honward₂ hcurrent₂)
          | returned value =>
              exact keeps_pure hm₂ hflow
      | false =>
          exact keeps_pure hm₁ trivial

end Lists

theorem Value.Plain.proper
    {k : Course}
    {m : Machine}
    {value : Value}
    (h : value.Plain) :
    value.Proper k m := by
  cases value with
  | number _ =>
      trivial
  | string _ =>
      trivial
  | bool _ =>
      trivial
  | _ =>
      exact h.elim

section Steps

variable {k : Course}
variable {outside : RuntimeError}
variable {m : Machine}
variable {a : Address}
variable {eval : Watcher → Expr → Run Value}
variable (hnamed : k.program.Named)
variable (heval : EvalKeeps k outside eval)

theorem keeps_check
    {outcome : Except RuntimeFault Value}
    (hm : m.Proper k)
    (hvalue : ∀ value, outcome = .ok value → value.Plain)
    (found : Token) :
    Keeps k outside (fun _ => check found outcome) m fun m' value => value.Proper k m' := by
  cases outcome with
  | ok value =>
      exact keeps_pure hm (hvalue value rfl).proper
  | error fault =>
      exact .of_error hm rfl

include heval

/-- A part of a part that opens no scope. -/
theorem keeps_child
    {part : Part}
    {e : Expr}
    (hpart : k.program.at? a = some part)
    (hscope : part.isScope = false)
    (hchild : .expr e ∈ part.children)
    (hm : m.Proper k)
    (hstands : m.Stands k m.current (k.program.scopesAround a)) :
    Keeps k outside (fun w => eval w e) m fun m' value =>
      value.Proper k m' ∧ k.seen (.evaluated e value) m' := by
  obtain ⟨i, he, hscopes⟩ := Part.exists_child hpart hchild
  rw [hscope] at hscopes
  exact heval he hm (hscopes ▸ hstands)

include hnamed

/-- Evaluation keeps machines proper if it does for parts and bodies. -/
theorem keeps_evalStep
    {body : Watcher → List Stmt → Run Flow}
    {e : Expr}
    (hbody : BodyKeeps k outside body)
    (σ : Setting)
    (he : k.program.at? a = some (.expr e))
    (hm : m.Proper k)
    (hstands : m.Stands k m.current (k.program.scopesAround a)) :
    Keeps k outside (fun w => evalStep σ (eval w) (body w) e) m fun m' value =>
      value.Proper k m' := by
  have hpart : ∀ {e' m'}, Part.expr e' ∈ (Part.expr e).children → m.Onward m' →
      m'.current = m.current → m'.Proper k →
      Keeps k outside (fun w => eval w e') m' fun m' value =>
        value.Proper k m' ∧ k.seen (.evaluated e' value) m' :=
    fun hchild honward hcurrent hm' =>
      keeps_child heval he rfl hchild hm' (hstands.after honward hcurrent)
  cases e with
  | literal value =>
      refine keeps_pure hm ?_
      cases value <;> trivial
  | grouping inner =>
      exact (hpart (by simp [Part.children]) (.refl m) rfl hm).weaken fun _ h => h.1
  | unary operator right =>
      refine (hpart (by simp [Part.children]) (.refl m) rfl hm).bind ?_
      rintro m₁ value - - hm₁ -
      exact keeps_check hm₁ (fun _ => Operator.unary_plain) operator
  | binary left operator right =>
      refine (hpart (by simp [Part.children]) (.refl m) rfl hm).bind ?_
      rintro m₁ x honward₁ hcurrent₁ hm₁ -
      refine (hpart (by simp [Part.children]) honward₁ hcurrent₁ hm₁).bind ?_
      rintro m₂ y - - hm₂ -
      refine (keeps_read hm₂ Machine.objects).bind ?_
      rintro m₂ objects - - hm₂ -
      exact keeps_check hm₂ (fun _ => Operator.binary_plain) operator
  | logical left operator right =>
      refine (hpart (by simp [Part.children]) (.refl m) rfl hm).bind ?_
      rintro m₁ x honward₁ hcurrent₁ hm₁ ⟨hx, -⟩
      by_cases hdecides : Operator.decides operator x
      · simp only [hdecides, if_true]
        exact keeps_pure hm₁ hx
      · simp only [hdecides]
        exact (hpart (by simp [Part.children]) honward₁ hcurrent₁ hm₁).weaken fun _ h => h.1
  | var id name =>
      exact keeps_readVariable hm σ id name
  | assign id name value =>
      refine (hpart (by simp [Part.children]) (.refl m) rfl hm).bind ?_
      rintro m₁ v honward₁ hcurrent₁ hm₁ ⟨hv, -⟩
      refine (keeps_writeVariable hm₁ (hnamed he rfl) hv σ id).bind ?_
      intro m₂ _ honward₂ _ hm₂ _
      exact keeps_pure hm₂ (hv.mono honward₂)
  | call callee paren arguments =>
      refine (hpart (by simp [Part.children]) (.refl m) rfl hm).bind ?_
      rintro m₁ f honward₁ hcurrent₁ hm₁ ⟨hf, -⟩
      refine (keeps_evalAll heval (Part.exists_argument he) hm₁
        (hstands.after honward₁ hcurrent₁)).bind ?_
      intro m₂ values honward₂ _ hm₂ hvalues
      exact keeps_call hnamed hbody hm₂ (hf.mono honward₂) hvalues σ paren
  | get object name =>
      refine (hpart (by simp [Part.children]) (.refl m) rfl hm).bind ?_
      rintro m₁ o - - hm₁ -
      exact keeps_property hm₁ name
  | set object name value =>
      refine (hpart (by simp [Part.children]) (.refl m) rfl hm).bind ?_
      rintro m₁ o honward₁ hcurrent₁ hm₁ -
      cases o with
      | object place =>
          refine (hpart (by simp [Part.children]) honward₁ hcurrent₁ hm₁).bind ?_
          rintro m₂ v - - hm₂ ⟨hv, -⟩
          refine (keeps_setField hm₂ hv place).bind ?_
          intro m₃ _ honward₃ _ hm₃ _
          exact keeps_pure hm₃ (hv.mono honward₃)
      | _ =>
          exact .of_error hm₁ rfl
  | this id keyword =>
      exact keeps_readVariable hm σ id keyword
  | super id keyword method =>
      exact keeps_superMethod hm hstands σ id keyword method

/-- Execution keeps machines proper if it does for parts. -/
theorem keeps_execStep
    {exec : Watcher → Stmt → Run Flow}
    {s : Stmt}
    (hexec : ExecKeeps k outside exec)
    (rounds : Nat)
    (hs : k.program.at? a = some (.stmt s))
    (hseen : k.seen (.executes s) m)
    (hm : m.Proper k)
    (hstands : m.Stands k m.current (k.program.scopesAround a)) :
    Keeps k outside (fun w => execStep (eval w) (exec w) rounds s) m fun m' flow =>
      flow.Proper k m' := by
  have hexpr : ∀ {e m'}, (Part.stmt s).isScope = false → Part.expr e ∈ (Part.stmt s).children →
      m'.Proper k → m'.Stands k m'.current (k.program.scopesAround a) →
      Keeps k outside (fun w => eval w e) m' fun m' value =>
        value.Proper k m' ∧ k.seen (.evaluated e value) m' :=
    fun hscope hchild hm' hstands' => keeps_child heval hs hscope hchild hm' hstands'
  have hstmt : ∀ {s' m'}, (Part.stmt s).isScope = false → Part.stmt s' ∈ (Part.stmt s).children →
      m'.Proper k → m'.Stands k m'.current (k.program.scopesAround a) →
      Keeps k outside (fun w => exec w s') m' fun m' flow => flow.Proper k m' := by
    intro s' m' hscope hchild hm' hstands'
    obtain ⟨i, hs', hscopes⟩ := Part.exists_child hs hchild
    rw [hscope] at hscopes
    exact hexec hs' hm' (hscopes ▸ hstands')
  cases s with
  | expression e =>
      refine (hexpr rfl (by simp [Part.children]) hm hstands).bind ?_
      rintro m₁ _ - - hm₁ -
      exact keeps_pure hm₁ trivial
  | print e =>
      refine (hexpr rfl (by simp [Part.children]) hm hstands).bind ?_
      rintro m₁ value - - hm₁ -
      refine (keeps_read hm₁ Machine.objects).bind ?_
      rintro m₁ objects - - hm₁ -
      refine keeps_same hm₁ rfl rfl rfl rfl ?_
      trivial
  | var name initializer =>
      have hname : Ordinary name.lexeme := hnamed hs rfl
      cases initializer with
      | none =>
          have hnil : Value.nil.Proper k m := trivial
          refine (keeps_define hm hname hnil).bind ?_
          intro m₁ _ _ _ hm₁ _
          exact keeps_pure hm₁ trivial
      | some e =>
          refine (hexpr rfl (by simp [Part.children, Part.ofOption]) hm hstands).bind ?_
          rintro m₁ value - - hm₁ ⟨hvalue, -⟩
          refine (keeps_define hm₁ hname hvalue).bind ?_
          intro m₂ _ _ _ hm₂ _
          exact keeps_pure hm₂ trivial
  | block body =>
      refine (keeps_read hm Machine.current).bind ?_
      rintro m outer - - hm ⟨rfl, rfl⟩
      refine (keeps_pushFrame hm m.current).bind ?_
      rintro m₁ frame honward₁ hcurrent₁ hm₁ ⟨rfl, rfl⟩
      have hstands₁ := hstands.push hs rfl
      refine keeps_within hm₁ ?_
      refine keeps_execAll hexec (Course.hasBody_of_scope hs rfl fun s hs => List.mem_map_of_mem hs)
        ?_ (hstands₁.mono (.of_same rfl rfl))
      refine hm₁.enter hstands₁.lt_size ?_
      intro name _
      rw [Frames.lookup?_push, Frames.lookup?_of_size_le (Nat.le_refl _)]
  | ifThen condition thenBranch =>
      refine (hexpr rfl (by simp [Part.children]) hm hstands).bind ?_
      rintro m₁ value honward₁ hcurrent₁ hm₁ -
      have hstands₁ := hstands.after honward₁ hcurrent₁
      cases value.isTruthy with
      | true =>
          exact hstmt rfl (by simp [Part.children]) hm₁ hstands₁
      | false =>
          exact keeps_pure hm₁ trivial
  | ifElse condition thenBranch elseBranch =>
      refine (hexpr rfl (by simp [Part.children]) hm hstands).bind ?_
      rintro m₁ value honward₁ hcurrent₁ hm₁ -
      have hstands₁ := hstands.after honward₁ hcurrent₁
      cases value.isTruthy with
      | true =>
          exact hstmt rfl (by simp [Part.children]) hm₁ hstands₁
      | false =>
          exact hstmt rfl (by simp [Part.children]) hm₁ hstands₁
  | loop condition body =>
      refine keeps_repeatWhile ?_ ?_ rounds hm hstands
      · intro m' hm' hstands'
        exact (hexpr rfl (by simp [Part.children]) hm' hstands').weaken fun _ h => h.1
      · intro m' hm' hstands'
        exact hstmt rfl (by simp [Part.children]) hm' hstands'
  | function decl =>
      have hname : Ordinary decl.name.lexeme := hnamed hs rfl
      refine (keeps_read hm Machine.current).bind ?_
      rintro m outer - - hm ⟨rfl, rfl⟩
      -- That the statement was seen on this very machine is what makes the function `Declared`.
      have hvalue : (Value.function m.functionCount ⟨decl, m.current, false⟩).Proper k m := by
        obtain ⟨i, hchild, hscopes⟩ := Part.exists_child hs List.mem_cons_self
        exact ⟨⟨_, _, hchild, hscopes ▸ hstands⟩, .inl ⟨m, hseen, rfl, rfl⟩⟩
      refine (keeps_newFunction hm hvalue).bind ?_
      intro m₁ f _ _ hm₁ hf
      refine (keeps_define hm₁ hname hf).bind ?_
      intro m₂ _ _ _ hm₂ _
      exact keeps_pure hm₂ trivial
  | ret keyword value =>
      cases value with
      | none =>
          exact keeps_pure hm trivial
      | some e =>
          refine (hexpr rfl (by simp [Part.children, Part.ofOption]) hm hstands).bind ?_
          rintro m₁ value - - hm₁ ⟨hvalue, -⟩
          exact keeps_pure hm₁ hvalue
  | classDecl name superclass methods =>
      cases superclass with
      | none =>
          refine (keeps_declareClass_plain hm hnamed hs hstands).bind ?_
          intro m₁ _ _ _ hm₁ _
          exact keeps_pure hm₁ trivial
      | some superclass =>
          -- The value of the superclass is seen last before the class is made; the class keeps that
          -- sight, and no later binding of the name can touch it.
          obtain ⟨i, hparent, hscopes⟩ := Part.exists_child hs List.mem_cons_self
          refine (keeps_child heval hparent rfl List.mem_cons_self hm (hscopes ▸ hstands)).bind ?_
          rintro m₁ value honward₁ hcurrent₁ hm₁ ⟨hvalue, hseen₁⟩
          cases value with
          | cls parent =>
              refine (keeps_declareClass_derived hm₁ hnamed hs (hstands.after honward₁ hcurrent₁)
                hvalue hseen₁).bind ?_
              intro m₂ _ _ _ hm₂ _
              exact keeps_pure hm₂ trivial
          | _ =>
              exact .of_error hm₁ rfl

end Steps

/-- Watched evaluation and execution keep machines proper, with any amount of fuel. -/
theorem keeps_watched
    {k : Course}
    (hnamed : k.program.Named)
    (outside : RuntimeError)
    (σ : Setting)
    (fuel : Nat) :
    EvalKeeps k outside (fun w => evalWatched σ w fuel) ∧
      ExecKeeps k outside fun w => execWatched σ w fuel := by
  induction fuel with
  | zero =>
      constructor
      · intro a e m he hm hstands
        refine (Keeps.pass (.evaluates e) hm ⟨a, he, hstands⟩).bind ?_
        rintro m _ - - hm -
        exact .of_error hm rfl
      · intro a s m hs hm hstands
        refine (Keeps.pass (.executes s) hm ⟨a, hs, hstands⟩).bind ?_
        rintro m _ - - hm -
        exact .of_error hm rfl
  | succ fuel ih =>
      obtain ⟨heval, hexec⟩ := ih
      constructor
      · intro a e m he hm hstands
        refine (Keeps.pass (.evaluates e) hm ⟨a, he, hstands⟩).bind ?_
        rintro m _ - - hm ⟨rfl, -⟩
        refine (keeps_evalStep hnamed heval (keeps_execAll hexec) σ he hm hstands).bind ?_
        intro m₁ value _ _ hm₁ hvalue
        refine (Keeps.pass (.evaluated e value) hm₁ hvalue).bind ?_
        rintro m₁ _ - - hm₁ ⟨rfl, hseen⟩
        exact keeps_pure hm₁ ⟨hvalue, hseen⟩
      · intro a s m hs hm hstands
        refine (Keeps.pass (.executes s) hm ⟨a, hs, hstands⟩).bind ?_
        rintro m _ - - hm ⟨rfl, hseen⟩
        refine (keeps_execStep hnamed heval hexec fuel hs hseen hm hstands).bind ?_
        intro m₁ flow _ _ hm₁ hflow
        refine (Keeps.pass (.executed s flow) hm₁ hflow).bind ?_
        rintro m₁ _ - - hm₁ ⟨rfl, -⟩
        exact keeps_pure hm₁ hflow

theorem Machine.start_stands
    (k : Course) :
    Machine.start.Stands k Machine.start.current [] := by
  have hproper := Machine.Proper.start k
  exact ⟨rfl, hproper.current, by rw [Machine.start, Frames.enclosing?_define]; rfl,
    hproper.bare "this" not_ordinary_this⟩

/-- Statements of the top level have no scopes around them. -/
theorem Course.hasBody_of_subset
    {k : Course}
    {statements portion : List Stmt}
    (hprogram : k.program = .program statements)
    (hportion : portion ⊆ statements) :
    k.HasBody [] portion := by
  intro s hs
  rw [hprogram]
  obtain ⟨i, hat, hscopes⟩ := Part.exists_child
    (rfl : (Part.program statements).at? [] = some (.program statements))
    (List.mem_map_of_mem (hportion hs))
  exact ⟨_, hat, hscopes⟩

/-- The course of a program that is run. -/
def Course.ofRun (σ : Setting) (fuel : Nat) (statements : List Stmt) : Course where
  program := .program statements
  seen := Machine.Meets σ fuel statements
  last := (execAll (exec σ fuel) statements .start).2

/-- Everything that is met is as it should be. -/
theorem Machine.Meets.fine
    {σ : Setting}
    {fuel : Nat}
    {statements : List Stmt}
    {x : Sight}
    {m : Machine}
    (hnamed : (Part.program statements).Named)
    (h : Machine.Meets σ fuel statements x m) :
    (Course.ofRun σ fuel statements).Fine x m := by
  let k := Course.ofRun σ fuel statements
  let outside : RuntimeError := ⟨⟨.identifier, "", 0⟩, .notCallable⟩
  have hbody : k.HasBody [] statements := Course.hasBody_of_subset rfl (List.Subset.refl _)
  have hkeeps := keeps_execAll (keeps_watched hnamed outside σ fuel).2 hbody (.start k)
    (Machine.start_stands k)
  -- A run in which everything met is fine is the same under a watcher that stops where it is not.
  refine h.holds outside fun error => hkeeps.same error ?_
  rw [show k.last = _ from congrArg Prod.snd (Machine.demanding_meets outside).symm]
  exact .refl _

end Lox
