import Lox.Proofs.Machine.Binding
import Lox.Proofs.Machine.Dispatch

/-!
# Where returns can come from

A statement ends with a return only if a return statement stands in it that belongs to no function
inside it; and if none of these has a value, what is returned is `nil`.  The scope rules leave no such
statement outside functions, and none with a value in an initializer.  So nothing returns from the
top level of an accepted program: running it is running its statements one by one, and none is left
out.
-/

namespace Lox

open Run

namespace Stmt

mutual

/-- The values, where there are any, of the return statements in a statement that belong to the
function around it. -/
def returns : Stmt → List (Option Expr)
  | .ret _ value => [value]
  | .block body => returnsAll body
  | .ifThen _ thenBranch => thenBranch.returns
  | .ifElse _ thenBranch elseBranch => thenBranch.returns ++ elseBranch.returns
  | .loop _ body => body.returns
  | _ => []

def returnsAll : List Stmt → List (Option Expr)
  | [] => []
  | s :: rest => s.returns ++ returnsAll rest

end

end Stmt

/-- A flow that comes from one of the given return statements; one without a value gives `nil`. -/
inductive Flow.ComesFrom (returns : List (Option Expr)) : Flow → Prop where
  | normal : ComesFrom returns .normal
  | returned {r : Option Expr} {value : Value}
      (hr : r ∈ returns)
      (hvalue : r = none → value = .nil) :
      ComesFrom returns (.returned value)

theorem Flow.ComesFrom.mono
    {returns returns' : List (Option Expr)}
    {flow : Flow}
    (h : flow.ComesFrom returns)
    (hsubset : returns ⊆ returns') :
    flow.ComesFrom returns' := by
  cases h with
  | normal =>
      exact .normal
  | returned hr hvalue =>
      exact .returned (hsubset hr) hvalue

namespace Run

/-- Whatever the machine, a run that ends has a flow from the given return statements. -/
def ReturnsFrom (r : Run Flow) (returns : List (Option Expr)) : Prop :=
  ∀ m m' flow, r m = (.ok flow, m') → flow.ComesFrom returns

section ReturnsFrom

variable {α : Type}
variable {returns returns' : List (Option Expr)}

theorem ReturnsFrom.mono
    {r : Run Flow}
    (h : r.ReturnsFrom returns)
    (hsubset : returns ⊆ returns') :
    r.ReturnsFrom returns' :=
  fun m m' flow hrun => (h m m' flow hrun).mono hsubset

theorem returnsFrom_bind
    {r : Run α}
    {f : α → Run Flow}
    (hf : ∀ a, (f a).ReturnsFrom returns) :
    (r >>= f).ReturnsFrom returns := by
  intro m m' flow hrun
  obtain ⟨a, m₁, -, hnext⟩ := ok_of_bind hrun
  exact hf a _ _ _ hnext

theorem returnsFrom_pure
    {flow : Flow}
    (h : flow.ComesFrom returns) :
    (pure flow : Run Flow).ReturnsFrom returns := by
  intro m m' flow' hrun
  cases hrun
  exact h

theorem returnsFrom_normal :
    (pure .normal : Run Flow).ReturnsFrom returns :=
  returnsFrom_pure .normal

theorem returnsFrom_fail
    {found : Token}
    {fault : RuntimeFault} :
    (fail found fault : Run Flow).ReturnsFrom returns := by
  intro m m' flow hrun
  cases hrun

/-- What follows a statement that may have returned runs only if it did not. -/
theorem returnsFrom_andThen
    {r rest : Run Flow}
    (hr : r.ReturnsFrom returns)
    (hrest : rest.ReturnsFrom returns) :
    (do match ← r with
        | .normal => rest
        | .returned value => return .returned value : Run Flow).ReturnsFrom returns := by
  intro m m' flow hrun
  obtain ⟨first, m₁, hfirst, hnext⟩ := ok_of_bind hrun
  cases first with
  | normal =>
      exact hrest _ _ _ hnext
  | returned value =>
      cases hnext
      exact hr _ _ _ hfirst

theorem returnsFrom_within
    {r : Run Flow}
    (h : r.ReturnsFrom returns)
    (frame : Nat) :
    (within frame r).ReturnsFrom returns := by
  intro m m' flow hrun
  rcases hinner : r { m with current := frame } with ⟨result, m₁⟩
  rw [within_apply hinner] at hrun
  cases hrun
  exact h _ _ _ hinner

theorem returnsFrom_repeatWhile
    {condition : Run Value}
    {body : Run Flow}
    (hbody : body.ReturnsFrom returns)
    (count : Nat) :
    (repeatWhile condition body count).ReturnsFrom returns := by
  induction count with
  | zero =>
      intro m m' flow hrun
      cases hrun
  | succ count ih =>
      refine returnsFrom_bind fun value => ?_
      split
      · exact returnsFrom_andThen hbody ih
      · exact returnsFrom_normal

end ReturnsFrom

section Step

variable {eval : Expr → Run Value}
variable {exec : Stmt → Run Flow}
variable (hexec : ∀ s, (exec s).ReturnsFrom s.returns)

include hexec

theorem returnsFrom_execAll
    (body : List Stmt) :
    (execAll exec body).ReturnsFrom (Stmt.returnsAll body) := by
  induction body with
  | nil =>
      exact returnsFrom_normal
  | cons s rest ih =>
      rw [Stmt.returnsAll]
      exact returnsFrom_andThen ((hexec s).mono (List.subset_append_left ..))
        (ih.mono (List.subset_append_right ..))

theorem returnsFrom_execStep
    (rounds : Nat)
    (s : Stmt) :
    (execStep eval exec rounds s).ReturnsFrom s.returns := by
  cases s with
  | expression e =>
      exact returnsFrom_bind fun _ => returnsFrom_normal
  | print e =>
      exact returnsFrom_bind fun _ => returnsFrom_bind fun _ => returnsFrom_bind fun _ =>
        returnsFrom_normal
  | var name initializer =>
      cases initializer with
      | none =>
          exact returnsFrom_bind fun _ => returnsFrom_normal
      | some e =>
          exact returnsFrom_bind fun _ => returnsFrom_bind fun _ => returnsFrom_normal
  | block body =>
      rw [Stmt.returns]
      exact returnsFrom_bind fun _ => returnsFrom_bind fun frame =>
        returnsFrom_within (returnsFrom_execAll hexec body) frame
  | ifThen condition thenBranch =>
      rw [Stmt.returns]
      refine returnsFrom_bind fun value => ?_
      split
      · exact hexec thenBranch
      · exact returnsFrom_normal
  | ifElse condition thenBranch elseBranch =>
      rw [Stmt.returns]
      refine returnsFrom_bind fun value => ?_
      split
      · exact (hexec thenBranch).mono (List.subset_append_left ..)
      · exact (hexec elseBranch).mono (List.subset_append_right ..)
  | loop condition body =>
      rw [Stmt.returns]
      exact returnsFrom_repeatWhile (hexec body) rounds
  | function decl =>
      exact returnsFrom_bind fun _ => returnsFrom_bind fun _ => returnsFrom_bind fun _ =>
        returnsFrom_normal
  | ret keyword value =>
      cases value with
      | none =>
          exact returnsFrom_pure (.returned (List.mem_singleton_self none) fun _ => rfl)
      | some e =>
          exact returnsFrom_bind fun _ =>
            returnsFrom_pure (.returned (List.mem_singleton_self (some e)) nofun)
  | classDecl name superclass methods =>
      cases superclass with
      | none =>
          exact returnsFrom_bind fun _ => returnsFrom_normal
      | some superclass =>
          refine returnsFrom_bind fun value => ?_
          split
          · exact returnsFrom_bind fun _ => returnsFrom_normal
          · exact returnsFrom_fail

end Step

end Run

/-- A statement returns only through its return statements. -/
theorem returnsFrom_exec
    (σ : Setting)
    (n : Nat)
    (s : Stmt) :
    (exec σ n s).ReturnsFrom s.returns := by
  induction n generalizing s with
  | zero =>
      intro m m' flow hrun
      cases hrun
  | succ n ih =>
      exact returnsFrom_execStep ih n s

section Position

variable {program : Part}
variable {around : Option Part}
variable {r : Option Expr}

mutual

/-- A return statement that belongs to the function around a statement has an address with the same
function around it. -/
theorem Stmt.exists_return
    (s : Stmt)
    {p : Address}
    (hs : program.at? p = some (.stmt s))
    (haround : program.innermost? Part.isFunction p = around)
    (hr : r ∈ s.returns) :
    ∃ q keyword, program.at? q = some (.stmt (.ret keyword r)) ∧
      program.innermost? Part.isFunction q = around := by
  have hchild : ∀ {t}, .stmt t ∈ (Part.stmt s).children →
      ∃ q, program.at? q = some (.stmt t) ∧ program.innermost? Part.isFunction q = around := by
    intro t ht
    obtain ⟨i, hi, -⟩ := Part.exists_child hs ht
    exact ⟨p ++ [i], hi, (Part.innermost?_snoc hs Part.isFunction i).trans haround⟩
  cases s with
  | ret keyword value =>
      cases List.mem_singleton.mp hr
      exact ⟨p, keyword, hs, haround⟩
  | block body =>
      rw [Stmt.returns] at hr
      exact Stmt.exists_return_of_mem body (fun t ht => hchild (List.mem_map_of_mem ht)) hr
  | ifThen condition thenBranch =>
      rw [Stmt.returns] at hr
      obtain ⟨q, hq, hsame⟩ := @hchild thenBranch (by simp [Part.children])
      exact thenBranch.exists_return hq hsame hr
  | ifElse condition thenBranch elseBranch =>
      rw [Stmt.returns, List.mem_append] at hr
      rcases hr with hr | hr
      · obtain ⟨q, hq, hsame⟩ := @hchild thenBranch (by simp [Part.children])
        exact thenBranch.exists_return hq hsame hr
      · obtain ⟨q, hq, hsame⟩ := @hchild elseBranch (by simp [Part.children])
        exact elseBranch.exists_return hq hsame hr
  | loop condition body =>
      rw [Stmt.returns] at hr
      obtain ⟨q, hq, hsame⟩ := @hchild body (by simp [Part.children])
      exact body.exists_return hq hsame hr
  | _ =>
      cases hr

theorem Stmt.exists_return_of_mem
    (body : List Stmt)
    (hbody : ∀ s ∈ body, ∃ p, program.at? p = some (.stmt s) ∧
      program.innermost? Part.isFunction p = around)
    (hr : r ∈ Stmt.returnsAll body) :
    ∃ q keyword, program.at? q = some (.stmt (.ret keyword r)) ∧
      program.innermost? Part.isFunction q = around := by
  cases body with
  | nil =>
      cases hr
  | cons s rest =>
      rw [Stmt.returnsAll, List.mem_append] at hr
      rcases hr with hr | hr
      · obtain ⟨p, hp, hsame⟩ := hbody s List.mem_cons_self
        exact s.exists_return hp hsame hr
      · exact Stmt.exists_return_of_mem rest
          (fun t ht => hbody t (List.mem_cons_of_mem _ ht)) hr

end

end Position

/-- Whenever the body of a function ends with a return, it returns `nil`. -/
def FunctionDecl.GivesNil (σ : Setting) (decl : FunctionDecl) : Prop :=
  ∀ n m value m', execAll (exec σ n) decl.body m = (.ok (.returned value), m') → value = .nil

/-- A method that is an initializer is at hand: bound, or in the table of a class. -/
inductive Machine.HasInitializer (m : Machine) (x : Sight) : FunctionDecl → Prop where
  | bound {identity : Nat} {closure : Closure}
      (hvalue : m.Has x (.function identity closure))
      (hinitializer : closure.isInitializer = true) :
      HasInitializer m x closure.decl
  | ofClass {c owner : Class} {closure : Closure}
      (hclass : m.Has x (.cls c))
      (howner : owner ∈ c.lineage)
      (hmethod : owner.methods.lookup initializerName = some closure) :
      HasInitializer m x closure.decl
  | ofObject {place : Nat} {o : Instance} {owner : Class} {closure : Closure}
      (ho : m.objects[place]? = some o)
      (howner : owner ∈ o.cls.lineage)
      (hmethod : owner.methods.lookup initializerName = some closure) :
      HasInitializer m x closure.decl

/-- A method in the table of a proper class is declared in the program, under its name. -/
theorem Class.Proper.exists_method
    {k : Course}
    {m : Machine}
    {c owner : Class}
    {name : String}
    {closure : Closure}
    (hc : c.Proper k m)
    (howner : owner ∈ c.lineage)
    (hmethod : owner.methods.lookup name = some closure) :
    ∃ p, k.program.at? p = some (.function .method closure.decl) ∧
      closure.decl.name.lexeme = name := by
  obtain ⟨body, frame, hmade, -, -⟩ := hc owner howner
  obtain ⟨methods, hbody, htable⟩ := hmade.body
  rw [htable] at hmethod
  obtain ⟨decl, hdecl, hname, rfl⟩ := mem_methodTable hmethod
  obtain ⟨i, hi, -⟩ := Part.exists_child hbody (List.mem_map_of_mem hdecl)
  exact ⟨_, hi, hname⟩

/-- Every initializer at hand is declared in the program. -/
theorem Machine.Meets.exists_initializer
    {σ : Setting}
    {fuel : Nat}
    {statements : List Stmt}
    {x : Sight}
    {m : Machine}
    {decl : FunctionDecl}
    (hnamed : (Part.program statements).Named)
    (hmeets : Machine.Meets σ fuel statements x m)
    (hhas : m.HasInitializer x decl) :
    ∃ p, (Part.program statements).at? p = some (.function .method decl) ∧
      decl.name.lexeme = initializerName := by
  have hfine := hmeets.fine hnamed
  cases hhas with
  | bound hvalue hinitializer =>
      obtain ⟨-, horigin⟩ := hfine.has hvalue
      rcases horigin with hdeclared | ⟨place, o, c, outer, -, ho, hc, hmethod, -, -, hinit⟩
      · rw [hdeclared.isInitializer_eq_false] at hinitializer
        cases hinitializer
      · obtain ⟨p, hdecl, -⟩ := (hfine.proper.objects ho).1.exists_method hc hmethod
        exact ⟨p, hdecl, hinit.mp hinitializer⟩
  | ofClass hclass howner hmethod =>
      exact Class.Proper.exists_method (hfine.has hclass) howner hmethod
  | ofObject ho howner hmethod =>
      exact (hfine.proper.objects ho).1.exists_method howner hmethod

section Accepted

variable {source : String}
variable {statements : List Stmt}
variable {locals : Locals}

/-- No return statement of an accepted program stands outside functions. -/
theorem Session.Accepts.returns_eq_nil
    (h : Session.Accepts source statements locals)
    {s : Stmt}
    (hs : s ∈ statements) :
    s.returns = [] := by
  rw [List.eq_nil_iff_forall_not_mem]
  intro r hr
  let program : Part := .program statements
  have hroot : program.at? [] = some program := rfl
  obtain ⟨i, hi, -⟩ := Part.exists_child hroot (List.mem_map_of_mem hs)
  have houtside : program.innermost? Part.isFunction ([] ++ [i]) = none :=
    Part.innermost?_snoc hroot Part.isFunction i
  obtain ⟨q, keyword, hq, hnone⟩ := s.exists_return hi houtside hr
  exact h.not_violation q _ (.topLevelReturn hq hnone)

/-- No return statement that belongs to an initializer of an accepted program has a value. -/
theorem Session.Accepts.eq_none_of_returns
    (h : Session.Accepts source statements locals)
    {p : Address}
    {decl : FunctionDecl}
    (hdecl : (Part.program statements).at? p = some (.function .method decl))
    (hname : decl.name.lexeme = initializerName)
    {r : Option Expr}
    (hr : r ∈ Stmt.returnsAll decl.body) :
    r = none := by
  have hbody : ∀ s ∈ decl.body, ∃ q, (Part.program statements).at? q = some (.stmt s) ∧
      (Part.program statements).innermost? Part.isFunction q = some (.function .method decl) := by
    intro s hs
    obtain ⟨i, hi, -⟩ := Part.exists_child hdecl
      (List.mem_append_right _ (List.mem_map_of_mem hs))
    exact ⟨p ++ [i], hi, Part.innermost?_snoc hdecl Part.isFunction i⟩
  obtain ⟨q, keyword, hq, hinside⟩ := Stmt.exists_return_of_mem decl.body hbody hr
  cases r with
  | none =>
      rfl
  | some value =>
      exact absurd (.initializerReturn hq hinside hname) (h.not_violation q _)

theorem Session.Accepts.givesNil
    (h : Session.Accepts source statements locals)
    {p : Address}
    {decl : FunctionDecl}
    (hdecl : (Part.program statements).at? p = some (.function .method decl))
    (hname : decl.name.lexeme = initializerName)
    (σ : Setting) :
    decl.GivesNil σ := by
  intro n m value m' hrun
  cases returnsFrom_execAll (returnsFrom_exec σ n) decl.body _ _ _ hrun with
  | returned hr hnil =>
      exact hnil (h.eq_none_of_returns hdecl hname hr)

end Accepted

namespace Machine

/-- Runs each statement by itself on the same machine, up to the first one that stops. -/
def interpretEach (σ : Setting) (fuel : Nat) : List Stmt → Run Unit
  | [] => pure ()
  | s :: rest => do
      interpret σ fuel [s]
      interpretEach σ fuel rest

/-- Where no statement returns, the rest of the list is run after every statement that ends. -/
theorem interpret_eq_interpretEach
    {σ : Setting}
    {fuel : Nat}
    {statements : List Stmt}
    (h : ∀ s ∈ statements, s.returns = [])
    (m : Machine) :
    interpret σ fuel statements m = interpretEach σ fuel statements m := by
  induction statements generalizing m with
  | nil =>
      rfl
  | cons s rest ih =>
      have hrest := ih fun t ht => h t (List.mem_cons_of_mem _ ht)
      rcases hrun : exec σ fuel s m with ⟨result, m'⟩
      simp only [interpret, interpretEach, execAll, bind_apply, hrun]
      cases result with
      | error stop =>
          rfl
      | ok flow =>
          have hflow := returnsFrom_exec σ fuel s _ _ _ hrun
          rw [h s List.mem_cons_self] at hflow
          cases hflow with
          | normal =>
              exact hrest m'
          | returned hr _ =>
              cases hr

end Machine

/-- In an accepted program no statement of the top level ends with a return, on no machine; the body
of an initializer, be it one of the program or one at hand in a run, returns nothing but `nil`; and
running the program is running its statements one by one, up to the first one that stops, with the
same lines, the same result and the same variables. -/
theorem returns_stay_in_functions
    {source : String}
    {statements : List Stmt}
    {locals : Locals}
    (haccepts : Session.Accepts source statements locals)
    (clock : Nat → Float)
    (fuel : Nat) :
    let σ : Setting := ⟨locals, clock⟩
    (∀ s ∈ statements, ∀ n m value m', exec σ n s m ≠ (.ok (.returned value), m')) ∧
    (∀ p decl, (Part.program statements).at? p = some (.function .method decl) →
      decl.name.lexeme = initializerName → decl.GivesNil σ) ∧
    (∀ x m decl, Machine.Meets σ fuel statements x m → m.HasInitializer x decl →
      decl.GivesNil σ) ∧
    ∀ m, Machine.interpret σ fuel statements m = Machine.interpretEach σ fuel statements m := by
  intro σ
  obtain ⟨-, hnamed, -, -⟩ := haccepts.named
  refine ⟨?_, ?_, ?_, ?_⟩
  · intro s hs n m value m' hrun
    have hflow := returnsFrom_exec σ n s _ _ _ hrun
    rw [haccepts.returns_eq_nil hs] at hflow
    cases hflow with
    | returned hr _ =>
        cases hr
  · intro p decl hdecl hname
    exact haccepts.givesNil hdecl hname σ
  · intro x m decl hmeets hhas
    obtain ⟨p, hdecl, hname⟩ := hmeets.exists_initializer hnamed hhas
    exact haccepts.givesNil hdecl hname σ
  · exact Machine.interpret_eq_interpretEach fun s hs => haccepts.returns_eq_nil hs

/-- In `class A{init(){return;}}A().init;`, an initializer with a return statement is at hand. -/
theorem returns_stay_in_functions_initializer :
    ∃ statements locals x m decl,
      Session.Accepts "class A{init(){return;}}A().init;" statements locals ∧
      Machine.Meets ⟨locals, fun _ => 0⟩ 6 statements x m ∧
      m.HasInitializer x decl ∧ decl.GivesNil ⟨locals, fun _ => 0⟩ ∧
      (∀ s ∈ statements, ∀ n m value m',
        exec ⟨locals, fun _ => 0⟩ n s m ≠ (.ok (.returned value), m')) ∧
      Machine.interpret ⟨locals, fun _ => 0⟩ 6 statements .start =
        Machine.interpretEach ⟨locals, fun _ => 0⟩ 6 statements .start := by
  obtain ⟨statements, locals, haccepts, hstops, hends⟩ :
      ∃ statements locals,
        Session.Accepts "class A{init(){return;}}A().init;" statements locals ∧
        (execAll (execWatched ⟨locals, fun _ => 0⟩ (.finding (fun x _ => x.givesInitializer)
          ⟨⟨.identifier, "", 0⟩, .notCallable⟩) 6) statements .start).1.isOk = false ∧
        (execAll (exec ⟨locals, fun _ => 0⟩ 6) statements .start).1.isOk = true := by
    refine ⟨_, _, Session.accepts_analyse _ ?_, ?_, ?_⟩
    · decide +kernel
    · decide +kernel
    · decide +kernel
  obtain ⟨x, m, htest, hmeets⟩ := Machine.exists_meets_of_finding _ hstops hends
  obtain ⟨htop, -, hgives, hsame⟩ := returns_stay_in_functions haccepts (fun _ => 0) 6
  unfold Sight.givesInitializer at htest
  split at htest
  · rename_i e identity closure
    have hhas : m.HasInitializer (.evaluated e (.function identity closure)) closure.decl :=
      .bound (.evaluated e _) htest
    exact ⟨statements, locals, _, m, closure.decl, haccepts, hmeets, hhas,
      hgives _ m _ hmeets hhas, htop, hsame .start⟩
  · cases htest

end Lox
