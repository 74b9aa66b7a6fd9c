import Lox.Proofs.Machine.Confined
import Lox.Proofs.Machine.Dispatch
import Lox.Proofs.Machine.Served

/-!
# Nothing leaks, at any sight of a run

In a program without faults, whatever is seen of a run is served on a sound machine, and all values at
hand are sound.  So from every sight on, a block and a call are confined: the frames that there are
have the names that they had.
-/

namespace Lox

open Run

/-- What is at hand is sound. -/
theorem Machine.Has.sound
    {visits : List Visit}
    {m : Machine}
    {x : Sight}
    {value : Value}
    (h : m.Has x value)
    (hm : m.Sound visits)
    (hx : x.Served visits m) :
    value.Sound visits m := by
  cases h with
  | bound hvalue =>
      exact (hm.bound hvalue).1
  | field ho hvalue =>
      exact (hm.objects ho).2 _ _ hvalue
  | evaluated e value =>
      exact hx
  | returned s value =>
      exact hx value rfl

section Sights

variable {visits : List Visit}
variable {σ : Setting}
variable {m : Machine}
variable (hgood : ∀ v ∈ visits, v.Good σ.locals)
variable (hm : m.Sound visits)

include hgood hm

/-- A block runs in a frame of its own. -/
theorem sameNames_of_block
    {body : List Stmt}
    (hserved : (Sight.executes (.block body)).Served visits m)
    (n : Nat) :
    m.frames.SameNames m.frames.size (exec σ n (.block body) m).2.frames := by
  obtain ⟨ctx, scopes, hvisits, hcovers⟩ := hserved
  cases n with
  | zero =>
      exact fun _ _ _ => Iff.rfl
  | succ n =>
      have hconfined : Confined m.frames.size (exec σ (n + 1) (.block body)) m :=
        confined_block (eval_exec_confined hgood n).2
          (fun v hv => hvisits v (List.mem_cons_of_mem _ hv)) hm hcovers
      exact (hconfined (Nat.le_refl _)).2

/-- Whatever is called runs in frames of its own. -/
theorem sameNames_of_call
    {callee : Value}
    {values : List Value}
    (hcallee : callee.Sound visits m)
    (hvalues : ∀ value ∈ values, value.Sound visits m)
    (paren : Token)
    (n : Nat) :
    m.frames.SameNames m.frames.size
      (callee.call σ (execAll (exec σ n)) paren values m).2.frames :=
  (confined_call hgood (confined_execAll (eval_exec_confined hgood n).2) hm hcallee hvalues
    (Nat.le_refl _)).2

end Sights

/-- Nothing leaks out of a block or a call, in every run of an accepted source.

Wherever a block is executed, and wherever a call is evaluated and the callee and the arguments have
values, the frames that there are then have the same names afterwards, the global frame included; so
they do if anything at hand, wherever it is, is called with values at hand.  It is said for any
amount of fuel, and so of a block or a call that goes on, that ends, and that fails. -/
theorem blocks_and_calls_bind_nothing_outside
    {source : String}
    {statements : List Stmt}
    {locals : Locals}
    (haccepts : Session.Accepts source statements locals)
    (clock : Nat → Float)
    (fuel : Nat) :
    let σ : Setting := ⟨locals, clock⟩
    (∀ body m n, Machine.Meets σ fuel statements (.executes (.block body)) m →
      m.frames.SameNames m.frames.size (exec σ n (.block body) m).2.frames) ∧
    (∀ callee paren arguments m n f m₁ values m₂ k,
      Machine.Meets σ fuel statements (.evaluates (.call callee paren arguments)) m →
      eval σ n callee m = (.ok f, m₁) →
      evalAll (eval σ n) arguments m₁ = (.ok values, m₂) →
      m₂.frames.SameNames m₂.frames.size
        (f.call σ (execAll (exec σ k)) paren values m₂).2.frames) ∧
    ∀ x m f paren values k, Machine.Meets σ fuel statements x m →
      m.Has x f → (∀ value ∈ values, m.Has x value) →
      m.frames.SameNames m.frames.size
        (f.call σ (execAll (exec σ k)) paren values m).2.frames := by
  intro σ
  have hgood : ∀ v ∈ Stmt.walk statements, v.Good σ.locals := haccepts.good
  refine ⟨?_, ?_, ?_⟩
  · intro body m n hmeets
    obtain ⟨hm, hserved⟩ := hmeets.served hgood fun _ h => h
    exact sameNames_of_block hgood hm hserved n
  · intro callee paren arguments m n f m₁ values m₂ k hmeets hcallee harguments
    obtain ⟨hm, ctx, scopes, hvisits, hserves⟩ := hmeets.served hgood fun _ h => h
    have hcovers := hserves.covers (by simp)
    have heval := (eval_exec_safe hgood n).1
    obtain ⟨hlater₁, hm₁, hf⟩ := (heval (fun v hv => hvisits v (List.mem_append_left _ hv)) hm
      (.inl hcovers)).ok hcallee
    obtain ⟨hlater₂, hm₂, hvalues⟩ := (safe_evalAll heval
      (fun v hv => hvisits v (List.mem_append_right _ (List.mem_append_left _ hv))) hm₁
      (hlater₁.covers hcovers)).ok harguments
    exact sameNames_of_call hgood hm₂ (hf.mono hlater₂.frames hlater₂.objects) hvalues paren k
  · intro x m f paren values k hmeets hf hvalues
    obtain ⟨hm, hserved⟩ := hmeets.served hgood fun _ h => h
    exact sameNames_of_call hgood hm (hf.sound hm hserved)
      (fun value hvalue => (hvalues value hvalue).sound hm hserved) paren k

/-- A block is about to be executed, and the global frame has a name. -/
def Sight.entersBlock (name : String) (m : Machine) : Sight → Bool
  | .executes (.block _) => (m.frames.lookup? 0 name).isSome
  | _ => false

/-- In `var a;fun f(b){a=b;var c;}{f(1);}`, the block leaves the global frame with the names it had,
though what is called in it assigns one of them and declares a variable. -/
theorem blocks_and_calls_bind_nothing_outside_assigned :
    ∃ statements locals body m,
      Session.Accepts "var a;fun f(b){a=b;var c;}{f(1);}" statements locals ∧
      Machine.Meets ⟨locals, fun _ => 0⟩ 8 statements (.executes (.block body)) m ∧
      m.frames.Bound 0 "a" ∧
      ∀ name, (exec ⟨locals, fun _ => 0⟩ 8 (.block body) m).2.frames.Bound 0 name ↔
        m.frames.Bound 0 name := by
  obtain ⟨statements, locals, haccepts, hstops, hends⟩ :
      ∃ statements locals,
        Session.Accepts "var a;fun f(b){a=b;var c;}{f(1);}" statements locals ∧
        (execAll (execWatched ⟨locals, fun _ => 0⟩ (.finding (fun x m => x.entersBlock "a" m)
          ⟨⟨.identifier, "", 0⟩, .notCallable⟩) 8) statements .start).1.isOk = false ∧
        (execAll (exec ⟨locals, fun _ => 0⟩ 8) statements .start).1.isOk = true := by
    refine ⟨_, _, Session.accepts_analyse _ ?_, ?_, ?_⟩
    · decide +kernel
    · decide +kernel
    · decide +kernel
  obtain ⟨x, m, htest, hmeets⟩ := Machine.exists_meets_of_finding _ hstops hends
  unfold Sight.entersBlock at htest
  split at htest
  · rename_i body
    have hbound : m.frames.Bound 0 "a" := Option.isSome_iff_exists.mp htest
    exact ⟨statements, locals, body, m, haccepts, hmeets, hbound,
      (blocks_and_calls_bind_nothing_outside haccepts _ 8).1 body m 8 hmeets 0
        (Frames.lt_size_of_bound hbound)⟩
  · cases htest

end Lox
