import Lox.Proofs.Store.Building

/-!
# The store is well formed and only grows

Statements are run in chunks on the same machine: a whole program is one chunk, and a program that is
run statement by statement has one chunk for each.  After an error the next chunk goes on with the
machine as it is then.  Whatever the statements are, and whatever the table of local references says
about them, all machines on the way are well formed and agree with one registry of classes and
functions, and from one machine to a later one the store only grows.
-/

namespace Lox

open Run

section Sequences

variable {eval : Watcher → Expr → Run Value}
variable {exec : Watcher → Stmt → Run Flow}

theorem builds_evalAll
    (heval : EvalBuilds eval)
    {R : Registry}
    {m : Machine}
    (hm : m.Stored R)
    (es : List Expr) :
    Builds R (fun w => evalAll (eval w) es) m fun R' m' values =>
      ∀ value ∈ values, value.Exists R' m' := by
  induction es generalizing R m with
  | nil =>
      exact builds_pure hm (by simp)
  | cons e rest ih =>
      refine (heval e hm).bind ?_
      intro R₁ m₁ value _ _ _ hm₁ hvalue
      refine (ih hm₁).bind ?_
      intro R₂ m₂ values hR₂ hprecedes₂ _ hm₂ hvalues
      refine builds_pure hm₂ ?_
      intro other hother
      rcases List.mem_cons.mp hother with rfl | hother
      · exact hvalue.mono hR₂ hprecedes₂
      · exact hvalues other hother

theorem builds_execAll
    (hexec : ExecBuilds exec) :
    ExecBuilds fun w => execAll (exec w) := by
  intro R m body hm
  induction body generalizing R m with
  | nil =>
      exact builds_pure hm trivial
  | cons s rest ih =>
      refine (hexec s hm).bind ?_
      intro R₁ m₁ flow _ _ _ hm₁ hflow
      cases flow with
      | normal =>
          exact ih hm₁
      | returned value =>
          exact builds_pure hm₁ hflow

/-- A statement that does something and goes on. -/
theorem builds_normal
    {α : Type}
    {post : Registry → Machine → α → Prop}
    {r : Watcher → Run α}
    {R : Registry}
    {m : Machine}
    (hr : Builds R r m post) :
    Builds R (fun w => do
      let _ ← r w
      return Flow.normal) m fun R' m' flow => flow.Exists R' m' := by
  refine hr.bind ?_
  intro R₁ m₁ _ _ _ _ hm₁ _
  exact builds_pure hm₁ trivial

theorem builds_repeatWhile
    (heval : EvalBuilds eval)
    (hexec : ExecBuilds exec)
    (condition : Expr)
    (body : Stmt)
    {R : Registry}
    {m : Machine}
    (hm : m.Stored R)
    (count : Nat) :
    Builds R (fun w => repeatWhile (eval w condition) (exec w body) count) m
      fun R' m' flow => flow.Exists R' m' := by
  induction count generalizing R m with
  | zero =>
      exact .of_error hm rfl
  | succ count ih =>
      refine (heval condition hm).bind ?_
      intro R₁ m₁ value _ _ _ hm₁ _
      cases value.isTruthy with
      | false =>
          exact builds_pure hm₁ trivial
      | true =>
          refine (hexec body hm₁).bind ?_
          intro R₂ m₂ flow _ _ _ hm₂ hflow
          cases flow with
          | normal =>
              exact ih hm₂
          | returned value =>
              exact builds_pure hm₂ hflow

end Sequences

section Trees

variable {eval : Watcher → Expr → Run Value}
variable (heval : EvalBuilds eval)

include heval

theorem builds_evalStep
    {body : Watcher → List Stmt → Run Flow}
    (hbody : ExecBuilds body)
    (σ : Setting) :
    EvalBuilds fun w => evalStep σ (eval w) (body w) := by
  intro R m e hm
  cases e with
  | literal value =>
      refine builds_pure hm ?_
      cases value <;> trivial
  | grouping inner =>
      exact heval inner hm
  | unary operator right =>
      refine (heval right hm).bind ?_
      intro R₁ m₁ value _ _ _ hm₁ _
      exact builds_check hm₁ (fun _ h => Operator.unary_plain h) operator
  | binary left operator right =>
      refine (heval left hm).bind ?_
      intro R₁ m₁ a _ _ _ hm₁ _
      refine (heval right hm₁).bind ?_
      intro R₂ m₂ b _ _ _ hm₂ _
      refine (builds_read hm₂ Machine.objects).bind ?_
      intro R₃ m₃ objects _ _ _ hm₃ _
      exact builds_check hm₃ (fun _ h => Operator.binary_plain h) operator
  | logical left operator right =>
      refine (heval left hm).bind ?_
      intro R₁ m₁ a _ _ _ hm₁ ha
      cases Operator.decides operator a with
      | true =>
          exact builds_pure hm₁ ha
      | false =>
          exact heval right hm₁
  | var id name =>
      exact builds_readVariable hm σ id name
  | assign id name value =>
      refine (heval value hm).bind ?_
      intro R₁ m₁ v _ _ _ hm₁ hv
      refine (builds_writeVariable hm₁ hv σ id name).bind ?_
      intro R₂ m₂ _ hR₂ hprecedes₂ _ hm₂ _
      exact builds_pure hm₂ (hv.mono hR₂ hprecedes₂)
  | call callee paren arguments =>
      refine (heval callee hm).bind ?_
      intro R₁ m₁ f _ _ _ hm₁ hf
      refine (builds_evalAll heval hm₁ arguments).bind ?_
      intro R₂ m₂ values hR₂ hprecedes₂ _ hm₂ hvalues
      exact builds_call hm₂ hbody σ (hf.mono hR₂ hprecedes₂) paren hvalues
  | get object name =>
      refine (heval object hm).bind ?_
      intro R₁ m₁ o _ _ _ hm₁ ho
      exact builds_property hm₁ ho name
  | set object name value =>
      refine (heval object hm).bind ?_
      intro R₁ m₁ o _ _ _ hm₁ _
      cases o with
      | object place =>
          refine (heval value hm₁).bind ?_
          intro R₂ m₂ v _ _ _ hm₂ hv
          refine (builds_setField hm₂ hv place name.lexeme).bind ?_
          intro R₃ m₃ _ hR₃ hprecedes₃ _ hm₃ _
          exact builds_pure hm₃ (hv.mono hR₃ hprecedes₃)
      | _ =>
          exact .of_error hm₁ rfl
  | this id keyword =>
      exact builds_readVariable hm σ id keyword
  | super id keyword method =>
      exact builds_superMethod hm σ id keyword method

theorem builds_execStep
    {exec : Watcher → Stmt → Run Flow}
    (hexec : ExecBuilds exec)
    (rounds : Nat) :
    ExecBuilds fun w => execStep (eval w) (exec w) rounds := by
  intro R m s hm
  cases s with
  | expression e =>
      exact builds_normal (heval e hm)
  | print e =>
      refine (heval e hm).bind ?_
      intro R₁ m₁ value _ _ _ hm₁ _
      refine (builds_read hm₁ Machine.objects).bind ?_
      intro R₂ m₂ objects _ _ _ hm₂ _
      exact builds_normal (builds_print hm₂ _)
  | var name initializer =>
      cases initializer with
      | none =>
          have hnil : Value.nil.Exists R m := trivial
          exact builds_normal (builds_define hm hnil name.lexeme)
      | some e =>
          refine (heval e hm).bind ?_
          intro R₁ m₁ value _ _ _ hm₁ hvalue
          exact builds_normal (builds_define hm₁ hvalue name.lexeme)
  | block body =>
      refine (builds_read hm Machine.current).bind ?_
      rintro R₁ m₁ outer - - - hm₁ ⟨rfl, rfl, rfl⟩
      refine (builds_pushFrame hm₁ hm₁.wellFormed.current).bind ?_
      intro R₂ m₂ frame _ _ _ hm₂ hframe
      exact builds_inside hm₂ (builds_execAll hexec) hframe body
  | ifThen condition thenBranch =>
      refine (heval condition hm).bind ?_
      intro R₁ m₁ value _ _ _ hm₁ _
      cases value.isTruthy with
      | true =>
          exact hexec thenBranch hm₁
      | false =>
          exact builds_pure hm₁ trivial
  | ifElse condition thenBranch elseBranch =>
      refine (heval condition hm).bind ?_
      intro R₁ m₁ value _ _ _ hm₁ _
      cases value.isTruthy with
      | true =>
          exact hexec thenBranch hm₁
      | false =>
          exact hexec elseBranch hm₁
  | loop condition body =>
      exact builds_repeatWhile heval hexec condition body hm rounds
  | function decl =>
      refine (builds_read hm Machine.current).bind ?_
      rintro R₁ m₁ frame - - - hm₁ ⟨rfl, rfl, rfl⟩
      refine (builds_newFunction hm₁ hm₁.wellFormed.current).bind ?_
      intro R₂ m₂ f _ _ _ hm₂ hf
      exact builds_normal (builds_define hm₂ hf decl.name.lexeme)
  | ret keyword value =>
      cases value with
      | none =>
          exact builds_pure hm trivial
      | some e =>
          refine (heval e hm).bind ?_
          intro R₁ m₁ value _ _ _ hm₁ hvalue
          exact builds_pure hm₁ hvalue
  | classDecl name superclass methods =>
      cases superclass with
      | none =>
          exact builds_normal (builds_declareClass hm name (by simp) methods)
      | some superclass =>
          refine (heval superclass hm).bind ?_
          intro R₁ m₁ value _ _ _ hm₁ hvalue
          cases value with
          | cls parent =>
              have hparent : ∀ other, some parent = some other → other.Exists R₁ m₁ := by
                intro other hother
                cases hother
                exact hvalue
              exact builds_normal (builds_declareClass hm₁ name hparent methods)
          | _ =>
              exact .of_error hm₁ rfl

end Trees

/-- A step between two sights. -/
theorem builds_watched
    {α : Type}
    {post : Registry → Machine → α → Prop}
    {r : Watcher → Run α}
    {before : Sight}
    {after : α → Sight}
    (hbefore : before.values = [])
    (hr : ∀ {R m}, m.Stored R → Builds R r m post)
    (hafter : ∀ {R m a}, post R m a → ∀ value ∈ (after a).values, value.Exists R m)
    {R : Registry}
    {m : Machine}
    (hm : m.Stored R) :
    Builds R (fun w => do
      w.pass before
      let a ← r w
      w.pass (after a)
      return a) m post := by
  refine (Builds.pass hm (by simp [hbefore])).bind ?_
  rintro R₁ m₁ _ - - - hm₁ -
  refine (hr hm₁).bind ?_
  intro R₂ m₂ a _ _ _ hm₂ hpost
  refine (Builds.pass hm₂ (hafter hpost)).bind ?_
  rintro R₃ m₃ _ - - - hm₃ ⟨rfl, rfl⟩
  exact builds_pure hm₃ hpost

theorem evalWatched_execWatched_build
    (σ : Setting)
    (fuel : Nat) :
    EvalBuilds (fun w => evalWatched σ w fuel) ∧ ExecBuilds (fun w => execWatched σ w fuel) := by
  induction fuel with
  | zero =>
      constructor
      · intro R m e hm
        refine (Builds.pass (x := .evaluates e) hm (by simp [Sight.values])).bind ?_
        intro R₁ m₁ _ _ _ _ hm₁ _
        exact .of_error hm₁ rfl
      · intro R m s hm
        refine (Builds.pass (x := .executes s) hm (by simp [Sight.values])).bind ?_
        intro R₁ m₁ _ _ _ _ hm₁ _
        exact .of_error hm₁ rfl
  | succ fuel ih =>
      obtain ⟨heval, hexec⟩ := ih
      constructor
      · intro R m e hm
        refine builds_watched rfl (fun hm => builds_evalStep heval (builds_execAll hexec) σ e hm)
          ?_ hm
        intro R m value hvalue other hother
        rw [Sight.values, List.mem_singleton] at hother
        subst hother
        exact hvalue
      · intro R m s hm
        refine builds_watched rfl (fun hm => builds_execStep heval hexec fuel s hm) ?_ hm
        intro R m flow hflow other hother
        cases flow with
        | normal =>
            cases hother
        | returned value =>
            rw [Sight.values, List.mem_singleton] at hother
            subst hother
            exact hflow

/-- The machine that has run nothing. -/
theorem Machine.start_stored : Machine.start.Stored ⟨[], []⟩ := by
  have hsize : Machine.start.frames.size = 1 := by
    simp [Machine.start, Frames.root, Frames.size, Frames.define]
  refine ⟨⟨?_, ?_, ?_, ?_, ?_⟩, rfl, rfl⟩
  · rw [hsize]
    exact Nat.zero_lt_one
  · rw [Machine.start, Frames.enclosing?_define]
    rfl
  · intro frame hlt hne
    rw [hsize] at hlt
    exact absurd (Nat.lt_one_iff.mp hlt) hne
  · intro frame name value hlookup
    rw [(Machine.lookup?_start hlookup).2]
    trivial
  · intro place o ho
    simp [Machine.start] at ho

/-- All machines that running chunks goes through, in order, with the values at hand: the machine
before each chunk, what is seen while it runs, and the machine after the last one.  Lines that were
printed are cleared before each chunk. -/
inductive Machine.Passes (σ : Setting) (fuel : Nat) :
    Machine → List (List Stmt) → List (List Value × Machine) → Prop where
  | nil (m : Machine) : Passes σ fuel m [] [([], m)]
  | cons {m : Machine} {chunk : List Stmt} {rest : List (List Stmt)}
      {trace : List (Sight × Machine)} {states : List (List Value × Machine)}
      (htraced : Traced (fun w => execAll (execWatched σ w fuel) chunk) { m with output := #[] }
        trace)
      (hrest : Passes σ fuel (Machine.interpret σ fuel chunk { m with output := #[] }).2 rest
        states) :
      Passes σ fuel m (chunk :: rest)
        (([], m) :: trace.map (fun entry => (entry.1.values, entry.2)) ++ states)

/-- A store in order is kept so by any number of chunks. -/
theorem Machine.Stored.passes
    (σ : Setting)
    (fuel : Nat)
    (chunks : List (List Stmt))
    {R : Registry}
    {m : Machine}
    (hm : m.Stored R) :
    ∃ R' later, R.Grows R' ∧ Machine.Passes σ fuel m chunks (([], m) :: later) ∧
      (∀ entry ∈ ([], m) :: later,
        entry.2.WellFormed R' ∧ ∀ value ∈ entry.1, value.Exists R' entry.2) ∧
      ((([], m) :: later).map Prod.snd).Pairwise Machine.Precedes := by
  induction chunks generalizing R m with
  | nil =>
      refine ⟨R, [], .refl R, .nil m, ?_, List.pairwise_singleton _ _⟩
      intro entry hentry
      rw [List.mem_singleton] at hentry
      subst hentry
      exact ⟨hm.wellFormed, by simp⟩
  | cons chunk rest ih =>
      have hclears : m.Precedes { m with output := #[] } :=
        .of_same rfl rfl (Nat.le_refl _) (Nat.le_refl _)
      have hcleared : Machine.Stored R { m with output := #[] } :=
        ⟨hm.wellFormed.of_same rfl rfl hm.wellFormed.current hclears, hm.classes, hm.functions⟩
      obtain ⟨R₁, trace, hgrows, htraced, hfine, hordered, -, hstored, -⟩ :=
        builds_execAll (evalWatched_execWatched_build σ fuel).2 chunk hcleared
      rw [← Machine.snd_interpret] at hordered hstored
      obtain ⟨R₂, later, hgrows', hpasses, hfine', hordered'⟩ := ih hstored
      let after := (Machine.interpret σ fuel chunk { m with output := #[] }).2
      refine ⟨R₂, trace.map (fun entry => (entry.1.values, entry.2)) ++ ([], after) :: later,
        hgrows.trans hgrows', .cons htraced hpasses, ?_, ?_⟩
      · intro entry hentry
        rw [List.mem_cons, List.mem_append, List.mem_map] at hentry
        rcases hentry with rfl | ⟨seen, hseen, rfl⟩ | hentry
        · exact ⟨hm.wellFormed.grow (hgrows.trans hgrows'), by simp⟩
        · obtain ⟨hwell, hvalues⟩ := hfine seen hseen
          exact ⟨hwell.grow hgrows',
            fun value hvalue => (hvalues value hvalue).mono hgrows' (.refl _)⟩
        · exact hfine' entry hentry
      · have hfirst := pairwise_ends hclears (.refl _) hordered
        have hwhole := pairwise_glue hfirst hordered'
        simpa [List.map_map, Function.comp_def] using hwhole

/-- The store is well formed and only grows.  However statements are run, as a whole or in chunks that
go on after errors, and whatever the table of local references says, there is one registry of
classes and functions such that in every state on the way

* everything that a value, frame, object, function or class refers to exists; every class and
  function is the one that is registered under its number, so none ever changes; frames stand in
  older frames, and superclasses are older than the classes derived from them;
* walks outward and along superclasses come to an end;

and from one state to any later one, frames keep what surrounds them and the names they have, and
objects keep their class and the fields they have. -/
theorem store_well_formed_and_append_only
    (σ : Setting)
    (fuel : Nat)
    (chunks : List (List Stmt)) :
    ∃ (R : Registry) (states : List (List Value × Machine)),
      Machine.Passes σ fuel .start chunks states ∧
      (∀ values m, (values, m) ∈ states →
        m.WellFormed R ∧ m.WalksEnd R ∧ ∀ value ∈ values, value.Exists R m) ∧
      states.Pairwise fun earlier later => earlier.2.Precedes later.2 := by
  obtain ⟨R, later, -, hpasses, hfine, hordered⟩ :=
    Machine.start_stored.passes σ fuel chunks
  refine ⟨R, _, hpasses, ?_, List.pairwise_map.mp hordered⟩
  intro values m hmem
  obtain ⟨hwell, hvalues⟩ := hfine _ hmem
  exact ⟨hwell, hwell.walksEnd, hvalues⟩

end Lox
