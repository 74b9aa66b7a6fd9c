import Lox.Proofs.Machine.Served

/-!
# Name resolution and evaluation agree

Name resolution and evaluation each keep track of scopes in their own way.  Here is what it means
that they agree on an expression: there are as many frames as there were scopes, and every reference
with an entry in the table finds what it refers to at the distance that the entry gives.

This is so at every evaluation that is part of a run, since it is served there.
-/

namespace Lox

open Run

/-- Evaluating `e` on `m` goes the way that name resolution foresaw when it came to `e` with
these scopes. -/
structure Agrees (σ : Setting) (scopes : Scopes) (e : Expr) (m : Machine) : Prop where
  /-- There are as many frames before the global one as there are scopes. -/
  depth : m.frames.outward? scopes.length m.current = some Machine.globals ∧
    ∀ d < scopes.length, ∃ frame, m.frames.outward? d m.current = some frame ∧
      frame ≠ Machine.globals
  var : ∀ {id name d}, e = .var id name → σ.locals.get? id = some d →
    ∃ value, m.frames.getAt? m.current d name.lexeme = some value
  /-- The write behind the evaluation of the value succeeds. -/
  assign : ∀ {id name value d}, e = .assign id name value → σ.locals.get? id = some d →
    ∀ {fuel v m'}, eval σ fuel value m = (.ok v, m') →
      ∃ frames, m'.frames.assignAt? m'.current d name.lexeme v = some frames ∧
        writeVariable σ id name v m' = (.ok (), { m' with frames })
  this : ∀ {id keyword}, e = .this id keyword → ∃ d place o, σ.locals.get? id = some d ∧
    m.frames.getAt? m.current d keyword.lexeme = some (.object place) ∧
    m.objects[place]? = some o
  super : ∀ {id keyword method}, e = .super id keyword method → ∃ d c place o,
    σ.locals.get? id = some d ∧ 1 ≤ d ∧
    m.frames.getAt? m.current d "super" = some (.cls c) ∧
    m.frames.getAt? m.current (d - 1) "this" = some (.object place) ∧
    m.objects[place]? = some o

theorem Machine.Serves.depth
    {m : Machine}
    {scopes : Scopes}
    {e : Expr}
    (h : m.Serves scopes e) :
    m.frames.outward? scopes.length m.current = some Machine.globals ∧
      ∀ d < scopes.length, ∃ frame, m.frames.outward? d m.current = some frame ∧
        frame ≠ Machine.globals := by
  rcases h with hcovers | ⟨outer, cls, -, -, rfl, -, -, hcovers⟩
  · exact hcovers.depth
  · have hlength : ((outer.declare cls).define cls).length = outer.length := by
      simp only [Scopes.declare, Scopes.define, Scopes.length_add]
    rw [hlength]
    exact hcovers.depth

section Agreement

variable {visits : List Visit}
variable {σ : Setting}
variable (hgood : ∀ v ∈ visits, v.Good σ.locals)

include hgood

/-- A written variable with an entry is written. -/
theorem writeVariable_of_covers
    {ctx : Context}
    {scopes : Scopes}
    {id d : Nat}
    {name : Token}
    {value : Expr}
    {v : Value}
    {m : Machine}
    (hv : ⟨ctx, scopes, .expr (.assign id name value)⟩ ∈ visits)
    (hcovers : m.frames.Covers m.current scopes)
    (hd : σ.locals.get? id = some d) :
    ∃ frames, m.frames.assignAt? m.current d name.lexeme v = some frames ∧
      writeVariable σ id name v m = (.ok (), { m with frames }) := by
  obtain ⟨target, htarget⟩ := (hgood _ hv).assign_found hcovers d hd
  refine ⟨m.frames.define target name.lexeme v, ?_, ?_⟩
  · simp only [Frames.assignAt?, htarget]
  · simp only [writeVariable, bind_apply, Run.read, variableFrame?, hd, htarget]
    rfl

/-- Wherever the frames serve the scopes of an expression, its evaluation agrees. -/
theorem agrees_of_serves
    {ctx : Context}
    {scopes : Scopes}
    {e : Expr}
    {m : Machine}
    (hvisits : ∀ v ∈ e.visits ctx scopes, v ∈ visits)
    (hm : m.Sound visits)
    (hserves : m.Serves scopes e) :
    Agrees σ scopes e m where
  depth := hserves.depth
  var := by
    rintro id name d rfl hd
    exact (hgood _ (hvisits _ List.mem_cons_self)).var_found hserves d hd
  assign := by
    rintro id name value d rfl hd fuel v m' heval
    have hcovers := hserves.covers (by simp)
    have hvalue := (eval_exec_safe hgood fuel).1
      (fun v hv => hvisits v (List.mem_append_left _ hv)) hm (.inl hcovers)
    exact writeVariable_of_covers hgood
      (hvisits _ (List.mem_append_right _ List.mem_cons_self))
      ((hvalue.ok heval).1.covers hcovers) hd
  this := by
    rintro id keyword rfl
    obtain ⟨d, place, hget, hplace, hfound⟩ :=
      (hgood _ (hvisits _ List.mem_cons_self)).this_found hm (hserves.covers (by simp))
    exact ⟨d, place, _, hget, hfound, Array.getElem?_eq_getElem hplace⟩
  super := by
    rintro id keyword method rfl
    obtain ⟨d, parent, place, hget, hsuper, hthis, -, hplace⟩ :=
      (hgood _ (hvisits _ List.mem_cons_self)).super_found hm (hserves.covers (by simp))
    exact ⟨d + 1, parent, place, _, hget, Nat.le_add_left 1 d, hsuper, hthis,
      Array.getElem?_eq_getElem hplace⟩

/-- Evaluations that are part of a run of visited statements agree. -/
theorem agrees_of_meets
    {statements : List Stmt}
    {fuel : Nat}
    {e : Expr}
    {m : Machine}
    (hvisits : ∀ v ∈ Stmt.walk statements, v ∈ visits)
    (hmeets : Machine.Meets σ fuel statements (.evaluates e) m) :
    ∃ v ∈ visits, v.node = .expr e ∧ Agrees σ v.scopes e m := by
  obtain ⟨hm, ctx, scopes, hparts, hserves⟩ := hmeets.served hgood hvisits
  exact ⟨⟨ctx, scopes, .expr e⟩, hparts _ (Expr.self_mem_visits ctx scopes e), rfl,
    agrees_of_serves hgood hparts hm hserves⟩

/-- A run stops for an undefined variable only if the table has no entry for it. -/
theorem justified_of_interpret
    {statements : List Stmt}
    {fuel : Nat}
    {stop : Stop}
    {m : Machine}
    (hvisits : ∀ v ∈ Stmt.walk statements, v ∈ visits)
    (hrun : Machine.interpret σ fuel statements .start = (.error stop, m)) :
    stop.Justified visits σ.locals := by
  have hbody := safe_execAll (eval_exec_safe hgood fuel).2 hvisits (.start visits) rfl
  have hsafe : Safe visits σ.locals (Machine.interpret σ fuel statements) .start fun _ _ => True :=
    hbody.bind fun _ hm _ => safe_pure hm trivial
  exact hsafe.error hrun

end Agreement

/-- Name resolution and evaluation agree, in every accepted source and at every evaluation that is
part of its run.  So a variable is undefined only if the table has no entry for it, and `this` and
`super` never are. -/
theorem evaluation_agrees_with_resolution
    {source : String}
    {statements : List Stmt}
    {locals : Locals}
    (haccepts : Session.Accepts source statements locals)
    (clock : Nat → Float)
    (fuel : Nat) :
    (∀ e m, Machine.Meets ⟨locals, clock⟩ fuel statements (.evaluates e) m →
      ∃ v ∈ Stmt.walk statements, v.node = .expr e ∧ Agrees ⟨locals, clock⟩ v.scopes e m ∧
        (e.ids ≠ [] → ∀ w ∈ Stmt.walk statements, w.node = .expr e → w.scopes = v.scopes)) ∧
    ∀ error m name, Machine.interpret ⟨locals, clock⟩ fuel statements .start =
        (.error (.fault error), m) → error.fault = .undefinedVariable name →
      name = error.found.lexeme ∧ name ≠ "this" ∧ name ≠ "super" ∧
        ∃ v ∈ Stmt.walk statements, ∃ id, locals.get? id = none ∧
          (v.node = .expr (.var id error.found) ∨
            ∃ value, v.node = .expr (.assign id error.found value)) := by
  have hgood := haccepts.good
  constructor
  · intro e m hmeets
    obtain ⟨v, hv, hnode, hagrees⟩ := agrees_of_meets hgood (fun _ h => h) hmeets
    refine ⟨v, hv, hnode, hagrees, ?_⟩
    intro hids w hw hwnode
    exact haccepts.scopes_unique hw hv hids hwnode hnode
  · intro error m name hrun hfault
    have hjustified := justified_of_interpret (σ := ⟨locals, clock⟩) hgood (fun _ h => h) hrun
    obtain ⟨hname, ⟨hthis, hsuper⟩, hvisit⟩ := hjustified name hfault
    exact ⟨hname, hthis, hsuper, hvisit⟩

/-- In `{var a;print a;}`, the evaluation of `a` is part of the run, on a machine with one frame before
the global one. -/
theorem evaluation_agrees_block :
    let clock : Nat → Float := fun _ => 0
    let a : Token := ⟨.identifier, "a", 1⟩
    let statements : List Stmt := [.block [.var a none, .print (.var 0 a)]]
    let locals : Locals := ⟨#[some 0]⟩
    let inside : Machine :=
      { Machine.start with frames := Machine.start.frames.push 0, current := 1 }
    let m : Machine := { inside with frames := inside.frames.define 1 "a" .nil }
    Session.Accepts "{var a;print a;}" statements locals ∧
      Machine.Meets ⟨locals, clock⟩ 3 statements (.evaluates (.var 0 a)) m ∧
      ∃ v ∈ Stmt.walk statements, v.node = .expr (.var 0 a) ∧
        Agrees ⟨locals, clock⟩ v.scopes (.var 0 a) m := by
  intro clock a statements locals inside m
  have haccepts : Session.Accepts "{var a;print a;}" statements locals :=
    Session.accepts_of_same ⟨⟨trivial, trivial, trivial⟩, trivial⟩ (by decide +kernel)
      (by decide +kernel) (by decide +kernel)
  have hmeets : Machine.Meets ⟨locals, clock⟩ 3 statements (.evaluates (.var 0 a)) m := by
    intro error
    refine ⟨{ m with current := 0 }, ?_⟩
    have hwaiting := Watcher.waiting_self (.evaluates (.var 0 a)) m error
    have hpass := Watcher.waiting_of_ne (.evaluates (.var 0 a)) m error
    generalize Watcher.waiting (.evaluates (.var 0 a)) m error = w at hwaiting hpass
    have ha : evalWatched ⟨locals, clock⟩ w 1 (.var 0 a) m = (.error (.fault error), m) := by
      simp only [evalWatched, bind_apply, Watcher.pass_of_eq_some hwaiting]
    have hprint : execWatched ⟨locals, clock⟩ w 2 (.print (.var 0 a)) m =
        (.error (.fault error), m) := by
      refine Watcher.between_of_error (hpass _ _ (by simp)) ?_
      simp only [execStep, bind_apply, ha]
    have hvar : execWatched ⟨locals, clock⟩ w 2 (.var a none) inside = (.ok .normal, m) :=
      Watcher.between_of_ok (hpass _ _ (by simp)) rfl (hpass _ _ (by simp))
    have hbody : execAll (execWatched ⟨locals, clock⟩ w 2) [.var a none, .print (.var 0 a)]
        inside = (.error (.fault error), m) := by
      simp only [execAll, bind_apply, hvar, hprint]
    have hblock : execWatched ⟨locals, clock⟩ w 3 (.block [.var a none, .print (.var 0 a)]) .start =
        (.error (.fault error), { m with current := 0 }) := by
      refine Watcher.between_of_error (hpass _ _ (by simp)) ?_
      exact congrArg (fun r : Except Stop Flow × Machine => (r.1, { r.2 with current := 0 })) hbody
    simp only [statements, execAll, bind_apply, hblock]
  obtain ⟨v, hv, hnode, hagrees, -⟩ :=
    (evaluation_agrees_with_resolution haccepts clock 3).1 _ _ hmeets
  exact ⟨haccepts, hmeets, v, hv, hnode, hagrees⟩

end Lox
