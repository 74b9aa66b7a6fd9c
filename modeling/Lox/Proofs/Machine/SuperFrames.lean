import Lox.Proofs.Machine.Dispatch
import Lox.Proofs.Machine.Portions
import Lox.Proofs.Scope.ClassScopes

/-!
# `this` is one frame nearer than `super`

Reading `super.m` takes the frame at the distance of `super`, and the frame one nearer for `this`,
whatever was reported about the program.  An entry for `super` is only made in a method of a class
with a superclass, so it is at least two, and the two scopes that it leads to are those of one class.
The frames are those of the scopes wherever the expression is evaluated; so they belong together, too.
-/

namespace Lox

open Run

/-- From the current frame, `d` frames out is the frame that the class statement at `q` made for its
methods, with the superclass `parent`, and one frame nearer is that of one of these methods, bound to
the object at `place`. -/
structure Machine.Paired (m : Machine) (program : Part) (q : Address) (d : Nat) (parent : Class)
    (place : Nat) : Prop where
  super : m.frames.getAt? m.current d "super" = some (.cls parent)
  this : m.frames.getAt? m.current (d - 1) "this" = some (.object place)
  /-- The class of the object is derived from the class whose methods were given that frame. -/
  receiver : ∃ name superclass methods frame identity o,
    program.at? q = some (.stmt (.classDecl name (some superclass) methods)) ∧
    m.frames.outward? d m.current = some frame ∧
    m.objects[place]? = some o ∧
    .mk identity name.lexeme (some parent) (methodTable frame methods) ∈ o.cls.lineage

/-- Frames that stand for paired scopes are paired. -/
theorem Machine.Stands.paired
    {k : Course}
    {m : Machine}
    {p q : Address}
    {d : Nat}
    (h : m.Stands k m.current (k.program.scopesAround p))
    (hpaired : k.program.Paired p q d) :
    ∃ parent place, m.Paired k.program q d parent place := by
  obtain ⟨name, superclass, methods, hstatement⟩ := hpaired.statement
  obtain ⟨hlt, hbody⟩ := List.getElem?_eq_some_iff.mp hpaired.this
  have htwo := hpaired.two_le
  have hscopes : k.program.scopesAround p = (k.program.scopesAround p).take (d - 1) ++
      (q ++ [1, 0]) :: (k.program.scopesAround p).drop (d - 1 + 1) := by
    rw [← hbody, List.cons_getElem_drop_succ, List.take_append_drop]
  have hlength : ((k.program.scopesAround p).take (d - 1)).length = d - 1 := by
    rw [List.length_take]
    omega
  rw [hscopes] at h
  obtain ⟨q', name', superclass', made, parent, place, o, hq, hstatement', -, houtward, hsuper,
    hthis, ho, hlineage⟩ := h.derivedBody (Part.at?_derivedBody hstatement)
  obtain rfl := List.append_cancel_right hq
  rw [hlength, Nat.sub_add_cancel (Nat.le_of_succ_le htwo)] at houtward hsuper
  rw [hlength] at hthis
  exact ⟨parent, place, hsuper, hthis, name', superclass', methods, _, _, o, hstatement', houtward,
    ho, hlineage⟩

/-- Where the frames are paired, the only thing that can be missing is the method. -/
theorem Machine.Paired.eval_super
    {m : Machine}
    {program : Part}
    {q : Address}
    {d id place : Nat}
    {parent : Class}
    {σ : Setting}
    (h : m.Paired program q d parent place)
    (htwo : 2 ≤ d)
    (hentry : σ.locals.get? id = some d)
    (keyword method : Token)
    (fuel : Nat)
    {stop : Stop}
    (hstop : (eval σ (fuel + 1) (.super id keyword method) m).1 = .error stop) :
    stop = .fault ⟨method, .undefinedProperty method.lexeme⟩ := by
  obtain ⟨d, rfl⟩ : ∃ d', d = d' + 1 := ⟨d - 1, by omega⟩
  have heval : eval σ (fuel + 1) (.super id keyword method) m = _ :=
    superMethod_eq hentry h.super h.this
  rw [heval] at hstop
  cases hfound : parent.findMethod? method.lexeme with
  | none =>
      rw [hfound] at hstop
      cases hstop
      rfl
  | some found =>
      rw [hfound] at hstop
      cases hstop

/-- The distance of `super` leads past `this`.  Whatever is reported about a source, an entry for
`super` is at least two; so many scopes out is the scope with nothing but `super` that a class
statement opens, and one scope nearer that with nothing but `this` of the same class.  Wherever the
expression is evaluated, in any portion of the program and whatever stopped before, the frames that
far out are those of one class and of an object derived from it, and only the method can be
missing. -/
theorem super_distance_leads_past_this
    {source : String}
    {statements : List Stmt}
    {locals : Locals}
    {before after : Log}
    {p : Address}
    {id d : Nat}
    {keyword method : Token}
    (hanalysis : Session.analyse source before = (statements, locals, after))
    (hsuper : (Part.program statements).at? p = some (.expr (.super id keyword method)))
    (hentry : locals.get? id = some d) :
    ∃ q,
      (Part.program statements).Paired p q d ∧
      (∃ around, Surroundings.topLevel.reach? (.program statements) p =
          some (around, .expr (.super id keyword method)) ∧
        around.scopes.HasOnly d "super" ∧ around.scopes.HasOnly (d - 1) "this") ∧
      ∀ (clock : Nat → Float) (fuel : Nat) (portion : List Stmt) (m₀ m : Machine),
        m₀.HasRun statements → portion ⊆ statements →
        m₀.MeetsFrom ⟨locals, clock⟩ fuel portion (.evaluates (.super id keyword method)) m →
        (∃ parent place, m.Paired (.program statements) q d parent place) ∧
          ∀ n stop, (eval ⟨locals, clock⟩ (n + 1) (.super id keyword method) m).1 = .error stop →
            stop = .fault ⟨method, .undefinedProperty method.lexeme⟩ := by
  have hdistance := (Session.get?_super_iff hanalysis hsuper d).mp hentry
  obtain ⟨hshaped, hnamed, hnodup, -⟩ := Session.named_of_analyse hanalysis
  obtain ⟨q, hpaired⟩ := hnamed.paired_of_distance hsuper hdistance
  obtain ⟨around, hreach, hfits⟩ := Surroundings.exists_reach? hshaped hsuper
  refine ⟨q, hpaired, ⟨around, hreach, hpaired.hasOnly hshaped hfits⟩, ?_⟩
  intro clock fuel portion m₀ m hrun hportion hmeets
  -- The number of the expression tells where it stands, so the frames are those of its scopes.
  obtain ⟨a, hat, hstands⟩ := (hmeets.fine hnamed hrun hportion).sight
  obtain rfl : a = p := Part.address_unique hnodup hat hsuper rfl rfl
  obtain ⟨parent, place, hframes⟩ := hstands.paired hpaired
  exact ⟨⟨parent, place, hframes⟩, fun n stop hstop =>
    hframes.eval_super hpaired.two_le hentry keyword method n hstop⟩

/-- If what stands at an address agrees with a reference to a method of the superclass, it is that
reference. -/
theorem Part.at?_super_of_same
    {program : Part}
    {p : Address}
    {id : Nat}
    {keyword method : Token}
    (h : (match program.at? p with
      | some (.expr e) => e.same (.super id keyword method)
      | _ => false) = true) :
    program.at? p = some (.expr (.super id keyword method)) := by
  split at h
  · rename_i e hat
    cases e with
    | super id' keyword' method' =>
        rw [Expr.same, Bool.and_eq_true, Bool.and_eq_true, decide_eq_true_eq, decide_eq_true_eq,
          decide_eq_true_eq] at h
        obtain ⟨⟨rfl, rfl⟩, rfl⟩ := h
        exact hat
    | _ =>
        cases h
  · cases h

/-- Here `super` stands in a class without a superclass, which is reported, and an undefined variable
stops the first portion.  In the method that is called in the last one, `super` is four frames out:
past the function, the class around it, the method around that, and the frame with `this`. -/
theorem super_distance_leads_past_this_between :
    ∃ (statements : List Stmt) (locals : Locals) (log : Log) (m₀ m : Machine) (q : Address)
      (parent : Class) (place : Nat),
      Session.analyse
          "x;class A{m(){}}class B<A{n(){class C{o(){super.m();}}C().o();}}B().n();" .empty =
        (statements, locals, log) ∧
      log.hasStaticError = true ∧
      locals.get? 2 = some 4 ∧
      m₀.HasRun statements ∧
      m₀.MeetsFrom ⟨locals, fun _ => 0⟩ 8 (statements.drop 3)
        (.evaluates (.super 2 ⟨.keyword .super, "super", 1⟩ ⟨.identifier, "m", 1⟩)) m ∧
      (Part.program statements).Paired [2, 1, 0, 0, 0, 0, 0, 0, 0, 0] q 4 ∧
      m.Paired (.program statements) q 4 parent place ∧
      parent.name = "A" ∧ (m.objects[place]?.map fun o => o.cls.name) = some "B" := by
  obtain ⟨statements, locals, log, hanalysis, herror, hget, hsuper, hstops, hends⟩ :
      ∃ statements locals log,
        Session.analyse
            "x;class A{m(){}}class B<A{n(){class C{o(){super.m();}}C().o();}}B().n();" .empty =
          (statements, locals, log) ∧
        log.hasStaticError = true ∧
        locals.get? 2 = some 4 ∧
        (Part.program statements).at? [2, 1, 0, 0, 0, 0, 0, 0, 0, 0] =
          some (.expr (.super 2 ⟨.keyword .super, "super", 1⟩ ⟨.identifier, "m", 1⟩)) ∧
        let σ : Setting := ⟨locals, fun _ => 0⟩
        let m₁ := (Machine.interpret σ 8 (statements.take 1) .start).2
        let m₂ := (Machine.interpret σ 8 ((statements.drop 1).take 2) m₁).2
        (execAll (execWatched σ (.finding (·.readsSuper 2 3 "A" "B")
          ⟨⟨.identifier, "", 0⟩, .notCallable⟩) 8) (statements.drop 3) m₂).1.isOk = false ∧
        (execAll (exec σ 8) (statements.drop 3) m₂).1.isOk = true := by
    refine ⟨_, _, _, (Prod.ext rfl rfl : _ = (_, _, _)), ?_, ?_, ?_, ?_, ?_⟩
    · decide +kernel
    · decide +kernel
    · exact Part.at?_super_of_same (by decide +kernel)
    · decide +kernel
    · decide +kernel
  let σ : Setting := ⟨locals, fun _ => 0⟩
  have hfirst : statements.take 1 ⊆ statements := List.take_subset 1 statements
  have hsecond : (statements.drop 1).take 2 ⊆ statements :=
    fun _ hs => List.mem_of_mem_drop (List.mem_of_mem_take hs)
  have hportion : statements.drop 3 ⊆ statements := List.drop_subset 3 statements
  have hrun := (Machine.HasRun.nothing.portion hfirst σ 8).portion hsecond σ 8
  obtain ⟨x, m, htest, hmeets⟩ := Machine.exists_meetsFrom_of_finding _ hstops hends
  obtain ⟨keyword, method, rfl, parent, place, hclass, hthis, hparent, hobject⟩ :=
    Sight.of_readsSuper htest
  obtain ⟨-, hnamed, hnodup, -⟩ := Session.named_of_analyse hanalysis
  obtain ⟨p, hat, -⟩ := (hmeets.fine hnamed hrun hportion).sight
  obtain rfl := Part.address_unique hnodup hat hsuper rfl rfl
  cases hat.symm.trans hsuper
  obtain ⟨q, hpaired, -, hframes⟩ := super_distance_leads_past_this hanalysis hsuper hget
  obtain ⟨⟨parent', place', hmatch⟩, -⟩ := hframes _ 8 _ _ m hrun hportion hmeets
  cases hclass.symm.trans hmatch.super
  cases hthis.symm.trans hmatch.this
  exact ⟨statements, locals, log, _, m, q, parent, place, hanalysis, herror, hget, hrun, hmeets,
    hpaired, hmatch, hparent, hobject⟩

end Lox
