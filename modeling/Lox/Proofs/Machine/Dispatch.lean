import Lox.Proofs.Machine.Kept
import Lox.Proofs.Scope.Distances
import Lox.Proofs.Scope.Violations

/-!
# `super` is decided by the declaring class

Where `super.m` is evaluated in an accepted program, the nearest class body around it belongs to a
class statement with a superclass.  The frames around the evaluation are those of the scopes around
the expression, so that at the distance in the table stands the frame that the class gave its methods
when it was made.  Under `super` it has what the class statement evaluated as its superclass then, and
one frame nearer stands the object that is `this`.
-/

namespace Lox

open Run

section Position

variable {program : Part}
variable {p : Address}

/-- The distances of `this` and `super` from a part in the body of a class with a superclass. -/
theorem Part.Named.distances
    {q : Address}
    {inner : List Address}
    {name : Token}
    {superclass : Expr}
    {methods : List FunctionDecl}
    (hnamed : program.Named)
    (hstatement : program.at? q = some (.stmt (.classDecl name (some superclass) methods)))
    (hscopes : program.scopesAround p =
      inner ++ (q ++ [1, 0]) :: program.scopesAround (q ++ [1, 0]))
    (hinner : ∀ scope ∈ inner, ∀ derived methods,
      program.at? scope ≠ some (.classBody derived methods) ∧
        program.at? scope ≠ some (.inheritance methods)) :
    program.Distance p "this" inner.length ∧ program.Distance p "super" (inner.length + 1) := by
  have hbefore : ∀ {d : Nat} {scope : Address}, d < inner.length →
      (program.scopesAround p)[d]? = some scope → scope ∈ inner := by
    intro d scope hd hscope
    rw [hscopes, List.getElem?_append_left hd] at hscope
    exact List.mem_of_getElem? hscope
  constructor
  · refine ⟨q ++ [1, 0], by simp [hscopes], .this (Part.at?_derivedBody hstatement), ?_⟩
    intro d scope hd hscope hdeclared
    rcases hdeclared.keyword hnamed not_ordinary_this with
      ⟨-, derived, methods', hat⟩ | ⟨hname, -⟩
    · exact (hinner scope (hbefore hd hscope) derived methods').1 hat
    · simp at hname
  · rw [Part.scopesAround_derivedBody hstatement] at hscopes
    refine ⟨q ++ [1], ?_, .super (Part.at?_inheritance hstatement), ?_⟩
    · simp [hscopes]
    · intro d scope hd hscope hdeclared
      rcases hdeclared.keyword hnamed not_ordinary_super with ⟨hname, -⟩ | ⟨-, methods', hat⟩
      · simp at hname
      · rcases Nat.lt_succ_iff_lt_or_eq.mp hd with hd | rfl
        · exact (hinner scope (hbefore hd hscope) true methods').2 hat
        · have hbody : q ++ [1, 0] = scope := by
            simpa [hscopes] using hscope
          rw [← hbody, Part.at?_derivedBody hstatement] at hat
          cases hat

end Position

section Accepted

variable {source : String}
variable {statements : List Stmt}
variable {locals : Locals}

/-- What is read from a source is shaped, no name written in it is `this` or `super`, and its
references have different numbers, whatever is reported. -/
theorem Session.parse_named
    (source : String)
    (log : Log) :
    (Part.program (parse source log).1).Shaped ∧ (Part.program (parse source log).1).Named ∧
      (Part.program (parse source log).1).ids.Nodup ∧
      ∀ t ∈ Stmt.tokensAll (parse source log).1, t.Worded := by
  simp only [parse, tokenize, readProgram]
  have hfits := Grammar.readProgram_fits (Scan.ofSource source).tokens (Scan.ofSource source).endLine
  have hnamed := Scan.readProgram_named source
  generalize Grammar.readProgram (Scan.ofSource source).tokens (Scan.ofSource source).endLine =
    parsed at hfits hnamed ⊢
  exact ⟨hfits.shaped, hnamed, hfits.fresh.nodup,
    fun t ht => Scan.tokens_worded source t (hfits.kept t ht)⟩

/-- What is known of the statements and the table of an analysis. -/
theorem Session.named_of_analyse
    {before after : Log}
    (h : analyse source before = (statements, locals, after)) :
    (Part.program statements).Shaped ∧ (Part.program statements).Named ∧
      (Part.program statements).ids.Nodup ∧
      (∀ t ∈ Stmt.tokensAll statements, t.Worded) ∧
      locals = (Resolution.ofProgram statements).locals := by
  simp only [analyse, resolve, Prod.mk.injEq] at h
  obtain ⟨rfl, rfl, -⟩ := h
  obtain ⟨hshaped, hnamed, hnodup, hworded⟩ := parse_named source before
  exact ⟨hshaped, hnamed, hnodup, hworded, rfl⟩

/-- The entry of a `super` is the distance of that name. -/
theorem Session.get?_super_iff
    {before after : Log}
    {p : Address}
    {id : Nat}
    {keyword method : Token}
    (h : analyse source before = (statements, locals, after))
    (hsuper : (Part.program statements).at? p = some (.expr (.super id keyword method)))
    (d : Nat) :
    locals.get? id = some d ↔ (Part.program statements).Distance p "super" d := by
  obtain ⟨hshaped, -, hnodup, hworded, rfl⟩ := named_of_analyse h
  have hkeyword : keyword.lexeme = "super" :=
    lexeme_of_keyword (hshaped.at? hsuper).1
      (hworded keyword (Part.tokens_at? hsuper List.mem_cons_self))
  rw [get?_iff_distance hshaped hnodup hsuper rfl d, hkeyword]
  simp [Expr.isThis]

/-- What is known of the parts of an accepted program. -/
theorem Session.Accepts.named
    (h : Session.Accepts source statements locals) :
    (Part.program statements).Shaped ∧ (Part.program statements).Named ∧
      (Part.program statements).ids.Nodup ∧
      ∀ t ∈ Stmt.tokensAll statements, t.Worded := by
  obtain ⟨log, hanalyse, -⟩ := h
  obtain ⟨hshaped, hnamed, hnodup, hworded, -⟩ := Session.named_of_analyse hanalyse
  exact ⟨hshaped, hnamed, hnodup, hworded⟩

/-- An accepted program breaks no scope rule. -/
theorem Session.Accepts.not_violation
    (h : Session.Accepts source statements locals)
    (p : Address)
    (error : ScopeError) :
    ¬ Violation (.program statements) p error := by
  intro hviolation
  obtain ⟨hshaped, -⟩ := h.named
  obtain ⟨-, -, -, herrors, -⟩ := h.phases
  obtain ⟨part, hpart⟩ := hviolation.exists_part
  obtain ⟨around, hreach, hfits⟩ := Surroundings.exists_reach? hshaped hpart
  have hfault := mem_faults_of_violation hshaped hpart hfits hviolation
  have hfinding : .fault error ∈ (Stmt.resolveAll .topLevel [] statements).2 :=
    (Part.mem_findings_iff .topLevel (.program statements) hshaped).mpr
      ⟨p, _, hreach, .inl hfault⟩
  have hmem : error ∈ (Resolution.ofProgram statements).errors := by
    simp only [Resolution.ofProgram, Resolution.ofFindings, List.mem_filterMap]
    exact ⟨.fault error, hfinding, rfl⟩
  rw [herrors] at hmem
  cases hmem

/-- In an accepted program, `super` stands in the body of a class with a superclass, and its entry
leads one scope beyond that body. -/
theorem Session.Accepts.super
    {p : Address}
    {id : Nat}
    {keyword method : Token}
    (h : Session.Accepts source statements locals)
    (hsuper : (Part.program statements).at? p = some (.expr (.super id keyword method))) :
    ∃ body methods inner,
      ((Part.program statements).enclosing Part.isClassBody p).head? = some body ∧
      (Part.program statements).at? body = some (.classBody true methods) ∧
      (Part.program statements).scopesAround p =
        inner ++ body :: (Part.program statements).scopesAround body ∧
      (∀ scope ∈ inner, ∀ derived methods,
        (Part.program statements).at? scope ≠ some (.classBody derived methods) ∧
          (Part.program statements).at? scope ≠ some (.inheritance methods)) := by
  have hclass := h.not_violation p
  cases hinnermost : (Part.program statements).innermost? Part.isClassBody p with
  | none =>
      exact absurd (.superOutsideClass hsuper hinnermost) (hclass _)
  | some part =>
      have hsort := Part.sort_of_innermost? hinnermost
      obtain ⟨body, hbody, hpart⟩ := Option.bind_eq_some_iff.mp hinnermost
      cases part with
      | classBody derived methods =>
          cases derived with
          | false =>
              exact absurd (.superWithoutSuperclass hsuper hinnermost) (hclass _)
          | true =>
              obtain ⟨inner, hscopes, hinner⟩ := Part.scopesAround_of_classBody hsuper rfl hbody
              exact ⟨body, methods, inner, hbody, hpart, hscopes, hinner⟩
      | _ =>
          cases hsort

end Accepted

/-- Going outward as far as there are scopes. -/
theorem Machine.Stands.outward?
    {k : Course}
    {m : Machine}
    {frame : Nat}
    {scopes : List Address}
    (h : m.Stands k frame scopes)
    {d : Nat}
    (hd : d ≤ scopes.length) :
    ∃ target, m.frames.outward? d frame = some target := by
  induction d generalizing frame scopes with
  | zero =>
      exact ⟨frame, rfl⟩
  | succ d ih =>
      cases scopes with
      | nil =>
          simp at hd
      | cons scope scopes =>
          obtain ⟨around, henclosing, hstands, -⟩ := h
          obtain ⟨target, htarget⟩ := ih hstands (Nat.le_of_succ_le_succ hd)
          refine ⟨target, ?_⟩
          simp only [Frames.outward?, henclosing]
          exact htarget

/-- Where the scopes lead out of the body of a class with a superclass, the frames lead to the object
under `this`, and one frame further to the superclass. -/
theorem Machine.Stands.derivedBody
    {k : Course}
    {m : Machine}
    {frame : Nat}
    {inner outer : List Address}
    {body : Address}
    {methods : List FunctionDecl}
    (h : m.Stands k frame (inner ++ body :: outer))
    (hbody : k.program.at? body = some (.classBody true methods)) :
    ∃ q name superclass made parent place o, body = q ++ [1, 0] ∧
      k.program.at? q = some (.stmt (.classDecl name (some superclass) methods)) ∧
      k.seen (.evaluated superclass (.cls parent)) made ∧
      m.frames.outward? (inner.length + 1) frame = some made.frames.size ∧
      m.frames.getAt? frame (inner.length + 1) "super" = some (.cls parent) ∧
      m.frames.getAt? frame inner.length "this" = some (.object place) ∧
      m.objects[place]? = some o ∧
      .mk made.classCount name.lexeme (some parent) (methodTable made.frames.size methods) ∈
        o.cls.lineage := by
  have hlength : inner.length ≤ (inner ++ body :: outer).length := by
    simp
  obtain ⟨target, htarget⟩ := h.outward? hlength
  have hclass := h.of_outward? htarget
  rw [List.drop_left] at hclass
  obtain ⟨around, henclosing, -, hholds⟩ := hclass
  unfold Machine.Holds at hholds
  rw [hbody] at hholds
  obtain ⟨place, o, c, hthis, ho, hc, hmade, hsuper⟩ := hholds
  have haround : m.frames.outward? (inner.length + 1) frame = some around := by
    rw [Frames.outward?_succ, htarget]
    exact henclosing
  obtain ⟨methods', hbody', -⟩ := hmade.body
  rw [hbody] at hbody'
  cases hmade with
  | plain hstatement =>
      cases hbody'
  | @derived q name superclass methods'' parent made hstatement hseen =>
      have hmethods := Part.at?_derivedBody hstatement
      rw [hbody] at hmethods
      cases hmethods
      refine ⟨q, name, superclass, made, parent, place, o, rfl, hstatement, hseen, haround, ?_, ?_,
        ho, hc⟩
      · simp only [Frames.getAt?, haround]
        exact hsuper
      · simp only [Frames.getAt?, htarget]
        exact hthis

/-- A method is the definition in the nearest class of a lineage that has one. -/
def Class.Nearest (c : Class) (method : String) (found : Closure) : Prop :=
  ∃ before owner after, c.lineage = before ++ owner :: after ∧
    owner.methods.lookup method = some found ∧
    ∀ other ∈ before, other.methods.lookup method = none

theorem Class.findMethod?_eq_some_iff
    {c : Class}
    {method : String}
    {found : Closure} :
    c.findMethod? method = some found ↔ c.Nearest method found := by
  rw [findMethod?_eq_findSome?, List.findSome?_eq_some_iff]
  rfl

theorem Class.findMethod?_eq_none_iff
    {c : Class}
    {method : String} :
    c.findMethod? method = none ↔ ∀ owner ∈ c.lineage, owner.methods.lookup method = none := by
  rw [findMethod?_eq_findSome?, List.findSome?_eq_none_iff]

/-- Reading `super.m` where `super` and `this` are what they should be. -/
theorem superMethod_eq
    {σ : Setting}
    {id d place : Nat}
    {keyword method : Token}
    {parent : Class}
    {m : Machine}
    (hget : σ.locals.get? id = some (d + 1))
    (hsuper : m.frames.getAt? m.current (d + 1) "super" = some (.cls parent))
    (hthis : m.frames.getAt? m.current d "this" = some (.object place)) :
    superMethod σ id keyword method m =
      match parent.findMethod? method.lexeme with
      | some found =>
          (.ok (.function m.functionCount { found with frame := m.frames.size }),
            { m with
              frames := m.frames.pushWith found.frame "this" (.object place)
              functionCount := m.functionCount + 1 })
      | none => (.error (.fault ⟨method, .undefinedProperty method.lexeme⟩), m) := by
  simp only [superMethod, hget, bind_apply, Run.read, hsuper, Nat.add_sub_cancel, hthis]
  cases parent.findMethod? method.lexeme with
  | none =>
      rfl
  | some found =>
      rfl

/-- How `super.m` at `p` is decided by the class statement at `q`.  When that was executed, its
superclass was seen on `made` to be `parent`; `place` is that of the object under `this`. -/
structure Machine.Dispatches (σ : Setting) (fuel : Nat) (statements : List Stmt) (m : Machine)
    (id : Nat) (keyword method : Token) (p q : Address) (made : Machine) (parent : Class)
    (place : Nat) : Prop where
  expression : (Part.program statements).at? p = some (.expr (.super id keyword method))
  /-- The nearest class body is that of the class statement. -/
  inside : ((Part.program statements).enclosing Part.isClassBody p).head? = some (q ++ [1, 0])
  /-- The class of the object is derived from the class that was made then. -/
  receiver : ∃ name superclass methods o,
    (Part.program statements).at? q = some (.stmt (.classDecl name (some superclass) methods)) ∧
    Machine.Meets σ fuel statements (.evaluated superclass (.cls parent)) made ∧
    m.objects[place]? = some o ∧
    .mk made.classCount name.lexeme (some parent) (methodTable made.frames.size methods) ∈
      o.cls.lineage
  /-- The superclass is found in the frame that the class gave its methods, and the object one frame
  nearer, at the distance of `this`. -/
  found : ∃ d, σ.locals.get? id = some (d + 1) ∧
    m.frames.outward? (d + 1) m.current = some made.frames.size ∧
    m.frames.getAt? m.current (d + 1) "super" = some (.cls parent) ∧
    (Part.program statements).Distance p "this" d ∧
    m.frames.getAt? m.current d "this" = some (.object place)
  /-- The nearest definition on the lineage of the superclass is bound to the object. -/
  defined : ∀ n definition, parent.Nearest method.lexeme definition →
    ∃ m', eval σ (n + 1) (.super id keyword method) m =
        (.ok (.function m.functionCount { definition with frame := m.frames.size }), m') ∧
      m'.frames.enclosing? m.frames.size = some definition.frame ∧
      m'.frames.lookup? m.frames.size "this" = some (.object place)
  undefined : ∀ n, (eval σ (n + 1) (.super id keyword method) m).1 =
      .error (.fault ⟨method, .undefinedProperty method.lexeme⟩) ↔
    ∀ owner ∈ parent.lineage, owner.methods.lookup method.lexeme = none

/-- Wherever `super.m` is evaluated in a run of an accepted program, it is decided by the class
statement around it. -/
theorem super_is_decided_by_class
    {source : String}
    {statements : List Stmt}
    {locals : Locals}
    {clock : Nat → Float}
    {fuel id : Nat}
    {keyword method : Token}
    {m : Machine}
    (haccepts : Session.Accepts source statements locals)
    (hmeets : Machine.Meets ⟨locals, clock⟩ fuel statements
      (.evaluates (.super id keyword method)) m) :
    ∃ p q made parent place,
      m.Dispatches ⟨locals, clock⟩ fuel statements id keyword method p q made parent place := by
  obtain ⟨-, hnamed, -, -⟩ := haccepts.named
  -- The frames around the evaluation are those of the scopes around some position of the expression.
  obtain ⟨p, hsuper, hstands⟩ := (hmeets.fine hnamed).sight
  obtain ⟨body, methods, inner, hbody, hat, hscopes, hinner⟩ := haccepts.super hsuper
  rw [show (Course.ofRun ⟨locals, clock⟩ fuel statements).program.scopesAround p = _ from hscopes]
    at hstands
  obtain ⟨q, name, superclass, made, parent, place, o, rfl, hstatement, hseen, houtward, hclass,
    hthis, ho, hlineage⟩ := hstands.derivedBody hat
  -- The table leads to the same frames, since its distances are counted in scopes.
  obtain ⟨hdistance, hdistance'⟩ := hnamed.distances hstatement hscopes hinner
  obtain ⟨log, hanalyse, -⟩ := haccepts
  have hget : locals.get? id = some (inner.length + 1) :=
    (Session.get?_super_iff hanalyse hsuper _).mpr hdistance'
  have heval : ∀ n, eval ⟨locals, clock⟩ (n + 1) (.super id keyword method) m = _ :=
    fun n => superMethod_eq hget hclass hthis
  refine ⟨p, q, made, parent, place, hsuper, hbody, ⟨name, superclass, methods, o, hstatement, hseen,
    ho, hlineage⟩, ⟨inner.length, hget, houtward, hclass, hdistance, hthis⟩, ?_, ?_⟩
  · intro n definition hnearest
    rw [heval n, Class.findMethod?_eq_some_iff.mpr hnearest]
    refine ⟨_, rfl, Frames.enclosing?_pushWith_self .., ?_⟩
    rw [Frames.lookup?_pushWith, if_pos ⟨rfl, rfl⟩]
  · intro n
    rw [heval n, ← Class.findMethod?_eq_none_iff]
    cases parent.findMethod? method.lexeme with
    | none =>
        simp
    | some definition =>
        simp

/-- `super` is about to be read, with classes of the given names under it and as the class of the
object one frame nearer. -/
def Sight.readsSuper (id distance : Nat) (parentName className : String) (x : Sight) (m : Machine) :
    Bool :=
  match x with
  | .evaluates (.super id' _ _) =>
      match m.frames.getAt? m.current (distance + 1) "super",
        m.frames.getAt? m.current distance "this" with
      | some (.cls parent), some (.object place) =>
          id' = id ∧ parent.name = parentName ∧
            (m.objects[place]?.map fun o => o.cls.name) = some className
      | _, _ => false
  | _ => false

theorem Sight.of_readsSuper
    {id distance : Nat}
    {parentName className : String}
    {x : Sight}
    {m : Machine}
    (h : x.readsSuper id distance parentName className m = true) :
    ∃ keyword method, x = .evaluates (.super id keyword method) ∧ ∃ parent place,
      m.frames.getAt? m.current (distance + 1) "super" = some (.cls parent) ∧
      m.frames.getAt? m.current distance "this" = some (.object place) ∧
      parent.name = parentName ∧ (m.objects[place]?.map fun o => o.cls.name) = some className := by
  unfold readsSuper at h
  split at h
  · rename_i id' keyword method
    split at h
    · rename_i parent place hsuper hthis
      obtain ⟨rfl, hparent, hclass⟩ := of_decide_eq_true h
      exact ⟨keyword, method, rfl, parent, place, hsuper, hthis, hparent, hclass⟩
    · cases h
  · cases h

/-- With `C` derived from `B`, and `B` from `A`, `super.m` in a method of `B` leads to `A`, though `C`
overrides `m`, and the method is called on an object of `C`. -/
theorem super_is_decided_by_class_overridden :
    ∃ statements locals keyword method m p q made parent place,
      Session.Accepts "class A{m(){}}class B<A{n(){super.m();}}class C<B{m(){}}C().n();" statements
        locals ∧
      Machine.Meets ⟨locals, fun _ => 0⟩ 8 statements (.evaluates (.super 1 keyword method)) m ∧
      m.Dispatches ⟨locals, fun _ => 0⟩ 8 statements 1 keyword method p q made parent place ∧
      parent.name = "A" ∧ (m.objects[place]?.map fun o => o.cls.name) = some "C" := by
  obtain ⟨statements, locals, haccepts, hget, hstops, hends⟩ :
      ∃ statements locals,
        Session.Accepts "class A{m(){}}class B<A{n(){super.m();}}class C<B{m(){}}C().n();" statements
          locals ∧
        locals.get? 1 = some 2 ∧
        (execAll (execWatched ⟨locals, fun _ => 0⟩ (.finding (·.readsSuper 1 1 "A" "C")
          ⟨⟨.identifier, "", 0⟩, .notCallable⟩) 8) statements .start).1.isOk = false ∧
        (execAll (exec ⟨locals, fun _ => 0⟩ 8) statements .start).1.isOk = true := by
    refine ⟨_, _, Session.accepts_analyse _ ?_, ?_, ?_, ?_⟩
    · decide +kernel
    · decide +kernel
    · decide +kernel
    · decide +kernel
  obtain ⟨x, m, htest, hmeets⟩ := Machine.exists_meets_of_finding _ hstops hends
  obtain ⟨keyword, method, rfl, parent, place, hsuper, hthis, hparent, hclass⟩ :=
    Sight.of_readsSuper htest
  obtain ⟨p, q, made, parent', place', hdispatches⟩ := super_is_decided_by_class haccepts hmeets
  obtain ⟨d, hget', -, hsuper', -, hthis'⟩ := hdispatches.found
  cases hget.symm.trans hget'
  cases hsuper.symm.trans hsuper'
  cases hthis.symm.trans hthis'
  exact ⟨statements, locals, keyword, method, m, p, q, made, parent, place, haccepts, hmeets,
    hdispatches, hparent, hclass⟩

end Lox
