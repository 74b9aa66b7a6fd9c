import Lox.Proofs.Machine.KeepsCalls
import Lox.Proofs.Machine.Safety
import Lox.Proofs.Scope.Written

/-!
# Whom runtime errors blame

A running program blames tokens that its trees keep, and nothing else.  Trees get around: functions
carry their bodies through variables, fields and classes, and a body may run long after it was
declared.  So the tokens of all code that a machine holds are followed: if they all belong to one list,
every error blames a token of that list, and the code that is held afterwards keeps to the list, too.
-/

namespace Lox

open Run

/-- The code of a function keeps only tokens of the list. -/
def Closure.Of (ts : List Token) (closure : Closure) : Prop :=
  Stmt.tokensFunction closure.decl ⊆ ts

/-- So does every method that can be found in a class. -/
def Class.Of (ts : List Token) (c : Class) : Prop :=
  ∀ name method, c.findMethod? name = some method → method.Of ts

/-- The code that a value carries keeps only tokens of the list. -/
def Value.Of (ts : List Token) : Value → Prop
  | .function _ closure => closure.Of ts
  | .cls c => c.Of ts
  | _ => True

def Flow.Of (ts : List Token) : Flow → Prop
  | .normal => True
  | .returned value => value.Of ts

/-- All code that a machine holds keeps only tokens of the list. -/
structure Machine.Of (ts : List Token) (m : Machine) : Prop where
  bound : ∀ {frame name value}, m.frames.lookup? frame name = some value → value.Of ts
  objects : ∀ {place : Nat} {o : Instance}, m.objects[place]? = some o →
    o.cls.Of ts ∧ ∀ name value, o.fields.lookup name = some value → value.Of ts

theorem Value.Plain.of
    {ts : List Token}
    {value : Value}
    (h : value.Plain) :
    value.Of ts := by
  cases value with
  | function | cls | object =>
      exact h.elim
  | _ =>
      trivial

namespace Machine.Of

variable {ts : List Token}
variable {m : Machine}

theorem of_same
    (h : m.Of ts)
    {m' : Machine}
    (hframes : m'.frames = m.frames)
    (hobjects : m'.objects = m.objects) :
    m'.Of ts where
  bound := by
    rw [hframes]
    exact h.bound
  objects := by
    rw [hobjects]
    exact h.objects

theorem define
    (h : m.Of ts)
    {value : Value}
    (hvalue : value.Of ts)
    (frame : Nat)
    (name : String) :
    Machine.Of ts { m with frames := m.frames.define frame name value } where
  bound := by
    intro frame' name' value' hlookup
    rcases Frames.lookup?_define hlookup with ⟨-, -, rfl⟩ | hold
    · exact hvalue
    · exact h.bound hold
  objects := h.objects

theorem push
    (h : m.Of ts)
    (outer : Nat) :
    Machine.Of ts { m with frames := m.frames.push outer } where
  bound := by
    intro frame name value hlookup
    rw [Frames.lookup?_push] at hlookup
    exact h.bound hlookup
  objects := h.objects

theorem newObject
    (h : m.Of ts)
    {c : Class}
    (hc : c.Of ts) :
    Machine.Of ts { m with objects := m.objects.push ⟨c, []⟩ } where
  bound := h.bound
  objects := by
    intro place o ho
    rw [Array.getElem?_push] at ho
    split at ho
    · cases ho
      exact ⟨hc, by simp⟩
    · exact h.objects ho

theorem setField
    (h : m.Of ts)
    {value : Value}
    (hvalue : value.Of ts)
    (place : Nat)
    (name : String) :
    Machine.Of ts { m with objects := m.objects.modify place (·.setField name value) } where
  bound := h.bound
  objects := by
    intro place' o ho
    simp only [Array.getElem?_modify] at ho
    split at ho
    · obtain ⟨old, hold, rfl⟩ := Option.map_eq_some_iff.mp ho
      obtain ⟨hcls, hfields⟩ := h.objects hold
      refine ⟨hcls, ?_⟩
      intro field v hv
      by_cases hfield : field = name
      · rw [hfield] at hv
        simp only [Instance.setField, lookup_putBinding_self, Option.some.injEq] at hv
        rw [← hv]
        exact hvalue
      · simp only [Instance.setField, lookup_putBinding_of_ne hfield] at hv
        exact hfields field v hv
    · exact h.objects ho

/-- The machine that has run nothing holds no code. -/
theorem start : Machine.start.Of ts where
  bound := by
    intro frame name value hlookup
    rw [(Machine.lookup?_start hlookup).2]
    trivial
  objects := by
    intro place o ho
    simp [Machine.start] at ho

end Machine.Of

namespace Run

variable {α β : Type}
variable {ts : List Token}

/-- On machines that keep to the list, a run leaves such a machine, gives only what is wanted, and
blames only tokens of the list. -/
def Blames (ts : List Token) (r : Run α) (post : α → Prop) : Prop :=
  ∀ m, m.Of ts → (r m).2.Of ts ∧ (∀ a, (r m).1 = .ok a → post a) ∧
    ∀ e, (r m).1 = .error (.fault e) → e.found ∈ ts

namespace Blames

variable {r : Run α}
variable {post : α → Prop}

/-- A run that never stops. -/
theorem of_ok
    (h : ∀ m, m.Of ts → ∃ a m', r m = (.ok a, m') ∧ m'.Of ts ∧ post a) :
    Blames ts r post := by
  intro m hm
  obtain ⟨a, m', hrun, hm', ha⟩ := h m hm
  rw [hrun]
  refine ⟨hm', ?_, ?_⟩
  · intro b hb
    cases hb
    exact ha
  · intro e he
    cases he

theorem bind
    {f : α → Run β}
    {post' : β → Prop}
    (hr : Blames ts r post)
    (hf : ∀ a, post a → Blames ts (f a) post') :
    Blames ts (r >>= f) post' := by
  intro m hm
  obtain ⟨hafter, hok, hfault⟩ := hr m hm
  rw [bind_apply]
  rcases hrun : r m with ⟨result, m'⟩
  rw [hrun] at hafter hok hfault
  cases result with
  | ok a =>
      exact hf a (hok a rfl) m' hafter
  | error stop =>
      refine ⟨hafter, ?_, ?_⟩
      · intro b hb
        cases hb
      · intro e he
        cases he
        exact hfault e rfl

theorem within
    (hr : Blames ts r post)
    (frame : Nat) :
    Blames ts (within frame r) post := by
  intro m hm
  obtain ⟨hafter, hends⟩ := hr { m with current := frame } (hm.of_same rfl rfl)
  exact ⟨hafter.of_same rfl rfl, hends⟩

end Blames

section Primitives

variable {post : α → Prop}

theorem blames_pure
    {a : α}
    (ha : post a) :
    Blames ts (pure a) post :=
  .of_ok fun m hm => ⟨a, m, rfl, hm, ha⟩

theorem blames_outOfFuel : Blames ts outOfFuel post := by
  intro m hm
  refine ⟨hm, ?_, ?_⟩
  · intro a ha
    cases ha
  · intro e he
    cases he

theorem blames_stop
    {error : RuntimeError}
    (h : error.found ∈ ts) :
    Blames ts (stop error) post := by
  intro m hm
  refine ⟨hm, ?_, ?_⟩
  · intro a ha
    cases ha
  · intro e he
    cases he
    exact h

theorem blames_fail
    {found : Token}
    {fault : RuntimeFault}
    (h : found ∈ ts) :
    Blames ts (fail found fault) post :=
  blames_stop h

theorem blames_check
    {outcome : Except RuntimeFault Value}
    {found : Token}
    (hplain : ∀ value, outcome = .ok value → value.Plain)
    (h : found ∈ ts) :
    Blames ts (check found outcome) (Value.Of ts) := by
  cases outcome with
  | error fault =>
      exact blames_fail h
  | ok value =>
      exact blames_pure (hplain value rfl).of

theorem blames_read
    {f : Machine → α}
    (h : ∀ m, m.Of ts → post (f m)) :
    Blames ts (read f) post :=
  .of_ok fun m hm => ⟨f m, m, rfl, hm, h m hm⟩

/-- Anything may be looked up. -/
theorem blames_look
    (f : Machine → α) :
    Blames ts (read f) fun _ => True :=
  blames_read fun _ _ => trivial

theorem blames_getAt?
    (frame : Machine → Nat)
    (distance : Nat)
    (name : String) :
    Blames ts (read fun m => m.frames.getAt? (frame m) distance name)
      fun found => ∀ value, found = some value → value.Of ts := by
  refine blames_read fun m hm value hvalue => ?_
  obtain ⟨target, -, hlookup⟩ := Frames.exists_of_getAt? hvalue
  exact hm.bound hlookup

theorem blames_object
    (place : Nat) :
    Blames ts (read fun m => m.objects[place]?)
      fun found => ∀ o : Instance, found = some o →
        o.cls.Of ts ∧ ∀ name value, o.fields.lookup name = some value → value.Of ts :=
  blames_read fun _ hm _ ho => hm.objects ho

theorem blames_print
    (line : String) :
    Blames ts (print line) fun _ => True :=
  .of_ok fun _ hm => ⟨_, _, rfl, hm.of_same rfl rfl, trivial⟩

theorem blames_readClock
    (σ : Setting) :
    Blames ts (readClock σ) (Value.Of ts) :=
  .of_ok fun _ hm => ⟨_, _, rfl, hm.of_same rfl rfl, trivial⟩

theorem blames_defineIn
    {value : Value}
    (hvalue : value.Of ts)
    (frame : Nat)
    (name : String) :
    Blames ts (defineIn frame name value) fun _ => True :=
  .of_ok fun _ hm => ⟨_, _, rfl, hm.define hvalue frame name, trivial⟩

theorem blames_define
    {value : Value}
    (hvalue : value.Of ts)
    (name : String) :
    Blames ts (define name value) fun _ => True :=
  .of_ok fun m hm => ⟨_, _, rfl, hm.define hvalue m.current name, trivial⟩

theorem blames_pushFrame
    (outer : Nat) :
    Blames ts (pushFrame outer) fun _ => True :=
  .of_ok fun _ hm => ⟨_, _, rfl, hm.push outer, trivial⟩

theorem blames_newFunction
    {closure : Closure}
    (h : closure.Of ts) :
    Blames ts (newFunction closure) (Value.Of ts) :=
  .of_ok fun _ hm => ⟨_, _, rfl, hm.of_same rfl rfl, h⟩

theorem blames_newClass
    {name : String}
    {superclass : Option Class}
    {methods : List (String × Closure)}
    (h : ∀ identity, (Class.mk identity name superclass methods).Of ts) :
    Blames ts (newClass name superclass methods) (Value.Of ts) :=
  .of_ok fun _ hm => ⟨_, _, rfl, hm.of_same rfl rfl, h _⟩

theorem blames_newObject
    {c : Class}
    (h : c.Of ts) :
    Blames ts (newObject c) fun _ => True :=
  .of_ok fun _ hm => ⟨_, _, rfl, hm.newObject h, trivial⟩

theorem blames_setField
    {value : Value}
    (hvalue : value.Of ts)
    (place : Nat)
    (name : String) :
    Blames ts (setField place name value) fun _ => True :=
  .of_ok fun _ hm => ⟨_, _, rfl, hm.setField hvalue place name, trivial⟩

theorem blames_readVariable
    {name : Token}
    (hname : name ∈ ts)
    (σ : Setting)
    (id : Nat) :
    Blames ts (readVariable σ id name) (Value.Of ts) := by
  intro m hm
  rcases readVariable_cases σ id name m with ⟨value, target, hrun, hlookup⟩ | hrun
  · rw [hrun]
    exact blames_pure (hm.bound hlookup) m hm
  · rw [hrun]
    have hstop : Blames ts (stop (.undefined name)) (Value.Of ts) := blames_stop hname
    exact hstop m hm

theorem blames_writeIn
    {value : Value}
    {name : Token}
    (hvalue : value.Of ts)
    (hname : name ∈ ts)
    (target : Option Nat) :
    Blames ts (writeIn target name value) fun _ => True := by
  cases target with
  | none =>
      exact blames_stop hname
  | some frame =>
      exact blames_defineIn hvalue frame name.lexeme

end Primitives

section Sequences

variable {eval : Expr → Run Value}
variable {exec : Stmt → Run Flow}

theorem blames_evalAll
    (heval : ∀ e, e.tokens ⊆ ts → Blames ts (eval e) (Value.Of ts))
    {es : List Expr}
    (hes : Expr.tokensAll es ⊆ ts) :
    Blames ts (evalAll eval es) fun values => ∀ value ∈ values, value.Of ts := by
  induction es with
  | nil =>
      exact blames_pure (by simp)
  | cons e rest ih =>
      rw [Expr.tokensAll, List.append_subset] at hes
      refine (heval e hes.1).bind fun value hvalue => (ih hes.2).bind fun values hvalues => ?_
      exact blames_pure (List.forall_mem_cons.mpr ⟨hvalue, hvalues⟩)

theorem blames_execAll
    (hexec : ∀ s, s.tokens ⊆ ts → Blames ts (exec s) (Flow.Of ts))
    {body : List Stmt}
    (hbody : Stmt.tokensAll body ⊆ ts) :
    Blames ts (execAll exec body) (Flow.Of ts) := by
  induction body with
  | nil =>
      exact blames_pure trivial
  | cons s rest ih =>
      rw [Stmt.tokensAll, List.append_subset] at hbody
      refine (hexec s hbody.1).bind fun flow hflow => ?_
      cases flow with
      | normal =>
          exact ih hbody.2
      | returned value =>
          exact blames_pure hflow

theorem blames_repeatWhile
    {condition : Run Value}
    {body : Run Flow}
    (hcondition : Blames ts condition (Value.Of ts))
    (hbody : Blames ts body (Flow.Of ts))
    (count : Nat) :
    Blames ts (repeatWhile condition body count) (Flow.Of ts) := by
  induction count with
  | zero =>
      exact blames_outOfFuel
  | succ count ih =>
      refine hcondition.bind fun value _ => ?_
      split
      · refine hbody.bind fun flow hflow => ?_
        cases flow with
        | normal =>
            exact ih
        | returned value =>
            exact blames_pure hflow
      · exact blames_pure trivial

end Sequences

end Run

section Calls

variable {ts : List Token}
variable {exec : List Stmt → Run Flow}
variable (hexec : ∀ body, Stmt.tokensAll body ⊆ ts → (exec body).Blames ts (Flow.Of ts))

theorem blames_bindParams
    {values : List Value}
    (hvalues : ∀ value ∈ values, value.Of ts)
    (frame : Nat)
    (params : List Token) :
    (bindParams frame params values).Blames ts fun _ => True := by
  induction params generalizing values with
  | nil =>
      exact blames_pure trivial
  | cons p params ih =>
      cases values with
      | nil =>
          exact blames_pure trivial
      | cons value values =>
          rw [List.forall_mem_cons] at hvalues
          exact (blames_defineIn hvalues.1 frame p.lexeme).bind fun _ _ => ih hvalues.2

theorem blames_closureBind
    {closure : Closure}
    (hclosure : closure.Of ts)
    (place : Nat) :
    (closure.bind place).Blames ts (Closure.Of ts) := by
  have hobject : Value.Of ts (.object place) := trivial
  refine (blames_pushFrame _).bind fun frame _ => ?_
  exact (blames_defineIn hobject frame "this").bind fun _ _ => blames_pure hclosure

/-- A body keeps only tokens that its function keeps. -/
theorem Closure.Of.body
    {closure : Closure}
    (h : closure.Of ts) :
    Stmt.tokensAll closure.decl.body ⊆ ts := by
  obtain ⟨⟨name, params, body⟩, frame, initializer⟩ := closure
  intro t ht
  exact h (List.mem_cons_of_mem _ (List.mem_append_right _ ht))

include hexec

theorem blames_invoke
    {closure : Closure}
    (hclosure : closure.Of ts)
    {arguments : List Value}
    (harguments : ∀ value ∈ arguments, value.Of ts) :
    (closure.invoke exec arguments).Blames ts (Value.Of ts) := by
  refine (blames_pushFrame _).bind fun frame _ => ?_
  refine (blames_bindParams harguments frame _).bind fun _ _ => ?_
  refine ((hexec _ hclosure.body).within frame).bind fun flow hflow => ?_
  split
  · refine (blames_getAt? (fun _ => closure.frame) 0 "this").bind fun found hfound => blames_pure ?_
    cases found with
    | none =>
        trivial
    | some value =>
        exact hfound value rfl
  · cases flow with
    | normal =>
        exact blames_pure trivial
    | returned value =>
        exact blames_pure hflow

theorem blames_instantiate
    {c : Class}
    (hc : c.Of ts)
    {arguments : List Value}
    (harguments : ∀ value ∈ arguments, value.Of ts) :
    (c.instantiate exec arguments).Blames ts (Value.Of ts) := by
  refine (blames_newObject hc).bind fun place _ => ?_
  split
  · rename_i initializer hfound
    refine (blames_closureBind (hc _ _ hfound) place).bind fun method hmethod => ?_
    exact (blames_invoke hexec hmethod harguments).bind fun _ _ => blames_pure trivial
  · exact blames_pure trivial

theorem blames_call
    {callee : Value}
    (hcallee : callee.Of ts)
    {paren : Token}
    (hparen : paren ∈ ts)
    {arguments : List Value}
    (harguments : ∀ value ∈ arguments, value.Of ts)
    (σ : Setting) :
    (callee.call σ exec paren arguments).Blames ts (Value.Of ts) := by
  unfold Value.call
  split
  · exact blames_fail hparen
  · split
    · unfold Value.apply
      split
      · exact blames_readClock σ
      · exact blames_invoke hexec hcallee harguments
      · exact blames_instantiate hexec hcallee harguments
      · exact blames_fail hparen
    · exact blames_fail hparen

end Calls

section Properties

variable {ts : List Token}

theorem blames_boundMethod
    {method : Closure}
    (hmethod : method.Of ts)
    (place : Nat) :
    (do newFunction (← method.bind place) : Run Value).Blames ts (Value.Of ts) :=
  (blames_closureBind hmethod place).bind fun _ hbound => blames_newFunction hbound

theorem blames_property
    {name : Token}
    (hname : name ∈ ts)
    (object : Value) :
    (object.property name).Blames ts (Value.Of ts) := by
  unfold Value.property
  split
  · rename_i place
    refine (blames_object place).bind fun found hfound => ?_
    cases found with
    | none =>
        exact blames_fail hname
    | some o =>
        obtain ⟨hcls, hfields⟩ := hfound o rfl
        dsimp only
        split
        · rename_i value hfield
          exact blames_pure (hfields _ _ hfield)
        · split
          · rename_i method hmethod
            exact blames_boundMethod (hcls _ _ hmethod) place
          · exact blames_fail hname
  · exact blames_fail hname

theorem blames_superMethod
    {keyword method : Token}
    (hkeyword : keyword ∈ ts)
    (hmethod : method ∈ ts)
    (σ : Setting)
    (id : Nat) :
    (superMethod σ id keyword method).Blames ts (Value.Of ts) := by
  unfold superMethod
  split
  · exact blames_stop hkeyword
  · rename_i distance hdistance
    refine (blames_getAt? Machine.current distance "super").bind fun found hfound => ?_
    split
    · rename_i parent
      have hparent : parent.Of ts := hfound _ rfl
      refine (blames_look _).bind fun object _ => ?_
      split
      · rename_i place
        split
        · rename_i found hfind
          exact blames_boundMethod (hparent _ _ hfind) place
        · exact blames_fail hmethod
      · exact blames_fail hkeyword
    · exact blames_stop hkeyword

theorem tokens_of_mem_methodTable
    {frame : Nat}
    {methods : List FunctionDecl}
    (hmethods : Stmt.tokensFunctions methods ⊆ ts)
    {name : String}
    {closure : Closure}
    (h : (methodTable frame methods).lookup name = some closure) :
    closure.Of ts := by
  obtain ⟨decl, hdecl, -, rfl⟩ := mem_methodTable h
  exact List.Subset.trans (Part.tokens_of_mem_methods hdecl) hmethods

/-- A class finds its own methods, and those of its superclass. -/
theorem Class.of_mk
    {identity : Nat}
    {name : String}
    {superclass : Option Class}
    {table : List (String × Closure)}
    (htable : ∀ name method, table.lookup name = some method → method.Of ts)
    (hsuperclass : ∀ parent, superclass = some parent → parent.Of ts) :
    (Class.mk identity name superclass table).Of ts := by
  intro method closure hfind
  cases superclass with
  | none =>
      exact htable method closure hfind
  | some parent =>
      rw [Class.findMethod?] at hfind
      split at hfind
      · rename_i found hlookup
        cases hfind
        exact htable method _ hlookup
      · exact hsuperclass parent rfl method closure hfind

theorem blames_declareClass
    {name : Token}
    {superclass : Option Class}
    {methods : List FunctionDecl}
    (hname : name ∈ ts)
    (hsuperclass : ∀ parent, superclass = some parent → parent.Of ts)
    (hmethods : Stmt.tokensFunctions methods ⊆ ts) :
    (declareClass name superclass methods).Blames ts fun _ => True := by
  have hrest : ∀ frame, (do
      let c ← newClass name.lexeme superclass (methodTable frame methods)
      overwrite name c : Run Unit).Blames ts fun _ => True := by
    intro frame
    refine (blames_newClass fun identity => Class.of_mk
      (fun _ _ => tokens_of_mem_methodTable hmethods) hsuperclass).bind fun c hc => ?_
    exact (blames_look _).bind
      fun target _ => blames_writeIn hc hname target
  have hnil : Value.Of ts .nil := trivial
  refine (blames_define hnil name.lexeme).bind fun _ _ => ?_
  refine (blames_look _).bind fun outer _ => ?_
  cases superclass with
  | none =>
      exact hrest outer
  | some parent =>
      have hparent : Value.Of ts (.cls parent) := hsuperclass parent rfl
      refine (blames_pushFrame outer).bind fun frame _ => ?_
      exact (blames_defineIn hparent frame "super").bind fun _ _ => hrest frame

end Properties

section Step

variable {ts : List Token}
variable {eval : Expr → Run Value}
variable (heval : ∀ e, e.tokens ⊆ ts → (eval e).Blames ts (Value.Of ts))

include heval

theorem blames_evalStep
    {exec : List Stmt → Run Flow}
    (hexec : ∀ body, Stmt.tokensAll body ⊆ ts → (exec body).Blames ts (Flow.Of ts))
    (σ : Setting)
    {e : Expr}
    (he : e.tokens ⊆ ts) :
    (evalStep σ eval exec e).Blames ts (Value.Of ts) := by
  cases e with
  | literal value =>
      cases value <;> exact blames_pure trivial
  | grouping inner =>
      exact heval inner he
  | unary operator right =>
      rw [Expr.tokens, List.cons_subset] at he
      refine (heval right he.2).bind fun value _ => ?_
      exact blames_check (fun _ => Operator.unary_plain) he.1
  | binary left operator right =>
      rw [Expr.tokens, List.append_subset, List.cons_subset] at he
      refine (heval left he.1).bind fun a _ => (heval right he.2.2).bind fun b _ => ?_
      refine (blames_look _).bind fun objects _ => ?_
      exact blames_check (fun _ => Operator.binary_plain) he.2.1
  | logical left operator right =>
      rw [Expr.tokens, List.append_subset, List.cons_subset] at he
      refine (heval left he.1).bind fun a ha => ?_
      split
      · exact blames_pure ha
      · exact heval right he.2.2
  | var id name =>
      exact blames_readVariable (he List.mem_cons_self) σ id
  | assign id name value =>
      rw [Expr.tokens, List.cons_subset] at he
      refine (heval value he.2).bind fun v hv => ?_
      refine ((blames_look _).bind
        fun target _ => blames_writeIn hv he.1 target).bind fun _ _ => ?_
      exact blames_pure hv
  | call callee paren arguments =>
      rw [Expr.tokens, List.append_subset, List.append_subset] at he
      refine (heval callee he.1).bind fun f hf => ?_
      refine (blames_evalAll heval he.2.1).bind fun values hvalues => ?_
      exact blames_call hexec hf (he.2.2 List.mem_cons_self) hvalues σ
  | get object name =>
      rw [Expr.tokens, List.append_subset] at he
      refine (heval object he.1).bind fun o _ => ?_
      exact blames_property (he.2 List.mem_cons_self) o
  | set object name value =>
      rw [Expr.tokens, List.append_subset, List.cons_subset] at he
      refine (heval object he.1).bind fun o _ => ?_
      split
      · rename_i place _
        refine (heval value he.2.2).bind fun v hv => ?_
        exact (blames_setField hv place name.lexeme).bind fun _ _ => blames_pure hv
      · exact blames_fail he.2.1
  | this id keyword =>
      exact blames_readVariable (he List.mem_cons_self) σ id
  | super id keyword method =>
      rw [Expr.tokens, List.cons_subset] at he
      exact blames_superMethod he.1 (he.2 List.mem_cons_self) σ id

omit heval in
/-- The token that is blamed for a superclass stands in the class statement. -/
theorem superclassToken_mem
    {name : Token}
    {superclass : Expr}
    (hname : name ∈ ts)
    (hsuperclass : superclass.tokens ⊆ ts) :
    superclassToken name superclass ∈ ts := by
  unfold superclassToken
  split
  · exact hsuperclass List.mem_cons_self
  · exact hname

theorem blames_execStep
    {exec : Stmt → Run Flow}
    (hexec : ∀ s, s.tokens ⊆ ts → (exec s).Blames ts (Flow.Of ts))
    (rounds : Nat)
    {s : Stmt}
    (hs : s.tokens ⊆ ts) :
    (execStep eval exec rounds s).Blames ts (Flow.Of ts) := by
  have hnormal : (pure .normal : Run Flow).Blames ts (Flow.Of ts) := blames_pure trivial
  cases s with
  | expression e =>
      exact (heval e hs).bind fun _ _ => hnormal
  | print e =>
      refine (heval e hs).bind fun value _ => ?_
      refine (blames_look _).bind fun objects _ => ?_
      exact (blames_print _).bind fun _ _ => hnormal
  | var name initializer =>
      rw [Stmt.tokens, List.cons_subset] at hs
      cases initializer with
      | none =>
          have hnil : Value.Of ts .nil := trivial
          exact (blames_define hnil name.lexeme).bind fun _ _ => hnormal
      | some e =>
          exact (heval e hs.2).bind fun value hvalue =>
            (blames_define hvalue name.lexeme).bind fun _ _ => hnormal
  | block body =>
      refine (blames_look _).bind fun outer _ => ?_
      exact (blames_pushFrame outer).bind fun frame _ => (blames_execAll hexec hs).within frame
  | ifThen condition thenBranch =>
      rw [Stmt.tokens, List.append_subset] at hs
      refine (heval condition hs.1).bind fun value _ => ?_
      split
      · exact hexec thenBranch hs.2
      · exact hnormal
  | ifElse condition thenBranch elseBranch =>
      rw [Stmt.tokens, List.append_subset, List.append_subset] at hs
      refine (heval condition hs.1).bind fun value _ => ?_
      split
      · exact hexec thenBranch hs.2.1
      · exact hexec elseBranch hs.2.2
  | loop condition body =>
      rw [Stmt.tokens, List.append_subset] at hs
      exact blames_repeatWhile (heval condition hs.1) (hexec body hs.2) rounds
  | function decl =>
      refine (blames_look _).bind fun outer _ => ?_
      have hclosure : Closure.Of ts ⟨decl, outer, false⟩ := hs
      exact (blames_newFunction hclosure).bind fun f hf =>
        (blames_define hf decl.name.lexeme).bind fun _ _ => hnormal
  | ret keyword value =>
      rw [Stmt.tokens, List.cons_subset] at hs
      cases value with
      | none =>
          exact blames_pure trivial
      | some e =>
          exact (heval e hs.2).bind fun value hvalue => blames_pure hvalue
  | classDecl name superclass methods =>
      rw [Stmt.tokens, List.cons_subset, List.append_subset] at hs
      obtain ⟨hname, hsuperclass, hmethods⟩ := hs
      cases superclass with
      | none =>
          exact (blames_declareClass hname (by simp) hmethods).bind fun _ _ => hnormal
      | some superclass =>
          refine (heval superclass hsuperclass).bind fun value hvalue => ?_
          split
          · rename_i parent
            refine (blames_declareClass hname ?_ hmethods).bind fun _ _ => hnormal
            intro parent' hparent
            cases hparent
            exact hvalue
          · exact blames_fail (superclassToken_mem hname hsuperclass)

end Step

/-- Evaluation and execution blame only tokens that are kept. -/
theorem eval_exec_blames
    (ts : List Token)
    (σ : Setting)
    (n : Nat) :
    (∀ e, e.tokens ⊆ ts → (eval σ n e).Blames ts (Value.Of ts)) ∧
      ∀ s, s.tokens ⊆ ts → (exec σ n s).Blames ts (Flow.Of ts) := by
  induction n with
  | zero =>
      exact ⟨fun _ _ => blames_outOfFuel, fun _ _ => blames_outOfFuel⟩
  | succ n ih =>
      exact ⟨fun _ he => blames_evalStep ih.1 (fun _ => blames_execAll ih.2) σ he,
        fun _ hs => blames_execStep ih.1 ih.2 n hs⟩

end Lox
