import Lox.Proofs.Rename.FollowCalls

/-!
# Renamed programs follow the old ones

In a program without faults, an expression or statement is followed by the renamed one on all twin
machines.  The proof is by induction on the fuel.  Each case runs both nodes side by side: what the
old node finds is known from the safety of its evaluation, and the new node finds what is alike.
-/

namespace Lox

open Run

section Lists

variable {visits : List Visit}
variable {ρ : Renaming}
variable {marked : Marking}
variable {m m' : Machine}
variable {ctx : Context}
variable {scopes : Scopes}
variable {place : Place}

/-- Expressions are evaluated first, and what follows them starts with the same scopes covered. -/
theorem follows_eval
    {α : Type}
    {eval : Expr → Run Value}
    {e : Expr}
    {f f' : Value → Run α}
    {post : Marking → Machine → α → α → Prop}
    (hsafe : EvalSafe visits ρ.locals eval)
    (heval : EvalFollows visits ρ eval)
    (hvisits : ∀ v ∈ Expr.visits ctx scopes e, v ∈ visits)
    (hm : m.Twins visits ρ marked m')
    (hcovers : m.frames.Covers m.current scopes)
    (hmarks : m.frames.Marks marked m.current scopes.length place)
    (hf : ∀ {marked₁ m₁ m₁' value value'}, marked.Advances m marked₁ m₁ →
      m₁.Twins visits ρ marked₁ m₁' → m₁.frames.Covers m₁.current scopes →
      m₁.frames.Marks marked₁ m₁.current scopes.length place → value.Sound visits m₁ →
      Value.Alike ρ marked₁ m₁.frames value value' →
      Follows ρ marked₁ (f value) (f' value') m₁ m₁' post) :
    Follows ρ marked (eval e >>= f) (eval (e.rename ρ place) >>= f') m m' post := by
  refine (heval hvisits hm (.inl hcovers) hmarks).bind (hsafe hvisits hm.sound (.inl hcovers))
    hm.sound ?_
  intro marked₁ m₁ m₁' value value' hadvances hm₁ hsound hvalue
  exact hf hadvances hm₁ (hadvances.later.covers hcovers) (hadvances.current hmarks) hsound hvalue

theorem follows_evalAll
    {eval : Expr → Run Value}
    {es : List Expr}
    (hsafe : EvalSafe visits ρ.locals eval)
    (heval : EvalFollows visits ρ eval)
    (hvisits : ∀ v ∈ Expr.visitsAll ctx scopes es, v ∈ visits)
    (hm : m.Twins visits ρ marked m')
    (hcovers : m.frames.Covers m.current scopes)
    (hmarks : m.frames.Marks marked m.current scopes.length place) :
    Follows ρ marked (evalAll eval es) (evalAll eval (Expr.renameAll ρ place es)) m m'
      fun marked₁ m₁ values values' =>
        List.Forall₂ (Value.Alike ρ marked₁ m₁.frames) values values' := by
  induction es generalizing marked m m' with
  | nil =>
      exact follows_pure hm.alike .nil
  | cons e rest ih =>
      have hrest : ∀ v ∈ Expr.visitsAll ctx scopes rest, v ∈ visits :=
        fun v hv => hvisits v (List.mem_append_right _ hv)
      refine follows_eval hsafe heval (fun v hv => hvisits v (List.mem_append_left _ hv)) hm
        hcovers hmarks ?_
      intro marked₁ m₁ m₁' value value' _ hm₁ hcovers₁ hmarks₁ _ hvalue
      refine (ih hrest hm₁ hcovers₁ hmarks₁).bind (safe_evalAll hsafe hrest hm₁.sound hcovers₁)
        hm₁.sound ?_
      intro marked₂ m₂ m₂' values values' hadvances₂ hm₂ _ hvalues
      exact follows_pure hm₂.alike (.cons (hadvances₂.value hvalue) hvalues)

theorem follows_execAll
    {exec : Stmt → Run Flow}
    (hsafe : ExecSafe visits ρ.locals exec)
    (hexec : ExecFollows visits ρ exec) :
    BodyFollows visits ρ (execAll exec) := by
  intro ctx scopes body body' marked m m' place hvisits hm hcovers hmarks hbody
  induction body generalizing scopes body' marked m m' with
  | nil =>
      cases hbody
      exact follows_pure hm.alike .normal
  | cons s rest ih =>
      cases hbody with
      | cons hfirst hrest =>
          have hvisit : ∀ v ∈ Stmt.visits ctx scopes s, v ∈ visits :=
            fun v hv => hvisits v (List.mem_append_left _ hv)
          refine (hexec hvisit hm hcovers hmarks hfirst).bind (hsafe hvisit hm.sound hcovers)
            hm.sound ?_
          intro marked₁ m₁ m₁' flow flow' hadvances₁ hm₁ hsettles hflow
          cases hflow with
          | normal =>
              have hmarks₁ := hadvances₁.current hmarks
              rw [← Stmt.length_resolve ctx s scopes] at hmarks₁
              exact ih (fun v hv => hvisits v (List.mem_append_right _ hv)) hm₁ hsettles hmarks₁
                hrest
          | returned hvalue =>
              exact follows_pure hm₁.alike (.returned hvalue)

/-- Both loops go round equally often. -/
theorem follows_repeatWhile
    {condition condition' : Run Value}
    {body body' : Run Flow}
    (hconditionSafe : ∀ {m : Machine}, m.Sound visits → m.frames.Covers m.current scopes →
      Safe visits ρ.locals condition m fun m' value => value.Sound visits m')
    (hcondition : ∀ {marked m m'}, m.Twins visits ρ marked m' →
      m.frames.Covers m.current scopes → m.frames.Marks marked m.current scopes.length place →
      Follows ρ marked condition condition' m m' fun marked₁ m₁ value value' =>
        Value.Alike ρ marked₁ m₁.frames value value')
    (hbodySafe : ∀ {m : Machine}, m.Sound visits → m.frames.Covers m.current scopes →
      Safe visits ρ.locals body m fun m' flow => flow.Settles visits scopes m')
    (hbody : ∀ {marked m m'}, m.Twins visits ρ marked m' →
      m.frames.Covers m.current scopes → m.frames.Marks marked m.current scopes.length place →
      Follows ρ marked body body' m m' fun marked₁ m₁ flow flow' =>
        Flow.Alike ρ marked₁ m₁.frames flow flow')
    (count : Nat)
    (hm : m.Twins visits ρ marked m')
    (hcovers : m.frames.Covers m.current scopes)
    (hmarks : m.frames.Marks marked m.current scopes.length place) :
    Follows ρ marked (repeatWhile condition body count) (repeatWhile condition' body' count) m m'
      fun marked₁ m₁ flow flow' => Flow.Alike ρ marked₁ m₁.frames flow flow' := by
  induction count generalizing marked m m' with
  | zero =>
      exact follows_outOfFuel hm.alike
  | succ count ih =>
      refine (hcondition hm hcovers hmarks).bind (hconditionSafe hm.sound hcovers) hm.sound ?_
      intro marked₁ m₁ m₁' value value' hadvances₁ hm₁ _ hvalue
      have hcovers₁ := hadvances₁.later.covers hcovers
      have hmarks₁ := hadvances₁.current hmarks
      rw [hvalue.toMatches.isTruthy_eq]
      split
      · refine (hbody hm₁ hcovers₁ hmarks₁).bind (hbodySafe hm₁.sound hcovers₁) hm₁.sound ?_
        intro marked₂ m₂ m₂' flow flow' hadvances₂ hm₂ hsettles hflow
        cases hflow with
        | normal =>
            exact ih hm₂ hsettles (hadvances₂.current hmarks₁)
        | returned hvalue =>
            exact follows_pure hm₂.alike (.returned hvalue)
      · exact follows_pure hm₁.alike .normal

end Lists

theorem Renaming.reference_global
    {ρ : Renaming}
    {id : Nat}
    (h : ρ.locals.get? id = none)
    (place : Place)
    (name : Token) :
    ρ.reference place id name = name := by
  refine if_neg ?_
  rintro ⟨-, hplace, heq⟩
  rw [← heq, h] at hplace
  cases hplace

theorem Renaming.line_reference
    (ρ : Renaming)
    (place : Place)
    (id : Nat)
    (name : Token) :
    (ρ.reference place id name).line = name.line := by
  unfold reference
  split <;> rfl

section Induction

variable {visits : List Visit}
variable {ρ : Renaming}
variable (hρ : ρ.Proper)
variable (hgood : ∀ v ∈ visits, v.Good ρ.locals)
variable (hfresh : ∀ v ∈ visits, ∀ t ∈ v.node.tokens, t.lexeme ≠ ρ.new)

include hρ hgood hfresh

/-- Renamed expressions follow if renamed parts and bodies do. -/
theorem follows_evalStep
    {clock : Nat → Float}
    {eval : Expr → Run Value}
    {exec : List Stmt → Run Flow}
    (hsafe : EvalSafe visits ρ.locals eval)
    (heval : EvalFollows visits ρ eval)
    (hsafeExec : BodySafe visits ρ.locals exec)
    (hexec : BodyFollows visits ρ exec) :
    EvalFollows visits ρ (evalStep ⟨ρ.locals, clock⟩ eval exec) := by
  intro ctx scopes e marked m m' place hvisits hm hserves hmarks
  cases e with
  | literal value =>
      refine follows_pure hm.alike ?_
      cases value with
      | number x =>
          exact .number x
      | string s =>
          exact .string s
      | bool b =>
          exact .bool b
      | nil =>
          exact .nil
  | grouping inner =>
      have hcovers := hserves.covers (by simp)
      exact heval (fun v hv => hvisits v (List.mem_append_left _ hv)) hm (.inl hcovers) hmarks
  | unary operator right =>
      have hcovers := hserves.covers (by simp)
      refine follows_eval hsafe heval (fun v hv => hvisits v (List.mem_append_left _ hv)) hm
        hcovers hmarks ?_
      intro marked₁ m₁ m₁' value value' _ hm₁ _ _ _ hvalue
      rw [Operator.unary_matches operator hvalue.toMatches]
      exact follows_check hm₁.alike operator fun _ => Operator.unary_plain
  | binary left operator right =>
      have hcovers := hserves.covers (by simp)
      refine follows_eval hsafe heval (fun v hv => hvisits v (List.mem_append_left _ hv)) hm
        hcovers hmarks ?_
      intro marked₁ m₁ m₁' a a' _ hm₁ hcovers₁ hmarks₁ _ ha
      refine follows_eval hsafe heval
        (fun v hv => hvisits v (List.mem_append_right _ (List.mem_append_left _ hv))) hm₁
        hcovers₁ hmarks₁ ?_
      intro marked₂ m₂ m₂' b b' hadvances₂ hm₂ _ _ _ hb
      refine .read ?_
      rw [Operator.binary_matches operator hm₂.alike.toMatches (hadvances₂.value ha).toMatches
        hb.toMatches]
      exact follows_check hm₂.alike operator fun _ => Operator.binary_plain
  | logical left operator right =>
      have hcovers := hserves.covers (by simp)
      refine follows_eval hsafe heval (fun v hv => hvisits v (List.mem_append_left _ hv)) hm
        hcovers hmarks ?_
      intro marked₁ m₁ m₁' a a' _ hm₁ hcovers₁ hmarks₁ _ ha
      rw [Operator.decides_matches operator ha.toMatches]
      split
      · exact follows_pure hm₁.alike ha
      · exact heval (fun v hv => hvisits v (List.mem_append_right _ (List.mem_append_left _ hv)))
          hm₁ (.inl hcovers₁) hmarks₁
  | var id name =>
      have hv := hvisits _ List.mem_cons_self
      have hnode := hgood _ hv
      refine follows_readVariable hm.alike hmarks (fun h => ρ.reference_global h place name) ?_
      intro d hget
      exact ⟨Locals.le_length hnode.var.2.1 hget,
        ρ.nameAt_reference (hfresh _ hv name List.mem_cons_self) hget place,
        hnode.var_found hserves d hget⟩
  | assign id name value =>
      have hcovers := hserves.covers (by simp)
      have hv := hvisits _ (List.mem_append_right _ List.mem_cons_self)
      have hnode := hgood _ hv
      refine follows_eval hsafe heval (fun v hv => hvisits v (List.mem_append_left _ hv)) hm
        hcovers hmarks ?_
      intro marked₁ m₁ m₁' value value' _ hm₁ hcovers₁ hmarks₁ hsound hvalue
      have hlocal : ∀ d, ρ.locals.get? id = some d → d ≤ scopes.length ∧
          (ρ.reference place id name).lexeme = ρ.nameAt place d name.lexeme ∧
          ∃ target, m₁.frames.outward? d m₁.current = some target := by
        intro d hget
        exact ⟨Locals.le_length hnode.assign.2 hget,
          ρ.nameAt_reference (hfresh _ hv name List.mem_cons_self) hget place,
          hnode.assign_found hcovers₁ d hget⟩
      refine (follows_writeVariable hm₁.alike hmarks₁ hvalue
        (fun h => ρ.reference_global h place name) hlocal).bind
        (safe_writeVariable (σ := ⟨ρ.locals, clock⟩) hm₁.sound hsound hnode.assign.1
          ⟨_, hv, _, rfl⟩ (hnode.assign_found hcovers₁)) hm₁.sound ?_
      intro marked₂ m₂ m₂' _ _ hadvances₂ hm₂ _ _
      exact follows_pure hm₂.alike (hadvances₂.value hvalue)
  | call callee paren arguments =>
      have hcovers := hserves.covers (by simp)
      have harguments : ∀ v ∈ Expr.visitsAll ctx scopes arguments, v ∈ visits :=
        fun v hv => hvisits v (List.mem_append_right _ (List.mem_append_left _ hv))
      refine follows_eval hsafe heval (fun v hv => hvisits v (List.mem_append_left _ hv)) hm
        hcovers hmarks ?_
      intro marked₁ m₁ m₁' f f' _ hm₁ hcovers₁ hmarks₁ hsound hf
      refine (follows_evalAll hsafe heval harguments hm₁ hcovers₁ hmarks₁).bind
        (safe_evalAll hsafe harguments hm₁.sound hcovers₁) hm₁.sound ?_
      intro marked₂ m₂ m₂' values values' hadvances₂ hm₂ hvaluesSound hvalues
      exact follows_call hρ hgood hfresh hsafeExec hexec hm₂
        (hsound.mono hadvances₂.later.frames hadvances₂.later.objects) (hadvances₂.value hf)
        hvaluesSound hvalues
  | get object name =>
      have hcovers := hserves.covers (by simp)
      refine follows_eval hsafe heval (fun v hv => hvisits v (List.mem_append_left _ hv)) hm
        hcovers hmarks ?_
      intro marked₁ m₁ m₁' o o' _ hm₁ _ _ hsound ho
      exact follows_property hm₁ hsound ho
  | set object name value =>
      have hcovers := hserves.covers (by simp)
      refine follows_eval hsafe heval
        (fun v hv => hvisits v (List.mem_append_right _ (List.mem_append_left _ hv))) hm
        hcovers hmarks ?_
      intro marked₁ m₁ m₁' o o' _ hm₁ hcovers₁ hmarks₁ _ ho
      cases ho with
      | object object =>
          refine follows_eval hsafe heval (fun v hv => hvisits v (List.mem_append_left _ hv)) hm₁
            hcovers₁ hmarks₁ ?_
          intro marked₂ m₂ m₂' value value' _ hm₂ _ _ hsound hvalue
          refine (follows_setField hm₂.alike object name.lexeme hvalue).bind
            (safe_setField hm₂.sound hsound) hm₂.sound ?_
          intro marked₃ m₃ m₃' _ _ hadvances₃ hm₃ _ _
          exact follows_pure hm₃.alike (hadvances₃.value hvalue)
      | _ =>
          exact follows_fail hm₁.alike rfl _
  | this id keyword =>
      have hcovers := hserves.covers (by simp)
      have hnode := hgood _ (hvisits _ List.mem_cons_self)
      obtain ⟨hlexeme, d, hget, hdistance, -⟩ := hnode.this
      obtain ⟨_, object, hget', -, hfound⟩ := hnode.this_found hm.sound hcovers
      rw [hget] at hget'
      cases hget'
      have hkeyword : ¬ Ordinary keyword.lexeme := by
        simp [Ordinary, hlexeme]
      refine follows_readVariable hm.alike hmarks (fun _ => rfl) ?_
      intro d' hd'
      rw [hget] at hd'
      cases hd'
      exact ⟨Nat.le_of_lt (Scopes.distance?_lt hdistance),
        (ρ.nameAt_keyword hρ place d hkeyword).symm, _, hfound⟩
  | super id keyword method =>
      have hcovers := hserves.covers (by simp)
      have hnode := hgood _ (hvisits _ List.mem_cons_self)
      obtain ⟨d, parent, object, hget, hsuper, hthis, hparent, hobject⟩ :=
        hnode.super_found hm.sound hcovers
      refine follows_superMethod hρ hm hmarks ?_ hget hsuper hthis hparent hobject
      obtain ⟨-, _, hget', ⟨_, hscope, -⟩, -⟩ := hnode.super
      rw [hget] at hget'
      cases hget'
      exact Nat.le_of_lt (List.getElem?_eq_some_iff.mp hscope).1

omit hρ hgood hfresh

/-- Function values are made in the same frame and bound to the same name. -/
theorem follows_declareFunction
    {marked : Marking}
    {m m' : Machine}
    {depth : Nat}
    {place inner : Place}
    {decl decl' : FunctionDecl}
    {eval : Expr → Run Value}
    {exec : Stmt → Run Flow}
    {rounds : Nat}
    (hm : Machine.Alike ρ marked m m')
    (hmarks : m.frames.Marks marked m.current depth place)
    (hname : ρ.name place decl.name.lexeme = decl.name.lexeme)
    (hopens : place.Opens inner)
    (hdecl : AlikeFunction ρ inner decl decl') :
    Follows ρ marked (execStep eval exec rounds (.function decl))
      (execStep eval exec rounds (.function decl')) m m' fun marked₁ m₁ flow flow' =>
        Flow.Alike ρ marked₁ m₁.frames flow flow' := by
  have hclosure : Closure.Alike ρ marked m.frames ⟨decl, m.current, false⟩
      ⟨decl', m.current, false⟩ :=
    ⟨rfl, rfl, depth, place, inner, hmarks, hopens, hdecl⟩
  have hafter := hm.define hmarks.here (.function m.functionCount hclosure) decl.name.lexeme
  rw [hname] at hafter
  have hcount : m'.functionCount + 1 = m.functionCount + 1 := by
    rw [hm.functionCount]
  have hrun' : execStep eval exec rounds (.function decl') m' = (.ok .normal,
      { m' with
        frames := m'.frames.define m.current decl.name.lexeme
          (.function m.functionCount ⟨decl', m.current, false⟩)
        functionCount := m'.functionCount + 1 }) := by
    simp only [← hm.current, ← hm.functionCount, ← hdecl.name_eq]
    rfl
  exact .ok rfl hrun' (Marking.keeps_refl _ _) { hafter with functionCount := hcount } .normal

include hgood hfresh

/-- Statements that are alike follow each other if their parts do. -/
theorem follows_execStep
    {eval : Expr → Run Value}
    {exec : Stmt → Run Flow}
    (hsafe : EvalSafe visits ρ.locals eval)
    (heval : EvalFollows visits ρ eval)
    (hsafeExec : ExecSafe visits ρ.locals exec)
    (hexec : ExecFollows visits ρ exec)
    (rounds : Nat) :
    ExecFollows visits ρ (execStep eval exec rounds) := by
  intro ctx scopes s s' marked m m' place hvisits hm hcovers hmarks halike
  have hself := hvisits _ (Stmt.self_mem_visits ctx scopes s)
  cases halike with
  | expression _ e =>
      refine follows_eval hsafe heval (fun v hv => hvisits v (List.mem_cons_of_mem _ hv)) hm
        hcovers hmarks ?_
      intro marked₁ m₁ m₁' _ _ _ hm₁ _ _ _ _
      exact follows_pure hm₁.alike .normal
  | print _ e =>
      refine follows_eval hsafe heval (fun v hv => hvisits v (List.mem_cons_of_mem _ hv)) hm
        hcovers hmarks ?_
      intro marked₁ m₁ m₁' value value' _ hm₁ _ _ _ hvalue
      refine .read ?_
      rw [hvalue.toMatches.display_eq hm₁.alike.toMatches]
      refine (follows_print hm₁.alike _).bind (safe_print hm₁.sound _) hm₁.sound ?_
      intro marked₂ m₂ m₂' _ _ _ hm₂ _ _
      exact follows_pure hm₂.alike .normal
  | var _ name initializer =>
      have hordinary := (hgood _ hself).varDecl.1
      have hname := ρ.lexeme_declared (hfresh _ hself name List.mem_cons_self) place
      cases initializer with
      | none =>
          have hnil : Value.nil.Sound visits m := trivial
          refine (follows_define hm.alike hmarks hname .nil).bind
            (safe_define hm.sound hnil (Value.suits_of_ordinary hordinary _)) hm.sound ?_
          intro marked₁ m₁ m₁' _ _ _ hm₁ _ _
          exact follows_pure hm₁.alike .normal
      | some e =>
          have hlength : scopes.length = (scopes.declare name).length := by
            rw [Scopes.declare, Scopes.length_add]
          rw [hlength] at hmarks
          refine follows_eval hsafe heval (fun v hv => hvisits v (List.mem_cons_of_mem _ hv)) hm
            (hcovers.declare name) hmarks ?_
          intro marked₁ m₁ m₁' value value' _ hm₁ _ hmarks₁ hsound hvalue
          refine (follows_define hm₁.alike hmarks₁ hname hvalue).bind
            (safe_define hm₁.sound hsound (Value.suits_of_ordinary hordinary _)) hm₁.sound ?_
          intro marked₂ m₂ m₂' _ _ _ hm₂ _ _
          exact follows_pure hm₂.alike .normal
  | block hopens hbody =>
      refine .read ?_
      rw [hm.alike.current]
      refine (follows_pushFrame hm.alike hmarks hopens).bind (safe_pushFrame hm.sound m.current)
        hm.sound ?_
      rintro marked₁ m₁ m₁' frame _ hadvances₁ hm₁ ⟨rfl, hframes₁⟩ ⟨rfl, hmarks₁⟩
      have hcovers₁ : m₁.frames.Covers m.frames.size ([] :: scopes) := by
        rw [hframes₁]
        exact hcovers.push hm.sound.rooted
      exact follows_body (follows_execAll hsafeExec hexec)
        (fun v hv => hvisits v (List.mem_cons_of_mem _ hv)) hm₁ hcovers₁ hmarks₁ hbody
  | ifThen condition hthen =>
      refine follows_eval hsafe heval
        (fun v hv => hvisits v (List.mem_cons_of_mem _ (List.mem_append_left _ hv))) hm
        hcovers hmarks ?_
      intro marked₁ m₁ m₁' value value' _ hm₁ hcovers₁ hmarks₁ _ hvalue
      rw [hvalue.toMatches.isTruthy_eq]
      split
      · exact hexec (fun v hv => hvisits v (List.mem_cons_of_mem _ (List.mem_append_right _ hv)))
          hm₁ hcovers₁ hmarks₁ hthen
      · exact follows_pure hm₁.alike .normal
  | @ifElse _ condition thenBranch thenBranch' elseBranch elseBranch' hthen helse =>
      obtain ⟨-, hbranch, hshaped, -, -⟩ := (hgood _ hself).shaped
      have hscopes := Stmt.resolve_branch ctx scopes thenBranch hshaped hbranch
      simp only [Stmt.visits, hscopes] at hvisits
      refine follows_eval hsafe heval
        (fun v hv => hvisits v (List.mem_cons_of_mem _ (List.mem_append_left _ hv))) hm
        hcovers hmarks ?_
      intro marked₁ m₁ m₁' value value' _ hm₁ hcovers₁ hmarks₁ _ hvalue
      rw [hvalue.toMatches.isTruthy_eq]
      split
      · exact hexec (fun v hv => hvisits v (List.mem_cons_of_mem _
          (List.mem_append_right _ (List.mem_append_left _ hv)))) hm₁ hcovers₁ hmarks₁ hthen
      · exact hexec (fun v hv => hvisits v (List.mem_cons_of_mem _
          (List.mem_append_right _ (List.mem_append_right _ hv)))) hm₁ hcovers₁ hmarks₁ helse
  | @loop _ condition body body' hbody =>
      obtain ⟨-, hbranch, hshaped⟩ := (hgood _ hself).shaped
      have hscopes := Stmt.resolve_branch ctx scopes body hshaped hbranch
      have hcondition : ∀ v ∈ Expr.visits ctx scopes condition, v ∈ visits :=
        fun v hv => hvisits v (List.mem_cons_of_mem _ (List.mem_append_left _ hv))
      have hround : ∀ v ∈ Stmt.visits ctx scopes body, v ∈ visits :=
        fun v hv => hvisits v (List.mem_cons_of_mem _ (List.mem_append_right _ hv))
      refine follows_repeatWhile ?_ ?_ ?_ ?_ rounds hm hcovers hmarks
      · intro m hm hcovers
        exact hsafe hcondition hm (.inl hcovers)
      · intro marked m m' hm hcovers hmarks
        exact heval hcondition hm (.inl hcovers) hmarks
      · intro m hm hcovers
        have hafter := hsafeExec hround hm hcovers
        rw [hscopes] at hafter
        exact hafter
      · intro marked m m' hm hcovers hmarks
        exact hexec hround hm hcovers hmarks hbody
  | @function _ inner decl decl' hold hopens hdecl =>
      have hnew := hfresh _ hself _ (Stmt.name_mem_tokensFunction decl)
      exact follows_declareFunction hm.alike hmarks (ρ.name_of_ne hold hnew) hopens hdecl
  | ret _ keyword value =>
      cases value with
      | none =>
          exact follows_pure hm.alike (.returned .nil)
      | some e =>
          refine follows_eval hsafe heval (fun v hv => hvisits v (List.mem_cons_of_mem _ hv)) hm
            hcovers hmarks ?_
          intro marked₁ m₁ m₁' value value' _ hm₁ _ _ _ hvalue
          exact follows_pure hm₁.alike (.returned hvalue)
  | @classDecl _ name superclass methods methods' hold hmethods =>
      have hordinary := (hgood _ hself).classDecl.1
      have hname := ρ.name_of_ne hold (hfresh _ hself name List.mem_cons_self)
      cases superclass with
      | none =>
          have hmethodVisits : ∀ v ∈ Stmt.visitsMethods (ctx.inClass .plain)
              (Stmt.methodScopes ((scopes.declare name).define name) false) methods,
              v ∈ visits := fun v hv => hvisits v (List.mem_cons_of_mem _ hv)
          refine (follows_declareClass hm hordinary hname (by simp) .none hcovers hmarks hmethods
            hmethodVisits).bind (safe_declareClass hm.sound hordinary (by simp) hcovers
            hmethodVisits) hm.sound ?_
          intro marked₁ m₁ m₁' _ _ _ hm₁ _ _
          exact follows_pure hm₁.alike .normal
      | some superclass =>
          obtain ⟨id, parent, rfl, hne⟩ := (hgood _ hself).superclass
          have hvisit : ∀ v ∈ Expr.visits (ctx.inClass .derived)
              ((scopes.declare name).define name) (.var id parent), v ∈ visits :=
            fun v hv => hvisits v (List.mem_cons_of_mem _ (List.mem_append_left _ hv))
          have hmethodVisits : ∀ v ∈ Stmt.visitsMethods (ctx.inClass .derived)
              (Stmt.methodScopes ((scopes.declare name).define name) true) methods,
              v ∈ visits :=
            fun v hv => hvisits v (List.mem_cons_of_mem _ (List.mem_append_right _ hv))
          have hserves : m.Serves ((scopes.declare name).define name) (.var id parent) :=
            .inr ⟨scopes, name, id, parent, rfl, rfl, hne, hcovers⟩
          have hlength : scopes.length = ((scopes.declare name).define name).length := by
            rw [Scopes.define, Scopes.declare, Scopes.length_add, Scopes.length_add]
          have hmarksInside := hmarks
          rw [hlength] at hmarksInside
          refine (heval hvisit hm hserves hmarksInside).bind (hsafe hvisit hm.sound hserves)
            hm.sound ?_
          intro marked₁ m₁ m₁' value value' hadvances₁ hm₁ hsound hvalue
          cases hvalue with
          | @cls c c' hclass =>
              have hparent : ∀ other, some c = some other → other.Sound visits m₁.frames := by
                intro other hother
                cases hother
                exact hsound
              have hcovers₁ := hadvances₁.later.covers hcovers
              refine (follows_declareClass hm₁ hordinary hname hparent (.some hclass) hcovers₁
                (hadvances₁.current hmarks) hmethods hmethodVisits).bind
                (safe_declareClass hm₁.sound hordinary hparent hcovers₁ hmethodVisits)
                hm₁.sound ?_
              intro marked₂ m₂ m₂' _ _ _ hm₂ _ _
              exact follows_pure hm₂.alike .normal
          | _ =>
              exact follows_fail hm₁.alike (ρ.line_reference place id parent) _

include hρ

/-- Renamed programs follow the old ones, with any amount of fuel. -/
theorem eval_exec_follows
    (clock : Nat → Float)
    (fuel : Nat) :
    EvalFollows visits ρ (eval ⟨ρ.locals, clock⟩ fuel) ∧
      ExecFollows visits ρ (exec ⟨ρ.locals, clock⟩ fuel) := by
  induction fuel with
  | zero =>
      exact ⟨fun _ _ _ _ _ _ _ _ hm _ _ => follows_outOfFuel hm.alike,
        fun _ _ _ _ _ _ _ _ _ hm _ _ _ => follows_outOfFuel hm.alike⟩
  | succ fuel ih =>
      obtain ⟨hsafe, hsafeExec⟩ := eval_exec_safe (σ := ⟨ρ.locals, clock⟩) hgood fuel
      exact ⟨follows_evalStep hρ hgood hfresh hsafe ih.1 (safe_execAll hsafeExec)
          (follows_execAll hsafeExec ih.2),
        follows_execStep hgood hfresh hsafe ih.1 hsafeExec ih.2 fuel⟩

end Induction

end Lox
