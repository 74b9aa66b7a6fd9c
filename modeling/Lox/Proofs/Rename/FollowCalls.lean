import Lox.Proofs.Rename.Follow

/-!
# Variables, calls and classes follow each other

The parts of evaluation that do not depend on how expressions and statements are evaluated, but for
a function that is handed to them.  What the first of two runs finds in its frames is known from its
safety; the second one finds what is alike.
-/

namespace Lox

open Run

/-- Both statements end, or both return values that are alike. -/
inductive Flow.Alike (ρ : Renaming) (marked : Marking) (fs : Frames) : Flow → Flow → Prop where
  | normal : Flow.Alike ρ marked fs .normal .normal
  | returned {value value' : Value} (h : Value.Alike ρ marked fs value value') :
      Flow.Alike ρ marked fs (.returned value) (.returned value')

/-- On twin machines an expression is followed by the renamed one. -/
def EvalFollows (visits : List Visit) (ρ : Renaming) (eval : Expr → Run Value) : Prop :=
  ∀ ⦃ctx scopes e marked m m' place⦄, (∀ v ∈ Expr.visits ctx scopes e, v ∈ visits) →
    m.Twins visits ρ marked m' → m.Serves scopes e →
    m.frames.Marks marked m.current scopes.length place →
    Follows ρ marked (eval e) (eval (e.rename ρ place)) m m' fun marked₁ m₁ value value' =>
      Value.Alike ρ marked₁ m₁.frames value value'

/-- On twin machines a statement is followed by those that are alike. -/
def ExecFollows (visits : List Visit) (ρ : Renaming) (exec : Stmt → Run Flow) : Prop :=
  ∀ ⦃ctx scopes s s' marked m m' place⦄, (∀ v ∈ Stmt.visits ctx scopes s, v ∈ visits) →
    m.Twins visits ρ marked m' → m.frames.Covers m.current scopes →
    m.frames.Marks marked m.current scopes.length place → Alike ρ place s s' →
    Follows ρ marked (exec s) (exec s') m m' fun marked₁ m₁ flow flow' =>
      Flow.Alike ρ marked₁ m₁.frames flow flow'

/-- The same for lists of statements. -/
def BodyFollows (visits : List Visit) (ρ : Renaming) (exec : List Stmt → Run Flow) : Prop :=
  ∀ ⦃ctx scopes body body' marked m m' place⦄,
    (∀ v ∈ Stmt.visitsAll ctx scopes body, v ∈ visits) →
    m.Twins visits ρ marked m' → m.frames.Covers m.current scopes →
    m.frames.Marks marked m.current scopes.length place → AlikeAll ρ place body body' →
    Follows ρ marked (exec body) (exec body') m m' fun marked₁ m₁ flow flow' =>
      Flow.Alike ρ marked₁ m₁.frames flow flow'

section Variables

variable {ρ : Renaming}
variable {marked : Marking}
variable {m m' : Machine}
variable {σ : Setting}
variable {id depth : Nat}
variable {place : Place}
variable {name name' : Token}

/-- Values that are found or missing on both machines. -/
theorem follows_found
    (name : Token)
    {r r' : Run Value}
    {found found' : Option Value}
    (hm : Machine.Alike ρ marked m m')
    (hfound : Option.Rel (Value.Alike ρ marked m.frames) found found')
    (hrun : ∀ value, found = some value → r m = (.ok value, m))
    (hrun' : ∀ value, found' = some value → r' m' = (.ok value, m'))
    (hstop : found = none → found' = none →
      r m = (.error (.fault (.undefined name)), m) ∧
        r' m' = (.error (.fault (.undefined name)), m')) :
    Follows ρ marked r r' m m' fun marked₁ m₁ value value' =>
      Value.Alike ρ marked₁ m₁.frames value value' := by
  cases hfound with
  | some hvalue =>
      exact .ok (hrun _ rfl) (hrun' _ rfl) (Marking.keeps_refl _ _) hm hvalue
  | none =>
      obtain ⟨hleft, hright⟩ := hstop rfl rfl
      have hsame : Stop.Alike (.fault (.undefined name)) (.fault (.undefined name)) :=
        ⟨rfl, rfl⟩
      exact .error hleft hright hsame hm.output

/-- A variable that the first run finds in its frame, the second finds under its other name. -/
theorem follows_readVariable
    (hm : Machine.Alike ρ marked m m')
    (hmarks : m.frames.Marks marked m.current depth place)
    (hglobal : σ.locals.get? id = none → name' = name)
    (hlocal : ∀ d, σ.locals.get? id = some d → d ≤ depth ∧
      name'.lexeme = ρ.nameAt place d name.lexeme ∧
      ∃ value, m.frames.getAt? m.current d name.lexeme = some value) :
    Follows ρ marked (readVariable σ id name) (readVariable σ id name') m m'
      fun marked₁ m₁ value value' => Value.Alike ρ marked₁ m₁.frames value value' := by
  cases hget : σ.locals.get? id with
  | some d =>
      obtain ⟨hd, hname, value, hvalue⟩ := hlocal d hget
      have hfound := hm.frames.getAt? hmarks hd name.lexeme
      rw [← hname] at hfound
      refine follows_found name hm hfound ?_ ?_ ?_
      · intro value hvalue
        simp only [readVariable, hget, hvalue]
      · intro value hvalue
        simp only [readVariable, hget, hm.current, hvalue]
      · intro hnone
        rw [hvalue] at hnone
        cases hnone
  | none =>
      have hfound := (hm.frames.get?_globals hm.unmarked hm.outermost name.lexeme).1
      rw [hglobal hget]
      refine follows_found name hm hfound ?_ ?_ ?_
      · intro value hvalue
        simp only [readVariable, hget, hvalue]
      · intro value hvalue
        simp only [readVariable, hget, hvalue]
      · intro hnone hnone'
        simp only [readVariable, hget, hnone, hnone', and_self]

/-- A variable is written in the same frame, under its other name. -/
theorem follows_writeVariable
    {value value' : Value}
    (hm : Machine.Alike ρ marked m m')
    (hmarks : m.frames.Marks marked m.current depth place)
    (hvalue : Value.Alike ρ marked m.frames value value')
    (hglobal : σ.locals.get? id = none → name' = name)
    (hlocal : ∀ d, σ.locals.get? id = some d → d ≤ depth ∧
      name'.lexeme = ρ.nameAt place d name.lexeme ∧
      ∃ target, m.frames.outward? d m.current = some target) :
    Follows ρ marked (writeVariable σ id name value) (writeVariable σ id name' value') m m'
      fun _ _ _ _ => True := by
  unfold writeVariable
  refine .read ?_
  unfold variableFrame?
  cases hget : σ.locals.get? id with
  | some d =>
      obtain ⟨hd, hname, target, htarget⟩ := hlocal d hget
      obtain ⟨there, hthere, hnames⟩ := hmarks.there (ρ := ρ) hd htarget
      simp only [hm.current, hm.frames.outward?, htarget]
      exact follows_defineIn hm hthere (hname.trans (hnames _).symm) hvalue
  | none =>
      have hholder := (hm.frames.get?_globals hm.unmarked hm.outermost name.lexeme).2
      rw [hglobal hget]
      simp only [hholder]
      cases htarget : m.frames.holder? Machine.globals name.lexeme with
      | none =>
          exact follows_fail hm rfl _
      | some target =>
          have hroot := Frames.holder?_outermost hm.outermost htarget
          have hplace : marked target ↔ (none : Place) = some 0 := by
            simp [hroot, hm.unmarked]
          exact follows_defineIn hm hplace rfl hvalue

end Variables

section Functions

variable {visits : List Visit}
variable {ρ : Renaming}
variable {marked : Marking}
variable {m m' : Machine}

/-- Parameters are bound in the same frame, under their other names. -/
theorem follows_bindParams
    {frame depth : Nat}
    {place : Place}
    {params : List Token}
    {values values' : List Value}
    (hm : m.Twins visits ρ marked m')
    (hmarks : m.frames.Marks marked frame depth place)
    (hparams : ∀ p ∈ params, Ordinary p.lexeme ∧ p.lexeme ≠ ρ.new)
    (hsound : ∀ value ∈ values, value.Sound visits m)
    (hvalues : List.Forall₂ (Value.Alike ρ marked m.frames) values values') :
    Follows ρ marked (bindParams frame params values)
      (bindParams frame (params.map (ρ.declared place)) values') m m' fun _ _ _ _ => True := by
  induction params generalizing marked m m' values values' with
  | nil =>
      exact follows_pure hm.alike trivial
  | cons p params ih =>
      cases hvalues with
      | nil =>
          exact follows_pure hm.alike trivial
      | cons hvalue hvalues =>
          obtain ⟨hordinary, hnew⟩ := hparams p List.mem_cons_self
          refine (follows_defineIn hm.alike hmarks.here (ρ.lexeme_declared hnew place)
            hvalue).bind (safe_defineIn hm.sound (hsound _ List.mem_cons_self)
              (Value.suits_of_ordinary hordinary _)) hm.sound ?_
          intro marked₁ m₁ m₁' _ _ hadvances hm₁ _ _
          refine ih hm₁ (hadvances.marks hmarks) (fun q hq => hparams q (List.mem_cons_of_mem _ hq))
            ?_ ?_
          · intro value hvalue
            exact (hsound value (List.mem_cons_of_mem _ hvalue)).mono hadvances.later.frames
              hadvances.later.objects
          · exact hvalues.imp fun _ _ h => hadvances.value h

/-- Methods that are alike are made for the same object. -/
theorem follows_bind
    {closure closure' : Closure}
    {place : Nat}
    (hm : m.Twins visits ρ marked m')
    (hplace : place < m.objects.size)
    (hclosure : Closure.AlikeMethod ρ marked m.frames closure closure') :
    Follows ρ marked (closure.bind place) (closure'.bind place) m m'
      fun marked₁ m₁ method method' => Closure.Alike ρ marked₁ m₁.frames method method' := by
  obtain ⟨decl, outer, isInitializer⟩ := closure
  obtain ⟨decl', outer', isInitializer'⟩ := closure'
  obtain ⟨rfl, rfl, depth, around, inner, hmarks, hopens, hdecl⟩ := hclosure
  refine (follows_pushFrame hm.alike hmarks (.inl rfl)).bind (safe_pushFrame hm.sound _)
    hm.sound ?_
  rintro marked₁ m₁ m₁' frame _ hadvances₁ hm₁ - ⟨rfl, hmarks₁⟩
  have hobject : (Value.object place).Sound visits m₁ :=
    Nat.lt_of_lt_of_le hplace hadvances₁.later.objects
  refine (follows_defineIn hm₁.alike hmarks₁.here (ρ.name_inner around _).symm (.object place)).bind
    (safe_defineIn hm₁.sound hobject ⟨by simp, by simp⟩) hm₁.sound ?_
  intro marked₂ m₂ m₂' _ _ hadvances₂ hm₂ _ _
  exact follows_pure hm₂.alike
    ⟨rfl, rfl, depth + 1, around.inner, inner, hadvances₂.marks hmarks₁, hopens, hdecl⟩

variable {exec : List Stmt → Run Flow}
variable {arguments arguments' : List Value}
variable (hρ : ρ.Proper)
variable (hgood : ∀ v ∈ visits, v.Good ρ.locals)
variable (hfresh : ∀ v ∈ visits, ∀ t ∈ v.node.tokens, t.lexeme ≠ ρ.new)
variable (hsafe : BodySafe visits ρ.locals exec)
variable (hexec : BodyFollows visits ρ exec)

include hexec

/-- Bodies that are alike are run in the same frame. -/
theorem follows_body
    {ctx : Context}
    {scopes : Scopes}
    {place : Place}
    {body body' : List Stmt}
    {frame : Nat}
    (hvisits : ∀ v ∈ Stmt.visitsAll ctx scopes body, v ∈ visits)
    (hm : m.Twins visits ρ marked m')
    (hcovers : m.frames.Covers frame scopes)
    (hmarks : m.frames.Marks marked frame scopes.length place)
    (hbody : AlikeAll ρ place body body') :
    Follows ρ marked (within frame (exec body)) (within frame (exec body')) m m'
      fun marked₁ m₁ flow flow' => Flow.Alike ρ marked₁ m₁.frames flow flow' := by
  have hinside : Machine.Twins visits ρ marked { m with current := frame }
      { m' with current := frame } :=
    ⟨hm.sound.of_same rfl rfl, hm.alike.within frame⟩
  exact .within hm.alike (hexec hvisits hinside hcovers hmarks hbody) id

include hρ hgood hfresh hsafe

/-- Functions that are alike are called with arguments that are alike. -/
theorem follows_invoke
    {closure closure' : Closure}
    (hm : m.Twins visits ρ marked m')
    (hsound : closure.Sound visits m.frames)
    (hclosure : Closure.Alike ρ marked m.frames closure closure')
    (hargumentsSound : ∀ value ∈ arguments, value.Sound visits m)
    (harguments : List.Forall₂ (Value.Alike ρ marked m.frames) arguments arguments')
    (hlength : arguments.length = closure.decl.arity) :
    Follows ρ marked (closure.invoke exec arguments) (closure'.invoke exec arguments') m m'
      fun marked₁ m₁ value value' => Value.Alike ρ marked₁ m₁.frames value value' := by
  obtain ⟨ctx, scopes, hcovers, hvisits⟩ := hsound
  obtain ⟨decl, outer, isInitializer⟩ := closure
  obtain ⟨decl', outer', isInitializer'⟩ := closure'
  obtain ⟨rfl, rfl, depth, place, inner, hmarks, hopens, hdecl⟩ := hclosure
  obtain rfl := hmarks.depth_eq hcovers
  cases hdecl with
  | @mk _ name params body body' hbody =>
      have hvisit := hvisits _ List.mem_cons_self
      have hparams := (hgood _ hvisit).params
      have hnew : ∀ p ∈ params, p.lexeme ≠ ρ.new := fun p hp =>
        hfresh _ hvisit p (List.mem_cons_of_mem _ (List.mem_append_left _ hp))
      refine (follows_pushFrame hm.alike hmarks hopens).bind (safe_pushFrame hm.sound _)
        hm.sound ?_
      rintro marked₁ m₁ m₁' frame _ hadvances₁ hm₁ ⟨rfl, hframes₁⟩ ⟨rfl, hmarks₁⟩
      have hcovers₁ : m₁.frames.Covers m.frames.size ([] :: scopes) := by
        rw [hframes₁]
        exact hcovers.push hm.sound.rooted
      have hsound₁ : ∀ value ∈ arguments, value.Sound visits m₁ := fun value hvalue =>
        (hargumentsSound value hvalue).mono hadvances₁.later.frames hadvances₁.later.objects
      have halike₁ := harguments.imp fun _ _ h => hadvances₁.value h
      refine (follows_bindParams hm₁ hmarks₁ (fun p hp => ⟨hparams p hp, hnew p hp⟩) hsound₁
        halike₁).bind (safe_bindParams hm₁.sound hsound₁ hlength hparams hcovers₁) hm₁.sound ?_
      intro marked₂ m₂ m₂' _ _ hadvances₂ hm₂ hcovers₂ _
      have hmarks₂ : m₂.frames.Marks marked₂ m.frames.size
          (Scopes.declareParams ([] :: scopes) params).length inner := by
        rw [Scopes.length_declareParams]
        exact hadvances₂.marks hmarks₁
      have hbodyVisits : ∀ v ∈ Stmt.visitsAll ctx (Scopes.declareParams ([] :: scopes) params) body,
          v ∈ visits := fun v hv => hvisits v (List.mem_cons_of_mem _ hv)
      refine (follows_body hexec hbodyVisits hm₂ hcovers₂ hmarks₂ hbody).bind
        (safe_body hsafe hbodyVisits hm₂.sound hcovers₂) hm₂.sound ?_
      intro marked₃ m₃ m₃' flow flow' hadvances₃ hm₃ _ hflow
      dsimp only
      split
      · refine .read ?_
        have hmarks₃ := (hadvances₁.trans (hadvances₂.trans hadvances₃)).marks hmarks
        have hthis := hm₃.alike.frames.getAt? hmarks₃ (Nat.zero_le _) "this"
        rw [ρ.nameAt_keyword hρ place 0 (by simp [Ordinary])] at hthis
        exact follows_pure hm₃.alike (optionRel_getD hthis .nil)
      · cases hflow with
        | returned hvalue =>
            exact follows_pure hm₃.alike hvalue
        | normal =>
            exact follows_pure hm₃.alike .nil

/-- Objects are made of classes that are alike. -/
theorem follows_instantiate
    {c c' : Class}
    (hm : m.Twins visits ρ marked m')
    (hsound : c.Sound visits m.frames)
    (hclass : Class.Alike ρ marked m.frames c c')
    (hargumentsSound : ∀ value ∈ arguments, value.Sound visits m)
    (harguments : List.Forall₂ (Value.Alike ρ marked m.frames) arguments arguments')
    (hlength : arguments.length = c.arity initializerName) :
    Follows ρ marked (c.instantiate exec arguments) (c'.instantiate exec arguments') m m'
      fun marked₁ m₁ value value' => Value.Alike ρ marked₁ m₁.frames value value' := by
  refine (follows_newObject hm.alike hclass).bind (safe_newObject hm.sound hsound) hm.sound ?_
  rintro marked₁ m₁ m₁' place _ hadvances₁ hm₁ ⟨hframes₁, hplace⟩ rfl
  obtain ⟨hnone, hnone'⟩ | ⟨initializer, initializer', hinit, hinit', halike⟩ :=
    optionRel_cases (hclass.methods initializerName)
  · rw [hnone, hnone']
    exact follows_pure hm₁.alike (.object _)
  · rw [hinit, hinit']
    have hsound₁ : initializer.SoundMethod visits m₁.frames := by
      rw [hframes₁]
      exact hsound _ _ hinit
    have halike₁ := halike.mono hadvances₁.later.frames hadvances₁.keeps hadvances₁.rooted
    refine (follows_bind hm₁ hplace halike₁).bind (safe_bind hm₁.sound hsound₁ hplace)
      hm₁.sound ?_
    rintro marked₂ m₂ m₂' method method' hadvances₂ hm₂ ⟨hmethodSound, hdecl⟩ hmethod
    have hadvances := hadvances₁.trans hadvances₂
    have hsound₂ : ∀ value ∈ arguments, value.Sound visits m₂ := fun value hvalue =>
      (hargumentsSound value hvalue).mono hadvances.later.frames hadvances.later.objects
    have hlength₂ : arguments.length = method.decl.arity := by
      rw [hdecl, hlength, Class.arity, hinit]
    refine (follows_invoke hρ hgood hfresh hsafe hexec hm₂ hmethodSound hmethod hsound₂
      (harguments.imp fun _ _ h => hadvances.value h) hlength₂).bind
      (safe_invoke hgood hsafe hm₂.sound hmethodSound hsound₂ hlength₂) hm₂.sound ?_
    intro marked₃ m₃ m₃' _ _ _ hm₃ _ _
    exact follows_pure hm₃.alike (.object _)

/-- Values that are alike are called. -/
theorem follows_call
    {σ : Setting}
    {callee callee' : Value}
    {paren : Token}
    (hm : m.Twins visits ρ marked m')
    (hsound : callee.Sound visits m)
    (hcallee : Value.Alike ρ marked m.frames callee callee')
    (hargumentsSound : ∀ value ∈ arguments, value.Sound visits m)
    (harguments : List.Forall₂ (Value.Alike ρ marked m.frames) arguments arguments') :
    Follows ρ marked (callee.call σ exec paren arguments) (callee'.call σ exec paren arguments')
      m m' fun marked₁ m₁ value value' => Value.Alike ρ marked₁ m₁.frames value value' := by
  unfold Value.call
  rw [hcallee.toMatches.arity?_eq, ← harguments.length_eq]
  cases harity : callee.arity? with
  | none =>
      exact follows_fail hm.alike rfl _
  | some arity =>
      dsimp only
      split
      · rename_i hlength
        cases hcallee with
        | native n =>
            exact follows_readClock hm.alike σ
        | function identity hclosure =>
            cases harity
            exact follows_invoke hρ hgood hfresh hsafe hexec hm hsound hclosure hargumentsSound
              harguments hlength
        | cls hclass =>
            cases harity
            exact follows_instantiate hρ hgood hfresh hsafe hexec hm hsound hclass hargumentsSound
              harguments hlength
        | _ =>
            cases harity
      · exact follows_fail hm.alike rfl _

end Functions

section Objects

variable {visits : List Visit}
variable {ρ : Renaming}
variable {marked : Marking}
variable {m m' : Machine}

theorem follows_property
    {object object' : Value}
    {name : Token}
    (hm : m.Twins visits ρ marked m')
    (hsound : object.Sound visits m)
    (hobject : Value.Alike ρ marked m.frames object object') :
    Follows ρ marked (object.property name) (object'.property name) m m'
      fun marked₁ m₁ value value' => Value.Alike ρ marked₁ m₁.frames value value' := by
  cases hobject with
  | object place =>
      refine .read ?_
      obtain ⟨hnone, hnone'⟩ | ⟨o, o', ho, ho', halike⟩ := optionRel_cases (hm.alike.objects place)
      · simp only [hnone, hnone']
        exact follows_fail hm.alike rfl _
      · simp only [ho, ho']
        obtain ⟨hnone, hnone'⟩ | ⟨value, value', hvalue, hvalue', hfield⟩ :=
          optionRel_cases (halike.fields name.lexeme)
        · simp only [hnone, hnone']
          obtain ⟨hnone, hnone'⟩ | ⟨method, method', hmethod, hmethod', hclosure⟩ :=
            optionRel_cases (halike.cls.methods name.lexeme)
          · simp only [hnone, hnone']
            exact follows_fail hm.alike rfl _
          · simp only [hmethod, hmethod']
            have hmethodSound := (hm.sound.objects ho).1 _ method hmethod
            refine (follows_bind hm hsound hclosure).bind
              (safe_bind hm.sound hmethodSound hsound) hm.sound ?_
            intro marked₁ m₁ m₁' _ _ _ hm₁ _ hmade
            exact follows_newFunction hm₁.alike hmade
        · simp only [hvalue, hvalue']
          exact follows_pure hm.alike hfield
  | _ =>
      exact follows_fail hm.alike rfl _

/-- A class under `super` and an object under `this` are found by both runs. -/
theorem follows_superMethod
    {σ : Setting}
    {id d depth around : Nat}
    {place : Place}
    {keyword method : Token}
    {parent : Class}
    (hρ : ρ.Proper)
    (hm : m.Twins visits ρ marked m')
    (hmarks : m.frames.Marks marked m.current depth place)
    (hdepth : d + 1 ≤ depth)
    (hget : σ.locals.get? id = some (d + 1))
    (hsuper : m.frames.getAt? m.current (d + 1) "super" = some (.cls parent))
    (hthis : m.frames.getAt? m.current d "this" = some (.object around))
    (hparent : parent.Sound visits m.frames)
    (haround : around < m.objects.size) :
    Follows ρ marked (superMethod σ id keyword method) (superMethod σ id keyword method) m m'
      fun marked₁ m₁ value value' => Value.Alike ρ marked₁ m₁.frames value value' := by
  have hsuper' := hm.alike.frames.getAt? hmarks hdepth "super"
  have hthis' := hm.alike.frames.getAt? hmarks (Nat.le_of_succ_le hdepth) "this"
  rw [ρ.nameAt_keyword hρ place _ (by simp [Ordinary]), hsuper, ← hm.alike.current] at hsuper'
  rw [ρ.nameAt_keyword hρ place _ (by simp [Ordinary]), hthis, ← hm.alike.current] at hthis'
  unfold superMethod
  rw [hget]
  refine .read ?_
  obtain ⟨hnone, -⟩ | ⟨_, _, heq, hfound, hcls⟩ := optionRel_cases hsuper'
  · cases hnone
  cases heq
  cases hcls with
  | cls hclass =>
      rw [hsuper, hfound]
      refine .read ?_
      obtain ⟨hnone, -⟩ | ⟨_, _, heq, hfound', hobject⟩ := optionRel_cases hthis'
      · cases hnone
      cases heq
      cases hobject
      rw [Nat.add_sub_cancel, hthis, hfound']
      dsimp only
      obtain ⟨hnone, hnone'⟩ | ⟨found, found', hmethod, hmethod', hclosure⟩ :=
        optionRel_cases (hclass.methods method.lexeme)
      · simp only [hnone, hnone']
        exact follows_fail hm.alike rfl _
      · simp only [hmethod, hmethod']
        refine (follows_bind hm haround hclosure).bind
          (safe_bind hm.sound (hparent _ found hmethod) haround) hm.sound ?_
        intro marked₁ m₁ m₁' _ _ _ hm₁ _ hmade
        exact follows_newFunction hm₁.alike hmade

end Objects

section Classes

variable {visits : List Visit}
variable {ρ : Renaming}
variable {marked : Marking}
variable {m m' : Machine}
variable {name : Token}
variable {place : Place}
variable {superclass superclass' : Option Class}
variable {methods methods' : List FunctionDecl}

/-- Methods that are alike make tables that are alike. -/
theorem methodTable_alike
    {fs : Frames}
    {frame depth : Nat}
    (hmarks : fs.Marks marked frame depth place)
    (hmethods : AlikeMethods ρ place.inner methods methods')
    (n : String) :
    Option.Rel (Closure.AlikeMethod ρ marked fs) ((methodTable frame methods).lookup n)
      ((methodTable frame methods').lookup n) := by
  let put (table : List (String × Closure)) (decl : FunctionDecl) : List (String × Closure) :=
    putBinding decl.name.lexeme ⟨decl, frame, decl.name.lexeme = initializerName⟩ table
  have hfold : ∀ (methods methods' : List FunctionDecl) (table table' : List (String × Closure)),
      AlikeMethods ρ place.inner methods methods' →
      Option.Rel (Closure.AlikeMethod ρ marked fs) (table.lookup n) (table'.lookup n) →
      Option.Rel (Closure.AlikeMethod ρ marked fs) ((methods.foldl put table).lookup n)
        ((methods'.foldl put table').lookup n) := by
    intro methods
    induction methods with
    | nil =>
        intro methods' table table' hmethods htable
        cases hmethods
        exact htable
    | cons decl rest ih =>
        intro methods' table table' hmethods htable
        cases hmethods with
        | @cons _ inner _ decl' _ rest' hopens hdecl hrest =>
            refine ih rest' _ _ hrest ?_
            simp only [put, hdecl.name_eq]
            by_cases hn : n = decl.name.lexeme
            · rw [hn, lookup_putBinding_self, lookup_putBinding_self]
              exact .some ⟨rfl, rfl, depth, place, inner, hmarks, hopens, hdecl⟩
            · rw [lookup_putBinding_of_ne hn, lookup_putBinding_of_ne hn]
              exact htable
  exact hfold methods methods' [] [] hmethods .none

/-- Classes made of methods and superclasses that are alike. -/
theorem alike_class
    {fs : Frames}
    {frame depth : Nat}
    (identity : Nat)
    (n : String)
    (hmarks : fs.Marks marked frame depth place)
    (hsuperclass : Option.Rel (Class.Alike ρ marked fs) superclass superclass')
    (hmethods : AlikeMethods ρ place.inner methods methods') :
    Class.Alike ρ marked fs (.mk identity n superclass (methodTable frame methods))
      (.mk identity n superclass' (methodTable frame methods')) := by
  refine ⟨rfl, rfl, ?_⟩
  intro method
  have hown := methodTable_alike hmarks hmethods method
  cases hsuperclass with
  | none =>
      exact hown
  | some hparent =>
      simp only [Class.findMethod?]
      obtain ⟨hnone, hnone'⟩ | ⟨found, found', hfound, hfound', hclosure⟩ := optionRel_cases hown
      · simp only [hnone, hnone']
        exact hparent.methods method
      · simp only [hfound, hfound']
        exact .some hclosure

theorem follows_overwrite
    {depth : Nat}
    {value value' : Value}
    (hm : Machine.Alike ρ marked m m')
    (hmarks : m.frames.Marks marked m.current depth place)
    (hname : ρ.name place name.lexeme = name.lexeme)
    (hbound : m.frames.Bound m.current name.lexeme)
    (hvalue : Value.Alike ρ marked m.frames value value') :
    Follows ρ marked (overwrite name value) (overwrite name value') m m' fun _ _ _ _ => True := by
  have hbound' : m'.frames.Bound m'.current name.lexeme := by
    obtain ⟨old, hold⟩ := hbound
    have hrel := hm.frames.bound hmarks.here name.lexeme
    rw [hname, hold, ← hm.current] at hrel
    obtain ⟨hnone, -⟩ | ⟨_, old', -, hold', -⟩ := optionRel_cases hrel
    · cases hnone
    · exact ⟨old', hold'⟩
  have hrooted' : 0 < m'.frames.size := by
    rw [hm.frames.size]
    exact hm.rooted
  unfold overwrite
  refine .read ?_
  rw [Frames.holder?_of_bound hbound hm.rooted, Frames.holder?_of_bound hbound' hrooted',
    hm.current]
  exact follows_defineIn hm hmarks.here hname.symm hvalue

/-- Making a class whose name is bound already, with its methods in a given frame. -/
theorem follows_fillClass
    {ctx : Context}
    {scopes : Scopes}
    {frame depth depth' : Nat}
    {around : Place}
    (hm : m.Twins visits ρ marked m')
    (hname : ρ.name place name.lexeme = name.lexeme)
    (hbound : m.frames.Bound m.current name.lexeme)
    (hmarks : m.frames.Marks marked m.current depth place)
    (hsound : ∀ parent, superclass = some parent → parent.Sound visits m.frames)
    (hsuperclass : Option.Rel (Class.Alike ρ marked m.frames) superclass superclass')
    (hcovers : m.frames.Covers frame scopes)
    (haround : m.frames.Marks marked frame depth' around)
    (hmethods : AlikeMethods ρ around.inner methods methods')
    (hvisits : ∀ v ∈ Stmt.visitsMethods ctx ([("this", true)] :: scopes) methods, v ∈ visits) :
    Follows ρ marked
      (newClass name.lexeme superclass (methodTable frame methods) >>= overwrite name)
      (newClass name.lexeme superclass' (methodTable frame methods') >>= overwrite name) m m'
      fun _ _ _ _ => True := by
  refine (follows_newClass hm.alike fun identity => alike_class identity _ haround hsuperclass
    hmethods).bind (safe_newClass hm.sound fun identity => sound_class hcovers hsound hvisits)
    hm.sound ?_
  rintro marked₁ m₁ m₁' value value' hadvances₁ hm₁ ⟨hframes₁, -⟩ hvalue
  refine follows_overwrite hm₁.alike (hadvances₁.current hmarks) hname ?_ hvalue
  rw [hframes₁, hadvances₁.later.current]
  exact hbound

/-- Declaring a class whose methods and superclass are alike. -/
theorem follows_declareClass
    {ctx : Context}
    {scopes : Scopes}
    (hm : m.Twins visits ρ marked m')
    (hordinary : Ordinary name.lexeme)
    (hname : ρ.name place name.lexeme = name.lexeme)
    (hsound : ∀ parent, superclass = some parent → parent.Sound visits m.frames)
    (hsuperclass : Option.Rel (Class.Alike ρ marked m.frames) superclass superclass')
    (hcovers : m.frames.Covers m.current scopes)
    (hmarks : m.frames.Marks marked m.current scopes.length place)
    (hmethods : AlikeMethods ρ (place.inClass superclass.isSome) methods methods')
    (hvisits : ∀ v ∈ Stmt.visitsMethods ctx
      (Stmt.methodScopes ((scopes.declare name).define name) superclass.isSome) methods,
      v ∈ visits) :
    Follows ρ marked (declareClass name superclass methods)
      (declareClass name superclass' methods') m m' fun _ _ _ _ => True := by
  have hnil : Value.nil.Sound visits m := trivial
  refine (follows_define hm.alike hmarks hname.symm .nil).bind
    (safe_define hm.sound hnil (Value.suits_of_ordinary hordinary _)) hm.sound ?_
  intro marked₁ m₁ m₁' _ _ hadvances₁ hm₁ hframes₁ _
  have hmarks₁ := hadvances₁.current hmarks
  have hbound₁ : m₁.frames.Bound m₁.current name.lexeme := by
    rw [hframes₁, hadvances₁.later.current]
    exact ⟨.nil, Frames.lookup?_define_self (hcovers.lt_size hm.sound.rooted) _ _⟩
  have hcovers₁ : m₁.frames.Covers m₁.current ((scopes.declare name).define name) := by
    rw [hframes₁, hadvances₁.later.current]
    exact hcovers.declare_define name .nil
  refine .read ?_
  rw [hm₁.alike.current]
  cases hsuperclass with
  | none =>
      exact follows_fillClass hm₁ hname hbound₁ hmarks₁ (by simp) .none hcovers₁ hmarks₁ hmethods
        hvisits
  | @some parent parent' hparent =>
      refine (follows_pushFrame hm₁.alike hmarks₁ (.inl rfl)).bind
        (safe_pushFrame hm₁.sound m₁.current) hm₁.sound ?_
      rintro marked₂ m₂ m₂' frame _ hadvances₂ hm₂ ⟨rfl, hframes₂⟩ ⟨rfl, hmarks₂⟩
      have hadvances₁₂ := hadvances₁.trans hadvances₂
      have hparent₂ := hparent.mono hadvances₁₂.later.frames hadvances₁₂.keeps hadvances₁₂.rooted
      have hsound₂ : (Value.cls parent).Sound visits m₂ :=
        (hsound parent rfl).mono hadvances₁₂.later.frames
      refine (follows_defineIn hm₂.alike hmarks₂.here (ρ.name_inner place _).symm
        (.cls hparent₂)).bind (safe_defineIn hm₂.sound hsound₂ ⟨by simp, by simp⟩)
        hm₂.sound ?_
      intro marked₃ m₃ m₃' _ _ hadvances₃ hm₃ hframes₃ _
      have hadvances := hadvances₂.trans hadvances₃
      have hcovers₃ : m₃.frames.Covers m₁.frames.size
          ([("super", true)] :: (scopes.declare name).define name) := by
        rw [hframes₃, hframes₂]
        exact (hcovers₁.push hm₁.sound.rooted).define ⟨.keyword .super, "super", 0⟩ (.cls parent)
      have hbound₃ : m₃.frames.Bound m₃.current name.lexeme := by
        rw [hadvances.later.current]
        exact hadvances.later.frames.bound hbound₁
      have hsound₃ : ∀ other, some parent = some other → other.Sound visits m₃.frames := by
        intro other hother
        cases hother
        exact hsound₂.mono hadvances₃.later.frames hadvances₃.later.objects
      exact follows_fillClass hm₃ hname hbound₃ (hadvances.current hmarks₁) hsound₃
        (.some (hparent₂.mono hadvances₃.later.frames hadvances₃.keeps hadvances₃.rooted))
        hcovers₃ (hadvances₃.marks hmarks₂) hmethods hvisits

end Classes

end Lox
