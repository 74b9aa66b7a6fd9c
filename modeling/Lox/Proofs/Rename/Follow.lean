import Lox.Proofs.Rename.Machines

/-!
# Runs that follow each other

Values that are alike cannot be told apart by what a program can do with them.  A run follows
another if, started on machines that are alike, both end with results that are alike on machines that
are alike again, or both stop for the same reason.  The steps that programs are made of follow each
other, if names are exchanged as the marks say.
-/

namespace Lox

section Values

variable {ρ : Renaming}
variable {marked : Marking}
variable {fs : Frames}
variable {value value' : Value}

theorem AlikeFunction.arity_eq
    {place : Place}
    {decl decl' : FunctionDecl}
    (h : AlikeFunction ρ place decl decl') :
    decl'.arity = decl.arity := by
  cases h with
  | mk name params hbody =>
      simp [FunctionDecl.arity, FunctionDecl.params]

theorem Class.Alike.arity_eq
    {c c' : Class}
    (h : Class.Alike ρ marked fs c c')
    (initializer : String) :
    c'.arity initializer = c.arity initializer := by
  unfold Class.arity
  obtain ⟨hnone, hnone'⟩ | ⟨method, method', hmethod, hmethod', hclosure⟩ :=
    optionRel_cases (h.methods initializer)
  · rw [hnone, hnone']
  · obtain ⟨-, -, _, _, _, -, -, hdecl⟩ := hclosure
    rw [hmethod, hmethod']
    exact hdecl.arity_eq

theorem Value.Alike.toMatches
    (h : Value.Alike ρ marked fs value value') :
    value.Matches value' := by
  cases h with
  | native n =>
      exact .native n
  | function identity hclosure =>
      obtain ⟨-, -, _, _, _, -, -, hdecl⟩ := hclosure
      exact .function identity hdecl.name_eq hdecl.arity_eq
  | cls hclass =>
      exact .cls hclass.identity hclass.name (hclass.arity_eq _)
  | object place =>
      exact .object place
  | number x =>
      exact .number x
  | string s =>
      exact .string s
  | bool b =>
      exact .bool b
  | nil =>
      exact .nil

theorem Machine.Alike.toMatches
    {m m' : Machine}
    (hm : Machine.Alike ρ marked m m') :
    Instance.Matches m.objects m'.objects :=
  fun place => optionRel_mono (fun h => h.cls.name) (hm.objects place)

theorem Value.Plain.alike
    (h : value.Plain) :
    Value.Alike ρ marked fs value value := by
  cases value with
  | number x =>
      exact .number x
  | string s =>
      exact .string s
  | bool b =>
      exact .bool b
  | _ =>
      exact h.elim

end Values

/-- The same reason to stop: no fuel, or the same fault in the same line. -/
def Stop.Alike : Stop → Stop → Prop
  | .outOfFuel, .outOfFuel => True
  | .fault error, .fault error' =>
      error'.fault = error.fault ∧ error'.found.line = error.found.line
  | _, _ => False

/-- A machine on which something was run; marks stayed on the frames it had. -/
structure Marking.Advances (marked : Marking) (m : Machine) (marked' : Marking) (m' : Machine) :
    Prop where
  rooted : 0 < m.frames.size
  keeps : Marking.Keeps m.frames.size marked marked'
  later : m.Later m'

/-- A sound machine and one that is alike. -/
structure Machine.Twins (visits : List Visit) (ρ : Renaming) (marked : Marking) (m m' : Machine) :
    Prop where
  sound : m.Sound visits
  alike : Machine.Alike ρ marked m m'

/-- Two runs that end alike: with results as wanted on machines that are alike, or both early, for the
same reason and with the same lines printed. -/
inductive Run.Follows (ρ : Renaming) (marked : Marking) {α : Type} (r r' : Run α) (m m' : Machine)
    (post : Marking → Machine → α → α → Prop) : Prop where
  | ok {a a' : α} {m₁ m₁' : Machine} {marked₁ : Marking} (hrun : r m = (.ok a, m₁))
      (hrun' : r' m' = (.ok a', m₁')) (hkeeps : Marking.Keeps m.frames.size marked marked₁)
      (halike : Machine.Alike ρ marked₁ m₁ m₁') (hpost : post marked₁ m₁ a a')
  | error {stop stop' : Stop} {m₁ m₁' : Machine} (hrun : r m = (.error stop, m₁))
      (hrun' : r' m' = (.error stop', m₁')) (hstop : stop.Alike stop')
      (houtput : m₁'.output = m₁.output)

namespace Marking.Advances

variable {ρ : Renaming}
variable {marked marked' marked'' : Marking}
variable {m m' m'' : Machine}

theorem trans
    (h : Advances marked m marked' m')
    (h' : Advances marked' m' marked'' m'') :
    Advances marked m marked'' m'' :=
  ⟨h.rooted, h.keeps.trans h'.keeps h.later.frames.size, h.later.trans h'.later⟩

theorem value
    {value value' : Value}
    (h : Advances marked m marked' m')
    (hvalue : Value.Alike ρ marked m.frames value value') :
    Value.Alike ρ marked' m'.frames value value' :=
  hvalue.mono h.later.frames h.keeps h.rooted

theorem marks
    {frame depth : Nat}
    {place : Place}
    (h : Advances marked m marked' m')
    (hmarks : m.frames.Marks marked frame depth place) :
    m'.frames.Marks marked' frame depth place :=
  hmarks.mono h.later.frames h.keeps h.rooted

/-- The marks around the code that runs. -/
theorem current
    {depth : Nat}
    {place : Place}
    (h : Advances marked m marked' m')
    (hmarks : m.frames.Marks marked m.current depth place) :
    m'.frames.Marks marked' m'.current depth place := by
  rw [h.later.current]
  exact h.marks hmarks

end Marking.Advances

namespace Run

variable {visits : List Visit}
variable {ρ : Renaming}
variable {marked : Marking}
variable {m m' : Machine}
variable {α β : Type}

namespace Follows

variable {r r' : Run α}
variable {post : Marking → Machine → α → α → Prop}

theorem bind
    {f f' : α → Run β}
    {safe : Machine → α → Prop}
    {post' : Marking → Machine → β → β → Prop}
    (hr : Follows ρ marked r r' m m' post)
    (hsafe : Safe visits ρ.locals r m safe)
    (hm : m.Sound visits)
    (hf : ∀ {marked₁ m₁ m₁' a a'}, marked.Advances m marked₁ m₁ →
      m₁.Twins visits ρ marked₁ m₁' → safe m₁ a → post marked₁ m₁ a a' →
      Follows ρ marked₁ (f a) (f' a') m₁ m₁' post') :
    Follows ρ marked (r >>= f) (r' >>= f') m m' post' := by
  cases hr with
  | ok hrun hrun' hkeeps halike hpost =>
      obtain ⟨hlater, hsound, hleft⟩ := hsafe.ok hrun
      have hnext := hf ⟨hm.rooted, hkeeps, hlater⟩ ⟨hsound, halike⟩ hleft hpost
      cases hnext with
      | ok hnext hnext' hkeeps' halike' hpost' =>
          have heq := (bind_of_ok hrun f).trans hnext
          have heq' := (bind_of_ok hrun' f').trans hnext'
          exact .ok heq heq' (hkeeps.trans hkeeps' hlater.frames.size) halike' hpost'
      | error hnext hnext' hstop houtput =>
          have heq := (bind_of_ok hrun f).trans hnext
          have heq' := (bind_of_ok hrun' f').trans hnext'
          exact .error heq heq' hstop houtput
  | error hrun hrun' hstop houtput =>
      exact .error (bind_of_error hrun f) (bind_of_error hrun' f') hstop houtput

/-- Runs that first read off their machine. -/
theorem read
    {f f' : Machine → β}
    {k k' : β → Run α}
    (h : Follows ρ marked (k (f m)) (k' (f' m')) m m' post) :
    Follows ρ marked (Run.read f >>= k) (Run.read f' >>= k') m m' post := by
  cases h with
  | ok hrun hrun' hkeeps halike hpost =>
      exact .ok hrun hrun' hkeeps halike hpost
  | error hrun hrun' hstop houtput =>
      exact .error hrun hrun' hstop houtput

/-- Runs inside another frame. -/
theorem within
    {frame : Nat}
    {post' : Marking → Machine → α → α → Prop}
    (hm : Machine.Alike ρ marked m m')
    (hr : Follows ρ marked r r' { m with current := frame } { m' with current := frame } post)
    (hpost : ∀ {marked₁ m₁ a a'}, post marked₁ m₁ a a' →
      post' marked₁ { m₁ with current := m.current } a a') :
    Follows ρ marked (Run.within frame r) (Run.within frame r') m m' post' := by
  cases hr with
  | ok hrun hrun' hkeeps halike hold =>
      refine .ok (within_apply hrun) ?_ hkeeps (halike.within m.current) (hpost hold)
      rw [within_apply hrun', hm.current]
  | error hrun hrun' hstop houtput =>
      exact .error (within_apply hrun) (within_apply hrun') hstop houtput

end Follows

section Primitives

variable (hm : Machine.Alike ρ marked m m')

include hm

theorem follows_pure
    {post : Marking → Machine → α → α → Prop}
    {a a' : α}
    (hpost : post marked m a a') :
    Follows ρ marked (pure a) (pure a') m m' post :=
  .ok rfl rfl (Marking.keeps_refl _ _) hm hpost

theorem follows_print (line : String) :
    Follows ρ marked (print line) (print line) m m' fun _ _ _ _ => True := by
  refine .ok rfl rfl (Marking.keeps_refl _ _) { hm with output := ?_ } trivial
  simp only [hm.output]

theorem follows_readClock (σ : Setting) :
    Follows ρ marked (readClock σ) (readClock σ) m m' fun marked₁ m₁ value value' =>
      Value.Alike ρ marked₁ m₁.frames value value' := by
  refine .ok rfl rfl (Marking.keeps_refl _ _) { hm with readings := ?_ } ?_
  · simp only [hm.readings]
  · rw [hm.readings]
    exact .number _

theorem follows_defineIn
    {frame : Nat}
    {place : Place}
    {n n' : String}
    {value value' : Value}
    (hplace : marked frame ↔ place = some 0)
    (hname : n' = ρ.name place n)
    (hvalue : Value.Alike ρ marked m.frames value value') :
    Follows ρ marked (defineIn frame n value) (defineIn frame n' value') m m'
      fun _ _ _ _ => True := by
  subst hname
  exact .ok rfl rfl (Marking.keeps_refl _ _) (hm.define hplace hvalue n) trivial

theorem follows_define
    {depth : Nat}
    {place : Place}
    {n n' : String}
    {value value' : Value}
    (hmarks : m.frames.Marks marked m.current depth place)
    (hname : n' = ρ.name place n)
    (hvalue : Value.Alike ρ marked m.frames value value') :
    Follows ρ marked (define n value) (define n' value') m m' fun _ _ _ _ => True := by
  have h := follows_defineIn hm hmarks.here hname hvalue
  have hrun : define n' value' m' = defineIn m.current n' value' m' := by
    simp only [define, defineIn, hm.current]
  cases h with
  | ok hrun₁ hrun₁' hkeeps halike hpost =>
      exact .ok hrun₁ (hrun.trans hrun₁') hkeeps halike hpost
  | error hrun₁ _ _ _ =>
      cases hrun₁

/-- The new frame is marked as the scope that it is for asks. -/
theorem follows_pushFrame
    {outer depth : Nat}
    {place inner : Place}
    (hmarks : m.frames.Marks marked outer depth place)
    (hopens : place.Opens inner) :
    Follows ρ marked (pushFrame outer) (pushFrame outer) m m' fun marked₁ m₁ frame frame' =>
      frame' = frame ∧ m₁.frames.Marks marked₁ frame (depth + 1) inner :=
  .ok rfl rfl (Marking.keeps_push _ _ inner) (hm.push outer inner)
    ⟨hm.frames.size, hmarks.push hopens (Marking.keeps_push _ _ inner)
      (Marking.push_self _ _ inner) hm.rooted⟩

theorem follows_newFunction
    {closure closure' : Closure}
    (hclosure : Closure.Alike ρ marked m.frames closure closure') :
    Follows ρ marked (newFunction closure) (newFunction closure') m m'
      fun marked₁ m₁ value value' => Value.Alike ρ marked₁ m₁.frames value value' := by
  refine .ok rfl rfl (Marking.keeps_refl _ _) { hm with functionCount := ?_ } ?_
  · simp only [hm.functionCount]
  · rw [hm.functionCount]
    exact .function _ hclosure

theorem follows_newClass
    {name : String}
    {superclass superclass' : Option Class}
    {methods methods' : List (String × Closure)}
    (hclass : ∀ identity, Class.Alike ρ marked m.frames (.mk identity name superclass methods)
      (.mk identity name superclass' methods')) :
    Follows ρ marked (newClass name superclass methods) (newClass name superclass' methods') m m'
      fun marked₁ m₁ value value' => Value.Alike ρ marked₁ m₁.frames value value' := by
  refine .ok rfl rfl (Marking.keeps_refl _ _) { hm with classCount := ?_ } ?_
  · simp only [hm.classCount]
  · rw [hm.classCount]
    exact .cls (hclass _)

theorem follows_newObject
    {c c' : Class}
    (hclass : Class.Alike ρ marked m.frames c c') :
    Follows ρ marked (newObject c) (newObject c') m m' fun _ _ place place' => place' = place :=
  .ok rfl rfl (Marking.keeps_refl _ _) (hm.newObject hclass) hm.count

theorem follows_setField
    {value value' : Value}
    (place : Nat)
    (name : String)
    (hvalue : Value.Alike ρ marked m.frames value value') :
    Follows ρ marked (setField place name value) (setField place name value') m m'
      fun _ _ _ _ => True :=
  .ok rfl rfl (Marking.keeps_refl _ _) (hm.setField place name hvalue) trivial

theorem follows_outOfFuel
    {post : Marking → Machine → α → α → Prop} :
    Follows ρ marked outOfFuel outOfFuel m m' post :=
  .error rfl rfl trivial hm.output

theorem follows_fail
    {post : Marking → Machine → α → α → Prop}
    {found found' : Token}
    (hline : found'.line = found.line)
    (fault : RuntimeFault) :
    Follows ρ marked (fail found fault) (fail found' fault) m m' post :=
  .error rfl rfl ⟨rfl, hline⟩ hm.output

theorem follows_check
    {outcome : Except RuntimeFault Value}
    (found : Token)
    (hplain : ∀ value, outcome = .ok value → value.Plain) :
    Follows ρ marked (check found outcome) (check found outcome) m m'
      fun marked₁ m₁ value value' => Value.Alike ρ marked₁ m₁.frames value value' := by
  cases outcome with
  | ok value =>
      exact follows_pure hm (hplain value rfl).alike
  | error fault =>
      exact follows_fail hm rfl fault

end Primitives

end Run

end Lox
