import Lox.Proofs.Machine.Safe
import Lox.Proofs.Machine.Standing

/-!
# Runs that keep machines proper

A run is watched twice: once by someone who demands only that all sights are part of the course, and
once by someone who demands, too, that machines and values are proper at each of them.  `Run.Keeps`
says that both see the same, and that a proper machine is left proper, also where the run stops.  It
is kept by running one thing after the other, and the steps that programs are made of have it on
proper machines.
-/

namespace Lox

/-- What is proper at a sight. -/
def Sight.Proper (k : Course) (m : Machine) : Sight → Prop
  | .evaluates e =>
      ∃ a, k.program.at? a = some (.expr e) ∧ m.Stands k m.current (k.program.scopesAround a)
  | .evaluated _ value => value.Proper k m
  | .executes s =>
      ∃ a, k.program.at? a = some (.stmt s) ∧ m.Stands k m.current (k.program.scopesAround a)
  | .executed _ flow => flow.Proper k m

/-- A sight of a course is as it should be. -/
structure Course.Fine (k : Course) (x : Sight) (m : Machine) : Prop where
  proper : m.Proper k
  onward : m.Onward k.last
  sight : x.Proper k m

/-- Demands that all sights are part of the course. -/
noncomputable def Course.lax (k : Course) (outside : RuntimeError) : Watcher :=
  .demanding k.seen outside

/-- If everything is part of the course, nothing is demanded. -/
theorem Course.lax_eq_idle
    {k : Course}
    (hseen : ∀ x m, k.seen x m)
    (outside : RuntimeError) :
    k.lax outside = .idle := by
  funext x m
  exact if_pos (hseen x m)

/-- Demands, too, that all sights are as they should be. -/
noncomputable def Course.strict (k : Course) (outside error : RuntimeError) : Watcher :=
  (k.lax outside).orElse (.demanding k.Fine error)

/-- A run that leaves a machine proper however it ends, with a result as wanted, and in which
everything is as it should be if the course goes on from its end. -/
structure Run.Keeps (k : Course) (outside : RuntimeError) {α : Type} (r : Watcher → Run α)
    (m : Machine) (post : Machine → α → Prop) : Prop where
  onward : m.Onward (r (k.lax outside) m).2
  current : (r (k.lax outside) m).2.current = m.current
  proper : (r (k.lax outside) m).2.Proper k
  ok : ∀ {a m'}, r (k.lax outside) m = (.ok a, m') → post m' a
  same : ∀ error, (r (k.lax outside) m).2.Onward k.last →
    r (k.strict outside error) m = r (k.lax outside) m

namespace Run

variable {k : Course}
variable {outside : RuntimeError}
variable {α β : Type}
variable {m : Machine}

namespace Keeps

theorem of_ok
    {r : Run α}
    {post : Machine → α → Prop}
    {a : α}
    {m' : Machine}
    (h : r m = (.ok a, m'))
    (honward : m.Onward m')
    (hcurrent : m'.current = m.current)
    (hproper : m'.Proper k)
    (hpost : post m' a) :
    Keeps k outside (fun _ => r) m post where
  onward := by
    rw [h]
    exact honward
  current := by
    rw [h]
    exact hcurrent
  proper := by
    rw [h]
    exact hproper
  ok := by
    intro a' m'' h'
    rw [h] at h'
    cases h'
    exact hpost
  same := fun _ _ => rfl

theorem of_error
    {r : Run α}
    {post : Machine → α → Prop}
    {stop : Stop}
    (hm : m.Proper k)
    (h : r m = (.error stop, m)) :
    Keeps k outside (fun _ => r) m post where
  onward := by
    rw [h]
    exact .refl m
  current := by
    rw [h]
  proper := by
    rw [h]
    exact hm
  ok := by
    intro a m' h'
    rw [h] at h'
    cases h'
  same := fun _ _ => rfl

variable {r : Watcher → Run α}
variable {post : Machine → α → Prop}

theorem bind
    {f : Watcher → α → Run β}
    {post' : Machine → β → Prop}
    (hr : Keeps k outside r m post)
    (hf : ∀ {m' a}, m.Onward m' → m'.current = m.current → m'.Proper k → post m' a →
      Keeps k outside (fun w => f w a) m' post') :
    Keeps k outside (fun w => r w >>= f w) m post' := by
  have honward := hr.onward
  have hcurrent := hr.current
  have hproper := hr.proper
  have hsame := hr.same
  rcases hrun : r (k.lax outside) m with ⟨result, m'⟩
  rw [hrun] at honward hcurrent hproper hsame
  cases result with
  | error stop =>
      have heq := bind_of_error hrun (f (k.lax outside))
      constructor
      · rw [heq]
        exact honward
      · rw [heq]
        exact hcurrent
      · rw [heq]
        exact hproper
      · intro b m'' h
        rw [heq] at h
        cases h
      · intro error hlast
        rw [heq] at hlast ⊢
        rw [bind_apply, hsame error hlast]
  | ok a =>
      have hnext := hf honward hcurrent hproper (hr.ok hrun)
      have heq := bind_of_ok hrun (f (k.lax outside))
      constructor
      · rw [heq]
        exact honward.trans hnext.onward
      · rw [heq]
        exact hnext.current.trans hcurrent
      · rw [heq]
        exact hnext.proper
      · intro b m'' h
        rw [heq] at h
        exact hnext.ok h
      · intro error hlast
        rw [heq] at hlast ⊢
        rw [bind_apply, hsame error (hnext.onward.trans hlast)]
        exact hnext.same error hlast

/-- A run that first comes to another machine. -/
theorem of_moved
    {r' : Watcher → Run α}
    {m' : Machine}
    (hr : Keeps k outside r' m' post)
    (h : ∀ w, r w m = r' w m')
    (honward : m.Onward m')
    (hcurrent : m'.current = m.current) :
    Keeps k outside r m post where
  onward := by
    rw [h]
    exact honward.trans hr.onward
  current := by
    rw [h]
    exact hr.current.trans hcurrent
  proper := by
    rw [h]
    exact hr.proper
  ok := by
    intro a m'' hrun
    rw [h] at hrun
    exact hr.ok hrun
  same := by
    intro error hlast
    rw [h] at hlast ⊢
    rw [h]
    exact hr.same error hlast

theorem weaken
    {post' : Machine → α → Prop}
    (hr : Keeps k outside r m post)
    (hpost : ∀ {m' a}, m.Onward m' → post m' a → post' m' a) :
    Keeps k outside r m post' where
  onward := hr.onward
  current := hr.current
  proper := hr.proper
  ok := by
    intro a m' h
    have honward := hr.onward
    rw [h] at honward
    exact hpost honward (hr.ok h)
  same := hr.same

/-- A run inside another frame. -/
theorem within
    {frame : Nat}
    {post' : Machine → α → Prop}
    (hm : m.Proper k)
    (hr : Keeps k outside r { m with current := frame } post)
    (hpost : ∀ {m' a}, m.Onward m' → post m' a → post' { m' with current := m.current } a) :
    Keeps k outside (fun w => within frame (r w)) m post' := by
  have hinside : m.Onward { m with current := frame } := .of_same rfl rfl
  have honward := hinside.trans hr.onward
  have hproper := hr.proper
  have hsame := hr.same
  rcases hrun : r (k.lax outside) { m with current := frame } with ⟨result, m'⟩
  rw [hrun] at honward hproper hsame
  have heq := within_apply hrun
  have hback : m'.Onward { m' with current := m.current } := .of_same rfl rfl
  constructor
  · rw [heq]
    exact honward.trans hback
  · rw [heq]
  · rw [heq]
    refine hproper.enter (Nat.lt_of_lt_of_le hm.current honward.frames) ?_
    intro name hname
    rw [honward.kept hm.current hname]
    exact hm.bare name hname
  · intro a m'' h
    rw [heq] at h
    cases h
    exact hpost honward (hr.ok hrun)
  · intro error hlast
    rw [heq] at hlast ⊢
    rw [within_apply (hsame error (hback.trans hlast))]

/-- A sight that is as it should be. -/
theorem pass
    (x : Sight)
    (hm : m.Proper k)
    (hx : x.Proper k m) :
    Keeps k outside (fun w => w.pass x) m fun m' _ => m' = m ∧ k.seen x m := by
  by_cases hseen : k.seen x m
  · have hlax : k.lax outside x m = none := if_pos hseen
    have hpass : (k.lax outside).pass x m = (.ok (), m) := Watcher.pass_of_eq_none hlax
    constructor
    · rw [hpass]
      exact .refl m
    · rw [hpass]
    · rw [hpass]
      exact hm
    · intro a m' h
      rw [hpass] at h
      cases h
      exact ⟨rfl, hseen⟩
    · intro error hlast
      rw [hpass] at hlast ⊢
      have hfine : k.Fine x m := ⟨hm, hlast, hx⟩
      have hstrict : k.strict outside error x m = none := by
        simp only [Course.strict, Watcher.orElse, hlax, Watcher.demanding, if_pos hfine,
          Option.or_none]
      exact Watcher.pass_of_eq_none hstrict
  · have hlax : k.lax outside x m = some outside := if_neg hseen
    have hpass : (k.lax outside).pass x m = (.error (.fault outside), m) :=
      Watcher.pass_of_eq_some hlax
    constructor
    · rw [hpass]
      exact .refl m
    · rw [hpass]
    · rw [hpass]
      exact hm
    · intro a m' h
      rw [hpass] at h
      cases h
    · intro error _
      simp only [Watcher.pass, Course.strict, Watcher.orElse, hlax, Option.some_or]

end Keeps

section Primitives

variable (hm : m.Proper k)

include hm

theorem keeps_pure
    {post : Machine → α → Prop}
    {a : α}
    (hpost : post m a) :
    Keeps k outside (fun _ => pure a) m post :=
  .of_ok rfl (.refl m) rfl hm hpost

theorem keeps_read (f : Machine → α) :
    Keeps k outside (fun _ => read f) m fun m' a => m' = m ∧ a = f m :=
  .of_ok rfl (.refl m) rfl hm ⟨rfl, rfl⟩

/-- A run that changes neither frames nor objects. -/
theorem keeps_same
    {r : Run α}
    {a : α}
    {m' : Machine}
    {post : Machine → α → Prop}
    (h : r m = (.ok a, m'))
    (hframes : m'.frames = m.frames)
    (hobjects : m'.objects = m.objects)
    (hcurrent : m'.current = m.current)
    (hpost : post m' a) :
    Keeps k outside (fun _ => r) m post :=
  .of_ok h (.of_same hframes hobjects) hcurrent (hm.of_same hframes hobjects hcurrent) hpost

theorem keeps_defineIn
    {name : String}
    {value : Value}
    (hname : Ordinary name)
    (hvalue : value.Proper k m)
    (frame : Nat) :
    Keeps k outside (fun _ => defineIn frame name value) m fun m' _ =>
      m' = { m with frames := m.frames.define frame name value } :=
  .of_ok rfl (.define m hname frame value) rfl (hm.define hname hvalue frame) rfl

theorem keeps_define
    {name : String}
    {value : Value}
    (hname : Ordinary name)
    (hvalue : value.Proper k m) :
    Keeps k outside (fun _ => define name value) m fun m' _ =>
      m' = { m with frames := m.frames.define m.current name value } :=
  .of_ok rfl (.define m hname m.current value) rfl (hm.define hname hvalue m.current) rfl

theorem keeps_pushFrame (outer : Nat) :
    Keeps k outside (fun _ => pushFrame outer) m fun m' frame =>
      frame = m.frames.size ∧ m' = { m with frames := m.frames.push outer } :=
  .of_ok rfl (.push m outer) rfl (hm.push outer) ⟨rfl, rfl⟩

theorem keeps_newFunction
    {closure : Closure}
    (hvalue : (Value.function m.functionCount closure).Proper k m) :
    Keeps k outside (fun _ => newFunction closure) m fun m' value => value.Proper k m' :=
  keeps_same hm rfl rfl rfl rfl (hvalue.mono (.of_same rfl rfl))

theorem keeps_newClass
    {name : String}
    {superclass : Option Class}
    {methods : List (String × Closure)}
    (hclass : (Class.mk m.classCount name superclass methods).Proper k m) :
    Keeps k outside (fun _ => newClass name superclass methods) m fun m' value =>
      value.Proper k m' :=
  keeps_same hm rfl rfl rfl rfl (hclass.mono (.of_same rfl rfl))

theorem keeps_newObject
    {c : Class}
    (hc : c.Proper k m) :
    Keeps k outside (fun _ => newObject c) m fun m' place =>
      place = m.objects.size ∧ m' = { m with objects := m.objects.push ⟨c, []⟩ } :=
  .of_ok rfl (.newObject m c) rfl (hm.newObject hc) ⟨rfl, rfl⟩

theorem keeps_setField
    {name : String}
    {value : Value}
    (hvalue : value.Proper k m)
    (place : Nat) :
    Keeps k outside (fun _ => setField place name value) m fun _ _ => True :=
  .of_ok rfl (.setField m place name value) rfl (hm.setField hvalue place) trivial

end Primitives

end Run

end Lox
