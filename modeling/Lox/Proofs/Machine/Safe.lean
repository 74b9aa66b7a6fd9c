import Lox.Proofs.Machine.Invariant

/-!
# Safe runs

A run is safe on a machine if it ends on a later and sound machine with a result as wanted, or stops
for a reason that is justified.  Safety is kept by running one thing after the other; the steps that
programs are made of are safe on sound machines.
-/

namespace Lox

/-- A run that ends as wanted on a sound machine, or has a reason to stop. -/
structure Run.Safe (visits : List Visit) (locals : Locals) {α : Type} (r : Run α) (m : Machine)
    (post : Machine → α → Prop) : Prop where
  ok : ∀ {a m'}, r m = (.ok a, m') → m.Later m' ∧ m'.Sound visits ∧ post m' a
  error : ∀ {stop m'}, r m = (.error stop, m') → stop.Justified visits locals

namespace Run

variable {visits : List Visit}
variable {locals : Locals}
variable {α β : Type}
variable {m : Machine}

theorem within_apply
    {r : Run α}
    {frame : Nat}
    {result : Except Stop α}
    {m' : Machine}
    (h : r { m with current := frame } = (result, m')) :
    within frame r m = (result, { m' with current := m.current }) := by
  simp only [within, h]

/-- What ran to its end ran to its end in all its parts. -/
theorem ok_of_bind
    {r : Run α}
    {f : α → Run β}
    {m' : Machine}
    {b : β}
    (h : (r >>= f) m = (.ok b, m')) :
    ∃ a m₁, r m = (.ok a, m₁) ∧ f a m₁ = (.ok b, m') := by
  rw [bind_apply] at h
  split at h
  · exact ⟨_, _, by assumption, h⟩
  · cases h

namespace Safe

variable {r : Run α}
variable {post : Machine → α → Prop}

theorem of_ok
    {a : α}
    {m' : Machine}
    (h : r m = (.ok a, m'))
    (hlater : m.Later m')
    (hsound : m'.Sound visits)
    (hpost : post m' a) :
    Safe visits locals r m post where
  ok := by
    intro a' m'' h'
    rw [h] at h'
    cases h'
    exact ⟨hlater, hsound, hpost⟩
  error := by
    intro stop m'' h'
    rw [h] at h'
    cases h'

theorem of_error
    {stop : Stop}
    {m' : Machine}
    (h : r m = (.error stop, m'))
    (hstop : stop.Justified visits locals) :
    Safe visits locals r m post where
  ok := by
    intro a m'' h'
    rw [h] at h'
    cases h'
  error := by
    intro stop' m'' h'
    rw [h] at h'
    cases h'
    exact hstop

theorem bind
    {f : α → Run β}
    {post' : Machine → β → Prop}
    (hr : Safe visits locals r m post)
    (hf : ∀ {m' a}, m.Later m' → m'.Sound visits → post m' a →
      Safe visits locals (f a) m' post') :
    Safe visits locals (r >>= f) m post' := by
  rcases hrun : r m with ⟨result, m'⟩
  cases result with
  | ok a =>
      obtain ⟨hlater, hsound, hpost⟩ := hr.ok hrun
      have hnext := hf hlater hsound hpost
      have heq := bind_of_ok hrun f
      constructor
      · intro b m'' h
        rw [heq] at h
        obtain ⟨hlater', hsound', hpost'⟩ := hnext.ok h
        exact ⟨hlater.trans hlater', hsound', hpost'⟩
      · intro stop m'' h
        rw [heq] at h
        exact hnext.error h
  | error stop =>
      exact of_error (bind_of_error hrun f) (hr.error hrun)

theorem weaken
    {post' : Machine → α → Prop}
    (hr : Safe visits locals r m post)
    (hpost : ∀ {m' a}, m.Later m' → post m' a → post' m' a) :
    Safe visits locals r m post' where
  ok := by
    intro a m' h
    obtain ⟨hlater, hsound, hold⟩ := hr.ok h
    exact ⟨hlater, hsound, hpost hlater hold⟩
  error := hr.error

/-- A run inside another frame. -/
theorem within
    {frame : Nat}
    {post' : Machine → α → Prop}
    (hr : Safe visits locals r { m with current := frame } post)
    (hpost : ∀ {m' a}, m.frames.Extends m'.frames → post m' a →
      post' { m' with current := m.current } a) :
    Safe visits locals (within frame r) m post' := by
  rcases hrun : r { m with current := frame } with ⟨result, m'⟩
  have heq := within_apply hrun
  cases result with
  | ok a =>
      obtain ⟨hlater, hsound, hold⟩ := hr.ok hrun
      exact of_ok heq ⟨hlater.frames, hlater.objects, rfl⟩ (hsound.of_same rfl rfl)
        (hpost hlater.frames hold)
  | error stop =>
      exact of_error heq (hr.error hrun)

end Safe

section Primitives

variable (hm : m.Sound visits)

include hm

theorem safe_pure
    {post : Machine → α → Prop}
    {a : α}
    (hpost : post m a) :
    Safe visits locals (pure a) m post :=
  .of_ok rfl (.refl m) hm hpost

theorem safe_read (f : Machine → α) :
    Safe visits locals (read f) m fun m' a => m' = m ∧ a = f m :=
  .of_ok rfl (.refl m) hm ⟨rfl, rfl⟩

theorem safe_print (line : String) :
    Safe visits locals (print line) m fun _ _ => True :=
  .of_ok rfl ⟨.refl _, Nat.le_refl _, rfl⟩ (hm.of_same rfl rfl) trivial

theorem safe_readClock (σ : Setting) :
    Safe visits locals (readClock σ) m fun m' value => value.Sound visits m' :=
  .of_ok rfl ⟨.refl _, Nat.le_refl _, rfl⟩ (hm.of_same rfl rfl) trivial

theorem safe_defineIn
    {frame : Nat}
    {name : String}
    {value : Value}
    (hvalue : value.Sound visits m)
    (hsuits : value.Suits name) :
    Safe visits locals (defineIn frame name value) m fun m' _ =>
      m'.frames = m.frames.define frame name value :=
  .of_ok rfl ⟨.define .., Nat.le_refl _, rfl⟩ (hm.define hvalue hsuits) rfl

theorem safe_define
    {name : String}
    {value : Value}
    (hvalue : value.Sound visits m)
    (hsuits : value.Suits name) :
    Safe visits locals (define name value) m fun m' _ =>
      m'.frames = m.frames.define m.current name value :=
  .of_ok rfl ⟨.define .., Nat.le_refl _, rfl⟩ (hm.define hvalue hsuits) rfl

theorem safe_pushFrame (outer : Nat) :
    Safe visits locals (pushFrame outer) m fun m' frame =>
      frame = m.frames.size ∧ m'.frames = m.frames.push outer :=
  .of_ok rfl ⟨.push .., Nat.le_refl _, rfl⟩ (hm.push outer) ⟨rfl, rfl⟩

theorem safe_newFunction
    {closure : Closure}
    (hclosure : closure.Sound visits m.frames) :
    Safe visits locals (newFunction closure) m fun m' value =>
      m'.frames = m.frames ∧ value.Sound visits m' :=
  .of_ok rfl ⟨.refl _, Nat.le_refl _, rfl⟩ (hm.of_same rfl rfl) ⟨rfl, hclosure⟩

theorem safe_newClass
    {name : String}
    {superclass : Option Class}
    {methods : List (String × Closure)}
    (hclass : ∀ identity, (Class.mk identity name superclass methods).Sound visits m.frames) :
    Safe visits locals (newClass name superclass methods) m fun m' value =>
      m'.frames = m.frames ∧ value.Sound visits m' :=
  .of_ok rfl ⟨.refl _, Nat.le_refl _, rfl⟩ (hm.of_same rfl rfl) ⟨rfl, hclass _⟩

theorem safe_newObject
    {c : Class}
    (hc : c.Sound visits m.frames) :
    Safe visits locals (newObject c) m fun m' place =>
      m'.frames = m.frames ∧ place < m'.objects.size :=
  .of_ok rfl ⟨.refl _, by simp, rfl⟩ (hm.newObject hc) ⟨rfl, by simp⟩

theorem safe_setField
    {place : Nat}
    {name : String}
    {value : Value}
    (hvalue : value.Sound visits m) :
    Safe visits locals (setField place name value) m fun _ _ => True :=
  .of_ok rfl ⟨.refl _, by simp, rfl⟩ (hm.setField hvalue) trivial

omit hm

theorem safe_outOfFuel
    {post : Machine → α → Prop} :
    Safe visits locals outOfFuel m post :=
  .of_error rfl trivial

/-- No fault but that of an undefined variable needs a reason. -/
theorem safe_fail
    {post : Machine → α → Prop}
    {found : Token}
    {fault : RuntimeFault}
    (hfault : ∀ name, fault ≠ .undefinedVariable name) :
    Safe visits locals (fail found fault) m post :=
  .of_error rfl fun name hname => absurd hname (hfault name)

end Primitives

end Run

end Lox
