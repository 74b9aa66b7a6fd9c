import Lox.Proofs.Machine.Safe
import Lox.Proofs.Machine.Watched
import Lox.Proofs.Store.WellFormed

/-!
# Traces of runs that build a store

The trace of a run lists all that can be seen of it, in order: whatever a watcher waits for, the run
stops at the first entry that the watcher wants to stop at, and it goes on as if it were not watched
if there is none.

`Run.Builds` says of a run that all machines on its trace are well formed, each before all later ones,
and that it leaves the store in order.  It is kept by running one thing after the other, and the
steps that programs are made of have it.
-/

namespace Lox

/-- The values that come with a sight. -/
def Sight.values : Sight → List Value
  | .evaluated _ value => [value]
  | .executed _ (.returned value) => [value]
  | _ => []

/-- The first entry of a trace at which a watcher stops, and with which error. -/
def Watcher.firstStop (w : Watcher) (trace : List (Sight × Machine)) :
    Option (RuntimeError × Machine) :=
  trace.findSome? fun entry => (w entry.1 entry.2).map fun error => (error, entry.2)

/-- The list of all that is seen of a run.  A run that is stopped goes back to the frame that it
started in. -/
def Run.Traced {α : Type} (r : Watcher → Run α) (m : Machine) (trace : List (Sight × Machine)) :
    Prop :=
  ∀ w : Watcher, r w m =
    match w.firstStop trace with
    | none => r .idle m
    | some (error, m') => (.error (.fault error), { m' with current := m.current })

/-- A well-formed machine, and the registry of all it has made. -/
structure Machine.Stored (R : Registry) (m : Machine) : Prop where
  wellFormed : m.WellFormed R
  classes : R.classes.length = m.classCount
  functions : R.functions.length = m.functionCount

/-- A run with a trace: everything on it is well formed and in order, and the run leaves the store in
order, with a result as wanted. -/
structure Run.Built (R : Registry) {α : Type} (r : Watcher → Run α) (m : Machine)
    (post : Registry → Machine → α → Prop) (R' : Registry) (trace : List (Sight × Machine)) :
    Prop where
  grows : R.Grows R'
  traced : Traced r m trace
  fine : ∀ entry ∈ trace,
    entry.2.WellFormed R' ∧ ∀ value ∈ entry.1.values, value.Exists R' entry.2
  ordered : (m :: trace.map Prod.snd ++ [(r .idle m).2]).Pairwise Machine.Precedes
  current : (r .idle m).2.current = m.current
  stored : (r .idle m).2.Stored R'
  ok : ∀ {a m'}, r .idle m = (.ok a, m') → post R' m' a

/-- A run in which the store is kept in order, whatever happens. -/
def Run.Builds (R : Registry) {α : Type} (r : Watcher → Run α) (m : Machine)
    (post : Registry → Machine → α → Prop) : Prop :=
  ∃ R' trace, Run.Built R r m post R' trace

/-- Two lists in order, the first of which ends where the second starts. -/
theorem pairwise_glue
    {ms ms' : List Machine}
    {m : Machine}
    (h : (ms ++ [m]).Pairwise Machine.Precedes)
    (h' : (m :: ms').Pairwise Machine.Precedes) :
    (ms ++ m :: ms').Pairwise Machine.Precedes := by
  rw [List.pairwise_append] at h ⊢
  refine ⟨h.1, h', ?_⟩
  intro a ha b hb
  have hm := h.2.2 a ha m List.mem_cons_self
  rcases List.mem_cons.mp hb with rfl | hb
  · exact hm
  · exact hm.trans ((List.pairwise_cons.mp h').1 b hb)

/-- A list in order stays so if its ends are exchanged for machines with the same store. -/
theorem pairwise_ends
    {ms : List Machine}
    {first first' last last' : Machine}
    (hfirst : first'.Precedes first)
    (hlast : last.Precedes last')
    (h : (first :: ms ++ [last]).Pairwise Machine.Precedes) :
    (first' :: ms ++ [last']).Pairwise Machine.Precedes := by
  rw [List.pairwise_append, List.pairwise_cons] at h ⊢
  obtain ⟨⟨hbefore, hms⟩, -, hafter⟩ := h
  refine ⟨⟨fun b hb => hfirst.trans (hbefore b hb), hms⟩, List.pairwise_singleton _ _, ?_⟩
  intro a ha b hb
  rw [List.mem_singleton] at hb
  subst hb
  rcases List.mem_cons.mp ha with rfl | ha
  · have := hafter first List.mem_cons_self last List.mem_cons_self
    exact hfirst.trans (this.trans hlast)
  · exact (hafter a (List.mem_cons_of_mem _ ha) last List.mem_cons_self).trans hlast

namespace Run

variable {α β : Type}
variable {R R' : Registry}
variable {m : Machine}

theorem Traced.nil (r : Run α) (m : Machine) : Traced (fun _ => r) m [] :=
  fun _ => rfl

theorem Traced.pass (x : Sight) (m : Machine) : Traced (fun w => w.pass x) m [(x, m)] := by
  intro w
  cases hsight : w x m with
  | none =>
      simp [Watcher.pass, Watcher.idle, Watcher.firstStop, hsight]
  | some error =>
      simp [Watcher.pass, Watcher.firstStop, hsight]

/-- A sight is on the trace of a run if and only if whoever waits for it stops the run. -/
theorem Traced.mem_iff
    {r : Watcher → Run α}
    {trace : List (Sight × Machine)}
    (h : Traced r m trace)
    (x : Sight)
    (m₁ : Machine) :
    (x, m₁) ∈ trace ↔ ∀ error, ∃ m', r (.waiting x m₁ error) m = (.error (.fault error), m') := by
  constructor
  · intro hmem error
    have hrun := h (.waiting x m₁ error)
    cases hstop : Watcher.firstStop (.waiting x m₁ error) trace with
    | none =>
        have hpass := List.findSome?_eq_none_iff.mp hstop (x, m₁) hmem
        simp [Watcher.waiting] at hpass
    | some found =>
        obtain ⟨entry, -, hentry⟩ := List.exists_of_findSome?_eq_some hstop
        simp only [Watcher.waiting, Option.map_eq_some_iff] at hentry
        obtain ⟨error', herror, rfl⟩ := hentry
        split at herror
        · cases herror
          rw [hstop] at hrun
          exact ⟨_, hrun⟩
        · cases herror
  · intro hstops
    apply Classical.byContradiction
    intro hmem
    -- Nobody who waits in vain stops the run, but it cannot end with two errors by itself.
    have hidle : ∀ error, r (.waiting x m₁ error) m = r .idle m := by
      intro error
      have hpass : Watcher.firstStop (.waiting x m₁ error) trace = none := by
        rw [Watcher.firstStop, List.findSome?_eq_none_iff]
        rintro ⟨x', m'⟩ hentry
        have hne : ¬ (x' = x ∧ m' = m₁) := by
          rintro ⟨rfl, rfl⟩
          exact hmem hentry
        simp [Watcher.waiting, hne]
      have hrun := h (.waiting x m₁ error)
      rw [hpass] at hrun
      exact hrun
    obtain ⟨m₂, hone⟩ := hstops ⟨⟨.identifier, "", 0⟩, .notCallable⟩
    obtain ⟨m₃, htwo⟩ := hstops ⟨⟨.identifier, "", 0⟩, .notAClass⟩
    rw [hidle] at hone htwo
    rw [hone] at htwo
    cases htwo

section Bind

variable {r : Watcher → Run α}
variable {f : Watcher → α → Run β}
variable {trace : List (Sight × Machine)}
variable {m' : Machine}

theorem Traced.bind_error
    (hr : Traced r m trace)
    {stop : Stop}
    (hrun : r .idle m = (.error stop, m')) :
    Traced (fun w => r w >>= f w) m trace := by
  intro w
  simp only [bind_apply]
  rw [hr w, hrun]
  cases w.firstStop trace <;> rfl

theorem Traced.bind_ok
    (hr : Traced r m trace)
    {a : α}
    (hrun : r .idle m = (.ok a, m'))
    (hcurrent : m'.current = m.current)
    {later : List (Sight × Machine)}
    (hf : Traced (fun w => f w a) m' later) :
    Traced (fun w => r w >>= f w) m (trace ++ later) := by
  intro w
  have happend : w.firstStop (trace ++ later) = (w.firstStop trace).or (w.firstStop later) :=
    List.findSome?_append
  simp only [bind_apply]
  rw [hr w, happend, hrun]
  cases w.firstStop trace with
  | some found =>
      rfl
  | none =>
      have hnext : f w a m' = _ := hf w
      rw [Option.none_or]
      dsimp only
      rw [hnext]
      cases w.firstStop later with
      | none =>
          rfl
      | some found =>
          dsimp only
          rw [hcurrent]

theorem Traced.within
    {frame : Nat}
    (hr : Traced r { m with current := frame } trace) :
    Traced (fun w => within frame (r w)) m trace := by
  intro w
  dsimp only [Run.within]
  rw [hr w]
  cases w.firstStop trace <;> rfl

end Bind

namespace Builds

/-- A step that nobody can watch. -/
theorem of_ok
    {r : Run α}
    {post : Registry → Machine → α → Prop}
    {a : α}
    {m' : Machine}
    (h : r m = (.ok a, m'))
    (hgrows : R.Grows R')
    (hprecedes : m.Precedes m')
    (hcurrent : m'.current = m.current)
    (hstored : m'.Stored R')
    (hpost : post R' m' a) :
    Builds R (fun _ => r) m post := by
  refine ⟨R', [], hgrows, .nil r m, by simp, ?_, ?_, ?_, ?_⟩
  · rw [h]
    simpa using hprecedes
  · rw [h]
    exact hcurrent
  · rw [h]
    exact hstored
  · intro a' m'' hrun
    rw [h] at hrun
    cases hrun
    exact hpost

theorem of_error
    {r : Run α}
    {post : Registry → Machine → α → Prop}
    {stop : Stop}
    (hm : m.Stored R)
    (h : r m = (.error stop, m)) :
    Builds R (fun _ => r) m post := by
  refine ⟨R, [], .refl R, .nil r m, by simp, ?_, ?_, ?_, ?_⟩
  · rw [h]
    simpa using Machine.Precedes.refl m
  · rw [h]
  · rw [h]
    exact hm
  · intro a' m'' hrun
    rw [h] at hrun
    cases hrun

/-- A sight of a store in order. -/
theorem pass
    {x : Sight}
    (hm : m.Stored R)
    (hx : ∀ value ∈ x.values, value.Exists R m) :
    Builds R (fun w => w.pass x) m fun R' m' _ => R' = R ∧ m' = m := by
  refine ⟨R, [(x, m)], .refl R, .pass x m, ?_, ?_, rfl, hm, ?_⟩
  · intro entry hentry
    rw [List.mem_singleton] at hentry
    subst hentry
    exact ⟨hm.wellFormed, hx⟩
  · simpa [Watcher.pass, Watcher.idle] using Machine.Precedes.refl m
  · intro a m' hrun
    cases hrun
    exact ⟨rfl, rfl⟩

variable {r : Watcher → Run α}
variable {post : Registry → Machine → α → Prop}

theorem bind
    {f : Watcher → α → Run β}
    {post' : Registry → Machine → β → Prop}
    (hr : Builds R r m post)
    (hf : ∀ {R₁ m₁ a}, R.Grows R₁ → m.Precedes m₁ → m₁.current = m.current → m₁.Stored R₁ →
      post R₁ m₁ a → Builds R₁ (fun w => f w a) m₁ post') :
    Builds R (fun w => r w >>= f w) m post' := by
  obtain ⟨R₁, trace, hgrows, htraced, hfine, hordered, hcurrent, hstored, hok⟩ := hr
  rcases hrun : r .idle m with ⟨result, m₁⟩
  rw [hrun] at hordered hcurrent hstored
  cases result with
  | error stop =>
      have heq := bind_of_error hrun (f .idle)
      refine ⟨R₁, trace, hgrows, htraced.bind_error hrun, hfine, ?_, ?_, ?_, ?_⟩
      · rw [heq]
        exact hordered
      · rw [heq]
        exact hcurrent
      · rw [heq]
        exact hstored
      · intro b m' h
        rw [heq] at h
        cases h
  | ok a =>
      have heq := bind_of_ok hrun (f .idle)
      have hprecedes : m.Precedes m₁ := by
        rw [List.pairwise_append] at hordered
        exact hordered.2.2 m List.mem_cons_self m₁ List.mem_cons_self
      obtain ⟨R₂, later, hgrows', htraced', hfine', hordered', hcurrent', hstored', hok'⟩ :=
        hf hgrows hprecedes hcurrent hstored (hok hrun)
      refine ⟨R₂, trace ++ later, hgrows.trans hgrows', htraced.bind_ok hrun hcurrent htraced',
        ?_, ?_, ?_, ?_, ?_⟩
      · intro entry hentry
        rcases List.mem_append.mp hentry with hentry | hentry
        · obtain ⟨hwell, hvalues⟩ := hfine entry hentry
          exact ⟨hwell.grow hgrows',
            fun value hvalue => (hvalues value hvalue).mono hgrows' (.refl _)⟩
        · exact hfine' entry hentry
      · rw [heq, List.map_append, List.cons_append, List.append_assoc, ← List.cons_append]
        exact (pairwise_glue hordered hordered').sublist
          (List.Sublist.append_left (List.sublist_cons_self _ _) _)
      · rw [heq]
        exact hcurrent'.trans hcurrent
      · rw [heq]
        exact hstored'
      · intro b m' h
        rw [heq] at h
        exact hok' h

/-- A run inside another frame that exists. -/
theorem within
    {frame : Nat}
    {post' : Registry → Machine → α → Prop}
    (hm : m.WellFormed R)
    (hr : Builds R r { m with current := frame } post)
    (hpost : ∀ {R₁ m₁ a}, post R₁ m₁ a → post' R₁ { m₁ with current := m.current } a) :
    Builds R (fun w => within frame (r w)) m post' := by
  obtain ⟨R₁, trace, hgrows, htraced, hfine, hordered, -, hstored, hok⟩ := hr
  rcases hrun : r .idle { m with current := frame } with ⟨result, m₁⟩
  rw [hrun] at hordered hstored
  have heq := within_apply hrun
  have hinside : m.Precedes { m with current := frame } :=
    .of_same rfl rfl (Nat.le_refl _) (Nat.le_refl _)
  have hback : m₁.Precedes { m₁ with current := m.current } :=
    .of_same rfl rfl (Nat.le_refl _) (Nat.le_refl _)
  refine ⟨R₁, trace, hgrows, htraced.within, hfine, ?_, ?_, ?_, ?_⟩
  · rw [heq]
    exact pairwise_ends hinside hback hordered
  · rw [heq]
  · rw [heq]
    have hprecedes : m.Precedes m₁ := by
      rw [List.pairwise_append] at hordered
      exact hinside.trans (hordered.2.2 _ List.mem_cons_self m₁ List.mem_cons_self)
    exact ⟨hstored.wellFormed.of_same rfl rfl (Nat.lt_of_lt_of_le hm.current hprecedes.frames) hback,
      hstored.classes, hstored.functions⟩
  · intro a m' h
    rw [heq] at h
    cases h
    exact hpost (hok hrun)

end Builds

/-! ## Steps -/

section Steps

variable (hm : m.Stored R)

include hm

theorem builds_pure
    {post : Registry → Machine → α → Prop}
    {a : α}
    (hpost : post R m a) :
    Builds R (fun _ => pure a) m post :=
  .of_ok rfl (.refl R) (.refl m) rfl hm hpost

theorem builds_read (f : Machine → α) :
    Builds R (fun _ => read f) m fun R' m' a => R' = R ∧ m' = m ∧ a = f m :=
  .of_ok rfl (.refl R) (.refl m) rfl hm ⟨rfl, rfl, rfl⟩

theorem builds_print (line : String) :
    Builds R (fun _ => print line) m fun _ _ _ => True := by
  have hprecedes : m.Precedes { m with output := m.output.push line } :=
    .of_same rfl rfl (Nat.le_refl _) (Nat.le_refl _)
  exact .of_ok rfl (.refl R) hprecedes rfl
    ⟨hm.wellFormed.of_same rfl rfl hm.wellFormed.current hprecedes, hm.classes, hm.functions⟩ trivial

theorem builds_readClock (σ : Setting) :
    Builds R (fun _ => readClock σ) m fun R' m' value => value.Exists R' m' := by
  have hprecedes : m.Precedes { m with readings := m.readings + 1 } :=
    .of_same rfl rfl (Nat.le_refl _) (Nat.le_refl _)
  exact .of_ok rfl (.refl R) hprecedes rfl
    ⟨hm.wellFormed.of_same rfl rfl hm.wellFormed.current hprecedes, hm.classes, hm.functions⟩ trivial

theorem builds_defineIn
    {value : Value}
    (hvalue : value.Exists R m)
    (frame : Nat)
    (name : String) :
    Builds R (fun _ => defineIn frame name value) m fun _ _ _ => True :=
  .of_ok rfl (.refl R) (.define m frame name value) rfl
    ⟨hm.wellFormed.define hvalue frame name, hm.classes, hm.functions⟩ trivial

theorem builds_define
    {value : Value}
    (hvalue : value.Exists R m)
    (name : String) :
    Builds R (fun _ => define name value) m fun _ _ _ => True :=
  .of_ok rfl (.refl R) (.define m m.current name value) rfl
    ⟨hm.wellFormed.define hvalue m.current name, hm.classes, hm.functions⟩ trivial

theorem builds_pushFrame
    {outer : Nat}
    (houter : outer < m.frames.size) :
    Builds R (fun _ => pushFrame outer) m fun _ m' frame => frame < m'.frames.size := by
  refine .of_ok rfl (.refl R) (.push m outer) rfl
    ⟨hm.wellFormed.push houter, hm.classes, hm.functions⟩ ?_
  rw [Frames.size_push]
  exact Nat.lt_succ_self _

/-- A new function is filed under its number. -/
theorem builds_newFunction
    {closure : Closure}
    (hframe : closure.frame < m.frames.size) :
    Builds R (fun _ => newFunction closure) m fun R' m' value => value.Exists R' m' := by
  have hgrows : R.Grows { R with functions := R.functions ++ [closure] } :=
    ⟨List.prefix_refl _, List.prefix_append _ _⟩
  have hprecedes : m.Precedes { m with functionCount := m.functionCount + 1 } :=
    .of_same rfl rfl (Nat.le_refl _) (Nat.le_succ _)
  refine .of_ok rfl hgrows hprecedes rfl ⟨?_, hm.classes, ?_⟩ ⟨Nat.lt_succ_self _, ?_, hframe⟩
  · exact (hm.wellFormed.grow hgrows).of_same rfl rfl hm.wellFormed.current hprecedes
  · simp [hm.functions]
  · rw [← hm.functions]
    simp

/-- A new class is filed under its number, which is greater than that of its superclass. -/
theorem builds_newClass
    {superclass : Option Class}
    {methods : List (String × Closure)}
    (hsuperclass : ∀ parent, superclass = some parent → parent.Exists R m)
    (hmethods : ∀ name method, methods.lookup name = some method → method.frame < m.frames.size)
    (name : String) :
    Builds R (fun _ => newClass name superclass methods) m fun R' m' value =>
      value.Exists R' m' := by
  let c : Class := .mk m.classCount name superclass methods
  have hgrows : R.Grows { R with classes := R.classes ++ [c] } :=
    ⟨List.prefix_append _ _, List.prefix_refl _⟩
  have hprecedes : m.Precedes { m with classCount := m.classCount + 1 } :=
    .of_same rfl rfl (Nat.le_succ _) (Nat.le_refl _)
  refine .of_ok rfl hgrows hprecedes rfl ⟨?_, ?_, hm.functions⟩ ?_
  · exact (hm.wellFormed.grow hgrows).of_same rfl rfl hm.wellFormed.current hprecedes
  · simp [hm.classes]
  · have hself : c.Filed { R with classes := R.classes ++ [c] }
        { m with classCount := m.classCount + 1 } := by
      refine ⟨Nat.lt_succ_self _, ?_, fun hmethod => hmethods _ _ hmethod, ?_⟩
      · change (R.classes ++ [c])[m.classCount]? = some c
        rw [← hm.classes]
        simp
      · intro parent hparent
        exact ((hsuperclass parent hparent) parent parent.mem_lineage_self).made
    intro owner howner
    cases superclass with
    | none =>
        rw [Class.lineage, List.mem_singleton] at howner
        subst howner
        exact hself
    | some parent =>
        rw [Class.lineage, List.mem_cons] at howner
        rcases howner with rfl | howner
        · exact hself
        · exact (hsuperclass parent rfl).mono hgrows hprecedes owner howner

theorem builds_newObject
    {c : Class}
    (hc : c.Exists R m) :
    Builds R (fun _ => newObject c) m fun _ m' place => place < m'.objects.size := by
  refine .of_ok rfl (.refl R) (.newObject m c) rfl
    ⟨hm.wellFormed.newObject hc, hm.classes, hm.functions⟩ ?_
  rw [Array.size_push]
  exact Nat.lt_succ_self _

theorem builds_setField
    {value : Value}
    (hvalue : value.Exists R m)
    (place : Nat)
    (name : String) :
    Builds R (fun _ => setField place name value) m fun _ _ _ => True :=
  .of_ok rfl (.refl R) (.setField m place name value) rfl
    ⟨hm.wellFormed.setField hvalue place name, hm.classes, hm.functions⟩ trivial

theorem builds_writeIn
    {value : Value}
    (hvalue : value.Exists R m)
    (target : Option Nat)
    (name : Token) :
    Builds R (fun _ => writeIn target name value) m fun _ _ _ => True := by
  cases target with
  | none =>
      exact .of_error hm rfl
  | some frame =>
      exact builds_defineIn hm hvalue frame name.lexeme

end Steps

end Run

end Lox
