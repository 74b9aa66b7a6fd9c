import Lox.Proofs.Loop.Folded
import Lox.Proofs.Machine.Kept
import Lox.Proofs.Scope.Distances
import Lox.Proofs.Store.AppendOnly

/-!
# Machines that are met, with another table

A machine that is met in a run holds code of the program only, and all frames that it refers to exist.
If a table keeps the entries of the program, such a machine is folded into itself, with no additional
frame.
-/

namespace Lox

/-- Each of the first frames stands for itself. -/
def Folding.upTo (size : Nat) : Folding :=
  fun frame => if frame < size then some (frame, none) else none

theorem Folding.upTo_of_lt
    {frame size : Nat}
    (h : frame < size) :
    Folding.upTo size frame = some (frame, none) := by
  simp [upTo, h]

theorem Folding.of_upTo
    {frame size there : Nat}
    {p : Gap}
    (h : Folding.upTo size frame = some (there, p)) :
    frame < size ∧ there = frame ∧ p = none := by
  unfold upTo at h
  split at h
  · rename_i hlt
    cases h
    exact ⟨hlt, rfl, rfl⟩
  · cases h

/-- All machines that are met are well formed. -/
theorem Machine.Meets.wellFormed
    {σ : Setting}
    {fuel : Nat}
    {statements : List Stmt}
    {x : Sight}
    {m : Machine}
    (h : Machine.Meets σ fuel statements x m) :
    ∃ R, m.WellFormed R := by
  obtain ⟨R, trace, hbuilt⟩ :=
    builds_execAll (evalWatched_execWatched_build σ fuel).2 statements Machine.start_stored
  exact ⟨R, (hbuilt.fine _ ((hbuilt.traced.mem_iff x m).mpr h)).1⟩

section Met

variable {L : Tables}
variable {k : Course}
variable {m : Machine}
variable {R : Registry}
variable (hkept : ∀ id ∈ k.program.ids, L.new.get? id = L.old.get? id)

include hkept

/-- Code of the program in a frame that there is. -/
theorem Closure.folds_self
    {closure : Closure}
    {around : Gap → Gap}
    (haround : around none = none)
    (hframe : closure.frame < m.frames.size)
    (hids : Stmt.idsFunction closure.decl ⊆ k.program.ids) :
    Closure.Folds L (.upTo m.frames.size) around closure closure := by
  refine ⟨0, none, Folding.upTo_of_lt hframe, (Stmt.shiftedFunction_zero _).symm, rfl, ?_⟩
  have hnone : around (Gap.inner none) = none := haround
  rw [hnone]
  exact Stmt.lowersFunction_unmoved closure.decl fun id hid => hkept id (hids hid)

theorem Class.folds_self
    {c : Class}
    (hproper : c.Proper k m)
    (hexists : c.Exists R m) :
    Class.Folds L (.upTo m.frames.size) c c := by
  refine ⟨rfl, rfl, ?_⟩
  intro name
  cases hfound : c.findMethod? name with
  | none =>
      exact .none
  | some found =>
      obtain ⟨owner, howner, hlookup⟩ := Class.exists_of_findMethod? hfound
      obtain ⟨body, frame, hmade, -⟩ := hproper owner howner
      obtain ⟨methods, hbody, hmethods⟩ := hmade.body
      have hframe := (hexists owner howner).methods hlookup
      rw [hmethods] at hlookup
      obtain ⟨decl, hdecl, -, rfl⟩ := mem_methodTable hlookup
      refine .some (Closure.folds_self hkept rfl hframe ?_)
      intro id hid
      refine Part.ids_at? hbody ?_
      rw [Part.ids, ← Part.ids_methods]
      exact List.mem_flatMap.mpr ⟨_, List.mem_map_of_mem hdecl, hid⟩

theorem Value.folds_self
    {value : Value}
    (hproper : value.Proper k m)
    (hexists : value.Exists R m) :
    Value.Folds L (.upTo m.frames.size) value value := by
  cases value with
  | native n =>
      exact .native n
  | function identity closure =>
      obtain ⟨-, -, hframe⟩ := hexists
      obtain ⟨⟨a, sort, hat, -⟩, -⟩ := hproper
      exact .function identity (Closure.folds_self hkept rfl hframe (Part.ids_at? hat))
  | cls c =>
      exact .cls (Class.folds_self hkept hproper hexists)
  | object place =>
      exact .object place
  | number x =>
      exact .number x
  | string s =>
      exact .string s
  | bool b =>
      exact .bool b
  | nil =>
      exact .nil

/-- A machine that is proper and well formed, with itself. -/
theorem Machine.folds_self
    (hproper : m.Proper k)
    (hwell : m.WellFormed R) :
    Machine.FoldsAt L (.upTo m.frames.size) none m m := by
  have hglobals : Machine.globals < m.frames.size :=
    Nat.lt_of_le_of_lt (Nat.zero_le _) hwell.current
  have hframes : Frames.Folds L (.upTo m.frames.size) m.frames m.frames := by
    constructor
    · intro frame there p hframe
      obtain ⟨hlt, rfl, -⟩ := Folding.of_upTo hframe
      exact ⟨hlt, hlt⟩
    · intro frame other there p q hframe hother
      obtain ⟨-, rfl, -⟩ := Folding.of_upTo hframe
      exact (Folding.of_upTo hother).2.1.symm
    · intro frame there hframe
      obtain ⟨-, -, hp⟩ := Folding.of_upTo hframe
      cases hp
    · intro frame there q hframe
      obtain ⟨hlt, rfl, hq⟩ := Folding.of_upTo hframe
      obtain rfl : q = none := Gap.inner_injective hq
      refine optionRel_self ?_
      intro outer houter
      by_cases hglobal : there = Machine.globals
      · rw [hglobal, hwell.outermost] at houter
        cases houter
      · obtain ⟨outer', hless, houter'⟩ := hwell.enclosing hlt hglobal
        rw [houter] at houter'
        cases houter'
        exact Folding.upTo_of_lt (Nat.lt_trans hless hlt)
    · intro frame there q hframe name
      obtain ⟨-, rfl, -⟩ := Folding.of_upTo hframe
      refine optionRel_self ?_
      intro value hvalue
      exact Value.folds_self hkept (hproper.bound hvalue) (hwell.bound hvalue)
  refine ⟨⟨Folding.upTo_of_lt hglobals, hwell.outermost, hframes, rfl, ?_, rfl, rfl, rfl, rfl⟩,
    Folding.upTo_of_lt hwell.current⟩
  intro place
  refine optionRel_self ?_
  intro o ho
  obtain ⟨hclass, hfields⟩ := hproper.objects ho
  refine ⟨Class.folds_self hkept hclass (hwell.objects ho).cls, ?_⟩
  intro name
  refine optionRel_self ?_
  intro value hvalue
  exact Value.folds_self hkept (hfields _ _ hvalue) ((hwell.objects ho).fields hvalue)

end Met

end Lox
