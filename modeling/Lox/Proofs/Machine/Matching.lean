import Lox.Machine.Eval
import Mathlib.Data.Option.Basic

/-!
# Values that match

When two programs run side by side, their values hold different code and different frames, but
correspond.  Values match if they have the same kind and identity and the same printed form and
arity.  No operator tells values apart that match, whatever else they hold.
-/

namespace Lox

section Options

variable {α β : Type}
variable {r : α → β → Prop}
variable {x : Option α}
variable {y : Option β}

theorem optionRel_mono
    {s : α → β → Prop}
    (h : ∀ {a b}, r a b → s a b)
    (hxy : Option.Rel r x y) :
    Option.Rel s x y := by
  cases hxy with
  | some hab =>
      exact .some (h hab)
  | none =>
      exact .none

theorem optionRel_cases
    (h : Option.Rel r x y) :
    (x = none ∧ y = none) ∨ ∃ a b, x = some a ∧ y = some b ∧ r a b := by
  cases h with
  | some hab =>
      exact .inr ⟨_, _, rfl, rfl, hab⟩
  | none =>
      exact .inl ⟨rfl, rfl⟩

theorem optionRel_getD
    {a : α}
    {b : β}
    (hxy : Option.Rel r x y)
    (hab : r a b) :
    r (x.getD a) (y.getD b) := by
  cases hxy with
  | some h =>
      exact h
  | none =>
      exact hab

theorem optionRel_self
    {r : α → α → Prop}
    {x : Option α}
    (h : ∀ a, x = some a → r a a) :
    Option.Rel r x x := by
  cases x with
  | none =>
      exact .none
  | some a =>
      exact .some (h a rfl)

end Options

/-- Values of one kind and identity, functions with the same name and arity, and classes with the
same name and arity. -/
inductive Value.Matches : Value → Value → Prop where
  | native (n : Native) : Matches (.native n) (.native n)
  | function (identity : Nat) {closure closure' : Closure}
      (hname : closure'.decl.name = closure.decl.name)
      (harity : closure'.decl.arity = closure.decl.arity) :
      Matches (.function identity closure) (.function identity closure')
  | cls {c c' : Class} (hidentity : c'.identity = c.identity) (hname : c'.name = c.name)
      (harity : c'.arity initializerName = c.arity initializerName) : Matches (.cls c) (.cls c')
  | object (place : Nat) : Matches (.object place) (.object place)
  | number (x : Float) : Matches (.number x) (.number x)
  | string (s : String) : Matches (.string s) (.string s)
  | bool (b : Bool) : Matches (.bool b) (.bool b)
  | nil : Matches .nil .nil

/-- Objects at the same places, of classes with the same names. -/
def Instance.Matches (objects objects' : Array Instance) : Prop :=
  ∀ place : Nat, Option.Rel (fun o o' => o'.cls.name = o.cls.name) objects[place]? objects'[place]?

namespace Value.Matches

variable {value value' other other' : Value}

theorem isTruthy_eq
    (h : Matches value value') :
    value'.isTruthy = value.isTruthy := by
  cases h <;> rfl

theorem arity?_eq
    (h : Matches value value') :
    value'.arity? = value.arity? := by
  cases h with
  | function identity _ harity =>
      exact congrArg some harity
  | cls _ _ harity =>
      exact congrArg some harity
  | _ =>
      rfl

theorem same_eq
    (h : Matches value value')
    (hother : Matches other other') :
    value'.same other' = value.same other := by
  cases h with
  | cls hidentity =>
      cases hother with
      | cls hidentity' =>
          simp only [Value.same, hidentity, hidentity']
      | _ =>
          rfl
  | _ =>
      cases hother <;> rfl

theorem display_eq
    {objects objects' : Array Instance}
    (hobjects : Instance.Matches objects objects')
    (h : Matches value value') :
    value'.display objects' = value.display objects := by
  cases h with
  | function identity hname =>
      simp only [Value.display, hname]
  | cls _ hname =>
      exact hname
  | object place =>
      simp only [Value.display]
      obtain ⟨hnone, hnone'⟩ | ⟨o, o', ho, ho', hname⟩ := optionRel_cases (hobjects place)
      · rw [hnone, hnone']
      · simp only [ho, ho', hname]
  | bool b =>
      cases b <;> rfl
  | _ =>
      rfl

end Value.Matches

namespace Operator

variable {objects objects' : Array Instance}
variable {value value' other other' : Value}
variable (operator : Token)

theorem unary_matches
    (h : Value.Matches value value') :
    unary operator value' = unary operator value := by
  obtain ⟨kind, lexeme, line⟩ := operator
  cases kind with
  | punct p =>
      cases h <;> cases p <;> rfl
  | _ =>
      rfl

theorem decides_matches
    (h : Value.Matches value value') :
    decides operator value' = decides operator value := by
  simp only [decides, h.isTruthy_eq]

theorem add_matches
    (hobjects : Instance.Matches objects objects')
    (h : Value.Matches value value')
    (hother : Value.Matches other other') :
    add objects' value' other' = add objects value other := by
  have hdisplay := h.display_eq hobjects
  have hdisplay' := hother.display_eq hobjects
  cases hother with
  | string b =>
      cases h with
      | string a =>
          rfl
      | _ =>
          simp only [add, hdisplay]
  | _ =>
      cases h with
      | string a =>
          simp only [add, hdisplay']
      | _ =>
          rfl

theorem binary_matches
    (hobjects : Instance.Matches objects objects')
    (h : Value.Matches value value')
    (hother : Value.Matches other other') :
    binary objects' operator value' other' = binary objects operator value other := by
  unfold binary
  split
  · exact add_matches hobjects h hother
  · rw [h.same_eq hother]
  · rw [h.same_eq hother]
  · cases h with
    | number a =>
        cases hother <;> rfl
    | _ =>
        rfl

end Operator

end Lox
