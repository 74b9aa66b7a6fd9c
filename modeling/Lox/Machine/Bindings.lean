/-!
# Bindings

Names with values, each name at most once, in the order in which the names were first bound.
Reading is `List.lookup`; writing keeps the place of a name that is bound already.
-/

namespace Lox

/-- Puts a value under a name: in place if the name is bound, at the end if not. -/
def putBinding {α : Type} (name : String) (value : α) :
    List (String × α) → List (String × α)
  | [] => [(name, value)]
  | (other, old) :: rest =>
      if other = name then (other, value) :: rest
      else (other, old) :: putBinding name value rest

@[simp] theorem lookup_putBinding_self {α : Type}
    (name : String)
    (value : α)
    (bindings : List (String × α)) :
    (putBinding name value bindings).lookup name = some value := by
  induction bindings with
  | nil =>
      simp [putBinding]
  | cons entry rest ih =>
      obtain ⟨other, old⟩ := entry
      by_cases h : other = name
      · simp [putBinding, h]
      · have hne : (name == other) = false := by
          simpa using fun e => h e.symm
        simp [putBinding, h, List.lookup_cons, hne, ih]

theorem lookup_putBinding_of_ne {α : Type}
    {name other : String}
    (hne : other ≠ name)
    (value : α)
    (bindings : List (String × α)) :
    (putBinding name value bindings).lookup other = bindings.lookup other := by
  have hbeq : (other == name) = false := by
    simpa using hne
  induction bindings with
  | nil =>
      simp [putBinding, List.lookup_cons, hbeq]
  | cons entry rest ih =>
      obtain ⟨key, old⟩ := entry
      by_cases h : key = name
      · simp [putBinding, List.lookup_cons, h, hbeq]
      · simp only [putBinding, h, if_false, List.lookup_cons, ih]

end Lox
