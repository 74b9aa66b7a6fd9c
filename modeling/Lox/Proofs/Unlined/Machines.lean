import Lox.Machine.Operator
import Lox.Machine.Run
import Lox.Proofs.Unlined.Trees

/-!
# Machines without lines

Functions keep the trees they were declared with, so values, objects and frames hold lines too.
Nothing that a program can do with a value depends on them.
-/

namespace Lox

section Bindings

variable {α β : Type}
variable (f : α → β)

/-- Bindings with their values changed. -/
def mapBindings (bindings : List (String × α)) : List (String × β) :=
  bindings.map fun entry => (entry.1, f entry.2)

@[simp] theorem lookup_mapBindings
    (bindings : List (String × α))
    (name : String) :
    (mapBindings f bindings).lookup name = (bindings.lookup name).map f := by
  induction bindings with
  | nil =>
      rfl
  | cons entry rest ih =>
      obtain ⟨key, value⟩ := entry
      unfold mapBindings at ih ⊢
      simp only [List.map_cons, List.lookup_cons, ih]
      cases name == key <;> rfl

theorem putBinding_mapBindings
    (name : String)
    (value : α)
    (bindings : List (String × α)) :
    putBinding name (f value) (mapBindings f bindings) =
      mapBindings f (putBinding name value bindings) := by
  induction bindings with
  | nil =>
      rfl
  | cons entry rest ih =>
      unfold mapBindings at ih ⊢
      by_cases h : entry.1 = name
      · simp [putBinding, h]
      · simp [putBinding, h, ih]

end Bindings

/-- A closure whose code has no lines. -/
def Closure.unlined (closure : Closure) : Closure :=
  { closure with decl := closure.decl.unlined }

namespace Class

/-- A class whose methods have no lines. -/
def unlined : Class → Class
  | .mk identity name none methods =>
      .mk identity name none (mapBindings Closure.unlined methods)
  | .mk identity name (some parent) methods =>
      .mk identity name (some (unlined parent)) (mapBindings Closure.unlined methods)

theorem unlined_mk
    (identity : Nat)
    (name : String)
    (superclass : Option Class)
    (methods : List (String × Closure)) :
    unlined (.mk identity name superclass methods) =
      .mk identity name (superclass.map unlined) (mapBindings Closure.unlined methods) := by
  cases superclass <;> rfl

@[simp] theorem identity_unlined (c : Class) : c.unlined.identity = c.identity := by
  obtain ⟨_, _, superclass, _⟩ := c
  cases superclass <;> rfl

@[simp] theorem name_unlined (c : Class) : c.unlined.name = c.name := by
  obtain ⟨_, _, superclass, _⟩ := c
  cases superclass <;> rfl

@[simp] theorem findMethod?_unlined
    (method : String) :
    ∀ c : Class, c.unlined.findMethod? method = (c.findMethod? method).map Closure.unlined
  | .mk _ _ none methods => lookup_mapBindings Closure.unlined methods method
  | .mk _ _ (some parent) methods => by
      simp only [unlined, findMethod?, lookup_mapBindings, findMethod?_unlined method parent]
      cases methods.lookup method <;> rfl

@[simp] theorem arity_unlined
    (initializer : String)
    (c : Class) :
    c.unlined.arity initializer = c.arity initializer := by
  unfold arity
  rw [findMethod?_unlined]
  cases c.findMethod? initializer with
  | none =>
      rfl
  | some closure =>
      exact closure.decl.arity_unlined

end Class

/-- A value that holds no lines. -/
def Value.unlined : Value → Value
  | .function identity closure => .function identity closure.unlined
  | .cls c => .cls c.unlined
  | value => value

/-- An object that holds no lines. -/
def Instance.unlined (o : Instance) : Instance :=
  ⟨o.cls.unlined, mapBindings Value.unlined o.fields⟩

/-- A frame that holds no lines. -/
def Frame.unlined (f : Frame) : Frame :=
  ⟨mapBindings Value.unlined f.bindings, f.enclosing⟩

/-- Frames that hold no lines. -/
def Frames.unlined (fs : Frames) : Frames :=
  ⟨fs.frames.map Frame.unlined⟩

/-- A machine that holds no lines. -/
def Machine.unlined (m : Machine) : Machine :=
  { m with frames := m.frames.unlined, objects := m.objects.map Instance.unlined }

/-- A runtime error at a token without a line. -/
def RuntimeError.unlined (e : RuntimeError) : RuntimeError :=
  ⟨e.found.unlined, e.fault⟩

namespace Frames

variable (fs : Frames)

@[simp] theorem size_unlined : fs.unlined.size = fs.size := by
  simp [unlined, size]

@[simp] theorem lookup?_unlined
    (frame : Nat)
    (name : String) :
    fs.unlined.lookup? frame name = (fs.lookup? frame name).map Value.unlined := by
  simp only [lookup?, unlined, Array.getElem?_map]
  cases fs.frames[frame]? with
  | none =>
      rfl
  | some f =>
      exact lookup_mapBindings Value.unlined f.bindings name

@[simp] theorem enclosing?_unlined (frame : Nat) :
    fs.unlined.enclosing? frame = fs.enclosing? frame := by
  simp only [enclosing?, unlined, Array.getElem?_map]
  cases fs.frames[frame]? <;> rfl

theorem push_unlined (outer : Nat) : fs.unlined.push outer = (fs.push outer).unlined := by
  simp [push, unlined, Frame.unlined, mapBindings]

theorem define_unlined
    (frame : Nat)
    (name : String)
    (value : Value) :
    fs.unlined.define frame name value.unlined = (fs.define frame name value).unlined := by
  simp only [define, unlined]
  congr 1
  apply Array.ext
  · simp
  · intro i h₁ h₂
    simp only [Array.getElem_modify, Array.getElem_map]
    split
    · simp only [Frame.unlined, putBinding_mapBindings]
    · rfl

@[simp] theorem outward?_unlined
    (distance frame : Nat) :
    fs.unlined.outward? distance frame = fs.outward? distance frame := by
  induction distance generalizing frame with
  | zero =>
      rfl
  | succ distance ih =>
      simp only [outward?, enclosing?_unlined, ih]

@[simp] theorem getAt?_unlined
    (frame distance : Nat)
    (name : String) :
    fs.unlined.getAt? frame distance name = (fs.getAt? frame distance name).map Value.unlined := by
  simp only [getAt?, outward?_unlined, lookup?_unlined]
  cases fs.outward? distance frame <;> rfl

theorem holderWithin?_unlined
    (name : String)
    (count frame : Nat) :
    fs.unlined.holderWithin? name count frame = fs.holderWithin? name count frame := by
  induction count generalizing frame with
  | zero =>
      rfl
  | succ count ih =>
      simp only [holderWithin?, lookup?_unlined, enclosing?_unlined, ih]
      cases fs.lookup? frame name <;> rfl

@[simp] theorem holder?_unlined
    (frame : Nat)
    (name : String) :
    fs.unlined.holder? frame name = fs.holder? frame name := by
  rw [holder?, holder?, size_unlined, holderWithin?_unlined]

@[simp] theorem get?_unlined
    (frame : Nat)
    (name : String) :
    fs.unlined.get? frame name = (fs.get? frame name).map Value.unlined := by
  simp only [get?, holder?_unlined, lookup?_unlined]
  cases fs.holder? frame name <;> rfl

end Frames

theorem Instance.setField_unlined
    (o : Instance)
    (name : String)
    (value : Value) :
    o.unlined.setField name value.unlined = (o.setField name value).unlined := by
  simp only [setField, unlined, putBinding_mapBindings]

namespace Value

variable (objects : Array Instance)

@[simp] theorem ofLiteral_unlined (value : Literal) : (ofLiteral value).unlined = ofLiteral value := by
  cases value <;> rfl

@[simp] theorem isTruthy_unlined (value : Value) : value.unlined.isTruthy = value.isTruthy := by
  cases value <;> rfl

@[simp] theorem same_unlined (a b : Value) : a.unlined.same b.unlined = a.same b := by
  cases a with
  | cls c =>
      cases b with
      | cls d =>
          simp only [unlined, same, Class.identity_unlined]
      | _ =>
          rfl
  | _ =>
      cases b <;> rfl

/-- Values are printed without lines. -/
@[simp] theorem display_unlined (value : Value) :
    value.unlined.display (objects.map Instance.unlined) = value.display objects := by
  cases value with
  | function identity closure =>
      simp only [unlined, display, Closure.unlined, FunctionDecl.name_unlined,
        Token.lexeme_unlined]
  | cls c =>
      exact c.name_unlined
  | object place =>
      simp only [unlined, display, Array.getElem?_map]
      cases objects[place]? with
      | none =>
          rfl
      | some o =>
          simp only [Option.map_some, Instance.unlined, Class.name_unlined]
  | bool b =>
      cases b <;> rfl
  | _ =>
      rfl

end Value

namespace Operator

variable (objects : Array Instance)
variable (operator : Token)

theorem decides_unlined (left : Value) :
    decides operator.unlined left.unlined = decides operator left := by
  simp only [decides, Token.kind_unlined, Value.isTruthy_unlined]

theorem unary_unlined (right : Value) :
    unary operator.unlined right.unlined = unary operator right := by
  obtain ⟨kind, lexeme, line⟩ := operator
  cases kind with
  | punct mark =>
      cases right <;> cases mark <;> rfl
  | _ =>
      rfl

theorem add_unlined (left right : Value) :
    add (objects.map Instance.unlined) left.unlined right.unlined = add objects left right := by
  have hleft := left.display_unlined objects
  have hright := right.display_unlined objects
  cases right with
  | string b =>
      cases left with
      | string a =>
          rfl
      | _ =>
          simp only [Value.unlined] at hleft
          simp only [Value.unlined, add, hleft]
  | _ =>
      cases left with
      | string a =>
          simp only [Value.unlined] at hright
          simp only [Value.unlined, add, hright]
      | _ =>
          rfl

theorem binary_unlined (left right : Value) :
    binary (objects.map Instance.unlined) operator.unlined left.unlined right.unlined =
      binary objects operator left right := by
  unfold binary
  rw [add_unlined, Value.same_unlined, Token.kind_unlined, Token.lexeme_unlined]
  split
  · rfl
  · rfl
  · rfl
  · cases left with
    | number a =>
        cases right <;> rfl
    | _ =>
        rfl

end Operator

end Lox
