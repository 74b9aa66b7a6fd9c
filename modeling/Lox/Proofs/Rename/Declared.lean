import Lox.Proofs.Rename.Renaming

/-!
# Renamed programs are alike

In a program without faults, the scope of a variable has no function or class of the same name.  So
the program in which the variable is renamed is alike to the old one.
-/

namespace Lox

section Declarations

variable {locals : Locals}
variable {ctx : Context}
variable {scopes : Scopes}

/-- The statement declares the name in the scope around it. -/
def Stmt.Declares (name : String) : Stmt → Prop
  | .var token _ => token.lexeme = name
  | .function decl => decl.name.lexeme = name
  | .classDecl token _ _ => token.lexeme = name
  | _ => False

theorem Stmt.spares_of_branch
    (name : String) :
    ∀ s : Stmt, s.Shaped → s.isBranch = true → s.Spares name
  | .expression _, _, _ => trivial
  | .print _, _, _ => trivial
  | .block _, _, _ => trivial
  | .ret _ _, _, _ => trivial
  | .ifThen _ thenBranch, hshaped, _ =>
      spares_of_branch name thenBranch hshaped.2.2 hshaped.2.1
  | .ifElse _ thenBranch elseBranch, hshaped, _ =>
      ⟨spares_of_branch name thenBranch hshaped.2.2.1 hshaped.2.1,
        spares_of_branch name elseBranch hshaped.2.2.2.2 hshaped.2.2.2.1⟩
  | .loop _ body, hshaped, _ => spares_of_branch name body hshaped.2.2 hshaped.2.1
  | .var _ _, _, hbranch => by
      cases hbranch
  | .function _, _, hbranch => by
      cases hbranch
  | .classDecl _ _ _, _, hbranch => by
      cases hbranch

/-- A statement that declares no name spares it. -/
theorem Stmt.spares_of_not_declares
    {name : String}
    {s : Stmt}
    (hshaped : s.Shaped)
    (h : ¬ s.Declares name) :
    s.Spares name := by
  cases s with
  | function decl =>
      exact h
  | classDecl token superclass methods =>
      exact h
  | var token initializer =>
      trivial
  | _ =>
      exact spares_of_branch name _ hshaped rfl

theorem Stmt.self_mem_visits
    (ctx : Context)
    (scopes : Scopes)
    (s : Stmt) :
    ⟨ctx, scopes, .stmt s⟩ ∈ s.visits ctx scopes := by
  cases s with
  | classDecl name superclass methods =>
      cases superclass <;> exact List.mem_cons_self
  | _ =>
      exact List.mem_cons_self

/-- What is declared was not in the innermost scope. -/
theorem Visit.Good.innermost_of_declares
    {s : Stmt}
    {name : String}
    (hgood : Visit.Good locals ⟨ctx, scopes, .stmt s⟩)
    (h : s.Declares name) :
    scopes.innermost? name = none := by
  cases s with
  | var token initializer =>
      rw [← show token.lexeme = name from h]
      exact hgood.varDecl.2
  | function decl =>
      rw [← show decl.name.lexeme = name from h]
      exact hgood.function.2
  | classDecl token superclass methods =>
      rw [← show token.lexeme = name from h]
      exact hgood.classDecl.2
  | _ =>
      exact h.elim

theorem Scopes.innermost?_add
    (scopes : Scopes)
    (name other : String)
    (readable : Bool)
    (h : (scopes.innermost? other).isSome = true) :
    ((scopes.add name readable).innermost? other).isSome = true := by
  cases scopes with
  | nil =>
      cases h
  | cons scope outer =>
      by_cases hname : other = name
      · subst hname
        simp [Scopes.add, Scopes.innermost?]
      · simpa only [Scopes.add, Scopes.innermost?, Scopes.lookup_cons_of_ne hname] using h

/-- What a scope has, it keeps. -/
theorem Stmt.innermost?_resolve
    (name : String)
    (ctx : Context) :
    ∀ (s : Stmt) (scopes : Scopes), (scopes.innermost? name).isSome = true →
      ((s.resolve ctx scopes).1.innermost? name).isSome = true
  | .expression _, _, h => h
  | .print _, _, h => h
  | .var _ _, scopes, h => Scopes.innermost?_add _ _ _ _ (Scopes.innermost?_add scopes _ _ _ h)
  | .block _, _, h => h
  | .ifThen _ thenBranch, scopes, h => innermost?_resolve name ctx thenBranch scopes h
  | .ifElse _ thenBranch elseBranch, scopes, h =>
      innermost?_resolve name ctx elseBranch _ (innermost?_resolve name ctx thenBranch scopes h)
  | .loop _ body, scopes, h => innermost?_resolve name ctx body scopes h
  | .function _, scopes, h => Scopes.innermost?_add _ _ _ _ (Scopes.innermost?_add scopes _ _ _ h)
  | .ret _ _, _, h => h
  | .classDecl _ none _, scopes, h =>
      Scopes.innermost?_add _ _ _ _ (Scopes.innermost?_add scopes _ _ _ h)
  | .classDecl _ (some _) _, scopes, h =>
      Scopes.innermost?_add _ _ _ _ (Scopes.innermost?_add scopes _ _ _ h)

theorem Stmt.length_resolve
    (ctx : Context) :
    ∀ (s : Stmt) (scopes : Scopes), (s.resolve ctx scopes).1.length = scopes.length
  | .expression _, _ => rfl
  | .print _, _ => rfl
  | .var _ _, scopes => by
      simp only [Stmt.resolve, Scopes.define, Scopes.declare, Scopes.length_add]
  | .block _, _ => rfl
  | .ifThen _ thenBranch, scopes => length_resolve ctx thenBranch scopes
  | .ifElse _ thenBranch elseBranch, scopes => by
      simp only [Stmt.resolve, length_resolve ctx elseBranch, length_resolve ctx thenBranch]
  | .loop _ body, scopes => length_resolve ctx body scopes
  | .function _, scopes => by
      simp only [Stmt.resolve, Scopes.define, Scopes.declare, Scopes.length_add]
  | .ret _ _, _ => rfl
  | .classDecl _ none _, scopes => by
      simp only [Stmt.resolve, Scopes.define, Scopes.declare, Scopes.length_add]
  | .classDecl _ (some _) _, scopes => by
      simp only [Stmt.resolve, Scopes.define, Scopes.declare, Scopes.length_add]

/-- A statement among others is visited with them. -/
theorem Stmt.visits_of_mem
    {body : List Stmt}
    {s : Stmt}
    (h : s ∈ body)
    (ctx : Context)
    (scopes : Scopes) :
    ∃ inner : Scopes, ∀ v ∈ s.visits ctx inner, v ∈ Stmt.visitsAll ctx scopes body := by
  induction body generalizing scopes with
  | nil =>
      cases h
  | cons first rest ih =>
      rcases List.mem_cons.mp h with rfl | h
      · exact ⟨scopes, fun v hv => List.mem_append_left _ hv⟩
      · obtain ⟨inner, hinner⟩ := ih h (first.resolve ctx scopes).1
        exact ⟨inner, fun v hv => List.mem_append_right _ (hinner v hv)⟩

/-- A method is visited with its class. -/
theorem Stmt.visits_of_method
    (ctx : Context)
    (scopes : Scopes)
    (name : Token)
    (superclass : Option Expr)
    {methods : List FunctionDecl}
    {decl : FunctionDecl}
    (h : decl ∈ methods) :
    ∃ (inside : Context) (around : Scopes), ∀ v ∈ Stmt.visitsFunction inside around decl,
      v ∈ (Stmt.classDecl name superclass methods).visits ctx scopes := by
  cases superclass with
  | none =>
      exact ⟨_, _, fun v hv => List.mem_cons_of_mem _ (visitsFunction_of_mem h v hv)⟩
  | some superclass =>
      exact ⟨_, _, fun v hv => List.mem_cons_of_mem _
        (List.mem_append_right _ (visitsFunction_of_mem h v hv))⟩

theorem Stmt.shaped_of_mem
    {body : List Stmt}
    (hgood : ∀ v ∈ Stmt.visitsAll ctx scopes body, v.Good locals) :
    ∀ s ∈ body, s.Shaped := by
  intro s hs
  obtain ⟨inner, hinner⟩ := visits_of_mem hs ctx scopes
  exact (hgood _ (hinner _ (self_mem_visits ctx inner s))).shaped

/-- What a statement declares, the scope has behind it. -/
theorem Stmt.innermost?_of_declares
    {s : Stmt}
    {name : String}
    (hopen : scopes ≠ [])
    (h : s.Declares name) :
    ((s.resolve ctx scopes).1.innermost? name).isSome = true := by
  obtain ⟨scope, outer, rfl⟩ := List.exists_cons_of_ne_nil hopen
  cases s with
  | var token initializer =>
      cases h
      simp [Stmt.resolve, Scopes.define, Scopes.declare, Scopes.add, Scopes.innermost?]
  | function decl =>
      cases h
      simp [Stmt.resolve, Scopes.define, Scopes.declare, Scopes.add, Scopes.innermost?]
  | classDecl token superclass methods =>
      cases h
      cases superclass <;>
        simp [Stmt.resolve, Scopes.define, Scopes.declare, Scopes.add, Scopes.innermost?]
  | _ =>
      exact h.elim

/-- Nothing is declared that the scope has already. -/
theorem not_declares_of_innermost
    {name : String}
    {body : List Stmt}
    (hgood : ∀ v ∈ Stmt.visitsAll ctx scopes body, v.Good locals)
    (h : (scopes.innermost? name).isSome = true) :
    ∀ s ∈ body, ¬ s.Declares name := by
  induction body generalizing scopes with
  | nil =>
      simp
  | cons s rest ih =>
      intro s' hs' hdeclares
      rcases List.mem_cons.mp hs' with rfl | hs'
      · have hvisit := hgood _ (List.mem_append_left _ (Stmt.self_mem_visits ctx scopes s'))
        rw [hvisit.innermost_of_declares hdeclares] at h
        cases h
      · exact ih (fun v hv => hgood v (List.mem_append_right _ hv))
          (Stmt.innermost?_resolve name ctx s scopes h) s' hs' hdeclares

theorem spares_of_innermost
    {name : String}
    {body : List Stmt}
    (hgood : ∀ v ∈ Stmt.visitsAll ctx scopes body, v.Good locals)
    (h : (scopes.innermost? name).isSome = true) :
    ∀ s ∈ body, s.Spares name :=
  fun s hs => Stmt.spares_of_not_declares (Stmt.shaped_of_mem hgood s hs)
    (not_declares_of_innermost hgood h s hs)

/-- The name of a variable is neither `this` nor `super`. -/
theorem ordinary_of_declaresVariable
    {name : String}
    {body : List Stmt}
    (hgood : ∀ v ∈ Stmt.visitsAll ctx scopes body, v.Good locals)
    (h : Stmt.DeclaresVariable name body) :
    Ordinary name := by
  obtain ⟨token, initializer, hvar, rfl⟩ := h
  obtain ⟨inner, hinner⟩ := Stmt.visits_of_mem hvar ctx scopes
  exact (hgood _ (hinner _ (Stmt.self_mem_visits ctx inner _))).varDecl.1

/-- Next to a variable, no function and no class of its name is declared. -/
theorem spares_of_declaresVariable
    {name : String}
    {body : List Stmt}
    (hgood : ∀ v ∈ Stmt.visitsAll ctx scopes body, v.Good locals)
    (hopen : scopes ≠ [])
    (h : Stmt.DeclaresVariable name body) :
    ∀ s ∈ body, s.Spares name := by
  obtain ⟨token, initializer, hvar, hlexeme⟩ := h
  induction body generalizing scopes with
  | nil =>
      cases hvar
  | cons s rest ih =>
      have hshaped := Stmt.shaped_of_mem hgood s List.mem_cons_self
      have hrest : ∀ v ∈ Stmt.visitsAll ctx (s.resolve ctx scopes).1 rest, v.Good locals :=
        fun v hv => hgood v (List.mem_append_right _ hv)
      have hopen' : (s.resolve ctx scopes).1 ≠ [] := by
        rw [← List.length_pos_iff, Stmt.length_resolve]
        exact List.length_pos_iff.mpr hopen
      intro t ht
      by_cases hs : s.Declares name
      · -- The first declaration of the name is the only one, so it is the variable.
        have hinner : ((s.resolve ctx scopes).1.innermost? name).isSome = true :=
          Stmt.innermost?_of_declares hopen hs
        have hsvar : s = .var token initializer := by
          rcases List.mem_cons.mp hvar with hvar | hvar
          · exact hvar.symm
          · exact absurd hlexeme (not_declares_of_innermost hrest hinner _ hvar)
        rcases List.mem_cons.mp ht with rfl | ht
        · rw [hsvar]
          trivial
        · exact spares_of_innermost hrest hinner t ht
      · rcases List.mem_cons.mp ht with rfl | ht
        · exact Stmt.spares_of_not_declares hshaped hs
        · have hvar' : .var token initializer ∈ rest := by
            rcases List.mem_cons.mp hvar with rfl | hvar
            · exact absurd hlexeme hs
            · exact hvar
          exact ih hrest hopen' hvar' t ht

theorem Scopes.innermost?_declareParams
    {name : String}
    {scope : Scope}
    {outer : Scopes}
    {params : List Token}
    (h : (∃ p ∈ params, p.lexeme = name) ∨ (scope.lookup name).isSome = true) :
    ((Scopes.declareParams (scope :: outer) params).innermost? name).isSome = true := by
  induction params generalizing scope with
  | nil =>
      simpa [Scopes.declareParams, Scopes.innermost?] using h
  | cons p rest ih =>
      apply ih
      by_cases hp : name = p.lexeme
      · subst hp
        exact .inr (by simp)
      · rw [Scopes.lookup_cons_of_ne hp]
        refine h.imp ?_ id
        rintro ⟨q, hq, hname⟩
        rcases List.mem_cons.mp hq with rfl | hq
        · exact absurd hname.symm hp
        · exact ⟨q, hq, hname⟩

theorem Scopes.length_declareParams
    (scopes : Scopes)
    (params : List Token) :
    (scopes.declareParams params).length = scopes.length := by
  induction params generalizing scopes with
  | nil =>
      rfl
  | cons p rest ih =>
      rw [Scopes.declareParams, ih, Scopes.define, Scopes.length_add]

end Declarations

section Split

variable {ρ : Renaming}
variable {ctx : Context}
variable {scopes : Scopes}

theorem alikeAll_append
    {place : Place}
    {first first' second second' : List Stmt}
    (hfirst : AlikeAll ρ place first first')
    (hsecond : AlikeAll ρ place second second') :
    AlikeAll ρ place (first ++ second) (first' ++ second') := by
  induction first generalizing first' with
  | nil =>
      cases hfirst
      exact hsecond
  | cons s rest ih =>
      cases hfirst with
      | cons hs hrest =>
          exact .cons hs (ih hrest)

theorem alikeMethods_append
    {place : Place}
    {first first' second second' : List FunctionDecl}
    (hfirst : AlikeMethods ρ place first first')
    (hsecond : AlikeMethods ρ place second second') :
    AlikeMethods ρ place (first ++ second) (first' ++ second') := by
  induction first generalizing first' with
  | nil =>
      cases hfirst
      exact hsecond
  | cons f rest ih =>
      cases hfirst with
      | cons hopens hf hrest =>
          exact .cons hopens hf (ih hrest)

mutual

/-- Renaming one declaration of a program without faults makes a program alike to it. -/
theorem Renames.alike :
    ∀ {ctx : Context} {scopes : Scopes} {s s' : Stmt}, Stmt.Renames ρ s s' →
      (∀ v ∈ s.visits ctx scopes, v.Good ρ.locals) → Ordinary ρ.old ∧ Alike ρ none s s'
  | ctx, scopes, .block body, _, .block hdeclares, hgood => by
      have hbody : ∀ v ∈ Stmt.visitsAll ctx ([] :: scopes) body, v.Good ρ.locals :=
        fun v hv => hgood v (List.mem_cons_of_mem _ hv)
      refine ⟨ordinary_of_declaresVariable hbody hdeclares, ?_⟩
      refine .block (.inr ⟨rfl, rfl⟩) (alike_renameAll ρ (some 0) _ fun _ => ?_)
      exact spares_of_declaresVariable hbody (List.cons_ne_nil _ _) hdeclares
  | _, _, _, _, .inBlock hbody, hgood => by
      obtain ⟨hold, h⟩ := RenamesIn.alike hbody fun v hv => hgood v (List.mem_cons_of_mem _ hv)
      exact ⟨hold, .block (.inl rfl) h⟩
  | _, _, _, _, .inThen hthen, hgood => by
      obtain ⟨hold, h⟩ := Renames.alike hthen fun v hv =>
        hgood v (List.mem_cons_of_mem _ (List.mem_append_right _ hv))
      refine ⟨hold, ?_⟩
      simpa only [rename_none] using Alike.ifThen _ h
  | _, _, _, _, .inThenElse hthen, hgood => by
      obtain ⟨hold, h⟩ := Renames.alike hthen fun v hv =>
        hgood v (List.mem_cons_of_mem _ (List.mem_append_right _ (List.mem_append_left _ hv)))
      refine ⟨hold, ?_⟩
      simpa only [rename_none] using Alike.ifElse _ h (alike_self ρ _)
  | _, _, _, _, .inElse helse, hgood => by
      obtain ⟨hold, h⟩ := Renames.alike helse fun v hv =>
        hgood v (List.mem_cons_of_mem _ (List.mem_append_right _ (List.mem_append_right _ hv)))
      refine ⟨hold, ?_⟩
      simpa only [rename_none] using Alike.ifElse _ (alike_self ρ _) h
  | _, _, _, _, .inLoop hbody, hgood => by
      obtain ⟨hold, h⟩ := Renames.alike hbody fun v hv =>
        hgood v (List.mem_cons_of_mem _ (List.mem_append_right _ hv))
      refine ⟨hold, ?_⟩
      simpa only [rename_none] using Alike.loop _ h
  | _, _, _, _, .inFunction hdecl, hgood => by
      obtain ⟨hold, inner, hopens, h⟩ := RenamesFunction.alike hdecl fun v hv =>
        hgood v (List.mem_cons_of_mem _ hv)
      exact ⟨hold, .function (by simp) hopens h⟩
  | _, _, _, _, .inMethod name superclass before after hmethod, hgood => by
      obtain ⟨inside, around, hvisits⟩ := Stmt.visits_of_method _ _ name superclass
        (List.mem_append_right before List.mem_cons_self)
      obtain ⟨hold, inner, hopens, h⟩ :=
        RenamesFunction.alike hmethod fun v hv => hgood v (hvisits v hv)
      have hmethods := alikeMethods_append (alike_selfMethods ρ before)
        (.cons hopens h (alike_selfMethods ρ after))
      rw [← Place.inClass_none superclass.isSome] at hmethods
      refine ⟨hold, ?_⟩
      simpa only [renameOption_none] using Alike.classDecl superclass (by simp) hmethods

theorem RenamesIn.alike :
    ∀ {ctx : Context} {scopes : Scopes} {body body' : List Stmt}, Stmt.RenamesIn ρ body body' →
      (∀ v ∈ Stmt.visitsAll ctx scopes body, v.Good ρ.locals) →
      Ordinary ρ.old ∧ AlikeAll ρ none body body'
  | ctx, scopes, _, _, .mk hstmt, hgood => by
      obtain ⟨inner, hinner⟩ := Stmt.visits_of_mem (List.mem_append_right _ List.mem_cons_self)
        ctx scopes
      obtain ⟨hold, h⟩ := Renames.alike hstmt fun v hv => hgood v (hinner v hv)
      exact ⟨hold, alikeAll_append (alike_selfAll ρ _) (.cons h (alike_selfAll ρ _))⟩

theorem RenamesFunction.alike :
    ∀ {ctx : Context} {scopes : Scopes} {decl decl' : FunctionDecl},
      Stmt.RenamesFunction ρ decl decl' →
      (∀ v ∈ Stmt.visitsFunction ctx scopes decl, v.Good ρ.locals) →
      Ordinary ρ.old ∧ ∃ inner, Place.Opens none inner ∧ AlikeFunction ρ inner decl decl'
  | ctx, scopes, .mk name params body, _, .here hdeclares, hgood => by
      have hbody : ∀ v ∈ Stmt.visitsAll ctx (Scopes.declareParams ([] :: scopes) params) body,
          v.Good ρ.locals :=
        fun v hv => hgood v (List.mem_cons_of_mem _ hv)
      have halike (hspares : ∀ s ∈ body, s.Spares ρ.old) :=
        alike_renameFunction ρ (some 0) (.mk name params body) fun _ => hspares
      rcases hdeclares with ⟨p, hp, hlexeme⟩ | hvar
      · refine ⟨?_, some 0, .inr ⟨rfl, rfl⟩, halike ?_⟩
        · rw [← hlexeme]
          exact (hgood _ List.mem_cons_self).params p hp
        · exact spares_of_innermost hbody
            (Scopes.innermost?_declareParams (.inl ⟨p, hp, hlexeme⟩))
      · refine ⟨ordinary_of_declaresVariable hbody hvar, some 0, .inr ⟨rfl, rfl⟩, halike ?_⟩
        refine spares_of_declaresVariable hbody ?_ hvar
        rw [← List.length_pos_iff, Scopes.length_declareParams]
        exact Nat.succ_pos _
  | _, _, _, _, .inBody hbody, hgood => by
      obtain ⟨hold, h⟩ := RenamesIn.alike hbody fun v hv => hgood v (List.mem_cons_of_mem _ hv)
      refine ⟨hold, none, .inl rfl, ?_⟩
      simpa only [ρ.map_declared_none] using AlikeFunction.mk _ _ h

end

end Split

end Lox
