import Lox.Proofs.Grammar.WellFormed
import Lox.Proofs.Scope.Placed
import Lox.Proofs.Scope.Table
import Lox.Proofs.Tree.Equality
import Lox.Session
import Mathlib.Data.List.Flatten
import Mathlib.Data.List.Nodup
import Mathlib.Data.List.Pairwise

/-!
# Accepted programs

What is known of the visits of name resolution in a program in which no phase finds a fault.
`Visit.Good` says it for all nodes at once: nothing is wrong at the node, and the table holds for
its reference what its scopes say.  For single nodes it follows that what is read can be read, that
`this` and `super` stand where their scopes are open, and that nothing is declared twice.
-/

namespace Lox

/-- What is known of a visit in a program without faults. -/
structure Visit.Good (locals : Locals) (v : Visit) : Prop extends v.Placed Token.Worded where
  sound : ∀ error, .fault error ∉ v.findings
  filed : ∀ id ∈ v.ids, ∀ d, locals.get? id = some d ↔ .bound id d ∈ v.findings

section Filed

/-- The entry that a finding makes. -/
def Finding.entry? : Finding → Option (Nat × Nat)
  | .bound id distance => some (id, distance)
  | .fault _ => none

theorem locals_ofFindings
    (findings : List Finding) :
    (Resolution.ofFindings findings).locals = .ofPairs (findings.filterMap Finding.entry?) := by
  unfold Resolution.ofFindings
  congr 2

theorem mem_entries
    {findings : List Finding}
    {id d : Nat} :
    (id, d) ∈ findings.filterMap Finding.entry? ↔ .bound id d ∈ findings := by
  rw [List.mem_filterMap]
  constructor
  · rintro ⟨finding, hmem, hentry⟩
    cases finding with
    | bound id' d' =>
        cases hentry
        exact hmem
    | fault error =>
        cases hentry
  · intro hmem
    exact ⟨_, hmem, rfl⟩

theorem entries_binding
    (scopes : Scopes)
    (id : Nat)
    (name : Token) :
    (((scopes.binding id name).filterMap Finding.entry?).map Prod.fst).Sublist [id] := by
  unfold Scopes.binding
  split <;> simp [Finding.entry?]

theorem entries_clash
    (scopes : Scopes)
    (name : Token) :
    (scopes.clash name).filterMap Finding.entry? = [] := by
  unfold Scopes.clash
  split <;> simp [Finding.entry?]

theorem entries_paramClashes
    (scopes : Scopes)
    (params : List Token) :
    (Scopes.paramClashes scopes params).filterMap Finding.entry? = [] := by
  induction params generalizing scopes with
  | nil =>
      rfl
  | cons p rest ih =>
      rw [Scopes.paramClashes, List.filterMap_append, entries_clash, ih]
      rfl

/-- A visit files at most its own reference. -/
theorem Visit.entries_sublist
    (v : Visit) :
    ((v.findings.filterMap Finding.entry?).map Prod.fst).Sublist v.ids := by
  obtain ⟨ctx, scopes, node⟩ := v
  cases node with
  | expr e =>
      cases e with
      | var id name =>
          have hread : (scopes.unreadable name).filterMap Finding.entry? = [] := by
            unfold Scopes.unreadable
            split <;> simp [Finding.entry?]
          simp only [findings, ids, Expr.findings, List.filterMap_append, hread, List.nil_append]
          exact entries_binding scopes id name
      | assign id name value =>
          exact entries_binding scopes id name
      | this id keyword =>
          simp only [findings, ids, Expr.findings]
          split
          · simp [Finding.entry?]
          · exact entries_binding scopes id keyword
      | super id keyword method =>
          simp only [findings, ids, Expr.findings, List.filterMap_append, List.map_append]
          split
          · exact entries_binding scopes id keyword
          · exact entries_binding scopes id keyword
          · exact entries_binding scopes id keyword
      | _ =>
          simp [findings, ids]
  | stmt s =>
      cases s with
      | var name initializer =>
          simp [findings, ids, entries_clash]
      | function decl =>
          simp [findings, ids, entries_clash]
      | ret keyword value =>
          simp only [findings, ids, returnFaults]
          split <;> split <;> simp [Finding.entry?]
      | classDecl name superclass methods =>
          cases superclass with
          | none =>
              simp [findings, ids, entries_clash]
          | some superclass =>
              simp only [findings, ids, List.filterMap_append, entries_clash, selfInheritance]
              split
              · split <;> simp [Finding.entry?]
              · simp
      | _ =>
          simp [findings, ids]
  | function decl =>
      simp [findings, ids, entries_paramClashes]

theorem Visit.mem_ids_of_bound
    {v : Visit}
    {id d : Nat}
    (h : .bound id d ∈ v.findings) :
    id ∈ v.ids :=
  v.entries_sublist.subset (List.mem_map_of_mem (mem_entries.mpr h))

/-- In a walk whose references have different numbers, a number tells the visit. -/
theorem visit_unique
    {visits : List Visit}
    (hnodup : (visits.flatMap Visit.ids).Nodup)
    {v w : Visit}
    (hv : v ∈ visits)
    (hw : w ∈ visits)
    {id : Nat}
    (hidv : id ∈ v.ids)
    (hidw : id ∈ w.ids) :
    v = w := by
  apply Classical.byContradiction
  intro hne
  have hpairs := (List.nodup_flatMap.mp hnodup).2
  have : Std.Symm (Function.onFun List.Disjoint Visit.ids) := ⟨fun _ _ h _ ha hb => h hb ha⟩
  have hdisjoint := hpairs.forall hv hw hne
  exact hdisjoint hidv hidw

/-- In a walk whose references have different numbers, each number is filed once. -/
theorem nodup_entries
    {visits : List Visit}
    (hnodup : (visits.flatMap Visit.ids).Nodup) :
    (((visits.flatMap Visit.findings).filterMap Finding.entry?).map Prod.fst).Nodup := by
  refine hnodup.sublist ?_
  rw [List.filterMap_flatMap, List.map_flatMap]
  exact List.Sublist.flatMap_right visits fun v _ => v.entries_sublist

/-- What is found for a number is found where it is visited. -/
theorem bound_mem_flatMap_iff
    {visits : List Visit}
    (hnodup : (visits.flatMap Visit.ids).Nodup)
    {v : Visit}
    (hv : v ∈ visits)
    {id : Nat}
    (hid : id ∈ v.ids)
    (d : Nat) :
    .bound id d ∈ visits.flatMap Visit.findings ↔ .bound id d ∈ v.findings := by
  rw [List.mem_flatMap]
  constructor
  · rintro ⟨w, hw, hbound⟩
    rw [visit_unique hnodup hv hw hid (Visit.mem_ids_of_bound hbound)]
    exact hbound
  · intro hbound
    exact ⟨v, hv, hbound⟩

/-- Each reference finds in the table what its visit files. -/
theorem filed_of_nodup
    {visits : List Visit}
    (hnodup : (visits.flatMap Visit.ids).Nodup)
    {v : Visit}
    (hv : v ∈ visits)
    {id : Nat}
    (hid : id ∈ v.ids)
    (d : Nat) :
    (Resolution.ofFindings (visits.flatMap Visit.findings)).locals.get? id = some d ↔
      .bound id d ∈ v.findings := by
  rw [locals_ofFindings, Locals.get?_ofPairs (nodup_entries hnodup), mem_entries,
    bound_mem_flatMap_iff hnodup hv hid]

end Filed

section Nodes

namespace Scopes

theorem mem_binding
    {scopes : Scopes}
    {id d : Nat}
    {name : Token} :
    .bound id d ∈ scopes.binding id name ↔ scopes.distance? name.lexeme = some d := by
  unfold binding
  cases scopes.distance? name.lexeme with
  | none =>
      simp
  | some d' =>
      simp [eq_comm]

theorem not_mem_clash
    (scopes : Scopes)
    (name : Token)
    (h : ∀ error, .fault error ∉ scopes.clash name) :
    scopes.innermost? name.lexeme = none := by
  unfold clash at h
  split at h
  · exact absurd List.mem_cons_self (h _)
  · rename_i hnone
    simpa using hnone

/-- A name that the scopes have can be read where they have it, but for the variable that is being
initialized. -/
theorem readableAt_of_distance?
    {scopes : Scopes}
    {name : String}
    {d : Nat}
    (htidy : scopes.Tidy)
    (hreadable : Ordinary name → scopes.innermost? name ≠ some false)
    (h : scopes.distance? name = some d) :
    scopes.ReadableAt d name := by
  obtain ⟨scope, hscope, hsome⟩ := distance?_spec h
  refine ⟨scope, hscope, ?_⟩
  rcases Option.isSome_iff_exists.mp hsome with ⟨readable, hlookup⟩
  cases readable with
  | true =>
      exact hlookup
  | false =>
      obtain ⟨rfl, hname⟩ := htidy d scope name hscope hlookup
      cases scopes with
      | nil =>
          cases hscope
      | cons innermost outer =>
          cases hscope
          exact absurd hlookup (hreadable hname)

end Scopes

/-- The table has for the reference of a visit what is found there. -/
def Visit.Filed (locals : Locals) (v : Visit) : Prop :=
  ∀ id ∈ v.ids, ∀ d, locals.get? id = some d ↔ .bound id d ∈ v.findings

namespace Visit.Filed

variable {locals : Locals}
variable {ctx : Context}
variable {scopes : Scopes}
variable {id : Nat}
variable {name : Token}

theorem get?_of_mem_iff
    {v : Visit}
    (h : v.Filed locals)
    (hid : id ∈ v.ids)
    (hmem : ∀ d, .bound id d ∈ v.findings ↔ .bound id d ∈ v.scopes.binding id name) :
    locals.get? id = v.scopes.distance? name.lexeme := by
  apply Option.ext
  intro d
  rw [h id hid d, hmem d, Scopes.mem_binding]

theorem var
    (h : Visit.Filed locals ⟨ctx, scopes, .expr (.var id name)⟩) :
    locals.get? id = scopes.distance? name.lexeme := by
  apply h.get?_of_mem_iff List.mem_cons_self
  intro d
  simp only [findings, Expr.findings, List.mem_append, Scopes.unreadable]
  split <;> simp

theorem assign
    {value : Expr}
    (h : Visit.Filed locals ⟨ctx, scopes, .expr (.assign id name value)⟩) :
    locals.get? id = scopes.distance? name.lexeme :=
  h.get?_of_mem_iff List.mem_cons_self fun _ => Iff.rfl

theorem this
    (h : Visit.Filed locals ⟨ctx, scopes, .expr (.this id name)⟩)
    (hctx : ctx.cls ≠ .none) :
    locals.get? id = scopes.distance? name.lexeme := by
  apply h.get?_of_mem_iff List.mem_cons_self
  intro d
  simp only [findings, Expr.findings]

theorem super
    {method : Token}
    (h : Visit.Filed locals ⟨ctx, scopes, .expr (.super id name method)⟩) :
    locals.get? id = scopes.distance? name.lexeme := by
  apply h.get?_of_mem_iff List.mem_cons_self
  intro d
  simp only [findings, Expr.findings, List.mem_append]
  split <;> simp

end Visit.Filed

namespace Visit.Good

variable {locals : Locals}
variable {ctx : Context}
variable {scopes : Scopes}
variable {id : Nat}
variable {name : Token}

theorem var
    (h : Visit.Good locals ⟨ctx, scopes, .expr (.var id name)⟩) :
    Ordinary name.lexeme ∧ locals.get? id = scopes.distance? name.lexeme ∧
      ∀ d, scopes.distance? name.lexeme = some d → scopes.ReadableAt d name.lexeme := by
  refine ⟨ordinary_of_identifier h.shaped (h.kept name List.mem_cons_self), Filed.var h.filed, ?_⟩
  intro d hd
  apply Scopes.readableAt_of_distance? h.tidy _ hd
  intro _ hfalse
  apply h.sound ⟨name, .ownInitializer⟩
  simp [findings, Expr.findings, Scopes.unreadable, hfalse]

theorem assign
    {value : Expr}
    (h : Visit.Good locals ⟨ctx, scopes, .expr (.assign id name value)⟩) :
    Ordinary name.lexeme ∧ locals.get? id = scopes.distance? name.lexeme :=
  ⟨ordinary_of_identifier h.shaped.1 (h.kept name List.mem_cons_self), Filed.assign h.filed⟩

/-- `this` stands in a class. -/
theorem cls_ne_none
    (h : Visit.Good locals ⟨ctx, scopes, .expr (.this id name)⟩) :
    ctx.cls ≠ .none := by
  intro hctx
  apply h.sound ⟨name, .thisOutsideClass⟩
  simp [findings, Expr.findings, hctx]

theorem this
    (h : Visit.Good locals ⟨ctx, scopes, .expr (.this id name)⟩) :
    name.lexeme = "this" ∧ ∃ d, locals.get? id = some d ∧ scopes.distance? "this" = some d ∧
      scopes.ReadableAt d "this" := by
  have hlexeme : name.lexeme = "this" :=
    lexeme_of_keyword h.shaped (h.kept name List.mem_cons_self)
  have hclass := h.inClass rfl
  have hdistance : ∃ d, scopes.distance? "this" = some d := by
    cases hctx : ctx.cls with
    | none =>
        exact absurd hctx h.cls_ne_none
    | plain =>
        rw [hctx] at hclass
        exact hclass
    | derived =>
        rw [hctx] at hclass
        obtain ⟨d, -, hd⟩ := hclass
        exact ⟨d, hd⟩
  obtain ⟨d, hd⟩ := hdistance
  refine ⟨hlexeme, d, ?_, hd, ?_⟩
  · rw [Filed.this h.filed h.cls_ne_none, hlexeme]
    exact hd
  · exact Scopes.readableAt_of_distance? h.tidy (by simp [Ordinary]) hd

theorem super
    {method : Token}
    (h : Visit.Good locals ⟨ctx, scopes, .expr (.super id name method)⟩) :
    name.lexeme = "super" ∧ ∃ d, locals.get? id = some (d + 1) ∧
      scopes.ReadableAt (d + 1) "super" ∧ scopes.ReadableAt d "this" := by
  have hlexeme : name.lexeme = "super" :=
    lexeme_of_keyword h.shaped.1 (h.kept name List.mem_cons_self)
  have hclass := h.inClass rfl
  have hsound := h.sound
  simp only [findings, Expr.findings] at hsound
  cases hctx : ctx.cls with
  | none =>
      rw [hctx] at hsound
      exact absurd (List.mem_append_left _ List.mem_cons_self) (hsound _)
  | plain =>
      rw [hctx] at hsound
      exact absurd (List.mem_append_left _ List.mem_cons_self) (hsound _)
  | derived =>
      rw [hctx] at hclass
      obtain ⟨d, hsuper, hthis⟩ := hclass
      refine ⟨hlexeme, d, ?_, ?_, ?_⟩
      · rw [Filed.super h.filed, hlexeme]
        exact hsuper
      · exact Scopes.readableAt_of_distance? h.tidy (by simp [Ordinary]) hsuper
      · exact Scopes.readableAt_of_distance? h.tidy (by simp [Ordinary]) hthis

theorem varDecl
    {initializer : Option Expr}
    (h : Visit.Good locals ⟨ctx, scopes, .stmt (.var name initializer)⟩) :
    Ordinary name.lexeme ∧ scopes.innermost? name.lexeme = none :=
  ⟨ordinary_of_identifier h.shaped.1 (h.kept name List.mem_cons_self),
    scopes.not_mem_clash name h.sound⟩

theorem function
    {decl : FunctionDecl}
    (h : Visit.Good locals ⟨ctx, scopes, .stmt (.function decl)⟩) :
    Ordinary decl.name.lexeme ∧ scopes.innermost? decl.name.lexeme = none := by
  obtain ⟨name, params, body⟩ := decl
  exact ⟨ordinary_of_identifier h.shaped.1 (h.kept name List.mem_cons_self),
    scopes.not_mem_clash name h.sound⟩

theorem classDecl
    {superclass : Option Expr}
    {methods : List FunctionDecl}
    (h : Visit.Good locals ⟨ctx, scopes, .stmt (.classDecl name superclass methods)⟩) :
    Ordinary name.lexeme ∧ scopes.innermost? name.lexeme = none := by
  refine ⟨ordinary_of_identifier h.shaped.1 (h.kept name List.mem_cons_self),
    scopes.not_mem_clash name ?_⟩
  have hsound := h.sound
  cases superclass with
  | none =>
      exact hsound
  | some superclass =>
      exact fun error herror => hsound error (List.mem_append_left _ herror)

/-- A superclass is a variable, and not the class itself. -/
theorem superclass
    {superclass : Expr}
    {methods : List FunctionDecl}
    (h : Visit.Good locals ⟨ctx, scopes, .stmt (.classDecl name (some superclass) methods)⟩) :
    ∃ id parent, superclass = .var id parent ∧ parent.lexeme ≠ name.lexeme := by
  have hshaped := h.shaped.2.1
  cases superclass with
  | var id parent =>
      refine ⟨id, parent, rfl, ?_⟩
      intro heq
      apply h.sound ⟨parent, .selfInheritance⟩
      simp [findings, selfInheritance, heq]
  | _ =>
      exact hshaped.elim

theorem params
    {decl : FunctionDecl}
    (h : Visit.Good locals ⟨ctx, scopes, .function decl⟩) :
    ∀ p ∈ decl.params, Ordinary p.lexeme := by
  obtain ⟨name, params, body⟩ := decl
  intro p hp
  exact ordinary_of_identifier (h.shaped.2.1 p hp)
    (h.kept p (List.mem_cons_of_mem _ (List.mem_append_left _ hp)))

end Visit.Good

end Nodes

/-- A source in which nothing is wrong before the run, what it is read as, and the table of its
local references. -/
def Session.Accepts (source : String) (statements : List Stmt) (locals : Locals) : Prop :=
  ∃ log, Session.analyse source .empty = (statements, locals, log) ∧ log.hasStaticError = false

namespace Session

theorem hasStaticError_report
    (log : Log)
    (diagnostics : List Diagnostic) :
    (log.report diagnostics).hasStaticError =
      (log.hasStaticError || diagnostics.any Diagnostic.isStatic) := by
  simp [Log.hasStaticError, Log.report]

variable {source : String}
variable {statements : List Stmt}
variable {locals : Locals}

theorem accepts_analyse
    (source : String)
    (h : (analyse source .empty).2.2.hasStaticError = false) :
    Accepts source (analyse source .empty).1 (analyse source .empty).2.1 := by
  unfold Accepts
  generalize analyse source .empty = analysis at h ⊢
  exact ⟨analysis.2.2, rfl, h⟩

/-- A source without faults is accepted as a program that agrees with the one it is read as. -/
theorem accepts_of_same
    (hstatements : Stmt.EveryLiteralAll Literal.Unsigned statements)
    (hsame : Stmt.sameAll (analyse source .empty).1 statements = true)
    (hlocals : (analyse source .empty).2.1 = locals)
    (h : (analyse source .empty).2.2.hasStaticError = false) :
    Accepts source statements locals := by
  have hread : (analyse source .empty).1 = statements :=
    Grammar.readProgram_eq_of_same hstatements hsame
  rw [← hread, ← hlocals]
  exact accepts_analyse source h

/-- What acceptance says about the single phases. -/
theorem Accepts.phases
    (h : Accepts source statements locals) :
    (Scan.ofSource source).faults = [] ∧
      (Grammar.readProgram (Scan.ofSource source).tokens (Scan.ofSource source).endLine).errors
        = [] ∧
      statements =
        (Grammar.readProgram (Scan.ofSource source).tokens (Scan.ofSource source).endLine).result ∧
      (Resolution.ofProgram statements).errors = [] ∧
      locals = (Resolution.ofProgram statements).locals := by
  obtain ⟨log, hanalyse, hlog⟩ := h
  simp only [analyse, parse, tokenize, readProgram, resolve, Prod.mk.injEq] at hanalyse
  obtain ⟨hstatements, hlocals, rfl⟩ := hanalyse
  rw [hstatements] at hlocals
  rw [hasStaticError_report, hasStaticError_report, hasStaticError_report] at hlog
  simp only [Bool.or_eq_false_iff, List.any_eq_false, List.mem_map, hstatements] at hlog
  obtain ⟨⟨⟨-, hscan⟩, hparse⟩, hresolve⟩ := hlog
  refine ⟨?_, ?_, hstatements.symm, ?_, hlocals.symm⟩
  · rw [List.eq_nil_iff_forall_not_mem]
    intro fault hfault
    exact hscan _ ⟨fault, hfault, rfl⟩ rfl
  · rw [List.eq_nil_iff_forall_not_mem]
    intro error herror
    exact hparse _ ⟨error, herror, rfl⟩ rfl
  · rw [List.eq_nil_iff_forall_not_mem]
    intro error herror
    exact hresolve _ ⟨error, herror, rfl⟩ rfl

/-- An accepted source is run as what it is read as. -/
theorem run_of_accepts
    (h : Accepts source statements locals)
    (host : Host) :
    run host source .empty = interpret host locals statements .empty := by
  obtain ⟨hscan, hparse, hstatements, hresolve, hlocals⟩ := h.phases
  simp only [run, parse, tokenize, readProgram, resolve, hscan, hparse, ← hstatements, hresolve,
    ← hlocals, List.map_nil, Log.report, Log.empty, List.append_nil, Log.hasStaticError,
    List.any_nil, Bool.false_eq_true, if_false]

/-- The references of an accepted program have different numbers. -/
theorem Accepts.nodup
    (h : Accepts source statements locals) :
    ((Stmt.walk statements).flatMap Visit.ids).Nodup := by
  obtain ⟨-, -, hstatements, -, -⟩ := h.phases
  have hfits := Grammar.readProgram_fits (Scan.ofSource source).tokens (Scan.ofSource source).endLine
  rw [← hstatements] at hfits
  exact (ids_visits_body .topLevel [] statements).nodup_iff.mpr hfits.fresh.nodup

/-- Only references of the program have entries. -/
theorem Accepts.mem_ids_of_get?
    (h : Accepts source statements locals)
    {id d : Nat}
    (hget : locals.get? id = some d) :
    id ∈ Stmt.idsAll statements := by
  have hnodup : ((Stmt.visitsAll .topLevel [] statements).flatMap Visit.ids).Nodup := h.nodup
  obtain ⟨-, -, -, -, rfl⟩ := h.phases
  rw [Resolution.ofProgram, locals_ofFindings, resolveAll_eq_flatMap,
    Locals.get?_ofPairs (nodup_entries hnodup), mem_entries] at hget
  obtain ⟨v, hv, hbound⟩ := List.mem_flatMap.mp hget
  exact (ids_visits_body .topLevel [] statements).mem_iff.mp
    (List.mem_flatMap.mpr ⟨v, hv, Visit.mem_ids_of_bound hbound⟩)

/-- In an accepted program, an expression with a reference is visited in one place only. -/
theorem Accepts.scopes_unique
    (h : Accepts source statements locals)
    {v w : Visit}
    (hv : v ∈ Stmt.walk statements)
    (hw : w ∈ Stmt.walk statements)
    {e : Expr}
    (hids : e.ids ≠ [])
    (hve : v.node = .expr e)
    (hwe : w.node = .expr e) :
    v.scopes = w.scopes := by
  obtain ⟨id, hid⟩ := List.exists_mem_of_ne_nil _ hids
  have hfind : ∀ {u : Visit}, u ∈ Stmt.walk statements → u.node = .expr e →
      ∃ r ∈ Stmt.walk statements, id ∈ r.ids ∧ r.scopes = u.scopes := by
    rintro ⟨ctx, scopes, node⟩ hu rfl
    have hmem := (ids_visits ctx scopes e).mem_iff.mpr hid
    obtain ⟨r, hr, hidr⟩ := List.mem_flatMap.mp hmem
    exact ⟨r, closed_body _ _ statements hu r hr, hidr, scopes_of_mem_visits ctx scopes e r hr⟩
  obtain ⟨r, hr, hidr, hscopes⟩ := hfind hv hve
  obtain ⟨r', hr', hidr', hscopes'⟩ := hfind hw hwe
  rw [← hscopes, ← hscopes', visit_unique h.nodup hr hr' hidr hidr']

/-- What holds of all tokens that an accepted program keeps, and makes them worded, holds of those at
all its visits. -/
theorem Accepts.placed
    (h : Accepts source statements locals)
    {q : Token → Prop}
    (hworded : ∀ t, q t → t.Worded)
    (hq : ∀ t ∈ Stmt.tokensAll statements, t.Worded → q t) :
    ∀ v ∈ Stmt.walk statements, v.Placed q := by
  obtain ⟨-, -, hstatements, -, -⟩ := h.phases
  have hfits := Grammar.readProgram_fits (Scan.ofSource source).tokens (Scan.ofSource source).endLine
  rw [← hstatements] at hfits
  have hopen : Scopes.Open [] .topLevel := ⟨by simp [Scopes.Settled], trivial⟩
  exact placed_body hworded hopen statements hfits.shaped fun t ht =>
    hq t ht (Scan.tokens_worded source t (hfits.kept t ht))

/-- All visits of an accepted program are good. -/
theorem Accepts.good
    (h : Accepts source statements locals) :
    ∀ v ∈ Stmt.walk statements, v.Good locals := by
  obtain ⟨-, -, -, hresolve, hlocals⟩ := h.phases
  have hfindings : (Stmt.resolveAll .topLevel [] statements).2 =
      (Stmt.walk statements).flatMap Visit.findings :=
    resolveAll_eq_flatMap .topLevel [] statements
  have hplaced : ∀ v ∈ Stmt.walk statements, v.Placed Token.Worded :=
    h.placed (fun _ => id) fun _ _ => id
  intro v hv
  refine { hplaced v hv with sound := ?_, filed := ?_ }
  · intro error herror
    have hmem : error ∈ (Resolution.ofProgram statements).errors := by
      simp only [Resolution.ofProgram, Resolution.ofFindings, hfindings, List.mem_filterMap]
      exact ⟨.fault error, List.mem_flatMap.mpr ⟨v, hv, herror⟩, rfl⟩
    rw [hresolve] at hmem
    cases hmem
  · intro id hid d
    rw [hlocals, Resolution.ofProgram, hfindings]
    exact filed_of_nodup h.nodup hv hid d

end Session

end Lox
