import Lox.Proofs.Token.Readings
import Lox.Proofs.Tree.Dumps
import Lox.Session

/-!
# JSON texts of sources

The JSON text of the tokens of a source tells the tokens, and the JSON text of what the source is read
as tells the tree.
-/

namespace Lox

open Text (Json)

/-- The JSON text of a program tells its tree. -/
theorem Stmt.pretty_dumpAll_eq_iff
    {body body' : List Stmt}
    (hbody : EveryLiteralAll Literal.Unsigned body)
    (hbody' : EveryLiteralAll Literal.Unsigned body') :
    ((Json.array (dumpAll body)).pretty = (Json.array (dumpAll body')).pretty ↔
      sameAll body body' = true) ∧ (sameAll body body' = true ↔ body = body') := by
  have hsame := sameAll_iff_eq hbody hbody'
  refine ⟨?_, hsame⟩
  rw [Json.pretty_eq_iff, hsame]
  constructor
  · intro h
    exact dumpAll_injective hbody hbody' (Json.array.inj h)
  · rintro rfl
    rfl

/-- The JSON texts of the tokens of two sources are equal if and only if the tokens are, and the JSON
texts of what the sources are read as, with errors or without, if and only if the trees agree in
everything.  Trees that agree are equal, numbers included, so that no two trees have the same text.  The
texts of the tokens show the values that are read from the bytes, of which their equality knows nothing:
where tokens of one kind and lexeme are read, the same value is read. -/
theorem json_texts_tell_equality
    (a b : String)
    (log log' : Log) :
    (∃ given given', (Session.tokenize a log).1.Lists a given ∧
      (Session.tokenize b log').1.Lists b given' ∧
      ((Scan.Reading.document given).pretty = (Scan.Reading.document given').pretty ↔
        Scan.Reading.terminals given = Scan.Reading.terminals given') ∧
      ∀ x ∈ given, ∀ y ∈ given', ∀ t u, x.entry = .item (.token t) → y.entry = .item (.token u) →
        t.kind = u.kind → t.lexeme = u.lexeme → x.value = y.value) ∧
    ((Json.array (Stmt.dumpAll (Session.parse a log).1)).pretty =
        (Json.array (Stmt.dumpAll (Session.parse b log').1)).pretty ↔
      Stmt.sameAll (Session.parse a log).1 (Session.parse b log').1 = true) ∧
    (Stmt.sameAll (Session.parse a log).1 (Session.parse b log').1 = true ↔
      (Session.parse a log).1 = (Session.parse b log').1) := by
  have hlists := Scan.lists_readings a
  have hlists' := Scan.lists_readings b
  have hscan := Scan.pretty_json_eq_iff (Scan.ofSource a) (Scan.ofSource b)
  rw [hlists.json, hlists'.json, hlists.terminals, hlists'.terminals] at hscan
  refine ⟨⟨_, _, hlists, hlists', hscan, ?_⟩, ?_⟩
  · intro x hx y hy t u ht hu hkind hlexeme
    rw [Scan.value_of_mem_entries hx ht, Scan.value_of_mem_entries hy hu, Token.literal?, hkind,
      hlexeme, Token.literal?]
  · exact Stmt.pretty_dumpAll_eq_iff (Grammar.unsigned_readProgram _ _)
      (Grammar.unsigned_readProgram _ _)

/-- Two spellings of one number are different tokens, but make the same tree; on another line the same
value is read for a spelling. -/
theorem json_texts_tell_equality_spellings :
    let a := "print 1;"
    let b := "print 1.0;"
    (Session.tokenize a .empty).1.json.pretty ≠ (Session.tokenize b .empty).1.json.pretty ∧
      (Json.array (Stmt.dumpAll (Session.parse a .empty).1)).pretty =
        (Json.array (Stmt.dumpAll (Session.parse b .empty).1)).pretty ∧
      ∃ given given' x y, Scan.ByteRead.readings a = some given ∧
        Scan.ByteRead.readings "\n1" = some given' ∧ x ∈ given ∧ y ∈ given' ∧
        x.entry = .item (.token ⟨.number, "1", 1⟩) ∧ y.entry = .item (.token ⟨.number, "1", 2⟩) ∧
        x.value = y.value := by
  intro a b
  obtain ⟨⟨given, given', hlists, hlists', htokens, -⟩, htrees, -⟩ :=
    json_texts_tell_equality a b .empty .empty
  obtain ⟨⟨given₁, given₂, hlists₁, hlists₂, -, hvalues⟩, -, -⟩ :=
    json_texts_tell_equality a "\n1" .empty .empty
  rw [← hlists.json, ← hlists'.json, ← hlists.terminals, ← hlists'.terminals] at htokens
  refine ⟨mt htokens.mp (by decide +kernel), htrees.mpr (by decide +kernel), given₁, given₂, ?_⟩
  obtain ⟨x, hx, hentry⟩ := hlists₁.exists_reading (t := ⟨.number, "1", 1⟩) (by decide +kernel)
  obtain ⟨y, hy, hentry'⟩ := hlists₂.exists_reading (t := ⟨.number, "1", 2⟩) (by decide +kernel)
  exact ⟨x, y, hlists₁.read, hlists₂.read, hx, hy, hentry, hentry',
    hvalues x hx y hy _ _ hentry hentry' rfl rfl⟩

end Lox
