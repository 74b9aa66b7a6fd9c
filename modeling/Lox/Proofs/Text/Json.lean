import Lox.Proofs.Decimal.Numerals

/-!
# JSON texts tell documents apart

The text of a document, laid out over lines, can be read in only one way, also where something follows
it.  Infinite numbers are the one exception: they are written as `null`.  So two documents have the
same text if and only if they are equal when infinite numbers are taken for `null`.
-/

namespace Lox
namespace Text
namespace Json

open Decimal (Numeral)

section Strings

/-- The number that a hexadecimal digit stands for. -/
def hexValue (c : Char) : Nat :=
  if c.isDigit then c.toNat - '0'.toNat else c.toNat - 'a'.toNat + 10

/-- Reads one character inside a string. -/
def unescape? : List Char → Option (Char × List Char)
  | '\\' :: 'u' :: '0' :: '0' :: high :: low :: rest =>
      some (Char.ofNat (16 * hexValue high + hexValue low), rest)
  | '\\' :: 'b' :: rest => some ('\x08', rest)
  | '\\' :: 't' :: rest => some ('\t', rest)
  | '\\' :: 'n' :: rest => some ('\n', rest)
  | '\\' :: 'f' :: rest => some ('\x0c', rest)
  | '\\' :: 'r' :: rest => some ('\r', rest)
  | '\\' :: c :: rest => some (c, rest)
  | '"' :: _ => none
  | c :: rest => some (c, rest)
  | [] => none

theorem hexValue_hexDigit : ∀ n < 16, hexValue (hexDigit n) = n := by
  decide

/-- Characters are read back. -/
theorem unescape?_escape
    (c : Char)
    (rest : List Char) :
    unescape? (escape c ++ rest) = some (c, rest) := by
  unfold escape
  split_ifs with hquote hslash hback htab hline hform hreturn hcontrol
  · rw [hquote]
    rfl
  · rw [hslash]
    rfl
  · rw [hback]
    rfl
  · rw [htab]
    rfl
  · rw [hline]
    rfl
  · rw [hform]
    rfl
  · rw [hreturn]
    rfl
  · have hchar : Char.ofNat (16 * (c.toNat / 16) + c.toNat % 16) = c := by
      rw [Nat.div_add_mod, Char.ofNat_toNat]
    simp only [List.cons_append, List.nil_append, unescape?]
    rw [hexValue_hexDigit _ (by omega), hexValue_hexDigit _ (by omega), hchar]
  · rw [List.cons_append, List.nil_append]
    unfold unescape?
    split <;> simp_all

theorem escape_append_inj
    {c d : Char}
    {rest rest' : List Char}
    (h : escape c ++ rest = escape d ++ rest') :
    c = d ∧ rest = rest' := by
  have hread := unescape?_escape c rest
  rw [h, unescape?_escape, Option.some.injEq, Prod.mk.injEq] at hread
  exact ⟨hread.1.symm, hread.2.symm⟩

/-- A quote inside a string is escaped, so that a bare one ends the string. -/
theorem escape_append_ne_quote
    (c : Char)
    (rest rest' : List Char) :
    escape c ++ rest ≠ '"' :: rest' := by
  intro h
  have hread := unescape?_escape c rest
  rw [h] at hread
  cases hread

theorem escaped_append_inj
    {cs ds : List Char}
    {rest rest' : List Char}
    (h : cs.flatMap escape ++ '"' :: rest = ds.flatMap escape ++ '"' :: rest') :
    cs = ds ∧ rest = rest' := by
  induction cs generalizing ds with
  | nil =>
      cases ds with
      | nil =>
          exact ⟨rfl, List.tail_eq_of_cons_eq h⟩
      | cons d ds =>
          rw [List.flatMap_cons, List.append_assoc] at h
          exact absurd h.symm (escape_append_ne_quote _ _ _)
  | cons c cs ih =>
      cases ds with
      | nil =>
          rw [List.flatMap_cons, List.append_assoc] at h
          exact absurd h (escape_append_ne_quote _ _ _)
      | cons d ds =>
          rw [List.flatMap_cons, List.flatMap_cons, List.append_assoc, List.append_assoc] at h
          obtain ⟨rfl, hrest⟩ := escape_append_inj h
          obtain ⟨rfl, rfl⟩ := ih hrest
          exact ⟨rfl, rfl⟩

/-- A string ends where it is closed. -/
theorem quote_append_inj
    {s t : String}
    {rest rest' : List Char}
    (h : (quote s).toList ++ rest = (quote t).toList ++ rest') :
    s = t ∧ rest = rest' := by
  simp only [quote, String.toList_ofList, List.cons_append, List.append_assoc, List.nil_append,
    List.cons.injEq, true_and] at h
  obtain ⟨hchars, rfl⟩ := escaped_append_inj h
  exact ⟨String.toList_inj.mp hchars, rfl⟩

end Strings

section Numbers

open Decimal (magnitude isNegative)

/-- What may follow a document inside of another one, or at the end. -/
def Follows (rest : List Char) : Prop :=
  ∀ c ∈ rest.head?, c = ',' ∨ c = '\n'

/-- The text of a number that is written in digits: characters of numerals, of which the first one
is a digit or a minus sign. -/
structure IsNumber (cs : List Char) : Prop where
  chars : ∀ c ∈ cs, Numeral.isNumeralChar c = true
  starts : ∃ c ∈ cs.head?, c.isDigit = true ∨ c = '-'

/-- Numbers end where something else follows. -/
theorem number_append_inj
    {cs ds rest rest' : List Char}
    (hcs : IsNumber cs)
    (hds : IsNumber ds)
    (hrest : Follows rest)
    (hrest' : Follows rest')
    (h : cs ++ rest = ds ++ rest') :
    cs = ds ∧ rest = rest' := by
  have htake : ∀ {cs rest : List Char}, IsNumber cs → Follows rest →
      (cs ++ rest).takeWhile Numeral.isNumeralChar = cs := by
    intro cs rest hcs hrest
    rw [List.takeWhile_append_of_pos hcs.chars]
    cases rest with
    | nil =>
        simp
    | cons c rest =>
        rcases hrest c rfl with rfl | rfl
        · simp [Numeral.isNumeralChar]
        · simp [Numeral.isNumeralChar]
  have hsame : cs = ds := by
    rw [← htake hcs hrest, ← htake hds hrest', h]
  subst hsame
  exact ⟨rfl, List.append_cancel_left h⟩

theorem isNumber_digitsOf
    (n : Nat) :
    IsNumber (Decimal.digitsOf n) where
  chars c hc := Numeral.isNumeralChar_of_isDigit (Numeral.isDigit_of_mem_digitsOf c hc)
  starts := by
    obtain ⟨c, rest, hdigits⟩ := List.exists_cons_of_ne_nil (@Numeral.digitsOf_ne_nil n)
    refine ⟨c, by rw [hdigits]; rfl, .inl (Numeral.isDigit_of_mem_digitsOf (n := n) c ?_)⟩
    rw [hdigits]
    exact List.mem_cons_self

theorem toList_numberText
    {x : Float}
    {b : Decimal.Binary}
    (h : magnitude x = .finite b) :
    (numberText x).toList =
      (if isNegative x then ['-'] else []) ++ (numberLayout.finiteText b).toList := by
  unfold numberText Decimal.Layout.text
  rw [h]
  dsimp only
  split
  · simp
  · simp

/-- The text of a finite number is not just digits. -/
theorem isNumber_numberText
    {x : Float}
    {b : Decimal.Binary}
    (h : magnitude x = .finite b) :
    IsNumber (numberText x).toList ∧ ∃ c ∈ (numberText x).toList, c.isDigit = false := by
  obtain ⟨n, hn, hchars, -⟩ := Numeral.writes_finiteText b
  rw [toList_numberText h, hchars]
  obtain ⟨c, hc, hmark⟩ := Numeral.exists_mark hn
  refine ⟨⟨?_, ?_⟩, c, List.mem_append_right _ hc, hmark⟩
  · refine List.forall_mem_append.mpr ⟨?_, Numeral.isNumeralChar_of_mem_chars hn⟩
    split
    · simp [Numeral.isNumeralChar]
    · simp
  · obtain ⟨d, hd, hdigit⟩ := Numeral.head?_chars hn
    split
    · exact ⟨'-', rfl, .inr rfl⟩
    · exact ⟨d, hd, .inl hdigit⟩

/-- No two finite numbers have the same text. -/
theorem numberText_injective
    {x y : Float}
    {b b' : Decimal.Binary}
    (hx : magnitude x = .finite b)
    (hy : magnitude y = .finite b')
    (h : (numberText x).toList = (numberText y).toList) :
    x = y := by
  have hsplit : isNegative x = isNegative y ∧
      (numberLayout.finiteText b).toList = (numberLayout.finiteText b').toList := by
    obtain ⟨n, hn, hchars, -⟩ := Numeral.writes_finiteText b
    obtain ⟨n', hn', hchars', -⟩ := Numeral.writes_finiteText b'
    have hminus : ∀ {n : Numeral} {rest : List Char}, n.WellFormed → n.chars ≠ '-' :: rest := by
      intro n rest hn hstart
      obtain ⟨c, hc, hdigit⟩ := Numeral.head?_chars hn
      rw [hstart] at hc
      cases hc
      cases hdigit
    rw [toList_numberText hx, toList_numberText hy, hchars, hchars'] at h
    rw [hchars, hchars']
    cases hnegative : isNegative x <;> cases hnegative' : isNegative y <;>
      rw [hnegative, hnegative'] at h
    · exact ⟨rfl, h⟩
    · exact absurd h (hminus hn)
    · exact absurd h.symm (hminus hn')
    · exact ⟨rfl, List.append_cancel_left h⟩
  have hb := (Decimal.of_magnitude_finite hx).1
  have hb' := (Decimal.of_magnitude_finite hy).1
  obtain rfl := Decimal.finiteText_injective hb hb' (String.toList_inj.mp hsplit.2)
  refine Decimal.eq_of_magnitude hsplit.1 (hx.trans hy.symm) ?_
  rw [hx]
  simp

end Numbers

section Normal

mutual

/-- A document in which infinite numbers are replaced by what is written for them. -/
def normal : Json → Json
  | .null => .null
  | .count n => .count n
  | .number x =>
      match Decimal.magnitude x with
      | .finite _ => .number x
      | _ => .null
  | .string s => .string s
  | .array items => .array (normalItems items)
  | .object members => .object (normalMembers members)

/-- The items of an array with their infinite numbers replaced. -/
def normalItems : List Json → List Json
  | [] => []
  | item :: rest => normal item :: normalItems rest

/-- The members of an object with their infinite numbers replaced. -/
def normalMembers : List (String × Json) → List (String × Json)
  | [] => []
  | (key, value) :: rest => (key, normal value) :: normalMembers rest

end

/-- A property of all documents is proved from items and members to arrays and objects. -/
theorem induct
    {P : Json → Prop}
    (null : P .null)
    (count : ∀ n, P (.count n))
    (number : ∀ x, P (.number x))
    (string : ∀ s, P (.string s))
    (array : ∀ items, (∀ item ∈ items, P item) → P (.array items))
    (object : ∀ members, (∀ member ∈ members, P member.2) → P (.object members))
    (document : Json) :
    P document :=
  @Json.rec P (fun items => ∀ item ∈ items, P item) (fun members => ∀ member ∈ members, P member.2)
    (fun member => P member.2) null count number string array object
    (by simp) (fun _ _ hitem hitems => List.forall_mem_cons.mpr ⟨hitem, hitems⟩)
    (by simp) (fun _ _ hmember hmembers => List.forall_mem_cons.mpr ⟨hmember, hmembers⟩)
    (fun _ _ hvalue => hvalue) document

theorem normalItems_eq_map
    (items : List Json) :
    normalItems items = items.map normal := by
  induction items with
  | nil =>
      rfl
  | cons item rest ih =>
      rw [normalItems, ih, List.map_cons]

theorem normalMembers_eq_map
    (members : List (String × Json)) :
    normalMembers members = members.map fun member => (member.1, member.2.normal) := by
  induction members with
  | nil =>
      rfl
  | cons member rest ih =>
      rw [normalMembers, ih, List.map_cons]

theorem prettyItems_eq_map
    (level : Nat)
    (items : List Json) :
    prettyItems level items = items.map (prettyAt level) := by
  induction items with
  | nil =>
      rfl
  | cons item rest ih =>
      rw [prettyItems, ih, List.map_cons]

/-- The text of a member of an object. -/
def memberText (level : Nat) (member : String × Json) : String :=
  quote member.1 ++ ": " ++ prettyAt level member.2

theorem prettyMembers_eq_map
    (level : Nat)
    (members : List (String × Json)) :
    prettyMembers level members = members.map (memberText level) := by
  induction members with
  | nil =>
      rfl
  | cons member rest ih =>
      rw [prettyMembers, ih, List.map_cons]
      rfl

/-- Replacing infinite numbers does not show. -/
theorem prettyAt_normal
    (document : Json)
    (level : Nat) :
    prettyAt level document.normal = prettyAt level document := by
  induction document using induct generalizing level with
  | null | count | string =>
      rfl
  | number x =>
      rw [normal]
      split
      · rfl
      · rename_i hinfinite
        rw [prettyAt, prettyAt, numberText]
        split
        · rename_i b hfinite
          exact absurd hfinite (hinfinite b)
        · rfl
  | array items ih =>
      have hitems : items.map (prettyAt (level + 1) ∘ normal) = items.map (prettyAt (level + 1)) :=
        List.map_congr_left fun item hitem => ih item hitem (level + 1)
      rw [normal, prettyAt, prettyAt, prettyItems_eq_map, prettyItems_eq_map, normalItems_eq_map,
        List.map_map, hitems]
  | object members ih =>
      have hmembers : members.map (memberText (level + 1) ∘ fun member =>
          (member.1, member.2.normal)) = members.map (memberText (level + 1)) := by
        refine List.map_congr_left fun member hmember => ?_
        simp only [Function.comp_apply, memberText, ih member hmember (level + 1)]
      rw [normal, prettyAt, prettyAt, prettyMembers_eq_map, prettyMembers_eq_map,
        normalMembers_eq_map, List.map_map, hmembers]

/-- Nothing is left to replace. -/
theorem normal_normal
    (document : Json) :
    document.normal.normal = document.normal := by
  induction document using induct with
  | null | count | string =>
      rfl
  | number x =>
      rw [normal]
      split
      · rename_i b hfinite
        rw [normal, hfinite]
      · rfl
  | array items ih =>
      rw [normal, normal, normalItems_eq_map, normalItems_eq_map, List.map_map]
      exact congrArg Json.array (List.map_congr_left ih)
  | object members ih =>
      rw [normal, normal, normalMembers_eq_map, normalMembers_eq_map, List.map_map]
      refine congrArg Json.object (List.map_congr_left fun member hmember => ?_)
      simp only [Function.comp_apply, ih member hmember]

theorem normal_item
    {items : List Json}
    (h : (Json.array items).normal = .array items) :
    ∀ item ∈ items, item.normal = item := by
  rw [normal, normalItems_eq_map, Json.array.injEq] at h
  exact List.map_inj_left.mp (h.trans (List.map_id items).symm)

theorem normal_member
    {members : List (String × Json)}
    (h : (Json.object members).normal = .object members) :
    ∀ member ∈ members, member.2.normal = member.2 := by
  rw [normal, normalMembers_eq_map, Json.object.injEq] at h
  have hsame := List.map_inj_left.mp (h.trans (List.map_id members).symm)
  exact fun member hmember => congrArg Prod.snd (hsame member hmember)

theorem exists_finite_of_normal
    {x : Float}
    (h : (Json.number x).normal = .number x) :
    ∃ b, Decimal.magnitude x = .finite b := by
  rw [normal] at h
  split at h
  · rename_i b hfinite
    exact ⟨b, hfinite⟩
  · cases h

end Normal

section Parts

variable {α : Type}
variable (level : Nat)

/-- The parts of an array or object behind the first one, up to the closing bracket. -/
def laterParts (closing : Char) : List String → List Char
  | [] => (lineBreak level).toList ++ [closing]
  | part :: parts =>
      ',' :: ((lineBreak (level + 1)).toList ++ (part.toList ++ laterParts closing parts))

theorem toList_spread_nil
    (opening closing : Char) :
    (spread level (String.singleton opening) (String.singleton closing) []).toList =
      [opening, closing] := by
  simp [spread]

theorem toList_spread_cons
    (opening closing : Char)
    (part : String)
    (parts : List String) :
    (spread level (String.singleton opening) (String.singleton closing) (part :: parts)).toList =
      opening :: ((lineBreak (level + 1)).toList ++
        (part.toList ++ laterParts level closing parts)) := by
  have hparts : ∀ part : String,
      (String.intercalate ("," ++ lineBreak (level + 1)) (part :: parts)).toList ++
        ((lineBreak level).toList ++ [closing]) = part.toList ++ laterParts level closing parts := by
    induction parts with
    | nil =>
        simp [laterParts]
    | cons next parts ih =>
        intro part
        rw [String.intercalate_cons_cons, laterParts, ← ih next]
        simp
  simp only [spread, String.toList_append, String.toList_singleton, List.append_assoc, hparts,
    List.cons_append, List.nil_append]

theorem follows_laterParts
    (closing : Char)
    (parts : List String)
    (rest : List Char) :
    Follows (laterParts level closing parts ++ rest) := by
  intro c hc
  cases parts with
  | nil =>
      simp only [laterParts, lineBreak, String.toList_ofList, List.cons_append] at hc
      exact .inr (Option.mem_some_iff.mp hc).symm
  | cons part parts =>
      exact .inl (Option.mem_some_iff.mp hc).symm

/-- Parts that can be read in only one way, whatever follows them. -/
def UniqueText (text : α → String) (Q : α → Prop) (x : α) : Prop :=
  ∀ y, Q y → ∀ {rest rest'}, Follows rest → Follows rest' →
    (text x).toList ++ rest = (text y).toList ++ rest' → x = y ∧ rest = rest'

variable {text : α → String}
variable {Q : α → Prop}
variable {xs ys : List α}
variable {closing : Char}
variable {rest rest' : List Char}

theorem laterParts_append_inj
    (hxs : ∀ x ∈ xs, UniqueText text Q x)
    (hys : ∀ y ∈ ys, Q y)
    (h : laterParts level closing (xs.map text) ++ rest =
      laterParts level closing (ys.map text) ++ rest') :
    xs = ys ∧ rest = rest' := by
  induction xs generalizing ys with
  | nil =>
      cases ys with
      | nil =>
          exact ⟨rfl, List.append_cancel_left h⟩
      | cons y ys =>
          simp [laterParts, lineBreak] at h
  | cons x xs ih =>
      cases ys with
      | nil =>
          simp [laterParts, lineBreak] at h
      | cons y ys =>
          rw [List.forall_mem_cons] at hxs hys
          simp only [List.map_cons, laterParts, List.cons_append, List.append_assoc,
            List.cons.injEq, true_and] at h
          have htail := List.append_cancel_left h
          obtain ⟨rfl, hlater⟩ := hxs.1 y hys.1 (follows_laterParts level _ _ _)
            (follows_laterParts level _ _ _) htail
          obtain ⟨rfl, rfl⟩ := ih hxs.2 hys.2 hlater
          exact ⟨rfl, rfl⟩

/-- Brackets with parts between them are read in only one way if the parts are. -/
theorem spread_append_inj
    {opening : Char}
    (hclosing : closing ≠ '\n')
    (hxs : ∀ x ∈ xs, UniqueText text Q x)
    (hys : ∀ y ∈ ys, Q y)
    (h : (spread level (String.singleton opening) (String.singleton closing)
        (xs.map text)).toList ++ rest =
      (spread level (String.singleton opening) (String.singleton closing)
        (ys.map text)).toList ++ rest') :
    xs = ys ∧ rest = rest' := by
  cases xs with
  | nil =>
      cases ys with
      | nil =>
          exact ⟨rfl, List.append_cancel_left h⟩
      | cons y ys =>
          rw [List.map_nil, List.map_cons, toList_spread_nil, toList_spread_cons] at h
          simp [lineBreak, hclosing] at h
  | cons x xs =>
      cases ys with
      | nil =>
          rw [List.map_nil, List.map_cons, toList_spread_nil, toList_spread_cons] at h
          simp [lineBreak, hclosing.symm] at h
      | cons y ys =>
          rw [List.forall_mem_cons] at hxs hys
          rw [List.map_cons, List.map_cons, toList_spread_cons, toList_spread_cons] at h
          simp only [List.cons_append, List.append_assoc, List.cons.injEq, true_and] at h
          have htail := List.append_cancel_left h
          obtain ⟨rfl, hlater⟩ := hxs.1 y hys.1 (follows_laterParts level _ _ _)
            (follows_laterParts level _ _ _) htail
          obtain ⟨rfl, rfl⟩ := laterParts_append_inj level hxs.2 hys.2 hlater
          exact ⟨rfl, rfl⟩

end Parts

section Documents

/-- What the first character of a document tells. -/
inductive Shape where
  | null
  | number
  | string
  | array
  | object

/-- The shape that a first character tells. -/
def Shape.ofChar (c : Char) : Shape :=
  match c with
  | 'n' => .null
  | '"' => .string
  | '[' => .array
  | '\x7b' => .object
  | _ => .number

/-- The shape of a document. -/
def shape : Json → Shape
  | .null => .null
  | .count _ | .number _ => .number
  | .string _ => .string
  | .array _ => .array
  | .object _ => .object

theorem Shape.ofChar_of_isNumber
    {cs : List Char}
    (h : IsNumber cs) :
    ∃ c ∈ cs.head?, Shape.ofChar c = .number := by
  obtain ⟨c, hc, hstart⟩ := h.starts
  refine ⟨c, hc, ?_⟩
  unfold ofChar
  split
  · simp at hstart
  · simp at hstart
  · simp at hstart
  · simp at hstart
  · rfl

theorem prettyAt_array
    (level : Nat)
    (items : List Json) :
    prettyAt level (.array items) = spread level (String.singleton '[') (String.singleton ']')
      (items.map (prettyAt (level + 1))) := by
  rw [prettyAt, prettyItems_eq_map]
  rfl

theorem prettyAt_object
    (level : Nat)
    (members : List (String × Json)) :
    prettyAt level (.object members) = spread level (String.singleton '\x7b')
      (String.singleton '\x7d') (members.map (memberText (level + 1))) := by
  rw [prettyAt, prettyMembers_eq_map]
  rfl

theorem head?_spread
    (level : Nat)
    (opening closing : Char)
    (parts : List String) :
    opening ∈ (spread level (String.singleton opening) (String.singleton closing)
      parts).toList.head? := by
  cases parts with
  | nil =>
      rw [toList_spread_nil]
      rfl
  | cons part parts =>
      rw [toList_spread_cons]
      rfl

theorem toList_count
    (level n : Nat) :
    (prettyAt level (.count n)).toList = Decimal.digitsOf n := by
  rw [prettyAt, String.toList_ofList]

/-- The first character of a document tells its shape. -/
theorem shape_of_head?
    {document : Json}
    (hnormal : document.normal = document)
    (level : Nat) :
    ∃ c ∈ (prettyAt level document).toList.head?, Shape.ofChar c = document.shape := by
  cases document with
  | null =>
      refine ⟨'n', ?_, rfl⟩
      rw [prettyAt]
      rfl
  | count n =>
      rw [toList_count]
      exact Shape.ofChar_of_isNumber (isNumber_digitsOf n)
  | number x =>
      obtain ⟨b, hfinite⟩ := exists_finite_of_normal hnormal
      exact Shape.ofChar_of_isNumber (isNumber_numberText hfinite).1
  | string s =>
      refine ⟨'"', ?_, rfl⟩
      rw [prettyAt, quote, String.toList_ofList]
      rfl
  | array items =>
      refine ⟨'[', ?_, rfl⟩
      rw [prettyAt_array]
      exact head?_spread _ _ _ _
  | object members =>
      refine ⟨'\x7b', ?_, rfl⟩
      rw [prettyAt_object]
      exact head?_spread _ _ _ _

theorem shape_eq
    {document other : Json}
    {level : Nat}
    {rest rest' : List Char}
    (hnormal : document.normal = document)
    (hnormal' : other.normal = other)
    (h : (prettyAt level document).toList ++ rest = (prettyAt level other).toList ++ rest') :
    document.shape = other.shape := by
  obtain ⟨c, hc, hshape⟩ := shape_of_head? hnormal level
  obtain ⟨c', hc', hshape'⟩ := shape_of_head? hnormal' level
  have hsame := congrArg List.head? h
  rw [List.head?_append, List.head?_append, hc, hc', Option.some_or, Option.some_or,
    Option.some.injEq] at hsame
  rw [← hshape, ← hshape', hsame]

/-- Digits alone are no text of a finite number. -/
theorem digitsOf_ne_numberText
    {x : Float}
    {b : Decimal.Binary}
    (h : Decimal.magnitude x = .finite b)
    (n : Nat) :
    Decimal.digitsOf n ≠ (numberText x).toList := by
  intro hsame
  obtain ⟨c, hc, hmark⟩ := (isNumber_numberText h).2
  rw [← hsame] at hc
  rw [Numeral.isDigit_of_mem_digitsOf c hc] at hmark
  cases hmark

theorem digitsOf_injective
    {n k : Nat}
    (h : Decimal.digitsOf n = Decimal.digitsOf k) :
    n = k := by
  rw [← @Numeral.ofDigitChars_digitsOf n, h, Numeral.ofDigitChars_digitsOf]

/-- Counts and numbers are told from each other, and among themselves. -/
theorem number_unique
    {document other : Json}
    {level : Nat}
    {rest rest' : List Char}
    (hnormal : document.normal = document)
    (hnormal' : other.normal = other)
    (hshape : document.shape = .number)
    (hshape' : other.shape = .number)
    (hrest : Follows rest)
    (hrest' : Follows rest')
    (h : (prettyAt level document).toList ++ rest = (prettyAt level other).toList ++ rest') :
    document = other ∧ rest = rest' := by
  have hnumber : ∀ {document : Json}, document.normal = document → document.shape = .number →
      IsNumber (prettyAt level document).toList := by
    intro document hnormal hshape
    cases document with
    | count n =>
        rw [toList_count]
        exact isNumber_digitsOf n
    | number x =>
        obtain ⟨b, hfinite⟩ := exists_finite_of_normal hnormal
        exact (isNumber_numberText hfinite).1
    | _ =>
        cases hshape
  obtain ⟨htext, rfl⟩ :=
    number_append_inj (hnumber hnormal hshape) (hnumber hnormal' hshape') hrest hrest' h
  refine ⟨?_, rfl⟩
  cases document with
  | count n =>
      rw [toList_count] at htext
      cases other with
      | count k =>
          rw [toList_count] at htext
          rw [digitsOf_injective htext]
      | number y =>
          obtain ⟨b, hfinite⟩ := exists_finite_of_normal hnormal'
          exact absurd htext (digitsOf_ne_numberText hfinite n)
      | _ =>
          cases hshape'
  | number x =>
      obtain ⟨b, hfinite⟩ := exists_finite_of_normal hnormal
      cases other with
      | count k =>
          rw [toList_count] at htext
          exact absurd htext.symm (digitsOf_ne_numberText hfinite k)
      | number y =>
          obtain ⟨b', hfinite'⟩ := exists_finite_of_normal hnormal'
          rw [numberText_injective hfinite hfinite' htext]
      | _ =>
          cases hshape'
  | _ =>
      cases hshape

/-- A member is read in only one way if its value is. -/
theorem member_unique
    {member : String × Json}
    {level : Nat}
    (hvalue : UniqueText (prettyAt level) (fun other => other.normal = other) member.2) :
    UniqueText (memberText level) (fun other => other.2.normal = other.2) member := by
  intro other hother rest rest' hrest hrest' h
  obtain ⟨key, value⟩ := member
  obtain ⟨key', value'⟩ := other
  simp only [memberText, String.toList_append, List.append_assoc] at h
  obtain ⟨rfl, hcolon⟩ := quote_append_inj h
  obtain ⟨rfl, rfl⟩ := hvalue value' hother hrest hrest' (List.append_cancel_left hcolon)
  exact ⟨rfl, rfl⟩

/-- Documents without infinite numbers are read in only one way. -/
theorem document_unique
    (document : Json)
    (hnormal : document.normal = document)
    (level : Nat) :
    UniqueText (prettyAt level) (fun other => other.normal = other) document := by
  induction document using induct generalizing level with
  | null =>
      intro other hnormal' rest rest' hrest hrest' h
      have hshape := shape_eq hnormal hnormal' h
      cases other with
      | null =>
          exact ⟨rfl, List.append_cancel_left h⟩
      | _ =>
          cases hshape
  | count n | number x =>
      intro other hnormal' rest rest' hrest hrest' h
      have hshape := shape_eq hnormal hnormal' h
      exact number_unique hnormal hnormal' rfl hshape.symm hrest hrest' h
  | string s =>
      intro other hnormal' rest rest' hrest hrest' h
      have hshape := shape_eq hnormal hnormal' h
      cases other with
      | string t =>
          obtain ⟨rfl, rfl⟩ := quote_append_inj h
          exact ⟨rfl, rfl⟩
      | _ =>
          cases hshape
  | array items ih =>
      intro other hnormal' rest rest' hrest hrest' h
      have hshape := shape_eq hnormal hnormal' h
      cases other with
      | array items' =>
          rw [prettyAt_array, prettyAt_array] at h
          have hitem := normal_item hnormal
          obtain ⟨rfl, rfl⟩ := spread_append_inj level (by decide)
            (fun item hmem => ih item hmem (hitem item hmem) (level + 1)) (normal_item hnormal') h
          exact ⟨rfl, rfl⟩
      | _ =>
          cases hshape
  | object members ih =>
      intro other hnormal' rest rest' hrest hrest' h
      have hshape := shape_eq hnormal hnormal' h
      cases other with
      | object members' =>
          rw [prettyAt_object, prettyAt_object] at h
          have hmember := normal_member hnormal
          have hunique : ∀ member ∈ members, UniqueText (memberText (level + 1))
              (fun other => other.2.normal = other.2) member :=
            fun member hmem => member_unique (ih member hmem (hmember member hmem) (level + 1))
          obtain ⟨rfl, rfl⟩ := spread_append_inj level (by decide) hunique
            (normal_member hnormal') h
          exact ⟨rfl, rfl⟩
      | _ =>
          cases hshape

/-- Two documents have the same text if and only if they are equal, infinite numbers taken for
`null`. -/
theorem pretty_eq_iff
    (document other : Json) :
    document.pretty = other.pretty ↔ document.normal = other.normal := by
  constructor
  · intro h
    rw [pretty, pretty, ← prettyAt_normal, ← prettyAt_normal other] at h
    have hend : Follows [] := by
      intro c hc
      cases hc
    have hchars : (prettyAt 0 document.normal).toList ++ [] =
        (prettyAt 0 other.normal).toList ++ [] := by
      rw [h]
    exact (document_unique _ (normal_normal document) 0 _ (normal_normal other) hend hend hchars).1
  · intro h
    rw [pretty, pretty, ← prettyAt_normal, ← prettyAt_normal other, h]

end Documents

end Json
end Text
end Lox
