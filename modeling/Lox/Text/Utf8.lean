/-!
# Source bytes

Source files are bytes that must be well-formed UTF-8.  A sequence of more than one byte is
fixed by its lead byte, which also narrows the range of the second byte so that overlong forms,
surrogates and values above the last character are refused.  A fault names the index of the
broken sequence and how many of its bytes could have started a character.
-/

namespace Lox
namespace Text

/-- Why bytes are not UTF-8, with the index of the first byte of the broken sequence. -/
inductive Utf8Fault where
  /-- A byte does not fit; the first `length` bytes of the sequence could start a character. -/
  | invalid (index length : Nat)
  /-- The bytes end inside a sequence that is well-formed so far. -/
  | incomplete (index : Nat)
deriving DecidableEq, Repr

/-- The wording of a fault. -/
def Utf8Fault.message : Utf8Fault → String
  | .invalid index length =>
      s!"invalid utf-8 sequence of {length} bytes from index {index}"
  | .incomplete index => s!"incomplete utf-8 byte sequence from index {index}"

/-- What a lead byte promises: how many bytes follow, and the range of the next one. -/
structure Lead where
  /-- Number of continuation bytes. -/
  tail : Nat
  /-- Least second byte. -/
  least : Nat
  /-- Greatest second byte. -/
  greatest : Nat
  /-- The bits of the character that the lead byte carries. -/
  bits : Nat
deriving DecidableEq, Repr

/-- The promise of a byte at the start of a character, if it can stand there. -/
def lead? (byte : Nat) : Option Lead :=
  if byte < 0x80 then some ⟨0, 0x80, 0xBF, byte⟩
  else if byte < 0xC2 then none
  else if byte < 0xE0 then some ⟨1, 0x80, 0xBF, byte - 0xC0⟩
  else if byte = 0xE0 then some ⟨2, 0xA0, 0xBF, 0⟩
  else if byte = 0xED then some ⟨2, 0x80, 0x9F, 0xD⟩
  else if byte < 0xF0 then some ⟨2, 0x80, 0xBF, byte - 0xE0⟩
  else if byte = 0xF0 then some ⟨3, 0x90, 0xBF, 0⟩
  else if byte < 0xF4 then some ⟨3, 0x80, 0xBF, byte - 0xF0⟩
  else if byte = 0xF4 then some ⟨3, 0x80, 0x8F, 4⟩
  else none

/-- Where a decoder stands between two bytes. -/
inductive Utf8State where
  /-- Between characters. -/
  | start
  /-- Inside the sequence that began at `index`: `seen` bytes were read, `owed` follow, the next
  of them between `least` and `greatest`; `bits` holds the character so far. -/
  | inside (index seen owed least greatest bits : Nat)
deriving DecidableEq, Repr

/-- Reads bytes from the given index and state on. -/
def decodeFrom (index : Nat) : Utf8State → List UInt8 → Except Utf8Fault (List Char)
  | .start, [] => .ok []
  | .inside first _ _ _ _ _, [] => .error (.incomplete first)
  | .start, byte :: rest =>
      match lead? byte.toNat with
      | none => .error (.invalid index 1)
      | some ⟨0, _, _, bits⟩ => (decodeFrom (index + 1) .start rest).map (Char.ofNat bits :: ·)
      | some ⟨tail + 1, least, greatest, bits⟩ =>
          decodeFrom (index + 1) (.inside index 1 (tail + 1) least greatest bits) rest
  | .inside first seen owed least greatest bits, byte :: rest =>
      if least ≤ byte.toNat ∧ byte.toNat ≤ greatest then
        let bits := bits * 64 + byte.toNat % 64
        if owed ≤ 1 then (decodeFrom (index + 1) .start rest).map (Char.ofNat bits :: ·)
        else decodeFrom (index + 1) (.inside first (seen + 1) (owed - 1) 0x80 0xBF bits) rest
      else .error (.invalid first seen)

/-- The text that bytes stand for. -/
def ofBytes (bytes : List UInt8) : Except Utf8Fault String :=
  (decodeFrom 0 .start bytes).map String.ofList

end Text
end Lox
