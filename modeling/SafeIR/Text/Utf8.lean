/-!
# UTF-8

Decoding of bytes to characters. `decode` refuses overlong forms, surrogates and values past the
last code point, and then reports where the sequence that is no character starts.
-/

namespace SafeIR.Text

/-- The payload of a continuation byte. -/
def continuation? (b : UInt8) : Option Nat :=
  if 0x80 ≤ b ∧ b < 0xc0 then some (b.toNat - 0x80) else none

/-- The character of a code point, when there is one and it is not below `least`, which would
make its form longer than needed. -/
def character? (least value : Nat) : Option Char :=
  if h : value.isValidChar then if least ≤ value then some (Char.ofNatAux value h) else none
  else none

/-- The character at the front, with the number of its bytes. -/
def decodeFirst : List UInt8 → Option (Char × Nat)
  | [] => none
  | a :: bs =>
    let head := a.toNat
    if head < 0x80 then (character? 0 head).map (·, 1)
    else if head < 0xc0 then none
    else if head < 0xe0 then
      match bs with
      | b :: _ => do
        let y ← continuation? b
        return (← character? 0x80 ((head - 0xc0) * 64 + y), 2)
      | _ => none
    else if head < 0xf0 then
      match bs with
      | b :: c :: _ => do
        let y ← continuation? b
        let z ← continuation? c
        return (← character? 0x800 (((head - 0xe0) * 64 + y) * 64 + z), 3)
      | _ => none
    else if head < 0xf8 then
      match bs with
      | b :: c :: d :: _ => do
        let x ← continuation? b
        let y ← continuation? c
        let z ← continuation? d
        return (← character? 0x10000 ((((head - 0xf0) * 64 + x) * 64 + y) * 64 + z), 4)
      | _ => none
    else none

/-- Decode from the front: `skip` bytes still belong to the character decoded last. -/
def decodeFrom : Nat → Nat → List UInt8 → Except Nat (List Char)
  | _, _, [] => .ok []
  | offset, skip + 1, _ :: bs => decodeFrom (offset + 1) skip bs
  | offset, 0, b :: bs =>
    match decodeFirst (b :: bs) with
    | some (c, n) => (decodeFrom (offset + 1) (n - 1) bs).map (c :: ·)
    | none => .error offset

/-- The characters of a text, or the offset of the first byte that starts none. -/
def decode (bytes : List UInt8) : Except Nat (List Char) := decodeFrom 0 0 bytes

/-- The bytes of a text. -/
def encode (cs : List Char) : List UInt8 := (String.ofList cs).toUTF8.data.toList

end SafeIR.Text
