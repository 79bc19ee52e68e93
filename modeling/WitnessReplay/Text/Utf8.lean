/-!
# Decoding bytes

Reading bytes as UTF-8 where invalid parts are allowed: each longest start of a character that
cannot be completed, and each byte that starts no character, becomes one replacement character.
-/

namespace WitnessReplay.Text

/-- How many bytes follow a first byte, and the range in which the next one lies; none where no
character starts with it. -/
def continuation? (b : Nat) : Option (Nat × Nat × Nat) :=
  if 0xc2 ≤ b ∧ b ≤ 0xdf then some (1, 0x80, 0xbf)
  else if b = 0xe0 then some (2, 0xa0, 0xbf)
  else if b = 0xed then some (2, 0x80, 0x9f)
  else if 0xe1 ≤ b ∧ b ≤ 0xef then some (2, 0x80, 0xbf)
  else if b = 0xf0 then some (3, 0x90, 0xbf)
  else if 0xf1 ≤ b ∧ b ≤ 0xf3 then some (3, 0x80, 0xbf)
  else if b = 0xf4 then some (3, 0x80, 0x8f)
  else none

def firstBits (following b : Nat) : Nat :=
  match following with
  | 1 => b % 32
  | 2 => b % 16
  | _ => b % 8

/-- The characters of bytes. While a character is being read, `following` bytes of it are still
to come, the next one lies between `low` and `high`, and `bits` is what has been read of it. -/
def decodeFrom (following low high bits : Nat) : List UInt8 → List Char
  | [] => if following = 0 then [] else ['�']
  | b :: rest =>
    let n := b.toNat
    if following ≠ 0 ∧ low ≤ n ∧ n ≤ high then
      let bits := bits * 64 + n % 64
      if following = 1 then Char.ofNat bits :: decodeFrom 0 0 0 0 rest
      else decodeFrom (following - 1) 0x80 0xbf bits rest
    else
      let broken := if following = 0 then [] else ['�']
      if n < 0x80 then broken ++ Char.ofNat n :: decodeFrom 0 0 0 0 rest
      else
        match continuation? n with
        | some (following, low, high) =>
          broken ++ decodeFrom following low high (firstBits following n) rest
        | none => broken ++ '�' :: decodeFrom 0 0 0 0 rest

def decodeLossy (bytes : ByteArray) : String :=
  String.ofList (decodeFrom 0 0 0 0 bytes.toList)

end WitnessReplay.Text
