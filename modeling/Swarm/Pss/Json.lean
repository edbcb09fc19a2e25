import Mathlib

/-!
# The JSON codec of `PssAddress`

`PssAddress` of pss/types.go is a byte string written to JSON as a `0x` hex string. Its
`MarshalJSON` quotes `hexutil.Encode(a)`, and its `UnmarshalJSON` drops the first and the last
byte of the JSON text it is given, `input[1 : len(input)-1]`, decodes the rest with
`hexutil.Decode`, and appends the bytes to the receiver. `hexutil` is outside the sources and
is modelled from its documentation: `0x` and two lower-case digits per byte when encoding, and
when decoding the `0x` marker, then pairs of hex digits of either case, each failure with its own
error. JSON texts are byte strings.

The main theorem, `pssAddress_json`, says that unmarshalling what `MarshalJSON` wrote appends the
bytes written, and that on a one-byte JSON text, a digit such as `7`, `UnmarshalJSON` panics: the
slice `input[1:0]` is out of range.
-/

namespace Swarm.Pss

/-- `PssAddress`, a byte string. -/
abbrev PssAddress := List UInt8

/-- The byte of the hex digit `d < 16`, lower case, as `hexutil.Encode` writes it. -/
def hexByte (d : Nat) : UInt8 := UInt8.ofNat (if d < 10 then 48 + d else 87 + d)

/-- `hexutil.Encode` (outside src): `0x`, then each byte as two digits, high half first. -/
def hexEncode (a : List UInt8) : List UInt8 :=
  [48, 120] ++ a.flatMap fun b => [hexByte (b.toNat / 16), hexByte (b.toNat % 16)]

/-- The value of a hex digit of either case. -/
def hexDigitVal (c : UInt8) : Option Nat :=
  if 48 ≤ c.toNat ∧ c.toNat ≤ 57 then some (c.toNat - 48)
  else if 97 ≤ c.toNat ∧ c.toNat ≤ 102 then some (c.toNat - 87)
  else if 65 ≤ c.toNat ∧ c.toNat ≤ 70 then some (c.toNat - 55)
  else none

/-- The digits after `0x`, two per byte: a bad digit is a syntax error, a digit left over an odd
length. -/
def decodeDigits : List UInt8 → Except String (List UInt8)
  | [] => pure []
  | [c] => throw (if (hexDigitVal c).isSome then "hex string of odd length"
      else "invalid hex string")
  | c :: d :: rest =>
    match hexDigitVal c, hexDigitVal d with
    | some x, some y => return UInt8.ofNat (16 * x + y) :: (← decodeDigits rest)
    | _, _ => throw "invalid hex string"

/-- `hexutil.Decode` (outside src): the `0x` marker, then the digits. -/
def hexDecode : List UInt8 → Except String (List UInt8)
  | [] => throw "empty hex string"
  | 48 :: 120 :: digits => decodeDigits digits
  | _ => throw "hex string without 0x prefix"

namespace PssAddress

/-- `MarshalJSON`: `json.Marshal` of `hexutil.Encode(a)`, a string of hex digits that JSON needs
not escape, hence the string in double quotes. It never fails. -/
def MarshalJSON (a : PssAddress) : List UInt8 := [34] ++ hexEncode a ++ [34]

/-- `input[1 : len(input)-1]`, which panics unless `1 ≤ len(input) - 1`. -/
def inner (input : List UInt8) : Except String (List UInt8) :=
  if input.length = 0 then throw "slice bounds out of range [:-1]"
  else if input.length = 1 then throw "slice bounds out of range [1:0]"
  else pure ((input.drop 1).take (input.length - 2))

/-- `UnmarshalJSON` into the receiver `a`: the new receiver, or the error returned or the panic. -/
def UnmarshalJSON (a : PssAddress) (input : List UInt8) : Except String PssAddress := do
  let b ← hexDecode (← inner input)
  pure (a ++ b)

end PssAddress

/-! ## The round trip -/

/-- A hex digit decodes to the value it encodes. -/
theorem hexDigitVal_hexByte {d : Nat} (hd : d < 16) : hexDigitVal (hexByte d) = some d := by
  have h : (hexByte d).toNat = if d < 10 then 48 + d else 87 + d := by
    unfold hexByte
    split <;> exact UInt8.toNat_ofNat_of_lt (by simp only [UInt8.size]; omega)
  unfold hexDigitVal
  by_cases h10 : d < 10
  · rw [h, if_pos h10, if_pos (by omega), Nat.add_sub_cancel_left]
  · rw [h, if_neg h10, if_neg (by omega), if_pos (by omega), Nat.add_sub_cancel_left]

/-- Decoding the pairs of hex digits of a byte list gives the byte list back. -/
theorem decodeDigits_encode : ∀ a : List UInt8,
    decodeDigits (a.flatMap fun b => [hexByte (b.toNat / 16), hexByte (b.toNat % 16)]) = .ok a
  | [] => rfl
  | b :: a => by
    have hb := b.toNat_lt
    rw [List.flatMap_cons, List.cons_append, List.cons_append, List.nil_append, decodeDigits,
      hexDigitVal_hexByte (by omega), hexDigitVal_hexByte (by omega)]
    simp only [decodeDigits_encode a]
    rw [Nat.div_add_mod, UInt8.toNat.inj (UInt8.toNat_ofNat_of_lt b.toNat_lt)]
    rfl

/-- `hexutil.Decode` inverts `hexutil.Encode`. -/
theorem hexDecode_encode (a : List UInt8) : hexDecode (hexEncode a) = .ok a :=
  decodeDigits_encode a

namespace PssAddress

/-- Stripping the quotes of the JSON text of an address leaves the hex of the address. -/
theorem inner_marshal (a : PssAddress) : inner (MarshalJSON a) = .ok (hexEncode a) := by
  have h : (MarshalJSON a).length = (hexEncode a).length + 2 := by
    simp only [MarshalJSON, List.length_append, List.length_singleton]
    omega
  rw [inner, if_neg (by omega), if_neg (by omega), h]
  simp only [MarshalJSON, List.singleton_append, List.cons_append, List.drop_succ_cons,
    List.drop_zero, Nat.add_sub_cancel, List.nil_append, List.take_left]
  rfl

/-- Unmarshalling what `MarshalJSON` wrote appends the marshalled bytes to the receiver. -/
theorem unmarshal_marshal (r a : PssAddress) :
    UnmarshalJSON r (MarshalJSON a) = .ok (r ++ a) := by
  simp only [UnmarshalJSON, inner_marshal, bind, Except.bind, hexDecode_encode]
  rfl

/-- A one-byte JSON text makes the slice `input[1:0]` panic. -/
theorem unmarshal_one_byte (r : PssAddress) (c : UInt8) :
    UnmarshalJSON r [c] = .error "slice bounds out of range [1:0]" :=
  rfl

end PssAddress

/-- The JSON codec of `PssAddress`: unmarshalling into an empty address gives back what was
marshalled, and the one-byte JSON texts, the digits `0` to `9` among them, panic. -/
theorem pssAddress_json :
    (∀ a : PssAddress, PssAddress.UnmarshalJSON [] (PssAddress.MarshalJSON a) = .ok a) ∧
      ∀ c : UInt8, PssAddress.UnmarshalJSON [] [c] = .error "slice bounds out of range [1:0]" :=
  ⟨fun a => PssAddress.unmarshal_marshal [] a, fun c => PssAddress.unmarshal_one_byte [] c⟩

end Swarm.Pss
