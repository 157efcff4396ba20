import Fakery.Json.Codec

/-! Texts as bytes. -/
namespace Fakery.Json
open Fakery.Texts

/-- `s.encode()` -/
def encode (s : Text) : List UInt8 := s.flatMap String.utf8EncodeChar

/-- `data.decode()`, where `none` is the error. -/
def decode (data : List UInt8) : Option Text :=
  (ByteArray.mk data.toArray).utf8Decode?.map Array.toList

theorem decode_encode (s : Text) : decode (encode s) = some s := by
  have harray : ByteArray.mk (encode s).toArray = s.utf8Encode := by
    rw [List.utf8Encode, ByteArray.ext_iff, List.data_toByteArray]
    rfl
  rw [decode, harray, List.utf8Decode?_utf8Encode, Option.map_some]

theorem encode_injective : Function.Injective encode := by
  intro s t h
  have hs := decode_encode s
  rw [h, decode_encode t] at hs
  exact (Option.some.inj hs).symm

theorem encode_ascii {c : Char} (h : c.toNat < 128) (s : Text) :
    encode (c :: s) = c.toNat.toUInt8 :: encode s := by
  have hle : c.val.toNat ≤ 127 := Nat.le_of_lt_succ h
  have hchar : String.utf8EncodeChar c = [c.toNat.toUInt8] := by
    rw [String.utf8EncodeChar, if_pos hle]
    rfl
  rw [encode, List.flatMap_cons, hchar]
  rfl

variable {v w : Value}

/-- The bytes of a value tell all of it but the order of its keys. -/
theorem encode_dumps_eq_iff (hv : v.Distinct) (hw : w.Distinct) :
    encode (dumps v) = encode (dumps w) ↔ v.Same w := by
  rw [encode_injective.eq_iff, dumps_eq_iff hv hw]

theorem loads_decode_dumps (h : v.Distinct) :
    (decode (encode (dumps v))).bind loads = some v.sortKeys := by
  rw [decode_encode, Option.bind_some, loads_dumps h]

end Fakery.Json
