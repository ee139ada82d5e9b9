import LenientR.Text.Slice

/-!
# Bytes of a source

Offsets count the bytes of the UTF-8 form. Here is that form of a source, and where newlines are in
it: a byte that is a newline is always a character of its own.
-/

namespace LenientR.Text

def utf8Bytes (source : String) : List UInt8 := source.toUTF8.data.toList

def newlineByte : UInt8 := '\n'.toUInt8

def newlinesBefore (source : String) (offset : Nat) : Nat :=
  ((utf8Bytes source).take offset).count newlineByte

def newlines (source : String) : Nat := (utf8Bytes source).count newlineByte

theorem utf8Bytes_eq (source : String) :
    utf8Bytes source = source.toList.flatMap String.utf8EncodeChar := by
  rw [utf8Bytes, String.toUTF8_eq_toByteArray, ← String.utf8Encode_toList, List.utf8Encode]
  exact List.toList_data_toByteArray

theorem length_flatMap_utf8EncodeChar (chars : List Char) :
    (chars.flatMap String.utf8EncodeChar).length = byteSize chars := by
  induction chars with
  | nil => rfl
  | cons c rest ih => simp [ih]

theorem byteSize_toList (source : String) : byteSize source.toList = source.utf8ByteSize := by
  rw [← length_flatMap_utf8EncodeChar, ← utf8Bytes_eq]
  rfl

theorem length_utf8Bytes (source : String) : (utf8Bytes source).length = source.utf8ByteSize :=
  rfl

theorem newlinesBefore_min (source : String) (offset : Nat) :
    newlinesBefore source (min offset source.utf8ByteSize) = newlinesBefore source offset := by
  rw [newlinesBefore, ← length_utf8Bytes, ← List.take_take, List.take_length, ← newlinesBefore]

/-- The bytes of a character that has several are none of ASCII. -/
theorem toNat_of_mem_utf8EncodeChar {byte : UInt8} {c : Char}
    (h : byte ∈ String.utf8EncodeChar c) : byte.toNat = c.toNat ∨ 128 ≤ byte.toNat := by
  unfold String.utf8EncodeChar at h
  dsimp only at h
  split at h
  · obtain rfl := List.mem_singleton.1 h
    left
    rw [UInt8.toNat_ofNat']
    change c.val.toNat % 256 = c.val.toNat
    omega
  split at h
  · right
    simp only [List.mem_cons, List.not_mem_nil, or_false] at h
    rcases h with rfl | rfl <;> rw [UInt8.toNat_ofNat'] <;> omega
  split at h
  · right
    simp only [List.mem_cons, List.not_mem_nil, or_false] at h
    rcases h with rfl | rfl | rfl <;> rw [UInt8.toNat_ofNat'] <;> omega
  · right
    simp only [List.mem_cons, List.not_mem_nil, or_false] at h
    rcases h with rfl | rfl | rfl | rfl <;> rw [UInt8.toNat_ofNat'] <;> omega

theorem utf8EncodeChar_newline : String.utf8EncodeChar '\n' = [newlineByte] := rfl

theorem newlineByte_not_mem {c : Char} (h : c ≠ '\n') :
    newlineByte ∉ String.utf8EncodeChar c := by
  intro hm
  rcases toNat_of_mem_utf8EncodeChar hm with he | hle
  · exact h (Char.toNat_inj.1 he.symm)
  · exact absurd hle (by decide)

end LenientR.Text
