import Mathlib
import LuaMachine.Text.Utf8

namespace LuaMachine.Text

/-- A byte that continues a sequence adds six bits to it. -/
theorem decodeFrom_continue {p : Partial} {bits : Nat} (hbits : bits < 64) (hlow : p.low ≤ bits + 128)
    (hhigh : bits + 128 ≤ p.high) (rest : List UInt8) :
    decodeFrom (some p) (UInt8.ofNat (bits + 128) :: rest) =
      if p.missing = 1 then Char.ofNat (p.bits * 64 + bits) :: decodeFrom none rest
      else decodeFrom (some ⟨p.bits * 64 + bits, p.missing - 1, 0x80, 0xbf⟩) rest := by
  have hbyte : (UInt8.ofNat (bits + 128)).toNat = bits + 128 := by
    rw [UInt8.toNat_ofNat']
    omega
  rw [decodeFrom, hbyte, if_pos ⟨hlow, hhigh⟩, Nat.add_sub_cancel]

/-- A byte that starts a longer sequence. -/
theorem decodeFrom_start {b : Nat} {started : Partial} (hb : b < 256) (hstart : startByte b = .inr started)
    (rest : List UInt8) : decodeFrom none (UInt8.ofNat b :: rest) = decodeFrom (some started) rest := by
  have hbyte : (UInt8.ofNat b).toNat = b := by
    rw [UInt8.toNat_ofNat']
    omega
  rw [decodeFrom, hbyte, hstart]

/-- How a sequence of `missing` more bytes starts, for the leading bits that it carries. Both ends of the range of
the next byte depend on these bits: shorter sequences, surrogates and what is too large are left out. -/
theorem startByte_two {bits : Nat} (hlow : 2 ≤ bits) (hhigh : bits < 32) :
    startByte (bits + 192) = .inr ⟨bits, 1, 0x80, 0xbf⟩ := by
  rw [startByte, if_neg (by omega), if_pos (by omega), Nat.add_sub_cancel]

theorem startByte_three {bits : Nat} (hhigh : bits < 16) :
    startByte (bits + 224) =
      .inr ⟨bits, 2, if bits = 0 then 0xa0 else 0x80, if bits = 13 then 0x9f else 0xbf⟩ := by
  interval_cases bits <;> rfl

theorem startByte_four {bits : Nat} (hhigh : bits < 5) :
    startByte (bits + 240) =
      .inr ⟨bits, 3, if bits = 0 then 0x90 else 0x80, if bits = 4 then 0x8f else 0xbf⟩ := by
  interval_cases bits <;> rfl

/-- The bytes of a character are read as that character. -/
theorem decodeFrom_utf8EncodeChar (c : Char) (rest : List UInt8) :
    decodeFrom none (String.utf8EncodeChar c ++ rest) = c :: decodeFrom none rest := by
  have hvalid : c.val.toNat < 0xd800 ∨ 0xdfff < c.val.toNat ∧ c.val.toNat < 0x110000 := c.valid
  have hchar : Char.ofNat c.val.toNat = c := Char.ofNat_toNat c
  generalize c.val.toNat = v at hvalid hchar
  subst hchar
  have hval : (Char.ofNat v).val.toNat = v := by
    have hisvalid : v.isValidChar := hvalid
    simp [Char.ofNat, hisvalid, Char.ofNatAux]
  unfold String.utf8EncodeChar
  simp only [hval]
  split
  · rename_i hone
    have hbyte : (UInt8.ofNat v).toNat = v := by
      rw [UInt8.toNat_ofNat']
      omega
    rw [List.singleton_append, decodeFrom, hbyte, startByte, if_pos (by omega)]
  split
  · rename_i hone htwo
    rw [Nat.mod_eq_of_lt (a := v / 64) (by omega), List.cons_append, List.singleton_append,
      decodeFrom_start (by omega) (startByte_two (by omega) (by omega)),
      decodeFrom_continue (by omega) (by simp) (by simp only; omega)]
    simp only [if_true, Nat.div_add_mod']
  split
  · rename_i hone htwo hthree
    rw [Nat.mod_eq_of_lt (a := v / 4096) (by omega), List.cons_append, List.cons_append, List.singleton_append,
      decodeFrom_start (by omega) (startByte_three (by omega)),
      decodeFrom_continue (by omega) (by simp only; split <;> omega) (by simp only; split <;> omega),
      if_neg (by simp), decodeFrom_continue (by omega) (by simp) (by simp only; omega)]
    simp only [Nat.add_one_sub_one, if_true]
    congr 2
    omega
  · rename_i hone htwo hthree
    rw [Nat.mod_eq_of_lt (a := v / 262144) (by omega), List.cons_append, List.cons_append, List.cons_append,
      List.singleton_append, decodeFrom_start (by omega) (startByte_four (by omega)),
      decodeFrom_continue (by omega) (by simp only; split <;> omega) (by simp only; split <;> omega),
      if_neg (by simp), decodeFrom_continue (by omega) (by simp) (by simp only; omega), if_neg (by simp),
      decodeFrom_continue (by omega) (by simp) (by simp only; omega)]
    simp only [Nat.add_one_sub_one, if_true]
    congr 2
    omega

theorem decodeFrom_flatMap_utf8EncodeChar (cs : List Char) :
    decodeFrom none (cs.flatMap String.utf8EncodeChar) = cs := by
  induction cs with
  | nil => rfl
  | cons c cs ih => rw [List.flatMap_cons, decodeFrom_utf8EncodeChar, ih]

theorem toList_loop (bytes : ByteArray) (i : Nat) (taken : List UInt8) :
    ByteArray.toList.loop bytes i taken = taken.reverse ++ bytes.data.toList.drop i := by
  fun_induction ByteArray.toList.loop bytes i taken with
  | case1 i taken h ih =>
    have hbyte : bytes.get! i = bytes.data[i] := getElem!_pos bytes.data i h
    rw [ih, List.drop_eq_getElem_cons (i := i) h, List.reverse_cons, List.append_assoc, hbyte]
    rfl
  | case2 i taken h => rw [List.drop_eq_nil_of_le (Nat.not_lt.mp h), List.append_nil]

theorem toList_toByteArray (bytes : List UInt8) : bytes.toByteArray.toList = bytes := by
  rw [ByteArray.toList, toList_loop, List.data_toByteArray]
  rfl

theorem encode_eq_flatMap (s : String) : encode s = s.toList.flatMap String.utf8EncodeChar := by
  conv_lhs => rw [← String.ofList_toList (s := s)]
  exact toList_toByteArray _

/-- Reading the bytes of a text gives the text back. -/
@[simp] theorem decode_encode (s : String) : decode (encode s) = s := by
  rw [decode, encode_eq_flatMap, decodeFrom_flatMap_utf8EncodeChar, String.ofList_toList]

end LuaMachine.Text
