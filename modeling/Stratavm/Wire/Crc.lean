import Stratavm.Lib.Crc
import Stratavm.Wire

/-!
# The checksum of the wire protocol

`wire_crc32` takes a byte at a time from a table. Its register is the reflected one: an entry of the
table is eight shifts of a byte, and eight shifts of the register are those of its low byte and the
rest of it moved down (`toBitVec_crcByte`).

The reference is the definition of a CRC a bit at a time (`Lib/Crc.lean`), at the parameters of the variant
that the source names (`isoHdlc`): the generator, reflected input and output, and both registers
complemented. `toBitVec_foldl_crcByte` is the simulation of one by the other, byte by byte.

* **`wireCrc32_isoHdlc`**: `wire_crc32` is CRC-32/ISO-HDLC of any message, a bit at a time and as the
  remainder on division by the generator.
-/

namespace Stratavm

open Lib Lib.Crc Polynomial

/-- CRC-32/ISO-HDLC. -/
def isoHdlc : Crc.Params 32 where
  poly := 0x04C11DB7
  init := 0xFFFFFFFF
  refin := true
  refout := true
  xorout := 0xFFFFFFFF

theorem generator_isoHdlc : generator isoHdlc.poly =
    X ^ 32 + X ^ 26 + X ^ 23 + X ^ 22 + X ^ 16 + X ^ 12 + X ^ 11 + X ^ 10 + X ^ 8 + X ^ 7 + X ^ 5 +
      X ^ 4 + X ^ 2 + X + 1 := by
  simp [generator, toPoly, isoHdlc, Finset.sum_range_succ]
  ring

/-- The loop of the table uses the generator in reflected order. -/
theorem reverse_poly : isoHdlc.poly.reverse = 0xEDB88320 := by decide +kernel

/-- A byte into the register of `wire_crc32`. -/
def crcByte (crc : UInt32) (byte : UInt8) : UInt32 :=
  crcTable ((crc ^^^ byte.toUInt32) &&& 0xFF) ^^^ (crc >>> 8)

theorem toBitVec_crcShift (n : Nat) (c : UInt32) :
    (crcShift n c).toBitVec = (shift isoHdlc.poly.reverse)^[n] c.toBitVec := by
  induction n generalizing c with
  | zero => rfl
  | succ n ih =>
    have hlow : c &&& 1 ≠ 0 ↔ c.toBitVec.getLsbD 0 = true := by
      have hone : c.toBitVec &&& 1#32 = (BitVec.ofBool (c.toBitVec.getLsbD 0)).setWidth 32 :=
        BitVec.and_one_eq_setWidth_ofBool_getLsbD
      rw [Ne, ← UInt32.toBitVec_inj, UInt32.toBitVec_and]
      refine (not_congr (Eq.congr_left hone)).trans ?_
      cases c.toBitVec.getLsbD 0 <;> decide
    rw [crcShift, ih, Function.iterate_succ_apply, shift, reverse_poly]
    refine congrArg _ ?_
    by_cases h : c &&& 1 ≠ 0
    · rw [if_pos h, if_pos (hlow.mp h)]
      simp
    · rw [if_neg h, if_neg (mt hlow.mpr h)]
      simp

/-- The bits of a byte, and no others. -/
theorem getLsbD_toUInt32 (byte : UInt8) (i : Nat) :
    byte.toUInt32.toBitVec.getLsbD i = byte.toBitVec.getLsbD i := by
  rw [UInt8.toBitVec_toUInt32, BitVec.getLsbD_setWidth]
  by_cases hi : i < 32
  · simp [hi]
  · simp [hi, BitVec.getLsbD_of_ge byte.toBitVec i (by omega)]

theorem toUInt32_shiftRight (byte : UInt8) : byte.toUInt32.toBitVec >>> 8 = 0#32 := by
  refine BitVec.eq_of_getLsbD_eq fun i _ => ?_
  rw [BitVec.getLsbD_ushiftRight, getLsbD_toUInt32, BitVec.getLsbD_of_ge _ _ (Nat.le_add_right 8 i),
    BitVec.getLsbD_zero]

/-- A step of the table is eight shifts of the register with the byte xored into it. -/
theorem toBitVec_crcByte (crc : UInt32) (byte : UInt8) :
    (crcByte crc byte).toBitVec =
      (shift isoHdlc.poly.reverse)^[8] (crc.toBitVec ^^^ byte.toUInt32.toBitVec) := by
  have hmask : ∀ i, (0xFF#32).getLsbD i = decide (i < 8) := by
    intro i
    rw [BitVec.getLsbD_ofNat, Nat.testBit_two_pow_sub_one 8 i, ← Bool.decide_and]
    exact decide_eq_decide.mpr (and_iff_right_of_imp fun hi => by omega)
  have hrest : (crc.toBitVec ^^^ byte.toUInt32.toBitVec) >>> 8 = crc.toBitVec >>> 8 := by
    rw [BitVec.ushiftRight_xor_distrib, toUInt32_shiftRight, BitVec.xor_zero]
  rw [crcByte, UInt32.toBitVec_xor, crcTable, toBitVec_crcShift, UInt32.toBitVec_and, UInt32.toBitVec_xor]
  refine ((shift_iterate_low ?_ ?_).trans (congrArg _ hrest)).symm
  · intro i hi
    rw [BitVec.getLsbD_and]
    refine (congrArg _ (hmask i)).trans ?_
    rw [decide_eq_true hi, Bool.and_true]
  · refine BitVec.eq_of_getLsbD_eq fun i _ => ?_
    rw [BitVec.getLsbD_ushiftRight, BitVec.getLsbD_and]
    refine (congrArg _ (hmask (8 + i))).trans ?_
    rw [decide_eq_false (by omega), Bool.and_false, BitVec.getLsbD_zero]

/-- The register of `wire_crc32` is the reflected register of the reference. -/
theorem toBitVec_foldl_crcByte (data : Bytes) {crc : UInt32} {r : BitVec 32}
    (h : crc.toBitVec = r.reverse) :
    (data.foldl crcByte crc).toBitVec =
      (Crc.run isoHdlc.poly r (isoHdlc.messageBits (data.map UInt8.toBitVec))).reverse := by
  induction data generalizing crc r with
  | nil => exact h
  | cons byte data ih =>
    rw [List.foldl_cons, List.map_cons, Params.messageBits, List.flatMap_cons, run_append]
    refine ih ?_
    rw [toBitVec_crcByte, h]
    exact (reverse_run_word (fun i _ => getLsbD_toUInt32 byte i) (toUInt32_shiftRight byte)).symm

theorem wireCrc32_eq_checksum (data : Bytes) :
    (wireCrc32 data).toBitVec = isoHdlc.checksum (data.map UInt8.toBitVec) :=
  congrArg (· ^^^ 0xFFFFFFFF#32) (toBitVec_foldl_crcByte data (r := isoHdlc.init) (by decide +kernel))

/-- **`wire_crc32` is CRC-32/ISO-HDLC**: the checksum a bit at a time, which is the remainder on
division by the generator of the message followed by 32 zeros, its first 32 bits complemented. -/
theorem wireCrc32_isoHdlc (data : Bytes) :
    (wireCrc32 data).toBitVec = isoHdlc.checksum (data.map UInt8.toBitVec) ∧
    toPoly ((wireCrc32 data).toBitVec ^^^ 0xFFFFFFFF#32).reverse =
      (X ^ 32 * bitsPoly (isoHdlc.messageBits (data.map UInt8.toBitVec)) +
        X ^ (8 * data.length) * toPoly 0xFFFFFFFF#32) %ₘ
      (X ^ 32 + X ^ 26 + X ^ 23 + X ^ 22 + X ^ 16 + X ^ 12 + X ^ 11 + X ^ 10 + X ^ 8 + X ^ 7 + X ^ 5 +
        X ^ 4 + X ^ 2 + X + 1) := by
  refine ⟨wireCrc32_eq_checksum data, ?_⟩
  have hlen := isoHdlc.length_messageBits (data.map UInt8.toBitVec)
  rw [List.length_map] at hlen
  rw [wireCrc32_eq_checksum, ← hlen]
  have hcheck : isoHdlc.checksum (data.map UInt8.toBitVec) ^^^ 0xFFFFFFFF#32 =
      (Crc.run isoHdlc.poly isoHdlc.init (isoHdlc.messageBits (data.map UInt8.toBitVec))).reverse :=
    (BitVec.xor_assoc _ _ _).trans ((congrArg _ BitVec.xor_self).trans BitVec.xor_zero)
  rw [hcheck, BitVec.reverse_reverse_eq, ← generator_isoHdlc]
  exact run_poly isoHdlc.poly isoHdlc.init _

end Stratavm
