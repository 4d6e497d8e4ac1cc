import Mathlib.Data.Nat.Bitwise
import Mathlib.Tactic.Ring
import Stratavm.Format

/-!
# `ByteReader` and `ByteWriter`

The primitive codec (`byte_reader.hpp`, `byte_writer.hpp`): fixed-width little-endian integers,
LEB128 varints, zig-zag varints, IEEE-754 bit patterns and length-prefixed strings. A writer call
is the bytes it appends.

Each writer is inverted by its reader (`Reads`): `reads_u16` to `reads_lpString`. The varint
pair is the one with an argument in it. `readVarintLoop` keeps the groups read so far below
`2 ^ shift`, so or-ing in the next group adds it (`or_group`), and the writer's loop emits the
base-128 digits (`varint_eq`).
-/

namespace Stratavm

open Lib Lib.Decoder

/-! ## The writer -/

/-- `ByteWriter::u8`. -/
def u8 (v : UInt8) : Bytes := [v]

/-- `ByteWriter::u16`. -/
def u16 (v : UInt16) : Bytes := [v.toUInt8, (v >>> 8).toUInt8]

/-- `ByteWriter::u32`. -/
def u32 (v : UInt32) : Bytes :=
  [v.toUInt8, (v >>> 8).toUInt8, (v >>> 16).toUInt8, (v >>> 24).toUInt8]

/-- `ByteWriter::u64`. -/
def u64 (v : UInt64) : Bytes :=
  [v.toUInt8, (v >>> 8).toUInt8, (v >>> 16).toUInt8, (v >>> 24).toUInt8,
    (v >>> 32).toUInt8, (v >>> 40).toUInt8, (v >>> 48).toUInt8, (v >>> 56).toUInt8]

/-- `ByteWriter::f64`, on the bit pattern of the double. -/
def f64 (bits : UInt64) : Bytes := u64 bits

/-- The `while (v >= 0x80)` loop of `varint`, at most `n` iterations. -/
def varintLoop : Nat → UInt64 → Bytes
  | 0, _ => []
  | n + 1, v =>
    if v ≥ 0x80 then ((v &&& 0x7F) ||| 0x80).toUInt8 :: varintLoop n (v >>> 7) else [v.toUInt8]

/-- `ByteWriter::varint`. Ten groups of seven bits hold any `u64` (`varint_eq`). -/
def varint (v : UInt64) : Bytes := varintLoop 10 v

/-- The zig-zag image of a signed value. -/
def zigzag (v : Int64) : UInt64 := (v.toUInt64 <<< 1) ^^^ (v >>> 63).toUInt64

/-- `ByteWriter::svarint`. -/
def svarint (v : Int64) : Bytes := varint (zigzag v)

/-- `ByteWriter::lp_string`. -/
def lpString (s : Bytes) : Bytes := varint (UInt64.ofNat s.length) ++ s

/-- `ByteWriter::patch_u32`. -/
def patchU32 (buf : Bytes) (pos : Nat) (v : UInt32) : Bytes :=
  (((buf.set pos v.toUInt8).set (pos + 1) (v >>> 8).toUInt8).set (pos + 2)
    (v >>> 16).toUInt8).set (pos + 3) (v >>> 24).toUInt8

/-! ## The reader -/

/-- `ByteReader::read_u8`. -/
def readU8 : Reader UInt8
  | b :: r => .ok (b, r)
  | [] => .error ⟨.truncated, "u8"⟩

/-- `ByteReader::read_u16`. -/
def readU16 : Reader UInt16
  | b0 :: b1 :: r => .ok (b0.toUInt16 ||| (b1.toUInt16 <<< 8), r)
  | _ => .error ⟨.truncated, "u16"⟩

/-- `ByteReader::read_u32`. -/
def readU32 : Reader UInt32
  | b0 :: b1 :: b2 :: b3 :: r =>
    .ok (b0.toUInt32 ||| (b1.toUInt32 <<< 8) ||| (b2.toUInt32 <<< 16) ||| (b3.toUInt32 <<< 24), r)
  | _ => .error ⟨.truncated, "u32"⟩

/-- `ByteReader::read_u64`. -/
def readU64 : Reader UInt64
  | b0 :: b1 :: b2 :: b3 :: b4 :: b5 :: b6 :: b7 :: r =>
    .ok (b0.toUInt64 ||| (b1.toUInt64 <<< 8) ||| (b2.toUInt64 <<< 16) ||| (b3.toUInt64 <<< 24) |||
      (b4.toUInt64 <<< 32) ||| (b5.toUInt64 <<< 40) ||| (b6.toUInt64 <<< 48) |||
      (b7.toUInt64 <<< 56), r)
  | _ => .error ⟨.truncated, "u64"⟩

/-- `ByteReader::read_f64`, as a bit pattern. -/
def readF64 : Reader UInt64 := readU64

/-- The loop of `read_varint`, with `n` iterations left. -/
def readVarintLoop : Nat → UInt64 → UInt64 → Reader UInt64
  | 0, _, _ => fail .badValue "varint too long"
  | n + 1, shift, value => fun
    | [] => .error ⟨.truncated, "varint"⟩
    | byte :: r =>
      let value := value ||| ((byte &&& 0x7F).toUInt64 <<< shift)
      if byte &&& 0x80 = 0 then .ok (value, r) else readVarintLoop n (shift + 7) value r

/-- `ByteReader::read_varint`. -/
def readVarint : Reader UInt64 := readVarintLoop 10 0 0

/-- `ByteReader::read_varint_u32`. -/
def readVarintU32 : Reader UInt32 := do
  let v ← readVarint
  if v > 0xFFFFFFFF then fail .badValue "varint exceeds u32" else pure v.toUInt32

/-- The signed value of a zig-zag image. -/
def unzigzag (u : UInt64) : Int64 := ((u >>> 1) ^^^ (~~~(u &&& 1) + 1)).toInt64

/-- `ByteReader::read_svarint`. -/
def readSvarint : Reader Int64 := do
  let u ← readVarint
  pure (unzigzag u)

/-- `ByteReader::read_bytes`. -/
def readBytes (length : Nat) : Reader Bytes := fun r =>
  if r.length < length then .error ⟨.truncated, "bytes"⟩
  else .ok (r.take length, r.drop length)

/-- `ByteReader::read_lp_string`. -/
def readLpString (maxLen : Nat) : Reader Bytes := do
  let len ← readVarint
  if len.toNat > maxLen then fail .limitExceeded "string too long" else readBytes len.toNat

/-! ## Fixed-width integers -/

theorem reads_u8 (v : UInt8) : Reads readU8 (u8 v) v := fun _ => rfl

/-- The low `k` bytes of `n` and its next byte make its low `k + 1` bytes. -/
theorem lor_byte (n k : Nat) :
    n % 2 ^ (8 * k) ||| ((n >>> (8 * k)) % 2 ^ 8) <<< (8 * k) = n % 2 ^ (8 * (k + 1)) := by
  apply Nat.eq_of_testBit_eq
  intro i
  simp only [Nat.testBit_lor, Nat.testBit_mod_two_pow, Nat.testBit_shiftLeft,
    Nat.testBit_shiftRight]
  by_cases h1 : i < 8 * k
  · simp [h1, show ¬ i ≥ 8 * k by omega, show i < 8 * (k + 1) by omega]
  · have heq : 8 * k + (i - 8 * k) = i := by omega
    by_cases h2 : i < 8 * (k + 1)
    · simp [h1, show i ≥ 8 * k by omega, show i - 8 * k < 8 by omega, heq, h2]
    · simp [h1, show ¬ i - 8 * k < 8 by omega, h2]

/-- Shifting a byte up inside a wider word loses no bit. -/
theorem shl_byte_mod (b : Nat) {k w : Nat} (h : 8 + 8 * k ≤ w) :
    ((b % 2 ^ 8) <<< (8 * k)) % 2 ^ w = (b % 2 ^ 8) <<< (8 * k) := by
  apply Nat.mod_eq_of_lt
  rw [Nat.shiftLeft_eq]
  calc b % 2 ^ 8 * 2 ^ (8 * k) < 2 ^ 8 * 2 ^ (8 * k) :=
        Nat.mul_lt_mul_of_pos_right (Nat.mod_lt _ (by decide)) (Nat.two_pow_pos _)
    _ = 2 ^ (8 + 8 * k) := (Nat.pow_add 2 8 (8 * k)).symm
    _ ≤ 2 ^ w := Nat.pow_le_pow_right (by decide) h

theorem reads_u16 (v : UInt16) : Reads readU16 (u16 v) v := by
  intro t
  have h : v.toUInt8.toUInt16 ||| ((v >>> 8).toUInt8.toUInt16 <<< 8) = v := by
    rw [← UInt16.toNat_inj]
    have h1 := lor_byte v.toNat 1
    have s1 := shl_byte_mod (v.toNat >>> 8) (k := 1) (w := 16) (by omega)
    have hv := v.toNat_lt
    simp only [UInt16.toNat_or, UInt16.toNat_shiftLeft, UInt8.toNat_toUInt16,
      UInt16.toNat_toUInt8, UInt16.toNat_shiftRight]
    change v.toNat % 2 ^ 8 ||| (v.toNat >>> 8 % 2 ^ 8) <<< 8 % 2 ^ 16 = v.toNat
    rw [s1, h1, Nat.mod_eq_of_lt hv]
  show Except.ok (_, t) = _
  rw [h]

theorem reads_u32 (v : UInt32) : Reads readU32 (u32 v) v := by
  intro t
  have h : v.toUInt8.toUInt32 ||| ((v >>> 8).toUInt8.toUInt32 <<< 8) |||
      ((v >>> 16).toUInt8.toUInt32 <<< 16) ||| ((v >>> 24).toUInt8.toUInt32 <<< 24) = v := by
    rw [← UInt32.toNat_inj]
    have s1 := shl_byte_mod (v.toNat >>> 8) (k := 1) (w := 32) (by omega)
    have s2 := shl_byte_mod (v.toNat >>> 16) (k := 2) (w := 32) (by omega)
    have s3 := shl_byte_mod (v.toNat >>> 24) (k := 3) (w := 32) (by omega)
    simp only [UInt32.toNat_or, UInt32.toNat_shiftLeft, UInt8.toNat_toUInt32,
      UInt32.toNat_toUInt8, UInt32.toNat_shiftRight]
    change v.toNat % 2 ^ 8 ||| (v.toNat >>> 8 % 2 ^ 8) <<< 8 % 2 ^ 32 |||
      (v.toNat >>> 16 % 2 ^ 8) <<< 16 % 2 ^ 32 ||| (v.toNat >>> 24 % 2 ^ 8) <<< 24 % 2 ^ 32 = v.toNat
    rw [s1, s2, s3, lor_byte v.toNat 1, lor_byte v.toNat 2, lor_byte v.toNat 3,
      Nat.mod_eq_of_lt v.toNat_lt]
  show Except.ok (_, t) = _
  rw [h]

theorem reads_u64 (v : UInt64) : Reads readU64 (u64 v) v := by
  intro t
  have h : v.toUInt8.toUInt64 ||| ((v >>> 8).toUInt8.toUInt64 <<< 8) |||
      ((v >>> 16).toUInt8.toUInt64 <<< 16) ||| ((v >>> 24).toUInt8.toUInt64 <<< 24) |||
      ((v >>> 32).toUInt8.toUInt64 <<< 32) ||| ((v >>> 40).toUInt8.toUInt64 <<< 40) |||
      ((v >>> 48).toUInt8.toUInt64 <<< 48) ||| ((v >>> 56).toUInt8.toUInt64 <<< 56) = v := by
    rw [← UInt64.toNat_inj]
    have s (k : Nat) (hk : k < 8) := shl_byte_mod (v.toNat >>> (8 * k)) (k := k) (w := 64) (by omega)
    simp only [UInt64.toNat_or, UInt64.toNat_shiftLeft, UInt8.toNat_toUInt64,
      UInt64.toNat_toUInt8, UInt64.toNat_shiftRight]
    change v.toNat % 2 ^ 8 ||| (v.toNat >>> 8 % 2 ^ 8) <<< 8 % 2 ^ 64 |||
      (v.toNat >>> 16 % 2 ^ 8) <<< 16 % 2 ^ 64 ||| (v.toNat >>> 24 % 2 ^ 8) <<< 24 % 2 ^ 64 |||
      (v.toNat >>> 32 % 2 ^ 8) <<< 32 % 2 ^ 64 ||| (v.toNat >>> 40 % 2 ^ 8) <<< 40 % 2 ^ 64 |||
      (v.toNat >>> 48 % 2 ^ 8) <<< 48 % 2 ^ 64 ||| (v.toNat >>> 56 % 2 ^ 8) <<< 56 % 2 ^ 64 = v.toNat
    rw [s 1 (by decide), s 2 (by decide), s 3 (by decide), s 4 (by decide), s 5 (by decide),
      s 6 (by decide), s 7 (by decide), lor_byte v.toNat 1, lor_byte v.toNat 2,
      lor_byte v.toNat 3, lor_byte v.toNat 4, lor_byte v.toNat 5, lor_byte v.toNat 6,
      lor_byte v.toNat 7, Nat.mod_eq_of_lt v.toNat_lt]
  show Except.ok (_, t) = _
  rw [h]

theorem reads_f64 (bits : UInt64) : Reads readF64 (f64 bits) bits := reads_u64 bits

/-! ## Varints -/

theorem toNat_shr7 (v : UInt64) : (v >>> 7).toNat = v.toNat / 2 ^ 7 := by
  rw [UInt64.toNat_shiftRight]
  exact Nat.shiftRight_eq_div_pow v.toNat 7

theorem varintLoop_step (n : Nat) (v : UInt64) : varintLoop (n + 1) v =
    if v ≥ 0x80 then ((v &&& 0x7F) ||| 0x80).toUInt8 :: varintLoop n (v >>> 7) else [v.toUInt8] :=
  rfl

/-- With enough iterations left, one more changes nothing. -/
theorem varintLoop_succ : ∀ {n : Nat} {v : UInt64}, v.toNat < 2 ^ (7 * n) → 0 < n →
    varintLoop (n + 1) v = varintLoop n v
  | 0, _, _, h => absurd h (Nat.lt_irrefl 0)
  | n + 1, v, hv, _ => by
    rw [varintLoop_step (n + 1) v, varintLoop_step n v]
    by_cases h : v ≥ 0x80
    · have h7 : 2 ^ 7 ≤ v.toNat := UInt64.le_iff_toNat_le.mp h
      have hn : 0 < n := by
        rcases Nat.eq_zero_or_pos n with rfl | hn
        · omega
        · exact hn
      have hv' : (v >>> 7).toNat < 2 ^ (7 * n) := by
        rw [toNat_shr7, Nat.div_lt_iff_lt_mul (by decide), ← Nat.pow_add]
        exact lt_of_lt_of_eq hv (by ring_nf)
      rw [if_pos h, if_pos h, varintLoop_succ hv' hn]
    · rw [if_neg h, if_neg h]

/-- **The writer's loop, with no bound on the iterations**: the recursion of the source. -/
theorem varint_eq (v : UInt64) : varint v =
    if v ≥ 0x80 then ((v &&& 0x7F) ||| 0x80).toUInt8 :: varint (v >>> 7) else [v.toUInt8] := by
  have hv : v.toNat < 2 ^ (7 * 10) := lt_of_lt_of_le v.toNat_lt (by decide)
  unfold varint
  rw [← varintLoop_succ hv (by decide), varintLoop_step]

theorem length_varintLoop_le : ∀ (n : Nat) (v : UInt64), (varintLoop n v).length ≤ n
  | 0, _ => Nat.le_refl _
  | n + 1, v => by
    rw [varintLoop_step]
    split
    · exact Nat.succ_le_succ (length_varintLoop_le n _)
    · exact Nat.succ_le_succ (Nat.zero_le n)

theorem length_varint_le (v : UInt64) : (varint v).length ≤ 10 := length_varintLoop_le 10 v

/-- Or-ing a group in at a shift of a 64-bit word adds it, modulo the word. -/
theorem or_group (value : UInt64) (b : UInt8) {k : Nat} (hk : k < 10)
    (hval : value.toNat < 2 ^ (7 * k)) :
    (value ||| ((b &&& 0x7F).toUInt64 <<< UInt64.ofNat (7 * k))).toNat =
      (value.toNat + b.toNat % 128 * 2 ^ (7 * k)) % 2 ^ 64 := by
  have hlow : (b &&& 0x7F).toNat = b.toNat % 128 := by
    rw [UInt8.toNat_and]
    exact Nat.and_two_pow_sub_one_eq_mod b.toNat 7
  have hsh : (UInt64.ofNat (7 * k)).toNat % 64 = 7 * k := by
    rw [UInt64.toNat_ofNat', Nat.mod_eq_of_lt (a := 7 * k) (by omega), Nat.mod_eq_of_lt (by omega)]
  have hsplit : 2 ^ 64 = 2 ^ (64 - 7 * k) * 2 ^ (7 * k) := by
    rw [← Nat.pow_add]
    congr 1
    omega
  -- the group keeps the bits that the word has above `7 * k`
  have hgroup : b.toNat % 128 * 2 ^ (7 * k) % 2 ^ 64 =
      b.toNat % 128 % 2 ^ (64 - 7 * k) * 2 ^ (7 * k) := by
    rw [hsplit, Nat.mul_mod_mul_right]
  have hfit : value.toNat + b.toNat % 128 % 2 ^ (64 - 7 * k) * 2 ^ (7 * k) < 2 ^ 64 := by
    have hlt : b.toNat % 128 % 2 ^ (64 - 7 * k) + 1 ≤ 2 ^ (64 - 7 * k) :=
      Nat.mod_lt _ (Nat.two_pow_pos _)
    calc value.toNat + b.toNat % 128 % 2 ^ (64 - 7 * k) * 2 ^ (7 * k)
        < 2 ^ (7 * k) + b.toNat % 128 % 2 ^ (64 - 7 * k) * 2 ^ (7 * k) := by omega
      _ = (b.toNat % 128 % 2 ^ (64 - 7 * k) + 1) * 2 ^ (7 * k) := by ring
      _ ≤ 2 ^ (64 - 7 * k) * 2 ^ (7 * k) := Nat.mul_le_mul_right _ hlt
      _ = 2 ^ 64 := hsplit.symm
  rw [UInt64.toNat_or, UInt64.toNat_shiftLeft, UInt8.toNat_toUInt64, hlow, hsh, Nat.shiftLeft_eq,
    hgroup, Nat.or_comm, ← Nat.shiftLeft_eq, ← Nat.shiftLeft_add_eq_or_of_lt hval,
    Nat.shiftLeft_eq, Nat.add_comm, ← Nat.mod_eq_of_lt hfit, ← hgroup, Nat.add_mod_mod]

/-- A group more fills seven bits more. -/
theorem or_group_lt (value : UInt64) (b : UInt8) {k : Nat} (hval : value.toNat < 2 ^ (7 * k)) :
    (value.toNat + b.toNat % 128 * 2 ^ (7 * k)) % 2 ^ 64 < 2 ^ (7 * (k + 1)) := by
  have hlow : b.toNat % 128 + 1 ≤ 2 ^ 7 := Nat.mod_lt _ (by decide)
  calc (value.toNat + b.toNat % 128 * 2 ^ (7 * k)) % 2 ^ 64
      ≤ value.toNat + b.toNat % 128 * 2 ^ (7 * k) := Nat.mod_le _ _
    _ < 2 ^ (7 * k) + b.toNat % 128 * 2 ^ (7 * k) := by omega
    _ = (b.toNat % 128 + 1) * 2 ^ (7 * k) := by ring
    _ ≤ 2 ^ 7 * 2 ^ (7 * k) := Nat.mul_le_mul_right _ hlow
    _ = 2 ^ (7 * (k + 1)) := by ring

/-- The last group: its continuation bit is clear and its value is the byte. -/
theorem last_group {v : UInt64} (h : v.toNat < 2 ^ 7) :
    v.toUInt8 &&& 0x80 = 0 ∧ v.toUInt8.toNat % 128 = v.toNat := by
  have hv : v.toUInt8 = UInt8.ofNat v.toNat := by
    rw [← UInt8.toNat_inj, UInt64.toNat_toUInt8, UInt8.toNat_ofNat']
  rw [hv]
  exact (by decide : ∀ n < 2 ^ 7,
    UInt8.ofNat n &&& 0x80 = 0 ∧ (UInt8.ofNat n).toNat % 128 = n) _ h

/-- A continued group: its continuation bit is set and its value is the low seven bits. -/
theorem cont_group (v : UInt64) :
    ((v &&& 0x7F) ||| 0x80).toUInt8 &&& 0x80 ≠ 0 ∧
      ((v &&& 0x7F) ||| 0x80).toUInt8.toNat % 128 = v.toNat % 2 ^ 7 := by
  have hv : v &&& 0x7F = UInt64.ofNat (v.toNat % 2 ^ 7) := by
    rw [← UInt64.toNat_inj, UInt64.toNat_and, UInt64.toNat_ofNat']
    rw [Nat.mod_eq_of_lt (a := v.toNat % 2 ^ 7) (by omega)]
    exact Nat.and_two_pow_sub_one_eq_mod v.toNat 7
  rw [hv]
  exact (by decide : ∀ n < 2 ^ 7, (UInt64.ofNat n ||| 0x80).toUInt8 &&& 0x80 ≠ 0 ∧
    (UInt64.ofNat n ||| 0x80).toUInt8.toNat % 128 = n) _
    (Nat.mod_lt v.toNat (by decide))

/-- The reader undoes the writer's loop from any group on: with `k` groups read into `value`, the
groups of `v` add `v * 128 ^ k`. -/
theorem reads_varintLoop : ∀ (n k : Nat) (value v : UInt64), n + k = 10 → 0 < n →
    value.toNat < 2 ^ (7 * k) → value.toNat + v.toNat * 2 ^ (7 * k) < 2 ^ 64 →
    Reads (readVarintLoop n (UInt64.ofNat (7 * k)) value) (varintLoop n v)
      (UInt64.ofNat (value.toNat + v.toNat * 2 ^ (7 * k)))
  | 0, _, _, _, _, h, _, _ => absurd h (Nat.lt_irrefl 0)
  | n + 1, k, value, v, hnk, _, hval, hfit => by
    intro t
    rw [varintLoop_step]
    by_cases h : v ≥ 0x80
    · have h7 : 2 ^ 7 ≤ v.toNat := UInt64.le_iff_toNat_le.mp h
      rw [if_pos h]
      obtain ⟨hc, hlow⟩ := cont_group v
      generalize ((v &&& 0x7F) ||| 0x80).toUInt8 = b at hc hlow
      have hsplit : v.toNat % 2 ^ 7 * 2 ^ (7 * k) + v.toNat / 2 ^ 7 * 2 ^ (7 * (k + 1)) =
          v.toNat * 2 ^ (7 * k) := by
        have := Nat.mod_add_div v.toNat (2 ^ 7)
        calc _ = (v.toNat % 2 ^ 7 + 2 ^ 7 * (v.toNat / 2 ^ 7)) * 2 ^ (7 * k) := by ring
          _ = v.toNat * 2 ^ (7 * k) := by rw [this]
      have hor := or_group value b (show k < 10 by omega) hval
      have hlt := hor ▸ or_group_lt value b hval
      rw [hlow, Nat.mod_eq_of_lt (by omega)] at hor
      have hn : 0 < n := by
        rcases Nat.eq_zero_or_pos n with rfl | hn
        · have hk : k = 9 := by omega
          subst hk
          omega
        · exact hn
      have ih := reads_varintLoop n (k + 1)
        (value ||| ((b &&& 0x7F).toUInt64 <<< UInt64.ofNat (7 * k))) (v >>> 7)
        (by omega) hn hlt (by rw [hor, toNat_shr7]; omega) t
      have hshift : UInt64.ofNat (7 * k) + 7 = UInt64.ofNat (7 * (k + 1)) := by
        rw [Nat.mul_succ, UInt64.ofNat_add]; rfl
      rw [hor, toNat_shr7, Nat.add_assoc, hsplit] at ih
      rw [List.cons_append, readVarintLoop]
      simp only [hc, if_false, hshift]
      exact ih
    · have h7 : v.toNat < 2 ^ 7 := by
        by_contra hle
        exact h (UInt64.le_iff_toNat_le.mpr (by simpa using hle))
      obtain ⟨hc, hlow⟩ := last_group h7
      have hor := or_group value v.toUInt8 (show k < 10 by omega) hval
      rw [hlow, Nat.mod_eq_of_lt hfit] at hor
      rw [if_neg h, List.cons_append, List.nil_append, readVarintLoop]
      simp only [hc, if_true]
      rw [← hor, UInt64.ofNat_toNat]

theorem reads_varint (v : UInt64) : Reads readVarint (varint v) v := by
  have h := reads_varintLoop 10 0 0 v rfl (by decide) (by decide) (by simpa using v.toNat_lt)
  simpa [readVarint, varint] using h

theorem reads_varintU32 (v : UInt32) : Reads readVarintU32 (varint v.toUInt64) v := by
  have hle : ¬ v.toUInt64 > 0xFFFFFFFF := by
    rw [gt_iff_lt, UInt64.lt_iff_toNat_lt, UInt32.toNat_toUInt64]
    have := v.toNat_lt
    simp only [UInt64.reduceToNat]
    omega
  have h : Reads readVarintU32 (varint v.toUInt64 ++ []) v := by
    refine Reads.bind (reads_varint _) ?_
    rw [if_neg hle]
    rw [UInt32.toUInt32_toUInt64]
    exact Reads.pure v
  rwa [List.append_nil] at h

theorem toNat_ofNat_of_lt {n : Nat} (h : n < 2 ^ 32) : (UInt32.ofNat n).toNat = n := by
  rw [UInt32.toNat_ofNat', Nat.mod_eq_of_lt h]

/-- A count below `2 ^ 32` is the same as a `size_t` and as a `u32`. -/
theorem ofNat_count32 {n : Nat} (h : n < 2 ^ 32) : UInt64.ofNat n = (UInt32.ofNat n).toUInt64 := by
  rw [← UInt64.toNat_inj, UInt32.toNat_toUInt64, toNat_ofNat_of_lt h, UInt64.toNat_ofNat',
    Nat.mod_eq_of_lt (by omega)]

/-- A count below `2 ^ 32` is written as a `size_t` and read as a `u32`. -/
theorem reads_count32 {n : Nat} (h : n < 2 ^ 32) :
    Reads readVarintU32 (varint (UInt64.ofNat n)) (UInt32.ofNat n) ∧ (UInt32.ofNat n).toNat = n :=
  ⟨ofNat_count32 h ▸ reads_varintU32 _, toNat_ofNat_of_lt h⟩

theorem readVarintLoop_error {n : Nat} {shift value : UInt64} {s : Bytes} {e : Status}
    (h : readVarintLoop n shift value s = .error e) : e.code = .truncated ∨ e.code = .badValue := by
  induction n generalizing shift value s with
  | zero =>
    cases h
    exact .inr rfl
  | succ n ih =>
    cases s with
    | nil =>
      cases h
      exact .inl rfl
    | cons byte r =>
      simp only [readVarintLoop] at h
      split at h
      · cases h
      · exact ih h

/-- A varint operand fails by truncation or by its value. -/
theorem readVarintU32_error {s : Bytes} {e : Status} (h : readVarintU32 s = .error e) :
    e.code = .truncated ∨ e.code = .badValue := by
  cases hv : readVarint s with
  | error e' =>
    rw [readVarintU32, bind_of_error hv] at h
    cases h
    exact readVarintLoop_error hv
  | ok p =>
    rw [readVarintU32, bind_of_ok (show readVarint s = .ok (p.1, p.2) from hv)] at h
    split at h
    · cases h
      exact .inr rfl
    · cases h

/-- A `u32` read as a varint is the value of the `u64` read. -/
theorem readVarintU32_eq_ok {s s' : Bytes} {v : UInt32} :
    readVarintU32 s = .ok (v, s') ↔ readVarint s = .ok (v.toUInt64, s') := by
  unfold readVarintU32
  rw [bind_eq_ok]
  constructor
  · rintro ⟨u, s1, hu, h⟩
    split at h
    · exact absurd h fail_ne_ok
    · rename_i hle
      obtain ⟨rfl, rfl⟩ := pure_eq_ok.mp h
      have : u.toUInt32.toUInt64 = u := by
        rw [← UInt64.toNat_inj, UInt32.toNat_toUInt64, UInt64.toNat_toUInt32]
        rw [gt_iff_lt, UInt64.lt_iff_toNat_lt] at hle
        simp only [UInt64.reduceToNat] at hle
        omega
      rw [this]
      exact hu
  · intro h
    refine ⟨_, _, h, ?_⟩
    have hle : ¬ v.toUInt64 > 0xFFFFFFFF := by
      rw [gt_iff_lt, UInt64.lt_iff_toNat_lt, UInt32.toNat_toUInt64]
      have := v.toNat_lt
      simp only [UInt64.reduceToNat]
      omega
    rw [if_neg hle, pure_eq_ok]
    exact ⟨UInt32.toUInt32_toUInt64 v, rfl⟩

/-! ## Zig-zag -/

/-- The arithmetic shift by 63 spreads the sign bit. -/
theorem sshiftRight_63 (b : BitVec 64) :
    b.sshiftRight 63 = if b.msb then BitVec.allOnes 64 else 0#64 := by
  ext i hi
  rw [BitVec.getElem_sshiftRight]
  have hlast : ∀ h : 63 + i < 64, b[63 + i] = b.msb := by
    intro h
    obtain rfl : i = 0 := by omega
    rw [BitVec.msb_eq_getLsbD_last]
    rfl
  by_cases h : b.msb = true
  · rw [if_pos h, BitVec.getElem_allOnes]
    split
    · rw [hlast, h]
    · exact h
  · rw [if_neg h, BitVec.getElem_zero]
    split
    · rw [hlast]; simpa using h
    · simpa using h

theorem and_one (b : BitVec 64) : b &&& 1#64 = if b.getLsbD 0 then 1#64 else 0#64 := by
  ext i hi
  rw [BitVec.getElem_and]
  cases i with
  | zero => cases h : b.getLsbD 0 <;> simp_all [BitVec.getLsbD_eq_getElem]
  | succ n => cases h : b.getLsbD 0 <;> simp [BitVec.getElem_one]

theorem shl_one_shr_one {b : BitVec 64} (h : b.msb = false) : (b <<< 1) >>> 1 = b := by
  ext i hi
  rw [BitVec.getElem_ushiftRight]
  by_cases h2 : i + 1 < 64
  · simp [h2, Nat.add_comm]
  · obtain rfl : i = 63 := by omega
    rw [BitVec.msb_eq_getLsbD_last] at h
    simpa using h.symm

/-- A negative word's zig-zag image is the complement of its double; halving and complementing
gives it back. -/
theorem not_shl_one_shr_one {b : BitVec 64} (h : b.msb = true) :
    ~~~((~~~(b <<< 1)) >>> 1) = b := by
  ext i hi
  rw [BitVec.getElem_not, BitVec.getElem_ushiftRight]
  by_cases h2 : i + 1 < 64
  · simp [h2, Nat.add_comm]
  · obtain rfl : i = 63 := by omega
    rw [BitVec.msb_eq_getLsbD_last] at h
    simpa using h.symm

theorem unzigzag_bits (b : BitVec 64) :
    ((b <<< 1 ^^^ b.sshiftRight 63) >>> 1) ^^^
      (~~~((b <<< 1 ^^^ b.sshiftRight 63) &&& 1#64) + 1#64) = b := by
  have hz : (b <<< 1).getLsbD 0 = false := by simp
  rw [and_one, sshiftRight_63]
  cases h : b.msb with
  | false =>
    rw [if_neg Bool.false_ne_true, BitVec.xor_zero, hz, if_neg Bool.false_ne_true]
    exact (BitVec.xor_zero).trans (shl_one_shr_one h)
  | true =>
    rw [if_pos rfl, BitVec.xor_allOnes, BitVec.getLsbD_not, hz]
    exact (BitVec.xor_allOnes).trans (not_shl_one_shr_one h)

theorem unzigzag_zigzag (v : Int64) : unzigzag (zigzag v) = v := by
  have h63 : ((v >>> 63).toUInt64).toBitVec = v.toBitVec.sshiftRight 63 := by
    show (v >>> 63).toBitVec = _
    rw [Int64.toBitVec_shiftRight]
    rfl
  rw [← Int64.toBitVec_inj]
  simp only [unzigzag, zigzag, UInt64.toBitVec_toInt64, UInt64.toBitVec_xor,
    UInt64.toBitVec_shiftRight, UInt64.toBitVec_shiftLeft, UInt64.toBitVec_add,
    UInt64.toBitVec_not, UInt64.toBitVec_and, h63]
  exact unzigzag_bits v.toBitVec

theorem reads_svarint (v : Int64) : Reads readSvarint (svarint v) v := by
  have h : Reads readSvarint (svarint v) (unzigzag (zigzag v)) := (reads_varint (zigzag v)).bind_pure
  rwa [unzigzag_zigzag] at h

/-! ## Byte runs -/

theorem reads_bytes (s : Bytes) : Reads (readBytes s.length) s s := by
  intro t
  unfold readBytes
  rw [if_neg (by simp), List.take_left, List.drop_left]

theorem reads_lpString {s : Bytes} {maxLen : Nat} (h : s.length ≤ maxLen)
    (h64 : s.length < 2 ^ 64) : Reads (readLpString maxLen) (lpString s) s := by
  have hlen : (UInt64.ofNat s.length).toNat = s.length := by
    rw [UInt64.toNat_ofNat', Nat.mod_eq_of_lt h64]
  refine Reads.bind (reads_varint _) ?_
  rw [hlen, if_neg (Nat.not_lt.mpr h)]
  exact reads_bytes s

end Stratavm
