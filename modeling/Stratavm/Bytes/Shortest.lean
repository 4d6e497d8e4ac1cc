import Stratavm.Bytes.Streams
import Stratavm.Bytes.Varint
import Stratavm.Lib.Consumes
import Stratavm.Value

/-!
# The writers write the shortest form

What a reader accepts of a number, a string or a value, its writer does not write in more bytes:
`ByteWriter::varint` stops at the last group that is not zero, and `read_varint` accepts any number of zero groups
after it. So a section that is read and written again does not grow.

`Consumes d Q` relates what `d` decoded to how many bytes it took; the bound of a string or of a list is
the sum of those of its parts.

* **`consumes_readVarint`**: a varint is written in no more bytes than it was read from. The group that
  ends the shortest form is not zero, so a reader cannot have stopped before it (`length_varintLoop_lt`).
* **`consumes_decode`**: the same of a field value of each type.
-/

namespace Stratavm

open Lib Lib.Decoder

theorem consumes_readU8 : Consumes readU8 fun _ n => n = 1 :=
  (Consumes.of_takes takes_readU8).mono fun _ _ h => h.1

theorem consumes_readF64 : Consumes readF64 fun v n => (f64 v).length ≤ n :=
  (Consumes.of_takes takes_readU64).mono fun _ _ h => h.1.ge

/-! ## Varints -/

/-- Every group of an encoding but the last is needed. -/
theorem length_varintLoop_lt : ∀ (n : Nat) {m : Nat} {v : UInt64}, 0 < m → v.toNat < 2 ^ (7 * m) →
    (varintLoop n v).length ≤ m
  | 0, _, _, _, _ => Nat.zero_le _
  | n + 1, m + 1, v, _, hv => by
    rw [varintLoop_step]
    by_cases h : v ≥ 0x80
    · have h7 : 2 ^ 7 ≤ v.toNat := UInt64.le_iff_toNat_le.mp h
      have hm : 0 < m := by
        rcases Nat.eq_zero_or_pos m with rfl | hm
        · omega
        · exact hm
      have hv' : (v >>> 7).toNat < 2 ^ (7 * m) := by
        rw [toNat_shr7, Nat.div_lt_iff_lt_mul (by decide), ← Nat.pow_add]
        exact lt_of_lt_of_eq hv (by ring_nf)
      rw [if_pos h, List.length_cons]
      exact Nat.succ_le_succ (length_varintLoop_lt n hm hv')
    · rw [if_neg h]
      exact Nat.succ_le_succ (Nat.zero_le m)

theorem Encoding.length_pos {bs : Bytes} (h : Encoding bs) : 0 < bs.length := by
  cases h <;> simp

/-- **A varint is written in no more bytes than it was read from.** -/
theorem consumes_readVarint : Consumes readVarint fun v n => (varint v).length ≤ n := by
  intro s v s' h
  obtain ⟨bs, hbs, hlen, rfl, hv⟩ := readVarint_eq_ok.mp h
  refine ⟨bs.length, List.length_append, length_varintLoop_lt 10 hbs.length_pos ?_⟩
  have hle : v.toNat ≤ leb128 bs := hv ▸ Nat.mod_le _ _
  calc v.toNat ≤ leb128 bs := hle
    _ < 128 ^ bs.length := leb128_lt bs
    _ = 2 ^ (7 * bs.length) := by rw [Nat.pow_mul]

theorem consumes_readVarintU32 : Consumes readVarintU32 fun v n => (varint v.toUInt64).length ≤ n :=
  fun s v s' h => consumes_readVarint s v.toUInt64 s' (readVarintU32_eq_ok.mp h)

theorem zigzag_bits (b : BitVec 64) :
    ((b >>> 1 ^^^ (~~~(b &&& 1#64) + 1#64)) <<< 1) ^^^
      (b >>> 1 ^^^ (~~~(b &&& 1#64) + 1#64)).sshiftRight 63 = b := by
  rw [and_one, sshiftRight_63]
  cases h : b.getLsbD 0 with
  | false =>
    have hzero : ~~~(0#64) + 1#64 = 0#64 := by decide
    have hmsb : (b >>> 1).msb = false := by simp [BitVec.msb_eq_getLsbD_last]
    rw [if_neg Bool.false_ne_true, hzero, BitVec.xor_zero, hmsb, if_neg Bool.false_ne_true, BitVec.xor_zero]
    ext i hi
    cases i with
    | zero => simpa using h.symm
    | succ i => simp [Nat.add_comm, BitVec.getLsbD_eq_getElem hi]
  | true =>
    have hones : ~~~(1#64) + 1#64 = BitVec.allOnes 64 := by decide
    have hmsb : (~~~(b >>> 1)).msb = true := by simp [BitVec.msb_eq_getLsbD_last]
    rw [if_pos rfl, hones, BitVec.xor_allOnes, hmsb, if_pos rfl, BitVec.xor_allOnes]
    ext i hi
    cases i with
    | zero => simpa using h.symm
    | succ i => simp [Nat.add_comm, BitVec.getLsbD_eq_getElem hi]

/-- The zig-zag image of a value that was read is the number that was read. -/
theorem zigzag_unzigzag (u : UInt64) : zigzag (unzigzag u) = u := by
  have h63 (v : Int64) : ((v >>> 63).toUInt64).toBitVec = v.toBitVec.sshiftRight 63 := by
    show (v >>> 63).toBitVec = _
    rw [Int64.toBitVec_shiftRight]
    rfl
  rw [← UInt64.toBitVec_inj]
  simp only [unzigzag, zigzag, UInt64.toBitVec_xor, UInt64.toBitVec_shiftLeft, h63]
  exact zigzag_bits u.toBitVec

theorem consumes_readSvarint : Consumes readSvarint fun v n => (svarint v).length ≤ n := by
  refine consumes_readVarint.bind fun u n hu => .pure ?_
  rwa [svarint, zigzag_unzigzag]

/-! ## Strings and values -/

theorem consumes_readLpString (m : Nat) : Consumes (readLpString m) fun s n =>
    s.length ≤ m ∧ (lpString s).length ≤ n := by
  refine consumes_readVarint.bind fun len n hlen => .ite (fun _ => .fail _) fun hle => ?_
  refine (Consumes.of_takes (takes_readBytes _)).mono fun s k hs => ?_
  obtain ⟨rfl, bs, hbs, heq⟩ := hs
  obtain rfl : s = bs := heq
  rw [lpString, List.length_append, hbs, UInt64.ofNat_toNat]
  omega

namespace Value

/-- **A value is written in no more bytes than it was read from.** -/
theorem consumes_decode (ty : ValueType) (limits : Limits) : Consumes (decode ty limits) fun v n =>
    v.type = ty ∧ v.Fits limits ∧ v.payload.length ≤ n := by
  have hcost : Consumes (decode ty limits) fun v n => v.payload.length ≤ n := by
    cases ty with
    | int => exact consumes_readSvarint.bind fun v n hv => .pure hv
    | float => exact consumes_readF64.bind fun v n hv => .pure hv
    | atom | ref => exact consumes_readVarintU32.bind fun v n hv => .pure hv
    | list =>
      refine consumes_readVarintU32.bind fun count n hcount => .ite (fun _ => .fail _) fun _ => ?_
      have hitem := fun _ : Nat => consumes_readVarintU32.mono fun v n hv => And.intro trivial hv
      refine (Consumes.listFrom hitem count.toNat 0).bind fun items m hitems => .pure ?_
      obtain ⟨hlen, -, hsum⟩ := hitems
      have hheader : UInt64.ofNat items.length = count.toUInt64 := by
        rw [ofNat_count32 (hlen ▸ count.toNat_lt), hlen, UInt32.ofNat_toNat]
      show (varint (UInt64.ofNat items.length) ++ items.flatMap _).length ≤ n + m
      rw [List.length_append, hheader, List.length_flatMap]
      omega
    | invalid => exact .fail _
  intro s v s' h
  obtain ⟨n, hn, hlen⟩ := hcost s v s' h
  obtain ⟨htype, hfits⟩ := decode_type h
  exact ⟨n, hn, htype, hfits, hlen⟩

end Value

end Stratavm
