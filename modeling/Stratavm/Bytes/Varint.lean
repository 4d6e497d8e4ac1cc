import Mathlib.Data.Nat.Digits.Lemmas
import Stratavm.Bytes

/-!
# What a varint denotes

`leb128` is the number that the groups of an encoding stand for. `read_varint` takes an encoding of at
most ten bytes and returns that number modulo `2 ^ 64` (`readVarint_eq_ok`): the tenth group is shifted
by 63, and its upper six bits are lost without a check.

* **`varintExact_iff`**: decoding is exact, and rejects what does not fit, iff the text does not start
  with an encoding whose tenth byte is above 1 (`Wraps`).
* `tenthGroup_lost`: nine bytes `0x80` and a `0x02` denote `2 ^ 64` and are read as 0.
-/

namespace Stratavm

open Lib Lib.Decoder

/-! ## Encodings -/

/-- The number that the low seven bits of the bytes stand for, lowest group first. -/
def leb128 (bs : Bytes) : Nat := Nat.ofDigits 128 (bs.map fun b => b.toNat % 128)

/-- Bytes with the continuation bit, and one without it at the end. -/
inductive Encoding : Bytes → Prop
  | last {b : UInt8} : b &&& 0x80 = 0 → Encoding [b]
  | more {b : UInt8} {bs : Bytes} : b &&& 0x80 ≠ 0 → Encoding bs → Encoding (b :: bs)

theorem leb128_cons (b : UInt8) (bs : Bytes) : leb128 (b :: bs) = b.toNat % 128 + 128 * leb128 bs :=
  Nat.ofDigits_cons

theorem leb128_lt (bs : Bytes) : leb128 bs < 128 ^ bs.length := by
  have h := Nat.ofDigits_lt_base_pow_length (b := 128) (l := bs.map fun b => b.toNat % 128)
    (by decide) fun d hd => ?_
  · rwa [List.length_map] at h
  · obtain ⟨b, -, rfl⟩ := List.mem_map.mp hd
    exact Nat.mod_lt _ (by decide)

theorem leb128_append (bs cs : Bytes) :
    leb128 (bs ++ cs) = leb128 bs + 128 ^ bs.length * leb128 cs := by
  unfold leb128
  rw [List.map_append, Nat.ofDigits_append, List.length_map]

/-- One encoding is not the beginning of another. -/
theorem Encoding.unique {bs cs s t : Bytes} (hb : Encoding bs) (hc : Encoding cs)
    (h : bs ++ s = cs ++ t) : bs = cs ∧ s = t := by
  induction hb generalizing cs with
  | last hlast =>
    cases hc with
    | last _ =>
      obtain ⟨rfl, hst⟩ := List.cons.inj h
      exact ⟨rfl, hst⟩
    | more hmore _ => exact absurd ((List.cons.inj h).1 ▸ hlast) hmore
  | more hmore _ ih =>
    cases hc with
    | last hlast => exact absurd hlast ((List.cons.inj h).1 ▸ hmore)
    | more _ hc =>
      obtain ⟨rfl, hst⟩ := List.cons.inj h
      obtain ⟨rfl, rfl⟩ := ih hc hst
      exact ⟨rfl, rfl⟩

theorem Encoding.append_last {bs : Bytes} {b : UInt8} (h : ∀ c ∈ bs, c &&& 0x80 ≠ 0)
    (hb : b &&& 0x80 = 0) : Encoding (bs ++ [b]) := by
  induction bs with
  | nil => exact .last hb
  | cons c bs ih =>
    exact .more (h c (List.mem_cons_self ..)) (ih fun d hd => h d (List.mem_cons_of_mem _ hd))

/-- An encoding is its continued groups and its last one. -/
theorem Encoding.exists_last {bs : Bytes} (h : Encoding bs) : ∃ groups last, bs = groups ++ [last] ∧
    (∀ b ∈ groups, b &&& 0x80 ≠ 0) ∧ last &&& 0x80 = 0 := by
  induction h with
  | @last b hb => exact ⟨[], b, rfl, fun _ hb => absurd hb List.not_mem_nil, hb⟩
  | @more b bs hb _ ih =>
    obtain ⟨groups, last, rfl, hgroups, hlast⟩ := ih
    exact ⟨b :: groups, last, rfl, List.forall_mem_cons.mpr ⟨hb, hgroups⟩, hlast⟩

/-! ## What the reader returns -/

/-- The first group apart. -/
theorem add_leb128_cons (value k : Nat) (b : UInt8) (bs : Bytes) :
    (value + leb128 (b :: bs) * 2 ^ (7 * k)) % 2 ^ 64 =
      ((value + b.toNat % 128 * 2 ^ (7 * k)) % 2 ^ 64 + leb128 bs * 2 ^ (7 * (k + 1))) % 2 ^ 64 := by
  rw [leb128_cons, Nat.mod_add_mod]
  congr 1
  ring

theorem readVarintLoop_cons (n : Nat) (shift value : UInt64) (b : UInt8) (r : Bytes) :
    readVarintLoop (n + 1) shift value (b :: r) =
      if b &&& 0x80 = 0 then .ok (value ||| ((b &&& 0x7F).toUInt64 <<< shift), r)
      else readVarintLoop n (shift + 7) (value ||| ((b &&& 0x7F).toUInt64 <<< shift)) r := rfl

/-- The loop from any group on: with `k` groups read into `value`, the next `n` at most add what they
denote times `128 ^ k`, modulo the word. -/
theorem readVarintLoop_eq_ok : ∀ {n k : Nat} {value v : UInt64} {s s' : Bytes}, n + k = 10 →
    value.toNat < 2 ^ (7 * k) →
    (readVarintLoop n (UInt64.ofNat (7 * k)) value s = .ok (v, s') ↔
      ∃ bs, Encoding bs ∧ bs.length ≤ n ∧ s = bs ++ s' ∧
        v.toNat = (value.toNat + leb128 bs * 2 ^ (7 * k)) % 2 ^ 64)
  | 0, _, _, _, _, _, _, _ => by
    refine iff_of_false fail_ne_ok ?_
    rintro ⟨bs, hbs, hlen, -⟩
    obtain rfl := List.eq_nil_of_length_eq_zero (Nat.le_zero.mp hlen)
    cases hbs
  | n + 1, k, value, v, [], s', _, _ => by
    refine iff_of_false nofun ?_
    rintro ⟨bs, hbs, -, hs, -⟩
    obtain ⟨rfl, -⟩ := List.append_eq_nil_iff.mp hs.symm
    cases hbs
  | n + 1, k, value, v, b :: r, s', hnk, hval => by
    have hor := or_group value b (show k < 10 by omega) hval
    rw [readVarintLoop_cons]
    by_cases hb : b &&& 0x80 = 0
    · rw [if_pos hb, Except.ok.injEq, Prod.mk.injEq]
      have hone : leb128 [b] = b.toNat % 128 := leb128_cons b []
      constructor
      · rintro ⟨rfl, rfl⟩
        exact ⟨[b], .last hb, Nat.succ_pos n, rfl, by rw [hone]; exact hor⟩
      · rintro ⟨bs, hbs, -, hs, hv⟩
        obtain ⟨rfl, rfl⟩ := (Encoding.last hb).unique hbs hs
        rw [hone] at hv
        exact ⟨UInt64.toNat_inj.mp (hor.trans hv.symm), rfl⟩
    · have hshift : UInt64.ofNat (7 * k) + 7 = UInt64.ofNat (7 * (k + 1)) := by
        rw [Nat.mul_succ, UInt64.ofNat_add]
        rfl
      rw [if_neg hb, hshift, readVarintLoop_eq_ok (by omega) (hor ▸ or_group_lt value b hval), hor]
      constructor
      · rintro ⟨bs, hbs, hlen, rfl, hv⟩
        exact ⟨b :: bs, .more hb hbs, Nat.succ_le_succ hlen, rfl, hv.trans (add_leb128_cons ..).symm⟩
      · rintro ⟨cs, hcs, hlen, hs, hv⟩
        cases hcs with
        | last hlast => exact absurd ((List.cons.inj hs).1 ▸ hlast) hb
        | @more _ bs _ hbs =>
          obtain ⟨rfl, rfl⟩ := List.cons.inj hs
          exact ⟨bs, hbs, Nat.le_of_succ_le_succ hlen, rfl, hv.trans (add_leb128_cons ..)⟩

/-- **What `read_varint` reads**: an encoding of at most ten bytes, as its number modulo `2 ^ 64`. -/
theorem readVarint_eq_ok {v : UInt64} {s s' : Bytes} : readVarint s = .ok (v, s') ↔
    ∃ bs, Encoding bs ∧ bs.length ≤ 10 ∧ s = bs ++ s' ∧ v.toNat = leb128 bs % 2 ^ 64 := by
  have h : readVarintLoop 10 (UInt64.ofNat (7 * 0)) 0 s = .ok (v, s') ↔
      ∃ bs, Encoding bs ∧ bs.length ≤ 10 ∧ s = bs ++ s' ∧
        v.toNat = ((0 : UInt64).toNat + leb128 bs * 2 ^ (7 * 0)) % 2 ^ 64 :=
    readVarintLoop_eq_ok rfl (by decide)
  simpa [readVarint] using h

/-! ## The width limit -/

/-- `s` starts with an encoding whose tenth byte has a bit that a 64-bit word has no room for. -/
def Wraps (s : Bytes) : Prop :=
  ∃ (groups : Bytes) (last : UInt8) (rest : Bytes), s = groups ++ last :: rest ∧ groups.length = 9 ∧
    (∀ b ∈ groups, b &&& 0x80 ≠ 0) ∧ last &&& 0x80 = 0 ∧ 1 < last

/-- The bytes a varint is read from denote its value, and an encoding of a number that is too large
is rejected. -/
structure VarintExact (s : Bytes) : Prop where
  value : ∀ v s', readVarint s = .ok (v, s') → ∃ bs, s = bs ++ s' ∧ v.toNat = leb128 bs
  valueU32 : ∀ v s', readVarintU32 s = .ok (v, s') →
    ∃ bs, s = bs ++ s' ∧ leb128 bs < 2 ^ 32 ∧ v.toNat = leb128 bs
  rejects : ∀ bs s', Encoding bs → s = bs ++ s' → 2 ^ 64 ≤ leb128 bs → ∃ e, readVarint s = .error e
  rejectsU32 : ∀ bs s', Encoding bs → s = bs ++ s' → 2 ^ 32 ≤ leb128 bs →
    ∃ e, readVarintU32 s = .error e

/-- An encoding of ten bytes: the tenth counts `2 ^ 63`. -/
theorem leb128_ten {groups : Bytes} {last : UInt8} (hlen : groups.length = 9)
    (hlast : last &&& 0x80 = 0) : leb128 (groups ++ [last]) = leb128 groups + 2 ^ 63 * last.toNat := by
  have hlow : last.toNat % 128 = last.toNat := by
    have hbyte : ∀ n : Fin 256, UInt8.ofNat n &&& 0x80 = 0 → (UInt8.ofNat n).toNat % 128 =
        (UInt8.ofNat n).toNat := by decide +kernel
    have h := hbyte ⟨last.toNat, last.toNat_lt⟩
    rw [UInt8.ofNat_toNat] at h
    exact h hlast
  have hone : leb128 [last] = last.toNat := by
    rw [leb128_cons, hlow]
    rfl
  rw [leb128_append, hlen, hone]
  norm_num

/-- Of the encodings of at most ten bytes, only the wrapping ones denote more than a word. -/
theorem leb128_lt_of_not_wraps {bs s s' : Bytes} (hbs : Encoding bs) (hlen : bs.length ≤ 10)
    (hs : s = bs ++ s') (h : ¬ Wraps s) : leb128 bs < 2 ^ 64 := by
  obtain ⟨groups, last, rfl, hgroups, hlast⟩ := hbs.exists_last
  rw [List.length_append, List.length_singleton] at hlen
  rcases Nat.lt_or_eq_of_le (Nat.le_of_succ_le_succ hlen) with hshort | hten
  · calc leb128 (groups ++ [last]) < 128 ^ (groups ++ [last]).length := leb128_lt _
      _ ≤ 128 ^ 9 := Nat.pow_le_pow_right (by decide) (by simpa using hshort)
      _ < 2 ^ 64 := by norm_num
  · have hle : last.toNat ≤ 1 := by
      by_contra hgt
      refine h ⟨groups, last, s', by rw [hs, List.append_assoc]; rfl, hten, hgroups, hlast, ?_⟩
      rw [UInt8.lt_iff_toNat_lt]
      exact Nat.lt_of_not_le hgt
    have hnine : leb128 groups < 2 ^ 63 := by
      have := leb128_lt groups
      rw [hten] at this
      norm_num at this ⊢
      exact this
    rw [leb128_ten hten hlast]
    omega

/-- A wrapping text is accepted, though it denotes more than a word. -/
theorem Wraps.accepted {s : Bytes} (h : Wraps s) : ∃ bs s' v, Encoding bs ∧ s = bs ++ s' ∧
    2 ^ 64 ≤ leb128 bs ∧ readVarint s = .ok (v, s') := by
  obtain ⟨groups, last, rest, rfl, hlen, hgroups, hlast, hgt⟩ := h
  have hbs : Encoding (groups ++ [last]) := .append_last hgroups hlast
  refine ⟨groups ++ [last], rest, UInt64.ofNat (leb128 (groups ++ [last])), hbs, by simp, ?_, ?_⟩
  · rw [leb128_ten hlen hlast]
    rw [UInt8.lt_iff_toNat_lt] at hgt
    have : (1 : UInt8).toNat = 1 := rfl
    omega
  · refine readVarint_eq_ok.mpr ⟨_, hbs, ?_, by simp, UInt64.toNat_ofNat'⟩
    rw [List.length_append, hlen]
    rfl

/-- **Varints are exact** on the texts that do not start with a wrapping encoding. -/
theorem varintExact_iff (s : Bytes) : VarintExact s ↔ ¬ Wraps s := by
  constructor
  · intro h hwraps
    obtain ⟨bs, s', v, hbs, hs, hle, hv⟩ := hwraps.accepted
    obtain ⟨e, he⟩ := h.rejects bs s' hbs hs hle
    rw [hv] at he
    cases he
  intro h
  -- every number that is read is the one denoted
  have hvalue : ∀ v s', readVarint s = .ok (v, s') →
      ∃ bs, Encoding bs ∧ s = bs ++ s' ∧ v.toNat = leb128 bs := by
    intro v s' hv
    obtain ⟨bs, hbs, hlen, hs, hmod⟩ := readVarint_eq_ok.mp hv
    rw [Nat.mod_eq_of_lt (leb128_lt_of_not_wraps hbs hlen hs h)] at hmod
    exact ⟨bs, hbs, hs, hmod⟩
  -- so an encoding that denotes more than any result is not read
  have hrejects : ∀ bs s' v t, Encoding bs → s = bs ++ s' → readVarint s = .ok (v, t) →
      v.toNat = leb128 bs := by
    intro bs s' v t hbs hs hv
    obtain ⟨cs, hcs, hs', hval⟩ := hvalue v t hv
    obtain ⟨rfl, -⟩ := hbs.unique hcs (hs.symm.trans hs')
    exact hval
  refine ⟨fun v s' hv => ?_, fun v s' hv => ?_, fun bs s' hbs hs hle => ?_, fun bs s' hbs hs hle => ?_⟩
  · obtain ⟨bs, -, hs, hval⟩ := hvalue v s' hv
    exact ⟨bs, hs, hval⟩
  · obtain ⟨bs, -, hs, hval⟩ := hvalue _ s' (readVarintU32_eq_ok.mp hv)
    rw [UInt32.toNat_toUInt64] at hval
    exact ⟨bs, hs, hval ▸ v.toNat_lt, hval⟩
  · cases hv : readVarint s with
    | error e => exact ⟨e, rfl⟩
    | ok p =>
      have hval := hrejects bs s' p.1 p.2 hbs hs hv
      have := p.1.toNat_lt
      omega
  · cases hv : readVarintU32 s with
    | error e => exact ⟨e, rfl⟩
    | ok p =>
      have hval := hrejects bs s' _ p.2 hbs hs (readVarintU32_eq_ok.mp hv)
      rw [UInt32.toNat_toUInt64] at hval
      have := p.1.toNat_lt
      omega

/-- The shortest encoding that wraps: it denotes `2 ^ 64` and is read as 0. -/
theorem tenthGroup_lost : ¬ ∀ s, VarintExact s := by
  intro h
  have hread : readVarint (List.replicate 9 0x80 ++ [0x02]) = .ok (0, []) := rfl
  obtain ⟨bs, hbs, hval⟩ := (h _).value 0 [] hread
  rw [List.append_nil] at hbs
  rw [← hbs] at hval
  revert hval
  decide

end Stratavm
