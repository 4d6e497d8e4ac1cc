import Mathlib.Algebra.Field.ZMod
import Mathlib.Algebra.Polynomial.Div
import Mathlib.RingTheory.Coprime.Lemmas
import Mathlib.Tactic.LinearCombination

/-!
# Cyclic redundancy checks

The bit-at-a-time definition of a CRC of width `w`: a register of `w` bits takes the bits of the
message, and each is a step of long division over GF(2). `Params` are the parameters by which such
algorithms are catalogued.

* `run_poly`: what is in the register is the remainder of the message, followed by `w` zeros, on
  division by the generator.
* `run_burst`: messages that differ only in a burst of at most `w` bits leave different registers.
* `reverse_run`, `shift_iterate`: the reflected register, which shifts to the right and takes many bits
  at once.
-/

namespace Stratavm.Lib.Crc

open Polynomial

variable {w k : Nat}

/-! ## The register -/

/-- One bit of the message into the register, which has its high coefficient on the left. -/
def step (poly r : BitVec w) (b : Bool) : BitVec w :=
  if r.msb ^^ b then (r <<< 1) ^^^ poly else r <<< 1

/-- The register after the bits of a message. -/
def run (poly r : BitVec w) (bits : List Bool) : BitVec w := bits.foldl (step poly) r

theorem run_append (poly r : BitVec w) (bits bits' : List Bool) :
    run poly r (bits ++ bits') = run poly (run poly r bits) bits' := List.foldl_append

/-- The bits of a word, the most significant one first. -/
def bitsOf (v : BitVec k) : List Bool := (List.range k).map v.getMsbD

theorem length_bitsOf (v : BitVec k) : (bitsOf v).length = k := by
  rw [bitsOf, List.length_map, List.length_range]

theorem bitsOf_injective : Function.Injective (bitsOf (k := k)) := by
  intro u v h
  refine BitVec.eq_of_getMsbD_eq fun i hi => ?_
  exact List.map_inj_left.mp h i (List.mem_range.mpr hi)

/-- The parameters of a CRC algorithm: the generator without its leading term, the initial register,
whether the words of the message and the result are reflected, and what the result is xored with. -/
structure Params (w : Nat) where
  poly : BitVec w
  init : BitVec w
  refin : Bool
  refout : Bool
  xorout : BitVec w

namespace Params

/-- The bits of a word of the message, in the order in which they enter the register. -/
def wordBits (p : Params w) (v : BitVec k) : List Bool :=
  bitsOf (if p.refin then v.reverse else v)

/-- The bits of a message, in the order in which they enter the register. -/
def messageBits (p : Params w) (message : List (BitVec k)) : List Bool :=
  message.flatMap p.wordBits

/-- The result from the register. -/
def output (p : Params w) (r : BitVec w) : BitVec w := (if p.refout then r.reverse else r) ^^^ p.xorout

/-- The checksum of a message, a bit at a time. -/
def checksum (p : Params w) (message : List (BitVec k)) : BitVec w :=
  p.output (run p.poly p.init (p.messageBits message))

theorem length_wordBits (p : Params w) (v : BitVec k) : (p.wordBits v).length = k := length_bitsOf _

theorem length_messageBits (p : Params w) (message : List (BitVec k)) :
    (p.messageBits message).length = k * message.length := by
  rw [messageBits, List.length_flatMap, List.map_congr_left fun v _ => p.length_wordBits v,
    List.map_const', List.sum_replicate, smul_eq_mul, Nat.mul_comm]

theorem wordBits_injective (p : Params w) : Function.Injective (p.wordBits (k := k)) := by
  intro u v h
  have hword := bitsOf_injective h
  split at hword
  · exact BitVec.reverse_reverse_eq.symm.trans ((congrArg BitVec.reverse hword).trans
      BitVec.reverse_reverse_eq)
  · exact hword

/-- Two messages of one length have different bits. -/
theorem messageBits_injective (p : Params w) {message message' : List (BitVec k)}
    (hlen : message.length = message'.length)
    (h : p.messageBits message = p.messageBits message') : message = message' := by
  induction message generalizing message' with
  | nil => exact (List.eq_nil_of_length_eq_zero hlen.symm).symm
  | cons v message ih =>
    obtain ⟨v', message', rfl⟩ := List.exists_cons_of_length_eq_add_one hlen.symm
    obtain ⟨hv, hrest⟩ := List.append_inj h ((p.length_wordBits v).trans (p.length_wordBits v').symm)
    rw [p.wordBits_injective hv, ih (Nat.succ.inj hlen) hrest]

theorem output_injective (p : Params w) : Function.Injective p.output := by
  intro r r' h
  have hout := (BitVec.xor_left_inj _).mp h
  split at hout
  · exact BitVec.reverse_reverse_eq.symm.trans ((congrArg BitVec.reverse hout).trans
      BitVec.reverse_reverse_eq)
  · exact hout

end Params

/-! ## Polynomials over GF(2) -/

/-- A bit as a coefficient. -/
def bit (b : Bool) : ZMod 2 := if b then 1 else 0

@[simp] theorem bit_true : bit true = 1 := rfl

@[simp] theorem bit_false : bit false = 0 := rfl

theorem bit_xor (a b : Bool) : bit (a ^^ b) = bit a + bit b := by
  cases a <;> cases b <;> decide

theorem bit_injective : Function.Injective bit := by decide

/-- The polynomial of a word: bit `i` is the coefficient of `X ^ i`. -/
noncomputable def toPoly (v : BitVec w) : (ZMod 2)[X] :=
  ∑ i ∈ Finset.range w, C (bit (v.getLsbD i)) * X ^ i

/-- The polynomial of a message: the first bit is the highest coefficient. -/
noncomputable def bitsPoly : List Bool → (ZMod 2)[X]
  | [] => 0
  | b :: bits => C (bit b) * X ^ bits.length + bitsPoly bits

/-- The generator, with its leading term. -/
noncomputable def generator (poly : BitVec w) : (ZMod 2)[X] := X ^ w + toPoly poly

theorem add_self (p : (ZMod 2)[X]) : p + p = 0 := CharTwo.add_self_eq_zero p

@[simp] theorem coeff_toPoly (v : BitVec w) (i : Nat) : (toPoly v).coeff i = bit (v.getLsbD i) := by
  rw [toPoly, finsetSum_coeff]
  simp only [coeff_C_mul_X_pow]
  rw [Finset.sum_ite_eq]
  split
  · rfl
  · rename_i hi
    rw [BitVec.getLsbD_of_ge v i (Nat.not_lt.mp fun h => hi (Finset.mem_range.mpr h)), bit_false]

theorem toPoly_injective : Function.Injective (toPoly (w := w)) := by
  intro u v h
  refine BitVec.eq_of_getLsbD_eq fun i _ => bit_injective ?_
  rw [← coeff_toPoly, h, coeff_toPoly]

theorem degree_toPoly_lt (v : BitVec w) : (toPoly v).degree < w := by
  refine (degree_lt_iff_coeff_zero _ _).mpr fun i hi => ?_
  rw [coeff_toPoly, BitVec.getLsbD_of_ge v i hi, bit_false]

theorem toPoly_xor (u v : BitVec w) : toPoly (u ^^^ v) = toPoly u + toPoly v := by
  refine Polynomial.ext fun i => ?_
  rw [coeff_add, coeff_toPoly, coeff_toPoly, coeff_toPoly, BitVec.getLsbD_xor, bit_xor]

/-- A shift to the left multiplies by `X`, and drops the high coefficient. -/
theorem toPoly_shiftLeft (v : BitVec w) :
    toPoly (v <<< 1) + C (bit v.msb) * X ^ w = X * toPoly v := by
  refine Polynomial.ext fun i => ?_
  rw [coeff_add, coeff_toPoly, coeff_C_mul_X_pow, BitVec.getLsbD_shiftLeft]
  cases i with
  | zero =>
    cases w with
    | zero => simp [BitVec.msb, BitVec.getMsbD]
    | succ w => simp
  | succ i =>
    rw [coeff_X_mul, coeff_toPoly, BitVec.msb_eq_getLsbD_last]
    by_cases hi : i + 1 = w
    · subst hi
      simp
    · by_cases hlt : i + 1 < w
      · simp [hlt, hi]
      · simp [hlt, hi, BitVec.getLsbD_of_ge v i (by omega)]

theorem degree_bitsPoly_lt (bits : List Bool) : (bitsPoly bits).degree < bits.length := by
  induction bits with
  | nil => exact degree_zero.trans_lt (WithBot.bot_lt_coe 0)
  | cons b bits ih =>
    have hlt : (bits.length : WithBot Nat) < (b :: bits).length :=
      Nat.cast_lt.mpr (Nat.lt_succ_self _)
    exact (degree_add_le _ _).trans_lt
      (max_lt ((degree_C_mul_X_pow_le _ _).trans_lt hlt) (ih.trans hlt))

theorem bitsPoly_injective {bits bits' : List Bool} (hlen : bits.length = bits'.length)
    (h : bitsPoly bits = bitsPoly bits') : bits = bits' := by
  induction bits generalizing bits' with
  | nil => exact (List.eq_nil_of_length_eq_zero hlen.symm).symm
  | cons b bits ih =>
    obtain ⟨b', bits', rfl⟩ := List.exists_cons_of_length_eq_add_one hlen.symm
    have hlen' : bits.length = bits'.length := Nat.succ.inj hlen
    rw [bitsPoly, bitsPoly, ← hlen'] at h
    have hcoeff := congrArg (fun p => p.coeff bits.length) h
    have hzero := coeff_eq_zero_of_degree_lt (degree_bitsPoly_lt bits)
    have hzero' := coeff_eq_zero_of_degree_lt (degree_bitsPoly_lt bits')
    rw [← hlen'] at hzero'
    simp only [coeff_add, coeff_C_mul_X_pow, if_true, hzero, hzero', add_zero] at hcoeff
    obtain rfl := bit_injective hcoeff
    rw [ih hlen' (add_left_cancel h)]

section Remainder

variable (poly : BitVec w)

theorem degree_generator : (generator poly).degree = w := by
  rw [generator, degree_add_eq_left_of_degree_lt, degree_X_pow]
  exact (degree_toPoly_lt poly).trans_eq (degree_X_pow w).symm

theorem generator_monic : (generator poly).Monic := monic_X_pow_add (degree_toPoly_lt poly)

/-- **One step** of long division: bring down the next bit, and subtract the generator if the high
coefficient is set. -/
theorem toPoly_step (r : BitVec w) (b : Bool) :
    toPoly (step poly r b) + C (bit (r.msb ^^ b)) * generator poly =
      X * toPoly r + C (bit b) * X ^ w := by
  have hstep : toPoly (step poly r b) = toPoly (r <<< 1) + C (bit (r.msb ^^ b)) * toPoly poly := by
    unfold step
    split
    · rename_i h
      rw [toPoly_xor, h, bit_true, map_one, one_mul]
    · rename_i h
      rw [Bool.not_eq_true] at h
      rw [h, bit_false, map_zero, zero_mul, add_zero]
  have hcancel := add_self (C (bit (r.msb ^^ b)) * toPoly poly)
  rw [hstep, generator, ← toPoly_shiftLeft, bit_xor, map_add] at *
  linear_combination hcancel

/-- The register and the dividend differ by a multiple of the generator. -/
theorem generator_dvd_run (r : BitVec w) (bits : List Bool) :
    generator poly ∣ X ^ w * bitsPoly bits + X ^ bits.length * toPoly r - toPoly (run poly r bits) := by
  induction bits generalizing r with
  | nil =>
    refine (dvd_zero _).trans (dvd_of_eq ?_)
    rw [bitsPoly, run, List.foldl_nil, List.length_nil]
    ring
  | cons b bits ih =>
    have hstep := toPoly_step poly r b
    have hrest := dvd_add (ih (step poly r b))
      (Dvd.intro_left (X ^ bits.length * C (bit (r.msb ^^ b))) rfl)
    refine hrest.trans (dvd_of_eq ?_)
    rw [bitsPoly, List.length_cons, pow_succ, run, run, List.foldl_cons]
    linear_combination X ^ bits.length * hstep

/-- **The register is the remainder** of the message followed by `w` zeros, the initial register being
added to its first `w` bits. -/
theorem run_poly (r : BitVec w) (bits : List Bool) :
    toPoly (run poly r bits) =
      (X ^ w * bitsPoly bits + X ^ bits.length * toPoly r) %ₘ generator poly := by
  rw [modByMonic_eq_of_dvd_sub (generator_monic poly) (generator_dvd_run poly r bits),
    (modByMonic_eq_self_iff (generator_monic poly)).mpr]
  exact (degree_toPoly_lt _).trans_eq (degree_generator poly).symm

end Remainder

/-! ## Bursts -/

section Burst

variable {poly r r' : BitVec w} (hpoly : poly.getLsbD 0 = true)

include hpoly

theorem isCoprime_X_generator : IsCoprime X (generator poly) := by
  have hw : w ≠ 0 := by
    rintro rfl
    rw [BitVec.getLsbD_of_ge poly 0 (Nat.le_refl 0)] at hpoly
    cases hpoly
  have hcoeff : (generator poly).coeff 0 = 1 := by
    rw [generator, coeff_add, coeff_X_pow, if_neg (Ne.symm hw), coeff_toPoly, hpoly, bit_true, zero_add]
  obtain ⟨q, hq⟩ := X_dvd_iff.mpr (show (generator poly - 1).coeff 0 = 0 by
    rw [coeff_sub, hcoeff, coeff_one_zero, sub_self])
  exact ⟨-q, 1, by linear_combination hq⟩

/-- A polynomial of degree below `w` that the generator divides after a shift is zero. -/
theorem eq_zero_of_generator_dvd {n : Nat} {u : (ZMod 2)[X]} (hdegree : u.degree < w)
    (hdvd : generator poly ∣ X ^ n * u) : u = 0 := by
  by_contra hu
  have hcoprime : IsCoprime (generator poly) (X ^ n) := (IsCoprime.pow_left (isCoprime_X_generator hpoly)).symm
  exact (generator_monic poly).not_dvd_of_degree_lt hu
    (hdegree.trans_eq (degree_generator poly).symm) (hcoprime.dvd_of_dvd_mul_left hdvd)

/-- The bits of a message keep different registers apart. -/
theorem run_injective (bits : List Bool) (h : run poly r bits = run poly r' bits) : r = r' := by
  have hdvd := dvd_sub (generator_dvd_run poly r bits) (generator_dvd_run poly r' bits)
  rw [h] at hdvd
  have hzero : toPoly r - toPoly r' = 0 := by
    refine eq_zero_of_generator_dvd hpoly (n := bits.length)
      ((degree_sub_le _ _).trans_lt (max_lt (degree_toPoly_lt r) (degree_toPoly_lt r'))) ?_
    exact hdvd.trans (dvd_of_eq (by ring))
  exact toPoly_injective (sub_eq_zero.mp hzero)

/-- A register tells bursts of at most `w` bits apart. -/
theorem run_bits_injective {bits bits' : List Bool} (hlen : bits.length = bits'.length)
    (hburst : bits.length ≤ w) (h : run poly r bits = run poly r bits') : bits = bits' := by
  have hdvd := dvd_sub (generator_dvd_run poly r bits) (generator_dvd_run poly r bits')
  rw [h, ← hlen] at hdvd
  have hw : (bits.length : WithBot Nat) ≤ w := Nat.cast_le.mpr hburst
  have hzero : bitsPoly bits - bitsPoly bits' = 0 := by
    refine eq_zero_of_generator_dvd hpoly (n := w) ((degree_sub_le _ _).trans_lt (max_lt
      ((degree_bitsPoly_lt bits).trans_le hw) ((degree_bitsPoly_lt bits').trans_le (hlen ▸ hw)))) ?_
    exact hdvd.trans (dvd_of_eq (by ring))
  exact bitsPoly_injective hlen (sub_eq_zero.mp hzero)

/-- **A burst of at most `w` bits** changes the register. -/
theorem run_burst {pre old new post : List Bool} (hlen : old.length = new.length)
    (hburst : old.length ≤ w)
    (h : run poly r (pre ++ (old ++ post)) = run poly r (pre ++ (new ++ post))) : old = new := by
  rw [run_append, run_append, run_append, run_append] at h
  exact run_bits_injective hpoly hlen hburst (run_injective hpoly post h)

end Burst

/-- **A burst of at most `w` bits** changes the checksum. -/
theorem Params.checksum_burst (p : Params w) (hpoly : p.poly.getLsbD 0 = true)
    {pre old new post : List (BitVec k)} (hlen : old.length = new.length)
    (hburst : k * old.length ≤ w)
    (h : p.checksum (pre ++ (old ++ post)) = p.checksum (pre ++ (new ++ post))) : old = new := by
  have hrun := p.output_injective h
  rw [messageBits, messageBits, List.flatMap_append, List.flatMap_append, List.flatMap_append,
    List.flatMap_append] at hrun
  have hbits : (p.messageBits old).length = (p.messageBits new).length := by
    rw [length_messageBits, length_messageBits, hlen]
  refine p.messageBits_injective hlen (run_burst hpoly hbits ?_ hrun)
  rwa [length_messageBits]

/-! ## The reflected register -/

/-- One bit into the reflected register, which has its high coefficient on the right. -/
def stepRight (poly c : BitVec w) (b : Bool) : BitVec w :=
  if c.getLsbD 0 ^^ b then poly ^^^ (c >>> 1) else c >>> 1

/-- The reflected register without a bit of the message. -/
def shift (poly c : BitVec w) : BitVec w :=
  if c.getLsbD 0 then poly ^^^ (c >>> 1) else c >>> 1

theorem reverse_xor (u v : BitVec w) : (u ^^^ v).reverse = u.reverse ^^^ v.reverse := by
  refine BitVec.eq_of_getLsbD_eq fun i hi => ?_
  simp [BitVec.getLsbD_reverse, BitVec.getMsbD_xor]

theorem reverse_shiftLeft (v : BitVec w) : (v <<< 1).reverse = v.reverse >>> 1 := by
  refine BitVec.eq_of_getLsbD_eq fun i hi => ?_
  rw [BitVec.getLsbD_reverse, BitVec.getLsbD_ushiftRight, BitVec.getLsbD_reverse,
    BitVec.getMsbD_shiftLeft, Nat.add_comm]

theorem reverse_step (poly r : BitVec w) (b : Bool) :
    (step poly r b).reverse = stepRight poly.reverse r.reverse b := by
  unfold step stepRight
  rw [BitVec.getLsbD_reverse, ← BitVec.msb_eq_getMsbD_zero]
  split
  · rw [reverse_xor, reverse_shiftLeft, BitVec.xor_comm]
  · exact reverse_shiftLeft r

theorem reverse_run (poly r : BitVec w) (bits : List Bool) :
    (run poly r bits).reverse = bits.foldl (stepRight poly.reverse) r.reverse := by
  induction bits generalizing r with
  | nil => rfl
  | cons b bits ih =>
    rw [run, List.foldl_cons, List.foldl_cons, ← reverse_step]
    exact ih _

/-- A word xored into the register gives its low bit to the step, and the others to the next ones. -/
theorem shift_xor (poly c v : BitVec w) :
    shift poly (c ^^^ v) = stepRight poly c (v.getLsbD 0) ^^^ (v >>> 1) := by
  unfold shift stepRight
  rw [BitVec.getLsbD_xor, BitVec.ushiftRight_xor_distrib]
  split
  · exact (BitVec.xor_assoc _ _ _).symm
  · rfl

/-- **Many bits at once**: `n` shifts take the `n` low bits of a word xored into the register. -/
theorem shift_iterate (poly c v : BitVec w) (n : Nat) :
    (shift poly)^[n] (c ^^^ v) =
      ((List.range n).map v.getLsbD).foldl (stepRight poly) c ^^^ (v >>> n) := by
  induction n with
  | zero => simp
  | succ n ih =>
    rw [Function.iterate_succ_apply', ih, shift_xor, List.range_succ, List.map_append,
      List.foldl_append, BitVec.getLsbD_ushiftRight, Nat.add_zero, ← BitVec.shiftRight_add]
    rfl

/-- The low `n` bits of a word determine what `n` shifts add to the rest of it. -/
theorem shift_iterate_low {poly c low : BitVec w} {n : Nat}
    (hlow : ∀ i < n, low.getLsbD i = c.getLsbD i) (hhigh : low >>> n = 0#w) :
    (shift poly)^[n] c = (shift poly)^[n] low ^^^ (c >>> n) := by
  have hbits : (List.range n).map low.getLsbD = (List.range n).map c.getLsbD :=
    List.map_congr_left fun i hi => hlow i (List.mem_range.mp hi)
  have hc := shift_iterate poly 0#w c n
  have hl := shift_iterate poly 0#w low n
  rw [BitVec.zero_xor] at hc hl
  rw [hc, hl, hhigh, hbits, BitVec.xor_zero]

/-- A reflected word enters the reflected register at once. -/
theorem reverse_run_word {poly r v : BitVec w} {word : BitVec k}
    (hword : ∀ i < k, v.getLsbD i = word.getLsbD i) (hhigh : v >>> k = 0#w) :
    (run poly r (bitsOf word.reverse)).reverse = (shift poly.reverse)^[k] (r.reverse ^^^ v) := by
  have hbits : bitsOf word.reverse = (List.range k).map v.getLsbD := by
    refine List.map_congr_left fun i hi => ?_
    rw [BitVec.getMsbD_reverse, hword i (List.mem_range.mp hi)]
  rw [shift_iterate, hhigh, BitVec.xor_zero, reverse_run, hbits]

end Stratavm.Lib.Crc
