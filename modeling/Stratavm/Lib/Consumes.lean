import Mathlib.Algebra.Ring.Nat
import Stratavm.Lib.Streams

/-!
# What a decoder takes from its input

`Consumes d Q`: whatever `d` decodes, `Q` holds of the value and of the number of bytes it took. It is a
postcondition that may count: with "the encoding of the value is no longer than that" for `Q`, a format can
be read and written again without growing.

The bounds add up along `bind`, and along a counted loop with an invariant over the bytes taken so far
(`loop`). A decoder of a fixed width takes what its width says, and its value is a function of those bytes
(`of_takes`), so a caller need not look into it.

* **`listFrom`**: the items of a counted list take at least what they cost together, and each is one that
  the decoder of an item can return.

Out of scope: how far a decoder has come when it fails.
-/

namespace Stratavm.Lib.Decoder

variable {ε α β σ : Type} {Q : α → Nat → Prop}

/-- `Q` holds of what `d` decodes and of the number of bytes it takes. -/
def Consumes (d : Decoder ε α) (Q : α → Nat → Prop) : Prop :=
  ∀ s a s', d s = .ok (a, s') → ∃ n, s.length = n + s'.length ∧ Q a n

namespace Consumes

theorem pure {a : α} (h : Q a 0) : Consumes (Pure.pure a : Decoder ε α) Q := by
  intro s a' s' ha
  obtain ⟨rfl, rfl⟩ := pure_eq_ok.mp ha
  exact ⟨0, (Nat.zero_add _).symm, h⟩

theorem fail (e : ε) : Consumes (Decoder.fail e : Decoder ε α) Q := fun _ _ _ h => absurd h fail_ne_ok

theorem ite {c : Prop} [Decidable c] {d d' : Decoder ε α} (hd : c → Consumes d Q)
    (hd' : ¬ c → Consumes d' Q) : Consumes (if c then d else d') Q := by
  by_cases hc : c
  · rw [if_pos hc]
    exact hd hc
  · rw [if_neg hc]
    exact hd' hc

theorem mono {Q' : α → Nat → Prop} {d : Decoder ε α} (h : Consumes d Q) (hQ : ∀ a n, Q a n → Q' a n) :
    Consumes d Q' := by
  intro s a s' ha
  obtain ⟨n, hn, hq⟩ := h s a s' ha
  exact ⟨n, hn, hQ a n hq⟩

/-- What the steps take adds up. -/
theorem bind {R : β → Nat → Prop} {d : Decoder ε α} {f : α → Decoder ε β} (hd : Consumes d Q)
    (hf : ∀ a n, Q a n → Consumes (f a) fun b m => R b (n + m)) : Consumes (d >>= f) R := by
  intro s b s' h
  obtain ⟨a, s1, ha, hb⟩ := bind_eq_ok.mp h
  obtain ⟨n, hn, hq⟩ := hd s a s1 ha
  obtain ⟨m, hm, hr⟩ := hf a n hq s1 b s' hb
  exact ⟨n + m, by omega, hr⟩

theorem mapError {f : ε → ε} {d : Decoder ε α} (h : Consumes d Q) : Consumes (d.mapError f) Q :=
  fun s a s' ha => h s a s' (mapError_eq_ok.mp ha)

/-- What takes `n` bytes is a function of them. -/
theorem of_takes {n : Nat} {e : ε} {f : List UInt8 → α} {d : Decoder ε α} (h : Takes n e f d) :
    Consumes d fun a m => m = n ∧ ∃ bs : List UInt8, bs.length = n ∧ a = f bs := by
  intro s a s' ha
  have hlen := h.length_eq ha
  rw [h s, if_neg (by omega)] at ha
  obtain ⟨rfl, -⟩ := Prod.mk.inj (Except.ok.inj ha)
  exact ⟨n, by omega, rfl, s.take n, List.length_take_of_le (by omega), rfl⟩

/-- A loop ends with its invariant, which may count the bytes it has taken. -/
theorem loop {body : Nat → σ → Decoder ε σ} (I : Nat → σ → Nat → Prop)
    (step : ∀ i acc m, I i acc m → Consumes (body i acc) fun acc' n => I (i + 1) acc' (m + n)) :
    ∀ (n : Nat) {i m : Nat} {acc : σ}, I i acc m →
      Consumes (Decoder.loop body i n acc) fun acc' k => I (i + n) acc' (m + k)
  | 0, _, _, _, h => .pure h
  | n + 1, i, m, acc, h => by
    refine (step i acc m h).bind fun mid k hmid => (loop I step n hmid).mono fun acc' j hacc' => ?_
    rwa [Nat.add_assoc, Nat.add_comm 1 n, Nat.add_assoc m] at hacc'

/-- The items of a counted list take at least their costs. -/
theorem listFrom {P : α → Prop} {cost : α → Nat} {d : Nat → Decoder ε α}
    (hd : ∀ k, Consumes (d k) fun a n => P a ∧ cost a ≤ n) : ∀ (n i : Nat),
      Consumes (Decoder.listFrom d i n) fun as m =>
        as.length = n ∧ (∀ a ∈ as, P a) ∧ (as.map cost).sum ≤ m
  | 0, i => .pure ⟨rfl, by simp⟩
  | n + 1, i => by
    refine (hd i).bind fun a k ha => (listFrom hd n (i + 1)).bind fun as m has => .pure ?_
    obtain ⟨hlen, hall, hsum⟩ := has
    refine ⟨by simp [hlen], List.forall_mem_cons.mpr ⟨ha.1, hall⟩, ?_⟩
    rw [List.map_cons, List.sum_cons]
    omega

end Consumes

end Stratavm.Lib.Decoder
