import Mathlib.Data.List.Basic

/-!
# Reassembling a stream of frames

A sender encodes items one after the other into a byte stream, which arrives in pieces. The
receiver holds the bytes that have arrived and have not been read (`p`), and tries to cut one
frame off their front with `parse`. `Delimits` is what this needs of `parse`: it recovers a whole
frame whatever follows, and asks to wait while only a part of one is there.

`Delimits.next_ok` and `Delimits.next_error` are the two outcomes of an attempt, whatever part of
the stream has arrived.
-/

namespace Stratavm.Lib

variable {ε α : Type}

/-- `parse` cuts the encodings `enc` of the items `ok` off its input. An attempt returns the item
and the length of its encoding; an error in `wait` asks for more bytes. -/
structure Delimits (parse : List UInt8 → Except ε (α × Nat)) (enc : α → List UInt8)
    (ok : α → Prop) (wait : ε → Prop) : Prop where
  full : ∀ a t, ok a → parse (enc a ++ t) = .ok (a, (enc a).length)
  cut : ∀ a p t, ok a → enc a = p ++ t → t ≠ [] → ∃ e, parse p = .error e ∧ wait e
  empty : ∃ e, parse [] = .error e ∧ wait e

namespace Delimits

variable {parse : List UInt8 → Except ε (α × Nat)} {enc : α → List UInt8} {ok : α → Prop}
  {wait : ε → Prop}

/-- What has arrived of a nonempty stream holds the whole first frame, or a part of it. -/
theorem arrived (h : Delimits parse enc ok wait) {a : α} {p rest tail : List UInt8} (ha : ok a)
    (hstream : p ++ rest = enc a ++ tail) :
    (∃ p', p = enc a ++ p' ∧ tail = p' ++ rest ∧ parse p = .ok (a, (enc a).length)) ∨
      (p.length < (enc a).length ∧ ∃ e, parse p = .error e ∧ wait e) := by
  rcases List.append_eq_append_iff.mp hstream with ⟨c, hc, hrest⟩ | ⟨c, hc, htail⟩
  · by_cases hnil : c = []
    · subst hnil
      rw [List.append_nil] at hc
      refine .inl ⟨[], by rw [hc, List.append_nil], by rw [hrest]; rfl, ?_⟩
      rw [hc]
      have hfull := h.full a [] ha
      rwa [List.append_nil, hc] at hfull
    · refine .inr ⟨?_, h.cut a p c ha hc hnil⟩
      rw [hc, List.length_append]
      exact Nat.lt_add_of_pos_right (List.length_pos_of_ne_nil hnil)
  · exact .inl ⟨c, hc, htail, hc ▸ h.full a c ha⟩

/-- A successful attempt returns the next item, and leaves the stream after it. -/
theorem next_ok (h : Delimits parse enc ok wait) {as : List α} {a : α} {n : Nat}
    {p rest : List UInt8} (has : ∀ a ∈ as, ok a) (hstream : p ++ rest = as.flatMap enc)
    (hp : parse p = .ok (a, n)) :
    ∃ as', as = a :: as' ∧ n = (enc a).length ∧ p = enc a ++ p.drop n ∧
      p.drop n ++ rest = as'.flatMap enc := by
  cases as with
  | nil =>
    obtain ⟨rfl, -⟩ := List.append_eq_nil_iff.mp hstream
    obtain ⟨e, he, -⟩ := h.empty
    rw [he] at hp
    cases hp
  | cons b bs =>
    rcases h.arrived (has b List.mem_cons_self) hstream with ⟨p', rfl, htail, hok⟩ | ⟨-, e, he, -⟩
    · rw [hok] at hp
      cases hp
      rw [List.drop_left]
      exact ⟨bs, rfl, rfl, rfl, htail.symm⟩
    · rw [he] at hp
      cases hp

/-- A failed attempt asks to wait, and the next frame has not arrived in full. -/
theorem next_error (h : Delimits parse enc ok wait) {as : List α} {e : ε} {p rest : List UInt8}
    (has : ∀ a ∈ as, ok a) (hstream : p ++ rest = as.flatMap enc) (hp : parse p = .error e) :
    wait e ∧ ∀ a as', as = a :: as' → p.length < (enc a).length := by
  cases as with
  | nil =>
    obtain ⟨rfl, -⟩ := List.append_eq_nil_iff.mp hstream
    obtain ⟨e', he, hwait⟩ := h.empty
    rw [he] at hp
    cases hp
    exact ⟨hwait, fun _ _ heq => nomatch heq⟩
  | cons b bs =>
    rcases h.arrived (has b List.mem_cons_self) hstream with ⟨p', -, -, hok⟩ | ⟨hlt, e', he, hwait⟩
    · rw [hok] at hp
      cases hp
    · rw [he] at hp
      cases hp
      exact ⟨hwait, fun a as' heq => (List.cons.inj heq).1 ▸ hlt⟩

end Delimits

end Stratavm.Lib
