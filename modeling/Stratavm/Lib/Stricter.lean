import Stratavm.Lib.Decoder

/-!
# A stricter variant of a program

`Stricter E x y` says that `x` does what `y` does, or stops with an error in `E`: the relation of a
program under tight limits to the same program under loose ones. It is closed under everything decoders
and machines are put together from; the only step where the two differ is a check (`Stricter.guard`) that
the stricter side fails more often.

There are three of them, for results, decoders and machines, each defined by the one before. `mapError` and
`Machine.Stricter.read` are where errors in `E` become errors in another set, as they do where a
decoder wraps what it calls.

Out of scope: what a stricter machine has done to its state before it stops. `finalState` forgets the
state of both.
-/

namespace Stratavm.Lib

variable {ε ε' α β σ : Type} {E F : ε → Prop}

/-- The result of `y`, or an error in `E`. -/
def Stricter (E : ε → Prop) (x y : Except ε α) : Prop := x = y ∨ ∃ e, x = .error e ∧ E e

namespace Stricter

theorem refl (x : Except ε α) : Stricter E x x := .inl rfl

theorem bind {x y : Except ε α} {f g : α → Except ε β} (h : Stricter E x y)
    (hf : ∀ a, Stricter E (f a) (g a)) : Stricter E (x >>= f) (y >>= g) := by
  rcases h with rfl | ⟨e, rfl, hE⟩
  · cases x with
    | error e => exact .inl rfl
    | ok a => exact hf a
  · exact .inr ⟨e, rfl, hE⟩

theorem map {x y : Except ε α} (h : Stricter E x y) (f : α → β) :
    Stricter E (x.map f) (y.map f) := by
  rcases h with rfl | ⟨e, rfl, hE⟩
  · exact .inl rfl
  · exact .inr ⟨e, rfl, hE⟩

/-- Step by step, when the results are compared through `k`. -/
theorem bind_map {γ : Type} {x y : Except ε α} {f : α → Except ε γ} {g : α → Except ε β} {k : β → γ}
    (h : Stricter E x y) (hf : ∀ a, Stricter E (f a) ((g a).map k)) :
    Stricter E (x >>= f) ((y >>= g).map k) := by
  rcases h with rfl | ⟨e, rfl, hE⟩
  · cases x with
    | error e => exact .inl rfl
    | ok a => exact hf a
  · exact .inr ⟨e, rfl, hE⟩

/-- With the errors rewritten. -/
theorem mapError {f : ε → ε'} {F : ε' → Prop} {x y : Except ε α} (h : Stricter E x y)
    (hf : ∀ e, E e → F (f e)) : Stricter F (x.mapError f) (y.mapError f) := by
  rcases h with rfl | ⟨e, rfl, hE⟩
  · exact .inl rfl
  · exact .inr ⟨f e, rfl, hf e hE⟩

end Stricter

/-! ## Decoders -/

namespace Decoder

/-- `d` does what `d'` does on every input, or stops with an error in `E`. -/
def Stricter (E : ε → Prop) (d d' : Decoder ε α) : Prop := ∀ s, Lib.Stricter E (d s) (d' s)

namespace Stricter

theorem refl (d : Decoder ε α) : Stricter E d d := fun s => .refl (d s)

/-- A check that the stricter side fails more often. -/
theorem guard {c c' : Prop} [Decidable c] [Decidable c'] {e : ε} {d d' : Decoder ε α} (he : E e)
    (hc : c' → c) (h : Stricter E d d') : Stricter E (if c then fail e else d) (if c' then fail e else d') := by
  by_cases hc1 : c
  · rw [if_pos hc1]
    by_cases hc2 : c'
    · rw [if_pos hc2]
      exact .refl _
    · exact fun s => .inr ⟨e, rfl, he⟩
  · rw [if_neg hc1, if_neg fun hc2 => hc1 (hc hc2)]
    exact h

theorem ite {c : Prop} [Decidable c] {d d' e e' : Decoder ε α} (h : Stricter E d d')
    (h' : Stricter E e e') : Stricter E (if c then d else e) (if c then d' else e') := by
  split
  · exact h
  · exact h'

theorem bind {d d' : Decoder ε α} {f f' : α → Decoder ε β} (h : Stricter E d d')
    (hf : ∀ a, Stricter E (f a) (f' a)) : Stricter E (d >>= f) (d' >>= f') := by
  intro s
  rcases h s with heq | ⟨e, he, hE⟩
  · cases hd : d' s with
    | error e => rw [bind_of_error (heq.trans hd), bind_of_error hd]; exact .refl _
    | ok p =>
      rw [bind_of_ok (show d s = .ok (p.1, p.2) from heq.trans hd),
        bind_of_ok (show d' s = .ok (p.1, p.2) from hd)]
      exact hf p.1 p.2
  · exact .inr ⟨e, bind_of_error he, hE⟩

theorem mapError {f : ε → ε} {d d' : Decoder ε α} (h : Stricter E d d')
    (hf : ∀ e, E e → F (f e)) : Stricter F (d.mapError f) (d'.mapError f) := by
  intro s
  unfold Decoder.mapError
  rcases h s with heq | ⟨e, he, hE⟩
  · rw [heq]
    exact .refl _
  · rw [he]
    exact .inr ⟨f e, rfl, hf e hE⟩

theorem loop {body body' : Nat → σ → Decoder ε σ} (h : ∀ i acc, Stricter E (body i acc) (body' i acc)) :
    ∀ {n i : Nat} {acc : σ}, Stricter E (Decoder.loop body i n acc) (Decoder.loop body' i n acc)
  | 0, _, _ => refl _
  | _ + 1, i, acc => (h i acc).bind fun _ => loop h

theorem listFrom {d d' : Nat → Decoder ε α} (h : ∀ i, Stricter E (d i) (d' i)) :
    ∀ {n i : Nat}, Stricter E (Decoder.listFrom d i n) (Decoder.listFrom d' i n)
  | 0, _ => refl _
  | _ + 1, i => (h i).bind fun _ => (listFrom h).bind fun _ => refl _

end Stricter

end Decoder

/-! ## Machines -/

namespace Machine

/-- `m` does what `m'` does from every state, or stops with an error in `E`. -/
def Stricter (E : ε → Prop) (m m' : Machine ε σ α) : Prop :=
  ∀ s r, m s r = m' s r ∨ ∃ e, (m s r).1 = .error e ∧ E e

namespace Stricter

theorem refl (m : Machine ε σ α) : Stricter E m m := fun _ _ => .inl rfl

/-- A check that the stricter side fails more often. -/
theorem guard {c c' : Prop} [Decidable c] [Decidable c'] {e : ε} {m m' : Machine ε σ α} (he : E e)
    (hc : c' → c) (h : Stricter E m m') : Stricter E (if c then fail e else m) (if c' then fail e else m') := by
  by_cases hc1 : c
  · rw [if_pos hc1]
    by_cases hc2 : c'
    · rw [if_pos hc2]
      exact .refl _
    · exact fun s r => .inr ⟨e, rfl, he⟩
  · rw [if_neg hc1, if_neg fun hc2 => hc1 (hc hc2)]
    exact h

theorem ite {c : Prop} [Decidable c] {m m' n n' : Machine ε σ α} (h : Stricter E m m')
    (h' : Stricter E n n') : Stricter E (if c then m else n) (if c then m' else n') := by
  split
  · exact h
  · exact h'

theorem bind {m m' : Machine ε σ α} {f f' : α → Machine ε σ β} (h : Stricter E m m')
    (hf : ∀ a, Stricter E (f a) (f' a)) : Stricter E (m >>= f) (m' >>= f') := by
  intro s r
  rcases h s r with heq | ⟨e, he, hE⟩
  · rw [bind_apply, bind_apply, heq]
    rcases m' s r with ⟨e | ⟨a, r1⟩, s1⟩
    · exact .inl rfl
    · exact hf a s1 r1
  · exact .inr ⟨e, by rw [bind_of_error he], hE⟩

theorem bind_get {f f' : σ → Machine ε σ β} (h : ∀ s, Stricter E (f s) (f' s)) :
    Stricter E (get >>= f) (get >>= f') := fun s r => h s s r

theorem read {inj : ε' → ε} {d d' : Decoder ε' α} {F : ε' → Prop} (h : Decoder.Stricter F d d')
    (hinj : ∀ e, F e → E (inj e)) :
    Stricter E (Machine.read inj d : Machine ε σ α) (Machine.read inj d') := by
  intro s r
  unfold Machine.read
  rcases h r with heq | ⟨e, he, hF⟩
  · rw [heq]
    exact .inl rfl
  · rw [he]
    exact .inr ⟨inj e, rfl, hinj e hF⟩

theorem finalState {m m' : Machine ε σ α} (h : Stricter E m m') (s : σ) (r : List UInt8) :
    Lib.Stricter E (Machine.finalState m s r) (Machine.finalState m' s r) := by
  unfold Machine.finalState
  rcases h s r with heq | ⟨e, he, hE⟩
  · rw [heq]
    exact .refl _
  · rcases hm : m s r with ⟨e' | p, s1⟩
    · rw [hm] at he
      obtain rfl := Except.error.inj he
      exact .inr ⟨e', rfl, hE⟩
    · rw [hm] at he
      cases he

end Stricter

end Machine

end Stratavm.Lib
