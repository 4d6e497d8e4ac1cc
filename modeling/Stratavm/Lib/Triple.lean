import Stratavm.Lib.Decoder

/-!
# What a decoder or a machine returns

`Returns x V E`: the result `x` is a value in `V`, or an error in `E`. `Ensures d P`: whatever `d`
decodes is in `P`. `Triple P m Q E`: from a state that satisfies `P`, on any input, `m` returns a value
and a state that satisfy `Q`, or stops with an error in `E`. Both read untrusted bytes, so neither says
anything of the input but what a read returned (`Triple.bind_read`).

A precondition that is also the postcondition is an invariant; that of a handler is carried through a
run by `Triple.bind` and an induction on the number of steps.
-/

namespace Stratavm.Lib

/-! ## Results -/

/-- A value in `V`, or an error in `E`. -/
def Returns {ε α : Type} (x : Except ε α) (V : α → Prop) (E : ε → Prop) : Prop :=
  (∀ a, x = .ok a → V a) ∧ ∀ e, x = .error e → E e

theorem exists_of_map_eq_ok {ε α β : Type} {f : α → β} {x : Except ε α} {b : β}
    (h : x.map f = .ok b) : ∃ a, x = .ok a ∧ f a = b := by
  cases x with
  | error e => cases h
  | ok a => exact ⟨a, rfl, Except.ok.inj h⟩

/-- A value comes out of both steps. -/
theorem bind_eq_ok_iff {ε α β : Type} {x : Except ε α} {f : α → Except ε β} {b : β} :
    (x >>= f) = .ok b ↔ ∃ a, x = .ok a ∧ f a = .ok b := by
  cases x with
  | error e => exact ⟨nofun, nofun⟩
  | ok a => exact ⟨fun h => ⟨a, rfl, h⟩, fun ⟨_, ha, h⟩ => Except.ok.inj ha ▸ h⟩

namespace Returns

variable {ε ε' α β : Type} {V : α → Prop} {W : β → Prop} {E : ε → Prop}

theorem ok {a : α} (h : V a) : Returns (.ok a) V E :=
  ⟨fun _ heq => Except.ok.inj heq ▸ h, fun _ heq => nomatch heq⟩

theorem error {e : ε} (h : E e) : Returns (.error e) V E :=
  ⟨fun _ heq => (nomatch heq), fun _ heq => Except.error.inj heq ▸ h⟩

theorem mono {V' : α → Prop} {x : Except ε α} (h : Returns x V E) (hV : ∀ a, V a → V' a) :
    Returns x V' E := ⟨fun a ha => hV a (h.1 a ha), h.2⟩

theorem bind {x : Except ε α} {f : α → Except ε β} (h : Returns x V E)
    (hf : ∀ a, V a → Returns (f a) W E) : Returns (x >>= f) W E := by
  cases x with
  | error e => exact .error (h.2 e rfl)
  | ok a => exact hf a (h.1 a rfl)

end Returns

/-! ## Decoders -/

namespace Decoder

variable {ε α β σ : Type} {P : α → Prop} {Q : β → Prop}

/-- Whatever `d` decodes is in `P`. -/
def Ensures (d : Decoder ε α) (P : α → Prop) : Prop := ∀ s a s', d s = .ok (a, s') → P a

namespace Ensures

theorem any (d : Decoder ε α) : Ensures d fun _ => True := fun _ _ _ _ => trivial

theorem pure {a : α} (h : P a) : Ensures (Pure.pure a : Decoder ε α) P := by
  intro s a' s' ha
  obtain ⟨rfl, -⟩ := pure_eq_ok.mp ha
  exact h

theorem fail (e : ε) : Ensures (Decoder.fail e : Decoder ε α) P := fun _ _ _ h => absurd h fail_ne_ok

theorem ite {c : Prop} [Decidable c] {d d' : Decoder ε α} (hd : c → Ensures d P)
    (hd' : ¬ c → Ensures d' P) : Ensures (if c then d else d') P := by
  split
  · exact hd ‹_›
  · exact hd' ‹_›

theorem bind {d : Decoder ε α} {f : α → Decoder ε β} (hd : Ensures d P) (hf : ∀ a, P a → Ensures (f a) Q) :
    Ensures (d >>= f) Q := by
  intro s b s' h
  obtain ⟨a, s1, ha, hb⟩ := bind_eq_ok.mp h
  exact hf a (hd s a s1 ha) s1 b s' hb

theorem listFrom {d : Nat → Decoder ε α} (hd : ∀ k, Ensures (d k) P) (i n : Nat) :
    Ensures (Decoder.listFrom d i n) fun as => as.length = n ∧ ∀ a ∈ as, P a :=
  fun _ _ _ h => listFrom_forall (fun k a s s' ha => hd k s a s' ha) h

/-- A loop ends with its invariant. -/
theorem loop {body : Nat → σ → Decoder ε σ} (I : Nat → σ → Prop)
    (step : ∀ i acc, I i acc → Ensures (body i acc) (I (i + 1))) {i : Nat} {acc : σ} (h : I i acc) (n : Nat) :
    Ensures (Decoder.loop body i n acc) (I (i + n)) :=
  fun _ _ _ hloop => loop_invariant I (fun i acc _ s _ hi hb => step i acc hi s _ _ hb) h hloop

end Ensures

end Decoder

/-! ## Machines -/

namespace Machine

variable {ε ε' σ α β : Type} {P P' : σ → Prop} {Q Q' : α → σ → Prop} {E E' : ε → Prop}

/-- From `P`, whatever is read, `m` returns in `Q` or stops in `E`. -/
def Triple (P : σ → Prop) (m : Machine ε σ α) (Q : α → σ → Prop) (E : ε → Prop) : Prop :=
  ∀ s r, P s → (∀ a s' r', Ok m s r a s' r' → Q a s') ∧ ∀ e, (m s r).1 = .error e → E e

namespace Triple

/-- The rule of consequence. -/
theorem mono {m : Machine ε σ α} (h : Triple P m Q E) (hP : ∀ s, P' s → P s)
    (hQ : ∀ a s, Q a s → Q' a s) (hE : ∀ e, E e → E' e) : Triple P' m Q' E' := by
  intro s r hs
  obtain ⟨hok, herr⟩ := h s r (hP s hs)
  exact ⟨fun a s' r' hm => hQ a s' (hok a s' r' hm), fun e hm => hE e (herr e hm)⟩

theorem pure {a : α} (h : ∀ s, P s → Q a s) : Triple P (Pure.pure a : Machine ε σ α) Q E := by
  refine fun s r hs => ⟨fun b s' r' hm => ?_, fun _ hm => nomatch hm⟩
  obtain ⟨rfl, rfl, -⟩ := pure_ok.mp hm
  exact h s hs

theorem fail {e : ε} (h : E e) : Triple P (Machine.fail e : Machine ε σ α) Q E :=
  fun _ _ _ => ⟨fun _ _ _ hm => absurd hm not_fail_ok, fun _ hm => Except.error.inj hm ▸ h⟩

theorem set {t : σ} {Q : Unit → σ → Prop} (h : ∀ s, P s → Q () t) :
    Triple P (Machine.set t : Machine ε σ Unit) Q E := by
  refine fun s r hs => ⟨fun _ s' r' hm => ?_, fun _ hm => nomatch hm⟩
  obtain ⟨rfl, -⟩ := set_ok.mp hm
  exact h s hs

theorem ite {c : Prop} [Decidable c] {m n : Machine ε σ α} (hm : c → Triple P m Q E)
    (hn : ¬ c → Triple P n Q E) : Triple P (if c then m else n) Q E := by
  by_cases hc : c
  · rw [if_pos hc]
    exact hm hc
  · rw [if_neg hc]
    exact hn hc

/-- The rule of sequence. -/
theorem bind {R : α → σ → Prop} {m : Machine ε σ α} {f : α → Machine ε σ β} {Q : β → σ → Prop}
    (hm : Triple P m R E) (hf : ∀ a, Triple (R a) (f a) Q E) : Triple P (m >>= f) Q E := by
  intro s r hs
  obtain ⟨hok, herr⟩ := hm s r hs
  refine ⟨fun b s' r' h => ?_, fun e h => ?_⟩
  · obtain ⟨a, s1, r1, ha, hb⟩ := bind_ok.mp h
    exact (hf a s1 r1 (hok a s1 r1 ha)).1 b s' r' hb
  · rw [bind_apply] at h
    rcases hms : m s r with ⟨e' | ⟨a, r1⟩, s1⟩
    · rw [hms] at h
      obtain rfl := Except.error.inj h
      exact herr e' (by rw [hms])
    · rw [hms] at h
      exact (hf a s1 r1 (hok a s1 r1 hms)).2 e h

/-- After `get` the state is known. -/
theorem bind_get {f : σ → Machine ε σ β} {Q : β → σ → Prop}
    (hf : ∀ s, P s → Triple (· = s) (f s) Q E) : Triple P (get >>= f) Q E :=
  fun s r hs => hf s hs s r rfl

theorem bind_set {t : σ} {f : Unit → Machine ε σ β} {Q : β → σ → Prop}
    (hf : ∀ s, P s → Triple (· = t) (f ()) Q E) : Triple P (Machine.set t >>= f) Q E :=
  fun s r hs => hf s hs t r rfl

theorem bind_modifyGet {g : σ → α × σ} {f : α → Machine ε σ β} {Q : β → σ → Prop}
    (hf : ∀ s, P s → Triple (· = (g s).2) (f (g s).1) Q E) : Triple P (modifyGet g >>= f) Q E :=
  fun s r hs => hf s hs (g s).2 r rfl

/-- A read leaves the state, and returns what its decoder guarantees. -/
theorem bind_read {inj : ε' → ε} {d : Decoder ε' α} {f : α → Machine ε σ β} {Q : β → σ → Prop}
    {V : α → Prop} (hd : ∀ r a r', d r = .ok (a, r') → V a) (hinj : ∀ e, E (inj e))
    (hf : ∀ a, V a → Triple P (f a) Q E) : Triple P (read inj d >>= f) Q E := by
  intro s r hs
  cases hread : d r with
  | error e =>
    refine ⟨fun b s' r' h => ?_, fun e' h => ?_⟩
    · rw [Ok, bind_read_of_error hread] at h
      cases (Prod.mk.inj h).1
    · rw [bind_read_of_error hread] at h
      exact Except.error.inj h ▸ hinj e
  | ok p =>
    obtain ⟨a, r1⟩ := p
    obtain ⟨hok, herr⟩ := hf a (hd r a r1 hread) s r1 hs
    refine ⟨fun b s' r' h => hok b s' r' ?_, fun e h => herr e ?_⟩
    · rwa [Ok, bind_read_of_ok hread] at h
    · rwa [bind_read_of_ok hread] at h

/-- What a triple says of the final state. -/
theorem finalState {m : Machine ε σ α} (h : Triple P m Q E) {s : σ} (hs : P s) (r : List UInt8) :
    Returns (Machine.finalState m s r) (fun s' => ∃ a, Q a s') E := by
  obtain ⟨hok, herr⟩ := h s r hs
  unfold Machine.finalState
  rcases hm : m s r with ⟨e | ⟨a, r'⟩, s'⟩
  · exact .error (herr e (by rw [hm]))
  · exact .ok ⟨a, hok a s' r' hm⟩

end Triple

end Machine

end Stratavm.Lib
