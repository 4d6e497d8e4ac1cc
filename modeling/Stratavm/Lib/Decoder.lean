/-!
# Byte decoders and byte-reading machines

* `Decoder ε α` reads a prefix of its input and returns a value with the unread rest, or fails
  with an `ε`. `Reads d bs a` says that `d` reads exactly `bs` as `a`, whatever bytes follow; it
  composes along `bind` (`Reads.bind`) and along a counted loop (`Reads.loop`), which is how the
  round trip of a nested format is assembled from the round trips of its parts.
* `Machine ε σ α` is a decoder that also mutates a state `σ`. A failed machine keeps the state it
  had reached, so "nothing changes on failure" is a statement about a machine, not a convention.

`bind_eq_ok` peels a successful `do` block apart, one step at a time.
-/

namespace Stratavm.Lib

/-- A byte decoder with errors in `ε`. -/
def Decoder (ε α : Type) := List UInt8 → Except ε (α × List UInt8)

namespace Decoder

variable {ε α β σ : Type}

instance : Monad (Decoder ε) where
  pure a := fun s => .ok (a, s)
  bind d f := fun s =>
    match d s with
    | .ok (a, s') => f a s'
    | .error e => .error e

/-- Reject the input. -/
def fail (e : ε) : Decoder ε α := fun _ => .error e

/-- Rewrite the error of a failed decoder. -/
def mapError (f : ε → ε) (d : Decoder ε α) : Decoder ε α := fun s =>
  match d s with
  | .ok p => .ok p
  | .error e => .error (f e)

theorem pure_apply (a : α) (s : List UInt8) : (pure a : Decoder ε α) s = .ok (a, s) := rfl

theorem fail_apply (e : ε) (s : List UInt8) : (fail e : Decoder ε α) s = .error e := rfl

theorem bind_of_ok {d : Decoder ε α} {f : α → Decoder ε β} {s s' : List UInt8} {a : α}
    (h : d s = .ok (a, s')) : (d >>= f) s = f a s' := by
  show (match d s with | .ok (a, s') => f a s' | .error e => .error e) = _
  rw [h]

theorem bind_of_error {d : Decoder ε α} {f : α → Decoder ε β} {s : List UInt8} {e : ε}
    (h : d s = .error e) : (d >>= f) s = .error e := by
  show (match d s with | .ok (a, s') => f a s' | .error e => .error e) = _
  rw [h]

/-- A `do` block succeeds iff its first step does and the rest succeeds on what is left. -/
theorem bind_eq_ok {d : Decoder ε α} {f : α → Decoder ε β} {s : List UInt8}
    {p : β × List UInt8} :
    (d >>= f) s = .ok p ↔ ∃ a s', d s = .ok (a, s') ∧ f a s' = .ok p := by
  cases h : d s with
  | error e => simp [bind_of_error h]
  | ok q => simp [bind_of_ok (show d s = .ok (q.1, q.2) from h), Prod.ext_iff, and_assoc]

theorem pure_eq_ok {a b : α} {s s' : List UInt8} :
    (pure a : Decoder ε α) s = .ok (b, s') ↔ a = b ∧ s = s' := by
  rw [pure_apply, Except.ok.injEq, Prod.mk.injEq]

theorem fail_ne_ok {e : ε} {s : List UInt8} {p : α × List UInt8} :
    (fail e : Decoder ε α) s ≠ .ok p := by
  rw [fail_apply]; exact fun h => nomatch h

theorem mapError_eq_ok {f : ε → ε} {d : Decoder ε α} {s : List UInt8} {p : α × List UInt8} :
    mapError f d s = .ok p ↔ d s = .ok p := by
  unfold mapError
  cases d s <;> simp

/-- `for (k = i; k < i + n; ++k) acc = body(k, acc)`. -/
def loop (body : Nat → σ → Decoder ε σ) : Nat → Nat → σ → Decoder ε σ
  | _, 0, acc => pure acc
  | i, n + 1, acc => do
    let acc ← body i acc
    loop body (i + 1) n acc

/-- A loop invariant that starts true and survives each iteration holds at the end. -/
theorem loop_invariant {body : Nat → σ → Decoder ε σ} (P : Nat → σ → Prop)
    (step : ∀ i acc acc' s s', P i acc → body i acc s = .ok (acc', s') → P (i + 1) acc') :
    ∀ {i n : Nat} {acc acc' : σ} {s s' : List UInt8},
      P i acc → loop body i n acc s = .ok (acc', s') → P (i + n) acc'
  | i, 0, acc, acc', s, s', h0, h => by
    obtain ⟨rfl, -⟩ := pure_eq_ok.mp h
    exact h0
  | i, n + 1, acc, acc', s, s', h0, h => by
    obtain ⟨mid, s1, h1, h2⟩ := bind_eq_ok.mp h
    have := loop_invariant P step (step i acc mid s s1 h0 h1) h2
    rwa [Nat.add_assoc, Nat.add_comm 1 n] at this

/-- `for (k = i; k < i + n; ++k) out.push_back(d(k))`. -/
def listFrom (d : Nat → Decoder ε α) : Nat → Nat → Decoder ε (List α)
  | _, 0 => pure []
  | i, n + 1 => do
    let a ← d i
    let as ← listFrom d (i + 1) n
    pure (a :: as)

/-- A decoded list has the announced length, and each element what its decoder guarantees. -/
theorem listFrom_forall {d : Nat → Decoder ε α} {P : α → Prop}
    (hd : ∀ k a s s', d k s = .ok (a, s') → P a) :
    ∀ {n i : Nat} {as : List α} {s s' : List UInt8},
      listFrom d i n s = .ok (as, s') → as.length = n ∧ ∀ a ∈ as, P a
  | 0, i, as, s, s', h => by
    obtain ⟨rfl, -⟩ := pure_eq_ok.mp h
    exact ⟨rfl, fun _ h => absurd h List.not_mem_nil⟩
  | n + 1, i, as, s, s', h => by
    obtain ⟨a, s1, ha, h⟩ := bind_eq_ok.mp h
    obtain ⟨as', s2, has, h⟩ := bind_eq_ok.mp h
    obtain ⟨rfl, -⟩ := pure_eq_ok.mp h
    obtain ⟨hlen, hall⟩ := listFrom_forall hd has
    refine ⟨congrArg (· + 1) hlen, fun x hx => ?_⟩
    rcases List.mem_cons.mp hx with rfl | hx
    · exact hd _ _ _ _ ha
    · exact hall x hx

/-- A loop that reads an item and takes the accumulator a step reads the list of the items, and takes
the accumulator through it. -/
theorem loop_eq_ok {body : Nat → σ → Decoder ε σ} {d : Nat → Decoder ε α} {g : σ → α → Option σ}
    (hbody : ∀ i acc acc' s s', body i acc s = .ok (acc', s') ↔
      ∃ a, d i s = .ok (a, s') ∧ g acc a = some acc') :
    ∀ {n i : Nat} {acc acc' : σ} {s s' : List UInt8}, loop body i n acc s = .ok (acc', s') ↔
      ∃ as, listFrom d i n s = .ok (as, s') ∧ as.foldlM g acc = some acc'
  | 0, i, acc, acc', s, s' => by
    constructor
    · intro h
      obtain ⟨rfl, rfl⟩ := pure_eq_ok.mp h
      exact ⟨[], rfl, rfl⟩
    · rintro ⟨as, has, hfold⟩
      obtain ⟨rfl, rfl⟩ := pure_eq_ok.mp has
      obtain rfl := Option.some.inj hfold
      rfl
  | n + 1, i, acc, acc', s, s' => by
    constructor
    · intro h
      obtain ⟨mid, s1, hstep, h⟩ := bind_eq_ok.mp h
      obtain ⟨a, ha, hg⟩ := (hbody ..).mp hstep
      obtain ⟨as, has, hfold⟩ := (loop_eq_ok hbody).mp h
      refine ⟨a :: as, bind_eq_ok.mpr ⟨a, s1, ha, bind_eq_ok.mpr ⟨as, s', has, rfl⟩⟩, ?_⟩
      rw [List.foldlM_cons, hg]
      exact hfold
    · rintro ⟨as, has, hfold⟩
      obtain ⟨a, s1, ha, has⟩ := bind_eq_ok.mp has
      obtain ⟨rest, s2, hrest, hp⟩ := bind_eq_ok.mp has
      obtain ⟨rfl, rfl⟩ := pure_eq_ok.mp hp
      rw [List.foldlM_cons] at hfold
      obtain ⟨mid, hg, hfold⟩ := Option.bind_eq_some_iff.mp hfold
      exact bind_eq_ok.mpr ⟨mid, s1, (hbody ..).mpr ⟨a, ha, hg⟩,
        (loop_eq_ok hbody).mpr ⟨rest, hrest, hfold⟩⟩

/-! ## Reading the same bytes -/

/-- `e` reads what `d` reads, and returns `v` of it. -/
def Image (v : α → β) (d : Decoder ε α) (e : Decoder ε β) : Prop :=
  ∀ s b s', e s = .ok (b, s') ↔ ∃ a, d s = .ok (a, s') ∧ b = v a

theorem Image.refl (d : Decoder ε α) : Image id d d := by
  intro s b s'
  constructor
  · exact fun h => ⟨b, h, rfl⟩
  · rintro ⟨a, h, rfl⟩
    exact h

theorem Image.pure (v : α → β) (a : α) : Image v (Pure.pure a : Decoder ε α) (Pure.pure (v a)) := by
  intro s b s'
  constructor
  · intro h
    obtain ⟨rfl, rfl⟩ := pure_eq_ok.mp h
    exact ⟨a, rfl, rfl⟩
  · rintro ⟨a', h, rfl⟩
    obtain ⟨rfl, rfl⟩ := pure_eq_ok.mp h
    rfl

theorem Image.fail (v : α → β) (e : ε) : Image v (fail e : Decoder ε α) (Decoder.fail e) :=
  fun _ _ _ => iff_of_false fail_ne_ok fun ⟨_, h, _⟩ => fail_ne_ok h

theorem Image.ite {c : Prop} [Decidable c] {v : α → β} {d d' : Decoder ε α} {e e' : Decoder ε β}
    (h : Image v d e) (h' : Image v d' e') : Image v (if c then d else d') (if c then e else e') := by
  split
  · exact h
  · exact h'

/-- Step by step. -/
theorem Image.bind {γ δ : Type} {v : α → γ} {w : β → δ} {d : Decoder ε α} {e : Decoder ε γ}
    {f : α → Decoder ε β} {g : γ → Decoder ε δ} (hd : Image v d e)
    (hf : ∀ a, Image w (f a) (g (v a))) : Image w (d >>= f) (e >>= g) := by
  intro s b s'
  constructor
  · intro h
    obtain ⟨c, s1, hc, h⟩ := bind_eq_ok.mp h
    obtain ⟨a, ha, rfl⟩ := (hd ..).mp hc
    obtain ⟨b', hb, rfl⟩ := (hf a ..).mp h
    exact ⟨b', bind_eq_ok.mpr ⟨a, s1, ha, hb⟩, rfl⟩
  · rintro ⟨b', h, rfl⟩
    obtain ⟨a, s1, ha, hb⟩ := bind_eq_ok.mp h
    exact bind_eq_ok.mpr ⟨v a, s1, (hd ..).mpr ⟨a, ha, rfl⟩, (hf a ..).mpr ⟨b', hb, rfl⟩⟩

/-! ## Reading exactly -/

/-- `d` reads exactly `bs` as `a`, whatever follows. -/
def Reads (d : Decoder ε α) (bs : List UInt8) (a : α) : Prop :=
  ∀ t, d (bs ++ t) = .ok (a, t)

/-- Nothing need follow. -/
theorem Reads.run {d : Decoder ε α} {bs : List UInt8} {a : α} (h : Reads d bs a) :
    d bs = .ok (a, []) := by
  have h' := h []
  rwa [List.append_nil] at h'

theorem Reads.pure (a : α) : Reads (Pure.pure a : Decoder ε α) [] a := fun _ => rfl

theorem Reads.bind {d : Decoder ε α} {f : α → Decoder ε β} {bs cs : List UInt8} {a : α} {b : β}
    (hd : Reads d bs a) (hf : Reads (f a) cs b) : Reads (d >>= f) (bs ++ cs) b := by
  intro t
  rw [List.append_assoc, bind_of_ok (hd (cs ++ t))]
  exact hf t

theorem Reads.mapError {f : ε → ε} {d : Decoder ε α} {bs : List UInt8} {a : α}
    (h : Reads d bs a) : Reads (d.mapError f) bs a := fun t => mapError_eq_ok.mpr (h t)

/-- The last step of a block adds no bytes when it only returns. -/
theorem Reads.bind_of_eq_pure {d : Decoder ε α} {f : α → Decoder ε β} {bs : List UInt8} {a : α}
    {b : β} (hd : Reads d bs a) (hf : f a = Pure.pure b) : Reads (d >>= f) bs b := by
  have h : Reads (d >>= f) (bs ++ []) b := Reads.bind hd (hf ▸ Reads.pure b)
  rwa [List.append_nil] at h

theorem Reads.bind_pure {d : Decoder ε α} {f : α → β} {bs : List UInt8} {a : α}
    (hd : Reads d bs a) : Reads (d >>= fun a => Pure.pure (f a)) bs (f a) :=
  hd.bind_of_eq_pure rfl

/-- A counted loop reads the items one after the other, if its body reads each item in the
state the earlier items left. -/
theorem Reads.loop {body : Nat → σ → Decoder ε σ} {enc : β → List UInt8} {next : σ → β → σ} :
    ∀ {xs : List β} {i : Nat} {acc : σ},
      (∀ pre x suf, xs = pre ++ x :: suf →
        Reads (body (i + pre.length) (pre.foldl next acc)) (enc x)
          (next (pre.foldl next acc) x)) →
      Reads (Decoder.loop body i xs.length acc) (xs.flatMap enc) (xs.foldl next acc)
  | [], i, acc, _ => Reads.pure acc
  | x :: xs, i, acc, h => by
    refine Reads.bind (h [] x xs rfl) (Reads.loop fun pre y suf hxs => ?_)
    have := h (x :: pre) y suf (by rw [hxs]; rfl)
    rwa [List.length_cons, Nat.add_comm pre.length, ← Nat.add_assoc] at this

/-- A counted list reads its items one after the other. -/
theorem Reads.listFrom {d : Nat → Decoder ε α} {enc : α → List UInt8} :
    ∀ {xs : List α} {i : Nat},
      (∀ k x, xs[k]? = some x → Reads (d (i + k)) (enc x) x) →
      Reads (Decoder.listFrom d i xs.length) (xs.flatMap enc) xs
  | [], _, _ => Reads.pure []
  | x :: xs, i, h => by
    refine Reads.bind (h 0 x rfl) (Reads.bind_pure (f := (x :: ·)) (Reads.listFrom fun k y hy => ?_))
    have := h (k + 1) y hy
    rwa [Nat.add_comm k, ← Nat.add_assoc] at this

end Decoder

/-! ## Machines -/

/-- A decoder over a mutable state: on failure the state reached so far remains. -/
def Machine (ε σ α : Type) := σ → List UInt8 → Except ε (α × List UInt8) × σ

namespace Machine

variable {ε ε' σ α β : Type}

instance : Monad (Machine ε σ) where
  pure a := fun s r => (.ok (a, r), s)
  bind m f := fun s r =>
    match m s r with
    | (.ok (a, r'), s') => f a s' r'
    | (.error e, s') => (.error e, s')

/-- Stop with an error, the state as it is. -/
def fail (e : ε) : Machine ε σ α := fun s _ => (.error e, s)

/-- The current state. -/
def get : Machine ε σ σ := fun s r => (.ok (s, r), s)

/-- Replace the state. -/
def set (s : σ) : Machine ε σ Unit := fun _ r => (.ok ((), r), s)

/-- Compute a value from the state and update the state. -/
def modifyGet (f : σ → α × σ) : Machine ε σ α := fun s r => (.ok ((f s).1, r), (f s).2)

/-- Update the state. -/
def modify (f : σ → σ) : Machine ε σ Unit := modifyGet fun s => ((), f s)

/-- Read operands with a decoder; `inj` embeds its errors. -/
def read (inj : ε' → ε) (d : Decoder ε' α) : Machine ε σ α := fun s r =>
  match d r with
  | .ok p => (.ok p, s)
  | .error e => (.error (inj e), s)

/-- `m` succeeds from `s` and `r` with value `a`, state `s'` and unread bytes `r'`. -/
def Ok (m : Machine ε σ α) (s : σ) (r : List UInt8) (a : α) (s' : σ) (r' : List UInt8) : Prop :=
  m s r = (.ok (a, r'), s')

/-- A machine whose result is a success succeeds. -/
theorem ok_of_fst {m : Machine ε σ α} {s : σ} {r r' : List UInt8} {a : α}
    (h : (m s r).1 = .ok (a, r')) : Ok m s r a (m s r).2 r' := Prod.ext h rfl

theorem bind_apply (m : Machine ε σ α) (f : α → Machine ε σ β) (s : σ) (r : List UInt8) :
    (m >>= f) s r =
      match m s r with
      | (.ok (a, r'), s') => f a s' r'
      | (.error e, s') => (.error e, s') := rfl

theorem bind_ok {m : Machine ε σ α} {f : α → Machine ε σ β} {s : σ} {r : List UInt8} {b : β}
    {s' : σ} {r' : List UInt8} :
    Ok (m >>= f) s r b s' r' ↔ ∃ a s1 r1, Ok m s r a s1 r1 ∧ Ok (f a) s1 r1 b s' r' := by
  unfold Ok
  rw [bind_apply]
  rcases h : m s r with ⟨e | ⟨a, r1⟩, s1⟩
  · simp
  · constructor
    · intro h'
      exact ⟨a, s1, r1, rfl, h'⟩
    · rintro ⟨a', s1', r1', heq, h'⟩
      simp only [Prod.mk.injEq, Except.ok.injEq] at heq
      obtain ⟨⟨rfl, rfl⟩, rfl⟩ := heq
      exact h'

theorem pure_ok {a b : α} {s s' : σ} {r r' : List UInt8} :
    Ok (pure a : Machine ε σ α) s r b s' r' ↔ a = b ∧ s = s' ∧ r = r' := by
  show ((Except.ok (a, r), s) : Except ε (α × List UInt8) × σ) = (.ok (b, r'), s') ↔ _
  simp only [Prod.mk.injEq, Except.ok.injEq]
  exact ⟨fun ⟨⟨h1, h2⟩, h3⟩ => ⟨h1, h3, h2⟩, fun ⟨h1, h3, h2⟩ => ⟨⟨h1, h2⟩, h3⟩⟩

theorem not_fail_ok {e : ε} {s s' : σ} {r r' : List UInt8} {a : α} :
    ¬ Ok (fail e : Machine ε σ α) s r a s' r' := by
  intro h
  simp [Ok, fail] at h

theorem set_ok {s s' t : σ} {r r' : List UInt8} {u : Unit} :
    Ok (set t : Machine ε σ Unit) s r u s' r' ↔ s' = t ∧ r' = r := by
  simp only [Ok, set, Prod.mk.injEq, Except.ok.injEq]
  constructor <;> rintro ⟨_, _⟩ <;> simp_all

theorem bind_get_ok {f : σ → Machine ε σ β} {s s' : σ} {r r' : List UInt8} {b : β} :
    Ok (get >>= f) s r b s' r' ↔ Ok (f s) s r b s' r' := Iff.rfl

theorem bind_set_ok {f : Unit → Machine ε σ β} {s s' t : σ} {r r' : List UInt8} {b : β} :
    Ok (set t >>= f) s r b s' r' ↔ Ok (f ()) t r b s' r' := Iff.rfl

theorem bind_modifyGet_ok {g : σ → α × σ} {f : α → Machine ε σ β} {s s' : σ}
    {r r' : List UInt8} {b : β} :
    Ok (modifyGet g >>= f) s r b s' r' ↔ Ok (f (g s).1) (g s).2 r b s' r' := Iff.rfl

theorem bind_modify_ok {g : σ → σ} {f : Unit → Machine ε σ β} {s s' : σ} {r r' : List UInt8}
    {b : β} : Ok (modify g >>= f) s r b s' r' ↔ Ok (f ()) (g s) r b s' r' := Iff.rfl

/-- An error stops the machine. -/
theorem bind_of_error {m : Machine ε σ α} {f : α → Machine ε σ β} {s : σ} {r : List UInt8} {e : ε}
    (h : (m s r).1 = .error e) : (m >>= f) s r = (.error e, (m s r).2) := by
  rw [bind_apply]
  rcases hm : m s r with ⟨e' | p, s'⟩
  · rw [hm] at h
    obtain rfl := Except.error.inj h
    rfl
  · rw [hm] at h
    cases h

theorem bind_get_apply (f : σ → Machine ε σ β) (s : σ) (r : List UInt8) :
    (get >>= f) s r = f s s r := rfl

theorem bind_set_apply (f : Unit → Machine ε σ β) (s t : σ) (r : List UInt8) :
    (set t >>= f) s r = f () t r := rfl

theorem bind_modifyGet_apply (g : σ → α × σ) (f : α → Machine ε σ β) (s : σ) (r : List UInt8) :
    (modifyGet g >>= f) s r = f (g s).1 (g s).2 r := rfl

/-- A failed read stops the machine. -/
theorem bind_read_of_error {inj : ε' → ε} {d : Decoder ε' α} {f : α → Machine ε σ β} {s : σ}
    {r : List UInt8} {e : ε'} (h : d r = .error e) :
    (read inj d >>= f) s r = (.error (inj e), s) := by
  rw [bind_apply, read, h]

theorem bind_read_of_ok {inj : ε' → ε} {d : Decoder ε' α} {f : α → Machine ε σ β} {s : σ}
    {r r' : List UInt8} {a : α} (h : d r = .ok (a, r')) :
    (read inj d >>= f) s r = f a s r' := by
  rw [bind_apply, read, h]

theorem bind_read_ok {inj : ε' → ε} {d : Decoder ε' α} {f : α → Machine ε σ β} {s s' : σ}
    {r r' : List UInt8} {b : β} :
    Ok (read inj d >>= f) s r b s' r' ↔ ∃ a r1, d r = .ok (a, r1) ∧ Ok (f a) s r1 b s' r' := by
  rw [bind_ok]
  unfold Ok read
  cases h : d r with
  | error e => simp
  | ok p => simp [Prod.ext_iff, and_assoc]

/-- The state a machine ends in, or its error. -/
def finalState (m : Machine ε σ α) (s : σ) (r : List UInt8) : Except ε σ :=
  match m s r with
  | (.ok _, s') => .ok s'
  | (.error e, _) => .error e

theorem finalState_eq_ok {m : Machine ε σ α} {s s' : σ} {r : List UInt8} :
    finalState m s r = .ok s' ↔ ∃ a r', Ok m s r a s' r' := by
  unfold finalState Ok
  rcases m s r with ⟨e | ⟨a, r'⟩, t⟩ <;> simp

/-! ### Reading exactly -/

/-- From state `s`, `m` reads exactly `bs` as `a`, whatever follows, and leaves `s'`. -/
def Reads (m : Machine ε σ α) (s : σ) (bs : List UInt8) (a : α) (s' : σ) : Prop :=
  ∀ t, Ok m s (bs ++ t) a s' t

theorem Reads.run {m : Machine ε σ α} {s s' : σ} {bs : List UInt8} {a : α}
    (h : Reads m s bs a s') : Ok m s bs a s' [] := by
  have h' := h []
  rwa [List.append_nil] at h'

theorem Reads.pure (a : α) (s : σ) : Reads (Pure.pure a : Machine ε σ α) s [] a s := fun _ => rfl

theorem Reads.bind {m : Machine ε σ α} {f : α → Machine ε σ β} {s s1 s2 : σ}
    {bs cs : List UInt8} {a : α} {b : β} (hm : Reads m s bs a s1) (hf : Reads (f a) s1 cs b s2) :
    Reads (m >>= f) s (bs ++ cs) b s2 := by
  intro t
  rw [List.append_assoc]
  exact bind_ok.mpr ⟨a, s1, cs ++ t, hm _, hf t⟩

theorem Reads.bind_read {inj : ε' → ε} {d : Decoder ε' α} {f : α → Machine ε σ β} {s s' : σ}
    {bs cs : List UInt8} {a : α} {b : β} (hd : Decoder.Reads d bs a)
    (hf : Reads (f a) s cs b s') : Reads (read inj d >>= f) s (bs ++ cs) b s' := by
  intro t
  rw [List.append_assoc]
  exact bind_read_ok.mpr ⟨a, cs ++ t, hd _, hf t⟩

theorem Reads.bind_get {f : σ → Machine ε σ β} {s s' : σ} {bs : List UInt8} {b : β}
    (h : Reads (f s) s bs b s') : Reads (get >>= f) s bs b s' := h

theorem Reads.bind_set {f : Unit → Machine ε σ β} {s s' u : σ} {bs : List UInt8} {b : β}
    (h : Reads (f ()) u bs b s') : Reads (set u >>= f) s bs b s' := h

theorem Reads.bind_modify {g : σ → σ} {f : Unit → Machine ε σ β} {s s' : σ} {bs : List UInt8}
    {b : β} (h : Reads (f ()) (g s) bs b s') : Reads (modify g >>= f) s bs b s' := h

/-! ### The errors a machine can stop with -/

/-- Every error `m` stops with satisfies `E`. -/
def Raises (E : ε → Prop) (m : Machine ε σ α) : Prop :=
  ∀ s r e s', m s r = (.error e, s') → E e

variable {E : ε → Prop}

theorem Raises.pure (a : α) : Raises E (Pure.pure a : Machine ε σ α) :=
  fun _ _ _ _ h => nomatch (Prod.mk.inj h).1

theorem Raises.set (t : σ) : Raises E (set t : Machine ε σ Unit) :=
  fun _ _ _ _ h => nomatch (Prod.mk.inj h).1

theorem Raises.fail {e : ε} (h : E e) : Raises E (fail e : Machine ε σ α) := by
  intro s r e' s' h'
  obtain rfl := Except.error.inj (Prod.mk.inj h').1
  exact h

theorem Raises.bind {m : Machine ε σ α} {f : α → Machine ε σ β} (hm : Raises E m)
    (hf : ∀ a, Raises E (f a)) : Raises E (m >>= f) := by
  intro s r e s' h
  rw [bind_apply] at h
  rcases hms : m s r with ⟨e' | ⟨a, r1⟩, s1⟩
  · rw [hms] at h
    obtain rfl := Except.error.inj (Prod.mk.inj h).1
    exact hm s r _ _ hms
  · rw [hms] at h
    exact hf a s1 r1 e s' h

theorem Raises.bind_get {f : σ → Machine ε σ β} (hf : ∀ s, Raises E (f s)) :
    Raises E (get >>= f) := fun s r e s' h => hf s s r e s' h

/-! ### Failing without a trace -/

/-- When `m` stops with an error in `E`, the state is as before. -/
def Atomic (E : ε → Prop) (m : Machine ε σ α) : Prop :=
  ∀ s r e s', m s r = (.error e, s') → E e → s' = s

theorem Atomic.fail (e : ε) : Atomic E (fail e : Machine ε σ α) :=
  fun _ _ _ _ h _ => (Prod.mk.inj h).2.symm

theorem Atomic.bind_get {f : σ → Machine ε σ β} (hf : ∀ s, Atomic E (f s)) :
    Atomic E (get >>= f) := fun s r e s' h => hf s s r e s' h

/-- Reading operands first keeps a machine atomic. -/
theorem Atomic.bind_read {inj : ε' → ε} {d : Decoder ε' α} {f : α → Machine ε σ β}
    (hf : ∀ a, Atomic E (f a)) : Atomic E (read inj d >>= f) := by
  intro s r e s' h he
  cases hd : d r with
  | error e' =>
    rw [bind_read_of_error hd] at h
    exact (Prod.mk.inj h).2.symm
  | ok p =>
    rw [bind_read_of_ok (show d r = .ok (p.1, p.2) from hd)] at h
    exact hf p.1 s p.2 e s' h he

/-- A machine that cannot stop with such an error is atomic, whatever it changes. -/
theorem Atomic.of_raises {m : Machine ε σ α} (h : Raises (fun e => ¬ E e) m) : Atomic E m :=
  fun s r e s' hm he => absurd he (h s r e s' hm)

/-! ### Checks before stores -/

/-- When `m` stops, it is with an error in `E`, and the state is as before. -/
def Guarded (E : ε → Prop) (m : Machine ε σ α) : Prop :=
  ∀ s r e s', m s r = (.error e, s') → E e ∧ s' = s

theorem Guarded.pure (a : α) : Guarded E (Pure.pure a : Machine ε σ α) :=
  fun _ _ _ _ h => nomatch (Prod.mk.inj h).1

theorem Guarded.set (t : σ) : Guarded E (set t : Machine ε σ Unit) :=
  fun _ _ _ _ h => nomatch (Prod.mk.inj h).1

theorem Guarded.fail {e : ε} (h : E e) : Guarded E (fail e : Machine ε σ α) :=
  fun s r e' s' h' => ⟨Raises.fail h s r e' s' h', (Prod.mk.inj h').2.symm⟩

theorem Guarded.bind_get {f : σ → Machine ε σ β} (hf : ∀ s, Guarded E (f s)) :
    Guarded E (get >>= f) := fun s r e s' h => hf s s r e s' h

theorem Guarded.bind_read {inj : ε' → ε} {d : Decoder ε' α} {f : α → Machine ε σ β}
    (hinj : ∀ e, E (inj e)) (hf : ∀ a, Guarded E (f a)) : Guarded E (read inj d >>= f) := by
  intro s r e s' h
  cases hd : d r with
  | error e' =>
    rw [bind_read_of_error hd] at h
    obtain ⟨herr, rfl⟩ := Prod.mk.inj h
    obtain rfl := Except.error.inj herr
    exact ⟨hinj e', rfl⟩
  | ok p =>
    rw [bind_read_of_ok (show d r = .ok (p.1, p.2) from hd)] at h
    exact hf p.1 s p.2 e s' h

theorem Guarded.atomic {F : ε → Prop} {m : Machine ε σ α} (h : Guarded E m) : Atomic F m :=
  fun s r e s' hm _ => (h s r e s' hm).2

theorem Guarded.raises {F : ε → Prop} {m : Machine ε σ α} (h : Guarded E m)
    (hF : ∀ e, E e → F e) : Raises F m := fun s r e s' hm => hF e (h s r e s' hm).1

end Machine

end Stratavm.Lib
