import Stratavm.Lib.Decoder

/-!
# Reading from a stream

A decoder that `Streams` takes bytes off the front of its input and looks at no others: what it accepts
or refuses does not depend on what follows, and an input that is cut short is refused, with an error in
`E`. Every decoder put together from such steps is one (`Streams.bind`, `Streams.loop`,
`Streams.listFrom`). The same is said of a machine, from every state: a failed machine keeps the state that
it had reached when the bytes ran out.

* `Streams.extend`: bytes after an accepted input change nothing.
* `Streams.cut`, its second clause: every proper beginning of an accepted input is refused.
-/

namespace Stratavm.Lib

/-- A beginning of `bs ++ cs` ends inside `bs`, or after it. -/
theorem append_eq_cut {α : Type} {bs cs p q : List α} (h : p ++ q = bs ++ cs) :
    (∃ c, c ≠ [] ∧ bs = p ++ c) ∨ ∃ c, p = bs ++ c ∧ cs = c ++ q := by
  rcases List.append_eq_append_iff.mp h with ⟨c, rfl, rfl⟩ | ⟨c, rfl, rfl⟩
  · by_cases hc : c = []
    · subst hc
      exact .inr ⟨[], by simp⟩
    · exact .inl ⟨c, hc, rfl⟩
  · exact .inr ⟨c, rfl, rfl⟩

namespace Decoder

variable {ε α β σ : Type} {E : ε → Prop}

/-- A success depends on the bytes it took only, and without all of them it is an error in `E`. -/
structure Streams (E : ε → Prop) (d : Decoder ε α) : Prop where
  taken : ∀ s a t, d s = .ok (a, t) → ∃ bs, s = bs ++ t ∧ Reads d bs a
  cut : ∀ p q a, q ≠ [] → Reads d (p ++ q) a → ∃ e, d p = .error e ∧ E e
  refused : ∀ p q e, d (p ++ q) = .error e → ∃ e', d p = .error e' ∧ (e' = e ∨ E e')

/-- `d` takes the first `n` bytes and returns `f` of them, or says `e` if they are not there. -/
def Takes (n : Nat) (e : ε) (f : List UInt8 → α) (d : Decoder ε α) : Prop :=
  ∀ s, d s = if s.length < n then .error e else .ok (f (s.take n), s.drop n)

theorem Takes.length_eq {n : Nat} {e : ε} {f : List UInt8 → α} {d : Decoder ε α} (h : Takes n e f d)
    {s t : List UInt8} {a : α} (hd : d s = .ok (a, t)) : s.length = t.length + n := by
  rw [h s] at hd
  split at hd
  · cases hd
  · obtain ⟨-, rfl⟩ := Prod.mk.inj (Except.ok.inj hd)
    rw [List.length_drop]
    omega

namespace Streams

/-- Bytes after an accepted input change nothing. -/
theorem extend {d : Decoder ε α} (h : Streams E d) {s t : List UInt8} {a : α}
    (hd : d s = .ok (a, t)) (u : List UInt8) : d (s ++ u) = .ok (a, t ++ u) := by
  obtain ⟨bs, rfl, hread⟩ := h.taken s a t hd
  rw [List.append_assoc]
  exact hread (t ++ u)

theorem pure (a : α) : Streams E (Pure.pure a : Decoder ε α) := by
  refine ⟨fun s b t h => ?_, fun p q b hq hread => ?_, fun _ _ _ h => nomatch h⟩
  · obtain ⟨rfl, rfl⟩ := pure_eq_ok.mp h
    exact ⟨[], rfl, Reads.pure a⟩
  · obtain ⟨-, hnil⟩ := pure_eq_ok.mp hread.run
    exact absurd (List.append_eq_nil_iff.mp hnil).2 hq

theorem fail (e : ε) : Streams E (Decoder.fail e : Decoder ε α) :=
  ⟨fun _ _ _ h => absurd h fail_ne_ok, fun _ _ _ _ hread => absurd hread.run fail_ne_ok,
    fun _ _ _ h => ⟨e, rfl, .inl (Except.error.inj h)⟩⟩

theorem ite {c : Prop} [Decidable c] {d d' : Decoder ε α} (hd : Streams E d) (hd' : Streams E d') :
    Streams E (if c then d else d') := by
  split
  · exact hd
  · exact hd'

/-- Step by step: an input cut in the first step is refused there, and one cut later by the rest. -/
theorem bind {d : Decoder ε α} {f : α → Decoder ε β} (hd : Streams E d)
    (hf : ∀ a, Streams E (f a)) : Streams E (d >>= f) := by
  have htaken : ∀ s b t, (d >>= f) s = .ok (b, t) → ∃ bs cs a, s = bs ++ (cs ++ t) ∧
      Reads d bs a ∧ Reads (f a) cs b := by
    intro s b t h
    obtain ⟨a, s1, ha, hb⟩ := bind_eq_ok.mp h
    obtain ⟨bs, rfl, hread⟩ := hd.taken s a s1 ha
    obtain ⟨cs, rfl, hread'⟩ := (hf a).taken s1 b t hb
    exact ⟨bs, cs, a, rfl, hread, hread'⟩
  refine ⟨fun s b t h => ?_, fun p q b hq hread => ?_, fun p q e h => ?_⟩
  · obtain ⟨bs, cs, a, rfl, hbs, hcs⟩ := htaken s b t h
    exact ⟨bs ++ cs, (List.append_assoc ..).symm, hbs.bind hcs⟩
  · obtain ⟨bs, cs, a, hsplit, hbs, hcs⟩ := htaken _ b [] hread.run
    rw [List.append_nil] at hsplit
    rcases append_eq_cut hsplit with ⟨c, hc, rfl⟩ | ⟨c, rfl, rfl⟩
    · obtain ⟨e, he, hE⟩ := hd.cut p c a hc hbs
      exact ⟨e, bind_of_error he, hE⟩
    · obtain ⟨e, he, hE⟩ := (hf a).cut c q b hq hcs
      exact ⟨e, by rw [bind_of_ok (hbs c), he], hE⟩
  · cases hpq : d (p ++ q) with
    | error e0 =>
      rw [bind_of_error hpq] at h
      obtain rfl := Except.error.inj h
      obtain ⟨e', he', hE⟩ := hd.refused p q e0 hpq
      exact ⟨e', bind_of_error he', hE⟩
    | ok pair =>
      obtain ⟨a, t⟩ := pair
      rw [bind_of_ok hpq] at h
      obtain ⟨bs, hsplit, hbs⟩ := hd.taken _ a t hpq
      rcases append_eq_cut hsplit with ⟨c, hc, rfl⟩ | ⟨c, rfl, rfl⟩
      · obtain ⟨e', he', hE⟩ := hd.cut p c a hc hbs
        exact ⟨e', bind_of_error he', .inr hE⟩
      · rw [bind_of_ok (hbs c)]
        exact (hf a).refused c q e h

theorem loop {body : Nat → σ → Decoder ε σ} (hbody : ∀ i acc, Streams E (body i acc)) :
    ∀ {n i : Nat} {acc : σ}, Streams E (Decoder.loop body i n acc)
  | 0, _, acc => pure acc
  | _ + 1, i, acc => (hbody i acc).bind fun _ => loop hbody

theorem listFrom {d : Nat → Decoder ε α} (hd : ∀ i, Streams E (d i)) :
    ∀ {n i : Nat}, Streams E (Decoder.listFrom d i n)
  | 0, _ => pure []
  | _ + 1, i => (hd i).bind fun a => (listFrom hd).bind fun as => pure (a :: as)

/-- A reader that takes a fixed number of bytes looks at those only. -/
theorem of_takes {d : Decoder ε α} {n : Nat} {f : List UInt8 → α} {e : ε}
    (h : Takes n e f d) (he : E e) : Streams E d := by
  refine ⟨fun s a t hs => ?_, fun p q a hq hread => ⟨e, ?_, he⟩, fun p q e' h' => ?_⟩
  · rw [h] at hs
    split at hs
    · cases hs
    rename_i hlen
    obtain ⟨rfl, rfl⟩ := Prod.mk.inj (Except.ok.inj hs)
    refine ⟨s.take n, (List.take_append_drop n s).symm, fun t => ?_⟩
    have hn : (s.take n).length = n := List.length_take_of_le (Nat.not_lt.mp hlen)
    rw [h, if_neg (by rw [List.length_append, hn]; omega), List.take_left' hn, List.drop_left' hn]
  · have hrun := hread.run
    rw [h] at hrun
    split at hrun
    · cases hrun
    · have hall := (Prod.mk.inj (Except.ok.inj hrun)).2
      rw [List.drop_eq_nil_iff, List.length_append] at hall
      have := List.length_pos_iff.mpr hq
      rw [h, if_pos (by omega)]
  · rw [h] at h'
    split at h'
    · rename_i hlen
      rw [List.length_append] at hlen
      exact ⟨e, by rw [h, if_pos (by omega)], .inr he⟩
    · cases h'

end Streams

end Decoder

/-! ## Machines -/

namespace Machine

variable {ε ε' σ α β : Type} {E : ε → Prop}

/-- From every state, a success depends on the bytes it took only, and without all of them it is an
error in `E`. -/
structure Streams (E : ε → Prop) (m : Machine ε σ α) : Prop where
  taken : ∀ s r a s' r', Ok m s r a s' r' → ∃ bs, r = bs ++ r' ∧ Reads m s bs a s'
  cut : ∀ s p q a s', q ≠ [] → Reads m s (p ++ q) a s' → ∃ e, (m s p).1 = .error e ∧ E e
  refused : ∀ s p q e, (m s (p ++ q)).1 = .error e → ∃ e', (m s p).1 = .error e' ∧ (e' = e ∨ E e')

namespace Streams

/-- Bytes after an accepted input change nothing. -/
theorem extend {m : Machine ε σ α} (h : Streams E m) {s s' : σ} {r r' : List UInt8} {a : α}
    (hm : Ok m s r a s' r') (u : List UInt8) : Ok m s (r ++ u) a s' (r' ++ u) := by
  obtain ⟨bs, rfl, hread⟩ := h.taken s r a s' r' hm
  rw [List.append_assoc]
  exact hread (r' ++ u)

/-- An input that is accepted to its end is read. -/
theorem reads {m : Machine ε σ α} (h : Streams E m) {s s' : σ} {r : List UInt8} {a : α}
    (hm : Ok m s r a s' []) : Reads m s r a s' := fun t => h.extend hm t

theorem pure (a : α) : Streams E (Pure.pure a : Machine ε σ α) := by
  refine ⟨fun s r b s' r' h => ?_, fun s p q b s' hq hread => ?_, fun _ _ _ _ h => nomatch h⟩
  · obtain ⟨rfl, rfl, rfl⟩ := pure_ok.mp h
    exact ⟨[], rfl, Reads.pure a s⟩
  · obtain ⟨-, -, hnil⟩ := pure_ok.mp hread.run
    exact absurd (List.append_eq_nil_iff.mp hnil).2 hq

theorem fail (e : ε) : Streams E (Machine.fail e : Machine ε σ α) :=
  ⟨fun _ _ _ _ _ h => absurd h not_fail_ok, fun _ _ _ _ _ _ hread => absurd hread.run not_fail_ok,
    fun _ _ _ _ h => ⟨e, rfl, .inl (Except.error.inj h)⟩⟩

theorem ite {c : Prop} [Decidable c] {m n : Machine ε σ α} (hm : Streams E m) (hn : Streams E n) :
    Streams E (if c then m else n) := by
  split
  · exact hm
  · exact hn

theorem bind {m : Machine ε σ α} {f : α → Machine ε σ β} (hm : Streams E m)
    (hf : ∀ a, Streams E (f a)) : Streams E (m >>= f) := by
  have htaken : ∀ s r b s' r', Ok (m >>= f) s r b s' r' → ∃ bs cs a s1, r = bs ++ (cs ++ r') ∧
      Reads m s bs a s1 ∧ Reads (f a) s1 cs b s' := by
    intro s r b s' r' h
    obtain ⟨a, s1, r1, ha, hb⟩ := bind_ok.mp h
    obtain ⟨bs, rfl, hread⟩ := hm.taken s r a s1 r1 ha
    obtain ⟨cs, rfl, hread'⟩ := (hf a).taken s1 r1 b s' r' hb
    exact ⟨bs, cs, a, s1, rfl, hread, hread'⟩
  refine ⟨fun s r b s' r' h => ?_, fun s p q b s' hq hread => ?_, fun s p q e h => ?_⟩
  · obtain ⟨bs, cs, a, s1, rfl, hbs, hcs⟩ := htaken s r b s' r' h
    exact ⟨bs ++ cs, (List.append_assoc ..).symm, hbs.bind hcs⟩
  · obtain ⟨bs, cs, a, s1, hsplit, hbs, hcs⟩ := htaken s _ b s' [] hread.run
    rw [List.append_nil] at hsplit
    rcases append_eq_cut hsplit with ⟨c, hc, rfl⟩ | ⟨c, rfl, rfl⟩
    · obtain ⟨e, he, hE⟩ := hm.cut s p c a s1 hc hbs
      exact ⟨e, by rw [bind_of_error he], hE⟩
    · obtain ⟨e, he, hE⟩ := (hf a).cut s1 c q b s' hq hcs
      refine ⟨e, ?_, hE⟩
      rw [bind_apply, hbs c]
      exact he
  · rcases hpq : m s (p ++ q) with ⟨e0 | ⟨a, t⟩, s1⟩
    · rw [bind_apply, hpq] at h
      obtain rfl := Except.error.inj h
      obtain ⟨e', he', hE⟩ := hm.refused s p q e0 (by rw [hpq])
      exact ⟨e', by rw [bind_of_error he'], hE⟩
    · rw [bind_apply, hpq] at h
      obtain ⟨bs, hsplit, hbs⟩ := hm.taken s _ a s1 t hpq
      rcases append_eq_cut hsplit with ⟨c, hc, rfl⟩ | ⟨c, rfl, rfl⟩
      · obtain ⟨e', he', hE⟩ := hm.cut s p c a s1 hc hbs
        exact ⟨e', by rw [bind_of_error he'], .inr hE⟩
      · rw [bind_apply, hbs c]
        exact (hf a).refused s1 c q e h

theorem bind_get {f : σ → Machine ε σ β} (hf : ∀ s, Streams E (f s)) : Streams E (get >>= f) :=
  ⟨fun s r b s' r' h => (hf s).taken s r b s' r' h,
    fun s p q b s' hq hread => (hf s).cut s p q b s' hq hread,
    fun s p q e h => (hf s).refused s p q e h⟩

theorem bind_modifyGet {g : σ → α × σ} {f : α → Machine ε σ β} (hf : ∀ a, Streams E (f a)) :
    Streams E (modifyGet g >>= f) :=
  ⟨fun s r b s' r' h => (hf (g s).1).taken (g s).2 r b s' r' h,
    fun s p q b s' hq hread => (hf (g s).1).cut (g s).2 p q b s' hq hread,
    fun s p q e h => (hf (g s).1).refused (g s).2 p q e h⟩

theorem bind_set {t : σ} {f : Unit → Machine ε σ β} (hf : Streams E (f ())) :
    Streams E (Machine.set t >>= f) :=
  ⟨fun _ r b s' r' h => hf.taken t r b s' r' h,
    fun _ p q b s' hq hread => hf.cut t p q b s' hq hread, fun _ p q e h => hf.refused t p q e h⟩

theorem set (t : σ) : Streams E (Machine.set t : Machine ε σ Unit) := bind_set (pure ())

theorem read {inj : ε' → ε} {d : Decoder ε' α} {F : ε' → Prop} (hd : Decoder.Streams F d)
    (hinj : ∀ e, F e → E (inj e)) : Streams E (Machine.read inj d : Machine ε σ α) := by
  have hok : ∀ s r a s' r', Ok (Machine.read inj d : Machine ε σ α) s r a s' r' ↔
      d r = .ok (a, r') ∧ s = s' := by
    intro s r a s' r'
    unfold Ok Machine.read
    cases d r with
    | error e => simp
    | ok p => simp
  refine ⟨fun s r a s' r' h => ?_, fun s p q a s' hq hread => ?_, fun s p q e h => ?_⟩
  · obtain ⟨ha, rfl⟩ := (hok ..).mp h
    obtain ⟨bs, rfl, hread⟩ := hd.taken r a r' ha
    exact ⟨bs, rfl, fun t => (hok ..).mpr ⟨hread t, rfl⟩⟩
  · obtain ⟨e, he, hF⟩ := hd.cut p q a hq fun t => ((hok ..).mp (hread t)).1
    refine ⟨inj e, ?_, hinj e hF⟩
    unfold Machine.read
    rw [he]
  · unfold Machine.read at h
    cases hpq : d (p ++ q) with
    | ok a =>
      rw [hpq] at h
      cases h
    | error e0 =>
      rw [hpq] at h
      obtain rfl := Except.error.inj h
      obtain ⟨e', he', hF⟩ := hd.refused p q e0 hpq
      refine ⟨inj e', ?_, hF.imp (congrArg inj) (hinj e')⟩
      unfold Machine.read
      rw [he']

end Streams

end Machine

end Stratavm.Lib
