import Stratavm.Wire.Crc

/-!
# Burst corruption of a frame

Four consecutive bytes are a burst of 32 bits, which no CRC of that width misses
(`Params.checksum_burst`). The magic and the length of the frame are read before its CRC is checked, so
the burst must leave them alone.

`AgreeOutside` says that two texts differ in one window only; taking, dropping and appending keep it, so it
can be followed into the parts that a frame is read from. The burst may lie in the flags and the sequence
number, in the payload, or in the CRC itself: in the first two the checksum changes and the stored one does
not, in the last it is the other way round. Two intact frames that differ in such a window are equal
(`eq_of_intact`), which is the argument of all three.

* **`burst_detected`**: a frame changed within four bytes, elsewhere than in its magic and length, is
  refused with `BadChecksum`, whatever follows it.

Out of scope: a burst that crosses from the payload into the CRC.
-/

namespace Stratavm

open Lib

/-- The two differ only in the `n` bytes from `start` on. -/
structure AgreeOutside (start n : Nat) (p q : Bytes) : Prop where
  length_eq : p.length = q.length
  get_eq : ∀ i, ¬ (start ≤ i ∧ i < start + n) → p[i]? = q[i]?

/-- The two differ only within four consecutive bytes of those from `lo` up to `hi`. -/
def AgreeButBurst (lo hi : Nat) (p q : Bytes) : Prop :=
  ∃ start n, n ≤ 4 ∧ lo ≤ start ∧ start + n ≤ hi ∧ AgreeOutside start n p q

namespace AgreeOutside

variable {start n : Nat} {p q : Bytes}

theorem take (h : AgreeOutside start n p q) (m : Nat) :
    AgreeOutside start n (p.take m) (q.take m) where
  length_eq := by rw [List.length_take, List.length_take, h.length_eq]
  get_eq := by
    intro i hi
    rw [List.getElem?_take, List.getElem?_take, h.get_eq i hi]

theorem append (h : AgreeOutside start n p q) (t : Bytes) :
    AgreeOutside start n (p ++ t) (q ++ t) where
  length_eq := by rw [List.length_append, List.length_append, h.length_eq]
  get_eq := by
    intro i hi
    rw [List.getElem?_append, List.getElem?_append, h.length_eq, h.get_eq i hi]

/-- The bytes of a window that misses the burst are the same. -/
theorem window_eq (h : AgreeOutside start n p q) {a k : Nat} (hmiss : a + k ≤ start ∨ start + n ≤ a) :
    (p.drop a).take k = (q.drop a).take k := by
  refine List.ext_getElem? fun i => ?_
  rw [List.getElem?_take, List.getElem?_take]
  split
  · rw [List.getElem?_drop, List.getElem?_drop]
    exact h.get_eq _ (by omega)
  · rfl

theorem take_eq (h : AgreeOutside start n p q) {k : Nat} (hmiss : k ≤ start) : p.take k = q.take k :=
  h.window_eq (a := 0) (.inl (by omega))

theorem drop_eq (h : AgreeOutside start n p q) {a : Nat} (hmiss : start + n ≤ a) :
    p.drop a = q.drop a := by
  refine List.ext_getElem? fun i => ?_
  rw [List.getElem?_drop, List.getElem?_drop]
  exact h.get_eq _ (by omega)

/-- **The CRC detects the burst.** -/
theorem eq_of_wireCrc32_eq (h : AgreeOutside start n p q) (hn : n ≤ 4)
    (hcrc : wireCrc32 p = wireCrc32 q) : p = q := by
  have hsplit : ∀ l : Bytes, l.take start ++ ((l.drop start).take n ++ l.drop (start + n)) = l := by
    intro l
    rw [← List.drop_drop, List.take_append_drop, List.take_append_drop]
  have hlen : ((p.drop start).take n).length = ((q.drop start).take n).length := by
    rw [List.length_take, List.length_take, List.length_drop, List.length_drop, h.length_eq]
  have hburst : 8 * ((p.drop start).take n).length ≤ 32 := by
    rw [List.length_take]
    omega
  have hsum : isoHdlc.checksum (p.map UInt8.toBitVec) = isoHdlc.checksum (q.map UInt8.toBitVec) := by
    rw [← wireCrc32_eq_checksum, ← wireCrc32_eq_checksum, hcrc]
  rw [← hsplit p, ← hsplit q, h.take_eq (Nat.le_refl _), h.drop_eq (Nat.le_refl _)] at hsum ⊢
  rw [List.map_append, List.map_append, List.map_append, List.map_append] at hsum
  have hwindow := isoHdlc.checksum_burst (by decide) (by simpa using hlen) (by simpa using hburst) hsum
  rw [(List.map_injective_iff.mpr fun _ _ => UInt8.toBitVec_inj.mp) hwindow]

end AgreeOutside

/-! ## Words -/

theorem writeLe32_readLe32 (b0 b1 b2 b3 : UInt8) (t : Bytes) :
    writeLe32 (readLe32 (b0 :: b1 :: b2 :: b3 :: t)) = [b0, b1, b2, b3] := by
  simp only [writeLe32, readLe32, List.cons.injEq, and_true]
  refine ⟨?_, ?_, ?_, ?_⟩ <;>
    refine UInt8.toBitVec_inj.mp (BitVec.eq_of_getLsbD_eq fun i hi => ?_) <;>
    simp (disch := omega) [decide_eq_true]

/-- A word is read from its four bytes. -/
theorem readLe32_take (p : Bytes) : readLe32 (p.take 4) = readLe32 p := by
  rcases p with _ | ⟨b0, _ | ⟨b1, _ | ⟨b2, _ | ⟨b3, t⟩⟩⟩⟩ <;> rfl

theorem take_eq_of_readLe32_eq {p q : Bytes} (hp : 4 ≤ p.length) (hq : 4 ≤ q.length)
    (h : readLe32 p = readLe32 q) : p.take 4 = q.take 4 := by
  have hwrite : ∀ l : Bytes, 4 ≤ l.length → l.take 4 = writeLe32 (readLe32 l)
    | b0 :: b1 :: b2 :: b3 :: t, _ => (writeLe32_readLe32 b0 b1 b2 b3 t).symm
  rw [hwrite p hp, hwrite q hq, h]

namespace AgreeOutside

variable {start n : Nat} {p q : Bytes}

theorem readLe32_eq (h : AgreeOutside start n p q) {a : Nat}
    (hmiss : a + 4 ≤ start ∨ start + n ≤ a) : readLe32 (p.drop a) = readLe32 (q.drop a) := by
  rw [← readLe32_take, h.window_eq hmiss, readLe32_take]

/-- Of two whole frames that differ in a burst, inside or outside the CRC, only one is intact. -/
theorem eq_of_intact (h : AgreeOutside start n p q) (hn : n ≤ 4) (hp : Intact p) (hq : Intact q)
    (hwhole : frameSize q ≤ q.length) (hlen : readLe32 (p.drop 12) = readLe32 (q.drop 12))
    {body : Nat} (hbody : body = kWireHeaderSize + (readLe32 (q.drop 12)).toNat)
    (hregion : start + n ≤ body ∨ body ≤ start ∧ start + n ≤ body + kWireCrcSize) : p = q := by
  have hcrc := hp.crc
  have hcrc' := hq.crc
  rw [hlen, ← hbody] at hcrc
  rw [← hbody] at hcrc'
  rw [frameSize, ← hbody] at hwhole
  unfold kWireCrcSize at hwhole hregion
  rcases hregion with hbefore | ⟨hafter, hinside⟩
  · have hrest := h.drop_eq hbefore
    have htake : p.take body = q.take body :=
      (h.take body).eq_of_wireCrc32_eq hn (by rw [hcrc, hcrc', hrest])
    rw [← List.take_append_drop body p, htake, hrest, List.take_append_drop]
  · have htake := h.take_eq hafter
    have hword : (p.drop body).take 4 = (q.drop body).take 4 := by
      refine take_eq_of_readLe32_eq ?_ ?_ ?_
      · rw [List.length_drop, h.length_eq]
        omega
      · rw [List.length_drop]
        omega
      · rw [← hcrc, ← hcrc', htake]
    rw [← List.take_append_drop body p, ← List.take_append_drop 4 (p.drop body), htake, hword,
      List.drop_drop, h.drop_eq hinside, ← List.drop_drop, List.take_append_drop,
      List.take_append_drop]

/-- **A burst in a whole frame** that leaves the magic and the length alone is a CRC mismatch. -/
theorem readFrame_eq (h : AgreeOutside start n p q) (hn : n ≤ 4) (hne : p ≠ q) (hq : Intact q)
    (hwhole : frameSize q ≤ q.length) (hheader : 4 ≤ start)
    (hlength : start + n ≤ 12 ∨ kWireHeaderSize ≤ start) {body : Nat}
    (hbody : body = kWireHeaderSize + (readLe32 (q.drop 12)).toNat)
    (hregion : start + n ≤ body ∨ body ≤ start ∧ start + n ≤ body + kWireCrcSize) :
    readFrame p = .error ⟨.badChecksum, "wire frame CRC mismatch"⟩ := by
  have hmagic : readLe32 p = readLe32 q := h.readLe32_eq (a := 0) (.inl hheader)
  have hlen : readLe32 (p.drop 12) = readLe32 (q.drop 12) := h.readLe32_eq hlength.symm
  have hsize : frameSize p = frameSize q := by rw [frameSize, hlen, frameSize]
  have hfront := front_readFrame p
  generalize readFrame p = result at hfront
  cases hfront with
  | short hshort =>
    rw [h.length_eq] at hshort
    unfold frameSize kWireHeaderSize kWireCrcSize at hwhole
    unfold kWireMinFrameSize kWireHeaderSize kWireCrcSize at hshort
    omega
  | badMagic _ hbad => exact absurd (hmagic.trans hq.magic) hbad
  | overLimit _ hlimit => exact absurd (hlen ▸ hq.limit) (UInt32.not_le.mpr hlimit)
  | incomplete _ _ hcut =>
    rw [hsize, h.length_eq] at hcut
    exact absurd hwhole (Nat.not_le.mpr hcut)
  | badCrc => rfl
  | frame _ hintact => exact absurd (h.eq_of_intact hn hintact hq hwhole hlen hbody hregion) hne

end AgreeOutside

/-- **Burst corruption is detected.** -/
theorem burst_detected {enc enc' : WireEncoder} {payload : Bytes} {flags : UInt32}
    (henc : enc.encodeFrame payload flags = some enc') {frame altered rest : Bytes}
    (hframe : enc'.buf = enc.buf ++ frame) (hne : altered ≠ frame)
    (hburst : AgreeButBurst 4 12 altered frame ∨
      AgreeButBurst kWireHeaderSize (kWireHeaderSize + payload.length) altered frame ∨
      AgreeButBurst (kWireHeaderSize + payload.length)
        (kWireHeaderSize + payload.length + kWireCrcSize) altered frame)
    {dec : WireDecoder} (hdec : dec.pending = altered ++ rest) :
    dec.nextFrame.1 = .error ⟨.badChecksum, "wire frame CRC mismatch"⟩ := by
  unfold WireEncoder.encodeFrame at henc
  split at henc
  · cases henc
  rename_i hlimit
  obtain rfl := Option.some.inj henc
  have hfits : WireFrame.Fits { seq := enc.nextSeq, flags, payload } := Nat.not_lt.mp hlimit
  obtain rfl := List.append_cancel_left hframe
  have hread := WireFrame.delimits_readFrame.full _ rest hfits
  obtain ⟨hintact, hwhole, -, hsize⟩ := readFrame_ok hread
  have hbody : kWireHeaderSize + payload.length =
      kWireHeaderSize + (readLe32 ((WireFrame.bytes { seq := enc.nextSeq, flags, payload } ++
        rest).drop 12)).toNat := by
    rw [WireFrame.length_bytes, frameSize] at hsize
    exact Nat.add_right_cancel hsize
  have hne' : ∀ {b c : Bytes}, b ≠ c → b ++ rest ≠ c ++ rest := mt List.append_cancel_right
  have herror : readFrame (altered ++ rest) = .error ⟨.badChecksum, "wire frame CRC mismatch"⟩ := by
    rcases hburst with ⟨start, n, hn, hlo, hhi, hagree⟩ | ⟨start, n, hn, hlo, hhi, hagree⟩ |
      ⟨start, n, hn, hlo, hhi, hagree⟩
    · refine (hagree.append rest).readFrame_eq hn (hne' hne) hintact hwhole hlo (.inl hhi) hbody
        (.inl (hhi.trans ?_))
      unfold kWireHeaderSize
      omega
    · exact (hagree.append rest).readFrame_eq hn (hne' hne) hintact hwhole
        ((by decide : 4 ≤ kWireHeaderSize).trans hlo) (.inr hlo) hbody (.inl hhi)
    · have hheader : kWireHeaderSize ≤ start := (Nat.le_add_right _ _).trans hlo
      exact (hagree.append rest).readFrame_eq hn (hne' hne) hintact hwhole
        ((by decide : 4 ≤ kWireHeaderSize).trans hheader) (.inr hheader) hbody (.inr ⟨hlo, hhi⟩)
  obtain ⟨st, hst, hnext, -⟩ | ⟨-, -, hok, -⟩ := dec.nextFrame_spec
  · rw [hdec, herror] at hst
    rw [hnext, ← Except.error.inj hst]
  · rw [hdec, herror] at hok
    cases hok

/-- The byte of a payload is changed. -/
theorem burst_detected_oneByte :
    (WireDecoder.nextFrame
      { buf := (WireFrame.bytes { seq := 0, flags := 0, payload := [7] }).set 16 8 }).1 =
      .error ⟨.badChecksum, "wire frame CRC mismatch"⟩ := by
  have henc : WireEncoder.encodeFrame {} [7] 0 =
    some { nextSeq := 1, buf := WireFrame.bytes { seq := 0, flags := 0, payload := [7] } } := rfl
  refine burst_detected henc rfl (by decide +kernel)
    (.inr (.inl ⟨16, 1, by decide, by decide, by decide, List.length_set, ?_⟩))
    (List.append_nil _).symm
  exact fun i hi => List.getElem?_set_ne (by omega)

end Stratavm
