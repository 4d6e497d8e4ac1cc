import Stratavm.Wire.Queue

/-!
# The decoder over its whole history

What the calls of a decoder's life have in common, in any order and on any bytes. Both results are
invariants over a list of calls from any decoder, with nothing said of what the peer sends.

* **`buf_after_le`**: `maybe_compact` keeps the buffer within three times the most bytes that were ever
  pending, so a caller that keeps up with its peer bounds the memory of the decoder. Consumed bytes
  stay in the buffer until the cursor has come half way; up to then they are no more than the unread ones
  after it, and a frame that was just read was among those (`Trimmed.call`).
* **`error_is_final`**: an error that does not ask for more bytes comes back until a `reset`, whatever is
  fed after it. The verdict is on bytes that are there already (`readFrame_append`), and a call that fails
  consumes none of them.

Out of scope: `Truncated`, which is no verdict. It goes away when the bytes come.
-/

namespace Stratavm

open Lib

namespace WireDecoder

variable {dec : WireDecoder} {limit : Nat}

/-! ## The memory of a decoder -/

/-- The most bytes that are pending between the calls. -/
def peakPending (dec : WireDecoder) : List WireCall → Nat
  | [] => dec.pendingBytes
  | c :: calls => max dec.pendingBytes ((dec.call c).2.peakPending calls)

/-- The consumed bytes that are still in the buffer. -/
structure Trimmed (limit : Nat) (dec : WireDecoder) : Prop where
  cursor : dec.pos ≤ dec.buf.length
  consumed : dec.pos ≤ 2 * limit

theorem length_buf (h : dec.pos ≤ dec.buf.length) : dec.buf.length = dec.pos + dec.pending.length := by
  unfold pending
  rw [List.length_drop]
  omega

/-- A cursor that has not come half way is followed by at least as many bytes. -/
theorem pos_maybeCompact_le (h : dec.pos ≤ dec.buf.length) :
    dec.maybeCompact.pos ≤ dec.pending.length := by
  have hlen := length_buf h
  unfold maybeCompact
  split
  · exact Nat.zero_le _
  · rename_i hfar
    show dec.pos ≤ _
    omega

/-- **One call keeps the buffer trimmed.** -/
theorem Trimmed.call (h : dec.Trimmed limit) (hpending : dec.pending.length ≤ limit) (c : WireCall) :
    (dec.call c).2.Trimmed limit := by
  refine ⟨(pending_call h.cursor c).1, ?_⟩
  cases c with
  | feed data => exact h.consumed
  | hasFrame | pendingBytes => exact h.consumed
  | reset => exact Nat.zero_le _
  | nextFrame =>
    have hcompact := pos_maybeCompact_le h.cursor
    show dec.nextFrame.2.pos ≤ 2 * limit
    cases hread : readFrame dec.maybeCompact.pending with
    | error st =>
      rw [nextFrame_of_error hread]
      show dec.maybeCompact.pos ≤ _
      omega
    | ok p =>
      -- a frame is no longer than what was pending
      rw [nextFrame_of_ok hread]
      obtain ⟨-, hwhole, -, htotal⟩ := readFrame_ok hread
      rw [pending_maybeCompact] at hwhole htotal
      show dec.maybeCompact.pos + p.2 ≤ _
      omega

theorem Trimmed.after (calls : List WireCall) (h : dec.Trimmed limit) (hpeak : dec.peakPending calls ≤ limit) :
    (dec.after calls).buf.length ≤ 3 * limit := by
  induction calls generalizing dec with
  | nil =>
    have hlen := length_buf h.cursor
    have hconsumed := h.consumed
    unfold peakPending at hpeak
    rw [pendingBytes_eq] at hpeak
    show dec.buf.length ≤ _
    omega
  | cons c calls ih =>
    unfold peakPending at hpeak
    obtain ⟨hnow, hlater⟩ := Nat.max_le.mp hpeak
    rw [pendingBytes_eq] at hnow
    exact ih (h.call hnow c) hlater

/-- **The buffer is bounded by what is pending**: over any calls a decoder holds at most three times the
most bytes that were pending between two of them. -/
theorem buf_after_le (calls : List WireCall) :
    (WireDecoder.after {} calls).buf.length ≤ 3 * WireDecoder.peakPending {} calls :=
  Trimmed.after calls ⟨Nat.le_refl 0, Nat.zero_le _⟩ (Nat.le_refl _)

end WireDecoder

/-! ## Errors -/

theorem readLe32_append {p : Bytes} (h : 4 ≤ p.length) (q : Bytes) : readLe32 (p ++ q) = readLe32 p := by
  rcases p with _ | ⟨b0, _ | ⟨b1, _ | ⟨b2, _ | ⟨b3, t⟩⟩⟩⟩
  iterate 4 exact absurd h (by simp)
  rfl

/-- **A verdict is on the bytes that are there**: bytes that come later change nothing unless `next_frame`
asked for them. -/
theorem readFrame_append {p : Bytes} (h : ∀ st, readFrame p = .error st → st.code ≠ .truncated)
    (q : Bytes) : readFrame (p ++ q) = readFrame p := by
  have hlong : kWireMinFrameSize ≤ p.length := by
    refine Nat.not_lt.mp fun hshort => h ⟨.truncated, "need more bytes for frame header"⟩ ?_ rfl
    rw [readFrame, if_pos hshort]
  have hsize : p.length ≤ (p ++ q).length := by
    rw [List.length_append]
    exact Nat.le_add_right _ _
  have hfield : ∀ k, k + 4 ≤ p.length → readLe32 ((p ++ q).drop k) = readLe32 (p.drop k) := by
    intro k hk
    rw [List.drop_append_of_le_length (by omega)]
    exact readLe32_append (by rw [List.length_drop]; omega) q
  have hheader : ∀ k, k ≤ kWireHeaderSize → k + 4 ≤ p.length := fun k hk =>
    (Nat.add_le_add_right hk 4).trans hlong
  unfold readFrame at h ⊢
  rw [if_neg (Nat.not_lt.mpr (hlong.trans hsize)), hfield 4 (hheader 4 (by decide)),
    hfield 8 (hheader 8 (by decide)), hfield 12 (hheader 12 (by decide)),
    readLe32_append (hheader 0 (by decide))]
  rw [if_neg (Nat.not_lt.mpr hlong)] at h ⊢
  by_cases hmagic : readLe32 p = kWireFrameMagic
  · simp only [ne_eq, hmagic, not_true_eq_false, if_false] at h ⊢
    by_cases hlimit : readLe32 (p.drop 12) > kWireMaxPayload
    · rw [if_pos hlimit, if_pos hlimit]
    rw [if_neg hlimit] at h
    have hwhole : kWireHeaderSize + (readLe32 (p.drop 12)).toNat + kWireCrcSize ≤ p.length := by
      refine Nat.not_lt.mp fun hcut => h ⟨.truncated, "incomplete frame payload"⟩ ?_ rfl
      exact if_pos hcut
    have hbody : kWireHeaderSize + (readLe32 (p.drop 12)).toNat ≤ p.length :=
      Nat.le_trans (Nat.le_add_right _ _) hwhole
    have hpayload : (readLe32 (p.drop 12)).toNat ≤ (p.drop kWireHeaderSize).length := by
      rw [List.length_drop]
      omega
    rw [if_neg hlimit, if_neg hlimit, if_neg (Nat.not_lt.mpr (hwhole.trans hsize)),
      if_neg (Nat.not_lt.mpr hwhole), hfield _ hwhole, List.take_append_of_le_length hbody,
      List.drop_append_of_le_length (by omega), List.take_append_of_le_length hpayload]
  · rw [if_pos hmagic, if_pos hmagic]

/-- The bytes that a call feeds. -/
def WireCall.fed : WireCall → Bytes
  | .feed data => data
  | .nextFrame | .hasFrame | .pendingBytes | .reset => []

namespace WireDecoder

variable {dec : WireDecoder} {st : Status}

theorem nextFrame_error_iff : dec.nextFrame.1 = .error st ↔ readFrame dec.pending = .error st := by
  rcases dec.nextFrame_spec with ⟨st', hread, hnext, -⟩ | ⟨-, -, hread, hnext, -⟩
  · rw [hread, hnext]
    exact ⟨fun h => congrArg _ (Except.error.inj h), fun h => congrArg _ (Except.error.inj h)⟩
  · rw [hread, hnext]
    exact iff_of_false nofun nofun

/-- A call that is no `reset` leaves a verdict, and all the bytes it is about. -/
theorem call_error (hcursor : dec.pos ≤ dec.buf.length) (h : readFrame dec.pending = .error st)
    (hst : st.code ≠ .truncated) {c : WireCall} (hc : c ≠ .reset) :
    (dec.call c).2.pending = dec.pending ++ c.fed ∧ readFrame (dec.call c).2.pending = .error st := by
  have hpending : (dec.call c).2.pending = dec.pending ++ c.fed := by
    rw [(pending_call hcursor c).2]
    cases c with
    | feed data => rfl
    | hasFrame | pendingBytes => exact (List.append_nil _).symm
    | reset => exact absurd rfl hc
    | nextFrame =>
      have hanswer : (dec.call .nextFrame).1 = .frame (.error st) :=
        congrArg WireAnswer.frame (nextFrame_error_iff.mpr h)
      rw [hanswer]
      exact (List.append_nil _).symm
  refine ⟨hpending, ?_⟩
  rw [hpending, readFrame_append _ c.fed, h]
  intro st' hst'
  obtain rfl := Except.error.inj (h.symm.trans hst')
  exact hst

theorem after_error (calls : List WireCall) (hcursor : dec.pos ≤ dec.buf.length)
    (h : readFrame dec.pending = .error st) (hst : st.code ≠ .truncated) (hcalls : .reset ∉ calls) :
    (dec.after calls).pending = dec.pending ++ calls.flatMap WireCall.fed ∧
      readFrame (dec.after calls).pending = .error st := by
  induction calls generalizing dec with
  | nil => exact ⟨(List.append_nil _).symm, h⟩
  | cons c calls ih =>
    obtain ⟨hc, hrest⟩ := not_or.mp (mt List.mem_cons.mpr hcalls)
    obtain ⟨hpending, hread⟩ := call_error hcursor h hst (Ne.symm hc)
    obtain ⟨hafter, hfinal⟩ := ih (pending_call hcursor c).1 hread hrest
    refine ⟨hafter.trans ?_, hfinal⟩
    rw [hpending, List.flatMap_cons, List.append_assoc]

end WireDecoder

/-- **An error is final.** Once `next_frame` has failed other than to ask for more bytes, it fails so after
any further calls but a `reset`: the bytes at fault are kept, with everything that is fed after them. -/
theorem error_is_final (calls more : List WireCall) (st : Status)
    (h : (WireDecoder.after {} calls).nextFrame.1 = .error st) (hst : st.code ≠ .truncated)
    (hmore : .reset ∉ more) :
    (WireDecoder.after {} (calls ++ more)).nextFrame.1 = .error st ∧
      (WireDecoder.after {} (calls ++ more)).pending =
        (WireDecoder.after {} calls).pending ++ more.flatMap WireCall.fed := by
  obtain ⟨hcursor, -⟩ := WireDecoder.pending_after {} (Nat.le_refl 0) calls
  have hafter : WireDecoder.after {} (calls ++ more) = (WireDecoder.after {} calls).after more :=
    List.foldl_append
  rw [hafter, WireDecoder.nextFrame_error_iff]
  exact (WireDecoder.after_error more hcursor (WireDecoder.nextFrame_error_iff.mp h) hst hmore).symm

/-- Twenty bytes without the magic, and a good frame after them. -/
theorem error_is_final_badMagic :
    (WireDecoder.after {} ([.feed (List.replicate 20 0xFF)] ++
      [.nextFrame, .feed (WireFrame.bytes { seq := 0, flags := 0, payload := [] })])).nextFrame.1 =
        .error ⟨.badMagic, "wire frame magic mismatch"⟩ ∧
      (WireDecoder.after {} ([.feed (List.replicate 20 0xFF)] ++
        [.nextFrame, .feed (WireFrame.bytes { seq := 0, flags := 0, payload := [] })])).pending =
        (WireDecoder.after {} [.feed (List.replicate 20 0xFF)]).pending ++
          [WireCall.nextFrame, .feed (WireFrame.bytes { seq := 0, flags := 0, payload := [] })].flatMap
            WireCall.fed :=
  error_is_final _ _ _ (by decide +kernel) nofun (by simp)

end Stratavm
