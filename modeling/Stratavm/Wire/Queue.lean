import Stratavm.Wire

/-!
# The decoder is a byte queue

`WireDecoder` keeps a buffer and a cursor, and moves the unread bytes to the front of the buffer when
the cursor has come far. What a caller sees of it is a queue of bytes: `unconsumed` is that queue, by
the calls and their answers alone, and `answerOf` is what it answers.

`unconsumed` never looks at the decoder. A frame that was returned is taken off by its length, a failed call
takes nothing, a `reset` empties the queue; so whatever the decoder does with its buffer is invisible if the
answers are those of the queue.

* `answer_call`: one answer is a function of the pending bytes.
* `WireDecoder.pending_call`: one call does to the pending bytes what it does to the queue.
* **`answers_of_unconsumed`**: after any calls, every answer is the queue's.
-/

namespace Stratavm

open Lib

/-- A call of the decoder's interface. -/
inductive WireCall where
  | feed (data : Bytes)
  | nextFrame
  | hasFrame
  | pendingBytes
  | reset
  deriving DecidableEq, Repr

/-- What a call returns. -/
inductive WireAnswer where
  | done
  | frame (result : Except Status WireFrame)
  | flag (b : Bool)
  | count (n : Nat)

namespace WireDecoder

/-- One call: the answer, and the decoder after it. -/
def call (dec : WireDecoder) : WireCall → WireAnswer × WireDecoder
  | .feed data => (.done, dec.feed data)
  | .nextFrame => (.frame dec.nextFrame.1, dec.nextFrame.2)
  | .hasFrame => (.flag dec.hasFrame, dec)
  | .pendingBytes => (.count dec.pendingBytes, dec)
  | .reset => (.done, dec.reset)

/-- The decoder after some calls. -/
def after (dec : WireDecoder) (calls : List WireCall) : WireDecoder :=
  calls.foldl (fun dec c => (dec.call c).2) dec

/-- The calls with their answers. -/
def history (dec : WireDecoder) : List WireCall → List (WireCall × WireAnswer)
  | [] => []
  | c :: calls => (c, (dec.call c).1) :: (dec.call c).2.history calls

end WireDecoder

/-! ## The queue -/

/-- What an answered call does to a queue of bytes: a frame that was returned takes its header, its
payload and its checksum off the front. -/
def consume (q : Bytes) : WireCall × WireAnswer → Bytes
  | (.feed data, _) => q ++ data
  | (.nextFrame, .frame (.ok f)) =>
    q.drop (kWireHeaderSize + f.payload.length + kWireCrcSize)
  | (.reset, _) => []
  | (.nextFrame, _) | (.hasFrame, _) | (.pendingBytes, _) => q

/-- The bytes fed since the last reset, less those of the frames returned since. -/
def unconsumed (history : List (WireCall × WireAnswer)) : Bytes := history.foldl consume []

/-- What a queue answers. -/
def answerOf (q : Bytes) : WireCall → WireAnswer
  | .feed _ | .reset => .done
  | .nextFrame => .frame ((readFrame q).map Prod.fst)
  | .hasFrame => .flag (decide (kWireMinFrameSize ≤ q.length ∧ frameSize q ≤ q.length))
  | .pendingBytes => .count q.length

namespace WireDecoder

variable {dec : WireDecoder}

/-- An answer is the one of the pending bytes. -/
theorem answer_call (dec : WireDecoder) (c : WireCall) : (dec.call c).1 = answerOf dec.pending c := by
  cases c with
  | feed | reset => rfl
  | pendingBytes => exact congrArg WireAnswer.count dec.pendingBytes_eq
  | hasFrame =>
    refine congrArg WireAnswer.flag (Bool.eq_iff_iff.mpr ?_)
    rw [hasFrame_iff, decide_eq_true_iff]
  | nextFrame =>
    refine congrArg WireAnswer.frame ?_
    rcases dec.nextFrame_spec with ⟨st, hread, hnext, -⟩ | ⟨-, -, hread, hnext, -⟩
    · rw [hread, hnext]
      rfl
    · rw [hread, hnext]
      rfl

/-- **One call does to the pending bytes what it does to the queue.** -/
theorem pending_call (h : dec.pos ≤ dec.buf.length) (c : WireCall) :
    (dec.call c).2.pos ≤ (dec.call c).2.buf.length ∧
      (dec.call c).2.pending = consume dec.pending (c, (dec.call c).1) := by
  cases c with
  | feed data =>
    refine ⟨?_, pending_feed h data⟩
    show dec.pos ≤ (dec.buf ++ data).length
    rw [List.length_append]
    omega
  | hasFrame | pendingBytes => exact ⟨h, rfl⟩
  | reset => exact ⟨Nat.le_refl 0, rfl⟩
  | nextFrame =>
    refine ⟨cursor_nextFrame h, ?_⟩
    show dec.nextFrame.2.pending = consume dec.pending (.nextFrame, .frame dec.nextFrame.1)
    rcases dec.nextFrame_spec with ⟨st, -, hnext, hpending⟩ | ⟨-, hwhole, -, hnext, hpending⟩
    · rw [hnext, hpending]
      rfl
    · rw [hnext, hpending, ← length_payload_frameAt hwhole]
      unfold consume kWireMinFrameSize
      rw [Nat.add_right_comm]

theorem pending_after (dec : WireDecoder) (h : dec.pos ≤ dec.buf.length) (calls : List WireCall) :
    (dec.after calls).pos ≤ (dec.after calls).buf.length ∧
      (dec.after calls).pending = (dec.history calls).foldl consume dec.pending := by
  induction calls generalizing dec with
  | nil => exact ⟨h, rfl⟩
  | cons c calls ih =>
    obtain ⟨hcursor, hpending⟩ := pending_call h c
    obtain ⟨hcursor', hpending'⟩ := ih (dec.call c).2 hcursor
    refine ⟨hcursor', ?_⟩
    rw [hpending] at hpending'
    exact hpending'

end WireDecoder

/-- **The answers depend on the unconsumed bytes alone.** After any calls, the decoder answers as the
queue of the unconsumed bytes does; a frame it returns is off their front, and an error leaves them. -/
theorem answers_of_unconsumed (calls : List WireCall) :
    let dec := WireDecoder.after {} calls
    let q := unconsumed (WireDecoder.history {} calls)
    (∀ c, (dec.call c).1 = answerOf q c) ∧
      (∀ f, dec.nextFrame.1 = .ok f →
        ∃ front, front.length = 20 + f.payload.length ∧
          q = front ++ unconsumed (WireDecoder.history {} (calls ++ [.nextFrame]))) ∧
      ∀ st, dec.nextFrame.1 = .error st →
        unconsumed (WireDecoder.history {} (calls ++ [.nextFrame])) = q := by
  intro dec q
  obtain ⟨hcursor, hpending⟩ := WireDecoder.pending_after {} (Nat.le_refl 0) calls
  have hnext : unconsumed (WireDecoder.history {} (calls ++ [.nextFrame])) =
      dec.nextFrame.2.pending := by
    obtain ⟨-, hpending'⟩ :=
      WireDecoder.pending_after {} (Nat.le_refl 0) (calls ++ [.nextFrame])
    refine hpending'.symm.trans ?_
    unfold WireDecoder.after
    rw [List.foldl_append]
    rfl
  have hq : dec.pending = q := hpending
  refine ⟨fun c => hq ▸ dec.answer_call c, fun f hf => ?_, fun st hst => ?_⟩
  · rw [hnext]
    rcases dec.nextFrame_spec with ⟨st, -, hst, -⟩ | ⟨-, hwhole, -, hok, hdrop⟩
    · rw [hf] at hst
      cases hst
    · obtain rfl := Except.ok.inj (hok.symm.trans hf)
      refine ⟨q.take (frameSize q), ?_, ?_⟩
      · rw [← hq, List.length_take, Nat.min_eq_left hwhole]
        exact (length_payload_frameAt hwhole).symm
      · rw [hdrop, hq, List.take_append_drop]
  · rw [hnext]
    rcases dec.nextFrame_spec with ⟨st', -, -, hsame⟩ | ⟨-, -, -, hok, -⟩
    · exact hsame.trans hq
    · rw [hst] at hok
      cases hok

end Stratavm
