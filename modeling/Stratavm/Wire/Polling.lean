import Stratavm.Wire

/-!
# Polling with `has_frame`

`has_frame` looks at lengths only; `next_frame` checks the magic, the limit, the length and the
checksum, in that order, and an error takes nothing off the front. So `has_frame` says that a frame is
there where a corrupt one is, which stays there, and says that none is there where the header is
already known to be corrupt.

* **`hasFrame_agrees_iff`**: the two agree unless a corrupt header announces more bytes than are there.
* **`drain_iff`**: a read that `has_frame` allows makes progress iff what is at the front is intact,
  and the documented loop ends iff it is made of intact frames.
-/

namespace Stratavm

open Lib

/-- The code of a failed result. -/
def errorCode {α : Type} : Except Status α → Option Code
  | .ok _ => none
  | .error st => some st.code

namespace WireDecoder

variable {dec : WireDecoder}

theorem errorCode_nextFrame (dec : WireDecoder) :
    errorCode dec.nextFrame.1 = errorCode (readFrame dec.pending) := by
  rcases dec.nextFrame_spec with ⟨st, hread, hnext, -⟩ | ⟨-, -, hread, hnext, -⟩
  · rw [hread, hnext]
    rfl
  · rw [hread, hnext]
    rfl

/-- **`has_frame` agrees with `next_frame`** iff too few bytes for a header are pending, or all that
the header announces, or the header is as an encoder writes it. -/
theorem hasFrame_agrees_iff (dec : WireDecoder) :
    (dec.hasFrame = true ↔ errorCode dec.nextFrame.1 ≠ some .truncated) ↔
      dec.pending.length < kWireMinFrameSize ∨ frameSize dec.pending ≤ dec.pending.length ∨
        HeaderOk dec.pending := by
  rw [errorCode_nextFrame, hasFrame_iff]
  have hfront := front_readFrame dec.pending
  generalize dec.pending = p at hfront ⊢
  generalize readFrame p = r at hfront ⊢
  have hcorrupt : ∀ {code : Code}, code ≠ .truncated → kWireMinFrameSize ≤ p.length →
      ¬ HeaderOk p →
      ((kWireMinFrameSize ≤ p.length ∧ frameSize p ≤ p.length ↔ some code ≠ some Code.truncated) ↔
        p.length < kWireMinFrameSize ∨ frameSize p ≤ p.length ∨ HeaderOk p) := by
    intro code hcode hlong hheader
    have hne : some code ≠ some Code.truncated := fun h => hcode (Option.some.inj h)
    rw [iff_true_right hne, and_iff_right hlong, or_iff_right (Nat.not_lt.mpr hlong),
      or_iff_left hheader]
  cases hfront with
  | short hshort =>
    exact iff_of_true (iff_of_false (fun h => absurd hshort (Nat.not_lt.mpr h.1)) (not_not.mpr rfl))
      (.inl hshort)
  | badMagic hlong hmagic => exact hcorrupt nofun hlong fun h => hmagic h.magic
  | overLimit hlong hlimit => exact hcorrupt nofun hlong fun h => UInt32.not_lt.mpr h.limit hlimit
  | incomplete hlong hheader hcut =>
    exact iff_of_true (iff_of_false (fun h => absurd hcut (Nat.not_lt.mpr h.2)) (not_not.mpr rfl))
      (.inr (.inr hheader))
  | badCrc hlong hwhole => exact iff_of_true (iff_of_true ⟨hlong, hwhole⟩ nofun) (.inr (.inl hwhole))
  | frame hlong _ hwhole => exact iff_of_true (iff_of_true ⟨hlong, hwhole⟩ nofun) (.inr (.inl hwhole))

/-- Twenty bytes that are no header: the code is known, and `has_frame` waits for 4 GiB. -/
theorem hasFrame_disagrees :
    let dec := WireDecoder.feed {} (List.replicate 20 0xFF)
    ¬ (dec.hasFrame = true ↔ errorCode dec.nextFrame.1 ≠ some .truncated) := by
  decide +kernel

/-! ## The loop -/

/-- `n` iterations, at most, of the loop `while (dec.has_frame()) { dec.next_frame(); ... }`. -/
def drain : Nat → WireDecoder → WireDecoder
  | 0, dec => dec
  | n + 1, dec => if dec.hasFrame then drain n dec.nextFrame.2 else dec

/-- The loop ends. -/
def DrainEnds (dec : WireDecoder) : Prop := ∃ n, (drain n dec).hasFrame = false

/-- Intact frames, and then too few bytes for another. -/
inductive IntactFrames : Bytes → Prop
  | stop {p} (h : p.length < kWireMinFrameSize ∨ p.length < frameSize p) : IntactFrames p
  | frame {p} (hintact : Intact p) (hlong : kWireMinFrameSize ≤ p.length)
      (hwhole : frameSize p ≤ p.length) (hrest : IntactFrames (p.drop (frameSize p))) :
      IntactFrames p

theorem frameSize_pos (p : Bytes) : 0 < frameSize p := by
  unfold frameSize kWireHeaderSize
  omega

/-- **A read that `has_frame` allows makes progress** iff what is at the front is intact. -/
theorem nextFrame_progress_iff (h : dec.hasFrame = true) :
    dec.nextFrame.2.pendingBytes < dec.pendingBytes ↔ Intact dec.pending := by
  obtain ⟨hlong, hwhole⟩ := (hasFrame_iff dec).mp h
  rw [pendingBytes_eq, pendingBytes_eq]
  rcases dec.nextFrame_spec with ⟨st, hread, -, hsame⟩ | ⟨hintact, -, -, -, hdrop⟩
  · rw [hsame]
    refine iff_of_false (Nat.lt_irrefl _) fun hintact => ?_
    have hfront := front_readFrame dec.pending
    rw [hread] at hfront
    cases hfront with
    | short hshort => exact Nat.not_lt.mpr hlong hshort
    | badMagic _ hmagic => exact hmagic hintact.magic
    | overLimit _ hlimit => exact UInt32.not_lt.mpr hintact.limit hlimit
    | incomplete _ _ hcut => exact Nat.not_lt.mpr hwhole hcut
    | badCrc _ _ hcrc => exact hcrc hintact
  · rw [hdrop, List.length_drop]
    have hpos := frameSize_pos dec.pending
    exact iff_of_true (by omega) hintact

/-- What a read leaves when it makes no progress. -/
theorem pending_nextFrame_of_not_intact (h : ¬ Intact dec.pending) :
    dec.nextFrame.2.pending = dec.pending := by
  rcases dec.nextFrame_spec with ⟨_, -, -, hsame⟩ | ⟨hintact, -⟩
  · exact hsame
  · exact absurd hintact h

/-- What a read leaves when it takes a frame. -/
theorem pending_nextFrame_of_intact (hframe : dec.hasFrame = true) (h : Intact dec.pending) :
    dec.nextFrame.2.pending = dec.pending.drop (frameSize dec.pending) := by
  have hless := (nextFrame_progress_iff hframe).mpr h
  rcases dec.nextFrame_spec with ⟨_, -, -, hsame⟩ | ⟨-, -, -, -, hdrop⟩
  · rw [pendingBytes_eq, pendingBytes_eq, hsame] at hless
    exact absurd hless (Nat.lt_irrefl _)
  · exact hdrop

/-- Where there is no intact frame the loop stays. -/
theorem hasFrame_drain_of_not_intact (hframe : dec.hasFrame = true) (h : ¬ Intact dec.pending)
    (n : Nat) : (drain n dec).hasFrame = true := by
  induction n generalizing dec with
  | zero => exact hframe
  | succ n ih =>
    have hpending := pending_nextFrame_of_not_intact h
    unfold drain
    rw [if_pos hframe]
    refine ih ?_ (hpending.symm ▸ h)
    rw [hasFrame_iff, hpending]
    exact (hasFrame_iff dec).mp hframe

theorem hasFrame_eq_false_iff (dec : WireDecoder) :
    dec.hasFrame = false ↔
      dec.pending.length < kWireMinFrameSize ∨ dec.pending.length < frameSize dec.pending := by
  rw [← Bool.not_eq_true, hasFrame_iff]
  omega

/-- Induction on the number of iterations. -/
theorem intactFrames_of_drain (n : Nat) (h : (drain n dec).hasFrame = false) :
    IntactFrames dec.pending := by
  induction n generalizing dec with
  | zero => exact .stop ((hasFrame_eq_false_iff dec).mp h)
  | succ n ih =>
    cases hframe : dec.hasFrame with
    | false => exact .stop ((hasFrame_eq_false_iff dec).mp hframe)
    | true =>
      -- a frame that is not intact would stay at the front
      have hintact : Intact dec.pending := by
        by_contra hcorrupt
        have hstays := hasFrame_drain_of_not_intact hframe hcorrupt (n + 1)
        rw [h] at hstays
        cases hstays
      obtain ⟨hlong, hwhole⟩ := (hasFrame_iff dec).mp hframe
      refine .frame hintact hlong hwhole ?_
      unfold drain at h
      rw [if_pos hframe] at h
      rw [← pending_nextFrame_of_intact hframe hintact]
      exact ih h

/-- Induction on the frames. -/
theorem drainEnds_of_intactFrames (h : IntactFrames dec.pending) : DrainEnds dec := by
  generalize hp : dec.pending = p at h
  induction h generalizing dec with
  | stop h =>
    subst hp
    exact ⟨0, (hasFrame_eq_false_iff dec).mpr h⟩
  | frame hintact hlong hwhole _ ih =>
    subst hp
    have hframe := (hasFrame_iff dec).mpr ⟨hlong, hwhole⟩
    obtain ⟨n, hn⟩ := ih (pending_nextFrame_of_intact hframe hintact)
    refine ⟨n + 1, ?_⟩
    unfold drain
    rw [if_pos hframe]
    exact hn

/-- **The documented loop.** A read that it makes is progress iff what is at the front is intact, and
it ends iff the pending bytes are intact frames and then too few bytes for another. -/
theorem drain_iff (dec : WireDecoder) :
    ((dec.hasFrame = true → dec.nextFrame.2.pendingBytes < dec.pendingBytes) ↔
      (kWireMinFrameSize ≤ dec.pending.length → frameSize dec.pending ≤ dec.pending.length →
        Intact dec.pending)) ∧
    (DrainEnds dec ↔ IntactFrames dec.pending) := by
  refine ⟨⟨fun h hlong hwhole => ?_, fun h hframe => ?_⟩,
    fun ⟨n, hn⟩ => intactFrames_of_drain n hn, drainEnds_of_intactFrames⟩
  · have hframe := (hasFrame_iff dec).mpr ⟨hlong, hwhole⟩
    exact (nextFrame_progress_iff hframe).mp (h hframe)
  · obtain ⟨hlong, hwhole⟩ := (hasFrame_iff dec).mp hframe
    exact (nextFrame_progress_iff hframe).mpr (h hlong hwhole)

/-- Twenty zero bytes: `has_frame` finds a frame, `next_frame` leaves it, and so on. -/
theorem drain_stuck :
    let dec := WireDecoder.feed {} (List.replicate 20 0)
    dec.hasFrame = true ∧ ¬ dec.nextFrame.2.pendingBytes < dec.pendingBytes ∧ ¬ DrainEnds dec := by
  intro dec
  have hframe : dec.hasFrame = true := by decide
  have hcorrupt : ¬ Intact dec.pending := fun h => absurd h.magic (by decide)
  refine ⟨hframe, fun h => hcorrupt ((nextFrame_progress_iff hframe).mp h), ?_⟩
  rintro ⟨n, hn⟩
  rw [hasFrame_drain_of_not_intact hframe hcorrupt n] at hn
  cases hn

end WireDecoder

end Stratavm
