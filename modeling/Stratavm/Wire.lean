import Stratavm.Bytes
import Stratavm.Lib.Framing

/-!
# The wire framing protocol

`wire.hpp`, `wire.cpp`: containers are sent as frames of a 16-byte header, the payload and a
CRC-32 of both. `WireEncoder` collects frames for sending, `WireDecoder` reassembles them from the
bytes fed to it, and `WireSession` is one of each.

The decoder keeps its buffer and a cursor into it, and `maybe_compact` drops what is before the cursor
now and then; `pending`, the bytes after the cursor, is all that later calls depend on. A call that
fails consumes nothing (`nextFrame_spec`).

* **`delimits_readFrame`**: all that the protocol's proofs need of the frame format. A frame is read off
  the front whatever follows it, and a beginning of one is refused as `Truncated`.

Out of scope: the transport. Bytes arrive in order or not at all; a channel is a list of bytes
(`Wire/Session.lean`).
-/

namespace Stratavm

open Lib

/-- `kWireFrameMagic`. -/
def kWireFrameMagic : UInt32 := 0x52465753

/-- `kWireMaxPayload`. -/
def kWireMaxPayload : UInt32 := 256 * 1024 * 1024

/-- `kWireHeaderSize`. -/
def kWireHeaderSize : Nat := 16

/-- `kWireCrcSize`. -/
def kWireCrcSize : Nat := 4

/-- `kWireMinFrameSize`. -/
def kWireMinFrameSize : Nat := kWireHeaderSize + kWireCrcSize

/-- `WireFlag::EndOfStream`. -/
def WireFlag.endOfStream : UInt32 := (1 : UInt32) <<< 1

/-- `WireFrame`. -/
structure WireFrame where
  seq : UInt32
  flags : UInt32
  payload : Bytes
  deriving DecidableEq, Repr

/-! ## CRC-32 -/

/-- The inner loop of `crc_table`, `n` iterations left. -/
def crcShift : Nat → UInt32 → UInt32
  | 0, c => c
  | n + 1, c => crcShift n (if c &&& 1 ≠ 0 then (0xEDB88320 : UInt32) ^^^ (c >>> 1) else c >>> 1)

/-- Entry `i` of `crc_table`. -/
def crcTable (i : UInt32) : UInt32 := crcShift 8 i

/-- `wire_crc32`. -/
def wireCrc32 (data : Bytes) : UInt32 :=
  let crc := data.foldl
    (fun (crc : UInt32) byte => crcTable ((crc ^^^ byte.toUInt32) &&& 0xFF) ^^^ (crc >>> 8))
    0xFFFFFFFF
  crc ^^^ 0xFFFFFFFF

/-- The check value of CRC-32/ISO-HDLC: the CRC of the digits `1` to `9`. -/
example : wireCrc32 [0x31, 0x32, 0x33, 0x34, 0x35, 0x36, 0x37, 0x38, 0x39] = 0xCBF43926 := by
  decide +kernel

/-! ## The encoder -/

/-- `write_le32`. -/
def writeLe32 (v : UInt32) : Bytes :=
  [v.toUInt8, (v >>> 8).toUInt8, (v >>> 16).toUInt8, (v >>> 24).toUInt8]

/-- `read_le32`. Every call is in range; past the end it would be undefined. -/
def readLe32 : Bytes → UInt32
  | b0 :: b1 :: b2 :: b3 :: _ =>
    b0.toUInt32 ||| (b1.toUInt32 <<< 8) ||| (b2.toUInt32 <<< 16) ||| (b3.toUInt32 <<< 24)
  | _ => 0

/-- The header of a frame. -/
def WireFrame.header (f : WireFrame) : Bytes :=
  writeLe32 kWireFrameMagic ++ (writeLe32 f.flags ++ (writeLe32 f.seq ++
    writeLe32 (UInt32.ofNat f.payload.length)))

/-- The bytes of a frame. -/
def WireFrame.bytes (f : WireFrame) : Bytes :=
  f.header ++ (f.payload ++ writeLe32 (wireCrc32 (f.header ++ f.payload)))

/-- `WireEncoder`. -/
structure WireEncoder where
  nextSeq : UInt32 := 0
  buf : Bytes := []
  deriving DecidableEq, Repr

namespace WireEncoder

/-- `WireEncoder::encode_frame`; `none` is the `length_error` it throws. -/
def encodeFrame (enc : WireEncoder) (payload : Bytes) (flags : UInt32) : Option WireEncoder :=
  if payload.length > kWireMaxPayload.toNat then none
  else some
    { nextSeq := enc.nextSeq + 1
      buf := enc.buf ++ WireFrame.bytes { seq := enc.nextSeq, flags, payload } }

/-- `WireEncoder::encode_container`. -/
def encodeContainer (enc : WireEncoder) (containerBytes : Bytes) : Option WireEncoder :=
  enc.encodeFrame containerBytes 0

/-- `WireEncoder::encode_eos`. -/
def encodeEos (enc : WireEncoder) : Option WireEncoder :=
  enc.encodeFrame [] WireFlag.endOfStream

/-- `WireEncoder::take`. -/
def take (enc : WireEncoder) : Bytes × WireEncoder := (enc.buf, { enc with buf := [] })

end WireEncoder

/-! ## The decoder -/

/-- `WireDecoder`. -/
structure WireDecoder where
  buf : Bytes := []
  pos : Nat := 0
  deriving DecidableEq, Repr

/-- The body of `next_frame` on the unread bytes `p`: the frame and its size. -/
def readFrame (p : Bytes) : Except Status (WireFrame × Nat) :=
  if p.length < kWireMinFrameSize then .error ⟨.truncated, "need more bytes for frame header"⟩
  else if readLe32 p ≠ kWireFrameMagic then .error ⟨.badMagic, "wire frame magic mismatch"⟩
  else
    let flags := readLe32 (p.drop 4)
    let seq := readLe32 (p.drop 8)
    let payloadLen := readLe32 (p.drop 12)
    if payloadLen > kWireMaxPayload then
      .error ⟨.limitExceeded, "wire payload_len exceeds limit"⟩
    else
      let total := kWireHeaderSize + payloadLen.toNat + kWireCrcSize
      if p.length < total then .error ⟨.truncated, "incomplete frame payload"⟩
      else
        let crcInputLen := kWireHeaderSize + payloadLen.toNat
        if wireCrc32 (p.take crcInputLen) ≠ readLe32 (p.drop crcInputLen) then
          .error ⟨.badChecksum, "wire frame CRC mismatch"⟩
        else .ok ({ seq, flags, payload := (p.drop kWireHeaderSize).take payloadLen.toNat }, total)

namespace WireDecoder

/-- The bytes not yet consumed. -/
def pending (dec : WireDecoder) : Bytes := dec.buf.drop dec.pos

/-- `WireDecoder::feed`. -/
def feed (dec : WireDecoder) (data : Bytes) : WireDecoder := { dec with buf := dec.buf ++ data }

/-- `WireDecoder::reset`. -/
def reset (_ : WireDecoder) : WireDecoder := { buf := [], pos := 0 }

/-- `WireDecoder::pending_bytes`. -/
def pendingBytes (dec : WireDecoder) : Nat :=
  if dec.pos ≤ dec.buf.length then dec.buf.length - dec.pos else 0

/-- `WireDecoder::has_frame`. -/
def hasFrame (dec : WireDecoder) : Bool :=
  let avail := dec.pendingBytes
  if avail < kWireMinFrameSize then false
  else
    let payloadLen := readLe32 (dec.pending.drop 12)
    let total := kWireHeaderSize + payloadLen.toNat + kWireCrcSize
    total ≤ avail

/-- `WireDecoder::maybe_compact`. -/
def maybeCompact (dec : WireDecoder) : WireDecoder :=
  if dec.pos > 0 ∧ dec.pos ≥ dec.buf.length / 2 then { buf := dec.buf.drop dec.pos, pos := 0 }
  else dec

/-- `WireDecoder::next_frame`. -/
def nextFrame (dec : WireDecoder) : Except Status WireFrame × WireDecoder :=
  let dec := dec.maybeCompact
  match readFrame dec.pending with
  | .error st => (.error st, dec)
  | .ok (frame, total) => (.ok frame, { dec with pos := dec.pos + total })

end WireDecoder

/-! ## The session -/

/-- `WireSession`. -/
structure WireSession where
  encoder : WireEncoder := {}
  decoder : WireDecoder := {}
  deriving DecidableEq, Repr

namespace WireSession

/-- `WireSession::send_container`. -/
def sendContainer (s : WireSession) (bytes : Bytes) : Option WireSession :=
  (s.encoder.encodeContainer bytes).map fun encoder => { s with encoder }

/-- `WireSession::send_eos`. -/
def sendEos (s : WireSession) : Option WireSession :=
  s.encoder.encodeEos.map fun encoder => { s with encoder }

/-- `WireSession::flush_tx`. -/
def flushTx (s : WireSession) : Bytes × WireSession :=
  (s.encoder.take.1, { s with encoder := s.encoder.take.2 })

/-- `WireSession::receive_bytes`. -/
def receiveBytes (s : WireSession) (data : Bytes) : WireSession :=
  { s with decoder := s.decoder.feed data }

/-- `WireSession::next_received_frame`. -/
def nextReceivedFrame (s : WireSession) : Except Status WireFrame × WireSession :=
  (s.decoder.nextFrame.1, { s with decoder := s.decoder.nextFrame.2 })

end WireSession

/-! ## What the decoder reads -/

/-- The length that a header announces for the whole frame. -/
def frameSize (p : Bytes) : Nat := kWireHeaderSize + (readLe32 (p.drop 12)).toNat + kWireCrcSize

/-- The frame that a header describes. -/
def frameAt (p : Bytes) : WireFrame where
  seq := readLe32 (p.drop 8)
  flags := readLe32 (p.drop 4)
  payload := (p.drop kWireHeaderSize).take (readLe32 (p.drop 12)).toNat

/-- A header as an encoder writes it: the magic, and a length within the limit. -/
structure HeaderOk (p : Bytes) : Prop where
  magic : readLe32 p = kWireFrameMagic
  limit : readLe32 (p.drop 12) ≤ kWireMaxPayload

/-- A whole frame at the front that nothing is wrong with. -/
structure Intact (p : Bytes) : Prop extends HeaderOk p where
  crc : wireCrc32 (p.take (kWireHeaderSize + (readLe32 (p.drop 12)).toNat)) =
    readLe32 (p.drop (kWireHeaderSize + (readLe32 (p.drop 12)).toNat))

/-- What can be at the front of the unread bytes, and what `next_frame` makes of it. -/
inductive Front (p : Bytes) : Except Status (WireFrame × Nat) → Prop
  | short (hshort : p.length < kWireMinFrameSize) :
      Front p (.error ⟨.truncated, "need more bytes for frame header"⟩)
  | badMagic (hlong : kWireMinFrameSize ≤ p.length) (hmagic : readLe32 p ≠ kWireFrameMagic) :
      Front p (.error ⟨.badMagic, "wire frame magic mismatch"⟩)
  | overLimit (hlong : kWireMinFrameSize ≤ p.length)
      (hlimit : readLe32 (p.drop 12) > kWireMaxPayload) :
      Front p (.error ⟨.limitExceeded, "wire payload_len exceeds limit"⟩)
  | incomplete (hlong : kWireMinFrameSize ≤ p.length) (hheader : HeaderOk p)
      (hcut : p.length < frameSize p) : Front p (.error ⟨.truncated, "incomplete frame payload"⟩)
  | badCrc (hlong : kWireMinFrameSize ≤ p.length) (hwhole : frameSize p ≤ p.length)
      (hcrc : ¬ Intact p) : Front p (.error ⟨.badChecksum, "wire frame CRC mismatch"⟩)
  | frame (hlong : kWireMinFrameSize ≤ p.length) (hintact : Intact p)
      (hwhole : frameSize p ≤ p.length) : Front p (.ok (frameAt p, frameSize p))

theorem front_readFrame (p : Bytes) : Front p (readFrame p) := by
  unfold readFrame
  by_cases hshort : p.length < kWireMinFrameSize
  · rw [if_pos hshort]
    exact .short hshort
  have hlong := Nat.not_lt.mp hshort
  rw [if_neg hshort]
  by_cases hmagic : readLe32 p = kWireFrameMagic
  · rw [if_neg (not_not.mpr hmagic)]
    dsimp only
    by_cases hlimit : readLe32 (p.drop 12) > kWireMaxPayload
    · rw [if_pos hlimit]
      exact .overLimit hlong hlimit
    have hheader : HeaderOk p := ⟨hmagic, UInt32.not_lt.mp hlimit⟩
    rw [if_neg hlimit]
    by_cases hcut : p.length < kWireHeaderSize + (readLe32 (p.drop 12)).toNat + kWireCrcSize
    · rw [if_pos hcut]
      exact .incomplete hlong hheader hcut
    rw [if_neg hcut]
    by_cases hcrc : wireCrc32 (p.take (kWireHeaderSize + (readLe32 (p.drop 12)).toNat)) =
        readLe32 (p.drop (kWireHeaderSize + (readLe32 (p.drop 12)).toNat))
    · rw [if_neg (not_not.mpr hcrc)]
      exact .frame hlong ⟨hheader, hcrc⟩ (Nat.not_lt.mp hcut)
    · rw [if_pos hcrc]
      exact .badCrc hlong (Nat.not_lt.mp hcut) fun h => hcrc h.crc
  · rw [if_pos hmagic]
    exact .badMagic hlong hmagic

/-- A frame that is returned is intact, and all there. -/
theorem readFrame_ok {p : Bytes} {f : WireFrame} {total : Nat} (h : readFrame p = .ok (f, total)) :
    Intact p ∧ frameSize p ≤ p.length ∧ f = frameAt p ∧ total = frameSize p := by
  have hfront := front_readFrame p
  rw [h] at hfront
  cases hfront with
  | frame _ hintact hwhole => exact ⟨hintact, hwhole, rfl, rfl⟩

theorem length_payload_frameAt {p : Bytes} (h : frameSize p ≤ p.length) :
    kWireMinFrameSize + (frameAt p).payload.length = frameSize p := by
  unfold frameSize kWireCrcSize at h
  unfold frameAt kWireMinFrameSize frameSize
  rw [List.length_take, List.length_drop, Nat.min_eq_left (by omega)]
  omega

/-! ## What the decoder keeps -/

namespace WireDecoder

theorem pending_feed {dec : WireDecoder} (h : dec.pos ≤ dec.buf.length) (data : Bytes) :
    (dec.feed data).pending = dec.pending ++ data := List.drop_append_of_le_length h

theorem pending_maybeCompact (dec : WireDecoder) : dec.maybeCompact.pending = dec.pending := by
  unfold maybeCompact
  split
  · exact List.drop_zero
  · rfl

theorem cursor_maybeCompact {dec : WireDecoder} (h : dec.pos ≤ dec.buf.length) :
    dec.maybeCompact.pos ≤ dec.maybeCompact.buf.length := by
  unfold maybeCompact
  split
  · exact Nat.zero_le _
  · exact h

theorem nextFrame_of_error {dec : WireDecoder} {st : Status}
    (h : readFrame dec.maybeCompact.pending = .error st) :
    dec.nextFrame = (.error st, dec.maybeCompact) := by
  simp only [nextFrame, h]

theorem nextFrame_of_ok {dec : WireDecoder} {f : WireFrame} {total : Nat}
    (h : readFrame dec.maybeCompact.pending = .ok (f, total)) :
    dec.nextFrame = (.ok f, { dec.maybeCompact with pos := dec.maybeCompact.pos + total }) := by
  simp only [nextFrame, h]

/-- An attempt fails as `readFrame` does on the pending bytes. -/
theorem nextFrame_eq_error {dec : WireDecoder} {st : Status} (h : dec.nextFrame.1 = .error st) :
    readFrame dec.maybeCompact.pending = .error st := by
  cases hp : readFrame dec.maybeCompact.pending with
  | error e =>
    rw [nextFrame_of_error hp] at h
    rw [Except.error.inj h]
  | ok p =>
    rw [nextFrame_of_ok (f := p.1) hp] at h
    cases h

theorem nextFrame_eq_ok {dec : WireDecoder} {f : WireFrame} (h : dec.nextFrame.1 = .ok f) :
    ∃ total, readFrame dec.maybeCompact.pending = .ok (f, total) := by
  cases hp : readFrame dec.maybeCompact.pending with
  | error e =>
    rw [nextFrame_of_error hp] at h
    cases h
  | ok p =>
    rw [nextFrame_of_ok (f := p.1) hp] at h
    exact ⟨p.2, by rw [← Except.ok.inj h]⟩

theorem pendingBytes_eq (dec : WireDecoder) : dec.pendingBytes = dec.pending.length := by
  unfold pendingBytes pending
  rw [List.length_drop]
  split <;> omega

theorem hasFrame_iff (dec : WireDecoder) : dec.hasFrame = true ↔
    kWireMinFrameSize ≤ dec.pending.length ∧ frameSize dec.pending ≤ dec.pending.length := by
  unfold hasFrame
  rw [pendingBytes_eq]
  dsimp only
  split
  · rename_i hshort
    exact ⟨nofun, fun h => absurd hshort (Nat.not_lt.mpr h.1)⟩
  · rename_i hlong
    rw [decide_eq_true_iff]
    exact (and_iff_right (Nat.not_lt.mp hlong)).symm

/-- **One read**: a frame goes off the front of what is pending, and an error leaves it. -/
theorem nextFrame_spec (dec : WireDecoder) :
    (∃ st, readFrame dec.pending = .error st ∧ dec.nextFrame.1 = .error st ∧
      dec.nextFrame.2.pending = dec.pending) ∨
    (Intact dec.pending ∧ frameSize dec.pending ≤ dec.pending.length ∧
      readFrame dec.pending = .ok (frameAt dec.pending, frameSize dec.pending) ∧
      dec.nextFrame.1 = .ok (frameAt dec.pending) ∧
      dec.nextFrame.2.pending = dec.pending.drop (frameSize dec.pending)) := by
  have hpending := pending_maybeCompact dec
  cases hread : readFrame dec.maybeCompact.pending with
  | error st =>
    rw [nextFrame_of_error hread]
    exact .inl ⟨st, hpending ▸ hread, rfl, hpending⟩
  | ok p =>
    obtain ⟨f, total⟩ := p
    rw [nextFrame_of_ok hread]
    rw [hpending] at hread
    obtain ⟨hintact, hwhole, rfl, rfl⟩ := readFrame_ok hread
    refine .inr ⟨hintact, hwhole, hread, rfl, ?_⟩
    exact List.drop_drop.symm.trans (congrArg (List.drop _) hpending)

theorem cursor_nextFrame {dec : WireDecoder} (h : dec.pos ≤ dec.buf.length) :
    dec.nextFrame.2.pos ≤ dec.nextFrame.2.buf.length := by
  have hcursor := cursor_maybeCompact h
  cases hread : readFrame dec.maybeCompact.pending with
  | error st =>
    rw [nextFrame_of_error hread]
    exact hcursor
  | ok p =>
    obtain ⟨f, total⟩ := p
    rw [nextFrame_of_ok hread]
    obtain ⟨-, hwhole, -, rfl⟩ := readFrame_ok hread
    unfold pending at hwhole
    rw [List.length_drop] at hwhole
    dsimp only [pending] at hwhole ⊢
    omega

end WireDecoder

/-! ## The frame format -/

namespace WireFrame

/-- A payload within the limit. -/
def Fits (f : WireFrame) : Prop := f.payload.length ≤ kWireMaxPayload.toNat

variable {f : WireFrame}

theorem length_writeLe32 (v : UInt32) : (writeLe32 v).length = 4 := rfl

theorem length_header : f.header.length = kWireHeaderSize := rfl

theorem length_bytes : f.bytes.length = kWireHeaderSize + f.payload.length + kWireCrcSize := by
  rw [bytes, List.length_append, List.length_append, length_header, length_writeLe32, Nat.add_assoc]
  rfl

theorem readLe32_writeLe32 (v : UInt32) (t : Bytes) : readLe32 (writeLe32 v ++ t) = v := by
  have h := reads_u32 v t
  exact (Prod.mk.inj (Except.ok.inj h)).1

theorem payloadLen (h : f.Fits) : (UInt32.ofNat f.payload.length).toNat = f.payload.length := by
  have hmax : kWireMaxPayload.toNat = 268435456 := rfl
  unfold Fits at h
  exact toNat_ofNat_of_lt (by omega)

theorem not_tooLong (h : f.Fits) : ¬ UInt32.ofNat f.payload.length > kWireMaxPayload := by
  rw [gt_iff_lt, UInt32.lt_iff_toNat_lt, payloadLen h]
  exact Nat.not_lt.mpr h

/-- What the decoder reads of any input that starts with a frame's header. -/
theorem readFrame_header (h : f.Fits) (t : Bytes) :
    readFrame (f.header ++ t) =
      if t.length < kWireCrcSize then .error ⟨.truncated, "need more bytes for frame header"⟩
      else if t.length < f.payload.length + kWireCrcSize then
        .error ⟨.truncated, "incomplete frame payload"⟩
      else if wireCrc32 (f.header ++ t.take f.payload.length) ≠
          readLe32 (t.drop f.payload.length) then .error ⟨.badChecksum, "wire frame CRC mismatch"⟩
      else .ok ({ f with payload := t.take f.payload.length },
        kWireHeaderSize + f.payload.length + kWireCrcSize) := by
  have hsplit : f.header ++ t = writeLe32 kWireFrameMagic ++ (writeLe32 f.flags ++
      (writeLe32 f.seq ++ (writeLe32 (UInt32.ofNat f.payload.length) ++ t))) := by
    simp only [header, List.append_assoc]
  have hmagic : readLe32 (f.header ++ t) = kWireFrameMagic := by
    rw [hsplit, readLe32_writeLe32]
  have hflags : readLe32 ((f.header ++ t).drop 4) = f.flags := by
    rw [hsplit]
    exact readLe32_writeLe32 _ _
  have hseq : readLe32 ((f.header ++ t).drop 8) = f.seq := by
    rw [hsplit]
    exact readLe32_writeLe32 _ _
  have hlen : readLe32 ((f.header ++ t).drop 12) = UInt32.ofNat f.payload.length := by
    rw [hsplit]
    exact readLe32_writeLe32 _ _
  have htake : (f.header ++ t).take (kWireHeaderSize + f.payload.length) =
      f.header ++ t.take f.payload.length := by
    rw [← length_header (f := f)]
    exact List.take_length_add_append _
  have hdrop : (f.header ++ t).drop (kWireHeaderSize + f.payload.length) =
      t.drop f.payload.length := by
    rw [← length_header (f := f)]
    exact List.drop_length_add_append _
  have hbody : (f.header ++ t).drop kWireHeaderSize = t := by
    rw [← length_header (f := f)]
    exact List.drop_left
  have hsize : (f.header ++ t).length = kWireHeaderSize + t.length := by
    rw [List.length_append, length_header]
  unfold readFrame
  simp only [hmagic, hflags, hseq, hlen, payloadLen h, if_neg (not_tooLong h), htake, hdrop, hbody,
    hsize, ne_eq, not_true_eq_false, if_false, kWireMinFrameSize, Nat.add_lt_add_iff_left,
    Nat.add_assoc]

/-- **The frame format delimits frames.** -/
theorem delimits_readFrame :
    Delimits readFrame WireFrame.bytes WireFrame.Fits fun st => st.code = .truncated where
  full := by
    intro f t hf
    rw [bytes, List.append_assoc, readFrame_header hf]
    have hlen : (f.payload ++ writeLe32 (wireCrc32 (f.header ++ f.payload)) ++ t).length =
        f.payload.length + kWireCrcSize + t.length := by
      simp only [List.length_append, length_writeLe32, kWireCrcSize]
    rw [hlen, if_neg (by omega), if_neg (by omega), List.append_assoc, List.take_left,
      List.drop_left, readLe32_writeLe32, if_neg (fun h => h rfl), ← length_bytes]
    rfl
  cut := by
    intro f p t hf hp ht
    have hlt : p.length < f.bytes.length := by
      rw [hp, List.length_append]
      exact Nat.lt_add_of_pos_right (List.length_pos_of_ne_nil ht)
    rw [length_bytes] at hlt
    by_cases hshort : p.length < kWireMinFrameSize
    · refine ⟨⟨.truncated, "need more bytes for frame header"⟩, ?_, rfl⟩
      rw [readFrame, if_pos hshort]
    · -- the header has arrived, so the decoder knows how much is missing
      have hle : f.header.length ≤ p.length := by
        rw [length_header]
        unfold kWireMinFrameSize at hshort
        omega
      obtain ⟨q, rfl⟩ : ∃ q, p = f.header ++ q := by
        have hpre : f.header <+: f.bytes := List.prefix_append _ _
        obtain ⟨q, hq⟩ := List.prefix_of_prefix_length_le hpre ⟨t, hp.symm⟩ hle
        exact ⟨q, hq.symm⟩
      rw [List.length_append, length_header] at hlt hshort
      unfold kWireMinFrameSize at hshort
      refine ⟨⟨.truncated, "incomplete frame payload"⟩, ?_, rfl⟩
      rw [readFrame_header hf, if_neg (by omega), if_pos (by omega)]
  empty := ⟨_, rfl, rfl⟩

end WireFrame

end Stratavm
