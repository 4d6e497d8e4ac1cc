import Stratavm.Wire

/-!
# Two sessions over reliable channels

Two `WireSession`s, each flushing into a FIFO byte channel to its peer, under any interleaving of
sending, flushing, delivering in chunks of any size and reading (`Action`). `Net` keeps three
records the sessions do not: what each side was asked to send, how many bytes have been delivered
to it, and which frames it has read.

One direction of the connection is a byte stream: the frames sent are the frames read, then the
bytes pending in the decoder, then those in the channel, then those in the encoder (`Direction`).
Every action moves bytes from one part to the next, so the stream is an invariant
(`Invariant.step`).

* **`wire_reliable`**: in every reachable state each side has read a prefix of what its peer sent,
  numbered from 0, and reading fails only to wait for bytes that have not been delivered.
-/

namespace Stratavm

open Lib

/-! ## The network -/

/-- The two endpoints. -/
inductive Side where
  | left
  | right
  deriving DecidableEq, Repr

/-- The other endpoint. -/
def Side.peer : Side → Side
  | left => right
  | right => left

@[simp] theorem Side.peer_peer (s : Side) : s.peer.peer = s := by cases s <;> rfl

@[simp] theorem Side.peer_ne (s : Side) : s.peer ≠ s := by cases s <;> exact fun h => nomatch h

theorem Side.eq_or_eq_peer (d s : Side) : d = s ∨ d = s.peer := by
  cases d <;> cases s <;> simp [peer]

/-- What a side was asked to send. -/
structure Message where
  payload : Bytes
  flags : UInt32
  deriving DecidableEq, Repr

/-- The frames that carry `msgs`: each with its position, modulo `2 ^ 32`, as its `seq`. -/
def numbered (msgs : List Message) : List WireFrame :=
  msgs.mapIdx fun i m => { seq := UInt32.ofNat i, flags := m.flags, payload := m.payload }

/-- Both sessions and both channels. The last three fields are records only. -/
structure Net where
  session : Side → WireSession := fun _ => {}
  /-- Flushed by a side, not yet delivered to its peer. -/
  channel : Side → Bytes := fun _ => []
  sent : Side → List Message := fun _ => []
  delivered : Side → Nat := fun _ => 0
  received : Side → List WireFrame := fun _ => []

/-- What can happen next. -/
inductive Action where
  | sendContainer (s : Side) (bytes : Bytes)
  | sendEos (s : Side)
  | flushTx (s : Side)
  /-- The next `n` flushed bytes of the peer reach `s` in one chunk, or all there are. -/
  | deliver (s : Side) (n : Nat)
  | nextReceivedFrame (s : Side)
  deriving DecidableEq, Repr

namespace Net

/-- One action; `none` when `encode_frame` throws. -/
def step (net : Net) : Action → Option Net
  | .sendContainer s bytes =>
    ((net.session s).sendContainer bytes).map fun session =>
      { net with
        session := Function.update net.session s session
        sent := Function.update net.sent s (net.sent s ++ [⟨bytes, 0⟩]) }
  | .sendEos s =>
    (net.session s).sendEos.map fun session =>
      { net with
        session := Function.update net.session s session
        sent := Function.update net.sent s (net.sent s ++ [⟨[], WireFlag.endOfStream⟩]) }
  | .flushTx s =>
    some { net with
      session := Function.update net.session s (net.session s).flushTx.2
      channel := Function.update net.channel s (net.channel s ++ (net.session s).flushTx.1) }
  | .deliver s n =>
    let chunk := (net.channel s.peer).take n
    some { net with
      session := Function.update net.session s ((net.session s).receiveBytes chunk)
      channel := Function.update net.channel s.peer ((net.channel s.peer).drop n)
      delivered := Function.update net.delivered s (net.delivered s + chunk.length) }
  | .nextReceivedFrame s =>
    let session := Function.update net.session s (net.session s).nextReceivedFrame.2
    match (net.session s).nextReceivedFrame.1 with
    | .error _ => some { net with session }
    | .ok frame =>
      some { net with
        session
        received := Function.update net.received s (net.received s ++ [frame]) }

/-- The state after a sequence of actions. -/
def run (actions : List Action) : Option Net := actions.foldlM step {}

end Net

/-! ## One direction -/

theorem numbered_concat (msgs : List Message) (m : Message) :
    numbered (msgs ++ [m]) = numbered msgs ++
      [{ seq := UInt32.ofNat msgs.length, flags := m.flags, payload := m.payload }] := by
  rw [numbered, List.mapIdx_append]
  simp [numbered]

/-- The sender's state of a connection's one direction, the bytes in flight and the receiver's. -/
structure Direction (enc : WireEncoder) (chan : Bytes) (dec : WireDecoder) (sent : List Message)
    (delivered : Nat) (received : List WireFrame) : Prop where
  fits : ∀ f ∈ numbered sent, f.Fits
  nextSeq : enc.nextSeq = UInt32.ofNat sent.length
  /-- What was sent is what was read, pending, in flight and not yet flushed. -/
  stream : (numbered sent).flatMap WireFrame.bytes =
    received.flatMap WireFrame.bytes ++ (dec.pending ++ (chan ++ enc.buf))
  read : received <+: numbered sent
  delivered : delivered = (received.flatMap WireFrame.bytes).length + dec.pending.length
  cursor : dec.pos ≤ dec.buf.length

namespace Direction

variable {enc enc' : WireEncoder} {chan : Bytes} {dec : WireDecoder} {sent : List Message}
  {delivered : Nat} {received : List WireFrame}

/-- Encoding a frame appends it to the stream. -/
theorem encodeFrame (h : Direction enc chan dec sent delivered received) {m : Message}
    (henc : enc.encodeFrame m.payload m.flags = some enc') :
    Direction enc' chan dec (sent ++ [m]) delivered received := by
  unfold WireEncoder.encodeFrame at henc
  split at henc
  · cases henc
  rename_i hlen
  obtain rfl := Option.some.inj henc
  have hbytes : (numbered (sent ++ [m])).flatMap WireFrame.bytes =
      (numbered sent).flatMap WireFrame.bytes ++
        WireFrame.bytes { seq := enc.nextSeq, flags := m.flags, payload := m.payload } := by
    rw [numbered_concat, List.flatMap_append, h.nextSeq]
    simp
  constructor
  · intro f hf
    rw [numbered_concat] at hf
    rcases List.mem_append.mp hf with hf | hf
    · exact h.fits f hf
    · rcases List.mem_singleton.mp hf with rfl
      exact Nat.not_lt.mp hlen
  · rw [List.length_append, List.length_singleton, UInt32.ofNat_add]
    exact congrArg (· + 1) h.nextSeq
  · rw [hbytes, h.stream]
    simp only [List.append_assoc]
  · rw [numbered_concat]
    exact h.read.trans (List.prefix_append _ _)
  · exact h.delivered
  · exact h.cursor

/-- Flushing moves the transmit buffer into the channel. -/
theorem take (h : Direction enc chan dec sent delivered received) :
    Direction enc.take.2 (chan ++ enc.take.1) dec sent delivered received where
  fits := h.fits
  nextSeq := h.nextSeq
  stream := by
    rw [h.stream]
    simp [WireEncoder.take]
  read := h.read
  delivered := h.delivered
  cursor := h.cursor

/-- Delivering moves a chunk from the channel into the decoder. -/
theorem feed (h : Direction enc chan dec sent delivered received) (n : Nat) :
    Direction enc (chan.drop n) (dec.feed (chan.take n)) sent (delivered + (chan.take n).length)
      received where
  fits := h.fits
  nextSeq := h.nextSeq
  stream := by
    rw [h.stream, WireDecoder.pending_feed h.cursor, List.append_assoc]
    simp only [← List.append_assoc (chan.take n), List.take_append_drop]
  read := h.read
  delivered := by
    rw [WireDecoder.pending_feed h.cursor, List.length_append, h.delivered, Nat.add_assoc]
  cursor := by
    have := h.cursor
    simp only [WireDecoder.feed, List.length_append]
    omega

/-- The frames not yet read make the rest of the stream. -/
theorem unread (h : Direction enc chan dec sent delivered received) :
    ∃ fs, numbered sent = received ++ fs ∧ (∀ f ∈ fs, f.Fits) ∧
      dec.maybeCompact.pending ++ (chan ++ enc.buf) = fs.flatMap WireFrame.bytes := by
  obtain ⟨fs, hfs⟩ := h.read
  refine ⟨fs, hfs.symm, fun f hf => h.fits f (hfs ▸ List.mem_append_right _ hf), ?_⟩
  have hstream := h.stream
  rw [← hfs, List.flatMap_append] at hstream
  rw [WireDecoder.pending_maybeCompact]
  exact (List.append_cancel_left hstream).symm

/-- A failed read leaves the direction as it is. -/
theorem nextFrame_error (h : Direction enc chan dec sent delivered received) {st : Status}
    (hnext : dec.nextFrame.1 = .error st) :
    Direction enc chan dec.nextFrame.2 sent delivered received := by
  rw [WireDecoder.nextFrame_of_error (WireDecoder.nextFrame_eq_error hnext)]
  exact ⟨h.fits, h.nextSeq, by rw [WireDecoder.pending_maybeCompact]; exact h.stream, h.read,
    by rw [WireDecoder.pending_maybeCompact]; exact h.delivered,
    WireDecoder.cursor_maybeCompact h.cursor⟩

/-- A successful read takes the next frame off the stream. -/
theorem nextFrame_ok (h : Direction enc chan dec sent delivered received) {f : WireFrame}
    (hnext : dec.nextFrame.1 = .ok f) :
    Direction enc chan dec.nextFrame.2 sent delivered (received ++ [f]) := by
  obtain ⟨total, hp⟩ := WireDecoder.nextFrame_eq_ok hnext
  obtain ⟨fs, hsent, hfits, hrest⟩ := h.unread
  obtain ⟨fs', rfl, htotal, hcut, htail⟩ :=
    WireFrame.delimits_readFrame.next_ok hfits hrest hp
  rw [WireDecoder.nextFrame_of_ok hp]
  have hpending : WireDecoder.pending
      { dec.maybeCompact with pos := dec.maybeCompact.pos + total } =
        dec.maybeCompact.pending.drop total := List.drop_drop.symm
  have hlen := congrArg List.length hcut
  rw [List.length_append, ← htotal] at hlen
  constructor
  · exact h.fits
  · exact h.nextSeq
  · rw [hsent, hpending, htail]
    simp [List.flatMap_append]
  · exact ⟨fs', by rw [hsent, List.append_assoc]; rfl⟩
  · rw [h.delivered, hpending, ← WireDecoder.pending_maybeCompact dec, hlen, List.flatMap_append,
      List.length_append, htotal]
    simp
    omega
  · have hcursor := WireDecoder.cursor_maybeCompact h.cursor
    have hle : total ≤ dec.maybeCompact.pending.length := by omega
    rw [WireDecoder.pending, List.length_drop] at hle
    simp only
    omega

/-- A failed read waits for a frame that has not been delivered in full. -/
theorem nextFrame_waits (h : Direction enc chan dec sent delivered received) {st : Status}
    (hnext : dec.nextFrame.1 = .error st) :
    st.code = .truncated ∧ (received.length < sent.length →
      delivered < (((numbered sent).take (received.length + 1)).flatMap WireFrame.bytes).length) := by
  obtain ⟨fs, hsent, hfits, hrest⟩ := h.unread
  obtain ⟨hwait, hshort⟩ := WireFrame.delimits_readFrame.next_error hfits hrest
    (WireDecoder.nextFrame_eq_error hnext)
  refine ⟨hwait, fun hlt => ?_⟩
  cases fs with
  | nil =>
    have hlen := congrArg List.length hsent
    simp only [numbered, List.length_mapIdx, List.append_nil] at hlen
    omega
  | cons f fs =>
    have hf := hshort f fs rfl
    rw [WireDecoder.pending_maybeCompact] at hf
    have htake : (numbered sent).take (received.length + 1) = received ++ [f] := by
      rw [hsent, List.take_length_add_append]
      rfl
    rw [htake, h.delivered, List.flatMap_append, List.length_append]
    simpa using hf

end Direction

/-! ## Runs -/

/-- Both directions of the connection. -/
def Net.Invariant (net : Net) : Prop :=
  ∀ s : Side, Direction (net.session s.peer).encoder (net.channel s.peer) (net.session s).decoder
    (net.sent s.peer) (net.delivered s) (net.received s)

theorem Net.invariant_init : Net.Invariant {} := fun _ =>
  ⟨fun _ hf => absurd hf List.not_mem_nil, rfl, rfl, List.nil_prefix, rfl, Nat.le_refl 0⟩

section Step

variable {net net' : Net} {s : Side}

/-- A new transmit state of `s` that extends its direction. -/
theorem Net.Invariant.sender (h : net.Invariant) (session : WireSession) (chan : Bytes)
    (sent : List Message) (hdec : session.decoder = (net.session s).decoder)
    (hs : Direction session.encoder chan (net.session s.peer).decoder sent
      (net.delivered s.peer) (net.received s.peer)) :
    Net.Invariant { net with
      session := Function.update net.session s session
      channel := Function.update net.channel s chan
      sent := Function.update net.sent s sent } := by
  intro d
  rcases d.eq_or_eq_peer s with rfl | rfl
  · have hd := h d
    simp only [Function.update_self, Function.update_of_ne (Side.peer_ne d), hdec]
    exact hd
  · simp only [Side.peer_peer, Function.update_self, Function.update_of_ne (Side.peer_ne s)]
    exact hs

/-- A new receive state of `s` that consumes its peer's direction. -/
theorem Net.Invariant.receiver (h : net.Invariant) (session : WireSession) (chan : Bytes)
    (delivered : Nat) (received : List WireFrame)
    (henc : session.encoder = (net.session s).encoder)
    (hs : Direction (net.session s.peer).encoder chan session.decoder (net.sent s.peer) delivered
      received) :
    Net.Invariant { net with
      session := Function.update net.session s session
      channel := Function.update net.channel s.peer chan
      delivered := Function.update net.delivered s delivered
      received := Function.update net.received s received } := by
  intro d
  rcases d.eq_or_eq_peer s with rfl | rfl
  · simp only [Function.update_self, Function.update_of_ne (Side.peer_ne d)]
    exact hs
  · have hd := h s.peer
    rw [Side.peer_peer] at hd
    simp only [Side.peer_peer, Function.update_self, Function.update_of_ne (Side.peer_ne s),
      Function.update_of_ne (Side.peer_ne s).symm, henc]
    exact hd

/-- **Every action keeps the invariant.** An action of side `s` changes the sending end of one
direction or the receiving end of the other. -/
theorem Net.Invariant.step {action : Action} (h : net.Invariant)
    (hstep : net.step action = some net') : net'.Invariant := by
  have hsend : ∀ s, Direction (net.session s).encoder (net.channel s)
      (net.session s.peer).decoder (net.sent s) (net.delivered s.peer) (net.received s.peer) := by
    intro s
    have := h s.peer
    rwa [Side.peer_peer] at this
  cases action with
  | sendContainer s bytes =>
    unfold Net.step at hstep
    obtain ⟨session, hsession, rfl⟩ := Option.map_eq_some_iff.mp hstep
    unfold WireSession.sendContainer at hsession
    obtain ⟨encoder, hencoder, rfl⟩ := Option.map_eq_some_iff.mp hsession
    have hdir := (hsend s).encodeFrame (m := ⟨bytes, 0⟩) hencoder
    have := h.sender { net.session s with encoder } _ _ rfl hdir
    rwa [Function.update_eq_self] at this
  | sendEos s =>
    unfold Net.step at hstep
    obtain ⟨session, hsession, rfl⟩ := Option.map_eq_some_iff.mp hstep
    unfold WireSession.sendEos at hsession
    obtain ⟨encoder, hencoder, rfl⟩ := Option.map_eq_some_iff.mp hsession
    have hdir := (hsend s).encodeFrame (m := ⟨[], WireFlag.endOfStream⟩) hencoder
    have := h.sender { net.session s with encoder } _ _ rfl hdir
    rwa [Function.update_eq_self] at this
  | flushTx s =>
    obtain rfl := Option.some.inj hstep
    have := h.sender (net.session s).flushTx.2 _ _ rfl (hsend s).take
    rwa [Function.update_eq_self] at this
  | deliver s n =>
    obtain rfl := Option.some.inj hstep
    have := h.receiver ((net.session s).receiveBytes ((net.channel s.peer).take n)) _ _ _ rfl
      ((h s).feed n)
    rwa [Function.update_eq_self] at this
  | nextReceivedFrame s =>
    simp only [Net.step] at hstep
    cases hnext : (net.session s).nextReceivedFrame.1 with
    | error st =>
      simp only [hnext] at hstep
      obtain rfl := Option.some.inj hstep
      have := h.receiver (net.session s).nextReceivedFrame.2 _ _ _ rfl ((h s).nextFrame_error hnext)
      rwa [Function.update_eq_self, Function.update_eq_self, Function.update_eq_self] at this
    | ok frame =>
      simp only [hnext] at hstep
      obtain rfl := Option.some.inj hstep
      have := h.receiver (net.session s).nextReceivedFrame.2 _ _ _ rfl ((h s).nextFrame_ok hnext)
      rwa [Function.update_eq_self, Function.update_eq_self] at this

theorem Net.Invariant.run {actions : List Action} (h : net.Invariant)
    (hrun : actions.foldlM Net.step net = some net') : net'.Invariant := by
  induction actions generalizing net with
  | nil =>
    obtain rfl := Option.some.inj hrun
    exact h
  | cons action actions ih =>
    rw [List.foldlM_cons] at hrun
    obtain ⟨net1, hstep, hrest⟩ := Option.bind_eq_some_iff.mp hrun
    exact ih (h.step hstep) hrest

end Step

/-- **Reliable framing.** Whatever the interleaving, a side has read a run of its peer's frames
from the first on, and reading fails only while bytes of the next frame are still to be
delivered. -/
theorem wire_reliable {actions : List Action} {net : Net} (hrun : Net.run actions = some net)
    (s : Side) :
    net.received s <+: numbered (net.sent s.peer) ∧
      ∀ st, (net.session s).nextReceivedFrame.1 = .error st →
        st.code = .truncated ∧ ((net.received s).length < (net.sent s.peer).length →
          net.delivered s < (((numbered (net.sent s.peer)).take
            ((net.received s).length + 1)).flatMap WireFrame.bytes).length) := by
  have h := Net.invariant_init.run hrun s
  exact ⟨h.read, fun st hst => h.nextFrame_waits hst⟩

/-- A container and the end of the stream, delivered in two chunks that split the first frame. -/
def splitDelivery : List Action :=
  [.sendContainer .left [0x53, 0x56, 0x4D, 0x43], .sendEos .left, .flushTx .left,
    .deliver .right 17, .nextReceivedFrame .right, .deliver .right 100, .nextReceivedFrame .right,
    .nextReceivedFrame .right]

theorem wire_reliable_splitDelivery :
    ∃ net, Net.run splitDelivery = some net ∧ (net.received .right).length = 2 ∧
      net.received .right <+: numbered (net.sent .left) := by
  have hrun : (Net.run splitDelivery).any (fun net => (net.received .right).length = 2) = true := by
    decide +kernel
  obtain ⟨net, hnet, hlength⟩ := (Option.any_eq_true _ _).mp hrun
  exact ⟨net, hnet, of_decide_eq_true hlength, (wire_reliable hnet .right).1⟩

end Stratavm
