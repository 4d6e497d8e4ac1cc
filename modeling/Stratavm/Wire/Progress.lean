import Stratavm.Wire.Session

/-!
# Everything that was sent arrives

`Wire.Session` says that a side never reads anything but what its peer sent. This is the other half: from
any reachable state it takes one flush, the delivery of what is in flight, in whatever pieces, and one
poll for each unread frame until a side has read all that its peer was asked to send (`settle`).

Once all bytes have arrived (`Net.Arrived`) a poll cannot fail while a frame is unread, so each poll
reads the next frame (`Net.poll`); the run is an induction on the number of polls.

* **`wire_completes`**: after `settle` a side has read every frame, and nothing is left over.
-/

namespace Stratavm

open Lib

variable {net net' : Net} {s : Side}

/-- All that the peer of `s` was asked to send has reached `s`. -/
structure Net.Arrived (net : Net) (s : Side) : Prop where
  flushed : (net.session s.peer).encoder.buf = []
  delivered : net.channel s.peer = []

/-- What has arrived and is not read is pending. -/
theorem Net.Arrived.stream (ha : net.Arrived s) (h : net.Invariant) :
    (numbered (net.sent s.peer)).flatMap WireFrame.bytes =
      (net.received s).flatMap WireFrame.bytes ++ (net.session s).decoder.pending := by
  have hstream := (h s).stream
  rwa [ha.flushed, ha.delivered, List.append_nil, List.append_nil] at hstream

/-- With every byte there, a poll fails only when every frame has been read. -/
theorem Net.Arrived.read_all (ha : net.Arrived s) (h : net.Invariant) {st : Status}
    (hnext : (net.session s).nextReceivedFrame.1 = .error st) :
    net.received s = numbered (net.sent s.peer) := by
  have hprefix := (h s).read
  refine hprefix.eq_of_length_le (Nat.not_lt.mp fun hlt => ?_)
  have hlen : (net.received s).length < (net.sent s.peer).length := by
    rwa [numbered, List.length_mapIdx] at hlt
  have hmissing := ((h s).nextFrame_waits hnext).2 hlen
  have htotal := congrArg List.length (ha.stream h)
  rw [List.length_append, ← (h s).delivered] at htotal
  -- the first frames are no longer than all of them
  have htake := List.take_append_drop ((net.received s).length + 1) (numbered (net.sent s.peer))
  rw [← htake, List.flatMap_append, List.length_append] at htotal
  omega

/-- **A poll reads the next frame**, if there is one. -/
theorem Net.poll (h : net.Invariant) (ha : net.Arrived s) :
    ∃ net', net.step (.nextReceivedFrame s) = some net' ∧ net'.Invariant ∧ net'.Arrived s ∧
      net'.sent = net.sent ∧
      net'.received s = (numbered (net.sent s.peer)).take ((net.received s).length + 1) := by
  have hpeer : ∀ session : WireSession,
      Function.update net.session s session s.peer = net.session s.peer := fun _ =>
    Function.update_of_ne (Side.peer_ne s) _ _
  cases hnext : (net.session s).nextReceivedFrame.1 with
  | error st =>
    have hstep : net.step (.nextReceivedFrame s) =
        some { net with session := Function.update net.session s (net.session s).nextReceivedFrame.2 } := by
      simp only [Net.step, hnext]
    refine ⟨_, hstep, h.step hstep, ⟨?_, ha.delivered⟩, rfl, ?_⟩
    · simp only [hpeer]
      exact ha.flushed
    · rw [ha.read_all h hnext, List.take_of_length_le (Nat.le_succ _)]
  | ok f =>
    have hstep : net.step (.nextReceivedFrame s) = some { net with
        session := Function.update net.session s (net.session s).nextReceivedFrame.2
        received := Function.update net.received s (net.received s ++ [f]) } := by
      simp only [Net.step, hnext]
    have h' := h.step hstep
    refine ⟨_, hstep, h', ⟨?_, ha.delivered⟩, rfl, ?_⟩
    · simp only [hpeer]
      exact ha.flushed
    · have hread := (h' s).read
      simp only [Function.update_self] at hread ⊢
      rw [List.prefix_iff_eq_take.mp hread, List.length_append, List.length_singleton]

/-- Polls read the next frames, as long as there are some. -/
theorem Net.polls (h : net.Invariant) (ha : net.Arrived s) (k : Nat) :
    ∃ net', (List.replicate k (Action.nextReceivedFrame s)).foldlM Net.step net = some net' ∧
      net'.Invariant ∧ net'.Arrived s ∧ net'.sent = net.sent ∧
      net'.received s = (numbered (net.sent s.peer)).take ((net.received s).length + k) := by
  induction k generalizing net with
  | zero => exact ⟨net, rfl, h, ha, rfl, List.prefix_iff_eq_take.mp (h s).read⟩
  | succ k ih =>
    obtain ⟨net1, hstep, h1, ha1, hsent1, hreceived1⟩ := net.poll h ha
    obtain ⟨net', hrun, h', ha', hsent', hreceived'⟩ := ih h1 ha1
    refine ⟨net', ?_, h', ha', hsent'.trans hsent1, ?_⟩
    · rw [List.replicate_succ, List.foldlM_cons, hstep]
      exact hrun
    · rw [hreceived', hsent1, hreceived1, List.take_eq_take_iff, List.length_take]
      omega

/-- One flush by the peer of `s`, the delivery of its bytes to `s` in these pieces, and polls by `s`. -/
def settle (s : Side) (pieces : List Nat) (k : Nat) : List Action :=
  .flushTx s.peer :: (pieces.map (Action.deliver s) ++ List.replicate k (.nextReceivedFrame s))

/-- Deliveries take what is in flight from its front. -/
theorem Net.deliveries (h : net.Invariant) (hflushed : (net.session s.peer).encoder.buf = [])
    (pieces : List Nat) :
    ∃ net', (pieces.map (Action.deliver s)).foldlM Net.step net = some net' ∧ net'.Invariant ∧
      (net'.session s.peer).encoder.buf = [] ∧
      net'.channel s.peer = (net.channel s.peer).drop pieces.sum ∧ net'.sent = net.sent ∧
      net'.received = net.received := by
  induction pieces generalizing net with
  | nil => exact ⟨net, rfl, h, hflushed, rfl, rfl, rfl⟩
  | cons n pieces ih =>
    obtain ⟨net1, hstep, hflushed1, hchan1, hsame1⟩ : ∃ net1, net.step (.deliver s n) = some net1 ∧
        (net1.session s.peer).encoder.buf = [] ∧
        net1.channel s.peer = (net.channel s.peer).drop n ∧ net1.sent = net.sent ∧
        net1.received = net.received := by
      refine ⟨_, rfl, ?_, ?_, rfl, rfl⟩
      · simp only [Function.update_of_ne (Side.peer_ne s)]
        exact hflushed
      · exact Function.update_self ..
    obtain ⟨net', hrun, h', hflushed', hchan', hsame'⟩ := ih (h.step hstep) hflushed1
    refine ⟨net', ?_, h', hflushed', ?_, hsame'.1.trans hsame1.1, hsame'.2.trans hsame1.2⟩
    · rw [List.map_cons, List.foldlM_cons, hstep]
      exact hrun
    · rw [hchan', hchan1, List.drop_drop, List.sum_cons]

/-- A flush, and the delivery of all there is, leave nothing behind. -/
theorem Net.arrive (h : net.Invariant) {pieces : List Nat}
    (hn : (net.channel s.peer).length + (net.session s.peer).encoder.buf.length ≤ pieces.sum) :
    ∃ net', (Action.flushTx s.peer :: pieces.map (Action.deliver s)).foldlM Net.step net = some net' ∧
      net'.Invariant ∧ net'.Arrived s ∧ net'.sent = net.sent ∧ net'.received = net.received := by
  obtain ⟨net1, hstep1, hchan1, hflushed1, hsame1⟩ : ∃ net1, net.step (.flushTx s.peer) = some net1 ∧
      net1.channel s.peer = net.channel s.peer ++ (net.session s.peer).encoder.buf ∧
      (net1.session s.peer).encoder.buf = [] ∧ net1.sent = net.sent ∧ net1.received = net.received := by
    refine ⟨_, rfl, ?_, ?_, rfl, rfl⟩
    · exact Function.update_self ..
    · simp only [Function.update_self]
      rfl
  obtain ⟨net2, hstep2, h2, hflushed2, hchan2, hsame2⟩ := net1.deliveries (h.step hstep1) hflushed1 pieces
  have hdrop : (net1.channel s.peer).drop pieces.sum = [] := by
    rw [hchan1]
    exact List.drop_of_length_le (by rwa [List.length_append])
  refine ⟨net2, ?_, h2, ⟨hflushed2, hchan2.trans hdrop⟩, hsame2.1.trans hsame1.1,
    hsame2.2.trans hsame1.2⟩
  rw [List.foldlM_cons, hstep1]
  exact hstep2

/-- **Nothing is lost.** From any reachable state, after a flush, the delivery of what is in flight in any
pieces and a poll for each unread frame, a side has read every frame its peer was asked to send, in order;
no byte is left over, and the next poll waits. -/
theorem wire_completes (actions : List Action) (net : Net) (hrun : Net.run actions = some net) (s : Side)
    (pieces : List Nat) (k : Nat)
    (hn : (net.channel s.peer).length + (net.session s.peer).encoder.buf.length ≤ pieces.sum)
    (hk : (net.sent s.peer).length ≤ (net.received s).length + k) :
    ∃ net', Net.run (actions ++ settle s pieces k) = some net' ∧
      net'.received s = numbered (net.sent s.peer) ∧
      (net'.session s).decoder.pendingBytes = 0 ∧
      ∃ st, (net'.session s).nextReceivedFrame.1 = .error st ∧ st.code = .truncated := by
  have h : net.Invariant := Net.invariant_init.run hrun
  obtain ⟨net1, harrive, h1, ha1, hsent1, hreceived1⟩ := net.arrive h hn
  obtain ⟨net', hpolls, h', ha', hsent', hreceived'⟩ := net1.polls h1 ha1 k
  rw [hsent1, hreceived1, List.take_of_length_le (by rwa [numbered, List.length_mapIdx])] at hreceived'
  have hpending : (net'.session s).decoder.pending = [] := by
    have hstream := ha'.stream h'
    rw [hsent', hsent1, hreceived'] at hstream
    exact List.self_eq_append_right.mp hstream
  refine ⟨net', ?_, hreceived', ?_, ?_⟩
  · have hsettle : settle s pieces k = (Action.flushTx s.peer :: pieces.map (Action.deliver s)) ++
        List.replicate k (.nextReceivedFrame s) := rfl
    unfold Net.run at hrun ⊢
    rw [hsettle, List.foldlM_append, hrun, Option.bind_eq_bind, Option.bind_some, List.foldlM_append,
      harrive]
    exact hpolls
  · rw [WireDecoder.pendingBytes_eq, hpending]
    rfl
  · rcases WireDecoder.nextFrame_spec (net'.session s).decoder with ⟨st, hread, hnext, -⟩ | ⟨-, hwhole, -⟩
    · rw [hpending] at hread
      obtain rfl := Except.error.inj hread
      exact ⟨_, hnext, rfl⟩
    · rw [hpending] at hwhole
      exact absurd hwhole (by simp [frameSize, kWireHeaderSize])

/-- A container, of which one byte has been delivered, and the end of the stream, not flushed yet. -/
def oneByteDelivered : List Action :=
  [.sendContainer .left [0x53], .flushTx .left, .deliver .right 1, .sendEos .left]

theorem wire_completes_oneByteDelivered :
    ∃ net net', Net.run oneByteDelivered = some net ∧
      Net.run (oneByteDelivered ++ settle .right [7, 1, 92] 2) = some net' ∧
      net'.received .right = numbered (net.sent .left) ∧
      (net'.session .right).decoder.pendingBytes = 0 := by
  have hrun : (Net.run oneByteDelivered).any (fun net =>
      (net.channel .left).length + (net.session .left).encoder.buf.length ≤ [7, 1, 92].sum ∧
        (net.sent .left).length ≤ (net.received .right).length + 2) = true := by decide +kernel
  obtain ⟨net, hnet, hroom⟩ := (Option.any_eq_true _ _).mp hrun
  obtain ⟨hn, hk⟩ := of_decide_eq_true hroom
  obtain ⟨net', hrun', hreceived, hpending, -⟩ := wire_completes oneByteDelivered net hnet .right [7, 1, 92] 2 hn hk
  exact ⟨net, net', hnet, hrun', hreceived, hpending⟩

end Stratavm
