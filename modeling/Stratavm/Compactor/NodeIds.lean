import Stratavm.Compactor.Marking
import Stratavm.ReplayVm.Slots

/-!
# The compactor's node ids and the machine's

The compactor numbers the `NEW_NODE`s of a journal from 0 and takes the kinds and the liveness of nodes
from that numbering. On a VM that is not seeded, and as long as no `END_GROUP` makes a placeholder
(`Quiet`), these are the machine's ids: `Numbered` is what the compactor knows of the machine's state
after the same opcodes.

* `decodes_of_run`: the compactor decodes the opcodes the machine executes.
* `mem_liveOf_of_alive`: a node alive at the end of the run is live for the compactor.
-/

namespace Stratavm

open Lib

/-! ## Reading with the compactor's types -/

/-- An opcode is read alike with types that agree on the field it sets. -/
theorem readOp_of_types {ty ty' : FieldTypes} {limits : Limits} {r r' : Bytes} {op : Op}
    (h : readOp ty limits r = .ok (op, r'))
    (hty : ∀ node field v, op = .setField node field v → ty' node field = ty node field) :
    readOp ty' limits r = .ok (op, r') := by
  obtain ⟨raw, r1, hraw, hcode, hops⟩ := readOp_eq_ok.mp h
  refine readOp_eq_ok.mpr ⟨raw, r1, hraw, hcode, ?_⟩
  cases op with
  | setField node field v =>
    obtain ⟨node', r2, hnode, hops⟩ := Decoder.bind_eq_ok.mp hops
    obtain ⟨field', r3, hfield, hops⟩ := Decoder.bind_eq_ok.mp hops
    obtain ⟨v', r4, hv, hops⟩ := Decoder.bind_eq_ok.mp hops
    obtain ⟨heq, rfl⟩ := Decoder.pure_eq_ok.mp hops
    obtain ⟨rfl, rfl, rfl⟩ := Op.setField.inj heq
    rw [← hty node' field' v' rfl] at hv
    exact Decoder.bind_eq_ok.mpr ⟨_, _, hnode, Decoder.bind_eq_ok.mpr ⟨_, _, hfield,
      Decoder.bind_eq_ok.mpr ⟨_, _, hv, rfl⟩⟩⟩
  | _ => exact hops

namespace JournalCompactor

/-- The compactor's numbering is the machine's. -/
structure Numbered (st : DecodeState) (vm : ReplayVM) : Prop where
  kinds : st.nodeKinds = vm.kinds
  depth : st.groupStack.length = vm.frames.length

section Numbered

variable {env : Env} {st : DecodeState} {vm vm' : ReplayVM} {op : Op} {r r' : Bytes}

theorem Numbered.fieldTypeFor (h : Numbered st vm) (node field : UInt32) :
    fieldTypeFor env.schema st.nodeKinds node field = vm.fieldType env node field := by
  unfold JournalCompactor.fieldTypeFor ReplayVM.fieldType ReplayVM.node?
  rw [h.kinds, ReplayVM.kinds, List.getElem?_map]
  cases vm.nodes.data[node.toNat]? <;> rfl

/-- What the machine reads, the compactor reads. -/
theorem Numbered.readOp (h : Numbered st vm)
    (hread : Stratavm.readOp (vm.fieldType env) {} r = .ok (op, r')) :
    Stratavm.readOp (readType env.schema st.nodeKinds) {} r = .ok (op, r') := by
  refine readOp_of_types hread fun node field v hop => ?_
  have htyped : op.Typed (vm.fieldType env) {} := readOp_typed hread
  rw [hop] at htyped
  obtain ⟨htype, hvalid, -⟩ := htyped
  unfold readType
  rw [h.fieldTypeFor]
  simp only [htype, hvalid, if_false]

/-- The compactor opens and closes groups with the machine. -/
theorem depth_next (heff : ReplayVM.Effect env vm op vm')
    (hdepth : st.groupStack.length = vm.frames.length) :
    (st.next op).groupStack.length = vm'.tick.frames.length := by
  cases heff with
  | beginGroup => simpa [DecodeState.next, ReplayVM.openGroup] using hdepth
  | @endGroup frame frames vm' hf hr =>
    have hframes : vm'.frames = frames := (ReplayVM.resolve_size hr).1
    rw [hf] at hdepth
    simp [DecodeState.next, hdepth, hframes]
  | addChild hf =>
    rw [hf] at hdepth
    simpa [DecodeState.next, ReplayVM.queueChild] using hdepth
  | _ => exact hdepth

/-- The numbering stays the machine's, as long as an `END_GROUP` appends no node. -/
theorem Numbered.step (h : Numbered st vm) (heff : ReplayVM.Effect env vm op vm')
    (hquiet : op = .endGroup → vm'.nodes.size = vm.nodes.size) : Numbered (st.next op) vm'.tick := by
  refine ⟨?_, depth_next heff h.depth⟩
  have hsame : op.code ≠ .newNode → st.nodeKinds = vm'.tick.kinds := by
    exact fun hnew => h.kinds.trans (heff.kinds_eq (heff.size_quiet hnew hquiet)).symm
  cases heff with
  | @newNode kind name =>
    show st.nodeKinds ++ [kind] = _
    rw [h.kinds]
    simp [ReplayVM.kinds, ReplayVM.createNode]
  | _ => exact hsame (by rintro ⟨⟩)

end Numbered

/-! ## Along a run -/

/-- No `END_GROUP` of the run makes a placeholder. -/
def Quiet (env : Env) (vm0 : ReplayVM) (journal : Bytes) : Prop :=
  ∀ k vm vm', Executes env vm0 journal k vm .endGroup vm' → vm'.nodes.size = vm.nodes.size

section Run

variable {env : Env} {journal body r' : Bytes} {count : UInt32} {ops : List Op} {vm' : ReplayVM}

/-- **The compactor decodes what the machine executes.** -/
theorem decodes_of_run (hlimits : env.limits = {}) (hquiet : Quiet env {} journal)
    (hcount : readVarintU32 journal = .ok (count, body)) (hle : count ≤ env.limits.maxJournalOps)
    (hlen : ops.length = count.toNat) (hrep : Replays env ops {} body vm' r')
    (hclosed : vm'.frames = []) :
    ∃ records st', Decodes env.schema ops {} body records st' r' ∧ st'.groupStack = [] := by
  refine run_induction (motive := fun ops vm r => ∀ st, Numbered st vm →
    ∃ records st', Decodes env.schema ops st r records st' r' ∧ st'.groupStack = [])
    hcount hle (Nat.le_of_eq hlen) hrep ?_ ?_ {} ⟨rfl, rfl⟩
  · intro st h
    refine ⟨[], st, .nil, List.length_eq_zero_iff.mp ?_⟩
    rw [h.depth, hclosed, List.length_nil]
  · intro k vm op vm1 r r1 ops hexec hread ih st h
    have hquiet : op = .endGroup → vm1.nodes.size = vm.nodes.size := by
      rintro rfl
      exact hquiet k vm vm1 hexec
    obtain ⟨records, st', hdec, hstack⟩ := ih _ (h.step hexec.effect hquiet)
    refine ⟨_, st', .cons (h.readOp (hlimits ▸ hread)) ?_ hdec, hstack⟩
    rintro rfl hnil
    have hdepth := h.depth
    rw [hnil] at hdepth
    cases hexec.effect with
    | endGroup hf hr =>
      rw [hf] at hdepth
      cases hdepth

/-- The next id and the live nodes of the compactor cover the machine's. -/
structure Covers (acc : UInt32 × Finset UInt32) (vm : ReplayVM) : Prop where
  next : acc.1 = UInt32.ofNat vm.nodes.size
  live : ∀ i n, vm.node? i = some n → n.alive = true → i ∈ acc.2

theorem Covers.step {acc : UInt32 × Finset UInt32} {vm vm' : ReplayVM} {op : Op}
    (h : Covers acc vm) (heff : ReplayVM.Effect env vm op vm')
    (hquiet : op = .endGroup → vm'.nodes.size = vm.nodes.size) :
    Covers (liveStep acc op) vm'.tick := by
  obtain ⟨hnext, hlive⟩ := h
  by_cases hnew : op.code = .newNode
  · cases heff with
    | newNode =>
      refine ⟨?_, fun i n' hn' ha => ?_⟩
      · show acc.1 + 1 = _
        rw [hnext, ReplayVM.nodes_tick, ReplayVM.size_createNode, UInt32.ofNat_add]
        rfl
      · obtain ⟨-, hi | ⟨n, hn, hna⟩⟩ := (ReplayVM.Effect.newNode ‹_› ‹_› ‹_›).alive_before hn' ha
        · have hlt := ReplayVM.lt_size_of_node? hn'
          rw [ReplayVM.nodes_tick, ReplayVM.size_createNode] at hlt
          have heq : i.toNat = vm.nodes.size := by omega
          exact Finset.mem_insert.mpr (.inl (by rw [hnext, ← heq, UInt32.ofNat_toNat]))
        · exact Finset.mem_insert_of_mem (hlive i n hn hna)
    | _ => cases hnew
  · have hsize := heff.size_quiet hnew hquiet
    have halive : ∀ i n', vm'.node? i = some n' → n'.alive = true → op ≠ .dropNode i ∧ i ∈ acc.2 := by
      intro i n' hn' ha
      obtain ⟨hdrop, hi | ⟨n, hn, hna⟩⟩ := heff.alive_before hn' ha
      · exact absurd (ReplayVM.lt_size_of_node? hn') (by omega)
      · exact ⟨hdrop, hlive i n hn hna⟩
    have hnext' : acc.1 = UInt32.ofNat vm'.tick.nodes.size := by
      rw [hnext, ReplayVM.nodes_tick, hsize]
    cases op with
    | newNode => exact absurd rfl hnew
    | dropNode j =>
      refine ⟨hnext', fun i n' hn' ha => ?_⟩
      obtain ⟨hdrop, hi⟩ := halive i n' hn' ha
      exact Finset.mem_erase.mpr ⟨fun hij => hdrop (hij ▸ rfl), hi⟩
    | _ => exact ⟨hnext', fun i n' hn' ha => (halive i n' hn' ha).2⟩

/-- **What is alive at the end is live for the compactor.** -/
theorem mem_liveOf_of_alive (hquiet : Quiet env {} journal)
    (hcount : readVarintU32 journal = .ok (count, body)) (hle : count ≤ env.limits.maxJournalOps)
    (hlen : ops.length = count.toNat) (hrep : Replays env ops {} body vm' r') {i : NodeId} {n : Node}
    (hn : vm'.node? i = some n) (ha : n.alive = true) : i ∈ liveOf ops := by
  refine run_induction (motive := fun ops vm _ => ∀ acc, Covers acc vm →
    i ∈ (ops.foldl liveStep acc).2) hcount hle (Nat.le_of_eq hlen) hrep ?_ ?_ (0, ∅) ⟨rfl, ?_⟩
  · exact fun acc h => h.live i n hn ha
  · intro k vm op vm1 r r1 ops hexec _ ih acc h
    refine ih _ (h.step hexec.effect ?_)
    rintro rfl
    exact hquiet k vm vm1 hexec
  · exact fun _ _ h => nomatch h

/-- The opcodes of a run are those `executed` lists. -/
theorem mem_executed {vm0 vm vm1 : ReplayVM} {r0 r t : Bytes} {op : Op}
    (hrep : Replays env ops vm0 r0 vm r) (hread : readOp (vm.fieldType env) env.limits r = .ok (op, t))
    (heff : ReplayVM.Effect env vm op vm1) {n : Nat} (hn : ops.length < n) (opens : List OpenGroup) :
    ∃ opens', (⟨opens', vm, op, vm1⟩ : Executed) ∈ executed env n opens vm0 r0 := by
  induction hrep generalizing n opens with
  | nil =>
    obtain ⟨n, rfl⟩ := Nat.exists_eq_succ_of_ne_zero (Nat.ne_zero_of_lt hn)
    refine ⟨opens, ?_⟩
    simp only [executed, hread, ReplayVM.exec_iff_effect.mpr heff]
    exact List.mem_cons_self
  | @cons op' ops vm0 r0 mid r1 _ _ hread' heff' _ ih =>
    obtain ⟨n, rfl⟩ := Nat.exists_eq_succ_of_ne_zero (Nat.ne_zero_of_lt hn)
    obtain ⟨opens', hmem⟩ := ih hread heff (Nat.lt_of_succ_lt_succ hn) (OpenGroup.next vm0 op' opens)
    refine ⟨opens', ?_⟩
    simp only [executed, hread', ReplayVM.exec_iff_effect.mpr heff']
    exact List.mem_cons_of_mem _ hmem

/-- `Quiet`, from a list of the opcodes executed. -/
theorem quiet_of_executed {vm0 : ReplayVM} (hcount : readVarintU32 journal = .ok (count, body))
    (h : ∀ s ∈ executed env count.toNat [] vm0 body,
      s.op = .endGroup → s.after.nodes.size = s.before.nodes.size) : Quiet env vm0 journal := by
  rintro k vm vm1 ⟨heff, r, t, ⟨count1, body1, hcount1, -, -, hrun⟩, hread,
    ⟨count2, body2, hcount2, -, hk, -⟩⟩
  obtain ⟨rfl, rfl⟩ := Prod.mk.inj (Except.ok.inj (hcount.symm.trans hcount1))
  obtain ⟨rfl, rfl⟩ := Prod.mk.inj (Except.ok.inj (hcount.symm.trans hcount2))
  obtain ⟨ops, rfl, hrep⟩ := runOps_ok_iff.mp hrun
  obtain ⟨opens, hmem⟩ := mem_executed hrep hread heff hk []
  exact h _ hmem rfl

end Run

end JournalCompactor

end Stratavm
