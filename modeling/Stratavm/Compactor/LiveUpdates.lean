import Stratavm.Compactor.Replay
import Stratavm.ReplayVm.Typing

/-!
# The updates a compacted journal keeps

On a VM seeded with a heap, or with placeholders in its node table, the machine's ids are not the
compactor's: the compactor knows the ids below the number of `NEW_NODE`s only, and takes the type of a
field from the kind it has under that id. `TypesAgree` says that it reads every value with the
machine's type all the same.

* `mem_liveOf_iff`: the live nodes are the ids below the number of `NEW_NODE`s that are not dropped.
* `not_dropped_of_alive`: a node alive at the end of a run is never dropped in it.
* **`compact_keepsUpdates_iff`**: where the types agree, compacting keeps the updates of the nodes alive
  at the end iff all of these ids are below the number of `NEW_NODE`s.
* `update_lost`: a `LINK_REF` of a heap node is removed.
-/

namespace Stratavm

open Lib

namespace ReplayVM

/-- The node is there and alive. -/
def aliveAt (vm : ReplayVM) (i : NodeId) : Bool := (vm.node? i).any Node.alive

end ReplayVM

namespace JournalCompactor

/-! ## What the compactor should keep -/

/-- The node that `op` updates. -/
def updated : Op → Option NodeId
  | .setField node _ _ => some node
  | .linkRef src _ _ => some src
  | .newNode _ _ | .beginGroup _ _ | .endGroup | .addChild _ | .dropNode _ | .snapshot _
  | .setMeta _ _ | .nop => none

/-- A later opcode of `rest` takes the place of `op`. -/
def outdated (op : Op) (rest : List Op) : Bool :=
  match op with
  | .setField node field _ => overwritten node field rest
  | .newNode _ _ | .linkRef _ _ _ | .beginGroup _ _ | .endGroup | .addChild _ | .dropNode _
  | .snapshot _ | .setMeta _ _ | .nop => false

/-- The live updates: the last `SET_FIELD` of each field and every `LINK_REF`, of the nodes that are
alive in `vm`. -/
def liveUpdates (vm : ReplayVM) : List Op → List Op
  | [] => []
  | op :: ops =>
    if (updated op).any vm.aliveAt && !outdated op ops then op :: liveUpdates vm ops
    else liveUpdates vm ops

/-- The bytes are the journal of `ops`, their values typed by `ty`. -/
def IsJournal (ty : FieldTypes) (bytes : Bytes) (ops : List Op) : Prop :=
  bytes = journalOf ops ∧ ∀ op ∈ ops, op.Typed ty {}

/-- `compact` succeeds, and its journal has the live updates of a run over `ops` that ends in `vm`. -/
def KeepsUpdates (env : Env) (journal : Bytes) (vm : ReplayVM) (ops : List Op) : Prop :=
  ∃ res kept, compact env.schema journal = .ok res ∧
    IsJournal (vm.fieldType env) res.journalBytes kept ∧ (liveUpdates vm ops).Sublist kept

/-! ## The compactor's numbering -/

/-- The number of `NEW_NODE`s. -/
def newNodes (ops : List Op) : Nat := ops.countP fun op => op.code = .newNode

/-- The compactor's kinds after `op`. -/
def nextKinds (kinds : List KindId) : Op → List KindId
  | .newNode kind _ => kinds ++ [kind]
  | .setField _ _ _ | .beginGroup _ _ | .endGroup | .addChild _ | .linkRef _ _ _ | .dropNode _
  | .snapshot _ | .setMeta _ _ | .nop => kinds

/-- The compactor reads every value of `ops` with its own type, where the `NEW_NODE`s so far had these
kinds. -/
def TypesAgree (schema : Schema) : List KindId → List Op → Prop
  | _, [] => True
  | kinds, op :: ops =>
    (∀ node field v, op = .setField node field v → readType schema kinds node field = v.type) ∧
      TypesAgree schema (nextKinds kinds op) ops

theorem nodeKinds_next (st : DecodeState) (op : Op) :
    (st.next op).nodeKinds = nextKinds st.nodeKinds op := by
  cases op <;> rfl

/-- The `NEW_NODE` with `k` others before it makes the id `k` live. -/
theorem liveStep_newNode (k : Nat) (live : Finset NodeId) (kind : KindId) (name : AtomId) :
    liveStep (UInt32.ofNat k, live) (.newNode kind name) =
      (UInt32.ofNat (k + 1), insert (UInt32.ofNat k) live) := by
  rw [UInt32.ofNat_add]
  rfl

/-- An id that is not dropped is live if it was, or is the id of one of the `NEW_NODE`s to come. -/
theorem mem_foldl_liveStep {i : NodeId} {ops : List Op} (hdrop : .dropNode i ∉ ops) {k : Nat}
    {live : Finset NodeId} (hi : i ∈ live ∨ k ≤ i.toNat ∧ i.toNat < k + newNodes ops) :
    i ∈ (ops.foldl liveStep (UInt32.ofNat k, live)).2 := by
  induction ops generalizing k live with
  | nil =>
    rcases hi with hi | ⟨hle, hlt⟩
    · exact hi
    · exact absurd hlt (Nat.not_lt_of_le hle)
  | cons op ops ih =>
    obtain ⟨hop, hdrop⟩ := not_or.mp (mt List.mem_cons.mpr hdrop)
    replace ih := @ih hdrop
    rw [List.foldl_cons]
    cases op with
    | newNode kind name =>
      have hcount : newNodes (.newNode kind name :: ops) = newNodes ops + 1 :=
        List.countP_cons_of_pos rfl
      rw [liveStep_newNode]
      refine ih ?_
      rcases hi with hi | ⟨hle, hlt⟩
      · exact .inl (Finset.mem_insert_of_mem hi)
      · rcases Nat.eq_or_lt_of_le hle with rfl | hlt'
        · rw [UInt32.ofNat_toNat]
          exact .inl (Finset.mem_insert_self _ _)
        · exact .inr ⟨hlt', by omega⟩
    | dropNode j =>
      refine ih (hi.imp_left fun hi => ?_)
      exact Finset.mem_erase.mpr ⟨fun hij => hop (hij ▸ rfl), hi⟩
    | _ => exact ih hi

/-- A live id is that of a `NEW_NODE`. -/
theorem lt_of_mem_foldl_liveStep {i : NodeId} {ops : List Op} {k : Nat} {live : Finset NodeId}
    (h : i ∈ (ops.foldl liveStep (UInt32.ofNat k, live)).2) :
    i ∈ live ∨ i.toNat < k + newNodes ops := by
  induction ops generalizing k live with
  | nil => exact .inl h
  | cons op ops ih =>
    rw [List.foldl_cons] at h
    cases op with
    | newNode kind name =>
      have hcount : newNodes (.newNode kind name :: ops) = newNodes ops + 1 :=
        List.countP_cons_of_pos rfl
      rw [liveStep_newNode] at h
      rcases ih h with hi | hlt
      · rcases Finset.mem_insert.mp hi with rfl | hi
        · have hle : (UInt32.ofNat k).toNat ≤ k := Nat.mod_le k _
          exact .inr (by omega)
        · exact .inl hi
      · exact .inr (by omega)
    | dropNode j => exact (ih h).imp_left Finset.mem_of_mem_erase
    | _ => exact ih h

/-- **The live nodes**, of opcodes that do not drop `i`. -/
theorem mem_liveOf_iff {i : NodeId} {ops : List Op} (hdrop : .dropNode i ∉ ops) :
    i ∈ liveOf ops ↔ i.toNat < newNodes ops := by
  constructor
  · intro h
    rcases lt_of_mem_foldl_liveStep (k := 0) h with hi | hlt
    · exact absurd hi (Finset.notMem_empty i)
    · rwa [Nat.zero_add] at hlt
  · intro h
    exact mem_foldl_liveStep hdrop (k := 0) (.inr ⟨Nat.zero_le _, by rwa [Nat.zero_add]⟩)

/-! ## The opcodes kept -/

section Kept

variable {vm : ReplayVM} {live : Finset NodeId} {ops : List Op}

theorem mem_liveUpdates {op : Op} (h : op ∈ liveUpdates vm ops) :
    op ∈ ops ∧ ∃ i, updated op = some i ∧ vm.aliveAt i = true := by
  induction ops with
  | nil => exact absurd h List.not_mem_nil
  | cons head ops ih =>
    rw [liveUpdates] at h
    split at h
    · rename_i hkeep
      rcases List.mem_cons.mp h with rfl | h
      · have halive := (Bool.and_eq_true_iff.mp hkeep).1
        exact ⟨List.mem_cons_self, (Option.any_eq_true ..).mp halive⟩
      · exact (ih h).imp_left (List.mem_cons_of_mem _)
    · exact (ih h).imp_left (List.mem_cons_of_mem _)

/-- What phases 4a to 4d keep of the updates. -/
theorem keeps_update {op : Op} {i : NodeId} (hop : updated op = some i) (flags : List Bool)
    (rest : List Op) : (keepsField live op rest && keepsGroup flags op rest) =
      (decide (i ∈ live) && !outdated op rest) := by
  cases op with
  | setField | linkRef =>
    obtain rfl := Option.some.inj hop
    simp [keepsField, keepsGroup, outdated]
  | _ => cases hop

theorem withoutHint_update {op : Op} {i : NodeId} (hop : updated op = some i) :
    op.withoutHint = op := by
  cases op with
  | beginGroup => cases hop
  | _ => rfl

theorem survivors_sublist (flags : List Bool) : (survivors live flags ops).Sublist ops := by
  induction ops generalizing flags with
  | nil => exact .slnil
  | cons op ops ih =>
    rw [survivors]
    split
    · exact (ih _).cons_cons op
    · exact (ih _).cons op

/-- An update that is kept is one of a live node. -/
theorem mem_live_of_survivor {op : Op} {i : NodeId} (hop : updated op = some i) {flags : List Bool}
    (h : op ∈ survivors live flags ops) : i ∈ live := by
  induction ops generalizing flags with
  | nil => exact absurd h List.not_mem_nil
  | cons head ops ih =>
    rw [survivors] at h
    split at h
    · rename_i hkeep
      rcases List.mem_cons.mp h with rfl | h
      · rw [keeps_update hop, Bool.and_eq_true, decide_eq_true_iff] at hkeep
        exact hkeep.1
      · exact ih h
    · exact ih h

/-- The live updates are kept if their nodes are live. -/
theorem liveUpdates_sublist (flags : List Bool)
    (hlive : ∀ op ∈ liveUpdates vm ops, ∀ i, updated op = some i → i ∈ live) :
    (liveUpdates vm ops).Sublist ((survivors live flags ops).map Op.withoutHint) := by
  induction ops generalizing flags with
  | nil => exact .slnil
  | cons op ops ih =>
    rw [liveUpdates] at hlive ⊢
    rw [survivors]
    split
    · rename_i hkeep
      rw [if_pos hkeep] at hlive
      obtain ⟨halive, hlast⟩ := Bool.and_eq_true_iff.mp hkeep
      obtain ⟨i, hop, -⟩ := (Option.any_eq_true ..).mp halive
      have hi : i ∈ live := hlive op List.mem_cons_self i hop
      rw [keeps_update hop, hlast, decide_eq_true hi, Bool.and_true, if_pos rfl, List.map_cons,
        withoutHint_update hop]
      exact (ih _ fun op hmem => hlive op (List.mem_cons_of_mem _ hmem)).cons_cons op
    · rename_i hkeep
      rw [if_neg hkeep] at hlive
      split
      · exact (ih _ hlive).cons _
      · exact ih _ hlive

end Kept

/-! ## One reading -/

/-- **A typed journal has one list of opcodes.** -/
theorem IsJournal.unique {ty : FieldTypes} {bytes : Bytes} {ops ops' : List Op}
    (h : IsJournal ty bytes ops) (h' : IsJournal ty bytes ops') : ops = ops' := by
  obtain ⟨hbytes, htyped⟩ := h
  obtain ⟨hbytes', htyped'⟩ := h'
  have hbody : ops.flatMap Op.encode = ops'.flatMap Op.encode := by
    have hread : readVarint bytes = .ok (UInt64.ofNat ops.length, ops.flatMap Op.encode) := by
      rw [hbytes]
      exact reads_varint _ _
    have hread' : readVarint bytes = .ok (UInt64.ofNat ops'.length, ops'.flatMap Op.encode) := by
      rw [hbytes']
      exact reads_varint _ _
    exact (Prod.mk.inj (Except.ok.inj (hread.symm.trans hread'))).2
  clear hbytes hbytes'
  induction ops generalizing ops' with
  | nil =>
    cases ops' with
    | nil => rfl
    | cons => cases hbody
  | cons op ops ih =>
    cases ops' with
    | nil => cases hbody
    | cons op' ops' =>
      have hread := reads_op (htyped op List.mem_cons_self) (ops.flatMap Op.encode)
      have hread' := reads_op (htyped' op' List.mem_cons_self) (ops'.flatMap Op.encode)
      rw [List.flatMap_cons, List.flatMap_cons] at hbody
      rw [hbody] at hread
      obtain ⟨rfl, hrest⟩ := Prod.mk.inj (Except.ok.inj (hread.symm.trans hread'))
      rw [ih (fun op h => htyped op (List.mem_cons_of_mem _ h))
        (fun op h => htyped' op (List.mem_cons_of_mem _ h)) hrest]

/-! ## Along a run -/

section Run

variable {env : Env} {vm0 vm vm' : ReplayVM} {journal body r' : Bytes} {count : UInt32} {ops : List Op}

/-- A field keeps its type, once its node is there. -/
theorem fieldType_of_kinds {a b : ReplayVM} (hkinds : a.kinds <+: b.kinds) {node : NodeId}
    {field : FieldId} (hvalid : a.fieldType env node field ≠ .invalid) :
    b.fieldType env node field = a.fieldType env node field := by
  unfold ReplayVM.fieldType ReplayVM.node? at hvalid ⊢
  cases ha : a.nodes.data[node.toNat]? with
  | none =>
    rw [ha] at hvalid
    exact absurd rfl hvalid
  | some n =>
    have hkind : a.kinds[node.toNat]? = some n.kind := by
      rw [ReplayVM.kinds, List.getElem?_map, ha, Option.map_some]
    have hkind' : b.kinds[node.toNat]? = some n.kind := by
      obtain ⟨more, hmore⟩ := hkinds
      rw [← hmore, List.getElem?_append_left (List.getElem?_eq_some_iff.mp hkind).1, hkind]
    rw [ReplayVM.kinds, List.getElem?_map] at hkind'
    obtain ⟨m, hm, hnm⟩ := Option.map_eq_some_iff.mp hkind'
    rw [hm]
    exact congrArg (env.schema.fieldType · field) hnm

/-- The opcodes of a run are typed by the fields at its end. -/
theorem typed_of_run (hlimits : env.limits = {})
    (hcount : readVarintU32 journal = .ok (count, body)) (hle : count ≤ env.limits.maxJournalOps)
    (hlen : ops.length = count.toNat) (hrep : Replays env ops vm0 body vm' r') :
    ∀ op ∈ ops, op.Typed (vm'.fieldType env) {} := by
  suffices h : (∀ op ∈ ops, op.Typed (vm'.fieldType env) {}) ∧ vm0.kinds <+: vm'.kinds by exact h.1
  refine run_induction (motive := fun ops vm _ => (∀ op ∈ ops, op.Typed (vm'.fieldType env) {}) ∧
    vm.kinds <+: vm'.kinds) hcount hle (Nat.le_of_eq hlen) hrep ?_ ?_
  · exact ⟨fun _ h => absurd h List.not_mem_nil, List.prefix_rfl⟩
  · rintro k vm op vm1 r r1 ops hexec hread ⟨htyped, hkinds⟩
    have hkinds := hexec.effect.kinds_prefix.trans hkinds
    refine ⟨fun op' hmem => ?_, hkinds⟩
    rcases List.mem_cons.mp hmem with rfl | hmem
    · have hop := readOp_typed hread
      cases op' with
      | setField node field v =>
        obtain ⟨htype, hfits⟩ := hop
        rw [hlimits] at hfits
        refine ⟨?_, hfits⟩
        rw [fieldType_of_kinds hkinds (htype ▸ hfits.1), htype]
      | _ => trivial
    · exact htyped op' hmem

/-- **The compactor decodes a run whose types it knows.** -/
theorem decodes_of_typesAgree (hlimits : env.limits = {}) (hframes : vm0.frames = [])
    (hcount : readVarintU32 journal = .ok (count, body)) (hle : count ≤ env.limits.maxJournalOps)
    (hlen : ops.length = count.toNat) (hrep : Replays env ops vm0 body vm' r')
    (hclosed : vm'.frames = []) (htypes : TypesAgree env.schema [] ops) :
    ∃ records st', Decodes env.schema ops {} body records st' r' ∧ st'.groupStack = [] := by
  refine run_induction (motive := fun ops vm r => ∀ st : DecodeState,
    st.groupStack.length = vm.frames.length → TypesAgree env.schema st.nodeKinds ops →
      ∃ records st', Decodes env.schema ops st r records st' r' ∧ st'.groupStack = [])
    hcount hle (Nat.le_of_eq hlen) hrep ?_ ?_ {} ?_ htypes
  · intro st hdepth _
    rw [hclosed] at hdepth
    exact ⟨[], st, .nil, List.length_eq_zero_iff.mp hdepth⟩
  · rintro k vm op vm1 r r1 ops hexec hread ih st hdepth ⟨htype, htypes⟩
    rw [← nodeKinds_next] at htypes
    obtain ⟨records, st', hdec, hstack⟩ := ih (st.next op) (depth_next hexec.effect hdepth) htypes
    refine ⟨_, st', .cons ?_ ?_ hdec, hstack⟩
    · rw [hlimits] at hread
      refine readOp_of_types hread fun node field v hop => ?_
      have htyped : op.Typed (vm.fieldType env) {} := readOp_typed hread
      rw [hop] at htyped
      rw [htype node field v hop, htyped.1]
    · rintro rfl hnil
      rw [hnil] at hdepth
      cases hexec.effect with
      | endGroup hf hr =>
        rw [hf] at hdepth
        cases hdepth
  · rw [hframes]
    rfl

/-- **A node alive at the end** is never dropped. -/
theorem not_dropped_of_alive (hcount : readVarintU32 journal = .ok (count, body))
    (hle : count ≤ env.limits.maxJournalOps) (hlen : ops.length = count.toNat)
    (hrep : Replays env ops vm0 body vm' r') {i : NodeId} (halive : vm'.aliveAt i = true) :
    .dropNode i ∉ ops := by
  suffices h : .dropNode i ∉ ops ∧ (i.toNat < vm0.nodes.size → vm0.aliveAt i = true) by exact h.1
  refine run_induction (motive := fun ops vm _ => .dropNode i ∉ ops ∧
    (i.toNat < vm.nodes.size → vm.aliveAt i = true)) hcount hle (Nat.le_of_eq hlen) hrep ?_ ?_
  · exact ⟨List.not_mem_nil, fun _ => halive⟩
  · rintro k vm op vm1 r r1 ops hexec _ ⟨hdrop, hafter⟩
    have hbefore : i.toNat < vm.nodes.size → op ≠ .dropNode i ∧ vm.aliveAt i = true := by
      intro hlt
      have halive1 : vm1.aliveAt i = true := hafter (Nat.lt_of_lt_of_le hlt hexec.effect.size_mono)
      obtain ⟨n', hn', ha⟩ := (Option.any_eq_true ..).mp halive1
      obtain ⟨hop, hnew | ⟨n, hn, hna⟩⟩ := hexec.effect.alive_before hn' ha
      · exact absurd hlt (Nat.not_lt_of_le hnew)
      · exact ⟨hop, (Option.any_eq_true ..).mpr ⟨n, hn, hna⟩⟩
    refine ⟨fun hmem => ?_, fun hlt => (hbefore hlt).2⟩
    rcases List.mem_cons.mp hmem with rfl | hmem
    · cases hexec.effect with
      | dropDead hnode | drop hnode =>
        exact (hbefore (ReplayVM.lt_size_of_node? hnode)).1 rfl
    · exact hdrop hmem

/-- **What compaction keeps of the live updates**, where the compactor knows the types of the values:
the updates of the ids below the number of `NEW_NODE`s, whatever heap the machine is seeded with. -/
theorem compact_keepsUpdates_iff (hlimits : env.limits = {}) {heap : HeapImage} {rest : Bytes}
    (hrun : Machine.Ok (run env) (ReplayVM.seed {} heap) journal () vm rest)
    (hops : RunsOver env (ReplayVM.seed {} heap) journal ops)
    (htypes : TypesAgree env.schema [] ops) :
    KeepsUpdates env journal vm ops ↔
      ∀ op ∈ liveUpdates vm ops, ∀ i, updated op = some i → i.toNat < newNodes ops := by
  obtain ⟨count, body, hcount, hle, hrunOps, hclosed⟩ := run_ok_iff_runOps.mp hrun
  obtain ⟨count', body', end', rest', hcount', hlen, hrep⟩ := hops
  obtain ⟨rfl, rfl⟩ := Prod.mk.inj (Except.ok.inj (hcount.symm.trans hcount'))
  have hsame := hrunOps.symm.trans (runOps_ok_iff (u := ()).mpr ⟨ops, hlen, hrep⟩)
  obtain ⟨hvalue, rfl⟩ := Prod.mk.inj hsame
  obtain ⟨records, st', hdec, hstack⟩ :=
    decodes_of_typesAgree hlimits rfl hcount hle hlen hrep hclosed htypes
  obtain ⟨res, hres, hbytes⟩ := compact_of_decodes hcount hlen hdec hstack
  have hjournal : IsJournal (vm.fieldType env) res.journalBytes (compacted ops) := by
    refine ⟨hbytes, fun op hmem => ?_⟩
    obtain ⟨op', hmem', rfl⟩ := List.mem_map.mp hmem
    exact typed_withoutHint
      (typed_of_run hlimits hcount hle hlen hrep op' ((survivors_sublist []).subset hmem'))
  have hlive : ∀ op ∈ liveUpdates vm ops, ∀ i, updated op = some i →
      (i ∈ liveOf ops ↔ i.toNat < newNodes ops) := by
    intro op hmem i hop
    obtain ⟨-, j, hj, halive⟩ := mem_liveUpdates hmem
    obtain rfl := Option.some.inj (hop.symm.trans hj)
    exact mem_liveOf_iff (not_dropped_of_alive hcount hle hlen hrep halive)
  constructor
  · rintro ⟨res', kept, hres', hkept, hsub⟩ op hmem i hop
    obtain rfl := Except.ok.inj (hres.symm.trans hres')
    obtain rfl := hkept.unique hjournal
    obtain ⟨op', hmem', heq⟩ := List.mem_map.mp (hsub.subset hmem)
    have hop' : updated op' = some i := by
      rw [← hop, ← heq]
      cases op' <;> rfl
    exact (hlive op hmem i hop).mp (mem_live_of_survivor hop' hmem')
  · intro h
    refine ⟨res, compacted ops, hres, hjournal, liveUpdates_sublist [] fun op hmem i hop => ?_⟩
    exact (hlive op hmem i hop).mpr (h op hmem i hop)

end Run

/-- A link from a node of the heap to itself. -/
def heapLink : List Op := [.linkRef 0 0 0]

theorem runsOver_heapLink : RunsOver oneRef (ReplayVM.seed {} oneNode) (journalOf heapLink) heapLink :=
  ⟨1, _, _, [], rfl, rfl, .cons rfl (ReplayVM.exec_iff_effect.mp rfl) .nil⟩

theorem update_lost :
    decodeHeap oneRef.growth oneRef.schema oneRef.atoms oneRef.limits [1, 0, 0, 0, 0] =
        .ok (oneNode, []) ∧
      ∃ vm, Machine.Ok (run oneRef) (ReplayVM.seed {} oneNode) (journalOf heapLink) () vm [] ∧
        RunsOver oneRef (ReplayVM.seed {} oneNode) (journalOf heapLink) heapLink ∧
        liveUpdates vm heapLink = heapLink ∧ ¬ KeepsUpdates oneRef (journalOf heapLink) vm heapLink := by
  refine ⟨rfl, _, Machine.ok_of_fst rfl, runsOver_heapLink, by decide, ?_⟩
  rintro ⟨res, kept, hres, hkept, hsub⟩
  obtain rfl := Except.ok.inj hres
  have hnone : kept = [] := hkept.unique ⟨rfl, fun _ h => absurd h List.not_mem_nil⟩
  rw [hnone] at hsub
  exact absurd (List.sublist_nil.mp hsub) (by decide)

/-- The same link, after a `NEW_NODE` and a reference that it overwrites. -/
def linkAfterNew : List Op := .newNode 0 0 :: .setField 0 0 (.ref 0) :: heapLink

theorem compact_keepsUpdates_linkAfterNew :
    KeepsUpdates oneRef (journalOf linkAfterNew)
        (run oneRef (ReplayVM.seed {} oneNode) (journalOf linkAfterNew)).2 linkAfterNew ↔
      ∀ op ∈ liveUpdates (run oneRef (ReplayVM.seed {} oneNode) (journalOf linkAfterNew)).2
        linkAfterNew, ∀ i, updated op = some i → i.toNat < newNodes linkAfterNew := by
  have hops : RunsOver oneRef (ReplayVM.seed {} oneNode) (journalOf linkAfterNew) linkAfterNew :=
    ⟨3, _, _, [], rfl, rfl, .cons rfl (ReplayVM.exec_iff_effect.mp rfl)
      (.cons rfl (ReplayVM.exec_iff_effect.mp rfl) (.cons rfl (ReplayVM.exec_iff_effect.mp rfl) .nil))⟩
  have htypes : TypesAgree oneRef.schema [] linkAfterNew := by
    refine ⟨nofun, ?_, nofun, trivial⟩
    rintro node field v ⟨⟩
    rfl
  exact compact_keepsUpdates_iff rfl (Machine.ok_of_fst rfl) hops htypes

end JournalCompactor

end Stratavm
