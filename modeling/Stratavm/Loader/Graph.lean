import Stratavm.Loader.Safe
import Stratavm.ReplayVm.Typing
import Stratavm.ReplayVm.Writable
import Stratavm.Validator.Verdict
import Stratavm.XrefIndex.Inverse

/-!
# The graph of a loaded container

Whatever the bytes are, a container that loads holds a graph in order. The VM starts from the heap section
or from nothing, in either case `Grown` by no opcode, and each opcode of the journal keeps it so
(`Effect.grown`). The index and the report are then about a table in order.

* **`load_graph`**: the graph of a loaded container is sound and typed, its names are atoms of the pool, and
  its index is the inverse of its edges.
* **`load_verdict`**: the report of a loaded container has no issue iff the live nodes have their required
  fields and, under strict validation, there is no placeholder and no reference to a dropped node.
-/

namespace Stratavm

open Lib

/-! ## The state after `k` opcodes -/

/-- A graph in order, `k` opcodes after its heap. -/
structure ReplayVM.Grown (env : Env) (k : Nat) (vm : ReplayVM) : Prop where
  sound : vm.Sound
  weight : vm.weight ≤ env.limits.maxNodes.toNat + k
  typed : vm.WellTyped env.schema
  kinded : vm.Kinded
  writable : vm.Writable env

namespace ReplayVM

variable {env : Env} {vm vm' : ReplayVM} {op : Op} {k : Nat}

/-- **An opcode keeps the graph in order**, while there are ids left. -/
theorem Effect.grown (hschema : env.schema.Typed) (hroom : env.limits.maxNodes.toNat + k + 1 < 2 ^ 32)
    (h0 : vm.Grown env k) (htyped : op.Typed (vm.fieldType env) env.limits) (h : Effect env vm op vm') :
    vm'.tick.Grown env (k + 1) := by
  have hweight : vm'.tick.weight ≤ vm.weight + 1 := h.weight_le
  have hle := h0.weight
  have hwritable := h.writable h0.writable htyped
  exact ⟨h.sound h0.sound (by omega), by omega, (h.wellTyped hschema h0.typed :),
    (h.kinded hschema h0.kinded :), hwritable.nodes, hwritable.depth, hwritable.queued⟩

/-- A decoded heap is in order. -/
theorem grown_seed (hids : env.limits.IdsFit) (hschema : env.schema.Typed) {bytes rest : Bytes}
    {heap : HeapImage}
    (hheap : decodeHeap env.growth env.schema env.atoms env.limits bytes = .ok (heap, rest)) :
    (ReplayVM.seed {} heap).Grown env 0 := by
  have hnode : ∀ n ∈ heap.nodes.data, ∃ i, HeapNode env.schema env.atoms i n := by
    intro n hn
    obtain ⟨i, hi⟩ := List.mem_iff_getElem?.mp hn
    exact ⟨i, (decodeHeap_spec hheap).2 i n hi⟩
  refine ⟨sound_seed hids hheap, (decodeHeap_spec hheap).1, fun n hn => ?_, fun n hn => ?_,
    writable_seed hheap⟩
  · obtain ⟨i, hi⟩ := hnode n hn
    exact .ofHeap hi
  · obtain ⟨i, hi⟩ := hnode n hn
    rw [hi.placeholder]
    refine iff_of_false Bool.false_ne_true fun hk => ?_
    have hdeclared := hi.kind
    rw [hk, hschema.kind_invalid] at hdeclared
    cases hdeclared

/-- So is a table without nodes. -/
theorem grown_empty (hids : env.limits.IdsFit) (hschema : env.schema.Typed) : ({} : ReplayVM).Grown env 0 := by
  have hheap : decodeHeap env.growth env.schema env.atoms env.limits [0] = .ok (⟨Vec.empty⟩, []) := rfl
  exact grown_seed hids hschema hheap

end ReplayVM

/-- **Every state of a run is in order.** -/
theorem grown_of_stateAt {env : Env} (hids : env.limits.IdsFit) (hschema : env.schema.Typed)
    {vm0 vm : ReplayVM} {journal r : Bytes} {k : Nat} (h0 : vm0.Grown env 0)
    (h : StateAt env vm0 journal k vm r) : vm.Grown env k := by
  have hk : k ≤ env.limits.maxJournalOps.toNat := by
    obtain ⟨_, _, -, hle, hk, -⟩ := h
    exact hk.trans (UInt32.le_iff_toNat_le.mp hle)
  unfold Limits.IdsFit at hids
  refine h.induction (P := fun k vm => k ≤ env.limits.maxJournalOps.toNat → vm.Grown env k)
    (fun _ => h0) (fun {k vm op vm'} hexec ih hk => ?_) hk
  obtain ⟨heff, r1, r2, -, hread, -⟩ := hexec
  exact heff.grown hschema (by omega) (ih (by omega)) (readOp_typed hread)

/-! ## The container -/

/-- A loaded container in order. -/
structure LoadedContainer.InOrder (lc : LoadedContainer) : Prop where
  /-- Ids, edges, names and links back. -/
  sound : lc.vm.Sound
  /-- A placeholder without fields, or a declared kind and values of its types. -/
  typed : lc.vm.WellTyped lc.schema
  /-- The placeholders are the nodes without a kind. -/
  kinded : lc.vm.Kinded
  /-- No name or an atom of the pool. -/
  names : ∀ n ∈ lc.vm.nodes.data, n.name = kInvalidAtom ∨ lc.atoms.get n.name ≠ none
  /-- The cross-reference index is the inverse of the edges. -/
  xref : lc.xref.Inverts lc.vm.nodes.data
  /-- A field has an id. -/
  fields : ∀ k ∈ lc.schema.kinds, k.fields.length < 2 ^ 32

/-- The nodes of a container in order are as the validator expects them. -/
theorem LoadedContainer.InOrder.checked {lc : LoadedContainer} (h : lc.InOrder) :
    ∀ n ∈ lc.vm.nodes.data, n.Checked lc.vm.nodes.data lc.schema := by
  have hsize : lc.vm.nodes.data.length < 2 ^ 32 := Nat.lt_of_le_of_lt lc.vm.size_le_weight h.sound.room
  intro n hn
  refine ⟨fun hplaceholder => ?_, fun t ht => ?_⟩
  · cases h.typed n hn with
    | placeholder hp => exact absurd (hplaceholder.symm.trans hp) Bool.false_ne_true
    | declared hkind => exact ⟨_, hkind, h.fields _ (List.mem_of_getElem? hkind)⟩
  · exact (outOfRange_eq_false_iff hsize).mpr (h.sound.edges n hn t ht)

section Load

variable {growth : Growth} {ownerSlot : OwnerSlot} {options : LoadOptions} {data : Bytes}

theorem replayJournal_grown {env : Env} (hids : env.limits.IdsFit) (hschema : env.schema.Typed)
    (sections : SectionTable) {seeded : ReplayVM} (hin : seeded.InTable) (h0 : seeded.Grown env 0) :
    Returns (replayJournal options data env sections seeded) (fun p => ∃ k, p.1.Grown env k)
      (Fault.Safe env.ownerSlot) := by
  unfold replayJournal
  split
  · refine withSection_safe ⟨0, h0⟩ fun r => ?_
    cases hfin : Machine.finalState (run env) seeded r with
    | error e => exact .error ((run_safe.finalState hin r).2 e hfin)
    | ok vm =>
      obtain ⟨_, r', hrun⟩ := Machine.finalState_eq_ok.mp hfin
      obtain ⟨k, hstate⟩ := stateAt_of_run hrun
      exact .ok ⟨k, grown_of_stateAt hids hschema h0 hstate⟩
  · exact .ok ⟨0, h0⟩

/-- What `load` returns is in order, and the report is that of its table. -/
theorem load_inOrder (hids : options.limits.IdsFit) :
    Returns (load growth ownerSlot options data) (fun lc => lc.InOrder ∧
      lc.report = validateGraph lc.vm.nodes.data lc.atoms options.strictValidation lc.schema)
      (Fault.Safe ownerSlot) := by
  refine (orStatus_safe _).bind fun sections _ => ?_
  refine (withSection_safe (V := fun _ => True) trivial fun r => ?_).bind fun atoms _ => ?_
  · exact (orStatus_safe _).mono fun _ _ => trivial
  refine (withSection_safe (V := fun schema : Schema => schema.Typed ∧
    ∀ k ∈ schema.kinds, k.fields.length < 2 ^ 32) ?_ fun r => ?_).bind fun schema hschema => ?_
  · exact ⟨⟨nofun, by decide⟩, nofun⟩
  · refine (orStatus_safe _).mono fun s hs => ?_
    obtain ⟨p, hp, rfl⟩ := exists_of_map_eq_ok hs
    exact ⟨Schema.decode_typed hp, (Schema.decode_named hp).count⟩
  obtain ⟨htyped, hfields⟩ := hschema
  have henv : ({ schema, atoms, limits := options.limits, growth, ownerSlot } : Env).limits.IdsFit := hids
  refine (withSection_safe (V := fun seeded : ReplayVM => seeded.InTable ∧
    seeded.Grown { schema, atoms, limits := options.limits, growth, ownerSlot } 0) ?_ fun r => ?_).bind
    fun seeded hseeded => ?_
  · exact ⟨inTable_empty, ReplayVM.grown_empty henv htyped⟩
  · refine (orStatus_safe _).mono fun vm hvm => ?_
    obtain ⟨p, hp, rfl⟩ := exists_of_map_eq_ok hvm
    exact ⟨inTable_seed hp, ReplayVM.grown_seed henv htyped hp⟩
  refine (replayJournal_grown henv htyped sections hseeded.1 hseeded.2).bind fun (vm, journalRan) hvm => ?_
  obtain ⟨k, hvm⟩ := hvm
  refine (withSection_safe (V := fun _ => True) trivial fun r => ?_).bind fun xrefWarnings _ => ?_
  · exact (orStatus_safe _).mono fun _ _ => trivial
  refine (withSection_safe (V := fun _ => True) trivial fun r => ?_).bind fun sectionMeta _ => ?_
  · exact (orStatus_safe _).mono fun _ _ => trivial
  refine .ok ⟨⟨hvm.sound, hvm.typed, hvm.kinded, fun n hn => ?_,
    XrefIndex.build_inverts hvm.sound.ids hvm.sound.edges hvm.kinded, hfields⟩, rfl⟩
  obtain ⟨i, hi⟩ := List.mem_iff_getElem?.mp hn
  by_cases hname : n.name = kInvalidAtom
  · exact .inl hname
  · exact .inr fun hnone => (hvm.writable.nodes i n hi).name ⟨hname, hnone⟩

end Load

/-- **The graph of a loaded container is in order**, for every byte string and with or without each
section, as long as the limits keep node ids within 32 bits. -/
theorem load_graph (growth : Growth) (ownerSlot : OwnerSlot) (options : LoadOptions) (data : Bytes)
    (lc : LoadedContainer) (hids : options.limits.IdsFit)
    (h : load growth ownerSlot options data = .ok lc) : lc.InOrder :=
  ((load_inOrder hids).1 lc h).1

/-- A kind with a required reference, a node without the reference, and a journal that links it to
itself. -/
def linkedContainer : Bytes :=
  kMagic ++ [1, 0, 0, 0, 4, 0, 0, 0] ++
    (u32 SectionTag.atom.raw ++ [0, 0, 0, 0, 80, 0, 0, 0, 3, 0, 0, 0]) ++
    (u32 SectionTag.schema.raw ++ [0, 0, 0, 0, 83, 0, 0, 0, 6, 0, 0, 0]) ++
    (u32 SectionTag.heap.raw ++ [0, 0, 0, 0, 89, 0, 0, 0, 5, 0, 0, 0]) ++
    (u32 SectionTag.journal.raw ++ [0, 0, 0, 0, 94, 0, 0, 0, 5, 0, 0, 0]) ++
    ([1, 1, 0x61] ++ [1, 0, 1, 0, 3, 1] ++ [1, 0, 0, 0, 0] ++ 1 :: (Op.linkRef 0 0 0).encode)

theorem load_graph_linked :
    ∃ lc, load Growth.doubling .cached { strictValidation := true } linkedContainer = .ok lc ∧ lc.InOrder :=
  ⟨_, rfl, load_graph Growth.doubling .cached { strictValidation := true } linkedContainer _
    idsFit_default rfl⟩

/-- **What the report of a loaded container says.** Its nodes have declared kinds and edges in the table,
which is all that some branches of the validator look for (`Node.Checked`). -/
theorem load_verdict (growth : Growth) (ownerSlot : OwnerSlot) (options : LoadOptions) (data : Bytes)
    (lc : LoadedContainer) (hids : options.limits.IdsFit)
    (h : load growth ownerSlot options data = .ok lc) :
    (∀ n ∈ lc.vm.nodes.data, n.Checked lc.vm.nodes.data lc.schema) ∧
      (lc.report.ok = true ↔
        (∀ n ∈ lc.vm.nodes.data, n.isLive = true → n.Complete lc.schema) ∧
          (options.strictValidation = true → ∀ n ∈ lc.vm.nodes.data, n.placeholder = false ∧
            (n.isLive = true → n.RefsAlive lc.vm.nodes.data))) := by
  obtain ⟨horder, hreport⟩ := (load_inOrder hids).1 lc h
  have hsize := Nat.lt_of_le_of_lt lc.vm.size_le_weight horder.sound.room
  refine ⟨horder.checked, ?_⟩
  rw [hreport]
  exact ok_validateGraph_iff hsize horder.checked options.strictValidation

theorem load_verdict_linked :
    ∃ lc, load Growth.doubling .cached { strictValidation := true } linkedContainer = .ok lc ∧
      (∀ n ∈ lc.vm.nodes.data, n.Checked lc.vm.nodes.data lc.schema) ∧
        (lc.report.ok = true ↔
          (∀ n ∈ lc.vm.nodes.data, n.isLive = true → n.Complete lc.schema) ∧
            (true = true → ∀ n ∈ lc.vm.nodes.data, n.placeholder = false ∧
              (n.isLive = true → n.RefsAlive lc.vm.nodes.data))) :=
  ⟨_, rfl, load_verdict Growth.doubling .cached { strictValidation := true } linkedContainer _
    idsFit_default rfl⟩

end Stratavm
