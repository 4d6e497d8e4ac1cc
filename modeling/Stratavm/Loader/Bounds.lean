import Stratavm.Loader.Cut
import Stratavm.Loader.Safe
import Stratavm.ReplayVm.Accounts

/-!
# What a container can hold

Every count that a container announces is checked against a limit before anything is built, and every
opcode adds a bounded amount. So the limits and the number of opcodes bound all that `load` builds,
whatever the bytes say, by a step lemma for one opcode (`Effect.bounded`) and an induction over the run.

`ReplayVM.Bounded` counts what is still to come with what is there: a queued child can become a
placeholder and an edge at the `END_GROUP`, so it is paid for when it is queued (`weight`, `linkable`). The
tables apart from the VM are bounded by the postconditions of their decoders.

* `bounded_of_stateAt`: every state of a run.
* **`load_bounded`**: the tables of a loaded container are within the limits they were read under.

Out of scope: capacity. A `BEGIN_GROUP` reserves what its hint says, and no limit bounds the hint; how many
fields a node has follows from its kind, where it is typed (`ReplayVm/Typing.lean`).
-/

namespace Stratavm

open Lib Lib.Decoder

/-! ## The state after `k` opcodes -/

/-- An entry more is at most one key more. -/
theorem card_keys_insert_le {K V : Type} [DecidableEq K] (m : UMap K V) (k : K) (v : V) :
    (m.insert k v).keys.card ≤ m.keys.card + 1 := by
  have hsub : (m.insert k v).keys ⊆ insert k m.keys := by
    intro a ha
    rw [Finmap.mem_keys, Finmap.mem_insert] at ha
    rwa [Finset.mem_insert, Finmap.mem_keys]
  exact Nat.le_trans (Finset.card_le_card hsub) (Finset.card_insert_le k m.keys)

/-- What `k` opcodes can have built from a heap within the limits. -/
structure ReplayVM.Bounded (limits : Limits) (k : Nat) (vm : ReplayVM) : Prop where
  /-- The nodes, and the placeholders that queued children can still make. -/
  weight : vm.weight ≤ limits.maxNodes.toNat + k
  /-- The children, linked and queued. -/
  linkable : vm.linkable ≤ k
  snapshots : vm.snapshots.length ≤ k
  metaMap : vm.metaMap.keys.card ≤ k
  depth : vm.frames.length ≤ limits.maxGroupDepth.toNat
  values : ∀ (i : Nat) (n : Node), vm.nodes.data[i]? = some n → ∀ f (v : Value), n.field f = some v →
    v.Fits limits

namespace ReplayVM

variable {env : Env} {vm vm' : ReplayVM} {op : Op} {k : Nat}

theorem Bounded.mono {limits : Limits} {k' : Nat} (h : vm.Bounded limits k) (hk : k ≤ k') :
    vm.Bounded limits k' :=
  { h with
    weight := Nat.le_trans h.weight (Nat.add_le_add_left hk _)
    linkable := Nat.le_trans h.linkable hk
    snapshots := Nat.le_trans h.snapshots hk
    metaMap := Nat.le_trans h.metaMap hk }

/-- Resolving a frame writes no META. -/
theorem resolve_metaMap {frame : GroupFrame} {children : List AtomId}
    (h : resolve env frame children vm = some vm') : vm'.metaMap = vm.metaMap := by
  refine resolve_induction (P := fun mid => mid.metaMap = vm.metaMap) h rfl
    fun mid child slot _ _ hmid => ?_
  rcases target_eq env mid child with ⟨-, heq⟩ | ⟨-, heq⟩ <;> rw [heq] <;> exact hmid

theorem Effect.card_metaMap_le (h : Effect env vm op vm') :
    vm'.metaMap.keys.card ≤ vm.metaMap.keys.card + 1 := by
  cases h with
  | endGroup _ hr =>
    rw [resolve_metaMap hr]
    exact Nat.le_succ _
  | setMeta => exact card_keys_insert_le ..
  | _ => exact Nat.le_succ _

theorem Effect.depth_le (h : Effect env vm op vm')
    (h0 : vm.frames.length ≤ env.limits.maxGroupDepth.toNat) :
    vm'.frames.length ≤ env.limits.maxGroupDepth.toNat := by
  cases h with
  | beginGroup hd => exact hd
  | endGroup hf hr =>
    rw [(resolve_size hr).1]
    rw [hf] at h0
    exact Nat.le_of_succ_le h0
  | addChild hf =>
    rw [hf] at h0
    exact h0
  | _ => exact h0

/-- What an opcode writes fits, if its operand does. -/
theorem written_fits {limits : Limits} (htyped : op.Typed (vm.fieldType env) limits) {i : Nat}
    {f : FieldId} {v : Value} (hw : op.written vm i f = some v) : v.Fits limits := by
  cases op with
  | setField node field value =>
    obtain ⟨-, ⟨⟩⟩ := Option.ite_none_right_eq_some.mp hw
    exact htyped.2
  | linkRef src field target =>
    obtain ⟨-, ⟨⟩⟩ := Option.ite_none_right_eq_some.mp hw
    exact ⟨nofun, Nat.zero_le _⟩
  | newNode | beginGroup | addChild | endGroup | dropNode | snapshot | setMeta | nop => cases hw

/-- **An opcode adds a bounded amount.** -/
theorem Effect.bounded (h : Effect env vm op vm') (htyped : op.Typed (vm.fieldType env) env.limits)
    (h0 : vm.Bounded env.limits k) : vm'.tick.Bounded env.limits (k + 1) where
  weight := by
    have hle : vm'.tick.weight ≤ vm.weight + 1 := h.weight_le
    have := h0.weight
    omega
  linkable := by
    have hle : vm'.tick.linkable ≤ vm.linkable + 1 := h.linkable_le
    have := h0.linkable
    omega
  snapshots := Nat.le_trans h.length_snapshots_le (Nat.succ_le_succ h0.snapshots)
  metaMap := Nat.le_trans h.card_metaMap_le (Nat.succ_le_succ h0.metaMap)
  depth := h.depth_le h0.depth
  values := by
    intro i n hn f v hv
    have hslot := h.slot i
    rw [show vm'.nodes.data[i]? = some n from hn] at hslot
    cases hi : vm.nodes.data[i]? with
    | none =>
      rw [hi] at hslot
      rw [Node.field, hslot n rfl, Finmap.lookup_empty] at hv
      cases hv
    | some m =>
      rw [hi] at hslot
      obtain ⟨n', hn', hstep⟩ := hslot
      obtain rfl := Option.some.inj hn'
      rw [hstep.field f] at hv
      cases hw : op.written vm i f with
      | none =>
        rw [hw, Option.none_or] at hv
        exact h0.values i m hi f v hv
      | some w =>
        rw [hw, Option.some_or] at hv
        obtain rfl := Option.some.inj hv
        exact written_fits htyped hw

end ReplayVM

section Runs

variable {env : Env} {vm0 vm : ReplayVM} {journal r : Bytes} {k : Nat}

/-- **Every state of a run is bounded** by the limits and the opcodes executed. -/
theorem bounded_of_stateAt (h0 : vm0.Bounded env.limits 0) (h : StateAt env vm0 journal k vm r) :
    vm.Bounded env.limits k := by
  refine h.induction (P := fun k vm => vm.Bounded env.limits k) h0 fun {k vm op vm'} hexec ih => ?_
  obtain ⟨heff, r1, r2, -, hread, -⟩ := hexec
  exact heff.bounded (readOp_typed hread) ih

/-- A decoded heap is within the limits. -/
theorem bounded_seed {g : Growth} {schema : Schema} {atoms : AtomPool} {limits : Limits} {r r' : Bytes}
    {heap : HeapImage} (h : decodeHeap g schema atoms limits r = .ok (heap, r')) :
    (ReplayVM.seed {} heap).Bounded limits 0 where
  weight := (decodeHeap_spec h).1
  linkable := (ReplayVM.total_links_seed h).le
  snapshots := Nat.le_refl 0
  metaMap := Nat.le_refl 0
  depth := Nat.zero_le _
  values := decodeHeap_fits h

theorem bounded_empty (limits : Limits) : ({} : ReplayVM).Bounded limits 0 where
  weight := Nat.zero_le _
  linkable := Nat.le_refl 0
  snapshots := Nat.le_refl 0
  metaMap := Nat.le_refl 0
  depth := Nat.zero_le _
  values := fun i n hn => by simp [Vec.empty] at hn

end Runs

/-! ## The other tables -/

section Tables

variable {limits : Limits} {r r' : Bytes}

/-- The atoms within the limits. -/
def AtomPool.Within (limits : Limits) (p : AtomPool) : Prop :=
  ∀ s ∈ p.atoms, s.length ≤ limits.maxAtomLen.toNat

theorem AtomPool.decodeAtoms_bounded {n i : Nat} {p p' : AtomPool} {u : Unit}
    (h : Machine.Ok (AtomPool.decodeAtoms limits n i) p r u p' r') (h0 : p.Within limits) :
    p'.atoms.length = p.atoms.length + n ∧ p'.Within limits := by
  induction n generalizing i p r with
  | zero =>
    obtain ⟨-, rfl, -⟩ := Machine.pure_ok.mp h
    exact ⟨rfl, h0⟩
  | succ n ih =>
    obtain ⟨s, r1, hs, h⟩ := Machine.bind_read_ok.mp h
    rw [Machine.bind_get_ok] at h
    have hnext : ∀ t ∈ p.atoms ++ [s], t.length ≤ limits.maxAtomLen.toNat := by
      intro t ht
      rcases List.mem_append.mp ht with ht | ht
      · exact h0 t ht
      · obtain rfl := List.mem_singleton.mp ht
        exact length_readLpString_le hs
    obtain ⟨hlen, hwithin⟩ := ih (Machine.bind_set_ok.mp h) hnext
    refine ⟨?_, hwithin⟩
    rw [hlen, List.length_append, List.length_singleton]
    omega

theorem AtomPool.decode_bounded {p p' : AtomPool} {u : Unit}
    (h : Machine.Ok (AtomPool.decode limits) p r u p' r') :
    p'.atoms.length ≤ limits.maxAtoms.toNat ∧ p'.Within limits := by
  obtain ⟨count, r1, -, h⟩ := Machine.bind_read_ok.mp h
  split at h
  · exact absurd h Machine.not_fail_ok
  rename_i hle
  obtain ⟨hlen, hwithin⟩ := AtomPool.decodeAtoms_bounded (Machine.bind_set_ok.mp h)
    fun _ hs => absurd hs List.not_mem_nil
  rw [List.length_nil, Nat.zero_add] at hlen
  exact ⟨hlen.le.trans (UInt32.le_iff_toNat_le.mp (UInt32.not_lt.mp hle)), hwithin⟩

theorem Schema.decode_bounded {atoms : AtomPool} {s : Schema}
    (h : Schema.decode atoms limits r = .ok (s, r')) : s.kinds.length ≤ limits.maxKinds.toNat ∧
      ∀ k ∈ s.kinds, k.fields.length ≤ limits.maxFieldsPerKind.toNat := by
  obtain ⟨count, r1, -, h⟩ := bind_eq_ok.mp h
  split at h
  · exact absurd h fail_ne_ok
  rename_i hle
  obtain ⟨kinds, r2, hk, h⟩ := bind_eq_ok.mp h
  obtain ⟨rfl, -⟩ := pure_eq_ok.mp h
  have hkind : ∀ (k : Nat) (a : KindDef) (s s' : Bytes), Schema.decodeKind atoms limits s = .ok (a, s') →
      a.fields.length ≤ limits.maxFieldsPerKind.toNat := by
    intro _ a s s' ha
    obtain ⟨name, s1, -, ha⟩ := bind_eq_ok.mp ha
    split at ha
    · exact absurd ha fail_ne_ok
    obtain ⟨fieldCount, s2, -, ha⟩ := bind_eq_ok.mp ha
    split at ha
    · exact absurd ha fail_ne_ok
    rename_i hfields
    obtain ⟨fields, s3, hf, ha⟩ := bind_eq_ok.mp ha
    obtain ⟨rfl, -⟩ := pure_eq_ok.mp ha
    rw [(listFrom_forall (P := fun _ => True) (fun _ _ _ _ _ => trivial) hf).1]
    exact UInt32.le_iff_toNat_le.mp (UInt32.not_lt.mp hfields)
  obtain ⟨hlen, hall⟩ := listFrom_forall hkind hk
  exact ⟨hlen.le.trans (UInt32.le_iff_toNat_le.mp (UInt32.not_lt.mp hle)), hall⟩

/-- Reconciling counts each entry once at most. -/
theorem XrefIndex.warnings_le {index : XrefIndex} {atoms : AtomPool} {nodeCount : Nat}
    {warnings : UInt32} (h : index.decodeAndReconcile atoms limits nodeCount r = .ok (warnings, r')) :
    warnings.toNat ≤ limits.maxNodes.toNat := by
  obtain ⟨count, r1, -, h⟩ := bind_eq_ok.mp h
  split at h
  · exact absurd h fail_ne_ok
  rename_i hle
  have hcount : count.toNat ≤ limits.maxNodes.toNat :=
    UInt32.le_iff_toNat_le.mp (UInt32.not_lt.mp hle)
  have hinv := loop_invariant (fun k (w : UInt32) => w.toNat ≤ k) ?_ (Nat.le_refl 0) h
  · omega
  · intro i w w' s s' hw hbody
    obtain ⟨e, s1, -, hbody⟩ := bind_eq_ok.mp hbody
    split at hbody
    · exact absurd hbody fail_ne_ok
    split at hbody
    · exact absurd hbody fail_ne_ok
    obtain ⟨rfl, -⟩ := pure_eq_ok.mp hbody
    split
    · rw [UInt32.toNat_add]
      exact Nat.le_trans (Nat.mod_le _ _) (Nat.succ_le_succ hw)
    · exact Nat.le_succ_of_le hw

theorem card_decodeMetaPairs_le {atoms : AtomPool} {n : Nat} {m m' : UMap AtomId AtomId} {u : Unit}
    (h : Machine.Ok (decodeMetaPairs atoms n) m r u m' r') : m'.keys.card ≤ m.keys.card + n := by
  induction n generalizing m r with
  | zero =>
    obtain ⟨-, rfl, -⟩ := Machine.pure_ok.mp h
    exact Nat.le_refl _
  | succ n ih =>
    obtain ⟨e, r1, -, h⟩ := Machine.bind_read_ok.mp h
    split at h
    · exact absurd h Machine.not_fail_ok
    split at h
    · exact absurd h Machine.not_fail_ok
    have hle := ih (Machine.bind_modify_ok.mp h)
    have := card_keys_insert_le m e.1 e.2
    omega

theorem card_decodeMetaSection_le {atoms : AtomPool} {m' : UMap AtomId AtomId} {u : Unit}
    (h : Machine.Ok (decodeMetaSection atoms limits) ∅ r u m' r') :
    m'.keys.card ≤ limits.maxAtoms.toNat := by
  obtain ⟨count, r1, -, h⟩ := Machine.bind_read_ok.mp h
  split at h
  · exact absurd h Machine.not_fail_ok
  rename_i hle
  have hcard := card_decodeMetaPairs_le h
  rw [Finmap.keys_empty, Finset.card_empty, Nat.zero_add] at hcard
  exact hcard.trans (UInt32.le_iff_toNat_le.mp (UInt32.not_lt.mp hle))

end Tables

/-! ## The container -/

/-- The tables of a container are within the limits. The journal can add a node, a child, a snapshot or
a META entry with each opcode. -/
structure LoadedContainer.Bounded (limits : Limits) (lc : LoadedContainer) : Prop where
  sections : lc.sections.entries.length ≤ limits.maxSections.toNat
  atoms : lc.atoms.atoms.length ≤ limits.maxAtoms.toNat
  atomLen : lc.atoms.Within limits
  kinds : lc.schema.kinds.length ≤ limits.maxKinds.toNat
  fields : ∀ k ∈ lc.schema.kinds, k.fields.length ≤ limits.maxFieldsPerKind.toNat
  vm : lc.vm.Bounded limits limits.maxJournalOps.toNat
  closed : lc.vm.frames = []
  xrefWarnings : lc.xrefWarnings.toNat ≤ limits.maxNodes.toNat
  sectionMeta : lc.sectionMeta.keys.card ≤ limits.maxAtoms.toNat

theorem replayJournal_bounded {options : LoadOptions} {data : Bytes} {env : Env}
    (sections : SectionTable) {seeded : ReplayVM} (hin : seeded.InTable)
    (h0 : seeded.Bounded env.limits 0) (hclosed : seeded.frames = []) :
    Returns (replayJournal options data env sections seeded) (fun p =>
      p.1.Bounded env.limits env.limits.maxJournalOps.toNat ∧ p.1.frames = [])
      (Fault.Safe env.ownerSlot) := by
  unfold replayJournal
  split
  · refine withSection_safe ⟨h0.mono (Nat.zero_le _), hclosed⟩ fun r => ?_
    cases hfin : Machine.finalState (run env) seeded r with
    | error e => exact .error ((run_safe.finalState hin r).2 e hfin)
    | ok vm =>
      obtain ⟨_, r', hrun⟩ := Machine.finalState_eq_ok.mp hfin
      obtain ⟨count, r1, ops, hcount, hle, hlen, hrep, hframes⟩ := run_ok_iff.mp hrun
      have hstate : StateAt env seeded r count.toNat vm r' :=
        ⟨count, r1, hcount, hle, Nat.le_refl _, runOps_ok_iff.mpr ⟨ops, hlen, hrep⟩⟩
      exact .ok ⟨(bounded_of_stateAt h0 hstate).mono (UInt32.le_iff_toNat_le.mp hle), hframes⟩
  · exact .ok ⟨h0.mono (Nat.zero_le _), hclosed⟩

/-- **What a container can hold**: the tables of a loaded container are within the limits it was loaded
under, for every byte string. -/
theorem load_bounded (growth : Growth) (ownerSlot : OwnerSlot) (options : LoadOptions) (data : Bytes)
    (lc : LoadedContainer) (h : load growth ownerSlot options data = .ok lc) :
    lc.Bounded options.limits := by
  suffices hload : Returns (load growth ownerSlot options data) (·.Bounded options.limits)
      (Fault.Safe ownerSlot) from hload.1 lc h
  refine (orStatus_safe _).bind fun sections hsections => ?_
  obtain ⟨_, _, hsections⟩ := Machine.finalState_eq_ok.mp hsections
  refine (withSection_safe (V := fun atoms : AtomPool =>
    atoms.atoms.length ≤ options.limits.maxAtoms.toNat ∧ atoms.Within options.limits) ?_ fun r => ?_).bind
    fun atoms hatoms => ?_
  · exact ⟨Nat.zero_le _, fun _ hs => absurd hs List.not_mem_nil⟩
  · refine (orStatus_safe _).mono fun p hp => ?_
    obtain ⟨_, _, hp⟩ := Machine.finalState_eq_ok.mp hp
    exact AtomPool.decode_bounded hp
  refine (withSection_safe (V := fun schema : Schema =>
    schema.kinds.length ≤ options.limits.maxKinds.toNat ∧ ∀ k ∈ schema.kinds,
      k.fields.length ≤ options.limits.maxFieldsPerKind.toNat) ?_ fun r => ?_).bind fun schema hschema => ?_
  · exact ⟨Nat.zero_le _, fun _ hk => absurd hk List.not_mem_nil⟩
  · refine (orStatus_safe _).mono fun s hs => ?_
    obtain ⟨p, hp, rfl⟩ := exists_of_map_eq_ok hs
    exact Schema.decode_bounded hp
  refine (withSection_safe (V := fun seeded : ReplayVM => seeded.InTable ∧
    seeded.Bounded options.limits 0 ∧ seeded.frames = []) ?_ fun r => ?_).bind fun seeded hseeded => ?_
  · exact ⟨inTable_empty, bounded_empty _, rfl⟩
  · refine (orStatus_safe _).mono fun vm hvm => ?_
    obtain ⟨p, hp, rfl⟩ := exists_of_map_eq_ok hvm
    exact ⟨inTable_seed hp, bounded_seed hp, rfl⟩
  obtain ⟨hin, h0, hclosed⟩ := hseeded
  refine (replayJournal_bounded sections hin h0 hclosed).bind fun (vm, journalRan) hvm => ?_
  refine (withSection_safe (V := fun w : UInt32 => w.toNat ≤ options.limits.maxNodes.toNat)
    (Nat.zero_le _) fun r => ?_).bind fun xrefWarnings hwarnings => ?_
  · refine (orStatus_safe _).mono fun w hw => ?_
    obtain ⟨p, hp, rfl⟩ := exists_of_map_eq_ok hw
    exact XrefIndex.warnings_le hp
  refine (withSection_safe (V := fun m : UMap AtomId AtomId =>
    m.keys.card ≤ options.limits.maxAtoms.toNat) (Nat.zero_le _) fun r => ?_).bind
    fun sectionMeta hmeta => ?_
  · refine (orStatus_safe _).mono fun m hm => ?_
    obtain ⟨_, _, hm⟩ := Machine.finalState_eq_ok.mp hm
    exact card_decodeMetaSection_le hm
  exact .ok ⟨(SectionTable.decode_length hsections).2, hatoms.1, hatoms.2, hschema.1, hschema.2, hvm.1,
    hvm.2, hwarnings, hmeta⟩

theorem load_bounded_emptyPool : ∃ lc, load Growth.doubling .cached {} (emptyPool []) = .ok lc ∧
    lc.Bounded {} :=
  ⟨_, rfl, load_bounded Growth.doubling .cached {} (emptyPool []) _ rfl⟩

end Stratavm
