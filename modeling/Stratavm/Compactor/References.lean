import Stratavm.Compactor.Replay

/-!
# References in a compacted run

`Sim` does not compare references, which keep the history of a field: an overwritten value that named a
node is remembered by the run of the journal and not by that of the compacted journal. What the second run
remembers, the first remembers in the same order (`Quotes`): an opcode that both execute records the same
references, and one that only the first executes can only add to its own.

* `quotes_of_fits`: the runs of a journal and of its compacted journal, references included.
* **`compact_run`**: the compacted journal runs to the same end iff the groups fit.
-/

namespace Stratavm

open Lib

namespace ReplayVM

variable {env : Env} {a b a' b' : ReplayVM}

/-- The references of a node of the second table are among those of the node of the first. -/
def Quotes (a b : ReplayVM) : Prop :=
  ∀ (i : Nat) (n m : Node), a.nodes.data[i]? = some n → b.nodes.data[i]? = some m → m.refs.Sublist n.refs

namespace Quotes

theorem congr (h : a.Quotes b) (ha : a'.nodes.data = a.nodes.data) (hb : b'.nodes.data = b.nodes.data) :
    a'.Quotes b' := by
  unfold Quotes at h ⊢
  rwa [ha, hb]

/-- The first run goes on alone. -/
theorem later (h : a.Quotes b) (hsize : a.nodes.size = b.nodes.size) (hext : a.TableExtends a') :
    a'.Quotes b := by
  intro i n' m hn' hm
  have hlt : i < a.nodes.data.length := Nat.lt_of_lt_of_eq (List.getElem?_eq_some_iff.mp hm).1 hsize.symm
  obtain ⟨n, hn, hgrows⟩ := hext i _ (List.getElem?_eq_getElem hlt)
  obtain rfl := Option.some.inj (hn'.symm.trans hn)
  exact (h i _ m (List.getElem?_eq_getElem hlt) hm).trans hgrows.refs.sublist

/-- The same slot is changed in both tables. -/
theorem modify (h : a.Quotes b) {i : Nat} {f g : Node → Node} (ha : a'.nodes = a.nodes.modify i f)
    (hb : b'.nodes = b.nodes.modify i g)
    (hfg : ∀ n m, m.refs.Sublist n.refs → (g m).refs.Sublist (f n).refs) : a'.Quotes b' := by
  intro j n' m' hn' hm'
  rw [ha, Vec.data_modify, List.getElem?_modify] at hn'
  rw [hb, Vec.data_modify, List.getElem?_modify] at hm'
  obtain ⟨n, hn, rfl⟩ := Option.map_eq_some_iff.mp hn'
  obtain ⟨m, hm, rfl⟩ := Option.map_eq_some_iff.mp hm'
  have hnm := h j n m hn hm
  by_cases hij : i = j
  · simpa [hij] using hfg n m hnm
  · simpa [hij] using hnm

/-- A node without references is appended to both tables. -/
theorem pushBack (h : a.Quotes b) {n m : Node} (hm : m.refs = [])
    (ha : a'.nodes = a.nodes.pushBack env.growth n) (hb : b'.nodes = b.nodes.pushBack env.growth m)
    (hsize : a.nodes.size = b.nodes.size) : a'.Quotes b' := by
  intro j n' m' hn' hm'
  rw [ha, Vec.data_pushBack] at hn'
  rw [hb, Vec.data_pushBack] at hm'
  rcases Nat.lt_or_ge j b.nodes.data.length with hj | hj
  · rw [List.getElem?_append_left (Nat.lt_of_lt_of_eq hj hsize.symm)] at hn'
    rw [List.getElem?_append_left hj] at hm'
    exact h j n' m' hn' hm'
  · rw [List.getElem?_append_right hj] at hm'
    obtain rfl := List.mem_singleton.mp (List.mem_of_getElem? hm')
    rw [hm]
    exact List.nil_sublist _

/-- A child is linked in both tables. -/
theorem attach (h : a.Quotes b) (halike : a.Alike b) (slot : Nat) (target : NodeId) :
    (a.attach slot target).Quotes (b.attach slot target) := by
  have howner : a.nodes.data[slot]?.map Node.id = b.nodes.data[slot]?.map Node.id := by
    have hcore := congrArg (fun ns : List Node => ns[slot]?.map Node.id) halike.core
    simp only [List.getElem?_map, Option.map_map] at hcore
    exact hcore
  let one (vm : ReplayVM) : ReplayVM := { vm with
    nodes := vm.nodes.modify slot fun n => { n with children := n.children ++ [target] } }
  have hone : (one a).Quotes (one b) := by
    refine h.modify rfl rfl fun n m hnm => ?_
    exact hnm
  refine hone.modify rfl rfl fun n m hnm => ?_
  rw [howner]
  exact hnm.append_right _

/-- A group is closed in both tables. -/
theorem resolve {fa fb : GroupFrame} {children : List AtomId} (h : a.Quotes b) (halike : a.Alike b)
    (hslot : fa.ownerCache.slot = fa.ownerId.toNat) (hcached : env.ownerSlot = .cached)
    (hslot' : fb.ownerCache.slot = fa.ownerId.toNat)
    (hr : ReplayVM.resolve env fa children a = some a') (hquiet : a'.nodes.size = a.nodes.size)
    (hr' : ReplayVM.resolve env fb children b = some b') (hquiet' : b'.nodes.size = b.nodes.size) :
    a'.Quotes b' := by
  induction children generalizing a b with
  | nil =>
    obtain rfl := Option.some.inj hr
    obtain rfl := Option.some.inj hr'
    exact h
  | cons child children ih =>
    obtain ⟨-, slot, hs, -, hr⟩ := resolve_cons_quiet hr hquiet
    obtain ⟨-, slot', hs', -, hr'⟩ := resolve_cons_quiet hr' hquiet'
    obtain ⟨rfl, -⟩ := ownerSlot_eq hslot hs
    obtain rfl : slot' = fa.ownerId.toNat := by
      unfold ReplayVM.ownerSlot at hs'
      rw [hcached] at hs'
      obtain ⟨-, heq⟩ := Option.ite_none_right_eq_some.mp hs'
      exact (Option.some.inj heq).symm.trans hslot'
    rw [← halike.findNamed] at hr'
    refine ih (h.attach halike _ _) (halike.attach _ _) hr ?_ hr' ?_
    · rw [size_attach]
      exact hquiet
    · rw [size_attach]
      exact hquiet'

end Quotes

end ReplayVM

namespace JournalCompactor

section Step

variable {env : Env} {live : Finset NodeId} {rest : List Op} {opens : List (Bool × Nat)}
  {a a' b b' : ReplayVM} {op : Op}

/-- **An opcode that both runs execute** records the same references in both. -/
theorem Sim.quotes_kept (h : Sim env.growth live (op :: rest) opens a b) (hquotes : a.Quotes b)
    (heff : ReplayVM.Effect env a op a') (heff' : ReplayVM.Effect env b op.withoutHint b')
    (hslots : a.SlotsAgree) (hcached : env.ownerSlot = .cached)
    (hquiet : op = .endGroup → a'.nodes.size = a.nodes.size) (hsize : a'.nodes.size = b'.nodes.size)
    (hgroup : keepsGroup (opens.map Prod.fst) op rest = true) : a'.Quotes b' := by
  cases heff with
  | newNode =>
    cases heff' with
    | newNode => exact hquotes.pushBack rfl rfl rfl h.size
  | setField =>
    cases heff' with
    | setField =>
      refine hquotes.modify rfl rfl fun n m hnm => ?_
      rw [h.size]
      exact hnm.append_right _
  | beginGroup =>
    cases heff' with
    | beginGroup => exact hquotes.congr (Vec.data_reserve ..) (Vec.data_reserve ..)
  | addChild =>
    cases heff' with
    | addChild => exact hquotes
  | @endGroup frame frames _ hf hr =>
    cases heff' with
    | @endGroup fb bs _ hfb hr' =>
      obtain ⟨base, opens, rfl⟩ := h.endGroup hf
      have hchild : hasChild frame = true := hgroup
      have hframes := h.frames
      rw [hf, hfb, hchild] at hframes
      cases hframes with
      | kept hbase hchildren hcache hrest =>
        rw [hchildren] at hr'
        have hb : b'.nodes.size = b.nodes.size := by rw [← hsize, hquiet rfl, h.size]
        exact ReplayVM.Quotes.resolve (a := { a with frames }) (b := { b with frames := bs }) hquotes
          ⟨h.core, h.nameIndex, h.metaMap, h.snapshots⟩ (hslots frame (hf ▸ List.mem_cons_self)) hcached
          (congrArg Vec.Ptr.slot hcache) hr (hquiet rfl) hr' hb
  | linkRefMissing _ _ hm =>
    cases heff' with
    | linkRefMissing => exact hquotes
    | linkRef _ _ hm' => exact absurd (h.findNamed _ ▸ hm) hm'
  | @linkRef src field name node hnode ht hm =>
    cases heff' with
    | linkRefMissing _ _ hm' => exact absurd (h.findNamed name ▸ hm') hm
    | linkRef =>
      refine hquotes.modify rfl rfl fun n m hnm => ?_
      rw [h.findNamed]
      exact hnm.append_right _
  | dropDead hnode ha =>
    cases heff' with
    | dropDead => exact hquotes
    | drop hnode' ha' =>
      obtain ⟨m, hm, hcore⟩ := h.node? hnode
      obtain rfl := Option.some.inj (hnode'.symm.trans hm)
      have halive := congrArg Node.alive hcore
      exact absurd (ha.symm.trans (halive.trans ha')) Bool.false_ne_true
  | drop hnode ha =>
    cases heff' with
    | dropDead hnode' ha' =>
      obtain ⟨m, hm, hcore⟩ := h.node? hnode
      obtain rfl := Option.some.inj (hnode'.symm.trans hm)
      have halive := congrArg Node.alive hcore
      exact absurd (ha'.symm.trans (halive.symm.trans ha)) Bool.false_ne_true
    | drop => exact hquotes.modify rfl rfl fun n m hnm => hnm
  | snapshot =>
    cases heff' with
    | snapshot => exact hquotes
  | setMeta =>
    cases heff' with
    | setMeta => exact hquotes
  | nop =>
    cases heff' with
    | nop => exact hquotes

end Step

section Run

variable {env : Env} {vm : ReplayVM} {journal body r : Bytes} {count : UInt32} {ops : List Op}

/-- The number of nodes after an opcode that makes no placeholder. -/
theorem size_after {a a' : ReplayVM} {op : Op} (heff : ReplayVM.Effect env a op a')
    (hquiet : op = .endGroup → a'.nodes.size = a.nodes.size) :
    a'.tick.nodes.size = if op.code = .newNode then a.nodes.size + 1 else a.nodes.size := by
  by_cases hnew : op.code = .newNode
  · rw [if_pos hnew]
    cases heff with
    | newNode => exact ReplayVM.size_createNode
    | _ => cases hnew
  · rw [if_neg hnew]
    exact heff.size_quiet hnew hquiet

/-- **The second run** from a simulated state, references included, where the groups fit. -/
theorem quotes_of_fits {live : Finset NodeId} {b : ReplayVM} (hlimits : env.limits = {})
    (hcached : env.ownerSlot = .cached) (hquiet : Quiet env {} journal)
    (hcount : readVarintU32 journal = .ok (count, body)) (hle : count ≤ env.limits.maxJournalOps)
    (hlen : ops.length = count.toNat) (hrep : Replays env ops {} body vm r)
    (hsim : Sim env.growth live ops [] {} b) (hquotes : ({} : ReplayVM).Quotes b)
    (hfits : GroupsFit env.growth 0 [] ops) :
    ∃ b' t, Machine.Ok (runOps env (survivors live [] ops).length) b
      (((survivors live [] ops).map Op.withoutHint).flatMap Op.encode) () b' t ∧
        (∃ opens, Sim env.growth live [] opens vm b') ∧ vm.Quotes b' := by
  refine run_induction (motive := fun ops a _ => ∀ opens b, Sim env.growth live ops opens a b →
    a.Quotes b → GroupsFit env.growth a.nodes.size opens ops →
      ∃ b' t, Machine.Ok (runOps env (survivors live (opens.map Prod.fst) ops).length) b
        (((survivors live (opens.map Prod.fst) ops).map Op.withoutHint).flatMap Op.encode) () b' t ∧
          (∃ opens, Sim env.growth live [] opens vm b') ∧ vm.Quotes b')
    hcount hle (Nat.le_of_eq hlen) hrep ?_ ?_ [] b hsim hquotes hfits
  · intro opens b h hq _
    exact ⟨b, [], Machine.pure_ok.mpr ⟨rfl, rfl, rfl⟩, ⟨opens, h⟩, hq⟩
  · intro k a op a' r r1 ops hexec hread ih opens b h hq hfits
    have heff := hexec.effect
    obtain ⟨_, hbefore⟩ := hexec.before
    have hsound : a.Sound := sound_of_fresh (hlimits ▸ idsFit_default) hbefore
    have hquiet' : op = .endGroup → a'.nodes.size = a.nodes.size := by
      rintro rfl
      exact hquiet k a a' hexec
    rw [GroupsFit, ← size_after heff hquiet'] at hfits
    obtain ⟨hclose, hfits⟩ := hfits
    rw [survivors]
    cases hkeep : keepsField live op ops && keepsGroup (opens.map Prod.fst) op ops with
    | false =>
      rw [if_neg Bool.false_ne_true, ← map_fst_nextOpens a.nodes.size]
      exact ih _ _ (h.gone heff hkeep).tick.1 (hq.later h.size heff.tableExtends) hfits
    | true =>
      obtain ⟨b1, heff', hsim'⟩ := h.kept heff hsound.slots hcached hquiet' hkeep hclose
      have hq' : a'.Quotes b1 := h.quotes_kept hq heff heff' hsound.slots hcached hquiet' hsim'.size
        (Bool.and_eq_true_iff.mp hkeep).2
      have htyped : op.withoutHint.Typed (b.fieldType env) env.limits := by
        rw [← h.toAlike.fieldType env]
        exact typed_withoutHint (readOp_typed hread)
      obtain ⟨b', t, hrest, hend⟩ := ih _ _ hsim'.tick.2 hq' hfits
      rw [map_fst_nextOpens] at hrest
      rw [if_pos rfl, List.length_cons, List.map_cons, List.flatMap_cons]
      exact ⟨b', t, (runOps_encode_ok htyped).mpr ⟨b1, heff', hrest⟩, hend⟩

/-- **Compaction and replay**, references included: compacting a journal that runs succeeds, and the
compacted journal runs to the same end iff the groups fit. -/
theorem compact_run (hlimits : env.limits = {}) (hcached : env.ownerSlot = .cached)
    (hrun : Machine.Ok (run env) {} journal () vm r) (hquiet : Quiet env {} journal)
    (hover : RunsOver env {} journal ops) :
    ∃ res, compact env.schema journal = .ok res ∧
      (GroupsFit env.growth 0 [] ops → ∃ vm' r', Machine.Ok (run env) {} res.journalBytes () vm' r' ∧
        vm.Alike vm' ∧ vm.Same vm' ∧ vm.Quotes vm') ∧
      ((∃ vm' r', Machine.Ok (run env) {} res.journalBytes () vm' r' ∧ vm.Same vm') →
        GroupsFit env.growth 0 [] ops) := by
  obtain ⟨count, body, hcount, hle, hops, hclosed⟩ := run_ok_iff_runOps.mp hrun
  obtain ⟨count', body', mid, t, hcount', hlen, hrep⟩ := hover
  obtain ⟨rfl, rfl⟩ := Prod.mk.inj (Except.ok.inj (hcount.symm.trans hcount'))
  obtain ⟨-, rfl⟩ := Prod.mk.inj (hops.symm.trans (runOps_ok_iff (u := ()).mpr ⟨ops, hlen, hrep⟩))
  obtain ⟨records, st', hdec, hstack⟩ := decodes_of_run hlimits hquiet hcount hle hlen hrep hclosed
  obtain ⟨res, hres, hbytes⟩ := compact_of_decodes hcount hlen hdec hstack
  have hkept : (compacted ops).length ≤ env.limits.maxJournalOps.toNat := by
    have := length_survivors_le (liveOf ops) [] ops
    have := UInt32.le_iff_toNat_le.mp hle
    rw [compacted, List.length_map]
    omega
  have hsim : Sim env.growth (liveOf ops) ops [] {} {} :=
    ⟨⟨rfl, rfl, rfl, rfl⟩, fun _ _ _ _ => rfl, .nil, rfl, Vec.pushed_empty⟩
  have hlive := fun i n hn ha => mem_liveOf_of_alive hquiet hcount hle hlen hrep (i := i) (n := n) hn ha
  refine ⟨res, hres, fun hfits => ?_, ?_⟩
  · obtain ⟨vm', t, hrun', ⟨opens, hend⟩, hquotes⟩ := quotes_of_fits hlimits hcached hquiet hcount hle hlen
      hrep hsim (fun _ _ _ hn => by cases hn) hfits
    have hframes : vm'.frames = [] := by
      have := hend.frames.length_le
      rw [hclosed] at this
      exact List.length_eq_zero_iff.mp (Nat.le_zero.mp this)
    refine ⟨vm', t, ?_, hend.toAlike, hend.same hlive, hquotes⟩
    rw [hbytes, run_journalOf hkept, compacted, List.length_map]
    exact ⟨hrun', hframes⟩
  · rintro ⟨vm', t, hrun', hsame⟩
    rw [hbytes, run_journalOf hkept, compacted, List.length_map] at hrun'
    exact (sim_run hlimits hcached hquiet hcount hle hlen hrep hclosed hlive hsim).mp
      ⟨vm', t, hrun'.1, hrun'.2, hsame⟩

end Run

end JournalCompactor

end Stratavm
