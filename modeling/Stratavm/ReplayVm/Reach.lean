import Stratavm.ReplayVm.Integrity
import Stratavm.ReplayVm.OwnerCache

/-!
# The states of a run, in order

`Visits` says that a run passes through a state. What is proved about the order of the opcodes, or
about one of them, needs to know where: `StateAt` is the state after the first `k` opcodes, and
`Executes` is the `k`-th opcode with the states around it. `StateAt.induction` is the induction
over the states of a run.

A successful step of the `cached` machine is one of the `indexed` machine (`Effect.indexed`): a step that
is no fault has written through a pointer that was still live, to the owner's slot. So graph integrity
holds along every run whose limits keep node ids within 32 bits, however the owner's slot is found.

* `node?_of_modify`, `node?_pushBack`, `node?_target_of_some`: how each elementary change looks from a slot.
* **`sound_of_stateAt`**: every state of a run from a decoded heap is `Sound`, which is `Integrity` with the
  room that is left for ids; `sound_of_fresh` is the same without a heap.

Out of scope: runs over limits that let a table outgrow its ids (`Limits.IdsFit`).
-/

namespace Stratavm

open Lib

/-- `vm` is the state after `k` of the opcodes that `journal` announces, with `r'` left to read. -/
def StateAt (env : Env) (vm0 : ReplayVM) (journal : Bytes) (k : Nat) (vm : ReplayVM) (r' : Bytes) :
    Prop :=
  ∃ count r, readVarintU32 journal = .ok (count, r) ∧ count ≤ env.limits.maxJournalOps ∧
    k ≤ count.toNat ∧ Machine.Ok (runOps env k) vm0 r () vm r'

/-- The `k`-th opcode of the run over `journal` is `op`, executed in `vm` and leaving `vm'`. -/
def Executes (env : Env) (vm0 : ReplayVM) (journal : Bytes) (k : Nat) (vm : ReplayVM) (op : Op)
    (vm' : ReplayVM) : Prop :=
  ReplayVM.Effect env vm op vm' ∧ ∃ r r', StateAt env vm0 journal k vm r ∧
    readOp (vm.fieldType env) env.limits r = .ok (op, r') ∧
    StateAt env vm0 journal (k + 1) vm'.tick r'

section Order

variable {env : Env} {vm0 vm vm' : ReplayVM} {journal r r' : Bytes} {k : Nat} {op : Op}

theorem runOps_succ_ok {n : Nat} {u : Unit} : Machine.Ok (runOps env (n + 1)) vm r u vm' r' ↔
    ∃ vm1 r1, Machine.Ok (runOps env n) vm r () vm1 r1 ∧
      Machine.Ok (stepOp env) vm1 r1 () vm' r' := by
  induction n generalizing vm r with
  | zero =>
    simp only [runOps, Machine.bind_ok, Machine.pure_ok]
    constructor
    · rintro ⟨_, vm1, r1, hstep, -, rfl, rfl⟩
      exact ⟨vm, r, ⟨trivial, rfl, rfl⟩, hstep⟩
    · rintro ⟨vm1, r1, ⟨-, rfl, rfl⟩, hstep⟩
      exact ⟨(), vm', r', hstep, trivial, rfl, rfl⟩
  | succ n ih =>
    rw [runOps, Machine.bind_ok]
    constructor
    · rintro ⟨_, vm1, r1, hstep, hrest⟩
      obtain ⟨vm2, r2, hfirst, hlast⟩ := ih.mp hrest
      exact ⟨vm2, r2, Machine.bind_ok.mpr ⟨(), vm1, r1, hstep, hfirst⟩, hlast⟩
    · rintro ⟨vm2, r2, hfirst, hlast⟩
      obtain ⟨_, vm1, r1, hstep, hrest⟩ := Machine.bind_ok.mp hfirst
      exact ⟨(), vm1, r1, hstep, ih.mpr ⟨vm2, r2, hrest, hlast⟩⟩

/-- A loop that stops early has executed the opcodes before the one that stops it. -/
theorem runOps_stops {n : Nat} {e : Fault} (h : runOps env n vm r = (.error e, vm')) :
    ∃ k vm1 r1, k < n ∧ Machine.Ok (runOps env k) vm r () vm1 r1 ∧
      stepOp env vm1 r1 = (.error e, vm') := by
  induction n generalizing vm r with
  | zero => exact nomatch (Prod.mk.inj h).1
  | succ n ih =>
    rw [runOps, Machine.bind_apply] at h
    rcases hstep : stepOp env vm r with ⟨e' | ⟨u, r1⟩, vm1⟩
    · rw [hstep] at h
      obtain ⟨hfst, rfl⟩ := Prod.mk.inj h
      obtain rfl := Except.error.inj hfst
      exact ⟨0, vm, r, Nat.succ_pos n, Machine.pure_ok.mpr ⟨rfl, rfl, rfl⟩, hstep⟩
    · rw [hstep] at h
      obtain ⟨k, vm2, r2, hk, hrun, hstop⟩ := ih h
      exact ⟨k + 1, vm2, r2, Nat.succ_lt_succ hk, Machine.bind_ok.mpr ⟨u, vm1, r1, hstep, hrun⟩, hstop⟩

/-- Before any opcode the state is the one the run started from. -/
theorem StateAt.eq_start (h : StateAt env vm0 journal 0 vm r) : vm = vm0 := by
  obtain ⟨_, _, -, -, -, hrun⟩ := h
  exact (Machine.pure_ok.mp hrun).2.1.symm

/-- Every later state is left by an opcode. -/
theorem StateAt.exists_step (h : StateAt env vm0 journal (k + 1) vm' r') :
    ∃ vm op vm1, Executes env vm0 journal k vm op vm1 ∧ vm' = vm1.tick := by
  obtain ⟨count, r, hcount, hle, hk, hrun⟩ := h
  obtain ⟨vm, r1, hfirst, hlast⟩ := runOps_succ_ok.mp hrun
  obtain ⟨op, vm1, hread, heff, rfl⟩ := stepOp_ok_iff.mp hlast
  exact ⟨vm, op, vm1, ⟨heff, r1, r', ⟨count, r, hcount, hle, by omega, hfirst⟩, hread,
    count, r, hcount, hle, hk, hrun⟩, rfl⟩

/-- **Induction over the states of a run.** -/
theorem StateAt.induction {P : Nat → ReplayVM → Prop} (h0 : P 0 vm0)
    (hstep : ∀ {k vm op vm'}, Executes env vm0 journal k vm op vm' → P k vm → P (k + 1) vm'.tick)
    (h : StateAt env vm0 journal k vm r) : P k vm := by
  induction k generalizing vm r with
  | zero =>
    obtain rfl := h.eq_start
    exact h0
  | succ k ih =>
    obtain ⟨vm1, op, vm2, hexec, rfl⟩ := h.exists_step
    obtain ⟨-, r1, -, hbefore, -⟩ := id hexec
    exact hstep hexec (ih hbefore)

/-- There is one state after each number of opcodes. -/
theorem StateAt.unique (h : StateAt env vm0 journal k vm r) (h' : StateAt env vm0 journal k vm' r') :
    vm = vm' ∧ r = r' := by
  obtain ⟨count, r1, hcount, -, -, hrun⟩ := h
  obtain ⟨count', r2, hcount', -, -, hrun'⟩ := h'
  have hp := Except.ok.inj (hcount.symm.trans hcount')
  obtain ⟨rfl, rfl⟩ := Prod.mk.inj hp
  have heq := hrun.symm.trans hrun'
  obtain ⟨hfst, rfl⟩ := Prod.mk.inj heq
  exact ⟨rfl, (Prod.mk.inj (Except.ok.inj hfst)).2⟩

theorem Executes.effect (h : Executes env vm0 journal k vm op vm') :
    ReplayVM.Effect env vm op vm' := h.1

theorem Executes.before (h : Executes env vm0 journal k vm op vm') :
    ∃ r, StateAt env vm0 journal k vm r := by
  obtain ⟨-, r, -, h, -⟩ := h
  exact ⟨r, h⟩

theorem Executes.after (h : Executes env vm0 journal k vm op vm') :
    ∃ r, StateAt env vm0 journal (k + 1) vm'.tick r := by
  obtain ⟨-, -, r', -, -, h⟩ := h
  exact ⟨r', h⟩

/-- A run visits exactly its states. -/
theorem visits_iff : Visits env vm0 journal vm ↔ ∃ k r, StateAt env vm0 journal k vm r := by
  constructor
  · rintro ⟨count, r, k, r', hcount, hle, hk, hrun⟩
    exact ⟨k, r', count, r, hcount, hle, hk, hrun⟩
  · rintro ⟨k, r', count, r, hcount, hle, hk, hrun⟩
    exact ⟨count, r, k, r', hcount, hle, hk, hrun⟩

/-- The final state of a successful run is one of its states. -/
theorem stateAt_of_run (h : Machine.Ok (run env) vm0 journal () vm r) :
    ∃ k, StateAt env vm0 journal k vm r := by
  obtain ⟨count, r1, ops, hcount, hle, hlen, hrep, -⟩ := run_ok_iff.mp h
  exact ⟨count.toNat, count, r1, hcount, hle, Nat.le_refl _, runOps_ok_iff.mpr ⟨ops, hlen, hrep⟩⟩

/-- **Induction over what is left of a run**, from its end: with each opcode comes its place in the
run. -/
theorem run_induction {motive : List Op → ReplayVM → Bytes → Prop} {count : UInt32} {body : Bytes}
    {ops : List Op} (hcount : readVarintU32 journal = .ok (count, body))
    (hle : count ≤ env.limits.maxJournalOps) (hlen : ops.length ≤ count.toNat)
    (hrep : Replays env ops vm0 body vm' r') (hnil : motive [] vm' r')
    (hcons : ∀ {k vm op vm1 r r1 ops}, Executes env vm0 journal k vm op vm1 →
      readOp (vm.fieldType env) env.limits r = .ok (op, r1) → motive ops vm1.tick r1 →
        motive (op :: ops) vm r) : motive ops vm0 body := by
  suffices hrest : ∀ {k vm r ops}, Replays env ops vm r vm' r' → k + ops.length ≤ count.toNat →
      StateAt env vm0 journal k vm r → motive ops vm r by
    refine hrest (k := 0) hrep (by omega) ⟨count, body, hcount, hle, Nat.zero_le _, ?_⟩
    exact Machine.pure_ok.mpr ⟨rfl, rfl, rfl⟩
  clear hrep
  intro k vm r ops hrep
  induction hrep generalizing k with
  | nil => exact fun _ _ => hnil
  | @cons op ops vm r vm1 r1 _ _ hread heff _ ih =>
    intro hk hstate
    rw [List.length_cons] at hk
    have hafter : StateAt env vm0 journal (k + 1) vm1.tick r1 := by
      obtain ⟨count', body', hcount', hle', -, hrun⟩ := hstate
      obtain ⟨rfl, rfl⟩ := Prod.mk.inj (Except.ok.inj (hcount.symm.trans hcount'))
      refine ⟨count, body, hcount, hle, by omega, runOps_succ_ok.mpr ⟨vm, r, hrun, ?_⟩⟩
      exact stepOp_ok_iff.mpr ⟨op, vm1, hread, heff, rfl⟩
    exact hcons ⟨heff, r, r1, hstate, hread, hafter⟩ hread (ih hnil (by omega) hafter)

end Order

/-! ## Looking a node up after a store -/

/-- Changing an element changes no projection that the change keeps. -/
theorem map_modify_eq {α β : Type} {proj : α → β} {f : α → α} (h : ∀ x, proj (f x) = proj x)
    (xs : List α) (i : Nat) : (xs.modify i f).map proj = xs.map proj := by
  refine List.ext_getElem? fun j => ?_
  rw [List.getElem?_map, List.getElem?_map, List.getElem?_modify]
  cases xs[j]? with
  | none => rfl
  | some x => by_cases hij : i = j <;> simp [hij, h]

/-- The node with more edges. -/
def Node.gain (n : Node) (children refs : List NodeId) : Node :=
  { n with children := n.children ++ children, refs := n.refs ++ refs }

namespace ReplayVM

section Lookup

variable {env : Env} {vm vm' : ReplayVM} {i : NodeId} {n : Node}

/-- Changing the node with id `j` in place. -/
theorem node?_of_modify {j : NodeId} {f : Node → Node}
    (h : vm'.nodes = vm.nodes.modify j.toNat f) :
    vm'.node? i = (vm.node? i).map fun n => if i = j then f n else n := by
  unfold node?
  rw [h, Vec.data_modify, List.getElem?_modify]
  refine congrArg (Option.map · vm.nodes.data[i.toNat]?) (funext fun n => ?_)
  by_cases hij : i = j
  · rw [hij, if_pos rfl, if_pos rfl]
  · rw [if_neg hij, if_neg fun heq => hij (UInt32.toNat_inj.mp heq.symm)]

theorem node?_pushBack (h : vm'.nodes = vm.nodes.pushBack env.growth n) :
    vm'.node? i = if i.toNat = vm.nodes.size then some n else vm.node? i := by
  unfold node? Vec.size
  rw [h, Vec.data_pushBack]
  rcases Nat.lt_trichotomy i.toNat vm.nodes.data.length with hi | hi | hi
  · rw [List.getElem?_append_left hi, if_neg (Nat.ne_of_lt hi)]
  · rw [if_pos hi, List.getElem?_append_right (by omega), hi]
    simp
  · rw [if_neg (Nat.ne_of_gt hi), List.getElem?_eq_none (by simp; omega),
      List.getElem?_eq_none (by omega)]

/-- Appending keeps the nodes that are there. -/
theorem node?_pushBack_of_some {m : Node} (h : vm'.nodes = vm.nodes.pushBack env.growth m)
    (hi : vm.node? i = some n) : vm'.node? i = some n := by
  rw [node?_pushBack h, if_neg (Nat.ne_of_lt (lt_size_of_node? hi)), hi]

theorem node?_storeField {j : NodeId} {f : FieldId} {v : Value} :
    (vm.storeField j f v).node? i = (vm.node? i).map fun n =>
      if i = j then { n with refs := n.refs ++ outgoing vm.nodes.size v }.setField f v else n :=
  node?_of_modify rfl

theorem node?_storeRef {j : NodeId} {f : FieldId} {t : NodeId} :
    (vm.storeRef j f t).node? i = (vm.node? i).map fun n =>
      if i = j then { n.setField f (.ref t) with refs := n.refs ++ [t] } else n :=
  node?_of_modify rfl

theorem node?_drop {j : NodeId} {node : Node} :
    (vm.drop j node).node? i = (vm.node? i).map fun n =>
      if i = j then { n with alive := false, generation := n.generation + 1 } else n :=
  node?_of_modify rfl

theorem node?_target_of_some {child : AtomId} (hi : vm.node? i = some n) :
    (vm.target env child).2.node? i = some n := by
  rcases target_eq env vm child with ⟨-, heq⟩ | ⟨-, heq⟩
  · rw [heq]
    exact node?_pushBack_of_some rfl hi
  · rw [heq]
    exact hi

/-- Linking `t` under the owner `o`: the owner gains a child, the child a reference back. -/
theorem Integrity.node?_attach (h : vm.Integrity) {o t : NodeId} (ho : o.toNat < vm.nodes.size) :
    (vm.attach o.toNat t).node? i = (vm.node? i).map fun n =>
      n.gain (if i = o then [t] else []) (if i = t then [o] else []) := by
  obtain ⟨owner, howner⟩ : ∃ owner, vm.nodes.data[o.toNat]? = some owner :=
    ⟨_, List.getElem?_eq_getElem ho⟩
  have hid : owner.id = o := UInt32.toNat_inj.mp (h.ids _ _ howner)
  let mid : ReplayVM := { vm with
    nodes := vm.nodes.modify o.toNat fun n => { n with children := n.children ++ [t] } }
  have hmid : mid.node? i = (vm.node? i).map fun n =>
      if i = o then { n with children := n.children ++ [t] } else n := node?_of_modify rfl
  have hlast : (vm.attach o.toNat t).node? i = (mid.node? i).map fun n =>
      if i = t then { n with refs := n.refs ++ [o] } else n := by
    have hnodes : (vm.attach o.toNat t).nodes =
        mid.nodes.modify t.toNat fun n => { n with refs := n.refs ++ [o] } := by
      simp only [ReplayVM.attach, howner, Option.map_some, Option.getD_some, hid, mid]
    exact node?_of_modify hnodes
  rw [hlast, hmid, Option.map_map]
  refine congrArg (Option.map · (vm.node? i)) (funext fun n => ?_)
  by_cases h1 : i = o <;> by_cases h2 : i = t
  · simp only [Function.comp, Node.gain, if_pos h1, if_pos h2]
  · simp only [Function.comp, Node.gain, if_pos h1, if_neg h2, List.append_nil]
  · simp only [Function.comp, Node.gain, if_neg h1, if_pos h2, List.append_nil]
  · simp only [Function.comp, Node.gain, if_neg h1, if_neg h2, List.append_nil]

/-- What a child's name finds or makes is an alive node. -/
theorem Integrity.alive_target (h : vm.Integrity) (hsize : vm.nodes.size < 2 ^ 32)
    (child : AtomId) : ∃ n, (vm.target env child).2.node? (vm.target env child).1 = some n ∧
      n.alive = true := by
  rcases target_eq env vm child with ⟨-, heq⟩ | ⟨hf, heq⟩
  · rw [heq]
    refine ⟨_, (node?_pushBack rfl).trans (if_pos ?_), rfl⟩
    rw [materializePlaceholder, toNat_ofNat_of_lt hsize]
  · rw [heq]
    obtain ⟨-, n, hn, -, halive⟩ := h.index _ _ (lookup_of_findNamed hf)
    exact ⟨n, hn, halive⟩

/-- Linking a child leaves a node where it is and adds to its edges. -/
theorem Integrity.node?_link (h : vm.Integrity) (hsize : vm.nodes.size < 2 ^ 32) {child : AtomId}
    {o : NodeId} (ho : o.toNat < (vm.target env child).2.nodes.size) (hi : vm.node? i = some n) :
    ((vm.target env child).2.attach o.toNat (vm.target env child).1).node? i =
      some (n.gain (if i = o then [(vm.target env child).1] else [])
        (if i = (vm.target env child).1 then [o] else [])) := by
  rw [(h.target hsize child).node?_attach ho, node?_target_of_some hi, Option.map_some]

end Lookup

end ReplayVM

/-! ## Either way of finding the owner's slot -/

namespace ReplayVM

/-- The cached slot of an open frame is that of its owner's id. -/
def SlotsAgree (vm : ReplayVM) : Prop := ∀ f ∈ vm.frames, f.ownerCache.slot = f.ownerId.toNat

variable {env : Env} {vm vm' : ReplayVM} {op : Op}

/-- Either way of finding the owner's slot finds one in the table. -/
theorem lt_of_ownerSlot {frame : GroupFrame} {slot : Nat} (h : vm.ownerSlot env frame = some slot) :
    slot < vm.nodes.size := by
  unfold ownerSlot at h
  split at h
  · split at h
    · rename_i hlive
      obtain rfl := Option.some.inj h
      exact (Vec.live_iff.mp hlive).2
    · cases h
  · split at h
    · rename_i hlt
      obtain rfl := Option.some.inj h
      exact hlt
    · cases h

/-- The slot that is written is the owner's. -/
theorem ownerSlot_eq {frame : GroupFrame} (hframe : frame.ownerCache.slot = frame.ownerId.toNat)
    {slot : Nat} (h : vm.ownerSlot env frame = some slot) :
    slot = frame.ownerId.toNat ∧ slot < vm.nodes.size := by
  refine ⟨?_, lt_of_ownerSlot h⟩
  unfold ownerSlot at h
  split at h
  · split at h
    · exact (Option.some.inj h).symm.trans hframe
    · cases h
  · split at h
    · exact (Option.some.inj h).symm
    · cases h

theorem resolve_indexed {frame : GroupFrame} {children : List AtomId}
    (hframe : frame.ownerCache.slot = frame.ownerId.toNat)
    (h : resolve env frame children vm = some vm') :
    resolve (env.withSlot .indexed) frame children vm = some vm' := by
  induction children generalizing vm with
  | nil => exact h
  | cons child children ih =>
    obtain ⟨slot, hs, htarget, h⟩ := resolve_cons h
    obtain ⟨rfl, hlt⟩ := ownerSlot_eq hframe hs
    have htgt : vm.target (env.withSlot .indexed) child = vm.target env child := rfl
    have hslot : (vm.target env child).2.ownerSlot (env.withSlot .indexed) frame =
        some frame.ownerId.toNat := if_pos hlt
    rw [resolve, htgt, hslot]
    simp only [htarget, if_true]
    exact ih h

/-- **A step of either machine is one of the indexed machine.** -/
theorem Effect.indexed (hslots : vm.SlotsAgree) (h : Effect env vm op vm') :
    Effect (env.withSlot .indexed) vm op vm' := by
  cases h with
  | endGroup hf hr =>
    exact .endGroup hf (resolve_indexed (hslots _ (by rw [hf]; exact List.mem_cons_self)) hr)
  | newNode hk hn hsize => exact .newNode hk hn hsize
  | setField hnode hv ht ha => exact .setField hnode hv ht ha
  | beginGroup hd ho ha => exact .beginGroup hd ho ha
  | addChild hf hn => exact .addChild hf hn
  | linkRefMissing hnode ht hm => exact .linkRefMissing hnode ht hm
  | linkRef hnode ht hm => exact .linkRef hnode ht hm
  | dropDead hnode ha => exact .dropDead hnode ha
  | drop hnode ha => exact .drop hnode ha
  | snapshot hn => exact .snapshot hn
  | setMeta hk hn => exact .setMeta hk hn
  | nop => exact .nop

/-- **Induction over the children a frame links**, with integrity on the way. -/
theorem Integrity.resolve_induction {P : ReplayVM → Prop} {frame : GroupFrame}
    {children : List AtomId} (hframe : frame.ownerCache.slot = frame.ownerId.toNat)
    (h0 : vm.Integrity) (hsize : vm.nodes.size + children.length < 2 ^ 32)
    (hstep : ∀ {vm : ReplayVM} {child : AtomId}, vm.Integrity → vm.nodes.size + 1 < 2 ^ 32 →
      frame.ownerId.toNat < (vm.target env child).2.nodes.size → P vm →
        P ((vm.target env child).2.attach frame.ownerId.toNat (vm.target env child).1))
    (hP : P vm) (h : resolve env frame children vm = some vm') : P vm' := by
  induction children generalizing vm with
  | nil =>
    obtain rfl := Option.some.inj h
    exact hP
  | cons child children ih =>
    obtain ⟨slot, hs, ht, h⟩ := resolve_cons h
    obtain ⟨rfl, hlt⟩ := ownerSlot_eq hframe hs
    rw [List.length_cons] at hsize
    have hle := size_target_le env vm child
    refine ih ((h0.target (by omega) child).attach hlt ht) (by rw [size_attach]; omega) ?_ h
    exact hstep h0 (by omega) hlt hP

theorem Effect.slotsAgree (h0 : vm.SlotsAgree) (h : Effect env vm op vm') : vm'.SlotsAgree := by
  cases h with
  | beginGroup =>
    intro f hf
    rcases List.mem_cons.mp hf with rfl | hf
    · rfl
    · exact h0 f hf
  | endGroup hf hr =>
    intro f hmem
    rw [(resolve_size hr).1] at hmem
    exact h0 f (hf ▸ List.mem_cons_of_mem _ hmem)
  | @addChild _ frame _ hf _ =>
    intro f hmem
    rcases List.mem_cons.mp hmem with rfl | hmem
    · exact h0 frame (by rw [hf]; exact List.mem_cons_self)
    · exact h0 f (hf ▸ List.mem_cons_of_mem _ hmem)
  | _ => exact h0

end ReplayVM

/-! ## Integrity along a run -/

/-- A run under these limits never outgrows 32-bit node ids. -/
def Limits.IdsFit (limits : Limits) : Prop :=
  limits.maxNodes.toNat + limits.maxJournalOps.toNat < 2 ^ 32

instance (limits : Limits) : Decidable limits.IdsFit := inferInstanceAs (Decidable (_ < _))

/-- The default limits do so. -/
theorem idsFit_default : ({} : Limits).IdsFit := by decide

/-- What every state of a run from a decoded heap keeps. -/
structure ReplayVM.Sound (vm : ReplayVM) : Prop extends ReplayVM.Integrity vm where
  slots : vm.SlotsAgree
  /-- There is an id for every node that the open groups can still append. -/
  room : vm.weight < 2 ^ 32

/-- **Every opcode keeps a state sound**, while there are ids left. -/
theorem ReplayVM.Effect.sound {env : Env} {vm vm' : ReplayVM} {op : Op} (h0 : vm.Sound)
    (hroom : vm.weight + 1 < 2 ^ 32) (h : Effect env vm op vm') : vm'.tick.Sound := by
  have hindexed : (env.withSlot .indexed).ownerSlot = .indexed := rfl
  have hint : vm'.Integrity := (h.indexed h0.slots).integrity hindexed h0.toIntegrity (by omega)
  have hslots : vm'.SlotsAgree := h.slotsAgree h0.slots
  have hweight : vm'.tick.weight ≤ vm.weight + 1 := h.weight_le
  exact ⟨hint.congr rfl rfl hint.frames, hslots, by omega⟩

/-- A decoded heap is sound. -/
theorem ReplayVM.sound_seed {env : Env} (hids : env.limits.IdsFit) {bytes rest : Bytes}
    {heap : HeapImage}
    (hheap : decodeHeap env.growth env.schema env.atoms env.limits bytes = .ok (heap, rest)) :
    (ReplayVM.seed {} heap).Sound := by
  have hsize : (ReplayVM.seed {} heap).weight ≤ env.limits.maxNodes.toNat := (decodeHeap_spec hheap).1
  unfold Limits.IdsFit at hids
  exact ⟨ReplayVM.integrity_seed hheap, fun f hf => absurd hf List.not_mem_nil, by omega⟩

/-- A sound state and the number of opcodes since the heap bound the state after. -/
theorem sound_of_stateAt_weight {env : Env} (hids : env.limits.IdsFit) {bytes rest : Bytes}
    {heap : HeapImage}
    (hheap : decodeHeap env.growth env.schema env.atoms env.limits bytes = .ok (heap, rest))
    {journal : Bytes} {k : Nat} {vm : ReplayVM} {r : Bytes}
    (h : StateAt env (ReplayVM.seed {} heap) journal k vm r) :
    vm.Sound ∧ vm.weight ≤ env.limits.maxNodes.toNat + k := by
  have hk : k ≤ env.limits.maxJournalOps.toNat := by
    obtain ⟨count, _, -, hle, hk, -⟩ := h
    exact Nat.le_trans hk (UInt32.le_iff_toNat_le.mp hle)
  have hfit := hids
  unfold Limits.IdsFit at hfit
  refine h.induction (P := fun k vm => k ≤ env.limits.maxJournalOps.toNat →
    vm.Sound ∧ vm.weight ≤ env.limits.maxNodes.toNat + k) ?_ ?_ hk
  · exact fun _ => ⟨ReplayVM.sound_seed hids hheap, (decodeHeap_spec hheap).1⟩
  · intro k vm op vm' hexec ih hk
    obtain ⟨hsound, hweight⟩ := ih (by omega)
    have hle : vm'.tick.weight ≤ vm.weight + 1 := hexec.effect.weight_le
    exact ⟨hexec.effect.sound hsound (by omega), by omega⟩

/-- **Graph integrity along a run**, for both machines. -/
theorem sound_of_stateAt {env : Env} (hids : env.limits.IdsFit) {bytes rest : Bytes}
    {heap : HeapImage}
    (hheap : decodeHeap env.growth env.schema env.atoms env.limits bytes = .ok (heap, rest))
    {journal : Bytes} {k : Nat} {vm : ReplayVM} {r : Bytes}
    (h : StateAt env (ReplayVM.seed {} heap) journal k vm r) : vm.Sound :=
  (sound_of_stateAt_weight hids hheap h).1

/-- So it is along a run from a VM that is not seeded. -/
theorem sound_of_fresh {env : Env} (hids : env.limits.IdsFit) {journal : Bytes} {k : Nat}
    {vm : ReplayVM} {r : Bytes} (h : StateAt env {} journal k vm r) : vm.Sound := by
  have hheap : decodeHeap env.growth env.schema env.atoms env.limits [0] =
      .ok (⟨Vec.empty⟩, []) := rfl
  exact sound_of_stateAt hids hheap h

end Stratavm
