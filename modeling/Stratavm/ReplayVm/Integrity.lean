import Stratavm.ReplayVm.Exec
import Stratavm.Validator

/-!
# Graph integrity

What every state of a run keeps of the node table, the name index and the open groups:
`Integrity`. It is preserved by each elementary change (`GraphOk.push` for an append,
`GraphOk.update` for a change of existing nodes), hence by each effect, hence along a run.

The ids of appended nodes are truncated to 32 bits, so the invariant needs the table to stay
small. An opcode appends nothing, one node, or at `END_GROUP` at most one node per child queued
earlier; `weight` counts the nodes together with the children still queued and grows by at most
one per opcode (`Effect.weight_le`).

* **`graph_integrity`**: integrity of every state of a run from a decoded heap under the default
  limits, and the three error branches it makes unreachable.
-/

namespace Stratavm

open Lib

/-! ## The table and the index -/

/-- Integrity of a node table and its name index. -/
structure GraphOk (nodes : List Node) (index : UMap AtomId NodeId) : Prop where
  /-- Ids are positions. -/
  ids : ∀ i (n : Node), nodes[i]? = some n → n.id.toNat = i
  /-- Edges stay inside the table. -/
  edges : ∀ n ∈ nodes, ∀ t, t ∈ n.children ∨ t ∈ n.refs → t.toNat < nodes.length
  /-- The index maps proper names to alive nodes of that name. -/
  index : ∀ a i, index.lookup a = some i →
    a ≠ kInvalidAtom ∧ ∃ n : Node, nodes[i.toNat]? = some n ∧ n.name = a ∧ n.alive = true
  /-- Every child link is answered by a reference back. -/
  backrefs : ∀ (o c : NodeId) (no nc : Node), nodes[o.toNat]? = some no →
    nodes[c.toNat]? = some nc →
      no.children.count c ≤ nc.refs.count o

namespace GraphOk

variable {nodes : List Node} {index : UMap AtomId NodeId}

theorem lt_of_index (h : GraphOk nodes index) {a : AtomId} {i : NodeId}
    (hi : index.lookup a = some i) : i.toNat < nodes.length := by
  obtain ⟨-, n, hn, -⟩ := h.index a i hi
  exact (List.getElem?_eq_some_iff.mp hn).1

/-- Appending a registered node without edges. -/
theorem push (h : GraphOk nodes index) (hsize : nodes.length < 2 ^ 32) {n : Node}
    (hid : n.id = UInt32.ofNat nodes.length) (hc : n.children = []) (hr : n.refs = [])
    (ha : n.alive = true) : GraphOk (nodes ++ [n]) (registerName index n.name n.id) := by
  have hidn : n.id.toNat = nodes.length := by
    rw [hid, toNat_ofNat_of_lt hsize]
  have hget : ∀ {j m}, (nodes ++ [n])[j]? = some m →
      nodes[j]? = some m ∨ (j = nodes.length ∧ m = n) := by
    intro j m hm
    rcases Nat.lt_or_ge j nodes.length with hj | hj
    · rw [List.getElem?_append_left hj] at hm
      exact .inl hm
    · rw [List.getElem?_append_right hj] at hm
      obtain ⟨h0, rfl⟩ := List.getElem?_eq_some_iff.mp hm
      simp only [List.length_singleton] at h0
      exact .inr ⟨by omega, by simp⟩
  constructor
  · intro j m hm
    rcases hget hm with hm | ⟨rfl, rfl⟩
    · exact h.ids j m hm
    · exact hidn
  · intro m hm t ht
    rw [List.length_append, List.length_singleton]
    rcases List.mem_append.mp hm with hm | hm
    · exact Nat.lt_succ_of_lt (h.edges m hm t ht)
    · rcases List.mem_singleton.mp hm with rfl
      simp [hc, hr] at ht
  · intro a i hi
    rw [lookup_registerName] at hi
    split at hi
    · rename_i hname
      obtain rfl := Option.some.inj hi
      exact ⟨hname.2 ▸ hname.1, n, by simp [hidn], hname.2.symm, ha⟩
    · obtain ⟨hne, m, hm, hmn⟩ := h.index a i hi
      exact ⟨hne, m, List.getElem?_append_left (h.lt_of_index hi) ▸ hm, hmn⟩
  · intro o c no nc ho hcn
    rcases hget ho with ho | ⟨-, rfl⟩
    · rcases hget hcn with hcn | ⟨hlen, -⟩
      · exact h.backrefs o c no nc ho hcn
      · -- an old node cannot have the new one as a child
        have hnot : c ∉ no.children := fun hmem => by
          have := h.edges no (List.mem_of_getElem? ho) c (.inl hmem)
          omega
        rw [List.count_eq_zero.mpr hnot]
        exact Nat.zero_le _
    · rw [hc, List.count_nil]
      exact Nat.zero_le _

/-- Changing existing nodes: `newC j` and `newR j` are the edges node `j` gains. -/
theorem update (h : GraphOk nodes index) {nodes' : List Node} {index' : UMap AtomId NodeId}
    (newC newR : Nat → List NodeId) (hlen : nodes'.length = nodes.length)
    (hnode : ∀ j (n' : Node), nodes'[j]? = some n' → ∃ n : Node, nodes[j]? = some n ∧ n'.id = n.id ∧
      n'.children = n.children ++ newC j ∧ n'.refs = n.refs ++ newR j)
    (hrange : ∀ j t, t ∈ newC j ∨ t ∈ newR j → t.toNat < nodes.length)
    (hback : ∀ o c : NodeId, (newC o.toNat).count c ≤ (newR c.toNat).count o)
    (hindex : ∀ a i, index'.lookup a = some i → index.lookup a = some i ∧
      ∀ n : Node, nodes[i.toNat]? = some n → ∃ n' : Node, nodes'[i.toNat]? = some n' ∧ n'.name = n.name ∧
        n'.alive = n.alive) : GraphOk nodes' index' := by
  constructor
  · intro j n' hn'
    obtain ⟨n, hn, hid, -⟩ := hnode j n' hn'
    rw [hid]
    exact h.ids j n hn
  · intro n' hn' t ht
    obtain ⟨j, hj⟩ := List.mem_iff_getElem?.mp hn'
    obtain ⟨n, hn, -, hc, hr⟩ := hnode j n' hj
    rw [hlen]
    rw [hc, hr, List.mem_append, List.mem_append] at ht
    have hedge := h.edges n (List.mem_of_getElem? hn) t
    have hnew := hrange j t
    rcases ht with (ht | ht) | (ht | ht)
    · exact hedge (.inl ht)
    · exact hnew (.inl ht)
    · exact hedge (.inr ht)
    · exact hnew (.inr ht)
  · intro a i hi
    obtain ⟨hi, hkeep⟩ := hindex a i hi
    obtain ⟨hne, n, hn, hname, halive⟩ := h.index a i hi
    obtain ⟨n', hn', hname', halive'⟩ := hkeep n hn
    exact ⟨hne, n', hn', hname'.trans hname, halive'.trans halive⟩
  · intro o c no' nc' ho hc
    obtain ⟨no, ho, -, hoc, -⟩ := hnode _ no' ho
    obtain ⟨nc, hc, -, -, hcr⟩ := hnode _ nc' hc
    rw [hoc, hcr, List.count_append, List.count_append]
    exact Nat.add_le_add (h.backrefs o c no nc ho hc) (hback o c)

/-- A slot gains references, and its fields change. -/
theorem update_refs (h : GraphOk nodes index) {i : Nat} {f : Node → Node} {ext : List NodeId}
    (hf : ∀ n, (f n).id = n.id ∧ (f n).name = n.name ∧ (f n).alive = n.alive ∧
      (f n).children = n.children ∧ (f n).refs = n.refs ++ ext)
    (hext : ∀ t ∈ ext, t.toNat < nodes.length) : GraphOk (nodes.modify i f) index := by
  refine h.update (fun _ => []) (fun j => if i = j then ext else []) (by simp) ?_ ?_ ?_ ?_
  · intro j n' hn'
    rw [List.getElem?_modify] at hn'
    obtain ⟨n, hn, rfl⟩ := Option.map_eq_some_iff.mp hn'
    obtain ⟨hid, -, -, hc, hr⟩ := hf n
    by_cases hij : i = j
    · simp [hij, hn, hid, hc, hr]
    · simp [hij, hn]
  · intro j t ht
    rcases ht with ht | ht
    · cases ht
    · split at ht
      · exact hext t ht
      · cases ht
  · intro o c
    exact Nat.zero_le _
  · intro a k hk
    refine ⟨hk, fun n hn => ?_⟩
    obtain ⟨-, hname, halive, -, -⟩ := hf n
    rw [List.getElem?_modify, hn]
    by_cases hik : i = k.toNat
    · simp [hik, hname, halive]
    · simp [hik]

/-- Dropping node `i`: its name is forgotten if it is the one the index has. -/
theorem kill (h : GraphOk nodes index) {i : NodeId} {node : Node}
    (hnode : nodes[i.toNat]? = some node) :
    GraphOk (nodes.modify i.toNat fun n => { n with alive := false, generation := n.generation + 1 })
      (if node.name ≠ kInvalidAtom ∧ index.lookup node.name = some i then index.erase node.name
        else index) := by
  have hkept : ∀ a k, (if node.name ≠ kInvalidAtom ∧ index.lookup node.name = some i then
      index.erase node.name else index).lookup a = some k → index.lookup a = some k ∧ k ≠ i := by
    intro a k hk
    split at hk
    · rename_i hc
      by_cases ha : a = node.name
      · rw [ha, Finmap.lookup_erase] at hk
        cases hk
      · rw [Finmap.lookup_erase_ne ha] at hk
        refine ⟨hk, ?_⟩
        rintro rfl
        obtain ⟨-, n, hn, hname, -⟩ := h.index a k hk
        rw [hnode] at hn
        exact ha (hname ▸ congrArg Node.name (Option.some.inj hn).symm)
    · rename_i hc
      refine ⟨hk, ?_⟩
      rintro rfl
      obtain ⟨hne, n, hn, hname, -⟩ := h.index a k hk
      obtain rfl := Option.some.inj (hnode.symm.trans hn)
      exact hc ⟨hname ▸ hne, hname ▸ hk⟩
  refine h.update (fun _ => []) (fun _ => []) (by simp) ?_ ?_ ?_ ?_
  · intro j n' hn'
    rw [List.getElem?_modify] at hn'
    obtain ⟨n, hn, rfl⟩ := Option.map_eq_some_iff.mp hn'
    by_cases hij : i.toNat = j <;> simp [hij, hn]
  · intro j t ht
    rcases ht with ht | ht <;> cases ht
  · intro o c
    exact Nat.le_refl _
  · intro a k hk
    obtain ⟨hk, hki⟩ := hkept a k hk
    refine ⟨hk, fun n hn => ⟨n, ?_, rfl, rfl⟩⟩
    have hik : i.toNat ≠ k.toNat := fun heq => hki (UInt32.toNat_inj.mp heq.symm)
    simp [hn, hik]

/-- Linking `target` under the owner in slot `slot`. -/
theorem link (h : GraphOk nodes index) {slot : Nat} {owner : Node} {target : NodeId}
    (howner : nodes[slot]? = some owner) (htarget : target.toNat < nodes.length) :
    GraphOk ((nodes.modify slot fun n => { n with children := n.children ++ [target] }).modify
      target.toNat fun n => { n with refs := n.refs ++ [owner.id] }) index := by
  have hslot : owner.id.toNat = slot := h.ids slot owner howner
  have hlt : slot < nodes.length := (List.getElem?_eq_some_iff.mp howner).1
  refine h.update (fun j => if slot = j then [target] else [])
    (fun j => if target.toNat = j then [owner.id] else []) (by simp) ?_ ?_ ?_ ?_
  · intro j n' hn'
    rw [List.getElem?_modify, List.getElem?_modify] at hn'
    obtain ⟨n1, hn1, rfl⟩ := Option.map_eq_some_iff.mp hn'
    obtain ⟨n, hn, rfl⟩ := Option.map_eq_some_iff.mp hn1
    refine ⟨n, hn, ?_⟩
    by_cases h1 : slot = j <;> by_cases h2 : target.toNat = j <;> simp [h1, h2]
  · intro j t ht
    rcases ht with ht | ht
    · split at ht
      · rcases List.mem_singleton.mp ht with rfl
        exact htarget
      · cases ht
    · split at ht
      · rcases List.mem_singleton.mp ht with rfl
        rw [hslot]
        exact hlt
      · cases ht
  · intro o c
    by_cases ho : slot = o.toNat
    · have hoid : owner.id = o := UInt32.toNat_inj.mp (hslot.trans ho)
      by_cases hc : target = c
      · simp [ho, hc, hoid]
      · simp [ho, hc]
    · simp [ho]
  · intro a k hk
    refine ⟨hk, fun n hn => ?_⟩
    rw [List.getElem?_modify, List.getElem?_modify, hn]
    by_cases h1 : slot = k.toNat <;> by_cases h2 : target.toNat = k.toNat <;> simp [h1, h2]

end GraphOk

/-! ## The machine -/

namespace ReplayVM

/-- Integrity of a state: that of its graph, and open groups owned inside the table. -/
structure Integrity (vm : ReplayVM) : Prop extends GraphOk vm.nodes.data vm.nameIndex where
  frames : ∀ f ∈ vm.frames, f.ownerId.toNat < vm.nodes.size

/-- Nodes in the table and children still queued. -/
def weight (vm : ReplayVM) : Nat :=
  vm.nodes.size + (vm.frames.map fun f => f.deferredChildren.length).sum

variable {env : Env} {vm vm' : ReplayVM}

theorem lt_size_of_node? {i : NodeId} {n : Node} (h : vm.node? i = some n) :
    i.toNat < vm.nodes.size := (List.getElem?_eq_some_iff.mp h).1

namespace Integrity

theorem findNamed_lt (h : vm.Integrity) {name : AtomId} (hf : vm.findNamed name ≠ kInvalidNode) :
    (vm.findNamed name).toNat < vm.nodes.size := h.lt_of_index (lookup_of_findNamed hf)

/-- A node found by name is alive. -/
theorem foundNode_alive (h : vm.Integrity) {name : AtomId} {owner : Node}
    (ho : vm.foundNode? (vm.findNamed name) = some owner) : owner.alive = true := by
  unfold foundNode? at ho
  split at ho
  · cases ho
  · rename_i hf
    obtain ⟨-, n, hn, -, halive⟩ := h.index _ _ (lookup_of_findNamed hf)
    obtain rfl := Option.some.inj (hn.symm.trans ho)
    exact halive

/-- Only the graph and the frames matter. -/
theorem congr (h : vm.Integrity) (hn : vm'.nodes = vm.nodes) (hi : vm'.nameIndex = vm.nameIndex)
    (hf : ∀ f ∈ vm'.frames, f.ownerId.toNat < vm.nodes.size) : vm'.Integrity where
  toGraphOk := by rw [hn, hi]; exact h.toGraphOk
  frames := by rw [hn]; exact hf

/-- A table that keeps its length keeps the frames. -/
theorem ofGraph (h : vm.Integrity) (hg : GraphOk vm'.nodes.data vm'.nameIndex)
    (hsize : vm.nodes.size ≤ vm'.nodes.size) (hf : vm'.frames = vm.frames) : vm'.Integrity where
  toGraphOk := hg
  frames := fun f hmem => Nat.lt_of_lt_of_le (h.frames f (hf ▸ hmem)) hsize

/-- Appending a registered node without edges. -/
theorem push (h : vm.Integrity) (hsize : vm.nodes.size < 2 ^ 32) {n : Node}
    (hid : n.id = UInt32.ofNat vm.nodes.size) (hc : n.children = []) (hr : n.refs = [])
    (ha : n.alive = true) (hn : vm'.nodes = vm.nodes.pushBack env.growth n)
    (hi : vm'.nameIndex = registerName vm.nameIndex n.name n.id) (hf : vm'.frames = vm.frames) :
    vm'.Integrity := by
  refine h.ofGraph ?_ (by rw [hn]; simp) hf
  rw [hn, hi, Vec.data_pushBack]
  exact h.toGraphOk.push hsize hid hc hr ha

theorem target (h : vm.Integrity) (hsize : vm.nodes.size < 2 ^ 32) (child : AtomId) :
    (vm.target env child).2.Integrity := by
  rcases target_eq env vm child with ⟨-, heq⟩ | ⟨-, heq⟩
  · rw [heq]
    exact h.push hsize rfl rfl rfl rfl rfl rfl rfl
  · rw [heq]
    exact h

/-- The owner's slot under `indexed` is the owner's id. -/
theorem attach (h : vm.Integrity) {slot : Nat} {target : NodeId} (hslot : slot < vm.nodes.size)
    (ht : target.toNat < vm.nodes.size) : (vm.attach slot target).Integrity := by
  obtain ⟨owner, howner⟩ : ∃ owner, vm.nodes.data[slot]? = some owner :=
    ⟨_, List.getElem?_eq_getElem hslot⟩
  refine h.ofGraph ?_ (by simp) rfl
  simp only [ReplayVM.attach, Vec.data_modify, howner, Option.map_some, Option.getD_some]
  exact h.toGraphOk.link howner ht

end Integrity

/-! ### The table's growth -/

/-- An opcode adds at most one to the weight. -/
theorem Effect.weight_le {op : Op} (h : Effect env vm op vm') : vm'.weight ≤ vm.weight + 1 := by
  cases h with
  | newNode => simp [weight, createNode]; omega
  | setField => simp [weight, storeField]
  | beginGroup => simp [weight, openGroup]
  | endGroup hf hr =>
    obtain ⟨hframes, -, hsize⟩ := resolve_size hr
    simp only [weight, hf, hframes, List.map_cons, List.sum_cons]
    simp only at hsize
    omega
  | addChild hf => simp [weight, queueChild, hf]; omega
  | linkRefMissing => simp [weight, countUnresolved]
  | linkRef => simp [weight, storeRef]
  | dropDead => exact Nat.le_succ _
  | drop => simp [weight, ReplayVM.drop]
  | snapshot => simp [weight, takeSnapshot]
  | setMeta => simp [weight, putMeta]
  | nop => exact Nat.le_succ _

/-- The edges a value adds are in range. -/
theorem outgoing_lt {size : Nat} {v : Value} {t : NodeId} (ht : t ∈ outgoing size v) :
    t.toNat < size := by
  cases v with
  | ref n =>
    simp only [outgoing] at ht
    split at ht
    · rename_i hn
      rcases List.mem_singleton.mp ht with rfl
      exact hn.2
    · cases ht
  | list items => simpa using (List.mem_filter.mp ht).2
  | _ => cases ht

theorem weight_le_of_replays {ops : List Op} {r r' : Bytes}
    (h : Replays env ops vm r vm' r') : vm'.weight ≤ vm.weight + ops.length := by
  induction h with
  | nil => exact Nat.le_refl _
  | @cons _ _ _ _ vm1 _ _ _ _ heff _ ih =>
    have htick : vm1.tick.weight = vm1.weight := rfl
    have := heff.weight_le
    rw [List.length_cons]
    omega

theorem size_le_weight : vm.nodes.size ≤ vm.weight := Nat.le_add_right _ _

/-! ### Every opcode keeps the integrity -/

section Indexed

variable (hslot : env.ownerSlot = .indexed)
include hslot

theorem ownerSlot_indexed {frame : GroupFrame} {slot : Nat}
    (h : vm.ownerSlot env frame = some slot) : slot < vm.nodes.size := by
  simp only [ownerSlot, hslot] at h
  split at h
  · rename_i hlt
    obtain rfl := Option.some.inj h
    exact hlt
  · cases h

theorem resolve_integrity {frame : GroupFrame} {children : List AtomId} (h0 : vm.Integrity)
    (hsize : vm.nodes.size + children.length < 2 ^ 32)
    (h : resolve env frame children vm = some vm') : vm'.Integrity := by
  induction children generalizing vm with
  | nil =>
    obtain rfl := Option.some.inj h
    exact h0
  | cons child children ih =>
    obtain ⟨slot, hs, ht, h⟩ := resolve_cons h
    rw [List.length_cons] at hsize
    have hle := size_target_le env vm child
    refine ih ?_ (by rw [size_attach]; omega) h
    exact (h0.target (by omega) child).attach (ownerSlot_indexed hslot hs) ht

/-- **An opcode keeps the integrity**, while ids still fit. -/
theorem Effect.integrity {op : Op} (h0 : vm.Integrity) (hw : vm.weight < 2 ^ 32)
    (h : Effect env vm op vm') : vm'.Integrity := by
  have hsize := Nat.lt_of_le_of_lt size_le_weight hw
  cases h with
  | newNode => exact h0.push hsize rfl rfl rfl rfl rfl rfl rfl
  | @setField _ _ v _ hnode =>
    refine h0.ofGraph ?_ (by simp) rfl
    refine h0.toGraphOk.update_refs (fun n => ⟨rfl, rfl, rfl, rfl, rfl⟩) fun t ht => ?_
    exact outgoing_lt ht
  | @beginGroup name _ _ _ ho =>
    have hf : vm.findNamed name ≠ kInvalidNode := fun hinv => by
      simp [foundNode?, hinv] at ho
    refine ⟨by simpa [openGroup] using h0.toGraphOk, fun f hmem => ?_⟩
    rcases List.mem_cons.mp hmem with rfl | hmem
    · simpa [openGroup] using h0.findNamed_lt hf
    · simpa [openGroup] using h0.frames f hmem
  | endGroup hf hr =>
    refine resolve_integrity hslot ?_ ?_ hr
    · exact h0.congr rfl rfl fun f hmem => h0.frames f (hf ▸ List.mem_cons_of_mem _ hmem)
    · simp only [weight, hf, List.map_cons, List.sum_cons] at hw
      simp only
      omega
  | @addChild _ frame _ hf _ =>
    refine h0.congr rfl rfl fun f hmem => ?_
    rcases List.mem_cons.mp hmem with rfl | hmem
    · exact h0.frames frame (by rw [hf]; exact List.mem_cons_self)
    · exact h0.frames f (hf ▸ List.mem_cons_of_mem _ hmem)
  | linkRefMissing => exact h0.congr rfl rfl h0.frames
  | linkRef _ _ hm =>
    refine h0.ofGraph ?_ (by simp) rfl
    refine h0.toGraphOk.update_refs (fun n => ⟨rfl, rfl, rfl, rfl, rfl⟩) fun t ht => ?_
    rcases List.mem_singleton.mp ht with rfl
    exact h0.findNamed_lt hm
  | dropDead => exact h0
  | drop hnode _ => exact h0.ofGraph (h0.toGraphOk.kill hnode) (by simp) rfl
  | snapshot => exact h0.congr rfl rfl h0.frames
  | setMeta => exact h0.congr rfl rfl h0.frames
  | nop => exact h0

/-- Integrity along a replay of few enough opcodes. -/
theorem integrity_of_replays {ops : List Op} {r r' : Bytes} (h : Replays env ops vm r vm' r')
    (h0 : vm.Integrity) (hw : vm.weight + ops.length < 2 ^ 32) : vm'.Integrity := by
  induction h with
  | nil => exact h0
  | @cons _ _ _ _ vm1 _ _ _ _ heff _ ih =>
    rw [List.length_cons] at hw
    have h1 := heff.integrity hslot h0 (by omega)
    have htick : vm1.tick.weight = vm1.weight := rfl
    have hle := heff.weight_le
    exact ih (h1.congr rfl rfl h1.frames) (by omega)

end Indexed

/-! ### The decoded heap -/

/-- A decoded heap, installed, has integrity. -/
theorem integrity_seed {limits : Limits} {g : Growth} {schema : Schema} {atoms : AtomPool}
    {r r' : Bytes} {heap : HeapImage} (h : decodeHeap g schema atoms limits r = .ok (heap, r')) :
    (seed {} heap).Integrity := by
  obtain ⟨hsize, hnode⟩ := decodeHeap_spec h
  have hmax := limits.maxNodes.toNat_lt
  have hlt : ∀ {i : Nat} {n : Node}, heap.nodes.data[i]? = some n → i < heap.nodes.size :=
    fun hn => (List.getElem?_eq_some_iff.mp hn).1
  have hid : ∀ {i : Nat} {n : Node}, heap.nodes.data[i]? = some n → n.id.toNat = i := fun hn => by
    have := hlt hn
    rw [(hnode _ _ hn).id, toNat_ofNat_of_lt (by omega)]
  refine ⟨⟨fun i n hn => hid hn, fun n hn t ht => ?_, fun a i hi => ?_, ?_⟩, ?_⟩
  · obtain ⟨i, hi⟩ := List.mem_iff_getElem?.mp hn
    rw [(hnode i n hi).children, (hnode i n hi).refs] at ht
    rcases ht with ht | ht <;> cases ht
  · refine lookup_foldl_registerName (P := fun a i => a ≠ kInvalidAtom ∧
      ∃ n : Node, heap.nodes.data[i.toNat]? = some n ∧ n.name = a ∧ n.alive = true) ?_ hi
    intro n hn hname
    obtain ⟨i, hi⟩ := List.mem_iff_getElem?.mp hn
    exact ⟨hname, n, (hid hi).symm ▸ hi, rfl, (hnode i n hi).alive⟩
  · intro o c no nc ho hc
    rw [(hnode _ no ho).children, List.count_nil]
    exact Nat.zero_le _
  · exact fun f hf => absurd hf List.not_mem_nil

end ReplayVM

/-! ## Runs -/

/-- `begin_group` never finds a dropped owner in a state with integrity. -/
theorem doBeginGroup_owner_alive {env : Env} {vm : ReplayVM} (h : vm.Integrity) (r : Bytes) :
    (doBeginGroup env vm r).1 ≠
      .error (.status ⟨.invariantViolation, "begin_group owner dropped"⟩) := by
  unfold doBeginGroup operand
  cases hname : readVarintU32 r with
  | error e =>
    rw [Machine.bind_read_of_error hname]
    rintro ⟨⟩
    simpa using readVarintU32_error hname
  | ok p =>
  rw [Machine.bind_read_of_ok (show readVarintU32 r = .ok (p.1, p.2) from hname)]
  cases hhint : readVarintU32 p.2 with
  | error e =>
    rw [Machine.bind_read_of_error hhint]
    rintro ⟨⟩
    simpa using readVarintU32_error hhint
  | ok q =>
  rw [Machine.bind_read_of_ok (show readVarintU32 p.2 = .ok (q.1, q.2) from hhint),
    Machine.bind_get_apply]
  by_cases hdepth : vm.frames.length ≥ env.limits.maxGroupDepth.toNat
  · simp [hdepth, failWith, Machine.fail]
  cases howner : vm.foundNode? (vm.findNamed p.1) with
  | none => simp [hdepth, howner, failWith, Machine.fail]
  | some owner => simp [hdepth, howner, h.foundNode_alive howner, Machine.set]

/-- **Graph integrity of the replay machine**: it holds in every state a run from a decoded heap
visits under the default limits, and three error branches are unreachable from there. -/
theorem graph_integrity {env : Env} (hlimits : env.limits = {}) (hslot : env.ownerSlot = .indexed)
    {bytes rest : Bytes} {heap : HeapImage}
    (hheap : decodeHeap env.growth env.schema env.atoms env.limits bytes = .ok (heap, rest))
    {journal : Bytes} {vm : ReplayVM} (hvm : Visits env (ReplayVM.seed {} heap) journal vm) :
    vm.Integrity ∧
      (∀ r, (doBeginGroup env vm r).1 ≠
        .error (.status ⟨.invariantViolation, "begin_group owner dropped"⟩)) ∧
      (∀ n ∈ vm.nodes.data, ∀ t, t ∈ n.refs ∨ t ∈ n.children →
        outOfRange vm.nodes.data t = false) ∧
      ∀ strict, (validateGraph vm.nodes.data env.atoms strict env.schema).NoRange := by
  obtain ⟨ops, r, r', hops, hrep⟩ := hvm.replays
  obtain ⟨hsize, -⟩ := decodeHeap_spec hheap
  have hweight : (ReplayVM.seed {} heap).weight = heap.nodes.size := rfl
  have hsmall : (ReplayVM.seed {} heap).weight + ops.length < 2 ^ 32 := by
    rw [hlimits] at hsize hops
    have h1 : ({} : Limits).maxNodes.toNat = 2 ^ 22 := rfl
    have h2 : ({} : Limits).maxJournalOps.toNat = 2 ^ 22 := rfl
    omega
  have h : vm.Integrity :=
    ReplayVM.integrity_of_replays hslot hrep (ReplayVM.integrity_seed hheap) hsmall
  have hrange : ∀ n ∈ vm.nodes.data, ∀ t, t ∈ n.refs ∨ t ∈ n.children →
      outOfRange vm.nodes.data t = false := by
    intro n hn t ht
    have hlt : t.toNat < vm.nodes.size := h.edges n hn t ht.symm
    have hle := ReplayVM.weight_le_of_replays hrep
    have hcount : (UInt32.ofNat vm.nodes.data.length).toNat = vm.nodes.size := by
      have : vm.nodes.size ≤ vm.weight := ReplayVM.size_le_weight
      exact toNat_ofNat_of_lt (Nat.lt_of_le_of_lt (Nat.le_trans this hle) hsmall)
    rw [outOfRange, decide_eq_false_iff_not, UInt32.le_iff_toNat_le, hcount]
    omega
  refine ⟨h, doBeginGroup_owner_alive h, hrange, fun strict => ?_⟩
  exact validateGraph_inRange (fun n hn t ht => hrange n hn t (.inl ht))
    (fun n hn c hc => hrange n hn c (.inr hc)) _ _ _

/-- One kind without fields, two names; the node table is indexed. -/
def twoNames : Env where
  schema := { kinds := [{ name := 0 }] }
  atoms := { atoms := [[0x61], [0x62]] }
  ownerSlot := .indexed

/-- The journal that makes a node and gives it a child nothing defines. -/
def forwardChild : List Op := [.newNode 0 0, .beginGroup 0 0, .addChild 1, .endGroup]

theorem graph_integrity_forwardChild :
    (runOps twoNames 4 (ReplayVM.seed {} ⟨Vec.empty⟩)
      (forwardChild.flatMap Op.encode)).2.Integrity := by
  have hheap : decodeHeap twoNames.growth twoNames.schema twoNames.atoms twoNames.limits [0] =
      .ok (⟨Vec.empty⟩, []) := rfl
  have hvm : Visits twoNames (ReplayVM.seed {} ⟨Vec.empty⟩) (4 :: forwardChild.flatMap Op.encode) _ :=
    ⟨4, _, 4, [], rfl, by decide, Nat.le_refl 4, Machine.ok_of_fst rfl⟩
  exact (graph_integrity rfl rfl hheap hvm).1

end Stratavm
