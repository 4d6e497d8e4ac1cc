import Stratavm.ReplayVm.Fields
import Stratavm.ReplayVm.Frozen
import Stratavm.ReplayVm.NodeLimit

/-!
# Recorded references against the graph

A node's `refs` is a table on the side: the writers of reference-bearing fields append to it and
nothing is ever taken out. `RefsDescribe` says that it lists what it is meant to: the ids in the
table that the node's fields name now, and the owners that have the node as a child.

The table's growth and the writes are dealt with apart. For a fixed bound, every opcode that writes
no field keeps "lists the ids below the bound" (`Effect.describedBelow`), and a table that grows
only raises the bound (`describe_iff_bound`). A write loses the ids that only the old value named
(`describe_write`).

* **`refs_describe_iff`**: in every state of a run `refs` describes the graph iff the heap names no
  node in its fields, no opcode overwrites the last mention of a node, and none appends a node
  whose id an alive node already names.
* `overwritten_ref_stays`: a field written twice.
-/

namespace Stratavm

open Lib

/-- A field of the node names `t`. -/
def Node.Holds (n : Node) (t : NodeId) : Prop := ∃ f v, n.field f = some v ∧ t ∈ v.nodeIds

theorem Node.not_holds_of_empty {n : Node} (h : n.fields = ∅) (t : NodeId) : ¬ n.Holds t := by
  rintro ⟨f, v, hv, -⟩
  rw [Node.field, h, Finmap.lookup_empty] at hv
  cases hv

namespace ReplayVM

/-- Node `o` has `i` as a child. -/
def Owns (vm : ReplayVM) (o i : NodeId) : Prop := ∃ owner, vm.node? o = some owner ∧ i ∈ owner.children

/-- The `refs` of alive nodes are the ids below `bound` that their fields name, and their owners. -/
def DescribedBelow (bound : Nat) (vm : ReplayVM) : Prop :=
  ∀ i n, vm.node? i = some n → n.alive = true →
    ∀ t, t ∈ n.refs ↔ t.toNat < bound ∧ n.Holds t ∨ vm.Owns t i

/-- The `refs` of alive nodes describe the graph. -/
def RefsDescribe (vm : ReplayVM) : Prop := vm.DescribedBelow vm.nodes.size

/-- How many nodes the opcode appends. -/
def appended (vm : ReplayVM) : Op → Nat
  | .newNode _ _ => 1
  | .endGroup =>
    match vm.frames with
    | [] => 0
    | frame :: _ => placeholdersNeeded vm.nameIndex vm.nodes.size frame.deferredChildren
  | _ => 0

/-- The opcode appends no node that an alive node already names, and overwrites nothing that the
node does not name elsewhere or have as an owner. -/
structure KeepsEdges (vm : ReplayVM) (op : Op) : Prop where
  appends : ∀ i n, vm.node? i = some n → n.alive = true → ∀ t, n.Holds t →
    vm.nodes.size ≤ t.toNat → vm.nodes.size + vm.appended op ≤ t.toNat
  overwrites : ∀ i n, vm.node? i = some n → n.alive = true → ∀ f v old,
    op.written vm i.toNat f = some v → n.field f = some old →
      ∀ t ∈ old.nodeIds, t.toNat < vm.nodes.size →
        t ∈ v.nodeIds ∨ (∃ g w, g ≠ f ∧ n.field g = some w ∧ t ∈ w.nodeIds) ∨ vm.Owns t i

variable {env : Env} {vm vm' : ReplayVM} {bound : Nat}

/-! ### What keeps a bound -/

theorem DescribedBelow.congr (h : vm.DescribedBelow bound)
    (hnodes : vm'.nodes.data = vm.nodes.data) : vm'.DescribedBelow bound := by
  have hnode : vm'.node? = vm.node? := funext fun i => by rw [node?, node?, hnodes]
  unfold DescribedBelow Owns at h ⊢
  rw [hnode]
  exact h

/-- Appending a node without fields and edges. -/
theorem DescribedBelow.push (h : vm.DescribedBelow bound) (hint : vm.Integrity) {m : Node}
    (hf : m.fields = ∅) (hc : m.children = []) (hr : m.refs = [])
    (hnodes : vm'.nodes = vm.nodes.pushBack env.growth m) : vm'.DescribedBelow bound := by
  have howns : ∀ t i, vm'.Owns t i ↔ vm.Owns t i := by
    intro t i
    unfold Owns
    rw [node?_pushBack hnodes]
    by_cases ht : t.toNat = vm.nodes.size
    · have hnone : vm.node? t = none := List.getElem?_eq_none (Nat.le_of_eq ht.symm)
      simp [ht, hc, hnone]
    · rw [if_neg ht]
  intro i n hn ha t
  rw [howns]
  rw [node?_pushBack hnodes] at hn
  by_cases hi : i.toNat = vm.nodes.size
  · rw [if_pos hi] at hn
    obtain rfl := Option.some.inj hn
    refine iff_of_false (by rw [hr]; exact List.not_mem_nil) ?_
    rintro (⟨-, hholds⟩ | ⟨owner, howner, hmem⟩)
    · exact Node.not_holds_of_empty hf t hholds
    · -- a child of an old node is an old node
      have hlt := hint.edges owner (List.mem_of_getElem? howner) i (.inl hmem)
      exact absurd hlt (Nat.not_lt.mpr (Nat.le_of_eq hi.symm))
  · rw [if_neg hi] at hn
    exact h i n hn ha t

/-- Linking: the owner gains a child, the child a reference to the owner. -/
theorem DescribedBelow.attach (h : vm.DescribedBelow bound) (hint : vm.Integrity) {o t : NodeId}
    (ho : o.toNat < vm.nodes.size) : (vm.attach o.toNat t).DescribedBelow bound := by
  have howns : ∀ s i, (vm.attach o.toNat t).Owns s i ↔ vm.Owns s i ∨ s = o ∧ i = t := by
    intro s i
    unfold Owns
    rw [hint.node?_attach ho]
    constructor
    · rintro ⟨owner', howner', hmem⟩
      obtain ⟨owner, howner, rfl⟩ := Option.map_eq_some_iff.mp howner'
      rcases List.mem_append.mp hmem with hmem | hmem
      · exact .inl ⟨owner, howner, hmem⟩
      · split at hmem
        · rename_i hs
          exact .inr ⟨hs, List.mem_singleton.mp hmem⟩
        · cases hmem
    · rintro (⟨owner, howner, hmem⟩ | ⟨rfl, rfl⟩)
      · exact ⟨_, by rw [howner, Option.map_some], List.mem_append_left _ hmem⟩
      · obtain ⟨owner, howner⟩ : ∃ owner, vm.node? s = some owner :=
          ⟨_, List.getElem?_eq_getElem ho⟩
        refine ⟨_, by rw [howner, Option.map_some], List.mem_append_right _ ?_⟩
        rw [if_pos rfl]
        exact List.mem_singleton_self i
  intro i n' hn' ha s
  rw [hint.node?_attach ho] at hn'
  obtain ⟨n, hn, rfl⟩ := Option.map_eq_some_iff.mp hn'
  have hrefs : s ∈ (n.gain (if i = o then [t] else []) (if i = t then [o] else [])).refs ↔
      s ∈ n.refs ∨ s = o ∧ i = t := by
    by_cases hi : i = t <;> simp [Node.gain, hi]
  rw [hrefs, howns, h i n hn ha s, or_assoc]
  exact Iff.rfl

theorem DescribedBelow.resolve {frame : GroupFrame} {children : List AtomId}
    (h : vm.DescribedBelow bound) (hint : vm.Integrity)
    (hsize : vm.nodes.size + children.length < 2 ^ 32)
    (hframe : frame.ownerCache.slot = frame.ownerId.toNat)
    (hr : resolve env frame children vm = some vm') : vm'.DescribedBelow bound := by
  refine hint.resolve_induction (P := fun mid => mid.DescribedBelow bound) hframe hsize ?_ h hr
  intro mid child hmid hroom hlt hbelow
  refine DescribedBelow.attach ?_ (hmid.target (by omega) child) hlt
  rcases target_eq env mid child with ⟨-, heq⟩ | ⟨-, heq⟩
  · rw [heq]
    exact hbelow.push hmid rfl rfl rfl rfl
  · rw [heq]
    exact hbelow

theorem DescribedBelow.drop (h : vm.DescribedBelow bound) {j : NodeId} {node : Node} :
    (vm.drop j node).DescribedBelow bound := by
  have howns : ∀ t i, (vm.drop j node).Owns t i ↔ vm.Owns t i := by
    intro t i
    unfold Owns
    rw [node?_drop]
    cases vm.node? t with
    | none => simp
    | some owner => by_cases ht : t = j <;> simp [ht]
  intro i n' hn' ha t
  rw [howns]
  rw [node?_drop] at hn'
  obtain ⟨n, hn, rfl⟩ := Option.map_eq_some_iff.mp hn'
  by_cases hi : i = j
  · rw [if_pos hi] at ha
    cases ha
  · rw [if_neg hi] at ha ⊢
    exact h i n hn ha t

/-- **An opcode that writes no field keeps every bound.** -/
theorem Effect.describedBelow {op : Op} (hsound : vm.Sound) (h0 : vm.DescribedBelow bound)
    (hop : ∀ i f, op.written vm i f = none) (h : Effect env vm op vm') :
    vm'.DescribedBelow bound := by
  cases h with
  | newNode => exact h0.push hsound.toIntegrity rfl rfl rfl rfl
  | @setField nodeId field v =>
    have hw := hop nodeId.toNat field
    simp [Op.written] at hw
  | beginGroup => exact h0.congr (Vec.data_reserve _ _ _)
  | @endGroup _ frames _ hf hr =>
    obtain ⟨hint, hsize, hframe, -⟩ := hsound.pop hf
    have hpop : ({ vm with frames } : ReplayVM).DescribedBelow bound := h0
    exact hpop.resolve hint hsize hframe hr
  | @linkRef src field name _ _ _ hm =>
    have hw := hop src.toNat field
    simp [Op.written, hm] at hw
  | drop => exact h0.drop
  | _ => exact h0

/-! ### What the table's growth changes -/

theorem appended_endGroup {frame : GroupFrame} {frames : List GroupFrame}
    (hf : vm.frames = frame :: frames) : vm.appended .endGroup =
      placeholdersNeeded vm.nameIndex vm.nodes.size frame.deferredChildren := by
  show (match vm.frames with
    | [] => 0
    | frame :: _ => placeholdersNeeded vm.nameIndex vm.nodes.size frame.deferredChildren) = _
  rw [hf]

/-- The table grows by what the opcode appends. -/
theorem Effect.size_eq {op : Op} (h : Effect env vm op vm') :
    vm'.nodes.size = vm.nodes.size + vm.appended op := by
  cases h with
  | newNode => exact size_createNode
  | setField => exact size_storeField
  | beginGroup => exact size_openGroup
  | endGroup hf hr =>
    rw [resolve_size_eq hr, appended_endGroup hf]
  | linkRef => exact size_storeRef
  | drop => exact size_drop
  | _ => rfl

/-- The nodes that an opcode appends have no children. -/
theorem Effect.new_childless {op : Op} (hsound : vm.Sound) (h : Effect env vm op vm') {i : NodeId}
    {n : Node} (hn : vm'.node? i = some n) (hi : vm.nodes.size ≤ i.toNat) : n.children = [] := by
  have hlt := lt_size_of_node? hn
  rw [h.size_eq] at hlt
  by_cases happ : vm.appended op = 0
  · omega
  cases h with
  | @newNode kind name =>
    have hnode : (vm.createNode env kind name).node? i = if i.toNat = vm.nodes.size then
        some { id := UInt32.ofNat vm.nodes.size, kind, name, alive := true } else vm.node? i :=
      node?_pushBack rfl
    rw [hnode] at hn
    split at hn
    · obtain rfl := Option.some.inj hn
      rfl
    · exact absurd (lt_size_of_node? hn) (Nat.not_lt.mpr hi)
  | @endGroup frame frames vm' hf hr =>
    obtain ⟨hint, hsize, hframe, howner⟩ := hsound.pop hf
    refine hint.resolve_induction (P := fun mid => ∀ i n, mid.node? i = some n →
      vm.nodes.size ≤ i.toNat → n.children = []) hframe hsize ?_ ?_ hr i n hn hi
    · intro mid child hmid hroom hlt ih i n' hn' hi
      rw [(hmid.target (by omega) child).node?_attach hlt] at hn'
      obtain ⟨n, hn, rfl⟩ := Option.map_eq_some_iff.mp hn'
      -- the owner is an old node
      have hio : i ≠ frame.ownerId := by
        rintro rfl
        omega
      have hchildren : n.children = [] := by
        rcases target_eq env mid child with ⟨-, heq⟩ | ⟨-, heq⟩
        · have hpush : (mid.materializePlaceholder env child).2.node? i =
              if i.toNat = mid.nodes.size then some _ else mid.node? i := node?_pushBack rfl
          rw [heq, hpush] at hn
          split at hn
          · obtain rfl := Option.some.inj hn
            rfl
          · exact ih i n hn hi
        · rw [heq] at hn
          exact ih i n hn hi
      rw [Node.gain, if_neg hio, List.append_nil]
      exact hchildren
    · intro i n hn hi
      exact absurd (lt_size_of_node? hn) (Nat.not_lt.mpr hi)
  | _ => exact absurd rfl happ

/-- **A larger table** leaves `refs` describing the graph iff no alive node names a new node. -/
theorem describe_iff_bound (hbelow : vm'.DescribedBelow bound) (hsize : bound ≤ vm'.nodes.size)
    (hnew : ∀ i n, vm'.node? i = some n → bound ≤ i.toNat → n.children = []) :
    vm'.RefsDescribe ↔ ∀ i n, vm'.node? i = some n → n.alive = true → ∀ t, n.Holds t →
      bound ≤ t.toNat → vm'.nodes.size ≤ t.toNat := by
  constructor
  · intro h i n hn ha t hholds ht
    by_contra hlt
    have hrefs := (h i n hn ha t).mpr (.inl ⟨Nat.not_le.mp hlt, hholds⟩)
    rcases (hbelow i n hn ha t).mp hrefs with ⟨hlt', -⟩ | ⟨owner, howner, hmem⟩
    · exact absurd hlt' (Nat.not_lt.mpr ht)
    · rw [hnew t owner howner ht] at hmem
      cases hmem
  · intro h i n hn ha t
    rw [hbelow i n hn ha t]
    refine or_congr_left' fun _ => ⟨fun ⟨hlt, hholds⟩ => ⟨by omega, hholds⟩, fun ⟨hlt, hholds⟩ => ?_⟩
    refine ⟨?_, hholds⟩
    by_contra hge
    exact absurd (h i n hn ha t hholds (Nat.not_lt.mp hge)) (Nat.not_le.mpr hlt)

/-- Without a write, what alive nodes name stays. -/
theorem Effect.holds_iff {op : Op} (hop : ∀ i f, op.written vm i f = none)
    (h : Effect env vm op vm') :
    (∀ i n, vm'.node? i = some n → n.alive = true → ∀ t, n.Holds t → vm.nodes.size ≤ t.toNat →
        vm'.nodes.size ≤ t.toNat) ↔
      ∀ i n, vm.node? i = some n → n.alive = true → ∀ t, n.Holds t → vm.nodes.size ≤ t.toNat →
        vm.nodes.size + vm.appended op ≤ t.toNat := by
  have hfield : ∀ {i n n'}, SlotStep vm op i n n' → ∀ t, n'.Holds t ↔ n.Holds t := by
    intro i n n' hstep t
    unfold Node.Holds
    refine exists_congr fun f => exists_congr fun v => ?_
    rw [hstep.field, hop, Option.none_or]
  rw [← h.size_eq]
  constructor
  · intro hafter i n hn ha t hholds ht
    by_cases hdrop : ∃ j, op = .dropNode j
    · obtain ⟨j, rfl⟩ := hdrop
      rw [h.size_eq]
      exact ht
    · have hslot := h.slot i.toNat
      rw [show vm.nodes.data[i.toNat]? = some n from hn] at hslot
      obtain ⟨n', hn', hstep⟩ := hslot
      have halive := hstep.stays fun j hj => hdrop ⟨j, hj⟩
      exact hafter i n' hn' (halive.trans ha) t ((hfield hstep t).mpr hholds) ht
  · intro hbefore i n' hn' ha t hholds ht
    have hslot := h.slot i.toNat
    cases hi : vm.nodes.data[i.toNat]? with
    | none =>
      rw [hi] at hslot
      exact absurd hholds (Node.not_holds_of_empty (hslot n' hn') t)
    | some n =>
      rw [hi] at hslot
      obtain ⟨n'', hn'', hstep⟩ := hslot
      obtain rfl := Option.some.inj (hn''.symm.trans hn')
      exact hbefore i n hi (hstep.alive ha) t ((hfield hstep t).mp hholds) ht

/-! ### What a write changes -/

section Write

variable {j : NodeId} {field : FieldId} {v : Value} {ext : List NodeId}

theorem owns_write (hnodes : vm'.nodes = vm.nodes.modify j.toNat fun n =>
    { n with refs := n.refs ++ ext }.setField field v) (t i : NodeId) :
    vm'.Owns t i ↔ vm.Owns t i := by
  unfold Owns
  rw [node?_of_modify hnodes]
  cases vm.node? t with
  | none => simp
  | some owner => by_cases ht : t = j <;> simp [ht, Node.setField]

/-- An id that a write loses is still in `refs`, so it is still named. -/
theorem keepsEdges_of_write {op : Op} (h0 : vm.RefsDescribe)
    (hnodes : vm'.nodes = vm.nodes.modify j.toNat fun n =>
      { n with refs := n.refs ++ ext }.setField field v)
    (happ : vm.appended op = 0)
    (hop : ∀ i f, op.written vm i f = if j.toNat = i ∧ field = f then some v else none)
    (h : vm'.RefsDescribe) : vm.KeepsEdges op := by
  refine ⟨fun i n hn ha t hholds ht => by rw [happ]; exact ht, ?_⟩
  intro i n hn ha f w old hw hold t ht hlt
  rw [hop] at hw
  split at hw
  · rename_i hc
    obtain rfl := Option.some.inj hw
    obtain ⟨hji, rfl⟩ := hc
    obtain rfl := UInt32.toNat_inj.mp hji
    have hn' := node?_of_modify hnodes (i := j)
    rw [hn, Option.map_some, if_pos rfl] at hn'
    have hrefs : t ∈ n.refs ++ ext :=
      List.mem_append_left _ ((h0 j n hn ha t).mpr (.inl ⟨hlt, field, old, hold, ht⟩))
    rcases (h j _ hn' ha t).mp hrefs with ⟨-, g, w, hg, hmem⟩ | hown
    · rw [Node.field_setField] at hg
      split at hg
      · obtain rfl := Option.some.inj hg
        exact .inl hmem
      · rename_i hne
        exact .inr (.inl ⟨g, w, hne, hg, hmem⟩)
    · exact .inr (.inr ((owns_write hnodes t j).mp hown))
  · cases hw

/-- The ids of the written value are recorded, and no id of the old one gets lost. -/
theorem describe_of_write {op : Op} (h0 : vm.RefsDescribe)
    (hnodes : vm'.nodes = vm.nodes.modify j.toNat fun n =>
      { n with refs := n.refs ++ ext }.setField field v)
    (hext : ∀ t, t ∈ ext ↔ t ∈ v.nodeIds ∧ t.toNat < vm.nodes.size)
    (hop : ∀ i f, op.written vm i f = if j.toNat = i ∧ field = f then some v else none)
    (h : vm.KeepsEdges op) : vm'.RefsDescribe := by
  intro i n' hn' ha t
  rw [owns_write hnodes, hnodes, Vec.size_modify]
  rw [node?_of_modify hnodes] at hn'
  obtain ⟨n, hn, rfl⟩ := Option.map_eq_some_iff.mp hn'
  by_cases hij : i = j
  · subst hij
    rw [if_pos rfl] at ha ⊢
    have hw : op.written vm i.toNat field = some v := by rw [hop, if_pos ⟨rfl, rfl⟩]
    have hbefore := h0 i n hn ha t
    constructor
    · intro ht
      rcases List.mem_append.mp ht with ht | ht
      · rcases hbefore.mp ht with ⟨hlt, f, old, hold, hmem⟩ | hown
        · by_cases hf : f = field
          · subst hf
            rcases h.overwrites i n hn ha f v old hw hold t hmem hlt with
              hv | ⟨g, w, hg, hgw, hmem⟩ | hown
            · exact .inl ⟨hlt, f, v, by rw [Node.field_setField, if_pos rfl], hv⟩
            · refine .inl ⟨hlt, g, w, ?_, hmem⟩
              rw [Node.field_setField, if_neg hg]
              exact hgw
            · exact .inr hown
          · refine .inl ⟨hlt, f, old, ?_, hmem⟩
            rw [Node.field_setField, if_neg hf]
            exact hold
        · exact .inr hown
      · obtain ⟨hv, hlt⟩ := (hext t).mp ht
        exact .inl ⟨hlt, field, v, by rw [Node.field_setField, if_pos rfl], hv⟩
    · rintro (⟨hlt, g, w, hg, hmem⟩ | hown)
      · rw [Node.field_setField] at hg
        split at hg
        · obtain rfl := Option.some.inj hg
          exact List.mem_append_right _ ((hext t).mpr ⟨hmem, hlt⟩)
        · exact List.mem_append_left _ (hbefore.mpr (.inl ⟨hlt, g, w, hg, hmem⟩))
      · exact List.mem_append_left _ (hbefore.mpr (.inr hown))
  · rw [if_neg hij] at ha ⊢
    exact h0 i n hn ha t

/-- **A write** leaves `refs` describing the graph iff no id of the old value gets lost. -/
theorem describe_write {op : Op} (h0 : vm.RefsDescribe)
    (hnodes : vm'.nodes = vm.nodes.modify j.toNat fun n =>
      { n with refs := n.refs ++ ext }.setField field v)
    (hext : ∀ t, t ∈ ext ↔ t ∈ v.nodeIds ∧ t.toNat < vm.nodes.size)
    (happ : vm.appended op = 0)
    (hop : ∀ i f, op.written vm i f = if j.toNat = i ∧ field = f then some v else none) :
    vm'.RefsDescribe ↔ vm.KeepsEdges op :=
  ⟨keepsEdges_of_write h0 hnodes happ hop, describe_of_write h0 hnodes hext hop⟩

end Write

/-! ### One opcode -/

/-- **An opcode leaves `refs` describing the graph** iff it keeps the edges. -/
theorem Effect.describe_iff {op : Op} (hsound : vm.Sound) (h0 : vm.RefsDescribe)
    (h : Effect env vm op vm') : vm'.RefsDescribe ↔ vm.KeepsEdges op := by
  by_cases hop : ∀ i f, op.written vm i f = none
  · have hsize : vm.nodes.size ≤ vm'.nodes.size := by
      rw [h.size_eq]
      exact Nat.le_add_right _ _
    rw [describe_iff_bound (h.describedBelow hsound h0 hop) hsize
      (fun i n hn hi => h.new_childless hsound hn hi), h.holds_iff hop]
    refine ⟨fun happ => ⟨happ, fun i n hn ha f v old hw => ?_⟩, fun hkeep => hkeep.appends⟩
    rw [hop] at hw
    cases hw
  · cases h with
    | setField => exact describe_write h0 rfl (fun t => mem_outgoing) rfl fun _ _ => rfl
    | @linkRef src field name node _ _ hm =>
      have hnodes : (vm.storeRef src field (vm.findNamed name)).nodes = vm.nodes.modify src.toNat
          fun n => { n with refs := n.refs ++ [vm.findNamed name] }.setField field
            (.ref (vm.findNamed name)) := rfl
      refine describe_write h0 hnodes (fun t => ?_) rfl fun i f => ?_
      · have hlt := hsound.findNamed_lt hm
        simp only [Value.nodeIds, if_neg hm, List.mem_singleton]
        exact ⟨fun ht => ⟨ht, ht ▸ hlt⟩, fun ht => ht.1⟩
      · simp [Op.written, hm]
    | linkRefMissing _ _ hm => exact absurd (fun i f => by simp [Op.written, hm]) hop
    | _ => exact absurd (fun i f => rfl) hop

end ReplayVM

/-! ## Runs -/

/-- No field of the heap names a node of it. -/
def HeapImage.NamesNone (heap : HeapImage) : Prop :=
  ∀ n ∈ heap.nodes.data, ∀ t, n.Holds t → heap.nodes.size ≤ t.toNat

section Runs

variable {env : Env}

/-- The references of a decoded heap are not recorded. -/
theorem describe_seed_iff {limits : Limits} {r r' : Bytes} {heap : HeapImage}
    (h : decodeHeap env.growth env.schema env.atoms limits r = .ok (heap, r')) :
    (ReplayVM.seed {} heap).RefsDescribe ↔ heap.NamesNone := by
  obtain ⟨hsize, hnode⟩ := decodeHeap_spec h
  have howns : ∀ t i, ¬ (ReplayVM.seed {} heap).Owns t i := by
    rintro t i ⟨owner, howner, hmem⟩
    rw [(hnode _ owner howner).children] at hmem
    cases hmem
  constructor
  · intro hdesc n hn t hholds
    by_contra hlt
    obtain ⟨i, hi⟩ := List.mem_iff_getElem?.mp hn
    have hlen : i < heap.nodes.size := (List.getElem?_eq_some_iff.mp hi).1
    have hmax := limits.maxNodes.toNat_lt
    have hi32 : (UInt32.ofNat i).toNat = i := toNat_ofNat_of_lt (by omega)
    have hat : (ReplayVM.seed {} heap).node? (UInt32.ofNat i) = some n := by
      show heap.nodes.data[(UInt32.ofNat i).toNat]? = _
      rw [hi32, hi]
    have hmem := (hdesc _ n hat (hnode i n hi).alive t).mpr (.inl ⟨Nat.not_le.mp hlt, hholds⟩)
    rw [(hnode i n hi).refs] at hmem
    cases hmem
  · intro hnone i n hn _ t
    have hheap : heap.nodes.data[i.toNat]? = some n := hn
    refine iff_of_false (by rw [(hnode _ n hheap).refs]; exact List.not_mem_nil) ?_
    rintro (⟨hlt, hholds⟩ | hown)
    · exact absurd hlt (Nat.not_lt.mpr (hnone n (List.mem_of_getElem? hheap) t hholds))
    · exact howns t i hown

/-- **`refs` describes the graph** from the heap on and in every state of a run, iff the heap names
no node in its fields and every opcode of the run keeps the edges. -/
theorem refs_describe_iff (hids : env.limits.IdsFit) {bytes rest : Bytes} {heap : HeapImage}
    (hheap : decodeHeap env.growth env.schema env.atoms env.limits bytes = .ok (heap, rest))
    (journal : Bytes) :
    ((ReplayVM.seed {} heap).RefsDescribe ∧
        ∀ vm, Visits env (ReplayVM.seed {} heap) journal vm → vm.RefsDescribe) ↔
      heap.NamesNone ∧
        ∀ k vm op vm', Executes env (ReplayVM.seed {} heap) journal k vm op vm' →
          vm.KeepsEdges op := by
  rw [describe_seed_iff hheap]
  refine and_congr_right fun hnone => ⟨?_, ?_⟩
  · intro h k vm op vm' hexec
    obtain ⟨r, hbefore⟩ := hexec.before
    obtain ⟨r', hafter⟩ := hexec.after
    have hdesc := h vm (visits_iff.mpr ⟨_, _, hbefore⟩)
    have hdesc' : vm'.RefsDescribe := h vm'.tick (visits_iff.mpr ⟨_, _, hafter⟩)
    exact (hexec.effect.describe_iff (sound_of_stateAt hids hheap hbefore) hdesc).mp hdesc'
  · intro h vm hvm
    obtain ⟨k, r, hstate⟩ := visits_iff.mp hvm
    refine hstate.induction (P := fun _ vm => vm.RefsDescribe)
      ((describe_seed_iff hheap).mpr hnone) ?_
    intro k vm op vm' hexec ih
    obtain ⟨r, hbefore⟩ := hexec.before
    have hdesc : vm'.RefsDescribe := (hexec.effect.describe_iff
      (sound_of_stateAt hids hheap hbefore) ih).mpr (h k vm op vm' hexec)
    exact hdesc

/-- Two nodes; the first refers to the second, then to itself. -/
def writtenTwice : List Op :=
  [.newNode 0 0, .newNode 0 1, .setField 0 0 (.ref 1), .setField 0 0 (.ref 0)]

theorem overwritten_ref_stays :
    ∃ heap vm, decodeHeap oneRefTwoNames.growth oneRefTwoNames.schema oneRefTwoNames.atoms
        oneRefTwoNames.limits [0] = .ok (heap, []) ∧
      Visits oneRefTwoNames (ReplayVM.seed {} heap) (4 :: writtenTwice.flatMap Op.encode) vm ∧
      ¬ vm.RefsDescribe := by
  refine ⟨⟨Vec.empty⟩, _, rfl,
    ⟨4, _, 4, [], rfl, by decide, Nat.le_refl 4, Machine.ok_of_fst rfl⟩, fun h => ?_⟩
  let first : Node := { id := 0, kind := 0, name := 0 }
  let once : Node := { first with refs := [1] }.setField 0 (.ref 1)
  let twice : Node := { once with refs := [1, 0] }.setField 0 (.ref 0)
  rcases (h 0 twice rfl rfl 1).mp List.mem_cons_self with ⟨-, f, v, hv, ht⟩ | ⟨owner, howner, hmem⟩
  · have hfield : twice.field f = if f = 0 then some (.ref 0) else once.field f :=
      Node.field_setField { once with refs := [1, 0] } 0 f (.ref 0)
    rw [hfield] at hv
    split at hv
    · obtain rfl := Option.some.inj hv
      exact absurd ht (by decide)
    · rename_i hf
      have honce : once.field f = if f = 0 then some (.ref 1) else first.field f :=
        Node.field_setField { first with refs := [1] } 0 f (.ref 1)
      rw [honce, if_neg hf] at hv
      cases hv
  · obtain rfl := Option.some.inj howner
    cases hmem

/-- Two nodes, and an edge of each sort: a `SET_FIELD`, a `LINK_REF` and a group. -/
def eachEdge : List Op :=
  [.newNode 0 0, .newNode 0 1, .setField 0 0 (.ref 1), .linkRef 1 0 0, .beginGroup 0 1, .addChild 1, .endGroup]

theorem refs_describe_eachEdge :
    (∃ vm, Machine.Ok (run oneRefTwoNames) (ReplayVM.seed {} ⟨Vec.empty⟩)
        (7 :: eachEdge.flatMap Op.encode) () vm [] ∧
      vm.nodes.data.map Node.refs = [[1], [0, 0]] ∧ vm.nodes.data.map Node.children = [[1], []]) ∧
    ((ReplayVM.seed {} ⟨Vec.empty⟩).RefsDescribe ∧
        (∀ vm, Visits oneRefTwoNames (ReplayVM.seed {} ⟨Vec.empty⟩)
          (7 :: eachEdge.flatMap Op.encode) vm → vm.RefsDescribe) ↔
      (⟨Vec.empty⟩ : HeapImage).NamesNone ∧
        ∀ k vm op vm', Executes oneRefTwoNames (ReplayVM.seed {} ⟨Vec.empty⟩)
          (7 :: eachEdge.flatMap Op.encode) k vm op vm' → vm.KeepsEdges op) := by
  have hheap : decodeHeap oneRefTwoNames.growth oneRefTwoNames.schema oneRefTwoNames.atoms
      oneRefTwoNames.limits [0] = .ok (⟨Vec.empty⟩, []) := rfl
  exact ⟨⟨_, Machine.ok_of_fst rfl, rfl, rfl⟩, refs_describe_iff idsFit_default hheap _⟩

end Runs

end Stratavm
