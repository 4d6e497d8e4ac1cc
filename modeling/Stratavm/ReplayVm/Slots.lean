import Stratavm.ReplayVm.Fields

/-!
# What every opcode leaves of a node

Node ids are never reused, and a node keeps its kind and its name for good: the kinds and the names of
a later table extend those of an earlier one (`labels`). The rest of a node may change; what an
opcode does to fields and references is in `ReplayVm/Fields.lean`.

* `Effect.labels_prefix`: an opcode appends nodes and relabels none.
* `Effect.size_same`, `Effect.size_quiet`: only `NEW_NODE` and an `END_GROUP` that makes placeholders
  append any.
* `Effect.alive_before`: a node that is alive was alive before, or is new, and was not dropped.
* `labels_of_replays`, `alive_of_replays`: the same over a run.
-/

namespace Stratavm

open Lib

namespace ReplayVM

variable {env : Env} {vm vm' : ReplayVM}

/-- The kinds of the nodes, by id. -/
def kinds (vm : ReplayVM) : List KindId := vm.nodes.data.map Node.kind

/-- The names of the nodes, by id. -/
def names (vm : ReplayVM) : List AtomId := vm.nodes.data.map Node.name

/-- What a node keeps for good. -/
def labels (vm : ReplayVM) : List (KindId × AtomId) := vm.nodes.data.map fun n => (n.kind, n.name)

theorem length_kinds : vm.kinds.length = vm.nodes.size := List.length_map ..

theorem map_fst_labels : vm.labels.map Prod.fst = vm.kinds := List.map_map ..

theorem map_snd_labels : vm.labels.map Prod.snd = vm.names := List.map_map ..

theorem labels_of_modify {i : Nat} {f : Node → Node} (h : vm'.nodes = vm.nodes.modify i f)
    (hf : ∀ n, ((f n).kind, (f n).name) = (n.kind, n.name)) : vm'.labels = vm.labels := by
  unfold labels
  rw [h]
  exact map_modify_eq hf ..

theorem labels_le_of_modify {i : Nat} {f : Node → Node} (h : vm'.nodes = vm.nodes.modify i f)
    (hf : ∀ n, ((f n).kind, (f n).name) = (n.kind, n.name)) : vm.labels <+: vm'.labels := by
  rw [labels_of_modify h hf]

theorem labels_attach (slot : Nat) (target : NodeId) :
    (vm.attach slot target).labels = vm.labels := by
  let one : ReplayVM := { vm with
    nodes := vm.nodes.modify slot fun n => { n with children := n.children ++ [target] } }
  have hone : one.labels = vm.labels := by
    refine labels_of_modify rfl ?_
    exact fun _ => rfl
  refine Eq.trans (labels_of_modify rfl ?_) hone
  exact fun _ => rfl

theorem labels_target (env : Env) (vm : ReplayVM) (child : AtomId) :
    vm.labels <+: (vm.target env child).2.labels := by
  rcases target_eq env vm child with ⟨-, heq⟩ | ⟨-, heq⟩
  · rw [heq]
    refine ⟨[(kInvalidKind, child)], ?_⟩
    simp [labels, materializePlaceholder]
  · rw [heq]

theorem labels_resolve {frame : GroupFrame} {children : List AtomId}
    (h : resolve env frame children vm = some vm') : vm.labels <+: vm'.labels := by
  refine resolve_induction (P := fun mid => vm.labels <+: mid.labels) h List.prefix_rfl
    fun mid child slot _ _ hmid => ?_
  rw [labels_attach]
  exact hmid.trans (labels_target env mid child)

/-- **Nodes keep their kinds and names.** -/
theorem Effect.labels_prefix {op : Op} (h : Effect env vm op vm') : vm.labels <+: vm'.labels := by
  cases h with
  | newNode =>
    unfold labels createNode
    rw [Vec.data_pushBack, List.map_append]
    exact List.prefix_append _ _
  | @endGroup _ frames _ _ hr =>
    have hresolve : ({ vm with frames } : ReplayVM).labels <+: vm'.labels := labels_resolve hr
    exact hresolve
  | setField | linkRef | drop =>
    refine labels_le_of_modify rfl ?_
    exact fun _ => rfl
  | beginGroup =>
    unfold labels openGroup
    rw [Vec.data_reserve]
  | _ => exact List.prefix_rfl

theorem Effect.kinds_prefix {op : Op} (h : Effect env vm op vm') : vm.kinds <+: vm'.kinds := by
  rw [← map_fst_labels, ← map_fst_labels]
  exact h.labels_prefix.map Prod.fst

theorem Effect.names_prefix {op : Op} (h : Effect env vm op vm') : vm.names <+: vm'.names := by
  rw [← map_snd_labels, ← map_snd_labels]
  exact h.labels_prefix.map Prod.snd

theorem Effect.kinds_eq {op : Op} (h : Effect env vm op vm')
    (hsize : vm'.nodes.size = vm.nodes.size) : vm'.kinds = vm.kinds := by
  refine (h.kinds_prefix.eq_of_length ?_).symm
  rw [length_kinds, length_kinds, hsize]

theorem Effect.size_mono {op : Op} (h : Effect env vm op vm') : vm.nodes.size ≤ vm'.nodes.size := by
  have hle := h.kinds_prefix.length_le
  rwa [length_kinds, length_kinds] at hle

/-- An opcode other than `NEW_NODE` and `END_GROUP` appends no node. -/
theorem Effect.size_same {op : Op} (h : Effect env vm op vm') (hnew : op.code ≠ .newNode)
    (hend : op.code ≠ .endGroup) : vm'.nodes.size = vm.nodes.size := by
  cases h with
  | newNode => exact absurd rfl hnew
  | endGroup => exact absurd rfl hend
  | setField | beginGroup | linkRef | drop => simp
  | _ => rfl

/-- Nor does an `END_GROUP` that makes no placeholder. -/
theorem Effect.size_quiet {op : Op} (h : Effect env vm op vm') (hnew : op.code ≠ .newNode)
    (hquiet : op = .endGroup → vm'.nodes.size = vm.nodes.size) : vm'.nodes.size = vm.nodes.size := by
  cases op with
  | endGroup => exact hquiet rfl
  | newNode => exact absurd rfl hnew
  | _ => exact h.size_same nofun nofun

/-- What is alive after an opcode was alive before, or is new, and was not dropped. -/
theorem Effect.alive_before {op : Op} (heff : Effect env vm op vm')
    {i : NodeId} {n' : Node} (hn' : vm'.node? i = some n') (ha : n'.alive = true) :
    op ≠ .dropNode i ∧
      (vm.nodes.size ≤ i.toNat ∨ ∃ n, vm.node? i = some n ∧ n.alive = true) := by
  constructor
  · rintro rfl
    cases heff with
    | dropDead hnode hdead =>
      obtain rfl := Option.some.inj (hnode.symm.trans hn')
      rw [ha] at hdead
      cases hdead
    | drop hnode _ =>
      rw [node?_drop, hnode, Option.map_some, if_pos rfl] at hn'
      obtain rfl := Option.some.inj hn'
      cases ha
  · have hslot := heff.slot i.toNat
    cases hn : vm.nodes.data[i.toNat]? with
    | none => exact .inl (List.getElem?_eq_none_iff.mp hn)
    | some n =>
      rw [hn] at hslot
      obtain ⟨m, hm, hstep⟩ := hslot
      obtain rfl := Option.some.inj (hm.symm.trans hn')
      exact .inr ⟨n, hn, hstep.alive ha⟩

end ReplayVM

/-! ## Along a run -/

section Runs

variable {env : Env} {vm vm' : ReplayVM} {ops : List Op} {r r' : Bytes}

theorem labels_of_replays (h : Replays env ops vm r vm' r') : vm.labels <+: vm'.labels := by
  induction h with
  | nil => exact List.prefix_rfl
  | cons _ heff _ ih => exact heff.labels_prefix.trans ih

/-- What is alive at the end of a run was alive at its start, or is new. -/
theorem alive_of_replays (h : Replays env ops vm r vm' r') {i : NodeId} {n' : Node}
    (hn' : vm'.node? i = some n') (ha : n'.alive = true) :
    vm.nodes.size ≤ i.toNat ∨ ∃ n, vm.node? i = some n ∧ n.alive = true := by
  induction h with
  | nil => exact .inr ⟨n', hn', ha⟩
  | cons _ heff _ ih =>
    rcases ih hn' with hnew | ⟨n1, hn1, ha1⟩
    · exact .inl (Nat.le_trans heff.size_mono hnew)
    · exact (heff.alive_before hn1 ha1).2

end Runs

end Stratavm
