import Stratavm.ReplayVm.Reach

/-!
# What happens to a dropped node

A dropped node keeps its slot. `SET_FIELD` refuses it and the name index forgets it, but two
handlers reach it without looking at `alive`: `LINK_REF` addresses its source by id, and
`END_GROUP` writes to the owner that was alive when the group was opened. `WritesDropped` is these
two cases, read off the state before the opcode: the target of the `LINK_REF` is found, the group has a
child.

Everything else reaches a node by its name, which finds alive nodes only, or appends one. So it changes
alive nodes in place (`frozen_of_modify`), or none that were there (`frozen_of_same`).

* **`frozen_iff`**: an opcode leaves every dropped node as it is iff it is none of the two.
* `link_ref_thaws`: a `LINK_REF` from a dropped node writes its field.

Out of scope: who names a dropped node. Its id may stay in the fields and the children of others.
-/

namespace Stratavm

open Lib

/-- The parts of a node that dropping it freezes. -/
structure Node.Frozen (n n' : Node) : Prop where
  fields : n'.fields = n.fields
  children : n'.children = n.children
  refs : n'.refs = n.refs
  kind : n'.kind = n.kind
  name : n'.name = n.name
  generation : n'.generation = n.generation

namespace ReplayVM

/-- The dropped nodes of `vm` are as they were in `vm'`. -/
def Frozen (vm vm' : ReplayVM) : Prop :=
  ∀ i n, vm.node? i = some n → n.alive = false → ∃ n', vm'.node? i = some n' ∧ n.Frozen n'

/-- The node with this id has been dropped. -/
def Dropped (vm : ReplayVM) (i : NodeId) : Prop := ∃ n, vm.node? i = some n ∧ n.alive = false

/-- The opcodes that write to a dropped node: a `LINK_REF` from it whose target resolves, and the
`END_GROUP` of a group with children that it owns. -/
def WritesDropped (vm : ReplayVM) : Op → Prop
  | .linkRef src _ target => vm.Dropped src ∧ vm.findNamed target ≠ kInvalidNode
  | .endGroup => ∃ frame ∈ vm.frames.head?, frame.deferredChildren ≠ [] ∧ vm.Dropped frame.ownerId
  | _ => False

variable {env : Env} {vm vm' : ReplayVM}

/-- An `END_GROUP` writes to the owner of the innermost group. -/
theorem writesDropped_endGroup {frame : GroupFrame} {frames : List GroupFrame}
    (hf : vm.frames = frame :: frames) :
    vm.WritesDropped .endGroup ↔ frame.deferredChildren ≠ [] ∧ vm.Dropped frame.ownerId := by
  have hhead : vm.frames.head? = some frame := by rw [hf, List.head?_cons]
  constructor
  · rintro ⟨f, hmem, hwrites⟩
    obtain rfl := Option.some.inj (hhead.symm.trans hmem)
    exact hwrites
  · exact fun hwrites => ⟨frame, hhead, hwrites⟩

/-- An opcode that keeps the dropped nodes where they are keeps them. -/
theorem frozen_of_same (h : ∀ i n, vm.node? i = some n → n.alive = false → vm'.node? i = some n) :
    vm.Frozen vm' := fun i n hn ha => ⟨n, h i n hn ha, rfl, rfl, rfl, rfl, rfl, rfl⟩

/-- Changing an alive node in place keeps the dropped ones. -/
theorem frozen_of_modify {j : NodeId} {f : Node → Node} {node : Node}
    (hnode : vm.node? j = some node) (ha : node.alive = true)
    (h : vm'.nodes = vm.nodes.modify j.toNat f) : vm.Frozen vm' := by
  refine frozen_of_same fun i n hn hdead => ?_
  rw [node?_of_modify h, hn]
  by_cases hij : i = j
  · subst hij
    obtain rfl := Option.some.inj (hnode.symm.trans hn)
    rw [ha] at hdead
    cases hdead
  · simp [hij]

/-! ### Closing a group -/

/-- Linking children under an alive owner keeps the dropped nodes. -/
theorem frozen_of_resolve {frame : GroupFrame} {children : List AtomId} {owner : Node}
    (hint : vm.Integrity) (hsize : vm.nodes.size + children.length < 2 ^ 32)
    (hframe : frame.ownerCache.slot = frame.ownerId.toNat)
    (howner : vm.node? frame.ownerId = some owner) (ha : owner.alive = true)
    (h : resolve env frame children vm = some vm') : vm.Frozen vm' := by
  have hinv := hint.resolve_induction (P := fun mid =>
    (∀ i n, vm.node? i = some n → n.alive = false → mid.node? i = some n) ∧
      ∃ o, mid.node? frame.ownerId = some o ∧ o.alive = true) hframe hsize ?_
      ⟨fun i n hn _ => hn, owner, howner, ha⟩ h
  · exact frozen_of_same hinv.1
  · rintro mid child hmid hroom hlt ⟨hkeep, o, ho, hoa⟩
    have hmid32 : mid.nodes.size < 2 ^ 32 := by omega
    obtain ⟨t, ht, hta⟩ := hmid.alive_target hmid32 child
    refine ⟨fun i n hn hdead => ?_, _, hmid.node?_link hmid32 hlt ho, hoa⟩
    · rw [hmid.node?_link hmid32 hlt (hkeep i n hn hdead)]
      -- a dropped node is neither the owner nor the target, which are alive
      have hio : i ≠ frame.ownerId := by
        rintro rfl
        obtain rfl := Option.some.inj ((hkeep _ n hn hdead).symm.trans ho)
        rw [hoa] at hdead
        cases hdead
      have hit : i ≠ (mid.target env child).1 := by
        rintro rfl
        obtain rfl := Option.some.inj ((node?_target_of_some (hkeep _ n hn hdead)).symm.trans ht)
        rw [hta] at hdead
        cases hdead
      simp [Node.gain, hio, hit]

/-- A group with children gives its owner children. -/
theorem children_of_resolve {frame : GroupFrame} {child : AtomId} {children : List AtomId}
    {owner : Node} (hint : vm.Integrity)
    (hsize : vm.nodes.size + (child :: children).length < 2 ^ 32)
    (hframe : frame.ownerCache.slot = frame.ownerId.toNat)
    (howner : vm.node? frame.ownerId = some owner)
    (h : resolve env frame (child :: children) vm = some vm') :
    ∃ o, vm'.node? frame.ownerId = some o ∧ owner.children.length < o.children.length := by
  obtain ⟨slot, hs, ht, h⟩ := resolve_cons h
  obtain ⟨rfl, hlt⟩ := ownerSlot_eq hframe hs
  rw [List.length_cons] at hsize
  have hle := size_target_le env vm child
  refine ((hint.target (by omega) child).attach hlt ht).resolve_induction (P := fun mid =>
    ∃ o, mid.node? frame.ownerId = some o ∧ owner.children.length < o.children.length) hframe
    (by rw [size_attach]; omega) ?_ ?_ h
  · rintro mid child hmid hroom hlt ⟨o, ho, hlen⟩
    refine ⟨_, hmid.node?_link (by omega) hlt ho, ?_⟩
    simp only [Node.gain, List.length_append]
    omega
  · refine ⟨_, hint.node?_link (by omega) hlt howner, ?_⟩
    simp [Node.gain]

/-! ### One opcode -/

/-- The popped state of an `END_GROUP`, with the room its children need. -/
theorem Sound.pop (h : vm.Sound) {frame : GroupFrame} {frames : List GroupFrame}
    (hf : vm.frames = frame :: frames) : ({ vm with frames } : ReplayVM).Integrity ∧
      vm.nodes.size + frame.deferredChildren.length < 2 ^ 32 ∧
      frame.ownerCache.slot = frame.ownerId.toNat ∧ frame.ownerId.toNat < vm.nodes.size := by
  have hmem : frame ∈ vm.frames := by
    rw [hf]
    exact List.mem_cons_self
  have hroom := h.room
  simp only [weight, hf, List.map_cons, List.sum_cons] at hroom
  refine ⟨?_, by omega, h.slots frame hmem, h.frames frame hmem⟩
  exact h.toIntegrity.congr rfl rfl fun f hf' => h.frames f (hf ▸ List.mem_cons_of_mem _ hf')

/-- **A dropped node stays as it is, unless the opcode is one of the two that write to it.** -/
theorem Effect.frozenAfter_iff {op : Op} (hsound : vm.Sound) (h : Effect env vm op vm') :
    vm.Frozen vm' ↔ ¬ vm.WritesDropped op := by
  cases h with
  | newNode =>
    exact iff_of_true (frozen_of_same fun i n hn _ => node?_pushBack_of_some rfl hn) id
  | setField hnode _ _ ha => exact iff_of_true (frozen_of_modify hnode ha rfl) id
  | beginGroup =>
    refine iff_of_true (frozen_of_same fun i n hn _ => ?_) id
    simpa [node?, openGroup] using hn
  | @endGroup frame frames vm' hf hr =>
    obtain ⟨hint, hsize, hframe, hlt⟩ := hsound.pop hf
    obtain ⟨owner, howner⟩ : ∃ owner, vm.node? frame.ownerId = some owner :=
      ⟨_, List.getElem?_eq_getElem hlt⟩
    have hwrites : vm.WritesDropped .endGroup ↔
        frame.deferredChildren ≠ [] ∧ owner.alive = false := by
      rw [writesDropped_endGroup hf]
      simp [Dropped, howner]
    rw [hwrites]
    constructor
    · rintro hfrozen ⟨hchildren, hdead⟩
      obtain ⟨child, children, hcs⟩ := List.exists_cons_of_ne_nil hchildren
      rw [hcs] at hr hsize
      obtain ⟨o, ho, hlen⟩ := children_of_resolve hint hsize hframe howner hr
      obtain ⟨n', hn', hsame⟩ := hfrozen _ owner howner hdead
      obtain rfl := Option.some.inj (ho.symm.trans hn')
      rw [hsame.children] at hlen
      exact Nat.lt_irrefl _ hlen
    · intro hnot
      by_cases hchildren : frame.deferredChildren = []
      · rw [hchildren] at hr
        obtain rfl := Option.some.inj hr
        exact frozen_of_same fun i n hn _ => hn
      · have ha : owner.alive = true := by
          by_contra hdead
          exact hnot ⟨hchildren, Bool.eq_false_iff.mpr hdead⟩
        have hpop : ({ vm with frames } : ReplayVM).Frozen vm' :=
          frozen_of_resolve hint hsize hframe howner ha hr
        exact hpop
  | addChild => exact iff_of_true (frozen_of_same fun i n hn _ => hn) id
  | linkRefMissing _ _ hm =>
    exact iff_of_true (frozen_of_same fun i n hn _ => hn) fun hw => hw.2 hm
  | @linkRef src field name node hnode _ hm =>
    by_cases hdead : node.alive = false
    · refine iff_of_false (fun hfrozen => ?_) (not_not_intro ⟨⟨node, hnode, hdead⟩, hm⟩)
      obtain ⟨n', hn', hsame⟩ := hfrozen src node hnode hdead
      rw [node?_storeRef, hnode, Option.map_some, if_pos rfl] at hn'
      obtain rfl := Option.some.inj hn'
      simpa using hsame.refs
    · refine iff_of_true (frozen_of_modify hnode (by simpa using hdead) rfl) ?_
      rintro ⟨⟨n, hn, ha⟩, -⟩
      obtain rfl := Option.some.inj (hnode.symm.trans hn)
      exact hdead ha
  | dropDead => exact iff_of_true (frozen_of_same fun i n hn _ => hn) id
  | drop hnode ha => exact iff_of_true (frozen_of_modify hnode ha rfl) id
  | snapshot => exact iff_of_true (frozen_of_same fun i n hn _ => hn) id
  | setMeta => exact iff_of_true (frozen_of_same fun i n hn _ => hn) id
  | nop => exact iff_of_true (frozen_of_same fun i n hn _ => hn) id

end ReplayVM

/-! ## Runs -/

section Runs

variable {env : Env}

/-- **A dropped node is frozen exactly under the opcodes that do not write to it.** -/
theorem frozen_iff (hids : env.limits.IdsFit) {bytes rest : Bytes} {heap : HeapImage}
    (hheap : decodeHeap env.growth env.schema env.atoms env.limits bytes = .ok (heap, rest))
    {journal : Bytes} {vm vm' : ReplayVM} (hvm : Visits env (ReplayVM.seed {} heap) journal vm)
    {op : Op} (hop : ReplayVM.Effect env vm op vm') :
    vm.Frozen vm' ↔ ¬ vm.WritesDropped op := by
  obtain ⟨k, r, hstate⟩ := visits_iff.mp hvm
  exact hop.frozenAfter_iff (sound_of_stateAt hids hheap hstate)

/-- Two nodes of a kind with one reference field; the first is dropped. -/
def dropFirst : List Op := [.newNode 0 0, .newNode 0 1, .dropNode 0]

/-- One kind with one reference field, two names. -/
def oneRefTwoNames : Env where
  schema := { kinds := [{ name := 0, fields := [{ name := 0, type := .ref }] }] }
  atoms := { atoms := [[0x61], [0x62]] }

/-- The state after `dropFirst`. -/
def afterDrop : ReplayVM :=
  (runOps oneRefTwoNames 3 (ReplayVM.seed {} ⟨Vec.empty⟩) (dropFirst.flatMap Op.encode)).2

theorem visits_afterDrop :
    Visits oneRefTwoNames (ReplayVM.seed {} ⟨Vec.empty⟩) (3 :: dropFirst.flatMap Op.encode)
      afterDrop :=
  ⟨3, _, 3, [], rfl, by decide, Nat.le_refl 3, Machine.ok_of_fst rfl⟩

theorem link_ref_thaws :
    ∃ heap vm vm', decodeHeap oneRefTwoNames.growth oneRefTwoNames.schema oneRefTwoNames.atoms
        oneRefTwoNames.limits [0] = .ok (heap, []) ∧
      Visits oneRefTwoNames (ReplayVM.seed {} heap) (3 :: dropFirst.flatMap Op.encode) vm ∧
      ReplayVM.Effect oneRefTwoNames vm (.linkRef 0 0 1) vm' ∧ ¬ vm.Frozen vm' := by
  refine ⟨⟨Vec.empty⟩, afterDrop, afterDrop.storeRef 0 0 1, rfl, visits_afterDrop, ?_, ?_⟩
  · exact ReplayVM.exec_iff_effect.mp rfl
  · intro h
    obtain ⟨n', hn', hsame⟩ := h 0 _ rfl rfl
    obtain rfl := Option.some.inj hn'
    exact absurd hsame.refs (List.cons_ne_nil _ _)

theorem frozen_iff_dropAgain :
    afterDrop.Frozen afterDrop ↔ ¬ afterDrop.WritesDropped (.dropNode 0) := by
  have hheap : decodeHeap oneRefTwoNames.growth oneRefTwoNames.schema oneRefTwoNames.atoms
      oneRefTwoNames.limits [0] = .ok (⟨Vec.empty⟩, []) := rfl
  exact frozen_iff idsFit_default hheap visits_afterDrop (ReplayVM.exec_iff_effect.mp rfl)

end Runs

end Stratavm
