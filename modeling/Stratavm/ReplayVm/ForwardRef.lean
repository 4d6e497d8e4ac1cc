import Stratavm.ReplayVm.Reach

/-!
# Forward references

Closing a group makes a placeholder for a child that nothing defines yet and registers its name.
A later `NEW_NODE` of that name appends a node of its own and takes the name over: the placeholder
stays in its slot, and in the children of the owners that named it.

`FillsPlaceholders` is what the source's comments promise: where the name of a `NEW_NODE` resolves to an
alive placeholder, that slot has the defined node afterwards. The handler never looks at the slot that the
name resolves to (`Effect.newNode_keeps`), so what it promises only holds where there is nothing to fill.

* **`fills_iff`**: the definitions of a run fill the placeholders of their names iff it has no
  `NEW_NODE` whose name resolves to an alive placeholder.
* `definition_beside_placeholder`: a forward reference and its definition, in two slots.
-/

namespace Stratavm

open Lib

namespace ReplayVM

/-- The name resolves to an alive placeholder. -/
def ResolvesToPlaceholder (vm : ReplayVM) (name : AtomId) : Prop :=
  ∃ p, vm.foundNode? (vm.findNamed name) = some p ∧ p.placeholder = true ∧ p.alive = true

variable {env : Env} {vm vm' : ReplayVM}

theorem node?_of_foundNode? {i : NodeId} {n : Node} (h : vm.foundNode? i = some n) :
    vm.node? i = some n := by
  unfold foundNode? at h
  split at h
  · cases h
  · exact h

/-- **`NEW_NODE` never fills a slot**: it appends. -/
theorem Effect.newNode_keeps {kind : KindId} {name : AtomId}
    (h : Effect env vm (.newNode kind name) vm') {i : NodeId} {n : Node}
    (hn : vm.node? i = some n) : vm'.node? i = some n := by
  cases h with
  | newNode => exact node?_pushBack_of_some rfl hn

end ReplayVM

/-- The definitions of a run fill placeholders: a `NEW_NODE` whose name resolves to an alive
placeholder defines its slot, and from then on the owners that listed it have the defined node. -/
def FillsPlaceholders (env : Env) (vm0 : ReplayVM) (journal : Bytes) : Prop :=
  ∀ k vm kind name vm', Executes env vm0 journal k vm (.newNode kind name) vm' →
    vm.ResolvesToPlaceholder name →
      (∃ n, vm'.node? (vm.findNamed name) = some n ∧ n.id = vm.findNamed name ∧ n.kind = kind ∧
        n.placeholder = false) ∧
      ∀ j later r, k < j → StateAt env vm0 journal j later r →
        ∀ o owner, vm.node? o = some owner → vm.findNamed name ∈ owner.children →
          ∃ owner' n, later.node? o = some owner' ∧ vm.findNamed name ∈ owner'.children ∧
            later.node? (vm.findNamed name) = some n ∧ n.placeholder = false

section Runs

variable {env : Env}

/-- A definition of a name that resolves to a placeholder does not fill it. -/
theorem not_fills {vm0 : ReplayVM} {journal : Bytes} {k : Nat} {vm vm' : ReplayVM} {kind : KindId}
    {name : AtomId} (hexec : Executes env vm0 journal k vm (.newNode kind name) vm')
    (hname : vm.ResolvesToPlaceholder name) : ¬ FillsPlaceholders env vm0 journal := by
  intro h
  obtain ⟨⟨n, hn, -, -, hfilled⟩, -⟩ := h k vm kind name vm' hexec hname
  obtain ⟨p, hp, hplaceholder, -⟩ := hname
  have hkept := hexec.effect.newNode_keeps (ReplayVM.node?_of_foundNode? hp)
  obtain rfl := Option.some.inj (hkept.symm.trans hn)
  rw [hplaceholder] at hfilled
  cases hfilled

/-- **A run fills its placeholders iff it never defines the name of one.** -/
theorem fills_iff (env : Env) (vm0 : ReplayVM) (journal : Bytes) :
    FillsPlaceholders env vm0 journal ↔
      ∀ k vm kind name vm', Executes env vm0 journal k vm (.newNode kind name) vm' →
        ¬ vm.ResolvesToPlaceholder name := by
  constructor
  · intro h k vm kind name vm' hexec hname
    exact not_fills hexec hname h
  · intro h k vm kind name vm' hexec hname
    exact absurd hname (h k vm kind name vm' hexec)

/-- A node, a child of it that nothing defines, and the child's definition. -/
def definedLater : List Op :=
  [.newNode 0 0, .beginGroup 0 1, .addChild 1, .endGroup, .newNode 0 1]

/-- One kind without fields, two names. -/
def twoNamesCached : Env where
  schema := { kinds := [{ name := 0 }] }
  atoms := { atoms := [[0x61], [0x62]] }

/-- The state after the first `k` opcodes of `definedLater`, and the bytes of the others. -/
theorem stateAt_definedLater (k : Nat) {vm : ReplayVM} {r : Bytes} (hk : k ≤ 5)
    (h : Machine.Ok (runOps twoNamesCached k) (ReplayVM.seed {} ⟨Vec.empty⟩)
      (definedLater.flatMap Op.encode) () vm r) :
    StateAt twoNamesCached (ReplayVM.seed {} ⟨Vec.empty⟩)
      (5 :: definedLater.flatMap Op.encode) k vm r :=
  ⟨5, _, rfl, by decide, hk, h⟩

theorem definition_beside_placeholder :
    ∃ heap vm, decodeHeap twoNamesCached.growth twoNamesCached.schema twoNamesCached.atoms
        twoNamesCached.limits [0] = .ok (heap, []) ∧
      Machine.Ok (run twoNamesCached) (ReplayVM.seed {} heap)
        (5 :: definedLater.flatMap Op.encode) () vm [] ∧
      ¬ FillsPlaceholders twoNamesCached (ReplayVM.seed {} heap)
        (5 :: definedLater.flatMap Op.encode) := by
  refine ⟨⟨Vec.empty⟩, _, rfl, Machine.ok_of_fst rfl, ?_⟩
  have hexec : Executes twoNamesCached (ReplayVM.seed {} ⟨Vec.empty⟩)
      (5 :: definedLater.flatMap Op.encode) 4 _ (.newNode 0 1) _ :=
    ⟨ReplayVM.exec_iff_effect.mp rfl, (Op.newNode 0 1).encode, [],
      stateAt_definedLater 4 (by decide) (Machine.ok_of_fst rfl), rfl,
      stateAt_definedLater 5 (by decide) (Machine.ok_of_fst rfl)⟩
  exact not_fills hexec ⟨_, rfl, rfl, rfl⟩

end Runs

end Stratavm
