import Stratavm.ReplayVm.Exec

/-!
# Field typing

A node of a loaded and replayed graph is a placeholder without fields, or has a declared kind and
holds in each field a value of the type that kind declares (`Node.WellTyped`). Fields are written
by the heap decoder, `SET_FIELD` and `LINK_REF`; nothing else touches a node's kind or fields
(`Node.WellTyped.congr`).

* **`field_typing`**: every node is well typed in every state of a run from a decoded heap,
  whatever the limits and however the owner's slot is found.
* `kinded_of_visits`: in such a state the placeholders are the nodes without a kind.
-/

namespace Stratavm

open Lib

namespace ReplayVM

/-- Every node of the table is well typed. -/
def WellTyped (schema : Schema) (vm : ReplayVM) : Prop :=
  ∀ n ∈ vm.nodes.data, n.WellTyped schema

variable {env : Env} {vm vm' : ReplayVM} {schema : Schema}

/-- Changing one node keeps a property of the nodes if the change keeps it of that node. -/
theorem forall_modify {P : Node → Prop} {nodes : List Node} (h : ∀ n ∈ nodes, P n) {i : Nat}
    {f : Node → Node} (hf : ∀ n, nodes[i]? = some n → P n → P (f n)) :
    ∀ n ∈ nodes.modify i f, P n := by
  intro n hn
  obtain ⟨j, hj⟩ := List.mem_iff_getElem?.mp hn
  rw [List.getElem?_modify] at hj
  obtain ⟨m, hm, rfl⟩ := Option.map_eq_some_iff.mp hj
  have hmem := h m (List.mem_of_getElem? hm)
  by_cases hij : i = j
  · subst hij
    simpa using hf m hm hmem
  · simpa [hij] using hmem

theorem forall_pushBack {P : Node → Prop} (h : ∀ n ∈ vm.nodes.data, P n) {n : Node} (hn : P n) :
    ∀ m ∈ (vm.nodes.pushBack env.growth n).data, P m := by
  intro m hm
  rw [Vec.data_pushBack] at hm
  rcases List.mem_append.mp hm with hm | hm
  · exact h m hm
  · rcases List.mem_singleton.mp hm with rfl
    exact hn

theorem WellTyped.target (h : vm.WellTyped schema) (child : AtomId) :
    (vm.target env child).2.WellTyped schema := by
  rcases target_eq env vm child with ⟨-, heq⟩ | ⟨-, heq⟩
  · rw [heq]
    exact forall_pushBack h (.placeholder rfl rfl rfl)
  · rw [heq]
    exact h

/-- Linking writes no field. -/
theorem WellTyped.attach (h : vm.WellTyped schema) (slot : Nat) (target : NodeId) :
    (vm.attach slot target).WellTyped schema := by
  refine forall_modify (forall_modify h ?_) ?_
  · exact fun n _ hn => hn.congr rfl rfl rfl
  · exact fun n _ hn => hn.congr rfl rfl rfl

theorem resolve_wellTyped {frame : GroupFrame} {children : List AtomId} (h0 : vm.WellTyped schema)
    (h : resolve env frame children vm = some vm') : vm'.WellTyped schema := by
  refine resolve_induction (P := fun vm => vm.WellTyped schema) h h0 fun vm child slot _ _ hvm => ?_
  exact (hvm.target child).attach slot _

/-- **An opcode keeps the table well typed.** -/
theorem Effect.wellTyped {op : Op} (hschema : env.schema.Typed) (h0 : vm.WellTyped env.schema)
    (h : Effect env vm op vm') : vm'.WellTyped env.schema := by
  cases h with
  | newNode hk =>
    obtain ⟨kind, hkind⟩ := Option.ne_none_iff_exists'.mp hk
    exact forall_pushBack h0 (.declared hkind fun f v hv => by simp [Node.field] at hv)
  | @setField _ _ v node hnode hv ht =>
    refine forall_modify h0 fun n hn hwt => ?_
    obtain rfl : node = n := Option.some.inj (hnode.symm.trans hn)
    have hrefs : Node.WellTyped env.schema
        { node with refs := node.refs ++ outgoing vm.nodes.size v } := hwt.congr rfl rfl rfl
    exact hrefs.setField hschema hv ht
  | beginGroup => simpa [WellTyped, openGroup] using h0
  | @endGroup _ frames _ hf hr =>
    have hpop : ({ vm with frames } : ReplayVM).WellTyped env.schema := h0
    exact resolve_wellTyped hpop hr
  | addChild => exact h0
  | linkRefMissing => exact h0
  | linkRef hnode ht =>
    refine forall_modify h0 fun n hn hwt => ?_
    obtain rfl := Option.some.inj (hnode.symm.trans hn)
    exact (hwt.setField hschema (v := .ref _) (by rintro ⟨⟩) ht).congr rfl rfl rfl
  | dropDead => exact h0
  | drop => exact forall_modify h0 fun n _ hn => hn.congr rfl rfl rfl
  | snapshot => exact h0
  | setMeta => exact h0
  | nop => exact h0

/-! ### The nodes without a kind -/

/-- The placeholders are the nodes without a kind. -/
def Kinded (vm : ReplayVM) : Prop := ∀ n ∈ vm.nodes.data, n.placeholder = true ↔ n.kind = kInvalidKind

theorem Kinded.target (h : vm.Kinded) (child : AtomId) : (vm.target env child).2.Kinded := by
  rcases target_eq env vm child with ⟨-, heq⟩ | ⟨-, heq⟩
  · rw [heq]
    exact forall_pushBack h (iff_of_true rfl rfl)
  · rw [heq]
    exact h

theorem resolve_kinded {frame : GroupFrame} {children : List AtomId} (h0 : vm.Kinded)
    (h : resolve env frame children vm = some vm') : vm'.Kinded := by
  refine resolve_induction (P := Kinded) h h0 fun vm child slot _ _ hvm => ?_
  refine forall_modify (forall_modify (hvm.target child) ?_) ?_
  · exact fun _ _ hn => hn
  · exact fun _ _ hn => hn

/-- **An opcode makes no other node without a kind**, under a schema that does not declare
`kInvalidKind`. -/
theorem Effect.kinded {op : Op} (hschema : env.schema.Typed) (h0 : vm.Kinded)
    (h : Effect env vm op vm') : vm'.Kinded := by
  cases h with
  | newNode hk =>
    refine forall_pushBack h0 (iff_of_false Bool.false_ne_true ?_)
    rintro rfl
    exact hk hschema.kind_invalid
  | setField => exact forall_modify h0 fun _ _ hn => hn
  | beginGroup => simpa [Kinded, openGroup] using h0
  | @endGroup _ frames _ hf hr =>
    have hpop : ({ vm with frames } : ReplayVM).Kinded := h0
    exact resolve_kinded hpop hr
  | linkRef => exact forall_modify h0 fun _ _ hn => hn
  | drop => exact forall_modify h0 fun _ _ hn => hn
  | addChild => exact h0
  | linkRefMissing => exact h0
  | dropDead => exact h0
  | snapshot => exact h0
  | setMeta => exact h0
  | nop => exact h0

end ReplayVM

/-- **Placeholders are the nodes without a kind** in every state of a run from a decoded heap. -/
theorem kinded_of_visits {env : Env} {schemaBytes heapBytes rest rest' journal : Bytes}
    {limits : Limits} (hschema : Schema.decode env.atoms limits schemaBytes = .ok (env.schema, rest))
    {heap : HeapImage}
    (hheap : decodeHeap env.growth env.schema env.atoms env.limits heapBytes = .ok (heap, rest'))
    {vm : ReplayVM} (hvm : Visits env (ReplayVM.seed {} heap) journal vm) : vm.Kinded := by
  have htyped := Schema.decode_typed hschema
  obtain ⟨ops, r, r', -, hrep⟩ := hvm.replays
  refine hrep.invariant (P := ReplayVM.Kinded) (fun h heff => (heff.kinded htyped h :)) fun n hn => ?_
  obtain ⟨i, hi⟩ := List.mem_iff_getElem?.mp hn
  have hnode := (decodeHeap_spec hheap).2 i n hi
  rw [hnode.placeholder]
  refine iff_of_false Bool.false_ne_true fun hk => ?_
  have hdeclared := hnode.kind
  rw [hk, htyped.kind_invalid] at hdeclared
  cases hdeclared

/-- **Field typing is an invariant of loading and replay.** -/
theorem field_typing {env : Env} {schemaBytes heapBytes rest rest' journal : Bytes}
    {limits : Limits} (hschema : Schema.decode env.atoms limits schemaBytes = .ok (env.schema, rest))
    {heap : HeapImage}
    (hheap : decodeHeap env.growth env.schema env.atoms env.limits heapBytes = .ok (heap, rest'))
    {vm : ReplayVM} (hvm : Visits env (ReplayVM.seed {} heap) journal vm) :
    ∀ n ∈ vm.nodes.data, n.WellTyped env.schema := by
  obtain ⟨ops, r, r', -, hrep⟩ := hvm.replays
  refine hrep.invariant (P := ReplayVM.WellTyped env.schema) ?_ ?_
  · exact fun h heff => (heff.wellTyped (Schema.decode_typed hschema) h :)
  · intro n hn
    obtain ⟨i, hi⟩ := List.mem_iff_getElem?.mp hn
    exact .ofHeap ((decodeHeap_spec hheap).2 i n hi)

/-- One kind with one reference field. -/
def oneRef : Env where
  schema := { kinds := [{ name := 0, fields := [{ name := 0, type := .ref }] }] }
  atoms := { atoms := [[0x61]] }

/-- The heap with one named node of it. -/
def oneNode : HeapImage := ⟨⟨[{ id := 0, kind := 0, name := 0 }], 1, 1, Nat.le_refl 1⟩⟩

theorem oneRef_schema : Schema.decode oneRef.atoms oneRef.limits [1, 0, 1, 0, 3, 0] =
    .ok (oneRef.schema, []) := rfl

theorem oneNode_heap : decodeHeap oneRef.growth oneRef.schema oneRef.atoms oneRef.limits
    [1, 0, 0, 0, 0] = .ok (oneNode, []) := rfl

/-- The node refers to itself. -/
theorem selfRef_visits : Visits oneRef (ReplayVM.seed {} oneNode) (1 :: (Op.linkRef 0 0 0).encode)
    (runOps oneRef 1 (ReplayVM.seed {} oneNode) (Op.linkRef 0 0 0).encode).2 :=
  ⟨1, _, 1, [], rfl, by decide, Nat.le_refl 1, Machine.ok_of_fst rfl⟩

theorem field_typing_selfRef :
    (runOps oneRef 1 (ReplayVM.seed {} oneNode) (Op.linkRef 0 0 0).encode).2.WellTyped
      oneRef.schema :=
  field_typing oneRef_schema oneNode_heap selfRef_visits

end Stratavm
