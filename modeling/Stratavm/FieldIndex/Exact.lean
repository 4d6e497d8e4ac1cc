import Mathlib.Data.Set.Card
import Stratavm.FieldIndex

/-!
# The field index is exact

`Exact` says of every structure of the index what it holds of a table: each lookup the ids of the
indexed nodes that match its key, by increasing id, and the enumeration every valid field value once.
The two counters are the number of such values and the number of nodes that are alive and no placeholders.

What `build` does is a fold over the entries of the table (`build_eq_foldl`), so each structure is a
selection of them. Selections of one table have increasing ids because ids are positions; the enumeration
of a kind has no repetition because no node visits a field twice (`nodup_map_entries`).

* **`build_exact`**: after `build`, for every table whose ids are positions, every order in which the
  field maps are visited, and whatever was indexed before.

Out of scope: tables whose ids are not positions. No run leaves one (`ReplayVm/Integrity.lean`).
-/

namespace Stratavm

open Lib

namespace FieldIndex

/-- The node at `i` is `n`, alive and no placeholder. -/
def Covered (nodes : List Node) (i : NodeId) (n : Node) : Prop :=
  nodes[i.toNat]? = some n ∧ n.alive = true ∧ n.placeholder = false

/-- A node of kind `k` that is covered has this valid value in this field. -/
def Triple (nodes : List Node) (k : KindId) (t : NodeId × FieldId × Value) : Prop :=
  ∃ n, Covered nodes t.1 n ∧ n.kind = k ∧ n.field t.2.1 = some t.2.2 ∧ t.2.2.valid = true

/-- `index` is what `nodes` says it should be. -/
structure Exact (index : FieldIndex) (nodes : List Node) : Prop where
  int : ∀ k f v i, i ∈ index.lookupInt k f v ↔
    ∃ n, Covered nodes i n ∧ n.kind = k ∧ n.field f = some (.int v)
  atom : ∀ k f a i, i ∈ index.lookupAtom k f a ↔
    ∃ n, Covered nodes i n ∧ n.kind = k ∧ n.field f = some (.atom a)
  hasField : ∀ k f i, i ∈ index.lookupHasField k f ↔
    ∃ n v, Covered nodes i n ∧ n.kind = k ∧ n.field f = some v ∧ v.valid = true
  name : ∀ a i, i ∈ index.lookupByName a ↔ ∃ n, Covered nodes i n ∧ n.name = a ∧ a ≠ kInvalidAtom
  int_increasing : ∀ k f v, (index.lookupInt k f v).Pairwise (· < ·)
  atom_increasing : ∀ k f a, (index.lookupAtom k f a).Pairwise (· < ·)
  hasField_increasing : ∀ k f, (index.lookupHasField k f).Pairwise (· < ·)
  name_increasing : ∀ a, (index.lookupByName a).Pairwise (· < ·)
  forEach : ∀ k t, t ∈ index.forEachInKind k ↔ Triple nodes k t
  forEach_once : ∀ k, (index.forEachInKind k).Nodup
  entries : index.entryCount = Set.ncard {t | ∃ k, Triple nodes k t}
  nodes : index.nodeCount = nodes.countP fun n => n.alive && !n.placeholder

section Exactness

variable {order : FieldOrder} {nodes : List Node}

theorem indexed_iff {n : Node} : indexed n = true ↔ n.alive = true ∧ n.placeholder = false := by
  simp [indexed]

theorem mem_entries {t : Node × FieldId × Value} : t ∈ entries order nodes ↔
    t.1 ∈ nodes ∧ indexed t.1 = true ∧ t.1.field t.2.1 = some t.2.2 ∧ t.2.2.valid = true := by
  rw [entries, List.mem_flatMap]
  constructor
  · rintro ⟨n, hn, ht⟩
    obtain ⟨rfl, hfield, hvalid⟩ := mem_nodeEntries.mp ht
    obtain ⟨hn, hindexed⟩ := List.mem_filter.mp hn
    exact ⟨hn, hindexed, hfield, hvalid⟩
  · rintro ⟨hn, hindexed, hfield, hvalid⟩
    exact ⟨t.1, List.mem_filter.mpr ⟨hn, hindexed⟩, mem_nodeEntries.mpr ⟨rfl, hfield, hvalid⟩⟩

/-- The entries of a table by id. -/
theorem mem_map_entries (hids : IdsArePositions nodes) (order : FieldOrder) {k : KindId}
    {t : NodeId × FieldId × Value} :
    t ∈ ((entries order nodes).filter fun t => t.1.kind = k).map (fun t => (t.1.id, t.2)) ↔
      Triple nodes k t := by
  rw [List.mem_map]
  constructor
  · rintro ⟨⟨n, f, v⟩, ht, rfl⟩
    obtain ⟨ht, hk⟩ := List.mem_filter.mp ht
    obtain ⟨hn, hindexed, hfield, hvalid⟩ := mem_entries.mp ht
    exact ⟨n, ⟨hids.mem_iff.mp ⟨hn, rfl⟩, indexed_iff.mp hindexed⟩, of_decide_eq_true hk, hfield, hvalid⟩
  · rintro ⟨n, ⟨hn, hindexed⟩, hk, hfield, hvalid⟩
    obtain ⟨hn, hid⟩ := hids.mem_iff.mpr hn
    refine ⟨(n, t.2), List.mem_filter.mpr ⟨?_, decide_eq_true hk⟩, Prod.ext hid rfl⟩
    exact mem_entries.mpr ⟨hn, indexed_iff.mpr hindexed, hfield, hvalid⟩

/-- **No field of a node is visited twice.** -/
theorem nodup_map_entries (hids : IdsArePositions nodes) :
    ((entries order nodes).map fun t => (t.1.id, t.2)).Nodup := by
  rw [entries, List.map_flatMap, List.nodup_flatMap]
  constructor
  · intro n _
    refine (nodup_nodeEntries order n).map_on fun t ht t' ht' heq => ?_
    obtain ⟨hn, -⟩ := mem_nodeEntries.mp ht
    obtain ⟨hn', -⟩ := mem_nodeEntries.mp ht'
    exact Prod.ext (hn.trans hn'.symm) (Prod.mk.inj heq).2
  · have hdistinct : (nodes.filter indexed).Pairwise fun n m => n.id ≠ m.id :=
      List.pairwise_map.mp (hids.nodup.sublist (List.filter_sublist.map Node.id))
    refine hdistinct.imp fun hne => ?_
    rw [Function.onFun, List.disjoint_left]
    rintro t ht ht'
    obtain ⟨u, hu, rfl⟩ := List.mem_map.mp ht
    obtain ⟨u', hu', heq⟩ := List.mem_map.mp ht'
    obtain ⟨hn, -⟩ := mem_nodeEntries.mp hu
    obtain ⟨hn', -⟩ := mem_nodeEntries.mp hu'
    exact hne (hn ▸ hn' ▸ (Prod.mk.inj heq).1.symm)

theorem length_entries (hids : IdsArePositions nodes) :
    (entries order nodes).length = Set.ncard {t | ∃ k, Triple nodes k t} := by
  have hset : {t | ∃ k, Triple nodes k t} =
      ↑((entries order nodes).map fun t => (t.1.id, t.2)).toFinset := by
    ext t
    rw [List.coe_toFinset]
    constructor
    · rintro ⟨k, ht⟩
      obtain ⟨u, hu, heq⟩ := List.mem_map.mp ((mem_map_entries hids order).mpr ht)
      exact List.mem_map.mpr ⟨u, (List.mem_filter.mp hu).1, heq⟩
    · intro ht
      obtain ⟨u, hu, heq⟩ := List.mem_map.mp ht
      refine ⟨u.1.kind, (mem_map_entries hids order).mp ?_⟩
      exact List.mem_map.mpr ⟨u, List.mem_filter.mpr ⟨hu, decide_eq_true rfl⟩, heq⟩
  rw [hset, Set.ncard_coe_finset, List.toFinset_card_of_nodup (nodup_map_entries hids),
    List.length_map]

/-- **The field index is exact**, whatever was indexed before. -/
theorem build_exact (hids : IdsArePositions nodes) (order : FieldOrder) (index : FieldIndex) :
    (build order index nodes).Exact nodes where
  int k f v i := by
    rw [lookupInt_build, hids.mem_map_filter]
    refine exists_congr fun n => ?_
    rw [Covered, ← indexed_iff]
    simp [and_assoc]
  atom k f a i := by
    rw [lookupAtom_build, hids.mem_map_filter]
    refine exists_congr fun n => ?_
    rw [Covered, ← indexed_iff]
    simp [and_assoc]
  hasField k f i := by
    rw [lookupHasField_build, hids.mem_map_filter]
    refine exists_congr fun n => ?_
    rw [Covered, ← indexed_iff]
    simp only [Bool.and_eq_true, beq_iff_eq, Option.any_eq_true, and_assoc, exists_and_left]
  name a i := by
    rw [lookupByName_build, hids.mem_map_filter]
    refine exists_congr fun n => ?_
    rw [Covered, ← indexed_iff, and_assoc, Bool.and_eq_true, Bool.and_eq_true, beq_iff_eq, bne_iff_ne]
    refine and_congr_right fun _ => and_congr_right fun _ => and_congr_right fun hname => ?_
    rw [hname]
  int_increasing k f v := by
    rw [lookupInt_build]
    exact hids.map_filter_increasing _
  atom_increasing k f a := by
    rw [lookupAtom_build]
    exact hids.map_filter_increasing _
  hasField_increasing k f := by
    rw [lookupHasField_build]
    exact hids.map_filter_increasing _
  name_increasing a := by
    rw [lookupByName_build]
    exact hids.map_filter_increasing _
  forEach k t := by
    rw [forEachInKind_build]
    exact mem_map_entries hids order
  forEach_once k := by
    rw [forEachInKind_build]
    exact (nodup_map_entries hids).sublist (List.filter_sublist.map _)
  entries := by rw [entryCount_build, length_entries hids]
  nodes := nodeCount_build index nodes

end Exactness

/-- A node with an integer, then an index of nothing. -/
theorem build_exact_oneInt : ∃ order : FieldOrder,
    (build order (build order {} [({ id := 0, kind := 0 } : Node).setField 0 (.int 7)]) []).Exact [] ∧
      (build order {} [({ id := 0, kind := 0 } : Node).setField 0 (.int 7)]).Exact
        [({ id := 0, kind := 0 } : Node).setField 0 (.int 7)] := by
  obtain ⟨order⟩ := exists_fieldOrder
  refine ⟨order, build_exact (fun i n h => by simp at h) order _, build_exact (fun i n h => ?_) order {}⟩
  obtain ⟨hi, hn⟩ := List.getElem?_eq_some_iff.mp h
  obtain rfl : i = 0 := by simpa using hi
  rw [← hn]
  rfl

end FieldIndex

end Stratavm
