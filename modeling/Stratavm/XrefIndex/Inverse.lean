import Stratavm.Lib.Buckets
import Stratavm.ReplayVm.Reach
import Stratavm.ReplayVm.Typing
import Stratavm.XrefIndex

/-!
# The index inverts the graph

`build` records each edge under its target and each node under its kind. `recordEdges` drops an edge
to a node out of range, and a node of kind `kInvalidKind` is in no list, so what is recorded is all
there is because the machine keeps edges in range and gives every node but a placeholder a kind.

`build` is called on an index that may hold another table, so it starts from what it clears (`rebuild`),
and nothing of the earlier table is left (`rebuild_eq`). Its two loops fill two structures and do not look
at each other's.

* `getElem?_reverseAdj`: the referrers of a node, in table order, each as often as it has the node
  as an edge.
* `sum_reverseAdj`: the lists are as long together as the edge lists, so no edge is lost.
* `byKind_build`: the nodes of a kind, in table order.
* **`xref_inverts`**: in every state of a run from a decoded heap, whatever was built before.
-/

namespace Stratavm

open Lib

namespace XrefIndex

/-! ## Building over an earlier index -/

/-- `XrefIndex::by_kind`. -/
def byKind (index : XrefIndex) (kind : KindId) : List NodeId := (index.kindToIds.lookup kind).getD []

/-- `XrefIndex::referrers`. -/
def referrers (index : XrefIndex) (target : NodeId) : List NodeId :=
  if target.toNat ≥ index.reverseAdj.length then [] else (index.reverseAdj[target.toNat]?).getD []

/-- What `build` empties before it scans a table of `size` nodes. -/
def cleared (index : XrefIndex) (size : Nat) : XrefIndex :=
  { index with nameToId := ∅, kindToIds := ∅, reverseAdj := List.replicate size [] }

/-- The first loop of `build` at `n`. -/
def indexNode (index : XrefIndex) (n : Node) : XrefIndex :=
  let nameToId :=
    if n.name ≠ kInvalidAtom ∧ n.alive = true then index.nameToId.insert n.name n.id
    else index.nameToId
  let kindToIds :=
    if n.kind ≠ kInvalidKind then
      index.kindToIds.insert n.kind ((index.kindToIds.lookup n.kind).getD [] ++ [n.id])
    else index.kindToIds
  { index with nameToId, kindToIds }

/-- The second loop of `build` at `n`. -/
def linkNode (index : XrefIndex) (n : Node) : XrefIndex :=
  { index with reverseAdj := recordEdges n.id n.children (recordEdges n.id n.refs index.reverseAdj) }

/-- `XrefIndex::build` of an index that may hold another table. -/
def rebuild (index : XrefIndex) (nodes : List Node) : XrefIndex :=
  nodes.foldl linkNode (nodes.foldl indexNode (index.cleared nodes.length))

theorem foldl_indexNode (nodes : List Node) (index : XrefIndex) :
    nodes.foldl indexNode index =
      { nameToId := nodes.foldl (fun names n =>
          if n.name ≠ kInvalidAtom ∧ n.alive = true then names.insert n.name n.id else names)
            index.nameToId
        kindToIds := nodes.foldl (fun kinds n =>
          if n.kind ≠ kInvalidKind then kinds.insert n.kind ((kinds.lookup n.kind).getD [] ++ [n.id])
          else kinds) index.kindToIds
        reverseAdj := index.reverseAdj } := by
  induction nodes generalizing index with
  | nil => rfl
  | cons n nodes ih => exact ih (index.indexNode n)

theorem foldl_linkNode (nodes : List Node) (index : XrefIndex) :
    nodes.foldl linkNode index =
      { index with reverseAdj := nodes.foldl (fun adj n =>
          recordEdges n.id n.children (recordEdges n.id n.refs adj)) index.reverseAdj } := by
  induction nodes generalizing index with
  | nil => rfl
  | cons n nodes ih => exact ih (index.linkNode n)

/-- Nothing of the earlier index remains. -/
theorem rebuild_eq (index : XrefIndex) (nodes : List Node) : index.rebuild nodes = build nodes := by
  rw [rebuild, foldl_linkNode, foldl_indexNode]
  rfl

/-! ## Referrers -/

section Referrers

variable {nodes : List Node} {adj : List (List NodeId)} {id : NodeId} {targets : List NodeId}

theorem length_recordEdges : (recordEdges id targets adj).length = adj.length := by
  induction targets generalizing adj with
  | nil => rfl
  | cons t targets ih =>
    have h := @ih (adj.modify t.toNat (· ++ [id]))
    rwa [List.length_modify] at h

/-- A node is recorded under `t` once for each time `t` is among its targets. -/
theorem getElem?_recordEdges (t : NodeId) : (recordEdges id targets adj)[t.toNat]? =
    adj[t.toNat]?.map (· ++ List.replicate (targets.count t) id) := by
  induction targets generalizing adj with
  | nil => simp [recordEdges]
  | cons x targets ih =>
    have h := @ih (adj.modify x.toNat (· ++ [id]))
    rw [List.getElem?_modify, Option.map_eq_map, Option.map_map] at h
    refine h.trans (congrArg (Option.map · adj[t.toNat]?) (funext fun referrers => ?_))
    by_cases hx : x = t
    · subst hx
      simp [List.replicate_succ]
    · have hne : x.toNat ≠ t.toNat := fun heq => hx (UInt32.toNat_inj.mp heq)
      simp [hne, hx]

/-- How often `n` is recorded under `t`. -/
def edgesTo (n : Node) (t : NodeId) : Nat := n.refs.count t + n.children.count t

theorem length_reverseAdj (nodes : List Node) : (build nodes).reverseAdj.length = nodes.length := by
  have hfold : ∀ (ns : List Node) (adj : List (List NodeId)), (ns.foldl (fun adj n =>
      recordEdges n.id n.children (recordEdges n.id n.refs adj)) adj).length = adj.length := by
    intro ns
    induction ns with
    | nil => exact fun _ => rfl
    | cons n ns ih =>
      intro adj
      rw [List.foldl_cons, ih, length_recordEdges, length_recordEdges]
  rw [build, hfold, List.length_replicate]

/-- **The referrers of a node**, in table order. -/
theorem getElem?_reverseAdj (nodes : List Node) {t : NodeId} (ht : t.toNat < nodes.length) :
    (build nodes).reverseAdj[t.toNat]? =
      some (nodes.flatMap fun n => List.replicate (edgesTo n t) n.id) := by
  have hfold : ∀ (ns : List Node) (adj : List (List NodeId)), (ns.foldl (fun adj n =>
      recordEdges n.id n.children (recordEdges n.id n.refs adj)) adj)[t.toNat]? =
      adj[t.toNat]?.map (· ++ ns.flatMap fun n => List.replicate (edgesTo n t) n.id) := by
    intro ns
    induction ns with
    | nil => simp
    | cons n ns ih =>
      intro adj
      rw [List.foldl_cons, ih, getElem?_recordEdges, getElem?_recordEdges, Option.map_map,
        Option.map_map]
      refine congrArg (Option.map · adj[t.toNat]?) (funext fun referrers => ?_)
      simp only [Function.comp, List.flatMap_cons, List.append_assoc, edgesTo, List.replicate_add]
  rw [build, hfold, List.getElem?_replicate, if_pos ht, Option.map_some, List.nil_append]

theorem referrers_build {t : NodeId} (ht : t.toNat < nodes.length) :
    (build nodes).referrers t = nodes.flatMap fun n => List.replicate (edgesTo n t) n.id := by
  rw [referrers, length_reverseAdj, if_neg (by omega), getElem?_reverseAdj nodes ht, Option.getD_some]

theorem referrers_build_of_ge {t : NodeId} (ht : nodes.length ≤ t.toNat) :
    (build nodes).referrers t = [] := by
  rw [referrers, length_reverseAdj, if_pos ht]

/-- Among nodes with distinct ids, `s` occurs as often as its own edges say. -/
theorem count_flatMap_replicate {f : Node → Nat} (hids : (nodes.map Node.id).Nodup) {n : Node}
    (hn : n ∈ nodes) : (nodes.flatMap fun m => List.replicate (f m) m.id).count n.id = f n := by
  induction nodes with
  | nil => cases hn
  | cons m nodes ih =>
    obtain ⟨hm, hids⟩ := List.nodup_cons.mp hids
    rw [List.flatMap_cons, List.count_append, List.count_replicate]
    rcases List.mem_cons.mp hn with rfl | hn
    · have hzero : (nodes.flatMap fun m => List.replicate (f m) m.id).count n.id = 0 := by
        refine List.count_eq_zero.mpr fun hmem => hm ?_
        obtain ⟨m, hmem, hid⟩ := List.mem_flatMap.mp hmem
        exact List.mem_map.mpr ⟨m, hmem, (List.eq_of_mem_replicate hid).symm⟩
      rw [hzero]
      simp
    · have hne : ¬ (m.id == n.id) = true := by
        intro heq
        exact hm (beq_iff_eq.mp heq ▸ List.mem_map_of_mem hn)
      rw [if_neg hne, ih hids hn, Nat.zero_add]

/-- Each edge in range is one entry of a list. -/
theorem sum_recordEdges (h : ∀ t ∈ targets, t.toNat < adj.length) :
    ((recordEdges id targets adj).map List.length).sum =
      (adj.map List.length).sum + targets.length := by
  have hone : ∀ (i : Nat) (adj : List (List NodeId)), i < adj.length →
      ((adj.modify i (· ++ [id])).map List.length).sum = (adj.map List.length).sum + 1 := by
    intro i adj
    induction adj generalizing i with
    | nil => exact fun h => absurd h (Nat.not_lt_zero _)
    | cons referrers adj ih =>
      intro h
      cases i with
      | zero =>
        simp only [List.modify_zero_cons, List.map_cons, List.sum_cons, List.length_append,
          List.length_singleton]
        omega
      | succ i =>
        have := ih i (Nat.lt_of_succ_lt_succ h)
        simp only [List.modify_succ_cons, List.map_cons, List.sum_cons]
        omega
  induction targets generalizing adj with
  | nil => rfl
  | cons t targets ih =>
    have ht := h t (List.mem_cons_self ..)
    have hrest := @ih (adj.modify t.toNat (· ++ [id])) fun x hx => by
      rw [List.length_modify]
      exact h x (List.mem_cons_of_mem _ hx)
    rw [hone t.toNat adj ht] at hrest
    rw [List.length_cons, Nat.add_comm targets.length, ← Nat.add_assoc]
    exact hrest

/-- **No edge is lost**: the lists are as long together as the edge lists of the nodes. -/
theorem sum_reverseAdj (h : ∀ n ∈ nodes, ∀ t, t ∈ n.children ∨ t ∈ n.refs → t.toNat < nodes.length) :
    ((build nodes).reverseAdj.map List.length).sum =
      (nodes.map fun n => n.refs.length + n.children.length).sum := by
  have hfold : ∀ (ns : List Node) (adj : List (List NodeId)),
      (∀ n ∈ ns, ∀ t, t ∈ n.children ∨ t ∈ n.refs → t.toNat < adj.length) →
      ((ns.foldl (fun adj n => recordEdges n.id n.children (recordEdges n.id n.refs adj)) adj).map
        List.length).sum =
      (adj.map List.length).sum + (ns.map fun n => n.refs.length + n.children.length).sum := by
    intro ns
    induction ns with
    | nil => exact fun _ _ => rfl
    | cons n ns ih =>
      intro adj hin
      have hn := hin n (List.mem_cons_self ..)
      rw [List.foldl_cons, ih, sum_recordEdges, sum_recordEdges, List.map_cons, List.sum_cons]
      · omega
      · exact fun t ht => hn t (Or.inr ht)
      · rw [length_recordEdges]
        exact fun t ht => hn t (Or.inl ht)
      · rw [length_recordEdges, length_recordEdges]
        exact fun m hm => hin m (List.mem_cons_of_mem _ hm)
  rw [build, hfold nodes _ (by rwa [List.length_replicate])]
  simp

end Referrers

/-! ## Kinds -/

/-- The lists by kind are filled with the nodes that have a kind. -/
theorem kindToIds_build (nodes : List Node) : (build nodes).kindToIds =
    Buckets.group (fun n : Node => if n.kind = kInvalidKind then none else some n.kind) Node.id ∅
      nodes := by
  refine congrArg (fun f => nodes.foldl f ∅) (funext fun kinds => funext fun n => ?_)
  by_cases hk : n.kind = kInvalidKind
  · simp [hk]
  · simp [hk, Buckets.add, Buckets.get]

/-- **The nodes of a kind**, in table order. -/
theorem byKind_build (nodes : List Node) (k : KindId) :
    (build nodes).byKind k =
      (nodes.filter fun n => n.kind = k ∧ n.kind ≠ kInvalidKind).map Node.id := by
  have hget : (build nodes).byKind k = Buckets.get (build nodes).kindToIds k := rfl
  rw [hget, kindToIds_build, Buckets.get_group, Buckets.get_empty, List.nil_append]
  refine congrArg (List.map Node.id) (List.filter_congr fun n _ => ?_)
  by_cases hk : n.kind = kInvalidKind <;> simp [hk]

/-! ## The inverse -/

/-- `index` is the inverse of the edges of `nodes`, and lists its nodes by kind. -/
structure Inverts (index : XrefIndex) (nodes : List Node) : Prop where
  /-- `s` is recorded under `t` as often as it has an edge to it. -/
  count : ∀ s t : NodeId, (index.referrers t).count s =
    (nodes[s.toNat]?).elim 0 fun n => n.refs.count t + n.children.count t
  total : ((List.range nodes.length).map fun t => (index.referrers (UInt32.ofNat t)).length).sum =
    (nodes.map fun n => n.refs.length + n.children.length).sum
  kinds : ∀ (k : KindId) (i : NodeId), i ∈ index.byKind k ↔
    ∃ n, nodes[i.toNat]? = some n ∧ n.placeholder = false ∧ n.kind = k
  increasing : ∀ k : KindId, (index.byKind k).Pairwise (· < ·)

section Inverse

variable {nodes : List Node}

/-- The index of a table with edges in range and ids that are positions. -/
theorem build_inverts (hids : IdsArePositions nodes)
    (hedges : ∀ n ∈ nodes, ∀ t, t ∈ n.children ∨ t ∈ n.refs → t.toNat < nodes.length)
    (hkinds : ∀ n ∈ nodes, n.placeholder = true ↔ n.kind = kInvalidKind) :
    (build nodes).Inverts nodes := by
  refine ⟨fun s t => ?_, ?_, fun k i => ?_, fun k => ?_⟩
  · by_cases ht : t.toNat < nodes.length
    · rw [referrers_build ht]
      cases hs : nodes[s.toNat]? with
      | some n =>
        obtain ⟨hn, rfl⟩ := hids.mem_iff.mpr hs
        exact count_flatMap_replicate hids.nodup hn
      | none =>
        refine List.count_eq_zero.mpr fun hmem => ?_
        obtain ⟨n, hn, hid⟩ := List.mem_flatMap.mp hmem
        rw [hids.mem_iff.mp ⟨hn, (List.eq_of_mem_replicate hid).symm⟩] at hs
        cases hs
    · rw [referrers_build_of_ge (by omega), List.count_nil]
      cases hs : nodes[s.toNat]? with
      | none => rfl
      | some n =>
        have hout := hedges n (List.mem_of_getElem? hs) t
        rw [Option.elim_some, List.count_eq_zero.mpr fun h => ht (hout (Or.inr h)),
          List.count_eq_zero.mpr fun h => ht (hout (Or.inl h))]
  · rw [← sum_reverseAdj hedges]
    refine congrArg List.sum (List.ext_getElem ?_ fun t ht ht' => ?_)
    · simp [length_reverseAdj]
    · rw [List.length_map, List.length_range] at ht
      have htoNat : (UInt32.ofNat t).toNat = t :=
        toNat_ofNat_of_lt (Nat.lt_of_lt_of_le ht hids.length_le)
      have hin : t < (build nodes).reverseAdj.length := by rwa [length_reverseAdj]
      rw [List.getElem_map, List.getElem_map, List.getElem_range, referrers, htoNat,
        if_neg (Nat.not_le.mpr hin), List.getElem?_eq_getElem hin, Option.getD_some]
  · rw [byKind_build, hids.mem_map_filter]
    refine exists_congr fun n => and_congr_right fun hn => ?_
    rw [decide_eq_true_iff, ← Bool.not_eq_true, hkinds n (List.mem_of_getElem? hn), and_comm]
  · rw [byKind_build]
    exact hids.map_filter_increasing _

end Inverse

end XrefIndex

/-- **The cross-reference index inverts the graph** in every state of a run from a decoded heap. -/
theorem xref_inverts {env : Env} (hids : env.limits.IdsFit)
    {schemaBytes heapBytes rest rest' journal : Bytes} {limits : Limits}
    (hschema : Schema.decode env.atoms limits schemaBytes = .ok (env.schema, rest))
    {heap : HeapImage}
    (hheap : decodeHeap env.growth env.schema env.atoms env.limits heapBytes = .ok (heap, rest'))
    {vm : ReplayVM} (hvm : Visits env (ReplayVM.seed {} heap) journal vm) (index : XrefIndex) :
    (index.rebuild vm.nodes.data).Inverts vm.nodes.data := by
  obtain ⟨k, r, hstate⟩ := visits_iff.mp hvm
  have hsound := sound_of_stateAt hids hheap hstate
  rw [XrefIndex.rebuild_eq]
  exact XrefIndex.build_inverts hsound.ids hsound.edges (kinded_of_visits hschema hheap hvm)

/-- A self reference is recorded once. -/
theorem xref_inverts_selfRef : (XrefIndex.rebuild {}
    (runOps oneRef 1 (ReplayVM.seed {} oneNode) (Op.linkRef 0 0 0).encode).2.nodes.data).Inverts
      (runOps oneRef 1 (ReplayVM.seed {} oneNode) (Op.linkRef 0 0 0).encode).2.nodes.data :=
  xref_inverts idsFit_default oneRef_schema oneNode_heap selfRef_visits {}

end Stratavm
