import Stratavm.Lib.Vec
import Stratavm.Value

/-!
# Nodes and the initial heap

`Node` (`node.hpp`) and `decode_heap` (`heap.cpp`). The fields of a node are a map without an order; a
field that a heap entry sets twice has its later value.

`WellTyped` is the typing of a node against a schema. A placeholder has no kind, so it is typed by having no
fields; any other node has a declared kind, and its values the types that the kind declares.

* **`decodeHeap_spec`**: a decoded heap is within the node limit and has at every position a `HeapNode`:
  its id is its position, its kind is declared, its name is in the pool, it has no edges, and its fields
  are typed by its kind.
* `decodeHeap_fits`: no value in it exceeds the limits.
* `IdsArePositions`: what a table whose ids are positions says of a selection of its nodes.
-/

namespace Stratavm

open Lib Lib.Decoder

/-- `Node`. -/
structure Node where
  id : NodeId := kInvalidNode
  kind : KindId := kInvalidKind
  name : AtomId := kInvalidAtom
  alive : Bool := true
  placeholder : Bool := false
  generation : UInt32 := 0
  fields : UMap FieldId Value := ∅
  children : List NodeId := []
  refs : List NodeId := []
  deriving DecidableEq

namespace Node

/-- `Node::set_field`. -/
def setField (n : Node) (f : FieldId) (v : Value) : Node :=
  { n with fields := n.fields.insert f v }

/-- `Node::field`. -/
def field (n : Node) (f : FieldId) : Option Value := n.fields.lookup f

/-- Every field value is valid and has the type the node's kind declares for it. -/
def FieldsTyped (schema : Schema) (n : Node) : Prop :=
  ∀ f v, n.field f = some v → v.type ≠ .invalid ∧ schema.fieldType n.kind f = v.type

theorem field_setField (n : Node) (f g : FieldId) (v : Value) :
    (n.setField f v).field g = if g = f then some v else n.field g := by
  unfold setField field
  by_cases h : g = f
  · rw [h, if_pos rfl]
    exact Finmap.lookup_insert _
  · rw [if_neg h]
    exact Finmap.lookup_insert_of_ne _ h

end Node

/-- `HeapImage`. -/
structure HeapImage where
  nodes : Vec Node

/-- The field loop of `decode_heap`: later values for one field overwrite earlier ones. -/
def decodeHeapFields (kind : KindDef) (limits : Limits) (count : Nat) :
    Reader (UMap FieldId Value) :=
  loop (fun _ (fields : UMap FieldId Value) => do
    let fieldIdx ← readVarintU32
    match kind.field fieldIdx with
    | none => fail .fieldOutOfRange "heap field index out of range"
    | some fd => do
      let v ← mapError (fun st => ⟨.badHeap, "field value: " ++ st.detail⟩)
        (Value.decode fd.type limits)
      pure (fields.insert fieldIdx v)) 0 count ∅

/-- One iteration of the node loop of `decode_heap`. -/
def decodeHeapNode (schema : Schema) (atoms : AtomPool) (limits : Limits) (i : Nat) :
    Reader Node := do
  let onDiskId ← readVarintU32
  if onDiskId ≠ UInt32.ofNat i then fail .badHeap "non-sequential heap node id"
  else do
    let kindId ← readVarintU32
    match schema.kind kindId with
    | none => fail .kindOutOfRange "heap node kind out of range"
    | some kind => do
      let name ← readVarintU32
      if name ≠ kInvalidAtom ∧ atoms.get name = none then
        fail .atomOutOfRange "heap node name out of range"
      else do
        let fieldCount ← readVarintU32
        if fieldCount.toNat > kind.fields.length then
          fail .badHeap "more fields than the kind declares"
        else do
          let fields ← decodeHeapFields kind limits fieldCount.toNat
          pure { id := UInt32.ofNat i, kind := kindId, name, fields }

/-- `decode_heap`. -/
def decodeHeap (g : Growth) (schema : Schema) (atoms : AtomPool) (limits : Limits) :
    Reader HeapImage := do
  let nodeCount ← readVarintU32
  if nodeCount > limits.maxNodes then fail .limitExceeded "heap node count too large"
  else do
    let nodes ← loop (fun i (nodes : Vec Node) => do
      let node ← decodeHeapNode schema atoms limits i
      pure (nodes.pushBack g node)) 0 nodeCount.toNat (Vec.empty.reserve g nodeCount.toNat)
    pure { nodes }

/-! ## What a decoded heap guarantees -/

/-- A node as `decode_heap` builds it at position `i`. -/
structure HeapNode (schema : Schema) (atoms : AtomPool) (i : Nat) (n : Node) : Prop where
  id : n.id = UInt32.ofNat i
  kind : (schema.kind n.kind).isSome
  name : n.name = kInvalidAtom ∨ (atoms.get n.name).isSome
  alive : n.alive = true
  placeholder : n.placeholder = false
  generation : n.generation = 0
  children : n.children = []
  refs : n.refs = []
  fields : n.FieldsTyped schema

/-- What holds of every value that is read for a field of the kind holds of the fields. -/
theorem decodeHeapFields_forall {P : FieldId → Value → Prop} {kind : KindDef} {limits : Limits}
    {count : Nat} {r r' : Bytes} {fields : UMap FieldId Value}
    (hP : ∀ idx fd v, kind.field idx = some fd → v.type = fd.type → v.Fits limits → P idx v)
    (h : decodeHeapFields kind limits count r = .ok (fields, r')) :
    ∀ f v, fields.lookup f = some v → P f v := by
  refine loop_invariant (fun _ (acc : UMap FieldId Value) => ∀ f v, acc.lookup f = some v → P f v)
    ?_ ?_ h
  · intro i acc acc' s s' hacc hbody f v hv
    obtain ⟨idx, s1, -, hbody⟩ := bind_eq_ok.mp hbody
    cases hfd : kind.field idx with
    | none =>
      rw [hfd] at hbody
      exact absurd hbody fail_ne_ok
    | some fd =>
      rw [hfd] at hbody
      obtain ⟨w, s2, hw, hbody⟩ := bind_eq_ok.mp hbody
      obtain ⟨rfl, -⟩ := pure_eq_ok.mp hbody
      obtain ⟨htype, hfits⟩ := Value.decode_type (mapError_eq_ok.mp hw)
      by_cases hf : f = idx
      · subst hf
        rw [Finmap.lookup_insert] at hv
        obtain rfl := Option.some.inj hv
        exact hP f fd w hfd htype hfits
      · rw [Finmap.lookup_insert_of_ne _ hf] at hv
        exact hacc f v hv
  · intro f v hv
    rw [Finmap.lookup_empty] at hv
    cases hv

/-- How `decode_heap` builds a node. -/
theorem decodeHeapNode_eq {schema : Schema} {atoms : AtomPool} {limits : Limits} {i : Nat}
    {r r' : Bytes} {n : Node} (h : decodeHeapNode schema atoms limits i r = .ok (n, r')) :
    ∃ kindId kind name count r1 fields, schema.kind kindId = some kind ∧
      ¬ (name ≠ kInvalidAtom ∧ atoms.get name = none) ∧
      decodeHeapFields kind limits count r1 = .ok (fields, r') ∧
      n = { id := UInt32.ofNat i, kind := kindId, name, fields } := by
  unfold decodeHeapNode at h
  obtain ⟨id, r1, -, h⟩ := bind_eq_ok.mp h
  split at h
  · exact absurd h fail_ne_ok
  obtain ⟨kindId, r2, -, h⟩ := bind_eq_ok.mp h
  cases hk : schema.kind kindId with
  | none =>
    rw [hk] at h
    exact absurd h fail_ne_ok
  | some kind =>
    rw [hk] at h
    obtain ⟨name, r3, -, h⟩ := bind_eq_ok.mp h
    split at h
    · exact absurd h fail_ne_ok
    rename_i hname
    obtain ⟨count, r4, -, h⟩ := bind_eq_ok.mp h
    split at h
    · exact absurd h fail_ne_ok
    obtain ⟨fields, r5, hf, h⟩ := bind_eq_ok.mp h
    obtain ⟨rfl, rfl⟩ := pure_eq_ok.mp h
    exact ⟨kindId, kind, name, count.toNat, r4, fields, hk, hname, hf, rfl⟩

theorem decodeHeapNode_spec {schema : Schema} {atoms : AtomPool} {limits : Limits} {i : Nat}
    {r r' : Bytes} {n : Node} (h : decodeHeapNode schema atoms limits i r = .ok (n, r')) :
    HeapNode schema atoms i n := by
  obtain ⟨kindId, kind, name, count, r1, fields, hk, hname, hf, rfl⟩ := decodeHeapNode_eq h
  have htyped := decodeHeapFields_forall (P := fun f v => v.type ≠ .invalid ∧
    schema.fieldType kindId f = v.type) (fun idx fd v hfd htype hfits =>
      ⟨hfits.1, (Schema.fieldType_eq hk hfd).trans htype.symm⟩) hf
  refine ⟨rfl, by rw [hk]; rfl, ?_, rfl, rfl, rfl, rfl, rfl, htyped⟩
  by_cases hn : name = kInvalidAtom
  · exact Or.inl hn
  · right
    cases ha : atoms.get name with
    | none => exact absurd ⟨hn, ha⟩ hname
    | some s => rfl

/-- The fields of a node read within the limits keep them. -/
theorem decodeHeapNode_fits {schema : Schema} {atoms : AtomPool} {limits : Limits} {i : Nat}
    {r r' : Bytes} {n : Node} (h : decodeHeapNode schema atoms limits i r = .ok (n, r')) :
    ∀ f (v : Value), n.field f = some v → v.Fits limits := by
  obtain ⟨kindId, kind, name, count, r1, fields, -, -, hf, rfl⟩ := decodeHeapNode_eq h
  exact decodeHeapFields_forall (P := fun _ v => v.Fits limits) (fun _ _ _ _ _ hfits => hfits) hf

/-- What holds of every node that is read holds of the heap, and the heap is within the node
limit. -/
theorem decodeHeap_forall {P : Nat → Node → Prop} {g : Growth} {schema : Schema} {atoms : AtomPool}
    {limits : Limits} {r r' : Bytes} {heap : HeapImage}
    (hP : ∀ i n s s', decodeHeapNode schema atoms limits i s = .ok (n, s') → P i n)
    (h : decodeHeap g schema atoms limits r = .ok (heap, r')) :
    heap.nodes.size ≤ limits.maxNodes.toNat ∧ ∀ i n, heap.nodes.data[i]? = some n → P i n := by
  unfold decodeHeap at h
  obtain ⟨count, r1, -, h⟩ := bind_eq_ok.mp h
  split at h
  · exact absurd h fail_ne_ok
  rename_i hle
  obtain ⟨nodes, r2, hloop, h⟩ := bind_eq_ok.mp h
  obtain ⟨rfl, -⟩ := pure_eq_ok.mp h
  have hinv := loop_invariant (fun k (acc : Vec Node) => acc.size = k ∧
    ∀ i n, acc.data[i]? = some n → P i n) ?_ ?_ hloop
  · rw [gt_iff_lt, UInt32.lt_iff_toNat_lt] at hle
    exact ⟨by rw [hinv.1]; omega, hinv.2⟩
  · intro k acc acc' s s' hacc hbody
    obtain ⟨n, s1, hn, hbody⟩ := bind_eq_ok.mp hbody
    obtain ⟨rfl, -⟩ := pure_eq_ok.mp hbody
    refine ⟨by rw [Vec.size_pushBack, hacc.1], fun i m hm => ?_⟩
    rw [Vec.data_pushBack] at hm
    rcases Nat.lt_or_ge i acc.data.length with hi | hi
    · rw [List.getElem?_append_left hi] at hm
      exact hacc.2 i m hm
    · rw [List.getElem?_append_right hi] at hm
      obtain ⟨h0, rfl⟩ := List.getElem?_eq_some_iff.mp hm
      have hik : i = k := by
        have := hacc.1
        simp only [Vec.size, List.length_singleton] at this h0
        omega
      simpa [hik] using hP k n s s1 hn
  · exact ⟨by simp, fun i n hn => by simp at hn⟩

/-- **A decoded heap**: within the node limit, and a `HeapNode` at every position. -/
theorem decodeHeap_spec {g : Growth} {schema : Schema} {atoms : AtomPool} {limits : Limits}
    {r r' : Bytes} {heap : HeapImage} (h : decodeHeap g schema atoms limits r = .ok (heap, r')) :
    heap.nodes.size ≤ limits.maxNodes.toNat ∧
      ∀ i n, heap.nodes.data[i]? = some n → HeapNode schema atoms i n :=
  decodeHeap_forall (fun _ _ _ _ => decodeHeapNode_spec) h

/-- No value of a decoded heap exceeds the limits. -/
theorem decodeHeap_fits {g : Growth} {schema : Schema} {atoms : AtomPool} {limits : Limits}
    {r r' : Bytes} {heap : HeapImage} (h : decodeHeap g schema atoms limits r = .ok (heap, r')) :
    ∀ (i : Nat) (n : Node), heap.nodes.data[i]? = some n → ∀ f (v : Value), n.field f = some v →
      v.Fits limits :=
  (decodeHeap_forall (P := fun _ (n : Node) => ∀ f (v : Value), n.field f = some v → v.Fits limits)
    (fun _ _ _ _ => decodeHeapNode_fits) h).2

/-! ## Well-typed nodes -/

namespace Node

/-- A placeholder without fields, or a node typed by a declared kind. -/
inductive WellTyped (schema : Schema) (n : Node) : Prop
  | placeholder (hp : n.placeholder = true) (hk : n.kind = kInvalidKind) (hf : n.fields = ∅)
  | declared {kind : KindDef} (hk : schema.kind n.kind = some kind)
      (hf : ∀ f v, n.field f = some v →
        ∃ fd, kind.field f = some fd ∧ v.type = fd.type ∧ fd.type ≠ .invalid)

variable {schema : Schema} {n n' : Node}

/-- A stored value has the type its field is declared with. -/
theorem WellTyped.field_declared (h : n.WellTyped schema) {kind : KindDef}
    (hk : schema.kind n.kind = some kind) {f : FieldId} {v : Value} (hv : n.field f = some v) :
    ∃ fd, kind.field f = some fd ∧ v.type = fd.type ∧ fd.type ≠ .invalid := by
  cases h with
  | placeholder _ _ hf =>
    rw [field, hf, Finmap.lookup_empty] at hv
    cases hv
  | declared hk' hf =>
    obtain rfl := Option.some.inj (hk'.symm.trans hk)
    exact hf f v hv

/-- Only kind, fields and the placeholder flag matter. -/
theorem WellTyped.congr (h : n.WellTyped schema) (hk : n'.kind = n.kind)
    (hf : n'.fields = n.fields) (hp : n'.placeholder = n.placeholder) : n'.WellTyped schema := by
  cases h with
  | placeholder hp' hk' hf' => exact .placeholder (hp.trans hp') (hk.trans hk') (hf.trans hf')
  | declared hk' hf' =>
    refine .declared (hk ▸ hk') fun f v hv => hf' f v ?_
    rw [field, ← hf]
    exact hv

/-- Writing a field under its declared type keeps a node well typed. -/
theorem WellTyped.setField (hschema : schema.Typed) (h : n.WellTyped schema) {f : FieldId}
    {v : Value} (hv : v.type ≠ .invalid) (ht : schema.fieldType n.kind f = v.type) :
    (n.setField f v).WellTyped schema := by
  cases h with
  | placeholder _ hk _ =>
    -- a placeholder has no declared kind, so no field has a type
    rw [hk, Schema.fieldType, hschema.kind_invalid] at ht
    exact absurd ht.symm hv
  | @declared kind hk hf =>
    refine .declared hk fun g w hw => ?_
    rw [field_setField] at hw
    split at hw
    · rename_i hg
      obtain rfl := Option.some.inj hw
      obtain ⟨k, fd, hk', hfd, hty⟩ := Schema.exists_of_fieldType_ne_invalid (ht ▸ hv)
      obtain rfl := Option.some.inj (hk.symm.trans hk')
      exact ⟨fd, hg ▸ hfd, ht.symm.trans hty, fun hinv => hv (ht.symm.trans (hty.trans hinv))⟩
    · exact hf g w hw

/-- A node of a decoded heap is well typed. -/
theorem WellTyped.ofHeap {atoms : AtomPool} {i : Nat} (h : HeapNode schema atoms i n) :
    n.WellTyped schema := by
  obtain ⟨kind, hk⟩ := Option.isSome_iff_exists.mp h.kind
  refine .declared hk fun f v hv => ?_
  obtain ⟨hvalid, ht⟩ := h.fields f v hv
  obtain ⟨k, fd, hk', hfd, hty⟩ := Schema.exists_of_fieldType_ne_invalid (ht ▸ hvalid)
  obtain rfl := Option.some.inj (hk.symm.trans hk')
  exact ⟨fd, hfd, ht.symm.trans hty, fun hinv => hvalid (ht.symm.trans (hty.trans hinv))⟩

end Node

/-! ## Ids and positions -/

/-- Every node's id is its position. -/
def IdsArePositions (nodes : List Node) : Prop :=
  ∀ (i : Nat) (n : Node), nodes[i]? = some n → n.id.toNat = i

namespace IdsArePositions

variable {nodes : List Node}

theorem increasing (h : IdsArePositions nodes) : (nodes.map Node.id).Pairwise (· < ·) := by
  rw [List.pairwise_iff_getElem]
  intro i j hi hj hij
  rw [List.length_map] at hi hj
  rw [UInt32.lt_iff_toNat_lt, List.getElem_map, List.getElem_map,
    h i _ (List.getElem?_eq_getElem hi), h j _ (List.getElem?_eq_getElem hj)]
  exact hij

theorem nodup (h : IdsArePositions nodes) : (nodes.map Node.id).Nodup :=
  h.increasing.imp fun hlt => UInt32.ne_of_lt hlt

/-- An id finds its node. -/
theorem mem_iff (h : IdsArePositions nodes) {i : NodeId} {n : Node} :
    n ∈ nodes ∧ n.id = i ↔ nodes[i.toNat]? = some n := by
  constructor
  · rintro ⟨hn, rfl⟩
    obtain ⟨j, hj⟩ := List.getElem?_of_mem hn
    rwa [h j n hj]
  · intro hi
    exact ⟨List.mem_of_getElem? hi, UInt32.toNat_inj.mp (h _ n hi)⟩

/-- The selected nodes are listed by increasing ids. -/
theorem map_filter_increasing (h : IdsArePositions nodes) (p : Node → Bool) :
    ((nodes.filter p).map Node.id).Pairwise (· < ·) :=
  h.increasing.sublist (List.filter_sublist.map Node.id)

theorem mem_map_filter (h : IdsArePositions nodes) {p : Node → Bool} {i : NodeId} :
    i ∈ (nodes.filter p).map Node.id ↔ ∃ n, nodes[i.toNat]? = some n ∧ p n = true := by
  rw [List.mem_map]
  constructor
  · rintro ⟨n, hn, hid⟩
    obtain ⟨hn, hp⟩ := List.mem_filter.mp hn
    exact ⟨n, h.mem_iff.mp ⟨hn, hid⟩, hp⟩
  · rintro ⟨n, hn, hp⟩
    obtain ⟨hn, hid⟩ := h.mem_iff.mpr hn
    exact ⟨n, List.mem_filter.mpr ⟨hn, hp⟩, hid⟩

/-- A node is selected iff its id is listed. -/
theorem id_mem_map_filter (h : IdsArePositions nodes) {p : Node → Bool} {n : Node} (hn : n ∈ nodes) :
    n.id ∈ (nodes.filter p).map Node.id ↔ p n = true := by
  have hpos := h.mem_iff.mp ⟨hn, rfl⟩
  rw [h.mem_map_filter]
  constructor
  · rintro ⟨m, hm, hp⟩
    rwa [← Option.some.inj (hm.symm.trans hpos)]
  · exact fun hp => ⟨n, hpos, hp⟩

/-- Every position is an id. -/
theorem length_le (h : IdsArePositions nodes) : nodes.length ≤ 2 ^ 32 := by
  by_contra hgt
  have hlt : 2 ^ 32 < nodes.length := by omega
  have hid := h _ _ (List.getElem?_eq_getElem hlt)
  have := nodes[2 ^ 32].id.toNat_lt
  omega

end IdsArePositions

end Stratavm
