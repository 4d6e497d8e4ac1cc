import Stratavm.Heap
import Stratavm.Lib.Buckets

/-!
# The field index

`FieldIndex` (`field_index.hpp`, `field_index.cpp`): the nodes of a table by field value, by field and
by name. `build` makes one pass over the table and, for each node, one over its field map. The order of
the inner pass is the map's own: `FieldOrder` is a choice of it for every node, of which nothing is
assumed but that each entry is visited once.

`build_eq_foldl` reads one structure off that pass: it is filled by the entries (`entries`) alone, in
order. So each lookup is a selection of the table (`lookupInt_build` and its siblings), whatever the
order in which a field map is visited.

Out of scope: the hash functions of the index's own maps. No lookup depends on them.
-/

namespace Stratavm

open Lib

/-- The order in which the loop over each node's field map visits its entries, each once. -/
structure FieldOrder where
  entries : NodeId → UMap FieldId Value → List (FieldId × Value)
  nodup : ∀ (id : NodeId) (m : UMap FieldId Value), ((entries id m).map Prod.fst).Nodup
  mem_iff : ∀ (id : NodeId) (m : UMap FieldId Value) (f : FieldId) (v : Value),
    (f, v) ∈ entries id m ↔ m.lookup f = some v

/-- There is an order of visiting. -/
theorem exists_fieldOrder : Nonempty FieldOrder := by
  obtain ⟨entries, hnodup, hmem⟩ := UMap.exists_entries (K := FieldId) (V := Value)
  exact ⟨⟨fun _ => entries, fun _ => hnodup, fun _ => hmem⟩⟩

/-- `FieldIndex::KindEntry`. -/
structure KindEntry where
  nodeId : NodeId
  fieldIdx : FieldId
  value : Value
  deriving DecidableEq

/-- `FieldIndex`. -/
structure FieldIndex where
  intIndex : Buckets (KindId × FieldId × Int64) NodeId := ∅
  atomIndex : Buckets (KindId × FieldId × AtomId) NodeId := ∅
  hasFieldIndex : Buckets (KindId × FieldId) NodeId := ∅
  nameIndex : Buckets AtomId NodeId := ∅
  kindEntries : Buckets KindId KindEntry := ∅
  entryCount : Nat := 0
  nodeCount : Nat := 0

namespace FieldIndex

/-- `FieldIndex::clear`. -/
def clear (index : FieldIndex) : FieldIndex :=
  { index with
    intIndex := ∅
    atomIndex := ∅
    hasFieldIndex := ∅
    nameIndex := ∅
    kindEntries := ∅
    entryCount := 0
    nodeCount := 0 }

/-- The loop of `build` over the fields of `n`. -/
def indexField (n : Node) (index : FieldIndex) (p : FieldId × Value) : FieldIndex :=
  if p.2.valid = false then index
  else
    let index := { index with hasFieldIndex := Buckets.add index.hasFieldIndex (n.kind, p.1) n.id }
    let index :=
      match p.2.type with
      | .int => { index with
          intIndex := Buckets.add index.intIndex (n.kind, p.1, p.2.asInt) n.id }
      | .atom => { index with
          atomIndex := Buckets.add index.atomIndex (n.kind, p.1, p.2.asAtom) n.id }
      | _ => index
    { index with
      kindEntries := Buckets.add index.kindEntries n.kind ⟨n.id, p.1, p.2⟩
      entryCount := index.entryCount + 1 }

/-- The loop of `build` over the nodes. -/
def indexNode (order : FieldOrder) (index : FieldIndex) (n : Node) : FieldIndex :=
  if n.alive = false ∨ n.placeholder = true then index
  else
    let index := { index with nodeCount := index.nodeCount + 1 }
    let index :=
      if n.name ≠ kInvalidAtom then
        { index with nameIndex := Buckets.add index.nameIndex n.name n.id }
      else index
    (order.entries n.id n.fields).foldl (indexField n) index

/-- `FieldIndex::build`. -/
def build (order : FieldOrder) (index : FieldIndex) (nodes : List Node) : FieldIndex :=
  nodes.foldl (indexNode order) index.clear

/-- `FieldIndex::lookup_int`. -/
def lookupInt (index : FieldIndex) (kind : KindId) (fieldIdx : FieldId) (intVal : Int64) :
    List NodeId := Buckets.get index.intIndex (kind, fieldIdx, intVal)

/-- `FieldIndex::lookup_atom`. -/
def lookupAtom (index : FieldIndex) (kind : KindId) (fieldIdx : FieldId) (atomVal : AtomId) :
    List NodeId := Buckets.get index.atomIndex (kind, fieldIdx, atomVal)

/-- `FieldIndex::lookup_has_field`. -/
def lookupHasField (index : FieldIndex) (kind : KindId) (fieldIdx : FieldId) : List NodeId :=
  Buckets.get index.hasFieldIndex (kind, fieldIdx)

/-- `FieldIndex::lookup_by_name`. -/
def lookupByName (index : FieldIndex) (name : AtomId) : List NodeId :=
  Buckets.get index.nameIndex name

/-- `FieldIndex::for_each_in_kind`: the arguments of the calls of `fn`, in order. -/
def forEachInKind (index : FieldIndex) (kind : KindId) : List (NodeId × FieldId × Value) :=
  (Buckets.get index.kindEntries kind).map fun e => (e.nodeId, e.fieldIdx, e.value)

/-! ## The pass over the table -/

/-- The key of an entry in `int_index_`. -/
def intKey (t : Node × FieldId × Value) : Option (KindId × FieldId × Int64) :=
  match t.2.2 with
  | .int v => some (t.1.kind, t.2.1, v)
  | _ => none

/-- The key of an entry in `atom_index_`. -/
def atomKey (t : Node × FieldId × Value) : Option (KindId × FieldId × AtomId) :=
  match t.2.2 with
  | .atom a => some (t.1.kind, t.2.1, a)
  | _ => none

/-- What `build` records of a field with a valid value. -/
theorem indexField_of_valid {n : Node} {index : FieldIndex} {p : FieldId × Value}
    (hp : p.2.valid = true) : indexField n index p =
      { index with
        intIndex := Buckets.group intKey (·.1.id) index.intIndex [(n, p)]
        atomIndex := Buckets.group atomKey (·.1.id) index.atomIndex [(n, p)]
        hasFieldIndex := Buckets.add index.hasFieldIndex (n.kind, p.1) n.id
        kindEntries := Buckets.add index.kindEntries n.kind ⟨n.id, p.1, p.2⟩
        entryCount := index.entryCount + 1 } := by
  obtain ⟨f, v⟩ := p
  rw [indexField, if_neg (by simp [hp])]
  cases v with
  | invalid => cases hp
  | int v => simp [Value.type, Buckets.group, intKey, atomKey]
  | atom a => simp [Value.type, Buckets.group, intKey, atomKey]
  | _ => rfl

/-- A node `build` does not skip. -/
def indexed (n : Node) : Bool := n.alive && !n.placeholder

/-- What the loop over the fields of `n` does not skip. -/
def nodeEntries (order : FieldOrder) (n : Node) : List (Node × FieldId × Value) :=
  ((order.entries n.id n.fields).filter fun p => p.2.valid).map fun p => (n, p)

/-- What the pass over a table does not skip. -/
def entries (order : FieldOrder) (nodes : List Node) : List (Node × FieldId × Value) :=
  (nodes.filter indexed).flatMap (nodeEntries order)

section Pass

variable {order : FieldOrder} {α : Type}

/-- **A structure filled by the fields.** -/
theorem build_eq_foldl (index : FieldIndex) (nodes : List Node) (part : FieldIndex → α)
    (step : α → Node × FieldId × Value → α)
    (hfield : ∀ n index p, p.2.valid = true → part (indexField n index p) = step (part index) (n, p))
    (hnode : ∀ (index : FieldIndex) (names : Buckets AtomId NodeId) (count : Nat),
      part { index with nameIndex := names, nodeCount := count } = part index) :
    part (build order index nodes) = (entries order nodes).foldl step (part {}) := by
  have hfields : ∀ (n : Node) (ps : List (FieldId × Value)) (index : FieldIndex),
      part (ps.foldl (indexField n) index) =
        ((ps.filter fun p => p.2.valid).map fun p => (n, p)).foldl step (part index) := by
    intro n ps
    induction ps with
    | nil => exact fun _ => rfl
    | cons p ps ih =>
      intro index
      rw [List.foldl_cons, ih]
      cases hp : p.2.valid with
      | true => rw [List.filter_cons, if_pos hp, List.map_cons, List.foldl_cons, hfield n index p hp]
      | false => rw [List.filter_cons, if_neg (by simp [hp]), indexField, if_pos hp]
  have hnodes : ∀ index : FieldIndex, part (nodes.foldl (indexNode order) index) =
      (entries order nodes).foldl step (part index) := by
    induction nodes with
    | nil => exact fun _ => rfl
    | cons n nodes ih =>
      intro index
      rw [List.foldl_cons, ih, entries, entries, List.filter_cons]
      by_cases hn : n.alive = false ∨ n.placeholder = true
      · have hskip : indexed n = false := by
          rcases hn with hn | hn <;> simp [indexed, hn]
        rw [if_neg (by simp [hskip]), indexNode, if_pos hn]
      · have hkeep : indexed n = true := by simpa [indexed, not_or] using hn
        rw [if_pos hkeep, List.flatMap_cons, List.foldl_append, indexNode, if_neg hn]
        refine congrArg (List.foldl step · _) ((hfields n _ _).trans ?_)
        rw [nodeEntries]
        refine congrArg (List.foldl step · _) ?_
        split
        · exact hnode index _ _
        · exact hnode index index.nameIndex _
  exact hnodes index.clear

/-- **A structure filled by the nodes.** -/
theorem build_eq_foldl_nodes (index : FieldIndex) (nodes : List Node) (part : FieldIndex → α)
    (step : α → Node → α) (hfield : ∀ n index p, part (indexField n index p) = part index)
    (hnode : ∀ (index : FieldIndex) (n : Node), part
      { index with
        nameIndex := if n.name ≠ kInvalidAtom then Buckets.add index.nameIndex n.name n.id
          else index.nameIndex
        nodeCount := index.nodeCount + 1 } = step (part index) n) :
    part (build order index nodes) = (nodes.filter indexed).foldl step (part {}) := by
  have hfields : ∀ (n : Node) (ps : List (FieldId × Value)) (index : FieldIndex),
      part (ps.foldl (indexField n) index) = part index := by
    intro n ps
    induction ps with
    | nil => exact fun _ => rfl
    | cons p ps ih =>
      intro index
      rw [List.foldl_cons, ih, hfield]
  have hnodes : ∀ index : FieldIndex, part (nodes.foldl (indexNode order) index) =
      (nodes.filter indexed).foldl step (part index) := by
    induction nodes with
    | nil => exact fun _ => rfl
    | cons n nodes ih =>
      intro index
      rw [List.foldl_cons, ih, List.filter_cons]
      by_cases hn : n.alive = false ∨ n.placeholder = true
      · have hskip : indexed n = false := by
          rcases hn with hn | hn <;> simp [indexed, hn]
        rw [if_neg (by simp [hskip]), indexNode, if_pos hn]
      · have hkeep : indexed n = true := by simpa [indexed, not_or] using hn
        rw [if_pos hkeep, List.foldl_cons, indexNode, if_neg hn]
        refine congrArg (List.foldl step · _) ((hfields n _ _).trans ?_)
        rw [← hnode index n]
        split <;> rfl
  exact hnodes index.clear

end Pass

/-! ## Lookups select from the table -/

section Select

variable {order : FieldOrder} {n : Node} {f : FieldId} {k : KindId} {q : Value → Bool}

theorem mem_nodeEntries {t : Node × FieldId × Value} :
    t ∈ nodeEntries order n ↔ t.1 = n ∧ n.field t.2.1 = some t.2.2 ∧ t.2.2.valid = true := by
  rw [nodeEntries, List.mem_map]
  constructor
  · rintro ⟨p, hp, rfl⟩
    obtain ⟨hp, hv⟩ := List.mem_filter.mp hp
    exact ⟨rfl, (order.mem_iff _ _ _ _).mp hp, hv⟩
  · rintro ⟨rfl, hfield, hv⟩
    exact ⟨t.2, List.mem_filter.mpr ⟨(order.mem_iff _ _ _ _).mpr hfield, hv⟩, rfl⟩

theorem nodup_nodeEntries (order : FieldOrder) (n : Node) : (nodeEntries order n).Nodup := by
  refine ((List.Nodup.of_map Prod.fst (order.nodup n.id n.fields)).filter _).map fun p p' h => ?_
  exact (Prod.mk.inj h).2

/-- A field map is visited at `f` once, if it has a value there. -/
theorem filter_nodeEntries :
    (nodeEntries order n).filter (fun t => t.2.1 = f ∧ q t.2.2 = true) =
      if (n.field f).any fun v => v.valid && q v then
        (n.field f).toList.map fun v => (n, f, v)
      else [] := by
  cases hv : n.field f with
  | none =>
    refine List.filter_eq_nil_iff.mpr fun t ht hsel => ?_
    obtain ⟨hf, -⟩ := of_decide_eq_true hsel
    obtain ⟨-, hfield, -⟩ := mem_nodeEntries.mp ht
    rw [hf, hv] at hfield
    cases hfield
  | some v =>
    by_cases hsel : (v.valid && q v) = true
    · obtain ⟨hvalid, hq⟩ := (Bool.and_eq_true _ _).mp hsel
      have hone : (nodeEntries order n).filter (fun t => t.2.1 = f ∧ q t.2.2 = true) =
          (nodeEntries order n).filter fun t => t = (n, f, v) := by
        refine List.filter_congr fun t ht => decide_eq_decide.mpr ⟨fun h => ?_, ?_⟩
        · obtain ⟨hn, hfield, -⟩ := mem_nodeEntries.mp ht
          rw [h.1, hv] at hfield
          exact Prod.ext hn (Prod.ext h.1 (Option.some.inj hfield).symm)
        · rintro rfl
          exact ⟨rfl, hq⟩
      rw [hone, Option.any_some, if_pos hsel, List.filter_eq,
        List.count_eq_one_of_mem (nodup_nodeEntries order n) (mem_nodeEntries.mpr ⟨rfl, hv, hvalid⟩)]
      rfl
    · rw [Option.any_some, if_neg hsel]
      refine List.filter_eq_nil_iff.mpr fun t ht hkeep => hsel ?_
      obtain ⟨hf, hq⟩ := of_decide_eq_true hkeep
      obtain ⟨-, hfield, hvalid⟩ := mem_nodeEntries.mp ht
      rw [hf, hv] at hfield
      obtain rfl := Option.some.inj hfield
      rw [hvalid, hq, Bool.and_self]

/-- **The nodes selected by a field** are those of the kind whose value is selected, in table order. -/
theorem map_filter_entries (nodes : List Node) :
    ((entries order nodes).filter fun t => t.1.kind = k ∧ t.2.1 = f ∧ q t.2.2 = true).map (·.1.id) =
      (nodes.filter fun n =>
        indexed n && n.kind == k && (n.field f).any fun v => v.valid && q v).map Node.id := by
  have hnode : ∀ n : Node, ((nodeEntries order n).filter fun t =>
      t.1.kind = k ∧ t.2.1 = f ∧ q t.2.2 = true).map (·.1.id) =
      if n.kind = k ∧ (n.field f).any (fun v => v.valid && q v) = true then [n.id] else [] := by
    intro n
    have hkind : (nodeEntries order n).filter (fun t => t.1.kind = k ∧ t.2.1 = f ∧ q t.2.2 = true) =
        if n.kind = k then (nodeEntries order n).filter fun t => t.2.1 = f ∧ q t.2.2 = true
        else [] := by
      split
      · rename_i hk
        refine List.filter_congr fun t ht => ?_
        obtain ⟨p, -, rfl⟩ := List.mem_map.mp ht
        simp [hk]
      · rename_i hk
        refine List.filter_eq_nil_iff.mpr fun t ht hsel => hk ?_
        obtain ⟨p, -, rfl⟩ := List.mem_map.mp ht
        exact (of_decide_eq_true hsel).1
    rw [hkind, filter_nodeEntries]
    by_cases hk : n.kind = k
    · cases hv : n.field f with
      | none => simp
      | some v => cases hsel : v.valid && q v <;> simp [hk, hsel]
    · simp [hk]
  rw [entries]
  induction nodes with
  | nil => rfl
  | cons n nodes ih =>
    rw [List.filter_cons, List.filter_cons]
    cases hn : indexed n with
    | false => simpa using ih
    | true =>
      rw [if_pos rfl, List.flatMap_cons, List.filter_append, List.map_append, hnode, ih]
      by_cases hk : n.kind = k <;> simp [hk]
      split <;> rfl

end Select

section Lookups

variable {order : FieldOrder} (index : FieldIndex) (nodes : List Node) (k : KindId) (f : FieldId)

/-- A structure whose buckets are filled by the entries that have a key. -/
theorem get_build {K A : Type} [DecidableEq K] (part : FieldIndex → Buckets K A)
    (key : Node × FieldId × Value → Option K) (val : Node × FieldId × Value → A)
    (hempty : part {} = ∅)
    (hfield : ∀ n index p, p.2.valid = true →
      part (indexField n index p) = Buckets.group key val (part index) [(n, p)])
    (hnode : ∀ (index : FieldIndex) (names : Buckets AtomId NodeId) (count : Nat),
      part { index with nameIndex := names, nodeCount := count } = part index) (kk : K) :
    Buckets.get (part (build order index nodes)) kk =
      ((entries order nodes).filter fun t => key t = some kk).map val := by
  have hfill : part (build order index nodes) = Buckets.group key val ∅ (entries order nodes) := by
    rw [build_eq_foldl index nodes part (fun m t => Buckets.group key val m [t]) hfield hnode,
      hempty]
    rfl
  rw [hfill, Buckets.get_group, Buckets.get_empty, List.nil_append]

theorem any_valid_beq {w : Value} (hw : w.valid = true) (o : Option Value) :
    (o.any fun v => v.valid && v == w) = (o == some w) := by
  cases o with
  | none => rfl
  | some v =>
    by_cases h : v = w
    · rw [h, Option.any_some, hw, beq_self_eq_true, beq_self_eq_true, Bool.and_self]
    · simp [h]

/-- A structure filled by the entries with values of one type, looked up by a value. -/
theorem get_build_value {K : Type} [DecidableEq K] (part : FieldIndex → Buckets K NodeId)
    (key : Node × FieldId × Value → Option K) (hempty : part {} = ∅)
    (hfield : ∀ n index p, p.2.valid = true →
      part (indexField n index p) = Buckets.group key (·.1.id) (part index) [(n, p)])
    (hnode : ∀ (index : FieldIndex) (names : Buckets AtomId NodeId) (count : Nat),
      part { index with nameIndex := names, nodeCount := count } = part index) {kk : K} {w : Value}
    (hw : w.valid = true)
    (hkey : ∀ t, key t = some kk ↔ t.1.kind = k ∧ t.2.1 = f ∧ (t.2.2 == w) = true) :
    Buckets.get (part (build order index nodes)) kk =
      (nodes.filter fun n => indexed n && n.kind == k && n.field f == some w).map Node.id := by
  rw [get_build index nodes part key (·.1.id) hempty hfield hnode]
  simp only [hkey]
  rw [map_filter_entries (q := fun v => v == w)]
  exact congrArg (List.map Node.id) (List.filter_congr fun n _ => by rw [any_valid_beq hw])

/-- **`lookup_int`** selects the nodes of the kind with this integer in the field. -/
theorem lookupInt_build (v : Int64) : (build order index nodes).lookupInt k f v =
    (nodes.filter fun n => indexed n && n.kind == k && n.field f == some (.int v)).map Node.id := by
  refine get_build_value index nodes k f intIndex intKey rfl
    (fun n index p hp => congrArg intIndex (indexField_of_valid hp)) (fun _ _ _ => rfl) rfl ?_
  rintro ⟨n, g, w⟩
  cases w <;> simp [intKey]

/-- **`lookup_atom`** selects the nodes of the kind with this atom in the field. -/
theorem lookupAtom_build (a : AtomId) : (build order index nodes).lookupAtom k f a =
    (nodes.filter fun n => indexed n && n.kind == k && n.field f == some (.atom a)).map Node.id := by
  refine get_build_value index nodes k f atomIndex atomKey rfl
    (fun n index p hp => congrArg atomIndex (indexField_of_valid hp)) (fun _ _ _ => rfl) rfl ?_
  rintro ⟨n, g, w⟩
  cases w <;> simp [atomKey]

/-- **`lookup_has_field`** selects the nodes of the kind with a valid value in the field. -/
theorem lookupHasField_build : (build order index nodes).lookupHasField k f =
    (nodes.filter fun n => indexed n && n.kind == k && (n.field f).any Value.valid).map Node.id := by
  rw [lookupHasField, get_build index nodes hasFieldIndex (fun t => some (t.1.kind, t.2.1))
    (·.1.id) rfl]
  · have h := @map_filter_entries order f k (fun _ => true) nodes
    simpa using h
  · exact fun n index p hp => congrArg hasFieldIndex (indexField_of_valid hp)
  · exact fun _ _ _ => rfl

/-- **`lookup_by_name`** selects the nodes of the name, and none for no name. -/
theorem lookupByName_build (a : AtomId) : (build order index nodes).lookupByName a =
    (nodes.filter fun n => indexed n && (n.name == a && n.name != kInvalidAtom)).map Node.id := by
  have hfill : (build order index nodes).nameIndex = Buckets.group
      (fun n : Node => if n.name = kInvalidAtom then none else some n.name) Node.id ∅
      (nodes.filter indexed) := by
    rw [build_eq_foldl_nodes index nodes nameIndex
      (fun m n => Buckets.group (fun n : Node => if n.name = kInvalidAtom then none else some n.name)
        Node.id m [n])]
    · rfl
    · rintro n index ⟨g, w⟩
      cases w <;> rfl
    · intro index n
      by_cases hn : n.name = kInvalidAtom <;> simp [hn, Buckets.group]
  rw [lookupByName, hfill, Buckets.get_group, Buckets.get_empty, List.nil_append, List.filter_filter]
  refine congrArg (List.map Node.id) (List.filter_congr fun n _ => ?_)
  rw [Bool.eq_iff_iff]
  by_cases hn : n.name = kInvalidAtom
  · simp [hn]
  · simp [hn, and_comm]

/-- **`for_each_in_kind`** visits the entries of the kind, in the order of the pass. -/
theorem forEachInKind_build : (build order index nodes).forEachInKind k =
    ((entries order nodes).filter fun t => t.1.kind = k).map fun t => (t.1.id, t.2) := by
  rw [forEachInKind, get_build index nodes kindEntries (fun t => some t.1.kind)
    (fun t => ⟨t.1.id, t.2.1, t.2.2⟩) rfl]
  · simp [Function.comp]
  · exact fun n index p hp => congrArg kindEntries (indexField_of_valid hp)
  · exact fun _ _ _ => rfl

theorem entryCount_build :
    (build order index nodes).entryCount = (entries order nodes).length := by
  rw [build_eq_foldl index nodes entryCount fun count _ => count + 1]
  · generalize entries order nodes = ts
    induction ts using List.reverseRecOn with
    | nil => rfl
    | append_singleton ts t ih => rw [List.foldl_append, ih, List.length_append]; rfl
  · exact fun n index p hp => congrArg entryCount (indexField_of_valid hp)
  · exact fun _ _ _ => rfl

theorem nodeCount_build : (build order index nodes).nodeCount = nodes.countP indexed := by
  rw [build_eq_foldl_nodes index nodes nodeCount fun count _ => count + 1, List.countP_eq_length_filter]
  · generalize nodes.filter indexed = ns
    induction ns using List.reverseRecOn with
    | nil => rfl
    | append_singleton ns n ih => rw [List.foldl_append, ih, List.length_append]; rfl
  · rintro n index ⟨g, w⟩
    cases w <;> rfl
  · exact fun _ _ => rfl

end Lookups

end FieldIndex

end Stratavm
