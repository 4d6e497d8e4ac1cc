import Stratavm.FieldIndex
import Stratavm.Query.Literal
import Stratavm.ReplayVm.Typing

/-!
# The field index and the query engine

A lookup in the index and a query for a kind and a field both select from the table in order, the one
by ids of kinds and fields, the other by their names. Over distinct names these are the same nodes
(`matchKind_eq_kind`, `fieldValue_eq_field`), and what else the two look at is settled by the machine: a
node of a declared kind is no placeholder, and its field has the declared type.

The type matters because a query compares across types. An integer is compared with references and with
atoms by their ids, while the index files a value under its own type; where a field has its declared type
there is nothing else to compare with (`selects_value`).

* `Filled`: what the two know of a node.
* **`fieldIndex_agrees`**: in every state of a run from a decoded heap the two return the same list, for an
  integer and for a text.

Out of scope: schemas in which two kinds, or two fields of a kind, have one name.
-/

namespace Stratavm

open Lib

/-- No two kinds have one name. -/
def Schema.KindNamesDistinct (atoms : AtomPool) (s : Schema) : Prop :=
  (s.kinds.map fun k => atoms.get k.name).Nodup

namespace QueryEngine

variable {engine : QueryEngine} {n : Node} {k : KindId} {f : FieldId} {kdef : KindDef} {fd : FieldDef}
  {kindName fieldName s : Bytes} {a : AtomId} {v : Int64}

section Names

variable (h : engine.atoms.Names engine.schema)
  (hkinds : engine.schema.KindNamesDistinct engine.atoms) (hk : engine.schema.kind k = some kdef)
  (hkindName : engine.atoms.get kdef.name = some kindName)

include h hkinds hk hkindName

/-- The nodes of a kind's name are those of its id. -/
theorem matchKind_eq_kind (n : Node) : engine.matchKind kindName n = (n.kind == k) := by
  rw [matchKind_eq h.toIndexed h.noKind, Bool.eq_iff_iff, Option.any_eq_true, beq_iff_eq]
  constructor
  · rintro ⟨kdef', hk', hfirst⟩
    have hname : engine.atoms.get kdef'.name = some kindName :=
      (AtomPool.idxOf?_eq_some_iff_get h.nodup).mp (beq_iff_eq.mp hfirst)
    have hlt : n.kind.toNat < (engine.schema.kinds.map fun k => engine.atoms.get k.name).length := by
      rw [List.length_map]
      exact (List.getElem?_eq_some_iff.mp hk').1
    refine UInt32.toNat_inj.mp ((List.getElem?_inj hlt hkinds).mp ?_)
    have hget : engine.schema.kinds[n.kind.toNat]? = some kdef' := hk'
    have hget' : engine.schema.kinds[k.toNat]? = some kdef := hk
    rw [List.getElem?_map, List.getElem?_map, hget, hget', Option.map_some, Option.map_some, hname,
      hkindName]
  · rintro rfl
    exact ⟨kdef, hk, beq_iff_eq.mpr ((AtomPool.idxOf?_eq_some_iff_get h.nodup).mpr hkindName)⟩

variable (hf : kdef.field f = some fd) (hfieldName : engine.atoms.get fd.name = some fieldName)

omit hkinds hkindName
include hf hfieldName

/-- The value of a field's name is that of its index. -/
theorem fieldValue_eq_field (hn : n.kind = k) : engine.fieldValue fieldName n = n.field f := by
  have hmem := Schema.kind_eq_some_mem hk
  have hatom := ((find_eq_iff_get h).mpr hfieldName).2
  refine Option.ext fun w => ?_
  rw [fieldValue_eq_some_iff h]
  constructor
  · rintro ⟨kdef', fid, fd', hk', hfd', hname', hw⟩
    obtain rfl : kdef' = kdef := Option.some.inj (hk'.symm.trans (hn ▸ hk))
    have hatom' := ((find_eq_iff_get h).mpr hname').2
    have hfid := (fieldNamed_eq h hmem hfd' hatom').1
    rwa [← (fieldNamed_eq h hmem hf hatom).1, hfid]
  · exact fun hw => ⟨kdef, f, fd, hn ▸ hk, hf, hfieldName, hw⟩

end Names

/-- What the query engine and the field index know of a node of a state. -/
structure Filled (schema : Schema) (n : Node) : Prop where
  typed : n.WellTyped schema
  kinded : n.placeholder = true ↔ n.kind = kInvalidKind

section Select

variable (h : engine.atoms.Names engine.schema)
  (hkinds : engine.schema.KindNamesDistinct engine.atoms) (hk : engine.schema.kind k = some kdef)
  (hkindName : engine.atoms.get kdef.name = some kindName) (hf : kdef.field f = some fd)
  (hfieldName : engine.atoms.get fd.name = some fieldName)

include h hkinds hk hkindName hf hfieldName

/-- **The query selects by kind id and field index**, whatever the literal. -/
theorem selects_kindField (hn : Filled engine.schema n) (value : Literal) :
    engine.selects (Query.and (.kindMatch kindName) (.fieldCmp fieldName .eq value)).toExpr n =
      (FieldIndex.indexed n && n.kind == k &&
        (n.field f).any fun w => engine.compareLiteral .eq w value) := by
  have hand : engine.selects (Query.and (.kindMatch kindName) (.fieldCmp fieldName .eq value)).toExpr n
      = (n.alive && (engine.matchKind kindName n &&
        (engine.fieldValue fieldName n).any fun w => engine.compareLiteral .eq w value)) := by
    rw [← evalNode_fieldCmp]
    rfl
  rw [hand, matchKind_eq_kind h hkinds hk hkindName]
  by_cases hkind : n.kind = k
  · have hplaceholder : n.placeholder = false := by
      rw [← Bool.not_eq_true, hn.kinded, hkind]
      rintro rfl
      rw [h.noKind] at hk
      cases hk
    rw [fieldValue_eq_field h hk hf hfieldName hkind, FieldIndex.indexed, hplaceholder, hkind,
      beq_self_eq_true, Bool.not_false, Bool.and_true, Bool.and_true, Bool.true_and]
  · rw [beq_eq_false_iff_ne.mpr hkind, Bool.false_and, Bool.and_false, Bool.and_false, Bool.false_and]

/-- The field has the declared type, so the literal is compared with values of that type alone. -/
theorem selects_value (hn : Filled engine.schema n) {value : Literal} {w : Value}
    (htype : fd.type = w.type)
    (hvalue : ∀ u : Value, u.type = w.type → (engine.compareLiteral .eq u value = true ↔ u = w)) :
    engine.selects (Query.and (.kindMatch kindName) (.fieldCmp fieldName .eq value)).toExpr n =
      (FieldIndex.indexed n && n.kind == k && n.field f == some w) := by
  rw [selects_kindField h hkinds hk hkindName hf hfieldName hn]
  by_cases hkind : n.kind = k
  · refine congrArg (FieldIndex.indexed n && n.kind == k && ·) ?_
    cases hu : n.field f with
    | none => rfl
    | some u =>
      obtain ⟨fd', hfd', hty, -⟩ := hn.typed.field_declared (hkind ▸ hk) hu
      obtain rfl := Option.some.inj (hfd'.symm.trans hf)
      rw [Option.any_some, Bool.eq_iff_iff, hvalue u (hty.trans htype), beq_iff_eq,
        Option.some.injEq]
  · rw [beq_eq_false_iff_ne.mpr hkind, Bool.and_false, Bool.false_and, Bool.false_and]

theorem selects_int (hn : Filled engine.schema n) (hint : fd.type = .int) :
    engine.selects (Query.and (.kindMatch kindName) (.fieldCmp fieldName .eq (.integer v))).toExpr n =
      (FieldIndex.indexed n && n.kind == k && n.field f == some (.int v)) := by
  refine selects_value h hkinds hk hkindName hf hfieldName hn hint fun u hu => ?_
  cases u with
  | int u => simp [compareLiteral, compareInt, Value.type, applyCmp]
  | _ => cases hu

theorem selects_atom (hn : Filled engine.schema n) (hatom : fd.type = .atom)
    (hs : engine.atoms.get a = some s) :
    engine.selects (Query.and (.kindMatch kindName) (.fieldCmp fieldName .eq (.string s))).toExpr n =
      (FieldIndex.indexed n && n.kind == k && n.field f == some (.atom a)) := by
  refine selects_value h hkinds hk hkindName hf hfieldName hn hatom fun u hu => ?_
  cases u with
  | atom b =>
    obtain ⟨hfound, hfirst⟩ := (find_eq_iff_get h).mpr hs
    rw [compareLiteral, compareString_eq h, Value.atom.injEq, ← find_eq_iff_get h, hfirst]
    exact and_iff_right hfound
  | _ => cases hu

end Select

end QueryEngine

/-- **The field index agrees with the query engine** in every state of a run from a decoded heap. -/
theorem fieldIndex_agrees {env : Env} (hpool : env.atoms.Produced) (hsize : env.atoms.size < 2 ^ 32)
    (hnodup : env.atoms.atoms.Nodup) {schemaBytes heapBytes rest rest' journal : Bytes}
    {limits : Limits} (hschema : Schema.decode env.atoms limits schemaBytes = .ok (env.schema, rest))
    (hkinds : env.schema.KindNamesDistinct env.atoms)
    (hfields : env.schema.FieldNamesDistinct env.atoms) {heap : HeapImage}
    (hheap : decodeHeap env.growth env.schema env.atoms env.limits heapBytes = .ok (heap, rest'))
    {vm : ReplayVM} (hvm : Visits env (ReplayVM.seed {} heap) journal vm) (order : FieldOrder)
    (index : FieldIndex) {k : KindId} {kdef : KindDef} {kindName : Bytes} {f : FieldId} {fd : FieldDef}
    {fieldName : Bytes} (hk : env.schema.kind k = some kdef)
    (hkindName : env.atoms.get kdef.name = some kindName) (hf : kdef.field f = some fd)
    (hfieldName : env.atoms.get fd.name = some fieldName) :
    (fd.type = .int → ∀ v, (FieldIndex.build order index vm.nodes.data).lookupInt k f v =
      ((vm.queryEngine env).execute
        (Query.and (.kindMatch kindName) (.fieldCmp fieldName .eq (.integer v))).toExpr).nodes) ∧
    (fd.type = .atom → ∀ a s, env.atoms.get a = some s →
      (FieldIndex.build order index vm.nodes.data).lookupAtom k f a =
        ((vm.queryEngine env).execute
          (Query.and (.kindMatch kindName) (.fieldCmp fieldName .eq (.string s))).toExpr).nodes) := by
  have hnames : (vm.queryEngine env).atoms.Names (vm.queryEngine env).schema :=
    .of_decode hpool hsize hnodup hschema hfields
  have hfilled : ∀ n ∈ vm.nodes.data, QueryEngine.Filled env.schema n := fun n hn =>
    ⟨field_typing hschema hheap hvm n hn, kinded_of_visits hschema hheap hvm n hn⟩
  refine ⟨fun hint v => ?_, fun hatom a s hs => ?_⟩
  · rw [FieldIndex.lookupInt_build, QueryEngine.execute_eq]
    refine congrArg (List.map Node.id) (List.filter_congr fun n hn => ?_)
    exact (QueryEngine.selects_int hnames hkinds hk hkindName hf hfieldName (hfilled n hn) hint).symm
  · rw [FieldIndex.lookupAtom_build, QueryEngine.execute_eq]
    refine congrArg (List.map Node.id) (List.filter_congr fun n hn => ?_)
    exact (QueryEngine.selects_atom hnames hkinds hk hkindName hf hfieldName (hfilled n hn) hatom
      hs).symm

/-- The index and the query for the atom that the node holds. -/
theorem fieldIndex_agrees_oneAtom : ∃ order : FieldOrder,
    (FieldIndex.build order {} (ReplayVM.seed {} holdsX).nodes.data).lookupAtom 0 0 2 =
      (((ReplayVM.seed {} holdsX).queryEngine oneAtom).execute
        (Query.and (.kindMatch [0x6B]) (.fieldCmp [0x66] .eq (.string [0x78]))).toExpr).nodes := by
  obtain ⟨order⟩ := exists_fieldOrder
  exact ⟨order, (fieldIndex_agrees oneAtom_produced (by decide) (by decide) oneAtom_schema
    (List.nodup_singleton _) oneAtom_fields oneAtom_heap oneAtom_visits order {} rfl rfl rfl rfl).2 rfl
    2 [0x78] rfl⟩

end Stratavm
