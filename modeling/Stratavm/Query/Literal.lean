import Stratavm.Query.Matching

/-!
# String literals

`field:f="s"` and `field:f!="s"` go through three lookups, each with an exit of its own: the field name
and the literal in the pool, and the field in the node's kind. Where field names are distinct the field is
the one of that name (`fieldValue_eq_some_iff`). The exit for a literal that is not in the pool is taken
before the operator is looked at, so `!=` fails with `=`.

* **`complementary_iff`**: the two queries are complementary iff the literal is in the pool or no alive
  node has an atom in a field of that name.
* `unknown_literal_missed`: with a literal that is not in the pool neither query returns a node.
-/

namespace Stratavm

open Lib

/-- No two fields of a kind have one name. -/
def Schema.FieldNamesDistinct (atoms : AtomPool) (s : Schema) : Prop :=
  ∀ k ∈ s.kinds, (k.fields.map fun fd => atoms.get fd.name).Nodup

/-- A pool without repeated strings, and a schema over it whose kinds have distinct field names. -/
structure AtomPool.Names (atoms : AtomPool) (schema : Schema) : Prop extends AtomPool.Indexed atoms where
  nodup : atoms.atoms.Nodup
  named : schema.Named atoms
  noKind : schema.kind kInvalidKind = none
  fields : schema.FieldNamesDistinct atoms

theorem AtomPool.Names.of_decode {atoms : AtomPool} {schema : Schema} (hpool : atoms.Produced)
    (hsize : atoms.size < 2 ^ 32) (hnodup : atoms.atoms.Nodup) {limits : Limits} {bytes rest : Bytes}
    (hschema : Schema.decode atoms limits bytes = .ok (schema, rest))
    (hfields : schema.FieldNamesDistinct atoms) : atoms.Names schema :=
  ⟨hpool.indexed hsize, hnodup, Schema.decode_named hschema,
    (Schema.decode_typed hschema).kind_invalid, hfields⟩

namespace QueryEngine

variable {engine : QueryEngine} {f s : Bytes} {n : Node} {a : AtomId} {v : Value}

/-- `n` holds `v` in its field named `f`. -/
def Holds (engine : QueryEngine) (f : Bytes) (n : Node) (v : Value) : Prop :=
  ∃ kdef fid fd, engine.schema.kind n.kind = some kdef ∧ kdef.field fid = some fd ∧
    engine.atoms.get fd.name = some f ∧ n.field fid = some v

section Field

variable (h : engine.atoms.Names engine.schema)

include h

/-- A text resolves to the atom that has it. -/
theorem find_eq_iff_get : engine.atoms.find s ≠ kInvalidAtom ∧ a = engine.atoms.find s ↔
    engine.atoms.get a = some s := by
  rw [h.find_eq_iff, AtomPool.idxOf?_eq_some_iff_get h.nodup]

/-- The scan of the fields of a kind finds the one of that name. -/
theorem fieldNamed_eq {kdef : KindDef} (hk : kdef ∈ engine.schema.kinds) {fid : FieldId}
    {fd : FieldDef} (hfd : kdef.field fid = some fd) (hname : fd.name = a) :
    fieldNamed kdef a = fid ∧ fid ≠ kNotFound := by
  have hcount := h.named.count kdef hk
  obtain ⟨hlt, heq⟩ := List.getElem?_eq_some_iff.mp hfd
  have hdistinct : (kdef.fields.map FieldDef.name).Nodup := by
    have hnames : ((kdef.fields.map FieldDef.name).map engine.atoms.get).Nodup := by
      rw [List.map_map]
      exact h.fields kdef hk
    exact hnames.of_map
  have hfind : kdef.fields.findIdx? (fun fd => fd.name == a) = some fid.toNat := by
    refine List.findIdx?_eq_some_iff_getElem.mpr ⟨hlt, ?_, fun j hj hbeq => ?_⟩
    · rw [heq, hname]
      exact beq_self_eq_true a
    · have hj' : j < (kdef.fields.map FieldDef.name).length := by
        rw [List.length_map]
        omega
      have hlt' : fid.toNat < (kdef.fields.map FieldDef.name).length := by rwa [List.length_map]
      have hsame : (kdef.fields.map FieldDef.name)[j] = (kdef.fields.map FieldDef.name)[fid.toNat] := by
        rw [List.getElem_map, List.getElem_map, heq, hname]
        exact beq_iff_eq.mp hbeq
      exact absurd (hdistinct.getElem_inj_iff.mp hsame) (Nat.ne_of_lt hj)
  constructor
  · rw [fieldNamed, toNat_ofNat_of_lt hcount, List.take_length, hfind, Option.map_some,
      Option.getD_some, UInt32.ofNat_toNat]
  · rintro rfl
    have : kNotFound.toNat = 2 ^ 32 - 1 := rfl
    omega

/-- What the scan finds has the name. -/
theorem field_of_fieldNamed {kdef : KindDef} (hk : kdef ∈ engine.schema.kinds)
    (hfound : fieldNamed kdef a ≠ kNotFound) :
    ∃ fd, kdef.field (fieldNamed kdef a) = some fd ∧ fd.name = a := by
  have hcount := h.named.count kdef hk
  rw [fieldNamed, toNat_ofNat_of_lt hcount, List.take_length] at hfound ⊢
  cases hfind : kdef.fields.findIdx? fun fd => fd.name == a with
  | none =>
    rw [hfind] at hfound
    exact absurd rfl hfound
  | some i =>
    obtain ⟨hlt, hname, -⟩ := List.findIdx?_eq_some_iff_getElem.mp hfind
    rw [Option.map_some, Option.getD_some, KindDef.field, toNat_ofNat_of_lt (by omega)]
    exact ⟨_, List.getElem?_eq_getElem hlt, beq_iff_eq.mp hname⟩

/-- **The value of a field by name.** -/
theorem fieldValue_eq_some_iff : engine.fieldValue f n = some v ↔ engine.Holds f n v := by
  rw [fieldValue]
  constructor
  · intro hv
    split at hv
    · cases hv
    cases hk : engine.schema.kind n.kind with
    | none =>
      rw [hk] at hv
      cases hv
    | some kdef =>
      rw [hk] at hv
      simp only at hv
      split at hv
      · cases hv
      rename_i hf
      split at hv
      · cases hv
      rename_i hfound
      obtain ⟨fd, hfd, hname⟩ := field_of_fieldNamed h (Schema.kind_eq_some_mem hk) hfound
      exact ⟨kdef, _, fd, hk, hfd, (find_eq_iff_get h).mp ⟨hf, hname⟩, hv⟩
  · rintro ⟨kdef, fid, fd, hk, hfd, hname, hv⟩
    obtain ⟨hf, hatom⟩ := (find_eq_iff_get h).mpr hname
    obtain ⟨heq, hne⟩ := fieldNamed_eq h (Schema.kind_eq_some_mem hk) hfd hatom
    have hkind : n.kind ≠ kInvalidKind := by
      intro hinv
      rw [hinv, h.noKind] at hk
      cases hk
    rw [if_neg hkind, hk]
    simp only
    rw [if_neg hf, heq, if_neg hne, hv]

/-- A field holds one value. -/
theorem Holds.unique {w : Value} (hv : engine.Holds f n v) (hw : engine.Holds f n w) : v = w :=
  Option.some.inj (((fieldValue_eq_some_iff h).mpr hv).symm.trans ((fieldValue_eq_some_iff h).mpr hw))

end Field

/-! ## Equality and inequality -/

theorem widen_inj {x y : UInt32} : widen x = widen y ↔ x = y := by
  refine ⟨fun h => ?_, congrArg widen⟩
  have hback := congrArg (fun v : Int64 => v.toUInt64.toUInt32) h
  simpa [widen] using hback

theorem compareString_atom (engine : QueryEngine) (op : CmpOp) (a : AtomId) (s : Bytes) :
    engine.compareString op (.atom a) s =
      if engine.atoms.find s = kInvalidAtom then false
      else applyCmp op (widen a) (widen (engine.atoms.find s)) := by
  simp only [compareString, Value.type, Value.asAtom_atom]

section Compare

variable (h : engine.atoms.Names engine.schema)

include h

/-- `=` compares the text. -/
theorem compareString_eq : engine.compareString .eq (.atom a) s = true ↔
    engine.atoms.get a = some s := by
  rw [← find_eq_iff_get h, compareString_atom]
  by_cases hs : engine.atoms.find s = kInvalidAtom
  · simp [hs]
  · simp [hs, applyCmp, widen_inj]

/-- `!=` compares the text of a literal that is in the pool. -/
theorem compareString_neq : engine.compareString .neq (.atom a) s = true ↔
    s ∈ engine.atoms.atoms ∧ engine.atoms.get a ≠ some s := by
  rw [← h.find_ne_invalid_iff, ne_eq (engine.atoms.get a), ← find_eq_iff_get h, compareString_atom]
  by_cases hs : engine.atoms.find s = kInvalidAtom
  · simp [hs]
  · simp [hs, applyCmp, widen_inj]

/-- A string literal is compared with atoms only. -/
theorem selects_fieldCmp {op : CmpOp} :
    engine.selects (Query.fieldCmp f op (.string s)).toExpr n = true ↔ n.alive = true ∧
      ∃ a, engine.Holds f n (.atom a) ∧ engine.compareString op (.atom a) s = true := by
  rw [selects, Bool.and_eq_true, evalNode_fieldCmp]
  refine and_congr_right fun _ => ?_
  cases hv : engine.fieldValue f n with
  | none =>
    refine iff_of_false Bool.false_ne_true ?_
    rintro ⟨a, ha, -⟩
    rw [(fieldValue_eq_some_iff h).mpr ha] at hv
    cases hv
  | some v =>
    have hholds := (fieldValue_eq_some_iff h).mp hv
    constructor
    · intro hcmp
      cases v with
      | atom a => exact ⟨a, hholds, hcmp⟩
      | _ => cases hcmp
    · rintro ⟨a, ha, hcmp⟩
      rwa [Holds.unique h hholds ha]

end Compare

/-- The ids `field:f="s"`, or with another operator, returns. -/
def returned (engine : QueryEngine) (f : Bytes) (op : CmpOp) (s : Bytes) : List NodeId :=
  (engine.execute (Query.fieldCmp f op (.string s)).toExpr).nodes

/-- Each alive node with an atom in its field `f` is returned by one of `=` and `!=`, by `=` if the
atom's text is `s`; no other node is returned by either. -/
structure Complementary (engine : QueryEngine) (f s : Bytes) : Prop where
  equal : ∀ n ∈ engine.nodes, ∀ a, n.alive = true → engine.Holds f n (.atom a) →
    engine.atoms.get a = some s → n.id ∈ engine.returned f .eq s ∧ n.id ∉ engine.returned f .neq s
  unequal : ∀ n ∈ engine.nodes, ∀ a, n.alive = true → engine.Holds f n (.atom a) →
    engine.atoms.get a ≠ some s → n.id ∉ engine.returned f .eq s ∧ n.id ∈ engine.returned f .neq s
  other : ∀ n ∈ engine.nodes, ¬ (n.alive = true ∧ ∃ a, engine.Holds f n (.atom a)) →
    n.id ∉ engine.returned f .eq s ∧ n.id ∉ engine.returned f .neq s

section Table

variable (h : engine.atoms.Names engine.schema) (hids : IdsArePositions engine.nodes)

include h hids

theorem mem_returned_eq (hn : n ∈ engine.nodes) : n.id ∈ engine.returned f .eq s ↔
    n.alive = true ∧ ∃ a, engine.Holds f n (.atom a) ∧ engine.atoms.get a = some s := by
  rw [returned, execute_eq, hids.id_mem_map_filter hn, selects_fieldCmp h]
  simp only [compareString_eq h]

theorem mem_returned_neq (hn : n ∈ engine.nodes) : n.id ∈ engine.returned f .neq s ↔
    n.alive = true ∧ ∃ a, engine.Holds f n (.atom a) ∧ s ∈ engine.atoms.atoms ∧
      engine.atoms.get a ≠ some s := by
  rw [returned, execute_eq, hids.id_mem_map_filter hn, selects_fieldCmp h]
  simp only [compareString_neq h]

/-- The two queries over a table of identified nodes. -/
theorem complementary_table_iff : engine.Complementary f s ↔ s ∈ engine.atoms.atoms ∨
    ∀ n ∈ engine.nodes, n.alive = true → ∀ a, ¬ engine.Holds f n (.atom a) := by
  constructor
  · intro hc
    by_cases hs : s ∈ engine.atoms.atoms
    · exact Or.inl hs
    · refine Or.inr fun n hn halive a ha => hs ?_
      have hne : engine.atoms.get a ≠ some s := fun hget => hs (List.mem_of_getElem? hget)
      obtain ⟨-, b, -, hmem, -⟩ :=
        (mem_returned_neq h hids hn).mp (hc.unequal n hn a halive ha hne).2
      exact hmem
  · intro hcond
    refine ⟨fun n hn a halive ha hget => ⟨?_, ?_⟩, fun n hn a halive ha hne => ⟨?_, ?_⟩,
      fun n hn hnone => ⟨?_, ?_⟩⟩
    · exact (mem_returned_eq h hids hn).mpr ⟨halive, a, ha, hget⟩
    · rw [mem_returned_neq h hids hn]
      rintro ⟨-, b, hb, -, hne⟩
      obtain rfl : a = b := Value.atom.inj (Holds.unique h ha hb)
      exact hne hget
    · rw [mem_returned_eq h hids hn]
      rintro ⟨-, b, hb, hget⟩
      obtain rfl : a = b := Value.atom.inj (Holds.unique h ha hb)
      exact hne hget
    · rcases hcond with hs | hnone
      · exact (mem_returned_neq h hids hn).mpr ⟨halive, a, ha, hs, hne⟩
      · exact absurd ha (hnone n hn halive a)
    · rw [mem_returned_eq h hids hn]
      rintro ⟨halive, b, hb, -⟩
      exact hnone ⟨halive, b, hb⟩
    · rw [mem_returned_neq h hids hn]
      rintro ⟨halive, b, hb, -⟩
      exact hnone ⟨halive, b, hb⟩

end Table

end QueryEngine

/-- **Equality and inequality are complementary** in a state of the machine iff the literal is in the
pool or no alive node has an atom to compare it with. -/
theorem complementary_iff {env : Env} (hids : env.limits.IdsFit) (hpool : env.atoms.Produced)
    (hsize : env.atoms.size < 2 ^ 32) (hnodup : env.atoms.atoms.Nodup)
    {schemaBytes heapBytes rest rest' journal : Bytes} {limits : Limits}
    (hschema : Schema.decode env.atoms limits schemaBytes = .ok (env.schema, rest))
    (hfields : env.schema.FieldNamesDistinct env.atoms) {heap : HeapImage}
    (hheap : decodeHeap env.growth env.schema env.atoms env.limits heapBytes = .ok (heap, rest'))
    {vm : ReplayVM} (hvm : Visits env (ReplayVM.seed {} heap) journal vm) (f s : Bytes) :
    (vm.queryEngine env).Complementary f s ↔ s ∈ env.atoms.atoms ∨
      ∀ n ∈ vm.nodes.data, n.alive = true → ∀ a, ¬ (vm.queryEngine env).Holds f n (.atom a) := by
  obtain ⟨k, r, hstate⟩ := visits_iff.mp hvm
  have hsound := sound_of_stateAt hids hheap hstate
  have hnames : (vm.queryEngine env).atoms.Names (vm.queryEngine env).schema :=
    .of_decode hpool hsize hnodup hschema hfields
  exact QueryEngine.complementary_table_iff hnames hsound.ids

/-! ### A literal that is not in the pool -/

/-- A kind `k` with an atom in its field `f`. -/
def oneAtom : Env where
  atoms := internAll [[0x6B], [0x66], [0x78]]
  schema := { kinds := [{ name := 0, fields := [{ name := 1, type := .atom }] }] }

/-- A node that holds `x` there. -/
def holdsX : HeapImage :=
  ⟨Vec.empty.pushBack Growth.doubling
    (({ id := 0, kind := 0, name := 2 } : Node).setField 0 (.atom 2))⟩

theorem oneAtom_produced : oneAtom.atoms.Produced :=
  ((AtomPool.Produced.empty.intern _).intern _).intern _

theorem oneAtom_schema : Schema.decode oneAtom.atoms {} [1, 0, 1, 1, 2, 0] =
    .ok (oneAtom.schema, []) := rfl

theorem oneAtom_heap : decodeHeap oneAtom.growth oneAtom.schema oneAtom.atoms oneAtom.limits
    [1, 0, 0, 2, 1, 0, 2] = .ok (holdsX, []) := rfl

theorem oneAtom_visits :
    Visits oneAtom (ReplayVM.seed {} holdsX) [0] (ReplayVM.seed {} holdsX) :=
  ⟨0, [], 0, [], rfl, by decide, Nat.le_refl 0, rfl⟩

theorem oneAtom_fields : oneAtom.schema.FieldNamesDistinct oneAtom.atoms :=
  List.forall_mem_singleton.mpr (List.nodup_singleton _)

/-- **An unknown literal is missed**: the node that holds `x` is not returned by `field:f!="y"`. -/
theorem unknown_literal_missed : ¬ ∀ (env : Env) (limits : Limits)
    (schemaBytes heapBytes rest rest' journal : Bytes) (heap : HeapImage) (vm : ReplayVM)
    (f s : Bytes), env.limits.IdsFit → env.atoms.Produced → env.atoms.size < 2 ^ 32 →
    env.atoms.atoms.Nodup → Schema.decode env.atoms limits schemaBytes = .ok (env.schema, rest) →
    env.schema.FieldNamesDistinct env.atoms →
    decodeHeap env.growth env.schema env.atoms env.limits heapBytes = .ok (heap, rest') →
    Visits env (ReplayVM.seed {} heap) journal vm → (vm.queryEngine env).Complementary f s := by
  intro h
  have hc := h oneAtom {} _ _ _ _ _ _ _ [0x66] [0x79] idsFit_default oneAtom_produced (by decide)
    (by decide) oneAtom_schema oneAtom_fields oneAtom_heap oneAtom_visits
  have hmem := (hc.unequal _ (List.mem_singleton.mpr rfl) 2 rfl
    ⟨_, 0, _, rfl, rfl, rfl, rfl⟩ (by decide)).2
  revert hmem
  decide

/-- With a literal that is in the pool the two are complementary. -/
theorem complementary_oneAtom :
    ((ReplayVM.seed {} holdsX).queryEngine oneAtom).Complementary [0x66] [0x78] :=
  (complementary_iff idsFit_default oneAtom_produced (by decide) (by decide) oneAtom_schema
    oneAtom_fields oneAtom_heap oneAtom_visits [0x66] [0x78]).mpr (Or.inl (by decide))

end Stratavm
