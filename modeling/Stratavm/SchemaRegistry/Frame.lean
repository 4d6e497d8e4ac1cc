import Stratavm.SchemaRegistry.Migration

/-!
# What a plan leaves alone

A step changes one field entry of the nodes of its kind, so a plan keeps the table's length and
everything of a node but its fields. The steps for a brand new kind have the kind `kInvalidKind`,
which `apply_migration` expects of no node; a placeholder has it.

* `MigrationPlan.Keeps`: what a plan of version `a` may change of a table.
* **`applyMigration_keeps_iff`**: it changes no more iff no alive node of kind `kInvalidKind` lacks
  a field at an index of a brand new kind.
* `placeholder_migrated`: a placeholder gets the field of a brand new kind.

`foldl_apply_frame` is the part that holds without a condition.
-/

namespace Stratavm

open Lib

/-! ## The frame of a step -/

namespace FieldMigration

variable {n : Node} {m : FieldMigration} {ms : List FieldMigration}

/-- `m` is `n` up to its fields. -/
structure Frame (n m : Node) : Prop where
  id : m.id = n.id
  kind : m.kind = n.kind
  name : m.name = n.name
  alive : m.alive = n.alive
  placeholder : m.placeholder = n.placeholder
  generation : m.generation = n.generation
  children : m.children = n.children
  refs : m.refs = n.refs

theorem Frame.refl (n : Node) : Frame n n := ⟨rfl, rfl, rfl, rfl, rfl, rfl, rfl, rfl⟩

theorem Frame.trans {n m l : Node} (h : Frame n m) (h' : Frame m l) : Frame n l :=
  ⟨h'.id.trans h.id, h'.kind.trans h.kind, h'.name.trans h.name, h'.alive.trans h.alive,
    h'.placeholder.trans h.placeholder, h'.generation.trans h.generation,
    h'.children.trans h.children, h'.refs.trans h.refs⟩

theorem frame_fields (n : Node) (fields : UMap FieldId Value) : Frame n { n with fields } :=
  ⟨rfl, rfl, rfl, rfl, rfl, rfl, rfl, rfl⟩

/-- A step changes fields only. -/
theorem apply_frame (n : Node) (m : FieldMigration) : Frame n (apply n m) := by
  unfold apply
  split
  · exact .refl n
  · cases m.migrationKind with
    | removeField => exact frame_fields n _
    | addField =>
      cases n.field m.fieldIdx with
      | none => exact frame_fields n _
      | some v => exact .refl n
    | renameField => exact .refl n
    | changeType =>
      cases n.field m.fieldIdx with
      | none => exact .refl n
      | some v => exact frame_fields n _

/-- A plan changes fields only. -/
theorem foldl_apply_frame (n : Node) (ms : List FieldMigration) : Frame n (ms.foldl apply n) := by
  induction ms generalizing n with
  | nil => exact .refl n
  | cons m ms ih => exact (apply_frame n m).trans (ih _)

/-- A step for another kind does nothing. -/
theorem apply_of_ne (h : m.kindId ≠ n.kind) : apply n m = n := if_pos h

/-- Adding a field that is there does nothing. -/
theorem apply_add_of_ne_none (hm : m.migrationKind = .addField) (h : n.field m.fieldIdx ≠ none) :
    apply n m = n := by
  obtain ⟨v, hv⟩ := Option.ne_none_iff_exists'.mp h
  unfold apply
  rw [hm]
  split
  · rfl
  · simp only [hv]

/-- Steps that do nothing to a node do nothing to it together. -/
theorem foldl_apply_of_forall (h : ∀ m ∈ ms, apply n m = n) : ms.foldl apply n = n := by
  induction ms with
  | nil => rfl
  | cons m ms ih =>
    rw [List.foldl_cons, h m (List.mem_cons_self ..)]
    exact ih fun m' hm' => h m' (List.mem_cons_of_mem _ hm')

/-- A field that differs was named by a step for the node's kind. -/
theorem exists_of_field_foldl_ne {i : FieldId} (h : (ms.foldl apply n).field i ≠ n.field i) :
    ∃ m ∈ ms, m.kindId = n.kind ∧ m.fieldIdx = i := by
  by_contra hnone
  refine h ?_
  rw [field_foldl_apply]
  refine foldl_onField_of_ne (fun m hm hi => ?_) _
  obtain ⟨hm, hk⟩ := List.mem_filter.mp hm
  exact hnone ⟨m, hm, of_decide_eq_true hk, hi⟩

/-- An added field is there. -/
theorem field_foldl_apply_ne_none {i : FieldId}
    (hall : ∀ m ∈ ms, m.kindId = n.kind → m.migrationKind = .addField)
    (h : ∃ m ∈ ms, m.kindId = n.kind ∧ m.fieldIdx = i) : (ms.foldl apply n).field i ≠ none := by
  have hkeep : ∀ (l : List FieldMigration) (v : Value), (∀ m ∈ l, m.migrationKind = .addField) →
      l.foldl (onField i) (some v) = some v := by
    intro l v hl
    induction l with
    | nil => rfl
    | cons m l ih =>
      have hstep : onField i (some v) m = some v := by
        simp [onField, hl m (List.mem_cons_self ..)]
      rw [List.foldl_cons, hstep]
      exact ih fun m' hm' => hl m' (List.mem_cons_of_mem _ hm')
  rw [field_foldl_apply]
  obtain ⟨m, hm, hk, hi⟩ := h
  have hmem : m ∈ ms.filter fun m => m.kindId = n.kind :=
    List.mem_filter.mpr ⟨hm, decide_eq_true hk⟩
  have hadd : ∀ m ∈ ms.filter fun m => m.kindId = n.kind, m.migrationKind = .addField :=
    fun m hm => hall m (List.mem_filter.mp hm).1 (of_decide_eq_true (List.mem_filter.mp hm).2)
  obtain ⟨pre, suf, hl⟩ := List.append_of_mem hmem
  rw [hl] at hadd ⊢
  have hstep : ∀ v, ∃ w, onField i v m = some w := by
    intro v
    simp [onField, hi, hadd m (by simp)]
  obtain ⟨w, hw⟩ := hstep (pre.foldl (onField i) (n.field i))
  rw [List.foldl_append, List.foldl_cons, hw,
    hkeep suf w fun m' hm' => hadd m' (by simp [hm'])]
  exact Option.some_ne_none w

end FieldMigration

/-! ## The steps of a plan -/

section Plan

variable {a b : SchemaVersion} {m : FieldMigration} {fid : FieldId}

variable (a b) in
/-- A kind of `b` whose name is no kind of `a` has a field `fid`. -/
def BrandNewField (fid : FieldId) : Prop :=
  ∃ s kid k, b.kindNameMap[s]? = some kid ∧ a.kindNameMap.contains s = false ∧
    b.schema.kind kid = some k ∧ fid ∈ idRange k.fields.length

/-- An id of a range is below its count. -/
theorem toNat_lt_of_mem_idRange {count : Nat} {id : UInt32} (h : id ∈ idRange count) :
    id.toNat < count := by
  obtain ⟨i, hi, rfl⟩ := List.mem_map.mp h
  have hi := List.mem_range.mp hi
  have hlt := (UInt32.ofNat count).toNat_lt
  have hle : (UInt32.ofNat count).toNat ≤ count := by
    rw [UInt32.toNat_ofNat']
    exact Nat.mod_le _ _
  rw [toNat_ofNat_of_lt (by omega)]
  omega

/-- The steps for a kind of `a` have a kind id of `a`. -/
theorem kind_of_mem_kindSteps {p : Bytes × KindId} (h : m ∈ kindSteps a b p) :
    a.schema.kind m.kindId ≠ none := by
  rw [kindId_of_mem_kindSteps h]
  intro hnone
  unfold kindSteps at h
  rw [hnone] at h
  cases h

/-- The step for a field of a brand new kind. -/
theorem mem_newKindSteps_iff {p : Bytes × KindId} : m ∈ newKindSteps a b p ↔
    a.kindNameMap.contains p.1 = false ∧ ∃ k, b.schema.kind p.2 = some k ∧
      ∃ fid ∈ idRange k.fields.length, ∃ fd, k.field fid = some fd ∧ m = .add kInvalidKind fid fd := by
  unfold newKindSteps
  cases hc : a.kindNameMap.contains p.1 with
  | true => simp
  | false =>
    cases hk : b.schema.kind p.2 with
    | none => simp
    | some k =>
      simp only [Bool.false_eq_true, if_false, List.mem_filterMap, Option.map_eq_some_iff,
        true_and, Option.some.injEq, exists_eq_left']
      simp only [eq_comm]

/-- The steps of a plan for a kind that is none of `a`'s: additions for brand new kinds. -/
theorem migrationSteps_new (h : m ∈ migrationSteps a b) (hk : a.schema.kind m.kindId = none) :
    m.kindId = kInvalidKind ∧ m.migrationKind = .addField ∧ BrandNewField a b m.fieldIdx := by
  rcases List.mem_append.mp h with h | h
  · obtain ⟨p, -, h⟩ := List.mem_flatMap.mp h
    exact absurd hk (kind_of_mem_kindSteps h)
  · obtain ⟨p, hp, h⟩ := List.mem_flatMap.mp h
    obtain ⟨hc, k, hk', fid, hfid, fd, -, rfl⟩ := mem_newKindSteps_iff.mp h
    exact ⟨rfl, rfl, p.1, p.2, k, Std.ExtTreeMap.mem_toList_iff_getElem?_eq_some.mp hp, hc, hk', hfid⟩

/-- Every field of a brand new kind has a step. -/
theorem BrandNewField.exists_step (h : BrandNewField a b fid) :
    ∃ m ∈ migrationSteps a b, m.kindId = kInvalidKind ∧ m.fieldIdx = fid := by
  obtain ⟨s, kid, k, hs, hc, hk, hfid⟩ := h
  have hlt := toNat_lt_of_mem_idRange hfid
  have hfd : k.field fid = some k.fields[fid.toNat] := List.getElem?_eq_getElem hlt
  refine ⟨.add kInvalidKind fid k.fields[fid.toNat], List.mem_append_right _ ?_, rfl, rfl⟩
  exact List.mem_flatMap.mpr ⟨(s, kid), Std.ExtTreeMap.mem_toList_iff_getElem?_eq_some.mpr hs,
    mem_newKindSteps_iff.mpr ⟨hc, k, hk, fid, hfid, _, hfd, rfl⟩⟩

end Plan

/-! ## Applying a plan -/

/-- What a plan of version `a` may change of the node `n`: a field entry at an index some step for
its kind names, if the node is alive and of a kind of `a`. -/
structure MigrationPlan.KeepsNode (plan : MigrationPlan) (a : SchemaVersion) (n m : Node) : Prop where
  frame : FieldMigration.Frame n m
  dead : n.alive = false → m = n
  foreign : a.schema.kind n.kind = none → m = n
  named : n.alive = true → a.schema.kind n.kind ≠ none → ∀ i, m.field i ≠ n.field i →
    ∃ step ∈ plan.migrations, step.kindId = n.kind ∧ step.fieldIdx = i

/-- What a plan of version `a` may change of a node table. -/
structure MigrationPlan.Keeps (plan : MigrationPlan) (a : SchemaVersion) (nodes nodes' : List Node) :
    Prop where
  length : nodes'.length = nodes.length
  node : ∀ (i : Nat) (n m : Node), nodes[i]? = some n → nodes'[i]? = some m → plan.KeepsNode a n m

section Apply

variable {a b : SchemaVersion} {plan : MigrationPlan} {nodes : List Node} {n : Node}

/-- Nodes that are all migrated within bounds make a table that is. -/
theorem MigrationPlan.keeps_iff : plan.Keeps a nodes (applyMigration nodes plan) ↔
    ∀ n ∈ nodes, plan.KeepsNode a n
      (if n.alive = false then n else plan.migrations.foldl FieldMigration.apply n) := by
  constructor
  · intro h n hn
    obtain ⟨i, hi⟩ := List.getElem?_of_mem hn
    refine h.node i n _ hi ?_
    rw [applyMigration, List.getElem?_map, hi]
    rfl
  · intro h
    refine ⟨List.length_map _, fun i n m hn hm => ?_⟩
    rw [applyMigration, List.getElem?_map, hn, Option.map_some] at hm
    obtain rfl := Option.some.inj hm
    exact h n (List.mem_of_getElem? hn)

/-- A plan leaves an alive node alone that has every field of a brand new kind, or another kind than
`kInvalidKind`, and whose kind is none of `a`'s. -/
theorem foldl_apply_foreign (hk : a.schema.kind n.kind = none)
    (h : n.kind = kInvalidKind → ∀ fid, BrandNewField a b fid → n.field fid ≠ none) :
    (migrationSteps a b).foldl FieldMigration.apply n = n := by
  refine FieldMigration.foldl_apply_of_forall fun m hm => ?_
  by_cases hmk : m.kindId = n.kind
  · obtain ⟨hinv, hadd, hnew⟩ := migrationSteps_new hm (hmk.symm ▸ hk)
    exact FieldMigration.apply_add_of_ne_none hadd (h (hmk.symm.trans hinv) _ hnew)
  · exact FieldMigration.apply_of_ne hmk

/-- A node of kind `kInvalidKind` gets the fields of brand new kinds. -/
theorem field_brandNew (hk : a.schema.kind kInvalidKind = none) (hn : n.kind = kInvalidKind)
    {fid : FieldId} (h : BrandNewField a b fid) :
    ((migrationSteps a b).foldl FieldMigration.apply n).field fid ≠ none := by
  refine FieldMigration.field_foldl_apply_ne_none (fun m hm hmk => ?_) ?_
  · exact (migrationSteps_new hm (by rw [hmk, hn, hk])).2.1
  · obtain ⟨m, hm, hmk, hmi⟩ := h.exists_step
    exact ⟨m, hm, hmk.trans hn.symm, hmi⟩

/-- **The frame of a migration**: a plan changes only what it names iff no alive node of kind
`kInvalidKind` lacks a field at an index of a brand new kind. -/
theorem applyMigration_keeps_iff {reg : SchemaRegistry} {v w : UInt32} (hv : reg.find v = some a)
    (hw : reg.find w = some b) (hplan : reg.computeMigration v w = .ok plan) (nodes : List Node) :
    plan.Keeps a nodes (applyMigration nodes plan) ↔
      (a.schema.kind kInvalidKind = none → ∀ n ∈ nodes, n.alive = true → n.kind = kInvalidKind →
        ∀ fid, BrandNewField a b fid → n.field fid ≠ none) := by
  rw [computeMigration_eq hv hw] at hplan
  obtain rfl := Except.ok.inj hplan
  rw [MigrationPlan.keeps_iff]
  constructor
  · intro h hk n hn halive hkind fid hnew hnone
    have hsame := (h n hn).foreign (hkind.symm ▸ hk)
    rw [if_neg (by simp [halive])] at hsame
    refine field_brandNew hk hkind hnew ?_
    rw [hsame]
    exact hnone
  · intro h n hn
    cases halive : n.alive with
    | false =>
      rw [if_pos rfl]
      exact ⟨.refl n, fun _ => rfl, fun _ => rfl, fun h => absurd h (by simp [halive])⟩
    | true =>
      rw [if_neg (by simp)]
      refine ⟨FieldMigration.foldl_apply_frame n _, fun h => absurd h (by simp [halive]), fun hk => ?_,
        fun _ _ i hi => FieldMigration.exists_of_field_foldl_ne hi⟩
      exact foldl_apply_foreign hk fun hkind => h (hkind ▸ hk) n hn halive hkind

end Apply

/-! ### A placeholder -/

/-- Version 0: no kinds. -/
def noKinds : SchemaVersion := { versionId := 1 }

/-- What `materialize_placeholder` makes of the atom 0 in an empty table. -/
def placeholderNode : Node := { id := 0, kind := kInvalidKind, name := 0, placeholder := true }

/-- Field `i` of a brand new kind. -/
theorem noKinds_idOnly_brandNew : BrandNewField noKinds idOnly 0 :=
  ⟨[0x6E], 0, { name := 0, fields := [{ name := 1, type := .int }] }, by decide, by decide, rfl,
    by decide⟩

/-- **A placeholder is migrated**: it gets the field of the brand new kind. -/
theorem placeholder_migrated : ¬ ∀ (reg : SchemaRegistry) (v w : UInt32) (a b : SchemaVersion)
    (plan : MigrationPlan), reg.find v = some a → reg.find w = some b →
    reg.computeMigration v w = .ok plan → ∀ nodes : List Node,
      plan.Keeps a nodes (applyMigration nodes plan) := by
  intro h
  have hplan : (twoVersions noKinds idOnly).computeMigration 1 2 = .ok _ :=
    computeMigration_eq (a := noKinds) (b := idOnly) rfl rfl
  have hkeep := (h _ 1 2 noKinds idOnly _ rfl rfl hplan [placeholderNode]).node 0 placeholderNode _ rfl rfl
  have hfield := congrArg (·.field 0) (hkeep.foreign rfl)
  have hmig := field_brandNew (n := placeholderNode) rfl rfl noKinds_idOnly_brandNew
  exact hmig hfield

/-- A plan that removes field 1 removes it, and changes nothing else. -/
theorem applyMigration_keeps_tagged : ∃ plan,
    (twoVersions idTag idOnly).computeMigration 1 2 = .ok plan ∧
      (applyMigration [tagged] plan).map (·.field 1) = [none] ∧
      plan.Keeps idTag [tagged] (applyMigration [tagged] plan) := by
  have hplan : (twoVersions idTag idOnly).computeMigration 1 2 = .ok _ :=
    computeMigration_eq (a := idTag) (b := idOnly) rfl rfl
  refine ⟨_, hplan, by decide, (applyMigration_keeps_iff rfl rfl hplan [tagged]).mpr fun _ n hn _ hkind => ?_⟩
  obtain rfl := List.mem_singleton.mp hn
  exact absurd hkind (by decide)

end Stratavm
