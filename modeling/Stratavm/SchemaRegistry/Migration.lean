import Stratavm.SchemaRegistry

/-!
# Migration by name

A plan matches fields by name and moves none: a field keeps the index it had in the old version.
So `applyMigration` preserves values by name only where the two versions also agree on the index.

* **`migrates_by_name_iff`**: for two well-named versions, every well-typed node table is migrated
  by name iff `IndicesAgree`: a field of one name and type has one index, and a converted value
  stays at an index of its new type.
* `removed_field_shifts`: removing the first of two fields breaks both halves.

`field_foldl_apply` is the effect of a plan on one field of one node.
-/

namespace Stratavm

open Lib

/-! ## Name maps -/

/-- Fewer than `2 ^ 32` ids, and no two of them of one name. -/
structure DistinctNames (count : Nat) (name : UInt32 → Option Bytes) : Prop where
  fits : count < 2 ^ 32
  below : ∀ {id s}, name id = some s → id.toNat < count
  inj : ∀ {i j s}, name i = some s → name j = some s → i = j

theorem mem_idRange {count : Nat} (h : count < 2 ^ 32) (id : UInt32) :
    id ∈ idRange count ↔ id.toNat < count := by
  simp only [idRange, toNat_ofNat_of_lt h, List.mem_map, List.mem_range]
  constructor
  · rintro ⟨n, hn, rfl⟩
    rwa [toNat_ofNat_of_lt (by omega)]
  · exact fun hid => ⟨id.toNat, hid, UInt32.ofNat_toNat⟩

section NameMap

variable {count : Nat} {name : UInt32 → Option Bytes}

theorem getElem?_insertName (m : SMap Bytes UInt32) (id : UInt32) (s : Bytes) :
    (insertName name m id)[s]? = if name id = some s then some id else m[s]? := by
  unfold insertName
  cases h : name id with
  | none => simp
  | some t =>
    simp only [Std.ExtTreeMap.getElem?_insert, Std.LawfulEqOrd.compare_eq_iff_eq,
      Option.some.injEq]

/-- An entry of a name map names its id. -/
theorem name_of_foldl {ids : List UInt32} {m : SMap Bytes UInt32}
    (hm : ∀ s id, m[s]? = some id → name id = some s) {s : Bytes} {id : UInt32}
    (h : (ids.foldl (insertName name) m)[s]? = some id) : name id = some s := by
  induction ids generalizing m with
  | nil => exact hm s id h
  | cons i ids ih =>
    refine ih (fun t j hj => ?_) h
    rw [getElem?_insertName] at hj
    split at hj
    · rename_i hi
      rwa [← Option.some.inj hj]
    · exact hm t j hj

/-- A name that was inserted stays in the map. -/
theorem isSome_foldl {ids : List UInt32} {m : SMap Bytes UInt32} {s : Bytes}
    (h : m[s]?.isSome ∨ ∃ id ∈ ids, name id = some s) :
    (ids.foldl (insertName name) m)[s]?.isSome := by
  induction ids generalizing m with
  | nil => simpa using h
  | cons i ids ih =>
    refine ih ?_
    rw [getElem?_insertName]
    by_cases hi : name i = some s
    · rw [if_pos hi]
      exact Or.inl rfl
    · rw [if_neg hi]
      rcases h with h | ⟨id, hid, hs⟩
      · exact Or.inl h
      · rcases List.mem_cons.mp hid with rfl | hid
        · exact absurd hs hi
        · exact Or.inr ⟨id, hid, hs⟩

/-- **A name map looks names up.** -/
theorem getElem?_buildNameMap (h : DistinctNames count name) {s : Bytes} {id : UInt32} :
    (buildNameMap count name)[s]? = some id ↔ name id = some s := by
  have hsound : ∀ {j}, (buildNameMap count name)[s]? = some j → name j = some s :=
    fun hj => name_of_foldl (by simp) hj
  refine ⟨hsound, fun hid => ?_⟩
  have hmem : (buildNameMap count name)[s]?.isSome :=
    isSome_foldl (Or.inr ⟨id, (mem_idRange h.fits id).mpr (h.below hid), hid⟩)
  obtain ⟨j, hj⟩ := Option.isSome_iff_exists.mp hmem
  rw [hj, h.inj hid (hsound hj)]

theorem mem_toList_buildNameMap (h : DistinctNames count name) {s : Bytes} {id : UInt32} :
    (s, id) ∈ (buildNameMap count name).toList ↔ name id = some s := by
  rw [Std.ExtTreeMap.mem_toList_iff_getElem?_eq_some, getElem?_buildNameMap h]

theorem contains_buildNameMap (h : DistinctNames count name) {s : Bytes} :
    (buildNameMap count name).contains s = true ↔ ∃ id, name id = some s := by
  rw [Std.ExtTreeMap.contains_eq_isSome_getElem?, Option.isSome_iff_exists]
  exact exists_congr fun id => getElem?_buildNameMap h

/-- A named id has one entry in its map. -/
theorem toList_buildNameMap (h : DistinctNames count name) {s : Bytes} {id : UInt32}
    (hid : name id = some s) : ∃ pre suf, (buildNameMap count name).toList = pre ++ (s, id) :: suf ∧
      ∀ p ∈ pre ++ suf, p.2 ≠ id := by
  obtain ⟨pre, suf, hl⟩ := List.append_of_mem ((mem_toList_buildNameMap h).mpr hid)
  refine ⟨pre, suf, hl, fun p hp heq => ?_⟩
  have hother : p.1 ≠ s := by
    have hperm : (pre ++ (s, id) :: suf).Pairwise fun a b => ¬ compare a.1 b.1 = .eq :=
      hl ▸ Std.ExtTreeMap.distinct_keys_toList
    rw [List.pairwise_middle fun hab hba => hab (Std.OrientedCmp.eq_symm hba)] at hperm
    refine fun hs => (List.pairwise_cons.mp hperm).1 p hp ?_
    rw [hs]
    exact Std.ReflOrd.compare_self
  have hmem : (p.1, p.2) ∈ (buildNameMap count name).toList := by
    rw [hl]
    rcases List.mem_append.mp hp with hp | hp
    · exact List.mem_append_left _ hp
    · exact List.mem_append_right _ (List.mem_cons_of_mem _ hp)
  rw [mem_toList_buildNameMap h, heq, hid] at hmem
  exact hother (Option.some.inj hmem).symm

end NameMap

/-! ## Well-named versions -/

/-- Name atoms in range, no two of one text. -/
structure AtomPool.NamesDistinct (atoms : AtomPool) (names : List AtomId) : Prop where
  inRange : ∀ a ∈ names, a ≠ kInvalidAtom ∧ atoms.get a ≠ none
  distinct : (names.map atoms.get).Nodup

/-- There are fewer ids than atoms, so the names of a list of declarations are distinct names. -/
theorem AtomPool.NamesDistinct.distinctNames {atoms : AtomPool} {names : List AtomId}
    (h : atoms.NamesDistinct names) :
    DistinctNames names.length fun id => names[id.toNat]?.bind atoms.get := by
  refine ⟨?_, fun {id s} hid => ?_, fun {i j s} hi hj => ?_⟩
  · have hnodup : (names.map UInt32.toNat).Nodup :=
      (List.Nodup.of_map _ h.distinct).map fun _ _ => UInt32.toNat_inj.mp
    have hsub : names.map UInt32.toNat ⊆ List.range (2 ^ 32 - 1) := by
      intro n hn
      obtain ⟨a, ha, rfl⟩ := List.mem_map.mp hn
      have hne := (h.inRange a ha).1
      have hlt := a.toNat_lt
      rw [List.mem_range]
      by_contra hge
      exact hne (UInt32.toNat_inj.mp (show a.toNat = 2 ^ 32 - 1 by omega))
    have hle := (hnodup.subperm hsub).length_le
    rw [List.length_map, List.length_range] at hle
    omega
  · obtain ⟨a, ha, -⟩ := Option.bind_eq_some_iff.mp hid
    exact (List.getElem?_eq_some_iff.mp ha).1
  · obtain ⟨a, ha, has⟩ := Option.bind_eq_some_iff.mp hi
    obtain ⟨b, hb, hbs⟩ := Option.bind_eq_some_iff.mp hj
    have hlt : i.toNat < (names.map atoms.get).length := by
      rw [List.length_map]
      exact (List.getElem?_eq_some_iff.mp ha).1
    refine UInt32.toNat_inj.mp ((List.getElem?_inj hlt h.distinct).mp ?_)
    rw [List.getElem?_map, List.getElem?_map, ha, hb, Option.map_some, Option.map_some, has, hbs]

/-- Every kind and field name is in range, and kinds, and fields of one kind, have distinct
names. -/
structure SchemaVersion.WellNamed (sv : SchemaVersion) : Prop where
  kinds : sv.atoms.NamesDistinct (sv.schema.kinds.map KindDef.name)
  fields : ∀ k ∈ sv.schema.kinds, sv.atoms.NamesDistinct (k.fields.map FieldDef.name)

namespace SchemaVersion.WellNamed

variable {sv : SchemaVersion} (h : sv.WellNamed)

include h

theorem kindNames : DistinctNames sv.schema.kinds.length sv.kindName := by
  have := h.kinds.distinctNames
  rw [List.length_map] at this
  convert this using 1
  funext id
  rw [kindName, Schema.kind, List.getElem?_map, Option.bind_map]
  rfl

theorem fieldNames {k : KindDef} (hk : k ∈ sv.schema.kinds) :
    DistinctNames k.fields.length (sv.fieldName k) := by
  have := (h.fields k hk).distinctNames
  rw [List.length_map] at this
  convert this using 1
  funext id
  rw [fieldName, KindDef.field, List.getElem?_map, Option.bind_map]
  rfl

theorem exists_fieldName {k : KindDef} (hk : k ∈ sv.schema.kinds) {x : FieldId} {fd : FieldDef}
    (hx : k.field x = some fd) : ∃ s, sv.atoms.get fd.name = some s := by
  have hmem : fd.name ∈ k.fields.map FieldDef.name :=
    List.mem_map_of_mem (List.mem_of_getElem? hx)
  exact Option.ne_none_iff_exists'.mp ((h.fields k hk).inRange _ hmem).2

end SchemaVersion.WellNamed

/-! ## What migration by name is -/

section Shared

variable (a b : SchemaVersion)

/-- Kind `kid` of `a` is `k`, and a kind `k'` of `b` has the same name. -/
def SharedKind (kid : KindId) (k k' : KindDef) : Prop :=
  a.schema.kind kid = some k ∧ ∃ kid', b.schema.kind kid' = some k' ∧
    ∃ s, a.atoms.get k.name = some s ∧ b.atoms.get k'.name = some s

/-- Field `x` of `k` is `fd`, and field `y` of `k'` is `fd'` and has the same name. -/
structure SharedField (k k' : KindDef) (x y : FieldId) (fd fd' : FieldDef) : Prop where
  src : k.field x = some fd
  dst : k'.field y = some fd'
  name : ∃ s, a.atoms.get fd.name = some s ∧ b.atoms.get fd'.name = some s

/-- `m` is what migrating `n` by name gives: fields of one name and type keep their value, an
absent one possibly becoming `Invalid`, and every valid value has its field's type. -/
structure MigratedByName (k k' : KindDef) (n m : Node) : Prop where
  kept : ∀ x y fd fd', SharedField a b k k' x y fd fd' → fd.type = fd'.type →
    (m.field y).filter Value.valid = n.field x
  typed : ∀ y v, m.field y = some v → v.valid = true →
    ∃ fd', k'.field y = some fd' ∧ v.type = fd'.type

/-- Every alive node of a shared kind is migrated by name. -/
def MigratesByName (nodes nodes' : List Node) : Prop :=
  ∀ (i : Nat) (n : Node) (k k' : KindDef), nodes[i]? = some n → n.alive = true →
    SharedKind a b n.kind k k' → ∃ m, nodes'[i]? = some m ∧ MigratedByName a b k k' n m

/-- The type changes that produce a valid value. -/
def Converts (old new : ValueType) : Prop :=
  old = .atom ∧ new = .int ∨ old = .int ∧ new = .float ∨ old = .float ∧ new = .int

theorem not_converts_self (t : ValueType) : ¬ Converts t t := by
  cases t <;> simp [Converts]

/-- In every shared kind, a field of one name and valid type has one index, and the index of a
field whose type is converted has the new type in `b` too. -/
structure IndicesAgree : Prop where
  same : ∀ kid k k' x y fd fd', SharedKind a b kid k k' → SharedField a b k k' x y fd fd' →
    fd.type = fd'.type → fd.type ≠ .invalid → x = y
  converted : ∀ kid k k' x y fd fd', SharedKind a b kid k k' → SharedField a b k k' x y fd fd' →
    Converts fd.type fd'.type → ∃ gd, k'.field x = some gd ∧ gd.type = fd'.type

end Shared

/-! ## The effect of a plan on a field -/

namespace FieldMigration

/-- A step's effect on field `i` of a node of its kind. -/
def onField (i : FieldId) (v : Option Value) (m : FieldMigration) : Option Value :=
  if i ≠ m.fieldIdx then v
  else
    match m.migrationKind with
    | .removeField => none
    | .addField => some (v.getD m.defaultValue)
    | .renameField => v
    | .changeType => v.map (convertValue m.oldType m.newType)

theorem onField_of_ne {i : FieldId} {v : Option Value} {m : FieldMigration} (h : m.fieldIdx ≠ i) :
    onField i v m = v := if_pos (Ne.symm h)

@[simp] theorem apply_kind (n : Node) (m : FieldMigration) : (apply n m).kind = n.kind := by
  unfold apply
  split
  · rfl
  · cases m.migrationKind with
    | removeField => rfl
    | addField => cases n.field m.fieldIdx <;> simp [Node.setField]
    | renameField => rfl
    | changeType => cases n.field m.fieldIdx <;> simp [Node.setField]

theorem field_apply (n : Node) (m : FieldMigration) (i : FieldId) :
    (apply n m).field i = if m.kindId = n.kind then onField i (n.field i) m else n.field i := by
  unfold apply
  by_cases hk : m.kindId = n.kind
  · rw [if_neg (not_not.mpr hk), if_pos hk]
    unfold onField
    cases m.migrationKind with
    | removeField =>
      by_cases hi : i = m.fieldIdx
      · rw [if_neg (not_not.mpr hi), hi]
        exact Finmap.lookup_erase ..
      · rw [if_pos hi]
        exact Finmap.lookup_erase_ne hi
    | addField =>
      by_cases hi : i = m.fieldIdx
      · subst hi
        cases h : n.field m.fieldIdx <;> simp [h, Node.field_setField]
      · cases n.field m.fieldIdx <;> simp [hi, Node.field_setField]
    | renameField => simp
    | changeType =>
      by_cases hi : i = m.fieldIdx
      · subst hi
        cases h : n.field m.fieldIdx <;> simp [h, Node.field_setField]
      · cases n.field m.fieldIdx <;> simp [hi, Node.field_setField]
  · rw [if_pos hk, if_neg hk]

/-- **A plan acts on each field apart**, through the steps for the node's kind. -/
theorem field_foldl_apply (n : Node) (ms : List FieldMigration) (i : FieldId) :
    (ms.foldl apply n).field i =
      (ms.filter fun m => m.kindId = n.kind).foldl (onField i) (n.field i) := by
  induction ms generalizing n with
  | nil => rfl
  | cons m ms ih =>
    rw [List.foldl_cons, ih, apply_kind, field_apply, List.filter_cons]
    by_cases hk : m.kindId = n.kind <;> simp [hk]

theorem foldl_onField_of_ne {i : FieldId} {ms : List FieldMigration}
    (h : ∀ m ∈ ms, m.fieldIdx ≠ i) (v : Option Value) : ms.foldl (onField i) v = v := by
  induction ms with
  | nil => rfl
  | cons m ms ih =>
    rw [List.foldl_cons, onField_of_ne (h m (List.mem_cons_self ..))]
    exact ih fun m' hm' => h m' (List.mem_cons_of_mem _ hm')

/-- Removing a field leaves nothing. -/
theorem foldl_onField_remove {i : FieldId} {ms : List FieldMigration}
    (hall : ∀ m ∈ ms, m.migrationKind = .removeField) (v : Option Value)
    (h : v = none ∨ ∃ m ∈ ms, m.fieldIdx = i) : ms.foldl (onField i) v = none := by
  induction ms generalizing v with
  | nil => simpa using h
  | cons m ms ih =>
    refine ih (fun m' hm' => hall m' (List.mem_cons_of_mem _ hm')) _ ?_
    have hm := hall m (List.mem_cons_self ..)
    by_cases hi : m.fieldIdx = i
    · left
      simp [onField, hi, hm]
    · rcases h with rfl | ⟨m', hm', hi'⟩
      · left
        exact onField_of_ne hi
      · rcases List.mem_cons.mp hm' with rfl | hm'
        · exact absurd hi' hi
        · exact Or.inr ⟨m', hm', hi'⟩

/-- Only an addition gives an absent field a value. -/
theorem foldl_onField_none {i : FieldId} {ms : List FieldMigration}
    (hall : ∀ m ∈ ms, m.migrationKind ≠ .addField) : ms.foldl (onField i) none = none := by
  induction ms with
  | nil => rfl
  | cons m ms ih =>
    have hstep : onField i none m = none := by
      have := hall m (List.mem_cons_self ..)
      unfold onField
      split
      · rfl
      · cases hm : m.migrationKind <;> simp_all
    rw [List.foldl_cons, hstep]
    exact ih fun m' hm' => hall m' (List.mem_cons_of_mem _ hm')

/-- Adding fields keeps a value, and can only turn an absent one into `Invalid`. -/
theorem foldl_onField_add {i : FieldId} {ms : List FieldMigration}
    (hall : ∀ m ∈ ms, m.migrationKind = .addField ∧ m.defaultValue = .invalid) (v : Option Value) :
    ms.foldl (onField i) v = v ∨ v = none ∧ ms.foldl (onField i) v = some .invalid := by
  induction ms generalizing v with
  | nil => exact Or.inl rfl
  | cons m ms ih =>
    have ih := ih fun m' hm' => hall m' (List.mem_cons_of_mem _ hm')
    obtain ⟨hm, hd⟩ := hall m (List.mem_cons_self ..)
    rw [List.foldl_cons]
    by_cases hi : m.fieldIdx = i
    · have hstep : onField i v m = some (v.getD .invalid) := by simp [onField, hi, hm, hd]
      rw [hstep]
      rcases ih (some (v.getD .invalid)) with h | ⟨h, -⟩
      · rw [h]
        cases v with
        | none => exact Or.inr ⟨rfl, rfl⟩
        | some w => exact Or.inl rfl
      · cases h
    · rw [onField_of_ne hi]
      exact ih v

end FieldMigration

/-! ## The steps for a shared kind -/

section Steps

variable {a b : SchemaVersion} {kid : KindId} {k k' : KindDef} {i x y : FieldId}
  {fd fd' : FieldDef} {m : FieldMigration}

theorem fieldName_eq_some {sv : SchemaVersion} {s : Bytes} :
    sv.fieldName k x = some s ↔ ∃ fd, k.field x = some fd ∧ sv.atoms.get fd.name = some s :=
  Option.bind_eq_some_iff

theorem SharedField.fieldName_src (h : SharedField a b k k' x y fd fd') :
    ∃ s, a.fieldName k x = some s ∧ b.fieldName k' y = some s := by
  obtain ⟨s, hs, hs'⟩ := h.name
  exact ⟨s, fieldName_eq_some.mpr ⟨fd, h.src, hs⟩, fieldName_eq_some.mpr ⟨fd', h.dst, hs'⟩⟩

theorem removeStep_eq_some (hb : DistinctNames k'.fields.length (b.fieldName k'))
    {p : Bytes × FieldId} : removeStep b kid k k' p = some m ↔
      (¬ ∃ y, b.fieldName k' y = some p.1) ∧ ∃ fd, k.field p.2 = some fd ∧
        m = .remove kid p.2 fd := by
  unfold removeStep
  by_cases h : (b.fieldNameMap k').contains p.1
  · rw [if_pos h]
    simp [(contains_buildNameMap hb).mp h]
  · rw [if_neg h, Option.map_eq_some_iff,
      and_iff_right fun hy => h ((contains_buildNameMap hb).mpr hy)]
    exact exists_congr fun fd => and_congr_right' eq_comm

theorem addStep_eq_some (ha : DistinctNames k.fields.length (a.fieldName k))
    {p : Bytes × FieldId} : addStep a kid k k' p = some m ↔
      (¬ ∃ x, a.fieldName k x = some p.1) ∧ ∃ fd, k'.field p.2 = some fd ∧
        m = .add kid p.2 fd := by
  unfold addStep
  by_cases h : (a.fieldNameMap k).contains p.1
  · rw [if_pos h]
    simp [(contains_buildNameMap ha).mp h]
  · rw [if_neg h, Option.map_eq_some_iff,
      and_iff_right fun hx => h ((contains_buildNameMap ha).mpr hx)]
    exact exists_congr fun fd => and_congr_right' eq_comm

theorem changeStep_eq_some (hb : DistinctNames k'.fields.length (b.fieldName k'))
    {p : Bytes × FieldId} (hp : a.fieldName k p.2 = some p.1) : changeStep b kid k k' p = some m ↔
      ∃ y fd fd', SharedField a b k k' p.2 y fd fd' ∧ fd.type ≠ fd'.type ∧
        m = .change kid p.2 fd fd' := by
  obtain ⟨fd, hfd, hs⟩ := fieldName_eq_some.mp hp
  unfold changeStep
  constructor
  · intro h
    cases hy : (b.fieldNameMap k')[p.1]? with
    | none => simp [hy] at h
    | some y =>
      obtain ⟨fd', hfd', hs'⟩ := fieldName_eq_some.mp ((getElem?_buildNameMap hb).mp hy)
      simp only [hy, hfd, hfd'] at h
      split at h
      · rename_i hne
        exact ⟨y, fd, fd', ⟨hfd, hfd', p.1, hs, hs'⟩, hne, (Option.some.inj h).symm⟩
      · cases h
  · rintro ⟨y, gd, fd', hshared, hne, rfl⟩
    obtain rfl : fd = gd := Option.some.inj (hfd.symm.trans hshared.src)
    obtain ⟨s, hs1, hs'⟩ := hshared.name
    obtain rfl : p.1 = s := Option.some.inj (hs.symm.trans hs1)
    have hy : (b.fieldNameMap k')[p.1]? = some y :=
      (getElem?_buildNameMap hb).mpr (fieldName_eq_some.mpr ⟨fd', hshared.dst, hs'⟩)
    simp only [hy, hfd, hshared.dst]
    exact if_pos hne

theorem removeStep_target {p : Bytes × FieldId} (h : removeStep b kid k k' p = some m) :
    m.kindId = kid ∧ m.fieldIdx = p.2 := by
  unfold removeStep at h
  split at h
  · cases h
  · obtain ⟨fd, -, rfl⟩ := Option.map_eq_some_iff.mp h
    exact ⟨rfl, rfl⟩

theorem addStep_target {p : Bytes × FieldId} (h : addStep a kid k k' p = some m) :
    m.kindId = kid ∧ m.fieldIdx = p.2 := by
  unfold addStep at h
  split at h
  · cases h
  · obtain ⟨fd, -, rfl⟩ := Option.map_eq_some_iff.mp h
    exact ⟨rfl, rfl⟩

theorem changeStep_target {p : Bytes × FieldId} (h : changeStep b kid k k' p = some m) :
    m.kindId = kid ∧ m.fieldIdx = p.2 := by
  unfold changeStep at h
  split at h
  · cases h
  split at h
  · split at h
    · obtain rfl := Option.some.inj h
      exact ⟨rfl, rfl⟩
    · cases h
  · cases h

/-- A field with a name in both versions is not removed. -/
theorem fieldIdx_ne_of_mem_removeSteps (ha : DistinctNames k.fields.length (a.fieldName k))
    (hb : DistinctNames k'.fields.length (b.fieldName k')) (hs : SharedField a b k k' x y fd fd')
    (h : m ∈ removeSteps a b kid k k') : m.fieldIdx ≠ x := by
  obtain ⟨p, hp, hm⟩ := List.mem_filterMap.mp h
  obtain ⟨hnot, gd, -, rfl⟩ := (removeStep_eq_some hb).mp hm
  obtain ⟨s, hx, hy⟩ := hs.fieldName_src
  rintro rfl
  have hp2 := (mem_toList_buildNameMap ha).mp hp
  exact hnot ⟨y, (Option.some.inj (hp2.symm.trans hx)) ▸ hy⟩

/-- An index of a field with a name in both versions is not added. -/
theorem fieldIdx_ne_of_mem_addSteps (ha : DistinctNames k.fields.length (a.fieldName k))
    (hb : DistinctNames k'.fields.length (b.fieldName k')) (hs : SharedField a b k k' x y fd fd')
    (h : m ∈ addSteps a b kid k k') : m.fieldIdx ≠ y := by
  obtain ⟨p, hp, hm⟩ := List.mem_filterMap.mp h
  obtain ⟨hnot, gd, -, rfl⟩ := (addStep_eq_some ha).mp hm
  obtain ⟨s, hx, hy⟩ := hs.fieldName_src
  rintro rfl
  have hp2 := (mem_toList_buildNameMap hb).mp hp
  exact hnot ⟨x, (Option.some.inj (hp2.symm.trans hy)) ▸ hx⟩

/-- A field without a namesake is removed. -/
theorem exists_mem_removeSteps (ha : DistinctNames k.fields.length (a.fieldName k))
    (hb : DistinctNames k'.fields.length (b.fieldName k')) {s : Bytes}
    (hx : a.fieldName k x = some s) (hnot : ¬ ∃ y, b.fieldName k' y = some s) :
    ∃ m ∈ removeSteps a b kid k k', m.fieldIdx = x := by
  obtain ⟨fd, hfd, -⟩ := fieldName_eq_some.mp hx
  refine ⟨.remove kid x fd, List.mem_filterMap.mpr ⟨(s, x), ?_, ?_⟩, rfl⟩
  · exact (mem_toList_buildNameMap ha).mpr hx
  · exact (removeStep_eq_some hb).mpr ⟨hnot, fd, hfd, rfl⟩

/-- The change steps convert a field whose type differs, once, -/
theorem foldl_changeSteps_of_ne (ha : DistinctNames k.fields.length (a.fieldName k))
    (hb : DistinctNames k'.fields.length (b.fieldName k')) (hs : SharedField a b k k' x y fd fd')
    (hne : fd.type ≠ fd'.type) (v : Option Value) :
    (changeSteps a b kid k k').foldl (FieldMigration.onField x) v =
      v.map (convertValue fd.type fd'.type) := by
  obtain ⟨s, hx, -⟩ := hs.fieldName_src
  obtain ⟨pre, suf, hl, hother⟩ := toList_buildNameMap ha hx
  have hstep : changeStep b kid k k' (s, x) = some (.change kid x fd fd') :=
    (changeStep_eq_some hb hx).mpr ⟨y, fd, fd', hs, hne, rfl⟩
  have hrest : ∀ l : List (Bytes × FieldId), (∀ p ∈ l, p ∈ pre ++ suf) → ∀ v,
      (l.filterMap (changeStep b kid k k')).foldl (FieldMigration.onField x) v = v := by
    refine fun l hl => FieldMigration.foldl_onField_of_ne fun m hm => ?_
    obtain ⟨p, hp, hm⟩ := List.mem_filterMap.mp hm
    rw [(changeStep_target hm).2]
    exact hother p (hl p hp)
  rw [changeSteps, SchemaVersion.fieldNameMap, hl, List.filterMap_append, List.foldl_append,
    hrest pre fun p hp => List.mem_append_left _ hp, List.filterMap_cons_some hstep,
    List.foldl_cons, hrest suf fun p hp => List.mem_append_right _ hp]
  simp [FieldMigration.onField, FieldMigration.change]

/-- and no other field. -/
theorem foldl_changeSteps_of_unchanged (ha : DistinctNames k.fields.length (a.fieldName k))
    (hb : DistinctNames k'.fields.length (b.fieldName k'))
    (h : ∀ y fd fd', SharedField a b k k' x y fd fd' → fd.type = fd'.type) (v : Option Value) :
    (changeSteps a b kid k k').foldl (FieldMigration.onField x) v = v := by
  refine FieldMigration.foldl_onField_of_ne (fun m hm => ?_) v
  obtain ⟨p, hp, hm⟩ := List.mem_filterMap.mp hm
  have hname := (mem_toList_buildNameMap ha).mp hp
  obtain ⟨y, fd, fd', hs, hne, rfl⟩ := (changeStep_eq_some hb hname).mp hm
  rintro rfl
  exact hne (h y fd fd' hs)

/-- Every step for a kind of `a` has its id. -/
theorem kindId_of_mem_kindSteps {p : Bytes × KindId} (h : m ∈ kindSteps a b p) :
    m.kindId = p.2 := by
  unfold kindSteps at h
  split at h
  · cases h
  split at h
  · obtain ⟨fid, -, h⟩ := List.mem_filterMap.mp h
    obtain ⟨fd, -, rfl⟩ := Option.map_eq_some_iff.mp h
    rfl
  split at h
  · cases h
  · rcases List.mem_append.mp h with h | h
    · obtain ⟨q, -, h⟩ := List.mem_filterMap.mp h
      exact (removeStep_target h).1
    rcases List.mem_append.mp h with h | h
    · obtain ⟨q, -, h⟩ := List.mem_filterMap.mp h
      exact (addStep_target h).1
    · obtain ⟨q, -, h⟩ := List.mem_filterMap.mp h
      exact (changeStep_target h).1

/-- No step for a new kind has the id of a kind of `a`. -/
theorem kindId_of_mem_newKindSteps {p : Bytes × KindId} (h : m ∈ newKindSteps a b p) :
    m.kindId = kInvalidKind := by
  unfold newKindSteps at h
  split at h
  · cases h
  split at h
  · cases h
  · obtain ⟨fid, -, h⟩ := List.mem_filterMap.mp h
    obtain ⟨fd, -, rfl⟩ := Option.map_eq_some_iff.mp h
    rfl

theorem kindSteps_of_shared (hb : b.WellNamed)
    (hs : SharedKind a b kid k k') : ∃ s, a.kindName kid = some s ∧ kindSteps a b (s, kid) =
      removeSteps a b kid k k' ++ (addSteps a b kid k k' ++ changeSteps a b kid k k') := by
  obtain ⟨hk, kid', hk', s, hname, hname'⟩ := hs
  have hkid : a.kindName kid = some s := Option.bind_eq_some_iff.mpr ⟨k, hk, hname⟩
  have hkid' : b.kindName kid' = some s := Option.bind_eq_some_iff.mpr ⟨k', hk', hname'⟩
  refine ⟨s, hkid, ?_⟩
  have hmap : b.kindNameMap[s]? = some kid' := (getElem?_buildNameMap hb.kindNames).mpr hkid'
  simp only [kindSteps, hk, hmap, hk']

/-- **The steps that reach a node** of a shared kind. -/
theorem filter_migrationSteps (ha : a.WellNamed) (hb : b.WellNamed)
    (hs : SharedKind a b kid k k') :
    (migrationSteps a b).filter (fun m => m.kindId = kid) =
      removeSteps a b kid k k' ++ (addSteps a b kid k k' ++ changeSteps a b kid k k') := by
  obtain ⟨s, hkid, hsteps⟩ := kindSteps_of_shared hb hs
  obtain ⟨pre, suf, hl, hother⟩ := toList_buildNameMap ha.kindNames hkid
  have hvalid : kid ≠ kInvalidKind := by
    have h1 := ha.kindNames.below hkid
    have h2 := ha.kindNames.fits
    rintro rfl
    have : kInvalidKind.toNat = 2 ^ 32 - 1 := rfl
    omega
  have hrest : ∀ l : List (Bytes × KindId), (∀ p ∈ l, p ∈ pre ++ suf) →
      (l.flatMap (kindSteps a b)).filter (fun m => m.kindId = kid) = [] := by
    refine fun l hl => List.filter_eq_nil_iff.mpr fun m hm => ?_
    obtain ⟨p, hp, hm⟩ := List.mem_flatMap.mp hm
    simpa [kindId_of_mem_kindSteps hm] using hother p (hl p hp)
  have hnew : (b.kindNameMap.toList.flatMap (newKindSteps a b)).filter
      (fun m => m.kindId = kid) = [] := by
    refine List.filter_eq_nil_iff.mpr fun m hm => ?_
    obtain ⟨p, -, hm⟩ := List.mem_flatMap.mp hm
    simpa [kindId_of_mem_newKindSteps hm] using hvalid.symm
  have hown : (kindSteps a b (s, kid)).filter (fun m => m.kindId = kid) = kindSteps a b (s, kid) :=
    List.filter_eq_self.mpr fun m hm => by simp [kindId_of_mem_kindSteps hm]
  rw [migrationSteps, SchemaVersion.kindNameMap, hl, List.flatMap_append, List.flatMap_cons,
    List.filter_append, List.filter_append, List.filter_append,
    hrest pre fun p hp => List.mem_append_left _ hp,
    hrest suf fun p hp => List.mem_append_right _ hp, hnew, hown, hsteps]
  simp

end Steps

/-! ## Migrating a node -/

section Node

variable {a b : SchemaVersion} {k k' : KindDef} {n : Node} {x y : FieldId} {fd fd' : FieldDef}

theorem SharedKind.fieldNames {kid : KindId} (h : SharedKind a b kid k k') (ha : a.WellNamed)
    (hb : b.WellNamed) : DistinctNames k.fields.length (a.fieldName k) ∧
      DistinctNames k'.fields.length (b.fieldName k') := by
  obtain ⟨hk, kid', hk', -⟩ := h
  exact ⟨ha.fieldNames (Schema.kind_eq_some_mem hk), hb.fieldNames (Schema.kind_eq_some_mem hk')⟩

/-- A conversion gives a valid value, of the new type, or `Invalid`. -/
theorem convertValue_eq (old new : ValueType) (v : Value) :
    Converts old new ∧ (convertValue old new v).type = new ∧ new ≠ .invalid ∨
      ¬ Converts old new ∧ convertValue old new v = .invalid := by
  cases old <;> cases new <;> simp [convertValue, Converts, Value.type]

/-- **A field after the plan**: removals, then additions, then conversions. -/
theorem field_migrated (ha : a.WellNamed) (hb : b.WellNamed) (hs : SharedKind a b n.kind k k')
    (i : FieldId) : ((migrationSteps a b).foldl FieldMigration.apply n).field i =
      (changeSteps a b n.kind k k').foldl (FieldMigration.onField i)
        ((addSteps a b n.kind k k').foldl (FieldMigration.onField i)
          ((removeSteps a b n.kind k k').foldl (FieldMigration.onField i) (n.field i))) := by
  rw [FieldMigration.field_foldl_apply, filter_migrationSteps ha hb hs, List.foldl_append,
    List.foldl_append]

theorem foldl_addSteps (ha : DistinctNames k.fields.length (a.fieldName k)) (b : SchemaVersion)
    (k' : KindDef) (kid : KindId) (i : FieldId) (v : Option Value) :
    (addSteps a b kid k k').foldl (FieldMigration.onField i) v = v ∨
      v = none ∧ (addSteps a b kid k k').foldl (FieldMigration.onField i) v = some .invalid := by
  refine FieldMigration.foldl_onField_add (fun m hm => ?_) v
  obtain ⟨p, -, hm⟩ := List.mem_filterMap.mp hm
  obtain ⟨-, fd, -, rfl⟩ := (addStep_eq_some ha).mp hm
  exact ⟨rfl, rfl⟩

/-- A field without a namesake ends without a value, one added at its index apart. -/
theorem foldl_removeSteps_of_unshared (ha : a.WellNamed) (hb : b.WellNamed)
    (hs : SharedKind a b n.kind k k') (hn : n.WellTyped a.schema) {i : FieldId}
    (h : ∀ y fd fd', ¬ SharedField a b k k' i y fd fd') :
    (removeSteps a b n.kind k k').foldl (FieldMigration.onField i) (n.field i) = none := by
  obtain ⟨hka, hkb⟩ := hs.fieldNames ha hb
  refine FieldMigration.foldl_onField_remove (fun m hm => ?_) _ ?_
  · obtain ⟨p, -, hm⟩ := List.mem_filterMap.mp hm
    obtain ⟨-, fd, -, rfl⟩ := (removeStep_eq_some hkb).mp hm
    rfl
  cases hfd : k.field i with
  | none =>
    left
    cases hv : n.field i with
    | none => rfl
    | some v =>
      obtain ⟨fd, hfd', -⟩ := hn.field_declared hs.1 hv
      rw [hfd] at hfd'
      cases hfd'
  | some fd =>
    right
    obtain ⟨s, hs⟩ := ha.exists_fieldName (Schema.kind_eq_some_mem hs.1) hfd
    refine exists_mem_removeSteps hka hkb (fieldName_eq_some.mpr ⟨fd, hfd, hs⟩) ?_
    rintro ⟨y, hy⟩
    obtain ⟨fd', hfd', hs'⟩ := fieldName_eq_some.mp hy
    exact h y fd fd' ⟨hfd, hfd', s, hs, hs'⟩

/-- A field has one namesake. -/
theorem SharedField.unique (hb : DistinctNames k'.fields.length (b.fieldName k'))
    (h : SharedField a b k k' x y fd fd') {z : FieldId} {gd gd' : FieldDef}
    (h' : SharedField a b k k' x z gd gd') : z = y ∧ gd = fd ∧ gd' = fd' := by
  obtain rfl : gd = fd := Option.some.inj (h'.src.symm.trans h.src)
  obtain ⟨s, hx, hy⟩ := h.fieldName_src
  obtain ⟨t, hx', hz⟩ := h'.fieldName_src
  obtain rfl : t = s := Option.some.inj (hx'.symm.trans hx)
  obtain rfl : z = y := hb.inj hz hy
  exact ⟨rfl, rfl, Option.some.inj (h'.dst.symm.trans h.dst)⟩

/-- A valid value after the plan belongs to a field with a namesake: it was there before, or was
converted. -/
theorem field_migrated_valid (ha : a.WellNamed) (hb : b.WellNamed)
    (hs : SharedKind a b n.kind k k') (hn : n.WellTyped a.schema) {i : FieldId} {v : Value}
    (h : ((migrationSteps a b).foldl FieldMigration.apply n).field i = some v)
    (hv : v.valid = true) : ∃ y fd fd', SharedField a b k k' i y fd fd' ∧ v.type = fd'.type ∧
      (fd.type = fd'.type ∧ n.field i = some v ∨ Converts fd.type fd'.type) := by
  obtain ⟨hka, hkb⟩ := hs.fieldNames ha hb
  rw [field_migrated ha hb hs] at h
  by_cases hshared : ∃ y fd fd', SharedField a b k k' i y fd fd'
  · obtain ⟨y, fd, fd', hf⟩ := hshared
    refine ⟨y, fd, fd', hf, ?_⟩
    rw [FieldMigration.foldl_onField_of_ne
      (fun m hm => fieldIdx_ne_of_mem_removeSteps hka hkb hf hm)] at h
    by_cases ht : fd.type = fd'.type
    · have hsame : ∀ z gd gd', SharedField a b k k' i z gd gd' → gd.type = gd'.type := by
        intro z gd gd' hg
        obtain ⟨-, rfl, rfl⟩ := hf.unique hkb hg
        exact ht
      rw [foldl_changeSteps_of_unchanged hka hkb hsame] at h
      rcases foldl_addSteps hka b k' n.kind i (n.field i) with hadd | ⟨-, hadd⟩
      · rw [hadd] at h
        obtain ⟨gd, hgd, hty, -⟩ := hn.field_declared hs.1 h
        obtain rfl : gd = fd := Option.some.inj (hgd.symm.trans hf.src)
        exact ⟨hty.trans ht, Or.inl ⟨ht, h⟩⟩
      · rw [hadd] at h
        obtain rfl := Option.some.inj h
        cases hv
    · rw [foldl_changeSteps_of_ne hka hkb hf ht] at h
      obtain ⟨w, -, rfl⟩ := Option.map_eq_some_iff.mp h
      rcases convertValue_eq fd.type fd'.type w with ⟨hc, hty, -⟩ | ⟨-, hinv⟩
      · exact ⟨hty, Or.inr hc⟩
      · rw [hinv] at hv
        cases hv
  · simp only [not_exists] at hshared
    rw [foldl_removeSteps_of_unshared ha hb hs hn hshared,
      foldl_changeSteps_of_unchanged hka hkb fun y fd fd' hf => absurd hf (hshared y fd fd')] at h
    rcases foldl_addSteps hka b k' n.kind i none with hadd | ⟨-, hadd⟩
    · rw [hadd] at h
      cases h
    · rw [hadd] at h
      obtain rfl := Option.some.inj h
      cases hv

/-- Nothing is added at a namesake's index, so only the field stored there before matters. -/
theorem field_migrated_dst (ha : a.WellNamed) (hb : b.WellNamed)
    (hs : SharedKind a b n.kind k k') (hf : SharedField a b k k' x y fd fd')
    (hy : n.field y = none) :
    ((migrationSteps a b).foldl FieldMigration.apply n).field y = none := by
  obtain ⟨hka, hkb⟩ := hs.fieldNames ha hb
  rw [field_migrated ha hb hs, hy, FieldMigration.foldl_onField_none,
    FieldMigration.foldl_onField_of_ne fun m hm => fieldIdx_ne_of_mem_addSteps hka hkb hf hm,
    FieldMigration.foldl_onField_none]
  · intro m hm
    obtain ⟨p, hp, hm⟩ := List.mem_filterMap.mp hm
    obtain ⟨z, gd, gd', -, -, rfl⟩ :=
      (changeStep_eq_some hkb ((mem_toList_buildNameMap hka).mp hp)).mp hm
    nofun
  · intro m hm
    obtain ⟨p, -, hm⟩ := List.mem_filterMap.mp hm
    obtain ⟨-, gd, -, rfl⟩ := (removeStep_eq_some hkb).mp hm
    nofun

/-- A field with one name and type keeps its value at one index. -/
theorem field_migrated_same (ha : a.WellNamed) (hb : b.WellNamed)
    (hs : SharedKind a b n.kind k k') (hf : SharedField a b k k' x x fd fd')
    (ht : fd.type = fd'.type) :
    ((migrationSteps a b).foldl FieldMigration.apply n).field x = n.field x := by
  obtain ⟨hka, hkb⟩ := hs.fieldNames ha hb
  rw [field_migrated ha hb hs,
    FieldMigration.foldl_onField_of_ne fun m hm => fieldIdx_ne_of_mem_removeSteps hka hkb hf hm,
    FieldMigration.foldl_onField_of_ne fun m hm => fieldIdx_ne_of_mem_addSteps hka hkb hf hm,
    foldl_changeSteps_of_unchanged hka hkb]
  intro z gd gd' hg
  obtain ⟨-, rfl, rfl⟩ := hf.unique hkb hg
  exact ht

/-- A converted field keeps its index. -/
theorem field_migrated_converted (ha : a.WellNamed) (hb : b.WellNamed)
    (hs : SharedKind a b n.kind k k') (hf : SharedField a b k k' x y fd fd')
    (ht : fd.type ≠ fd'.type) {v : Value} (hv : n.field x = some v) :
    ((migrationSteps a b).foldl FieldMigration.apply n).field x =
      some (convertValue fd.type fd'.type v) := by
  obtain ⟨hka, hkb⟩ := hs.fieldNames ha hb
  rw [field_migrated ha hb hs, hv,
    FieldMigration.foldl_onField_of_ne fun m hm => fieldIdx_ne_of_mem_removeSteps hka hkb hf hm,
    foldl_changeSteps_of_ne hka hkb hf ht]
  rcases foldl_addSteps hka b k' n.kind x (some v) with hadd | ⟨h, -⟩
  · rw [hadd]
    rfl
  · cases h

/-- Indices that agree let a plan migrate a node by name. -/
theorem MigratedByName.of_indicesAgree (ha : a.WellNamed) (hb : b.WellNamed)
    (hi : IndicesAgree a b) (hs : SharedKind a b n.kind k k') (hn : n.WellTyped a.schema) :
    MigratedByName a b k k' n ((migrationSteps a b).foldl FieldMigration.apply n) := by
  have htyped : ∀ y v, ((migrationSteps a b).foldl FieldMigration.apply n).field y = some v →
      v.valid = true → ∃ fd', k'.field y = some fd' ∧ v.type = fd'.type := by
    intro y v hv hvalid
    obtain ⟨z, fd, fd', hf, hty, hcase⟩ := field_migrated_valid ha hb hs hn hv hvalid
    rcases hcase with ⟨ht, -⟩ | hc
    · have hne : fd.type ≠ .invalid := ht ▸ hty ▸ Value.valid_iff.mp hvalid
      obtain rfl := hi.same _ _ _ _ _ _ _ hs hf ht hne
      exact ⟨fd', hf.dst, hty⟩
    · obtain ⟨gd, hgd, hgt⟩ := hi.converted _ _ _ _ _ _ _ hs hf hc
      exact ⟨gd, hgd, hty.trans hgt.symm⟩
  refine ⟨fun x y fd fd' hf ht => ?_, htyped⟩
  by_cases hinv : fd.type = .invalid
  · -- no value has the type `Invalid`, before or after
    have hx : n.field x = none := by
      cases hv : n.field x with
      | none => rfl
      | some v =>
        obtain ⟨gd, hgd, -, hne⟩ := hn.field_declared hs.1 hv
        obtain rfl := Option.some.inj (hgd.symm.trans hf.src)
        exact absurd hinv hne
    rw [hx, Option.filter_eq_none_iff]
    intro v hv hvalid
    obtain ⟨gd, hgd, hty⟩ := htyped y v hv hvalid
    obtain rfl : gd = fd' := Option.some.inj (hgd.symm.trans hf.dst)
    exact Value.valid_iff.mp hvalid (hty.trans (ht.symm.trans hinv))
  · obtain rfl := hi.same _ _ _ _ _ _ _ hs hf ht hinv
    rw [field_migrated_same ha hb hs hf ht]
    cases hv : n.field x with
    | none => rfl
    | some v =>
      obtain ⟨gd, -, hty, hne⟩ := hn.field_declared hs.1 hv
      rw [Option.filter_some, if_pos (Value.valid_iff.mpr (hty ▸ hne))]

end Node

/-! ## Migrating a table -/

section Table

variable {a b : SchemaVersion}

/-- A value of a valid type. -/
def sample : ValueType → Value
  | .invalid => .invalid
  | .int => .int 0
  | .float => .float 0
  | .atom => .atom 0
  | .ref => .ref 0
  | .list => .list []

theorem type_sample (t : ValueType) : (sample t).type = t := by
  cases t <;> rfl

/-- A node with one field. -/
def oneField (kid : KindId) (x : FieldId) (t : ValueType) : Node :=
  { kind := kid, fields := (∅ : UMap FieldId Value).insert x (sample t) }

theorem field_oneField (kid : KindId) (x : FieldId) (t : ValueType) (y : FieldId) :
    (oneField kid x t).field y = if y = x then some (sample t) else none :=
  Node.field_setField { kind := kid } x y (sample t)

theorem oneField_wellTyped {kid : KindId} {k : KindDef} {x : FieldId} {fd : FieldDef}
    (hk : a.schema.kind kid = some k) (hfd : k.field x = some fd) (hne : fd.type ≠ .invalid) :
    (oneField kid x fd.type).WellTyped a.schema := by
  refine .declared hk fun y v hv => ?_
  rw [field_oneField] at hv
  split at hv
  · rename_i hy
    obtain rfl := Option.some.inj hv
    exact ⟨fd, hy ▸ hfd, type_sample _, hne⟩
  · cases hv

/-- If every table is migrated by name, the indices agree: a node with one field shows where that
field goes. -/
theorem IndicesAgree.of_migrates (ha : a.WellNamed) (hb : b.WellNamed) {plan : MigrationPlan}
    (hplan : plan.migrations = migrationSteps a b)
    (h : ∀ nodes : List Node, (∀ n ∈ nodes, n.WellTyped a.schema) →
      MigratesByName a b nodes (applyMigration nodes plan)) : IndicesAgree a b := by
  have hone : ∀ {kid k k' x fd}, SharedKind a b kid k k' → k.field x = some fd →
      fd.type ≠ .invalid → MigratedByName a b k k' (oneField kid x fd.type)
        ((migrationSteps a b).foldl FieldMigration.apply (oneField kid x fd.type)) := by
    intro kid k k' x fd hs hfd hne
    obtain ⟨m, hm, hmig⟩ := h [oneField kid x fd.type]
      (List.forall_mem_singleton.mpr (oneField_wellTyped hs.1 hfd hne)) 0 _ k k' rfl rfl hs
    have happly : applyMigration [oneField kid x fd.type] plan =
        [(migrationSteps a b).foldl FieldMigration.apply (oneField kid x fd.type)] := by
      rw [← hplan]
      rfl
    rw [happly] at hm
    obtain rfl := Option.some.inj hm
    exact hmig
  refine ⟨fun kid k k' x y fd fd' hs hf ht hne => ?_, fun kid k k' x y fd fd' hs hf hc => ?_⟩
  · by_contra hxy
    have hkept := (hone hs hf.src hne).kept x y fd fd' hf ht
    have hy : (oneField kid x fd.type).field y = none := by
      rw [field_oneField, if_neg (Ne.symm hxy)]
    rw [field_migrated_dst ha hb hs hf hy, field_oneField, if_pos rfl] at hkept
    cases hkept
  · have hne : fd.type ≠ .invalid ∧ fd.type ≠ fd'.type := by
      refine ⟨?_, fun h => not_converts_self _ (h ▸ hc)⟩
      rcases hc with ⟨h, -⟩ | ⟨h, -⟩ | ⟨h, -⟩ <;> rw [h] <;> decide
    have hx : (oneField kid x fd.type).field x = some (sample fd.type) := by
      rw [field_oneField, if_pos rfl]
    have hmig := field_migrated_converted (n := oneField kid x fd.type) ha hb hs hf hne.2 hx
    rcases convertValue_eq fd.type fd'.type (sample fd.type) with ⟨-, hty, hvalid⟩ | ⟨hn, -⟩
    · obtain ⟨gd, hgd, hgt⟩ := (hone hs hf.src hne.1).typed x _ hmig
        (Value.valid_iff.mpr (hty.trans_ne hvalid))
      exact ⟨gd, hgd, hgt.symm.trans hty⟩
    · exact absurd hc hn

/-- If the indices agree, a plan migrates every well-typed table by name. -/
theorem IndicesAgree.migrates (ha : a.WellNamed) (hb : b.WellNamed) (hi : IndicesAgree a b)
    {plan : MigrationPlan} (hplan : plan.migrations = migrationSteps a b) {nodes : List Node}
    (hn : ∀ n ∈ nodes, n.WellTyped a.schema) :
    MigratesByName a b nodes (applyMigration nodes plan) := by
  intro i n k k' hi' halive hs
  refine ⟨(migrationSteps a b).foldl FieldMigration.apply n, ?_, ?_⟩
  · rw [applyMigration, List.getElem?_map, hi', hplan]
    simp [halive]
  · exact MigratedByName.of_indicesAgree ha hb hi hs (hn n (List.mem_of_getElem? hi'))

theorem computeMigration_eq {reg : SchemaRegistry} {v w : UInt32} (hv : reg.find v = some a)
    (hw : reg.find w = some b) : reg.computeMigration v w =
      .ok { fromVersion := v, toVersion := w, migrations := migrationSteps a b } := by
  simp only [SchemaRegistry.computeMigration, hv, hw]

/-- **Migration by name**: between well-named versions, every well-typed node table is migrated by
name iff the indices agree. -/
theorem migrates_by_name_iff {reg : SchemaRegistry} {v w : UInt32} (hv : reg.find v = some a)
    (hw : reg.find w = some b) (ha : a.WellNamed) (hb : b.WellNamed) :
    (∃ plan, reg.computeMigration v w = .ok plan ∧
      ∀ nodes : List Node, (∀ n ∈ nodes, n.WellTyped a.schema) →
        MigratesByName a b nodes (applyMigration nodes plan)) ↔ IndicesAgree a b := by
  rw [computeMigration_eq hv hw]
  constructor
  · rintro ⟨plan, hplan, h⟩
    obtain rfl := Except.ok.inj hplan
    exact IndicesAgree.of_migrates ha hb rfl h
  · exact fun hi => ⟨_, rfl, fun nodes hn => hi.migrates ha hb rfl hn⟩

/-! ### Removing a field -/

/-- Version `id`: kind `n` with these fields, their names after it in the pool. -/
def oneKindVersion (id : UInt32) (names : List Bytes) (fields : List FieldDef) : SchemaVersion where
  versionId := id
  schema := { kinds := [{ name := 0, fields }] }
  atoms := internAll ([0x6E] :: names)

/-- Fields `i`, an integer, and `t`, an atom. -/
def idTag : SchemaVersion :=
  oneKindVersion 1 [[0x69], [0x74]] [{ name := 1, type := .int }, { name := 2, type := .atom }]

/-- Field `t` alone. -/
def tagOnly : SchemaVersion := oneKindVersion 2 [[0x74]] [{ name := 1, type := .atom }]

/-- Field `i` alone. -/
def idOnly : SchemaVersion := oneKindVersion 2 [[0x69]] [{ name := 1, type := .int }]

/-- The registry of two versions. -/
def twoVersions (a b : SchemaVersion) : SchemaRegistry :=
  { versions := ((∅ : SMap UInt32 SchemaVersion).insert 1 a).insert 2 b }

theorem oneKindVersion_wellNamed {id : UInt32} {names : List Bytes} {fields : List FieldDef}
    (hkind : (internAll ([0x6E] :: names)).get 0 ≠ none)
    (h : (internAll ([0x6E] :: names)).NamesDistinct (fields.map FieldDef.name)) :
    (oneKindVersion id names fields).WellNamed := by
  refine ⟨⟨?_, List.nodup_singleton _⟩, fun k hk => ?_⟩
  · exact List.forall_mem_singleton.mpr ⟨(by decide : (0 : AtomId) ≠ kInvalidAtom), hkind⟩
  · obtain rfl := List.mem_singleton.mp hk
    exact h

theorem idTag_wellNamed : idTag.WellNamed :=
  oneKindVersion_wellNamed (by decide)
    ⟨List.forall_mem_cons.mpr ⟨by decide, List.forall_mem_singleton.mpr (by decide)⟩, by decide⟩

theorem idOnly_wellNamed : idOnly.WellNamed :=
  oneKindVersion_wellNamed (by decide) ⟨List.forall_mem_singleton.mpr (by decide), by decide⟩

/-- A node with `i = 42` and the atom 7 in `t`. -/
def tagged : Node where
  id := 0
  kind := 0
  fields := ((∅ : UMap FieldId Value).insert 0 (.int 42)).insert 1 (.atom 7)

theorem tagged_wellTyped : tagged.WellTyped idTag.schema := by
  have hkind : idTag.schema.kind tagged.kind = some
      { name := 0, fields := [{ name := 1, type := .int }, { name := 2, type := .atom }] } := rfl
  refine .declared hkind fun f v hv => ?_
  have hfield : (({ kind := 0 : Node }.setField 0 (.int 42)).setField 1 (.atom 7)).field f =
      some v := hv
  rw [Node.field_setField, Node.field_setField] at hfield
  split at hfield
  · rename_i hf
    obtain rfl := Option.some.inj hfield
    exact ⟨{ name := 2, type := .atom }, by rw [hf]; rfl, rfl, by decide⟩
  split at hfield
  · rename_i hf
    obtain rfl := Option.some.inj hfield
    exact ⟨{ name := 1, type := .int }, by rw [hf]; rfl, rfl, by decide⟩
  · simp [Node.field] at hfield

/-- **Removing the first of two fields** loses the second: field `t` moves from index 1 to 0, and
its value stays at 1. -/
theorem removed_field_shifts : ¬ ∀ (reg : SchemaRegistry) (v w : UInt32) (a b : SchemaVersion),
    reg.find v = some a → reg.find w = some b → a.WellNamed → b.WellNamed →
    ∃ plan, reg.computeMigration v w = .ok plan ∧
      ∀ nodes : List Node, (∀ n ∈ nodes, n.WellTyped a.schema) →
        MigratesByName a b nodes (applyMigration nodes plan) := by
  intro h
  have hb : tagOnly.WellNamed := oneKindVersion_wellNamed (by decide)
    ⟨List.forall_mem_singleton.mpr (by decide), by decide⟩
  obtain ⟨plan, hplan, hmig⟩ :=
    h (twoVersions idTag tagOnly) 1 2 idTag tagOnly rfl rfl idTag_wellNamed hb
  rw [computeMigration_eq (a := idTag) (b := tagOnly) rfl rfl] at hplan
  obtain rfl := Except.ok.inj hplan
  have hkind : SharedKind idTag tagOnly 0 _ _ := ⟨rfl, 0, rfl, [0x6E], rfl, rfl⟩
  obtain ⟨m, hm, hnode⟩ := hmig [tagged] (List.forall_mem_singleton.mpr tagged_wellTyped) 0 tagged
    _ _ rfl rfl hkind
  have htag := hnode.kept 1 0 { name := 2, type := .atom } { name := 1, type := .atom }
    ⟨rfl, rfl, [0x74], rfl, rfl⟩ rfl
  obtain rfl := Option.some.inj hm
  revert htag
  decide

/-- Removing the last field migrates by name. -/
theorem migrates_idTag_idOnly : ∃ plan, (twoVersions idTag idOnly).computeMigration 1 2 = .ok plan ∧
    ∀ nodes : List Node, (∀ n ∈ nodes, n.WellTyped idTag.schema) →
      MigratesByName idTag idOnly nodes (applyMigration nodes plan) := by
  refine (migrates_by_name_iff rfl rfl idTag_wellNamed idOnly_wellNamed).mpr ?_
  have hfields : ∀ {kid k k' x y fd fd'}, SharedKind idTag idOnly kid k k' →
      SharedField idTag idOnly k k' x y fd fd' → x.toNat = 0 ∧ y.toNat = 0 ∧ fd.type = fd'.type := by
    rintro kid k k' x y fd fd' ⟨hk, kid', hk', -⟩ ⟨hsrc, hdst, s, hs, hs'⟩
    obtain rfl := List.mem_singleton.mp (Schema.kind_eq_some_mem hk)
    obtain rfl := List.mem_singleton.mp (Schema.kind_eq_some_mem hk')
    unfold KindDef.field at hsrc hdst
    rcases hy : y.toNat with _ | j
    · rw [hy] at hdst
      obtain rfl := Option.some.inj hdst
      rcases hx : x.toNat with _ | _ | i
      · rw [hx] at hsrc
        obtain rfl := Option.some.inj hsrc
        exact ⟨rfl, rfl, rfl⟩
      · rw [hx] at hsrc
        obtain rfl := Option.some.inj hsrc
        exact absurd (hs.trans hs'.symm) (by decide)
      · rw [hx] at hsrc
        cases hsrc
    · rw [hy] at hdst
      cases hdst
  refine ⟨fun kid k k' x y fd fd' hs hf _ _ => ?_, fun kid k k' x y fd fd' hs hf hc => ?_⟩
  · obtain ⟨hx, hy, -⟩ := hfields hs hf
    exact UInt32.toNat_inj.mp (hx.trans hy.symm)
  · obtain ⟨-, -, ht⟩ := hfields hs hf
    rw [ht] at hc
    exact absurd hc (not_converts_self _)

end Table

end Stratavm
