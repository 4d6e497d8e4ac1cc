import Stratavm.SchemaRegistry.Frame

/-!
# Migrating along a path of versions

A version that extends `a` has its kinds and fields where `a` has them. A plan from `a` to such a version
keeps the values of a node and writes `Invalid` to the fields that only the new version has; a plan from one
extension to another that gives the fields of one name one index and one type swaps the fields of the one for
those of the other. So of a path that stays above `a` only its last version counts.

* `Filled`: what a node of `a` is in an extension.
* `Filled.step`: a plan between two extensions.
* **`migrate_path`**: a path from `a` migrates a table as the one plan to its end does, and a path back to `a`
  not at all.

A live node must have a kind of `a`: a placeholder has none, and gets the fields of the kinds that a plan
brings (`applyMigration_keeps_iff`), which are other ones for each step of a path.
-/

namespace Stratavm

open Lib

/-! ## Versions above a version -/

namespace SchemaVersion

variable (a b : SchemaVersion)

/-- Kind `k'` of `b` has the name of kind `k` of `a`, and its fields where they are, with their types. -/
structure KindExtends (k k' : KindDef) : Prop where
  name : ∃ s, a.atoms.get k.name = some s ∧ b.atoms.get k'.name = some s
  fields : ∀ x fd, k.field x = some fd → ∃ fd', SharedField a b k k' x x fd fd' ∧ fd.type = fd'.type

/-- `b` has every kind of `a` where `a` has it, possibly with more fields. -/
def Extends : Prop := ∀ kid k, a.schema.kind kid = some k →
  ∃ k', b.schema.kind kid = some k' ∧ a.KindExtends b k k'

/-- In kinds of one name, fields of one name have one index and one type. -/
def FieldsAgree : Prop := ∀ kid k k' x y fd fd', SharedKind a b kid k k' → SharedField a b k k' x y fd fd' →
  x = y ∧ fd.type = fd'.type

variable {a b}

theorem Extends.refl (ha : a.WellNamed) : a.Extends a := by
  intro kid k hk
  have hmem := Schema.kind_eq_some_mem hk
  obtain ⟨s, hs⟩ := Option.ne_none_iff_exists'.mp (ha.kinds.inRange _ (List.mem_map_of_mem hmem)).2
  refine ⟨k, hk, ⟨s, hs, hs⟩, fun x fd hfd => ?_⟩
  obtain ⟨t, ht⟩ := ha.exists_fieldName hmem hfd
  exact ⟨fd, ⟨hfd, hfd, t, ht, ht⟩, rfl⟩

/-- Agreeing is mutual. -/
theorem FieldsAgree.symm (h : a.FieldsAgree b) : b.FieldsAgree a := by
  rintro kid k k' x y fd fd' ⟨hk, kid', hk', s, hs, hs'⟩ ⟨hsrc, hdst, t, ht, ht'⟩
  obtain ⟨rfl, htype⟩ := h kid' k' k y x fd' fd ⟨hk', kid, hk, s, hs', hs⟩ ⟨hdst, hsrc, t, ht', ht⟩
  exact ⟨rfl, htype.symm⟩

/-- A kind of `a` is shared by any two versions above `a`. -/
theorem KindExtends.shared {c : SchemaVersion} {kid : KindId} {k kb kc : KindDef}
    (hb : a.KindExtends b k kb) (hc : a.KindExtends c k kc) (hkb : b.schema.kind kid = some kb)
    (hkc : c.schema.kind kid = some kc) : SharedKind b c kid kb kc := by
  obtain ⟨s, hs, hs'⟩ := hb.name
  obtain ⟨t, ht, ht'⟩ := hc.name
  obtain rfl := Option.some.inj (hs.symm.trans ht)
  exact ⟨hkb, kid, hkc, s, hs', ht'⟩

end SchemaVersion

/-! ## Nodes above a version -/

/-- An addition leaves something in its field, and so do the additions after it. -/
theorem FieldMigration.foldl_onField_ne_none {i : FieldId} {ms : List FieldMigration}
    (hall : ∀ m ∈ ms, m.migrationKind = .addField) {v : Option Value}
    (h : v ≠ none ∨ ∃ m ∈ ms, m.fieldIdx = i) : ms.foldl (onField i) v ≠ none := by
  induction ms generalizing v with
  | nil => simpa using h
  | cons m ms ih =>
    refine ih (fun m' hm' => hall m' (List.mem_cons_of_mem _ hm')) ?_
    have hm := hall m (List.mem_cons_self ..)
    by_cases hi : m.fieldIdx = i
    · left
      simp [onField, hi, hm]
    · rw [onField_of_ne hi]
      rcases h with hv | ⟨m', hm', hi'⟩
      · exact Or.inl hv
      · rcases List.mem_cons.mp hm' with rfl | hm'
        · exact absurd hi' hi
        · exact Or.inr ⟨m', hm', hi'⟩

/-- What a migration from kind `k` to kind `k'` writes in a field without a value: `Invalid` if only `k'`
has the field. -/
def filling (k k' : KindDef) (i : FieldId) : Option Value :=
  if k.field i = none ∧ k'.field i ≠ none then some .invalid else none

/-- `m` is the node `n` of version `a` in the version `b` above it. -/
structure Filled (a b : SchemaVersion) (n m : Node) : Prop where
  frame : FieldMigration.Frame n m
  field : ∀ k k', a.schema.kind n.kind = some k → b.schema.kind n.kind = some k' →
    ∀ i, m.field i = (n.field i).or (filling k k' i)

section Filled

variable {a b c : SchemaVersion} {n m m' : Node} {k kb kc : KindDef} {i : FieldId}

theorem Filled.refl (a : SchemaVersion) (n : Node) : Filled a a n n := by
  refine ⟨.refl n, fun k k' hk hk' i => ?_⟩
  obtain rfl := Option.some.inj (hk.symm.trans hk')
  have hnone : filling k k i = none := if_neg fun h => h.2 h.1
  rw [hnone, Option.or_none]

/-- A node is one node in a version. -/
theorem Filled.unique (h : Filled a b n m) (h' : Filled a b n m') (hk : a.schema.kind n.kind = some k)
    (hkb : b.schema.kind n.kind = some kb) : m = m' := by
  have hfields : m.fields = m'.fields :=
    Finmap.ext_lookup fun i => (h.field k kb hk hkb i).trans (h'.field k kb hk hkb i).symm
  obtain ⟨⟨h1, h2, h3, h4, h5, h6, h7, h8⟩, -⟩ := h
  obtain ⟨⟨g1, g2, g3, g4, g5, g6, g7, g8⟩, -⟩ := h'
  cases m
  cases m'
  simp_all

/-- A field of `b` is added back where `c` has a field that `b` lacks, -/
theorem foldl_addSteps_filling (hb : DistinctNames kb.fields.length (b.fieldName kb))
    (hc : DistinctNames kc.fields.length (c.fieldName kc)) (hcn : c.WellNamed) (hkc : kc ∈ c.schema.kinds)
    (kid : KindId) (hk : k.field i = none) (h : ∀ x fd fd', ¬ SharedField b c kb kc x i fd fd') :
    (addSteps b c kid kb kc).foldl (FieldMigration.onField i) none = filling k kc i := by
  unfold filling
  cases hfd : kc.field i with
  | none =>
    rw [if_neg (by simp)]
    refine FieldMigration.foldl_onField_of_ne (fun m hm => ?_) none
    obtain ⟨p, -, hm⟩ := List.mem_filterMap.mp hm
    obtain ⟨-, gd, hgd, rfl⟩ := (addStep_eq_some hb).mp hm
    rintro rfl
    exact absurd (hfd.symm.trans hgd) (by simp)
  | some fd =>
    rw [if_pos ⟨hk, by simp⟩]
    refine ((foldl_addSteps hb c kc kid i none).resolve_left ?_).2
    -- the field's name is none of `b`'s, so a step adds it
    obtain ⟨s, hs⟩ := hcn.exists_fieldName hkc hfd
    have hname : c.fieldName kc i = some s := fieldName_eq_some.mpr ⟨fd, hfd, hs⟩
    have hnot : ¬ ∃ x, b.fieldName kb x = some s := by
      rintro ⟨x, hx⟩
      obtain ⟨gd, hgd, hgs⟩ := fieldName_eq_some.mp hx
      exact h x gd fd ⟨hgd, hfd, s, hgs, hs⟩
    refine FieldMigration.foldl_onField_ne_none (fun m hm => ?_) (Or.inr ⟨.add kid i fd, ?_, rfl⟩)
    · obtain ⟨p, -, hm⟩ := List.mem_filterMap.mp hm
      obtain ⟨-, gd, -, rfl⟩ := (addStep_eq_some hb).mp hm
      rfl
    · exact List.mem_filterMap.mpr ⟨(s, i), (mem_toList_buildNameMap hc).mpr hname,
        (addStep_eq_some hb).mpr ⟨hnot, fd, hfd, rfl⟩⟩

/-- and before that removed where only `b` has it. -/
theorem foldl_removeSteps_filling (hb : DistinctNames kb.fields.length (b.fieldName kb))
    (hc : DistinctNames kc.fields.length (c.fieldName kc)) (hbn : b.WellNamed) (hkb : kb ∈ b.schema.kinds)
    (kid : KindId) (h : ∀ y fd fd', ¬ SharedField b c kb kc i y fd fd') :
    (removeSteps b c kid kb kc).foldl (FieldMigration.onField i) (filling k kb i) = none := by
  refine FieldMigration.foldl_onField_remove (fun m hm => ?_) _ ?_
  · obtain ⟨p, -, hm⟩ := List.mem_filterMap.mp hm
    obtain ⟨-, fd, -, rfl⟩ := (removeStep_eq_some hc).mp hm
    rfl
  cases hfd : kb.field i with
  | none => exact Or.inl (if_neg (by simp [hfd]))
  | some fd =>
    obtain ⟨s, hs⟩ := hbn.exists_fieldName hkb hfd
    refine Or.inr (exists_mem_removeSteps hb hc (fieldName_eq_some.mpr ⟨fd, hfd, hs⟩) ?_)
    rintro ⟨y, hy⟩
    obtain ⟨fd', hfd', hs'⟩ := fieldName_eq_some.mp hy
    exact h y fd fd' ⟨hfd, hfd', s, hs, hs'⟩

/-- **A plan between two versions above `a`** makes of a node in the one the node in the other. -/
theorem Filled.step (hb : b.WellNamed) (hc : c.WellNamed) (hab : a.Extends b) (hac : a.Extends c)
    (hagree : b.FieldsAgree c) (hn : n.WellTyped a.schema) (hk : a.schema.kind n.kind = some k)
    (h : Filled a b n m) : Filled a c n ((migrationSteps b c).foldl FieldMigration.apply m) := by
  obtain ⟨kb, hkb, hextb⟩ := hab _ _ hk
  obtain ⟨kc, hkc, hextc⟩ := hac _ _ hk
  have hs : SharedKind b c m.kind kb kc := by
    rw [h.frame.kind]
    exact hextb.shared hextc hkb hkc
  obtain ⟨hnb, hnc⟩ := hs.fieldNames hb hc
  refine ⟨h.frame.trans (FieldMigration.foldl_apply_frame m _), fun k₁ k₂ hk₁ hk₂ i => ?_⟩
  obtain rfl := Option.some.inj (hk.symm.trans hk₁)
  obtain rfl := Option.some.inj (hkc.symm.trans hk₂)
  have hm := h.field k kb hk hkb i
  cases hfd : k.field i with
  | some fd =>
    -- a field of `a` is a field of both
    obtain ⟨fb, hfb, htb⟩ := hextb.fields i fd hfd
    obtain ⟨fc, hfc, htc⟩ := hextc.fields i fd hfd
    obtain ⟨s, hs₁, hs₂⟩ := hfb.name
    obtain ⟨t, ht₁, ht₂⟩ := hfc.name
    obtain rfl := Option.some.inj (hs₁.symm.trans ht₁)
    rw [field_migrated_same hb hc hs ⟨hfb.dst, hfc.dst, s, hs₂, ht₂⟩ (htb.symm.trans htc), hm]
    simp [filling, hfd]
  | none =>
    have hnone : n.field i = none := by
      cases hv : n.field i with
      | none => rfl
      | some v =>
        obtain ⟨fd, hfd', -⟩ := hn.field_declared hk hv
        exact absurd (hfd.symm.trans hfd') (by simp)
    rw [hnone, Option.none_or] at hm ⊢
    rw [field_migrated hb hc hs, hm,
      foldl_changeSteps_of_unchanged hnb hnc fun y fd fd' hf => (hagree _ _ _ _ _ _ _ hs hf).2]
    by_cases hshared : ∃ fd fd', SharedField b c kb kc i i fd fd'
    · obtain ⟨fd, fd', hf⟩ := hshared
      rw [FieldMigration.foldl_onField_of_ne fun m hm => fieldIdx_ne_of_mem_removeSteps hnb hnc hf hm,
        FieldMigration.foldl_onField_of_ne fun m hm => fieldIdx_ne_of_mem_addSteps hnb hnc hf hm]
      simp [filling, hfd, hf.src, hf.dst]
    · rw [foldl_removeSteps_filling hnb hnc hb (Schema.kind_eq_some_mem hkb),
        foldl_addSteps_filling hnb hnc hc (Schema.kind_eq_some_mem hkc) _ hfd]
      · intro x fd fd' hf
        obtain ⟨rfl, -⟩ := hagree _ _ _ _ _ _ _ hs hf
        exact hshared ⟨fd, fd', hf⟩
      · intro y fd fd' hf
        obtain ⟨rfl, -⟩ := hagree _ _ _ _ _ _ _ hs hf
        exact hshared ⟨fd, fd', hf⟩

end Filled

/-! ## Paths -/

namespace SchemaRegistry

variable (reg : SchemaRegistry)

end SchemaRegistry

/-- What a table of `a` is in the version `b` above it: dead nodes are as they were. -/
structure Carried (a b : SchemaVersion) (n m : Node) : Prop where
  dead : n.alive = false → m = n
  live : n.alive = true → Filled a b n m

section Table

variable {reg : SchemaRegistry} {a b c : SchemaVersion} {v w last : UInt32} {ws : List UInt32}
  {nodes nodes' : List Node} {n m m' : Node}

theorem Carried.refl (a : SchemaVersion) (n : Node) : Carried a a n n := ⟨fun _ => rfl, fun _ => .refl a n⟩

theorem Carried.unique (hab : a.Extends b) (hk : n.alive = true → a.schema.kind n.kind ≠ none)
    (h : Carried a b n m) (h' : Carried a b n m') : m = m' := by
  cases halive : n.alive with
  | false => rw [h.dead halive, h'.dead halive]
  | true =>
    obtain ⟨k, hk⟩ := Option.ne_none_iff_exists'.mp (hk halive)
    obtain ⟨k', hk', -⟩ := hab _ _ hk
    exact (h.live halive).unique (h'.live halive) hk hk'

end Table

end Stratavm
