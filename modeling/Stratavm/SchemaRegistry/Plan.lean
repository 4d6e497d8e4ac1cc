import Stratavm.Lib.Enumerate
import Stratavm.SchemaRegistry.Migration

/-!
# A plan is the difference of two versions

A field is known by its kind's name and its own. A `Difference` of two versions is a field that only one of
them has, or that both have with different types.

* **`computeMigration_exact`**: a plan has one step for each difference and no other, so it is empty iff the
  versions have the same names and types, and the plan back has the additions as removals, the removals as
  additions and as many changes.

`compute_migration` walks the kinds of the old version and then those that only the new one has:
`kindSteps_enumerates` and `newKindSteps_enumerates`.
-/

namespace Stratavm

open Lib

/-! ## Differences -/

namespace SchemaVersion

variable (sv : SchemaVersion)

/-- Field `fid` of kind `kid` is `fd`, and these are the names of the kind and the field. -/
def FieldAt (kindName fieldName : Bytes) (kid : KindId) (fid : FieldId) (fd : FieldDef) : Prop :=
  ∃ k, sv.schema.kind kid = some k ∧ sv.kindName kid = some kindName ∧ k.field fid = some fd ∧
    sv.fieldName k fid = some fieldName

/-- The version has a field of these names. -/
def Has (kindName fieldName : Bytes) : Prop := ∃ kid fid fd, sv.FieldAt kindName fieldName kid fid fd

/-- The kind names, field names and types of the version. -/
def triples : Set (Bytes × Bytes × ValueType) :=
  {t | ∃ kid fid fd, sv.FieldAt t.1 t.2.1 kid fid fd ∧ fd.type = t.2.2}

/-- The kind of this name, or `kInvalidKind` where there is none. -/
def KindIdOf (kindName : Bytes) (kid : KindId) : Prop :=
  sv.kindName kid = some kindName ∨
    (∀ other, sv.kindName other ≠ some kindName) ∧ kid = kInvalidKind

end SchemaVersion

/-- What two versions can differ in, by kind name and field name. -/
inductive Difference where
  | removed (kindName fieldName : Bytes)
  | added (kindName fieldName : Bytes)
  | changed (kindName fieldName : Bytes)
  deriving DecidableEq

namespace Difference

/-- The kind it is about. -/
def kind : Difference → Bytes
  | removed kindName _ | added kindName _ | changed kindName _ => kindName

/-- The step that it takes. -/
def migrationKind : Difference → FieldMigration.Kind
  | removed _ _ => .removeField
  | added _ _ => .addField
  | changed _ _ => .changeType

/-- The difference the other way round. -/
def mirror : Difference → Difference
  | removed kindName fieldName => added kindName fieldName
  | added kindName fieldName => removed kindName fieldName
  | changed kindName fieldName => changed kindName fieldName

variable (a b : SchemaVersion)

/-- The versions differ so. -/
def Holds : Difference → Prop
  | removed kindName fieldName => a.Has kindName fieldName ∧ ¬ b.Has kindName fieldName
  | added kindName fieldName => b.Has kindName fieldName ∧ ¬ a.Has kindName fieldName
  | changed kindName fieldName => ∃ kid fid fd kid' fid' fd',
      a.FieldAt kindName fieldName kid fid fd ∧ b.FieldAt kindName fieldName kid' fid' fd' ∧
        fd.type ≠ fd'.type

/-- The step for a difference: the index and type of the field in its own version. -/
def Step : Difference → FieldMigration → Prop
  | removed kindName fieldName, m => ∃ kid fid fd,
      a.FieldAt kindName fieldName kid fid fd ∧ m = .remove kid fid fd
  | added kindName fieldName, m => ∃ kid kid' fid fd, a.KindIdOf kindName kid ∧
      b.FieldAt kindName fieldName kid' fid fd ∧ m = .add kid fid fd
  | changed kindName fieldName, m => ∃ kid fid fd kid' fid' fd',
      a.FieldAt kindName fieldName kid fid fd ∧ b.FieldAt kindName fieldName kid' fid' fd' ∧
        m = .change kid fid fd fd'

variable {a b}

theorem Step.migrationKind {d : Difference} {m : FieldMigration} (h : d.Step a b m) :
    m.migrationKind = d.migrationKind := by
  cases d with
  | removed =>
    obtain ⟨_, _, _, -, rfl⟩ := h
    rfl
  | added =>
    obtain ⟨_, _, _, _, -, -, rfl⟩ := h
    rfl
  | changed =>
    obtain ⟨_, _, _, _, _, _, -, -, rfl⟩ := h
    rfl

theorem mirror_mirror (d : Difference) : d.mirror.mirror = d := by
  cases d <;> rfl

theorem holds_mirror {d : Difference} : d.mirror.Holds b a ↔ d.Holds a b := by
  cases d with
  | removed | added => exact Iff.rfl
  | changed =>
    constructor <;> rintro ⟨kid, fid, fd, kid', fid', fd', h, h', hne⟩ <;>
      exact ⟨kid', fid', fd', kid, fid, fd, h', h, hne.symm⟩

end Difference

/-! ## Names of one version -/

namespace SchemaVersion

variable {sv : SchemaVersion} {s fn : Bytes} {kid kid' : KindId} {k : KindDef} {fid : FieldId}
  {fd : FieldDef}

theorem fieldAt_iff (h : sv.WellNamed) (hk : sv.schema.kind kid = some k)
    (hs : sv.kindName kid = some s) :
    sv.FieldAt s fn kid' fid fd ↔ kid' = kid ∧ k.field fid = some fd ∧ sv.fieldName k fid = some fn := by
  constructor
  · rintro ⟨k', hk', hs', hfd, hfn⟩
    obtain rfl := h.kindNames.inj hs' hs
    obtain rfl := Option.some.inj (hk.symm.trans hk')
    exact ⟨rfl, hfd, hfn⟩
  · rintro ⟨rfl, hfd, hfn⟩
    exact ⟨k, hk, hs, hfd, hfn⟩

theorem has_iff (h : sv.WellNamed) (hk : sv.schema.kind kid = some k)
    (hs : sv.kindName kid = some s) : sv.Has s fn ↔ ∃ x, sv.fieldName k x = some fn := by
  constructor
  · rintro ⟨kid', fid, fd, hat⟩
    exact ⟨fid, ((fieldAt_iff h hk hs).mp hat).2.2⟩
  · rintro ⟨x, hx⟩
    obtain ⟨fd, hfd, -⟩ := fieldName_eq_some.mp hx
    exact ⟨kid, x, fd, (fieldAt_iff h hk hs).mpr ⟨rfl, hfd, hx⟩⟩

/-- Names belong to one field. -/
theorem FieldAt.unique {fid' : FieldId} {fd' : FieldDef} (h : sv.WellNamed)
    (hat : sv.FieldAt s fn kid fid fd) (hat' : sv.FieldAt s fn kid' fid' fd') :
    kid' = kid ∧ fid' = fid ∧ fd' = fd := by
  obtain ⟨k, hk, hs, hfd, hfn⟩ := hat
  obtain ⟨rfl, hfd', hfn'⟩ := (fieldAt_iff h hk hs).mp hat'
  obtain rfl := (h.fieldNames (Schema.kind_eq_some_mem hk)).inj hfn' hfn
  exact ⟨rfl, rfl, Option.some.inj (hfd'.symm.trans hfd)⟩

theorem exists_kind (hs : sv.kindName kid = some s) : ∃ k, sv.schema.kind kid = some k := by
  obtain ⟨k, hk, -⟩ := Option.bind_eq_some_iff.mp hs
  exact ⟨k, hk⟩

end SchemaVersion

/-! ## The steps for one kind -/

section Steps

variable {a b : SchemaVersion} {kid kid' : KindId} {k k' : KindDef} {s : Bytes}

/-- The names of a map are not repeated. -/
theorem nodup_map_toList {V α : Type} (m : SMap Bytes V) {f : Bytes → α} (hf : Function.Injective f) :
    (m.toList.map fun p => f p.1).Nodup := by
  refine List.Pairwise.map _ (fun p q hpq heq => hpq ?_) Std.ExtTreeMap.distinct_keys_toList
  rw [hf heq]
  exact Std.ReflOrd.compare_self

theorem nodup_idRange (count : Nat) : (idRange count).Nodup := by
  refine List.Nodup.map_on (fun i hi j hj heq => ?_) List.nodup_range
  have hlt := (UInt32.ofNat count).toNat_lt
  have heq := congrArg UInt32.toNat heq
  rw [List.mem_range] at hi hj
  rwa [toNat_ofNat_of_lt (by omega), toNat_ofNat_of_lt (by omega)] at heq

/-- A loop over the fields of a kind makes one step for each field name. -/
theorem enumerates_fields (ha : a.WellNamed) (hk : k ∈ a.schema.kinds) {f : Bytes → Difference}
    (hf : Function.Injective f) {step : FieldId → FieldDef → FieldMigration}
    {R : Difference → FieldMigration → Prop}
    (hR : ∀ x fd fn, k.field x = some fd → a.fieldName k x = some fn → R (f fn) (step x fd)) :
    Enumerates (fun d => ∃ fn, f fn = d ∧ ∃ x, a.fieldName k x = some fn) R
      ((idRange k.fields.length).filterMap fun x => (k.field x).map (step x)) := by
  have h := ha.fieldNames hk
  have hname : ∀ x ∈ idRange k.fields.length, ∃ fd fn, k.field x = some fd ∧
      a.fieldName k x = some fn ∧ (a.fieldName k x).getD [] = fn := by
    intro x hx
    have hfd := List.getElem?_eq_getElem ((mem_idRange h.fits x).mp hx)
    obtain ⟨fn, hatom⟩ := ha.exists_fieldName hk hfd
    have hfn := fieldName_eq_some.mpr ⟨_, hfd, hatom⟩
    exact ⟨_, fn, hfd, hfn, by rw [hfn]; rfl⟩
  refine (Enumerates.filterMap (fun x => f ((a.fieldName k x).getD [])) ?_ ?_).congr fun d => ?_
  · refine List.Nodup.map_on (fun x hx y hy heq => ?_) (nodup_idRange _)
    obtain ⟨-, fn, -, hx, hgetx⟩ := hname x hx
    obtain ⟨-, fn', -, hy, hgety⟩ := hname y hy
    have heq := hf heq
    rw [hgetx, hgety] at heq
    exact h.inj hx (heq ▸ hy)
  · intro x hx m hm
    obtain ⟨fd, fn, hfd, hfn, hget⟩ := hname x hx
    rw [hfd] at hm
    obtain rfl := Option.some.inj hm
    show R (f ((a.fieldName k x).getD [])) _
    rw [hget]
    exact hR x fd fn hfd hfn
  · constructor
    · rintro ⟨x, hx, rfl, -⟩
      obtain ⟨-, fn, -, hfn, hget⟩ := hname x hx
      exact ⟨fn, congrArg f hget.symm, x, hfn⟩
    · rintro ⟨fn, rfl, x, hx⟩
      obtain ⟨fd, hfd, -⟩ := fieldName_eq_some.mp hx
      exact ⟨x, (mem_idRange h.fits x).mpr (h.below hx), by rw [hx]; rfl, by rw [hfd]; rfl⟩

/-- A loop over a map of names makes a step for each name in `P`. -/
theorem enumerates_byName {count : Nat} {name : UInt32 → Option Bytes} (hname : DistinctNames count name)
    {f : Bytes → Difference} (hf : Function.Injective f) {step : Bytes × UInt32 → Option FieldMigration}
    {P : Bytes → Prop} {R : Difference → FieldMigration → Prop}
    (hstep : ∀ fn x m, name x = some fn → step (fn, x) = some m → P fn ∧ R (f fn) m)
    (hmade : ∀ fn, P fn → ∃ x m, name x = some fn ∧ step (fn, x) = some m) :
    Enumerates (fun d => ∃ fn, f fn = d ∧ P fn) R ((buildNameMap count name).toList.filterMap step) := by
  refine (Enumerates.filterMap (fun p => f p.1) (nodup_map_toList _ hf) ?_).congr fun d => ?_
  · intro p hp m hm
    exact (hstep p.1 p.2 m ((mem_toList_buildNameMap hname).mp hp) hm).2
  · constructor
    · rintro ⟨p, hp, rfl, hsome⟩
      obtain ⟨m, hm⟩ := Option.isSome_iff_exists.mp hsome
      exact ⟨p.1, rfl, (hstep p.1 p.2 m ((mem_toList_buildNameMap hname).mp hp) hm).1⟩
    · rintro ⟨fn, rfl, hfn⟩
      obtain ⟨x, m, hx, hm⟩ := hmade fn hfn
      exact ⟨(fn, x), (mem_toList_buildNameMap hname).mpr hx, rfl, Option.isSome_iff_exists.mpr ⟨m, hm⟩⟩

section Shared

variable (ha : a.WellNamed) (hb : b.WellNamed) (hk : a.schema.kind kid = some k)
  (hk' : b.schema.kind kid' = some k') (hs : a.kindName kid = some s) (hs' : b.kindName kid' = some s)

include ha hb hk hk' hs hs'

theorem removeSteps_enumerates :
    Enumerates (fun d => ∃ fn, .removed s fn = d ∧ (Difference.removed s fn).Holds a b)
      (Difference.Step a b) (removeSteps a b kid k k') := by
  have hka := ha.fieldNames (Schema.kind_eq_some_mem hk)
  have hkb := hb.fieldNames (Schema.kind_eq_some_mem hk')
  refine enumerates_byName hka (fun _ _ heq => (Difference.removed.inj heq).2) ?_ ?_
  · intro fn x m hfn hm
    obtain ⟨hnot, fd, hfd, rfl⟩ := (removeStep_eq_some hkb).mp hm
    refine ⟨⟨(SchemaVersion.has_iff ha hk hs).mpr ⟨x, hfn⟩, ?_⟩,
      kid, x, fd, (SchemaVersion.fieldAt_iff ha hk hs).mpr ⟨rfl, hfd, hfn⟩, rfl⟩
    rwa [SchemaVersion.has_iff hb hk' hs']
  · rintro fn ⟨hhas, hnot⟩
    obtain ⟨x, hx⟩ := (SchemaVersion.has_iff ha hk hs).mp hhas
    obtain ⟨fd, hfd, -⟩ := fieldName_eq_some.mp hx
    rw [SchemaVersion.has_iff hb hk' hs'] at hnot
    exact ⟨x, _, hx, (removeStep_eq_some hkb).mpr ⟨hnot, fd, hfd, rfl⟩⟩

theorem addSteps_enumerates :
    Enumerates (fun d => ∃ fn, .added s fn = d ∧ (Difference.added s fn).Holds a b)
      (Difference.Step a b) (addSteps a b kid k k') := by
  have hka := ha.fieldNames (Schema.kind_eq_some_mem hk)
  have hkb := hb.fieldNames (Schema.kind_eq_some_mem hk')
  refine enumerates_byName hkb (fun _ _ heq => (Difference.added.inj heq).2) ?_ ?_
  · intro fn x m hfn hm
    obtain ⟨hnot, fd, hfd, rfl⟩ := (addStep_eq_some hka).mp hm
    refine ⟨⟨(SchemaVersion.has_iff hb hk' hs').mpr ⟨x, hfn⟩, ?_⟩,
      kid, kid', x, fd, .inl hs, (SchemaVersion.fieldAt_iff hb hk' hs').mpr ⟨rfl, hfd, hfn⟩, rfl⟩
    rwa [SchemaVersion.has_iff ha hk hs]
  · rintro fn ⟨hhas, hnot⟩
    obtain ⟨x, hx⟩ := (SchemaVersion.has_iff hb hk' hs').mp hhas
    obtain ⟨fd, hfd, -⟩ := fieldName_eq_some.mp hx
    rw [SchemaVersion.has_iff ha hk hs] at hnot
    exact ⟨x, _, hx, (addStep_eq_some hka).mpr ⟨hnot, fd, hfd, rfl⟩⟩

theorem changeSteps_enumerates :
    Enumerates (fun d => ∃ fn, .changed s fn = d ∧ (Difference.changed s fn).Holds a b)
      (Difference.Step a b) (changeSteps a b kid k k') := by
  have hka := ha.fieldNames (Schema.kind_eq_some_mem hk)
  have hkb := hb.fieldNames (Schema.kind_eq_some_mem hk')
  refine enumerates_byName hka (fun _ _ heq => (Difference.changed.inj heq).2) ?_ ?_
  · intro fn x m hfn hm
    obtain ⟨y, fd, fd', hf, hne, rfl⟩ := (changeStep_eq_some hkb hfn).mp hm
    -- a shared field is a field of either version under the same names
    obtain ⟨fn', hx, hy⟩ := hf.fieldName_src
    obtain rfl := Option.some.inj (hfn.symm.trans hx)
    have hat := (SchemaVersion.fieldAt_iff ha hk hs).mpr ⟨rfl, hf.src, hx⟩
    have hat' := (SchemaVersion.fieldAt_iff hb hk' hs').mpr ⟨rfl, hf.dst, hy⟩
    exact ⟨⟨kid, x, fd, kid', y, fd', hat, hat', hne⟩, kid, x, fd, kid', y, fd', hat, hat', rfl⟩
  · rintro fn ⟨kid₁, x, fd, kid₂, y, fd', hat, hat', hne⟩
    obtain ⟨rfl, hfd, hfn⟩ := (SchemaVersion.fieldAt_iff ha hk hs).mp hat
    obtain ⟨rfl, hfd', hfn'⟩ := (SchemaVersion.fieldAt_iff hb hk' hs').mp hat'
    have hf : SharedField a b k k' x y fd fd' := by
      obtain ⟨gd, hgd, hget⟩ := fieldName_eq_some.mp hfn
      obtain ⟨gd', hgd', hget'⟩ := fieldName_eq_some.mp hfn'
      obtain rfl := Option.some.inj (hgd.symm.trans hfd)
      obtain rfl := Option.some.inj (hgd'.symm.trans hfd')
      exact ⟨hfd, hfd', fn, hget, hget'⟩
    exact ⟨x, _, hfn, (changeStep_eq_some hkb hfn).mpr ⟨y, fd, fd', hf, hne, rfl⟩⟩

end Shared

/-- A difference of the kind `s` is of one of three forms. -/
theorem holds_of_kind {d : Difference} :
    ((∃ fn, .removed s fn = d ∧ (Difference.removed s fn).Holds a b) ∨
      (∃ fn, .added s fn = d ∧ (Difference.added s fn).Holds a b) ∨
        ∃ fn, .changed s fn = d ∧ (Difference.changed s fn).Holds a b) ↔
      d.kind = s ∧ d.Holds a b := by
  constructor
  · rintro (⟨fn, rfl, h⟩ | ⟨fn, rfl, h⟩ | ⟨fn, rfl, h⟩) <;> exact ⟨rfl, h⟩
  · rintro ⟨rfl, h⟩
    cases d with
    | removed kn fn => exact .inl ⟨fn, rfl, h⟩
    | added kn fn => exact .inr (.inl ⟨fn, rfl, h⟩)
    | changed kn fn => exact .inr (.inr ⟨fn, rfl, h⟩)

/-- **The steps for a kind of the old version**: the differences of that kind. -/
theorem kindSteps_enumerates (ha : a.WellNamed) (hb : b.WellNamed) (hs : a.kindName kid = some s) :
    Enumerates (fun d => d.kind = s ∧ d.Holds a b) (Difference.Step a b) (kindSteps a b (s, kid)) := by
  obtain ⟨k, hk⟩ := SchemaVersion.exists_kind hs
  unfold kindSteps
  simp only [hk]
  cases hto : b.kindNameMap[s]? with
  | some kid' =>
    have hs' : b.kindName kid' = some s := (getElem?_buildNameMap hb.kindNames).mp hto
    obtain ⟨k', hk'⟩ := SchemaVersion.exists_kind hs'
    simp only [hk']
    refine ((removeSteps_enumerates ha hb hk hk' hs hs').append
      ((addSteps_enumerates ha hb hk hk' hs hs').append (changeSteps_enumerates ha hb hk hk' hs hs') ?_)
      ?_).congr fun d => holds_of_kind
    · rintro d ⟨fn, rfl, -⟩ ⟨fn', h, -⟩
      cases h
    · rintro d ⟨fn, rfl, -⟩ (⟨fn', h, -⟩ | ⟨fn', h, -⟩) <;> cases h
  | none =>
    have hnone : ∀ fn, ¬ b.Has s fn := by
      rintro fn ⟨kid', _, _, k', -, hs', -⟩
      have hsome : b.kindNameMap[s]? = some kid' := (getElem?_buildNameMap hb.kindNames).mpr hs'
      rw [hto] at hsome
      cases hsome
    refine (enumerates_fields (f := .removed s) ha (Schema.kind_eq_some_mem hk)
      (fun _ _ h => (Difference.removed.inj h).2) fun x fd fn hfd hfn => ?_).congr fun d => ?_
    · exact ⟨kid, x, fd, (SchemaVersion.fieldAt_iff ha hk hs).mpr ⟨rfl, hfd, hfn⟩, rfl⟩
    · constructor
      · rintro ⟨fn, rfl, hx⟩
        exact ⟨rfl, (SchemaVersion.has_iff ha hk hs).mpr hx, hnone fn⟩
      · rintro ⟨rfl, h⟩
        cases d with
        | removed kn fn => exact ⟨fn, rfl, (SchemaVersion.has_iff ha hk hs).mp h.1⟩
        | added kn fn => exact absurd h.1 (hnone fn)
        | changed kn fn =>
          obtain ⟨_, _, _, _, _, _, -, hat', -⟩ := h
          exact absurd ⟨_, _, _, hat'⟩ (hnone fn)

/-- **The steps for a kind of the new version**: its differences, if the old version lacks the kind. -/
theorem newKindSteps_enumerates (ha : a.WellNamed) (hb : b.WellNamed) (hs : b.kindName kid = some s) :
    Enumerates (fun d => (d.kind = s ∧ ∀ other, a.kindName other ≠ some s) ∧ d.Holds a b)
      (Difference.Step a b) (newKindSteps a b (s, kid)) := by
  obtain ⟨k, hk⟩ := SchemaVersion.exists_kind hs
  unfold newKindSteps
  by_cases hold : a.kindNameMap.contains s
  · rw [if_pos hold]
    obtain ⟨other, hother⟩ := (contains_buildNameMap ha.kindNames).mp hold
    exact .nil fun d h => h.1.2 other hother
  · have hnew : ∀ other, a.kindName other ≠ some s := fun other hother =>
      hold ((contains_buildNameMap ha.kindNames).mpr ⟨other, hother⟩)
    have hnone : ∀ fn, ¬ a.Has s fn := by
      rintro fn ⟨kid', _, _, k', -, hs', -⟩
      exact hnew kid' hs'
    simp only [if_neg hold, hk]
    refine (enumerates_fields (f := .added s) hb (Schema.kind_eq_some_mem hk)
      (fun _ _ h => (Difference.added.inj h).2) fun x fd fn hfd hfn => ?_).congr fun d => ?_
    · exact ⟨kInvalidKind, kid, x, fd, .inr ⟨hnew, rfl⟩,
        (SchemaVersion.fieldAt_iff hb hk hs).mpr ⟨rfl, hfd, hfn⟩, rfl⟩
    · constructor
      · rintro ⟨fn, rfl, hx⟩
        exact ⟨⟨rfl, hnew⟩, (SchemaVersion.has_iff hb hk hs).mpr hx, hnone fn⟩
      · rintro ⟨⟨rfl, -⟩, h⟩
        cases d with
        | removed kn fn => exact absurd h.1 (hnone fn)
        | added kn fn => exact ⟨fn, rfl, (SchemaVersion.has_iff hb hk hs).mp h.1⟩
        | changed kn fn =>
          obtain ⟨_, _, _, _, _, _, hat, -, -⟩ := h
          exact absurd ⟨_, _, _, hat⟩ (hnone fn)

end Steps

/-! ## The plan -/

section Plan

variable {a b : SchemaVersion}

theorem Difference.exists_kindName {d : Difference} (h : d.Holds a b) :
    (∃ kid, a.kindName kid = some d.kind) ∨ ∃ kid, b.kindName kid = some d.kind := by
  cases d with
  | removed =>
    obtain ⟨⟨kid, _, _, k, -, hs, -⟩, -⟩ := h
    exact .inl ⟨kid, hs⟩
  | added =>
    obtain ⟨⟨kid, _, _, k, -, hs, -⟩, -⟩ := h
    exact .inr ⟨kid, hs⟩
  | changed =>
    obtain ⟨kid, _, _, _, _, _, ⟨k, -, hs, -⟩, -⟩ := h
    exact .inl ⟨kid, hs⟩

/-- **A plan enumerates the differences.** -/
theorem migrationSteps_enumerates (ha : a.WellNamed) (hb : b.WellNamed) :
    Enumerates (Difference.Holds a b) (Difference.Step a b) (migrationSteps a b) := by
  have hkeys : ∀ m : SMap Bytes KindId, m.toList.Pairwise fun p q => p.1 ≠ q.1 := by
    intro m
    refine Std.ExtTreeMap.distinct_keys_toList.imp fun hpq heq => hpq ?_
    rw [heq]
    exact Std.ReflOrd.compare_self
  refine (Enumerates.append (Enumerates.flatMap (P := fun p d => d.kind = p.1 ∧ d.Holds a b)
    (fun p hp => ?_) ?_) (Enumerates.flatMap (P := fun p d =>
      (d.kind = p.1 ∧ ∀ other, a.kindName other ≠ some p.1) ∧ d.Holds a b) (fun p hp => ?_) ?_)
    ?_).congr fun d => ?_
  · exact kindSteps_enumerates ha hb ((mem_toList_buildNameMap ha.kindNames).mp hp)
  · exact (hkeys _).imp fun hne d h h' => hne (h.1.symm.trans h'.1)
  · exact newKindSteps_enumerates ha hb ((mem_toList_buildNameMap hb.kindNames).mp hp)
  · exact (hkeys _).imp fun hne d h h' => hne (h.1.1.symm.trans h'.1.1)
  · rintro d ⟨p, hp, hd, -⟩ ⟨q, -, ⟨hd', hnew⟩, -⟩
    refine hnew p.2 ?_
    rw [← hd', hd]
    exact (mem_toList_buildNameMap ha.kindNames).mp hp
  · constructor
    · rintro (⟨_, -, -, h⟩ | ⟨_, -, -, h⟩) <;> exact h
    · intro h
      by_cases hold : ∃ kid, a.kindName kid = some d.kind
      · obtain ⟨kid, hs⟩ := hold
        exact .inl ⟨(d.kind, kid), (mem_toList_buildNameMap ha.kindNames).mpr hs, rfl, h⟩
      · obtain ⟨kid, hs⟩ := (Difference.exists_kindName h).resolve_left hold
        exact .inr ⟨(d.kind, kid), (mem_toList_buildNameMap hb.kindNames).mpr hs,
          ⟨rfl, fun other hother => hold ⟨other, hother⟩⟩, h⟩

/-- No difference means the same triples. -/
theorem triples_eq_iff (hb : b.WellNamed) :
    a.triples = b.triples ↔ ∀ d, ¬ Difference.Holds a b d := by
  have hmem : ∀ {sv : SchemaVersion} {kn fn t}, (kn, fn, t) ∈ sv.triples ↔
      ∃ kid fid fd, sv.FieldAt kn fn kid fid fd ∧ fd.type = t := Iff.rfl
  constructor
  · intro h d hd
    cases d with
    | removed kn fn =>
      obtain ⟨⟨kid, fid, fd, hat⟩, hnot⟩ := hd
      obtain ⟨kid', fid', fd', hat', -⟩ := hmem.mp (h ▸ hmem.mpr ⟨kid, fid, fd, hat, rfl⟩)
      exact hnot ⟨kid', fid', fd', hat'⟩
    | added kn fn =>
      obtain ⟨⟨kid, fid, fd, hat⟩, hnot⟩ := hd
      obtain ⟨kid', fid', fd', hat', -⟩ := hmem.mp (h.symm ▸ hmem.mpr ⟨kid, fid, fd, hat, rfl⟩)
      exact hnot ⟨kid', fid', fd', hat'⟩
    | changed kn fn =>
      obtain ⟨kid, fid, fd, kid', fid', fd', hat, hat', hne⟩ := hd
      obtain ⟨_, _, gd, hgd, htype⟩ := hmem.mp (h ▸ hmem.mpr ⟨kid, fid, fd, hat, rfl⟩)
      obtain ⟨-, -, rfl⟩ := hat'.unique hb hgd
      exact hne htype.symm
  · intro h
    ext ⟨kn, fn, t⟩
    rw [hmem, hmem]
    constructor
    · rintro ⟨kid, fid, fd, hat, rfl⟩
      by_cases hhas : b.Has kn fn
      · obtain ⟨kid', fid', fd', hat'⟩ := hhas
        refine ⟨kid', fid', fd', hat', ?_⟩
        by_contra hne
        exact h (.changed kn fn) ⟨kid, fid, fd, kid', fid', fd', hat, hat', Ne.symm hne⟩
      · exact absurd ⟨⟨kid, fid, fd, hat⟩, hhas⟩ (h (.removed kn fn))
    · rintro ⟨kid', fid', fd', hat', rfl⟩
      by_cases hhas : a.Has kn fn
      · obtain ⟨kid, fid, fd, hat⟩ := hhas
        refine ⟨kid, fid, fd, hat, ?_⟩
        by_contra hne
        exact h (.changed kn fn) ⟨kid, fid, fd, kid', fid', fd', hat, hat', hne⟩
      · exact absurd ⟨⟨kid', fid', fd', hat'⟩, hhas⟩ (h (.added kn fn))

/-- How many steps of a kind the plan has. -/
def MigrationPlan.count (plan : MigrationPlan) (kind : FieldMigration.Kind) : Nat :=
  plan.migrations.countP fun m => m.migrationKind = kind

/-- The plan back has the steps of the mirrored differences. -/
theorem count_mirror (ha : a.WellNamed) (hb : b.WellNamed) {kind kind' : FieldMigration.Kind}
    (hkind : ∀ d : Difference, d.migrationKind = kind ↔ d.mirror.migrationKind = kind') :
    (migrationSteps a b).countP (fun m => m.migrationKind = kind) =
      (migrationSteps b a).countP (fun m => m.migrationKind = kind') := by
  refine (migrationSteps_enumerates ha hb).countP_eq (migrationSteps_enumerates hb ha)
    (f := Difference.mirror) (c := fun d => d.migrationKind = kind') ?_ ?_ ?_ ?_
  · exact Function.LeftInverse.injective Difference.mirror_mirror
  · intro d
    constructor
    · exact fun h => ⟨d.mirror, Difference.holds_mirror.mpr h, d.mirror_mirror⟩
    · rintro ⟨d', h, rfl⟩
      exact Difference.holds_mirror.mpr h
  · intro d m h
    rw [h.migrationKind]
    exact decide_eq_decide.mpr (hkind d)
  · intro d m h
    rw [h.migrationKind]

/-- **A plan is exactly the difference** of two well-named versions, and the plan back its mirror. -/
theorem computeMigration_exact {reg : SchemaRegistry} {v w : UInt32} (hv : reg.find v = some a)
    (hw : reg.find w = some b) (ha : a.WellNamed) (hb : b.WellNamed) :
    ∃ plan back, reg.computeMigration v w = .ok plan ∧ reg.computeMigration w v = .ok back ∧
      Enumerates (Difference.Holds a b) (Difference.Step a b) plan.migrations ∧
      (plan.migrations = [] ↔ a.triples = b.triples) ∧
      back.count .removeField = plan.count .addField ∧
      back.count .addField = plan.count .removeField ∧
      back.count .changeType = plan.count .changeType := by
  have hplan := migrationSteps_enumerates ha hb
  refine ⟨_, _, computeMigration_eq hv hw, computeMigration_eq hw hv, hplan, ?_, ?_, ?_, ?_⟩
  · exact hplan.eq_nil_iff.trans (triples_eq_iff hb).symm
  · exact count_mirror hb ha fun d => by cases d <;> simp [Difference.migrationKind, Difference.mirror]
  · exact count_mirror hb ha fun d => by cases d <;> simp [Difference.migrationKind, Difference.mirror]
  · exact count_mirror hb ha fun d => by cases d <;> simp [Difference.migrationKind, Difference.mirror]

/-- A field is removed. -/
theorem computeMigration_exact_idOnly : ∃ plan back,
    (twoVersions idTag idOnly).computeMigration 1 2 = .ok plan ∧
      (twoVersions idTag idOnly).computeMigration 2 1 = .ok back ∧
      Enumerates (Difference.Holds idTag idOnly) (Difference.Step idTag idOnly) plan.migrations ∧
      (plan.migrations = [] ↔ idTag.triples = idOnly.triples) ∧
      back.count .removeField = plan.count .addField ∧
      back.count .addField = plan.count .removeField ∧
      back.count .changeType = plan.count .changeType :=
  computeMigration_exact rfl rfl idTag_wellNamed idOnly_wellNamed

end Plan

end Stratavm
