import Stratavm.SchemaRegistry.RoundTrip

/-!
# Names of a deserialized registry

`Schema::decode` rejects a kind or field name that is no index into the atom table.
`SchemaRegistry::deserialize` reads the same grammar without that check, so a version can have names that
its own table lacks, and `compute_migration` passes over them.

`readTables` reads the tables that the wire format puts into the bytes, and nothing is made of them.
`deserialize_eq_ok` says what `deserialize` makes: a version per table, its texts interned, so its atom
table is as long as there are distinct texts.

* **`consistent_iff`**: a registry that is read is consistent iff in the bytes every name index is
  below the number of distinct texts of its version.
* `strayName_accepted`: a version with no atoms and a kind named by atom 5.
-/

namespace Stratavm

open Lib Lib.Decoder

/-! ## What a consistent registry is -/

/-- Every kind name and field name is an index into the atom table. -/
structure SchemaVersion.NamesInRange (sv : SchemaVersion) : Prop where
  kinds : ∀ k ∈ sv.schema.kinds, sv.atoms.get k.name ≠ none
  fields : ∀ k ∈ sv.schema.kinds, ∀ fd ∈ k.fields, sv.atoms.get fd.name ≠ none

/-- `compute_migration` passes over no kind and no field of the version for lack of a name. -/
structure SchemaVersion.SkipsNothing (sv : SchemaVersion) : Prop where
  kinds : ∀ kid k, sv.schema.kind kid = some k → sv.kindName kid ≠ none
  fields : ∀ kid k fid fd, sv.schema.kind kid = some k → k.field fid = some fd →
    sv.fieldName k fid ≠ none

/-- The versions of a registry have their names, and planning a migration skips nothing of them. -/
structure SchemaRegistry.Consistent (reg : SchemaRegistry) : Prop where
  names : ∀ id sv, reg.find id = some sv → sv.NamesInRange
  migrations : ∀ v w a b, reg.find v = some a → reg.find w = some b →
    a.SkipsNothing ∧ b.SkipsNothing

theorem SchemaVersion.NamesInRange.skipsNothing {sv : SchemaVersion} (h : sv.NamesInRange) :
    sv.SkipsNothing := by
  constructor
  · intro kid k hk
    rw [kindName, hk]
    exact h.kinds k (Schema.kind_eq_some_mem hk)
  · intro kid k fid fd hk hfd
    rw [fieldName, hfd]
    exact h.fields k (Schema.kind_eq_some_mem hk) fd (List.mem_of_getElem? hfd)

/-! ## The tables in the bytes -/

/-- The tables of one version, as the wire format has them. -/
structure VersionTables where
  versionId : UInt32
  description : Bytes
  texts : List Bytes
  kinds : List KindDef

section Read

variable (lim : Limits)

/-- The tables of one version. -/
def readVersionTables : Reader VersionTables := do
  let versionId ← readU32
  let description ← readLpString lim.maxAtomLen.toNat
  let atomCount ← readVarint
  if atomCount > lim.maxAtoms.toUInt64 then
    fail .limitExceeded "atom count too large in schema registry"
  else do
    let texts ← listFrom (fun _ => readLpString lim.maxAtomLen.toNat) 0 atomCount.toNat
    let kindCount ← readVarint
    if kindCount > lim.maxKinds.toUInt64 then
      fail .limitExceeded "kind count too large in schema registry"
    else do
      let kinds ← listFrom (fun _ => readKindDef lim) 0 kindCount.toNat
      pure { versionId, description, texts, kinds }

/-- The tables of every version. -/
def readTables : Reader (List VersionTables) := do
  let versionCount ← readVarint
  if versionCount > lim.maxSections.toUInt64 then
    fail .limitExceeded "schema registry: version count too large"
  else listFrom (fun _ => readVersionTables lim) 0 versionCount.toNat

end Read

namespace VersionTables

/-- The version that is made of the tables. -/
def version (t : VersionTables) : SchemaVersion where
  versionId := t.versionId
  description := t.description
  schema := { kinds := t.kinds }
  atoms := internAll t.texts

/-- Every name is below the number of distinct texts. -/
def NamesInRange (t : VersionTables) : Prop :=
  ∀ k ∈ t.kinds, k.name.toNat < t.texts.dedup.length ∧
    ∀ fd ∈ k.fields, fd.name.toNat < t.texts.dedup.length

/-- Registering the version of the tables; `none` where the id is taken. -/
def register (reg : SchemaRegistry) (t : VersionTables) : Option SchemaRegistry :=
  (reg.registerVersion t.version.versionId t.version.description t.version.schema
    t.version.atoms).toOption

theorem register_eq_some {reg reg' : SchemaRegistry} {t : VersionTables} :
    register reg t = some reg' ↔ reg.find t.versionId = none ∧
      reg' = { versions := reg.versions.insert t.versionId t.version } := by
  have hfind : reg.versions.contains t.versionId = true ↔ reg.find t.versionId ≠ none := by
    rw [Std.ExtTreeMap.contains_eq_isSome_getElem?, Option.isSome_iff_ne_none]
    rfl
  unfold register SchemaRegistry.registerVersion
  show Except.toOption (if reg.versions.contains t.versionId then _ else _) = some reg' ↔ _
  split
  · rename_i h
    exact iff_of_false nofun fun hnone => hfind.mp h hnone.1
  · rename_i h
    rw [and_iff_right (not_not.mp (mt hfind.mpr h))]
    exact ⟨fun heq => (Option.some.inj heq).symm, fun heq => congrArg some heq.symm⟩

theorem find_register {reg reg' : SchemaRegistry} {t : VersionTables}
    (h : register reg t = some reg') (id : UInt32) :
    reg'.find id = if t.versionId = id then some t.version else reg.find id := by
  obtain ⟨-, rfl⟩ := register_eq_some.mp h
  simp only [SchemaRegistry.find, Std.ExtTreeMap.getElem?_insert, Std.LawfulEqOrd.compare_eq_iff_eq]

/-- What is found after every version is registered. -/
theorem find_foldlM_register {tables : List VersionTables} {reg reg' : SchemaRegistry}
    (h : tables.foldlM register reg = some reg') {id : UInt32} {sv : SchemaVersion} :
    reg'.find id = some sv ↔
      reg.find id = some sv ∨ ∃ t ∈ tables, t.versionId = id ∧ t.version = sv := by
  induction tables generalizing reg with
  | nil =>
    obtain rfl := Option.some.inj h
    simp
  | cons t tables ih =>
    rw [List.foldlM_cons] at h
    obtain ⟨mid, hmid, h⟩ := Option.bind_eq_some_iff.mp h
    have hnew := (register_eq_some.mp hmid).1
    rw [ih h, find_register hmid, List.exists_mem_cons_iff, ← or_assoc]
    refine or_congr_left ?_
    by_cases hid : t.versionId = id
    · subst hid
      simp [hnew]
    · simp [hid]

/-- Versions can be registered one after the other iff their ids are new and not repeated. -/
theorem exists_foldlM_register {tables : List VersionTables} {reg : SchemaRegistry} :
    (∃ reg', tables.foldlM register reg = some reg') ↔
      (tables.map versionId).Nodup ∧ ∀ t ∈ tables, reg.find t.versionId = none := by
  induction tables generalizing reg with
  | nil => exact iff_of_true ⟨reg, rfl⟩ ⟨List.nodup_nil, nofun⟩
  | cons t tables ih =>
    have hstep : (∃ reg', (t :: tables).foldlM register reg = some reg') ↔
        ∃ mid, register reg t = some mid ∧ ∃ reg', tables.foldlM register mid = some reg' := by
      simp only [List.foldlM_cons, Option.bind_eq_bind, Option.bind_eq_some_iff]
      exact ⟨fun ⟨r, mid, hmid, hr⟩ => ⟨mid, hmid, r, hr⟩, fun ⟨mid, hmid, r, hr⟩ => ⟨r, mid, hmid, hr⟩⟩
    rw [hstep, List.map_cons, List.nodup_cons, List.forall_mem_cons]
    constructor
    · rintro ⟨mid, hmid, hrest⟩
      obtain ⟨hnodup, hnew⟩ := ih.mp hrest
      have hother : ∀ u ∈ tables, t.versionId ≠ u.versionId ∧ reg.find u.versionId = none := by
        intro u hu
        have h := hnew u hu
        rw [find_register hmid] at h
        split at h
        · cases h
        · rename_i hne
          exact ⟨hne, h⟩
      refine ⟨⟨fun hmem => ?_, hnodup⟩, (register_eq_some.mp hmid).1, fun u hu => (hother u hu).2⟩
      obtain ⟨u, hu, heq⟩ := List.mem_map.mp hmem
      exact (hother u hu).1 heq.symm
    · rintro ⟨⟨hfresh, hnodup⟩, hnone, hnew⟩
      have hmid := register_eq_some.mpr ⟨hnone, rfl⟩
      refine ⟨_, hmid, ih.mpr ⟨hnodup, fun u hu => ?_⟩⟩
      rw [find_register hmid, if_neg fun heq => hfresh (List.mem_map.mpr ⟨u, hu, heq.symm⟩)]
      exact hnew u hu

end VersionTables

/-! ## What `deserialize` makes of the tables -/

section Deserialize

variable {lim : Limits} {s s' : Bytes}

/-- The atom loop interns the texts. -/
theorem readAtoms_image (lim : Limits) (n : Nat) : Image internAll
    (listFrom (fun _ => readLpString lim.maxAtomLen.toNat) 0 n) (readAtoms lim n) := by
  intro r atoms r'
  unfold readAtoms
  rw [loop_eq_ok (d := fun _ => readLpString lim.maxAtomLen.toNat)
    (g := fun atoms text => some (atoms.intern text).2)]
  · refine exists_congr fun texts => and_congr_right fun _ => ?_
    have hfold : texts.foldlM (fun atoms text => some (AtomPool.intern atoms text).2) {} =
        some (internAll texts) := List.foldlM_pure
    rw [hfold, Option.some.injEq, eq_comm]
  · intro i acc acc' r r'
    rw [bind_eq_ok]
    constructor
    · rintro ⟨text, r1, htext, h⟩
      obtain ⟨rfl, rfl⟩ := pure_eq_ok.mp h
      exact ⟨text, htext, rfl⟩
    · rintro ⟨text, htext, h⟩
      obtain rfl := Option.some.inj h
      exact ⟨text, r', htext, rfl⟩

/-- A version is made of its tables. -/
theorem readVersion_image (lim : Limits) :
    Image VersionTables.version (readVersionTables lim) (readVersion lim) := by
  refine (Image.refl readU32).bind fun versionId => (Image.refl (readLpString _)).bind fun description =>
    (Image.refl readVarint).bind fun atomCount => (Image.fail _ _).ite ?_
  refine (readAtoms_image lim _).bind fun texts => (Image.refl readVarint).bind fun kindCount =>
    (Image.fail _ _).ite ?_
  exact (Image.refl (listFrom _ 0 _)).bind fun kinds => Image.pure _ _

theorem readRegistered_eq_ok {reg reg' : SchemaRegistry} :
    readRegistered lim reg s = .ok (reg', s') ↔
      ∃ t, readVersionTables lim s = .ok (t, s') ∧ VersionTables.register reg t = some reg' := by
  unfold readRegistered
  rw [bind_eq_ok]
  constructor
  · rintro ⟨sv, s1, hsv, h⟩
    obtain ⟨t, ht, rfl⟩ := (readVersion_image lim ..).mp hsv
    unfold VersionTables.register
    cases hreg : reg.registerVersion t.version.versionId t.version.description t.version.schema
        t.version.atoms with
    | error st =>
      rw [hreg] at h
      exact absurd h fail_ne_ok
    | ok r =>
      rw [hreg] at h
      obtain ⟨rfl, rfl⟩ := pure_eq_ok.mp h
      exact ⟨t, ht, congrArg Except.toOption hreg⟩
  · rintro ⟨t, ht, h⟩
    refine ⟨t.version, s', (readVersion_image lim ..).mpr ⟨t, ht, rfl⟩, ?_⟩
    unfold VersionTables.register at h
    cases hreg : reg.registerVersion t.version.versionId t.version.description t.version.schema
        t.version.atoms with
    | error st =>
      rw [hreg] at h
      cases h
    | ok r =>
      rw [hreg] at h
      obtain rfl := Option.some.inj h
      rfl

/-- **What `deserialize` reads**: the tables, each registered as a version. -/
theorem deserialize_eq_ok {reg : SchemaRegistry} :
    SchemaRegistry.deserialize lim s = .ok (reg, s') ↔ ∃ tables, readTables lim s = .ok (tables, s') ∧
      tables.foldlM VersionTables.register {} = some reg := by
  have hloop : ∀ (n : Nat) r, loop (fun _ reg => readRegistered lim reg) 0 n {} r = .ok (reg, s') ↔
      ∃ tables, listFrom (fun _ => readVersionTables lim) 0 n r = .ok (tables, s') ∧
        tables.foldlM VersionTables.register {} = some reg :=
    fun n r => loop_eq_ok (d := fun _ => readVersionTables lim) (g := VersionTables.register)
      fun _ _ _ _ _ => readRegistered_eq_ok
  unfold SchemaRegistry.deserialize readTables
  constructor
  · intro h
    obtain ⟨count, s1, hcount, h⟩ := bind_eq_ok.mp h
    split at h
    · exact absurd h fail_ne_ok
    rename_i hle
    obtain ⟨tables, htables, hfold⟩ := (hloop ..).mp h
    exact ⟨tables, bind_eq_ok.mpr ⟨count, s1, hcount, by rw [if_neg hle]; exact htables⟩, hfold⟩
  · rintro ⟨tables, h, hfold⟩
    obtain ⟨count, s1, hcount, h⟩ := bind_eq_ok.mp h
    split at h
    · exact absurd h fail_ne_ok
    rename_i hle
    refine bind_eq_ok.mpr ⟨count, s1, hcount, ?_⟩
    rw [if_neg hle]
    exact (hloop ..).mpr ⟨tables, h, hfold⟩

end Deserialize

/-! ## Names in range -/

theorem mem_foldl_intern {p : AtomPool} (h : p.Interned) (strings : List Bytes) (s : Bytes) :
    s ∈ (strings.foldl (fun atoms s => (atoms.intern s).2) p).atoms ↔ s ∈ p.atoms ∨ s ∈ strings := by
  induction strings generalizing p with
  | nil => simp
  | cons t strings ih =>
    have hatoms : s ∈ (p.intern t).2.atoms ↔ s ∈ p.atoms ∨ s = t := by
      rw [h.atoms_intern]
      split
      · rename_i ht
        exact ⟨.inl, fun hs => hs.elim (fun hs => hs) fun hs => hs ▸ ht⟩
      · rw [List.mem_append, List.mem_singleton]
    rw [List.foldl_cons, ih (h.intern t), hatoms, List.mem_cons, or_assoc]

/-- Interning keeps one atom of each text. -/
theorem length_atoms_internAll (strings : List Bytes) :
    (internAll strings).atoms.length = strings.dedup.length := by
  have hmem : ∀ s, s ∈ (internAll strings).atoms ↔ s ∈ strings.dedup := by
    intro s
    rw [List.mem_dedup]
    exact (mem_foldl_intern .empty strings s).trans (or_iff_right List.not_mem_nil)
  have hnodup : (internAll strings).atoms.Nodup := (AtomPool.Interned.empty.foldl strings).nodup
  exact ((List.perm_ext_iff_of_nodup hnodup (List.nodup_dedup strings)).mpr hmem).length_eq

/-- The names of a version are in range iff those of its tables are. -/
theorem VersionTables.namesInRange_iff {t : VersionTables} :
    t.version.NamesInRange ↔ t.NamesInRange := by
  have hget : ∀ a : AtomId, (internAll t.texts).get a ≠ none ↔ a.toNat < t.texts.dedup.length := by
    intro a
    rw [AtomPool.get, ne_eq, List.getElem?_eq_none_iff, length_atoms_internAll, Nat.not_le]
  constructor
  · intro h k hk
    exact ⟨(hget _).mp (h.kinds k hk), fun fd hfd => (hget _).mp (h.fields k hk fd hfd)⟩
  · intro h
    exact ⟨fun k hk => (hget _).mpr (h k hk).1, fun k hk fd hfd => (hget _).mpr ((h k hk).2 fd hfd)⟩

/-- **A deserialized registry is consistent** iff every name in the bytes is below the number of distinct
texts of its version; there is one only if no version id is repeated. -/
theorem consistent_iff (lim : Limits) (s : Bytes) :
    (∀ reg rest, SchemaRegistry.deserialize lim s = .ok (reg, rest) → reg.Consistent) ↔
      ∀ tables rest, readTables lim s = .ok (tables, rest) →
        (tables.map VersionTables.versionId).Nodup → ∀ t ∈ tables, t.NamesInRange := by
  constructor
  · intro h tables rest htables hnodup t ht
    obtain ⟨reg, hfold⟩ := VersionTables.exists_foldlM_register.mpr
      ⟨hnodup, fun _ _ => Std.ExtTreeMap.getElem?_empty⟩
    have hcons := h reg rest (deserialize_eq_ok.mpr ⟨tables, htables, hfold⟩)
    have hfind : reg.find t.versionId = some t.version :=
      (VersionTables.find_foldlM_register hfold).mpr (.inr ⟨t, ht, rfl, rfl⟩)
    exact VersionTables.namesInRange_iff.mp (hcons.names _ _ hfind)
  · intro h reg rest hreg
    obtain ⟨tables, htables, hfold⟩ := deserialize_eq_ok.mp hreg
    have hnodup := (VersionTables.exists_foldlM_register.mp ⟨reg, hfold⟩).1
    have hnames : ∀ id sv, reg.find id = some sv → sv.NamesInRange := by
      intro id sv hsv
      rcases (VersionTables.find_foldlM_register hfold).mp hsv with hempty | ⟨t, ht, -, rfl⟩
      · rw [SchemaRegistry.find, Std.ExtTreeMap.getElem?_empty] at hempty
        cases hempty
      · exact VersionTables.namesInRange_iff.mpr (h tables rest htables hnodup t ht)
    exact ⟨hnames, fun v w a b ha hb => ⟨(hnames v a ha).skipsNothing, (hnames w b hb).skipsNothing⟩⟩

/-- Version 1 with no atoms and one kind, without fields, named by atom 5. -/
def strayName : SchemaVersion := { versionId := 1, schema := { kinds := [{ name := 5 }] } }

theorem strayName_accepted : ¬ ∀ (lim : Limits) (s : Bytes) reg rest,
    SchemaRegistry.deserialize lim s = .ok (reg, rest) → reg.Consistent := by
  intro h
  have hread : SchemaRegistry.deserialize {} [1, 1, 0, 0, 0, 0, 0, 1, 5, 0] =
      .ok ({ versions := (∅ : SMap UInt32 SchemaVersion).insert 1 strayName }, []) := rfl
  exact ((h _ _ _ _ hread).names 1 strayName rfl).kinds _ (List.mem_cons_self ..) rfl

end Stratavm
