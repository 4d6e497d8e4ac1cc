import Stratavm.SchemaRegistry

/-!
# The registry round trip

`deserialize` reads back exactly what `serialize` wrote (`reads_registry`), but it rebuilds each
atom pool by interning the strings, while `serialize` writes them by position. The registry read
back is therefore `reread`: every pool without its repeated strings.

`Built` is what the registry is asked of: versions registered one by one, each with a pool that was decoded
or interned and a schema that was decoded over it. Such a version is `Filed`: it has its own id, and no field
of a type that has no byte. A version is registered after all with smaller ids, so no registration fails on
the way back (`not_registered`).

* **`deserialize_serialize_iff`**: the round trip preserves the registry iff no version's pool
  has a repeated string.
* `repeated_atom_shifts`: `AtomPool::decode` accepts such a pool, and a name behind the repetition is another
  one after the round trip.

Out of scope: counts above the limits of the reader (`WithinLimits`). It refuses those.
-/

namespace Stratavm

open Lib Lib.Decoder

/-! ## Registries -/

/-- Registries that `register_version` builds from such pools and schemas decoded over them. -/
inductive SchemaRegistry.Built : SchemaRegistry → Prop
  | empty : Built {}
  | register {reg reg' versionId description schema atoms limits bytes rest} (h : Built reg)
      (hatoms : atoms.Produced) (hschema : Schema.decode atoms limits bytes = .ok (schema, rest))
      (hreg : reg.registerVersion versionId description schema atoms = .ok reg') : Built reg'

/-- Every count and string length of a version is within the limits. -/
structure SchemaVersion.WithinLimits (lim : Limits) (sv : SchemaVersion) : Prop where
  description : sv.description.length ≤ lim.maxAtomLen.toNat
  atomCount : sv.atoms.size ≤ lim.maxAtoms.toNat
  atomLen : ∀ s ∈ sv.atoms.atoms, s.length ≤ lim.maxAtomLen.toNat
  kindCount : sv.schema.kinds.length ≤ lim.maxKinds.toNat
  fieldCount : ∀ k ∈ sv.schema.kinds, k.fields.length ≤ lim.maxFieldsPerKind.toNat

/-- Every count and string length of a registry is within the limits. -/
structure SchemaRegistry.WithinLimits (lim : Limits) (reg : SchemaRegistry) : Prop where
  versionCount : reg.versions.size ≤ lim.maxSections.toNat
  version : ∀ id sv, reg.find id = some sv → sv.WithinLimits lim

/-- The same description, texts, kinds and fields. -/
structure SchemaVersion.SameAs (sv sv' : SchemaVersion) : Prop where
  versionId : sv'.versionId = sv.versionId
  description : sv'.description = sv.description
  text : ∀ id, sv'.atoms.get id = sv.atoms.get id
  schema : sv'.schema = sv.schema

/-- The same version ids, and the same version under each. -/
structure SchemaRegistry.SameAs (reg reg' : SchemaRegistry) : Prop where
  ids : reg'.versionIds = reg.versionIds
  version : ∀ id sv, reg.find id = some sv → ∃ sv', reg'.find id = some sv' ∧ sv.SameAs sv'

/-- What is serialized of a version is well formed: it is filed under its own id, and its fields
have on-disk types. -/
structure SchemaVersion.Filed (id : UInt32) (sv : SchemaVersion) : Prop where
  versionId : sv.versionId = id
  types : ∀ k ∈ sv.schema.kinds, ∀ f ∈ k.fields, f.type ≠ .invalid

theorem SchemaRegistry.Built.filed {reg : SchemaRegistry} (h : reg.Built) :
    ∀ id sv, reg.find id = some sv → sv.Filed id := by
  induction h with
  | empty => exact fun id sv h => by simp [find] at h
  | @register reg reg' versionId _ _ _ _ _ _ h _ hschema hreg ih =>
    intro id sv hsv
    unfold registerVersion at hreg
    split at hreg
    · cases hreg
    obtain rfl := Except.ok.inj hreg
    simp only [find, Std.ExtTreeMap.getElem?_insert] at hsv
    split at hsv
    · rename_i heq
      obtain rfl := Option.some.inj hsv
      exact ⟨Std.LawfulEqOrd.compare_eq_iff_eq.mp heq, (Schema.decode_typed hschema).types⟩
    · exact ih id sv hsv

/-! ## Reading a version -/

theorem length_idRange (n : Nat) (h : n < 2 ^ 32) : (idRange n).length = n := by
  rw [idRange, List.length_map, List.length_range, toNat_ofNat_of_lt h]

/-- A loop over ids that looks each item up visits the items in order. -/
theorem flatMap_idRange {α : Type} {l : List α} {g : UInt32 → Bytes} {h : α → Bytes}
    (hl : l.length < 2 ^ 32) (hg : ∀ (i : UInt32) x, l[i.toNat]? = some x → g i = h x) :
    (idRange l.length).flatMap g = l.flatMap h := by
  have hmap : (idRange l.length).map g = l.map h := by
    refine List.ext_getElem (by simp [length_idRange _ hl]) fun i h1 h2 => ?_
    have hi : i < l.length := by simpa using h2
    rw [List.getElem_map, List.getElem_map]
    refine hg _ _ ?_
    simp only [idRange, List.getElem_map, List.getElem_range]
    rw [toNat_ofNat_of_lt (by omega)]
    exact List.getElem?_eq_getElem hi
  rw [List.flatMap_def, List.flatMap_def, hmap]

section Reads

variable {lim : Limits}

theorem reads_count (n : Nat) (hn : n < 2 ^ 32) :
    Reads readVarint (varint (UInt64.ofNat n)) (UInt64.ofNat n) ∧ (UInt64.ofNat n).toNat = n :=
  ⟨reads_varint _, by rw [UInt64.toNat_ofNat', Nat.mod_eq_of_lt (by omega)]⟩

/-- A count within its limit passes the check. -/
theorem not_gt_limit {n : Nat} {limit : UInt32} (h : n ≤ limit.toNat) :
    ¬ UInt64.ofNat n > limit.toUInt64 := by
  have := limit.toNat_lt
  rw [gt_iff_lt, UInt64.lt_iff_toNat_lt, UInt32.toNat_toUInt64, UInt64.toNat_ofNat',
    Nat.mod_eq_of_lt (by omega)]
  omega

/-- A string within a 32-bit limit reads back. -/
theorem reads_limited {s : Bytes} {limit : UInt32} (h : s.length ≤ limit.toNat) :
    Reads (readLpString limit.toNat) (lpString s) s := by
  have := limit.toNat_lt
  exact reads_lpString h (by omega)

theorem reads_fieldDef {fd : FieldDef} (ht : fd.type ≠ .invalid) :
    Reads readFieldDef fd.serialize fd := by
  refine (reads_varintU32 fd.name).bind ((reads_u8 fd.type.raw).bind ?_)
  rw [ValueType.ofRaw?_raw ht]
  exact (reads_u8 fd.flags).bind_pure

theorem reads_kindDef {k : KindDef} (ht : ∀ f ∈ k.fields, f.type ≠ .invalid)
    (hcount : k.fields.length ≤ lim.maxFieldsPerKind.toNat) :
    Reads (readKindDef lim) (varint k.name.toUInt64 ++
      (varint (UInt64.ofNat k.fields.length) ++ k.fields.flatMap FieldDef.serialize)) k := by
  obtain ⟨hread, hn⟩ := reads_count k.fields.length (by have := lim.maxFieldsPerKind.toNat_lt; omega)
  refine (reads_varintU32 k.name).bind (hread.bind ?_)
  rw [if_neg (not_gt_limit hcount), hn]
  exact (Reads.listFrom fun i fd hfd => reads_fieldDef (ht fd (List.mem_of_getElem? hfd))).bind_pure

theorem reads_atoms {strings : List Bytes} (h : ∀ s ∈ strings, s.length ≤ lim.maxAtomLen.toNat) :
    Reads (readAtoms lim strings.length) (strings.flatMap lpString) (internAll strings) := by
  refine Reads.loop fun pre s suf hs => ?_
  exact (reads_limited (h s (by rw [hs]; simp))).bind_pure

/-- A version as it is read back. -/
def SchemaVersion.reread (sv : SchemaVersion) : SchemaVersion :=
  { sv with atoms := internAll sv.atoms.atoms }

/-- **A serialized version** reads back with its pool interned anew. -/
theorem reads_version {id : UInt32} {sv : SchemaVersion} (hf : sv.Filed id)
    (hw : sv.WithinLimits lim) : Reads (readVersion lim) sv.serialize sv.reread := by
  have hatoms := Nat.lt_of_le_of_lt hw.atomCount lim.maxAtoms.toNat_lt
  have hkinds := Nat.lt_of_le_of_lt hw.kindCount lim.maxKinds.toNat_lt
  obtain ⟨hreadAtoms, hatomCount⟩ := reads_count _ hatoms
  obtain ⟨hreadKinds, hkindCount⟩ := reads_count _ hkinds
  have hatomBytes : (idRange sv.atoms.size).flatMap sv.atoms.serializeAtom =
      sv.atoms.atoms.flatMap lpString := by
    refine flatMap_idRange hatoms fun i s hs => ?_
    simp only [AtomPool.serializeAtom, AtomPool.get, hs]
  have hkindBytes : (idRange sv.schema.kinds.length).flatMap sv.schema.serializeKind =
      sv.schema.kinds.flatMap fun k => varint k.name.toUInt64 ++
        (varint (UInt64.ofNat k.fields.length) ++ k.fields.flatMap FieldDef.serialize) := by
    refine flatMap_idRange hkinds fun i k hk => ?_
    simp only [Schema.serializeKind, Schema.kind, hk]
  unfold SchemaVersion.serialize
  rw [hatomBytes, hkindBytes]
  refine (reads_u32 sv.versionId).bind ((reads_limited hw.description).bind (hreadAtoms.bind ?_))
  rw [if_neg (not_gt_limit hw.atomCount), hatomCount]
  refine (reads_atoms hw.atomLen).bind (hreadKinds.bind ?_)
  rw [if_neg (not_gt_limit hw.kindCount), hkindCount]
  refine (Reads.listFrom fun i k hk => ?_).bind_pure
  have hmem := List.mem_of_getElem? hk
  exact reads_kindDef (hf.types k hmem) (hw.fieldCount k hmem)

/-! ## Reading the registry -/

/-- A registry as it is read back. -/
def SchemaRegistry.reread (reg : SchemaRegistry) : SchemaRegistry :=
  { versions := reg.versions.map fun _ sv => sv.reread }

/-- Registering a version that is read back. -/
def SchemaRegistry.add (reg : SchemaRegistry) (p : UInt32 × SchemaVersion) : SchemaRegistry :=
  { versions := reg.versions.insert p.1 p.2.reread }

theorem versions_foldl_add (ps : List (UInt32 × SchemaVersion)) (reg : SchemaRegistry) :
    (ps.foldl SchemaRegistry.add reg).versions =
      reg.versions.insertMany (ps.map fun p => (p.1, p.2.reread)) := by
  induction ps generalizing reg with
  | nil => rfl
  | cons p ps ih =>
    rw [List.foldl_cons, ih, List.map_cons, Std.ExtTreeMap.insertMany_cons]
    rfl

/-- Inserting a map's entries into the empty map gives the map. -/
theorem insertMany_toList {V : Type} (m : SMap UInt32 V) :
    (∅ : SMap UInt32 V).insertMany m.toList = m := by
  refine Std.ExtTreeMap.ext_getElem? fun k => ?_
  cases hk : m[k]? with
  | some v =>
    refine Std.ExtTreeMap.getElem?_insertMany_list_of_mem Std.ReflOrd.compare_self
      Std.ExtTreeMap.distinct_keys_toList ?_
    exact Std.ExtTreeMap.mem_toList_iff_getElem?_eq_some.mpr hk
  | none =>
    rw [Std.ExtTreeMap.getElem?_insertMany_list_of_contains_eq_false]
    · exact Std.ExtTreeMap.getElem?_empty
    · rw [Std.ExtTreeMap.map_fst_toList_eq_keys, Std.ExtTreeMap.contains_keys]
      rw [Std.ExtTreeMap.contains_eq_isSome_getElem?, hk]
      rfl

/-- Adding every version in order makes the whole registry. -/
theorem foldl_add_toList (reg : SchemaRegistry) :
    reg.versions.toList.foldl SchemaRegistry.add {} = reg.reread := by
  have h : (reg.versions.toList.foldl SchemaRegistry.add {}).versions = reg.reread.versions := by
    rw [versions_foldl_add, SchemaRegistry.reread]
    have hmap := Std.ExtTreeMap.toList_map (t := reg.versions) (f := fun _ sv => sv.reread)
    rw [← hmap]
    exact insertMany_toList _
  exact congrArg SchemaRegistry.mk h

theorem SchemaRegistry.registerVersion_new {reg : SchemaRegistry} {id : UInt32}
    (description : Bytes) (schema : Schema) (atoms : AtomPool)
    (h : reg.versions.contains id = false) :
    reg.registerVersion id description schema atoms =
      .ok { versions := reg.versions.insert id { versionId := id, description, schema, atoms } } := by
  rw [registerVersion, h]
  rfl

/-- A version is not registered before its turn. -/
theorem not_registered {reg : SchemaRegistry} {pre suf : List (UInt32 × SchemaVersion)}
    {p : UInt32 × SchemaVersion} (hp : reg.versions.toList = pre ++ p :: suf) :
    (pre.foldl SchemaRegistry.add {}).versions.contains p.1 = false := by
  have hdistinct := Std.ExtTreeMap.distinct_keys_toList (t := reg.versions)
  rw [hp, List.pairwise_append] at hdistinct
  rw [versions_foldl_add, Std.ExtTreeMap.contains_insertMany_list]
  refine Bool.or_eq_false_iff.mpr ⟨Std.ExtTreeMap.contains_empty, ?_⟩
  refine Bool.eq_false_iff.mpr fun hmem => ?_
  obtain ⟨q, hq, heq⟩ : ∃ q ∈ pre, q.1 = p.1 := by simpa using hmem
  refine hdistinct.2.2 q hq p (List.mem_cons_self ..) ?_
  rw [heq]
  exact Std.ReflOrd.compare_self

/-- **A registry of filed versions reads back**, every pool interned anew. -/
theorem reads_filed {reg : SchemaRegistry} (hf : ∀ id sv, reg.find id = some sv → sv.Filed id)
    (hw : reg.WithinLimits lim) : Reads (SchemaRegistry.deserialize lim) reg.serialize reg.reread := by
  have hsize : reg.versions.size < 2 ^ 32 :=
    Nat.lt_of_le_of_lt hw.versionCount lim.maxSections.toNat_lt
  obtain ⟨hread, hcount⟩ := reads_count _ hsize
  refine hread.bind ?_
  rw [if_neg (not_gt_limit hw.versionCount), hcount, ← Std.ExtTreeMap.length_toList,
    ← foldl_add_toList]
  refine Reads.loop fun pre p suf hp => ?_
  have hfind : reg.find p.1 = some p.2 := by
    refine Std.ExtTreeMap.mem_toList_iff_getElem?_eq_some.mp ?_
    rw [hp]
    simp
  have hfiled := hf _ _ hfind
  refine (reads_version hfiled (hw.version _ _ hfind)).bind_of_eq_pure ?_
  have hreg := SchemaRegistry.registerVersion_new p.2.description p.2.schema
    (internAll p.2.atoms.atoms) (not_registered hp)
  simp only [SchemaVersion.reread, hfiled.versionId, hreg, SchemaRegistry.add]

/-- **The registry reads back**, every pool interned anew. -/
theorem reads_registry {reg : SchemaRegistry} (hb : reg.Built) (hw : reg.WithinLimits lim) :
    Reads (SchemaRegistry.deserialize lim) reg.serialize reg.reread :=
  reads_filed hb.filed hw

end Reads

/-! ## Interning the strings of a pool -/

/-- A pool filled by interning alone holds no string twice. -/
structure AtomPool.Interned (p : AtomPool) : Prop where
  nodup : p.atoms.Nodup
  index : ∀ s, p.index.lookup s = none ↔ s ∉ p.atoms

namespace AtomPool.Interned

theorem empty : ({} : AtomPool).Interned :=
  ⟨List.nodup_nil, fun s => iff_of_true (Finmap.lookup_empty s) List.not_mem_nil⟩

theorem atoms_intern {p : AtomPool} (h : p.Interned) (s : Bytes) :
    (p.intern s).2.atoms = if s ∈ p.atoms then p.atoms else p.atoms ++ [s] := by
  unfold intern
  cases hs : p.index.lookup s with
  | some id => rw [if_pos (by by_contra hn; simp [(h.index s).mpr hn] at hs)]
  | none => rw [if_neg ((h.index s).mp hs)]

theorem intern {p : AtomPool} (h : p.Interned) (s : Bytes) : (p.intern s).2.Interned := by
  unfold AtomPool.intern
  cases hs : p.index.lookup s with
  | some id => exact h
  | none =>
    have hmem := (h.index s).mp hs
    refine ⟨List.nodup_append.mpr ⟨h.nodup, List.nodup_singleton s, ?_⟩, fun t => ?_⟩
    · intro a ha b hb hab
      rw [hab, List.mem_singleton.mp hb] at ha
      exact hmem ha
    · show Finmap.lookup t (Finmap.insert s _ p.index) = none ↔ t ∉ p.atoms ++ [s]
      by_cases ht : t = s
      · rw [ht, Finmap.lookup_insert]
        simp
      · rw [Finmap.lookup_insert_of_ne _ ht, h.index t]
        simp [ht]

theorem foldl {p : AtomPool} (h : p.Interned) (strings : List Bytes) :
    (strings.foldl (fun atoms s => (atoms.intern s).2) p).Interned := by
  induction strings generalizing p with
  | nil => exact h
  | cons s strings ih => exact ih (h.intern s)

theorem atoms_foldl {p : AtomPool} (h : p.Interned) {strings : List Bytes}
    (hnodup : (p.atoms ++ strings).Nodup) :
    (strings.foldl (fun atoms s => (atoms.intern s).2) p).atoms = p.atoms ++ strings := by
  induction strings generalizing p with
  | nil => rw [List.append_nil, List.foldl_nil]
  | cons s strings ih =>
    have hmem : s ∉ p.atoms := fun hs =>
      (List.nodup_append.mp hnodup).2.2 s hs s (List.mem_cons_self ..) rfl
    have hatoms : (p.intern s).2.atoms = p.atoms ++ [s] := by
      rw [h.atoms_intern, if_neg hmem]
    have hcons : p.atoms ++ s :: strings = (p.atoms ++ [s]) ++ strings := by simp
    rw [List.foldl_cons, ih (h.intern s) (by rw [hatoms, ← hcons]; exact hnodup), hatoms, hcons]

end AtomPool.Interned

/-- Interning the strings of a pool gives them back iff none is repeated. -/
theorem atoms_internAll_iff (strings : List Bytes) :
    (internAll strings).atoms = strings ↔ strings.Nodup := by
  constructor
  · intro h
    rw [← h]
    exact (AtomPool.Interned.empty.foldl strings).nodup
  · intro h
    exact AtomPool.Interned.empty.atoms_foldl h

theorem AtomPool.length_intern_le (p : AtomPool) (s : Bytes) :
    (p.intern s).2.atoms.length ≤ p.atoms.length + 1 := by
  unfold intern
  cases p.index.lookup s with
  | some id => exact Nat.le_succ _
  | none => rw [List.length_append, List.length_singleton]

theorem length_internAll (strings : List Bytes) :
    (internAll strings).atoms.length ≤ strings.length := by
  suffices h : ∀ p : AtomPool, (strings.foldl (fun atoms s => (atoms.intern s).2) p).atoms.length ≤
      p.atoms.length + strings.length by
    simpa [internAll] using h {}
  induction strings with
  | nil => exact fun p => Nat.le_refl _
  | cons s strings ih =>
    intro p
    have h1 := ih (p.intern s).2
    have h2 := p.length_intern_le s
    rw [List.foldl_cons, List.length_cons]
    omega

/-- Two pools of fewer than `2 ^ 32` atoms with the same texts have the same atoms. -/
theorem AtomPool.ext_get {p q : AtomPool} (hp : p.size < 2 ^ 32) (hq : q.size < 2 ^ 32)
    (h : ∀ id, q.get id = p.get id) : q.atoms = p.atoms := by
  refine List.ext_getElem? fun i => ?_
  by_cases hi : i < 2 ^ 32
  · have hid : (UInt32.ofNat i).toNat = i := toNat_ofNat_of_lt hi
    have := h (UInt32.ofNat i)
    rwa [AtomPool.get, AtomPool.get, hid] at this
  · rw [List.getElem?_eq_none (by unfold AtomPool.size at hq; omega),
      List.getElem?_eq_none (by unfold AtomPool.size at hp; omega)]

/-! ## The round trip -/

section RoundTrip

variable {lim : Limits} {reg : SchemaRegistry}

theorem SchemaRegistry.versionIds_reread : reg.reread.versionIds = reg.versionIds := by
  rw [versionIds, versionIds, Std.ExtTreeMap.map_fst_toList_eq_keys,
    Std.ExtTreeMap.map_fst_toList_eq_keys]
  exact Std.ExtTreeMap.keys_map

theorem SchemaRegistry.find_reread (id : UInt32) :
    reg.reread.find id = (reg.find id).map SchemaVersion.reread :=
  Std.ExtTreeMap.getElem?_map

/-- A version is reread as it was iff its pool has no repeated string. -/
theorem SchemaVersion.sameAs_reread_iff {sv : SchemaVersion} (hw : sv.WithinLimits lim) :
    sv.SameAs sv.reread ↔ sv.atoms.atoms.Nodup := by
  rw [← atoms_internAll_iff]
  constructor
  · intro h
    have hsize := Nat.lt_of_le_of_lt hw.atomCount lim.maxAtoms.toNat_lt
    have hle := length_internAll sv.atoms.atoms
    exact AtomPool.ext_get hsize (Nat.lt_of_le_of_lt hle hsize) h.text
  · intro h
    have htext : ∀ id, sv.reread.atoms.get id = sv.atoms.get id := by
      intro id
      rw [AtomPool.get, AtomPool.get, SchemaVersion.reread, h]
    exact ⟨rfl, rfl, htext, rfl⟩

/-- A registry is reread as it was iff no pool has a repeated string. -/
theorem SchemaRegistry.sameAs_reread_iff (hw : reg.WithinLimits lim) :
    reg.SameAs reg.reread ↔ ∀ id sv, reg.find id = some sv → sv.atoms.atoms.Nodup := by
  constructor
  · intro h id sv hsv
    obtain ⟨sv', hsv', hsame⟩ := h.version id sv hsv
    rw [find_reread, hsv] at hsv'
    obtain rfl := Option.some.inj hsv'
    exact (SchemaVersion.sameAs_reread_iff (hw.version id sv hsv)).mp hsame
  · intro h
    refine ⟨versionIds_reread, fun id sv hsv => ?_⟩
    refine ⟨sv.reread, by rw [find_reread, hsv]; rfl, ?_⟩
    exact (SchemaVersion.sameAs_reread_iff (hw.version id sv hsv)).mpr (h id sv hsv)

theorem deserialize_serialize (hb : reg.Built) (hw : reg.WithinLimits lim) :
    SchemaRegistry.deserialize lim reg.serialize = .ok (reg.reread, []) :=
  (reads_registry hb hw).run

/-- **The registry round trip** succeeds, consumes every byte and preserves the registry iff no
version's atom pool has a repeated string. -/
theorem deserialize_serialize_iff (hb : reg.Built) (hw : reg.WithinLimits lim) :
    (∃ reg', SchemaRegistry.deserialize lim reg.serialize = .ok (reg', []) ∧ reg.SameAs reg') ↔
      ∀ id sv, reg.find id = some sv → sv.atoms.atoms.Nodup := by
  rw [← SchemaRegistry.sameAs_reread_iff hw, deserialize_serialize hb hw]
  constructor
  · rintro ⟨reg', hreg', hsame⟩
    obtain ⟨rfl, -⟩ := Prod.mk.inj (Except.ok.inj hreg')
    exact hsame
  · exact fun h => ⟨reg.reread, rfl, h⟩

/-! ### A pool with a repeated string -/

/-- The section bytes of a pool holding `strings`. -/
def poolBytes (strings : List Bytes) : Bytes :=
  varint (UInt64.ofNat strings.length) ++ strings.flatMap lpString

/-- The pool `AtomPool::decode` makes of `strings`. -/
def decodedPool (strings : List Bytes) : AtomPool := (AtomPool.decode {} {} (poolBytes strings)).2

/-- One kind without fields. -/
def oneKind (name : AtomId) : Schema := { kinds := [{ name }] }

/-- A registry with one version. -/
def oneVersion (strings : List Bytes) (schema : Schema) : SchemaRegistry :=
  { versions := (∅ : SMap UInt32 SchemaVersion).insert 1
      { versionId := 1, schema, atoms := decodedPool strings } }

theorem oneVersion_built {strings : List Bytes} {schema : Schema} (bytes : Bytes)
    (hatoms : (AtomPool.decode {} {} (poolBytes strings)).1 = .ok ((), []))
    (hschema : Schema.decode (decodedPool strings) {} bytes = .ok (schema, [])) :
    (oneVersion strings schema).Built :=
  .register .empty (.decode (Machine.ok_of_fst hatoms)) hschema
    (SchemaRegistry.registerVersion_new _ _ _ Std.ExtTreeMap.contains_empty)

theorem oneVersion_find {strings : List Bytes} {schema : Schema} {id : UInt32} {sv : SchemaVersion}
    (h : (oneVersion strings schema).find id = some sv) :
    id = 1 ∧ sv = { versionId := 1, schema, atoms := decodedPool strings } := by
  unfold oneVersion SchemaRegistry.find at h
  rw [Std.ExtTreeMap.getElem?_insert] at h
  split at h
  · rename_i heq
    exact ⟨(Std.LawfulEqOrd.compare_eq_iff_eq.mp heq).symm, (Option.some.inj h).symm⟩
  · simp at h

theorem oneVersion_find_one {strings : List Bytes} {schema : Schema} :
    (oneVersion strings schema).find 1 =
      some { versionId := 1, schema, atoms := decodedPool strings } :=
  Std.ExtTreeMap.getElem?_insert_self

theorem oneVersion_within {strings : List Bytes} {schema : Schema}
    (h : SchemaVersion.WithinLimits {} { versionId := 1, schema, atoms := decodedPool strings }) :
    (oneVersion strings schema).WithinLimits {} := by
  refine ⟨?_, fun id sv hsv => ?_⟩
  · unfold oneVersion
    rw [Std.ExtTreeMap.size_insert]
    decide
  · obtain ⟨-, rfl⟩ := oneVersion_find hsv
    exact h

/-- **Interning renumbers the atoms** after a repeated string: the pool `a`, `a`, `b` comes back
as `a`, `b`, and the kind named by atom 2 has no name. -/
theorem repeated_atom_shifts : ¬ ∀ (lim : Limits) (reg : SchemaRegistry), reg.Built →
    reg.WithinLimits lim → ∃ reg', SchemaRegistry.deserialize lim reg.serialize = .ok (reg', []) ∧
      reg.SameAs reg' := by
  intro h
  have hb : (oneVersion [[97], [97], [98]] (oneKind 2)).Built :=
    oneVersion_built [1, 2, 0] rfl rfl
  have hw : (oneVersion [[97], [97], [98]] (oneKind 2)).WithinLimits {} :=
    oneVersion_within ⟨by decide, by decide, by decide, by decide, by decide⟩
  obtain ⟨reg', hreg', hsame⟩ := h {} _ hb hw
  rw [deserialize_serialize hb hw] at hreg'
  obtain ⟨rfl, -⟩ := Prod.mk.inj (Except.ok.inj hreg')
  have hnodup := (SchemaRegistry.sameAs_reread_iff hw).mp hsame 1 _ oneVersion_find_one
  exact absurd hnodup (by decide)

/-- The pool `a`, `b` and the kind `b` come back. -/
theorem deserialize_serialize_distinct :
    ∃ reg', SchemaRegistry.deserialize {} (oneVersion [[97], [98]] (oneKind 1)).serialize =
      .ok (reg', []) ∧ (oneVersion [[97], [98]] (oneKind 1)).SameAs reg' := by
  have hb : (oneVersion [[97], [98]] (oneKind 1)).Built :=
    oneVersion_built [1, 1, 0] rfl rfl
  have hw : (oneVersion [[97], [98]] (oneKind 1)).WithinLimits {} :=
    oneVersion_within ⟨by decide, by decide, by decide, by decide, by decide⟩
  refine (deserialize_serialize_iff hb hw).mpr fun id sv hsv => ?_
  obtain ⟨-, rfl⟩ := oneVersion_find hsv
  decide

end RoundTrip

end Stratavm
