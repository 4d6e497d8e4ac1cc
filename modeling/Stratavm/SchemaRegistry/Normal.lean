import Stratavm.Bytes.Streams
import Stratavm.Lib.Triple
import Stratavm.SchemaRegistry.NameRange

/-!
# Registries from untrusted bytes

`deserialize` interns the strings of a version, so a registry that it returns has no repeated strings,
files each version under its own id and is within the limits: `serialize` writes it exactly, whatever
bytes it came from (`SchemaVersion.Normal`).

That it does is a postcondition of the decoder (`Lib.Decoder.Ensures`), one lemma for each of its
functions. The bytes themselves need not be those that `serialize` writes: a varint may be longer than it
has to be, a version may list a string twice, and the versions may come in any order. A version id that
occurs again is refused.

* `deserialize_ensures`: what is read is normal.
* **`deserialize_normal`**: the registry is written in a form that is read back as it is, and no proper
  prefix of that form is accepted.
-/

namespace Stratavm

open Lib Lib.Decoder

/-! ## Interning once -/

theorem internAll_concat (strings : List Bytes) (s : Bytes) :
    internAll (strings ++ [s]) = ((internAll strings).intern s).2 := by
  simp only [internAll, List.foldl_append, List.foldl_cons, List.foldl_nil]

/-- The strings of an interned pool intern to the pool. -/
theorem internAll_atoms (strings : List Bytes) : internAll (internAll strings).atoms = internAll strings := by
  induction strings using List.reverseRecOn with
  | nil => rfl
  | append_singleton strings s ih =>
    rw [internAll_concat]
    unfold AtomPool.intern
    cases hs : (internAll strings).index.lookup s with
    | some id => exact ih
    | none =>
      rw [internAll_concat, ih]
      unfold AtomPool.intern
      rw [hs]

/-! ## What is read -/

section Read

variable {lim : Limits}

/-- What `serialize` writes exactly of a version filed under `id`. -/
structure SchemaVersion.Normal (lim : Limits) (id : UInt32) (sv : SchemaVersion) : Prop where
  filed : sv.Filed id
  within : sv.WithinLimits lim
  reread : sv.reread = sv

/-- The same of a registry. -/
structure SchemaRegistry.Normal (lim : Limits) (reg : SchemaRegistry) : Prop where
  versionCount : reg.versions.size ≤ lim.maxSections.toNat
  version : ∀ id sv, reg.find id = some sv → sv.Normal lim id

/-- A count that passed its check. -/
theorem toNat_le_of_not_gt {n : UInt64} {limit : UInt32} (h : ¬ n > limit.toUInt64) :
    n.toNat ≤ limit.toNat := by
  have hle := UInt64.le_iff_toNat_le.mp (UInt64.not_lt.mp h)
  rwa [UInt32.toNat_toUInt64] at hle

theorem readFieldDef_ensures : Ensures readFieldDef fun fd => fd.type ≠ .invalid := by
  refine (Ensures.any _).bind fun name _ => (Ensures.any _).bind fun typeRaw _ => ?_
  cases htype : ValueType.ofRaw? typeRaw with
  | none => exact .fail _
  | some type =>
    refine (Ensures.any _).bind fun flags _ => .pure ?_
    rintro rfl
    exact ValueType.ofRaw?_ne_invalid htype rfl

theorem readKindDef_ensures : Ensures (readKindDef lim) fun k =>
    k.fields.length ≤ lim.maxFieldsPerKind.toNat ∧ ∀ f ∈ k.fields, f.type ≠ .invalid := by
  refine (Ensures.any _).bind fun name _ => (Ensures.any _).bind fun count _ =>
    .ite (fun _ => .fail _) fun hcount => ?_
  refine (Ensures.listFrom (fun _ => readFieldDef_ensures) 0 _).bind fun fields hfields => .pure ?_
  exact ⟨hfields.1.trans_le (toNat_le_of_not_gt hcount), hfields.2⟩

/-- The atoms that are read are interned, and within the limits. -/
theorem readAtoms_ensures (count : Nat) : Ensures (readAtoms lim count) fun atoms =>
    atoms.size ≤ count ∧ (∀ s ∈ atoms.atoms, s.length ≤ lim.maxAtomLen.toNat) ∧
      internAll atoms.atoms = atoms := by
  have hloop : Ensures (readAtoms lim count) fun atoms => ∃ strings : List Bytes,
      strings.length = 0 + count ∧ (∀ s ∈ strings, s.length ≤ lim.maxAtomLen.toNat) ∧
        internAll strings = atoms := by
    refine Ensures.loop (fun i atoms => ∃ strings : List Bytes, strings.length = i ∧
      (∀ s ∈ strings, s.length ≤ lim.maxAtomLen.toNat) ∧ internAll strings = atoms) ?_ ⟨[], rfl, nofun, rfl⟩ _
    rintro i _ ⟨strings, hlen, hall, rfl⟩
    have hread : Ensures (readLpString lim.maxAtomLen.toNat) fun s => s.length ≤ lim.maxAtomLen.toNat :=
      fun _ _ _ h => length_readLpString_le h
    refine hread.bind fun s hs => .pure ⟨strings ++ [s], ?_, fun t ht => ?_, internAll_concat strings s⟩
    · rw [List.length_append, hlen, List.length_singleton]
    · rcases List.mem_append.mp ht with ht | ht
      · exact hall t ht
      · obtain rfl := List.mem_singleton.mp ht
        exact hs
  rintro s atoms s' h
  obtain ⟨strings, hlen, hall, rfl⟩ := hloop s atoms s' h
  refine ⟨(length_internAll strings).trans (by omega), fun t ht => hall t ?_, internAll_atoms strings⟩
  exact ((mem_foldl_intern .empty strings t).mp ht).resolve_left List.not_mem_nil

/-- A version that is read is normal. -/
theorem readVersion_ensures : Ensures (readVersion lim) fun sv => sv.Normal lim sv.versionId := by
  have hread : Ensures (readLpString lim.maxAtomLen.toNat) fun s => s.length ≤ lim.maxAtomLen.toNat :=
    fun _ _ _ h => length_readLpString_le h
  refine (Ensures.any _).bind fun versionId _ => hread.bind fun description hdescription =>
    (Ensures.any _).bind fun atomCount _ => .ite (fun _ => .fail _) fun hatoms => ?_
  refine (readAtoms_ensures _).bind fun atoms hpool => (Ensures.any _).bind fun kindCount _ =>
    .ite (fun _ => .fail _) fun hkinds => ?_
  refine (Ensures.listFrom (fun _ => readKindDef_ensures) 0 _).bind fun kinds hkind => .pure ?_
  obtain ⟨hsize, hatomLen, hintern⟩ := hpool
  refine ⟨⟨rfl, fun k hk => (hkind.2 k hk).2⟩, ⟨hdescription, ?_, hatomLen, ?_, ?_⟩, ?_⟩
  · exact hsize.trans (toNat_le_of_not_gt hatoms)
  · exact hkind.1.trans_le (toNat_le_of_not_gt hkinds)
  · exact fun k hk => (hkind.2 k hk).1
  · rw [SchemaVersion.reread, hintern]

/-- **A registry that is read is normal.** -/
theorem deserialize_ensures : Ensures (SchemaRegistry.deserialize lim) (SchemaRegistry.Normal lim) := by
  refine (Ensures.any _).bind fun count _ => .ite (fun _ => .fail _) fun hcount => ?_
  have hloop := @Ensures.loop _ _ (fun _ reg => readRegistered lim reg)
    (fun i reg => reg.versions.size ≤ i ∧ ∀ id sv, reg.find id = some sv → sv.Normal lim id) ?_ 0 {} ?_
    count.toNat
  · intro s reg s' h
    obtain ⟨hsize, hversion⟩ := hloop s reg s' h
    rw [Nat.zero_add] at hsize
    exact ⟨hsize.trans (toNat_le_of_not_gt hcount), hversion⟩
  · rintro i reg ⟨hsize, hversion⟩ s reg' s' h
    obtain ⟨t, ht, hregister⟩ := readRegistered_eq_ok.mp h
    have hnormal : t.version.Normal lim t.versionId :=
      readVersion_ensures s _ s' ((readVersion_image lim ..).mpr ⟨t, ht, rfl⟩)
    refine ⟨?_, fun id sv hsv => ?_⟩
    · obtain ⟨-, rfl⟩ := VersionTables.register_eq_some.mp hregister
      exact Std.ExtTreeMap.size_insert_le.trans (Nat.succ_le_succ hsize)
    · rw [VersionTables.find_register hregister] at hsv
      split at hsv
      · rename_i hid
        obtain rfl := Option.some.inj hsv
        exact hid ▸ hnormal
      · exact hversion id sv hsv
  · refine ⟨Nat.le_refl 0, fun id sv hsv => ?_⟩
    rw [SchemaRegistry.find, Std.ExtTreeMap.getElem?_empty] at hsv
    cases hsv

theorem SchemaRegistry.Normal.reread_eq {reg : SchemaRegistry} (h : reg.Normal lim) : reg.reread = reg := by
  have hmap : (reg.versions.map fun _ sv => sv.reread) = reg.versions := by
    refine Std.ExtTreeMap.ext_getElem? fun id => ?_
    rw [Std.ExtTreeMap.getElem?_map]
    cases hid : reg.versions[id]? with
    | none => rfl
    | some sv => exact congrArg some (h.version id sv hid).reread
  exact congrArg SchemaRegistry.mk hmap

/-- A normal registry reads back as it is. -/
theorem SchemaRegistry.Normal.reads {reg : SchemaRegistry} (h : reg.Normal lim) :
    Reads (SchemaRegistry.deserialize lim) reg.serialize reg := by
  have hread := reads_filed (fun id sv hsv => (h.version id sv hsv).filed)
    ⟨h.versionCount, fun id sv hsv => (h.version id sv hsv).within⟩
  rwa [h.reread_eq] at hread

end Read

/-! ## Blobs cut short -/

section Cut

variable (lim : Limits)

theorem streams_readFieldDef : Streams readFieldDef := by
  refine streams_readVarintU32.bind fun name => streams_readU8.bind fun typeRaw => ?_
  cases ValueType.ofRaw? typeRaw with
  | none => exact .fail _
  | some type => exact streams_readU8.bind fun flags => .pure _

theorem streams_readKindDef : Streams (readKindDef lim) :=
  streams_readVarintU32.bind fun _ => streams_readVarint.bind fun _ => .ite (.fail _)
    ((Decoder.Streams.listFrom fun _ => streams_readFieldDef).bind fun _ => .pure _)

theorem streams_readVersion : Streams (readVersion lim) := by
  refine streams_readU32.bind fun versionId => (streams_readLpString _).bind fun description =>
    streams_readVarint.bind fun atomCount => .ite (.fail _) ?_
  refine Decoder.Streams.bind (.loop fun _ _ => (streams_readLpString _).bind fun _ => .pure _) fun atoms =>
    streams_readVarint.bind fun kindCount => .ite (.fail _) ?_
  exact (Decoder.Streams.listFrom fun _ => streams_readKindDef lim).bind fun _ => .pure _

/-- `deserialize` reads a blob as a stream. -/
theorem streams_deserialize : Streams (SchemaRegistry.deserialize lim) := by
  refine streams_readVarint.bind fun count => .ite (.fail _) (.loop fun _ reg => ?_)
  refine (streams_readVersion lim).bind fun sv => ?_
  cases reg.registerVersion sv.versionId sv.description sv.schema sv.atoms with
  | error st => exact .fail st
  | ok reg' => exact .pure reg'

end Cut

/-- **Registry bytes have a normal form**: what `deserialize` accepts is written again as bytes that read
back as the same registry and leave what follows them, and any proper prefix of them is `Truncated`. -/
theorem deserialize_normal (lim : Limits) (s rest : Bytes) (reg : SchemaRegistry)
    (h : SchemaRegistry.deserialize lim s = .ok (reg, rest)) :
    (∀ t, SchemaRegistry.deserialize lim (reg.serialize ++ t) = .ok (reg, t)) ∧
      ∀ p q, p ++ q = reg.serialize → q ≠ [] →
        ∃ e, SchemaRegistry.deserialize lim p = .error e ∧ e.code = .truncated := by
  have hread := (deserialize_ensures s reg rest h).reads
  refine ⟨hread, fun p q hpq hq => ?_⟩
  rw [← hpq] at hread
  exact (streams_deserialize lim).cut p q reg hq hread

/-- One version, with one atom. -/
def oneText : SchemaRegistry where
  versions := (∅ : SMap UInt32 SchemaVersion).insert 1 { versionId := 1, atoms := internAll [[0x61]] }

/-- Its one atom is written twice in the bytes that are read. -/
theorem deserialize_normal_oneText :
    (∀ t, SchemaRegistry.deserialize {} (oneText.serialize ++ t) = .ok (oneText, t)) ∧
      ∀ p q, p ++ q = oneText.serialize → q ≠ [] →
        ∃ e, SchemaRegistry.deserialize {} p = .error e ∧ e.code = .truncated :=
  deserialize_normal {} [1, 1, 0, 0, 0, 0, 2, 1, 0x61, 1, 0x61, 0] [] oneText rfl

end Stratavm
