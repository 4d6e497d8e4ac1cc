import Stratavm.Bytes

/-!
# The section directory

`SectionTable` (`section.hpp`, `section.cpp`) and `ByteReader::window`: the fixed file header, one
16-byte entry per section, and the windows the entries point at. An entry keeps its tag as the raw
32-bit number, as `SectionEntry` does: `kind()` is a cast, so a tag that is no enumerator's is not
`Unknown`, and only the tag 0 may repeat.

* **`accepted_of_decode`**: the windows of an accepted directory lie in the file, and its tags other
  than 0 are distinct.
* `Accepted.find_eq_some_iff`: so `find` returns the one entry of a tag, wherever it stands.

Out of scope: the order in which windows lie in the file, and whether they overlap. The source looks
at neither.
-/

namespace Stratavm

open Lib Lib.Decoder

/-- `FileHeader`. -/
structure FileHeader where
  versionMajor : UInt8 := 0
  versionMinor : UInt8 := 0
  flags : UInt16 := 0
  sectionCount : UInt32 := 0
  deriving DecidableEq, Repr

/-- `SectionEntry`. -/
structure SectionEntry where
  tag : UInt32 := 0
  version : UInt8 := 0
  flags : UInt16 := 0
  offset : UInt32 := 0
  length : UInt32 := 0
  deriving DecidableEq, Repr

/-- `SectionTable`. -/
structure SectionTable where
  header : FileHeader := {}
  entries : List SectionEntry := []
  deriving DecidableEq, Repr

/-- `ByteReader::window`: the bytes of the sub-reader. -/
def window (data : Bytes) (offset length : Nat) : Except Status Bytes :=
  if offset > data.length ∨ length > data.length - offset then
    .error ⟨.truncated, "section window out of range"⟩
  else .ok ((data.drop offset).take length)

namespace SectionTable

/-- The fields of one directory entry. The reserved byte is dropped. -/
def readEntry : Reader SectionEntry := do
  let tag ← readU32
  let version ← readU8
  let _reserved ← readU8
  let flags ← readU16
  let offset ← readU32
  let length ← readU32
  pure { tag, version, flags, offset, length }

/-- The loop of `decode`, `n` entries left. `SectionEntry::kind` is a cast, so only the tag 0 is
`Unknown`. -/
def decodeEntries (fileSize : Nat) : Nat → Machine Status SectionTable Unit
  | 0 => pure ()
  | n + 1 => do
    let e ← Machine.read id readEntry
    let table ← Machine.get
    if e.offset.toNat > fileSize ∨ e.length.toNat > fileSize - e.offset.toNat then
      Machine.fail ⟨.badSectionTable, "section window out of range"⟩
    else if e.tag ≠ SectionTag.unknown.raw ∧ table.entries.any (fun p => p.tag == e.tag) then
      Machine.fail ⟨.duplicateSection, "duplicate section tag"⟩
    else do
      Machine.modify fun t => { t with entries := t.entries ++ [e] }
      decodeEntries fileSize n

/-- `SectionTable::decode`. -/
def decode (fileSize : Nat) (limits : Limits) : Machine Status SectionTable Unit := do
  let magic ← Machine.read id (readBytes kMagic.length)
  if magic ≠ kMagic then Machine.fail ⟨.badMagic, "magic mismatch"⟩
  else do
    let versionMajor ← Machine.read id readU8
    Machine.modify fun t => { t with header := { t.header with versionMajor } }
    let versionMinor ← Machine.read id readU8
    Machine.modify fun t => { t with header := { t.header with versionMinor } }
    let flags ← Machine.read id readU16
    Machine.modify fun t => { t with header := { t.header with flags } }
    let sectionCount ← Machine.read id readU32
    Machine.modify fun t => { t with header := { t.header with sectionCount } }
    if versionMajor ≠ kVersionMajor then
      Machine.fail ⟨.unsupportedVersion, "major version not supported"⟩
    else if sectionCount > limits.maxSections then
      Machine.fail ⟨.limitExceeded, "too many sections"⟩
    else do
      Machine.modify fun t => { t with entries := [] }
      decodeEntries fileSize sectionCount.toNat

/-- `SectionTable::find`. -/
def find (table : SectionTable) (tag : SectionTag) : Option SectionEntry :=
  table.entries.find? fun e => e.tag == tag.raw

/-! ## What an accepted directory guarantees -/

/-- What the loop of `decode` keeps of the entries it has read: their windows lie in the file, and
no tag but `Unknown` is there twice. -/
structure Accepted (table : SectionTable) (fileSize : Nat) : Prop where
  windows : ∀ e ∈ table.entries, e.offset.toNat ≤ fileSize ∧
    e.length.toNat ≤ fileSize - e.offset.toNat
  distinct : table.entries.Pairwise fun e f => f.tag ≠ SectionTag.unknown.raw → e.tag ≠ f.tag

theorem accepted_of_decodeEntries {fileSize n : Nat} {table table' : SectionTable} {r r' : Bytes}
    {u : Unit} (h0 : table.Accepted fileSize)
    (h : Machine.Ok (decodeEntries fileSize n) table r u table' r') : table'.Accepted fileSize := by
  induction n generalizing table r with
  | zero =>
    obtain ⟨-, rfl, -⟩ := Machine.pure_ok.mp h
    exact h0
  | succ n ih =>
    obtain ⟨e, r1, -, h⟩ := Machine.bind_read_ok.mp h
    rw [Machine.bind_get_ok] at h
    by_cases hrange : e.offset.toNat > fileSize ∨ e.length.toNat > fileSize - e.offset.toNat
    · rw [if_pos hrange] at h
      exact absurd h Machine.not_fail_ok
    rw [if_neg hrange] at h
    by_cases hdup : e.tag ≠ SectionTag.unknown.raw ∧ table.entries.any (fun p => p.tag == e.tag)
    · rw [if_pos hdup] at h
      exact absurd h Machine.not_fail_ok
    rw [if_neg hdup] at h
    refine ih ⟨fun f hf => ?_, ?_⟩ (Machine.bind_modify_ok.mp h)
    · rcases List.mem_append.mp hf with hf | hf
      · exact h0.windows f hf
      · obtain rfl := List.mem_singleton.mp hf
        omega
    · refine List.pairwise_append.mpr ⟨h0.distinct, List.pairwise_singleton _ _, ?_⟩
      intro p hp f hf hknown
      obtain rfl := List.mem_singleton.mp hf
      refine fun heq => hdup ⟨hknown, List.any_eq_true.mpr ⟨p, hp, ?_⟩⟩
      rw [beq_iff_eq, heq]

/-- **An accepted directory**: windows in the file, known tags distinct. -/
theorem accepted_of_decode {fileSize : Nat} {limits : Limits} {table table' : SectionTable}
    {r r' : Bytes} {u : Unit} (h : Machine.Ok (decode fileSize limits) table r u table' r') :
    table'.Accepted fileSize := by
  obtain ⟨magic, r1, -, h⟩ := Machine.bind_read_ok.mp h
  by_cases hmagic : magic ≠ kMagic
  · rw [if_pos hmagic] at h
    exact absurd h Machine.not_fail_ok
  rw [if_neg hmagic] at h
  obtain ⟨major, r2, -, h⟩ := Machine.bind_read_ok.mp h
  obtain ⟨minor, r3, -, h⟩ := Machine.bind_read_ok.mp (Machine.bind_modify_ok.mp h)
  obtain ⟨flags, r4, -, h⟩ := Machine.bind_read_ok.mp (Machine.bind_modify_ok.mp h)
  obtain ⟨count, r5, -, h⟩ := Machine.bind_read_ok.mp (Machine.bind_modify_ok.mp h)
  have h := Machine.bind_modify_ok.mp h
  by_cases hversion : major ≠ kVersionMajor
  · rw [if_pos hversion] at h
    exact absurd h Machine.not_fail_ok
  rw [if_neg hversion] at h
  by_cases hcount : count > limits.maxSections
  · rw [if_pos hcount] at h
    exact absurd h Machine.not_fail_ok
  rw [if_neg hcount] at h
  exact accepted_of_decodeEntries ⟨fun e he => absurd he List.not_mem_nil, List.Pairwise.nil⟩
    (Machine.bind_modify_ok.mp h)

/-- In an accepted directory `find` returns the one entry of a known tag, wherever it stands. -/
theorem Accepted.find_eq_some_iff {table : SectionTable} {fileSize : Nat}
    (h : table.Accepted fileSize) {tag : SectionTag} (htag : tag ≠ .unknown) {e : SectionEntry} :
    table.find tag = some e ↔ e ∈ table.entries ∧ e.tag = tag.raw := by
  have hknown : tag.raw ≠ SectionTag.unknown.raw := fun heq => htag (SectionTag.raw_inj heq)
  have hdistinct := h.distinct
  unfold find
  constructor
  · intro he
    exact ⟨List.mem_of_find?_eq_some he, by simpa using List.find?_some he⟩
  · rintro ⟨he, hraw⟩
    generalize table.entries = entries at he hdistinct ⊢
    induction entries with
    | nil => cases he
    | cons x xs ih =>
      obtain ⟨hx, hxs⟩ := List.pairwise_cons.mp hdistinct
      rcases List.mem_cons.mp he with rfl | he
      · rw [List.find?_cons_of_pos (by simpa using hraw)]
      · have hne : x.tag ≠ tag.raw := hraw ▸ hx e he (hraw ▸ hknown)
        rw [List.find?_cons_of_neg (by simpa using hne)]
        exact ih he hxs

end SectionTable

end Stratavm
