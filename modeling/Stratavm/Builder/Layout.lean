import Stratavm.Builder

/-!
# The layout of a built container

`serialize` writes the directory with empty slots and patches them as the payloads are placed. The
result is the file header, one directory entry per section and the payloads (`serialize_eq`), and
each entry's window is its section's payload (`locates_directory`). `SectionTable::decode` reads
that directory back (`reads_table`).

The patching loop is the part with an argument in it: while a payload is placed, the bytes before it are
directory entries that are already filled, then those that are not, then the payloads so far. Patching the
next entry moves the boundary between the first two by one (`patch_entry`, `placePayloads_eq`).

* `locates_entries`: every entry of a built container locates its section.
* `find_of_locates`: so `find` comes to a section by its tag, since no tag is built twice.

Out of scope: containers of `2 ^ 32` bytes and more. Their offsets wrap in the directory.
-/

namespace Stratavm

open Lib Lib.Decoder

namespace ContainerBuilder

/-! ## Patching -/

theorem length_u32 (v : UInt32) : (u32 v).length = 4 := rfl

theorem patchU32_append {pre suf : Bytes} {old v : UInt32} {pos : Nat} (h : pos = pre.length) :
    patchU32 (pre ++ (u32 old ++ suf)) pos v = pre ++ (u32 v ++ suf) := by
  subst h
  simp [patchU32, u32]

/-! ## The directory -/

/-- The bytes of a directory entry. -/
def entryBytes (e : SectionEntry) : Bytes :=
  u32 e.tag ++ (u8 e.version ++ (u8 0 ++ (u16 e.flags ++ (u32 e.offset ++ u32 e.length))))

/-- The entry of a section, before its slots are patched. -/
def blank (s : Built) : SectionEntry := { tag := s.tag.raw, version := 1 }

/-- The entry of a section placed at `offset`. -/
def placed (s : Built) (offset : Nat) : SectionEntry :=
  { blank s with offset := UInt32.ofNat offset, length := UInt32.ofNat s.payload.length }

/-- The entries of sections placed one after the other from `offset`. -/
def directory : List Built → Nat → List SectionEntry
  | [], _ => []
  | s :: sections, offset => placed s offset :: directory sections (offset + s.payload.length)

/-- The slots of directory entries laid out from position `pos`. -/
def slots : List Built → Nat → List (Nat × Nat)
  | [], _ => []
  | _ :: sections, pos => (pos + 8, pos + 12) :: slots sections (pos + 16)

theorem length_entryBytes (e : SectionEntry) : (entryBytes e).length = 16 := rfl

theorem layDirectory_eq (sections : List Built) (out : Bytes) : layDirectory sections out =
    (out ++ sections.flatMap fun s => entryBytes (blank s), slots sections out.length) := by
  induction sections generalizing out with
  | nil => simp [layDirectory, slots]
  | cons s sections ih =>
    simp only [layDirectory, ih, slots, List.flatMap_cons, entryBytes, blank]
    simp [u8, u16, length_u32]

theorem length_blanks (sections : List Built) :
    (sections.flatMap fun s => entryBytes (blank s)).length = 16 * sections.length := by
  induction sections with
  | nil => rfl
  | cons s sections ih =>
    rw [List.flatMap_cons, List.length_append, ih, length_entryBytes, List.length_cons]
    omega

/-- Placing one payload fills its entry in. -/
theorem patch_entry (s : Built) (pre mid : Bytes) (offset : Nat) :
    patchU32 (patchU32 (pre ++ (entryBytes (blank s) ++ mid)) (pre.length + 8) (UInt32.ofNat offset))
      (pre.length + 12) (UInt32.ofNat s.payload.length) =
      pre ++ (entryBytes (placed s offset) ++ mid) := by
  have hsplit : pre ++ (entryBytes (blank s) ++ mid) =
      (pre ++ (u32 s.tag.raw ++ (u8 1 ++ (u8 0 ++ u16 0)))) ++ (u32 0 ++ (u32 0 ++ mid)) := by
    simp [entryBytes, blank]
  rw [hsplit, patchU32_append (by simp [u8, u16, length_u32]), ← List.append_assoc,
    patchU32_append (by simp [u8, u16, length_u32])]
  simp [entryBytes, placed, blank]

/-- **The payload loop** leaves the filled directory and the payloads in order. -/
theorem placePayloads_eq (sections : List Built) (pre body : Bytes) :
    placePayloads (sections.zip (slots sections pre.length))
      (pre ++ ((sections.flatMap fun s => entryBytes (blank s)) ++ body)) =
      pre ++ ((directory sections (pre.length + 16 * sections.length + body.length)).flatMap
        entryBytes ++ (body ++ sections.flatMap Built.payload)) := by
  induction sections generalizing pre body with
  | nil => simp [placePayloads, slots, directory]
  | cons s sections ih =>
    generalize hoff : pre.length + 16 * (s :: sections).length + body.length = offset
    have hlen : (pre ++ (((s :: sections).flatMap fun s => entryBytes (blank s)) ++ body)).length =
        offset := by
      rw [List.length_append, List.length_append, length_blanks]
      omega
    have hout : pre ++ (((s :: sections).flatMap fun s => entryBytes (blank s)) ++ body) ++
        s.payload = pre ++ (entryBytes (blank s) ++
          ((sections.flatMap fun s => entryBytes (blank s)) ++ (body ++ s.payload))) := by
      simp
    have hpre : (pre ++ entryBytes (placed s offset)).length = pre.length + 16 := by
      rw [List.length_append, length_entryBytes]
    have hnext : pre.length + 16 + 16 * sections.length + (body ++ s.payload).length =
        offset + s.payload.length := by
      rw [List.length_append]
      rw [List.length_cons] at hoff
      omega
    rw [slots, List.zip_cons_cons, placePayloads, hlen, hout, patch_entry, ← List.append_assoc,
      ← hpre, ih, hpre, hnext, directory]
    simp

/-- The fixed file header. -/
def fileHeader (b : ContainerBuilder) : Bytes :=
  kMagic ++ u8 kVersionMajor ++ u8 kVersionMinor ++ u16 b.headerFlags ++
    u32 (UInt32.ofNat b.sections.length)

/-- The directory of a built container. -/
def entries (b : ContainerBuilder) : List SectionEntry :=
  directory b.sections (16 + 16 * b.sections.length)

/-- **A built container** is its header, its directory and its payloads. -/
theorem serialize_eq (b : ContainerBuilder) : b.serialize =
    b.fileHeader ++ (b.entries.flatMap entryBytes ++ b.sections.flatMap Built.payload) := by
  have h := placePayloads_eq b.sections b.fileHeader []
  have hlen : b.fileHeader.length = 16 := by simp [fileHeader, kMagic, u8, u16, length_u32]
  rw [List.append_nil, List.nil_append, List.length_nil, Nat.add_zero, hlen] at h
  rw [serialize, entries, ← h]
  show placePayloads (b.sections.zip (layDirectory b.sections b.fileHeader).2)
    (layDirectory b.sections b.fileHeader).1 = _
  rw [layDirectory_eq, hlen]

/-! ## The windows -/

theorem window_append {pre mid suf : Bytes} {offset length : Nat} (ho : offset = pre.length)
    (hl : length = mid.length) : window (pre ++ (mid ++ suf)) offset length = .ok mid := by
  subst ho hl
  unfold window
  rw [if_neg, List.drop_left, List.take_left]
  simp only [List.length_append]
  omega

/-- An entry of a section in a file: its tag, and a window that is its payload. -/
def Locates (file : Bytes) (s : Built) (e : SectionEntry) : Prop :=
  e.tag = s.tag.raw ∧ e.offset.toNat + e.length.toNat ≤ file.length ∧
    window file e.offset.toNat e.length.toNat = .ok s.payload

/-- Each entry of a directory locates its section. -/
theorem locates_directory {sections : List Built} {file : Bytes} (pre : Bytes)
    (hfile : file = pre ++ sections.flatMap Built.payload) (hlt : file.length < 2 ^ 32) :
    List.Forall₂ (Locates file) sections (directory sections pre.length) := by
  induction sections generalizing pre with
  | nil => exact .nil
  | cons s sections ih =>
    have hsize : pre.length + (s.payload.length + (sections.flatMap Built.payload).length) =
        file.length := by
      rw [hfile]
      simp
    have ho : (UInt32.ofNat pre.length).toNat = pre.length := toNat_ofNat_of_lt (by omega)
    have hl : (UInt32.ofNat s.payload.length).toNat = s.payload.length :=
      toNat_ofNat_of_lt (by omega)
    refine .cons ⟨rfl, ?_, ?_⟩ ?_
    · show (UInt32.ofNat pre.length).toNat + (UInt32.ofNat s.payload.length).toNat ≤ _
      omega
    · rw [hfile, List.flatMap_cons]
      exact window_append ho hl
    · have h := ih (pre ++ s.payload) (by rw [hfile]; simp)
      rwa [List.length_append] at h

theorem within_of_locates {file : Bytes} {sections : List Built} {es : List SectionEntry}
    (h : List.Forall₂ (Locates file) sections es) :
    ∀ e ∈ es, e.offset.toNat + e.length.toNat ≤ file.length := by
  induction h with
  | nil => exact fun e he => absurd he List.not_mem_nil
  | cons hloc _ ih =>
    intro e he
    rcases List.mem_cons.mp he with rfl | he
    · exact hloc.2.1
    · exact ih e he

/-- Under distinct tags, `find` finds a section's entry. -/
theorem find_of_locates {file : Bytes} {sections : List Built} {es : List SectionEntry}
    (h : List.Forall₂ (Locates file) sections es)
    (hdistinct : (sections.map fun s => s.tag.raw).Nodup) {s : Built} (hs : s ∈ sections) :
    ∃ e, es.find? (fun e => e.tag == s.tag.raw) = some e ∧ Locates file s e := by
  induction h with
  | nil => exact absurd hs List.not_mem_nil
  | @cons t e sections es hloc _ ih =>
    obtain ⟨hnew, hdistinct⟩ := List.nodup_cons.mp hdistinct
    by_cases hst : t.tag.raw = s.tag.raw
    · rcases List.mem_cons.mp hs with rfl | hs
      · exact ⟨e, List.find?_cons_of_pos (by simp [hloc.1]), hloc⟩
      · exact absurd (List.mem_map.mpr ⟨s, hs, hst.symm⟩) hnew
    · rcases List.mem_cons.mp hs with rfl | hs
      · exact absurd rfl hst
      · rw [List.find?_cons_of_neg (by simp [hloc.1, hst])]
        exact ih hdistinct hs

/-! ## Reading the directory -/

theorem reads_entry (e : SectionEntry) : Decoder.Reads SectionTable.readEntry (entryBytes e) e := by
  refine (reads_u32 e.tag).bind ((reads_u8 e.version).bind ((reads_u8 0).bind
    ((reads_u16 e.flags).bind ((reads_u32 e.offset).bind ?_))))
  exact (reads_u32 e.length).bind_pure

/-- Entries of distinct known tags within the file are read in order. -/
theorem reads_entries {fileSize : Nat} {es : List SectionEntry} (table : SectionTable)
    (hin : ∀ e ∈ es, e.offset.toNat + e.length.toNat ≤ fileSize)
    (hdistinct : ((table.entries ++ es).map SectionEntry.tag).Nodup) :
    Machine.Reads (SectionTable.decodeEntries fileSize es.length) table (es.flatMap entryBytes) ()
      { table with entries := table.entries ++ es } := by
  induction es generalizing table with
  | nil =>
    rw [List.append_nil]
    exact Machine.Reads.pure () table
  | cons e es ih =>
    have he := hin e (List.mem_cons_self ..)
    refine Machine.Reads.bind_read (reads_entry e) (Machine.Reads.bind_get ?_)
    rw [if_neg (by omega), if_neg]
    · have h := ih { table with entries := table.entries ++ [e] }
        (fun e' he' => hin e' (List.mem_cons_of_mem _ he')) (by simpa using hdistinct)
      rw [List.append_assoc] at h
      exact Machine.Reads.bind_modify h
    · rintro ⟨-, hany⟩
      obtain ⟨p, hp, hpe⟩ := List.any_eq_true.mp hany
      rw [List.map_append, List.map_cons] at hdistinct
      refine (List.nodup_append.mp hdistinct).2.2 p.tag (List.mem_map_of_mem hp) e.tag
        (List.mem_cons_self ..) (by simpa using hpe)

theorem tags_directory (sections : List Built) (offset : Nat) :
    (directory sections offset).map SectionEntry.tag = sections.map fun s => s.tag.raw := by
  induction sections generalizing offset with
  | nil => rfl
  | cons s sections ih => rw [directory, List.map_cons, List.map_cons, ih]; rfl

theorem length_directory (sections : List Built) (offset : Nat) :
    (directory sections offset).length = sections.length := by
  have h := congrArg List.length (tags_directory sections offset)
  rwa [List.length_map, List.length_map] at h

variable (b : ContainerBuilder)

theorem tags_nodup : (b.sections.map fun s => s.tag.raw).Nodup := by
  unfold sections
  cases b.emitXref <;> cases b.emitMeta <;> simp [SectionTag.raw]

theorem length_sections_le : b.sections.length ≤ 6 := by
  unfold sections
  cases b.emitXref <;> cases b.emitMeta <;> simp

/-- Every entry locates its section in the built container. -/
theorem locates_entries (h : b.serialize.length < 2 ^ 32) :
    List.Forall₂ (Locates b.serialize) b.sections b.entries := by
  have hlen : (b.fileHeader ++ b.entries.flatMap entryBytes).length =
      16 + 16 * b.sections.length := by
    have hentries : ∀ es : List SectionEntry, (es.flatMap entryBytes).length = 16 * es.length := by
      intro es
      induction es with
      | nil => rfl
      | cons e es ih =>
        rw [List.flatMap_cons, List.length_append, ih, length_entryBytes, List.length_cons]
        omega
    rw [List.length_append, hentries, entries, length_directory]
    simp [fileHeader, kMagic, u8, u16, length_u32]
  rw [entries, ← hlen]
  exact locates_directory _ (by rw [serialize_eq, List.append_assoc]) h

/-- What `SectionTable::decode` makes of a built container. -/
def table : SectionTable where
  header :=
    { versionMajor := kVersionMajor
      versionMinor := kVersionMinor
      flags := b.headerFlags
      sectionCount := UInt32.ofNat b.sections.length }
  entries := b.entries

/-- **The directory reads back.** -/
theorem reads_table {limits : Limits} (hsections : b.sections.length ≤ limits.maxSections.toNat)
    (h : b.serialize.length < 2 ^ 32) (t : SectionTable) :
    Machine.Reads (SectionTable.decode b.serialize.length limits) t
      (b.fileHeader ++ b.entries.flatMap entryBytes) () b.table := by
  have hcount : (UInt32.ofNat b.sections.length).toNat = b.entries.length := by
    rw [toNat_ofNat_of_lt (by have := b.length_sections_le; omega), entries, length_directory]
  have hin := within_of_locates (b.locates_entries h)
  have hdistinct : (([] ++ b.entries).map SectionEntry.tag).Nodup := by
    rw [List.nil_append, entries, tags_directory]
    exact b.tags_nodup
  simp only [fileHeader, List.append_assoc]
  refine Machine.Reads.bind_read (reads_bytes kMagic) ?_
  rw [if_neg (not_not.mpr rfl)]
  refine Machine.Reads.bind_read (reads_u8 _) (Machine.Reads.bind_modify ?_)
  refine Machine.Reads.bind_read (reads_u8 _) (Machine.Reads.bind_modify ?_)
  refine Machine.Reads.bind_read (reads_u16 _) (Machine.Reads.bind_modify ?_)
  refine Machine.Reads.bind_read (reads_u32 _) (Machine.Reads.bind_modify ?_)
  rw [if_neg (not_not.mpr rfl), if_neg ?_]
  · refine Machine.Reads.bind_modify ?_
    rw [hcount]
    exact reads_entries _ hin hdistinct
  · rw [gt_iff_lt, UInt32.lt_iff_toNat_lt, hcount, entries, length_directory]
    omega

end ContainerBuilder

end Stratavm
