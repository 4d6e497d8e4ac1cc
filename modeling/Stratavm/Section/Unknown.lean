import Stratavm.Section

/-!
# Unknown sections

A newer producer may add sections this reader does not know. `decode` is to skip them, repeated or
not, but only the tag 0 is exempt from the duplicate check: `SectionEntry::kind` casts the raw tag,
so any other unknown tag is no `SectionTag::Unknown`.

* `decode_ok_iff`: a directory is accepted iff its windows lie in the file and no tag but 0 repeats.
* **`decode_extended_iff`**: with unknown entries inserted, the directory is accepted and finds the
  same payloads iff no tag but 0 repeats in it.
* `repeated_unknown_rejected`: a repeated unknown tag is rejected.
-/

namespace Stratavm

open Lib Lib.Decoder

namespace SectionTable

/-! ## The bytes of a directory -/

/-- A directory entry on disk, with the byte `decode` drops. -/
structure Slot where
  entry : SectionEntry := {}
  reserved : UInt8 := 0

/-- The 16 bytes of a directory entry. -/
def Slot.bytes (s : Slot) : Bytes :=
  u32 s.entry.tag ++ (u8 s.entry.version ++ (u8 s.reserved ++ (u16 s.entry.flags ++
    (u32 s.entry.offset ++ u32 s.entry.length))))

/-- The 16 bytes of a file header. -/
def headerBytes (h : FileHeader) : Bytes :=
  kMagic ++ (u8 h.versionMajor ++ (u8 h.versionMinor ++ (u16 h.flags ++ u32 h.sectionCount)))

theorem reads_slot (s : Slot) : Decoder.Reads readEntry s.bytes s.entry := by
  refine (reads_u32 _).bind ((reads_u8 _).bind ((reads_u8 s.reserved).bind
    ((reads_u16 _).bind ((reads_u32 _).bind ?_))))
  exact (reads_u32 s.entry.length).bind_pure

/-- The window of an entry lies in a file of this size. -/
def Inside (fileSize : Nat) (e : SectionEntry) : Prop :=
  e.offset.toNat ≤ fileSize ∧ e.length.toNat ≤ fileSize - e.offset.toNat

/-- A later entry repeats no tag, unless its tag is 0. -/
def Distinct (e f : SectionEntry) : Prop := f.tag ≠ SectionTag.unknown.raw → e.tag ≠ f.tag

/-! ## What `decode` accepts -/

section Decode

variable {fileSize : Nat} {table table' t : SectionTable} {slots : List Slot} {rest r : Bytes}
  {u : Unit} {s : Slot}

/-- One turn of the loop of `decode`. -/
theorem decodeEntries_succ_ok_iff {n : Nat} {bs : Bytes} :
    Machine.Ok (decodeEntries fileSize (n + 1)) table (s.bytes ++ bs) u table' r ↔
      Inside fileSize s.entry ∧ (∀ e ∈ table.entries, Distinct e s.entry) ∧
        Machine.Ok (decodeEntries fileSize n) { table with entries := table.entries ++ [s.entry] }
          bs u table' r := by
  have hread : ∀ {P : SectionEntry → Bytes → Prop},
      (∃ e r1, readEntry (s.bytes ++ bs) = .ok (e, r1) ∧ P e r1) ↔ P s.entry bs := by
    intro P
    rw [reads_slot s bs]
    simp
  rw [decodeEntries, Machine.bind_read_ok, hread, Machine.bind_get_ok]
  by_cases hin : s.entry.offset.toNat > fileSize ∨
      s.entry.length.toNat > fileSize - s.entry.offset.toNat
  · rw [if_pos hin]
    refine ⟨fun h => absurd h Machine.not_fail_ok, ?_⟩
    rintro ⟨⟨ho, hl⟩, -⟩
    omega
  rw [if_neg hin]
  have hinside : Inside fileSize s.entry := ⟨by omega, by omega⟩
  by_cases hdup : s.entry.tag ≠ SectionTag.unknown.raw ∧
      table.entries.any (fun p => p.tag == s.entry.tag)
  · rw [if_pos hdup]
    refine ⟨fun h => absurd h Machine.not_fail_ok, ?_⟩
    rintro ⟨-, hfresh, -⟩
    obtain ⟨p, hp, heq⟩ := List.any_eq_true.mp hdup.2
    exact absurd (beq_iff_eq.mp heq) (hfresh p hp hdup.1)
  · rw [if_neg hdup, Machine.bind_modify_ok]
    refine ⟨fun h => ⟨hinside, fun e he hknown heq => hdup ⟨hknown, ?_⟩, h⟩, fun h => h.2.2⟩
    exact List.any_eq_true.mpr ⟨e, he, beq_iff_eq.mpr heq⟩

/-- **The loop of `decode`** accepts entries in the file whose tags are new. -/
theorem decodeEntries_ok_iff :
    Machine.Ok (decodeEntries fileSize slots.length) table (slots.flatMap Slot.bytes ++ rest) u
        table' r ↔
      ((∀ s ∈ slots, Inside fileSize s.entry) ∧
        (∀ e ∈ table.entries, ∀ s ∈ slots, Distinct e s.entry) ∧
        slots.Pairwise fun s s' => Distinct s.entry s'.entry) ∧
      table' = { table with entries := table.entries ++ slots.map Slot.entry } ∧ r = rest := by
  induction slots generalizing table with
  | nil =>
    rw [List.length_nil, decodeEntries, Machine.pure_ok]
    simp [eq_comm]
  | cons s slots ih =>
    rw [List.length_cons, List.flatMap_cons, List.append_assoc, decodeEntries_succ_ok_iff, ih]
    simp only [List.forall_mem_cons, List.forall_mem_append, List.not_mem_nil, false_implies,
      implies_true, and_true, List.pairwise_cons, List.map_cons, List.append_assoc,
      List.singleton_append]
    constructor
    · rintro ⟨hs, hfresh, ⟨hin, ⟨hold, hnew⟩, hpair⟩, htable, hr⟩
      exact ⟨⟨⟨hs, hin⟩, fun e he => ⟨hfresh e he, hold e he⟩, hnew, hpair⟩, htable, hr⟩
    · rintro ⟨⟨⟨hs, hin⟩, hold, hnew, hpair⟩, htable, hr⟩
      exact ⟨hs, fun e he => (hold e he).1, ⟨hin, ⟨fun e he => (hold e he).2, hnew⟩, hpair⟩, htable, hr⟩

/-- **The directories `decode` accepts**: the windows lie in the file, and no tag but 0 repeats. -/
theorem decode_ok_iff {limits : Limits} {h : FileHeader} (hversion : h.versionMajor = kVersionMajor)
    (hlen : h.sectionCount.toNat = slots.length)
    (hcount : slots.length ≤ limits.maxSections.toNat) :
    Machine.Ok (decode fileSize limits) t (headerBytes h ++ (slots.flatMap Slot.bytes ++ rest)) u
        table r ↔
      ((∀ s ∈ slots, Inside fileSize s.entry) ∧
        slots.Pairwise fun s s' => Distinct s.entry s'.entry) ∧
      table = { header := h, entries := slots.map Slot.entry } ∧ r = rest := by
  have hread : ∀ {α : Type} {d : Reader α} {bs cs : Bytes} {a : α} {P : α → Bytes → Prop},
      Decoder.Reads d bs a → ((∃ b r1, d (bs ++ cs) = .ok (b, r1) ∧ P b r1) ↔ P a cs) := by
    intro α d bs cs a P hd
    rw [hd cs]
    simp
  have hlimit : ¬ h.sectionCount > limits.maxSections := by
    rw [gt_iff_lt, UInt32.lt_iff_toNat_lt]
    omega
  simp only [decode, headerBytes, List.append_assoc]
  rw [Machine.bind_read_ok, hread (reads_bytes kMagic), if_neg (not_not.mpr rfl)]
  rw [Machine.bind_read_ok, hread (reads_u8 _), Machine.bind_modify_ok]
  rw [Machine.bind_read_ok, hread (reads_u8 _), Machine.bind_modify_ok]
  rw [Machine.bind_read_ok, hread (reads_u16 _), Machine.bind_modify_ok]
  rw [Machine.bind_read_ok, hread (reads_u32 _), Machine.bind_modify_ok]
  rw [if_neg (not_not.mpr hversion), if_neg hlimit, Machine.bind_modify_ok, hlen,
    decodeEntries_ok_iff]
  simp

/-- An accepted file has the supported version. -/
theorem versionMajor_of_decode {limits : Limits} {file : Bytes}
    (h : Machine.Ok (decode fileSize limits) t file u table r) :
    table.header.versionMajor = kVersionMajor := by
  have hheader : ∀ {n : Nat} {table table' : SectionTable} {bs : Bytes},
      Machine.Ok (decodeEntries fileSize n) table bs u table' r → table'.header = table.header := by
    intro n
    induction n with
    | zero =>
      intro table table' bs h
      exact congrArg header (Machine.pure_ok.mp h).2.1.symm
    | succ n ih =>
      intro table table' bs h
      obtain ⟨e, r1, -, h⟩ := Machine.bind_read_ok.mp h
      rw [Machine.bind_get_ok] at h
      split at h
      · exact absurd h Machine.not_fail_ok
      split at h
      · exact absurd h Machine.not_fail_ok
      · rw [ih (Machine.bind_modify_ok.mp h)]
  obtain ⟨magic, r1, -, h⟩ := Machine.bind_read_ok.mp h
  split at h
  · exact absurd h Machine.not_fail_ok
  obtain ⟨major, r2, -, h⟩ := Machine.bind_read_ok.mp h
  obtain ⟨minor, r3, -, h⟩ := Machine.bind_read_ok.mp (Machine.bind_modify_ok.mp h)
  obtain ⟨flags, r4, -, h⟩ := Machine.bind_read_ok.mp (Machine.bind_modify_ok.mp h)
  obtain ⟨count, r5, -, h⟩ := Machine.bind_read_ok.mp (Machine.bind_modify_ok.mp h)
  have h := Machine.bind_modify_ok.mp h
  split at h
  · exact absurd h Machine.not_fail_ok
  rename_i hversion
  split at h
  · exact absurd h Machine.not_fail_ok
  · rw [hheader (Machine.bind_modify_ok.mp h)]
    exact not_not.mp hversion

end Decode

/-! ## Inserting entries -/

section Extend

variable {file file' : Bytes} {es es' : List SectionEntry}

/-- The bytes an entry covers. -/
def payload (file : Bytes) (e : SectionEntry) : Except Status Bytes :=
  window file e.offset.toNat e.length.toNat

/-- One of the six known tags. -/
def Known (tag : UInt32) : Prop := ∃ t : SectionTag, t ≠ .unknown ∧ tag = t.raw

/-- The entries `es'` of `file'` are the entries `es` of `file`, those of a known tag over the same
payload, with entries of unknown tags inserted. -/
inductive Inserts (file file' : Bytes) : List SectionEntry → List SectionEntry → Prop
  | nil : Inserts file file' [] []
  | keep {e e' : SectionEntry} {es es' : List SectionEntry} (htag : e'.tag = e.tag)
      (hpayload : Known e.tag → payload file' e' = payload file e) (h : Inserts file file' es es') :
      Inserts file file' (e :: es) (e' :: es')
  | insert {e' : SectionEntry} {es es' : List SectionEntry} (htag : ¬ Known e'.tag)
      (h : Inserts file file' es es') : Inserts file file' es (e' :: es')

/-- `file'` has the header of `file`, whose directory reads as `table`, up to the section count, and
the directory `slots`: that of `file` with entries of unknown tags inserted. -/
structure Extends (limits : Limits) (file : Bytes) (table : SectionTable) (file' : Bytes)
    (slots : List Slot) : Prop where
  bytes : ∃ rest, file' =
    headerBytes { table.header with sectionCount := UInt32.ofNat slots.length } ++
      (slots.flatMap Slot.bytes ++ rest)
  count : slots.length ≤ limits.maxSections.toNat
  windows : ∀ s ∈ slots, Inside file'.length s.entry
  inserts : Inserts file file' table.entries (slots.map Slot.entry)

/-- For each known tag `find` returns entries over the same payload, or none in both files. -/
def SamePayloads (file : Bytes) (table : SectionTable) (file' : Bytes) (table' : SectionTable) :
    Prop :=
  ∀ tag : SectionTag, tag ≠ .unknown →
    (table'.find tag).map (payload file') = (table.find tag).map (payload file)

/-- Inserting unknown entries hides no known one. -/
theorem Inserts.find? (h : Inserts file file' es es') {tag : SectionTag} (htag : tag ≠ .unknown) :
    (es'.find? fun e => e.tag == tag.raw).map (payload file') =
      (es.find? fun e => e.tag == tag.raw).map (payload file) := by
  induction h with
  | nil => rfl
  | @keep e e' es es' htags hpayload _ ih =>
    rw [List.find?_cons, List.find?_cons, htags]
    cases heq : e.tag == tag.raw with
    | true =>
      rw [Option.map_some, Option.map_some, hpayload ⟨tag, htag, beq_iff_eq.mp heq⟩]
    | false => exact ih
  | @insert e' es es' hunknown _ ih =>
    have hne : ¬ (e'.tag == tag.raw) = true := fun heq => hunknown ⟨tag, htag, beq_iff_eq.mp heq⟩
    rw [List.find?_cons_of_neg (l := es') hne]
    exact ih

/-- **Skipping unknown sections**: with entries of unknown tags inserted, the directory is accepted
and finds the same payloads iff no tag but 0 repeats in it. -/
theorem decode_extended_iff {limits : Limits} {t t' table : SectionTable} {r : Bytes}
    (h : Machine.Ok (decode file.length limits) t file () table r) {slots : List Slot}
    (hext : Extends limits file table file' slots) :
    (∃ table' r', Machine.Ok (decode file'.length limits) t' file' () table' r' ∧
        SamePayloads file table file' table') ↔
      slots.Pairwise fun s s' =>
        s'.entry.tag ≠ SectionTag.unknown.raw → s.entry.tag ≠ s'.entry.tag := by
  obtain ⟨⟨rest, rfl⟩, hcount, hwindows, hinserts⟩ := hext
  have hversion := versionMajor_of_decode h
  have hlen : (UInt32.ofNat slots.length).toNat = slots.length := by
    have hlt := limits.maxSections.toNat_lt
    exact toNat_ofNat_of_lt (by omega)
  let header : FileHeader := { table.header with sectionCount := UInt32.ofNat slots.length }
  constructor
  · rintro ⟨table', r', htable', -⟩
    exact ((decode_ok_iff (h := header) hversion hlen hcount).mp htable').1.2
  · intro hpair
    exact ⟨_, _, (decode_ok_iff (h := header) hversion hlen hcount).mpr ⟨⟨hwindows, hpair⟩, rfl, rfl⟩,
      fun tag htag => hinserts.find? htag⟩

end Extend

/-! ### A repeated unknown tag -/

/-- A container with an empty directory. -/
def emptyFile : Bytes := headerBytes { versionMajor := kVersionMajor }

/-- An entry of the unknown tag `NEWS` with an empty window. -/
def newsSlot : Slot := { entry := { tag := 0x5357454E } }

/-- A container whose directory is these entries. -/
def directoryFile (slots : List Slot) : Bytes :=
  headerBytes { versionMajor := kVersionMajor, sectionCount := UInt32.ofNat slots.length } ++
    (slots.flatMap Slot.bytes ++ [])

theorem emptyFile_accepted : Machine.Ok (decode emptyFile.length {}) {} emptyFile ()
    { header := { versionMajor := kVersionMajor } } [] :=
  rfl

theorem not_known_news : ¬ Known newsSlot.entry.tag := by
  rintro ⟨tag, -, h⟩
  cases tag <;> exact absurd h (by decide)

theorem extends_news {slots : List Slot} (hslots : ∀ s ∈ slots, s = newsSlot)
    (hcount : slots.length ≤ 64) :
    Extends {} emptyFile { header := { versionMajor := kVersionMajor } } (directoryFile slots)
      slots := by
  refine ⟨⟨[], rfl⟩, hcount, fun s hs => ?_, ?_⟩
  · rw [hslots s hs]
    exact ⟨Nat.zero_le _, Nat.zero_le _⟩
  · clear hcount
    generalize directoryFile slots = file'
    induction slots with
    | nil => exact .nil
    | cons s slots ih =>
      refine .insert ?_ (ih fun s hs => hslots s (List.mem_cons_of_mem _ hs))
      rw [hslots s (List.mem_cons_self ..)]
      exact not_known_news

/-- **A repeated unknown tag is rejected.** -/
theorem repeated_unknown_rejected : ¬ ∀ (limits : Limits) (file file' : Bytes)
    (t t' table : SectionTable) (r : Bytes) (slots : List Slot),
    Machine.Ok (decode file.length limits) t file () table r →
    Extends limits file table file' slots →
    ∃ table' r', Machine.Ok (decode file'.length limits) t' file' () table' r' ∧
      SamePayloads file table file' table' := by
  intro h
  obtain ⟨table', r', hok, -⟩ := h {} _ _ {} {} _ _ [newsSlot, newsSlot] emptyFile_accepted
    (extends_news (by simp) (by decide))
  have hpair := ((decode_ok_iff rfl rfl (by decide)).mp hok).1.2
  exact (List.pairwise_cons.mp hpair).1 newsSlot (List.mem_singleton.mpr rfl) (by decide) rfl

/-- A single unknown entry is skipped. -/
theorem news_skipped : ∃ table' r',
    Machine.Ok (decode (directoryFile [newsSlot]).length {}) {} (directoryFile [newsSlot]) ()
      table' r' ∧
    SamePayloads emptyFile { header := { versionMajor := kVersionMajor } }
      (directoryFile [newsSlot]) table' :=
  (decode_extended_iff emptyFile_accepted (extends_news (by simp) (by decide))).mpr
    (List.pairwise_singleton _ _)

end SectionTable

end Stratavm
