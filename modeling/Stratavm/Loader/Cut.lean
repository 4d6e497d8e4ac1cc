import Stratavm.Builder.RoundTrip
import Stratavm.Bytes.Streams
import Stratavm.Loader.Steps

/-!
# Files cut short and files padded

The directory of a container is read off the front of the file, and every window is checked against the
size of the file that is there. So a file that lost its end either still has all of its sections, or is
refused at the directory: no decoder ever runs on a part of a section.

* **`load_cut`**: of an accepted file `p ++ q`, the beginning `p` loads like the whole if it covers the
  directory and every window, and otherwise is refused as `Truncated` or `BadSectionTable`.
* **`load_serialize_cut`**: no proper beginning of a built container loads, and bytes after it change
  nothing.
-/

namespace Stratavm

open Lib

namespace SectionTable

variable {table table' : SectionTable} {fileSize fileSize' n : Nat} {limits : Limits} {r r' p q : Bytes}

/-! ## The size of the directory -/

theorem length_readEntry {e : SectionEntry} (h : readEntry r = .ok (e, r')) :
    r.length = r'.length + 16 := by
  obtain ⟨tag, r1, h1, h⟩ := Decoder.bind_eq_ok.mp h
  obtain ⟨version, r2, h2, h⟩ := Decoder.bind_eq_ok.mp h
  obtain ⟨reserved, r3, h3, h⟩ := Decoder.bind_eq_ok.mp h
  obtain ⟨flags, r4, h4, h⟩ := Decoder.bind_eq_ok.mp h
  obtain ⟨offset, r5, h5, h⟩ := Decoder.bind_eq_ok.mp h
  obtain ⟨length, r6, h6, h⟩ := Decoder.bind_eq_ok.mp h
  obtain ⟨-, rfl⟩ := Decoder.pure_eq_ok.mp h
  have := takes_readU32.length_eq h1
  have := takes_readU8.length_eq h2
  have := takes_readU8.length_eq h3
  have := takes_readU16.length_eq h4
  have := takes_readU32.length_eq h5
  have := takes_readU32.length_eq h6
  omega

/-- One turn of the loop of `decode`. -/
theorem decodeEntries_succ_ok {u : Unit} :
    Machine.Ok (decodeEntries fileSize (n + 1)) table r u table' r' ↔
      ∃ e r1, readEntry r = .ok (e, r1) ∧
        (e.offset.toNat ≤ fileSize ∧ e.length.toNat ≤ fileSize - e.offset.toNat) ∧
        ¬ (e.tag ≠ SectionTag.unknown.raw ∧ table.entries.any (fun p => p.tag == e.tag)) ∧
        Machine.Ok (decodeEntries fileSize n) { table with entries := table.entries ++ [e] } r1 ()
          table' r' := by
  rw [decodeEntries, Machine.bind_read_ok]
  refine exists_congr fun e => exists_congr fun r1 => and_congr_right fun _ => ?_
  rw [Machine.bind_get_ok]
  by_cases hrange : e.offset.toNat > fileSize ∨ e.length.toNat > fileSize - e.offset.toNat
  · rw [if_pos hrange]
    refine iff_of_false Machine.not_fail_ok ?_
    rintro ⟨⟨ho, hl⟩, -⟩
    omega
  rw [if_neg hrange]
  by_cases hdup : e.tag ≠ SectionTag.unknown.raw ∧ table.entries.any (fun p => p.tag == e.tag)
  · rw [if_pos hdup]
    exact iff_of_false Machine.not_fail_ok fun h => h.2.1 hdup
  rw [if_neg hdup, Machine.bind_modify_ok]
  exact ⟨fun h => ⟨⟨by omega, by omega⟩, hdup, h⟩, fun h => h.2.2⟩

/-- The loop reads 16 bytes an entry and keeps the entries it has. -/
theorem decodeEntries_length {u : Unit}
    (h : Machine.Ok (decodeEntries fileSize n) table r u table' r') :
    r.length = r'.length + 16 * n ∧ ∃ es, table'.entries = table.entries ++ es ∧ es.length = n := by
  induction n generalizing table r with
  | zero =>
    obtain ⟨-, rfl, rfl⟩ := Machine.pure_ok.mp h
    exact ⟨rfl, [], by simp, rfl⟩
  | succ n ih =>
    obtain ⟨e, r1, hread, -, -, h⟩ := decodeEntries_succ_ok.mp h
    obtain ⟨hlen, es, hes, hn⟩ := ih h
    have := length_readEntry hread
    exact ⟨by omega, e :: es, by rw [hes]; simp, by rw [List.length_cons, hn]⟩

/-- For another file size the loop does the same, or finds a window outside. -/
theorem decodeEntries_resize {u : Unit}
    (h : Machine.Ok (decodeEntries fileSize n) table r u table' r') :
    Machine.Ok (decodeEntries fileSize' n) table r () table' r' ∨
      ¬ (∀ e ∈ table'.entries, e.offset.toNat + e.length.toNat ≤ fileSize') ∧
        (decodeEntries fileSize' n table r).1 = .error ⟨.badSectionTable, "section window out of range"⟩ := by
  induction n generalizing table r with
  | zero => exact .inl h
  | succ n ih =>
    obtain ⟨e, r1, hread, hin, hdup, h⟩ := decodeEntries_succ_ok.mp h
    by_cases hrange : e.offset.toNat > fileSize' ∨ e.length.toNat > fileSize' - e.offset.toNat
    · obtain ⟨-, es, hes, -⟩ := decodeEntries_length h
      refine .inr ⟨fun hfit => ?_, ?_⟩
      · have := hfit e (by rw [hes]; simp)
        omega
      · rw [decodeEntries, Machine.bind_read_of_ok hread, Machine.bind_get_apply, if_pos hrange]
        rfl
    · rcases ih h with h | ⟨hfit, herr⟩
      · exact .inl (decodeEntries_succ_ok.mpr ⟨e, r1, hread, ⟨by omega, by omega⟩, hdup, h⟩)
      · refine .inr ⟨hfit, ?_⟩
        rw [decodeEntries, Machine.bind_read_of_ok hread, Machine.bind_get_apply, if_neg hrange,
          if_neg hdup]
        exact herr

/-- Only the loop of `decode` knows the size of the file. -/
theorem decode_split {u : Unit} (h : Machine.Ok (decode fileSize limits) table r u table' r') :
    ∃ t0 r1 n, t0.entries = [] ∧ r.length = r1.length + 16 ∧ n ≤ limits.maxSections.toNat ∧
      ∀ fileSize', decode fileSize' limits table r = decodeEntries fileSize' n t0 r1 := by
  obtain ⟨magic, r1, hmagic, h⟩ := Machine.bind_read_ok.mp h
  by_cases hm : magic ≠ kMagic
  · rw [if_pos hm] at h
    exact absurd h Machine.not_fail_ok
  rw [if_neg hm] at h
  obtain ⟨major, r2, hmajor, h⟩ := Machine.bind_read_ok.mp h
  obtain ⟨minor, r3, hminor, h⟩ := Machine.bind_read_ok.mp (Machine.bind_modify_ok.mp h)
  obtain ⟨flags, r4, hflags, h⟩ := Machine.bind_read_ok.mp (Machine.bind_modify_ok.mp h)
  obtain ⟨count, r5, hcount, h⟩ := Machine.bind_read_ok.mp (Machine.bind_modify_ok.mp h)
  have h := Machine.bind_modify_ok.mp h
  by_cases hversion : major ≠ kVersionMajor
  · rw [if_pos hversion] at h
    exact absurd h Machine.not_fail_ok
  rw [if_neg hversion] at h
  by_cases hlimit : count > limits.maxSections
  · rw [if_pos hlimit] at h
    exact absurd h Machine.not_fail_ok
  have hlen : r.length = r5.length + 16 := by
    have := (takes_readBytes _).length_eq hmagic
    have := takes_readU8.length_eq hmajor
    have := takes_readU8.length_eq hminor
    have := takes_readU16.length_eq hflags
    have := takes_readU32.length_eq hcount
    have : kMagic.length = 8 := rfl
    omega
  let header : FileHeader :=
    { versionMajor := major, versionMinor := minor, flags, sectionCount := count }
  have hle : count.toNat ≤ limits.maxSections.toNat := UInt32.le_iff_toNat_le.mp (UInt32.not_lt.mp hlimit)
  refine ⟨{ header }, r5, count.toNat, rfl, hlen, hle, fun fileSize' => ?_⟩
  rw [decode, Machine.bind_read_of_ok hmagic, if_neg hm, Machine.bind_read_of_ok hmajor]
  simp only [Machine.modify, Machine.bind_modifyGet_apply, Machine.bind_read_of_ok hminor,
    Machine.bind_read_of_ok hflags, Machine.bind_read_of_ok hcount, if_neg hversion, if_neg hlimit]
  rfl

/-- The directory of a file is 16 bytes, and 16 for each of its sections, which are within the limit. -/
theorem decode_length {u : Unit} (h : Machine.Ok (decode fileSize limits) {} r u table r') :
    r.length = r'.length + 16 + 16 * table.entries.length ∧
      table.entries.length ≤ limits.maxSections.toNat := by
  obtain ⟨t0, r1, n, ht0, hlen, hle, hdecode⟩ := decode_split h
  rw [Machine.Ok, hdecode] at h
  obtain ⟨hrest, es, hes, hn⟩ := decodeEntries_length h
  rw [hes, ht0, List.nil_append, hn]
  exact ⟨by omega, hle⟩

/-- For another file size `decode` does the same, or finds a window outside. -/
theorem decode_resize (fileSize' : Nat) {u : Unit}
    (h : Machine.Ok (decode fileSize limits) table r u table' r') :
    Machine.Ok (decode fileSize' limits) table r () table' r' ∨
      ¬ (∀ e ∈ table'.entries, e.offset.toNat + e.length.toNat ≤ fileSize') ∧
        (decode fileSize' limits table r).1 = .error ⟨.badSectionTable, "section window out of range"⟩ := by
  obtain ⟨t0, r1, n, -, -, -, hdecode⟩ := decode_split h
  rw [Machine.Ok, hdecode] at h ⊢
  exact decodeEntries_resize h

/-! ## A beginning of a file -/

/-- A file of this size has the whole directory and every window. -/
def Covered (table : SectionTable) (fileSize : Nat) : Prop :=
  16 + 16 * table.entries.length ≤ fileSize ∧
    ∀ e ∈ table.entries, e.offset.toNat + e.length.toNat ≤ fileSize

instance (table : SectionTable) (fileSize : Nat) : Decidable (table.Covered fileSize) :=
  inferInstanceAs (Decidable (_ ∧ _))

/-- The errors that a file cut short causes. -/
def CutError (st : Status) : Prop := st.code = .truncated ∨ st.code = .badSectionTable

theorem streams_readEntry : Streams readEntry :=
  streams_readU32.bind fun _ => streams_readU8.bind fun _ => streams_readU8.bind fun _ =>
    streams_readU16.bind fun _ => streams_readU32.bind fun _ => streams_readU32.bind fun _ => .pure _

/-- The directory is read as a stream. -/
theorem decode_streams (fileSize : Nat) (limits : Limits) :
    Machine.Streams Status.IsTruncated (decode fileSize limits) := by
  have hread : ∀ {α : Type} {d : Reader α}, Streams d →
      Machine.Streams Status.IsTruncated (Machine.read id d : Machine Status SectionTable α) :=
    fun h => .read h fun _ he => he
  have hentries : ∀ n, Machine.Streams Status.IsTruncated (decodeEntries fileSize n) := by
    intro n
    induction n with
    | zero => exact .pure ()
    | succ n ih =>
      refine (hread streams_readEntry).bind fun e => .bind_get fun table => ?_
      exact .ite (.fail _) (.ite (.fail _) (.bind_modifyGet fun _ => ih))
  refine (hread (streams_readBytes _)).bind fun magic => .ite (.fail _) ?_
  refine (hread streams_readU8).bind fun major => .bind_modifyGet fun _ => ?_
  refine (hread streams_readU8).bind fun minor => .bind_modifyGet fun _ => ?_
  refine (hread streams_readU16).bind fun flags => .bind_modifyGet fun _ => ?_
  refine (hread streams_readU32).bind fun count => .bind_modifyGet fun _ => ?_
  exact .ite (.fail _) (.ite (.fail _) (.bind_modifyGet fun _ => hentries count.toNat))

/-- **The directory of a beginning of a file** is that of the file, when it covers the directory and the
windows, and is refused otherwise. -/
theorem decode_cut (h : Machine.Ok (decode (p ++ q).length limits) {} (p ++ q) () table r) :
    (table.Covered p.length ∧ ∃ c, r = c ++ q ∧ Machine.Ok (decode p.length limits) {} p () table c) ∨
      ¬ table.Covered p.length ∧
        ∃ st table', decode p.length limits {} p = (.error st, table') ∧ CutError st := by
  have hlen := (decode_length h).1
  rw [List.length_append] at hlen
  rcases decode_resize p.length h with hwhole | ⟨hfit, hwhole⟩
  · have hwindows := (accepted_of_decode hwhole).windows
    -- the windows are inside `p`: what is left is whether the directory is
    obtain ⟨bs, hsplit, hread⟩ := (decode_streams _ _).taken _ _ _ _ _ hwhole
    rcases append_eq_cut hsplit with ⟨c, hc, rfl⟩ | ⟨c, rfl, rfl⟩
    · obtain ⟨st, herr, hst⟩ := (decode_streams _ _).cut {} p c () table hc hread
      have hpos := List.length_pos_iff.mpr hc
      rw [List.append_assoc] at hsplit
      rw [List.append_cancel_left hsplit, List.length_append] at hlen
      exact .inr ⟨fun hcov => by have := hcov.1; omega, st, _, Prod.ext herr rfl, .inl hst⟩
    · have hrest : (c ++ q).length = c.length + q.length := List.length_append
      refine .inl ⟨⟨by omega, fun e he => ?_⟩, c, rfl, hread c⟩
      obtain ⟨ho, hl⟩ := hwindows e he
      omega
  · refine .inr ⟨fun hcov => hfit hcov.2, ?_⟩
    obtain ⟨st, herr, rfl | hst⟩ := (decode_streams p.length limits).refused {} p q _ hwhole
    · exact ⟨_, _, Prod.ext herr rfl, .inr rfl⟩
    · exact ⟨st, _, Prod.ext herr rfl, .inl hst⟩

end SectionTable

/-! ## Loading a beginning of a file -/

section Load

variable {growth : Growth} {ownerSlot : OwnerSlot} {options : LoadOptions} {p q r : Bytes}
  {table : SectionTable}

/-- The windows of a file are those of a beginning that covers them. -/
theorem SectionTable.Covered.sameSections (h : table.Covered p.length) :
    table.SameSections p table (p ++ q) := by
  intro tag _ bytes
  refine exists_congr fun e => and_congr_right fun he => and_congr_right fun _ => ?_
  have := h.2 e he
  rw [List.drop_append_of_le_length (by omega), List.take_append_of_le_length (by simp; omega)]

/-- A beginning that covers them loads like the whole. -/
theorem load_of_covered
    (h : SectionTable.decode (p ++ q).length options.limits {} (p ++ q) = (.ok ((), r), table))
    (hcov : table.Covered p.length) : SameOutcome LoadedContainer.SameContents
      (load growth ownerSlot options p) (load growth ownerSlot options (p ++ q)) := by
  rcases SectionTable.decode_cut h with ⟨-, c, -, hp⟩ | ⟨hnot, -⟩
  · rw [load_of_decode hp, load_of_decode h]
    exact loadSections_same hcov.sameSections (SectionTable.accepted_of_decode hp)
      (SectionTable.accepted_of_decode h)
  · exact absurd hcov hnot

/-- Any other beginning is refused at the directory. -/
theorem load_of_not_covered
    (h : SectionTable.decode (p ++ q).length options.limits {} (p ++ q) = (.ok ((), r), table))
    (hcov : ¬ table.Covered p.length) :
    ∃ st, load growth ownerSlot options p = .error (.status st) ∧ SectionTable.CutError st := by
  rcases SectionTable.decode_cut h with ⟨hyes, -⟩ | ⟨-, st, table', hp, hst⟩
  · exact absurd hyes hcov
  · refine ⟨st, ?_, hst⟩
    rw [load, Machine.finalState, hp]
    rfl

namespace ContainerBuilder

/-- Sections placed one after the other end with the last of them. -/
theorem exists_last {sections : List Built} (hne : sections ≠ []) (offset : Nat)
    (h : offset + (sections.flatMap Built.payload).length < 2 ^ 32) :
    ∃ e ∈ directory sections offset,
      e.offset.toNat + e.length.toNat = offset + (sections.flatMap Built.payload).length := by
  induction sections generalizing offset with
  | nil => exact absurd rfl hne
  | cons s sections ih =>
    rw [List.flatMap_cons, List.length_append] at h ⊢
    by_cases hlast : sections = []
    · subst hlast
      refine ⟨placed s offset, List.mem_cons_self, ?_⟩
      simp only [placed, List.flatMap_nil, List.length_nil] at h ⊢
      rw [toNat_ofNat_of_lt (by omega), toNat_ofNat_of_lt (by omega), Nat.add_zero]
    · obtain ⟨e, he, hend⟩ := ih hlast (offset + s.payload.length) (by omega)
      exact ⟨e, List.mem_cons_of_mem _ he, by omega⟩

/-- A built container has no byte after its last section. -/
theorem covered_serialize (b : ContainerBuilder) (h : b.serialize.length < 2 ^ 32) {n : Nat} :
    b.table.Covered n ↔ b.serialize.length ≤ n := by
  have hsections : b.sections ≠ [] := by simp [sections]
  have hlen : b.serialize.length =
      16 + 16 * b.sections.length + (b.sections.flatMap Built.payload).length := by
    have hheader : b.fileHeader.length = 16 := by simp [fileHeader, kMagic, u8, u16, length_u32]
    have hentries : (b.entries.flatMap entryBytes).length = 16 * b.sections.length := by
      rw [List.length_flatMap]
      simp [length_entryBytes, entries, length_directory, Nat.mul_comm]
    rw [serialize_eq, List.length_append, List.length_append, hheader, hentries, Nat.add_assoc]
  constructor
  · rintro ⟨-, hfit⟩
    obtain ⟨e, he, hend⟩ := exists_last hsections (16 + 16 * b.sections.length) (by omega)
    have := hfit e he
    omega
  · intro hle
    have hentries : b.table.entries.length = b.sections.length := length_directory _ _
    have hin := within_of_locates (b.locates_entries h)
    exact ⟨by omega, fun e he => Nat.le_trans (hin e he) hle⟩

end ContainerBuilder

/-- **A built container is whole or refused**: no proper beginning of it loads, and with bytes after it
it loads like itself. -/
theorem load_serialize_cut (growth : Growth) (ownerSlot : OwnerSlot) (options : LoadOptions)
    (b : ContainerBuilder) (hsections : b.sections.length ≤ options.limits.maxSections.toNat)
    (hsize : b.serialize.length < 2 ^ 32) :
    (∀ p q, b.serialize = p ++ q → q ≠ [] → ∃ st,
      load growth ownerSlot options p = .error (.status st) ∧ SectionTable.CutError st) ∧
    ∀ q, SameOutcome LoadedContainer.SameContents (load growth ownerSlot options b.serialize)
      (load growth ownerSlot options (b.serialize ++ q)) := by
  have hdecode : ∀ q, ∃ r, SectionTable.decode (b.serialize ++ q).length options.limits {}
      (b.serialize ++ q) = (.ok ((), r), b.table) := by
    intro q
    have hsplit : b.serialize ++ q = b.fileHeader ++ b.entries.flatMap ContainerBuilder.entryBytes ++
        (b.sections.flatMap ContainerBuilder.Built.payload ++ q) := by
      rw [ContainerBuilder.serialize_eq]
      simp only [List.append_assoc]
    have hread := b.reads_table hsections hsize {} (b.sections.flatMap ContainerBuilder.Built.payload ++ q)
    rw [← hsplit] at hread
    rcases SectionTable.decode_resize (b.serialize ++ q).length hread with h | ⟨hfit, -⟩
    · exact ⟨_, h⟩
    · refine absurd (fun e he => ?_) hfit
      rw [List.length_append]
      exact Nat.le_trans (((b.covered_serialize hsize).mpr (Nat.le_refl _)).2 e he) (Nat.le_add_right ..)
  refine ⟨fun p q hpq hq => ?_, fun q => ?_⟩
  · obtain ⟨r, hr⟩ := hdecode []
    rw [List.append_nil, hpq] at hr
    refine load_of_not_covered hr fun hcov => ?_
    have hle := (b.covered_serialize hsize).mp hcov
    rw [hpq, List.length_append] at hle
    have := List.length_pos_iff.mpr hq
    omega
  · obtain ⟨r, hr⟩ := hdecode q
    exact load_of_covered hr ((b.covered_serialize hsize).mpr (Nat.le_refl _))

theorem load_serialize_cut_small :
    (∀ p q, smallBuilder.serialize = p ++ q → q ≠ [] → ∃ st,
      load Growth.doubling .cached {} p = .error (.status st) ∧ SectionTable.CutError st) ∧
    ∀ q, SameOutcome LoadedContainer.SameContents (load Growth.doubling .cached {} smallBuilder.serialize)
      (load Growth.doubling .cached {} (smallBuilder.serialize ++ q)) :=
  load_serialize_cut Growth.doubling .cached {} smallBuilder (by decide) (by decide +kernel)

end Load

end Stratavm
