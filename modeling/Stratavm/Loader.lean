import Stratavm.Section
import Stratavm.Validator
import Stratavm.XrefIndex

/-!
# The loader

`load` (`loader.hpp`, `loader.cpp`): the section directory, then one decoder per known section, each
on the window its directory entry points at, the journal replayed between the heap and the
cross-reference index. The vector's growth policy and the owner slot of the replay machine are
parameters, as they are there.

* `sectionReader_ok`: every entry of an accepted directory has a window.
* **`load_layout_independent`**: what `load` returns depends on the windows of the six known tags
  only.

Out of scope: reading a file from disk (the input is its bytes), and allocations that fail, here or
in the machine: a hint of 32 bits in a file of a few bytes can end `load` in an exception.
-/

namespace Stratavm

open Lib

/-- `LoadOptions`. -/
structure LoadOptions where
  limits : Limits := {}
  runJournal : Bool := true
  strictValidation : Bool := false

/-- `LoadedContainer`. -/
structure LoadedContainer where
  limits : Limits
  atoms : AtomPool
  schema : Schema
  sections : SectionTable
  vm : ReplayVM
  xref : XrefIndex
  report : ValidationReport
  sectionMeta : UMap AtomId AtomId
  xrefWarnings : UInt32
  journalRan : Bool

/-- `section_reader`: the bytes of the entry's window. -/
def sectionReader (data : Bytes) (e : SectionEntry) : Except Status Bytes :=
  window data e.offset.toNat e.length.toNat

/-- `STRATAVM_RETURN_IF_ERROR` of a status, inside `load`. -/
def orStatus {α : Type} (res : Except Status α) : Except Fault α := res.mapError .status

/-- `if (const SectionEntry* e = lc->sections.find(tag)) { ... }`: `decode` on the tag's window. -/
def withSection {α : Type} (data : Bytes) (sections : SectionTable) (tag : SectionTag) (absent : α)
    (decode : Bytes → Except Fault α) : Except Fault α :=
  match sections.find tag with
  | none => .ok absent
  | some e => do
    let r ← orStatus (sectionReader data e)
    decode r

section Load

variable (growth : Growth) (ownerSlot : OwnerSlot) (options : LoadOptions) (data : Bytes)

/-- Step 5 of `load`: the VM after the journal, and `journal_ran`. -/
def replayJournal (env : Env) (sections : SectionTable) (seeded : ReplayVM) :
    Except Fault (ReplayVM × Bool) :=
  if options.runJournal then
    withSection data sections .journal (seeded, false) fun r => do
      let vm ← Machine.finalState (run env) seeded r
      pure (vm, true)
  else pure (seeded, false)

/-- The steps of `load` after the section directory. -/
def loadSections (sections : SectionTable) : Except Fault LoadedContainer := do
  let limits := options.limits
  let atoms ← withSection data sections .atom {} fun r =>
    orStatus (Machine.finalState (AtomPool.decode limits) {} r)
  let schema ← withSection data sections .schema {} fun r =>
    orStatus ((Schema.decode atoms limits r).map Prod.fst)
  let seeded ← withSection data sections .heap ({} : ReplayVM) fun r =>
    orStatus ((decodeHeap growth schema atoms limits r).map fun heap => ReplayVM.seed {} heap.1)
  let (vm, journalRan) ← replayJournal options data { schema, atoms, limits, growth, ownerSlot }
    sections seeded
  let xref := XrefIndex.build vm.nodes.data
  let xrefWarnings ← withSection data sections .xref 0 fun r =>
    orStatus ((xref.decodeAndReconcile atoms limits vm.nodes.size r).map Prod.fst)
  let sectionMeta ← withSection data sections .metadata ∅ fun r =>
    orStatus (Machine.finalState (decodeMetaSection atoms limits) ∅ r)
  let report := validateGraph vm.nodes.data atoms options.strictValidation schema
  pure { limits, atoms, schema, sections, vm, xref, report, sectionMeta, xrefWarnings, journalRan }

/-- `load`. -/
def load : Except Fault LoadedContainer := do
  let sections ← orStatus (Machine.finalState (SectionTable.decode data.length options.limits) {} data)
  loadSections growth ownerSlot options data sections

end Load

/-! ## Windows -/

namespace SectionTable

variable {table table' : SectionTable} {data data' : Bytes}

/-- The directory has an entry for the tag, and these are the bytes of its window. -/
def Holds (table : SectionTable) (data : Bytes) (tag : SectionTag) (bytes : Bytes) : Prop :=
  ∃ e ∈ table.entries, e.tag = tag.raw ∧ (data.drop e.offset.toNat).take e.length.toNat = bytes

/-- **Every entry of an accepted directory has a window.** -/
theorem Accepted.sectionReader_ok (h : table.Accepted data.length) {e : SectionEntry}
    (he : e ∈ table.entries) :
    sectionReader data e = .ok ((data.drop e.offset.toNat).take e.length.toNat) := by
  obtain ⟨hoffset, hlength⟩ := h.windows e he
  rw [sectionReader, window, if_neg (by omega)]

/-- The decoder of a section runs on the tag's window, or not at all. -/
theorem Accepted.withSection_eq {α : Type} (h : table.Accepted data.length) {tag : SectionTag}
    (htag : tag ≠ .unknown) (absent : α) (decode : Bytes → Except Fault α) :
    (∃ bytes, table.Holds data tag bytes ∧ withSection data table tag absent decode = decode bytes) ∨
      (∀ bytes, ¬ table.Holds data tag bytes) ∧
        withSection data table tag absent decode = .ok absent := by
  unfold withSection
  cases hfind : table.find tag with
  | none =>
    refine .inr ⟨?_, rfl⟩
    rintro bytes ⟨e, he, hraw, -⟩
    rw [(h.find_eq_some_iff htag).mpr ⟨he, hraw⟩] at hfind
    cases hfind
  | some e =>
    obtain ⟨he, hraw⟩ := (h.find_eq_some_iff htag).mp hfind
    refine .inl ⟨_, ⟨e, he, hraw, rfl⟩, ?_⟩
    simp only [h.sectionReader_ok he]
    rfl

/-- A known tag has one window. -/
theorem Accepted.holds_unique (h : table.Accepted data.length) {tag : SectionTag}
    (htag : tag ≠ .unknown) {bytes bytes' : Bytes} (hb : table.Holds data tag bytes)
    (hb' : table.Holds data tag bytes') : bytes = bytes' := by
  obtain ⟨e, he, hraw, rfl⟩ := hb
  obtain ⟨e', he', hraw', rfl⟩ := hb'
  have hfind := (h.find_eq_some_iff htag).mpr ⟨he, hraw⟩
  rw [(h.find_eq_some_iff htag).mpr ⟨he', hraw'⟩, Option.some.injEq] at hfind
  rw [hfind]

/-- The two files have the same known sections, with the same bytes. -/
def SameSections (table : SectionTable) (data : Bytes) (table' : SectionTable) (data' : Bytes) :
    Prop :=
  ∀ tag ≠ .unknown, ∀ bytes, table.Holds data tag bytes ↔ table'.Holds data' tag bytes

/-- A decoder sees the same in both files. -/
theorem SameSections.withSection_eq {α : Type} (hsame : table.SameSections data table' data')
    (h : table.Accepted data.length) (h' : table'.Accepted data'.length) {tag : SectionTag}
    (htag : tag ≠ .unknown) (absent : α) (decode : Bytes → Except Fault α) :
    withSection data table tag absent decode = withSection data' table' tag absent decode := by
  rcases h.withSection_eq htag absent decode with ⟨bytes, hb, heq⟩ | ⟨hnone, heq⟩
  · rcases h'.withSection_eq htag absent decode with ⟨bytes', hb', heq'⟩ | ⟨hnone', -⟩
    · rw [heq, heq', h'.holds_unique htag hb' ((hsame tag htag bytes).mp hb)]
    · exact absurd ((hsame tag htag bytes).mp hb) (hnone' bytes)
  · rcases h'.withSection_eq htag absent decode with ⟨bytes', hb', -⟩ | ⟨-, heq'⟩
    · exact absurd ((hsame tag htag bytes').mpr hb') (hnone bytes')
    · rw [heq, heq']

end SectionTable

/-! ## Two files with the same sections -/

/-- Two containers equal in all but the directory they were read from. -/
structure LoadedContainer.SameContents (lc lc' : LoadedContainer) : Prop where
  limits : lc.limits = lc'.limits
  atoms : lc.atoms = lc'.atoms
  schema : lc.schema = lc'.schema
  vm : lc.vm = lc'.vm
  xref : lc.xref = lc'.xref
  report : lc.report = lc'.report
  sectionMeta : lc.sectionMeta = lc'.sectionMeta
  xrefWarnings : lc.xrefWarnings = lc'.xrefWarnings
  journalRan : lc.journalRan = lc'.journalRan

/-- The same error, or related values. -/
def SameOutcome {α : Type} (R : α → α → Prop) : Except Fault α → Except Fault α → Prop
  | .ok a, .ok b => R a b
  | .error e, .error e' => e = e'
  | _, _ => False

/-- A common first step leaves the outcomes to the rest. -/
theorem SameOutcome.bind {α β : Type} {R : β → β → Prop} {f g : α → Except Fault β}
    (res : Except Fault α) (h : ∀ a, SameOutcome R (f a) (g a)) :
    SameOutcome R (res >>= f) (res >>= g) := by
  cases res with
  | error e => exact rfl
  | ok a => exact h a

section Layout

variable {growth : Growth} {ownerSlot : OwnerSlot} {options : LoadOptions} {data data' : Bytes}
  {table table' : SectionTable}

/-- The steps after the directory do the same in both files. -/
theorem loadSections_same (hsame : table.SameSections data table' data')
    (h : table.Accepted data.length) (h' : table'.Accepted data'.length) :
    SameOutcome LoadedContainer.SameContents (loadSections growth ownerSlot options data table)
      (loadSections growth ownerSlot options data' table') := by
  have heq {α : Type} (tag : SectionTag) (htag : tag ≠ .unknown) (absent : α)
      (decode : Bytes → Except Fault α) := hsame.withSection_eq h h' htag absent decode
  have hreplay (env : Env) (seeded : ReplayVM) : replayJournal options data env table seeded =
      replayJournal options data' env table' seeded := by
    unfold replayJournal
    rw [heq .journal (by decide)]
  unfold loadSections
  simp only [heq .atom (by decide), heq .schema (by decide), heq .heap (by decide),
    heq .xref (by decide), heq .metadata (by decide), hreplay]
  refine .bind _ fun atoms => .bind _ fun schema => .bind _ fun seeded => ?_
  refine .bind _ fun (vm, journalRan) => .bind _ fun xrefWarnings => .bind _ fun sectionMeta => ?_
  exact ⟨rfl, rfl, rfl, rfl, rfl, rfl, rfl, rfl, rfl⟩

/-- **Loading depends on the sections, not on where they are.** -/
theorem load_layout_independent {r r' : Bytes}
    (h : SectionTable.decode data.length options.limits {} data = (.ok ((), r), table))
    (h' : SectionTable.decode data'.length options.limits {} data' = (.ok ((), r'), table'))
    (hsame : table.SameSections data table' data') :
    SameOutcome LoadedContainer.SameContents (load growth ownerSlot options data)
        (load growth ownerSlot options data') ∧
      (∀ e ∈ table.entries, ∃ bytes, sectionReader data e = .ok bytes) ∧
      ∀ e ∈ table'.entries, ∃ bytes, sectionReader data' e = .ok bytes := by
  have hacc := SectionTable.accepted_of_decode h
  have hacc' := SectionTable.accepted_of_decode h'
  refine ⟨?_, fun e he => ⟨_, hacc.sectionReader_ok he⟩, fun e he => ⟨_, hacc'.sectionReader_ok he⟩⟩
  have hload : load growth ownerSlot options data =
      loadSections growth ownerSlot options data table := by
    simp only [load, Machine.finalState_eq_ok.mpr ⟨(), r, h⟩]
    rfl
  have hload' : load growth ownerSlot options data' =
      loadSections growth ownerSlot options data' table' := by
    simp only [load, Machine.finalState_eq_ok.mpr ⟨(), r', h'⟩]
    rfl
  rw [hload, hload']
  exact loadSections_same hsame hacc hacc'

/-- A container with an empty ATOM section, after a gap. -/
def emptyPool (gap : Bytes) : Bytes :=
  kMagic ++ [1, 0, 0, 0, 1, 0, 0, 0] ++ [0x41, 0x54, 0x4F, 0x4D, 0, 0, 0, 0] ++
    [32 + UInt8.ofNat gap.length, 0, 0, 0, 1, 0, 0, 0] ++ gap ++ [0]

/-- A file with nodes and a journal, and its directory: four sections one after the other. -/
def inOrder : Bytes :=
  kMagic ++ [1, 0, 0, 0, 4, 0, 0, 0] ++
    [0x41, 0x54, 0x4F, 0x4D, 0, 0, 0, 0, 80, 0, 0, 0, 3, 0, 0, 0] ++
    [0x53, 0x43, 0x4D, 0x41, 0, 0, 0, 0, 83, 0, 0, 0, 6, 0, 0, 0] ++
    [0x48, 0x45, 0x41, 0x50, 0, 0, 0, 0, 89, 0, 0, 0, 5, 0, 0, 0] ++
    [0x4A, 0x52, 0x4E, 0x4C, 0, 0, 0, 0, 94, 0, 0, 0, 5, 0, 0, 0] ++
    ([1, 1, 0x61] ++ [1, 0, 1, 0, 3, 1] ++ [1, 0, 0, 0, 0] ++ [1, 6, 0, 0, 0])

def inOrderTable : SectionTable where
  header := { versionMajor := 1, sectionCount := 4 }
  entries := [
    { tag := 0x4D4F5441, offset := 80, length := 3 }, { tag := 0x414D4353, offset := 83, length := 6 },
    { tag := 0x50414548, offset := 89, length := 5 }, { tag := 0x4C4E524A, offset := 94, length := 5 }]

/-- The same sections in another order, behind a gap. -/
def shuffled : Bytes :=
  kMagic ++ [1, 0, 0, 0, 4, 0, 0, 0] ++
    [0x4A, 0x52, 0x4E, 0x4C, 0, 0, 0, 0, 86, 0, 0, 0, 5, 0, 0, 0] ++
    [0x41, 0x54, 0x4F, 0x4D, 0, 0, 0, 0, 91, 0, 0, 0, 3, 0, 0, 0] ++
    [0x48, 0x45, 0x41, 0x50, 0, 0, 0, 0, 81, 0, 0, 0, 5, 0, 0, 0] ++
    [0x53, 0x43, 0x4D, 0x41, 0, 0, 0, 0, 94, 0, 0, 0, 6, 0, 0, 0] ++
    ([7] ++ [1, 0, 0, 0, 0] ++ [1, 6, 0, 0, 0] ++ [1, 1, 0x61] ++ [1, 0, 1, 0, 3, 1])

def shuffledTable : SectionTable where
  header := { versionMajor := 1, sectionCount := 4 }
  entries := [
    { tag := 0x4C4E524A, offset := 86, length := 5 }, { tag := 0x4D4F5441, offset := 91, length := 3 },
    { tag := 0x50414548, offset := 81, length := 5 }, { tag := 0x414D4353, offset := 94, length := 6 }]

theorem load_layout_independent_shuffled :
    (∃ lc, load Growth.doubling .cached {} inOrder = .ok lc ∧ lc.vm.nodes.size = 1 ∧ lc.journalRan = true) ∧
    SameOutcome LoadedContainer.SameContents
        (load Growth.doubling .cached {} inOrder) (load Growth.doubling .cached {} shuffled) ∧
      (∀ e ∈ inOrderTable.entries, ∃ bytes, sectionReader inOrder e = .ok bytes) ∧
      ∀ e ∈ shuffledTable.entries, ∃ bytes, sectionReader shuffled e = .ok bytes := by
  have hsame : inOrderTable.SameSections inOrder shuffledTable shuffled := by
    intro tag htag bytes
    cases tag with
    | unknown => exact absurd rfl htag
    | _ => simp [SectionTable.Holds, SectionTag.raw, inOrderTable, shuffledTable, inOrder, shuffled, kMagic]
  exact ⟨⟨_, rfl, rfl, rfl⟩, load_layout_independent rfl rfl hsame⟩

end Layout

end Stratavm
