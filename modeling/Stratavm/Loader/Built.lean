import Stratavm.Builder.RoundTrip
import Stratavm.Loader.Steps
import Stratavm.ReplayVm.Perform

/-!
# Loading a built container

A builder program has a meaning of its own: its atoms and kinds, the heap that its last writes leave, and
on that heap the opcodes it emitted, performed in order. `load` computes it from the bytes of `serialize`.
A journal is read with the types that nodes have when an opcode is reached, so the opcodes have to agree
with those (`JournalTyped`), else the bytes of a value are read as something else.

* `run_journalOf_iff_performs`: the run over a typed journal is the performance of its opcodes.
* **`load_built_iff`**: a built container loads iff its opcodes can be performed to the end and its XREF
  entries name nodes of the table they leave, and what it loads as is `ContainerBuilder.loaded`.
-/

namespace Stratavm

open Lib Lib.Decoder

/-! ## The journal -/

section Journal

variable {env : Env} {vm vm' : ReplayVM} {ops : List Op} {r r' : Bytes}

/-- **The run over a typed journal** performs its opcodes. -/
theorem run_journalOf_iff_performs (hlen : ops.length ≤ env.limits.maxJournalOps.toNat)
    (htyped : ContainerBuilder.JournalTyped env vm ops)
    (hlists : ContainerBuilder.ListsFit env.limits ops) :
    (∃ r', Machine.Ok (run env) vm (journalOf ops) () vm' r') ↔
      Performs env ops vm vm' ∧ vm'.frames = [] := by
  constructor
  · rintro ⟨r', hrun⟩
    obtain ⟨hops, hframes⟩ := (run_journalOf hlen).mp hrun
    obtain ⟨ops', hlen', hrep⟩ := runOps_ok_iff.mp hops
    obtain ⟨rest, hsplit, -⟩ := ContainerBuilder.replays_emitted hrep htyped hlists hlen'.le
    have hrest : rest = [] := by
      have := congrArg List.length hsplit
      rw [List.length_append] at this
      exact List.length_eq_zero_iff.mp (by omega)
    rw [hrest, List.append_nil] at hsplit
    exact ⟨hsplit ▸ hrep.performs, hframes⟩
  · rintro ⟨h, hframes⟩
    exact ⟨[], run_of_performs h hlen hframes⟩

end Journal

/-! ## The XREF section -/

/-- An XREF entry names no node, or one of the table. -/
def XrefIndex.EntryInRange (nodeCount : Nat) (e : AtomId × NodeId) : Prop :=
  e.2 = kInvalidNode ∨ e.2.toNat < nodeCount

/-- The number of entries that disagree with the index. -/
def XrefIndex.disagreements (index : XrefIndex) (entries : List (AtomId × NodeId)) : UInt32 :=
  entries.foldl (fun w e => if index.byName e.1 ≠ e.2 then w + 1 else w) 0

/-- Entries that are accepted are in range. -/
theorem XrefIndex.entriesInRange_of_loop {index : XrefIndex} {atoms : AtomPool} {nodeCount : Nat}
    {entries : List (AtomId × NodeId)} {i : Nat} {w w' : UInt32} {t r' : Bytes}
    (h : loop (fun _ (warnings : UInt32) => do
      let e ← readPair
      if e.1 ≠ kInvalidAtom ∧ atoms.get e.1 = none then fail .badXref "xref name out of range"
      else if e.2 ≠ kInvalidNode ∧ e.2.toNat ≥ nodeCount then fail .badXref "xref node out of range"
      else pure (if index.byName e.1 ≠ e.2 then warnings + 1 else warnings)) i entries.length w
        (entries.flatMap ContainerBuilder.pairBytes ++ t) = .ok (w', r')) :
    ∀ e ∈ entries, XrefIndex.EntryInRange nodeCount e := by
  induction entries generalizing i w with
  | nil => exact fun e he => absurd he List.not_mem_nil
  | cons e entries ih =>
    rw [List.length_cons, loop, List.flatMap_cons, List.append_assoc] at h
    obtain ⟨w1, r1, hentry, hrest⟩ := bind_eq_ok.mp h
    rw [bind_of_ok (ContainerBuilder.reads_pair e _)] at hentry
    split at hentry
    · exact absurd hentry fail_ne_ok
    split at hentry
    · exact absurd hentry fail_ne_ok
    rename_i hrange
    obtain ⟨rfl, rfl⟩ := pure_eq_ok.mp hentry
    refine List.forall_mem_cons.mpr ⟨?_, ih hrest⟩
    by_cases hnode : e.2 = kInvalidNode
    · exact .inl hnode
    · exact .inr (Nat.lt_of_not_le fun hle => hrange ⟨hnode, hle⟩)

namespace ContainerBuilder

section Sections

variable {limits : Limits} {calls : List Call} {b : ContainerBuilder} {pool : AtomPool}

/-- **The XREF section** is accepted iff its entries are in range, with a warning for each entry that
disagrees with the index. -/
theorem reconcile_iff (h : b.InRange limits calls) (hpool : pool.atoms = b.atoms) (index : XrefIndex)
    (nodeCount : Nat) {w : UInt32} :
    (index.decodeAndReconcile pool limits nodeCount b.buildXrefSection).map Prod.fst = .ok w ↔
      (∀ e ∈ b.xref, XrefIndex.EntryInRange nodeCount e) ∧ w = index.disagreements b.xref := by
  constructor
  · intro hok
    obtain ⟨⟨w', r'⟩, hread, rfl⟩ := exists_of_map_eq_ok hok
    have hrange : ∀ e ∈ b.xref, XrefIndex.EntryInRange nodeCount e := by
      have hlt := Nat.lt_of_le_of_lt h.xrefCount limits.maxNodes.toNat_lt
      obtain ⟨hcount, hcount'⟩ := reads_count32 hlt
      have hloop := hread
      rw [XrefIndex.decodeAndReconcile, buildXrefSection, bind_of_ok (hcount _),
        if_neg (not_gt_of_le h.xrefCount), hcount', ← List.append_nil (b.xref.flatMap _)] at hloop
      exact XrefIndex.entriesInRange_of_loop hloop
    refine ⟨hrange, ?_⟩
    have hreads := (reads_xrefSection h hpool index hrange).run
    rw [hreads] at hread
    exact (Prod.mk.inj (Except.ok.inj hread)).1.symm
  · rintro ⟨hrange, rfl⟩
    rw [(reads_xrefSection h hpool index hrange).run]
    rfl

/-- The decoder of a section that is emitted runs on its payload. -/
theorem withSection_emitted {α : Type} (hsize : b.serialize.length < 2 ^ 32) {s : Built}
    (hs : s ∈ b.sections) (absent : α) (decode : Bytes → Except Fault α) :
    withSection b.serialize b.table s.tag absent decode = decode s.payload := by
  obtain ⟨e, hfind, -, -, hwindow⟩ := find_of_locates (b.locates_entries hsize) b.tags_nodup hs
  have hfound : b.table.find s.tag = some e := hfind
  simp only [withSection, hfound, sectionReader, hwindow]
  rfl

/-- The decoder of one that is not emitted does not run. -/
theorem withSection_omitted {α : Type} {tag : SectionTag} (htag : ∀ s ∈ b.sections, s.tag.raw ≠ tag.raw)
    (absent : α) (decode : Bytes → Except Fault α) :
    withSection b.serialize b.table tag absent decode = .ok absent := by
  have hfind : b.table.find tag = none := by
    refine List.find?_eq_none.mpr fun e he => ?_
    have hmem : e.tag ∈ b.entries.map SectionEntry.tag := List.mem_map_of_mem he
    rw [entries, tags_directory] at hmem
    obtain ⟨s, hs, hraw⟩ := List.mem_map.mp hmem
    rw [← hraw, beq_iff_eq]
    exact htag s hs
  rw [withSection, hfind]

end Sections

/-! ## The container -/

/-- The XREF section is not emitted, or its entries are in range. -/
def XrefInRange (b : ContainerBuilder) (nodeCount : Nat) : Prop :=
  b.emitXref = true → ∀ e ∈ b.xref, XrefIndex.EntryInRange nodeCount e

/-- What a builder means: the container that it loads as when its opcodes lead to `vm`. -/
def loaded (b : ContainerBuilder) (options : LoadOptions) (atoms : AtomPool) (vm : ReplayVM) :
    LoadedContainer where
  limits := options.limits
  atoms := atoms
  schema := { kinds := b.kinds }
  sections := b.table
  vm := vm
  xref := XrefIndex.build vm.nodes.data
  report := validateGraph vm.nodes.data atoms options.strictValidation { kinds := b.kinds }
  sectionMeta := if b.emitMeta then b.metaEntries.foldl (fun out e => out.insert e.1 e.2) ∅ else ∅
  xrefWarnings := if b.emitXref then (XrefIndex.build vm.nodes.data).disagreements b.xref else 0
  journalRan := true

section Load

variable {growth : Growth} {ownerSlot : OwnerSlot} {options : LoadOptions} {b : ContainerBuilder}

/-- The journal section is the journal of the emitted opcodes. -/
theorem Records.buildJournalSection_eq {calls : List Call} (h : Records calls b)
    (hlt : (emitted calls).length < 2 ^ 32) : b.buildJournalSection = journalOf (emitted calls) := by
  have hcount : (UInt32.ofNat (emitted calls).length).toUInt64 = UInt64.ofNat (emitted calls).length := by
    rw [← UInt64.toNat_inj, UInt32.toNat_toUInt64, toNat_ofNat_of_lt hlt, UInt64.toNat_ofNat',
      Nat.mod_eq_of_lt (by omega)]
  rw [buildJournalSection, journalOf, h.journalBody, h.journalOps, hcount]

/-- What the steps of `load` leave of a built container. -/
theorem load_serialize_iff {calls : List Call} (hr : b.InRange options.limits calls)
    (hsections : b.sections.length ≤ options.limits.maxSections.toNat) {pool : AtomPool}
    (hatoms : Machine.Reads (AtomPool.decode options.limits) {} b.buildAtomSection () pool)
    (hpool : pool.atoms = b.atoms) {image : HeapImage}
    (hheap : Decoder.Reads (decodeHeap growth { kinds := b.kinds } pool options.limits) b.buildHeapSection
      image) {lc : LoadedContainer} :
    load growth ownerSlot options b.serialize = .ok lc ↔ ∃ vm journalRan xrefWarnings sectionMeta,
      replayJournal options b.serialize
        { schema := { kinds := b.kinds }, atoms := pool, limits := options.limits, growth, ownerSlot }
        b.table (ReplayVM.seed {} image) = .ok (vm, journalRan) ∧
      withSection b.serialize b.table .xref 0 (fun r => orStatus
        (((XrefIndex.build vm.nodes.data).decodeAndReconcile pool options.limits vm.nodes.size r).map
          Prod.fst)) = .ok xrefWarnings ∧
      withSection b.serialize b.table .metadata ∅ (fun r => orStatus
        (Machine.finalState (decodeMetaSection pool options.limits) ∅ r)) = .ok sectionMeta ∧
      lc =
        { limits := options.limits
          atoms := pool
          schema := { kinds := b.kinds }
          sections := b.table
          vm
          xref := XrefIndex.build vm.nodes.data
          report := validateGraph vm.nodes.data pool options.strictValidation { kinds := b.kinds }
          sectionMeta
          xrefWarnings
          journalRan } := by
  have hdirectory := reads_table b hsections hr.size {} (b.sections.flatMap Built.payload)
  rw [List.append_assoc, ← serialize_eq] at hdirectory
  have hatom := withSection_emitted hr.size (s := ⟨.atom, b.buildAtomSection⟩) (by simp [sections])
    ({} : AtomPool) fun r => orStatus (Machine.finalState (AtomPool.decode options.limits) {} r)
  have hschema := withSection_emitted hr.size (s := ⟨.schema, b.buildSchemaSection⟩) (by simp [sections])
    ({} : Schema) fun r => orStatus ((Schema.decode pool options.limits r).map Prod.fst)
  have hseeded := withSection_emitted hr.size (s := ⟨.heap, b.buildHeapSection⟩) (by simp [sections])
    ({} : ReplayVM) fun r =>
      orStatus ((decodeHeap growth { kinds := b.kinds } pool options.limits r).map fun heap =>
        ReplayVM.seed {} heap.1)
  rw [Machine.finalState_eq_ok.mpr ⟨(), [], hatoms.run⟩] at hatom
  rw [(reads_schemaSection hr hpool).run] at hschema
  rw [hheap.run] at hseeded
  rw [load_of_decode hdirectory, loadSections_ok_iff]
  constructor
  · rintro ⟨atoms, schema, seeded, vm, journalRan, w, m, ha, hs, hh, hj, hx, hm, hlc⟩
    obtain rfl := Except.ok.inj (hatom.symm.trans ha)
    obtain rfl := Except.ok.inj (hschema.symm.trans hs)
    obtain rfl := Except.ok.inj (hseeded.symm.trans hh)
    exact ⟨vm, journalRan, w, m, hj, hx, hm, hlc⟩
  · rintro ⟨vm, journalRan, w, m, hj, hx, hm, hlc⟩
    exact ⟨pool, _, _, vm, journalRan, w, m, hatom, hschema, hseeded, hj, hx, hm, hlc⟩

/-- The journal of a built container. -/
theorem replayJournal_built (hsize : b.serialize.length < 2 ^ 32) (hrun : options.runJournal = true)
    {env : Env} {seeded vm : ReplayVM} {journalRan : Bool} :
    replayJournal options b.serialize env b.table seeded = .ok (vm, journalRan) ↔
      journalRan = true ∧ ∃ r, Machine.Ok (run env) seeded b.buildJournalSection () vm r := by
  exact replayJournal_ok_iff hrun
    (withSection_emitted hsize (s := ⟨.journal, b.buildJournalSection⟩) (by simp [sections]))

/-- The XREF section of a built container, emitted or not. -/
theorem withSection_xref {calls : List Call} (hr : b.InRange options.limits calls) {pool : AtomPool}
    (hpool : pool.atoms = b.atoms) (index : XrefIndex) (nodeCount : Nat) {w : UInt32} :
    withSection b.serialize b.table .xref 0 (fun r => orStatus
      ((index.decodeAndReconcile pool options.limits nodeCount r).map Prod.fst)) = .ok w ↔
      b.XrefInRange nodeCount ∧ w = if b.emitXref then index.disagreements b.xref else 0 := by
  cases hemit : b.emitXref with
  | true =>
    rw [withSection_emitted hr.size (s := ⟨.xref, b.buildXrefSection⟩) (by simp [sections, hemit]),
      orStatus_eq_ok, reconcile_iff hr hpool, XrefInRange, hemit]
    simp
  | false =>
    rw [withSection_omitted (by simp [sections, hemit, SectionTag.raw]), XrefInRange, hemit]
    simp [eq_comm]

/-- The META section of a built container, emitted or not. -/
theorem withSection_meta {calls : List Call} (hr : b.InRange options.limits calls) {pool : AtomPool}
    (hpool : pool.atoms = b.atoms) :
    withSection b.serialize b.table .metadata ∅ (fun r => orStatus
      (Machine.finalState (decodeMetaSection pool options.limits) ∅ r)) =
      .ok (if b.emitMeta then b.metaEntries.foldl (fun out e => out.insert e.1 e.2) ∅ else ∅) := by
  cases hemit : b.emitMeta with
  | true =>
    rw [withSection_emitted hr.size (s := ⟨.metadata, b.buildMetaSection⟩) (by simp [sections, hemit]),
      Machine.finalState_eq_ok.mpr ⟨(), [], (reads_metaSection hr hpool ∅).run⟩]
    rfl
  | false =>
    rw [withSection_omitted (by simp [sections, hemit, SectionTag.raw])]
    rfl

end Load

end ContainerBuilder

open ContainerBuilder

/-- **Loading a built container**: `load` performs the emitted opcodes on the heap that the program
describes, and it succeeds exactly when they can be performed, close their groups and leave a table with
the nodes that the XREF entries name. -/
theorem load_built_iff {calls : List Call} {b : ContainerBuilder} (hb : build calls = some b)
    (growth : Growth) (ownerSlot : OwnerSlot) (options : LoadOptions) (hr : b.InRange options.limits calls)
    (hsections : b.sections.length ≤ options.limits.maxSections.toNat) (hrun : options.runJournal = true) :
    ∃ (env : Env) (image : HeapImage), env.limits = options.limits ∧ env.growth = growth ∧
      env.ownerSlot = ownerSlot ∧ env.schema = { kinds := b.kinds } ∧ env.atoms.atoms = b.atoms ∧
      image.nodes.data = b.heap.mapIdx (heapNodeOf calls) ∧
      (JournalTyped env (ReplayVM.seed {} image) (emitted calls) → ∀ lc,
        load growth ownerSlot options b.serialize = .ok lc ↔ ∃ vm,
          Performs env (emitted calls) (ReplayVM.seed {} image) vm ∧ vm.frames = [] ∧
          b.XrefInRange vm.nodes.size ∧ lc = b.loaded options env.atoms vm) := by
  have hrec := records_build hb
  obtain ⟨pool, hatoms, hpool⟩ := reads_atomsSection hr
  obtain ⟨image, hheap, hnodes⟩ := reads_heapSection hr hrec hpool growth
  refine ⟨{ schema := { kinds := b.kinds }, atoms := pool, limits := options.limits, growth, ownerSlot },
    image, rfl, rfl, rfl, rfl, hpool, hnodes, fun htyped lc => ?_⟩
  have hlt := Nat.lt_of_le_of_lt hr.opCount options.limits.maxJournalOps.toNat_lt
  have hjournal := fun vm => @run_journalOf_iff_performs _ _ vm _ hr.opCount htyped hr.opList
  rw [load_serialize_iff hr hsections hatoms hpool hheap]
  simp only [replayJournal_built hr.size hrun, hrec.buildJournalSection_eq hlt, hjournal,
    withSection_xref hr hpool, withSection_meta hr hpool]
  constructor
  · rintro ⟨vm, journalRan, w, m, ⟨rfl, hperforms, hframes⟩, ⟨hxref, rfl⟩, hm, rfl⟩
    obtain rfl := Except.ok.inj hm
    exact ⟨vm, hperforms, hframes, hxref, rfl⟩
  · rintro ⟨vm, hperforms, hframes, hxref, rfl⟩
    exact ⟨vm, true, _, _, ⟨rfl, hperforms, hframes⟩, ⟨hxref, rfl⟩, rfl, rfl⟩

set_option maxRecDepth 8000 in
theorem load_built_iff_small :
    (∃ lc, load Growth.doubling .cached {} smallBuilder.serialize = .ok lc) ∧
    ∃ (env : Env) (image : HeapImage), env.limits = {} ∧ env.growth = Growth.doubling ∧
      env.ownerSlot = .cached ∧ env.schema = { kinds := smallBuilder.kinds } ∧
      env.atoms.atoms = smallBuilder.atoms ∧
      image.nodes.data = smallBuilder.heap.mapIdx (heapNodeOf smallProgram) ∧ ∀ lc,
        load Growth.doubling .cached {} smallBuilder.serialize = .ok lc ↔ ∃ vm,
          Performs env (emitted smallProgram) (ReplayVM.seed {} image) vm ∧ vm.frames = [] ∧
          smallBuilder.XrefInRange vm.nodes.size ∧ lc = smallBuilder.loaded {} env.atoms vm := by
  obtain ⟨env, image, hlimits, hgrowth, hslot, hschema, hatoms, hnodes, hload⟩ :=
    load_built_iff rfl Growth.doubling .cached {} smallProgram_inRange (by decide) rfl
  refine ⟨⟨_, rfl⟩, env, image, hlimits, hgrowth, hslot, hschema, hatoms, hnodes, hload ?_⟩
  exact smallProgram_typed (by rw [hschema]) _

end Stratavm
