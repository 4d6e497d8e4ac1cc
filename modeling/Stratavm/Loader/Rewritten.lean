import Stratavm.Loader.Reread

/-!
# Every file has a normal form

What `load` accepts need not have been written by `ContainerBuilder`: sections in any order, windows that
overlap, varints with zero groups, a header of any flags. But the builder can write all of it. A loaded
container is made of the items that its decoders read, and a program with a call for each of them builds a
file that loads as the same container; the texts of the pool have to be distinct, since a builder interns
them.

* **`load_rewritten`**: a file that loads has a built normal form iff its pool repeats no text.
-/

namespace Stratavm

open Lib Lib.Decoder ContainerBuilder

/-! ## What each step of `load` read -/

/-- The bytes that the directory gives to a tag. -/
def SectionTable.windowLength (table : SectionTable) (tag : SectionTag) : Nat :=
  ((table.find tag).map fun e => e.length.toNat).getD 0

section Read

variable {data : Bytes} {table : SectionTable} {limits : Limits} {atoms : AtomPool} {schema : Schema}

/-- A section that is not there, or the bytes of its window. -/
theorem withSection_ok {α : Type} {tag : SectionTag} {absent a : α} {decode : Bytes → Except Fault α}
    (h : withSection data table tag absent decode = .ok a) : a = absent ∨
      ∃ bytes, bytes.length ≤ table.windowLength tag ∧ decode bytes = .ok a := by
  unfold withSection at h
  unfold SectionTable.windowLength
  cases hfind : table.find tag with
  | none =>
    rw [hfind] at h
    exact .inl (Except.ok.inj h).symm
  | some e =>
    rw [hfind] at h
    obtain ⟨bytes, hbytes, hdecode⟩ := bind_eq_ok_iff.mp h
    have hwindow := orStatus_eq_ok.mp hbytes
    rw [sectionReader, window] at hwindow
    split at hwindow
    · cases hwindow
    · obtain rfl := Except.ok.inj hwindow
      exact .inr ⟨_, List.length_take_le _ _, hdecode⟩

/-- The pool. -/
theorem atoms_read (h : withSection data table .atom {} (fun r =>
      orStatus (Machine.finalState (AtomPool.decode limits) {} r)) = .ok atoms) :
    atoms.Indexed ∧ atoms.atoms.length ≤ limits.maxAtoms.toNat ∧ atoms.Within limits ∧
      (counted lpString atoms.atoms).length ≤ table.windowLength .atom + 1 := by
  rcases withSection_ok h with rfl | ⟨bytes, hlen, hdecode⟩
  · exact ⟨.empty, Nat.zero_le _, nofun, Nat.le_add_left 1 _⟩
  · obtain ⟨_, r, hok⟩ := Machine.finalState_eq_ok.mp (orStatus_eq_ok.mp hdecode)
    obtain ⟨hcount, hwithin⟩ := AtomPool.decode_bounded hok
    have := decode_consumes hok
    exact ⟨AtomPool.decode_indexed hok, hcount, hwithin, by omega⟩

/-- The kinds. -/
theorem schema_read (h : withSection data table .schema {} (fun r =>
      orStatus ((Schema.decode atoms limits r).map Prod.fst)) = .ok schema) :
    schema.kinds.length ≤ limits.maxKinds.toNat ∧ (∀ k ∈ schema.kinds, KindRead limits atoms k) ∧
      (counted kindBytes schema.kinds).length ≤ table.windowLength .schema + 1 := by
  rcases withSection_ok h with rfl | ⟨bytes, hlen, hdecode⟩
  · exact ⟨Nat.zero_le _, nofun, Nat.le_add_left 1 _⟩
  · obtain ⟨⟨s, r⟩, hok, rfl⟩ := exists_of_map_eq_ok (orStatus_eq_ok.mp hdecode)
    obtain ⟨n, hn, hcount, hkinds, hcost⟩ := consumes_schema bytes s r hok
    exact ⟨hcount, hkinds, show (counted kindBytes s.kinds).length ≤ _ by omega⟩

/-- The initial nodes. -/
theorem heap_read {growth : Growth} {seeded : ReplayVM} (h : withSection data table .heap ({} : ReplayVM)
      (fun r => orStatus ((decodeHeap growth schema atoms limits r).map fun heap =>
        ReplayVM.seed {} heap.1)) = .ok seeded) :
    ∃ parts : List HeapNodeSets, seeded = ReplayVM.seed {} ⟨pushAll growth (parts.mapIdx HeapNodeSets.node)⟩ ∧
      parts.length ≤ limits.maxNodes.toNat ∧ (∀ part ∈ parts, HeapNodeRead limits schema atoms part) ∧
      (heapPayload parts).length ≤ table.windowLength .heap + 1 := by
  rcases withSection_ok h with rfl | ⟨bytes, hlen, hdecode⟩
  · exact ⟨[], rfl, Nat.zero_le _, nofun, Nat.le_add_left 1 _⟩
  · obtain ⟨⟨image, r⟩, hok, rfl⟩ := exists_of_map_eq_ok (orStatus_eq_ok.mp hdecode)
    obtain ⟨n, hn, parts, himage, hcount, hparts, hcost⟩ := consumes_heap growth bytes image r hok
    exact ⟨parts, by rw [← himage], hcount, hparts, by omega⟩

/-- The opcodes that are executed. None are, if the journal is not run. -/
theorem journal_read {options : LoadOptions} {env : Env} {seeded vm : ReplayVM} {ran : Bool}
    (h : replayJournal options data env table seeded = .ok (vm, ran)) (hframes : seeded.frames = []) :
    ∃ ops, Performs env ops seeded vm ∧ vm.frames = [] ∧ ops.length ≤ env.limits.maxJournalOps.toNat ∧
      (journalOf ops).length ≤ table.windowLength .journal + 1 ∧ (options.runJournal = false → vm = seeded) := by
  unfold replayJournal at h
  split at h
  · rename_i hrun
    rcases withSection_ok h with heq | ⟨bytes, hlen, hdecode⟩
    · obtain ⟨rfl, -⟩ := Prod.mk.inj heq
      exact ⟨[], .nil, hframes, Nat.zero_le _, Nat.le_add_left 1 _, fun _ => rfl⟩
    · obtain ⟨vm', hfinal, heq⟩ := bind_eq_ok_iff.mp hdecode
      obtain ⟨rfl, -⟩ := Prod.mk.inj (Except.ok.inj heq)
      obtain ⟨_, r, hok⟩ := Machine.finalState_eq_ok.mp hfinal
      obtain ⟨ops, hperforms, hclosed, hcount, hcost⟩ := performs_of_run hok
      exact ⟨ops, hperforms, hclosed, hcount, by omega, fun hoff => absurd (hoff.symm.trans hrun) nofun⟩
  · obtain ⟨rfl, -⟩ := Prod.mk.inj (Except.ok.inj h)
    exact ⟨[], .nil, hframes, Nat.zero_le _, Nat.le_add_left 1 _, fun _ => rfl⟩

/-- The XREF entries, if there is a section. -/
theorem xref_read {index : XrefIndex} {nodeCount : Nat} {w : UInt32}
    (h : withSection data table .xref 0 (fun r => orStatus
      ((index.decodeAndReconcile atoms limits nodeCount r).map Prod.fst)) = .ok w) :
    ∃ entries : Option (List (AtomId × NodeId)),
      w = (if entries.isSome then index.disagreements (entries.getD []) else 0) ∧
      (entries.getD []).length ≤ limits.maxNodes.toNat ∧
      (∀ e ∈ entries.getD [], (e.1 = kInvalidAtom ∨ atoms.get e.1 ≠ none) ∧ XrefIndex.EntryInRange nodeCount e) ∧
      (counted pairBytes (entries.getD [])).length ≤ table.windowLength .xref + 1 := by
  rcases withSection_ok h with rfl | ⟨bytes, hlen, hdecode⟩
  · exact ⟨none, rfl, Nat.zero_le _, nofun, Nat.le_add_left 1 _⟩
  · obtain ⟨⟨w, r⟩, hok, rfl⟩ := exists_of_map_eq_ok (orStatus_eq_ok.mp hdecode)
    obtain ⟨n, hn, entries, hw, hcount, hall, hcost⟩ := consumes_xref index nodeCount bytes w r hok
    exact ⟨some entries, hw, hcount, hall, by rw [Option.getD_some]; omega⟩

/-- The META entries, if there is a section. -/
theorem meta_read {out : UMap AtomId AtomId} (h : withSection data table .metadata ∅ (fun r =>
      orStatus (Machine.finalState (decodeMetaSection atoms limits) ∅ r)) = .ok out) :
    ∃ entries : Option (List (AtomId × AtomId)),
      out = (if entries.isSome then (entries.getD []).foldl (fun out e => out.insert e.1 e.2) ∅ else ∅) ∧
      (entries.getD []).length ≤ limits.maxAtoms.toNat ∧
      (∀ e ∈ entries.getD [], atoms.get e.1 ≠ none ∧ (e.2 = kInvalidAtom ∨ atoms.get e.2 ≠ none)) ∧
      (counted pairBytes (entries.getD [])).length ≤ table.windowLength .metadata + 1 := by
  rcases withSection_ok h with rfl | ⟨bytes, hlen, hdecode⟩
  · exact ⟨none, rfl, Nat.zero_le _, nofun, Nat.le_add_left 1 _⟩
  · obtain ⟨_, r, hok⟩ := Machine.finalState_eq_ok.mp (orStatus_eq_ok.mp hdecode)
    obtain ⟨entries, hout, hcount, hall, hcost⟩ := decodeMetaSection_consumes hok
    exact ⟨some entries, hout, hcount, hall, by rw [Option.getD_some]; omega⟩

end Read

/-! ## The contents -/

/-- The contents passed the checks of their decoders. -/
structure ContainerBuilder.Contents.Read (c : Contents) (limits : Limits) (pool : AtomPool) : Prop where
  atoms : c.atoms = pool.atoms
  atomCount : c.atoms.length ≤ limits.maxAtoms.toNat
  atomLen : ∀ s ∈ c.atoms, s.length ≤ limits.maxAtomLen.toNat
  kindCount : c.kinds.length ≤ limits.maxKinds.toNat
  kinds : ∀ k ∈ c.kinds, KindRead limits pool k
  heapCount : c.heap.length ≤ limits.maxNodes.toNat
  heap : ∀ n ∈ c.heap, HeapNodeRead limits { kinds := c.kinds } pool n
  opCount : c.ops.length ≤ limits.maxJournalOps.toNat
  ops : ∀ node field v, .setField node field v ∈ c.ops → v.Fits limits
  xrefCount : (c.xref.getD []).length ≤ limits.maxNodes.toNat
  xrefName : ∀ e ∈ c.xref.getD [], e.1 = kInvalidAtom ∨ pool.get e.1 ≠ none
  metaCount : (c.metaEntries.getD []).length ≤ limits.maxAtoms.toNat
  metaEntries : ∀ e ∈ c.metaEntries.getD [], pool.get e.1 ≠ none ∧ (e.2 = kInvalidAtom ∨ pool.get e.2 ≠ none)

/-- The payloads that are written for the contents. -/
def ContainerBuilder.Contents.payloads (c : Contents) : List Bytes :=
  [counted lpString c.atoms, counted kindBytes c.kinds, heapPayload c.heap, journalOf c.ops,
    counted pairBytes (c.xref.getD []), counted pairBytes (c.metaEntries.getD [])]

/-- The known tags. -/
def knownTags : List SectionTag := [.atom, .schema, .heap, .journal, .xref, .metadata]

/-- `load` makes `lc` of the contents. -/
structure ContainerBuilder.Contents.LoadsAs (c : Contents) (growth : Growth) (ownerSlot : OwnerSlot)
    (options : LoadOptions) (lc : LoadedContainer) : Prop where
  read : c.Read options.limits lc.atoms
  indexed : lc.atoms.Indexed
  schema : lc.schema = { kinds := c.kinds }
  performs : Performs { schema := lc.schema, atoms := lc.atoms, limits := options.limits, growth, ownerSlot }
    c.ops (ReplayVM.seed {} ⟨pushAll growth (c.heap.mapIdx HeapNodeSets.node)⟩) lc.vm
  frames : lc.vm.frames = []
  notRun : options.runJournal = false →
    lc.vm = ReplayVM.seed {} ⟨pushAll growth (c.heap.mapIdx HeapNodeSets.node)⟩
  xrefNode : ∀ e ∈ c.xref.getD [], XrefIndex.EntryInRange lc.vm.nodes.size e
  eq : lc =
    { limits := options.limits
      atoms := lc.atoms
      schema := lc.schema
      sections := lc.sections
      vm := lc.vm
      xref := XrefIndex.build lc.vm.nodes.data
      report := validateGraph lc.vm.nodes.data lc.atoms options.strictValidation lc.schema
      sectionMeta := if c.metaEntries.isSome then
        (c.metaEntries.getD []).foldl (fun out e => out.insert e.1 e.2) ∅ else ∅
      xrefWarnings := if c.xref.isSome then
        (XrefIndex.build lc.vm.nodes.data).disagreements (c.xref.getD []) else 0
      journalRan := lc.journalRan }

section Contents

variable {growth : Growth} {ownerSlot : OwnerSlot} {options : LoadOptions} {data : Bytes}
  {lc : LoadedContainer} {c : Contents} {b : ContainerBuilder}

/-- **What loads is made of contents**, which are written in no more bytes than they were read from, but
for a count of nothing in each section that is not there. -/
theorem exists_contents (h : load growth ownerSlot options data = .ok lc) :
    ∃ c : Contents, c.LoadsAs growth ownerSlot options lc ∧
      (c.payloads.map List.length).sum ≤ (knownTags.map lc.sections.windowLength).sum + 6 := by
  obtain ⟨r, table, -, hload⟩ := decode_of_load h
  obtain ⟨atoms, schema, seeded, vm, ran, w, out, ha, hs, hh, hj, hx, hm, rfl⟩ := loadSections_ok_iff.mp hload
  obtain ⟨hindexed, hatomCount, hatomLen, hatomCost⟩ := atoms_read ha
  obtain ⟨hkindCount, hkinds, hkindCost⟩ := schema_read hs
  obtain ⟨parts, rfl, hheapCount, hheap, hheapCost⟩ := heap_read hh
  obtain ⟨ops, hperforms, hframes, hopCount, hopCost, hnotRun⟩ := journal_read hj rfl
  obtain ⟨xref, rfl, hxrefCount, hxref, hxrefCost⟩ := xref_read hx
  obtain ⟨entries, rfl, hmetaCount, hmeta, hmetaCost⟩ := meta_read hm
  refine ⟨{ atoms := atoms.atoms, kinds := schema.kinds, heap := parts, ops, xref, metaEntries := entries },
    ⟨?_, hindexed, rfl, hperforms, hframes, hnotRun, fun e he => (hxref e he).2, rfl⟩, ?_⟩
  · exact ⟨rfl, hatomCount, hatomLen, hkindCount, hkinds, hheapCount, hheap, hopCount, hperforms.fits,
      hxrefCount, fun e he => (hxref e he).1, hmetaCount, hmeta⟩
  · simp only [Contents.payloads, knownTags, List.map_cons, List.map_nil, List.sum_cons, List.sum_nil]
    omega

namespace ContainerBuilder.Contents.Read

variable {limits : Limits} {pool : AtomPool}

theorem callable (h : c.Read limits pool) : c.Callable := by
  refine ⟨?_, fun n hn s hs => ?_, fun node field v hm => (h.ops node field v hm).1⟩
  · have := h.heapCount
    have := limits.maxNodes.toNat_lt
    omega
  · obtain ⟨k, hk, -, hsets⟩ := (h.heap n hn).kind
    obtain ⟨fd, hfd, htype, -⟩ := hsets s hs
    rw [htype]
    exact ((h.kinds k (Schema.kind_eq_some_mem hk)).fields fd (List.mem_of_getElem? hfd)).2

/-- A name of the pool is one of the builder. -/
theorem lt_of_get (h : c.Read limits pool) (hb : c.HeldBy b) {name : AtomId} (hget : pool.get name ≠ none) :
    name.toNat < b.atoms.length := by
  rw [hb.atoms, h.atoms]
  by_contra hle
  exact hget (List.getElem?_eq_none (Nat.le_of_not_lt hle))

/-- **A builder that holds what was read is in range.** -/
theorem inRange (h : c.Read limits pool) (hb : c.HeldBy b) (hsize : b.serialize.length < 2 ^ 32) :
    b.InRange limits c.program where
  atomCount := hb.atoms ▸ h.atomCount
  atomLen := hb.atoms ▸ h.atomLen
  kindCount := hb.kinds ▸ h.kindCount
  kindName k hk := h.lt_of_get hb (h.kinds k (hb.kinds ▸ hk)).name
  fieldCount k hk := (h.kinds k (hb.kinds ▸ hk)).count
  field k hk f hf :=
    have hread := (h.kinds k (hb.kinds ▸ hk)).fields f hf
    ⟨h.lt_of_get hb hread.1, hread.2⟩
  nodeCount := by rw [hb.heap, List.length_map]; exact h.heapCount
  nodeName n hn := by
    rw [hb.heap] at hn
    obtain ⟨part, hpart, rfl⟩ := List.mem_map.mp hn
    exact (h.heap part hpart).name.imp_right (h.lt_of_get hb)
  node i n hn := by
    rw [hb.heap, List.getElem?_map] at hn
    obtain ⟨part, hpart, rfl⟩ := Option.map_eq_some_iff.mp hn
    obtain ⟨k, hk, hlen, hsets⟩ := (h.heap part (List.mem_of_getElem? hpart)).kind
    refine ⟨k, ?_, ?_, ?_⟩
    · rw [hb.kinds]
      exact hk
    · rw [HeapNodeSets.spec, List.length_map]
      exact hlen
    · rw [recorded_program h.callable, hpart]
      exact hsets
  opCount := by rw [emitted_program h.callable]; exact h.opCount
  opList node field v hm := by
    rw [emitted_program h.callable] at hm
    exact (h.ops node field v hm).2
  xrefCount := hb.xref ▸ h.xrefCount
  xrefName e he := (h.xrefName e (hb.xref ▸ he)).imp_right (h.lt_of_get hb)
  metaCount := hb.metaEntries ▸ h.metaCount
  metaKey e he := h.lt_of_get hb (h.metaEntries e (hb.metaEntries ▸ he)).1
  metaValue e he := (h.metaEntries e (hb.metaEntries ▸ he)).2.imp_right (h.lt_of_get hb)
  size := hsize

end ContainerBuilder.Contents.Read

/-! ## The normal form -/

theorem length_entries (es : List SectionEntry) : (es.flatMap entryBytes).length = 16 * es.length := by
  induction es with
  | nil => rfl
  | cons e es ih =>
    rw [List.flatMap_cons, List.length_append, ih, length_entryBytes, List.length_cons]
    omega

/-- The journal section of a program is the journal of its opcodes. -/
theorem buildJournalSection_eq {limits : Limits} {pool : AtomPool} (h : c.Read limits pool)
    (hbuild : build c.program = some b) : b.buildJournalSection = journalOf c.ops := by
  have hlt := Nat.lt_of_le_of_lt h.opCount limits.maxJournalOps.toNat_lt
  have hops := emitted_program h.callable
  rw [(records_build hbuild).buildJournalSection_eq (hops ▸ hlt), hops]

/-- What is built takes at most the directory of six sections and the payloads. -/
theorem length_serialize_le (hb : c.HeldBy b) (hjournal : b.buildJournalSection = journalOf c.ops) :
    b.serialize.length ≤ 112 + (c.payloads.map List.length).sum := by
  have hheader : b.fileHeader.length = 16 := by simp [fileHeader, kMagic, u8, u16, length_u32]
  have hentries : (b.entries.flatMap entryBytes).length ≤ 96 := by
    rw [length_entries, entries, length_directory]
    have := b.length_sections_le
    omega
  have hatoms : b.buildAtomSection = counted lpString c.atoms := by rw [buildAtomSection, hb.atoms]; rfl
  have hkinds : b.buildSchemaSection = counted kindBytes c.kinds := by rw [buildSchemaSection, hb.kinds]; rfl
  have hheap : b.buildHeapSection = heapPayload c.heap := by
    rw [buildHeapSection, hb.heap, List.length_map]
    rfl
  have hxref : b.buildXrefSection = counted pairBytes (c.xref.getD []) := by rw [buildXrefSection, hb.xref]; rfl
  have hmeta : b.buildMetaSection = counted pairBytes (c.metaEntries.getD []) := by
    rw [buildMetaSection, hb.metaEntries]
    rfl
  have hpayloads : (b.sections.flatMap Built.payload).length ≤ (c.payloads.map List.length).sum := by
    unfold sections Contents.payloads
    rw [hatoms, hkinds, hheap, hjournal, hxref, hmeta]
    cases b.emitXref <;> cases b.emitMeta <;> simp
  rw [serialize_eq, List.length_append, List.length_append, hheader]
  omega

theorem data_pushAll (g : Growth) (nodes : List Node) : (pushAll g nodes).data = nodes := by
  have h := data_foldl_pushBack g id nodes (Vec.empty.reserve g nodes.length)
  simpa [pushAll] using h

/-- **What is built of the contents loads as they do.** -/
theorem load_held (h : c.LoadsAs growth ownerSlot options lc) (hbuild : build c.program = some b)
    (hb : c.HeldBy b) (hsize : b.serialize.length < 2 ^ 32)
    (hsections : b.sections.length ≤ options.limits.maxSections.toNat) :
    ∃ lc', load growth ownerSlot options b.serialize = .ok lc' ∧
      lc'.SameContents { lc with journalRan := options.runJournal } := by
  have hr := h.read.inRange hb hsize
  have hschema : ({ kinds := b.kinds } : Schema) = lc.schema := by rw [hb.kinds, h.schema]
  obtain ⟨pool, hatoms, hpool⟩ := reads_atomsSection hr
  obtain rfl : pool = lc.atoms :=
    (AtomPool.decode_indexed hatoms.run).eq h.indexed (by rw [hpool, hb.atoms, h.read.atoms])
  obtain ⟨image, hheap, hnodes⟩ := reads_heapSection hr (records_build hbuild) hpool growth
  have himage : image = ⟨pushAll growth (c.heap.mapIdx HeapNodeSets.node)⟩ := by
    obtain ⟨n, -, parts, hparts, -⟩ := consumes_heap growth _ image _ hheap.run
    have hdata : image.nodes.data = parts.mapIdx HeapNodeSets.node := by rw [hparts, data_pushAll]
    have hspec : b.heap.mapIdx (heapNodeOf c.program) = c.heap.mapIdx HeapNodeSets.node := by
      refine List.ext_getElem? fun i => ?_
      rw [List.getElem?_mapIdx, List.getElem?_mapIdx, hb.heap, List.getElem?_map, Option.map_map]
      cases hi : c.heap[i]? with
      | none => rfl
      | some part => simp [heapNodeOf, recorded_program h.read.callable, hi, HeapNodeSets.node, HeapNodeSets.spec]
    rw [← hspec, ← hnodes, hdata, ← hparts]
  subst himage
  have hjournal : replayJournal options b.serialize
      { schema := { kinds := b.kinds }, atoms := lc.atoms, limits := options.limits, growth, ownerSlot } b.table
      (ReplayVM.seed {} ⟨pushAll growth (c.heap.mapIdx HeapNodeSets.node)⟩) = .ok (lc.vm, options.runJournal) := by
    cases hrun : options.runJournal with
    | true =>
      refine (replayJournal_built hr.size hrun).mpr ⟨rfl, [], ?_⟩
      rw [buildJournalSection_eq h.read hbuild, hschema]
      exact run_of_performs h.performs h.read.opCount h.frames
    | false =>
      rw [replayJournal, hrun, h.notRun hrun]
      rfl
  have hwarnings := congrArg LoadedContainer.xrefWarnings h.eq
  have hmeta := congrArg LoadedContainer.sectionMeta h.eq
  rw [← hb.emitXref, ← hb.xref] at hwarnings
  rw [← hb.emitMeta, ← hb.metaEntries] at hmeta
  refine ⟨_, (load_serialize_iff hr hsections hatoms hpool hheap).mpr ⟨lc.vm, options.runJournal, _, _, hjournal,
    (withSection_xref hr hpool _ _).mpr ⟨fun _ e he => h.xrefNode e (hb.xref ▸ he), rfl⟩,
    withSection_meta hr hpool, rfl⟩, ?_⟩
  refine ⟨(congrArg LoadedContainer.limits h.eq).symm, rfl, hschema, rfl, ?_, ?_, hmeta.symm, hwarnings.symm, rfl⟩
  · exact (congrArg LoadedContainer.xref h.eq).symm
  · rw [hschema]
    exact (congrArg LoadedContainer.report h.eq).symm

end Contents

/-- **Every file has a normal form**: what loads from arbitrary bytes is built by some program, whose file
loads as the same container, iff no text is listed twice in its pool. The known sections of the file have to
leave room for the directory below the 32-bit offsets of the format. -/
theorem load_rewritten (growth : Growth) (ownerSlot : OwnerSlot) (options : LoadOptions) (data : Bytes)
    (lc : LoadedContainer) (hload : load growth ownerSlot options data = .ok lc)
    (hsize : (knownTags.map lc.sections.windowLength).sum + 118 < 2 ^ 32)
    (hsections : 6 ≤ options.limits.maxSections.toNat) :
    (∃ calls b lc', build calls = some b ∧ b.InRange options.limits calls ∧
      load growth ownerSlot options b.serialize = .ok lc' ∧
      lc'.SameContents { lc with journalRan := options.runJournal }) ↔ lc.atoms.atoms.Nodup := by
  constructor
  · rintro ⟨calls, b, lc', hbuild, hr, hload', hsame⟩
    obtain ⟨pool, hatoms, hpool⟩ := reads_atomsSection hr
    obtain ⟨image, hheap, -⟩ := reads_heapSection hr (records_build hbuild) hpool growth
    have hcount := Nat.le_trans b.length_sections_le hsections
    have hiff : load growth ownerSlot options b.serialize = .ok lc' ↔ _ :=
      load_serialize_iff hr hcount hatoms hpool hheap
    obtain ⟨vm, ran, w, out, -, -, -, rfl⟩ := hiff.mp hload'
    have heq : pool = lc.atoms := hsame.atoms
    rw [← heq, hpool]
    exact (interned_build hbuild).nodup
  · intro hnodup
    obtain ⟨c, hc, hcost⟩ := exists_contents hload
    obtain ⟨b, hbuild, hb⟩ := build_program hc.read.callable (hc.read.atoms ▸ hnodup)
    have hlen := length_serialize_le hb (buildJournalSection_eq hc.read hbuild)
    have hfits : b.serialize.length < 2 ^ 32 := by omega
    obtain ⟨lc', hload', hsame⟩ := load_held hc hbuild hb hfits (Nat.le_trans b.length_sections_le hsections)
    exact ⟨c.program, b, lc', hbuild, hc.read.inRange hb hfits, hload', hsame⟩


/-- A file without most sections, and with bytes that no section covers. -/
theorem load_rewritten_gap : ∃ lc, load Growth.doubling .cached {} (emptyPool [7]) = .ok lc ∧
    ((∃ calls b lc', build calls = some b ∧ b.InRange {} calls ∧
      load Growth.doubling .cached {} b.serialize = .ok lc' ∧
      lc'.SameContents { lc with journalRan := true }) ↔ lc.atoms.atoms.Nodup) :=
  ⟨_, rfl, load_rewritten Growth.doubling .cached {} (emptyPool [7]) _ rfl (by decide) (by decide)⟩

end Stratavm
