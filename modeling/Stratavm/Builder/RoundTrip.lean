import Stratavm.Builder.Layout
import Stratavm.Builder.Record
import Stratavm.XrefIndex

/-!
# The container round trip

Each section decoder inverts its encoder: `reads_atomsSection`, `reads_schemaSection`,
`reads_heapSection`, `reads_xrefSection`, `reads_metaSection`. Journal values can only be read with
the type of a node the journal may have created, so the journal is read back along a run of the
machine (`replays_emitted`).

`InRange` is what a program has to be for its bytes to mean what it said: counts within the limits, names
and kinds that exist, field values of the declared types. The builder checks none of it. A field of a heap
node that is set twice is written twice and holds its last value (`lookup_setAll`).

* `RoundTrip`: what the sections of a container decode to, one conjunct a section.
* **`container_round_trip`**: every section of a built container within the default limits decodes
  to what the program recorded.

Out of scope: whether the journal runs to its end. `Loader/Built.lean` says when it does.
-/

namespace Stratavm

open Lib Lib.Decoder

namespace ContainerBuilder

/-! ## Programs in range -/

/-- An atom of the builder, or none. -/
def NameInRange (b : ContainerBuilder) (name : AtomId) : Prop :=
  name = kInvalidAtom ∨ name.toNat < b.atoms.length

instance (b : ContainerBuilder) (name : AtomId) : Decidable (b.NameInRange name) :=
  inferInstanceAs (Decidable (_ ∨ _))

/-- A value set for a field of `k` that has its type. -/
def Storable (limits : Limits) (k : KindDef) (s : FieldId × Value) : Prop :=
  ∃ fd, k.field s.1 = some fd ∧ s.2.type = fd.type ∧ s.2.asList.length ≤ limits.maxListLen.toNat

/-- A program and its builder stay within the limits, and every id they hold is in range. -/
structure InRange (limits : Limits) (calls : List Call) (b : ContainerBuilder) : Prop where
  atomCount : b.atoms.length ≤ limits.maxAtoms.toNat
  atomLen : ∀ s ∈ b.atoms, s.length ≤ limits.maxAtomLen.toNat
  kindCount : b.kinds.length ≤ limits.maxKinds.toNat
  kindName : ∀ k ∈ b.kinds, k.name.toNat < b.atoms.length
  fieldCount : ∀ k ∈ b.kinds, k.fields.length ≤ limits.maxFieldsPerKind.toNat
  field : ∀ k ∈ b.kinds, ∀ f ∈ k.fields, f.name.toNat < b.atoms.length ∧ f.type ≠ .invalid
  nodeCount : b.heap.length ≤ limits.maxNodes.toNat
  nodeName : ∀ n ∈ b.heap, b.NameInRange n.name
  node : ∀ i n, b.heap[i]? = some n → ∃ k, b.kinds[n.kind.toNat]? = some k ∧
    n.fields.length ≤ k.fields.length ∧ ∀ s ∈ recorded calls i, Storable limits k s
  opCount : (emitted calls).length ≤ limits.maxJournalOps.toNat
  opList : ∀ node field v, .setField node field v ∈ emitted calls →
    v.asList.length ≤ limits.maxListLen.toNat
  xrefCount : b.xref.length ≤ limits.maxNodes.toNat
  xrefName : ∀ e ∈ b.xref, b.NameInRange e.1
  metaCount : b.metaEntries.length ≤ limits.maxAtoms.toNat
  metaKey : ∀ e ∈ b.metaEntries, e.1.toNat < b.atoms.length
  metaValue : ∀ e ∈ b.metaEntries, b.NameInRange e.2
  size : b.serialize.length < 2 ^ 32

section Sections

variable {limits : Limits} {calls : List Call} {b : ContainerBuilder}

/-- A count within a 32-bit limit. -/
theorem not_gt_of_le {n : Nat} {limit : UInt32} (h : n ≤ limit.toNat) :
    ¬ UInt32.ofNat n > limit := by
  have := limit.toNat_lt
  rw [gt_iff_lt, UInt32.lt_iff_toNat_lt, toNat_ofNat_of_lt (by omega)]
  omega

/-! ## The atom section -/

theorem reads_decodeAtoms {strings : List Bytes}
    (h : ∀ s ∈ strings, s.length ≤ limits.maxAtomLen.toNat) (i : Nat) (p : AtomPool) :
    ∃ p', Machine.Reads (AtomPool.decodeAtoms limits strings.length i) p (strings.flatMap lpString)
      () p' ∧ p'.atoms = p.atoms ++ strings := by
  induction strings generalizing i p with
  | nil => exact ⟨p, Machine.Reads.pure () p, (List.append_nil _).symm⟩
  | cons s strings ih =>
    have hlen := h s (List.mem_cons_self ..)
    have hs : Decoder.Reads (readLpString limits.maxAtomLen.toNat) (lpString s) s :=
      reads_lpString hlen (by have := limits.maxAtomLen.toNat_lt; omega)
    obtain ⟨p', hreads, hatoms⟩ := ih (fun t ht => h t (List.mem_cons_of_mem _ ht)) (i + 1) _
    refine ⟨p', Machine.Reads.bind_read hs (Machine.Reads.bind_get (Machine.Reads.bind_set hreads)), ?_⟩
    rw [hatoms]
    simp

/-- **The atom section** decodes to the builder's atoms. -/
theorem reads_atomsSection (h : b.InRange limits calls) :
    ∃ pool, Machine.Reads (AtomPool.decode limits) {} b.buildAtomSection () pool ∧
      pool.atoms = b.atoms := by
  obtain ⟨hread, hcount⟩ := reads_count32 (Nat.lt_of_le_of_lt h.atomCount limits.maxAtoms.toNat_lt)
  obtain ⟨pool, hreads, hatoms⟩ := reads_decodeAtoms h.atomLen 0 {}
  refine ⟨pool, Machine.Reads.bind_read hread ?_, hatoms⟩
  rw [if_neg (not_gt_of_le h.atomCount), hcount]
  exact Machine.Reads.bind_set hreads

/-! ## The schema section -/

variable {pool : AtomPool}

theorem get_ne_none {name : AtomId} (hpool : pool.atoms = b.atoms)
    (h : name.toNat < b.atoms.length) : pool.get name ≠ none := by
  rw [AtomPool.get, hpool]
  simpa using h

theorem not_badName {name : AtomId} (hpool : pool.atoms = b.atoms) (h : b.NameInRange name) :
    ¬ (name ≠ kInvalidAtom ∧ pool.get name = none) := by
  rintro ⟨hne, hnone⟩
  rcases h with h | h
  · exact hne h
  · exact get_ne_none hpool h hnone

theorem reads_field (hpool : pool.atoms = b.atoms) {f : FieldDef}
    (h : f.name.toNat < b.atoms.length ∧ f.type ≠ .invalid) :
    Decoder.Reads (Schema.decodeField pool) (fieldBytes f) f := by
  refine (reads_varintU32 f.name).bind ?_
  rw [if_neg (get_ne_none hpool h.1)]
  refine (reads_u8 f.type.raw).bind ?_
  rw [ValueType.ofRaw?_raw h.2]
  exact (reads_u8 f.flags).bind_pure

theorem reads_kind (h : b.InRange limits calls) (hpool : pool.atoms = b.atoms) {k : KindDef}
    (hk : k ∈ b.kinds) : Decoder.Reads (Schema.decodeKind pool limits) (kindBytes k) k := by
  have hle := h.fieldCount k hk
  obtain ⟨hread, hcount⟩ := reads_count32 (Nat.lt_of_le_of_lt hle limits.maxFieldsPerKind.toNat_lt)
  refine (reads_varintU32 k.name).bind ?_
  rw [if_neg (get_ne_none hpool (h.kindName k hk))]
  refine hread.bind ?_
  rw [if_neg (not_gt_of_le hle), hcount]
  exact (Reads.listFrom fun i f hf => reads_field hpool (h.field k hk f (List.mem_of_getElem? hf))).bind_pure

/-- **The schema section** decodes to the builder's kinds. -/
theorem reads_schemaSection (h : b.InRange limits calls) (hpool : pool.atoms = b.atoms) :
    Decoder.Reads (Schema.decode pool limits) b.buildSchemaSection { kinds := b.kinds } := by
  obtain ⟨hread, hcount⟩ := reads_count32 (Nat.lt_of_le_of_lt h.kindCount limits.maxKinds.toNat_lt)
  refine hread.bind ?_
  rw [if_neg (not_gt_of_le h.kindCount), hcount]
  exact (Reads.listFrom fun i k hk => reads_kind h hpool (List.mem_of_getElem? hk)).bind_pure

/-! ## The heap section -/

/-- The fields of a node, set in order. -/
def setAll (sets : List (FieldId × Value)) : UMap FieldId Value :=
  sets.foldl (fun fields s => fields.insert s.1 s.2) ∅

/-- The last value set for a field is the one a node holds. -/
theorem lookup_setAll (sets : List (FieldId × Value)) (f : FieldId) :
    (setAll sets).lookup f = sets.reverse.lookup f := by
  induction sets using List.reverseRecOn with
  | nil => exact Finmap.lookup_empty f
  | append_singleton sets s ih =>
    rw [setAll, List.foldl_append, List.foldl_cons, List.foldl_nil, List.reverse_append,
      List.reverse_singleton, List.singleton_append, List.lookup_cons]
    by_cases hf : f = s.1
    · rw [hf, Finmap.lookup_insert]
      simp
    · rw [Finmap.lookup_insert_of_ne _ hf, beq_eq_false_iff_ne.mpr hf]
      exact ih

/-- The node that heap entry `i` describes. -/
def heapNodeOf (calls : List Call) (i : Nat) (n : HeapNodeSpec) : Node where
  id := UInt32.ofNat i
  kind := n.kind
  name := n.name
  fields := setAll (recorded calls i)

theorem reads_heapFields {k : KindDef} {sets : List (FieldId × Value)}
    (h : ∀ s ∈ sets, Storable limits k s) (htypes : ∀ fd ∈ k.fields, fd.type ≠ .invalid) :
    Decoder.Reads (decodeHeapFields k limits sets.length)
      ((sets.map encodeField).flatMap valueBytes) (setAll sets) := by
  rw [List.flatMap_map]
  refine Reads.loop fun pre s suf hs => ?_
  obtain ⟨fd, hfd, hty, hlist⟩ := h s (by rw [hs]; simp)
  refine (reads_varintU32 s.1).bind ?_
  have hfits : s.2.Fits limits := ⟨hty ▸ htypes fd (List.mem_of_getElem? hfd), hlist⟩
  have hvalue := Value.reads_value hfits
  rw [hty] at hvalue
  simp only [hfd]
  exact hvalue.mapError.bind_pure

theorem reads_heapNode (h : b.InRange limits calls) (hrec : Records calls b)
    (hpool : pool.atoms = b.atoms) {i : Nat} {n : HeapNodeSpec} (hn : b.heap[i]? = some n) :
    Decoder.Reads (decodeHeapNode { kinds := b.kinds } pool limits i) (nodeBytes i n)
      (heapNodeOf calls i n) := by
  have hmem := List.mem_of_getElem? hn
  obtain ⟨k, hk, hle, hstore⟩ := h.node i n hn
  have hkmem := List.mem_of_getElem? hk
  have hfields := hrec.fields i n hn
  have hcountle : n.fields.length < 2 ^ 32 := by
    have := h.fieldCount k hkmem
    have := limits.maxFieldsPerKind.toNat_lt
    omega
  have hi : i < 2 ^ 32 := by
    have := (List.getElem?_eq_some_iff.mp hn).1
    have := h.nodeCount
    have := limits.maxNodes.toNat_lt
    omega
  obtain ⟨hid, -⟩ := reads_count32 hi
  obtain ⟨hcount, hcount'⟩ := reads_count32 hcountle
  refine hid.bind ?_
  rw [if_neg (not_not.mpr rfl)]
  refine (reads_varintU32 n.kind).bind ?_
  have hkind : ({ kinds := b.kinds } : Schema).kind n.kind = some k := hk
  simp only [hkind]
  refine (reads_varintU32 n.name).bind ?_
  rw [if_neg (not_badName hpool (h.nodeName n hmem))]
  refine hcount.bind ?_
  rw [if_neg (by omega), hcount', hfields, List.length_map]
  exact (reads_heapFields hstore fun fd hfd => (h.field k hkmem fd hfd).2).bind_pure

/-- A table filled by pushing. -/
theorem data_foldl_pushBack {α β : Type} (g : Growth) (f : β → α) (xs : List β) (v : Vec α) :
    (xs.foldl (fun v x => v.pushBack g (f x)) v).data = v.data ++ xs.map f := by
  induction xs generalizing v with
  | nil => simp
  | cons x xs ih => simp [ih]

/-- **The heap section** decodes to the builder's nodes, each with the last value set for each
field. -/
theorem reads_heapSection (h : b.InRange limits calls) (hrec : Records calls b)
    (hpool : pool.atoms = b.atoms) (g : Growth) :
    ∃ heap, Decoder.Reads (decodeHeap g { kinds := b.kinds } pool limits) b.buildHeapSection heap ∧
      heap.nodes.data = b.heap.mapIdx (heapNodeOf calls) := by
  obtain ⟨hread, hcount⟩ := reads_count32 (Nat.lt_of_le_of_lt h.nodeCount limits.maxNodes.toNat_lt)
  have hbytes : (b.heap.mapIdx nodeBytes).flatten =
      b.heap.zipIdx.flatMap fun p => nodeBytes p.2 p.1 := by
    rw [List.mapIdx_eq_zipIdx_map, List.flatMap_def]
  refine ⟨⟨b.heap.zipIdx.foldl (fun v p => v.pushBack g (heapNodeOf calls p.2 p.1))
    (Vec.empty.reserve g b.heap.length)⟩, ?_, ?_⟩
  · refine hread.bind ?_
    rw [if_neg (not_gt_of_le h.nodeCount), hcount, hbytes, ← List.length_zipIdx (l := b.heap) (i := 0)]
    refine (Reads.loop fun pre p suf hp => ?_).bind_pure
    have hidx : b.heap[pre.length]? = some p.1 ∧ p.2 = pre.length := by
      have hget : b.heap.zipIdx[pre.length]? = some p := by
        rw [hp]
        simp
      rw [List.getElem?_zipIdx] at hget
      obtain ⟨n, hn, rfl⟩ := Option.map_eq_some_iff.mp hget
      exact ⟨hn, Nat.zero_add _⟩
    rw [Nat.zero_add, hidx.2]
    exact (reads_heapNode h hrec hpool hidx.1).bind_pure
  · rw [data_foldl_pushBack, List.mapIdx_eq_zipIdx_map]
    simp

/-! ## The optional sections -/

theorem reads_pair (e : UInt32 × UInt32) : Decoder.Reads readPair (pairBytes e) e :=
  (reads_varintU32 e.1).bind (reads_varintU32 e.2).bind_pure

/-- **The XREF section** decodes to the recorded pairs: it is their count and the pairs, -/
theorem reads_xrefPairs (h : b.InRange limits calls) :
    Decoder.Reads (do
      let count ← readVarintU32
      listFrom (fun _ => readPair) 0 count.toNat) b.buildXrefSection b.xref := by
  obtain ⟨hread, hcount⟩ := reads_count32 (Nat.lt_of_le_of_lt h.xrefCount limits.maxNodes.toNat_lt)
  refine hread.bind ?_
  rw [hcount]
  exact Reads.listFrom fun _ e _ => reads_pair e

/-- and reconciling it counts the recorded pairs that disagree with the index. -/
theorem reads_xrefSection (h : b.InRange limits calls) (hpool : pool.atoms = b.atoms) (index : XrefIndex)
    {nodeCount : Nat} (hnode : ∀ e ∈ b.xref, e.2 = kInvalidNode ∨ e.2.toNat < nodeCount) :
    Decoder.Reads (index.decodeAndReconcile pool limits nodeCount) b.buildXrefSection
      (b.xref.foldl (fun w e => if index.byName e.1 ≠ e.2 then w + 1 else w) 0) := by
  obtain ⟨hread, hcount⟩ := reads_count32 (Nat.lt_of_le_of_lt h.xrefCount limits.maxNodes.toNat_lt)
  refine hread.bind ?_
  rw [if_neg (not_gt_of_le h.xrefCount), hcount]
  refine Reads.loop fun pre e suf he => ?_
  have hmem : e ∈ b.xref := by rw [he]; simp
  refine (reads_pair e).bind_of_eq_pure ?_
  rw [if_neg (not_badName hpool (h.xrefName e hmem)), if_neg]
  rintro ⟨hne, hge⟩
  rcases hnode e hmem with heq | hlt
  · exact hne heq
  · omega

/-- **The META section** stores the recorded pairs, in order. -/
theorem reads_metaSection (h : b.InRange limits calls) (hpool : pool.atoms = b.atoms)
    (out : UMap AtomId AtomId) :
    Machine.Reads (decodeMetaSection pool limits) out b.buildMetaSection ()
      (b.metaEntries.foldl (fun out e => out.insert e.1 e.2) out) := by
  obtain ⟨hread, hcount⟩ := reads_count32 (Nat.lt_of_le_of_lt h.metaCount limits.maxAtoms.toNat_lt)
  have hpairs : ∀ (es : List (AtomId × AtomId)) (out : UMap AtomId AtomId),
      (∀ e ∈ es, e.1.toNat < b.atoms.length ∧ b.NameInRange e.2) →
      Machine.Reads (decodeMetaPairs pool es.length) out (es.flatMap pairBytes) ()
        (es.foldl (fun out e => out.insert e.1 e.2) out) := by
    intro es
    induction es with
    | nil => exact fun out _ => Machine.Reads.pure () out
    | cons e es ih =>
      intro out he
      obtain ⟨hkey, hvalue⟩ := he e (List.mem_cons_self ..)
      refine Machine.Reads.bind_read (reads_pair e) ?_
      rw [if_neg (get_ne_none hpool hkey), if_neg (not_badName hpool hvalue)]
      exact Machine.Reads.bind_modify (ih _ fun e' he' => he e' (List.mem_cons_of_mem _ he'))
  refine Machine.Reads.bind_read hread ?_
  rw [if_neg (not_gt_of_le h.metaCount), hcount]
  exact hpairs b.metaEntries out fun e he => ⟨h.metaKey e he, h.metaValue e he⟩

end Sections

/-! ## The journal section -/

/-- The machine reads `op` in full: a `SET_FIELD` needs its field to have a type. -/
def Readable (ty : FieldTypes) : Op → Prop
  | .setField node field _ => ty node field ≠ .invalid
  | _ => True

/-- Every value `ops` set has the type its node's kind declares, in the state the opcodes before
it leave. -/
def JournalTyped (env : Env) (vm : ReplayVM) (ops : List Op) : Prop :=
  ∀ pre node field v suf vm', ops = pre ++ .setField node field v :: suf →
    ReplayVM.execAll env pre vm = some vm' → vm'.fieldType env node field ≠ .invalid →
      vm'.fieldType env node field = v.type

/-- Every list `ops` set is within the limit. -/
def ListsFit (limits : Limits) (ops : List Op) : Prop :=
  ∀ node field v, .setField node field v ∈ ops → v.asList.length ≤ limits.maxListLen.toNat

section Journal

variable {env : Env} {vm vm' vm1 : ReplayVM} {op : Op} {ops ops' : List Op} {r' : Bytes}

/-- A `SET_FIELD` of a field without a type is not read. -/
theorem readable_of_readOp {ty : FieldTypes} {limits : Limits} {t : Bytes} {p : Op × Bytes}
    (h : readOp ty limits (op.encode ++ t) = .ok p) : Readable ty op := by
  cases op with
  | setField node field v =>
    intro hty
    simp only [Op.encode, Op.code, Op.operands, List.append_assoc] at h
    rw [readOp, bind_of_ok (reads_u8 _ _)] at h
    simp only [OpCode.ofRaw?_raw, readOperands] at h
    rw [bind_of_ok (reads_varintU32 node _), bind_of_ok (reads_varintU32 field _), hty] at h
    obtain ⟨_, _, hv, -⟩ := bind_eq_ok.mp h
    exact fail_ne_ok hv
  | _ => exact trivial

theorem JournalTyped.typed (h : JournalTyped env vm (op :: ops))
    (hlists : ListsFit env.limits (op :: ops)) (hr : Readable (vm.fieldType env) op) :
    op.Typed (vm.fieldType env) env.limits := by
  cases op with
  | setField node field v =>
    have ht := h [] node field v ops vm rfl rfl hr
    exact ⟨ht, ht ▸ hr, hlists node field v (List.mem_cons_self ..)⟩
  | _ => exact trivial

theorem JournalTyped.step (h : JournalTyped env vm (op :: ops))
    (heff : ReplayVM.Effect env vm op vm1) : JournalTyped env vm1.tick ops := by
  intro pre node field v suf vm' hops hexec
  refine h (op :: pre) node field v suf vm' (by rw [hops]; rfl) ?_
  rw [ReplayVM.execAll, ReplayVM.exec_iff_effect.mpr heff]
  exact hexec

theorem ListsFit.tail {limits : Limits} (h : ListsFit limits (op :: ops)) : ListsFit limits ops :=
  fun node field v hm => h node field v (List.mem_cons_of_mem _ hm)

/-- **The opcodes the machine decodes are those emitted**, in order: an invariant of the run is that
the unread bytes are the encoding of the opcodes not yet executed. -/
theorem replays_emitted (hrep : Replays env ops' vm (ops.flatMap Op.encode) vm' r')
    (htyped : JournalTyped env vm ops) (hlists : ListsFit env.limits ops)
    (hlen : ops'.length ≤ ops.length) : ∃ rest, ops = ops' ++ rest ∧
      r' = rest.flatMap Op.encode ∧ JournalTyped env vm' rest ∧ ListsFit env.limits rest := by
  generalize hr : ops.flatMap Op.encode = r at hrep
  induction hrep generalizing ops with
  | nil => exact ⟨ops, rfl, hr.symm, htyped, hlists⟩
  | @cons op' ops' vm r vm1 r1 vm' r' hread heff hrest ih =>
    cases ops with
    | nil => simp at hlen
    | cons op ops =>
      rw [List.flatMap_cons] at hr
      subst hr
      have htype := htyped.typed hlists (readable_of_readOp hread)
      obtain ⟨rfl, rfl⟩ := Prod.mk.inj (Except.ok.inj (hread.symm.trans (reads_op htype _)))
      obtain ⟨rest, hops, hr', hrest⟩ :=
        ih (htyped.step heff) hlists.tail (by simpa using hlen) rfl
      exact ⟨rest, by rw [hops]; rfl, hr', hrest⟩

end Journal

/-! ## The container -/

/-- What the sections of the container that `b` serializes decode to. -/
structure RoundTrip (calls : List Call) (b : ContainerBuilder) (env : Env) (table : SectionTable)
    (image : HeapImage) : Prop where
  /-- The directory is accepted, -/
  directory : ∃ rest, Machine.Ok (SectionTable.decode b.serialize.length env.limits) {} b.serialize
    () table rest
  /-- and has an entry for each emitted section, its window the section's payload. -/
  windows : List.Forall₂ (Locates b.serialize) b.sections table.entries
  find : ∀ s ∈ b.sections, ∃ e, table.find s.tag = some e ∧ Locates b.serialize s e
  atoms : Machine.Ok (AtomPool.decode env.limits) {} b.buildAtomSection () env.atoms []
  atomsEq : env.atoms.atoms = b.atoms
  schema : Schema.decode env.atoms env.limits b.buildSchemaSection = .ok (env.schema, [])
  kindsEq : env.schema.kinds = b.kinds
  heap : decodeHeap env.growth env.schema env.atoms env.limits b.buildHeapSection = .ok (image, [])
  nodesEq : image.nodes.data = b.heap.mapIdx (heapNodeOf calls)
  lastSet : ∀ i n, image.nodes.data[i]? = some n →
    ∀ f, n.field f = (recorded calls i).reverse.lookup f
  xrefPairs : (do
    let count ← readVarintU32
    listFrom (fun _ => readPair) 0 count.toNat : Reader _) b.buildXrefSection = .ok (b.xref, [])
  xref : ∀ (index : XrefIndex) (nodeCount : Nat),
    (∀ e ∈ b.xref, e.2 = kInvalidNode ∨ e.2.toNat < nodeCount) →
    index.decodeAndReconcile env.atoms env.limits nodeCount b.buildXrefSection =
      .ok (b.xref.foldl (fun w e => if index.byName e.1 ≠ e.2 then w + 1 else w) 0, [])
  metadata : ∀ out, Machine.Ok (decodeMetaSection env.atoms env.limits) out b.buildMetaSection ()
    (b.metaEntries.foldl (fun out e => out.insert e.1 e.2) out) []
  /-- The journal announces the emitted opcodes. The machine decodes them in order, and whatever
  state it has reached, the next one. -/
  journal : ∃ count body, readVarintU32 b.buildJournalSection = .ok (count, body) ∧
    count ≤ env.limits.maxJournalOps ∧ count.toNat = (emitted calls).length ∧
    (JournalTyped env (ReplayVM.seed {} image) (emitted calls) → ∀ k vm r, k ≤ count.toNat →
      Machine.Ok (runOps env k) (ReplayVM.seed {} image) body () vm r →
      Replays env ((emitted calls).take k) (ReplayVM.seed {} image) body vm r ∧
      ∀ op, (emitted calls)[k]? = some op → Readable (vm.fieldType env) op →
        ∃ r', readOp (vm.fieldType env) env.limits r = .ok (op, r'))

/-- **The journal section** decodes to the emitted opcodes along any run. -/
theorem journal_reads {env : Env} {calls : List Call} {b : ContainerBuilder} {vm0 : ReplayVM}
    (h : b.InRange env.limits calls) (hrec : Records calls b) :
    ∃ count body, readVarintU32 b.buildJournalSection = .ok (count, body) ∧
      count ≤ env.limits.maxJournalOps ∧ count.toNat = (emitted calls).length ∧
      (JournalTyped env vm0 (emitted calls) → ∀ k vm r, k ≤ count.toNat →
        Machine.Ok (runOps env k) vm0 body () vm r →
        Replays env ((emitted calls).take k) vm0 body vm r ∧
        ∀ op, (emitted calls)[k]? = some op → Readable (vm.fieldType env) op →
          ∃ r', readOp (vm.fieldType env) env.limits r = .ok (op, r')) := by
  have hlt := Nat.lt_of_le_of_lt h.opCount env.limits.maxJournalOps.toNat_lt
  refine ⟨b.journalOps, b.journalBody, reads_varintU32 _ _, ?_, ?_, ?_⟩
  · rw [hrec.journalOps]
    exact UInt32.not_lt.mp (not_gt_of_le h.opCount)
  · rw [hrec.journalOps, toNat_ofNat_of_lt hlt]
  · intro htyped k vm r hk hrun
    rw [hrec.journalOps, toNat_ofNat_of_lt hlt] at hk
    rw [hrec.journalBody] at hrun ⊢
    obtain ⟨ops, rfl, hrep⟩ := runOps_ok_iff.mp hrun
    obtain ⟨rest, hops, rfl, htyped', hlists⟩ := replays_emitted hrep htyped h.opList hk
    have htake : (emitted calls).take ops.length = ops := by rw [hops, List.take_left]
    rw [htake]
    refine ⟨hrep, fun op hop hread => ?_⟩
    rw [hops, List.getElem?_append_right (Nat.le_refl _), Nat.sub_self] at hop
    cases rest with
    | nil => cases hop
    | cons op' rest =>
      obtain rfl := Option.some.inj hop
      exact ⟨_, reads_op (htyped'.typed hlists hread) _⟩

end ContainerBuilder

open ContainerBuilder

/-- **The container round trip**: for every builder program in range of the default limits, every
section of its container decodes to what the program recorded. -/
theorem container_round_trip {calls : List Call} {b : ContainerBuilder} (hb : build calls = some b)
    (hr : b.InRange {} calls) (growth : Growth) (ownerSlot : OwnerSlot) :
    ∃ (env : Env) (table : SectionTable) (image : HeapImage), env.limits = {} ∧
      env.growth = growth ∧ env.ownerSlot = ownerSlot ∧ RoundTrip calls b env table image := by
  have hrec := records_build hb
  obtain ⟨pool, hatoms, hpool⟩ := reads_atomsSection hr
  obtain ⟨image, hheap, hnodes⟩ := reads_heapSection hr hrec hpool growth
  have hsections : b.sections.length ≤ ({} : Limits).maxSections.toNat :=
    Nat.le_trans b.length_sections_le (by decide)
  refine ⟨{ schema := { kinds := b.kinds }, atoms := pool, growth, ownerSlot }, b.table, image, rfl,
    rfl, rfl, ?_⟩
  constructor
  · refine ⟨b.sections.flatMap Built.payload, ?_⟩
    have h := reads_table b hsections hr.size {} (b.sections.flatMap Built.payload)
    rwa [List.append_assoc, ← serialize_eq] at h
  · exact b.locates_entries hr.size
  · intro s hs
    exact find_of_locates (b.locates_entries hr.size) b.tags_nodup hs
  · exact hatoms.run
  · exact hpool
  · exact (reads_schemaSection hr hpool).run
  · rfl
  · exact hheap.run
  · exact hnodes
  · intro i n hn f
    rw [hnodes, List.getElem?_mapIdx] at hn
    obtain ⟨spec, -, rfl⟩ := Option.map_eq_some_iff.mp hn
    exact lookup_setAll _ f
  · exact (reads_xrefPairs hr).run
  · exact fun index nodeCount hnode => (reads_xrefSection hr hpool index hnode).run
  · exact fun out => (reads_metaSection hr hpool out).run
  · exact journal_reads hr hrec

/-! ### A small container -/

/-- Two atoms, a kind with an integer field, a heap node, a journal node, and a pair in each optional
section. -/
def smallProgram : List Call :=
  [.atom [0x6B], .atom [0x66], .defineKind 0 [{ name := 1, type := .int }], .heapNode 0 0,
    .heapInt 0 0 5, .opNewNode 0 kInvalidAtom, .opSetInt 1 0 7, .xrefEntry 0 0, .metaEntry 0 1]

/-- The builder of `smallProgram`. -/
def smallBuilder : ContainerBuilder := (build smallProgram).getD {}

theorem smallProgram_inRange : smallBuilder.InRange {} smallProgram where
  atomCount := by decide
  atomLen := by decide
  kindCount := by decide
  kindName := by decide
  fieldCount := by decide
  field := by decide
  nodeCount := by decide
  nodeName := by decide
  node := by
    intro i n hn
    cases i with
    | zero =>
      obtain rfl := Option.some.inj hn
      refine ⟨{ name := 0, fields := [{ name := 1, type := .int }] }, rfl, by decide, ?_⟩
      exact List.forall_mem_singleton.mpr ⟨{ name := 1, type := .int }, rfl, rfl, by decide⟩
    | succ i => cases hn
  opCount := by decide
  opList := by
    intro node field v hm
    have hops : emitted smallProgram = [.newNode 0 kInvalidAtom, .setField 1 0 (.int 7)] := rfl
    rw [hops] at hm
    simp only [List.mem_cons, List.not_mem_nil, or_false, reduceCtorEq, false_or,
      Op.setField.injEq] at hm
    obtain ⟨-, -, rfl⟩ := hm
    decide
  xrefCount := by decide
  xrefName := List.forall_mem_singleton.mpr (by decide)
  metaCount := by decide
  metaKey := List.forall_mem_singleton.mpr (by decide)
  metaValue := List.forall_mem_singleton.mpr (by decide)
  size := by decide +kernel

/-- There are only integer fields. -/
theorem smallProgram_typed {env : Env} (hkinds : env.schema.kinds = smallBuilder.kinds) (vm : ReplayVM) :
    JournalTyped env vm (emitted smallProgram) := by
  intro pre node field v suf vm' hops _ hvalid
  have hset : Op.setField node field v ∈ emitted smallProgram := by simp [hops]
  have hemitted : emitted smallProgram = [.newNode 0 kInvalidAtom, .setField 1 0 (.int 7)] := rfl
  obtain ⟨-, -, rfl⟩ : node = 1 ∧ field = 0 ∧ v = .int 7 := by simpa [hemitted] using hset
  unfold ReplayVM.fieldType at hvalid ⊢
  cases hn : vm'.node? node with
  | none =>
    rw [hn] at hvalid
    exact absurd rfl hvalid
  | some n =>
    rw [hn] at hvalid
    obtain ⟨k, fd, hk, hfd, htype⟩ := Schema.exists_of_fieldType_ne_invalid hvalid
    have hmem := Schema.kind_eq_some_mem hk
    rw [hkinds] at hmem
    obtain rfl := List.mem_singleton.mp hmem
    obtain rfl := List.mem_singleton.mp (List.mem_of_getElem? hfd)
    exact htype

theorem smallProgram_round_trip : ∃ (env : Env) (table : SectionTable) (image : HeapImage),
    env.limits = {} ∧ env.growth = Growth.doubling ∧ env.ownerSlot = .cached ∧
      RoundTrip smallProgram smallBuilder env table image ∧
      JournalTyped env (ReplayVM.seed {} image) (emitted smallProgram) := by
  obtain ⟨env, table, image, hlimits, hgrowth, hslot, htrip⟩ :=
    container_round_trip rfl smallProgram_inRange Growth.doubling .cached
  exact ⟨env, table, image, hlimits, hgrowth, hslot, htrip, smallProgram_typed htrip.kindsEq _⟩

end Stratavm
