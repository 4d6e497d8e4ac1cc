import Stratavm.AtomPool.Index
import Stratavm.Builder.Contents
import Stratavm.Bytes.Shortest
import Stratavm.Loader.Bounds
import Stratavm.Loader.Built

/-!
# What the section decoders read, the builder writes

For each section, the items that its decoder reads off the bytes, in order and with the checks they passed.
What the decoder returns is made of them, and the payload that the builder writes for them is no longer than
the bytes they were read from (`Lib.Decoder.Consumes`).

The items are kept apart from what is made of them because the way back needs them: a heap node with a field
set twice is a node with one field, and META pairs with one key are one entry, but both are written as they
were read, in order (`HeapNodeSets`, `decodeMetaPairs_consumes`).

* `decode_consumes`, `consumes_schema`, `consumes_heap`, `consumes_xref`, `decodeMetaSection_consumes`: one
  lemma a section.
* **`performs_of_run`**: the journal section. The opcodes that a run executes are performed, and their
  encodings are no longer than what it read.

Out of scope: the directory. The builder lays out one of its own (`Builder/Layout.lean`).
-/

namespace Stratavm

open Lib Lib.Decoder ContainerBuilder

/-! ## Counted items -/

/-- A count and the items, as the builder lays out a section. -/
def counted {α : Type} (enc : α → Bytes) (items : List α) : Bytes :=
  varint (UInt64.ofNat items.length) ++ items.flatMap enc

section Counted

variable {α : Type} {enc : α → Bytes} {items : List α} {count : UInt32}

/-- The count that was read is the one that is written. -/
theorem length_counted (h : items.length = count.toNat) :
    (counted enc items).length = (varint count.toUInt64).length + (items.map fun a => (enc a).length).sum := by
  have hcount : UInt64.ofNat items.length = count.toUInt64 := by
    rw [ofNat_count32 (h ▸ count.toNat_lt), h, UInt32.ofNat_toNat]
  rw [counted, List.length_append, hcount, List.length_flatMap]

/-- A count that passed its check. -/
theorem toNat_le_of_not_lt {n limit : UInt32} (h : ¬ n > limit) : n.toNat ≤ limit.toNat :=
  UInt32.le_iff_toNat_le.mp (UInt32.not_lt.mp h)

end Counted

section Sections

variable {limits : Limits} {pool : AtomPool}

/-! ## Atoms -/

theorem decodeAtoms_consumes : ∀ {n i : Nat} {p p' : AtomPool} {u : Unit} {r r' : Bytes},
    Machine.Ok (AtomPool.decodeAtoms limits n i) p r u p' r' → ∃ texts, texts.length = n ∧
      p'.atoms = p.atoms ++ texts ∧ (texts.map fun s => (lpString s).length).sum + r'.length ≤ r.length
  | 0, _, p, _, _, _, _, h => by
    obtain ⟨-, rfl, rfl⟩ := Machine.pure_ok.mp h
    exact ⟨[], rfl, (List.append_nil _).symm, by simp⟩
  | n + 1, i, p, _, _, r, r', h => by
    obtain ⟨s, r1, hs, h⟩ := Machine.bind_read_ok.mp h
    rw [Machine.bind_get_ok] at h
    obtain ⟨texts, hlen, hatoms, hcost⟩ := decodeAtoms_consumes (Machine.bind_set_ok.mp h)
    obtain ⟨m, hm, -, hle⟩ := consumes_readLpString _ r s r1 hs
    refine ⟨s :: texts, by simp [hlen], by simp [hatoms], ?_⟩
    rw [List.map_cons, List.sum_cons]
    omega

/-- **The atom section.** A pool is determined by its atoms, and they are written no longer. -/
theorem decode_consumes {p p' : AtomPool} {u : Unit} {r r' : Bytes}
    (h : Machine.Ok (AtomPool.decode limits) p r u p' r') : (counted lpString p'.atoms).length ≤ r.length := by
  obtain ⟨count, r1, hcount, h⟩ := Machine.bind_read_ok.mp h
  obtain ⟨m, hm, hle⟩ := consumes_readVarintU32 r count r1 hcount
  split at h
  · exact absurd h Machine.not_fail_ok
  obtain ⟨texts, hlen, hatoms, hcost⟩ := decodeAtoms_consumes (Machine.bind_set_ok.mp h)
  rw [List.nil_append] at hatoms
  rw [hatoms, length_counted hlen]
  omega

theorem AtomPool.Indexed.eq {p p' : AtomPool} (h : p.Indexed) (h' : p'.Indexed) (hatoms : p.atoms = p'.atoms) :
    p = p' := by
  have hindex : p.index = p'.index := Finmap.ext_lookup fun s => by rw [h.lookup, h'.lookup, hatoms]
  cases p
  cases p'
  simp_all

/-! ## Kinds -/

theorem consumes_decodeField : Consumes (Schema.decodeField pool) fun f n =>
    (pool.get f.name ≠ none ∧ f.type ≠ .invalid) ∧ (fieldBytes f).length ≤ n := by
  refine consumes_readVarintU32.bind fun name n hname => .ite (fun _ => .fail _) fun hget => ?_
  refine consumes_readU8.bind fun raw m hm => ?_
  cases htype : ValueType.ofRaw? raw with
  | none => exact .fail _
  | some type =>
    refine consumes_readU8.bind fun flags k hk => .pure ⟨⟨hget, ValueType.ofRaw?_ne_invalid htype⟩, ?_⟩
    simp [fieldBytes, u8]
    omega

/-- What is read of a kind. -/
structure KindRead (limits : Limits) (pool : AtomPool) (k : KindDef) : Prop where
  name : pool.get k.name ≠ none
  count : k.fields.length ≤ limits.maxFieldsPerKind.toNat
  fields : ∀ f ∈ k.fields, pool.get f.name ≠ none ∧ f.type ≠ .invalid

theorem consumes_decodeKind : Consumes (Schema.decodeKind pool limits) fun k n =>
    KindRead limits pool k ∧ (kindBytes k).length ≤ n := by
  refine consumes_readVarintU32.bind fun name n hname => .ite (fun _ => .fail _) fun hget => ?_
  refine consumes_readVarintU32.bind fun count m hcount => .ite (fun _ => .fail _) fun hle => ?_
  refine (Consumes.listFrom (fun _ => consumes_decodeField) count.toNat 0).bind fun fields k hfields => .pure ?_
  obtain ⟨hlen, hall, hsum⟩ := hfields
  refine ⟨⟨hget, hlen ▸ toNat_le_of_not_lt hle, hall⟩, ?_⟩
  have hcost : (counted fieldBytes fields).length = _ + (fields.map fun f => (fieldBytes f).length).sum :=
    length_counted hlen
  show (varint name.toUInt64 ++ counted fieldBytes fields).length ≤ _
  rw [List.length_append]
  omega

/-- **The schema section.** -/
theorem consumes_schema : Consumes (Schema.decode pool limits) fun s n =>
    s.kinds.length ≤ limits.maxKinds.toNat ∧ (∀ k ∈ s.kinds, KindRead limits pool k) ∧
      (counted kindBytes s.kinds).length ≤ n := by
  refine consumes_readVarintU32.bind fun count n hcount => .ite (fun _ => .fail _) fun hle => ?_
  refine (Consumes.listFrom (fun _ => consumes_decodeKind) count.toNat 0).bind fun kinds m hkinds => .pure ?_
  obtain ⟨hlen, hall, hsum⟩ := hkinds
  refine ⟨hlen ▸ toNat_le_of_not_lt hle, hall, ?_⟩
  rw [length_counted hlen]
  omega

/-! ## Heap nodes -/

/-- What is read of a heap node. -/
structure HeapNodeRead (limits : Limits) (schema : Schema) (pool : AtomPool) (n : HeapNodeSets) : Prop where
  kind : ∃ k, schema.kind n.kind = some k ∧ n.sets.length ≤ k.fields.length ∧
    ∀ s ∈ n.sets, Storable limits k s
  name : n.name = kInvalidAtom ∨ pool.get n.name ≠ none

/-- The node at position `i` that is made of it. -/
def ContainerBuilder.HeapNodeSets.node (i : Nat) (n : HeapNodeSets) : Node where
  id := UInt32.ofNat i
  kind := n.kind
  name := n.name
  fields := setAll n.sets

theorem consumes_heapFields {kind : KindDef} (count : Nat) : Consumes (decodeHeapFields kind limits count)
    fun fields m => ∃ sets, setAll sets = fields ∧ sets.length = count ∧
      (∀ s ∈ sets, Storable limits kind s) ∧ (sets.map fun s => (valueBytes (encodeField s)).length).sum ≤ m := by
  unfold decodeHeapFields
  refine Consumes.mono (Consumes.loop (fun i fields m => ∃ sets, setAll sets = fields ∧ sets.length = i ∧
    (∀ s ∈ sets, Storable limits kind s) ∧ (sets.map fun s => (valueBytes (encodeField s)).length).sum ≤ m)
    ?_ count ⟨[], rfl, rfl, nofun, Nat.le_refl 0⟩) fun fields m h => ?_
  · rintro i fields m ⟨sets, rfl, hlen, hall, hsum⟩
    refine consumes_readVarintU32.bind fun idx n hidx => ?_
    cases hfd : kind.field idx with
    | none => exact .fail _
    | some fd =>
      refine ((Value.consumes_decode fd.type limits).mapError).bind fun v k hv => .pure ?_
      obtain ⟨htype, hfits, hcost⟩ := hv
      refine ⟨sets ++ [(idx, v)], by simp [setAll], by simp [hlen], ?_, ?_⟩
      · exact List.forall_mem_append.mpr ⟨hall, List.forall_mem_singleton.mpr ⟨fd, hfd, htype, hfits.2⟩⟩
      · have hone : (valueBytes (encodeField (idx, v))).length = (varint idx.toUInt64).length + v.payload.length :=
          List.length_append
        rw [List.map_append, List.sum_append, List.map_singleton, List.sum_singleton, hone]
        omega
  · rwa [Nat.zero_add, Nat.zero_add] at h

theorem consumes_heapNode {schema : Schema} (i : Nat) :
    Consumes (decodeHeapNode schema pool limits i) fun n m => ∃ part : HeapNodeSets, part.node i = n ∧
      HeapNodeRead limits schema pool part ∧ (i < 2 ^ 32 → (nodeBytes i part.spec).length ≤ m) := by
  refine consumes_readVarintU32.bind fun id n hid => .ite (fun _ => .fail _) fun hne => ?_
  refine consumes_readVarintU32.bind fun kindId n1 hkindId => ?_
  cases hkind : schema.kind kindId with
  | none => exact .fail _
  | some kind =>
    refine consumes_readVarintU32.bind fun name n2 hname => .ite (fun _ => .fail _) fun hget => ?_
    refine consumes_readVarintU32.bind fun count n3 hcount => .ite (fun _ => .fail _) fun hle => ?_
    refine (consumes_heapFields count.toNat).bind fun fields n4 hfields => .pure ?_
    obtain ⟨sets, rfl, hlen, hall, hsum⟩ := hfields
    refine ⟨{ kind := kindId, name, sets }, rfl, ⟨⟨kind, hkind, hlen ▸ Nat.le_of_not_lt hle, hall⟩, ?_⟩,
      fun hi => ?_⟩
    · by_cases heq : name = kInvalidAtom
      · exact .inl heq
      · exact .inr fun hnone => hget ⟨heq, hnone⟩
    · obtain rfl : id = UInt32.ofNat i := not_not.mp hne
      have hcost : (counted (fun s => valueBytes (encodeField s)) sets).length = _ := length_counted hlen
      have hfields : (sets.map encodeField).flatMap valueBytes = sets.flatMap fun s => valueBytes (encodeField s) :=
        List.flatMap_map ..
      simp only [counted, List.length_append] at hcost
      simp only [nodeBytes, HeapNodeSets.spec, ofNat_count32 hi, List.length_append, List.length_map, hfields]
      omega

/-- The table that `decode_heap` fills. -/
def pushAll (g : Growth) (nodes : List Node) : Vec Node :=
  nodes.foldl (fun v n => v.pushBack g n) (Vec.empty.reserve g nodes.length)

/-- The payload of the heap section. -/
def heapPayload (parts : List HeapNodeSets) : Bytes :=
  varint (UInt64.ofNat parts.length) ++ ((parts.map HeapNodeSets.spec).mapIdx nodeBytes).flatten

/-- **The heap section.** The table is determined by the nodes that are read. -/
theorem consumes_heap {schema : Schema} (g : Growth) : Consumes (decodeHeap g schema pool limits)
    fun image m => ∃ parts : List HeapNodeSets, image.nodes = pushAll g (parts.mapIdx HeapNodeSets.node) ∧
      parts.length ≤ limits.maxNodes.toNat ∧ (∀ part ∈ parts, HeapNodeRead limits schema pool part) ∧
      (heapPayload parts).length ≤ m := by
  refine consumes_readVarintU32.bind fun count n hcount => .ite (fun _ => .fail _) fun hle => ?_
  refine Consumes.bind (Consumes.loop (fun i nodes m => i ≤ count.toNat → ∃ parts : List HeapNodeSets,
    parts.length = i ∧ nodes = (parts.mapIdx HeapNodeSets.node).foldl (fun v n => v.pushBack g n)
      (Vec.empty.reserve g count.toNat) ∧ (∀ part ∈ parts, HeapNodeRead limits schema pool part) ∧
    ((parts.map HeapNodeSets.spec).mapIdx nodeBytes).flatten.length ≤ m)
    ?_ count.toNat fun _ => ⟨[], rfl, rfl, nofun, Nat.le_refl 0⟩) fun nodes m hnodes => .pure ?_
  · intro i nodes m hnodes
    refine (consumes_heapNode i).bind fun node k hnode => .pure fun hi => ?_
    obtain ⟨parts, hlen, rfl, hall, hsum⟩ := hnodes (Nat.le_of_lt hi)
    obtain ⟨part, rfl, hread, hcost⟩ := hnode
    have hlt : i < 2 ^ 32 := Nat.lt_trans hi count.toNat_lt
    refine ⟨parts ++ [part], by simp [hlen], by simp [List.mapIdx_append, hlen], ?_, ?_⟩
    · exact List.forall_mem_append.mpr ⟨hall, List.forall_mem_singleton.mpr hread⟩
    · have hone : ((parts ++ [part]).map HeapNodeSets.spec).mapIdx nodeBytes =
          (parts.map HeapNodeSets.spec).mapIdx nodeBytes ++ [nodeBytes i part.spec] := by
        simp [List.mapIdx_append, hlen]
      rw [hone, List.flatten_append, List.length_append, List.flatten_singleton]
      have := hcost hlt
      omega
  · obtain ⟨parts, hlen, rfl, hall, hsum⟩ := hnodes (by omega)
    rw [Nat.zero_add] at hlen
    refine ⟨parts, ?_, hlen ▸ toNat_le_of_not_lt hle, hall, ?_⟩
    · rw [pushAll, List.length_mapIdx, hlen]
    · rw [heapPayload, List.length_append, ofNat_count32 (hlen ▸ count.toNat_lt), hlen, UInt32.ofNat_toNat]
      omega

/-! ## XREF and META entries -/

theorem consumes_readPair : Consumes readPair fun e n => (pairBytes e).length ≤ n := by
  refine consumes_readVarintU32.bind fun a n ha => consumes_readVarintU32.bind fun b m hb => .pure ?_
  show (varint a.toUInt64 ++ varint b.toUInt64).length ≤ n + m
  rw [List.length_append]
  omega

/-- A name that passed its check. -/
theorem named_of_not_bad {name : AtomId} (h : ¬ (name ≠ kInvalidAtom ∧ pool.get name = none)) :
    name = kInvalidAtom ∨ pool.get name ≠ none := by
  by_cases heq : name = kInvalidAtom
  · exact .inl heq
  · exact .inr fun hnone => h ⟨heq, hnone⟩

/-- **The XREF section.** -/
theorem consumes_xref (index : XrefIndex) (nodeCount : Nat) :
    Consumes (index.decodeAndReconcile pool limits nodeCount) fun w n => ∃ entries,
      w = index.disagreements entries ∧ entries.length ≤ limits.maxNodes.toNat ∧
      (∀ e ∈ entries, (e.1 = kInvalidAtom ∨ pool.get e.1 ≠ none) ∧ XrefIndex.EntryInRange nodeCount e) ∧
      (counted pairBytes entries).length ≤ n := by
  refine consumes_readVarintU32.bind fun count n hcount => .ite (fun _ => .fail _) fun hle => ?_
  refine Consumes.mono (Consumes.loop (fun i w m => ∃ entries, w = index.disagreements entries ∧
    entries.length = i ∧
    (∀ e ∈ entries, (e.1 = kInvalidAtom ∨ pool.get e.1 ≠ none) ∧ XrefIndex.EntryInRange nodeCount e) ∧
    (entries.map fun e => (pairBytes e).length).sum ≤ m)
    ?_ count.toNat ⟨[], rfl, rfl, nofun, Nat.le_refl 0⟩) fun w m hw => ?_
  · rintro i w m ⟨entries, rfl, hlen, hall, hsum⟩
    refine consumes_readPair.bind fun e k he => .ite (fun _ => .fail _) fun hname =>
      .ite (fun _ => .fail _) fun hnode => .pure ?_
    have hrange : XrefIndex.EntryInRange nodeCount e := by
      by_cases heq : e.2 = kInvalidNode
      · exact .inl heq
      · exact .inr (Nat.lt_of_not_le fun hge => hnode ⟨heq, hge⟩)
    refine ⟨entries ++ [e], ?_, by simp [hlen], ?_, ?_⟩
    · simp [XrefIndex.disagreements]
    · exact List.forall_mem_append.mpr
        ⟨hall, List.forall_mem_singleton.mpr ⟨named_of_not_bad hname, hrange⟩⟩
    · rw [List.map_append, List.sum_append, List.map_singleton, List.sum_singleton]
      omega
  · obtain ⟨entries, rfl, hlen, hall, hsum⟩ := hw
    rw [Nat.zero_add] at hlen
    refine ⟨entries, rfl, hlen ▸ toNat_le_of_not_lt hle, hall, ?_⟩
    have hcost : (counted pairBytes entries).length = _ + (entries.map fun e => (pairBytes e).length).sum :=
      length_counted hlen
    omega

theorem decodeMetaPairs_consumes : ∀ {n : Nat} {out out' : UMap AtomId AtomId} {u : Unit} {r r' : Bytes},
    Machine.Ok (decodeMetaPairs pool n) out r u out' r' → ∃ entries : List (AtomId × AtomId),
      entries.length = n ∧ out' = entries.foldl (fun out e => out.insert e.1 e.2) out ∧
      (∀ e ∈ entries, pool.get e.1 ≠ none ∧ (e.2 = kInvalidAtom ∨ pool.get e.2 ≠ none)) ∧
      (entries.map fun e => (pairBytes e).length).sum + r'.length ≤ r.length
  | 0, _, _, _, _, _, h => by
    obtain ⟨-, rfl, rfl⟩ := Machine.pure_ok.mp h
    exact ⟨[], rfl, rfl, nofun, by simp⟩
  | n + 1, out, _, _, r, r', h => by
    obtain ⟨e, r1, he, h⟩ := Machine.bind_read_ok.mp h
    split at h
    · exact absurd h Machine.not_fail_ok
    rename_i hkey
    split at h
    · exact absurd h Machine.not_fail_ok
    rename_i hvalue
    obtain ⟨entries, hlen, hout, hall, hsum⟩ := decodeMetaPairs_consumes (Machine.bind_modify_ok.mp h)
    obtain ⟨m, hm, hle⟩ := consumes_readPair r e r1 he
    refine ⟨e :: entries, by simp [hlen], hout, ?_, ?_⟩
    · exact List.forall_mem_cons.mpr ⟨⟨hkey, named_of_not_bad hvalue⟩, hall⟩
    · rw [List.map_cons, List.sum_cons]
      omega

/-- **The META section.** -/
theorem decodeMetaSection_consumes {out out' : UMap AtomId AtomId} {u : Unit} {r r' : Bytes}
    (h : Machine.Ok (decodeMetaSection pool limits) out r u out' r') : ∃ entries : List (AtomId × AtomId),
      out' = entries.foldl (fun out e => out.insert e.1 e.2) out ∧ entries.length ≤ limits.maxAtoms.toNat ∧
      (∀ e ∈ entries, pool.get e.1 ≠ none ∧ (e.2 = kInvalidAtom ∨ pool.get e.2 ≠ none)) ∧
      (counted pairBytes entries).length ≤ r.length := by
  obtain ⟨count, r1, hcount, h⟩ := Machine.bind_read_ok.mp h
  obtain ⟨m, hm, hle⟩ := consumes_readVarintU32 r count r1 hcount
  split at h
  · exact absurd h Machine.not_fail_ok
  rename_i hlimit
  obtain ⟨entries, hlen, hout, hall, hsum⟩ := decodeMetaPairs_consumes h
  refine ⟨entries, hout, hlen ▸ toNat_le_of_not_lt hlimit, hall, ?_⟩
  have hcost : (counted pairBytes entries).length = _ + (entries.map fun e => (pairBytes e).length).sum :=
    length_counted hlen
  omega

/-! ## The journal -/

theorem consumes_readOperands (ty : FieldTypes) (code : OpCode) :
    Consumes (readOperands ty limits code) fun op n => op.operands.length ≤ n := by
  cases code with
  | newNode | beginGroup | setMeta =>
    refine consumes_readVarintU32.bind fun a n ha => consumes_readVarintU32.bind fun b m hb => .pure ?_
    rw [Op.operands, List.length_append]
    omega
  | setField =>
    refine consumes_readVarintU32.bind fun a n ha => consumes_readVarintU32.bind fun b m hb => ?_
    refine (Value.consumes_decode _ limits).bind fun v k hv => .pure ?_
    rw [Op.operands, List.length_append, List.length_append]
    omega
  | linkRef =>
    refine consumes_readVarintU32.bind fun a n ha => consumes_readVarintU32.bind fun b m hb => ?_
    refine consumes_readVarintU32.bind fun c k hc => .pure ?_
    rw [Op.operands, List.length_append, List.length_append]
    omega
  | addChild | dropNode | snapshot => exact consumes_readVarintU32.bind fun a n ha => .pure ha
  | endGroup | nop => exact .pure (Nat.le_refl 0)

theorem consumes_readOp (ty : FieldTypes) : Consumes (readOp ty limits) fun op n => op.encode.length ≤ n := by
  intro r op r' h
  obtain ⟨raw, r1, hraw, -, hops⟩ := readOp_eq_ok.mp h
  obtain ⟨n, hn, rfl⟩ := consumes_readU8 r raw r1 hraw
  obtain ⟨m, hm, hle⟩ := consumes_readOperands ty op.code r1 op r' hops
  refine ⟨1 + m, by omega, ?_⟩
  show (u8 op.code.raw ++ op.operands).length ≤ 1 + m
  rw [List.length_append]
  exact Nat.add_le_add_left hle 1

/-- What is replayed is written no longer. -/
theorem Replays.length_le {env : Env} {ops : List Op} {vm vm' : ReplayVM} {r r' : Bytes}
    (h : Replays env ops vm r vm' r') : (ops.map fun op => op.encode.length).sum + r'.length ≤ r.length := by
  induction h with
  | nil => simp
  | @cons op ops vm r vm1 r1 vm' r' hread _ _ ih =>
    obtain ⟨n, hn, hle⟩ := consumes_readOp _ r op r1 hread
    rw [List.map_cons, List.sum_cons]
    omega

/-- **The journal section.** What a run executes performs, and can be written again. -/
theorem performs_of_run {env : Env} {vm vm' : ReplayVM} {journal r : Bytes}
    (h : Machine.Ok (run env) vm journal () vm' r) : ∃ ops, Performs env ops vm vm' ∧ vm'.frames = [] ∧
      ops.length ≤ env.limits.maxJournalOps.toNat ∧ (journalOf ops).length ≤ journal.length := by
  obtain ⟨count, r1, ops, hcount, hle, hlen, hrep, hframes⟩ := run_ok_iff.mp h
  obtain ⟨n, hn, hcost⟩ := consumes_readVarintU32 journal count r1 hcount
  have hsum := hrep.length_le
  refine ⟨ops, hrep.performs, hframes, hlen ▸ UInt32.le_iff_toNat_le.mp hle, ?_⟩
  show (counted Op.encode ops).length ≤ _
  rw [length_counted hlen]
  omega

/-- The values of opcodes that are performed fit. -/
theorem Performs.fits {env : Env} {ops : List Op} {vm vm' : ReplayVM} (h : Performs env ops vm vm') :
    ∀ node field v, .setField node field v ∈ ops → v.Fits env.limits := by
  induction h with
  | nil => exact nofun
  | cons htyped _ _ ih =>
    intro node field v hm
    rcases List.mem_cons.mp hm with rfl | hm
    · exact htyped.2
    · exact ih node field v hm

end Sections

end Stratavm
