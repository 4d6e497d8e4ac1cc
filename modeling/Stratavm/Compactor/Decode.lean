import Stratavm.Compactor

/-!
# What the compactor decodes

The compactor has its own decoder, with a switch over the opcodes that repeats the one of the machine. It
knows no VM: the type of a `SET_FIELD` is looked up by the kind that the node id has in `node_kinds`, which
only the `NEW_NODE`s before it have filled.

`Decodes` is a decoded journal: the opcodes next to the records made of them, with the state of the decoder
before and after. What is proved about compaction is proved of the opcodes, and carried to the records here.

* **`decodeOp_ok_iff`**: the compactor reads the opcodes that `readOp` reads, under the types its own
  `node_kinds` give.
* `toOp_record`: a record still has its opcode. It is encoded as that, without its hint
  (`Compactor/Marking.lean`).
* **`compact_eq_ok`**: `compact` succeeds iff the announced opcodes decode and leave no group open. The
  passes after that have no error path.
-/

namespace Stratavm

open Lib

/-- The opcode of a record. -/
def OpRecord.toOp (record : OpRecord) : Op :=
  match record.op with
  | .newNode => .newNode record.kind record.nameAtom
  | .setField => .setField record.nodeId record.fieldIdx record.value
  | .beginGroup => .beginGroup record.nameAtom record.reserveHint
  | .endGroup => .endGroup
  | .addChild => .addChild record.targetAtom
  | .linkRef => .linkRef record.nodeId record.fieldIdx record.targetAtom
  | .dropNode => .dropNode record.nodeId
  | .snapshot => .snapshot record.nameAtom
  | .setMeta => .setMeta record.metaKey record.metaVal
  | .nop => .nop

theorem OpRecord.code_toOp (record : OpRecord) : record.toOp.code = record.op := by
  unfold OpRecord.toOp
  cases h : record.op <;> rfl

/-- An opcode with the hint of a `BEGIN_GROUP` lost. -/
def Op.withoutHint : Op → Op
  | .beginGroup owner _ => .beginGroup owner 0
  | op => op

namespace JournalCompactor

/-- The record `decode_op` makes of an opcode. -/
def DecodeState.record (st : DecodeState) : Op → OpRecord
  | .newNode kind nameAtom =>
    { op := .newNode, kind, nameAtom, nodeId := UInt32.ofNat st.nodeKinds.length }
  | .setField nodeId fieldIdx value => { op := .setField, nodeId, fieldIdx, value }
  | .beginGroup nameAtom reserveHint => { op := .beginGroup, nameAtom, reserveHint }
  | .endGroup =>
    match st.groupStack with
    | [] => { op := .endGroup }
    | top :: _ =>
      { op := .endGroup, nameAtom := top.nameAtom, reserveHint := top.reserveHint,
        groupChildren := top.groupChildren }
  | .addChild targetAtom => { op := .addChild, targetAtom }
  | .linkRef nodeId fieldIdx targetAtom => { op := .linkRef, nodeId, fieldIdx, targetAtom }
  | .dropNode nodeId => { op := .dropNode, nodeId }
  | .snapshot nameAtom => { op := .snapshot, nameAtom }
  | .setMeta metaKey metaVal => { op := .setMeta, metaKey, metaVal }
  | .nop => { op := .nop }

/-- The state `decode_op` leaves. -/
def DecodeState.next (st : DecodeState) : Op → DecodeState
  | .newNode kind _ => { st with nodeKinds := st.nodeKinds ++ [kind] }
  | .beginGroup nameAtom reserveHint =>
    { st with groupStack := { op := .beginGroup, nameAtom, reserveHint } :: st.groupStack }
  | .endGroup => { st with groupStack := st.groupStack.tail }
  | .addChild child =>
    { st with
      groupStack := st.groupStack.modifyHead fun top =>
        { top with groupChildren := top.groupChildren ++ [child] } }
  | .setField _ _ _ | .linkRef _ _ _ | .dropNode _ | .snapshot _ | .setMeta _ _
  | .nop => st

/-- `ops` are decoded from `r` in the state `st`, as these records, leaving `st'` and `r'`. -/
inductive Decodes (schema : Schema) :
    List Op → DecodeState → Bytes → List OpRecord → DecodeState → Bytes → Prop
  | nil {st r} : Decodes schema [] st r [] st r
  | cons {op ops st r r1 records st' r'}
      (hread : readOp (readType schema st.nodeKinds) {} r = .ok (op, r1))
      (hgroup : op = .endGroup → st.groupStack ≠ [])
      (hrest : Decodes schema ops (st.next op) r1 records st' r') :
      Decodes schema (op :: ops) st r (st.record op :: records) st' r'

variable {schema : Schema} {st st' : DecodeState} {r r' : Bytes} {record : OpRecord}

theorem toOp_record (st : DecodeState) (op : Op) : (st.record op).toOp = op := by
  cases op with
  | endGroup =>
    unfold DecodeState.record
    cases st.groupStack <;> rfl
  | _ => rfl

/-- The operands are read as `readOperands` reads them. -/
theorem decodeOperands_ok_iff (code : OpCode) :
    Machine.Ok (decodeOperands schema code) st r record st' r' ↔
      ∃ op, readOperands (readType schema st.nodeKinds) {} code r = .ok (op, r') ∧
        (op = .endGroup → st.groupStack ≠ []) ∧ record = st.record op ∧ st' = st.next op := by
  cases code with
  | newNode =>
    simp only [decodeOperands, readOperands, Machine.bind_read_ok, Machine.bind_get_ok,
      Machine.bind_set_ok, Machine.pure_ok, Decoder.bind_eq_ok, Decoder.pure_eq_ok]
    constructor
    · rintro ⟨kind, r1, hk, name, r2, hn, rfl, rfl, rfl⟩
      exact ⟨_, ⟨kind, r1, hk, name, _, hn, rfl, rfl⟩, by rintro ⟨⟩, rfl, rfl⟩
    · rintro ⟨_, ⟨kind, r1, hk, name, r2, hn, rfl, rfl⟩, -, rfl, rfl⟩
      exact ⟨kind, r1, hk, name, _, hn, rfl, rfl, rfl⟩
  | setField =>
    simp only [decodeOperands, readOperands, Machine.bind_read_ok, Machine.bind_get_ok,
      Machine.pure_ok, Decoder.bind_eq_ok, Decoder.pure_eq_ok]
    constructor
    · rintro ⟨node, r1, hnode, field, r2, hf, value, r3, hv, rfl, rfl, rfl⟩
      exact ⟨_, ⟨node, r1, hnode, field, r2, hf, value, _, hv, rfl, rfl⟩, by rintro ⟨⟩, rfl, rfl⟩
    · rintro ⟨_, ⟨node, r1, hnode, field, r2, hf, value, r3, hv, rfl, rfl⟩, -, rfl, rfl⟩
      exact ⟨node, r1, hnode, field, r2, hf, value, _, hv, rfl, rfl, rfl⟩
  | beginGroup =>
    simp only [decodeOperands, readOperands, Machine.bind_read_ok, Machine.bind_modify_ok,
      Machine.pure_ok, Decoder.bind_eq_ok, Decoder.pure_eq_ok]
    constructor
    · rintro ⟨name, r1, hn, hint, r2, hh, rfl, rfl, rfl⟩
      exact ⟨_, ⟨name, r1, hn, hint, _, hh, rfl, rfl⟩, by rintro ⟨⟩, rfl, rfl⟩
    · rintro ⟨_, ⟨name, r1, hn, hint, r2, hh, rfl, rfl⟩, -, rfl, rfl⟩
      exact ⟨name, r1, hn, hint, _, hh, rfl, rfl, rfl⟩
  | endGroup =>
    simp only [decodeOperands, readOperands, Machine.bind_get_ok, Decoder.pure_eq_ok]
    cases hstack : st.groupStack with
    | nil =>
      constructor
      · exact fun h => absurd h Machine.not_fail_ok
      · rintro ⟨op, ⟨rfl, rfl⟩, hopen, -, -⟩
        exact absurd rfl (hopen rfl)
    | cons top stack =>
      simp only [Machine.bind_set_ok, Machine.pure_ok]
      constructor
      · rintro ⟨rfl, rfl, rfl⟩
        refine ⟨.endGroup, ⟨rfl, rfl⟩, fun _ => List.cons_ne_nil _ _, ?_, ?_⟩
        · rw [DecodeState.record, hstack]
        · rw [DecodeState.next, hstack, List.tail_cons]
      · rintro ⟨_, ⟨rfl, rfl⟩, -, rfl, rfl⟩
        rw [DecodeState.record, DecodeState.next, hstack, List.tail_cons]
        exact ⟨rfl, rfl, rfl⟩
  | addChild =>
    simp only [decodeOperands, readOperands, Machine.bind_read_ok, Machine.bind_modify_ok,
      Machine.pure_ok, Decoder.bind_eq_ok, Decoder.pure_eq_ok]
    constructor
    · rintro ⟨child, r1, hc, rfl, rfl, rfl⟩
      exact ⟨_, ⟨child, _, hc, rfl, rfl⟩, by rintro ⟨⟩, rfl, rfl⟩
    · rintro ⟨_, ⟨child, r1, hc, rfl, rfl⟩, -, rfl, rfl⟩
      exact ⟨child, _, hc, rfl, rfl, rfl⟩
  | linkRef =>
    simp only [decodeOperands, readOperands, Machine.bind_read_ok, Machine.pure_ok,
      Decoder.bind_eq_ok, Decoder.pure_eq_ok]
    constructor
    · rintro ⟨src, r1, hs, field, r2, hf, target, r3, ht, rfl, rfl, rfl⟩
      exact ⟨_, ⟨src, r1, hs, field, r2, hf, target, _, ht, rfl, rfl⟩, by rintro ⟨⟩, rfl, rfl⟩
    · rintro ⟨_, ⟨src, r1, hs, field, r2, hf, target, r3, ht, rfl, rfl⟩, -, rfl, rfl⟩
      exact ⟨src, r1, hs, field, r2, hf, target, _, ht, rfl, rfl, rfl⟩
  | dropNode | snapshot =>
    simp only [decodeOperands, readOperands, Machine.bind_read_ok, Machine.pure_ok,
      Decoder.bind_eq_ok, Decoder.pure_eq_ok]
    constructor
    · rintro ⟨operand, r1, ho, rfl, rfl, rfl⟩
      exact ⟨_, ⟨operand, _, ho, rfl, rfl⟩, by rintro ⟨⟩, rfl, rfl⟩
    · rintro ⟨_, ⟨operand, r1, ho, rfl, rfl⟩, -, rfl, rfl⟩
      exact ⟨operand, _, ho, rfl, rfl, rfl⟩
  | setMeta =>
    simp only [decodeOperands, readOperands, Machine.bind_read_ok, Machine.pure_ok,
      Decoder.bind_eq_ok, Decoder.pure_eq_ok]
    constructor
    · rintro ⟨key, r1, hk, value, r2, hv, rfl, rfl, rfl⟩
      exact ⟨_, ⟨key, r1, hk, value, _, hv, rfl, rfl⟩, by rintro ⟨⟩, rfl, rfl⟩
    · rintro ⟨_, ⟨key, r1, hk, value, r2, hv, rfl, rfl⟩, -, rfl, rfl⟩
      exact ⟨key, r1, hk, value, _, hv, rfl, rfl, rfl⟩
  | nop =>
    simp only [decodeOperands, readOperands, Machine.pure_ok, Decoder.pure_eq_ok]
    constructor
    · rintro ⟨rfl, rfl, rfl⟩
      exact ⟨.nop, ⟨rfl, rfl⟩, by rintro ⟨⟩, rfl, rfl⟩
    · rintro ⟨_, ⟨rfl, rfl⟩, -, rfl, rfl⟩
      exact ⟨rfl, rfl, rfl⟩

/-- **The compactor reads the opcodes of the journal**, typed by its own node kinds. -/
theorem decodeOp_ok_iff : Machine.Ok (decodeOp schema) st r record st' r' ↔
    ∃ op, readOp (readType schema st.nodeKinds) {} r = .ok (op, r') ∧
      (op = .endGroup → st.groupStack ≠ []) ∧ record = st.record op ∧ st' = st.next op := by
  unfold decodeOp readOp
  rw [Machine.bind_read_ok]
  constructor
  · rintro ⟨raw, r1, hraw, h⟩
    cases hc : OpCode.ofRaw? raw with
    | none =>
      rw [hc] at h
      exact absurd h Machine.not_fail_ok
    | some code =>
      rw [hc] at h
      obtain ⟨op, hop, hrest⟩ := (decodeOperands_ok_iff code).mp h
      refine ⟨op, Decoder.bind_eq_ok.mpr ⟨raw, r1, hraw, ?_⟩, hrest⟩
      rw [hc]
      exact hop
  · rintro ⟨op, hop, hrest⟩
    obtain ⟨raw, r1, hraw, h⟩ := Decoder.bind_eq_ok.mp hop
    refine ⟨raw, r1, hraw, ?_⟩
    cases hc : OpCode.ofRaw? raw with
    | none =>
      rw [hc] at h
      exact absurd h fail_ne_ok
    | some code =>
      rw [hc] at h
      exact (decodeOperands_ok_iff code).mpr ⟨op, h, hrest⟩

theorem decodeOps_ok_iff {n : Nat} {records : List OpRecord} :
    Machine.Ok (decodeOps schema n) st r records st' r' ↔
      ∃ ops : List Op, ops.length = n ∧ Decodes schema ops st r records st' r' := by
  induction n generalizing st r records st' r' with
  | zero =>
    simp only [decodeOps, Machine.pure_ok]
    constructor
    · rintro ⟨rfl, rfl, rfl⟩
      exact ⟨[], rfl, .nil⟩
    · rintro ⟨ops, hlen, h⟩
      cases h with
      | nil => exact ⟨rfl, rfl, rfl⟩
      | cons => cases hlen
  | succ n ih =>
    simp only [decodeOps, Machine.bind_ok, decodeOp_ok_iff, ih, Machine.pure_ok]
    constructor
    · rintro ⟨_, _, r1, ⟨op, hread, hgroup, rfl, rfl⟩, _, _, _, ⟨ops, hlen, h⟩, rfl, rfl, rfl⟩
      exact ⟨op :: ops, congrArg (· + 1) hlen, .cons hread hgroup h⟩
    · rintro ⟨ops, hlen, h⟩
      cases h with
      | nil => cases hlen
      | cons hread hgroup h =>
        exact ⟨_, _, _, ⟨_, hread, hgroup, rfl, rfl⟩, _, _, _, ⟨_, Nat.succ.inj hlen, h⟩, rfl, rfl,
          rfl⟩

/-- **`compact` succeeds** iff the announced opcodes decode and leave no group open. -/
theorem compact_eq_ok {res : CompactionResult} : compact schema r = .ok res ↔
    ∃ count r1 ops records st' r', readVarintU32 r = .ok (count, r1) ∧ ops.length = count.toNat ∧
      Decodes schema ops {} r1 records st' r' ∧ st'.groupStack = [] ∧ res = compactOps records := by
  have hrun : compact schema r = .ok res ↔
      ∃ st' r', Machine.Ok (compactJournal schema) {} r res st' r' := by
    unfold compact Machine.Ok
    rcases compactJournal schema {} r with ⟨e | ⟨a, r'⟩, st'⟩
    · simp [Except.map]
    · simp [Except.map]
  rw [hrun]
  unfold compactJournal
  constructor
  · rintro ⟨st', r', h⟩
    obtain ⟨count, r1, hcount, h⟩ := Machine.bind_read_ok.mp h
    obtain ⟨records, st2, r2, hops, h⟩ := Machine.bind_ok.mp h
    obtain ⟨ops, hlen, hdec⟩ := decodeOps_ok_iff.mp hops
    have h := Machine.bind_get_ok.mp h
    split at h
    · exact absurd h Machine.not_fail_ok
    · rename_i hopen
      obtain ⟨rfl, rfl, rfl⟩ := Machine.pure_ok.mp h
      exact ⟨count, r1, ops, records, _, _, hcount, hlen, hdec, by simpa using hopen, rfl⟩
  · rintro ⟨count, r1, ops, records, st', r', hcount, hlen, hdec, hclosed, rfl⟩
    refine ⟨st', r', Machine.bind_read_ok.mpr ⟨count, r1, hcount, ?_⟩⟩
    refine Machine.bind_ok.mpr ⟨records, st', r', decodeOps_ok_iff.mpr ⟨ops, hlen, hdec⟩, ?_⟩
    rw [Machine.bind_get_ok, if_neg (by simp [hclosed])]
    exact Machine.pure_ok.mpr ⟨rfl, rfl, rfl⟩

end JournalCompactor

end Stratavm
