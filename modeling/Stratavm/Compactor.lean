import Stratavm.ReplayVm.Exec

/-!
# The journal compactor

`JournalCompactor` (`compactor.hpp`, `compactor.cpp`): decodes a whole journal, marks the opcodes that
are not needed, and encodes the rest. It never sees a VM: node ids, kinds and liveness are rebuilt
from the `NEW_NODE` and `DROP_NODE` opcodes alone. The passes are in the source's order; a counter of
`CompactionStats` is the number of records its pass marks.

A record keeps what the source's record keeps, the mark included, and a pass is a function from records
to records. `Compactor/Marking.lean` says which records each of them marks, and the modules after it what
that does to a run.

Out of scope: an allocation that fails. `compact` reserves as many records as the journal's count says
and, unlike `run`, compares the count with no limit.
-/

namespace Stratavm

open Lib

/-- `OpRecord`. -/
structure OpRecord where
  op : OpCode := .nop
  nodeId : UInt32 := 0
  kind : UInt32 := 0
  nameAtom : UInt32 := 0
  fieldIdx : UInt32 := 0
  value : Value := .invalid
  targetAtom : UInt32 := 0
  reserveHint : UInt32 := 0
  groupChildren : List UInt32 := []
  metaKey : UInt32 := 0
  metaVal : UInt32 := 0
  dead : Bool := false
  deriving DecidableEq

/-- `CompactionStats`. -/
structure CompactionStats where
  inputOpCount : UInt32 := 0
  outputOpCount : UInt32 := 0
  deadNodeOpsRemoved : UInt32 := 0
  redundantFieldSetsRemoved : UInt32 := 0
  nopsRemoved : UInt32 := 0
  deadGroupOpsRemoved : UInt32 := 0
  deriving DecidableEq

/-- `CompactionResult`. -/
structure CompactionResult where
  journalBytes : Bytes := []
  stats : CompactionStats := {}
  deriving DecidableEq

namespace JournalCompactor

/-! ## Decoding -/

/-- What `decode_op` carries from one opcode to the next: `node_kinds`, and `group_stack` with the
innermost group first. -/
structure DecodeState where
  nodeKinds : List KindId := []
  groupStack : List OpRecord := []

section Decode

variable (schema : Schema)

/-- `field_type_for`. -/
def fieldTypeFor (nodeKinds : List KindId) (nodeId : UInt32) (fieldIdx : UInt32) : ValueType :=
  match nodeKinds[nodeId.toNat]? with
  | none => .invalid
  | some kindId => schema.fieldType kindId fieldIdx

/-- The type `decode_op` reads a value with: an unknown one is read as `Int`. -/
def readType (nodeKinds : List KindId) : FieldTypes := fun nodeId fieldIdx =>
  let vtype := fieldTypeFor schema nodeKinds nodeId fieldIdx
  if vtype = .invalid then .int else vtype

/-- The `switch` of `decode_op`. -/
def decodeOperands : OpCode → Machine Status DecodeState OpRecord
  | .newNode => do
    let kind ← Machine.read id readVarintU32
    let nameAtom ← Machine.read id readVarintU32
    let st ← Machine.get
    Machine.set { st with nodeKinds := st.nodeKinds ++ [kind] }
    pure { op := .newNode, kind, nameAtom, nodeId := UInt32.ofNat st.nodeKinds.length }
  | .setField => do
    let nodeId ← Machine.read id readVarintU32
    let fieldIdx ← Machine.read id readVarintU32
    let st ← Machine.get
    let value ← Machine.read id (Value.decode (readType schema st.nodeKinds nodeId fieldIdx) {})
    pure { op := .setField, nodeId, fieldIdx, value }
  | .beginGroup => do
    let nameAtom ← Machine.read id readVarintU32
    let reserveHint ← Machine.read id readVarintU32
    let record : OpRecord := { op := .beginGroup, nameAtom, reserveHint }
    Machine.modify fun st => { st with groupStack := record :: st.groupStack }
    pure record
  | .endGroup => do
    let st ← Machine.get
    match st.groupStack with
    | [] => Machine.fail ⟨.groupUnderflow, "EndGroup without BeginGroup"⟩
    | top :: groupStack => do
      Machine.set { st with groupStack }
      pure
        { op := .endGroup, nameAtom := top.nameAtom, reserveHint := top.reserveHint,
          groupChildren := top.groupChildren }
  | .addChild => do
    let targetAtom ← Machine.read id readVarintU32
    Machine.modify fun st => { st with
      groupStack := st.groupStack.modifyHead fun top =>
        { top with groupChildren := top.groupChildren ++ [targetAtom] } }
    pure { op := .addChild, targetAtom }
  | .linkRef => do
    let nodeId ← Machine.read id readVarintU32
    let fieldIdx ← Machine.read id readVarintU32
    let targetAtom ← Machine.read id readVarintU32
    pure { op := .linkRef, nodeId, fieldIdx, targetAtom }
  | .dropNode => do
    let nodeId ← Machine.read id readVarintU32
    pure { op := .dropNode, nodeId }
  | .snapshot => do
    let nameAtom ← Machine.read id readVarintU32
    pure { op := .snapshot, nameAtom }
  | .setMeta => do
    let metaKey ← Machine.read id readVarintU32
    let metaVal ← Machine.read id readVarintU32
    pure { op := .setMeta, metaKey, metaVal }
  | .nop => pure { op := .nop }

/-- `decode_op`. -/
def decodeOp : Machine Status DecodeState OpRecord := do
  let raw ← Machine.read id readU8
  match OpCode.ofRaw? raw with
  | none => Machine.fail ⟨.badOpcode, "unknown opcode in compact"⟩
  | some op => decodeOperands schema op

/-- Phase 2, `n` opcodes left. -/
def decodeOps : Nat → Machine Status DecodeState (List OpRecord)
  | 0 => pure []
  | n + 1 => do
    let record ← decodeOp schema
    let ops ← decodeOps n
    pure (record :: ops)

end Decode

/-! ## Encoding -/

/-- `encode_value`. -/
def encodeValue (v : Value) : Bytes :=
  match v.type with
  | .int => svarint v.asInt
  | .float => f64 v.asFloat
  | .atom => varint v.asAtom.toUInt64
  | .ref => varint v.asRef.toUInt64
  | .list =>
    varint (UInt64.ofNat v.asList.length) ++ v.asList.flatMap fun nid => varint nid.toUInt64
  | .invalid => svarint 0

/-- A valid value is encoded as its payload. -/
theorem encodeValue_eq {v : Value} (h : v.type ≠ .invalid) : encodeValue v = v.payload := by
  cases v with
  | invalid => exact absurd rfl h
  | _ => simp [encodeValue, Value.type, Value.payload]

/-- `encode_op`. The hint of a `BEGIN_GROUP` is the number of children of the record. -/
def encodeOp (record : OpRecord) : Bytes :=
  u8 record.op.raw ++
    match record.op with
    | .newNode => varint record.kind.toUInt64 ++ varint record.nameAtom.toUInt64
    | .setField =>
      varint record.nodeId.toUInt64 ++ (varint record.fieldIdx.toUInt64 ++ encodeValue record.value)
    | .beginGroup =>
      varint record.nameAtom.toUInt64 ++ varint (UInt64.ofNat record.groupChildren.length)
    | .endGroup => []
    | .addChild => varint record.targetAtom.toUInt64
    | .linkRef =>
      varint record.nodeId.toUInt64 ++
        (varint record.fieldIdx.toUInt64 ++ varint record.targetAtom.toUInt64)
    | .dropNode => varint record.nodeId.toUInt64
    | .snapshot => varint record.nameAtom.toUInt64
    | .setMeta => varint record.metaKey.toUInt64 ++ varint record.metaVal.toUInt64
    | .nop => []

/-! ## Marking -/

/-- `rec.dead = true`. -/
def kill (record : OpRecord) : OpRecord := { record with dead := true }

/-- Phase 3: `live_nodes`. Ids are counted from 0, one for each `NEW_NODE`. -/
def liveNodes (ops : List OpRecord) : Finset UInt32 :=
  (ops.foldl (fun (next, live) record =>
    match record.op with
    | .newNode => (next + 1, insert next live)
    | .dropNode => (next, live.erase record.nodeId)
    | _ => (next, live)) ((0, ∅) : UInt32 × Finset UInt32)).2

/-- Phase 4a. -/
def markNops (ops : List OpRecord) : List OpRecord :=
  ops.map fun record => if record.op = .nop then kill record else record

/-- Phase 4b: from the last opcode to the first, with the keys of `seen_last` so far, and the number
of records marked. -/
def markRedundant : List OpRecord → List OpRecord × List (UInt32 × UInt32) × Nat
  | [] => ([], [], 0)
  | record :: ops =>
    let (ops, seen, count) := markRedundant ops
    if record.op = .setField then
      if (record.nodeId, record.fieldIdx) ∈ seen then (kill record :: ops, seen, count + 1)
      else (record :: ops, (record.nodeId, record.fieldIdx) :: seen, count)
    else (record :: ops, seen, count)

/-- A record that phase 4c marks. -/
def OnDeadNode (live : Finset UInt32) (record : OpRecord) : Prop :=
  record.dead = false ∧ (record.op = .setField ∨ record.op = .linkRef) ∧ record.nodeId ∉ live

instance (live : Finset UInt32) : DecidablePred (OnDeadNode live) := fun _ =>
  inferInstanceAs (Decidable (_ ∧ _))

/-- Phase 4c. -/
def markDeadNodes (live : Finset UInt32) (ops : List OpRecord) : List OpRecord :=
  ops.map fun record => if OnDeadNode live record then kill record else record

/-- The `GroupFrame` of phase 4d: positions in `ops`. -/
structure GroupPair where
  beginIdx : Nat
  endIdx : Nat := 0
  childIndices : List Nat := []
  deriving DecidableEq

/-- The pairing loop of phase 4d from position `i`: `frame_stack`, innermost first, to
`completed_frames`. -/
def pairGroups : List OpRecord → Nat → List GroupPair → List GroupPair → List GroupPair
  | [], _, _, completed => completed
  | record :: ops, i, stack, completed =>
    if record.dead then pairGroups ops (i + 1) stack completed
    else
      match record.op, stack with
      | .beginGroup, _ => pairGroups ops (i + 1) ({ beginIdx := i } :: stack) completed
      | .endGroup, top :: stack =>
        pairGroups ops (i + 1) stack (completed ++ [{ top with endIdx := i }])
      | .addChild, top :: stack =>
        pairGroups ops (i + 1) ({ top with childIndices := top.childIndices ++ [i] } :: stack)
          completed
      | _, _ => pairGroups ops (i + 1) stack completed

/-- `ops[i].dead`. -/
def deadAt (ops : List OpRecord) (i : Nat) : Bool := (ops[i]?.map OpRecord.dead).getD false

/-- One completed frame of phase 4d: with no child left, the whole group is marked. The second
component counts the records marked. -/
def markGroup (marked : List OpRecord × Nat) (pair : GroupPair) : List OpRecord × Nat :=
  if pair.childIndices.any (fun c => !deadAt marked.1 c) then marked
  else
    pair.childIndices.foldl (fun marked c =>
      if deadAt marked.1 c then marked else (marked.1.modify c kill, marked.2 + 1))
      ((marked.1.modify pair.beginIdx kill).modify pair.endIdx kill, marked.2 + 2)

/-- Phase 4d. -/
def markGroups (ops : List OpRecord) : List OpRecord × Nat :=
  (pairGroups ops 0 [] []).foldl markGroup (ops, 0)

/-! ## Re-encoding -/

/-- The loop of phase 5 that fills `begin_surviving_children`, from position `i`; `stack` is
`stack2`, innermost first. -/
def survivingChildren : List OpRecord → Nat → List (Nat × UInt32) → UMap Nat UInt32 →
    UMap Nat UInt32
  | [], _, _, counts => counts
  | record :: ops, i, stack, counts =>
    if record.dead then survivingChildren ops (i + 1) stack counts
    else
      match record.op, stack with
      | .beginGroup, _ => survivingChildren ops (i + 1) ((i, 0) :: stack) counts
      | .endGroup, (b, count) :: stack =>
        survivingChildren ops (i + 1) stack (counts.insert b count)
      | .addChild, (b, count) :: stack =>
        survivingChildren ops (i + 1) ((b, count + 1) :: stack) counts
      | _, _ => survivingChildren ops (i + 1) stack counts

/-- A `BEGIN_GROUP` at position `i` gets the number of its surviving children as its
`reserve_hint`. -/
def patchHint (counts : UMap Nat UInt32) (i : Nat) (record : OpRecord) : OpRecord :=
  if record.op = .beginGroup then
    match counts.lookup i with
    | some count => { record with reserveHint := count }
    | none => record
  else record

/-- The loop of phase 5 that encodes, from position `i`: the body and `out_count`. -/
def encodeOps (counts : UMap Nat UInt32) : List OpRecord → Nat → Bytes × Nat
  | [], _ => ([], 0)
  | record :: ops, i =>
    let (body, count) := encodeOps counts ops (i + 1)
    if record.dead then (body, count)
    else (encodeOp (patchHint counts i record) ++ body, count + 1)

/-- Phases 3 to 5. -/
def compactOps (ops : List OpRecord) : CompactionResult :=
  let live := liveNodes ops
  let noNops := markNops ops
  let (lastSets, _, redundant) := markRedundant noNops
  let onLive := markDeadNodes live lastSets
  let (marked, groupOps) := markGroups onLive
  let (body, outCount) := encodeOps (survivingChildren marked 0 [] ∅) marked 0
  { journalBytes := varint (UInt64.ofNat outCount) ++ body
    stats :=
      { inputOpCount := UInt32.ofNat ops.length
        outputOpCount := UInt32.ofNat outCount
        deadNodeOpsRemoved := UInt32.ofNat (lastSets.countP (OnDeadNode live))
        redundantFieldSetsRemoved := UInt32.ofNat redundant
        nopsRemoved := UInt32.ofNat (ops.countP fun record => record.op = .nop)
        deadGroupOpsRemoved := UInt32.ofNat groupOps } }

/-- The body of `compact`. -/
def compactJournal (schema : Schema) : Machine Status DecodeState CompactionResult := do
  let opCount ← Machine.read id readVarintU32
  let ops ← decodeOps schema opCount.toNat
  let st ← Machine.get
  if st.groupStack.isEmpty = false then
    Machine.fail ⟨.groupUnderflow, "unclosed group at end of journal"⟩
  else pure (compactOps ops)

/-- `JournalCompactor::compact`. -/
def compact (schema : Schema) (r : Bytes) : Except Status CompactionResult :=
  (compactJournal schema {} r).1.map Prod.fst

end JournalCompactor

end Stratavm
