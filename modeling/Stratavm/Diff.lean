import Stratavm.Heap

/-!
# Graph diffs

`GraphDiff` (`diff.hpp`, `diff.cpp`): what changed between two node tables, nodes matched by name,
its binary form, and the journal made of it.

A loop over an `unordered_map` visits the entries in an order the map chooses. `IterationOrder` is
such a choice for every loop of `diff_node_graphs`; nothing is assumed of it but that each entry is
visited once.

A node has at most one change, under its name: anonymous nodes and those after the first alive one
of a name are not compared at all. Values are compared as the source compares them (`valuesEqual`),
so a NaN differs from itself.

Out of scope: the hash that decides an order. Results hold for every order or exhibit one.
-/

namespace Stratavm

open Lib Lib.Decoder

/-! ## Values on the wire -/

/-- `static_cast<ValueType>(raw)`, if an enumerator has this byte. -/
def ValueType.ofByte? (raw : UInt8) : Option ValueType :=
  if raw = ValueType.invalid.raw then some .invalid else ofRaw? raw

/-- `write_value`: the type byte, then the value. -/
def writeValue (v : Value) : Bytes :=
  u8 v.type.raw ++
    match v.type with
    | .int => svarint v.asInt
    | .float => f64 v.asFloat
    | .atom => varint v.asAtom.toUInt64
    | .ref => varint v.asRef.toUInt64
    | .list =>
      varint (UInt64.ofNat v.asList.length) ++ v.asList.flatMap fun nid => varint nid.toUInt64
    | .invalid => []

theorem writeValue_eq (v : Value) : writeValue v = u8 v.type.raw ++ v.payload := by
  cases v <;> simp [writeValue, Value.type, Value.payload]

/-- `read_value`. -/
def readValue : Reader Value := do
  let raw ← readU8
  match ValueType.ofByte? raw with
  | some .int => do
    let v ← readSvarint
    pure (.int v)
  | some .float => do
    let v ← readF64
    pure (.float v)
  | some .atom => do
    let v ← readVarintU32
    pure (.atom v)
  | some .ref => do
    let v ← readVarintU32
    pure (.ref v)
  | some .list => do
    let count ← readVarintU32
    let items ← listFrom (fun _ => readVarintU32) 0 count.toNat
    pure (.list items)
  | some .invalid => pure .invalid
  | none => fail .badValue "unknown value type in diff"

/-- A `double` that is not a number: all exponent bits set, and a mantissa. -/
def isNaN (bits : UInt64) : Bool := 0x7FF0000000000000 < bits &&& 0x7FFFFFFFFFFFFFFF

/-- `a == b` on two `double`s. -/
def doubleEq (a b : UInt64) : Bool :=
  !isNaN a && !isNaN b && (a == b || (a ||| b) &&& 0x7FFFFFFFFFFFFFFF == 0)

/-- `values_equal`. -/
def valuesEqual : Value → Value → Bool
  | .int a, .int b => a == b
  | .float a, .float b => doubleEq a b
  | .atom a, .atom b => a == b
  | .ref a, .ref b => a == b
  | .list a, .list b => a == b
  | .invalid, .invalid => true
  | _, _ => false

/-! ## Changes -/

/-- `NodeChangeKind`. Its underlying type is a byte, and a byte that is no enumerator's can be read
from a stream. -/
inductive NodeChangeKind where
  | added
  | removed
  | modified
  | unchanged
  | other (raw : UInt8) (h : 4 ≤ raw)
  deriving DecidableEq

namespace NodeChangeKind

/-- The byte of a `NodeChangeKind`. -/
def raw : NodeChangeKind → UInt8
  | added => 0
  | removed => 1
  | modified => 2
  | unchanged => 3
  | other raw _ => raw

/-- `static_cast<NodeChangeKind>(raw)`. -/
def ofRaw (raw : UInt8) : NodeChangeKind :=
  if h : 4 ≤ raw then other raw h
  else if raw = 0 then added
  else if raw = 1 then removed
  else if raw = 2 then modified
  else unchanged

theorem ofRaw_raw (k : NodeChangeKind) : ofRaw k.raw = k := by
  cases k with
  | other raw h => rw [NodeChangeKind.raw, ofRaw, dif_pos h]
  | _ => rfl

end NodeChangeKind

/-- `FieldChange`. -/
structure FieldChange where
  fieldIdx : FieldId := 0
  before : Value := .invalid
  after : Value := .invalid
  deriving DecidableEq

/-- `NodeChange`. -/
structure NodeChange where
  change : NodeChangeKind := .unchanged
  beforeId : NodeId := kInvalidNode
  afterId : NodeId := kInvalidNode
  name : AtomId := kInvalidAtom
  kind : KindId := kInvalidKind
  fieldChanges : List FieldChange := []
  childrenAdded : List AtomId := []
  childrenRemoved : List AtomId := []
  deriving DecidableEq

/-- `GraphDiff`. -/
structure GraphDiff where
  changes : List NodeChange := []
  nodesAdded : UInt32 := 0
  nodesRemoved : UInt32 := 0
  nodesModified : UInt32 := 0
  totalFieldChanges : UInt32 := 0
  deriving DecidableEq

/-- `diff.changes.push_back(nc)`. -/
def GraphDiff.push (diff : GraphDiff) (nc : NodeChange) : GraphDiff :=
  { diff with changes := diff.changes ++ [nc] }

/-! ## Comparing two tables -/

/-- The loops of `diff_node_graphs` over unordered containers. -/
inductive DiffLoop where
  | afterByName
  | beforeByName
  | afterFields (name : AtomId)
  | beforeFields (name : AtomId)
  | afterChildNames (name : AtomId)
  | beforeChildNames (name : AtomId)

/-- The order in which each loop visits the entries of its container. -/
structure IterationOrder where
  entries : {V : Type} → DiffLoop → UMap UInt32 V → List (UInt32 × V)
  nodup : ∀ {V : Type} (loop : DiffLoop) (m : UMap UInt32 V), ((entries loop m).map Prod.fst).Nodup
  mem_iff : ∀ {V : Type} (loop : DiffLoop) (m : UMap UInt32 V) (k : UInt32) (v : V),
    (k, v) ∈ entries loop m ↔ m.lookup k = some v

/-- `before_by_name` and `after_by_name`: the first alive node of each name. -/
def byName (nodes : List Node) : UMap AtomId Node :=
  nodes.foldl (fun m n =>
    if n.alive = true ∧ n.name ≠ kInvalidAtom ∧ m.lookup n.name = none then m.insert n.name n
    else m) ∅

/-- The names of the children that are in range and named. -/
def childNames (nodes : List Node) (children : List NodeId) : List AtomId :=
  children.filterMap fun c =>
    match nodes[c.toNat]? with
    | some n => if n.name ≠ kInvalidAtom then some n.name else none
    | none => none

/-- `before_child_names` and `after_child_names`. -/
def childNameSet (nodes : List Node) (children : List NodeId) : UMap AtomId Unit :=
  (childNames nodes children).foldl (fun names name => names.insert name ()) ∅

section Compare

variable (order : IterationOrder) (before after : List Node)

/-- The change of a node that is new. -/
def addedChange (name : AtomId) (a : Node) : NodeChange where
  change := .added
  beforeId := kInvalidNode
  afterId := a.id
  name := name
  kind := a.kind
  fieldChanges := (order.entries (.afterFields name) a.fields).map fun (f, v) =>
    { fieldIdx := f, before := .invalid, after := v }
  childrenAdded := childNames after a.children

/-- The change of a node that is gone. -/
def removedChange (name : AtomId) (b : Node) : NodeChange where
  change := .removed
  beforeId := b.id
  afterId := kInvalidNode
  name := name
  kind := b.kind

/-- The fields in which two nodes of one name differ. -/
def fieldDifferences (name : AtomId) (b a : Node) : List FieldChange :=
  ((order.entries (.afterFields name) a.fields).filterMap fun (f, v) =>
    match b.fields.lookup f with
    | none => some { fieldIdx := f, before := .invalid, after := v }
    | some w =>
      if valuesEqual w v then none else some { fieldIdx := f, before := w, after := v }) ++
  (order.entries (.beforeFields name) b.fields).filterMap fun (f, w) =>
    if a.fields.lookup f = none then some { fieldIdx := f, before := w, after := .invalid }
    else none

/-- The change of a node that both tables have, `Modified` or `Unchanged`. -/
def comparedChange (name : AtomId) (b a : Node) : NodeChange :=
  let fieldChanges := fieldDifferences order name b a
  let beforeNames := childNameSet before b.children
  let afterNames := childNameSet after a.children
  let childrenAdded := ((order.entries (.afterChildNames name) afterNames).map Prod.fst).filter
    fun c => (beforeNames.lookup c).isNone
  let childrenRemoved := ((order.entries (.beforeChildNames name) beforeNames).map Prod.fst).filter
    fun c => (afterNames.lookup c).isNone
  let changed := fieldChanges ≠ [] ∨ childrenAdded ≠ [] ∨ childrenRemoved ≠ [] ∨ b.kind ≠ a.kind
  { change := if changed then .modified else .unchanged
    beforeId := b.id
    afterId := a.id
    name
    kind := a.kind
    fieldChanges
    childrenAdded
    childrenRemoved }

/-- One iteration of the loop over `after_by_name`. -/
def diffAfter (diff : GraphDiff) (entry : AtomId × Node) : GraphDiff :=
  match (byName before).lookup entry.1 with
  | none =>
    let diff := diff.push (addedChange order after entry.1 entry.2)
    { diff with nodesAdded := diff.nodesAdded + 1 }
  | some b =>
    let nc := comparedChange order before after entry.1 b entry.2
    if nc.change = .modified then
      { diff with
        nodesModified := diff.nodesModified + 1
        totalFieldChanges := diff.totalFieldChanges + UInt32.ofNat nc.fieldChanges.length }.push nc
    else diff.push nc

/-- One iteration of the loop over `before_by_name`. -/
def diffBefore (diff : GraphDiff) (entry : AtomId × Node) : GraphDiff :=
  if (byName after).lookup entry.1 = none then
    let diff := diff.push (removedChange entry.1 entry.2)
    { diff with nodesRemoved := diff.nodesRemoved + 1 }
  else diff

/-- `diff_node_graphs`. -/
def diffNodeGraphs : GraphDiff :=
  let diff := (order.entries .afterByName (byName after)).foldl (diffAfter order before after) {}
  (order.entries .beforeByName (byName before)).foldl (diffBefore after) diff

end Compare

/-! ## The binary form -/

/-- A list of ids: their number, then the ids. -/
def writeIds (ids : List UInt32) : Bytes :=
  varint (UInt64.ofNat ids.length) ++ ids.flatMap fun a => varint a.toUInt64

/-- A `FieldChange` of `serialize_diff`. -/
def writeFieldChange (fc : FieldChange) : Bytes :=
  varint fc.fieldIdx.toUInt64 ++ (writeValue fc.before ++ writeValue fc.after)

/-- A `NodeChange` of `serialize_diff`. -/
def writeNodeChange (nc : NodeChange) : Bytes :=
  u8 nc.change.raw ++ (varint nc.name.toUInt64 ++ (varint nc.beforeId.toUInt64 ++
    (varint nc.afterId.toUInt64 ++ (varint nc.kind.toUInt64 ++
    (varint (UInt64.ofNat nc.fieldChanges.length) ++ (nc.fieldChanges.flatMap writeFieldChange ++
    (writeIds nc.childrenAdded ++ writeIds nc.childrenRemoved)))))))

/-- `serialize_diff`. -/
def serializeDiff (diff : GraphDiff) : Bytes :=
  varint (UInt64.ofNat diff.changes.length) ++ diff.changes.flatMap writeNodeChange

/-- A counted list of ids. -/
def readIds : Reader (List UInt32) := do
  let count ← readVarintU32
  listFrom (fun _ => readVarintU32) 0 count.toNat

/-- A `FieldChange` of `deserialize_diff`. -/
def readFieldChange : Reader FieldChange := do
  let fieldIdx ← readVarintU32
  let before ← readValue
  let after ← readValue
  pure { fieldIdx, before, after }

/-- A `NodeChange` of `deserialize_diff`. -/
def readNodeChange : Reader NodeChange := do
  let kindByte ← readU8
  let name ← readVarintU32
  let beforeId ← readVarintU32
  let afterId ← readVarintU32
  let kind ← readVarintU32
  let fcCount ← readVarintU32
  let fieldChanges ← listFrom (fun _ => readFieldChange) 0 fcCount.toNat
  let childrenAdded ← readIds
  let childrenRemoved ← readIds
  pure
    { change := NodeChangeKind.ofRaw kindByte, beforeId, afterId, name, kind, fieldChanges,
      childrenAdded, childrenRemoved }

/-- `deserialize_diff`, one change read: the counters, then `push_back`. -/
def GraphDiff.record (diff : GraphDiff) (nc : NodeChange) : GraphDiff :=
  (match nc.change with
    | .added => { diff with nodesAdded := diff.nodesAdded + 1 }
    | .removed => { diff with nodesRemoved := diff.nodesRemoved + 1 }
    | .modified =>
      { diff with
        nodesModified := diff.nodesModified + 1
        totalFieldChanges := diff.totalFieldChanges + UInt32.ofNat nc.fieldChanges.length }
    | _ => diff).push nc

/-- `deserialize_diff`. -/
def deserializeDiff : Reader GraphDiff := do
  let changeCount ← readVarintU32
  loop (fun _ diff => do
    let nc ← readNodeChange
    pure (diff.record nc)) 0 changeCount.toNat {}

/-! ## Journal generation -/

/-- What `diff_to_journal` writes: `body` and `op_count`. -/
structure JournalPatch where
  body : Bytes := []
  opCount : UInt32 := 0

/-- `emit_value_payload`: the value without a type byte, nothing for `Invalid`. -/
def emitValuePayload (v : Value) : Bytes :=
  match v.type with
  | .int => svarint v.asInt
  | .float => f64 v.asFloat
  | .atom => varint v.asAtom.toUInt64
  | .ref => varint v.asRef.toUInt64
  | .list =>
    varint (UInt64.ofNat v.asList.length) ++ v.asList.flatMap fun nid => varint nid.toUInt64
  | .invalid => []

theorem emitValuePayload_eq (v : Value) : emitValuePayload v = v.payload := by
  cases v <;> simp [emitValuePayload, Value.type, Value.payload]

namespace JournalPatch

/-- The bytes of one opcode, and `++op_count`. -/
def emit (patch : JournalPatch) (op : OpCode) (operands : Bytes) : JournalPatch where
  body := patch.body ++ (u8 op.raw ++ operands)
  opCount := patch.opCount + 1

/-- The `SET_FIELD`s of a change: none for a field that was removed. -/
def emitFields (patch : JournalPatch) (nc : NodeChange) : JournalPatch :=
  nc.fieldChanges.foldl (fun patch fc =>
    if fc.after.type = .invalid then patch
    else if nc.afterId = kInvalidNode then patch
    else patch.emit .setField (varint nc.afterId.toUInt64 ++
      (varint fc.fieldIdx.toUInt64 ++ emitValuePayload fc.after))) patch

/-- The group of the children that were added. -/
def emitChildren (patch : JournalPatch) (nc : NodeChange) : JournalPatch :=
  if nc.childrenAdded.isEmpty then patch
  else
    let opened := patch.emit .beginGroup
      (varint nc.name.toUInt64 ++ varint (UInt64.ofNat nc.childrenAdded.length))
    let filled := nc.childrenAdded.foldl (fun patch childName =>
      patch.emit .addChild (varint childName.toUInt64)) opened
    filled.emit .endGroup []

/-- One iteration of the loop of `diff_to_journal`. -/
def emitChange (patch : JournalPatch) (nc : NodeChange) : JournalPatch :=
  match nc.change with
  | .removed =>
    if nc.beforeId ≠ kInvalidNode then patch.emit .dropNode (varint nc.beforeId.toUInt64) else patch
  | .added =>
    ((patch.emit .newNode (varint nc.kind.toUInt64 ++ varint nc.name.toUInt64)).emitFields
      nc).emitChildren nc
  | .modified => (patch.emitFields nc).emitChildren nc
  | .unchanged | .other _ _ => patch

end JournalPatch

/-- `diff_to_journal`. It never fails. -/
def diffToJournal (diff : GraphDiff) : Except Status Bytes :=
  let patch := diff.changes.foldl JournalPatch.emitChange {}
  .ok (varint patch.opCount.toUInt64 ++ patch.body)

end Stratavm
