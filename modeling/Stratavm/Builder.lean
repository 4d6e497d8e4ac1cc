import Stratavm.ReplayVm.Exec
import Stratavm.Section

/-!
# The container builder

`ContainerBuilder` (`builder.hpp`, `builder.cpp`): atoms, kinds, an initial heap and a journal
program, laid out into a container by `serialize`. Values are encoded as they are recorded, so a
builder holds bytes, not values.

A program is a list of `Call`s, one constructor a method. `heap_[node]` of a missing node is undefined, and
such a program has no builder (`build`): no result is claimed of it.

The directory is written with empty slots that are patched when the sizes of the payloads are known, as
in the source (`patchU32`); offsets and lengths are 32-bit there, so results about whole files ask for a
size below `2 ^ 32`.
-/

namespace Stratavm

open Lib

namespace ContainerBuilder

/-- `FieldValue`. -/
structure FieldValue where
  field : FieldId
  bytes : Bytes
  deriving DecidableEq, Repr

/-- `HeapNodeSpec`. -/
structure HeapNodeSpec where
  kind : KindId
  name : AtomId
  fields : List FieldValue := []
  deriving DecidableEq, Repr

end ContainerBuilder

/-- `ContainerBuilder`. -/
structure ContainerBuilder where
  atoms : List Bytes := []
  atomIndex : UMap Bytes AtomId := ∅
  kinds : List KindDef := []
  heap : List ContainerBuilder.HeapNodeSpec := []
  journalBody : Bytes := []
  journalOps : UInt32 := 0
  xref : List (AtomId × NodeId) := []
  metaEntries : List (AtomId × AtomId) := []
  emitXref : Bool := false
  emitMeta : Bool := false
  headerFlags : UInt16 := 0

namespace ContainerBuilder

variable (b : ContainerBuilder)

/-! ## Recording -/

/-- `ContainerBuilder::atom`. -/
def atom (text : Bytes) : AtomId × ContainerBuilder :=
  match b.atomIndex.lookup text with
  | some id => (id, b)
  | none =>
    let id := UInt32.ofNat b.atoms.length
    (id, { b with atoms := b.atoms ++ [text], atomIndex := b.atomIndex.insert text id })

/-- `ContainerBuilder::define_kind`. -/
def defineKind (name : AtomId) (fields : List FieldDef) : KindId × ContainerBuilder :=
  (UInt32.ofNat b.kinds.length, { b with kinds := b.kinds ++ [{ name, fields }] })

/-- `ContainerBuilder::heap_node`. -/
def heapNode (kind : KindId) (name : AtomId) : NodeId × ContainerBuilder :=
  (UInt32.ofNat b.heap.length, { b with heap := b.heap ++ [{ kind, name }] })

/-- `enc_int`. -/
def encInt (v : Int64) : Bytes := svarint v

/-- `enc_float`, on the bit pattern. -/
def encFloat (v : UInt64) : Bytes := f64 v

/-- `enc_atom`. -/
def encAtom (v : AtomId) : Bytes := varint v.toUInt64

/-- `enc_ref`. -/
def encRef (v : NodeId) : Bytes := varint v.toUInt64

/-- `enc_list`. -/
def encList (v : List NodeId) : Bytes :=
  varint (UInt64.ofNat v.length) ++ v.flatMap fun id => varint id.toUInt64

/-- `heap_[node].fields.push_back`. -/
def pushHeapField (node : NodeId) (field : FieldId) (bytes : Bytes) : Option ContainerBuilder :=
  if node.toNat < b.heap.length then
    some { b with heap := b.heap.modify node.toNat fun n =>
      { n with fields := n.fields ++ [{ field, bytes }] } }
  else none

/-- `heap_int`. -/
def heapInt (node : NodeId) (field : FieldId) (v : Int64) : Option ContainerBuilder :=
  b.pushHeapField node field (encInt v)

/-- `heap_float`. -/
def heapFloat (node : NodeId) (field : FieldId) (v : UInt64) : Option ContainerBuilder :=
  b.pushHeapField node field (encFloat v)

/-- `heap_atom`. -/
def heapAtom (node : NodeId) (field : FieldId) (v : AtomId) : Option ContainerBuilder :=
  b.pushHeapField node field (encAtom v)

/-- `heap_ref`. -/
def heapRef (node : NodeId) (field : FieldId) (v : NodeId) : Option ContainerBuilder :=
  b.pushHeapField node field (encRef v)

/-- `heap_list`. -/
def heapList (node : NodeId) (field : FieldId) (v : List NodeId) : Option ContainerBuilder :=
  b.pushHeapField node field (encList v)

/-- Append an opcode and its operands to the journal. -/
def emit (code : OpCode) (operands : Bytes) : ContainerBuilder :=
  { b with
    journalBody := b.journalBody ++ (u8 code.raw ++ operands)
    journalOps := b.journalOps + 1 }

/-- `op_new_node`. -/
def opNewNode (kind : KindId) (name : AtomId) : ContainerBuilder :=
  b.emit .newNode (varint kind.toUInt64 ++ varint name.toUInt64)

/-- `emit_set_field`. -/
def emitSetField (node : NodeId) (field : FieldId) (valueBytes : Bytes) : ContainerBuilder :=
  b.emit .setField (varint node.toUInt64 ++ (varint field.toUInt64 ++ valueBytes))

/-- `op_set_int`. -/
def opSetInt (node : NodeId) (field : FieldId) (v : Int64) : ContainerBuilder :=
  b.emitSetField node field (encInt v)

/-- `op_set_float`. -/
def opSetFloat (node : NodeId) (field : FieldId) (v : UInt64) : ContainerBuilder :=
  b.emitSetField node field (encFloat v)

/-- `op_set_atom`. -/
def opSetAtom (node : NodeId) (field : FieldId) (v : AtomId) : ContainerBuilder :=
  b.emitSetField node field (encAtom v)

/-- `op_set_ref`. -/
def opSetRef (node : NodeId) (field : FieldId) (v : NodeId) : ContainerBuilder :=
  b.emitSetField node field (encRef v)

/-- `op_set_list`. -/
def opSetList (node : NodeId) (field : FieldId) (v : List NodeId) : ContainerBuilder :=
  b.emitSetField node field (encList v)

/-- `op_begin_group`. -/
def opBeginGroup (ownerName : AtomId) (reserveHint : UInt32) : ContainerBuilder :=
  b.emit .beginGroup (varint ownerName.toUInt64 ++ varint reserveHint.toUInt64)

/-- `op_add_child`. -/
def opAddChild (childName : AtomId) : ContainerBuilder := b.emit .addChild (varint childName.toUInt64)

/-- `op_end_group`. -/
def opEndGroup : ContainerBuilder := b.emit .endGroup []

/-- `op_link_ref`. -/
def opLinkRef (src : NodeId) (field : FieldId) (targetName : AtomId) : ContainerBuilder :=
  b.emit .linkRef (varint src.toUInt64 ++ (varint field.toUInt64 ++ varint targetName.toUInt64))

/-- `op_drop_node`. -/
def opDropNode (node : NodeId) : ContainerBuilder := b.emit .dropNode (varint node.toUInt64)

/-- `op_snapshot`. -/
def opSnapshot (label : AtomId) : ContainerBuilder := b.emit .snapshot (varint label.toUInt64)

/-- `op_set_meta`. -/
def opSetMeta (key value : AtomId) : ContainerBuilder :=
  b.emit .setMeta (varint key.toUInt64 ++ varint value.toUInt64)

/-- `op_nop`. -/
def opNop : ContainerBuilder := b.emit .nop []

/-- `xref_entry`. -/
def xrefEntry (name : AtomId) (node : NodeId) : ContainerBuilder :=
  { b with xref := b.xref ++ [(name, node)], emitXref := true }

/-- `meta_entry`. -/
def metaEntry (key value : AtomId) : ContainerBuilder :=
  { b with metaEntries := b.metaEntries ++ [(key, value)], emitMeta := true }

/-- `set_emit_xref`. -/
def setEmitXref (on : Bool) : ContainerBuilder := { b with emitXref := on }

/-- `set_emit_meta`. -/
def setEmitMeta (on : Bool) : ContainerBuilder := { b with emitMeta := on }

/-- `set_header_flags`. -/
def setHeaderFlags (flags : UInt16) : ContainerBuilder := { b with headerFlags := flags }

/-! ## Section payloads -/

/-- `build_atom_section`. -/
def buildAtomSection : Bytes := varint (UInt64.ofNat b.atoms.length) ++ b.atoms.flatMap lpString

/-- One field in `build_schema_section`. -/
def fieldBytes (f : FieldDef) : Bytes := varint f.name.toUInt64 ++ (u8 f.type.raw ++ u8 f.flags)

/-- One kind in `build_schema_section`. -/
def kindBytes (k : KindDef) : Bytes :=
  varint k.name.toUInt64 ++ (varint (UInt64.ofNat k.fields.length) ++ k.fields.flatMap fieldBytes)

/-- `build_schema_section`. -/
def buildSchemaSection : Bytes := varint (UInt64.ofNat b.kinds.length) ++ b.kinds.flatMap kindBytes

/-- One field value in `build_heap_section`. -/
def valueBytes (fv : FieldValue) : Bytes := varint fv.field.toUInt64 ++ fv.bytes

/-- One node in `build_heap_section`. -/
def nodeBytes (i : Nat) (n : HeapNodeSpec) : Bytes :=
  varint (UInt64.ofNat i) ++ (varint n.kind.toUInt64 ++ (varint n.name.toUInt64 ++
    (varint (UInt64.ofNat n.fields.length) ++ n.fields.flatMap valueBytes)))

/-- `build_heap_section`. -/
def buildHeapSection : Bytes :=
  varint (UInt64.ofNat b.heap.length) ++ (b.heap.mapIdx nodeBytes).flatten

/-- `build_journal_section`. -/
def buildJournalSection : Bytes := varint b.journalOps.toUInt64 ++ b.journalBody

/-- A pair of ids in `build_xref_section` and `build_meta_section`. -/
def pairBytes (e : UInt32 × UInt32) : Bytes := varint e.1.toUInt64 ++ varint e.2.toUInt64

/-- `build_xref_section`. -/
def buildXrefSection : Bytes := varint (UInt64.ofNat b.xref.length) ++ b.xref.flatMap pairBytes

/-- `build_meta_section`. -/
def buildMetaSection : Bytes :=
  varint (UInt64.ofNat b.metaEntries.length) ++ b.metaEntries.flatMap pairBytes

/-! ## Assembly -/

/-- `Built`. -/
structure Built where
  tag : SectionTag
  payload : Bytes
  deriving DecidableEq, Repr

/-- The sections `serialize` emits, in order. -/
def sections : List Built :=
  [⟨.atom, b.buildAtomSection⟩, ⟨.schema, b.buildSchemaSection⟩, ⟨.heap, b.buildHeapSection⟩,
    ⟨.journal, b.buildJournalSection⟩] ++
    ((if b.emitXref then [⟨.xref, b.buildXrefSection⟩] else []) ++
      (if b.emitMeta then [⟨.metadata, b.buildMetaSection⟩] else []))

/-- The directory loop of `serialize`: the bytes so far, and the slots to patch. -/
def layDirectory : List Built → Bytes → Bytes × List (Nat × Nat)
  | [], out => (out, [])
  | s :: sections, out =>
    let out := out ++ u32 s.tag.raw ++ u8 1 ++ u8 0 ++ u16 0
    let offsetSlot := out.length
    let out := out ++ u32 0
    let lengthSlot := out.length
    let out := out ++ u32 0
    let rest := layDirectory sections out
    (rest.1, (offsetSlot, lengthSlot) :: rest.2)

/-- The payload loop of `serialize`. -/
def placePayloads : List (Built × (Nat × Nat)) → Bytes → Bytes
  | [], out => out
  | (s, (offsetSlot, lengthSlot)) :: rest, out =>
    let offset := UInt32.ofNat out.length
    let out := out ++ s.payload
    let out := patchU32 out offsetSlot offset
    let out := patchU32 out lengthSlot (UInt32.ofNat s.payload.length)
    placePayloads rest out

/-- `ContainerBuilder::serialize`. -/
def serialize : Bytes :=
  let header := kMagic ++ u8 kVersionMajor ++ u8 kVersionMinor ++ u16 b.headerFlags ++
    u32 (UInt32.ofNat b.sections.length)
  let directory := layDirectory b.sections header
  placePayloads (b.sections.zip directory.2) directory.1

/-! ## Programs -/

/-- A call on a builder. -/
inductive Call where
  | atom (text : Bytes)
  | defineKind (name : AtomId) (fields : List FieldDef)
  | heapNode (kind : KindId) (name : AtomId)
  | heapInt (node : NodeId) (field : FieldId) (v : Int64)
  | heapFloat (node : NodeId) (field : FieldId) (v : UInt64)
  | heapAtom (node : NodeId) (field : FieldId) (v : AtomId)
  | heapRef (node : NodeId) (field : FieldId) (v : NodeId)
  | heapList (node : NodeId) (field : FieldId) (v : List NodeId)
  | opNewNode (kind : KindId) (name : AtomId)
  | opSetInt (node : NodeId) (field : FieldId) (v : Int64)
  | opSetFloat (node : NodeId) (field : FieldId) (v : UInt64)
  | opSetAtom (node : NodeId) (field : FieldId) (v : AtomId)
  | opSetRef (node : NodeId) (field : FieldId) (v : NodeId)
  | opSetList (node : NodeId) (field : FieldId) (v : List NodeId)
  | opBeginGroup (ownerName : AtomId) (reserveHint : UInt32)
  | opAddChild (childName : AtomId)
  | opEndGroup
  | opLinkRef (src : NodeId) (field : FieldId) (targetName : AtomId)
  | opDropNode (node : NodeId)
  | opSnapshot (label : AtomId)
  | opSetMeta (key value : AtomId)
  | opNop
  | xrefEntry (name : AtomId) (node : NodeId)
  | metaEntry (key value : AtomId)
  | setEmitXref (on : Bool)
  | setEmitMeta (on : Bool)
  | setHeaderFlags (flags : UInt16)
  deriving DecidableEq, Repr

/-- Make a call. -/
def apply : Call → Option ContainerBuilder
  | .atom text => some (b.atom text).2
  | .defineKind name fields => some (b.defineKind name fields).2
  | .heapNode kind name => some (b.heapNode kind name).2
  | .heapInt node field v => b.heapInt node field v
  | .heapFloat node field v => b.heapFloat node field v
  | .heapAtom node field v => b.heapAtom node field v
  | .heapRef node field v => b.heapRef node field v
  | .heapList node field v => b.heapList node field v
  | .opNewNode kind name => some (b.opNewNode kind name)
  | .opSetInt node field v => some (b.opSetInt node field v)
  | .opSetFloat node field v => some (b.opSetFloat node field v)
  | .opSetAtom node field v => some (b.opSetAtom node field v)
  | .opSetRef node field v => some (b.opSetRef node field v)
  | .opSetList node field v => some (b.opSetList node field v)
  | .opBeginGroup ownerName hint => some (b.opBeginGroup ownerName hint)
  | .opAddChild childName => some (b.opAddChild childName)
  | .opEndGroup => some b.opEndGroup
  | .opLinkRef src field targetName => some (b.opLinkRef src field targetName)
  | .opDropNode node => some (b.opDropNode node)
  | .opSnapshot label => some (b.opSnapshot label)
  | .opSetMeta key value => some (b.opSetMeta key value)
  | .opNop => some b.opNop
  | .xrefEntry name node => some (b.xrefEntry name node)
  | .metaEntry key value => some (b.metaEntry key value)
  | .setEmitXref on => some (b.setEmitXref on)
  | .setEmitMeta on => some (b.setEmitMeta on)
  | .setHeaderFlags flags => some (b.setHeaderFlags flags)

/-- Run a program from `b`. -/
def runCalls (calls : List Call) : Option ContainerBuilder := calls.foldlM apply b

/-- The builder a program makes. -/
def build (calls : List Call) : Option ContainerBuilder := runCalls {} calls

end ContainerBuilder

end Stratavm
