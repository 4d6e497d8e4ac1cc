import Std.Data.ExtTreeMap.Lemmas
import Stratavm.Heap

/-!
# The schema registry

`SchemaRegistry` (`schema_registry.hpp`, `schema_registry.cpp`): schema versions, each with its
own atom pool, by version id. `serialize` and `deserialize` are its byte format;
`computeMigration` plans the field changes from one version to another by matching names, and
`applyMigration` executes a plan on a node table. A `std::map` is a `SMap`, iterated in ascending
key order.

`serialize` casts the number of kinds and of atoms to 32 bits before it loops over them (`idRange`), and
writes an empty string for an atom that is not there. `deserialize` interns the strings it reads, so two
equal ones get one id. The plan is a list of steps in the source's order: for each kind of the old version
the fields that are gone, then those that are new, then those of another type; then the kinds that only the
new version has, under `kInvalidKind`.

A conversion from a double to an integer that does not fit is undefined in C++; `doubleToInt` is what the
x86 instruction returns there.

Out of scope: rounding modes other than to nearest, ties to even.
-/

namespace Stratavm

open Lib Lib.Decoder

/-- `std::map<K, V>`. -/
abbrev SMap (K V : Type) [Ord K] := Std.ExtTreeMap K V compare

/-- `SchemaVersion`. -/
structure SchemaVersion where
  versionId : UInt32 := 0
  description : Bytes := []
  schema : Schema := {}
  atoms : AtomPool := {}

/-- `SchemaRegistry`. -/
structure SchemaRegistry where
  versions : SMap UInt32 SchemaVersion := ∅

namespace SchemaRegistry

/-- `SchemaRegistry::register_version`. -/
def registerVersion (reg : SchemaRegistry) (versionId : UInt32) (description : Bytes)
    (schema : Schema) (atoms : AtomPool) : Except Status SchemaRegistry :=
  if reg.versions.contains versionId then
    .error ⟨.invariantViolation, "schema version already registered: " ++ toString versionId⟩
  else
    .ok { versions := reg.versions.insert versionId { versionId, description, schema, atoms } }

/-- `SchemaRegistry::find`. -/
def find (reg : SchemaRegistry) (versionId : UInt32) : Option SchemaVersion :=
  reg.versions[versionId]?

/-- `SchemaRegistry::version_ids`. -/
def versionIds (reg : SchemaRegistry) : List UInt32 := reg.versions.toList.map Prod.fst

end SchemaRegistry

/-! ## Serialization -/

section Serialize

/-- One field in `serialize`. -/
def FieldDef.serialize (fd : FieldDef) : Bytes :=
  varint fd.name.toUInt64 ++ (u8 fd.type.raw ++ u8 fd.flags)

/-- The kind loop of `serialize` at `kid`. -/
def Schema.serializeKind (schema : Schema) (kid : KindId) : Bytes :=
  match schema.kind kid with
  | none => varint kInvalidAtom.toUInt64 ++ varint 0
  | some kdef =>
    varint kdef.name.toUInt64 ++
      (varint (UInt64.ofNat kdef.fields.length) ++ kdef.fields.flatMap FieldDef.serialize)

/-- The atom loop of `serialize` at `aid`. -/
def AtomPool.serializeAtom (atoms : AtomPool) (aid : AtomId) : Bytes :=
  match atoms.get aid with
  | some s => lpString s
  | none => lpString []

/-- The ids `0` to `static_cast<std::uint32_t>(count) - 1`, in order. -/
def idRange (count : Nat) : List UInt32 := (List.range (UInt32.ofNat count).toNat).map UInt32.ofNat

/-- One version in `serialize`. -/
def SchemaVersion.serialize (sv : SchemaVersion) : Bytes :=
  u32 sv.versionId ++
    (lpString sv.description ++
      (varint (UInt64.ofNat sv.atoms.size) ++
        ((idRange sv.atoms.size).flatMap sv.atoms.serializeAtom ++
          (varint (UInt64.ofNat sv.schema.kinds.length) ++
            (idRange sv.schema.kinds.length).flatMap sv.schema.serializeKind))))

/-- `SchemaRegistry::serialize`. -/
def SchemaRegistry.serialize (reg : SchemaRegistry) : Bytes :=
  varint (UInt64.ofNat reg.versions.size) ++ reg.versions.toList.flatMap fun p => p.2.serialize

end Serialize

section Deserialize

variable (lim : Limits)

/-- One field in `deserialize`. -/
def readFieldDef : Reader FieldDef := do
  let name ← readVarintU32
  let typeRaw ← readU8
  match ValueType.ofRaw? typeRaw with
  | none => fail .badSchema "unknown field type in schema registry"
  | some type => do
    let flags ← readU8
    pure { name, type, flags }

/-- One kind in `deserialize`. -/
def readKindDef : Reader KindDef := do
  let name ← readVarintU32
  let fieldCount ← readVarint
  if fieldCount > lim.maxFieldsPerKind.toUInt64 then
    fail .limitExceeded "field count too large in schema registry"
  else do
    let fields ← listFrom (fun _ => readFieldDef) 0 fieldCount.toNat
    pure { name, fields }

/-- The atom loop of `deserialize`: every string read is interned. -/
def readAtoms (count : Nat) : Reader AtomPool :=
  loop (fun _ (atoms : AtomPool) => do
    let text ← readLpString lim.maxAtomLen.toNat
    pure (atoms.intern text).2) 0 count {}

/-- One version in `deserialize`. -/
def readVersion : Reader SchemaVersion := do
  let versionId ← readU32
  let description ← readLpString lim.maxAtomLen.toNat
  let atomCount ← readVarint
  if atomCount > lim.maxAtoms.toUInt64 then
    fail .limitExceeded "atom count too large in schema registry"
  else do
    let atoms ← readAtoms lim atomCount.toNat
    let kindCount ← readVarint
    if kindCount > lim.maxKinds.toUInt64 then
      fail .limitExceeded "kind count too large in schema registry"
    else do
      let kinds ← listFrom (fun _ => readKindDef lim) 0 kindCount.toNat
      pure { versionId, description, atoms, schema := { kinds } }

/-- The body of the version loop of `deserialize`. -/
def readRegistered (reg : SchemaRegistry) : Reader SchemaRegistry := do
  let sv ← readVersion lim
  match reg.registerVersion sv.versionId sv.description sv.schema sv.atoms with
  | .error st => Decoder.fail st
  | .ok reg => pure reg

/-- `SchemaRegistry::deserialize`. -/
def SchemaRegistry.deserialize : Reader SchemaRegistry := do
  let versionCount ← readVarint
  if versionCount > lim.maxSections.toUInt64 then
    fail .limitExceeded "schema registry: version count too large"
  else loop (fun _ reg => readRegistered lim reg) 0 versionCount.toNat {}

end Deserialize

/-! ## Migration plans -/

/-- `FieldMigration::Kind`. -/
inductive FieldMigration.Kind where
  | addField
  | removeField
  | renameField
  | changeType
  deriving DecidableEq, Repr

/-- `FieldMigration`. -/
structure FieldMigration where
  migrationKind : FieldMigration.Kind := .addField
  kindId : KindId := kInvalidKind
  fieldIdx : FieldId := 0
  oldNameAtom : AtomId := kInvalidAtom
  newNameAtom : AtomId := kInvalidAtom
  oldType : ValueType := .invalid
  newType : ValueType := .invalid
  defaultValue : Value := .invalid
  deriving DecidableEq, Repr

/-- `MigrationPlan`. -/
structure MigrationPlan where
  fromVersion : UInt32 := 0
  toVersion : UInt32 := 0
  migrations : List FieldMigration := []
  deriving DecidableEq, Repr

/-- `result[*name] = id` if `id` has a name. -/
def insertName (name : UInt32 → Option Bytes) (result : SMap Bytes UInt32) (id : UInt32) :
    SMap Bytes UInt32 :=
  match name id with
  | none => result
  | some s => result.insert s id

/-- The map of the names of the ids below `count`. -/
def buildNameMap (count : Nat) (name : UInt32 → Option Bytes) : SMap Bytes UInt32 :=
  (idRange count).foldl (insertName name) ∅

/-- The name of a kind. -/
def SchemaVersion.kindName (sv : SchemaVersion) (kid : KindId) : Option Bytes :=
  (sv.schema.kind kid).bind fun k => sv.atoms.get k.name

/-- The name of a field of a kind. -/
def SchemaVersion.fieldName (sv : SchemaVersion) (kind : KindDef) (fid : FieldId) :
    Option Bytes := (kind.field fid).bind fun fd => sv.atoms.get fd.name

/-- `SchemaRegistry::build_kind_name_map`. -/
def SchemaVersion.kindNameMap (sv : SchemaVersion) : SMap Bytes KindId :=
  buildNameMap sv.schema.kinds.length sv.kindName

/-- `SchemaRegistry::build_field_name_map`. -/
def SchemaVersion.fieldNameMap (sv : SchemaVersion) (kind : KindDef) : SMap Bytes FieldId :=
  buildNameMap kind.fields.length (sv.fieldName kind)

/-- A `RemoveField` step. -/
def FieldMigration.remove (kid : KindId) (fid : FieldId) (fd : FieldDef) : FieldMigration :=
  { migrationKind := .removeField, kindId := kid, fieldIdx := fid, oldNameAtom := fd.name
    oldType := fd.type }

/-- An `AddField` step. -/
def FieldMigration.add (kid : KindId) (fid : FieldId) (fd : FieldDef) : FieldMigration :=
  { migrationKind := .addField, kindId := kid, fieldIdx := fid, newNameAtom := fd.name
    newType := fd.type }

/-- A `ChangeType` step. -/
def FieldMigration.change (kid : KindId) (fid : FieldId) (old new : FieldDef) : FieldMigration :=
  { migrationKind := .changeType, kindId := kid, fieldIdx := fid, oldNameAtom := old.name
    newNameAtom := new.name, oldType := old.type, newType := new.type }

section Plan

variable (src dst : SchemaVersion)

/-- A field of `from`, removed unless `to` has its name. -/
def removeStep (kid : KindId) (fromKdef toKdef : KindDef) (p : Bytes × FieldId) :
    Option FieldMigration :=
  if (dst.fieldNameMap toKdef).contains p.1 then none
  else (fromKdef.field p.2).map (.remove kid p.2)

/-- A field of `to`, added unless `from` has its name. -/
def addStep (kid : KindId) (fromKdef toKdef : KindDef) (p : Bytes × FieldId) :
    Option FieldMigration :=
  if (src.fieldNameMap fromKdef).contains p.1 then none
  else (toKdef.field p.2).map (.add kid p.2)

/-- A field of `from`, changed if `to` has its name with another type. -/
def changeStep (kid : KindId) (fromKdef toKdef : KindDef) (p : Bytes × FieldId) :
    Option FieldMigration :=
  match (dst.fieldNameMap toKdef)[p.1]? with
  | none => none
  | some toFid =>
    match fromKdef.field p.2, toKdef.field toFid with
    | some fromFd, some toFd =>
      if fromFd.type ≠ toFd.type then some (.change kid p.2 fromFd toFd) else none
    | _, _ => none

/-- Fields in `from` but not in `to`. -/
def removeSteps (kid : KindId) (fromKdef toKdef : KindDef) : List FieldMigration :=
  (src.fieldNameMap fromKdef).toList.filterMap (removeStep dst kid fromKdef toKdef)

/-- Fields in `to` but not in `from`. -/
def addSteps (kid : KindId) (fromKdef toKdef : KindDef) : List FieldMigration :=
  (dst.fieldNameMap toKdef).toList.filterMap (addStep src kid fromKdef toKdef)

/-- Fields in both whose type differs. -/
def changeSteps (kid : KindId) (fromKdef toKdef : KindDef) : List FieldMigration :=
  (src.fieldNameMap fromKdef).toList.filterMap (changeStep dst kid fromKdef toKdef)

/-- The steps for one kind of the `from` schema. -/
def kindSteps (p : Bytes × KindId) : List FieldMigration :=
  match src.schema.kind p.2 with
  | none => []
  | some fromKdef =>
    match dst.kindNameMap[p.1]? with
    | none => (idRange fromKdef.fields.length).filterMap fun fid =>
        (fromKdef.field fid).map (.remove p.2 fid)
    | some toKid =>
      match dst.schema.kind toKid with
      | none => []
      | some toKdef =>
        removeSteps src dst p.2 fromKdef toKdef ++ (addSteps src dst p.2 fromKdef toKdef ++
          changeSteps src dst p.2 fromKdef toKdef)

/-- The steps for one kind of the `to` schema that `from` lacks. -/
def newKindSteps (p : Bytes × KindId) : List FieldMigration :=
  if src.kindNameMap.contains p.1 then []
  else
    match dst.schema.kind p.2 with
    | none => []
    | some toKdef => (idRange toKdef.fields.length).filterMap fun fid =>
        (toKdef.field fid).map (.add kInvalidKind fid)

/-- The steps `compute_migration` plans. -/
def migrationSteps : List FieldMigration :=
  src.kindNameMap.toList.flatMap (kindSteps src dst) ++
    dst.kindNameMap.toList.flatMap (newKindSteps src dst)

end Plan

/-- `SchemaRegistry::compute_migration`. -/
def SchemaRegistry.computeMigration (reg : SchemaRegistry) (fromVersion toVersion : UInt32) :
    Except Status MigrationPlan :=
  match reg.find fromVersion with
  | none => .error ⟨.notFound, "from_version not found: " ++ toString fromVersion⟩
  | some src =>
    match reg.find toVersion with
    | none => .error ⟨.notFound, "to_version not found: " ++ toString toVersion⟩
    | some dst => .ok { fromVersion, toVersion, migrations := migrationSteps src dst }

/-! ## Applying a plan -/

/-- The nearest double of a nonnegative integer below `2 ^ 64`, ties to even, without its sign. -/
def doubleBits (m : Nat) : Nat :=
  if m = 0 then 0
  else
    let e := Nat.log2 m
    let significand :=
      if e ≤ 52 then m <<< (52 - e)
      else
        let q := m >>> (e - 52)
        let r := m % 2 ^ (e - 52)
        let half := 2 ^ (e - 53)
        if r > half ∨ (r = half ∧ q % 2 = 1) then q + 1 else q
    -- a significand rounded up to `2 ^ 53` carries into the exponent
    (e + 1023) <<< 52 + (significand - 2 ^ 52)

/-- `static_cast<double>`, as a bit pattern. -/
def intToDouble (v : Int64) : UInt64 :=
  let m := UInt64.ofNat (doubleBits v.toInt.natAbs)
  if v < 0 then m ||| ((1 : UInt64) <<< 63) else m

/-- `static_cast<int64_t>` of a double. Where the truncated value does not fit, which C++ leaves
undefined, this is the value the x86 conversion returns. -/
def doubleToInt (bits : UInt64) : Int64 :=
  let e := ((bits >>> 52) &&& 0x7FF).toNat
  let significand := (bits &&& 0xFFFFFFFFFFFFF).toNat + 2 ^ 52
  if e < 1023 then 0
  else if e ≥ 1023 + 63 then Int64.minValue
  else
    let m := if e ≤ 1075 then significand >>> (1075 - e) else significand <<< (e - 1075)
    if bits >>> 63 = 0 then Int64.ofNat m else -Int64.ofNat m

/-- `1.0` and `-2.5`, and back. -/
example : intToDouble 1 = 0x3FF0000000000000 ∧ doubleToInt 0xC004000000000000 = -2 := by decide

/-- The conversion of a `ChangeType` step. -/
def convertValue (oldType newType : ValueType) (old : Value) : Value :=
  if oldType = .int ∧ newType = .atom then .invalid
  else if oldType = .atom ∧ newType = .int then .int 0
  else if oldType = .int ∧ newType = .float then .float (intToDouble old.asInt)
  else if oldType = .float ∧ newType = .int then .int (doubleToInt old.asFloat)
  else .invalid

/-- One step of a plan on a node. -/
def FieldMigration.apply (node : Node) (m : FieldMigration) : Node :=
  if m.kindId ≠ node.kind then node
  else
    match m.migrationKind with
    | .removeField => { node with fields := node.fields.erase m.fieldIdx }
    | .addField =>
      match node.field m.fieldIdx with
      | none => node.setField m.fieldIdx m.defaultValue
      | some _ => node
    | .renameField => node
    | .changeType =>
      match node.field m.fieldIdx with
      | none => node
      | some old => node.setField m.fieldIdx (convertValue m.oldType m.newType old)

/-- `SchemaRegistry::apply_migration`; it cannot fail. -/
def applyMigration (nodes : List Node) (plan : MigrationPlan) : List Node :=
  nodes.map fun node =>
    if node.alive = false then node else plan.migrations.foldl FieldMigration.apply node

end Stratavm
