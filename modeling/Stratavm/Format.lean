import Stratavm.Lib.Decoder

/-!
# On-disk constants, ids and error codes

`format.hpp`, `status.hpp` and the id aliases of `atom_pool.hpp`, `schema.hpp` and `value.hpp`. Ids are
fixed-width (`UInt32`) as in the source, so an id out of range of its type cannot be written down; sizes
(`size_t`) are `Nat`. A `std::string` holds bytes, so it is a `Bytes`.

An enumeration is the inductive type of its enumerators, `raw` its on-disk number and `ofRaw?` the checked
cast back. A field that the source fills by an unchecked cast keeps the number instead.

A `Status` here is an error: a success is `Except.ok`. Its detail text is part of it, so what is proved of an
error is proved of the message.

Out of scope: `size_t` overflow. Sizes are bounded by the bytes of a file, far below `2 ^ 64`.
-/

namespace Stratavm

open Lib

/-- A byte run: the contents of a `std::string` or a `std::vector<std::uint8_t>`. -/
abbrev Bytes := List UInt8

/-! ## Status -/

/-- `Code`, without `Ok`: a success is `Except.ok`. -/
inductive Code where
  | truncated
  | badMagic
  | unsupportedVersion
  | badSectionTable
  | duplicateSection
  | missingSection
  | badAtomPool
  | badSchema
  | badHeap
  | badJournal
  | badXref
  | badValue
  | badOpcode
  | nodeOutOfRange
  | atomOutOfRange
  | kindOutOfRange
  | fieldOutOfRange
  | typeMismatch
  | groupUnderflow
  | groupOverflow
  | unresolvedRef
  | invariantViolation
  | limitExceeded
  | internal
  | badChecksum
  | notFound
  | alreadyExists
  deriving DecidableEq, Repr

/-- An error `Status`: a code and its detail text. -/
structure Status where
  code : Code
  detail : String := ""
  deriving DecidableEq, Repr

/-- A `ByteReader`-driven decoder. The reader's state is the bytes of `[pos_, size_)`. -/
abbrev Reader (α : Type) := Decoder Status α

/-- `fail(code, detail)` inside a decoder. -/
def fail {α : Type} (code : Code) (detail : String) : Reader α := Decoder.fail ⟨code, detail⟩

theorem fail_ne_ok {α : Type} {code : Code} {detail : String} {s : Bytes} {p : α × Bytes} :
    (fail code detail : Reader α) s ≠ .ok p := Decoder.fail_ne_ok

/-! ## Ids -/

abbrev AtomId := UInt32
abbrev NodeId := UInt32
abbrev KindId := UInt32
abbrev FieldId := UInt32

/-- `kInvalidAtom`. -/
def kInvalidAtom : AtomId := 0xFFFFFFFF

/-- `kInvalidNode`. -/
def kInvalidNode : NodeId := 0xFFFFFFFF

/-- `kInvalidKind`. -/
def kInvalidKind : KindId := 0xFFFFFFFF

/-! ## Tags and opcodes -/

/-- `kMagic`: `STRATAVM`. -/
def kMagic : Bytes := [0x53, 0x54, 0x52, 0x41, 0x54, 0x41, 0x56, 0x4D]

/-- `kVersionMajor`. -/
def kVersionMajor : UInt8 := 1

/-- `kVersionMinor`. -/
def kVersionMinor : UInt8 := 0

/-- `SectionTag`. -/
inductive SectionTag where
  | atom
  | schema
  | heap
  | journal
  | xref
  | metadata
  | unknown
  deriving DecidableEq, Repr

/-- The on-disk value of a tag. -/
def SectionTag.raw : SectionTag → UInt32
  | .atom => 0x4D4F5441
  | .schema => 0x414D4353
  | .heap => 0x50414548
  | .journal => 0x4C4E524A
  | .xref => 0x46455258
  | .metadata => 0x4154454D
  | .unknown => 0

theorem SectionTag.raw_inj {t u : SectionTag} (h : t.raw = u.raw) : t = u := by
  cases t <;> cases u <;> first | rfl | exact absurd h (by decide)

/-- `ValueType`. -/
inductive ValueType where
  | int
  | float
  | atom
  | ref
  | list
  | invalid
  deriving DecidableEq, Repr

/-- The byte of a `ValueType`. -/
def ValueType.raw : ValueType → UInt8
  | .int => 0
  | .float => 1
  | .atom => 2
  | .ref => 3
  | .list => 4
  | .invalid => 0xFF

/-- `static_cast<ValueType>(raw)` where `is_valid_value_type(raw)`: the five on-disk types. -/
def ValueType.ofRaw? (raw : UInt8) : Option ValueType :=
  if raw = 0 then some .int
  else if raw = 1 then some .float
  else if raw = 2 then some .atom
  else if raw = 3 then some .ref
  else if raw = 4 then some .list
  else none

theorem ValueType.ofRaw?_raw {t : ValueType} (ht : t ≠ .invalid) : ofRaw? t.raw = some t := by
  cases t <;> first | rfl | exact absurd rfl ht

theorem ValueType.ofRaw?_ne_invalid {raw : UInt8} {t : ValueType} (h : ofRaw? raw = some t) :
    t ≠ .invalid := by
  unfold ofRaw? at h
  repeat' split at h
  all_goals cases h
  all_goals decide

/-- `OpCode`. -/
inductive OpCode where
  | newNode
  | setField
  | beginGroup
  | endGroup
  | addChild
  | linkRef
  | dropNode
  | snapshot
  | setMeta
  | nop
  deriving DecidableEq, Repr

/-- The byte of an opcode. -/
def OpCode.raw : OpCode → UInt8
  | .newNode => 0x01
  | .setField => 0x02
  | .beginGroup => 0x03
  | .endGroup => 0x04
  | .addChild => 0x05
  | .linkRef => 0x06
  | .dropNode => 0x07
  | .snapshot => 0x08
  | .setMeta => 0x09
  | .nop => 0x0A

/-- `static_cast<OpCode>(raw)` where `is_valid_opcode(raw)`. -/
def OpCode.ofRaw? (raw : UInt8) : Option OpCode :=
  if raw = 0x01 then some .newNode
  else if raw = 0x02 then some .setField
  else if raw = 0x03 then some .beginGroup
  else if raw = 0x04 then some .endGroup
  else if raw = 0x05 then some .addChild
  else if raw = 0x06 then some .linkRef
  else if raw = 0x07 then some .dropNode
  else if raw = 0x08 then some .snapshot
  else if raw = 0x09 then some .setMeta
  else if raw = 0x0A then some .nop
  else none

theorem OpCode.ofRaw?_raw (op : OpCode) : ofRaw? op.raw = some op := by
  cases op <;> rfl

/-- Each opcode has one byte. -/
theorem OpCode.eq_raw_of_ofRaw? {raw : UInt8} {op : OpCode} (h : ofRaw? raw = some op) :
    raw = op.raw := by
  unfold ofRaw? at h
  repeat' split at h
  all_goals first
    | (obtain rfl := Option.some.inj h; assumption)
    | cases h

/-! ## Limits -/

/-- `Limits` with its defaults. -/
structure Limits where
  maxSections : UInt32 := 64
  maxAtoms : UInt32 := (1 : UInt32) <<< 20
  maxAtomLen : UInt32 := (1 : UInt32) <<< 16
  maxKinds : UInt32 := (1 : UInt32) <<< 16
  maxFieldsPerKind : UInt32 := (1 : UInt32) <<< 12
  maxNodes : UInt32 := (1 : UInt32) <<< 22
  maxJournalOps : UInt32 := (1 : UInt32) <<< 22
  maxListLen : UInt32 := (1 : UInt32) <<< 20
  maxGroupDepth : UInt32 := 256
  deriving DecidableEq, Repr

end Stratavm
