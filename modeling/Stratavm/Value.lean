import Stratavm.Schema

/-!
# Field values

`Value` (`value.hpp`, `value.cpp`). A `Float` is its 64-bit pattern, so two NaNs with one pattern are one
value here; where the source compares numbers, the model compares them as IEEE 754 says. The accessors read
the union storage, whatever the tag, as the source's do (`bits`).

`payload` is the wire form of a value without a type byte: the type is the schema's, and a decoder has to be
told it.

* **`reads_value`**: a value that `Fits` is read back from its wire form under its own type, whatever
  follows.
* `decode_type`: a decoded value has the type that was asked for, and fits.
-/

namespace Stratavm

open Lib Lib.Decoder

/-- `Value`. -/
inductive Value where
  | invalid
  | int (v : Int64)
  | float (bits : UInt64)
  | atom (a : AtomId)
  | ref (n : NodeId)
  | list (items : List NodeId)
  deriving DecidableEq, Repr

namespace Value

/-- `Value::type`. -/
def type : Value → ValueType
  | invalid => .invalid
  | int _ => .int
  | float _ => .float
  | atom _ => .atom
  | ref _ => .ref
  | list _ => .list

/-- `Value::valid`. -/
def valid (v : Value) : Bool := v.type != .invalid

/-- The eight bytes of the union; zero until a scalar is stored. -/
def bits : Value → UInt64
  | invalid => 0
  | int v => v.toUInt64
  | float b => b
  | atom a => a.toUInt64
  | ref n => n.toUInt64
  | list _ => 0

/-- `Value::as_int`. -/
def asInt (v : Value) : Int64 := v.bits.toInt64

/-- `Value::as_float`, as a bit pattern. -/
def asFloat (v : Value) : UInt64 := v.bits

/-- `Value::as_atom`. -/
def asAtom (v : Value) : AtomId := v.bits.toUInt32

/-- `Value::as_ref`. -/
def asRef (v : Value) : NodeId := v.bits.toUInt32

/-- `Value::as_list`. -/
def asList : Value → List NodeId
  | list items => items
  | _ => []

/-- `Value::decode`. -/
def decode (declared : ValueType) (limits : Limits) : Reader Value :=
  match declared with
  | .int => do
    let v ← readSvarint
    pure (int v)
  | .float => do
    let v ← readF64
    pure (float v)
  | .atom => do
    let v ← readVarintU32
    pure (atom v)
  | .ref => do
    let v ← readVarintU32
    pure (ref v)
  | .list => do
    let n ← readVarintU32
    if n > limits.maxListLen then fail .limitExceeded "list too long"
    else do
      let items ← listFrom (fun _ => readVarintU32) 0 n.toNat
      pure (list items)
  | .invalid => fail .badValue "decode of invalid value type"

/-- The wire form of a value, its type left to the schema. -/
def payload : Value → Bytes
  | invalid => []
  | int v => svarint v
  | float b => f64 b
  | atom a => varint a.toUInt64
  | ref n => varint n.toUInt64
  | list items => varint (UInt64.ofNat items.length) ++ items.flatMap fun n => varint n.toUInt64

@[simp] theorem asInt_int (v : Int64) : (int v).asInt = v := rfl

@[simp] theorem asFloat_float (b : UInt64) : (float b).asFloat = b := rfl

@[simp] theorem asAtom_atom (a : AtomId) : (atom a).asAtom = a := UInt32.toUInt32_toUInt64 a

@[simp] theorem asRef_ref (n : NodeId) : (ref n).asRef = n := UInt32.toUInt32_toUInt64 n

@[simp] theorem asList_list (items : List NodeId) : (list items).asList = items := rfl

@[simp] theorem valid_iff {v : Value} : v.valid = true ↔ v.type ≠ .invalid := by
  simp [valid]

/-- A value a field can hold: valid, and no longer a list than the limit. -/
def Fits (limits : Limits) (v : Value) : Prop :=
  v.type ≠ .invalid ∧ v.asList.length ≤ limits.maxListLen.toNat

instance (limits : Limits) (v : Value) : Decidable (v.Fits limits) :=
  inferInstanceAs (Decidable (_ ∧ _))

/-- A decoded value has the declared type and keeps the list limit. -/
theorem decode_type {declared : ValueType} {limits : Limits} {r r' : Bytes} {v : Value}
    (h : decode declared limits r = .ok (v, r')) : v.type = declared ∧ v.Fits limits := by
  cases declared with
  | int =>
    obtain ⟨_, _, -, h⟩ := bind_eq_ok.mp h
    obtain ⟨rfl, -⟩ := pure_eq_ok.mp h
    exact ⟨rfl, nofun, Nat.zero_le _⟩
  | float =>
    obtain ⟨_, _, -, h⟩ := bind_eq_ok.mp h
    obtain ⟨rfl, -⟩ := pure_eq_ok.mp h
    exact ⟨rfl, nofun, Nat.zero_le _⟩
  | atom =>
    obtain ⟨_, _, -, h⟩ := bind_eq_ok.mp h
    obtain ⟨rfl, -⟩ := pure_eq_ok.mp h
    exact ⟨rfl, nofun, Nat.zero_le _⟩
  | ref =>
    obtain ⟨_, _, -, h⟩ := bind_eq_ok.mp h
    obtain ⟨rfl, -⟩ := pure_eq_ok.mp h
    exact ⟨rfl, nofun, Nat.zero_le _⟩
  | list =>
    obtain ⟨n, _, -, h⟩ := bind_eq_ok.mp h
    split at h
    · exact absurd h fail_ne_ok
    rename_i hle
    obtain ⟨items, _, hi, h⟩ := bind_eq_ok.mp h
    obtain ⟨rfl, -⟩ := pure_eq_ok.mp h
    obtain ⟨hlen, -⟩ := listFrom_forall (P := fun _ => True) (fun _ _ _ _ _ => trivial) hi
    refine ⟨rfl, nofun, ?_⟩
    rw [gt_iff_lt, UInt32.lt_iff_toNat_lt] at hle
    show items.length ≤ _
    omega
  | invalid => exact absurd h fail_ne_ok

/-- **The value codec round-trips** under the value's own type. -/
theorem reads_value {v : Value} {limits : Limits} (h : v.Fits limits) :
    Reads (decode v.type limits) v.payload v := by
  cases v with
  | invalid => exact absurd rfl h.1
  | int v => exact (reads_svarint v).bind_pure
  | float b => exact (reads_f64 b).bind_pure
  | atom a => exact (reads_varintU32 a).bind_pure
  | ref n => exact (reads_varintU32 n).bind_pure
  | list items =>
    have hle : items.length ≤ limits.maxListLen.toNat := h.2
    have hlt : items.length < 2 ^ 32 := Nat.lt_of_le_of_lt hle limits.maxListLen.toNat_lt
    obtain ⟨hread, hn⟩ := reads_count32 hlt
    refine hread.bind ?_
    rw [if_neg (by rw [gt_iff_lt, UInt32.lt_iff_toNat_lt, hn]; omega), hn]
    exact (Reads.listFrom fun _ n _ => reads_varintU32 n).bind_pure

end Value

end Stratavm
