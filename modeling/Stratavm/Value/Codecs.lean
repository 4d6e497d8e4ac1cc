import Stratavm.Builder
import Stratavm.Compactor
import Stratavm.Diff.RoundTrip

/-!
# One wire form of a value

The encoders of the builder, the compactor and the diff, and the decoders of the journal and the diff, are
written apart, each with a switch over the type of the value. Nothing in the source ties them together, and
a journal that one of them writes is read by another. They share the wire form `Value.payload`: no type byte,
a list as its count and its ids.

* `ContainerBuilder.encode?_eq`, `JournalCompactor.encodeValue_eq`, `emitValuePayload_eq`, `writeValue_eq`:
  each encoder against the wire form.
* **`codecs_agree`**: the encoders write the same bytes for a value, and each decoder reads back exactly what
  they wrote, whatever follows.
-/

namespace Stratavm

open Lib Lib.Decoder

/-- The builder's encoder for a value of this type; it has none for `Invalid`. -/
def ContainerBuilder.encode? : Value → Option Bytes
  | .int v => some (encInt v)
  | .float v => some (encFloat v)
  | .atom v => some (encAtom v)
  | .ref v => some (encRef v)
  | .list v => some (encList v)
  | .invalid => none

theorem ContainerBuilder.encode?_eq {v : Value} (h : v.type ≠ .invalid) :
    encode? v = some v.payload := by
  cases v with
  | invalid => exact absurd rfl h
  | _ => rfl

/-- **All value codecs agree** on a valid value within the list limit. -/
theorem codecs_agree (limits : Limits) (v : Value) (h : v.Fits limits) :
    ∃ bytes, ContainerBuilder.encode? v = some bytes ∧ JournalCompactor.encodeValue v = bytes ∧
      emitValuePayload v = bytes ∧ writeValue v = u8 v.type.raw ++ bytes ∧
      Reads (Value.decode v.type limits) bytes v ∧ Reads readValue (u8 v.type.raw ++ bytes) v := by
  refine ⟨v.payload, ContainerBuilder.encode?_eq h.1, JournalCompactor.encodeValue_eq h.1,
    emitValuePayload_eq v, writeValue_eq v, Value.reads_value h, ?_⟩
  rw [← writeValue_eq]
  exact reads_writeValue (Nat.lt_of_le_of_lt h.2 limits.maxListLen.toNat_lt)

/-- A list of two references. -/
theorem codecs_agree_list :
    (Value.list [1, 300]).Fits {} ∧ ∃ bytes, ContainerBuilder.encode? (.list [1, 300]) = some bytes ∧
      JournalCompactor.encodeValue (.list [1, 300]) = bytes ∧ emitValuePayload (.list [1, 300]) = bytes ∧
      writeValue (.list [1, 300]) = u8 ValueType.list.raw ++ bytes ∧
      Reads (Value.decode .list {}) bytes (.list [1, 300]) ∧
      Reads readValue (u8 ValueType.list.raw ++ bytes) (.list [1, 300]) :=
  ⟨by decide, codecs_agree {} (.list [1, 300]) (by decide)⟩

end Stratavm
