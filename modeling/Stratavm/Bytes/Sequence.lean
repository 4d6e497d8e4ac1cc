import Stratavm.Bytes

/-!
# Sequences of primitives

A `WriterCall` is one call of a `ByteWriter`, and its `Primitive` the call of a `ByteReader` that reads what it
appended. The eight primitives are the methods that the two classes have in common: fixed-width integers,
the two varints, doubles as their bit patterns, and strings under a length limit. The limit of a string is
an argument of the reader, a `size_t` of 64 bits, and the only thing a value has to fit (`Primitive.Fits`).

Each call reads exactly what its counterpart wrote, so a sequence of them is an induction over `bind`
(`reads_all`), with the unread bytes as the cursor.

* **`sequence_round_trip`**: whatever is written in sequence is read back in sequence, and the cursor
  stops where the last call stopped writing. No varint takes more than ten bytes.
-/

namespace Stratavm

open Lib Lib.Decoder

/-- A reader call, with the bound that `read_lp_string` takes. -/
inductive Primitive where
  | u8
  | u16
  | u32
  | u64
  | f64
  | varint
  | svarint
  | lpString (maxLen : UInt64)

namespace Primitive

/-- The values of a primitive. A double is its bit pattern. -/
def Val : Primitive → Type
  | u8 => UInt8
  | u16 => UInt16
  | u32 => UInt32
  | u64 | f64 | varint => UInt64
  | svarint => Int64
  | lpString _ => Bytes

/-- The call of the reader. -/
def read : (p : Primitive) → Reader p.Val
  | u8 => readU8
  | u16 => readU16
  | u32 => readU32
  | u64 => readU64
  | f64 => readF64
  | varint => readVarint
  | svarint => readSvarint
  | lpString maxLen => readLpString maxLen.toNat

/-- The call of the writer. -/
def write : (p : Primitive) → p.Val → Bytes
  | u8 => Stratavm.u8
  | u16 => Stratavm.u16
  | u32 => Stratavm.u32
  | u64 => Stratavm.u64
  | f64 => Stratavm.f64
  | varint => Stratavm.varint
  | svarint => Stratavm.svarint
  | lpString _ => Stratavm.lpString

/-- A value that the reader accepts: a string no longer than its bound. -/
def Fits : (p : Primitive) → p.Val → Prop
  | lpString maxLen => fun s : Bytes => s.length ≤ maxLen.toNat
  | _ => fun _ => True

theorem reads : ∀ (p : Primitive) (v : p.Val), p.Fits v → Reads p.read (p.write v) v
  | u8, v, _ => reads_u8 v
  | u16, v, _ => reads_u16 v
  | u32, v, _ => reads_u32 v
  | u64, v, _ => reads_u64 v
  | f64, v, _ => reads_f64 v
  | varint, v, _ => reads_varint v
  | svarint, v, _ => reads_svarint v
  | lpString maxLen, _, h => reads_lpString h (Nat.lt_of_le_of_lt h maxLen.toNat_lt)

end Primitive

/-- A writer call: a primitive and its argument. -/
abbrev WriterCall := Σ p : Primitive, p.Val

/-- The calls of a writer, one after the other. -/
def writeAll (calls : List WriterCall) : Bytes := calls.flatMap fun call => call.1.write call.2

/-- The calls of a reader, one after the other, and what they returned. -/
def readAll : List Primitive → Reader (List WriterCall)
  | [] => pure []
  | p :: ps => do
    let v ← p.read
    let vs ← readAll ps
    pure (⟨p, v⟩ :: vs)

theorem reads_all : ∀ {calls : List WriterCall}, (∀ call ∈ calls, call.1.Fits call.2) →
    Reads (readAll (calls.map Sigma.fst)) (writeAll calls) calls
  | [], _ => Reads.pure []
  | ⟨p, v⟩ :: calls, h => by
    obtain ⟨hv, hcalls⟩ := List.forall_mem_cons.mp h
    exact (p.reads v hv).bind ((reads_all hcalls).bind_pure (f := (⟨p, v⟩ :: ·)))

/-- **The primitive codec round-trips in sequence**, whatever bytes follow; no varint takes more than
ten bytes. -/
theorem sequence_round_trip (calls : List WriterCall) (h : ∀ call ∈ calls, call.1.Fits call.2)
    (rest : Bytes) :
    readAll (calls.map Sigma.fst) (writeAll calls ++ rest) = .ok (calls, rest) ∧
      (∀ v, (varint v).length ≤ 10) ∧ ∀ v, (svarint v).length ≤ 10 :=
  ⟨reads_all h rest, length_varint_le, fun v => length_varint_le (zigzag v)⟩

/-- The least `int64` between two strings. -/
theorem sequence_round_trip_minInt :
    readAll [.lpString 3, .svarint, .lpString 0]
        (writeAll [⟨.lpString 3, [0x61, 0xFF]⟩, ⟨.svarint, Int64.minValue⟩, ⟨.lpString 0, []⟩] ++
          [0x80]) =
      .ok ([⟨.lpString 3, [0x61, 0xFF]⟩, ⟨.svarint, Int64.minValue⟩, ⟨.lpString 0, []⟩], [0x80]) :=
  (sequence_round_trip [⟨.lpString 3, [0x61, 0xFF]⟩, ⟨.svarint, Int64.minValue⟩, ⟨.lpString 0, []⟩]
    (List.forall_mem_cons.mpr ⟨(by decide : 2 ≤ (3 : UInt64).toNat),
      List.forall_mem_cons.mpr ⟨trivial, List.forall_mem_singleton.mpr (Nat.zero_le _)⟩⟩)
    [0x80]).1

end Stratavm
