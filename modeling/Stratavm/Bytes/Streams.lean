import Stratavm.Lib.Streams
import Stratavm.Value

/-!
# The primitive readers stream

`ByteReader` never moves its cursor past what a call returns: the length of a string or of a list is
read before its items, and a varint ends with the group that has no continuation bit. What a call
returns does not depend on the bytes after it, and a call that runs out of bytes says `Truncated`.

That is `Lib.Decoder.Streams` with `Truncated` for the error of an input that is too short. The readers of
a fixed width have it because they take a number of bytes and look at no others (`Takes`); a varint reads
one group at a time and has it by induction on the groups that are left (`streams_readVarintLoop`); what is
put together of readers has it by `Streams.bind`.

Every format that is read from a file or a journal builds on these: a journal cut short, a blob cut short
and journals joined are facts about streams.
-/

namespace Stratavm

open Lib Lib.Decoder

/-- The error of a reader that ran out of bytes. -/
def Status.IsTruncated (e : Status) : Prop := e.code = .truncated

/-- A reader that takes what it needs off the front, and says `Truncated` without it. -/
abbrev Streams {α : Type} (d : Reader α) : Prop := Decoder.Streams Status.IsTruncated d

theorem takes_readU8 :
    Takes 1 ⟨.truncated, "u8"⟩ (fun | [b] => b | _ => 0) readU8 := by
  rintro (_ | ⟨b, s⟩)
  · rfl
  · simp [readU8]

theorem takes_readU16 : Takes 2 ⟨.truncated, "u16"⟩
    (fun | [b0, b1] => b0.toUInt16 ||| (b1.toUInt16 <<< 8) | _ => 0) readU16 := by
  rintro (_ | ⟨b0, _ | ⟨b1, s⟩⟩)
  · rfl
  · rfl
  · simp [readU16]

theorem takes_readU32 : Takes 4 ⟨.truncated, "u32"⟩ (fun
    | [b0, b1, b2, b3] =>
      b0.toUInt32 ||| (b1.toUInt32 <<< 8) ||| (b2.toUInt32 <<< 16) ||| (b3.toUInt32 <<< 24)
    | _ => 0) readU32 := by
  rintro (_ | ⟨b0, _ | ⟨b1, _ | ⟨b2, _ | ⟨b3, s⟩⟩⟩⟩)
  iterate 4 rfl
  simp [readU32]

theorem takes_readU64 : Takes 8 ⟨.truncated, "u64"⟩ (fun
    | [b0, b1, b2, b3, b4, b5, b6, b7] =>
      b0.toUInt64 ||| (b1.toUInt64 <<< 8) ||| (b2.toUInt64 <<< 16) ||| (b3.toUInt64 <<< 24) |||
        (b4.toUInt64 <<< 32) ||| (b5.toUInt64 <<< 40) ||| (b6.toUInt64 <<< 48) |||
        (b7.toUInt64 <<< 56)
    | _ => 0) readU64 := by
  rintro (_ | ⟨b0, _ | ⟨b1, _ | ⟨b2, _ | ⟨b3, _ | ⟨b4, _ | ⟨b5, _ | ⟨b6, _ | ⟨b7, s⟩⟩⟩⟩⟩⟩⟩⟩)
  iterate 8 rfl
  simp [readU64]

theorem takes_readBytes (length : Nat) : Takes length ⟨.truncated, "bytes"⟩ id (readBytes length) :=
  fun _ => rfl

theorem streams_readU8 : Streams readU8 := .of_takes takes_readU8 rfl

theorem streams_readU16 : Streams readU16 := .of_takes takes_readU16 rfl

theorem streams_readU32 : Streams readU32 := .of_takes takes_readU32 rfl

theorem streams_readU64 : Streams readU64 := .of_takes takes_readU64 rfl

theorem streams_readF64 : Streams readF64 := streams_readU64

theorem streams_readBytes (length : Nat) : Streams (readBytes length) :=
  .of_takes (takes_readBytes length) rfl

/-- The groups of a varint are read one after the other. -/
theorem streams_readVarintLoop : ∀ (n : Nat) (shift value : UInt64),
    Streams (readVarintLoop n shift value)
  | 0, _, _ => .fail _
  | n + 1, shift, value => by
    have ih := streams_readVarintLoop n
    refine ⟨?_, ?_, ?_⟩
    · rintro (_ | ⟨byte, s⟩) a t h
      · cases h
      rw [readVarintLoop] at h
      by_cases hlast : byte &&& 0x80 = 0
      · simp only [hlast, if_true] at h
        obtain ⟨rfl, rfl⟩ := Prod.mk.inj (Except.ok.inj h)
        refine ⟨[byte], rfl, fun t => ?_⟩
        rw [List.cons_append, readVarintLoop]
        simp [hlast]
      · simp only [hlast, if_false] at h
        obtain ⟨bs, rfl, hread⟩ := (ih _ _).taken s a t h
        refine ⟨byte :: bs, rfl, fun t => ?_⟩
        rw [List.cons_append, readVarintLoop]
        simp only [hlast, if_false]
        exact hread t
    · rintro (_ | ⟨byte, p⟩) q a hq hread
      · exact ⟨⟨.truncated, "varint"⟩, rfl, rfl⟩
      rw [readVarintLoop]
      by_cases hlast : byte &&& 0x80 = 0
      · have h := hread.run
        rw [List.cons_append, readVarintLoop] at h
        simp only [hlast, if_true] at h
        have hnil := (Prod.mk.inj (Except.ok.inj h)).2
        exact absurd (List.append_eq_nil_iff.mp hnil).2 hq
      · simp only [hlast, if_false]
        refine (ih _ _).cut p q a hq fun t => ?_
        have h := hread t
        rw [List.cons_append, List.cons_append, readVarintLoop] at h
        simp only [hlast, if_false] at h
        exact h
    · rintro (_ | ⟨byte, p⟩) q e h
      · exact ⟨⟨.truncated, "varint"⟩, rfl, .inr rfl⟩
      rw [List.cons_append, readVarintLoop] at h
      rw [readVarintLoop]
      by_cases hlast : byte &&& 0x80 = 0
      · simp only [hlast, if_true] at h
        cases h
      · simp only [hlast, if_false] at h ⊢
        exact (ih _ _).refused p q e h

theorem streams_readVarint : Streams readVarint := streams_readVarintLoop 10 0 0

theorem streams_readVarintU32 : Streams readVarintU32 :=
  streams_readVarint.bind fun _ => .ite (.fail _) (.pure _)

theorem streams_readSvarint : Streams readSvarint := streams_readVarint.bind fun _ => .pure _

theorem streams_readLpString (maxLen : Nat) : Streams (readLpString maxLen) :=
  streams_readVarint.bind fun _ => .ite (.fail _) (streams_readBytes _)

/-- A string that is read is within its limit. -/
theorem length_readLpString_le {m : Nat} {r r' s : Bytes} (h : readLpString m r = .ok (s, r')) :
    s.length ≤ m := by
  obtain ⟨len, r1, -, h⟩ := bind_eq_ok.mp h
  split at h
  · exact absurd h fail_ne_ok
  rename_i hle
  unfold readBytes at h
  split at h
  · cases h
  · obtain ⟨rfl, -⟩ := Prod.mk.inj (Except.ok.inj h)
    rw [List.length_take]
    omega

/-- `Value::decode`, of any declared type. -/
theorem Value.streams_decode (declared : ValueType) (limits : Limits) :
    Streams (Value.decode declared limits) := by
  cases declared with
  | int => exact streams_readSvarint.bind fun _ => .pure _
  | float => exact streams_readF64.bind fun _ => .pure _
  | atom | ref => exact streams_readVarintU32.bind fun _ => .pure _
  | list =>
    refine streams_readVarintU32.bind fun n => .ite (.fail _) ?_
    exact (Decoder.Streams.listFrom fun _ => streams_readVarintU32).bind fun _ => .pure _
  | invalid => exact .fail _

end Stratavm
