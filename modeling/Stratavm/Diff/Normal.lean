import Stratavm.Bytes.Streams
import Stratavm.Diff.RoundTrip
import Stratavm.Lib.Triple

/-!
# Diffs from untrusted bytes

`deserialize_diff` reads every count in 32 bits and counts the changes again, so a diff that it returns is
one that `serialize_diff` writes exactly, whatever bytes it came from: change kinds without a name, lists
in any order and values under a type byte of their own included.

Nothing else is asked of the bytes. They may spell a count in more groups than it needs, and the ids may
name nodes of no table; a diff is a list of changes here, and not a relation between two tables.

* `deserializeDiff_ensures`: what is read has the counters of its changes, and counts within 32 bits.
* `streams_deserializeDiff`: it is read as a stream.
* **`deserializeDiff_normal`**: the diff is written in a form that is read back as it is, and no proper
  prefix of that form is accepted.
-/

namespace Stratavm

open Lib Lib.Decoder

/-! ## What is read -/

theorem readIds_ensures : Ensures readIds fun ids => ids.length < 2 ^ 32 := by
  refine (Ensures.any _).bind fun count _ => ?_
  intro s ids s' h
  have hlen := (Ensures.listFrom (fun _ => Ensures.any readVarintU32) 0 _ s ids s' h).1
  exact hlen.trans_lt count.toNat_lt

/-- A list in a value is within 32 bits. -/
theorem readValue_ensures : Ensures readValue fun v => v.asList.length < 2 ^ 32 := by
  refine (Ensures.any _).bind fun typeByte _ => ?_
  have hscalar : ∀ v : Value, v.asList = [] → v.asList.length < 2 ^ 32 := fun v hv => by rw [hv]; decide
  cases ValueType.ofByte? typeByte with
  | none => exact .fail _
  | some type =>
    cases type with
    | invalid => exact .pure (hscalar _ rfl)
    | int => exact (Ensures.any readSvarint).bind fun v _ => .pure (hscalar (.int v) rfl)
    | float => exact (Ensures.any readF64).bind fun v _ => .pure (hscalar (.float v) rfl)
    | atom => exact (Ensures.any readVarintU32).bind fun v _ => .pure (hscalar (.atom v) rfl)
    | ref => exact (Ensures.any readVarintU32).bind fun v _ => .pure (hscalar (.ref v) rfl)
    | list =>
      exact (Ensures.any readVarintU32).bind fun count _ =>
        (Ensures.listFrom (fun _ => Ensures.any readVarintU32) 0 _).bind fun items hitems =>
          .pure (P := fun v : Value => v.asList.length < 2 ^ 32) (hitems.1.trans_lt count.toNat_lt)

theorem readFieldChange_ensures : Ensures readFieldChange fun fc =>
    fc.before.asList.length < 2 ^ 32 ∧ fc.after.asList.length < 2 ^ 32 :=
  (Ensures.any _).bind fun _ _ => readValue_ensures.bind fun _ hbefore =>
    readValue_ensures.bind fun _ hafter => .pure ⟨hbefore, hafter⟩

theorem readNodeChange_ensures : Ensures readNodeChange NodeChange.CountsFit := by
  refine (Ensures.any _).bind fun kindByte _ => (Ensures.any _).bind fun name _ =>
    (Ensures.any _).bind fun beforeId _ => (Ensures.any _).bind fun afterId _ =>
    (Ensures.any _).bind fun kind _ => (Ensures.any _).bind fun count _ => ?_
  refine (Ensures.listFrom (fun _ => readFieldChange_ensures) 0 _).bind fun fieldChanges hfields =>
    readIds_ensures.bind fun added hadded => readIds_ensures.bind fun removed hremoved => .pure ?_
  exact ⟨hfields.1.trans_lt count.toNat_lt, hadded, hremoved, hfields.2⟩

/-- **A diff that is read** has the counters of its changes, and counts within 32 bits. -/
theorem deserializeDiff_ensures : Ensures deserializeDiff fun diff => diff.CountsFit ∧ diff.Consistent := by
  refine (Ensures.any _).bind fun count _ => ?_
  have hloop := @Ensures.loop _ _ (fun _ (diff : GraphDiff) => do
      let nc ← readNodeChange
      pure (diff.record nc))
    (fun i diff => diff.changes.length = i ∧ (∀ nc ∈ diff.changes, nc.CountsFit) ∧ diff.Consistent) ?_
    0 {} ⟨rfl, nofun, GraphDiff.consistent_empty⟩ count.toNat
  · intro s diff s' h
    obtain ⟨hlen, heach, hconsistent⟩ := hloop s diff s' h
    rw [Nat.zero_add] at hlen
    exact ⟨⟨hlen.trans_lt count.toNat_lt, heach⟩, hconsistent⟩
  · rintro i diff ⟨hlen, heach, hconsistent⟩
    refine readNodeChange_ensures.bind fun nc hnc => .pure ⟨?_, fun nc' hnc' => ?_, hconsistent.record nc⟩
    · rw [GraphDiff.changes_record, List.length_append, hlen, List.length_singleton]
    · rw [GraphDiff.changes_record] at hnc'
      rcases List.mem_append.mp hnc' with hnc' | hnc'
      · exact heach nc' hnc'
      · obtain rfl := List.mem_singleton.mp hnc'
        exact hnc

/-! ## Blobs cut short -/

theorem streams_readIds : Streams readIds :=
  streams_readVarintU32.bind fun _ => .listFrom fun _ => streams_readVarintU32

theorem streams_readValue : Streams readValue := by
  refine streams_readU8.bind fun typeByte => ?_
  cases ValueType.ofByte? typeByte with
  | none => exact .fail _
  | some type =>
    cases type with
    | invalid => exact .pure _
    | int => exact streams_readSvarint.bind fun _ => .pure _
    | float => exact streams_readF64.bind fun _ => .pure _
    | atom | ref => exact streams_readVarintU32.bind fun _ => .pure _
    | list =>
      exact streams_readVarintU32.bind fun _ =>
        Decoder.Streams.bind (.listFrom fun _ => streams_readVarintU32) fun _ => .pure _

theorem streams_readNodeChange : Streams readNodeChange := by
  have hfield : Streams readFieldChange := streams_readVarintU32.bind fun _ =>
    streams_readValue.bind fun _ => streams_readValue.bind fun _ => .pure _
  refine streams_readU8.bind fun kindByte => streams_readVarintU32.bind fun name =>
    streams_readVarintU32.bind fun beforeId => streams_readVarintU32.bind fun afterId =>
    streams_readVarintU32.bind fun kind => streams_readVarintU32.bind fun count => ?_
  exact Decoder.Streams.bind (.listFrom fun _ => hfield) fun fieldChanges =>
    streams_readIds.bind fun added => streams_readIds.bind fun removed => .pure _

/-- `deserialize_diff` reads a blob as a stream. -/
theorem streams_deserializeDiff : Streams deserializeDiff :=
  streams_readVarintU32.bind fun _ => .loop fun _ _ => streams_readNodeChange.bind fun _ => .pure _

/-- **Diff bytes have a normal form**: what `deserialize_diff` accepts is written again as bytes that read
back as the same diff and leave what follows them, and any proper prefix of them is `Truncated`. -/
theorem deserializeDiff_normal (s rest : Bytes) (diff : GraphDiff)
    (h : deserializeDiff s = .ok (diff, rest)) :
    (∀ t, deserializeDiff (serializeDiff diff ++ t) = .ok (diff, t)) ∧
      ∀ p q, p ++ q = serializeDiff diff → q ≠ [] →
        ∃ e, deserializeDiff p = .error e ∧ e.code = .truncated := by
  obtain ⟨hcounts, hconsistent⟩ := deserializeDiff_ensures s diff rest h
  have hread := reads_serializeDiff hcounts hconsistent
  refine ⟨hread, fun p q hpq hq => ?_⟩
  rw [← hpq] at hread
  exact streams_deserializeDiff.cut p q diff hq hread

/-- One change, of a kind without a name. -/
def unnamedKind : GraphDiff where
  changes := [{ change := NodeChangeKind.ofRaw 9, beforeId := 0, afterId := 0, name := 1, kind := 0 }]

/-- The number of changes is read from a longer varint than need be. -/
theorem deserializeDiff_normal_unnamedKind :
    (∀ t, deserializeDiff (serializeDiff unnamedKind ++ t) = .ok (unnamedKind, t)) ∧
      ∀ p q, p ++ q = serializeDiff unnamedKind → q ≠ [] →
        ∃ e, deserializeDiff p = .error e ∧ e.code = .truncated :=
  deserializeDiff_normal [0x81, 0, 9, 1, 0, 0, 0, 0, 0, 0] [] unnamedKind rfl

end Stratavm
