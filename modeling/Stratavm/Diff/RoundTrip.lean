import Stratavm.Diff

/-!
# The binary diff round-trips

The counters of a `GraphDiff` are not on the wire: `deserialize_diff` counts again. `Consistent` says
that the counters are what the changes amount to, and a diff is determined by its changes then
(`Consistent.ext`). Both `deserialize_diff` and `diff_node_graphs` keep it at each step.

A value is written under a type byte of its own, so it is read without a schema, and `Invalid` has a form
too: an absent field before or after a change. Floats travel as bit patterns, so a NaN comes back as it was.

* `diffNodeGraphs_consistent`: the counters of a diff of two tables, in whatever order its maps are
  iterated.
* `reads_nodeChange`: one change is read back, whatever follows.
* **`diff_round_trip`**: every consistent diff is, and `diff_node_graphs` makes no other.

Out of scope: lists of `2 ^ 32` entries, whose counts are cut to 32 bits (`CountsFit`).
-/

namespace Stratavm

open Lib Lib.Decoder

/-! ## Counters -/

namespace GraphDiff

/-- The counters are those of the changes. -/
structure Consistent (diff : GraphDiff) : Prop where
  added : diff.nodesAdded = UInt32.ofNat (diff.changes.countP fun nc => nc.change = .added)
  removed : diff.nodesRemoved = UInt32.ofNat (diff.changes.countP fun nc => nc.change = .removed)
  modified : diff.nodesModified = UInt32.ofNat (diff.changes.countP fun nc => nc.change = .modified)
  fieldChanges : diff.totalFieldChanges = UInt32.ofNat
    ((diff.changes.filter fun nc => nc.change = .modified).map fun nc => nc.fieldChanges.length).sum

variable {diff diff' : GraphDiff}

theorem consistent_empty : Consistent {} := ⟨rfl, rfl, rfl, rfl⟩

theorem changes_record (diff : GraphDiff) (nc : NodeChange) :
    (diff.record nc).changes = diff.changes ++ [nc] := by
  unfold record push
  cases nc.change <;> rfl

/-- Recording a change keeps the counters right. -/
theorem Consistent.record (h : diff.Consistent) (nc : NodeChange) :
    (diff.record nc).Consistent := by
  obtain ⟨hadded, hremoved, hmodified, hfields⟩ := h
  cases hk : nc.change <;>
    constructor <;>
    simp [GraphDiff.record, push, hk, List.countP_append, List.filter_append,
      hadded, hremoved, hmodified, hfields]

/-- A consistent diff is determined by its changes. -/
theorem Consistent.ext (h : diff.Consistent) (h' : diff'.Consistent)
    (hchanges : diff.changes = diff'.changes) : diff = diff' := by
  have hadded := h.added.trans (hchanges ▸ h'.added.symm)
  have hremoved := h.removed.trans (hchanges ▸ h'.removed.symm)
  have hmodified := h.modified.trans (hchanges ▸ h'.modified.symm)
  have hfields := h.fieldChanges.trans (hchanges ▸ h'.fieldChanges.symm)
  cases diff
  cases diff'
  simp_all

/-- What `deserialize_diff` has after a list of changes. -/
theorem foldl_record (changes : List NodeChange) :
    ∀ {diff : GraphDiff}, diff.Consistent → (changes.foldl GraphDiff.record diff).Consistent ∧
      (changes.foldl GraphDiff.record diff).changes = diff.changes ++ changes := by
  induction changes with
  | nil => exact fun h => ⟨h, (List.append_nil _).symm⟩
  | cons nc changes ih =>
    intro diff h
    obtain ⟨hconsistent, hchanges⟩ := ih (h.record nc)
    refine ⟨hconsistent, ?_⟩
    rw [List.foldl_cons, hchanges, changes_record, List.append_assoc, List.singleton_append]

end GraphDiff

section Compare

variable (order : IterationOrder) (before after : List Node) (diff : GraphDiff)
  (entry : AtomId × Node)

/-- The loop over `after_by_name` records one change per entry. -/
theorem diffAfter_eq_record :
    ∃ nc, diffAfter order before after diff entry = diff.record nc := by
  unfold diffAfter
  cases (byName before).lookup entry.1 with
  | none => exact ⟨addedChange order after entry.1 entry.2, rfl⟩
  | some b =>
    refine ⟨comparedChange order before after entry.1 b entry.2, ?_⟩
    by_cases hchanged : (comparedChange order before after entry.1 b entry.2).change = .modified
    · simp only [hchanged, GraphDiff.record, if_pos]
    · have hunchanged : (comparedChange order before after entry.1 b entry.2).change = .unchanged := by
        unfold comparedChange at hchanged ⊢
        by_contra h
        exact h (if_neg fun hc => hchanged (if_pos hc))
      simp only [hunchanged, GraphDiff.record]
      rfl

/-- The loop over `before_by_name` records a change or nothing. -/
theorem diffBefore_eq :
    diffBefore after diff entry = diff ∨ ∃ nc, diffBefore after diff entry = diff.record nc := by
  unfold diffBefore
  by_cases hgone : (byName after).lookup entry.1 = none
  · rw [if_pos hgone]
    exact .inr ⟨removedChange entry.1 entry.2, rfl⟩
  · rw [if_neg hgone]
    exact .inl rfl

/-- **`diff_node_graphs` counts right**, in whatever order its maps are iterated. -/
theorem diffNodeGraphs_consistent : (diffNodeGraphs order before after).Consistent := by
  have hafter (entries : List (AtomId × Node)) : ∀ diff : GraphDiff, diff.Consistent →
      (entries.foldl (diffAfter order before after) diff).Consistent := by
    induction entries with
    | nil => exact fun _ h => h
    | cons entry entries ih =>
      intro diff h
      obtain ⟨nc, hnc⟩ := diffAfter_eq_record order before after diff entry
      exact ih _ (hnc ▸ h.record nc)
  have hbefore (entries : List (AtomId × Node)) : ∀ diff : GraphDiff, diff.Consistent →
      (entries.foldl (diffBefore after) diff).Consistent := by
    induction entries with
    | nil => exact fun _ h => h
    | cons entry entries ih =>
      intro diff h
      refine ih _ ?_
      rcases diffBefore_eq after diff entry with hsame | ⟨nc, hnc⟩
      · exact hsame.symm ▸ h
      · exact hnc ▸ h.record nc
  exact hbefore _ _ (hafter _ _ GraphDiff.consistent_empty)

end Compare

/-! ## Reading back -/

/-- Every count of a change was counted in 32 bits. -/
structure NodeChange.CountsFit (nc : NodeChange) : Prop where
  fields : nc.fieldChanges.length < 2 ^ 32
  added : nc.childrenAdded.length < 2 ^ 32
  removed : nc.childrenRemoved.length < 2 ^ 32
  values : ∀ fc ∈ nc.fieldChanges, fc.before.asList.length < 2 ^ 32 ∧ fc.after.asList.length < 2 ^ 32

/-- Every count of a diff was counted in 32 bits. -/
structure GraphDiff.CountsFit (diff : GraphDiff) : Prop where
  changes : diff.changes.length < 2 ^ 32
  each : ∀ nc ∈ diff.changes, nc.CountsFit

theorem ValueType.ofByte?_raw (t : ValueType) : ofByte? t.raw = some t := by
  cases t <;> rfl

theorem reads_ids {ids : List UInt32} (h : ids.length < 2 ^ 32) :
    Reads readIds (writeIds ids) ids := by
  obtain ⟨hread, hn⟩ := reads_count32 h
  refine hread.bind ?_
  rw [hn]
  exact Reads.listFrom fun _ n _ => reads_varintU32 n

/-- A value, `Invalid` included, is read back under its own type byte. -/
theorem reads_writeValue {v : Value} (h : v.asList.length < 2 ^ 32) :
    Reads readValue (writeValue v) v := by
  rw [writeValue_eq]
  refine (reads_u8 _).bind ?_
  rw [ValueType.ofByte?_raw]
  cases v with
  | invalid => exact Reads.pure _
  | int v => exact (reads_svarint v).bind_pure
  | float b => exact (reads_f64 b).bind_pure
  | atom a => exact (reads_varintU32 a).bind_pure
  | ref n => exact (reads_varintU32 n).bind_pure
  | list items =>
    obtain ⟨hread, hn⟩ := reads_count32 h
    refine hread.bind ?_
    rw [hn]
    exact (Reads.listFrom fun _ n _ => reads_varintU32 n).bind_pure

theorem reads_fieldChange {fc : FieldChange} (hbefore : fc.before.asList.length < 2 ^ 32)
    (hafter : fc.after.asList.length < 2 ^ 32) :
    Reads readFieldChange (writeFieldChange fc) fc :=
  (reads_varintU32 fc.fieldIdx).bind
    ((reads_writeValue hbefore).bind (reads_writeValue hafter).bind_pure)

/-- **A change is read back**, the boundaries of its lists included. -/
theorem reads_nodeChange {nc : NodeChange} (h : nc.CountsFit) :
    Reads readNodeChange (writeNodeChange nc) nc := by
  obtain ⟨hread, hn⟩ := reads_count32 h.fields
  refine (reads_u8 _).bind ((reads_varintU32 nc.name).bind ((reads_varintU32 nc.beforeId).bind
    ((reads_varintU32 nc.afterId).bind ((reads_varintU32 nc.kind).bind (hread.bind ?_)))))
  rw [hn]
  refine Reads.bind (Reads.listFrom fun _ fc hfc => ?_)
    ((reads_ids h.added).bind ((reads_ids h.removed).bind_of_eq_pure ?_))
  · obtain ⟨hbefore, hafter⟩ := h.values fc (List.mem_of_getElem? hfc)
    exact reads_fieldChange hbefore hafter
  · rw [NodeChangeKind.ofRaw_raw]

/-- The decoder counts again what it reads. -/
theorem reads_diff {diff : GraphDiff} (h : diff.CountsFit) :
    Reads deserializeDiff (serializeDiff diff) (diff.changes.foldl GraphDiff.record {}) := by
  obtain ⟨hread, hn⟩ := reads_count32 h.changes
  refine hread.bind ?_
  rw [hn]
  refine Reads.loop fun pre nc suf hchanges => ?_
  have hnc : nc ∈ diff.changes := by
    rw [hchanges]
    exact List.mem_append_right _ List.mem_cons_self
  exact (reads_nodeChange (h.each nc hnc)).bind_pure

/-- Every diff with the counters of its changes is read back. -/
theorem reads_serializeDiff {diff : GraphDiff} (hcounts : diff.CountsFit) (hconsistent : diff.Consistent) :
    Reads deserializeDiff (serializeDiff diff) diff := by
  obtain ⟨hrecorded, hchanges⟩ := GraphDiff.foldl_record diff.changes GraphDiff.consistent_empty
  have hread := reads_diff hcounts
  rwa [hrecorded.ext hconsistent hchanges] at hread

/-- **The binary diff round-trips**: every diff with the counters of its changes is read back from
its bytes, whatever follows them, and every output of `diff_node_graphs` is such a diff. -/
theorem diff_round_trip :
    (∀ diff : GraphDiff, diff.CountsFit → diff.Consistent →
      Reads deserializeDiff (serializeDiff diff) diff) ∧
    ∀ (order : IterationOrder) (before after : List Node),
      (diffNodeGraphs order before after).Consistent :=
  ⟨fun _ hcounts hconsistent => reads_serializeDiff hcounts hconsistent, diffNodeGraphs_consistent⟩

/-- A modified node: a NaN written where nothing was, and a child gone. -/
def oneModified : GraphDiff where
  changes := [{
    change := .modified, beforeId := 0, afterId := 4, name := 1, kind := 0
    fieldChanges := [{ fieldIdx := 2, after := .float 0x7FF8000000000000 }]
    childrenRemoved := [3] }]
  nodesModified := 1
  totalFieldChanges := 1

theorem diff_round_trip_oneModified :
    deserializeDiff (serializeDiff oneModified) = .ok (oneModified, []) := by
  refine (diff_round_trip.1 oneModified ⟨by decide, ?_⟩ ⟨rfl, rfl, rfl, rfl⟩).run
  intro nc hnc
  obtain rfl := List.mem_singleton.mp hnc
  refine ⟨by decide, by decide, by decide, fun fc hfc => ?_⟩
  obtain rfl := List.mem_singleton.mp hfc
  exact ⟨by decide, by decide⟩

end Stratavm
