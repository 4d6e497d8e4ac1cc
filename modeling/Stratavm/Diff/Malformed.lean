import Stratavm.Diff.RoundTrip

/-!
# Malformed changes

A change may name no node where its journal needs one, and its kind may be a byte that is no
enumerator's: `deserialize_diff` reads both. `diff_to_journal` has no error path; it leaves out what it
has no id for.

`soundPart` is the change without that: a removed node that has no id is no change, fields of a node
without an id are not set, and a kind without a name is `Unchanged`. A change is malformed iff it is not
its own sound part (`soundPart_eq_iff`).

* `emitChange_sound`: what is written of a change is what is written of its sound part.
* **`diffToJournal_reports_iff`**: so a malformed change is never reported, whether the diff was built in
  memory or read from bytes.
* `removedNowhere`: a diff of one change, read without an error, whose journal is empty.
-/

namespace Stratavm

open Lib Lib.Decoder

namespace NodeChange

/-- A removed node without its id, a field set on a node without its id, or a kind that is none. -/
inductive Malformed (nc : NodeChange) : Prop
  | removed (hchange : nc.change = .removed) (hid : nc.beforeId = kInvalidNode)
  | set {fc} (hchange : nc.change = .added ∨ nc.change = .modified) (hid : nc.afterId = kInvalidNode)
      (hfc : fc ∈ nc.fieldChanges) (hset : fc.after.type ≠ .invalid)
  | other {raw h} (hchange : nc.change = .other raw h)

/-- A change less what is malformed in it. -/
def soundPart (nc : NodeChange) : NodeChange :=
  match nc.change with
  | .removed => if nc.beforeId = kInvalidNode then { nc with change := .unchanged } else nc
  | .added | .modified =>
    if nc.afterId = kInvalidNode then
      { nc with fieldChanges := nc.fieldChanges.filter fun fc => fc.after.type = .invalid }
    else nc
  | .other _ _ => { nc with change := .unchanged }
  | .unchanged => nc

end NodeChange

namespace JournalPatch

variable {patch : JournalPatch} {nc : NodeChange}

/-- Fields of a node without an id are not written. -/
theorem emitFields_noId (hid : nc.afterId = kInvalidNode) : patch.emitFields nc = patch := by
  unfold emitFields
  rw [hid]
  generalize nc.fieldChanges = changes
  induction changes with
  | nil => rfl
  | cons fc changes ih =>
    rw [List.foldl_cons, if_pos rfl, ite_self]
    exact ih

/-- **The sound part of a change is what is written of it.** -/
theorem emitChange_sound : patch.emitChange nc = patch.emitChange nc.soundPart := by
  obtain ⟨change, beforeId, afterId, name, kind, fieldChanges, childrenAdded, childrenRemoved⟩ := nc
  cases change with
  | unchanged | other => rfl
  | removed =>
    unfold NodeChange.soundPart
    dsimp only
    split
    · rename_i hid
      exact if_neg fun hne => hne hid
    · rfl
  | added | modified =>
    unfold NodeChange.soundPart
    dsimp only
    split
    · rename_i hid
      unfold emitChange
      dsimp only
      rw [emitFields_noId hid, emitFields_noId hid]
      rfl
    · rfl

end JournalPatch

/-- A change is its sound part iff it is not malformed. -/
theorem NodeChange.soundPart_eq_iff (nc : NodeChange) : nc.soundPart = nc ↔ ¬ nc.Malformed := by
  have hset : nc.change = .added ∨ nc.change = .modified → (nc.Malformed ↔
      nc.afterId = kInvalidNode ∧ ∃ fc ∈ nc.fieldChanges, fc.after.type ≠ .invalid) := by
    intro hchange
    constructor
    · rintro (⟨hchange', -⟩ | ⟨-, hid, hfc, hset⟩ | ⟨hchange'⟩)
      · rcases hchange with h | h <;> cases hchange'.symm.trans h
      · exact ⟨hid, _, hfc, hset⟩
      · rcases hchange with h | h <;> cases hchange'.symm.trans h
    · rintro ⟨hid, fc, hfc, hset⟩
      exact .set hchange hid hfc hset
  obtain ⟨change, beforeId, afterId, name, kind, fieldChanges, childrenAdded, childrenRemoved⟩ := nc
  cases change with
  | unchanged =>
    refine iff_of_true rfl ?_
    rintro (⟨hchange, -⟩ | ⟨hchange | hchange, -⟩ | ⟨hchange⟩) <;> cases hchange
  | other raw h =>
    refine iff_of_false (fun heq => ?_) (not_not.mpr (.other rfl))
    cases congrArg NodeChange.change heq
  | removed =>
    unfold soundPart
    dsimp only
    split
    · rename_i hid
      refine iff_of_false (fun heq => ?_) (not_not.mpr (.removed rfl hid))
      cases congrArg NodeChange.change heq
    · rename_i hid
      refine iff_of_true rfl ?_
      rintro (⟨-, hid'⟩ | ⟨hchange | hchange, -⟩ | ⟨hchange⟩)
      · exact hid hid'
      all_goals cases hchange
  | added | modified =>
    rw [hset (by simp)]
    unfold soundPart
    dsimp only
    split
    · rename_i hid
      rw [not_and, NodeChange.mk.injEq]
      simp [hid, List.filter_eq_self]
    · rename_i hid
      exact iff_of_true rfl fun h => hid h.1

/-- **The journal of a diff is that of its sound part.** -/
theorem diffToJournal_sound (diff : GraphDiff) : diffToJournal diff =
    diffToJournal { diff with changes := diff.changes.map NodeChange.soundPart } := by
  have hemit : JournalPatch.emitChange = fun patch nc => patch.emitChange nc.soundPart := by
    funext patch nc
    exact JournalPatch.emitChange_sound
  have hfold : diff.changes.foldl JournalPatch.emitChange {} =
      (diff.changes.map NodeChange.soundPart).foldl JournalPatch.emitChange {} := by
    rw [List.foldl_map, ← hemit]
  unfold diffToJournal
  rw [hfold]

/-! ## What is reported -/

/-- A malformed change makes `diff_to_journal` fail. -/
def GraphDiff.Reports (diff : GraphDiff) : Prop :=
  (∃ nc ∈ diff.changes, nc.Malformed) → ∃ st, diffToJournal diff = .error st

/-- A malformed change that was written makes `deserialize_diff` fail, or `diff_to_journal`. -/
def Reported (bytes : Bytes) : Prop :=
  ∀ diff rest, deserializeDiff bytes = .ok (diff, rest) → diff.Reports

theorem GraphDiff.reports_iff (diff : GraphDiff) :
    diff.Reports ↔ ∀ nc ∈ diff.changes, ¬ nc.Malformed := by
  constructor
  · intro h nc hnc hmalformed
    obtain ⟨st, hst⟩ := h ⟨nc, hnc, hmalformed⟩
    cases hst
  · rintro h ⟨nc, hnc, hmalformed⟩
    exact absurd hmalformed (h nc hnc)

/-- **A malformed change is not reported**: `diff_to_journal` does what the sound part asks for. -/
theorem diffToJournal_reports_iff (diff : GraphDiff) (bytes : Bytes) :
    (diff.Reports ↔ ∀ nc ∈ diff.changes, ¬ nc.Malformed) ∧
      (Reported bytes ↔ ∀ diff rest, deserializeDiff bytes = .ok (diff, rest) →
        ∀ nc ∈ diff.changes, ¬ nc.Malformed) ∧
      diffToJournal diff =
        diffToJournal { diff with changes := diff.changes.map NodeChange.soundPart } ∧
      ∀ nc ∈ diff.changes, nc.soundPart = nc ↔ ¬ nc.Malformed := by
  refine ⟨diff.reports_iff, ?_, diffToJournal_sound diff, fun nc _ => NodeChange.soundPart_eq_iff nc⟩
  exact forall_congr' fun diff => forall_congr' fun rest => forall_congr' fun _ => diff.reports_iff

/-- One change: a node removed, whose id is `kInvalidNode`. -/
def removedNowhere : Bytes :=
  [1, 1, 7, 0xFF, 0xFF, 0xFF, 0xFF, 0x0F, 0xFF, 0xFF, 0xFF, 0xFF, 0x0F, 0, 0, 0, 0]

/-- It is read, and its journal is empty. -/
theorem removedNowhere_unreported :
    ∃ diff, deserializeDiff removedNowhere = .ok (diff, []) ∧
      (∃ nc ∈ diff.changes, nc.change = .removed ∧ nc.beforeId = kInvalidNode) ∧
      diffToJournal diff = .ok [0] ∧ ¬ Reported removedNowhere := by
  refine ⟨_, rfl, ⟨_, List.mem_singleton.mpr rfl, rfl, rfl⟩, rfl, fun h => ?_⟩
  obtain ⟨st, hst⟩ := h _ _ rfl ⟨_, List.mem_singleton.mpr rfl, .removed rfl rfl⟩
  cases hst

end Stratavm
