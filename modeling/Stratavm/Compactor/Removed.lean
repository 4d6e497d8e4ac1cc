import Stratavm.Compactor.Ledger

/-!
# What is removed

`Removed` says which opcodes of a journal are to go: the reasons the compactor has, in terms of the
opcodes before and after it. A `NOP`, a `SET_FIELD` with another one of its field after it, a `SET_FIELD`
or a `LINK_REF` of a node that is not live, and both ends of a group without a direct child. `Keeps` is a
list that has all the others, in order and up to the hints of groups.

The passes mark positions; `Removed` names none. `removed_iff` connects the two: the marking passes remove
for these reasons. For an `END_GROUP` this needs the group it closes, which `OpenAt` finds among the
opcodes before it; for a `BEGIN_GROUP` the one `END_GROUP` after it that closes it (`exists_group`).

* `keeps_survivors`: what survives the passes is what is not removed.
* **`compact_removesExactly`**: the output keeps what is not removed, and the counters add up.
-/

namespace Stratavm

open Lib

namespace JournalCompactor

/-- `op` is to be removed, with `pre` before it and `rest` after it. -/
inductive Removed (live : Finset NodeId) (pre rest : List Op) : Op → Prop
  | nop : Removed live pre rest .nop
  | overwritten {node field value} (later : Value) (h : .setField node field later ∈ rest) :
      Removed live pre rest (.setField node field value)
  | deadSet {node field value} (h : node ∉ live) :
      Removed live pre rest (.setField node field value)
  | deadLink {src field target} (h : src ∉ live) :
      Removed live pre rest (.linkRef src field target)
  | begins {owner hint} (body post : List Op) (hrest : rest = body ++ .endGroup :: post)
      (hbody : Balanced 0 body) (hchildless : childCount 0 body = 0) :
      Removed live pre rest (.beginGroup owner hint)
  | ends (before : List Op) (owner : AtomId) (hint : UInt32) (body : List Op)
      (hpre : pre = before ++ .beginGroup owner hint :: body) (hbody : Balanced 0 body)
      (hchildless : childCount 0 body = 0) : Removed live pre rest .endGroup

/-- `out` has the opcodes of `ops` that are not to be removed, in their order and up to hints; `pre` is
before them. -/
inductive Keeps (live : Finset NodeId) : List Op → List Op → List Op → Prop
  | nil {pre} : Keeps live pre [] []
  | removed {pre op rest out} (h : Removed live pre rest op)
      (hrest : Keeps live (pre ++ [op]) rest out) : Keeps live pre (op :: rest) out
  | kept {pre op op' rest out} (h : ¬ Removed live pre rest op)
      (hsame : op'.withoutHint = op.withoutHint) (hrest : Keeps live (pre ++ [op]) rest out) :
      Keeps live pre (op :: rest) (op' :: out)

section Removed

variable {live : Finset NodeId} {pre rest ops : List Op} {op : Op} {groups : List Bool}

theorem overwritten_iff {node : NodeId} {field : FieldId} :
    overwritten node field ops = true ↔ ∃ value, .setField node field value ∈ ops := by
  unfold overwritten
  rw [List.any_eq_true]
  constructor
  · rintro ⟨op, hmem, hop⟩
    cases op with
    | setField n f value =>
      obtain ⟨hn, hf⟩ := Bool.and_eq_true_iff.mp hop
      obtain rfl := eq_of_beq hn
      obtain rfl := eq_of_beq hf
      exact ⟨value, hmem⟩
    | _ => cases hop
  · rintro ⟨value, hmem⟩
    exact ⟨_, hmem, by simp⟩

/-- A `BEGIN_GROUP` goes if no child is ahead. -/
theorem removed_beginGroup {d : Nat} {owner : AtomId} {hint : UInt32} (h : Balanced (d + 1) rest) :
    Removed live pre rest (.beginGroup owner hint) ↔ childAhead 0 rest = false := by
  rw [childAhead_eq, decide_eq_false_iff_not, Nat.pos_iff_ne_zero, not_not]
  constructor
  · rintro (_ | _ | _ | _ | ⟨body, post, rfl, hbody, hchildless⟩)
    rw [childCount_group hbody, hchildless]
  · intro hchildless
    obtain ⟨body, post, rfl, hbody, -⟩ := exists_group h
    rw [childCount_group hbody] at hchildless
    exact .begins body post rfl hbody hchildless

/-- An `END_GROUP` goes if its group, the innermost one, had no child. -/
theorem removed_endGroup {group : Bool} (h : OpenAt pre (group :: groups)) :
    Removed live pre rest .endGroup ↔ group = false := by
  cases h with
  | @group before _ _ owner hint body hbody =>
    rw [decide_eq_false_iff_not, Nat.pos_iff_ne_zero, not_not]
    constructor
    · rintro (_ | _ | _ | _ | _ | ⟨before', owner', hint', body', hpre, hbody', hchildless⟩)
      rw [body_unique hbody hbody' hpre, hchildless]
    · intro hchildless
      exact .ends before owner hint body rfl hbody hchildless

/-- **The passes remove what is to be removed**. -/
theorem removed_iff (h : OpenAt pre groups) (hbalanced : Balanced groups.length (op :: rest)) :
    Removed live pre rest op ↔
      (keepsField live op rest && keepsGroup (groupFlags groups 0 (op :: rest)) op rest) = false := by
  cases op with
  | nop => exact iff_of_true .nop rfl
  | setField node field value =>
    rw [keepsField, keepsGroup, Bool.and_true, Bool.and_eq_false_iff, decide_eq_false_iff_not,
      Bool.not_eq_false', overwritten_iff]
    constructor
    · rintro (_ | ⟨later, hlater⟩ | hdead)
      · exact .inr ⟨later, hlater⟩
      · exact .inl hdead
    · rintro (hdead | ⟨later, hlater⟩)
      · exact .deadSet hdead
      · exact .overwritten later hlater
  | linkRef src field target =>
    rw [keepsField, keepsGroup, Bool.and_true, decide_eq_false_iff_not]
    constructor
    · rintro (_ | _ | _ | hdead)
      exact hdead
    · exact .deadLink
  | beginGroup owner hint => exact removed_beginGroup hbalanced
  | endGroup =>
    cases groups with
    | nil => exact absurd hbalanced.1 (Nat.lt_irrefl 0)
    | cons group groups =>
      rw [removed_endGroup h, keepsField, keepsGroup, Bool.true_and, groupFlags, List.headD_cons,
        childAhead, Bool.or_false]
  | _ =>
    refine iff_of_false ?_ (by simp [keepsField, keepsGroup])
    rintro ⟨⟩

/-- **The survivors are what is not removed**. -/
theorem keeps_survivors (h : OpenAt pre groups) (hbalanced : Balanced groups.length ops) :
    Keeps live pre ops ((survivors live (groupFlags groups 0 ops) ops).map Op.withoutHint) := by
  induction ops generalizing pre groups with
  | nil => exact .nil
  | cons op ops ih =>
    obtain ⟨hend, htail⟩ := balanced_cons.mp hbalanced
    rw [← length_nextGroups] at htail
    have ih := ih (h.step fun hop => List.length_pos_iff.mp (hend hop)) htail
    have hremoved : Removed live pre ops op ↔ _ := removed_iff h hbalanced
    rw [survivors, nextFlags_groupFlags]
    split
    · rename_i hkeep
      have hkept : ¬ Removed live pre ops op := by
        rw [hremoved, hkeep]
        exact Bool.true_eq_false_eq_False
      exact .kept hkept (withoutHint_withoutHint op) ih
    · rename_i hgone
      exact .removed (hremoved.mpr (by simpa using hgone)) ih

end Removed

/-! ## From the bytes -/

/-- The output decodes to `output_op_count` opcodes, the number in its header: those of the journal that
are not to be removed. The counters add up to the others. -/
def RemovesExactly (schema : Schema) (journal : Bytes) (res : CompactionResult) : Prop :=
  ∃ ops out, DecodesTo schema journal ops ∧ DecodesTo schema res.journalBytes out ∧
    (∃ body, readVarintU32 res.journalBytes = .ok (res.stats.outputOpCount, body)) ∧
    out.length = res.stats.outputOpCount.toNat ∧ Keeps (liveOf ops) [] ops out ∧
    res.stats.inputOpCount.toNat = ops.length ∧
    res.stats.inputOpCount.toNat = res.stats.outputOpCount.toNat + res.stats.nopsRemoved.toNat +
      res.stats.redundantFieldSetsRemoved.toNat + res.stats.deadNodeOpsRemoved.toNat +
      res.stats.deadGroupOpsRemoved.toNat

/-- **Compaction removes what is to be removed, and counts it once**. -/
theorem compact_removesExactly {schema : Schema} {journal : Bytes} {res : CompactionResult}
    (h : compact schema journal = .ok res) : RemovesExactly schema journal res := by
  obtain ⟨ops, hops⟩ := compacts_of_ok h
  obtain ⟨hread, hcount⟩ := reads_count32 hops.length_lt
  have houter : OpenAt [] [] := .outer rfl
  refine ⟨ops, compacted ops, hops.decodes, ?_, ⟨(compacted ops).flatMap Op.encode, ?_⟩, ?_,
    keeps_survivors houter hops.balanced, hops.inputs, hops.accounts⟩
  · rw [hops.bytes]
    exact hops.decodes.compacted
  · rw [hops.bytes, hops.outputs]
    exact hread _
  · rw [hops.outputs, hcount]

/-- A value set twice, a group without a child inside one that has one, and a node dropped. -/
def redundantOps : List Op :=
  [.newNode 0 0, .newNode 0 0, .setField 0 0 (.int 1), .nop, .beginGroup 0 2, .beginGroup 0 0,
    .endGroup, .addChild 0, .endGroup, .setField 0 0 (.int 2), .dropNode 1, .linkRef 1 0 0]

theorem compact_removesExactly_redundantOps :
    ∃ res, compact oneOwner.schema (journalOf redundantOps) = .ok res ∧
      RemovesExactly oneOwner.schema (journalOf redundantOps) res :=
  ⟨_, rfl, compact_removesExactly rfl⟩

/-- One opcode goes for each reason, and the two of a group. -/
example : (compact oneOwner.schema (journalOf redundantOps)).toOption.map (·.stats) =
    some ⟨12, 7, 1, 1, 1, 2⟩ := by decide

end JournalCompactor

end Stratavm
