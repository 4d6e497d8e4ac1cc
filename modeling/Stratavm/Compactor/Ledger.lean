import Stratavm.Compactor.Redecode

/-!
# Every opcode removed is counted once

Each marking pass counts the records it marks, and marks none that is marked already: phase 4b marks
`SET_FIELD`s only, phase 4c looks at `dead`, and the frames of phase 4d hold different positions, none
marked (`pairGroups_bounds`). What is not marked is encoded.

* `deadCount_markRedundant`, `deadCount_markDeadNodes`, `deadCount_markGroups`: one pass.
* `length_eq_accounts`: all of them.
* **`DecodesTo.compacts`**, `compacts_of_ok`: what `compact` makes of a journal.
-/

namespace Stratavm

open Lib

namespace JournalCompactor

/-- The number of records marked. -/
def deadCount (records : List OpRecord) : Nat := records.countP OpRecord.dead

section Passes

variable {record : OpRecord} {records : List OpRecord}

theorem deadCount_cons : deadCount (record :: records) =
    deadCount records + if record.dead then 1 else 0 := List.countP_cons ..

theorem deadCount_kill : deadCount (kill record :: records) = deadCount records + 1 := deadCount_cons

/-- Phase 4a. -/
theorem deadCount_markNops (hfresh : ∀ record ∈ records, record.dead = false) :
    deadCount (markNops records) = records.countP fun record => record.op = .nop := by
  induction records with
  | nil => rfl
  | cons record records ih =>
    have ih := ih fun r hr => hfresh r (List.mem_cons_of_mem _ hr)
    have hcons : markNops (record :: records) =
        (if record.op = .nop then kill record else record) :: markNops records := rfl
    rw [hcons, List.countP_cons, ← ih]
    by_cases hop : record.op = .nop
    · rw [if_pos hop, deadCount_kill, if_pos (decide_eq_true hop)]
    · rw [if_neg hop, deadCount_cons, hfresh record List.mem_cons_self]
      simp [hop]

/-- Phase 4b, if what is marked so far is no `SET_FIELD`. -/
theorem deadCount_markRedundant
    (hdead : ∀ record ∈ records, record.op = .setField → record.dead = false) :
    deadCount (markRedundant records).1 = deadCount records + (markRedundant records).2.2 := by
  induction records with
  | nil => rfl
  | cons record records ih =>
    have ih := ih fun r hr => hdead r (List.mem_cons_of_mem _ hr)
    rw [markRedundant]
    by_cases hset : record.op = .setField
    · by_cases hseen : (record.nodeId, record.fieldIdx) ∈ (markRedundant records).2.1
      · simp only [hset, hseen, if_true]
        rw [deadCount_kill, ih, deadCount_cons, hdead record List.mem_cons_self hset]
        rfl
      · simp only [hset, hseen, if_true, if_false]
        rw [deadCount_cons, ih, deadCount_cons, Nat.add_right_comm]
    · simp only [hset, if_false]
      rw [deadCount_cons, ih, deadCount_cons, Nat.add_right_comm]

/-- Phase 4c. -/
theorem deadCount_markDeadNodes (live : Finset NodeId) (records : List OpRecord) :
    deadCount (markDeadNodes live records) =
      deadCount records + records.countP fun record => OnDeadNode live record := by
  induction records with
  | nil => rfl
  | cons record records ih =>
    have hcons : markDeadNodes live (record :: records) =
        (if OnDeadNode live record then kill record else record) :: markDeadNodes live records := rfl
    rw [hcons, List.countP_cons]
    by_cases hon : OnDeadNode live record
    · rw [if_pos hon, deadCount_kill, deadCount_cons, hon.1, ih, if_pos (decide_eq_true hon)]
      rfl
    · rw [if_neg hon, deadCount_cons, deadCount_cons, ih, decide_eq_false hon, Nat.add_right_comm]
      rfl

/-- The loop that encodes counts the others. -/
theorem length_eq_encoded (counts : UMap Nat UInt32) (records : List OpRecord) (i : Nat) :
    records.length = (encodeOps counts records i).2 + deadCount records := by
  induction records generalizing i with
  | nil => rfl
  | cons record records ih =>
    rw [List.length_cons, ih (i + 1), deadCount_cons, encodeOps]
    cases record.dead with
    | true => rfl
    | false => exact Nat.add_right_comm ..

end Passes

/-! ## Phase 4d -/

/-- The positions a completed frame marks. -/
def GroupPair.bounds (pair : GroupPair) : List Nat := [pair.beginIdx, pair.endIdx]

/-- The record at `i` is there, and not marked. -/
def Unmarked (records : List OpRecord) (i : Nat) : Prop :=
  records[i]?.map OpRecord.dead = some false

/-- These positions, before `i`, are different and hold unmarked records. -/
structure Held (all : List OpRecord) (i : Nat) (held : List Nat) : Prop where
  nodup : held.Nodup
  below : ∀ j ∈ held, j < i
  unmarked : ∀ j ∈ held, Unmarked all j

section Held

variable {all records : List OpRecord} {i : Nat} {held : List Nat}

theorem Held.succ (h : Held all i held) : Held all (i + 1) held :=
  ⟨h.nodup, fun j hj => Nat.lt_succ_of_lt (h.below j hj), h.unmarked⟩

theorem Held.cons (h : Held all i held) (hi : Unmarked all i) : Held all (i + 1) (i :: held) where
  nodup := List.nodup_cons.mpr ⟨fun hmem => Nat.lt_irrefl i (h.below i hmem), h.nodup⟩
  below := List.forall_mem_cons.mpr ⟨Nat.lt_succ_self i, h.succ.below⟩
  unmarked := List.forall_mem_cons.mpr ⟨hi, h.unmarked⟩

theorem Held.perm {held' : List Nat} (h : Held all i held) (hperm : held'.Perm held) :
    Held all i held' where
  nodup := hperm.nodup_iff.mpr h.nodup
  below := fun j hj => h.below j (hperm.mem_iff.mp hj)
  unmarked := fun j hj => h.unmarked j (hperm.mem_iff.mp hj)

/-- **The frames hold different positions**, none of them marked. -/
theorem pairGroups_bounds {stack completed : List GroupPair} (hdrop : all.drop i = records)
    (h : Held all i (stack.map GroupPair.beginIdx ++ completed.flatMap GroupPair.bounds)) :
    ∃ n, Held all n ((pairGroups records i stack completed).flatMap GroupPair.bounds) := by
  induction records generalizing i stack completed with
  | nil =>
    refine ⟨i, h.nodup.of_append_right, fun j hj => ?_, fun j hj => ?_⟩
    · exact h.below j (List.mem_append_right _ hj)
    · exact h.unmarked j (List.mem_append_right _ hj)
  | cons record records ih =>
    obtain ⟨hi, hdrop'⟩ := getElem?_of_drop hdrop
    unfold pairGroups
    by_cases hdead : record.dead = true
    · rw [if_pos hdead]
      exact ih hdrop' h.succ
    have hunmarked : Unmarked all i := by
      rw [Unmarked, hi, Option.map_some, Bool.eq_false_iff.mpr hdead]
    rw [if_neg hdead]
    split
    · exact ih hdrop' (h.cons hunmarked)
    · rename_i top stack _
      refine ih hdrop' ((h.cons hunmarked).perm ?_)
      rw [List.flatMap_append, ← List.append_assoc]
      exact List.perm_append_comm.trans (List.Perm.swap ..)
    · exact ih hdrop' h.succ
    · exact ih hdrop' h.succ

end Held

theorem deadCount_modify {records : List OpRecord} {i : Nat} (h : Unmarked records i) :
    deadCount (records.modify i kill) = deadCount records + 1 := by
  induction records generalizing i with
  | nil => cases h
  | cons record records ih =>
    cases i with
    | zero =>
      have hfresh : record.dead = false := Option.some.inj h
      rw [List.modify_zero_cons, deadCount_kill, deadCount_cons, hfresh]
      rfl
    | succ i =>
      rw [List.modify_succ_cons, deadCount_cons, deadCount_cons, ih h, Nat.add_right_comm]

theorem Unmarked.modify {records : List OpRecord} {i j : Nat} (h : Unmarked records j)
    (hij : i ≠ j) : Unmarked (records.modify i kill) j := by
  unfold Unmarked at h ⊢
  simpa [hij] using h

/-- The frames that lose their records lose two each. -/
theorem deadCount_foldl_markGroup {pairs : List GroupPair} {marked : List OpRecord × Nat}
    (h : ∀ pair ∈ pairs, Completed marked.1 pair) (hnodup : (pairs.flatMap GroupPair.bounds).Nodup)
    (hunmarked : ∀ j ∈ pairs.flatMap GroupPair.bounds, Unmarked marked.1 j) :
    deadCount (pairs.foldl markGroup marked).1 + marked.2 =
      deadCount marked.1 + (pairs.foldl markGroup marked).2 := by
  induction pairs generalizing marked with
  | nil => rfl
  | cons pair pairs ih =>
    have hpair := h pair List.mem_cons_self
    have hpairs := fun p hp => h p (List.mem_cons_of_mem _ hp)
    have hlist : (pair :: pairs).flatMap GroupPair.bounds =
        pair.beginIdx :: pair.endIdx :: pairs.flatMap GroupPair.bounds := rfl
    rw [hlist] at hnodup hunmarked
    obtain ⟨hbegin, hnodup⟩ := List.nodup_cons.mp hnodup
    obtain ⟨hend, hnodup⟩ := List.nodup_cons.mp hnodup
    have hrest : ∀ j ∈ pairs.flatMap GroupPair.bounds, Unmarked marked.1 j := fun j hj =>
      hunmarked j (List.mem_cons_of_mem _ (List.mem_cons_of_mem _ hj))
    rw [List.foldl_cons, markGroup_eq hpair]
    cases pair.hasChild with
    | true => exact ih hpairs hnodup hrest
    | false =>
      have hne : pair.beginIdx ≠ pair.endIdx := fun heq => hbegin (heq ▸ List.mem_cons_self)
      have hb : Unmarked marked.1 pair.beginIdx := hunmarked _ List.mem_cons_self
      have he : Unmarked marked.1 pair.endIdx :=
        hunmarked _ (List.mem_cons_of_mem _ List.mem_cons_self)
      have hgroup := @ih
        ((marked.1.modify pair.beginIdx kill).modify pair.endIdx kill, marked.2 + 2)
        (fun p hp => hpair.mark (hpairs p hp)) hnodup fun j hj => by
          have hjb : pair.beginIdx ≠ j := fun heq =>
            hbegin (List.mem_cons_of_mem _ (heq ▸ hj))
          have hje : pair.endIdx ≠ j := fun heq => hend (heq ▸ hj)
          exact ((hrest j hj).modify hjb).modify hje
      have hdead : deadCount ((marked.1.modify pair.beginIdx kill).modify pair.endIdx kill) =
          deadCount marked.1 + 2 := by
        rw [deadCount_modify (he.modify hne), deadCount_modify hb]
      rw [if_neg Bool.false_ne_true]
      rw [hdead] at hgroup
      simp only at hgroup ⊢
      omega

/-- Phase 4d. -/
theorem deadCount_markGroups (records : List OpRecord) :
    deadCount (markGroups records).1 = deadCount records + (markGroups records).2 := by
  have hcompleted : ∀ pair ∈ pairGroups records 0 [] [], Completed records pair :=
    pairGroups_completed rfl (fun _ h => absurd h List.not_mem_nil)
      (fun _ h => absurd h List.not_mem_nil)
  have hnone : Held records 0 (([] : List GroupPair).map GroupPair.beginIdx ++
      ([] : List GroupPair).flatMap GroupPair.bounds) :=
    ⟨List.nodup_nil, fun _ h => absurd h List.not_mem_nil, fun _ h => absurd h List.not_mem_nil⟩
  obtain ⟨_, hheld⟩ := pairGroups_bounds rfl hnone
  exact @deadCount_foldl_markGroup _ (records, 0) hcompleted hheld.nodup hheld.unmarked

/-! ## All passes -/

/-- Counters of a sum that is a 32-bit number lose nothing. -/
theorem toNat_ofNat_sum {n a b c d e : Nat} (hlt : n < 2 ^ 32) (h : n = a + b + c + d + e) :
    (UInt32.ofNat n).toNat = (UInt32.ofNat a).toNat + (UInt32.ofNat b).toNat +
      (UInt32.ofNat c).toNat + (UInt32.ofNat d).toNat + (UInt32.ofNat e).toNat := by
  rw [toNat_ofNat_of_lt hlt, toNat_ofNat_of_lt (by omega : a < _), toNat_ofNat_of_lt (by omega : b < _),
    toNat_ofNat_of_lt (by omega : c < _), toNat_ofNat_of_lt (by omega : d < _),
    toNat_ofNat_of_lt (by omega : e < _)]
  exact h

section Accounts

variable {records : List OpRecord} (hfresh : ∀ record ∈ records, record.dead = false)
  (hbalanced : Balanced 0 (records.map OpRecord.toOp))

include hfresh hbalanced

/-- **Every record is written or counted**, and once. -/
theorem length_eq_accounts :
    let live := liveNodes records
    let noNops := markNops records
    let lastSets := (markRedundant noNops).1
    let onLive := markDeadNodes live lastSets
    let marked := (markGroups onLive).1
    records.length = (encodeOps (survivingChildren marked 0 [] ∅) marked 0).2 +
      (records.countP fun record => record.op = .nop) + (markRedundant noNops).2.2 +
      (lastSets.countP fun record => OnDeadNode live record) + (markGroups onLive).2 := by
  intro live noNops lastSets onLive marked
  have hmarked : marked.length = records.length := by
    have hmarks := congrArg List.length (marked_eq hfresh hbalanced)
    simpa [length_groupMarks, length_fieldMarks] using hmarks
  have hsets : ∀ record ∈ noNops, record.op = .setField → record.dead = false := by
    intro record hmem hop
    obtain ⟨r, hr, rfl⟩ := List.mem_map.mp hmem
    split at hop
    · rename_i hnop
      exact nomatch hnop.symm.trans hop
    · rename_i hnop
      rw [if_neg hnop, hfresh r hr]
  have hencoded := length_eq_encoded (survivingChildren marked 0 [] ∅) marked 0
  have h4a : deadCount noNops = _ := deadCount_markNops hfresh
  have h4b : deadCount lastSets = deadCount noNops + _ := deadCount_markRedundant hsets
  have h4c : deadCount onLive = deadCount lastSets + _ := deadCount_markDeadNodes live lastSets
  have h4d : deadCount marked = deadCount onLive + _ := deadCount_markGroups onLive
  rw [← hmarked, hencoded, h4d, h4c, h4b, h4a]
  omega

/-- The counters of `CompactionStats` add up. -/
theorem compactOps_accounts (hlt : records.length < 2 ^ 32) :
    let stats := (compactOps records).stats
    stats.inputOpCount.toNat = records.length ∧
      stats.inputOpCount.toNat = stats.outputOpCount.toNat + stats.nopsRemoved.toNat +
        stats.redundantFieldSetsRemoved.toNat + stats.deadNodeOpsRemoved.toNat +
        stats.deadGroupOpsRemoved.toNat := by
  have haccounts := length_eq_accounts hfresh hbalanced
  exact ⟨toNat_ofNat_of_lt hlt, toNat_ofNat_sum hlt haccounts⟩

end Accounts

/-! ## From the bytes -/

/-- What `compact` makes of a journal of `ops`. -/
structure Compacts (schema : Schema) (journal : Bytes) (ops : List Op) (res : CompactionResult) :
    Prop where
  decodes : DecodesTo schema journal ops
  balanced : Balanced 0 ops
  bytes : res.journalBytes = journalOf (compacted ops)
  outputs : res.stats.outputOpCount = UInt32.ofNat (compacted ops).length
  inputs : res.stats.inputOpCount.toNat = ops.length
  accounts : res.stats.inputOpCount.toNat = res.stats.outputOpCount.toNat +
    res.stats.nopsRemoved.toNat + res.stats.redundantFieldSetsRemoved.toNat +
    res.stats.deadNodeOpsRemoved.toNat + res.stats.deadGroupOpsRemoved.toNat

/-- **A journal that decodes is compacted.** -/
theorem DecodesTo.compacts {schema : Schema} {journal : Bytes} {ops : List Op}
    (h : DecodesTo schema journal ops) :
    ∃ res, compact schema journal = .ok res ∧ Compacts schema journal ops res := by
  have hlt := h.length_lt
  obtain ⟨count, body, records, st', r', hcount, hlen, hdec, hclosed⟩ := id h
  have hops := hdec.map_toOp
  have hrecords := hdec.encodable
  have hbalanced : Balanced 0 ops := hdec.balanced hclosed
  have hlength : records.length = ops.length := by rw [← hops, List.length_map]
  rw [← hops] at hbalanced
  obtain ⟨hinputs, haccounts⟩ :=
    compactOps_accounts (fun r hr => (hrecords r hr).fresh) hbalanced (hlength ▸ hlt)
  have hcompact : compact schema journal = .ok (compactOps records) :=
    compact_eq_ok.mpr ⟨count, body, ops, records, st', r', hcount, hlen, hdec, hclosed, rfl⟩
  exact ⟨_, hcompact, h, hops ▸ hbalanced, hops ▸ compactOps_journalBytes hrecords hbalanced,
    hops ▸ compactOps_outputOpCount hrecords hbalanced, hinputs.trans hlength, haccounts⟩

theorem compacts_of_ok {schema : Schema} {journal : Bytes} {res : CompactionResult}
    (h : compact schema journal = .ok res) : ∃ ops, Compacts schema journal ops res := by
  obtain ⟨count, body, ops, records, st', r', hcount, hlen, hdec, hclosed, -⟩ := compact_eq_ok.mp h
  have hdecodes : DecodesTo schema journal ops :=
    ⟨count, body, records, st', r', hcount, hlen, hdec, hclosed⟩
  obtain ⟨res', hres, hcompacts⟩ := hdecodes.compacts
  obtain rfl := Except.ok.inj (h.symm.trans hres)
  exact ⟨ops, hcompacts⟩

theorem Compacts.length_lt {schema : Schema} {journal : Bytes} {ops : List Op}
    {res : CompactionResult} (h : Compacts schema journal ops res) :
    (compacted ops).length < 2 ^ 32 :=
  Nat.lt_of_le_of_lt (length_compacted_le ops) h.decodes.length_lt

end JournalCompactor

end Stratavm
