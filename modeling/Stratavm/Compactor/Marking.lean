import Stratavm.Compactor.Decode
import Stratavm.ReplayVm.Perform

/-!
# What the compactor keeps

Each opcode is kept or not for a reason that can be read off the opcodes after it, the set of live
nodes, and, for an `END_GROUP`, its `BEGIN_GROUP`: `keepsField` is phases 4a to 4c, `keepsGroup` phase
4d, and `survivors` the opcodes both keep. An open group is one flag, whether a child is added
directly to it (`groupFlags`).

* `markDeadNodes_eq`: phases 4a to 4c mark the records `keepsField` does not keep.
* `markGroups_eq`: phase 4d marks those `keepsGroup` does not keep. The phase works on positions, so
  `killed_pairGroups_iff` says which positions its completed frames lose.
* `compactOps_journalBytes`: the output is the survivors, in order, without their hints.
-/

namespace Stratavm

open Lib

namespace JournalCompactor

/-! ## The opcodes kept -/

/-- A later `SET_FIELD` of the same field. -/
def overwritten (node : NodeId) (field : FieldId) (ops : List Op) : Bool :=
  ops.any fun
    | .setField n f _ => n == node && f == field
    | _ => false

/-- The opcodes ahead add a child directly to a group that is open, with `depth` groups open inside
it. -/
def childAhead : Nat → List Op → Bool
  | _, [] => false
  | depth, op :: ops =>
    match op with
    | .beginGroup _ _ => childAhead (depth + 1) ops
    | .endGroup =>
      match depth with
      | 0 => false
      | depth + 1 => childAhead depth ops
    | .addChild _ => depth == 0 || childAhead depth ops
    | .newNode _ _ | .setField _ _ _ | .linkRef _ _ _ | .dropNode _ | .snapshot _ | .setMeta _ _
    | .nop => childAhead depth ops

/-- Phases 4a to 4c keep `op`, with `rest` after it. -/
def keepsField (live : Finset NodeId) (op : Op) (rest : List Op) : Bool :=
  match op with
  | .nop => false
  | .setField node field _ => decide (node ∈ live) && !overwritten node field rest
  | .linkRef src _ _ => decide (src ∈ live)
  | .newNode _ _ | .beginGroup _ _ | .endGroup | .addChild _ | .dropNode _ | .snapshot _
  | .setMeta _ _ => true

/-- Phase 4d keeps `op`; `flags` says of each open group, innermost first, whether a child is added
directly to it. -/
def keepsGroup (flags : List Bool) (op : Op) (rest : List Op) : Bool :=
  match op with
  | .beginGroup _ _ => childAhead 0 rest
  | .endGroup => flags.headD true
  | .newNode _ _ | .setField _ _ _ | .addChild _ | .linkRef _ _ _ | .dropNode _ | .snapshot _
  | .setMeta _ _ | .nop => true

/-- The flags after `op`. -/
def nextFlags (flags : List Bool) (op : Op) (rest : List Op) : List Bool :=
  match op with
  | .beginGroup _ _ => childAhead 0 rest :: flags
  | .endGroup => flags.tail
  | .newNode _ _ | .setField _ _ _ | .addChild _ | .linkRef _ _ _ | .dropNode _ | .snapshot _
  | .setMeta _ _ | .nop => flags

/-- The opcodes kept. -/
def survivors (live : Finset NodeId) : List Bool → List Op → List Op
  | _, [] => []
  | flags, op :: ops =>
    if keepsField live op ops && keepsGroup flags op ops then
      op :: survivors live (nextFlags flags op ops) ops
    else survivors live (nextFlags flags op ops) ops

/-- The id of the next `NEW_NODE` and the live nodes, after one more opcode. -/
def liveStep (acc : UInt32 × Finset UInt32) (op : Op) : UInt32 × Finset UInt32 :=
  match op with
  | .newNode _ _ => (acc.1 + 1, insert acc.1 acc.2)
  | .dropNode node => (acc.1, acc.2.erase node)
  | _ => acc

/-- The nodes `ops` make and do not drop. -/
def liveOf (ops : List Op) : Finset UInt32 := (ops.foldl liveStep (0, ∅)).2

/-- Every `END_GROUP` closes one of the groups opened before it or of the `depth` open at the start,
and no group is left open. -/
def Balanced : Nat → List Op → Prop
  | depth, [] => depth = 0
  | depth, op :: ops =>
    match op with
    | .beginGroup _ _ => Balanced (depth + 1) ops
    | .endGroup => 0 < depth ∧ Balanced (depth - 1) ops
    | .newNode _ _ | .setField _ _ _ | .addChild _ | .linkRef _ _ _ | .dropNode _ | .snapshot _
    | .setMeta _ _ | .nop => Balanced depth ops

/-- The number of open groups after `op`. -/
def nextDepth (depth : Nat) : Op → Nat
  | .beginGroup _ _ => depth + 1
  | .endGroup => depth - 1
  | .newNode _ _ | .setField _ _ _ | .addChild _ | .linkRef _ _ _ | .dropNode _ | .snapshot _
  | .setMeta _ _ | .nop => depth

/-- An `END_GROUP` needs an open group. -/
theorem balanced_cons {depth : Nat} {op : Op} {ops : List Op} : Balanced depth (op :: ops) ↔
    (op = .endGroup → 0 < depth) ∧ Balanced (nextDepth depth op) ops := by
  cases op with
  | endGroup => exact and_congr_left fun _ => ⟨fun h _ => h, fun h => h rfl⟩
  | _ => exact (and_iff_right nofun).symm

theorem length_groupStack_next (st : DecodeState) (op : Op) :
    (st.next op).groupStack.length = nextDepth st.groupStack.length op := by
  cases op with
  | endGroup => exact List.length_tail
  | addChild => exact List.length_modifyHead
  | _ => rfl

theorem liveNodes_eq (records : List OpRecord) :
    liveNodes records = liveOf (records.map OpRecord.toOp) := by
  unfold liveNodes liveOf
  rw [List.foldl_map]
  congr 2
  funext acc record
  unfold liveStep OpRecord.toOp
  cases record.op <;> rfl

/-! ## Phases 4a to 4c -/

/-- A record kept, or marked. -/
def mark (keep : Bool) (record : OpRecord) : OpRecord := if keep then record else kill record

@[simp] theorem mark_true (record : OpRecord) : mark true record = record := rfl

@[simp] theorem mark_false (record : OpRecord) : mark false record = kill record := rfl

/-- What phases 4a to 4c keep of each opcode. -/
def fieldMarks (live : Finset NodeId) : List Op → List Bool
  | [] => []
  | op :: ops => keepsField live op ops :: fieldMarks live ops

theorem overwritten_cons {node : NodeId} {field : FieldId} {record : OpRecord} {ops : List Op} :
    overwritten node field (record.toOp :: ops) =
      (decide (record.op = .setField ∧ record.nodeId = node ∧ record.fieldIdx = field) ||
        overwritten node field ops) := by
  unfold overwritten OpRecord.toOp
  rw [List.any_cons]
  cases h : record.op with
  | setField => simp [Bool.decide_and, beq_eq_decide]
  | _ => simp

/-- Phase 4b on one record. -/
theorem markRedundant_cons (record : OpRecord) (records : List OpRecord) :
    (markRedundant (record :: records)).1 =
      (if record.op = .setField ∧
          (record.nodeId, record.fieldIdx) ∈ (markRedundant records).2.1 then kill record
        else record) :: (markRedundant records).1 := by
  rw [markRedundant]
  by_cases hset : record.op = .setField
  · by_cases hseen : (record.nodeId, record.fieldIdx) ∈ (markRedundant records).2.1
    · simp [hset, hseen]
    · simp [hset, hseen]
  · simp [hset]

/-- `seen_last` gains the field of a `SET_FIELD`. -/
theorem mem_seen_cons {record : OpRecord} {records : List OpRecord} {key : UInt32 × UInt32} :
    key ∈ (markRedundant (record :: records)).2.1 ↔
      (record.op = .setField ∧ key = (record.nodeId, record.fieldIdx)) ∨
        key ∈ (markRedundant records).2.1 := by
  rw [markRedundant]
  by_cases hset : record.op = .setField
  · by_cases hseen : (record.nodeId, record.fieldIdx) ∈ (markRedundant records).2.1
    · simp only [hset, hseen, if_true, true_and]
      exact ⟨.inr, fun h => h.elim (fun heq => heq ▸ hseen) id⟩
    · simp [hset, hseen]
  · simp [hset]

/-- `seen_last` has the fields that are set further on. -/
theorem mem_seen_iff (node : NodeId) (field : FieldId) (records : List OpRecord) :
    (node, field) ∈ (markRedundant (markNops records)).2.1 ↔
      overwritten node field (records.map OpRecord.toOp) = true := by
  induction records with
  | nil => exact ⟨fun h => absurd h List.not_mem_nil, fun h => nomatch h⟩
  | cons record records ih =>
    have hcons : markNops (record :: records) =
        (if record.op = .nop then kill record else record) :: markNops records := rfl
    rw [hcons, mem_seen_cons, ih, List.map_cons, overwritten_cons, Bool.or_eq_true,
      decide_eq_true_iff]
    refine or_congr_left ?_
    by_cases hnop : record.op = .nop
    · simp [hnop, kill]
    · rw [if_neg hnop, Prod.mk.injEq]
      exact and_congr_right fun _ => and_congr eq_comm eq_comm

/-- Phases 4a to 4c on one record, with `ops` after it. -/
theorem markField_eq (live : Finset NodeId) {record : OpRecord} (hdead : record.dead = false)
    (ops : List Op) {seen : List (UInt32 × UInt32)}
    (hseen : (record.nodeId, record.fieldIdx) ∈ seen ↔
      overwritten record.nodeId record.fieldIdx ops = true) :
    let noNop := if record.op = .nop then kill record else record
    let lastSet :=
      if noNop.op = .setField ∧ (noNop.nodeId, noNop.fieldIdx) ∈ seen then kill noNop else noNop
    (if OnDeadNode live lastSet then kill lastSet else lastSet) =
      mark (keepsField live record.toOp ops) record := by
  have hkill : ∀ r : OpRecord, ¬ OnDeadNode live (kill r) := fun r h => nomatch h.1
  cases hop : record.op with
  | nop =>
    have hmark : keepsField live record.toOp ops = false := by rw [OpRecord.toOp, hop]; rfl
    simp [hmark, hkill, show (kill record).op = .nop from hop]
  | setField =>
    have hmark : keepsField live record.toOp ops = (decide (record.nodeId ∈ live) &&
        !overwritten record.nodeId record.fieldIdx ops) := by rw [OpRecord.toOp, hop]; rfl
    by_cases hlast : overwritten record.nodeId record.fieldIdx ops = true
    · simp [hop, hmark, hkill, hseen, hlast]
    · by_cases hlive : record.nodeId ∈ live <;>
        simp [hop, hmark, hseen, hlast, OnDeadNode, hdead, hlive]
  | linkRef =>
    have hmark : keepsField live record.toOp ops = decide (record.nodeId ∈ live) := by
      rw [OpRecord.toOp, hop]; rfl
    by_cases hlive : record.nodeId ∈ live <;> simp [hop, hmark, OnDeadNode, hdead, hlive]
  | _ =>
    have hmark : keepsField live record.toOp ops = true := by rw [OpRecord.toOp, hop]; rfl
    simp [hop, hmark, OnDeadNode]

/-- **Phases 4a to 4c** mark the records that `keepsField` does not keep. -/
theorem markDeadNodes_eq (live : Finset NodeId) {records : List OpRecord}
    (hfresh : ∀ record ∈ records, record.dead = false) :
    markDeadNodes live (markRedundant (markNops records)).1 =
      List.zipWith mark (fieldMarks live (records.map OpRecord.toOp)) records := by
  induction records with
  | nil => rfl
  | cons record records ih =>
    have hcons : markNops (record :: records) =
        (if record.op = .nop then kill record else record) :: markNops records := rfl
    have hseen := mem_seen_iff record.nodeId record.fieldIdx records
    rw [List.map_cons, fieldMarks, List.zipWith_cons_cons,
      ← ih fun r hr => hfresh r (List.mem_cons_of_mem _ hr),
      ← markField_eq live (hfresh record List.mem_cons_self) _ hseen, hcons, markRedundant_cons]
    rfl

/-! ## Phase 4d -/

/-- What phase 4d keeps of each opcode. -/
def groupMarks : List Bool → List Op → List Bool
  | _, [] => []
  | flags, op :: ops => keepsGroup flags op ops :: groupMarks (nextFlags flags op ops) ops

/-- The flags of open groups, innermost first and the first one with `depth` groups open inside it,
from whether each has a child so far. -/
def groupFlags : List Bool → Nat → List Op → List Bool
  | [], _, _ => []
  | hasChild :: groups, depth, ops =>
    (hasChild || childAhead depth ops) :: groupFlags groups (depth + 1) ops

/-- The opcodes that open, close or fill a group, and the others. -/
@[elab_as_elim]
theorem Op.groupCases {motive : Op → Prop} (op : Op)
    (beginGroup : ∀ owner hint, motive (.beginGroup owner hint)) (endGroup : motive .endGroup)
    (addChild : ∀ child, motive (.addChild child))
    (other : ∀ op : Op, op.code ≠ .beginGroup → op.code ≠ .endGroup → op.code ≠ .addChild →
      motive op) : motive op := by
  cases op with
  | beginGroup owner hint => exact beginGroup owner hint
  | endGroup => exact endGroup
  | addChild child => exact addChild child
  | _ => exact other _ nofun nofun nofun

section Flags

variable {groups : List Bool} {depth : Nat} {ops : List Op}

theorem groupFlags_beginGroup {owner : AtomId} {hint : UInt32} :
    groupFlags groups depth (.beginGroup owner hint :: ops) = groupFlags groups (depth + 1) ops := by
  induction groups generalizing depth with
  | nil => rfl
  | cons group groups ih => rw [groupFlags, groupFlags, ih, childAhead]

theorem groupFlags_endGroup :
    groupFlags groups (depth + 1) (.endGroup :: ops) = groupFlags groups depth ops := by
  induction groups generalizing depth with
  | nil => rfl
  | cons group groups ih => rw [groupFlags, groupFlags, ih, childAhead]

theorem groupFlags_addChild {child : AtomId} :
    groupFlags groups (depth + 1) (.addChild child :: ops) = groupFlags groups (depth + 1) ops := by
  induction groups generalizing depth with
  | nil => rfl
  | cons group groups ih =>
    rw [groupFlags, groupFlags, ih, childAhead]
    simp

/-- An opcode of no group changes no flag. -/
theorem groupFlags_other {op : Op} (hbegin : op.code ≠ .beginGroup) (hend : op.code ≠ .endGroup)
    (hadd : op.code ≠ .addChild) : groupFlags groups depth (op :: ops) = groupFlags groups depth ops := by
  induction groups generalizing depth with
  | nil => rfl
  | cons group groups ih =>
    rw [groupFlags, groupFlags, ih]
    cases op with
    | beginGroup => exact absurd rfl hbegin
    | endGroup => exact absurd rfl hend
    | addChild => exact absurd rfl hadd
    | _ => rfl

/-- Which open groups have a child after `op`. -/
def nextGroups (groups : List Bool) : Op → List Bool
  | .beginGroup _ _ => false :: groups
  | .endGroup => groups.tail
  | .addChild _ => groups.modifyHead fun _ => true
  | .newNode _ _ | .setField _ _ _ | .linkRef _ _ _ | .dropNode _ | .snapshot _ | .setMeta _ _
  | .nop => groups

theorem nextFlags_other {flags : List Bool} {op : Op} (hbegin : op.code ≠ .beginGroup)
    (hend : op.code ≠ .endGroup) : nextFlags flags op ops = flags := by
  cases op with
  | beginGroup => exact absurd rfl hbegin
  | endGroup => exact absurd rfl hend
  | _ => rfl

theorem nextGroups_other {op : Op} (hbegin : op.code ≠ .beginGroup) (hend : op.code ≠ .endGroup)
    (hadd : op.code ≠ .addChild) : nextGroups groups op = groups := by
  cases op with
  | beginGroup => exact absurd rfl hbegin
  | endGroup => exact absurd rfl hend
  | addChild => exact absurd rfl hadd
  | _ => rfl

theorem length_nextGroups (groups : List Bool) (op : Op) :
    (nextGroups groups op).length = nextDepth groups.length op := by
  cases op with
  | endGroup => exact List.length_tail
  | addChild => exact List.length_modifyHead
  | _ => rfl

/-- The flags of the open groups are kept up by `nextFlags`. -/
theorem nextFlags_groupFlags (groups : List Bool) (op : Op) (ops : List Op) :
    nextFlags (groupFlags groups 0 (op :: ops)) op ops = groupFlags (nextGroups groups op) 0 ops := by
  cases op using Op.groupCases with
  | beginGroup owner hint =>
    rw [groupFlags_beginGroup]
    exact congrArg (· :: _) (Bool.false_or _).symm
  | endGroup =>
    cases groups with
    | nil => rfl
    | cons group groups => exact groupFlags_endGroup
  | addChild child =>
    cases groups with
    | nil => rfl
    | cons group groups =>
      show groupFlags (group :: groups) 0 (.addChild child :: ops) = groupFlags (true :: groups) 0 ops
      rw [groupFlags, groupFlags_addChild, groupFlags, childAhead]
      simp
  | other op hbegin hend hadd =>
    rw [nextGroups_other hbegin hend hadd, nextFlags_other hbegin hend]
    exact groupFlags_other hbegin hend hadd

end Flags

/-- A frame is open with a child, or was. -/
def GroupPair.hasChild (pair : GroupPair) : Bool := !pair.childIndices.isEmpty

/-- Phase 4d marks position `j` for one of the completed frames. -/
def Killed (pairs : List GroupPair) (j : Nat) : Prop :=
  ∃ pair ∈ pairs, pair.hasChild = false ∧ (j = pair.beginIdx ∨ j = pair.endIdx)

/-- The completed frames so far are kept. -/
theorem pairGroups_append (records : List OpRecord) (i : Nat) (stack completed : List GroupPair) :
    pairGroups records i stack completed = completed ++ pairGroups records i stack [] := by
  induction records generalizing i stack completed with
  | nil => simp [pairGroups]
  | cons record records ih =>
    unfold pairGroups
    by_cases hdead : record.dead = true
    · rw [if_pos hdead, if_pos hdead]
      exact ih ..
    · rw [if_neg hdead, if_neg hdead]
      split
      · exact ih ..
      · rw [ih, ih _ _ ([] ++ _), List.nil_append, List.append_assoc]
      · exact ih ..
      · exact ih ..

section Pairing

variable {record : OpRecord} {records : List OpRecord} {i : Nat} {stack : List GroupPair}

theorem pairGroups_beginGroup (hdead : record.dead = false) (hop : record.op = .beginGroup) :
    pairGroups (record :: records) i stack [] =
      pairGroups records (i + 1) ({ beginIdx := i } :: stack) [] := by
  conv_lhs => unfold pairGroups
  rw [hdead, hop]
  rfl

theorem pairGroups_endGroup (hdead : record.dead = false) (hop : record.op = .endGroup)
    (top : GroupPair) : pairGroups (record :: records) i (top :: stack) [] =
      { top with endIdx := i } :: pairGroups records (i + 1) stack [] := by
  have h : pairGroups (record :: records) i (top :: stack) [] =
      pairGroups records (i + 1) stack [{ top with endIdx := i }] := by
    conv_lhs => unfold pairGroups
    rw [hdead, hop]
    rfl
  rw [h, pairGroups_append, List.singleton_append]

theorem pairGroups_addChild (hdead : record.dead = false) (hop : record.op = .addChild)
    (top : GroupPair) : pairGroups (record :: records) i (top :: stack) [] =
      pairGroups records (i + 1) ({ top with childIndices := top.childIndices ++ [i] } :: stack)
        [] := by
  conv_lhs => unfold pairGroups
  rw [hdead, hop]
  rfl

/-- A record that is marked, of no group, or a child outside every group. -/
theorem pairGroups_other (h : record.dead = true ∨
    record.op ≠ .beginGroup ∧ (stack ≠ [] → record.op ≠ .endGroup ∧ record.op ≠ .addChild)) :
    pairGroups (record :: records) i stack [] = pairGroups records (i + 1) stack [] := by
  by_cases hdead : record.dead = true
  · conv_lhs => unfold pairGroups
    rw [if_pos hdead]
  · obtain ⟨hbegin, hrest⟩ := h.resolve_left hdead
    conv_lhs => unfold pairGroups
    rw [if_neg hdead]
    split
    · exact absurd ‹_› hbegin
    · exact absurd ‹_› (hrest (List.cons_ne_nil _ _)).1
    · exact absurd ‹_› (hrest (List.cons_ne_nil _ _)).2
    · rfl

/-- A position marked from `i` on, in a list of marks. -/
theorem exists_mark_cons {i j : Nat} {keep : Bool} {marks : List Bool} :
    (∃ k, j = i + k ∧ (keep :: marks)[k]? = some false) ↔
      (keep = false ∧ j = i) ∨ ∃ k, j = i + 1 + k ∧ marks[k]? = some false := by
  constructor
  · rintro ⟨k, rfl, hk⟩
    cases k with
    | zero => exact .inl ⟨Option.some.inj hk, rfl⟩
    | succ k => exact .inr ⟨k, by omega, hk⟩
  · rintro (⟨rfl, rfl⟩ | ⟨k, rfl, hk⟩)
    · exact ⟨0, rfl, rfl⟩
    · exact ⟨k + 1, by omega, hk⟩

theorem killed_cons {pair : GroupPair} {pairs : List GroupPair} {j : Nat} :
    Killed (pair :: pairs) j ↔
      (pair.hasChild = false ∧ (j = pair.beginIdx ∨ j = pair.endIdx)) ∨ Killed pairs j := by
  simp only [Killed, List.mem_cons, exists_eq_or_imp]

/-- Position `j` is marked when `ops`, from position `i` on, close the frames `stack`: it opened one
that gets no child, or it is one of these that `keepsGroup` does not keep. -/
def Lost (stack : List GroupPair) (ops : List Op) (i j : Nat) : Prop :=
  (∃ q ∈ stack.zip (groupFlags (stack.map GroupPair.hasChild) 0 ops),
    q.2 = false ∧ j = q.1.beginIdx) ∨
  ∃ k, j = i + k ∧ (groupMarks (groupFlags (stack.map GroupPair.hasChild) 0 ops) ops)[k]? = some false

section Lost

variable {ops : List Op} {j : Nat}

theorem lost_beginGroup {owner : AtomId} {hint : UInt32} :
    Lost stack (.beginGroup owner hint :: ops) i j ↔
      Lost ({ beginIdx := i } :: stack) ops (i + 1) j := by
  unfold Lost
  rw [groupMarks, exists_mark_cons, groupFlags_beginGroup, List.map_cons, groupFlags,
    List.zip_cons_cons]
  simp only [List.mem_cons, exists_eq_or_imp, keepsGroup, nextFlags, GroupPair.hasChild,
    List.isEmpty_nil, Bool.not_true, Bool.false_or]
  rw [← or_assoc, or_comm (a := ∃ q ∈ _, _)]

theorem lost_endGroup {top : GroupPair} :
    Lost (top :: stack) (.endGroup :: ops) i j ↔
      (top.hasChild = false ∧ (j = top.beginIdx ∨ j = i)) ∨ Lost stack ops (i + 1) j := by
  unfold Lost
  rw [groupMarks, exists_mark_cons, List.map_cons, groupFlags, groupFlags_endGroup,
    List.zip_cons_cons]
  simp only [List.mem_cons, exists_eq_or_imp, keepsGroup, nextFlags, List.headD_cons, childAhead,
    Bool.or_false, List.tail_cons]
  rw [or_or_or_comm, and_or_left]

theorem lost_addChild {child : AtomId} {top : GroupPair} :
    Lost (top :: stack) (.addChild child :: ops) i j ↔
      Lost ({ top with childIndices := top.childIndices ++ [i] } :: stack) ops (i + 1) j := by
  have hchild : ({ top with childIndices := top.childIndices ++ [i] } : GroupPair).hasChild =
      true := by simp [GroupPair.hasChild]
  unfold Lost
  rw [groupMarks, exists_mark_cons, List.map_cons, groupFlags, groupFlags_addChild,
    List.zip_cons_cons, List.map_cons, groupFlags, List.zip_cons_cons, hchild]
  simp [keepsGroup, nextFlags, childAhead]

theorem lost_other {op : Op} (hbegin : op.code ≠ .beginGroup) (hend : op.code ≠ .endGroup)
    (hadd : op.code ≠ .addChild ∨ stack = []) :
    Lost stack (op :: ops) i j ↔ Lost stack ops (i + 1) j := by
  have hflags : groupFlags (stack.map GroupPair.hasChild) 0 (op :: ops) =
      groupFlags (stack.map GroupPair.hasChild) 0 ops := by
    rcases hadd with hadd | rfl
    · exact groupFlags_other hbegin hend hadd
    · rfl
  unfold Lost
  rw [groupMarks, exists_mark_cons, hflags]
  cases op with
  | beginGroup => exact absurd rfl hbegin
  | endGroup => exact absurd rfl hend
  | _ => simp [keepsGroup, nextFlags]

end Lost

/-- **The positions phase 4d marks**, from position `i` on with the frames `stack` open: the
`BEGIN_GROUP` of each open frame that gets no child, and what `keepsGroup` does not keep. -/
theorem killed_pairGroups_iff {j : Nat}
    (hdead : ∀ record ∈ records, record.dead = true → record.op ≠ .beginGroup ∧
      record.op ≠ .endGroup ∧ record.op ≠ .addChild)
    (hbalanced : Balanced stack.length (records.map OpRecord.toOp)) :
    Killed (pairGroups records i stack []) j ↔ Lost stack (records.map OpRecord.toOp) i j := by
  induction records generalizing i stack with
  | nil =>
    obtain rfl := List.length_eq_zero_iff.mp hbalanced
    simp [pairGroups, Killed, Lost, groupMarks]
  | cons record records ih =>
    have ih := fun i stack =>
      @ih i stack fun r hr => hdead r (List.mem_cons_of_mem record hr)
    have hcode := record.code_toOp
    have halive : record.op = .beginGroup ∨ record.op = .endGroup ∨ record.op = .addChild →
        record.dead = false := fun hop => by
      by_contra h
      have := hdead record List.mem_cons_self (by simpa using h)
      tauto
    rw [List.map_cons] at hbalanced ⊢
    generalize record.toOp = op at hbalanced hcode
    cases op with
    | beginGroup owner hint =>
      rw [pairGroups_beginGroup (halive (.inl hcode.symm)) hcode.symm, ih _ _ hbalanced,
        lost_beginGroup]
    | endGroup =>
      obtain ⟨hpos, hbalanced⟩ := hbalanced
      cases stack with
      | nil => exact absurd hpos (Nat.lt_irrefl 0)
      | cons top stack =>
        rw [pairGroups_endGroup (halive (.inr (.inl hcode.symm))) hcode.symm, killed_cons,
          ih _ _ hbalanced, lost_endGroup]
        rfl
    | addChild child =>
      cases stack with
      | nil =>
        rw [pairGroups_other (.inr ⟨hcode ▸ nofun, fun h => absurd rfl h⟩), ih _ _ hbalanced,
          lost_other (by simp [Op.code]) (by simp [Op.code]) (.inr rfl)]
      | cons top stack =>
        rw [pairGroups_addChild (halive (.inr (.inr hcode.symm))) hcode.symm, lost_addChild]
        exact ih _ _ hbalanced
    | _ =>
      rw [pairGroups_other (.inr ⟨hcode ▸ nofun, fun _ => ⟨hcode ▸ nofun, hcode ▸ nofun⟩⟩),
        ih _ _ hbalanced, lost_other (by simp [Op.code]) (by simp [Op.code]) (.inl (by simp [Op.code]))]

end Pairing

/-- The positions of an open frame hold a `BEGIN_GROUP` and unmarked `ADD_CHILD`s. -/
structure Paired (records : List OpRecord) (pair : GroupPair) : Prop where
  begins : records[pair.beginIdx]?.map OpRecord.op = some .beginGroup
  children : ∀ c ∈ pair.childIndices,
    records[c]?.map OpRecord.op = some .addChild ∧ deadAt records c = false

/-- So do those of a completed frame, and it ends at an `END_GROUP`. -/
structure Completed (records : List OpRecord) (pair : GroupPair) : Prop
    extends Paired records pair where
  ends : records[pair.endIdx]?.map OpRecord.op = some .endGroup

theorem getElem?_of_drop {α : Type} {all rest : List α} {x : α} {i : Nat} (h : all.drop i = x :: rest) :
    all[i]? = some x ∧ all.drop (i + 1) = rest := by
  constructor
  · rw [← List.head?_drop, h, List.head?_cons]
  · rw [← List.tail_drop, h, List.tail_cons]

theorem pairGroups_completed {all records : List OpRecord} {i : Nat}
    {stack completed : List GroupPair} (hdrop : all.drop i = records)
    (hstack : ∀ pair ∈ stack, Paired all pair) (hcompleted : ∀ pair ∈ completed, Completed all pair) :
    ∀ pair ∈ pairGroups records i stack completed, Completed all pair := by
  induction records generalizing i stack completed with
  | nil => exact hcompleted
  | cons record records ih =>
    obtain ⟨hi, hdrop'⟩ := getElem?_of_drop hdrop
    unfold pairGroups
    by_cases hdead : record.dead = true
    · rw [if_pos hdead]
      exact ih hdrop' hstack hcompleted
    rw [if_neg hdead]
    split
    · rename_i hop
      refine ih hdrop' (fun pair hpair => ?_) hcompleted
      rcases List.mem_cons.mp hpair with rfl | hpair
      · exact ⟨by rw [hi, Option.map_some, hop], fun c hc => absurd hc List.not_mem_nil⟩
      · exact hstack pair hpair
    · rename_i top stack hop
      refine ih hdrop' (fun pair hpair => hstack pair (List.mem_cons_of_mem _ hpair))
        fun pair hpair => ?_
      rcases List.mem_append.mp hpair with hpair | hpair
      · exact hcompleted pair hpair
      · obtain rfl := List.mem_singleton.mp hpair
        obtain ⟨hbegins, hchildren⟩ := hstack top List.mem_cons_self
        exact ⟨⟨hbegins, hchildren⟩, by rw [hi, Option.map_some, hop]⟩
    · rename_i top stack hop
      refine ih hdrop' (fun pair hpair => ?_) hcompleted
      rcases List.mem_cons.mp hpair with rfl | hpair
      · obtain ⟨hbegins, hchildren⟩ := hstack top List.mem_cons_self
        refine ⟨hbegins, fun c hc => ?_⟩
        rcases List.mem_append.mp hc with hc | hc
        · exact hchildren c hc
        · obtain rfl := List.mem_singleton.mp hc
          exact ⟨by rw [hi, Option.map_some, hop], by simp [deadAt, hi, hdead]⟩
      · exact hstack pair (List.mem_cons_of_mem _ hpair)
    · exact ih hdrop' hstack hcompleted

/-- Marking leaves the opcodes alone. -/
theorem op_modify_kill (records : List OpRecord) (i j : Nat) :
    (records.modify i kill)[j]?.map OpRecord.op = records[j]?.map OpRecord.op := by
  rw [List.getElem?_modify]
  cases records[j]? with
  | none => rfl
  | some record => split <;> rfl

theorem deadAt_modify_kill {records : List OpRecord} {i j : Nat} (hij : i ≠ j) :
    deadAt (records.modify i kill) j = deadAt records j := by
  unfold deadAt
  simp [hij]

/-- Marking a position that holds no `ADD_CHILD` keeps a completed frame. -/
theorem Completed.modify {records : List OpRecord} {pair : GroupPair} (h : Completed records pair)
    {i : Nat} (hi : records[i]?.map OpRecord.op ≠ some .addChild) :
    Completed (records.modify i kill) pair where
  begins := (op_modify_kill ..).trans h.begins
  ends := (op_modify_kill ..).trans h.ends
  children := fun c hc => by
    obtain ⟨hop, hdead⟩ := h.children c hc
    refine ⟨(op_modify_kill ..).trans hop, ?_⟩
    have hic : i ≠ c := by
      rintro rfl
      exact hi hop
    rw [deadAt_modify_kill hic, hdead]

/-- Marking one completed frame keeps the others. -/
theorem Completed.mark {records : List OpRecord} {pair other : GroupPair}
    (h : Completed records pair) (hother : Completed records other) :
    Completed ((records.modify pair.beginIdx kill).modify pair.endIdx kill) other := by
  have hbegin : records[pair.beginIdx]?.map OpRecord.op ≠ some .addChild := by
    rw [h.begins]
    exact nofun
  have hend : (records.modify pair.beginIdx kill)[pair.endIdx]?.map OpRecord.op ≠
      some .addChild := by
    rw [op_modify_kill, h.ends]
    exact nofun
  exact (hother.modify hbegin).modify hend

instance (pairs : List GroupPair) (j : Nat) : Decidable (Killed pairs j) :=
  inferInstanceAs (Decidable (∃ pair ∈ pairs, _))

/-- One completed frame marks its `BEGIN_GROUP` and `END_GROUP`, if it has no child. -/
theorem markGroup_eq {marked : List OpRecord × Nat} {pair : GroupPair}
    (h : Completed marked.1 pair) : markGroup marked pair =
      if pair.hasChild then marked
      else ((marked.1.modify pair.beginIdx kill).modify pair.endIdx kill, marked.2 + 2) := by
  have hany : (pair.childIndices.any fun c => !deadAt marked.1 c) = pair.hasChild := by
    cases hc : pair.childIndices with
    | nil => rw [GroupPair.hasChild, hc]; rfl
    | cons c cs =>
      rw [List.any_cons, (h.children c (hc ▸ List.mem_cons_self)).2, GroupPair.hasChild, hc]
      rfl
  unfold markGroup
  rw [hany]
  cases hchild : pair.hasChild with
  | true => rfl
  | false =>
    have hnil : pair.childIndices = [] := by simpa [GroupPair.hasChild] using hchild
    simp [hnil]

/-- The completed frames, one after the other, mark the positions that are killed. -/
theorem foldl_markGroup {pairs : List GroupPair} {marked : List OpRecord × Nat}
    (h : ∀ pair ∈ pairs, Completed marked.1 pair) (j : Nat) :
    (pairs.foldl markGroup marked).1[j]? =
      marked.1[j]?.map fun record => if Killed pairs j then kill record else record := by
  induction pairs generalizing marked with
  | nil => simp [Killed]
  | cons pair pairs ih =>
    have hpair := h pair List.mem_cons_self
    have hpairs := fun p hp => h p (List.mem_cons_of_mem _ hp)
    rw [List.foldl_cons, markGroup_eq hpair]
    cases hchild : pair.hasChild with
    | true =>
      rw [if_pos rfl, ih hpairs]
      simp [killed_cons, hchild]
    | false =>
      rw [if_neg (by simp), ih fun p hp => hpair.mark (hpairs p hp)]
      simp only [killed_cons, hchild, true_and, List.getElem?_modify, eq_comm (a := j)]
      cases marked.1[j]? with
      | none => rfl
      | some record =>
        by_cases hb : pair.beginIdx = j <;> by_cases he : pair.endIdx = j <;>
          by_cases hk : Killed pairs j <;> simp [hb, he, hk, kill]

theorem length_groupMarks (flags : List Bool) (ops : List Op) :
    (groupMarks flags ops).length = ops.length := by
  induction ops generalizing flags with
  | nil => rfl
  | cons op ops ih => rw [groupMarks, List.length_cons, ih, List.length_cons]

/-- **Phase 4d** marks the records that `keepsGroup` does not keep. -/
theorem markGroups_eq {records : List OpRecord}
    (hdead : ∀ record ∈ records, record.dead = true → record.op ≠ .beginGroup ∧
      record.op ≠ .endGroup ∧ record.op ≠ .addChild)
    (hbalanced : Balanced 0 (records.map OpRecord.toOp)) :
    (markGroups records).1 =
      List.zipWith mark (groupMarks [] (records.map OpRecord.toOp)) records := by
  have hcompleted : ∀ pair ∈ pairGroups records 0 [] [], Completed records pair :=
    pairGroups_completed rfl (fun _ h => absurd h List.not_mem_nil)
      (fun _ h => absurd h List.not_mem_nil)
  refine List.ext_getElem? fun j => ?_
  have hkilled : Killed (pairGroups records 0 [] []) j ↔
      (groupMarks [] (records.map OpRecord.toOp))[j]? = some false := by
    have h : Killed (pairGroups records 0 [] []) j ↔ Lost [] (records.map OpRecord.toOp) 0 j :=
      killed_pairGroups_iff hdead hbalanced
    simpa [Lost, groupFlags] using h
  rw [markGroups, foldl_markGroup hcompleted, List.getElem?_zipWith]
  cases hrecord : records[j]? with
  | none => cases (groupMarks [] (records.map OpRecord.toOp))[j]? <;> rfl
  | some record =>
    have hlen : j < (groupMarks [] (records.map OpRecord.toOp)).length := by
      rw [length_groupMarks, List.length_map]
      exact (List.getElem?_eq_some_iff.mp hrecord).1
    rw [List.getElem?_eq_getElem hlen] at hkilled ⊢
    cases hmark : (groupMarks [] (records.map OpRecord.toOp))[j] with
    | true => simp [hkilled, hmark]
    | false => simp [hkilled, hmark]

/-! ## Phase 5 -/

/-- A record as decoding leaves it: it has what its opcode is encoded with. -/
structure Encodable (record : OpRecord) : Prop where
  fresh : record.dead = false
  /-- The children of a group are collected elsewhere. -/
  children : record.op = .beginGroup → record.groupChildren = []
  value : record.op = .setField → record.value.type ≠ .invalid

/-- **A record is encoded as its opcode**, without its hint, whatever hint phase 5 gives it. -/
theorem encodeOp_eq {record : OpRecord} (h : Encodable record) (counts : UMap Nat UInt32) (i : Nat) :
    encodeOp (patchHint counts i record) = record.toOp.withoutHint.encode := by
  cases hop : record.op with
  | beginGroup =>
    have hpatch : ∃ hint, patchHint counts i record = { record with reserveHint := hint } := by
      unfold patchHint
      rw [if_pos hop]
      cases counts.lookup i with
      | none => exact ⟨record.reserveHint, rfl⟩
      | some count => exact ⟨count, rfl⟩
    obtain ⟨hint, hpatch⟩ := hpatch
    rw [hpatch]
    simp [encodeOp, OpRecord.toOp, hop, h.children hop, Op.withoutHint, Op.encode, Op.code,
      Op.operands]
  | setField =>
    simp [patchHint, encodeOp, OpRecord.toOp, hop, encodeValue_eq (h.value hop), Op.withoutHint, Op.encode, Op.code,
      Op.operands]
  | _ =>
    simp [patchHint, encodeOp, OpRecord.toOp, hop, Op.withoutHint, Op.encode, Op.code, Op.operands]

/-- The loop that encodes writes the records both marks keep. -/
theorem encodeOps_eq (live : Finset NodeId) (counts : UMap Nat UInt32) {records : List OpRecord}
    (hrecords : ∀ record ∈ records, Encodable record) (flags : List Bool) (i : Nat) :
    let ops := records.map OpRecord.toOp
    let kept := (survivors live flags ops).map Op.withoutHint
    encodeOps counts (List.zipWith mark (groupMarks flags ops)
      (List.zipWith mark (fieldMarks live ops) records)) i =
        (kept.flatMap Op.encode, kept.length) := by
  induction records generalizing flags i with
  | nil => rfl
  | cons record records ih =>
    have hrecord := hrecords record List.mem_cons_self
    have ih := ih fun r hr => hrecords r (List.mem_cons_of_mem _ hr)
    simp only [List.map_cons, groupMarks, fieldMarks, List.zipWith_cons_cons, encodeOps, ih,
      survivors]
    cases keepsField live record.toOp (records.map OpRecord.toOp) <;>
      cases keepsGroup flags record.toOp (records.map OpRecord.toOp) <;>
      simp [kill, hrecord.fresh, encodeOp_eq hrecord]

/-- A group opcode is not marked by phases 4a to 4c. -/
theorem dead_of_fieldMarks (live : Finset NodeId) {records : List OpRecord}
    (hfresh : ∀ record ∈ records, record.dead = false) :
    ∀ record ∈ List.zipWith mark (fieldMarks live (records.map OpRecord.toOp)) records,
      record.dead = true → record.op ≠ .beginGroup ∧ record.op ≠ .endGroup ∧
        record.op ≠ .addChild := by
  induction records with
  | nil => exact fun _ h => absurd h List.not_mem_nil
  | cons record records ih =>
    intro r hr hdead
    rw [List.map_cons, fieldMarks, List.zipWith_cons_cons, List.mem_cons] at hr
    rcases hr with rfl | hr
    · cases hkeep : keepsField live record.toOp (records.map OpRecord.toOp) with
      | true =>
        rw [hkeep, mark_true, hfresh record List.mem_cons_self] at hdead
        cases hdead
      | false =>
        rw [mark_false]
        show record.op ≠ _ ∧ record.op ≠ _ ∧ record.op ≠ _
        rw [← record.code_toOp]
        generalize record.toOp = op at hkeep
        cases op with
        | beginGroup | endGroup | addChild => exact nomatch hkeep
        | _ => exact ⟨nofun, nofun, nofun⟩
    · exact ih (fun r hr => hfresh r (List.mem_cons_of_mem _ hr)) r hr hdead

theorem toOp_zipWith_mark (marks : List Bool) (records : List OpRecord)
    (hlen : marks.length = records.length) :
    (List.zipWith mark marks records).map OpRecord.toOp = records.map OpRecord.toOp := by
  induction records generalizing marks with
  | nil => simp
  | cons record records ih =>
    cases marks with
    | nil => cases hlen
    | cons keep marks =>
      rw [List.zipWith_cons_cons, List.map_cons, ih marks (by simpa using hlen), List.map_cons]
      cases keep <;> rfl

theorem length_fieldMarks (live : Finset NodeId) (ops : List Op) :
    (fieldMarks live ops).length = ops.length := by
  induction ops with
  | nil => rfl
  | cons op ops ih => rw [fieldMarks, List.length_cons, ih, List.length_cons]

/-- The opcodes of the compacted journal. -/
def compacted (ops : List Op) : List Op := (survivors (liveOf ops) [] ops).map Op.withoutHint

section Passes

variable {records : List OpRecord}

/-- **All marking passes**, one after the other. -/
theorem marked_eq (hfresh : ∀ record ∈ records, record.dead = false)
    (hbalanced : Balanced 0 (records.map OpRecord.toOp)) :
    let ops := records.map OpRecord.toOp
    (markGroups (markDeadNodes (liveNodes records) (markRedundant (markNops records)).1)).1 =
      List.zipWith mark (groupMarks [] ops)
        (List.zipWith mark (fieldMarks (liveOf ops) ops) records) := by
  have hops := toOp_zipWith_mark
    (fieldMarks (liveOf (records.map OpRecord.toOp)) (records.map OpRecord.toOp)) records
    (by rw [length_fieldMarks, List.length_map])
  have hgroups := markGroups_eq (dead_of_fieldMarks (liveOf (records.map OpRecord.toOp)) hfresh)
    (by rw [hops]; exact hbalanced)
  rw [hops] at hgroups
  rw [liveNodes_eq, markDeadNodes_eq _ hfresh, hgroups]

/-- **The compacted journal** has the opcodes kept, in order and without their hints. -/
theorem compactOps_journalBytes (hrecords : ∀ record ∈ records, Encodable record)
    (hbalanced : Balanced 0 (records.map OpRecord.toOp)) :
    (compactOps records).journalBytes = journalOf (compacted (records.map OpRecord.toOp)) := by
  unfold compactOps
  simp only [marked_eq (fun r hr => (hrecords r hr).fresh) hbalanced]
  rw [encodeOps_eq _ _ hrecords]
  rfl

/-- Their number. -/
theorem compactOps_outputOpCount (hrecords : ∀ record ∈ records, Encodable record)
    (hbalanced : Balanced 0 (records.map OpRecord.toOp)) :
    (compactOps records).stats.outputOpCount =
      UInt32.ofNat (compacted (records.map OpRecord.toOp)).length := by
  unfold compactOps
  simp only [marked_eq (fun r hr => (hrecords r hr).fresh) hbalanced]
  rw [encodeOps_eq _ _ hrecords]
  rfl

end Passes

/-! ## From the bytes -/

section Decoded

variable {schema : Schema} {ops : List Op} {st st' : DecodeState} {r r' : Bytes}
  {records : List OpRecord}

theorem Decodes.map_toOp (h : Decodes schema ops st r records st' r') :
    records.map OpRecord.toOp = ops := by
  induction h with
  | nil => rfl
  | cons _ _ _ ih => rw [List.map_cons, toOp_record, ih]

theorem Decodes.encodable (h : Decodes schema ops st r records st' r') :
    ∀ record ∈ records, Encodable record := by
  induction h with
  | nil => exact fun _ h => absurd h List.not_mem_nil
  | @cons op _ st _ _ _ _ _ hread _ _ ih =>
    intro record hmem
    rcases List.mem_cons.mp hmem with rfl | hmem
    · cases op with
      | setField node field value =>
        have htyped : (Op.setField node field value).Typed (readType schema st.nodeKinds) {} :=
          readOp_typed hread
        exact ⟨rfl, nofun, fun _ => htyped.2.1⟩
      | endGroup =>
        unfold DecodeState.record
        cases st.groupStack with
        | nil => exact ⟨rfl, nofun, nofun⟩
        | cons => exact ⟨rfl, nofun, nofun⟩
      | beginGroup => exact ⟨rfl, fun _ => rfl, nofun⟩
      | _ => exact ⟨rfl, nofun, nofun⟩
    · exact ih record hmem

theorem Decodes.balanced (h : Decodes schema ops st r records st' r')
    (hclosed : st'.groupStack = []) : Balanced st.groupStack.length ops := by
  induction h with
  | nil =>
    rw [hclosed]
    rfl
  | cons _ hgroup _ ih =>
    rw [balanced_cons, ← length_groupStack_next]
    exact ⟨fun hop => List.length_pos_iff.mpr (hgroup hop), ih hclosed⟩

/-- **What `compact` writes**, if it decodes `ops` and every group is closed. -/
theorem compact_of_decodes {count : UInt32} {journal : Bytes}
    (hcount : readVarintU32 journal = .ok (count, r)) (hlen : ops.length = count.toNat)
    (h : Decodes schema ops {} r records st' r') (hclosed : st'.groupStack = []) :
    ∃ res, compact schema journal = .ok res ∧ res.journalBytes = journalOf (compacted ops) := by
  refine ⟨compactOps records,
    compact_eq_ok.mpr ⟨count, r, ops, records, st', r', hcount, hlen, h, hclosed, rfl⟩, ?_⟩
  rw [compactOps_journalBytes h.encodable (h.map_toOp ▸ h.balanced hclosed), h.map_toOp]

end Decoded

end JournalCompactor

end Stratavm
