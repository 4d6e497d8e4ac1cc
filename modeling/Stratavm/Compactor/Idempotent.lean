import Stratavm.Compactor.Removed

/-!
# Compacting twice

No pass makes work for another: what is kept is kept again. A later `SET_FIELD` of the same field is
kept or gone with the node, the live nodes are the same, and a group that is kept keeps its children:
with `flags` of the open groups, those kept are the true ones, so the depth inside a kept group is the
number of them (`childCount_survivors`).

* `survivors_survivors`: the opcodes kept are kept.
* **`compact_idempotent`**: the output is its own output, and nothing is removed from it.
* **`compact_hinted_iff`**: the hint of a `BEGIN_GROUP` is written as 0, so it is the number of its
  children iff no group has any.
-/

namespace Stratavm

open Lib

namespace JournalCompactor

section Again

variable {live : Finset NodeId} {flags groups : List Bool} {op : Op} {ops rest rest' : List Op}

/-- With fewer opcodes after it, an opcode is kept all the more. -/
theorem keepsField_sublist (hsub : rest'.Sublist rest) (h : keepsField live op rest = true) :
    keepsField live op rest' = true := by
  cases op with
  | setField node field value =>
    rw [keepsField, Bool.and_eq_true, Bool.not_eq_true', ← Bool.not_eq_true, overwritten_iff] at h ⊢
    refine ⟨h.1, ?_⟩
    rintro ⟨later, hmem⟩
    exact h.2 ⟨later, hsub.subset hmem⟩
  | _ => exact h

/-- A group that gets a child is kept. -/
theorem flag_of_addChild {flag : Bool} {child : AtomId}
    (h : groupFlags groups 0 (.addChild child :: ops) = flag :: flags) : flag = true := by
  cases groups with
  | nil => cases h
  | cons group groups =>
    rw [groupFlags, childAhead] at h
    rw [← (List.cons.inj h).1]
    simp

/-- **A group that is kept keeps its children.** The groups of `inner` are open inside it. -/
theorem childCount_survivors {inner outer : List Bool}
    (hflags : groupFlags groups 0 ops = inner ++ true :: outer) :
    childCount (inner.count true) (survivors live (inner ++ true :: outer) ops) =
      childCount inner.length ops := by
  induction ops generalizing groups inner outer with
  | nil => rfl
  | cons op ops ih =>
    have hnext := nextFlags_groupFlags groups op ops
    rw [hflags] at hnext
    cases op using Op.groupCases with
    | beginGroup owner hint =>
      have ih := @ih _ (childAhead 0 ops :: inner) outer hnext.symm
      rw [survivors_beginGroup]
      cases hchild : childAhead 0 ops with
      | true =>
        rw [hchild, List.count_cons_self] at ih
        exact ih
      | false =>
        rw [hchild] at ih
        exact ih
    | endGroup =>
      cases inner with
      | nil => rfl
      | cons flag inner =>
        have ih := @ih _ inner outer hnext.symm
        rw [List.cons_append, survivors_endGroup]
        cases flag with
        | true =>
          rw [List.count_cons_self]
          exact ih
        | false => exact ih
    | addChild child =>
      have ih := @ih _ inner outer hnext.symm
      have hdepth : inner.count true = 0 ↔ inner.length = 0 := by
        cases inner with
        | nil => exact Iff.rfl
        | cons flag inner =>
          obtain rfl := flag_of_addChild hflags
          simp
      rw [survivors_addChild, childCount, childCount, ih]
      simp only [hdepth]
    | other op hbegin hend hadd =>
      rw [nextFlags_other hbegin hend] at hnext
      have ih := @ih _ inner outer hnext.symm
      rw [survivors_other hbegin hend, childCount_other hbegin hend hadd, ← ih]
      split
      · exact childCount_other hbegin hend hadd
      · rfl

theorem childAhead_survivors (hflags : groupFlags groups 0 ops = true :: flags) :
    childAhead 0 (survivors live (true :: flags) ops) = childAhead 0 ops := by
  have hinner : groupFlags groups 0 ops = [] ++ true :: flags := hflags
  have hcount : childCount 0 (survivors live (true :: flags) ops) = childCount 0 ops :=
    childCount_survivors hinner
  rw [childAhead_eq, childAhead_eq, hcount]

/-- **The opcodes kept are kept again.** -/
theorem survivors_survivors (hflags : groupFlags groups 0 ops = flags) :
    survivors live (flags.filter id) (survivors live flags ops) = survivors live flags ops := by
  induction ops generalizing groups flags with
  | nil => rfl
  | cons op ops ih =>
    have hnext := nextFlags_groupFlags groups op ops
    rw [hflags] at hnext
    have ih := ih hnext.symm
    cases op using Op.groupCases with
    | beginGroup owner hint =>
      rw [nextFlags] at hnext ih
      rw [survivors_beginGroup]
      cases hchild : childAhead 0 ops with
      | true =>
        rw [hchild] at hnext ih
        rw [if_pos rfl, survivors_beginGroup, childAhead_survivors hnext.symm, hchild, if_pos rfl]
        exact congrArg (Op.beginGroup owner hint :: ·) ih
      | false =>
        rw [hchild] at ih
        exact ih
    | endGroup =>
      cases flags with
      | nil => exact congrArg (Op.endGroup :: ·) ih
      | cons flag flags =>
        rw [survivors_endGroup]
        cases flag with
        | true => exact congrArg (Op.endGroup :: ·) ih
        | false => exact ih
    | addChild child =>
      rw [survivors_addChild, survivors_addChild]
      exact congrArg (Op.addChild child :: ·) ih
    | other op hbegin hend hadd =>
      have hsub : (survivors live flags ops).Sublist ops := survivors_sublist flags
      rw [nextFlags_other hbegin hend] at ih
      rw [survivors_other hbegin hend]
      split
      · rename_i hkeep
        rw [survivors_other hbegin hend, keepsField_sublist hsub hkeep, if_pos rfl]
        exact congrArg (op :: ·) ih
      · exact ih

/-! ### Hints and live nodes -/

theorem overwritten_withoutHint (node : NodeId) (field : FieldId) :
    overwritten node field (ops.map Op.withoutHint) = overwritten node field ops := by
  unfold overwritten
  rw [List.any_map]
  congr 1
  funext op
  cases op <;> rfl

theorem childAhead_withoutHint {depth : Nat} :
    childAhead depth (ops.map Op.withoutHint) = childAhead depth ops := by
  induction ops generalizing depth with
  | nil => rfl
  | cons op ops ih =>
    cases op with
    | beginGroup => exact ih
    | endGroup =>
      cases depth with
      | zero => rfl
      | succ depth => exact ih
    | addChild => exact congrArg (depth == 0 || ·) ih
    | _ => exact ih

/-- No pass looks at a hint. -/
theorem survivors_withoutHint :
    survivors live flags (ops.map Op.withoutHint) = (survivors live flags ops).map Op.withoutHint := by
  induction ops generalizing flags with
  | nil => rfl
  | cons op ops ih =>
    have hfield : keepsField live op.withoutHint (ops.map Op.withoutHint) =
        keepsField live op ops := by
      cases op with
      | setField node field value =>
        show (decide (node ∈ live) && !overwritten node field (ops.map Op.withoutHint)) = _
        rw [overwritten_withoutHint]
        rfl
      | _ => rfl
    have hgroup : keepsGroup flags op.withoutHint (ops.map Op.withoutHint) =
        keepsGroup flags op ops := by
      cases op with
      | beginGroup => exact childAhead_withoutHint
      | _ => rfl
    have hnext : nextFlags flags op.withoutHint (ops.map Op.withoutHint) = nextFlags flags op ops := by
      cases op with
      | beginGroup => exact congrArg (· :: flags) childAhead_withoutHint
      | _ => rfl
    rw [List.map_cons, survivors, survivors, hfield, hgroup, hnext, ih, apply_ite (List.map _)]
    rfl

/-- Every `NEW_NODE` and `DROP_NODE` is kept. -/
theorem liveOf_survivors : liveOf ((survivors live flags ops).map Op.withoutHint) = liveOf ops := by
  suffices h : ∀ acc, ((survivors live flags ops).map Op.withoutHint).foldl liveStep acc =
      ops.foldl liveStep acc by
    exact congrArg Prod.snd (h _)
  induction ops generalizing flags with
  | nil => exact fun _ => rfl
  | cons op ops ih =>
    intro acc
    rw [survivors]
    split
    · have hstep : liveStep acc op.withoutHint = liveStep acc op := by cases op <;> rfl
      rw [List.map_cons, List.foldl_cons, List.foldl_cons, hstep, ih]
    · rename_i hgone
      have hstep : liveStep acc op = acc := by
        cases op with
        | newNode | dropNode => exact absurd rfl hgone
        | _ => rfl
      rw [List.foldl_cons, hstep, ih]

/-- **Compaction of opcodes is idempotent**. -/
theorem compacted_compacted (ops : List Op) : compacted (compacted ops) = compacted ops := by
  have hlive : liveOf (compacted ops) = liveOf ops := liveOf_survivors
  have hnone : groupFlags [] 0 ops = [] := rfl
  have hagain : survivors (liveOf ops) [] (survivors (liveOf ops) [] ops) =
      survivors (liveOf ops) [] ops := survivors_survivors hnone
  rw [compacted, hlive, compacted, survivors_withoutHint, hagain, List.map_map]
  congr 1
  funext op
  exact withoutHint_withoutHint op

end Again

/-! ## The bytes -/

/-- The output is compacted to itself, and nothing is removed from it. -/
def Stable (schema : Schema) (res : CompactionResult) : Prop :=
  ∃ again, compact schema res.journalBytes = .ok again ∧ again.journalBytes = res.journalBytes ∧
    again.stats.nopsRemoved = 0 ∧ again.stats.redundantFieldSetsRemoved = 0 ∧
    again.stats.deadNodeOpsRemoved = 0 ∧ again.stats.deadGroupOpsRemoved = 0

/-- **Compacting is idempotent**. -/
theorem compact_idempotent (schema : Schema) (journal : Bytes) {res : CompactionResult}
    (h : compact schema journal = .ok res) : Stable schema res := by
  obtain ⟨ops, hops⟩ := compacts_of_ok h
  obtain ⟨again, hagain, hcompacts⟩ := hops.decodes.compacted.compacts
  have hcount : again.stats.outputOpCount.toNat = (compacted ops).length := by
    rw [hcompacts.outputs, compacted_compacted, toNat_ofNat_of_lt hops.length_lt]
  have haccounts := hcompacts.accounts
  rw [hcompacts.inputs, hcount] at haccounts
  have hzero : ∀ n : UInt32, n.toNat = 0 → n = 0 := fun n hn =>
    UInt32.toNat_inj.mp (hn.trans UInt32.toNat_zero.symm)
  refine ⟨again, hops.bytes ▸ hagain, ?_, hzero _ ?_, hzero _ ?_, hzero _ ?_, hzero _ ?_⟩
  · rw [hcompacts.bytes, compacted_compacted, hops.bytes]
  · omega
  · omega
  · omega
  · omega

theorem compact_idempotent_redundantOps :
    ∃ res, compact oneOwner.schema (journalOf redundantOps) = .ok res ∧ Stable oneOwner.schema res :=
  ⟨_, rfl, compact_idempotent oneOwner.schema (journalOf redundantOps) rfl⟩

/-! ## The hint of a group -/

/-- The hint of each group is the number of its children. -/
def Hinted (ops : List Op) : Prop :=
  ∀ (pre : List Op) (owner : AtomId) (hint : UInt32) (body post : List Op),
    ops = pre ++ .beginGroup owner hint :: (body ++ .endGroup :: post) → Balanced 0 body →
      hint.toNat = childCount 0 body

/-- No group has a child directly inside it. -/
def Childless (ops : List Op) : Prop :=
  ∀ (pre : List Op) (owner : AtomId) (hint : UInt32) (body post : List Op),
    ops = pre ++ .beginGroup owner hint :: (body ++ .endGroup :: post) → Balanced 0 body →
      childCount 0 body = 0

section Hint

variable {live : Finset NodeId} {flags : List Bool} {ops : List Op} {owner : AtomId} {hint : UInt32}

/-- A `BEGIN_GROUP` is kept if a child is ahead. -/
theorem beginGroup_mem_survivors :
    .beginGroup owner hint ∈ survivors live flags ops ↔
      ∃ pre rest, ops = pre ++ .beginGroup owner hint :: rest ∧ childAhead 0 rest = true := by
  induction ops generalizing flags with
  | nil => simp [survivors]
  | cons op ops ih =>
    have hsplit : (∃ pre rest, op :: ops = pre ++ .beginGroup owner hint :: rest ∧
        childAhead 0 rest = true) ↔ (.beginGroup owner hint = op ∧ childAhead 0 ops = true) ∨
          ∃ pre rest, ops = pre ++ .beginGroup owner hint :: rest ∧ childAhead 0 rest = true := by
      constructor
      · rintro ⟨pre, rest, heq, hahead⟩
        cases pre with
        | nil =>
          obtain ⟨rfl, rfl⟩ := List.cons.inj heq
          exact .inl ⟨rfl, hahead⟩
        | cons _ pre => exact .inr ⟨pre, rest, (List.cons.inj heq).2, hahead⟩
      · rintro (⟨rfl, hahead⟩ | ⟨pre, rest, rfl, hahead⟩)
        · exact ⟨[], ops, rfl, hahead⟩
        · exact ⟨op :: pre, rest, rfl, hahead⟩
    rw [hsplit, ← @ih (nextFlags flags op ops), survivors]
    split
    · rename_i hkeep
      rw [List.mem_cons]
      refine or_congr_left ⟨?_, And.left⟩
      rintro rfl
      exact ⟨rfl, hkeep⟩
    · rename_i hgone
      refine (or_iff_right ?_).symm
      rintro ⟨rfl, hahead⟩
      exact hgone hahead

/-- **The groups of the output** are those of the input that have a child, and their hint is 0. -/
theorem beginGroup_mem_compacted (hbalanced : Balanced 0 ops) :
    .beginGroup owner hint ∈ compacted ops ↔ hint = 0 ∧ ∃ (pre : List Op) (hint' : UInt32)
      (body post : List Op), ops = pre ++ .beginGroup owner hint' :: (body ++ .endGroup :: post) ∧
        Balanced 0 body ∧ 0 < childCount 0 body := by
  rw [compacted, List.mem_map]
  constructor
  · rintro ⟨op, hmem, hop⟩
    cases op with
    | beginGroup owner' hint' =>
      obtain ⟨rfl, rfl⟩ := Op.beginGroup.inj hop
      obtain ⟨pre, rest, rfl, hahead⟩ := beginGroup_mem_survivors.mp hmem
      obtain ⟨d, hrest⟩ := hbalanced.suffix
      obtain ⟨body, post, rfl, hbody, -⟩ := exists_group hrest
      rw [childAhead_eq, childCount_group hbody, decide_eq_true_iff] at hahead
      exact ⟨rfl, pre, hint', body, post, rfl, hbody, hahead⟩
    | _ => cases hop
  · rintro ⟨rfl, pre, hint', body, post, rfl, hbody, hchild⟩
    refine ⟨.beginGroup owner hint', beginGroup_mem_survivors.mpr ⟨pre, _, rfl, ?_⟩, rfl⟩
    rw [childAhead_eq, childCount_group hbody]
    exact decide_eq_true hchild

/-- **The hints of the output are right** iff no group of the input has a child. -/
theorem hinted_compacted_iff (hbalanced : Balanced 0 ops) :
    Hinted (compacted ops) ↔ Childless ops := by
  constructor
  · intro hhinted pre owner hint body post hops hbody
    by_contra hne
    have hmem : .beginGroup owner 0 ∈ compacted ops :=
      (beginGroup_mem_compacted hbalanced).mpr
        ⟨rfl, pre, hint, body, post, hops, hbody, Nat.pos_of_ne_zero hne⟩
    -- its group in the output has a child too, and no hint
    rw [← compacted_compacted] at hmem
    obtain ⟨-, pre', hint', body', post', hout, hbody', hchild⟩ :=
      (beginGroup_mem_compacted (balanced_compacted hbalanced)).mp hmem
    have hzero : hint' = 0 := by
      have hbegin : .beginGroup owner hint' ∈ compacted ops := by
        rw [hout]
        exact List.mem_append_right _ List.mem_cons_self
      exact ((beginGroup_mem_compacted hbalanced).mp hbegin).1
    have hhint := hhinted pre' owner hint' body' post' hout hbody'
    rw [hzero] at hhint
    exact absurd hhint (Nat.ne_of_lt hchild)
  · intro hchildless pre owner hint body post hout _
    have hbegin : .beginGroup owner hint ∈ compacted ops := by
      rw [hout]
      exact List.mem_append_right _ List.mem_cons_self
    obtain ⟨-, pre', hint', body', post', hops, hbody', hchild⟩ :=
      (beginGroup_mem_compacted hbalanced).mp hbegin
    exact absurd (hchildless pre' owner hint' body' post' hops hbody') (Nat.ne_of_gt hchild)

end Hint

/-- **The hints are right** iff no group of the journal has a child directly inside it. -/
theorem compact_hinted_iff (schema : Schema) (journal : Bytes) {res : CompactionResult}
    (h : compact schema journal = .ok res) :
    (∃ out, DecodesTo schema res.journalBytes out ∧ Hinted out) ↔
      ∃ ops, DecodesTo schema journal ops ∧ Childless ops := by
  obtain ⟨ops, hops⟩ := compacts_of_ok h
  have hout : DecodesTo schema res.journalBytes (compacted ops) :=
    hops.bytes ▸ hops.decodes.compacted
  have hiff := hinted_compacted_iff hops.balanced
  constructor
  · rintro ⟨out, hdec, hhinted⟩
    obtain rfl := hdec.unique hout
    exact ⟨ops, hops.decodes, hiff.mp hhinted⟩
  · rintro ⟨ops', hdec, hchildless⟩
    obtain rfl := hdec.unique hops.decodes
    exact ⟨compacted ops', hout, hiff.mpr hchildless⟩

theorem compact_hinted_lateGroup :
    ∃ res, compact oneOwner.schema (journalOf lateGroup) = .ok res ∧
      ((∃ out, DecodesTo oneOwner.schema res.journalBytes out ∧ Hinted out) ↔
        ∃ ops, DecodesTo oneOwner.schema (journalOf lateGroup) ops ∧ Childless ops) :=
  ⟨_, rfl, compact_hinted_iff oneOwner.schema (journalOf lateGroup) rfl⟩

/-- One child, and the hint 0. -/
theorem lateGroup_not_hinted :
    ∃ res, compact oneOwner.schema (journalOf lateGroup) = .ok res ∧
      ∀ out, DecodesTo oneOwner.schema res.journalBytes out → ¬ Hinted out := by
  have htyped : TypedFrom oneOwner.schema [] lateGroup :=
    ⟨trivial, trivial, trivial, trivial, trivial, trivial⟩
  have hbalanced : Balanced 0 lateGroup := ⟨Nat.one_pos, rfl⟩
  have hdec := decodesTo_journalOf htyped hbalanced (by decide)
  obtain ⟨res, hres, hcompacts⟩ := hdec.compacts
  refine ⟨res, hres, fun out hout hhinted => ?_⟩
  rw [hcompacts.bytes] at hout
  obtain rfl := hout.unique hdec.compacted
  have hhint := hhinted [.newNode 0 0, .newNode 0 0] 0 0 [.addChild 0] [] rfl rfl
  exact absurd hhint (by decide)

end JournalCompactor

end Stratavm
