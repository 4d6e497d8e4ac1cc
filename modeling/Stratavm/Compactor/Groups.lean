import Stratavm.Compactor.LiveUpdates

/-!
# Groups in a list of opcodes

A group is a `BEGIN_GROUP`, a balanced body and an `END_GROUP`. `childCount 0` of the body is the number
of `ADD_CHILD`s directly inside it. `OpenAt` says which groups are open after a list of opcodes, and
whether a child was added to each; it splits the list at the `BEGIN_GROUP`s that are still open.

The compactor works with two stacks, one that decodes and one that marks; both are read off the list by
these. A depth is a number of groups that the list closes and did not open.

* `depth_unique`: a balanced list closes one number of groups, so a `BEGIN_GROUP` has one `END_GROUP`.
* `exists_group`: it has one, where no group is left open; `body_unique`: and an `END_GROUP` one
  `BEGIN_GROUP`.
* `childCount_group`: what is in a group does not count for the group around it.
* **`OpenAt.step`**: the groups open after one opcode more.
-/

namespace Stratavm

open Lib

namespace JournalCompactor

/-! ## Balanced lists -/

section Balanced

variable {op : Op} {ops more : List Op} {depth d : Nat}

theorem balanced_other (hbegin : op.code ≠ .beginGroup) (hend : op.code ≠ .endGroup) :
    Balanced depth (op :: ops) ↔ Balanced depth ops := by
  cases op with
  | beginGroup => exact absurd rfl hbegin
  | endGroup => exact absurd rfl hend
  | _ => exact Iff.rfl

/-- What comes after a balanced list closes the groups further out. -/
theorem Balanced.append (h : Balanced depth ops) :
    Balanced (depth + d) (ops ++ more) ↔ Balanced d more := by
  induction ops generalizing depth with
  | nil =>
    obtain rfl : depth = 0 := h
    rw [Nat.zero_add, List.nil_append]
  | cons op ops ih =>
    rw [List.cons_append]
    cases op with
    | beginGroup owner hint =>
      have h : Balanced (depth + 1) ops := h
      show Balanced (depth + d + 1) (ops ++ more) ↔ _
      rw [Nat.add_right_comm]
      exact ih h
    | endGroup =>
      obtain ⟨hpos, h⟩ := h
      show 0 < depth + d ∧ Balanced (depth + d - 1) (ops ++ more) ↔ _
      rw [Nat.sub_add_comm hpos, ih h]
      exact and_iff_right (Nat.add_pos_left hpos d)
    | _ => exact ih h

theorem Balanced.append_zero (h : Balanced depth ops) :
    Balanced depth (ops ++ more) ↔ Balanced 0 more := h.append (d := 0)

/-- The end of a balanced list is balanced. -/
theorem Balanced.suffix (h : Balanced depth (ops ++ more)) : ∃ d, Balanced d more := by
  induction ops generalizing depth with
  | nil => exact ⟨depth, h⟩
  | cons op ops ih =>
    cases op with
    | endGroup => exact ih h.2
    | _ => exact ih h

/-- **The groups a list closes** are of one number. -/
theorem depth_unique (h : Balanced depth ops) (h' : Balanced d ops) : depth = d := by
  induction ops generalizing depth d with
  | nil => exact Eq.trans h (Eq.symm h')
  | cons op ops ih =>
    cases op with
    | beginGroup => exact Nat.succ.inj (ih h h')
    | endGroup =>
      obtain ⟨hpos, h⟩ := h
      obtain ⟨hpos', h'⟩ := h'
      have := ih h h'
      omega
    | _ => exact ih h h'

/-- The `END_GROUP` of the group that is open with `depth` groups inside it. -/
theorem exists_closing (h : Balanced (depth + 1 + d) ops) :
    ∃ body post, ops = body ++ .endGroup :: post ∧ Balanced depth body ∧ Balanced d post := by
  induction ops generalizing depth with
  | nil =>
    have h : depth + 1 + d = 0 := h
    omega
  | cons op ops ih =>
    cases op with
    | beginGroup owner hint =>
      have h : Balanced (depth + 1 + d + 1) ops := h
      rw [Nat.add_right_comm _ d] at h
      obtain ⟨body, post, rfl, hbody, hpost⟩ := ih h
      exact ⟨.beginGroup owner hint :: body, post, rfl, hbody, hpost⟩
    | endGroup =>
      obtain ⟨-, h⟩ := h
      cases depth with
      | zero =>
        rw [Nat.zero_add, Nat.add_sub_cancel_left] at h
        exact ⟨[], ops, rfl, rfl, h⟩
      | succ depth =>
        rw [Nat.add_right_comm _ 1, Nat.add_sub_cancel] at h
        obtain ⟨body, post, rfl, hbody, hpost⟩ := ih h
        exact ⟨.endGroup :: body, post, rfl, ⟨Nat.succ_pos _, hbody⟩, hpost⟩
    | _ =>
      obtain ⟨body, post, rfl, hbody, hpost⟩ := ih h
      exact ⟨_ :: body, post, rfl, hbody, hpost⟩

/-- **A `BEGIN_GROUP` has an `END_GROUP`**. -/
theorem exists_group (h : Balanced (d + 1) ops) :
    ∃ body post, ops = body ++ .endGroup :: post ∧ Balanced 0 body ∧ Balanced d post := by
  rw [Nat.add_comm] at h
  have hclosing : Balanced (0 + 1 + d) ops := by rwa [Nat.zero_add]
  exact exists_closing hclosing

/-- Two bodies before one `END_GROUP` are one. -/
theorem body_unique {before before' body body' : List Op} {owner owner' : AtomId}
    {hint hint' : UInt32} (hbody : Balanced 0 body) (hbody' : Balanced 0 body')
    (heq : before ++ .beginGroup owner hint :: body =
      before' ++ .beginGroup owner' hint' :: body') : body = body' := by
  have hno : ∀ {xs ys mid : List Op} {o : AtomId} {h : UInt32}, Balanced 0 xs → Balanced 0 ys →
      ys ≠ mid ++ .beginGroup o h :: xs := by
    intro xs ys mid o h hxs hys heq
    obtain ⟨e, he⟩ := (heq ▸ hys).suffix
    have he : Balanced (e + 1) xs := he
    exact absurd (depth_unique he hxs) (Nat.succ_ne_zero e)
  rcases List.append_eq_append_iff.mp heq with ⟨mid, -, hmid⟩ | ⟨mid, -, hmid⟩
  · cases mid with
    | nil => exact (List.cons.inj hmid).2
    | cons op mid => exact absurd (List.cons.inj hmid).2 (hno hbody' hbody)
  · cases mid with
    | nil => exact (List.cons.inj hmid).2.symm
    | cons op mid => exact absurd (List.cons.inj hmid).2 (hno hbody hbody')

end Balanced

/-! ## The children of a group -/

/-- The number of `ADD_CHILD`s directly in a group, up to its `END_GROUP`, with `depth` groups open
inside it. -/
def childCount : Nat → List Op → Nat
  | _, [] => 0
  | depth, op :: ops =>
    match op with
    | .beginGroup _ _ => childCount (depth + 1) ops
    | .endGroup =>
      match depth with
      | 0 => 0
      | depth + 1 => childCount depth ops
    | .addChild _ => (if depth = 0 then 1 else 0) + childCount depth ops
    | .newNode _ _ | .setField _ _ _ | .linkRef _ _ _ | .dropNode _ | .snapshot _ | .setMeta _ _
    | .nop => childCount depth ops

section Children

variable {op : Op} {ops more : List Op} {depth : Nat}

theorem childCount_other (hbegin : op.code ≠ .beginGroup) (hend : op.code ≠ .endGroup)
    (hadd : op.code ≠ .addChild) : childCount depth (op :: ops) = childCount depth ops := by
  cases op with
  | beginGroup => exact absurd rfl hbegin
  | endGroup => exact absurd rfl hend
  | addChild => exact absurd rfl hadd
  | _ => rfl

/-- `childAhead` looks for the first of them. -/
theorem childAhead_eq : childAhead depth ops = decide (0 < childCount depth ops) := by
  induction ops generalizing depth with
  | nil => rfl
  | cons op ops ih =>
    cases op with
    | beginGroup => exact ih
    | endGroup =>
      cases depth with
      | zero => rfl
      | succ depth => exact ih
    | addChild child =>
      rw [childAhead, childCount, ih]
      by_cases hdepth : depth = 0 <;> simp [hdepth]
    | _ => exact ih

theorem Balanced.childCount_append (h : Balanced depth ops) :
    childCount depth (ops ++ more) = childCount depth ops + childCount 0 more := by
  induction ops generalizing depth with
  | nil =>
    obtain rfl : depth = 0 := h
    exact (Nat.zero_add _).symm
  | cons op ops ih =>
    rw [List.cons_append]
    cases op with
    | beginGroup => exact ih h
    | endGroup =>
      cases depth with
      | zero => exact absurd h.1 (Nat.lt_irrefl 0)
      | succ depth => exact ih h.2
    | addChild child =>
      rw [childCount, childCount, ih h, Nat.add_assoc]
    | _ => exact ih h

/-- Inside a group that is open inside it, a group has no child. -/
theorem Balanced.childCount_inner {d : Nat} (h : Balanced depth ops) :
    childCount (depth + (d + 1)) (ops ++ more) = childCount (d + 1) more := by
  induction ops generalizing depth with
  | nil =>
    obtain rfl : depth = 0 := h
    rw [Nat.zero_add, List.nil_append]
  | cons op ops ih =>
    rw [List.cons_append]
    cases op with
    | beginGroup owner hint =>
      show childCount (depth + (d + 1) + 1) (ops ++ more) = _
      rw [Nat.add_right_comm]
      exact ih h
    | endGroup =>
      cases depth with
      | zero => exact absurd h.1 (Nat.lt_irrefl 0)
      | succ depth =>
        rw [Nat.add_right_comm]
        exact ih h.2
    | addChild child =>
      rw [childCount, if_neg (by omega), Nat.zero_add]
      exact ih h
    | _ => exact ih h

/-- The rest of the opcodes has no say in the children of a group. -/
theorem childCount_group {body post : List Op} (h : Balanced 0 body) :
    childCount 0 (body ++ .endGroup :: post) = childCount 0 body := by
  rw [h.childCount_append]
  rfl

end Children

/-! ## The open groups -/

/-- After `pre` groups are open that have these children, innermost first. -/
inductive OpenAt : List Op → List Bool → Prop
  | outer {pre} (h : Balanced 0 pre) : OpenAt pre []
  | group {before groups} (h : OpenAt before groups) (owner : AtomId) (hint : UInt32) {body}
      (hbody : Balanced 0 body) :
      OpenAt (before ++ .beginGroup owner hint :: body) (decide (0 < childCount 0 body) :: groups)

section OpenAt

variable {op : Op} {pre ops : List Op} {groups : List Bool}

/-- A balanced list has its children in the innermost group. -/
theorem OpenAt.extend {more : List Op} (h : OpenAt pre groups) (hmore : Balanced 0 more) :
    OpenAt (pre ++ more) (groups.modifyHead (· || decide (0 < childCount 0 more))) := by
  cases h with
  | outer hpre => exact .outer (hpre.append_zero.mpr hmore)
  | @group _ _ hbefore owner hint body hbody =>
    have hchild : (decide (0 < childCount 0 body) || decide (0 < childCount 0 more)) =
        decide (0 < childCount 0 (body ++ more)) := by
      rw [hbody.childCount_append, ← Bool.decide_or]
      exact decide_eq_decide.mpr (Nat.add_pos_iff_pos_or_pos).symm
    rw [List.append_assoc, List.cons_append, List.modifyHead_cons, hchild]
    exact .group hbefore owner hint (hbody.append_zero.mpr hmore)

/-- An opcode of no group. -/
theorem OpenAt.other (h : OpenAt pre groups) (hbegin : op.code ≠ .beginGroup)
    (hend : op.code ≠ .endGroup) (hadd : op.code ≠ .addChild) : OpenAt (pre ++ [op]) groups := by
  have hbalanced : Balanced 0 [op] := (balanced_other hbegin hend).mpr rfl
  have hnone : childCount 0 [op] = 0 := childCount_other hbegin hend hadd
  have hopen := h.extend hbalanced
  rw [hnone] at hopen
  cases groups with
  | nil => exact hopen
  | cons group groups => simpa using hopen

/-- **One opcode more.** -/
theorem OpenAt.step (h : OpenAt pre groups) (hend : op = .endGroup → groups ≠ []) :
    OpenAt (pre ++ [op]) (nextGroups groups op) := by
  cases op using Op.groupCases with
  | beginGroup owner hint => exact .group h owner hint rfl
  | endGroup =>
    cases h with
    | outer => exact absurd rfl (hend rfl)
    | @group _ groups hbefore owner hint body hbody =>
      have hgroup : Balanced 0 (.beginGroup owner hint :: (body ++ [.endGroup])) :=
        (hbody.append (d := 1)).mpr ⟨Nat.one_pos, rfl⟩
      have hnone : childCount 0 (.beginGroup owner hint :: (body ++ [.endGroup])) = 0 :=
        hbody.childCount_inner (d := 0)
      have hopen := hbefore.extend hgroup
      rw [hnone] at hopen
      rw [List.append_assoc, List.cons_append]
      cases groups with
      | nil => exact hopen
      | cons group groups => simpa [nextGroups] using hopen
  | addChild child =>
    have hbalanced : Balanced 0 [.addChild child] := rfl
    have hopen := h.extend hbalanced
    cases groups with
    | nil => exact hopen
    | cons group groups => simpa [nextGroups, childCount] using hopen
  | other op hbegin hend' hadd =>
    rw [nextGroups_other hbegin hend' hadd]
    exact h.other hbegin hend' hadd

end OpenAt

end JournalCompactor

end Stratavm
