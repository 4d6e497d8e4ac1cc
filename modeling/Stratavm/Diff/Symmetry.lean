import Stratavm.Diff.Exact
import Stratavm.Lib.Pairing

/-!
# Diffs compared with each other

`diff_node_graphs` visits the entries of unordered maps, so the order of what it lists is not determined;
and it treats its two tables differently. Both come down to a change being determined by its name, up to
the order of its lists: two diffs of the same tables list the same changes (`Reorders`), and the diff of the
tables the other way round lists them mirrored (`Mirrors`), but that a removed node has no lists.

* **`diff_reordered`**: the order of iteration only reorders a diff.
* **`diff_mirrored`**: the diff from `after` to `before` mirrors that from `before` to `after`.
-/

namespace Stratavm

open Lib

/-! ## Two changes of one name -/

/-- The same change, with its lists in another order. -/
structure NodeChange.Reorders (nc nc' : NodeChange) : Prop where
  change : nc'.change = nc.change
  beforeId : nc'.beforeId = nc.beforeId
  afterId : nc'.afterId = nc.afterId
  name : nc'.name = nc.name
  kind : nc'.kind = nc.kind
  fieldChanges : nc'.fieldChanges.Perm nc.fieldChanges
  childrenAdded : nc'.childrenAdded.Perm nc.childrenAdded
  childrenRemoved : nc'.childrenRemoved.Perm nc.childrenRemoved

/-- A field change the other way round. -/
def FieldChange.mirror (fc : FieldChange) : FieldChange := { fc with before := fc.after, after := fc.before }

/-- The kind of a change the other way round. -/
def NodeChangeKind.mirror : NodeChangeKind → NodeChangeKind
  | added => removed
  | removed => added
  | modified => modified
  | unchanged => unchanged
  | other raw h => other raw h

/-- The change the other way round. What is compared has lists, and they are mirrored. -/
structure NodeChange.Mirrors (nc nc' : NodeChange) : Prop where
  change : nc'.change = nc.change.mirror
  beforeId : nc'.beforeId = nc.afterId
  afterId : nc'.afterId = nc.beforeId
  name : nc'.name = nc.name
  kind : nc.change = .added ∨ nc.change = .removed → nc'.kind = nc.kind
  fieldChanges : nc.change = .modified ∨ nc.change = .unchanged →
    nc'.fieldChanges.Perm (nc.fieldChanges.map FieldChange.mirror)
  childrenAdded : nc.change = .modified ∨ nc.change = .unchanged → nc'.childrenAdded.Perm nc.childrenRemoved
  childrenRemoved : nc.change = .modified ∨ nc.change = .unchanged → nc'.childrenRemoved.Perm nc.childrenAdded

theorem NodeChangeKind.mirror_mirror (k : NodeChangeKind) : k.mirror.mirror = k := by
  cases k <;> rfl

theorem doubleEq_comm (a b : UInt64) : doubleEq a b = doubleEq b a := by
  rw [doubleEq, doubleEq, Bool.and_comm (!isNaN a), UInt64.or_comm, Bool.beq_comm]

theorem valuesEqual_comm (w v : Value) : valuesEqual w v = valuesEqual v w := by
  cases w with
  | float a =>
    cases v with
    | float b => exact doubleEq_comm a b
    | _ => rfl
  | _ => cases v <;> first | rfl | exact Bool.beq_comm

section Changes

variable {order order' : IterationOrder} {before after : List Node} {name : AtomId} {b a : Node}

theorem differ_comm {w v : Option Value} : Differ w v ↔ Differ v w := by
  cases w with
  | none => cases v <;> exact Iff.rfl
  | some w =>
    cases v with
    | none => exact Iff.rfl
    | some v => rw [Differ, Differ, valuesEqual_comm]

theorem fieldExact_mirror {fc : FieldChange} : FieldExact a b fc.mirror ↔ FieldExact b a fc :=
  ⟨fun h => ⟨differ_comm.mp h.differ, h.after, h.before⟩, fun h => ⟨differ_comm.mp h.differ, h.after, h.before⟩⟩

/-- Two nodes match from either side. -/
theorem matches_comm : Node.Matches before after b a ↔ Node.Matches after before a b := by
  suffices h : ∀ {before after : List Node} {b a : Node}, Node.Matches before after b a →
      Node.Matches after before a b from ⟨h, h⟩
  intro before after b a h
  refine ⟨h.kind.symm, fun f w hw => ?_, fun f hb => ?_, fun c => (h.children c).symm⟩
  · cases ha : a.field f with
    | none =>
      rw [h.unset f ha] at hw
      cases hw
    | some v =>
      obtain ⟨w', hw', heq⟩ := h.set f v ha
      obtain rfl := Option.some.inj (hw.symm.trans hw')
      exact ⟨v, rfl, valuesEqual_comm _ _ ▸ heq⟩
  · cases ha : a.field f with
    | none => rfl
    | some v =>
      obtain ⟨w, hw, -⟩ := h.set f v ha
      rw [hb] at hw
      cases hw

/-- A loop visits the same entries in any order. -/
theorem entries_perm {V : Type} (loop loop' : DiffLoop) (m : UMap UInt32 V) :
    (order'.entries loop' m).Perm (order.entries loop m) := by
  refine (List.perm_ext_iff_of_nodup (.of_map _ (order'.nodup ..)) (.of_map _ (order.nodup ..))).mpr ?_
  rintro ⟨k, v⟩
  rw [order'.mem_iff, order.mem_iff]

/-- What is said of two nodes is determined up to order. -/
theorem comparedExact_kind {nc nc' : NodeChange} (h : ComparedExact before after b a nc)
    {before' after' : List Node} {b' a' : Node} (h' : ComparedExact before' after' b' a' nc')
    (hmatches : Node.Matches before' after' b' a' ↔ Node.Matches before after b a) :
    nc'.change = nc.change := by
  have hiff : nc'.change = .unchanged ↔ nc.change = .unchanged := by
    rw [h.unchanged, h'.unchanged, hmatches]
  rcases h.change with hc | hc
  · rcases h'.change with hc' | hc'
    · rw [hc, hc']
    · rw [hc', hiff.mp hc']
  · rw [hc, hiff.mpr hc]

theorem reorders_compared : (comparedChange order before after name b a).Reorders
    (comparedChange order' before after name b a) := by
  have h : ComparedExact before after b a (comparedChange order before after name b a) := comparedChange_exact
  have h' : ComparedExact before after b a (comparedChange order' before after name b a) :=
    comparedChange_exact
  refine ⟨comparedExact_kind h h' Iff.rfl, rfl, rfl, rfl, rfl, ?_, ?_, ?_⟩
  · exact (List.perm_ext_iff_of_nodup (.of_map _ h'.nodup_fields) (.of_map _ h.nodup_fields)).mpr
      fun fc => (h'.fields fc).trans (h.fields fc).symm
  · exact (List.perm_ext_iff_of_nodup h'.nodup_added h.nodup_added).mpr
      fun c => (h'.added c).trans (h.added c).symm
  · exact (List.perm_ext_iff_of_nodup h'.nodup_removed h.nodup_removed).mpr
      fun c => (h'.removed c).trans (h.removed c).symm

theorem mirrors_compared : (comparedChange order before after name b a).Mirrors
    (comparedChange order' after before name a b) := by
  have h : ComparedExact before after b a (comparedChange order before after name b a) := comparedChange_exact
  have h' : ComparedExact after before a b (comparedChange order' after before name a b) :=
    comparedChange_exact
  have hchange := comparedExact_kind h h' matches_comm.symm
  refine ⟨?_, rfl, rfl, rfl, fun hkind => ?_, fun _ => ?_, fun _ => ?_, fun _ => ?_⟩
  · rw [hchange]
    rcases h.change with hc | hc <;> rw [hc] <;> rfl
  · rcases hkind with hc | hc <;> rcases h.change with hc' | hc' <;> cases hc.symm.trans hc'
  · have hinj : Function.Injective FieldChange.mirror := fun fc fc' hfc => congrArg FieldChange.mirror hfc
    refine (List.perm_ext_iff_of_nodup (.of_map _ h'.nodup_fields)
      ((List.Nodup.of_map _ h.nodup_fields).map hinj)).mpr fun fc => ?_
    rw [h'.fields, List.mem_map, ← fieldExact_mirror]
    constructor
    · exact fun hfc => ⟨fc.mirror, (h.fields _).mpr hfc, rfl⟩
    · rintro ⟨fc, hfc, rfl⟩
      exact (h.fields fc).mp hfc
  · exact (List.perm_ext_iff_of_nodup h'.nodup_added h.nodup_removed).mpr
      fun c => (h'.added c).trans (h.removed c).symm
  · exact (List.perm_ext_iff_of_nodup h'.nodup_removed h.nodup_added).mpr
      fun c => (h'.removed c).trans (h.added c).symm

/-- **A change is determined by its name**, up to the order of its lists. -/
theorem ChangeOf.reorders {nc nc' : NodeChange} (h : ChangeOf order before after nc)
    (h' : ChangeOf order' before after nc') (hname : nc'.name = nc.name) : nc.Reorders nc' := by
  cases h with
  | @added name a as _ hb ha =>
    cases h' with
    | @added _ a' as' _ hb' ha' =>
      obtain rfl : _ = name := hname
      obtain ⟨rfl, -⟩ := List.cons.inj (ha.symm.trans ha')
      exact ⟨rfl, rfl, rfl, rfl, rfl, (entries_perm ..).map _, .refl _, .refl _⟩
    | compared _ hb' _ =>
      obtain rfl : _ = name := hname
      cases hb.symm.trans hb'
    | removed _ hb' _ =>
      obtain rfl : _ = name := hname
      cases hb.symm.trans hb'
  | @compared name b bs a as _ hb ha =>
    cases h' with
    | added _ hb' _ =>
      obtain rfl : _ = name := hname
      cases hb.symm.trans hb'
    | compared _ hb' ha' =>
      obtain rfl : _ = name := hname
      obtain ⟨rfl, -⟩ := List.cons.inj (hb.symm.trans hb')
      obtain ⟨rfl, -⟩ := List.cons.inj (ha.symm.trans ha')
      exact reorders_compared
    | removed _ _ ha' =>
      obtain rfl : _ = name := hname
      cases ha.symm.trans ha'
  | @removed name b bs _ hb ha =>
    cases h' with
    | added _ hb' _ =>
      obtain rfl : _ = name := hname
      cases hb.symm.trans hb'
    | compared _ _ ha' =>
      obtain rfl : _ = name := hname
      cases ha.symm.trans ha'
    | removed _ hb' _ =>
      obtain rfl : _ = name := hname
      obtain ⟨rfl, -⟩ := List.cons.inj (hb.symm.trans hb')
      exact ⟨rfl, rfl, rfl, rfl, rfl, .refl _, .refl _, .refl _⟩

/-- **The change of a name the other way round.** -/
theorem ChangeOf.mirrors {nc nc' : NodeChange} (h : ChangeOf order before after nc)
    (h' : ChangeOf order' after before nc') (hname : nc'.name = nc.name) : nc.Mirrors nc' := by
  cases h with
  | @added name a as _ hb ha =>
    cases h' with
    | added _ ha' _ =>
      obtain rfl : _ = name := hname
      cases ha.symm.trans ha'
    | compared _ _ hb' =>
      obtain rfl : _ = name := hname
      cases hb.symm.trans hb'
    | removed _ ha' _ =>
      obtain rfl : _ = name := hname
      obtain ⟨rfl, -⟩ := List.cons.inj (ha.symm.trans ha')
      exact ⟨rfl, rfl, rfl, rfl, fun _ => rfl, by rintro (⟨⟨⟩⟩ | ⟨⟨⟩⟩), by rintro (⟨⟨⟩⟩ | ⟨⟨⟩⟩),
        by rintro (⟨⟨⟩⟩ | ⟨⟨⟩⟩)⟩
  | @compared name b bs a as _ hb ha =>
    cases h' with
    | added _ ha' _ =>
      obtain rfl : _ = name := hname
      cases ha.symm.trans ha'
    | compared _ ha' hb' =>
      obtain rfl : _ = name := hname
      obtain ⟨rfl, -⟩ := List.cons.inj (hb.symm.trans hb')
      obtain ⟨rfl, -⟩ := List.cons.inj (ha.symm.trans ha')
      exact mirrors_compared
    | removed _ _ hb' =>
      obtain rfl : _ = name := hname
      cases hb.symm.trans hb'
  | @removed name b bs _ hb ha =>
    cases h' with
    | added _ _ hb' =>
      obtain rfl : _ = name := hname
      obtain ⟨rfl, -⟩ := List.cons.inj (hb.symm.trans hb')
      exact ⟨rfl, rfl, rfl, rfl, fun _ => rfl, by rintro (⟨⟨⟩⟩ | ⟨⟨⟩⟩), by rintro (⟨⟨⟩⟩ | ⟨⟨⟩⟩),
        by rintro (⟨⟨⟩⟩ | ⟨⟨⟩⟩)⟩
    | compared _ ha' _ =>
      obtain rfl : _ = name := hname
      cases ha.symm.trans ha'
    | removed _ ha' _ =>
      obtain rfl : _ = name := hname
      cases ha.symm.trans ha'

end Changes

/-! ## Two diffs -/

section Diffs

variable {order order' : IterationOrder} {before after before' after' : List Node}
  {R : NodeChange → NodeChange → Prop}

/-- Diffs over the same names pair up, by a relation between changes of one name. -/
theorem diffs_pair (hR : ∀ nc nc', R nc nc' → nc'.name = nc.name)
    (hnames : ∀ name, name ∈ (diffNodeGraphs order before after).changes.map NodeChange.name ↔
      name ∈ (diffNodeGraphs order' before' after').changes.map NodeChange.name)
    (hchange : ∀ nc nc', ChangeOf order before after nc → ChangeOf order' before' after' nc' →
      nc'.name = nc.name → R nc nc') :
    Pairs R (diffNodeGraphs order before after).changes (diffNodeGraphs order' before' after').changes := by
  refine .of_keys nodup_names_changes nodup_names_changes hR (fun nc hnc => ?_) fun nc' hnc' => ?_
  · obtain ⟨nc', hnc', hname⟩ := List.mem_map.mp ((hnames nc.name).mp (List.mem_map_of_mem hnc))
    exact ⟨nc', hnc', hchange nc nc' (changeOf_of_mem hnc) (changeOf_of_mem hnc') hname⟩
  · exact (hnames nc'.name).mpr (List.mem_map_of_mem hnc')

end Diffs

/-- **The order of iteration only reorders a diff**: whatever the orders in which the unordered maps are
visited, two diffs of the same tables list the same changes, and count the same. -/
theorem diff_reordered (order order' : IterationOrder) (before after : List Node) :
    let diff := diffNodeGraphs order before after
    let diff' := diffNodeGraphs order' before after
    Pairs NodeChange.Reorders diff.changes diff'.changes ∧ diff'.nodesAdded = diff.nodesAdded ∧
      diff'.nodesRemoved = diff.nodesRemoved ∧ diff'.nodesModified = diff.nodesModified ∧
      diff'.totalFieldChanges = diff.totalFieldChanges := by
  intro diff diff'
  have hcounts : diff.Consistent := diffNodeGraphs_consistent order before after
  have hcounts' : diff'.Consistent := diffNodeGraphs_consistent order' before after
  have hpairs : Pairs NodeChange.Reorders diff.changes diff'.changes :=
    diffs_pair (fun _ _ h => h.name) (fun _ => mem_names_changes.trans mem_names_changes.symm)
      fun _ _ h h' => h.reorders h'
  have hkind (k : NodeChangeKind) (nc nc' : NodeChange) (h : nc.Reorders nc') :
      decide (nc'.change = k) = decide (nc.change = k) := by rw [h.change]
  refine ⟨hpairs, ?_, ?_, ?_, ?_⟩
  · rw [hcounts.added, hcounts'.added, hpairs.countP_eq (hkind .added)]
  · rw [hcounts.removed, hcounts'.removed, hpairs.countP_eq (hkind .removed)]
  · rw [hcounts.modified, hcounts'.modified, hpairs.countP_eq (hkind .modified)]
  · rw [hcounts.fieldChanges, hcounts'.fieldChanges,
      (hpairs.filter (hkind .modified)).sum_eq fun nc nc' h => h.1.fieldChanges.length_eq]

/-- **A diff the other way round**: it lists each change mirrored, and counts what is added as removed and
what is removed as added, whatever the orders of iteration. -/
theorem diff_mirrored (order order' : IterationOrder) (before after : List Node) :
    let diff := diffNodeGraphs order before after
    let diff' := diffNodeGraphs order' after before
    Pairs NodeChange.Mirrors diff.changes diff'.changes ∧ diff'.nodesAdded = diff.nodesRemoved ∧
      diff'.nodesRemoved = diff.nodesAdded ∧ diff'.nodesModified = diff.nodesModified ∧
      diff'.totalFieldChanges = diff.totalFieldChanges := by
  intro diff diff'
  have hcounts : diff.Consistent := diffNodeGraphs_consistent order before after
  have hcounts' : diff'.Consistent := diffNodeGraphs_consistent order' after before
  have hpairs : Pairs NodeChange.Mirrors diff.changes diff'.changes :=
    diffs_pair (fun _ _ h => h.name) (fun _ => mem_names_changes.trans (or_comm.trans mem_names_changes.symm))
      fun _ _ h h' => h.mirrors h'
  have hkind (k : NodeChangeKind) (nc nc' : NodeChange) (h : nc.Mirrors nc') :
      decide (nc'.change = k.mirror) = decide (nc.change = k) := by
    have hiff : nc.change.mirror = k.mirror ↔ nc.change = k :=
      ⟨fun heq => by rw [← nc.change.mirror_mirror, heq, k.mirror_mirror], fun heq => by rw [heq]⟩
    rw [h.change]
    exact decide_eq_decide.mpr hiff
  refine ⟨hpairs, ?_, ?_, ?_, ?_⟩
  · rw [hcounts.removed, hcounts'.added]
    exact congrArg _ (hpairs.countP_eq (hkind .removed))
  · rw [hcounts.added, hcounts'.removed]
    exact congrArg _ (hpairs.countP_eq (hkind .added))
  · rw [hcounts.modified, hcounts'.modified]
    exact congrArg _ (hpairs.countP_eq (hkind .modified))
  · rw [hcounts.fieldChanges, hcounts'.fieldChanges]
    refine congrArg _ ((hpairs.filter (hkind .modified)).sum_eq fun nc nc' h => ?_)
    rw [(h.1.fieldChanges (.inl (of_decide_eq_true h.2))).length_eq, List.length_map]

end Stratavm
