import Mathlib.Algebra.Order.BigOperators.Group.List
import Stratavm.Diff.Names

/-!
# A diff is exact

`ChangeExact` says what a change has to say of the alive nodes of its name: whether there is one in
either table, and where there are two, what they differ in. Where no table has two alive nodes of one
name, `diff_node_graphs` makes one such change for each name, and counts them.

What two nodes differ in is said without the loops that find it: a field change for each field that is set
in one of them only, or to values that do not compare equal (`Differ`), and the names of children that only
one of them has (`ComparedExact`).

* **`diffNodeGraphs_exact`**: so it does, in whatever order its maps are iterated, but that the counter of
  field changes is taken modulo `2 ^ 32`.
* `totalFieldChanges_wraps`: a node with `2 ^ 32` fields more counts none.
* **`selfDiff_iff`**: a table differs from itself iff a node that is compared holds a NaN.

Out of scope: names of several alive nodes, of which only the first is compared (`Diff/Names.lean`).
-/

namespace Stratavm

open Lib

/-! ## The alive node of a name -/

/-- `n` is an alive node of a proper name. -/
def Named (nodes : List Node) (name : AtomId) (n : Node) : Prop :=
  n ∈ nodes ∧ n.alive = true ∧ n.name = name ∧ name ≠ kInvalidAtom

/-- Alive nodes of proper names have different names. -/
def UniqueNames (nodes : List Node) : Prop :=
  nodes.Pairwise fun m n => m.alive = true → n.alive = true → m.name = n.name → m.name = kInvalidAtom

instance (nodes : List Node) : Decidable (UniqueNames nodes) :=
  inferInstanceAs (Decidable (List.Pairwise _ _))

section Named

variable {nodes : List Node} {name : AtomId} {n : Node}

theorem named_of_namesakes {ns : List Node} (hname : name ≠ kInvalidAtom)
    (h : namesakes nodes name = n :: ns) : Named nodes name n := by
  obtain ⟨hn, halive, hsame⟩ := mem_namesakes.mp (h ▸ List.mem_cons_self)
  exact ⟨hn, halive, hsame, hname⟩

theorem not_named_of_namesakes (h : namesakes nodes name = []) : ¬ Named nodes name n := by
  rintro ⟨hn, halive, hsame, -⟩
  have hmem : n ∈ namesakes nodes name := mem_namesakes.mpr ⟨hn, halive, hsame⟩
  rw [h] at hmem
  cases hmem

theorem namesakes_ne_nil_iff (hname : name ≠ kInvalidAtom) :
    namesakes nodes name ≠ [] ↔ ∃ n, Named nodes name n := by
  constructor
  · intro h
    obtain ⟨n, ns, hns⟩ := List.exists_cons_of_ne_nil h
    exact ⟨n, named_of_namesakes hname hns⟩
  · rintro ⟨n, hn⟩ h
    exact not_named_of_namesakes h hn

/-- There is one at most. -/
theorem UniqueNames.namesakes_eq (h : UniqueNames nodes) (hn : Named nodes name n) :
    namesakes nodes name = [n] := by
  obtain ⟨hmem, halive, hsame, hname⟩ := hn
  have hpair : (namesakes nodes name).Pairwise fun m n =>
      m.alive = true → n.alive = true → m.name = n.name → m.name = kInvalidAtom :=
    List.Pairwise.filter _ h
  have hin : n ∈ namesakes nodes name := mem_namesakes.mpr ⟨hmem, halive, hsame⟩
  cases hns : namesakes nodes name with
  | nil =>
    rw [hns] at hin
    cases hin
  | cons m ms =>
    obtain ⟨-, hm, hmname⟩ := mem_namesakes.mp (hns ▸ List.mem_cons_self)
    have hone : ms = [] := by
      refine List.eq_nil_iff_forall_not_mem.mpr fun k hk => ?_
      obtain ⟨-, hkalive, hkname⟩ := mem_namesakes.mp (hns ▸ List.mem_cons_of_mem m hk)
      rw [hns, List.pairwise_cons] at hpair
      have hinvalid := hpair.1 k hk hm hkalive (hmname.trans hkname.symm)
      exact hname (hmname.symm.trans hinvalid)
    rw [hns, hone] at hin
    rw [hone, List.mem_singleton.mp hin]

end Named

/-! ## One change -/

/-- A field that is set in one node only, or to values that are not equal. -/
def Differ : Option Value → Option Value → Prop
  | none, none => False
  | some w, some v => valuesEqual w v = false
  | some _, none | none, some _ => True

/-- A change of a field from its value in `b` to its value in `a`, `Invalid` where it is not set. -/
structure FieldExact (b a : Node) (fc : FieldChange) : Prop where
  differ : Differ (b.field fc.fieldIdx) (a.field fc.fieldIdx)
  before : fc.before = (b.field fc.fieldIdx).getD .invalid
  after : fc.after = (a.field fc.fieldIdx).getD .invalid

/-- What is said of two nodes of one name. -/
structure ComparedExact (before after : List Node) (b a : Node) (nc : NodeChange) : Prop where
  change : nc.change = .modified ∨ nc.change = .unchanged
  unchanged : nc.change = .unchanged ↔ Node.Matches before after b a
  nodup_fields : (nc.fieldChanges.map FieldChange.fieldIdx).Nodup
  fields : ∀ fc, fc ∈ nc.fieldChanges ↔ FieldExact b a fc
  nodup_added : nc.childrenAdded.Nodup
  added : ∀ c, c ∈ nc.childrenAdded ↔
    c ∈ childNames after a.children ∧ c ∉ childNames before b.children
  nodup_removed : nc.childrenRemoved.Nodup
  removed : ∀ c, c ∈ nc.childrenRemoved ↔
    c ∈ childNames before b.children ∧ c ∉ childNames after a.children

/-- What a change says of the nodes of its name. -/
structure ChangeExact (before after : List Node) (nc : NodeChange) : Prop where
  added : (∀ b, ¬ Named before nc.name b) → nc.change = .added
  removed : (∀ a, ¬ Named after nc.name a) → nc.change = .removed
  compared : ∀ b a, Named before nc.name b → Named after nc.name a →
    ComparedExact before after b a nc

section Changes

variable {order : IterationOrder} {before after : List Node} {name : AtomId} {b a : Node}

/-- The field changes of two nodes are the exact ones. -/
theorem mem_fieldDifferences_iff {fc : FieldChange} :
    fc ∈ fieldDifferences order name b a ↔ FieldExact b a fc := by
  rw [mem_fieldDifferences]
  constructor
  · rintro (⟨f, v, hv, ⟨hb, rfl⟩ | ⟨w, hw, hne, rfl⟩⟩ | ⟨f, w, hw, ha, rfl⟩)
    · exact ⟨by simp [Differ, hb, hv], by simp [hb], by simp [hv]⟩
    · exact ⟨by simp [Differ, hw, hv, hne], by simp [hw], by simp [hv]⟩
    · exact ⟨by simp [Differ, hw, ha], by simp [hw], by simp [ha]⟩
  · rintro ⟨hdiffer, hbefore, hafter⟩
    obtain ⟨f, w, v⟩ := fc
    dsimp only at hdiffer hbefore hafter
    cases hb : b.field f with
    | none =>
      cases ha : a.field f with
      | none =>
        rw [hb, ha] at hdiffer
        exact hdiffer.elim
      | some v' =>
        rw [hb] at hbefore
        rw [ha] at hafter
        obtain rfl := hbefore
        obtain rfl := hafter
        exact .inl ⟨f, _, ha, .inl ⟨hb, rfl⟩⟩
    | some w' =>
      rw [hb] at hbefore
      obtain rfl := hbefore
      cases ha : a.field f with
      | none =>
        rw [ha] at hafter
        obtain rfl := hafter
        exact .inr ⟨f, _, hb, ha, rfl⟩
      | some v' =>
        rw [ha] at hafter
        obtain rfl := hafter
        rw [hb, ha] at hdiffer
        exact .inl ⟨f, _, ha, .inr ⟨_, hb, hdiffer, rfl⟩⟩

theorem comparedChange_exact :
    ComparedExact before after b a (comparedChange order before after name b a) where
  change := compared_change ..
  unchanged := comparedChange_unchanged_iff
  nodup_fields := nodup_fieldDifferences
  fields := fun _ => mem_fieldDifferences_iff
  nodup_added := (order.nodup ..).filter _
  added := fun _ => mem_childrenAdded
  nodup_removed := (order.nodup ..).filter _
  removed := fun _ => mem_childrenRemoved

/-- **Every change of a diff is exact.** -/
theorem changeExact_of_mem (hbefore : UniqueNames before) (hafter : UniqueNames after)
    {nc : NodeChange} (hnc : nc ∈ (diffNodeGraphs order before after).changes) :
    ChangeExact before after nc := by
  cases changeOf_of_mem hnc with
  | added hname hb ha =>
    exact ⟨fun _ => rfl, fun hnone => absurd (named_of_namesakes hname ha) (hnone _),
      fun _ _ hb' => absurd hb' (not_named_of_namesakes hb)⟩
  | @compared name b bs a as hname hb ha =>
    refine ⟨fun hnone => absurd (named_of_namesakes hname hb) (hnone _),
      fun hnone => absurd (named_of_namesakes hname ha) (hnone _), fun b' a' hb' ha' => ?_⟩
    obtain ⟨rfl, -⟩ := List.cons.inj (hb.symm.trans (hbefore.namesakes_eq hb'))
    obtain ⟨rfl, -⟩ := List.cons.inj (ha.symm.trans (hafter.namesakes_eq ha'))
    exact comparedChange_exact
  | removed hname hb ha =>
    exact ⟨fun hnone => absurd (named_of_namesakes hname hb) (hnone _), fun _ => rfl,
      fun _ _ _ ha' => absurd ha' (not_named_of_namesakes ha)⟩

/-- The names of a diff are those of either table. -/
theorem mem_names_changes : name ∈ (diffNodeGraphs order before after).changes.map NodeChange.name ↔
    (∃ b, Named before name b) ∨ ∃ a, Named after name a := by
  constructor
  · intro h
    obtain ⟨nc, hnc, rfl⟩ := List.mem_map.mp h
    cases changeOf_of_mem hnc with
    | added hname _ ha => exact .inr ⟨_, named_of_namesakes hname ha⟩
    | compared hname hb _ => exact .inl ⟨_, named_of_namesakes hname hb⟩
    | removed hname hb _ => exact .inl ⟨_, named_of_namesakes hname hb⟩
  · intro h
    have hname : name ≠ kInvalidAtom := by
      rcases h with ⟨_, -, -, -, hname⟩ | ⟨_, -, -, -, hname⟩
      · exact hname
      · exact hname
    rw [← namesakes_ne_nil_iff hname, ← namesakes_ne_nil_iff hname] at h
    obtain ⟨nc, hnc, rfl⟩ : ∃ nc ∈ (diffNodeGraphs order before after).changes, nc.name = name :=
      exists_change hname h
    exact List.mem_map_of_mem hnc

/-- There are fewer proper names than 32-bit numbers. -/
theorem length_changes_lt : (diffNodeGraphs order before after).changes.length < 2 ^ 32 := by
  have hnodup : ((diffNodeGraphs order before after).changes.map NodeChange.name).Nodup :=
    nodup_names_changes
  have hbelow : ((diffNodeGraphs order before after).changes.map NodeChange.name).map UInt32.toNat ⊆
      List.range (2 ^ 32 - 1) := by
    intro k hk
    obtain ⟨name, hname, rfl⟩ := List.mem_map.mp hk
    have hproper : name ≠ kInvalidAtom := by
      rcases mem_names_changes.mp hname with ⟨_, -, -, -, hproper⟩ | ⟨_, -, -, -, hproper⟩
      · exact hproper
      · exact hproper
    have hne : name.toNat ≠ 2 ^ 32 - 1 := fun heq => hproper (UInt32.toNat_inj.mp heq)
    have hlt := name.toNat_lt
    exact List.mem_range.mpr (by omega)
  have hle := ((hnodup.map fun _ _ => UInt32.toNat_inj.mp).subperm hbelow).length_le
  rw [List.length_map, List.length_map, List.length_range] at hle
  omega

end Changes

/-- **A diff is exact**, but that its counter of field changes is taken modulo `2 ^ 32`. -/
theorem diffNodeGraphs_exact (order : IterationOrder) {before after : List Node}
    (hbefore : UniqueNames before) (hafter : UniqueNames after) :
    let diff := diffNodeGraphs order before after
    (diff.changes.map NodeChange.name).Nodup ∧
      (∀ name, name ∈ diff.changes.map NodeChange.name ↔
        (∃ b, Named before name b) ∨ ∃ a, Named after name a) ∧
      (∀ nc ∈ diff.changes, ChangeExact before after nc) ∧
      diff.nodesAdded.toNat = diff.changes.countP (fun nc => nc.change = .added) ∧
      diff.nodesRemoved.toNat = diff.changes.countP (fun nc => nc.change = .removed) ∧
      diff.nodesModified.toNat = diff.changes.countP (fun nc => nc.change = .modified) ∧
      diff.totalFieldChanges.toNat = ((diff.changes.filter fun nc => nc.change = .modified).map
        fun nc => nc.fieldChanges.length).sum % 2 ^ 32 := by
  intro diff
  have hcounts : diff.Consistent := diffNodeGraphs_consistent order before after
  have hfits : ∀ p : NodeChange → Bool,
      (UInt32.ofNat (diff.changes.countP p)).toNat = diff.changes.countP p := by
    intro p
    have hlt : diff.changes.length < 2 ^ 32 := length_changes_lt
    exact toNat_ofNat_of_lt (Nat.lt_of_le_of_lt List.countP_le_length hlt)
  refine ⟨nodup_names_changes, fun _ => mem_names_changes,
    fun _ hnc => changeExact_of_mem hbefore hafter hnc, ?_, ?_, ?_, ?_⟩
  · rw [hcounts.added]
    exact hfits _
  · rw [hcounts.removed]
    exact hfits _
  · rw [hcounts.modified]
    exact hfits _
  · rw [hcounts.fieldChanges]
    exact UInt32.toNat_ofNat'

/-! ## The counter of field changes -/

/-- The first `n` fields, all set to zero. -/
def fieldsBelow (n : Nat) : UMap FieldId Value :=
  (List.range n).foldl (fun fields i => fields.insert (UInt32.ofNat i) (.int 0)) ∅

theorem lookup_fieldsBelow {n : Nat} {f : FieldId} (h : f.toNat < n) :
    (fieldsBelow n).lookup f = some (.int 0) := by
  induction n with
  | zero => exact absurd h (Nat.not_lt_zero _)
  | succ n ih =>
    have hstep : fieldsBelow (n + 1) = (fieldsBelow n).insert (UInt32.ofNat n) (.int 0) := by
      unfold fieldsBelow
      rw [List.range_succ, List.foldl_append]
      rfl
    rw [hstep]
    by_cases hf : f = UInt32.ofNat n
    · rw [hf, Finmap.lookup_insert]
    · have hne : f.toNat ≠ n := by
        intro heq
        rw [← heq, UInt32.ofNat_toNat] at hf
        exact hf rfl
      rw [Finmap.lookup_insert_of_ne _ hf]
      exact ih (by omega)

/-- A node without fields. -/
def bareNode : Node := { id := 0, kind := 0, name := 0 }

/-- The node with them. -/
def filledNode (n : Nat) : Node := { bareNode with fields := fieldsBelow n }

theorem field_bareNode (f : FieldId) : bareNode.field f = none := Finmap.lookup_empty f

theorem field_filledNode {n : Nat} {f : FieldId} (h : f.toNat < n) :
    (filledNode n).field f = some (.int 0) := lookup_fieldsBelow h

/-- Tables of one alive node each, of one name. -/
theorem exists_comparedExact (order : IterationOrder) {b a : Node} (hb : b.alive = true)
    (ha : a.alive = true) (hname : b.name = a.name) (hproper : a.name ≠ kInvalidAtom) :
    ∃ nc ∈ (diffNodeGraphs order [b] [a]).changes, ComparedExact [b] [a] b a nc := by
  have hbefore : Named [b] a.name b := ⟨List.mem_cons_self, hb, hname, hproper⟩
  have hafter : Named [a] a.name a := ⟨List.mem_cons_self, ha, rfl, hproper⟩
  obtain ⟨nc, hnc, hsame⟩ : ∃ nc ∈ (diffNodeGraphs order [b] [a]).changes, nc.name = a.name :=
    exists_change hproper (.inl ((namesakes_ne_nil_iff hproper).mpr ⟨b, hbefore⟩))
  have hexact : ChangeExact [b] [a] nc :=
    changeExact_of_mem (List.pairwise_singleton ..) (List.pairwise_singleton ..) hnc
  exact ⟨nc, hnc, hexact.compared b a (hsame.symm ▸ hbefore) (hsame.symm ▸ hafter)⟩

/-- Filling the bare node is one modification, of as many fields. -/
theorem exists_filled (order : IterationOrder) {n : Nat} (hpos : 0 < n) (hn : n ≤ 2 ^ 32) :
    ∃ nc ∈ (diffNodeGraphs order [bareNode] [filledNode n]).changes,
      nc.change = .modified ∧ n ≤ nc.fieldChanges.length := by
  obtain ⟨nc, hnc, hcompared⟩ :
      ∃ nc ∈ (diffNodeGraphs order [bareNode] [filledNode n]).changes,
        ComparedExact [bareNode] [filledNode n] bareNode (filledNode n) nc :=
    exists_comparedExact order rfl rfl rfl (show (0 : AtomId) ≠ kInvalidAtom by decide)
  refine ⟨nc, hnc, hcompared.change.resolve_right fun hunchanged => ?_, ?_⟩
  · have hzero : (0 : FieldId).toNat < n := hpos
    obtain ⟨w, hw, -⟩ := (hcompared.unchanged.mp hunchanged).set 0 _ (field_filledNode hzero)
    rw [field_bareNode] at hw
    cases hw
  · have hnodup : ((List.range n).map UInt32.ofNat).Nodup := by
      refine List.Nodup.map_on (fun i hi j hj heq => ?_) List.nodup_range
      rw [List.mem_range] at hi hj
      rw [← toNat_ofNat_of_lt (Nat.lt_of_lt_of_le hi hn), heq,
        toNat_ofNat_of_lt (Nat.lt_of_lt_of_le hj hn)]
    have hlisted : (List.range n).map UInt32.ofNat ⊆ nc.fieldChanges.map FieldChange.fieldIdx := by
      intro f hf
      obtain ⟨i, hi, rfl⟩ := List.mem_map.mp hf
      rw [List.mem_range] at hi
      have hfilled : (filledNode n).field (UInt32.ofNat i) = some (.int 0) := by
        refine field_filledNode ?_
        rwa [toNat_ofNat_of_lt (Nat.lt_of_lt_of_le hi hn)]
      refine List.mem_map.mpr
        ⟨⟨UInt32.ofNat i, .invalid, .int 0⟩, (hcompared.fields _).mpr ⟨?_, ?_, ?_⟩, rfl⟩
      · simp [Differ, field_bareNode, hfilled]
      · simp [field_bareNode]
      · simp [hfilled]
    have hle := (hnodup.subperm hlisted).length_le
    rwa [List.length_map, List.length_map, List.length_range] at hle

theorem diffNodeGraphs_exact_oneField : ∃ order : IterationOrder,
    ∀ nc ∈ (diffNodeGraphs order [bareNode] [filledNode 1]).changes,
      ChangeExact [bareNode] [filledNode 1] nc := by
  obtain ⟨order⟩ := exists_iterationOrder
  have hbefore : UniqueNames [bareNode] := List.pairwise_singleton ..
  have hafter : UniqueNames [filledNode 1] := List.pairwise_singleton ..
  exact ⟨order, (diffNodeGraphs_exact order hbefore hafter).2.2.1⟩

/-- All `2 ^ 32` fields of a node set: more field changes than the counter can say. -/
theorem totalFieldChanges_wraps : ¬ ∀ (order : IterationOrder) (before after : List Node),
    UniqueNames before → UniqueNames after →
      let diff := diffNodeGraphs order before after
      diff.totalFieldChanges.toNat = ((diff.changes.filter fun nc => nc.change = .modified).map
        fun nc => nc.fieldChanges.length).sum := by
  intro h
  obtain ⟨order⟩ := exists_iterationOrder
  have htotal := h order [bareNode] [filledNode (2 ^ 32)] (List.pairwise_singleton ..)
    (List.pairwise_singleton ..)
  obtain ⟨nc, hnc, hmodified, hlength⟩ := exists_filled order (n := 2 ^ 32) (by decide) (Nat.le_refl _)
  dsimp only at htotal
  generalize diffNodeGraphs order [bareNode] [filledNode (2 ^ 32)] = diff at htotal hnc
  have hmem : nc ∈ diff.changes.filter fun nc => nc.change = .modified :=
    List.mem_filter.mpr ⟨hnc, decide_eq_true hmodified⟩
  have hsum : nc.fieldChanges.length ≤ ((diff.changes.filter fun nc => nc.change = .modified).map
      fun nc => nc.fieldChanges.length).sum := List.le_sum_of_mem (List.mem_map_of_mem hmem)
  have hlt := diff.totalFieldChanges.toNat_lt
  omega

/-! ## A table against itself -/

/-- Whether a value is a number that does not equal itself. -/
def Value.HoldsNaN : Value → Prop
  | .float bits => isNaN bits = true
  | _ => False

theorem valuesEqual_self_iff (v : Value) : valuesEqual v v = true ↔ ¬ v.HoldsNaN := by
  cases v with
  | float bits =>
    show doubleEq bits bits = true ↔ ¬ isNaN bits = true
    unfold doubleEq
    cases isNaN bits <;> simp
  | int | atom | ref | list => exact iff_of_true (beq_self_eq_true _) id
  | invalid => exact iff_of_true rfl id

/-- A diff without a difference. -/
structure GraphDiff.Clean (diff : GraphDiff) : Prop where
  added : diff.nodesAdded = 0
  removed : diff.nodesRemoved = 0
  modified : diff.nodesModified = 0
  fieldChanges : diff.totalFieldChanges = 0
  unchanged : ∀ nc ∈ diff.changes, nc.change = .unchanged

theorem GraphDiff.Consistent.clean {diff : GraphDiff} (h : diff.Consistent)
    (hunchanged : ∀ nc ∈ diff.changes, nc.change = .unchanged) : diff.Clean := by
  have hnone : ∀ kind : NodeChangeKind, kind ≠ .unchanged →
      diff.changes.countP (fun nc => nc.change = kind) = 0 := by
    intro kind hkind
    refine List.countP_eq_zero.mpr fun nc hnc heq => ?_
    exact hkind ((of_decide_eq_true heq).symm.trans (hunchanged nc hnc))
  have hfiltered : (diff.changes.filter fun nc => nc.change = .modified) = [] := by
    rw [← List.length_eq_zero_iff, ← List.countP_eq_length_filter]
    exact hnone .modified nofun
  refine ⟨?_, ?_, ?_, ?_, hunchanged⟩
  · rw [h.added, hnone .added nofun]
    rfl
  · rw [h.removed, hnone .removed nofun]
    rfl
  · rw [h.modified, hnone .modified nofun]
    rfl
  · rw [h.fieldChanges, hfiltered]
    rfl

/-- A node matches itself iff it holds no NaN. -/
theorem Node.matches_self_iff {g : List Node} {n : Node} :
    Node.Matches g g n n ↔ ∀ f v, n.field f = some v → ¬ v.HoldsNaN := by
  constructor
  · intro h f v hv
    obtain ⟨w, hw, heq⟩ := h.set f v hv
    obtain rfl := Option.some.inj (hv.symm.trans hw)
    exact (valuesEqual_self_iff v).mp heq
  · intro h
    exact ⟨rfl, fun f v hv => ⟨v, hv, (valuesEqual_self_iff v).mpr (h f v hv)⟩, fun _ hf => hf,
      fun _ => Iff.rfl⟩

/-- **A table against itself**: no difference iff the first alive node of each proper name holds no
NaN. -/
theorem selfDiff_iff (order : IterationOrder) (g : List Node) :
    (diffNodeGraphs order g g).Clean ↔
      ∀ name ≠ kInvalidAtom, ∀ n ∈ (namesakes g name).head?, ∀ f v, n.field f = some v →
        ¬ v.HoldsNaN := by
  constructor
  · intro hclean name hname n hn
    obtain ⟨ns, hns⟩ := List.head?_eq_some_iff.mp hn
    obtain ⟨nc, hnc, rfl⟩ : ∃ nc ∈ (diffNodeGraphs order g g).changes, nc.name = name :=
      exists_change hname (.inl (hns ▸ List.cons_ne_nil n ns))
    have hunchanged := hclean.unchanged nc hnc
    cases changeOf_of_mem hnc with
    | added => cases hunchanged
    | removed => cases hunchanged
    | compared _ hb ha =>
      obtain ⟨rfl, -⟩ := List.cons.inj (hb.symm.trans hns)
      obtain ⟨rfl, -⟩ := List.cons.inj (ha.symm.trans hns)
      exact Node.matches_self_iff.mp (comparedChange_unchanged_iff.mp hunchanged)
  · intro h
    refine (diffNodeGraphs_consistent order g g).clean (unchanged_of_matched fun name hname => ?_)
    cases hns : namesakes g name with
    | nil => exact .absent hns hns
    | cons n ns =>
      refine .present hns hns (Node.matches_self_iff.mpr (h name hname n ?_))
      rw [hns]
      rfl

/-- A node that holds a NaN. -/
def nanNode : Node := bareNode.setField 0 (.float 0x7FF8000000000000)

theorem selfDiff_nan : ¬ ∀ (order : IterationOrder) (g : List Node),
    (diffNodeGraphs order g g).Clean := by
  intro h
  obtain ⟨order⟩ := exists_iterationOrder
  obtain ⟨nc, hnc, hcompared⟩ := exists_comparedExact order (b := nanNode) (a := nanNode) rfl rfl rfl
    (by decide)
  have hmatches := hcompared.unchanged.mp ((h order [nanNode]).unchanged nc hnc)
  have hfield : nanNode.field 0 = some (.float 0x7FF8000000000000) :=
    (Node.field_setField ..).trans (if_pos rfl)
  exact Node.matches_self_iff.mp hmatches 0 _ hfield rfl

end Stratavm
