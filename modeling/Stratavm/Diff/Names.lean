import Stratavm.Diff.RoundTrip
import Stratavm.ReplayVm.NameIndex

/-!
# What a diff says of a name

`diff_node_graphs` compares, for each name, the first alive node of that name in either table:
`byName_lookup` reads it off the alive nodes of the name (`namesakes`). A diff has one change for each
name that is in one of the tables (`changes_diffNodeGraphs`), whatever the order of iteration.

* `comparedChange_unchanged_iff`: two nodes are `Unchanged` iff they match.
* **`unchanged_of_matched`**, `matched_of_unchanged`: tables match under every name iff a diff of them has
  no other change.

Out of scope: nodes without a name, and nodes behind the first of their name. No diff has a change of
them.
-/

namespace Stratavm

open Lib

/-- There is an order of iteration. -/
theorem exists_iterationOrder : Nonempty IterationOrder := by
  choose entries hnodup hmem using fun V : Type => UMap.exists_entries (K := UInt32) (V := V)
  exact ⟨⟨fun _ => entries _, fun _ => hnodup _, fun _ => hmem _⟩⟩

/-! ## Names -/

/-- `before_by_name` and `after_by_name` have the first alive node of each proper name. -/
theorem byName_lookup (nodes : List Node) (a : AtomId) :
    (byName nodes).lookup a = if a = kInvalidAtom then none else (namesakes nodes a).head? := by
  induction nodes using List.reverseRecOn with
  | nil =>
    show (∅ : UMap AtomId Node).lookup a = _
    simp [namesakes, Finmap.lookup_empty]
  | append_singleton nodes n ih =>
    have hstep : byName (nodes ++ [n]) =
        if n.alive = true ∧ n.name ≠ kInvalidAtom ∧ (byName nodes).lookup n.name = none then
          (byName nodes).insert n.name n else byName nodes := by
      unfold byName
      rw [List.foldl_append]
      rfl
    have hsakes : namesakes (nodes ++ [n]) a =
        namesakes nodes a ++ if n.alive = true ∧ n.name = a then [n] else [] := by
      unfold namesakes
      rw [List.filter_append]
      by_cases hn : n.alive = true ∧ n.name = a
      · simp [hn]
      · rw [if_neg hn]
        simpa [List.filter_cons] using hn
    rw [hstep, hsakes]
    by_cases ha : a = kInvalidAtom
    · rw [if_pos ha] at ih ⊢
      split
      · rename_i hn
        rw [Finmap.lookup_insert_of_ne _ fun heq => hn.2.1 (heq.symm.trans ha), ih]
      · exact ih
    · rw [if_neg ha] at ih
      rw [if_neg ha]
      by_cases hname : n.name = a
      · subst hname
        rw [ih]
        by_cases halive : n.alive = true
        · cases hs : namesakes nodes n.name with
          | nil => simp [halive, ha, Finmap.lookup_insert]
          | cons m ms => simp [ih, hs]
        · simp [halive, ih]
      · have hother : (if n.alive = true ∧ n.name = a then [n] else []) = [] :=
          if_neg fun hn => hname hn.2
        rw [hother, List.append_nil]
        split
        · rw [Finmap.lookup_insert_of_ne _ (Ne.symm hname), ih]
        · exact ih

theorem mem_childNameSet {nodes : List Node} {children : List NodeId} {c : AtomId} :
    (childNameSet nodes children).lookup c ≠ none ↔ c ∈ childNames nodes children := by
  unfold childNameSet
  suffices h : ∀ (names : List AtomId) (m : UMap AtomId Unit),
      (names.foldl (fun names name => names.insert name ()) m).lookup c ≠ none ↔
        c ∈ names ∨ m.lookup c ≠ none by
    rw [h, Finmap.lookup_empty]
    simp
  intro names
  induction names with
  | nil => simp
  | cons name names ih =>
    intro m
    rw [List.foldl_cons, ih, List.mem_cons, or_assoc, or_left_comm]
    refine or_congr_right ?_
    by_cases hc : c = name
    · subst hc
      simp [Finmap.lookup_insert]
    · rw [Finmap.lookup_insert_of_ne _ hc]
      simp [hc]

/-! ## Matching nodes -/

/-- Two nodes with nothing to report: one kind, equal fields, and children of the same names. -/
structure Node.Matches (before after : List Node) (b a : Node) : Prop where
  kind : b.kind = a.kind
  set : ∀ f v, a.field f = some v → ∃ w, b.field f = some w ∧ valuesEqual w v = true
  unset : ∀ f, a.field f = none → b.field f = none
  children : ∀ c, c ∈ childNames before b.children ↔ c ∈ childNames after a.children

/-- The tables match under a name. -/
inductive Matched (before after : List Node) (name : AtomId) : Prop
  | absent (hb : namesakes before name = []) (ha : namesakes after name = [])
  | present {b a bs as} (hb : namesakes before name = b :: bs) (ha : namesakes after name = a :: as)
      (hmatch : Node.Matches before after b a)

section Compare

variable {order : IterationOrder} {before after : List Node} {name : AtomId} {b a : Node}

/-- What `diff_node_graphs` lists for two nodes: a field of the second that the first has not or has
otherwise, or a field that is gone. -/
theorem mem_fieldDifferences {fc : FieldChange} : fc ∈ fieldDifferences order name b a ↔
    (∃ f v, a.field f = some v ∧ ((b.field f = none ∧ fc = ⟨f, .invalid, v⟩) ∨
      ∃ w, b.field f = some w ∧ valuesEqual w v = false ∧ fc = ⟨f, w, v⟩)) ∨
    ∃ f w, b.field f = some w ∧ a.field f = none ∧ fc = ⟨f, w, .invalid⟩ := by
  unfold fieldDifferences
  rw [List.mem_append, List.mem_filterMap, List.mem_filterMap]
  refine or_congr ?_ ?_
  · rw [Prod.exists]
    refine exists_congr fun f => exists_congr fun v => ?_
    rw [order.mem_iff]
    refine and_congr_right fun _ => ?_
    have hfield : b.fields.lookup f = b.field f := rfl
    dsimp only
    rw [hfield]
    cases b.field f with
    | none =>
      constructor
      · exact fun h => .inl ⟨rfl, (Option.some.inj h).symm⟩
      · rintro (⟨-, rfl⟩ | ⟨w, hw, -⟩)
        · rfl
        · cases hw
    | some w =>
      show (if valuesEqual w v then none
        else some ({ fieldIdx := f, before := w, after := v } : FieldChange)) = some fc ↔ _
      constructor
      · intro h
        cases heq : valuesEqual w v with
        | true =>
          rw [heq] at h
          cases h
        | false =>
          rw [heq] at h
          exact .inr ⟨w, rfl, heq, (Option.some.inj h).symm⟩
      · rintro (⟨hb, -⟩ | ⟨w', hw, heq, rfl⟩)
        · cases hb
        · obtain rfl := Option.some.inj hw
          rw [heq]
          rfl
  · rw [Prod.exists]
    refine exists_congr fun f => exists_congr fun w => ?_
    rw [order.mem_iff]
    refine and_congr_right fun _ => ?_
    show (if a.field f = none then
      some ({ fieldIdx := f, before := w, after := .invalid } : FieldChange) else none) = some fc ↔ _
    by_cases ha : a.field f = none
    · rw [if_pos ha]
      exact ⟨fun h => ⟨ha, (Option.some.inj h).symm⟩, fun h => congrArg some h.2.symm⟩
    · rw [if_neg ha]
      refine ⟨?_, fun h => absurd h.1 ha⟩
      rintro ⟨⟩

theorem fieldDifferences_eq_nil_iff : fieldDifferences order name b a = [] ↔
    (∀ f v, a.field f = some v → ∃ w, b.field f = some w ∧ valuesEqual w v = true) ∧
      ∀ f, a.field f = none → b.field f = none := by
  rw [List.eq_nil_iff_forall_not_mem]
  constructor
  · intro h
    refine ⟨fun f v hv => ?_, fun f ha => ?_⟩
    · cases hb : b.field f with
      | none => exact absurd (mem_fieldDifferences.mpr (.inl ⟨f, v, hv, .inl ⟨hb, rfl⟩⟩)) (h _)
      | some w =>
        refine ⟨w, rfl, ?_⟩
        by_contra heq
        exact h _ (mem_fieldDifferences.mpr
          (.inl ⟨f, v, hv, .inr ⟨w, hb, Bool.eq_false_iff.mpr heq, rfl⟩⟩))
    · cases hb : b.field f with
      | none => rfl
      | some w => exact absurd (mem_fieldDifferences.mpr (.inr ⟨f, w, hb, ha, rfl⟩)) (h _)
  · rintro ⟨hset, hunset⟩ fc hfc
    rcases mem_fieldDifferences.mp hfc with ⟨f, v, hv, ⟨hb, -⟩ | ⟨w, hw, hne, -⟩⟩ | ⟨f, w, hw, ha, -⟩
    · obtain ⟨w, hw, -⟩ := hset f v hv
      rw [hw] at hb
      cases hb
    · obtain ⟨w', hw', heq⟩ := hset f v hv
      obtain rfl := Option.some.inj (hw.symm.trans hw')
      rw [heq] at hne
      cases hne
    · rw [hunset f ha] at hw
      cases hw

/-- A selection of entries, each with the key of its entry, has their keys in order. -/
theorem keys_filterMap_sublist {V W : Type} {select : UInt32 × V → Option W} {key : W → UInt32}
    (hkey : ∀ entry x, select entry = some x → key x = entry.1) (entries : List (UInt32 × V)) :
    ((entries.filterMap select).map key).Sublist (entries.map Prod.fst) := by
  induction entries with
  | nil => exact .slnil
  | cons entry entries ih =>
    cases hselect : select entry with
    | none =>
      rw [List.filterMap_cons_none hselect, List.map_cons]
      exact ih.cons _
    | some x =>
      rw [List.filterMap_cons_some hselect, List.map_cons, List.map_cons, hkey entry x hselect]
      exact ih.cons_cons _

/-- **A field is listed once.** -/
theorem nodup_fieldDifferences :
    ((fieldDifferences order name b a).map FieldChange.fieldIdx).Nodup := by
  unfold fieldDifferences
  rw [List.map_append, List.nodup_append]
  refine ⟨(order.nodup ..).sublist (keys_filterMap_sublist ?_ _),
    (order.nodup ..).sublist (keys_filterMap_sublist ?_ _), ?_⟩
  · rintro ⟨f, v⟩ fc hfc
    dsimp only at hfc
    split at hfc
    · exact congrArg FieldChange.fieldIdx (Option.some.inj hfc).symm
    · split at hfc
      · cases hfc
      · exact congrArg FieldChange.fieldIdx (Option.some.inj hfc).symm
  · rintro ⟨f, w⟩ fc hfc
    dsimp only at hfc
    split at hfc
    · exact congrArg FieldChange.fieldIdx (Option.some.inj hfc).symm
    · cases hfc
  · -- the first part lists fields that the second node has, the second part others
    rintro f hleft _ hright rfl
    obtain ⟨fc, hfc, rfl⟩ := List.mem_map.mp hleft
    obtain ⟨fc', hfc', hidx⟩ := List.mem_map.mp hright
    obtain ⟨⟨g, v⟩, hentry, hselect⟩ := List.mem_filterMap.mp hfc
    obtain ⟨⟨g', w⟩, -, hselect'⟩ := List.mem_filterMap.mp hfc'
    have hg : fc.fieldIdx = g := by
      dsimp only at hselect
      split at hselect
      · exact congrArg FieldChange.fieldIdx (Option.some.inj hselect).symm
      · split at hselect
        · cases hselect
        · exact congrArg FieldChange.fieldIdx (Option.some.inj hselect).symm
    dsimp only at hselect'
    split at hselect'
    · rename_i hnone
      obtain rfl := Option.some.inj hselect'
      have hsome := (order.mem_iff _ _ g v).mp hentry
      rw [← hg, ← hidx, hnone] at hsome
      cases hsome
    · cases hselect'

/-- The names of the children of one node that are not names of children of another. -/
theorem mem_childDifference (loop : DiffLoop) {nodes nodes' : List Node}
    {children children' : List NodeId} {c : AtomId} :
    c ∈ ((order.entries loop (childNameSet nodes children)).map Prod.fst).filter
        (fun c => ((childNameSet nodes' children').lookup c).isNone) ↔
      c ∈ childNames nodes children ∧ c ∉ childNames nodes' children' := by
  rw [List.mem_filter, Option.isNone_iff_eq_none, ← mem_childNameSet, ← mem_childNameSet, not_not]
  refine and_congr_left fun _ => ?_
  rw [List.mem_map]
  constructor
  · rintro ⟨⟨c', u⟩, hmem, rfl⟩
    rw [(order.mem_iff ..).mp hmem]
    exact Option.some_ne_none _
  · intro h
    obtain ⟨u, hu⟩ := Option.ne_none_iff_exists'.mp h
    exact ⟨(c, u), (order.mem_iff ..).mpr hu, rfl⟩

theorem mem_childrenAdded {c : AtomId} :
    c ∈ (comparedChange order before after name b a).childrenAdded ↔
      c ∈ childNames after a.children ∧ c ∉ childNames before b.children :=
  mem_childDifference _

theorem mem_childrenRemoved {c : AtomId} :
    c ∈ (comparedChange order before after name b a).childrenRemoved ↔
      c ∈ childNames before b.children ∧ c ∉ childNames after a.children :=
  mem_childDifference _

/-- **Two nodes are `Unchanged`** iff they match. -/
theorem comparedChange_unchanged_iff :
    (comparedChange order before after name b a).change = .unchanged ↔
      Node.Matches before after b a := by
  have hchange : (comparedChange order before after name b a).change = .unchanged ↔
      fieldDifferences order name b a = [] ∧
        (comparedChange order before after name b a).childrenAdded = [] ∧
        (comparedChange order before after name b a).childrenRemoved = [] ∧ b.kind = a.kind := by
    show (if fieldDifferences order name b a ≠ [] ∨
      (comparedChange order before after name b a).childrenAdded ≠ [] ∨
      (comparedChange order before after name b a).childrenRemoved ≠ [] ∨ b.kind ≠ a.kind then
        NodeChangeKind.modified else .unchanged) = .unchanged ↔ _
    split
    · rename_i h
      exact ⟨nofun, fun hall => by simp [hall] at h⟩
    · rename_i h
      push Not at h
      exact ⟨fun _ => h, fun _ => rfl⟩
  rw [hchange, fieldDifferences_eq_nil_iff, List.eq_nil_iff_forall_not_mem,
    List.eq_nil_iff_forall_not_mem]
  constructor
  · rintro ⟨⟨hset, hunset⟩, hadded, hremoved, hkind⟩
    refine ⟨hkind, hset, hunset, fun c => ⟨fun hb => ?_, fun ha => ?_⟩⟩
    · by_contra ha
      exact hremoved c (mem_childrenRemoved.mpr ⟨hb, ha⟩)
    · by_contra hb
      exact hadded c (mem_childrenAdded.mpr ⟨ha, hb⟩)
  · rintro ⟨hkind, hset, hunset, hchildren⟩
    refine ⟨⟨hset, hunset⟩, fun c hc => ?_, fun c hc => ?_, hkind⟩
    · obtain ⟨ha, hb⟩ := mem_childrenAdded.mp hc
      exact hb ((hchildren c).mpr ha)
    · obtain ⟨hb, ha⟩ := mem_childrenRemoved.mp hc
      exact ha ((hchildren c).mp hb)

/-! ## The changes of a diff -/

variable (order before after)

/-- The change of a name that `after` has. -/
def changeAfter (entry : AtomId × Node) : NodeChange :=
  match (byName before).lookup entry.1 with
  | none => addedChange order after entry.1 entry.2
  | some b => comparedChange order before after entry.1 b entry.2

/-- The changes of the names that `before` has and `after` has not. -/
def changesBefore (entries : List (AtomId × Node)) : List NodeChange :=
  (entries.filter fun entry => (byName after).lookup entry.1 = none).map fun entry =>
    removedChange entry.1 entry.2

/-- **The changes of a diff**: one for each name of either table, in the order of iteration. -/
theorem changes_diffNodeGraphs : (diffNodeGraphs order before after).changes =
    (order.entries .afterByName (byName after)).map (changeAfter order before after) ++
      changesBefore after (order.entries .beforeByName (byName before)) := by
  have hafter : ∀ (entries : List (AtomId × Node)) (diff : GraphDiff),
      (entries.foldl (diffAfter order before after) diff).changes =
        diff.changes ++ entries.map (changeAfter order before after) := by
    intro entries
    induction entries with
    | nil => exact fun diff => (List.append_nil _).symm
    | cons entry entries ih =>
      intro diff
      have hstep : (diffAfter order before after diff entry).changes =
          diff.changes ++ [changeAfter order before after entry] := by
        unfold diffAfter changeAfter
        cases (byName before).lookup entry.1 with
        | none => rfl
        | some b =>
          dsimp only
          split <;> rfl
      rw [List.foldl_cons, ih, hstep, List.append_assoc, List.map_cons, List.singleton_append]
  have hbefore : ∀ (entries : List (AtomId × Node)) (diff : GraphDiff),
      (entries.foldl (diffBefore after) diff).changes =
        diff.changes ++ changesBefore after entries := by
    intro entries
    induction entries with
    | nil => exact fun diff => (List.append_nil _).symm
    | cons entry entries ih =>
      intro diff
      rw [List.foldl_cons, ih]
      unfold diffBefore changesBefore
      by_cases hgone : (byName after).lookup entry.1 = none
      · rw [if_pos hgone, List.filter_cons_of_pos (by simpa using hgone), List.map_cons]
        exact List.append_assoc _ [_] _
      · rw [if_neg hgone, List.filter_cons_of_neg (by simpa using hgone)]
  unfold diffNodeGraphs
  rw [hbefore, hafter]
  rfl

variable {order before after}

/-- The entries of a loop over names are the first alive nodes. -/
theorem mem_entries_byName {loop : DiffLoop} {nodes : List Node} {entry : AtomId × Node} :
    entry ∈ order.entries loop (byName nodes) ↔
      entry.1 ≠ kInvalidAtom ∧ ∃ rest, namesakes nodes entry.1 = entry.2 :: rest := by
  obtain ⟨name, n⟩ := entry
  rw [order.mem_iff, byName_lookup]
  by_cases hname : name = kInvalidAtom
  · simp [hname]
  · rw [if_neg hname, List.head?_eq_some_iff]
    exact (and_iff_right hname).symm

theorem byName_lookup_eq_none {nodes : List Node} (hname : name ≠ kInvalidAtom) :
    (byName nodes).lookup name = none ↔ namesakes nodes name = [] := by
  rw [byName_lookup, if_neg hname, List.head?_eq_none_iff]

theorem byName_lookup_of_cons {nodes ns : List Node} {n : Node}
    (hname : name ≠ kInvalidAtom) (h : namesakes nodes name = n :: ns) :
    (byName nodes).lookup name = some n := by
  rw [byName_lookup, if_neg hname, h]
  rfl

/-- What a name is mapped to is the first alive node of it. -/
theorem cons_of_byName {nodes : List Node} {n : Node} (h : (byName nodes).lookup name = some n) :
    name ≠ kInvalidAtom ∧ ∃ ns, namesakes nodes name = n :: ns := by
  rw [byName_lookup] at h
  by_cases hname : name = kInvalidAtom
  · rw [if_pos hname] at h
    cases h
  · rw [if_neg hname, List.head?_eq_some_iff] at h
    exact ⟨hname, h⟩

theorem namesake_of_byName {nodes : List Node} {n : Node} (h : (byName nodes).lookup name = some n) :
    n ∈ namesakes nodes name := by
  obtain ⟨-, ns, hns⟩ := cons_of_byName h
  rw [hns]
  exact List.mem_cons_self

/-- The loop over the fields of a node has nothing to visit if there are none. -/
theorem entries_empty {V : Type} {loop : DiffLoop} {m : UMap UInt32 V} (h : m = ∅) :
    order.entries loop m = [] := by
  refine List.eq_nil_iff_forall_not_mem.mpr fun entry hentry => ?_
  have hlookup := (order.mem_iff loop m entry.1 entry.2).mp hentry
  rw [h, Finmap.lookup_empty] at hlookup
  cases hlookup

/-- A loop over one entry. -/
theorem entries_singleton {V : Type} {loop : DiffLoop} {m : UMap UInt32 V} {k : UInt32} {v : V}
    (h : ∀ k', m.lookup k' = if k' = k then some v else none) : order.entries loop m = [(k, v)] := by
  have hmem : ∀ entry, entry ∈ order.entries loop m ↔ entry = (k, v) := by
    rintro ⟨k', v'⟩
    rw [order.mem_iff, h]
    by_cases hk : k' = k
    · simp [hk, eq_comm]
    · simp [hk]
  have hnodup := (order.nodup loop m).of_map
  cases hentries : order.entries loop m with
  | nil =>
    rw [hentries] at hmem
    exact absurd ((hmem (k, v)).mpr rfl) List.not_mem_nil
  | cons entry entries =>
    rw [hentries] at hmem hnodup
    obtain rfl := (hmem entry).mp List.mem_cons_self
    refine congrArg _ (List.eq_nil_iff_forall_not_mem.mpr fun entry' hentry' => ?_)
    obtain rfl := (hmem entry').mp (List.mem_cons_of_mem _ hentry')
    exact (List.nodup_cons.mp hnodup).1 hentry'

end Compare

/-- A compared node is `Modified` or `Unchanged`. -/
theorem compared_change (order : IterationOrder) (before after : List Node) (name : AtomId)
    (b a : Node) : (comparedChange order before after name b a).change = .modified ∨
      (comparedChange order before after name b a).change = .unchanged := by
  unfold comparedChange
  dsimp only
  split
  · exact .inl rfl
  · exact .inr rfl

/-- Where a change comes from: a name, and the first alive nodes of it. -/
inductive ChangeOf (order : IterationOrder) (before after : List Node) : NodeChange → Prop
  | added {name a as} (hname : name ≠ kInvalidAtom) (hb : namesakes before name = [])
      (ha : namesakes after name = a :: as) :
      ChangeOf order before after (addedChange order after name a)
  | compared {name b bs a as} (hname : name ≠ kInvalidAtom) (hb : namesakes before name = b :: bs)
      (ha : namesakes after name = a :: as) :
      ChangeOf order before after (comparedChange order before after name b a)
  | removed {name b bs} (hname : name ≠ kInvalidAtom) (hb : namesakes before name = b :: bs)
      (ha : namesakes after name = []) : ChangeOf order before after (removedChange name b)

section Changes

variable {order : IterationOrder} {before after : List Node}

theorem changeOf_of_mem {nc : NodeChange} (hnc : nc ∈ (diffNodeGraphs order before after).changes) :
    ChangeOf order before after nc := by
  rw [changes_diffNodeGraphs, List.mem_append] at hnc
  rcases hnc with hnc | hnc
  · obtain ⟨⟨name, a⟩, hentry, rfl⟩ := List.mem_map.mp hnc
    obtain ⟨hname, as, ha⟩ := mem_entries_byName.mp hentry
    unfold changeAfter
    cases hb : (byName before).lookup name with
    | none => exact .added hname ((byName_lookup_eq_none hname).mp hb) ha
    | some b =>
      rw [byName_lookup, if_neg hname, List.head?_eq_some_iff] at hb
      obtain ⟨bs, hb⟩ := hb
      exact .compared hname hb ha
  · obtain ⟨⟨name, b⟩, hentry, rfl⟩ := List.mem_map.mp hnc
    obtain ⟨hentry, hgone⟩ := List.mem_filter.mp hentry
    obtain ⟨hname, bs, hb⟩ := mem_entries_byName.mp hentry
    exact .removed hname hb ((byName_lookup_eq_none hname).mp (of_decide_eq_true hgone))

theorem name_changeAfter (entry : AtomId × Node) :
    (changeAfter order before after entry).name = entry.1 := by
  unfold changeAfter
  cases (byName before).lookup entry.1 <;> rfl

/-- **A diff has one change for a name.** -/
theorem nodup_names_changes :
    ((diffNodeGraphs order before after).changes.map NodeChange.name).Nodup := by
  have hafter : ((order.entries .afterByName (byName after)).map
      (changeAfter order before after)).map NodeChange.name =
        (order.entries .afterByName (byName after)).map Prod.fst := by
    rw [List.map_map]
    congr 1
    funext entry
    exact name_changeAfter entry
  have hbefore : ((changesBefore after (order.entries .beforeByName (byName before))).map
      NodeChange.name) = ((order.entries .beforeByName (byName before)).filter
        fun entry => (byName after).lookup entry.1 = none).map Prod.fst := by
    rw [changesBefore, List.map_map]
    rfl
  rw [changes_diffNodeGraphs, List.map_append, hafter, hbefore, List.nodup_append]
  refine ⟨order.nodup .., (order.nodup ..).sublist (List.filter_sublist.map _), ?_⟩
  rintro name hleft name' hright rfl
  obtain ⟨⟨_, a⟩, hentry, rfl⟩ := List.mem_map.mp hleft
  obtain ⟨⟨_, b⟩, hgone, hb⟩ := List.mem_map.mp hright
  have hnone := of_decide_eq_true (List.mem_filter.mp hgone).2
  have hsome := (order.mem_iff ..).mp hentry
  subst hb
  rw [hnone] at hsome
  cases hsome

/-- **Every name of either table has a change.** -/
theorem exists_change {name : AtomId} (hname : name ≠ kInvalidAtom)
    (h : namesakes before name ≠ [] ∨ namesakes after name ≠ []) :
    ∃ nc ∈ (diffNodeGraphs order before after).changes, nc.name = name := by
  rw [changes_diffNodeGraphs]
  cases ha : namesakes after name with
  | cons a as =>
    have hentry : (name, a) ∈ order.entries .afterByName (byName after) :=
      mem_entries_byName.mpr ⟨hname, as, ha⟩
    exact ⟨_, List.mem_append_left _ (List.mem_map_of_mem hentry), name_changeAfter _⟩
  | nil =>
    obtain ⟨b, bs, hb⟩ := List.exists_cons_of_ne_nil (h.resolve_right fun hne => hne ha)
    have hentry : (name, b) ∈ order.entries .beforeByName (byName before) :=
      mem_entries_byName.mpr ⟨hname, bs, hb⟩
    have hgone : (byName after).lookup name = none := (byName_lookup_eq_none hname).mpr ha
    refine ⟨removedChange name b, List.mem_append_right _ (List.mem_map.mpr ⟨(name, b), ?_, rfl⟩), rfl⟩
    exact List.mem_filter.mpr ⟨hentry, decide_eq_true hgone⟩

/-- **Tables that match under every name** have only `Unchanged` nodes. -/
theorem unchanged_of_matched (h : ∀ name ≠ kInvalidAtom, Matched before after name) :
    ∀ nc ∈ (diffNodeGraphs order before after).changes, nc.change = .unchanged := by
  intro nc hnc
  cases changeOf_of_mem hnc with
  | added hname hb ha =>
    cases h _ hname with
    | absent _ ha' => cases ha.symm.trans ha'
    | present hb' _ _ => cases hb.symm.trans hb'
  | compared hname hb ha =>
    cases h _ hname with
    | absent hb' _ => cases hb.symm.trans hb'
    | present hb' ha' hmatch =>
      obtain ⟨rfl, -⟩ := List.cons.inj (hb.symm.trans hb')
      obtain ⟨rfl, -⟩ := List.cons.inj (ha.symm.trans ha')
      exact comparedChange_unchanged_iff.mpr hmatch
  | removed hname hb ha =>
    cases h _ hname with
    | absent hb' _ => cases hb.symm.trans hb'
    | present _ ha' _ => cases ha.symm.trans ha'

/-- **Tables with only `Unchanged` nodes** match under every name. -/
theorem matched_of_unchanged
    (h : ∀ nc ∈ (diffNodeGraphs order before after).changes, nc.change = .unchanged) {name : AtomId}
    (hname : name ≠ kInvalidAtom) : Matched before after name := by
  by_cases hsome : namesakes before name ≠ [] ∨ namesakes after name ≠ []
  · have hchange : ∃ nc ∈ (diffNodeGraphs order before after).changes, nc.name = name :=
      exists_change hname hsome
    obtain ⟨nc, hnc, rfl⟩ := hchange
    have hunchanged := h nc hnc
    cases changeOf_of_mem hnc with
    | added => cases hunchanged
    | compared _ hb ha => exact .present hb ha (comparedChange_unchanged_iff.mp hunchanged)
    | removed => cases hunchanged
  · push Not at hsome
    exact .absent hsome.1 hsome.2

end Changes

end Stratavm
