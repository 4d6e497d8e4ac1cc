import Stratavm.Diff.Budget

/-!
# What a journal patch relies on

`diff_to_journal` addresses nodes by their ids in the after-table and by their names, and checks
neither. `PatchFits` is what has to hold of the two tables and of the order the maps are iterated in
for both to reach the nodes that are meant. It is a condition on each name in the order they are
visited (`VisitFits`), and on the names that are gone.

A node of the patch gets the next id of the machine it runs on (`nextId`). That id depends on the
names visited before: each that is new has made a node, and a child that no name is there for has made a
placeholder. Only names whose node the index has lost are filled in without harm (`unindexed`), since
the first node of such a name is still the one of before.

* **`patch_length_le`**: under `PatchFits` a patch has no more opcodes than the journal that led from
  one table to the other.
* `follows_of_run`: what a run between two states says of their tables.

Out of scope: whether a patch that does not fit still runs. `Diff/Necessary.lean` has that.
-/

namespace Stratavm

open Lib

/-! ## What a patch relies on -/

/-- The names of children that a node of the after-table has gained. -/
def gainedNames (S S' : ReplayVM) (name : AtomId) (a : Node) : List AtomId :=
  (childNames S'.nodes.data a.children).filter fun c =>
    ((byName S.nodes.data).lookup name).all fun b => c ∉ childNames S.nodes.data b.children

/-- The number of names visited that the before-table does not have. -/
def newNames (S : ReplayVM) (visited : List (AtomId × Node)) : Nat :=
  visited.countP fun entry => ((byName S.nodes.data).lookup entry.1).isNone

/-- The names gained by the nodes visited that have a node before, which the index has lost: it has the
last node of a name, and that one was dropped. -/
def unindexed (S S' : ReplayVM) (visited : List (AtomId × Node)) : Finset AtomId :=
  (visited.flatMap fun entry => gainedNames S S' entry.1 entry.2).toFinset.filter fun c =>
    S.findNamed c = kInvalidNode ∧ (byName S.nodes.data).lookup c ≠ none

/-- The id of the node that is made next once these names are visited. -/
def nextId (S S' : ReplayVM) (visited : List (AtomId × Node)) : Nat :=
  S.nodes.size + newNames S visited + (unindexed S S' visited).card

/-- The fields of two nodes compare equal. -/
structure Node.SameFields (b a : Node) : Prop where
  set : ∀ f v, a.field f = some v → ∃ w, b.field f = some w ∧ valuesEqual w v = true
  unset : ∀ f, a.field f = none → b.field f = none

/-- What the opcodes of the node `a` of `name` rely on to reach their node, after the names `visited`. -/
structure NodeFits (env : Env) (S S' : ReplayVM) (visited : List (AtomId × Node)) (name : AtomId)
    (a : Node) : Prop where
  /-- The node holds no NaN. -/
  comparable : a.Comparable
  /-- A new node is no placeholder. -/
  declared : (byName S.nodes.data).lookup name = none → a.kind ≠ kInvalidKind
  /-- There is room for a new node. -/
  room : (byName S.nodes.data).lookup name = none →
    nextId S S' visited < env.limits.maxNodes.toNat
  /-- A new node with fields gets the id it has in the after-table. -/
  numbered : (byName S.nodes.data).lookup name = none → a.fields ≠ ∅ →
    a.id.toNat = nextId S S' visited
  /-- The name does not change its kind. -/
  kind : ∀ b, (byName S.nodes.data).lookup name = some b → b.kind = a.kind
  /-- Fields change on the node that had the name before. -/
  same : ∀ b, (byName S.nodes.data).lookup name = some b → a.id = b.id ∨ b.SameFields a
  /-- A node that gains children is the one its name finds. -/
  owner : ∀ b, (byName S.nodes.data).lookup name = some b →
    S.findNamed name = b.id ∨ gainedNames S S' name a = []

/-- What a patch relies on when it comes to the node `a` of `name`, after the names `visited`. -/
structure VisitFits (env : Env) (S S' : ReplayVM) (visited : List (AtomId × Node)) (name : AtomId)
    (a : Node) : Prop extends NodeFits env S S' visited name a where
  /-- A child is found by its name, or a placeholder for it does no harm. -/
  defined : ∀ c ∈ gainedNames S S' name a, S.findNamed c ≠ kInvalidNode ∨
    c ∈ (visited ++ [(name, a)]).map Prod.fst ∨
      (byName S.nodes.data).lookup c ≠ none ∧ (byName S'.nodes.data).lookup c ≠ none

/-- What a patch from `S` to `S'` relies on and nothing checks. -/
structure PatchFits (env : Env) (order : IterationOrder) (S S' : ReplayVM) : Prop where
  /-- No group is open. -/
  closed : S.frames = []
  visits : ∀ visited name a rest,
    order.entries .afterByName (byName S'.nodes.data) = visited ++ (name, a) :: rest →
      VisitFits env S S' visited name a
  /-- What is removed was the only node of its name. -/
  only : ∀ name b, (byName S.nodes.data).lookup name = some b →
    (byName S'.nodes.data).lookup name = none → namesakes S.nodes.data name = [b]

/-- A diff without removed fields and without removed children. -/
def GraphDiff.RemovesNothing (diff : GraphDiff) : Prop :=
  ∀ nc ∈ diff.changes, nc.childrenRemoved = [] ∧
    ∀ fc ∈ nc.fieldChanges, fc.after.type = .invalid → fc.before.type = .invalid

/-- `S'` is a later state than `S`. -/
structure ReplayVM.Follows (env : Env) (S S' : ReplayVM) : Prop where
  sound : S.Sound
  sound' : S'.Sound
  writable : S.Writable env
  writable' : S'.Writable env
  names : S.names <+: S'.names
  alive : ∀ i (n : Node), S'.node? i = some n → n.alive = true →
    S.nodes.size ≤ i.toNat ∨ ∃ m, S.node? i = some m ∧ m.alive = true
  children : ∀ (i : Nat) (n : Node), S.bodies[i]? = some n →
    ∃ n' : Node, S'.bodies[i]? = some n' ∧ n.children <+: n'.children
  /-- The name index of the earlier state has the last node of each name. -/
  last : S.NamesLast
  /-- There are ids left for the nodes that one more journal can make. -/
  room : S.weight + env.limits.maxJournalOps.toNat < 2 ^ 32
  /-- One journal led from the one to the other. -/
  cost : S'.tableCost S.bodies ≤ env.limits.maxJournalOps.toNat

theorem Performs.names_prefix {env : Env} {ops : List Op} {vm vm' : ReplayVM}
    (h : Performs env ops vm vm') : vm.names <+: vm'.names := by
  induction h with
  | nil => exact List.prefix_rfl
  | cons _ heff _ ih => exact heff.names_prefix.trans ih

section Fits

variable {env : Env} {order : IterationOrder} {S S' vm : ReplayVM}
  {changes done rest : List NodeChange} {nc : NodeChange} {a : Node}

/-- A node is in the table under its id. -/
theorem ReplayVM.Sound.node?_of_mem (h : vm.Sound) (hn : a ∈ vm.nodes.data) :
    vm.node? a.id = some a := by
  obtain ⟨i, hi⟩ := List.mem_iff_getElem?.mp hn
  rw [node?, h.ids i a hi]
  exact hi

theorem ReplayVM.Sound.body?_of_mem (h : vm.Sound) (hn : a ∈ vm.nodes.data) :
    vm.bodies[a.id.toNat]? = some a.body := body?_of_node? (h.node?_of_mem hn)

/-- A node of the after-table is writable. -/
theorem ReplayVM.Follows.writable_of_mem (h : S.Follows env S') (hn : a ∈ S'.nodes.data) :
    a.Writable env a.id.toNat := h.writable'.nodes _ a (h.sound'.node?_of_mem hn)

theorem NodeChange.sets_eq_nil (h : nc.fieldChanges = []) : nc.sets = [] := by
  unfold sets
  rw [h]
  split <;> rfl

/-- A node keeps its name. -/
theorem ReplayVM.name_eq (h : S.names <+: vm.names) {i : Nat} {n n' : Node}
    (hn : S.bodies[i]? = some n) (hn' : vm.bodies[i]? = some n') : n'.name = n.name := by
  obtain ⟨more, hmore⟩ := h
  have hget : S.names[i]? = some n.name := by
    rw [← ReplayVM.names_bodies, List.getElem?_map, hn]
    rfl
  have hget' : vm.names[i]? = some n'.name := by
    rw [← ReplayVM.names_bodies, List.getElem?_map, hn']
    rfl
  have hlt : i < S.names.length := (List.getElem?_eq_some_iff.mp hget).1
  rw [← hmore, List.getElem?_append_left hlt, hget] at hget'
  exact (Option.some.inj hget').symm

/-- A node of the after-table that the before-table has too was called the same there. -/
theorem ReplayVM.Follows.namesake_before (h : S.Follows env S') {name : AtomId}
    (ha : a ∈ namesakes S'.nodes.data name) (hold : a.id.toNat < S.nodes.size) :
    ∃ m ∈ namesakes S.nodes.data name, m.id = a.id := by
  obtain ⟨hmem, halive, haname⟩ := mem_namesakes.mp ha
  have hnode := h.sound'.node?_of_mem hmem
  obtain ⟨m, hm, hmalive⟩ := (h.alive a.id a hnode halive).resolve_left (Nat.not_le.mpr hold)
  have hmname : m.body.name = name := by
    exact (ReplayVM.name_eq h.names (ReplayVM.body?_of_node? hm) (ReplayVM.body?_of_node? hnode)).symm.trans haname
  exact ⟨m, mem_namesakes.mpr ⟨List.mem_of_getElem? hm, hmalive, hmname⟩,
    UInt32.toNat_inj.mp (h.sound.ids _ m hm)⟩

/-- The node of a new name is new. -/
theorem ReplayVM.Follows.size_le_id (h : S.Follows env S') {name : AtomId}
    (hb : namesakes S.nodes.data name = []) (ha : a ∈ namesakes S'.nodes.data name) :
    S.nodes.size ≤ a.id.toNat := by
  by_contra hlt
  obtain ⟨m, hm, -⟩ := h.namesake_before ha (Nat.not_le.mp hlt)
  rw [hb] at hm
  cases hm

/-- Nodes with equal fields have no field changes. -/
theorem Node.SameFields.differences {b : Node} (h : b.SameFields a) (name : AtomId) :
    fieldDifferences order name b a = [] := fieldDifferences_eq_nil_iff.mpr ⟨h.set, h.unset⟩

theorem mem_gainedNames {name c : AtomId} : c ∈ gainedNames S S' name a ↔
    c ∈ childNames S'.nodes.data a.children ∧ ∀ b, (byName S.nodes.data).lookup name = some b →
      c ∉ childNames S.nodes.data b.children := by
  unfold gainedNames
  rw [List.mem_filter]
  refine and_congr_right fun _ => ?_
  cases (byName S.nodes.data).lookup name with
  | none => exact iff_of_true rfl nofun
  | some b => simp

/-- **What a node has gained** are the children its change adds. -/
theorem mem_childrenAdded_changeAfter {name c : AtomId} :
    c ∈ (changeAfter order S.nodes.data S'.nodes.data (name, a)).childrenAdded ↔
      c ∈ gainedNames S S' name a := by
  rw [mem_gainedNames]
  unfold changeAfter
  dsimp only
  cases (byName S.nodes.data).lookup name with
  | none => exact ⟨fun hc => ⟨hc, nofun⟩, fun hc => hc.1⟩
  | some b =>
    refine mem_childrenAdded.trans (and_congr_right fun _ => ⟨fun hc b' hb' => ?_, fun hc => hc b rfl⟩)
    obtain rfl := Option.some.inj hb'
    exact hc

/-- **Every name of the after-table is visited.** -/
theorem PatchFits.visit (h : PatchFits env order S S') {name : AtomId}
    (ha : (byName S'.nodes.data).lookup name = some a) :
    ∃ visited, VisitFits env S S' visited name a := by
  have hmem : (name, a) ∈ order.entries .afterByName (byName S'.nodes.data) :=
    (order.mem_iff ..).mpr ha
  obtain ⟨visited, rest, hentries⟩ := List.append_of_mem hmem
  exact ⟨visited, h.visits visited name a rest hentries⟩

/-! ## The length of a patch -/

/-- What a node costs at least. -/
theorem Node.le_cost {old : Option Node} {n : Node} {made sets children : Nat} (hone : made ≤ 1)
    (hmade : made = 1 → old = none ∧ n.kind ≠ kInvalidKind)
    (hsets : sets ≤ (n.changedFields old).card) (hchildren : children ≤ n.gained old) :
    made + sets + (children + if children = 0 then 0 else 2) ≤ n.cost old := by
  have hnew : made ≤ if old.isNone ∧ n.kind ≠ kInvalidKind then 1 else 0 := by
    split
    · exact hone
    · rename_i hnot
      by_contra hne
      obtain ⟨hold, hkind⟩ := hmade (by omega)
      exact hnot ⟨by rw [hold]; rfl, hkind⟩
  have hgroup : (children + if children = 0 then 0 else 2) ≤
      n.gained old + if n.gained old = 0 then 0 else 2 := by
    split <;> split <;> omega
  unfold cost
  omega

theorem NodeChange.length_childOps : nc.childOps.length =
    nc.childrenAdded.length + if nc.childrenAdded.length = 0 then 0 else 2 := by
  unfold childOps
  by_cases hnone : nc.childrenAdded = []
  · rw [if_pos hnone, hnone]
    rfl
  · rw [if_neg hnone, if_neg fun h => hnone (List.length_eq_zero_iff.mp h)]
    simp [ReplayVM.groupOps]

/-- Fields that differ, each set once. -/
theorem NodeChange.length_sets_le {fields : Finset FieldId}
    (hnodup : (nc.fieldChanges.map FieldChange.fieldIdx).Nodup)
    (hmem : ∀ p ∈ nc.sets, p.1 ∈ fields) : nc.sets.length ≤ fields.card := by
  have hsub : (nc.sets.map Prod.fst).Sublist (nc.fieldChanges.map FieldChange.fieldIdx) := by
    unfold sets
    split
    · exact List.nil_sublist _
    · rw [List.map_map]
      exact List.filter_sublist.map _
  rw [← List.length_map (f := Prod.fst), ← List.toFinset_card_of_nodup (hnodup.sublist hsub)]
  refine Finset.card_le_card fun f hf => ?_
  obtain ⟨p, hp, rfl⟩ := List.mem_map.mp (List.mem_toFinset.mp hf)
  exact hmem p hp

/-- The children that are added have names of their own. -/
theorem length_childrenAdded_le_of_subset {name : AtomId} {b : Node} {more : List NodeId}
    (hsub : (comparedChange order S.nodes.data S'.nodes.data name b a).childrenAdded ⊆
      childNames S'.nodes.data more) :
    (comparedChange order S.nodes.data S'.nodes.data name b a).childrenAdded.length ≤
      more.length := by
  have hnodup : (comparedChange order S.nodes.data S'.nodes.data name b a).childrenAdded.Nodup :=
    (order.nodup ..).filter _
  exact Nat.le_trans (List.subperm_of_subset hnodup hsub).length_le (List.length_filterMap_le ..)

/-- A node of before keeps its children, so those added are among the ones it has gained. -/
theorem length_childrenAdded_le_of_same (hlater : S.Follows env S') {name : AtomId} {b : Node}
    (hb : b ∈ namesakes S.nodes.data name) (ha : a ∈ namesakes S'.nodes.data name)
    (hid : a.id = b.id) :
    (comparedChange order S.nodes.data S'.nodes.data name b a).childrenAdded.length ≤
      a.body.gained S.bodies[a.id.toNat]? := by
  have hold : S.bodies[b.id.toNat]? = some b.body := hlater.sound.body?_of_mem (mem_namesakes.mp hb).1
  obtain ⟨n', hn', more, hmore⟩ := hlater.children _ _ hold
  have hbody : S'.bodies[b.id.toNat]? = some a.body := by
    rw [← hid]
    exact hlater.sound'.body?_of_mem (mem_namesakes.mp ha).1
  obtain rfl : a.body = n' := Option.some.inj (hbody.symm.trans hn')
  have hsame : childNames S'.nodes.data b.children = childNames S.nodes.data b.children :=
    childNames_of_names hlater.names fun t ht =>
      hlater.sound.edges b (mem_namesakes.mp hb).1 t (.inl ht)
  have hgained : a.body.gained S.bodies[a.id.toNat]? = more.length := by
    rw [hid, hold, Node.gained, ← hmore, List.length_append]
    exact Nat.add_sub_cancel_left ..
  rw [hgained]
  refine length_childrenAdded_le_of_subset fun c hc => ?_
  obtain ⟨hafter, hbefore⟩ := mem_childrenAdded.mp hc
  have happend : c ∈ childNames S'.nodes.data (b.children ++ more) := by
    rw [show b.children ++ more = a.children from hmore]
    exact hafter
  rw [childNames_append, hsame] at happend
  exact (List.mem_append.mp happend).resolve_left hbefore

/-- Where a name finds the first of its nodes, another node of that name is a new one. -/
theorem size_le_id_of_ne (hlater : S.Follows env S') {name : AtomId} {b : Node} {bs : List Node}
    (hb : namesakes S.nodes.data name = b :: bs) (ha : a ∈ namesakes S'.nodes.data name)
    (hfound : S.findNamed name = b.id) (hid : a.id ≠ b.id) : S.nodes.size ≤ a.id.toNat := by
  have hbmem : b ∈ namesakes S.nodes.data name := hb ▸ List.mem_cons_self
  by_contra hlt
  obtain ⟨m, hm, hmid⟩ := hlater.namesake_before ha (Nat.not_le.mp hlt)
  obtain ⟨hmmem, hmalive, hmname⟩ := mem_namesakes.mp hm
  have hlookup : S.nameIndex.lookup name = some b.id := by
    rw [← hfound]
    refine ReplayVM.lookup_of_findNamed ?_
    rw [hfound]
    exact hlater.sound.id_ne_invalid (mem_namesakes.mp hbmem).1
  -- the name finds the last of its nodes, and `b` is the first
  have hlast := hlater.last name b.id hlookup _ _ (hlater.sound.body?_of_mem hmmem) hmalive hmname
  have hpair : (namesakes S.nodes.data name).Pairwise fun n m => n.id.toNat < m.id.toNat :=
    hlater.sound.pairwise_ids.filter _
  rw [hb] at hpair hm
  rcases List.mem_cons.mp hm with rfl | hm
  · exact hid hmid.symm
  · have hlt := (List.pairwise_cons.mp hpair).1 m hm
    omega

/-- Children that are added have names of children the node has gained. -/
theorem length_childrenAdded_le (hlater : S.Follows env S') (h : PatchFits env order S S')
    {name : AtomId} {b : Node} {bs as : List Node} (hname : name ≠ kInvalidAtom)
    (hb : namesakes S.nodes.data name = b :: bs) (ha : namesakes S'.nodes.data name = a :: as) :
    (comparedChange order S.nodes.data S'.nodes.data name b a).childrenAdded.length ≤
      a.body.gained S.bodies[a.id.toNat]? := by
  have hbmem : b ∈ namesakes S.nodes.data name := hb ▸ List.mem_cons_self
  have hamem : a ∈ namesakes S'.nodes.data name := ha ▸ List.mem_cons_self
  by_cases hid : a.id = b.id
  · exact length_childrenAdded_le_of_same hlater hbmem hamem hid
  by_cases hnone : (comparedChange order S.nodes.data S'.nodes.data name b a).childrenAdded = []
  · rw [hnone]
    exact Nat.zero_le _
  have hbefore := byName_lookup_of_cons hname hb
  have hfound : S.findNamed name = b.id := by
    obtain ⟨visited, hvisit⟩ := h.visit (byName_lookup_of_cons hname ha)
    refine (hvisit.owner b hbefore).resolve_right fun hnil => hnone ?_
    refine List.eq_nil_iff_forall_not_mem.mpr fun c hc => ?_
    have hgained : c ∈ gainedNames S S' name a := by
      refine mem_gainedNames.mpr ⟨(mem_childrenAdded.mp hc).1, fun b' hb' => ?_⟩
      obtain rfl := Option.some.inj (hbefore.symm.trans hb')
      exact (mem_childrenAdded.mp hc).2
    rw [hnil] at hgained
    cases hgained
  have hnew : S.nodes.size ≤ a.id.toNat := size_le_id_of_ne hlater hb hamem hfound hid
  have hold : S.bodies[a.id.toNat]? = none :=
    List.getElem?_eq_none (by rw [ReplayVM.length_bodies]; exact hnew)
  rw [hold]
  exact length_childrenAdded_le_of_subset fun c hc => (mem_childrenAdded.mp hc).1

section OpsLength

variable {name : AtomId} {b : Node} {bs as : List Node}

theorem PatchFits.length_ops_added_le (h : PatchFits env order S S') (hlater : S.Follows env S')
    (hname : name ≠ kInvalidAtom) (hb : namesakes S.nodes.data name = [])
    (ha : namesakes S'.nodes.data name = a :: as) :
    (addedChange order S'.nodes.data name a).ops.length ≤ a.body.cost S.bodies[a.id.toNat]? := by
  obtain ⟨visited, hvisit⟩ := h.visit (byName_lookup_of_cons hname ha)
  have hdeclared := hvisit.declared ((byName_lookup_eq_none hname).mpr hb)
  have hle := hlater.size_le_id hb (ha ▸ List.mem_cons_self)
  have hold : S.bodies[a.id.toNat]? = none :=
    List.getElem?_eq_none (by rw [ReplayVM.length_bodies]; exact hle)
  have hnodup : ((addedChange order S'.nodes.data name a).fieldChanges.map
      FieldChange.fieldIdx).Nodup := by
    unfold addedChange
    rw [List.map_map]
    exact order.nodup ..
  have hops : (addedChange order S'.nodes.data name a).ops.length =
      1 + (addedChange order S'.nodes.data name a).sets.length +
        (addedChange order S'.nodes.data name a).childOps.length := by
    have hcons : (addedChange order S'.nodes.data name a).ops = .newNode a.kind name ::
        ((addedChange order S'.nodes.data name a).fieldOps ++
          (addedChange order S'.nodes.data name a).childOps) := rfl
    rw [hcons, List.length_cons, List.length_append, NodeChange.fieldOps, List.length_map]
    omega
  rw [hops, hold, NodeChange.length_childOps]
  refine Node.le_cost (Nat.le_refl 1) (fun _ => ⟨rfl, hdeclared⟩)
    (NodeChange.length_sets_le hnodup fun p hp => ?_) (List.length_filterMap_le ..)
  have hfield : a.body.field p.1 = some p.2 := mem_sets_added hp
  rw [Node.mem_changedFields, hfield]
  exact ⟨nofun, nofun⟩

/-- A field that the patch sets has changed. -/
theorem PatchFits.mem_changedFields_of_mem_sets (h : PatchFits env order S S')
    (hlater : S.Follows env S') (hname : name ≠ kInvalidAtom)
    (hb : namesakes S.nodes.data name = b :: bs) (ha : namesakes S'.nodes.data name = a :: as)
    {p : FieldId × Value}
    (hp : p ∈ (comparedChange order S.nodes.data S'.nodes.data name b a).sets) :
    p.1 ∈ a.body.changedFields S.bodies[a.id.toNat]? := by
  obtain ⟨visited, hvisit⟩ := h.visit (byName_lookup_of_cons hname ha)
  obtain ⟨hfield, hdiffers⟩ := mem_sets_compared hp
  have hid : a.id = b.id := by
    refine (hvisit.same b (byName_lookup_of_cons hname hb)).resolve_right fun hsame => ?_
    have hnil : (comparedChange order S.nodes.data S'.nodes.data name b a).sets = [] :=
      NodeChange.sets_eq_nil (hsame.differences name)
    rw [hnil] at hp
    cases hp
  have hold : S.bodies[a.id.toNat]? = some b.body :=
    hid ▸ hlater.sound.body?_of_mem (mem_namesakes.mp (hb ▸ List.mem_cons_self)).1
  have hbody : a.body.field p.1 = some p.2 := hfield
  rw [Node.mem_changedFields, hold, hbody]
  refine ⟨nofun, fun heq => ?_⟩
  have hsame : b.field p.1 = some p.2 := heq
  rcases hdiffers with hnone | ⟨w, hw, hne⟩
  · rw [hnone] at hsame
    cases hsame
  · obtain rfl := Option.some.inj (hw.symm.trans hsame)
    rw [hvisit.comparable p.1 p.2 hfield] at hne
    cases hne

theorem PatchFits.length_ops_compared_le (h : PatchFits env order S S') (hlater : S.Follows env S')
    (hname : name ≠ kInvalidAtom) (hb : namesakes S.nodes.data name = b :: bs)
    (ha : namesakes S'.nodes.data name = a :: as) :
    (comparedChange order S.nodes.data S'.nodes.data name b a).ops.length ≤
      a.body.cost S.bodies[a.id.toNat]? := by
  rcases compared_change order S.nodes.data S'.nodes.data name b a with hchange | hchange
  · have hops : (comparedChange order S.nodes.data S'.nodes.data name b a).ops.length =
        0 + (comparedChange order S.nodes.data S'.nodes.data name b a).sets.length +
          (comparedChange order S.nodes.data S'.nodes.data name b a).childOps.length := by
      unfold NodeChange.ops
      rw [hchange]
      rw [List.length_append, NodeChange.fieldOps, List.length_map]
      omega
    rw [hops, NodeChange.length_childOps]
    exact Node.le_cost (Nat.zero_le 1) nofun (NodeChange.length_sets_le nodup_fieldDifferences
      fun p hp => h.mem_changedFields_of_mem_sets hlater hname hb ha hp)
      (length_childrenAdded_le hlater h hname hb ha)
  · unfold NodeChange.ops
    rw [hchange]
    exact Nat.zero_le _

/-- The node that a patch drops is dead after. -/
theorem length_ops_removed_le (hlater : S.Follows env S')
    (hb : namesakes S.nodes.data name = b :: bs) (ha : namesakes S'.nodes.data name = []) :
    ∃ n, S'.bodies[b.id.toNat]? = some n ∧ n.name = name ∧
      (removedChange name b).ops.length ≤ n.cost S.bodies[b.id.toNat]? := by
  obtain ⟨hmem, halive, hbname⟩ := mem_namesakes.mp (hb ▸ List.mem_cons_self)
  have hold : S.bodies[b.id.toNat]? = some b.body := hlater.sound.body?_of_mem hmem
  obtain ⟨n, hn, -⟩ := hlater.children _ _ hold
  have hnname : n.name = name := (ReplayVM.name_eq hlater.names hold hn).trans hbname
  have hdead : n.alive = false := by
    by_contra hne
    have hn' : n ∈ namesakes S'.bodies name :=
      mem_namesakes.mpr ⟨List.mem_of_getElem? hn, Bool.not_eq_false _ ▸ hne, hnname⟩
    rw [ReplayVM.namesakes_bodies, ha] at hn'
    cases hn'
  have hops : (removedChange name b).ops.length ≤ 1 := by
    show (if b.id ≠ kInvalidNode then [Op.dropNode b.id] else []).length ≤ 1
    by_cases hvalid : b.id ≠ kInvalidNode
    · rw [if_pos hvalid]
      exact Nat.le_refl _
    · rw [if_neg hvalid]
      exact Nat.zero_le _
  refine ⟨n, hn, hnname, Nat.le_trans hops ?_⟩
  have hdropped : (some b.body).any Node.alive = true ∧ n.alive = false := ⟨halive, hdead⟩
  rw [hold, Node.cost, if_pos hdropped]
  omega

end OpsLength

/-- **The opcodes of a change are within the cost of a node of its name.** -/
theorem PatchFits.length_ops_le (h : PatchFits env order S S') (hlater : S.Follows env S')
    (hnc : ChangeOf order S.nodes.data S'.nodes.data nc) :
    ∃ (i : Nat) (n : Node), S'.bodies[i]? = some n ∧ n.name = nc.name ∧
      nc.ops.length ≤ n.cost S.bodies[i]? := by
  cases hnc with
  | @added name a as hname hb ha =>
    obtain ⟨hmem, -, haname⟩ := mem_namesakes.mp (ha ▸ List.mem_cons_self)
    exact ⟨a.id.toNat, a.body, hlater.sound'.body?_of_mem hmem, haname,
      h.length_ops_added_le hlater hname hb ha⟩
  | @compared name b bs a as hname hb ha =>
    obtain ⟨hmem, -, haname⟩ := mem_namesakes.mp (ha ▸ List.mem_cons_self)
    exact ⟨a.id.toNat, a.body, hlater.sound'.body?_of_mem hmem, haname,
      h.length_ops_compared_le hlater hname hb ha⟩
  | @removed name b bs hname hb ha => exact ⟨b.id.toNat, length_ops_removed_le hlater hb ha⟩

/-- **A patch is no longer than the journal.** -/
theorem patch_length_le (h : PatchFits env order S S') (hlater : S.Follows env S') :
    (patchOps (diffNodeGraphs order S.nodes.data S'.nodes.data).changes).length ≤
      env.limits.maxJournalOps.toNat := by
  refine Nat.le_trans ?_ hlater.cost
  rw [patchOps, List.length_flatMap]
  exact sum_le_tally nodup_names_changes fun nc hnc => h.length_ops_le hlater (changeOf_of_mem hnc)

end Fits

section Runs

variable {env : Env} {S S' : ReplayVM}

/-- **A run from a visited state leads to a later one**, if there are ids for two journals. -/
theorem follows_of_run
    (hids : env.limits.maxNodes.toNat + 2 * env.limits.maxJournalOps.toNat < 2 ^ 32)
    {bytes rest journal journal' r' : Bytes} {heap : HeapImage}
    (hheap : decodeHeap env.growth env.schema env.atoms env.limits bytes = .ok (heap, rest))
    (hS : Visits env (ReplayVM.seed {} heap) journal S) (hframes : S.frames = [])
    (hrun : Machine.Ok (run env) S journal' () S' r') : S.Follows env S' := by
  have hfit : env.limits.IdsFit := by
    unfold Limits.IdsFit
    omega
  obtain ⟨k, r, hstate⟩ := visits_iff.mp hS
  obtain ⟨hsound, hweight⟩ := sound_of_stateAt_weight hfit hheap hstate
  have hk : k ≤ env.limits.maxJournalOps.toNat := by
    obtain ⟨count, _, -, hle, hk, -⟩ := hstate
    exact Nat.le_trans hk (UInt32.le_iff_toNat_le.mp hle)
  have hroom : S.weight + env.limits.maxJournalOps.toNat < 2 ^ 32 := by omega
  have hwritable := writable_of_visits hheap hS
  obtain ⟨count, r1, ops, -, hle, hlen, hrep, -⟩ := run_ok_iff.mp hrun
  have hops := UInt32.le_iff_toNat_le.mp hle
  refine ⟨hsound, sound_of_replays hrep hsound (by omega), hwritable,
    writable_of_replays hrep hwritable, ?_, fun i n hn ha => alive_of_replays hrep hn ha,
    fun i n hn => children_of_replays hrep hsound.slots hn,
    namesLast_of_stateAt hfit hheap hstate, hroom, ?_⟩
  · rw [← ReplayVM.map_snd_labels, ← ReplayVM.map_snd_labels]
    exact (labels_of_replays hrep).map Prod.snd
  · have hbase : S.bodies.length ≤ S.nodes.size := Nat.le_of_eq ReplayVM.length_bodies
    have hcost := cost_of_replays hrep hsound.slots hbase
    have hself := ReplayVM.tableCost_self S
    have hopen : S.openCost = 0 := by
      unfold ReplayVM.openCost
      rw [hframes]
      rfl
    omega

end Runs

end Stratavm
