import Stratavm.ReplayVm.Reach

/-!
# What closing a group does

`resolve_frame` makes placeholders and links children in one loop: a placeholder made for one child may
be the target of the next, and the owner may be a child of its own. Seen from outside the loop does two
things one after the other: it appends a placeholder for each name that nothing defines, then it adds
the edges (`Integrity.resolve_eq`).

Both are read off the index and the size of the table before the loop: `freshNames` are the names that get
a placeholder, once each, and once for each child without a name; `linkTargets` are the nodes that the
children become. `Node.linked` is what a node gains by it.

* `count_freshNames`, `count_freshNames_anonymous`: how many placeholders there are of a name.
* `linkTargets_findIn`, `linkTargets_anonymous`: what a child is linked to.
* **`endGroup_links`**: in every run from a decoded heap, what an `END_GROUP` leaves of the table and of
  the name index.

Out of scope: the counters, which `ReplayVm/Accounts.lean` has.
-/

namespace Stratavm

open Lib

/-! ## The plan of a group -/

/-- The node a name finds. -/
def findIn (index : UMap AtomId NodeId) (name : AtomId) : NodeId := (index.lookup name).getD kInvalidNode

/-- The names that linking `children` makes placeholders for, in a table of `size` nodes. -/
def freshNames (index : UMap AtomId NodeId) (size : Nat) : List AtomId → List AtomId
  | [] => []
  | child :: children =>
    if findIn index child = kInvalidNode then
      child :: freshNames (registerName index child (UInt32.ofNat size)) (size + 1) children
    else freshNames index size children

/-- The nodes that `children` are linked to. -/
def linkTargets (index : UMap AtomId NodeId) (size : Nat) : List AtomId → List NodeId
  | [] => []
  | child :: children =>
    if findIn index child = kInvalidNode then
      UInt32.ofNat size ::
        linkTargets (registerName index child (UInt32.ofNat size)) (size + 1) children
    else findIn index child :: linkTargets index size children

/-- Placeholders of these names, from id `size` on. -/
def placeholdersFrom (size : Nat) : List AtomId → List Node
  | [] => []
  | name :: names =>
    { id := UInt32.ofNat size, kind := kInvalidKind, name, alive := true, placeholder := true } ::
      placeholdersFrom (size + 1) names

/-- A node with the edges that linking `targets` under `owner` adds to it. -/
def Node.linked (owner : NodeId) (targets : List NodeId) (n : Node) : Node :=
  n.gain (if n.id = owner then targets else []) (List.replicate (targets.count n.id) owner)

/-- The name index with the placeholders of these names. -/
def registerFrom (index : UMap AtomId NodeId) (size : Nat) : List AtomId → UMap AtomId NodeId
  | [] => index
  | name :: names => registerFrom (registerName index name (UInt32.ofNat size)) (size + 1) names

theorem length_linkTargets (index : UMap AtomId NodeId) (size : Nat) (children : List AtomId) :
    (linkTargets index size children).length = children.length := by
  induction children generalizing index size with
  | nil => rfl
  | cons child children ih =>
    rw [linkTargets]
    split
    · rw [List.length_cons, List.length_cons, ih]
    · rw [List.length_cons, List.length_cons, ih]

theorem Node.linked_nil (owner : NodeId) (n : Node) : n.linked owner [] = n := by
  simp [linked, gain]

theorem Node.gain_gain (n : Node) (a b c d : List NodeId) :
    (n.gain a b).gain c d = n.gain (a ++ c) (b ++ d) := by
  simp only [gain, List.append_assoc]

/-- One target after the other. -/
theorem Node.linked_cons (owner t : NodeId) (targets : List NodeId) (n : Node) :
    (n.linked owner [t]).linked owner targets = n.linked owner (t :: targets) := by
  have hrefs : List.replicate ([t].count n.id) owner ++ List.replicate (targets.count n.id) owner =
      List.replicate ((t :: targets).count n.id) owner := by
    rw [List.replicate_append_replicate]
    congr 1
    rw [List.count_cons, List.count_cons, List.count_nil]
    omega
  have hchildren : (if n.id = owner then [t] else []) ++ (if n.id = owner then targets else []) =
      if n.id = owner then t :: targets else [] := by
    split <;> rfl
  show (n.gain _ _).gain (if n.id = owner then targets else []) (List.replicate (targets.count n.id) owner) =
    _
  rw [gain_gain, hrefs, hchildren]
  rfl

/-- A node that is neither the owner nor the target is left alone. -/
theorem Node.linked_of_ne {owner t : NodeId} {n : Node} (ho : n.id ≠ owner) (ht : n.id ≠ t) :
    n.linked owner [t] = n := by
  have hcount : [t].count n.id = 0 := List.count_eq_zero.mpr fun h => ht (List.mem_singleton.mp h)
  rw [linked, if_neg ho, hcount]
  simp [gain]

theorem map_linked_of_ne {owner t : NodeId} {nodes : List Node}
    (h : ∀ n ∈ nodes, n.id ≠ owner ∧ n.id ≠ t) : nodes.map (Node.linked owner [t]) = nodes := by
  conv_rhs => rw [← List.map_id nodes]
  exact List.map_congr_left fun n hn => Node.linked_of_ne (h n hn).1 (h n hn).2

theorem mem_placeholdersFrom {size : Nat} {names : List AtomId} {n : Node}
    (h : n ∈ placeholdersFrom size names) :
    ∃ j, size ≤ j ∧ j < size + names.length ∧ n.id = UInt32.ofNat j := by
  induction names generalizing size with
  | nil => cases h
  | cons name names ih =>
    rw [List.length_cons]
    rcases List.mem_cons.mp h with rfl | h
    · exact ⟨size, by omega, by omega, rfl⟩
    · obtain ⟨j, hle, hlt, hid⟩ := ih h
      exact ⟨j, by omega, by omega, hid⟩

/-- A placeholder is alive, and has no kind. -/
theorem plain_placeholdersFrom {size : Nat} {names : List AtomId} {n : Node}
    (h : n ∈ placeholdersFrom size names) : n.alive = true ∧ n.kind = kInvalidKind ∧ n.refs = [] := by
  induction names generalizing size with
  | nil => cases h
  | cons name names ih =>
    rcases List.mem_cons.mp h with rfl | h
    · exact ⟨rfl, rfl, rfl⟩
    · exact ih h

theorem names_placeholdersFrom (size : Nat) (names : List AtomId) :
    (placeholdersFrom size names).map Node.name = names := by
  induction names generalizing size with
  | nil => rfl
  | cons name names ih => rw [placeholdersFrom, List.map_cons, ih]

/-- Names that get no placeholder find what they found. -/
theorem lookup_registerFrom_of_not_mem {index : UMap AtomId NodeId} {size : Nat} {names : List AtomId}
    {a : AtomId} (ha : a ∉ names) : (registerFrom index size names).lookup a = index.lookup a := by
  induction names generalizing index size with
  | nil => rfl
  | cons name names ih =>
    obtain ⟨hne, hrest⟩ := not_or.mp fun h => ha (List.mem_cons.mpr h)
    rw [registerFrom, ih hrest, lookup_registerName, if_neg fun h => hne h.2]

theorem length_freshNames_le (index : UMap AtomId NodeId) (size : Nat) (children : List AtomId) :
    (freshNames index size children).length ≤ children.length := by
  induction children generalizing index size with
  | nil => exact Nat.le_refl 0
  | cons child children ih =>
    rw [freshNames]
    split
    · exact Nat.succ_le_succ (ih ..)
    · exact Nat.le_succ_of_le (ih ..)

/-! ### The names of a plan -/

/-- An index of proper names, with ids that are not `kInvalidNode`. -/
def ProperIndex (index : UMap AtomId NodeId) : Prop :=
  ∀ a i, index.lookup a = some i → a ≠ kInvalidAtom ∧ i ≠ kInvalidNode

section Names

variable {index : UMap AtomId NodeId} {size : Nat} {children : List AtomId}

theorem ofNat_ne_invalid (hsize : size + 1 < 2 ^ 32) : UInt32.ofNat size ≠ kInvalidNode := by
  intro heq
  have hnat := congrArg UInt32.toNat heq
  rw [toNat_ofNat_of_lt (by omega)] at hnat
  have : kInvalidNode.toNat = 2 ^ 32 - 1 := rfl
  omega

/-- A name finds no node iff it is not in the index. -/
theorem ProperIndex.findIn_eq_iff (h : ProperIndex index) {a : AtomId} :
    findIn index a = kInvalidNode ↔ index.lookup a = none := by
  unfold findIn
  cases hl : index.lookup a with
  | none => exact iff_of_true rfl rfl
  | some i => exact iff_of_false (h a i hl).2 (Option.some_ne_none i)

theorem ProperIndex.register (h : ProperIndex index) (hsize : size + 1 < 2 ^ 32) (name : AtomId) :
    ProperIndex (registerName index name (UInt32.ofNat size)) := by
  intro a i hi
  rw [lookup_registerName] at hi
  split at hi
  · rename_i hname
    obtain rfl := Option.some.inj hi
    exact ⟨hname.2 ▸ hname.1, ofNat_ne_invalid hsize⟩
  · exact h a i hi

theorem freshNames_subset : freshNames index size children ⊆ children := by
  induction children generalizing index size with
  | nil => exact List.Subset.refl []
  | cons child children ih =>
    rw [freshNames]
    split
    · exact List.cons_subset_cons child ih
    · exact List.subset_cons_of_subset child ih

/-- Names that find a node keep it. -/
theorem lookup_registerFrom (h : ProperIndex index) (hsize : size + children.length < 2 ^ 32)
    {a : AtomId} {i : NodeId} (ha : index.lookup a = some i) :
    (registerFrom index size (freshNames index size children)).lookup a = some i := by
  induction children generalizing index size with
  | nil => exact ha
  | cons child children ih =>
    rw [List.length_cons] at hsize
    rw [freshNames]
    split
    · rename_i hfresh
      refine ih (h.register (by omega) child) (by omega) ?_
      rw [lookup_registerName, if_neg, ha]
      rintro ⟨-, rfl⟩
      rw [h.findIn_eq_iff.mp hfresh] at ha
      cases ha
    · exact ih h (by omega) ha

/-- A child is linked to a node. -/
theorem linkTargets_ne_invalid (hsize : size + children.length < 2 ^ 32) :
    ∀ t ∈ linkTargets index size children, t ≠ kInvalidNode := by
  induction children generalizing index size with
  | nil => exact nofun
  | cons child children ih =>
    rw [List.length_cons] at hsize
    rw [linkTargets]
    split
    · exact List.forall_mem_cons.mpr ⟨ofNat_ne_invalid (by omega), ih (by omega)⟩
    · rename_i hfound
      exact List.forall_mem_cons.mpr ⟨hfound, ih (by omega)⟩

/-- A named child is linked to the node that its name finds afterwards. -/
theorem linkTargets_findIn (h : ProperIndex index) (hsize : size + children.length < 2 ^ 32) {j : Nat}
    {child : AtomId} (hj : children[j]? = some child) (hnamed : child ≠ kInvalidAtom) :
    (linkTargets index size children)[j]? =
      some (findIn (registerFrom index size (freshNames index size children)) child) := by
  induction children generalizing index size j with
  | nil => cases hj
  | cons first children ih =>
    rw [List.length_cons] at hsize
    -- the node that the name finds now is the one it finds in the end
    have hkept : ∀ {index1 : UMap AtomId NodeId} {size1 : Nat} {i : NodeId}, ProperIndex index1 →
        size1 + children.length < 2 ^ 32 → index1.lookup child = some i →
          findIn (registerFrom index1 size1 (freshNames index1 size1 children)) child = i := by
      intro index1 size1 i h1 hsize1 hi
      rw [findIn, lookup_registerFrom h1 hsize1 hi]
      rfl
    rw [linkTargets, freshNames]
    by_cases hfresh : findIn index first = kInvalidNode
    · rw [if_pos hfresh, if_pos hfresh]
      cases j with
      | zero =>
        obtain rfl := Option.some.inj hj
        rw [List.getElem?_cons_zero, registerFrom, hkept (h.register (by omega) _) (by omega)]
        rw [lookup_registerName, if_pos ⟨hnamed, rfl⟩]
      | succ j => exact ih (h.register (by omega) first) (by omega) hj
    · rw [if_neg hfresh, if_neg hfresh]
      cases j with
      | zero =>
        obtain rfl := Option.some.inj hj
        obtain ⟨i, hi⟩ := Option.ne_none_iff_exists'.mp fun hnone => hfresh (h.findIn_eq_iff.mpr hnone)
        rw [List.getElem?_cons_zero, hkept h (by omega) hi, findIn, hi]
        rfl
      | succ j => exact ih h (by omega) hj

/-- A name gets one placeholder if nothing defines it, however often it is a child. -/
theorem count_freshNames (h : ProperIndex index) (hsize : size + children.length < 2 ^ 32) {a : AtomId}
    (hnamed : a ≠ kInvalidAtom) :
    (freshNames index size children).count a = if a ∈ children ∧ index.lookup a = none then 1 else 0 := by
  induction children generalizing index size with
  | nil => rfl
  | cons child children ih =>
    rw [List.length_cons] at hsize
    rw [freshNames]
    by_cases hfresh : findIn index child = kInvalidNode
    · rw [if_pos hfresh, List.count_cons, ih (h.register (by omega) child) (by omega),
        lookup_registerName]
      by_cases hac : a = child
      · subst hac
        simp [hnamed, h.findIn_eq_iff.mp hfresh]
      · have hca : child ≠ a := fun heq => hac heq.symm
        simp [hac, hca]
    · rw [if_neg hfresh, ih h (by omega)]
      have hsome : index.lookup child ≠ none := fun hnone => hfresh (h.findIn_eq_iff.mpr hnone)
      by_cases hac : a = child
      · subst hac
        simp [hsome]
      · simp [hac]

/-- Every placeholder is made to be linked. -/
theorem mem_linkTargets_of_placeholder {n : Node}
    (hn : n ∈ placeholdersFrom size (freshNames index size children)) :
    n.id ∈ linkTargets index size children := by
  induction children generalizing index size with
  | nil => cases hn
  | cons child children ih =>
    rw [freshNames] at hn
    rw [linkTargets]
    split
    · rename_i hfresh
      rw [if_pos hfresh, placeholdersFrom] at hn
      rcases List.mem_cons.mp hn with rfl | hn
      · exact List.mem_cons_self
      · exact List.mem_cons_of_mem _ (ih hn)
    · rename_i hfresh
      rw [if_neg hfresh] at hn
      exact List.mem_cons_of_mem _ (ih hn)

/-- The children without a name are linked to the placeholders without one, in order. -/
theorem linkTargets_anonymous (h : ProperIndex index) (hsize : size + children.length < 2 ^ 32) :
    ((children.zip (linkTargets index size children)).filter fun c => c.1 = kInvalidAtom).map Prod.snd =
      ((placeholdersFrom size (freshNames index size children)).filter fun n =>
        n.name = kInvalidAtom).map Node.id := by
  induction children generalizing index size with
  | nil => rfl
  | cons child children ih =>
    rw [List.length_cons] at hsize
    rw [linkTargets, freshNames]
    by_cases hfresh : findIn index child = kInvalidNode
    · have hsize1 : size + 1 + children.length < 2 ^ 32 := by omega
      have hrest := ih (h.register (Nat.lt_of_le_of_lt (Nat.le_add_right _ _) hsize1) child) hsize1
      rw [if_pos hfresh, if_pos hfresh, List.zip_cons_cons, placeholdersFrom]
      by_cases hname : child = kInvalidAtom
      · rw [List.filter_cons_of_pos (by simpa using hname), List.filter_cons_of_pos (by simpa using hname),
          List.map_cons, List.map_cons, hrest]
      · rw [List.filter_cons_of_neg (by simpa using hname), List.filter_cons_of_neg (by simpa using hname),
          hrest]
    · have hname : child ≠ kInvalidAtom := by
        rintro rfl
        obtain ⟨i, hi⟩ := Option.ne_none_iff_exists'.mp fun hnone => hfresh (h.findIn_eq_iff.mpr hnone)
        exact (h _ i hi).1 rfl
      rw [if_neg hfresh, if_neg hfresh, List.zip_cons_cons,
        List.filter_cons_of_neg (by simpa using hname), ih h (by omega)]

/-- Every child without a name gets a placeholder of its own. -/
theorem count_freshNames_anonymous (h : ProperIndex index) (hsize : size + children.length < 2 ^ 32) :
    (freshNames index size children).count kInvalidAtom = children.count kInvalidAtom := by
  induction children generalizing index size with
  | nil => rfl
  | cons child children ih =>
    rw [List.length_cons] at hsize
    rw [freshNames, List.count_cons]
    by_cases hfresh : findIn index child = kInvalidNode
    · rw [if_pos hfresh, List.count_cons, ih (h.register (by omega) child) (by omega)]
    · have hne : child ≠ kInvalidAtom := by
        rintro rfl
        obtain ⟨i, hi⟩ := Option.ne_none_iff_exists'.mp fun hnone => hfresh (h.findIn_eq_iff.mpr hnone)
        exact (h _ i hi).1 rfl
      rw [if_neg hfresh, ih h (by omega)]
      simp [hne]

end Names

namespace ReplayVM

variable {env : Env} {vm vm' : ReplayVM} {frame : GroupFrame} {children : List AtomId}

/-- Linking one child, over the whole table. -/
theorem Integrity.data_attach (h : vm.Integrity) (hsize : vm.nodes.size < 2 ^ 32) {o t : NodeId}
    (ho : o.toNat < vm.nodes.size) :
    (vm.attach o.toNat t).nodes.data = vm.nodes.data.map (Node.linked o [t]) := by
  refine List.ext_getElem? fun i => ?_
  rw [List.getElem?_map]
  by_cases hi : i < vm.nodes.size
  · have hlook := h.node?_attach (i := UInt32.ofNat i) (t := t) ho
    unfold node? at hlook
    rw [toNat_ofNat_of_lt (by omega)] at hlook
    rw [hlook]
    refine Option.map_congr fun n hn => ?_
    have hid : n.id = UInt32.ofNat i := by
      rw [← UInt32.toNat_inj, h.ids i n hn, toNat_ofNat_of_lt (by omega)]
    unfold Node.linked
    rw [hid]
    congr 1
    by_cases hit : UInt32.ofNat i = t
    · rw [if_pos hit, hit]
      simp
    · have hcount : [t].count (UInt32.ofNat i) = 0 :=
        List.count_eq_zero.mpr fun hmem => hit (List.mem_singleton.mp hmem)
      rw [if_neg hit, hcount]
      rfl
  · have hlen : (vm.attach o.toNat t).nodes.data.length = vm.nodes.size := size_attach
    rw [List.getElem?_eq_none (by omega), List.getElem?_eq_none (by unfold Vec.size at hi; omega)]
    rfl

/-- Linking one child before the others. -/
theorem map_linked_append {nodes : List Node} {size : Nat} {names : List AtomId} {o t : NodeId}
    {targets : List NodeId} (hsize : size + names.length < 2 ^ 32) (ho : o.toNat < size)
    (ht : t.toNat < size) :
    (nodes.map (Node.linked o [t]) ++ placeholdersFrom size names).map (Node.linked o targets) =
      (nodes ++ placeholdersFrom size names).map (Node.linked o (t :: targets)) := by
  have hnew : (placeholdersFrom size names).map (Node.linked o [t]) = placeholdersFrom size names := by
    refine map_linked_of_ne fun n hn => ?_
    obtain ⟨j, hle, hlt, hid⟩ := mem_placeholdersFrom hn
    have hj : (UInt32.ofNat j).toNat = j := toNat_ofNat_of_lt (by omega)
    constructor
    · rintro rfl
      rw [hid, hj] at ho
      omega
    · rintro rfl
      rw [hid, hj] at ht
      omega
  conv_lhs => rw [← hnew]
  rw [← List.map_append, List.map_map]
  exact List.map_congr_left fun n _ => Node.linked_cons o t targets n

/-- **The loop of `resolve_frame` in two steps**: the placeholders, and then the edges. -/
theorem Integrity.resolve_eq (h0 : vm.Integrity) (hframe : frame.ownerCache.slot = frame.ownerId.toNat)
    (howner : frame.ownerId.toNat < vm.nodes.size) (hsize : vm.nodes.size + children.length < 2 ^ 32)
    (h : resolve env frame children vm = some vm') :
    vm'.nodes.data = (vm.nodes.data ++ placeholdersFrom vm.nodes.size
        (freshNames vm.nameIndex vm.nodes.size children)).map
          (Node.linked frame.ownerId (linkTargets vm.nameIndex vm.nodes.size children)) ∧
      vm'.nameIndex =
        registerFrom vm.nameIndex vm.nodes.size (freshNames vm.nameIndex vm.nodes.size children) := by
  induction children generalizing vm with
  | nil =>
    obtain rfl := Option.some.inj h
    refine ⟨?_, rfl⟩
    simp only [freshNames, linkTargets, placeholdersFrom, List.append_nil]
    conv_lhs => rw [← List.map_id vm.nodes.data]
    exact List.map_congr_left fun n _ => (Node.linked_nil _ n).symm
  | cons child children ih =>
    rw [List.length_cons] at hsize
    obtain ⟨slot, hs, ht, h⟩ := resolve_cons h
    obtain ⟨rfl, hlt⟩ := ownerSlot_eq hframe hs
    have hint : (vm.target env child).2.Integrity := h0.target (by omega) child
    have hle := size_target_le env vm child
    have hge := size_le_target env vm child
    obtain ⟨hdata, hindex⟩ := ih (hint.attach hlt ht) (by rw [size_attach]; omega)
      (by rw [size_attach]; omega) h
    rw [size_attach] at hdata hindex
    rw [hint.data_attach (by omega) hlt] at hdata
    have hnames : ((vm.target env child).2.attach frame.ownerId.toNat (vm.target env child).1).nameIndex =
        (vm.target env child).2.nameIndex := rfl
    rw [hnames] at hdata hindex
    have hfresh := length_freshNames_le (vm.target env child).2.nameIndex
      (vm.target env child).2.nodes.size children
    rw [map_linked_append (by omega) hlt ht] at hdata
    rw [freshNames, linkTargets]
    rcases target_eq env vm child with ⟨hf, heq⟩ | ⟨hf, heq⟩
    · have hf : findIn vm.nameIndex child = kInvalidNode := hf
      rw [if_pos hf, if_pos hf]
      rw [heq] at hdata hindex
      simp only [materializePlaceholder, Vec.size_pushBack, Vec.data_pushBack] at hdata hindex
      refine ⟨?_, hindex⟩
      rw [hdata, placeholdersFrom, List.append_assoc]
      rfl
    · have hf : findIn vm.nameIndex child ≠ kInvalidNode := hf
      rw [if_neg hf, if_neg hf]
      rw [heq] at hdata hindex
      exact ⟨hdata, hindex⟩

/-- What closing the group of `frame` does: a placeholder for each of the names `fresh`, then an edge to
each of `targets`. -/
structure GroupClosed (vm vm' : ReplayVM) (frame : GroupFrame) (fresh : List AtomId)
    (targets : List NodeId) : Prop where
  /-- The owner gains the children in order, and each child a reference back for every time it is one. -/
  table : vm'.nodes.data = (vm.nodes.data ++ placeholdersFrom vm.nodes.size fresh).map
    (Node.linked frame.ownerId targets)
  length : targets.length = frame.deferredChildren.length
  proper : ∀ t ∈ targets, t ≠ kInvalidNode
  /-- A named child is the node its name finds from now on. -/
  named : ∀ (j : Nat) (child : AtomId), frame.deferredChildren[j]? = some child →
    child ≠ kInvalidAtom → targets[j]? = some (vm'.findNamed child)
  /-- No name changes hands. -/
  kept : ∀ a i, vm.nameIndex.lookup a = some i → vm'.nameIndex.lookup a = some i
  /-- Names that are no children find what they found. -/
  others : ∀ a, a ∉ frame.deferredChildren → vm'.nameIndex.lookup a = vm.nameIndex.lookup a
  /-- One placeholder for a name that nothing defines, however often it is a child. -/
  undefined : ∀ a, a ≠ kInvalidAtom → fresh.count a =
    if a ∈ frame.deferredChildren ∧ vm.nameIndex.lookup a = none then 1 else 0
  /-- One placeholder for each child without a name. -/
  anonymous : fresh.count kInvalidAtom = frame.deferredChildren.count kInvalidAtom
  /-- Every placeholder is a child. -/
  linked : ∀ n ∈ placeholdersFrom vm.nodes.size fresh, n.id ∈ targets
  /-- The children without a name are the placeholders without one, in order. -/
  nameless : ((frame.deferredChildren.zip targets).filter fun c => c.1 = kInvalidAtom).map Prod.snd =
    ((placeholdersFrom vm.nodes.size fresh).filter fun n => n.name = kInvalidAtom).map Node.id

theorem Integrity.properIndex (h : vm.Integrity) (hsize : vm.nodes.size < 2 ^ 32) :
    ProperIndex vm.nameIndex := by
  intro a i hi
  refine ⟨(h.index a i hi).1, fun hinvalid => ?_⟩
  have hlt : i.toNat < vm.nodes.size := h.lt_of_index hi
  have : kInvalidNode.toNat = 2 ^ 32 - 1 := rfl
  rw [hinvalid] at hlt
  omega

theorem Sound.groupClosed (hs : vm.Sound) (h : Effect env vm .endGroup vm') :
    ∃ frame frames fresh targets, vm.frames = frame :: frames ∧ vm'.frames = frames ∧
      vm.GroupClosed vm' frame fresh targets := by
  cases h with
  | @endGroup frame frames _ hf hr =>
    have hmem : frame ∈ vm.frames := hf ▸ List.mem_cons_self
    have hroom : vm.nodes.size + frame.deferredChildren.length < 2 ^ 32 := by
      have := hs.room
      unfold weight at this
      rw [hf, List.map_cons, List.sum_cons] at this
      omega
    have hpop : ({ vm with frames } : ReplayVM).Integrity :=
      ⟨hs.toGraphOk, fun g hg => hs.frames g (hf ▸ List.mem_cons_of_mem _ hg)⟩
    have hproper := hs.toIntegrity.properIndex (by omega)
    obtain ⟨hdata, hindex⟩ := hpop.resolve_eq (hs.slots frame hmem) (hs.frames frame hmem) hroom hr
    refine ⟨frame, frames, _, _, hf, (resolve_size hr).1, hdata, length_linkTargets ..,
      linkTargets_ne_invalid hroom, ?_, ?_, ?_, ?_, ?_,
      fun n => mem_linkTargets_of_placeholder, linkTargets_anonymous hproper hroom⟩
    · intro j child hj hnamed
      rw [linkTargets_findIn hproper hroom hj hnamed, findNamed, hindex]
      rfl
    · intro a i hi
      rw [hindex]
      exact lookup_registerFrom hproper hroom hi
    · intro a ha
      rw [hindex]
      exact lookup_registerFrom_of_not_mem fun hfresh => ha (freshNames_subset hfresh)
    · exact fun a hnamed => count_freshNames hproper hroom hnamed
    · exact count_freshNames_anonymous hproper hroom

end ReplayVM

section Runs

/-- **What an `END_GROUP` does**, in every run from a decoded heap whose limits keep node ids within
32 bits. -/
theorem endGroup_links (env : Env) (bytes rest : Bytes) (heap : HeapImage) (journal : Bytes) (k : Nat)
    (vm vm' : ReplayVM) (hids : env.limits.IdsFit)
    (hheap : decodeHeap env.growth env.schema env.atoms env.limits bytes = .ok (heap, rest))
    (hexec : Executes env (ReplayVM.seed {} heap) journal k vm .endGroup vm') :
    ∃ frame frames fresh targets, vm.frames = frame :: frames ∧ vm'.frames = frames ∧
      vm.GroupClosed vm' frame fresh targets := by
  obtain ⟨r, hbefore⟩ := hexec.before
  exact (sound_of_stateAt hids hheap hbefore).groupClosed hexec.effect

/-- `forwardChild`, whose last opcode closes the group. -/
theorem endGroup_links_forwardChild : ∃ vm vm', Executes twoNames (ReplayVM.seed {} ⟨Vec.empty⟩)
    (4 :: forwardChild.flatMap Op.encode) 3 vm .endGroup vm' ∧
    ∃ frame frames fresh targets, vm.frames = frame :: frames ∧ vm'.frames = frames ∧
      vm.GroupClosed vm' frame fresh targets := by
  have hexec : Executes twoNames (ReplayVM.seed {} ⟨Vec.empty⟩)
      (4 :: forwardChild.flatMap Op.encode) 3 _ .endGroup _ :=
    ⟨ReplayVM.effect_of_exec rfl, _, _, ⟨4, _, rfl, by decide, by decide, rfl⟩, rfl,
      4, _, rfl, by decide, by decide, rfl⟩
  exact ⟨_, _, hexec, endGroup_links twoNames [0] [] _ _ 3 _ _ idsFit_default rfl hexec⟩

end Runs

end Stratavm
