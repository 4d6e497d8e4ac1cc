import Stratavm.ReplayVm.Reach
import Stratavm.XrefIndex

/-!
# The live name index and the derived one

The machine keeps its name index up to date opcode by opcode; `XrefIndex::build` scans the final
table. Both let the last alive node of a name have it (`lookup_nameToId`), so they stay equal under
every append (`nameToId_append`). Dropping the node that has a name is where they part: the live
index forgets the name, the scan finds the node it shadowed.

* **`names_agree_iff`**: the two agree in every state of a run iff no `DROP_NODE` of it drops the
  node that has a name while another alive node is called the same.
* `shadowed_name_lost`: two nodes of one name, the second dropped.
-/

namespace Stratavm

open Lib

/-! ## The derived index -/

/-- The alive nodes called `a`, in table order. -/
def namesakes (nodes : List Node) (a : AtomId) : List Node :=
  nodes.filter fun n => n.alive && n.name == a

theorem mem_namesakes {nodes : List Node} {a : AtomId} {n : Node} :
    n ∈ namesakes nodes a ↔ n ∈ nodes ∧ n.alive = true ∧ n.name = a := by
  simp [namesakes, List.mem_filter]

namespace XrefIndex

/-- An alive node takes its name over. -/
theorem nameToId_append {nodes : List Node} {n : Node} (ha : n.alive = true) :
    (build (nodes ++ [n])).nameToId = registerName (build nodes).nameToId n.name n.id := by
  simp only [build, List.foldl_append, List.foldl_cons, List.foldl_nil]
  unfold registerName
  by_cases hn : n.name = kInvalidAtom <;> simp [hn, ha]

/-- Only the ids, names and `alive` flags matter. -/
theorem nameToId_congr {nodes nodes' : List Node}
    (h : nodes'.map (fun n => (n.id, n.name, n.alive)) =
      nodes.map fun n => (n.id, n.name, n.alive)) :
    (build nodes').nameToId = (build nodes).nameToId := by
  have hfold : ∀ nodes : List Node, (build nodes).nameToId =
      (nodes.map fun n => (n.id, n.name, n.alive)).foldl (fun index e =>
        if e.2.1 ≠ kInvalidAtom ∧ e.2.2 = true then index.insert e.2.1 e.1 else index) ∅ := by
    intro nodes
    rw [List.foldl_map]
    rfl
  rw [hfold, hfold, h]

/-- **The last alive node of a name has it.** -/
theorem lookup_nameToId (nodes : List Node) (a : AtomId) :
    (build nodes).nameToId.lookup a =
      if a = kInvalidAtom then none else (namesakes nodes a).getLast?.map Node.id := by
  induction nodes using List.reverseRecOn with
  | nil =>
    show (∅ : UMap AtomId NodeId).lookup a = _
    simp [namesakes, Finmap.lookup_empty]
  | append_singleton nodes n ih =>
    by_cases hn : n.alive = true
    · rw [nameToId_append hn, lookup_registerName, ih]
      by_cases hname : n.name = a
      · by_cases hinv : a = kInvalidAtom <;> simp [namesakes, hn, hname, hinv]
      · have hne : a ≠ n.name := fun heq => hname heq.symm
        simp [namesakes, hn, hname, hne]
    · have hsame : (build (nodes ++ [n])).nameToId = (build nodes).nameToId := by
        simp [build, hn]
      rw [hsame, ih]
      simp [namesakes, hn]

end XrefIndex

namespace ReplayVM

/-- The machine's index is the derived one. -/
def NamesDerived (vm : ReplayVM) : Prop :=
  vm.nameIndex = (XrefIndex.build vm.nodes.data).nameToId

/-- `find_named` and `by_name` give the same node for every name. -/
def NamesAgree (vm : ReplayVM) : Prop :=
  ∀ a, vm.findNamed a = (XrefIndex.build vm.nodes.data).byName a

/-- The opcode does not drop the node that has a name while another alive node is called the same. -/
def KeepsNames (vm : ReplayVM) : Op → Prop
  | .dropNode i => ∀ node, vm.node? i = some node → vm.findNamed node.name = i →
      ∀ m ∈ vm.nodes.data, m.alive = true → m.name = node.name → m.id = i
  | _ => True

variable {env : Env} {vm vm' : ReplayVM}

theorem NamesDerived.agree (h : vm.NamesDerived) : vm.NamesAgree := by
  intro a
  rw [findNamed, XrefIndex.byName, h]

theorem NamesDerived.of_modify (h : vm.NamesDerived) {i : Nat} {f : Node → Node}
    (hnodes : vm'.nodes = vm.nodes.modify i f) (hindex : vm'.nameIndex = vm.nameIndex)
    (hf : ∀ n, (f n).id = n.id ∧ (f n).name = n.name ∧ (f n).alive = n.alive) :
    vm'.NamesDerived := by
  unfold NamesDerived
  rw [hindex, hnodes, h, Vec.data_modify]
  refine (XrefIndex.nameToId_congr (map_modify_eq (fun n => ?_) _ i)).symm
  obtain ⟨hid, hname, halive⟩ := hf n
  rw [hid, hname, halive]

theorem NamesDerived.of_push (h : vm.NamesDerived) {n : Node} (ha : n.alive = true)
    (hnodes : vm'.nodes = vm.nodes.pushBack env.growth n)
    (hindex : vm'.nameIndex = registerName vm.nameIndex n.name n.id) : vm'.NamesDerived := by
  unfold NamesDerived
  rw [hindex, hnodes, Vec.data_pushBack, XrefIndex.nameToId_append ha, ← h]

theorem NamesDerived.target (h : vm.NamesDerived) (child : AtomId) :
    (vm.target env child).2.NamesDerived := by
  rcases target_eq env vm child with ⟨-, heq⟩ | ⟨-, heq⟩
  · rw [heq]
    exact h.of_push rfl rfl rfl
  · rw [heq]
    exact h

theorem NamesDerived.attach (h : vm.NamesDerived) (slot : Nat) (t : NodeId) :
    (vm.attach slot t).NamesDerived := by
  let mid : ReplayVM := { vm with
    nodes := vm.nodes.modify slot fun n => { n with children := n.children ++ [t] } }
  have hmid : mid.NamesDerived := h.of_modify rfl rfl fun _ => ⟨rfl, rfl, rfl⟩
  exact hmid.of_modify rfl rfl fun _ => ⟨rfl, rfl, rfl⟩

theorem resolve_namesDerived {frame : GroupFrame} {children : List AtomId} (h0 : vm.NamesDerived)
    (h : resolve env frame children vm = some vm') : vm'.NamesDerived := by
  refine resolve_induction (P := ReplayVM.NamesDerived) h h0 fun vm child slot _ _ hvm => ?_
  exact (hvm.target child).attach slot _

/-! ### Dropping -/

/-- An id that names a node is not `kInvalidNode`. -/
theorem Sound.id_ne_invalid (h : vm.Sound) {n : Node} (hn : n ∈ vm.nodes.data) :
    n.id ≠ kInvalidNode := by
  intro heq
  obtain ⟨i, hi⟩ := List.mem_iff_getElem?.mp hn
  have hid := h.ids i n hi
  have hlt : i < vm.nodes.size := (List.getElem?_eq_some_iff.mp hi).1
  have hroom := Nat.lt_of_le_of_lt size_le_weight h.room
  have hinv : kInvalidNode.toNat = 2 ^ 32 - 1 := rfl
  rw [heq, hinv] at hid
  omega

/-- Where ids are positions, changing a node is changing the one with its id. -/
theorem modify_eq_map {nodes : List Node} (hids : ∀ j (n : Node), nodes[j]? = some n → n.id.toNat = j)
    (i : NodeId) (f : Node → Node) :
    nodes.modify i.toNat f = nodes.map fun n => if n.id = i then f n else n := by
  refine List.ext_getElem? fun j => ?_
  rw [List.getElem?_modify, List.getElem?_map]
  cases hj : nodes[j]? with
  | none => rfl
  | some n =>
    have hid := hids j n hj
    by_cases hni : n.id = i
    · simp [hni, ← hid]
    · have hne : i.toNat ≠ j := fun heq => hni (UInt32.toNat_inj.mp (hid.trans heq.symm))
      simp [hni, hne]

/-- Dropping node `i` takes it out of its namesakes. -/
theorem Sound.namesakes_drop (h : vm.Sound) (i : NodeId) (node : Node) (a : AtomId) :
    namesakes (vm.drop i node).nodes.data a =
      (namesakes vm.nodes.data a).filter fun n => n.id ≠ i := by
  have hdrop : (vm.drop i node).nodes.data = vm.nodes.data.map fun n =>
      if n.id = i then { n with alive := false, generation := n.generation + 1 } else n :=
    modify_eq_map h.ids i _
  rw [hdrop]
  unfold namesakes
  rw [List.filter_filter]
  generalize vm.nodes.data = nodes
  induction nodes with
  | nil => rfl
  | cons n nodes ih =>
    rw [List.map_cons]
    by_cases hni : n.id = i
    · simp [hni, ih]
    · simp [hni, List.filter_cons, ih]

theorem getLast?_filter {α : Type} {p : α → Bool} {xs : List α} {x : α}
    (h : xs.getLast? = some x) (hx : p x = true) : (xs.filter p).getLast? = some x := by
  obtain ⟨ys, rfl⟩ := List.getLast?_eq_some_iff.mp h
  simp [List.filter_append, hx]

/-- The node with id `i`, by its id. -/
theorem Sound.eq_of_id (h : vm.Sound) {i : NodeId} {node : Node} (hnode : vm.node? i = some node)
    {n : Node} (hn : n ∈ vm.nodes.data) (hid : n.id = i) : n = node := by
  obtain ⟨j, hj⟩ := List.mem_iff_getElem?.mp hn
  have hji : i.toNat = j := hid ▸ h.ids j n hj
  rw [← hji] at hj
  exact Option.some.inj (hj.symm.trans hnode)

/-- Dropping a node whose name is not shadowing another keeps the index the derived one. -/
theorem Sound.drop_namesDerived (h : vm.Sound) {i : NodeId} {node : Node}
    (hnode : vm.node? i = some node) (hnames : vm.NamesDerived)
    (hkeep : vm.KeepsNames (.dropNode i)) : (vm.drop i node).NamesDerived := by
  have hlookup : ∀ a, vm.nameIndex.lookup a = if a = kInvalidAtom then none else
      (namesakes vm.nodes.data a).getLast?.map Node.id := fun a => by
    rw [hnames, XrefIndex.lookup_nameToId]
  refine Finmap.ext_lookup fun a => ?_
  rw [XrefIndex.lookup_nameToId, h.namesakes_drop]
  by_cases hinv : a = kInvalidAtom
  · have hnone : vm.nameIndex.lookup a = none := by rw [hlookup, if_pos hinv]
    rw [if_pos hinv]
    simp only [ReplayVM.drop]
    split
    · rename_i hc
      have hne : a ≠ node.name := fun heq => hc.1 (heq.symm.trans hinv)
      rw [Finmap.lookup_erase_ne hne]
      exact hnone
    · exact hnone
  rw [if_neg hinv]
  by_cases ha : a = node.name
  · subst ha
    cases hlast : (namesakes vm.nodes.data node.name).getLast? with
    | none =>
      have hnil := List.getLast?_eq_none_iff.mp hlast
      have hnone : vm.nameIndex.lookup node.name = none := by
        rw [hlookup, if_neg hinv, hlast]
        rfl
      simp [ReplayVM.drop, hnil, hnone]
    | some last =>
      have hsome : vm.nameIndex.lookup node.name = some last.id := by
        rw [hlookup, if_neg hinv, hlast]
        rfl
      by_cases hid : last.id = i
      · -- the name goes, and nothing else is called so
        have hfound : vm.findNamed node.name = i := by
          rw [findNamed, hsome, hid]
          rfl
        have hnil : ((namesakes vm.nodes.data node.name).filter fun n => n.id ≠ i) = [] := by
          rw [List.filter_eq_nil_iff]
          intro n hn
          obtain ⟨hmem, halive, hname⟩ := mem_namesakes.mp hn
          simpa using hkeep node hnode hfound n hmem halive hname
        rw [hnil]
        simp [ReplayVM.drop, hinv, hsome, hid, Finmap.lookup_erase]
      · rw [getLast?_filter hlast (by simpa using hid)]
        simp [ReplayVM.drop, hsome, hid]
  · -- the other names keep their nodes
    have hsame : ((namesakes vm.nodes.data a).filter fun n => n.id ≠ i) =
        namesakes vm.nodes.data a := by
      rw [List.filter_eq_self]
      intro n hn
      obtain ⟨hmem, -, hname⟩ := mem_namesakes.mp hn
      have hne : n.id ≠ i := fun hid => ha (hname.symm.trans (h.eq_of_id hnode hmem hid ▸ rfl))
      simpa using hne
    have hlook := hlookup a
    rw [if_neg hinv] at hlook
    rw [hsame, ← hlook]
    simp only [ReplayVM.drop]
    split
    · exact Finmap.lookup_erase_ne ha
    · rfl

/-- Dropping a node whose name shadows another loses that name. -/
theorem Sound.drop_disagree (h : vm.Sound) {i : NodeId} {node : Node}
    (hnode : vm.node? i = some node) (hkeep : ¬ vm.KeepsNames (.dropNode i)) :
    ¬ (vm.drop i node).NamesAgree := by
  intro hagree
  unfold KeepsNames at hkeep
  push Not at hkeep
  obtain ⟨node', hnode', hfound, m, hm, halive, hname, hne⟩ := hkeep
  obtain rfl := Option.some.inj (hnode.symm.trans hnode')
  have hid : node.id = i := UInt32.toNat_inj.mp (h.ids _ _ hnode)
  have hvalid : i ≠ kInvalidNode := hid ▸ h.id_ne_invalid (List.mem_of_getElem? hnode)
  have hlookup : vm.nameIndex.lookup node.name = some i := by
    rw [lookup_of_findNamed (hfound.symm ▸ hvalid), hfound]
  have hinv : node.name ≠ kInvalidAtom := (h.index _ _ hlookup).1
  have hlost : (vm.drop i node).findNamed node.name = kInvalidNode := by
    simp [findNamed, ReplayVM.drop, hinv, hlookup, Finmap.lookup_erase]
  -- the derived index finds the shadowed node instead
  have hmem : m ∈ (namesakes vm.nodes.data node.name).filter fun n => n.id ≠ i :=
    List.mem_filter.mpr ⟨mem_namesakes.mpr ⟨hm, halive, hname⟩, by simpa using hne⟩
  cases hlast : ((namesakes vm.nodes.data node.name).filter fun n => n.id ≠ i).getLast? with
  | none =>
    rw [List.getLast?_eq_none_iff.mp hlast] at hmem
    cases hmem
  | some last =>
    have hby : (XrefIndex.build (vm.drop i node).nodes.data).byName node.name = last.id := by
      rw [XrefIndex.byName, XrefIndex.lookup_nameToId, if_neg hinv, h.namesakes_drop, hlast]
      rfl
    have hlastmem := (List.mem_filter.mp (List.mem_of_getLast? hlast)).1
    refine h.id_ne_invalid (mem_namesakes.mp hlastmem).1 ?_
    rw [← hby, ← hagree, hlost]

/-! ### One opcode -/

/-- **An opcode keeps the indexes equal**, unless it drops a node whose name shadows another. -/
theorem Effect.namesDerived {op : Op} (hsound : vm.Sound) (hnames : vm.NamesDerived)
    (hkeep : vm.KeepsNames op) (h : Effect env vm op vm') : vm'.NamesDerived := by
  cases h with
  | newNode => exact hnames.of_push rfl rfl rfl
  | setField => exact hnames.of_modify rfl rfl fun _ => ⟨rfl, rfl, rfl⟩
  | beginGroup => simpa [NamesDerived, openGroup] using hnames
  | @endGroup _ frames _ _ hr =>
    have hpop : ({ vm with frames } : ReplayVM).NamesDerived := hnames
    exact resolve_namesDerived hpop hr
  | linkRef => exact hnames.of_modify rfl rfl fun _ => ⟨rfl, rfl, rfl⟩
  | drop hnode _ => exact hsound.drop_namesDerived hnode hnames hkeep
  | _ => exact hnames

/-- An opcode after which the indexes agree kept the names. -/
theorem Effect.keepsNames {op : Op} (hsound : vm.Sound) (h : Effect env vm op vm')
    (hagree : vm'.NamesAgree) : vm.KeepsNames op := by
  cases h with
  | @drop i node hnode _ =>
    by_contra hkeep
    exact hsound.drop_disagree hnode hkeep hagree
  | @dropDead i node hnode ha =>
    -- a dropped node has no name in the index
    intro node' hnode' hfound
    obtain rfl := Option.some.inj (hnode.symm.trans hnode')
    have hid : node.id = i := UInt32.toNat_inj.mp (hsound.ids _ _ hnode)
    have hvalid : i ≠ kInvalidNode := hid ▸ hsound.id_ne_invalid (List.mem_of_getElem? hnode)
    have hlookup := lookup_of_findNamed (hfound.symm ▸ hvalid)
    rw [hfound] at hlookup
    obtain ⟨-, n, hn, -, halive⟩ := hsound.index _ _ hlookup
    obtain rfl := Option.some.inj (hn.symm.trans hnode)
    rw [ha] at halive
    cases halive
  | _ => trivial

end ReplayVM

/-! ## Runs -/

section Runs

variable {env : Env}

/-- A decoded heap, installed, has the derived index. -/
theorem namesDerived_seed {limits : Limits} {r r' : Bytes} {heap : HeapImage}
    (h : decodeHeap env.growth env.schema env.atoms limits r = .ok (heap, r')) :
    (ReplayVM.seed {} heap).NamesDerived := by
  refine List.foldl_ext _ _ _ fun index n hn => ?_
  obtain ⟨i, hi⟩ := List.mem_iff_getElem?.mp hn
  have halive := ((decodeHeap_spec h).2 i n hi).alive
  unfold registerName
  by_cases hname : n.name = kInvalidAtom <;> simp [hname, halive]

/-- **The live name index agrees with the derived one** in every state of a run iff no opcode of it
drops the node that has a name while another alive node is called the same. -/
theorem names_agree_iff (hids : env.limits.IdsFit) {bytes rest : Bytes} {heap : HeapImage}
    (hheap : decodeHeap env.growth env.schema env.atoms env.limits bytes = .ok (heap, rest))
    (journal : Bytes) :
    (∀ vm, Visits env (ReplayVM.seed {} heap) journal vm → vm.NamesAgree) ↔
      ∀ k vm op vm', Executes env (ReplayVM.seed {} heap) journal k vm op vm' →
        vm.KeepsNames op := by
  constructor
  · intro h k vm op vm' hexec
    obtain ⟨r, hbefore⟩ := hexec.before
    obtain ⟨r', hafter⟩ := hexec.after
    have hagree : vm'.NamesAgree := h vm'.tick (visits_iff.mpr ⟨_, _, hafter⟩)
    exact hexec.effect.keepsNames (sound_of_stateAt hids hheap hbefore) hagree
  · intro h vm hvm
    obtain ⟨k, r, hstate⟩ := visits_iff.mp hvm
    refine ReplayVM.NamesDerived.agree ?_
    refine hstate.induction (P := fun _ vm => vm.NamesDerived) (namesDerived_seed hheap) ?_
    intro k vm op vm' hexec ih
    obtain ⟨r, hbefore⟩ := hexec.before
    have hderived : vm'.NamesDerived :=
      hexec.effect.namesDerived (sound_of_stateAt hids hheap hbefore) ih (h k vm op vm' hexec)
    exact hderived

/-- Two nodes of one name, the second dropped. -/
def dropShadow : List Op := [.newNode 0 0, .newNode 0 0, .dropNode 1]

theorem shadowed_name_lost :
    ∃ heap vm, decodeHeap oneOwner.growth oneOwner.schema oneOwner.atoms oneOwner.limits [0] =
        .ok (heap, []) ∧
      Visits oneOwner (ReplayVM.seed {} heap) (3 :: dropShadow.flatMap Op.encode) vm ∧
      ¬ vm.NamesAgree := by
  refine ⟨⟨Vec.empty⟩, _, rfl,
    ⟨3, _, 3, [], rfl, by decide, Nat.le_refl 3, Machine.ok_of_fst rfl⟩, fun h => ?_⟩
  exact absurd (h 0) (by decide)

/-- Two nodes of one name, the first dropped. -/
def dropShadowed : List Op := [.newNode 0 0, .newNode 0 0, .dropNode 0]

theorem names_agree_dropShadowed :
    (∀ vm, Visits oneOwner (ReplayVM.seed {} ⟨Vec.empty⟩)
        (3 :: dropShadowed.flatMap Op.encode) vm → vm.NamesAgree) ↔
      ∀ k vm op vm', Executes oneOwner (ReplayVM.seed {} ⟨Vec.empty⟩)
        (3 :: dropShadowed.flatMap Op.encode) k vm op vm' → vm.KeepsNames op := by
  have hheap : decodeHeap oneOwner.growth oneOwner.schema oneOwner.atoms oneOwner.limits [0] =
      .ok (⟨Vec.empty⟩, []) := rfl
  exact names_agree_iff idsFit_default hheap _

end Runs

end Stratavm
