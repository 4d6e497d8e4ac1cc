import Stratavm.Lib.Weigh
import Stratavm.Loader.Graph
import Stratavm.Loader.Rewritten
import Stratavm.XrefIndex.Inverse

/-!
# What a container holds is linear in its file

The limits bound what `load` builds, and they are generous. The bytes bound it too. A cell is a node, an edge,
an entry of a map or a list. Each opcode and each heap node takes at least half a byte for each cell it adds to
the VM, if an `ADD_CHILD` pays for what its `END_GROUP` builds: a placeholder, its name, the child and the
reference back.

* `Effect.cells_le`: an opcode adds at most two cells a byte, with what it owes to open groups.
* `cells_seed_lt`: the heap section seeds at most one cell a byte.
* **`load_linear`**: what is loaded has at most two cells for each byte of the six windows, and the index of the
  graph three for each cell of the graph.

Capacity is no cell: a `BEGIN_GROUP` of a few bytes reserves as many nodes as its hint says. The report of the
validator is apart as well: it can name each node for each required field.
-/

namespace Stratavm

open Lib Lib.Decoder ContainerBuilder

/-! ## Cells -/

/-- A value, and the items of a list. -/
def Value.cells : Value → Nat
  | .list items => items.length + 1
  | _ => 1

namespace Node

/-- The values of the fields. -/
def fieldCells (n : Node) : Nat := weigh Value.cells n.fields

/-- A node, its edges and its values. -/
def cells (n : Node) : Nat := 1 + n.refs.length + n.children.length + n.fieldCells

end Node

namespace ReplayVM

/-- The entries of all the tables of the VM. -/
def cells (vm : ReplayVM) : Nat :=
  tally (fun _ n => n.cells) vm.nodes.data + vm.nameIndex.keys.card + vm.freeList.length +
    vm.metaMap.keys.card + vm.snapshots.length

/-- What closing the open groups can still add: four cells for each child. -/
def owed (vm : ReplayVM) : Nat := (vm.frames.map fun f => 4 * f.deferredChildren.length).sum

end ReplayVM

/-- The entries of the index. -/
def XrefIndex.cells (index : XrefIndex) : Nat :=
  index.nameToId.keys.card + weigh List.length index.kindToIds + index.reverseAdj.length +
    (index.reverseAdj.map List.length).sum

/-- The texts with their characters, once in the list and once in the index. -/
def AtomPool.cells (p : AtomPool) : Nat :=
  (p.atoms.map fun s => s.length + 1).sum + ∑ s ∈ p.index.keys, (s.length + 1)

/-- The entries of the tables that the sections fill. -/
def LoadedContainer.cells (lc : LoadedContainer) : Nat :=
  lc.atoms.cells + (lc.schema.kinds.map fun k => k.fields.length + 1).sum +
    lc.vm.cells + lc.sectionMeta.keys.card

/-! ## What is written -/

theorem length_varint_pos (v : UInt64) : 0 < (varint v).length := by
  rw [varint, varintLoop_step]
  split <;> exact Nat.succ_pos _

/-- Items that each cost at most their bytes. -/
theorem le_length_flatMap {α : Type} (enc : α → Bytes) (cost : α → Nat) (items : List α)
    (h : ∀ a ∈ items, cost a ≤ (enc a).length) : (items.map cost).sum ≤ (items.flatMap enc).length := by
  induction items with
  | nil => exact Nat.le_refl 0
  | cons a items ih =>
    obtain ⟨ha, hrest⟩ := List.forall_mem_cons.mp h
    have := ih hrest
    rw [List.map_cons, List.sum_cons, List.flatMap_cons, List.length_append]
    omega

/-- The count in front of them is a byte more. -/
theorem lt_length_counted {α : Type} (enc : α → Bytes) (cost : α → Nat) (items : List α)
    (h : ∀ a ∈ items, cost a ≤ (enc a).length) : (items.map cost).sum < (counted enc items).length := by
  have := le_length_flatMap enc cost items h
  have := length_varint_pos (UInt64.ofNat items.length)
  rw [counted, List.length_append]
  omega

/-- A value has a cell for each byte, and one more. -/
theorem Value.cells_le (v : Value) : v.cells ≤ v.payload.length + 1 := by
  cases v with
  | list items =>
    have hitems := le_length_flatMap (fun n : NodeId => varint n.toUInt64) (fun _ => 1) items
      fun n _ => length_varint_pos n.toUInt64
    rw [List.map_const', List.sum_replicate_nat, Nat.mul_one] at hitems
    rw [payload, List.length_append]
    exact Nat.succ_le_succ (Nat.le_trans hitems (Nat.le_add_left _ _))
  | _ => exact Nat.le_add_left 1 _

/-! ## An opcode -/

section Op

variable {env : Env} {vm vm' : ReplayVM} {op : Op}

namespace Node

theorem cells_addRefs (n : Node) (ts : List NodeId) :
    ({ n with refs := n.refs ++ ts } : Node).cells = n.cells + ts.length := by
  show 1 + (n.refs ++ ts).length + n.children.length + n.fieldCells = _
  unfold cells
  rw [List.length_append]
  omega

theorem cells_addChild (n : Node) (t : NodeId) :
    ({ n with children := n.children ++ [t] } : Node).cells = n.cells + 1 := by
  show 1 + n.refs.length + (n.children ++ [t]).length + n.fieldCells = _
  unfold cells
  rw [List.length_append, List.length_singleton]
  omega

theorem cells_setField (n : Node) (f : FieldId) (v : Value) : (n.setField f v).cells ≤ n.cells + v.cells := by
  have hfields : (n.setField f v).fieldCells ≤ n.fieldCells + v.cells := weigh_insert_le n.fields f v
  exact Nat.le_trans (Nat.add_le_add_left hfields _) (Nat.le_of_eq (Nat.add_assoc _ _ _).symm)

end Node

theorem card_registerName_le (index : UMap AtomId NodeId) (name : AtomId) (id : NodeId) :
    (registerName index name id).keys.card ≤ index.keys.card + 1 := by
  unfold registerName
  split
  · exact Nat.le_succ _
  · exact card_keys_insert_le ..

namespace ReplayVM

theorem length_outgoing_le (size : Nat) (v : Value) : (outgoing size v).length ≤ v.cells := by
  cases v with
  | ref n =>
    simp only [outgoing]
    split
    · exact Nat.le_refl 1
    · exact Nat.zero_le 1
  | list items => exact Nat.le_succ_of_le (List.length_filter_le _ _)
  | _ => exact Nat.zero_le _

/-! ### Nodes -/

theorem cells_createNode (env : Env) (vm : ReplayVM) (kind : KindId) (name : AtomId) :
    (vm.createNode env kind name).cells ≤ vm.cells + 2 := by
  have := card_registerName_le vm.nameIndex name (UInt32.ofNat vm.nodes.size)
  unfold cells createNode
  simp only [Vec.data_pushBack, tally_append_singleton, Node.cells, Node.fieldCells, weigh_empty, List.length_nil]
  omega

/-- A change of one node, which may free it. -/
theorem cells_modify {i : Nat} {f : Node → Node} {k : Nat} (hnodes : vm'.nodes = vm.nodes.modify i f)
    (hf : ∀ n, (f n).cells ≤ n.cells + k) (hindex : vm'.nameIndex.keys.card ≤ vm.nameIndex.keys.card)
    (hfree : vm'.freeList.length ≤ vm.freeList.length + 1) (hmeta : vm'.metaMap = vm.metaMap)
    (hsnapshots : vm'.snapshots = vm.snapshots) : vm'.cells ≤ vm.cells + k + 1 := by
  have hle : tally (fun _ (n : Node) => n.cells) vm'.nodes.data ≤
      tally (fun _ n => n.cells) vm.nodes.data + k := by
    rw [hnodes, Vec.data_modify]
    exact tally_modify_le fun n _ => hf n
  unfold cells
  rw [hmeta, hsnapshots]
  omega

theorem cells_storeField (vm : ReplayVM) (nodeId : NodeId) (field : FieldId) (v : Value) :
    (vm.storeField nodeId field v).cells ≤ vm.cells + 2 * v.cells + 1 := by
  refine cells_modify rfl (fun n => ?_) (Nat.le_refl _) (Nat.le_succ _) rfl rfl
  have hset := Node.cells_setField { n with refs := n.refs ++ outgoing vm.nodes.size v } field v
  have hrefs := n.cells_addRefs (outgoing vm.nodes.size v)
  have hlen := length_outgoing_le vm.nodes.size v
  omega

theorem cells_storeRef (vm : ReplayVM) (src : NodeId) (field : FieldId) (target : NodeId) :
    (vm.storeRef src field target).cells ≤ vm.cells + 2 + 1 := by
  refine cells_modify rfl (fun n => ?_) (Nat.le_refl _) (Nat.le_succ _) rfl rfl
  have hset : (n.setField field (.ref target)).cells ≤ n.cells + 1 := n.cells_setField field (.ref target)
  exact Nat.le_trans (Nat.le_of_eq ((n.setField field (.ref target)).cells_addRefs [target]))
    (Nat.succ_le_succ hset)

theorem cells_drop (vm : ReplayVM) (nodeId : NodeId) (node : Node) :
    (vm.drop nodeId node).cells ≤ vm.cells + 0 + 1 := by
  have hindex : (vm.drop nodeId node).nameIndex.keys.card ≤ vm.nameIndex.keys.card := by
    unfold ReplayVM.drop
    dsimp only
    split
    · rw [Finmap.keys_erase]
      exact Finset.card_erase_le
    · exact Nat.le_refl _
  exact cells_modify (k := 0) rfl (fun n => Nat.le_refl n.cells) hindex (Nat.le_of_eq List.length_append) rfl rfl

theorem cells_takeSnapshot (vm : ReplayVM) (label : AtomId) : (vm.takeSnapshot label).cells = vm.cells + 1 := by
  unfold cells takeSnapshot
  rw [List.length_append, List.length_singleton]
  exact (Nat.add_assoc _ _ _).symm

theorem cells_putMeta (vm : ReplayVM) (key value : AtomId) : (vm.putMeta key value).cells ≤ vm.cells + 1 := by
  have := card_keys_insert_le vm.metaMap key value
  unfold cells putMeta
  dsimp only
  omega

/-! ### Groups -/

theorem owed_cons {frame : GroupFrame} {frames : List GroupFrame} (h : vm.frames = frame :: frames) :
    vm.owed = 4 * frame.deferredChildren.length + (frames.map fun f => 4 * f.deferredChildren.length).sum := by
  rw [owed, h, List.map_cons, List.sum_cons]

theorem owed_openGroup (owner : NodeId) (name : AtomId) (hint : UInt32) :
    (vm.openGroup env owner name hint).owed = vm.owed := by
  unfold owed openGroup
  rw [List.map_cons, List.sum_cons]
  exact Nat.zero_add _

theorem cells_openGroup (owner : NodeId) (name : AtomId) (hint : UInt32) :
    (vm.openGroup env owner name hint).cells = vm.cells := by
  unfold cells openGroup
  simp only [Vec.data_reserve]

theorem owed_queueChild {frame : GroupFrame} {frames : List GroupFrame} (h : vm.frames = frame :: frames)
    (child : AtomId) : (vm.queueChild frame frames child).owed = vm.owed + 4 := by
  have hqueued : (vm.queueChild frame frames child).frames = _ := rfl
  rw [owed_cons hqueued, owed_cons h, List.length_append, List.length_singleton]
  omega

theorem cells_attach (vm : ReplayVM) (slot : Nat) (t : NodeId) : (vm.attach slot t).cells ≤ vm.cells + 2 := by
  have hchild : tally (fun _ (n : Node) => n.cells)
      (vm.nodes.data.modify slot fun n => { n with children := n.children ++ [t] }) ≤
      tally (fun _ n => n.cells) vm.nodes.data + 1 :=
    tally_modify_le fun n _ => Nat.le_of_eq (n.cells_addChild t)
  have href : ∀ (nodes : List Node) (i : NodeId), tally (fun _ (n : Node) => n.cells)
      (nodes.modify t.toNat fun n => { n with refs := n.refs ++ [i] }) ≤
      tally (fun _ n => n.cells) nodes + 1 :=
    fun nodes i => tally_modify_le fun n _ => Nat.le_of_eq (n.cells_addRefs [i])
  have hback := href (vm.nodes.data.modify slot fun n => { n with children := n.children ++ [t] })
    ((vm.nodes.data[slot]?.map Node.id).getD kInvalidNode)
  unfold cells attach
  simp only [Vec.data_modify]
  omega

theorem cells_target (env : Env) (vm : ReplayVM) (child : AtomId) :
    (vm.target env child).2.cells ≤ vm.cells + 2 := by
  rcases target_eq env vm child with ⟨-, heq⟩ | ⟨-, heq⟩
  · rw [heq]
    have := card_registerName_le vm.nameIndex child (UInt32.ofNat vm.nodes.size)
    unfold cells materializePlaceholder
    simp only [Vec.data_pushBack, tally_append_singleton, Node.cells, Node.fieldCells, weigh_empty,
      List.length_nil]
    omega
  · rw [heq]
    exact Nat.le_add_right _ _

/-- Each child that is resolved adds four cells at most. -/
theorem cells_resolve {frame : GroupFrame} {children : List AtomId}
    (h : resolve env frame children vm = some vm') : vm'.cells ≤ vm.cells + 4 * children.length := by
  induction children generalizing vm with
  | nil =>
    obtain rfl := Option.some.inj h
    exact Nat.le_refl _
  | cons child children ih =>
    obtain ⟨slot, -, -, h⟩ := resolve_cons h
    have hrest := ih h
    have htarget := cells_target env vm child
    have hattach := cells_attach (vm.target env child).2 slot (vm.target env child).1
    rw [List.length_cons]
    omega

end ReplayVM

theorem Op.length_encode (op : Op) : op.encode.length = 1 + op.operands.length := by
  rw [encode, List.length_append]
  rfl

/-- **An opcode adds at most two cells for each byte**, with what the open groups are owed. -/
theorem ReplayVM.Effect.cells_le (h : Effect env vm op vm') :
    vm'.cells + vm'.owed ≤ vm.cells + vm.owed + 2 * op.encode.length := by
  rw [Op.length_encode]
  cases h with
  | @newNode kind name =>
    have hcells := cells_createNode env vm kind name
    have howed : (vm.createNode env kind name).owed = vm.owed := rfl
    omega
  | @setField nodeId field v =>
    have hcells := cells_storeField vm nodeId field v
    have howed : (vm.storeField nodeId field v).owed = vm.owed := rfl
    have := v.cells_le
    have := length_varint_pos nodeId.toUInt64
    have := length_varint_pos field.toUInt64
    rw [Op.operands, List.length_append, List.length_append]
    omega
  | beginGroup =>
    rw [cells_openGroup, owed_openGroup]
    exact Nat.le_add_right _ _
  | @endGroup frame frames vm' hf hr =>
    -- the children of the frame are paid for, and it is off the stack
    have hcells := cells_resolve hr
    have hpop : ({ vm with frames } : ReplayVM).cells = vm.cells := rfl
    have howed := owed_cons hf
    have hframes : vm'.owed = (frames.map fun f => 4 * f.deferredChildren.length).sum := by
      rw [owed, (resolve_size hr).1]
    omega
  | @addChild child frame frames hf =>
    have hcells : (vm.queueChild frame frames child).cells = vm.cells := rfl
    have howed := owed_queueChild hf child
    have := length_varint_pos child.toUInt64
    rw [Op.operands]
    omega
  | linkRefMissing =>
    exact Nat.le_add_right _ _
  | @linkRef src field name =>
    have hcells := cells_storeRef vm src field (vm.findNamed name)
    have howed : (vm.storeRef src field (vm.findNamed name)).owed = vm.owed := rfl
    have := length_varint_pos src.toUInt64
    rw [Op.operands, List.length_append]
    omega
  | dropDead =>
    exact Nat.le_add_right _ _
  | @drop nodeId node =>
    have hcells := cells_drop vm nodeId node
    have howed : (vm.drop nodeId node).owed = vm.owed := rfl
    omega
  | @snapshot label =>
    have hcells := cells_takeSnapshot vm label
    have howed : (vm.takeSnapshot label).owed = vm.owed := rfl
    omega
  | @setMeta key value =>
    have hcells := cells_putMeta vm key value
    have howed : (vm.putMeta key value).owed = vm.owed := rfl
    omega
  | nop =>
    exact Nat.le_add_right _ _

/-- **A run adds at most two cells for each byte of its opcodes.** -/
theorem Performs.cells_le {ops : List Op} (h : Performs env ops vm vm') :
    vm'.cells + vm'.owed ≤ vm.cells + vm.owed + 2 * (ops.flatMap Op.encode).length := by
  induction h with
  | nil => exact Nat.le_refl _
  | @cons op ops vm vm1 vm' _ heff _ ih =>
    have hstep := heff.cells_le
    have hcells : vm1.tick.cells = vm1.cells := rfl
    have howed : vm1.tick.owed = vm1.owed := rfl
    rw [List.flatMap_cons, List.length_append]
    omega

end Op

/-! ## The heap section -/

theorem Node.fieldCells_setAll (sets : List (FieldId × Value)) :
    weigh Value.cells (setAll sets) ≤ (sets.map fun s => s.2.cells).sum := by
  induction sets using List.reverseRecOn with
  | nil => exact Nat.le_of_eq weigh_empty
  | append_singleton sets s ih =>
    have hlast := weigh_insert_le (w := Value.cells) (setAll sets) s.1 s.2
    rw [List.map_append, List.sum_append, List.map_singleton, List.sum_singleton, setAll, List.foldl_append]
    exact Nat.le_trans hlast (Nat.add_le_add_right ih _)

namespace ContainerBuilder.HeapNodeSets

/-- A node has at least three bytes more than cells. -/
theorem cells_node (i : Nat) (n : HeapNodeSets) : (n.node i).cells + 3 ≤ (nodeBytes i n.spec).length := by
  have hfields : (n.node i).fieldCells ≤ _ := Node.fieldCells_setAll n.sets
  have hsets := le_length_flatMap (fun s => valueBytes (encodeField s)) (fun s => s.2.cells) n.sets fun s _ => ?_
  · have hspec : n.spec.fields.flatMap valueBytes = n.sets.flatMap fun s => valueBytes (encodeField s) :=
      List.flatMap_map ..
    have := length_varint_pos (UInt64.ofNat i)
    have := length_varint_pos n.spec.kind.toUInt64
    have := length_varint_pos n.spec.name.toUInt64
    have := length_varint_pos (UInt64.ofNat n.spec.fields.length)
    have hcells : (n.node i).cells = 1 + (n.node i).fieldCells := rfl
    simp only [nodeBytes, List.length_append, hspec]
    omega
  · have hone : (valueBytes (encodeField s)).length = (varint s.1.toUInt64).length + s.2.payload.length :=
      List.length_append
    have := length_varint_pos s.1.toUInt64
    have := s.2.cells_le
    omega

end ContainerBuilder.HeapNodeSets

theorem tally_cells_node_le (parts : List HeapNodeSets) :
    tally (fun _ n => n.cells) (parts.mapIdx HeapNodeSets.node) + parts.length ≤
      (((parts.map HeapNodeSets.spec).mapIdx nodeBytes).flatten).length := by
  induction parts using List.reverseRecOn with
  | nil => exact Nat.le_refl 0
  | append_singleton parts part ih =>
    have hone := part.cells_node parts.length
    rw [List.mapIdx_concat, tally_append_singleton, List.map_append, List.map_singleton, List.mapIdx_concat,
      List.length_map, List.flatten_append, List.length_append, List.length_append, List.flatten_singleton,
      List.length_singleton]
    omega

/-- **What the heap section seeds** has a cell for each byte, those of the name index among them. -/
theorem cells_seed_lt (g : Growth) (parts : List HeapNodeSets) :
    (ReplayVM.seed {} ⟨pushAll g (parts.mapIdx HeapNodeSets.node)⟩).cells < (heapPayload parts).length := by
  have hindex := foldl_le_length (fun index : UMap AtomId NodeId => index.keys.card)
    (fun index n => card_registerName_le index n.name n.id) ∅ (parts.mapIdx HeapNodeSets.node)
  rw [Finmap.keys_empty, Finset.card_empty, Nat.zero_add, List.length_mapIdx] at hindex
  have hnodes := tally_cells_node_le parts
  have := length_varint_pos (UInt64.ofNat parts.length)
  unfold ReplayVM.cells ReplayVM.seed
  rw [heapPayload, List.length_append]
  simp only [data_pushAll, List.length_nil, Finmap.keys_empty, Finset.card_empty]
  omega

/-! ## The index -/

section Index

variable (nodes : List Node)

theorem cells_nameToId_le : (XrefIndex.build nodes).nameToId.keys.card ≤ nodes.length := by
  have hstep : ∀ (index : UMap AtomId NodeId) (n : Node),
      (if n.name ≠ kInvalidAtom ∧ n.alive = true then index.insert n.name n.id else index).keys.card ≤
        index.keys.card + 1 := by
    intro index n
    split
    · exact card_keys_insert_le index n.name n.id
    · exact Nat.le_succ _
  have hfold := foldl_le_length (fun index : UMap AtomId NodeId => index.keys.card) hstep ∅ nodes
  rwa [Finmap.keys_empty, Finset.card_empty, Nat.zero_add] at hfold

theorem cells_kindToIds_le : weigh List.length (XrefIndex.build nodes).kindToIds ≤ nodes.length := by
  have hstep : ∀ (index : UMap KindId (List NodeId)) (n : Node), weigh List.length
      (if n.kind ≠ kInvalidKind then index.insert n.kind ((index.lookup n.kind).getD [] ++ [n.id]) else index) ≤
        weigh List.length index + 1 := by
    intro index n
    split
    · -- the list of the kind grows by the node
      have hone := weigh_insert (w := List.length) index n.kind ((index.lookup n.kind).getD [] ++ [n.id])
      have hlist : ((index.lookup n.kind).map List.length).getD 0 = ((index.lookup n.kind).getD []).length := by
        cases index.lookup n.kind <;> rfl
      rw [List.length_append, List.length_singleton] at hone
      omega
    · exact Nat.le_succ _
  have hfold := foldl_le_length (weigh List.length) hstep ∅ nodes
  rwa [weigh_empty, Nat.zero_add] at hfold

theorem cells_recordEdges_le (id : NodeId) (targets : List NodeId) (adj : List (List NodeId)) :
    tally (fun _ => List.length) (XrefIndex.recordEdges id targets adj) ≤
      tally (fun _ => List.length) adj + targets.length :=
  foldl_le_length (tally fun _ => List.length)
    (fun _ _ => tally_modify_le fun _ _ => Nat.le_of_eq List.length_append) adj targets

theorem cells_reverseAdj_le : tally (fun _ => List.length) (XrefIndex.build nodes).reverseAdj ≤
    (nodes.map fun n => n.refs.length + n.children.length).sum := by
  have hstep : ∀ (adj : List (List NodeId)) (n : Node), tally (fun _ => List.length)
      (XrefIndex.recordEdges n.id n.children (XrefIndex.recordEdges n.id n.refs adj)) ≤
        tally (fun _ => List.length) adj + (n.refs.length + n.children.length) := by
    intro adj n
    have hchildren := cells_recordEdges_le n.id n.children (XrefIndex.recordEdges n.id n.refs adj)
    have hrefs := cells_recordEdges_le n.id n.refs adj
    omega
  have hempty : tally (fun _ => List.length) (List.replicate nodes.length ([] : List NodeId)) = 0 := by
    rw [tally_const, List.map_replicate, List.sum_replicate_nat]
    exact Nat.mul_zero _
  have hfold := foldl_le_add (tally fun _ => List.length) (fun n => n.refs.length + n.children.length) hstep
    (List.replicate nodes.length []) nodes
  rwa [hempty, Nat.zero_add] at hfold

theorem edges_add_length_le : (nodes.map fun n => n.refs.length + n.children.length).sum + nodes.length ≤
    tally (fun _ n => n.cells) nodes := by
  induction nodes with
  | nil => exact Nat.le_refl 0
  | cons n nodes ih =>
    have hn : 1 + n.refs.length + n.children.length ≤ n.cells := Nat.le_add_right _ _
    rw [List.map_cons, List.sum_cons, List.length_cons, tally_cons]
    omega

/-- **The index takes at most three cells for each of the graph.** -/
theorem XrefIndex.cells_build_le : (XrefIndex.build nodes).cells ≤ 3 * tally (fun _ n => n.cells) nodes := by
  have hnames := cells_nameToId_le nodes
  have hkinds := cells_kindToIds_le nodes
  have hedges := cells_reverseAdj_le nodes
  have hnodes := edges_add_length_le nodes
  unfold XrefIndex.cells
  rw [length_reverseAdj, ← tally_const]
  omega

end Index

/-! ## The other sections -/

/-- The index of a pool copies each text at most once. -/
theorem AtomPool.Indexed.cells_add_two_le {p : AtomPool} (h : p.Indexed) :
    p.cells + 2 ≤ 2 * (counted lpString p.atoms).length := by
  have hsub : p.index.keys ⊆ p.atoms.dedup.toFinset := by
    intro s hs
    rw [Finmap.mem_keys, ← Finmap.lookup_isSome, h.lookup, Option.isSome_map] at hs
    rw [List.mem_toFinset, List.mem_dedup]
    by_contra hnot
    rw [List.idxOf?_eq_none_iff.mpr hnot] at hs
    exact absurd hs nofun
  have hkeys : ∑ s ∈ p.index.keys, (s.length + 1) ≤ (p.atoms.map fun s => s.length + 1).sum := by
    calc
      ∑ s ∈ p.index.keys, (s.length + 1)
        ≤ ∑ s ∈ p.atoms.dedup.toFinset, (s.length + 1) := Finset.sum_le_sum_of_subset hsub
      _ = (p.atoms.dedup.map fun s => s.length + 1).sum := List.sum_toFinset _ (List.nodup_dedup _)
      _ ≤ (p.atoms.map fun s => s.length + 1).sum :=
        ((List.dedup_sublist _).map _).sum_le_sum fun _ _ => Nat.zero_le _
  have htexts := lt_length_counted lpString (fun s => s.length + 1) p.atoms fun s _ => by
    have := length_varint_pos (UInt64.ofNat s.length)
    rw [lpString, List.length_append]
    omega
  unfold cells
  omega

theorem cells_kinds_lt (kinds : List KindDef) :
    (kinds.map fun k => k.fields.length + 1).sum < (counted kindBytes kinds).length := by
  refine lt_length_counted kindBytes _ kinds fun k _ => ?_
  have hfields := le_length_flatMap fieldBytes (fun _ => 1) k.fields fun f _ => by
    have := length_varint_pos f.name.toUInt64
    rw [fieldBytes, List.length_append]
    omega
  have := length_varint_pos k.name.toUInt64
  rw [List.map_const', List.sum_replicate_nat, Nat.mul_one] at hfields
  rw [kindBytes, List.length_append, List.length_append]
  omega

theorem two_mul_length_lt (entries : List (UInt32 × UInt32)) :
    2 * entries.length < (counted pairBytes entries).length := by
  have hentries := lt_length_counted pairBytes (fun _ => 2) entries fun e _ => by
    have := length_varint_pos e.1.toUInt64
    have := length_varint_pos e.2.toUInt64
    rw [pairBytes, List.length_append]
    omega
  rwa [List.map_const', List.sum_replicate_nat, Nat.mul_comm] at hentries

/-! ## The container -/

/-- A window is no longer than the file. -/
theorem SectionTable.Accepted.windowLength_le {table : SectionTable} {fileSize : Nat}
    (h : table.Accepted fileSize) (tag : SectionTag) : table.windowLength tag ≤ fileSize := by
  unfold windowLength
  cases hfind : table.find tag with
  | none => exact Nat.zero_le _
  | some e =>
    have := (h.windows e (List.mem_of_find?_eq_some hfind)).2
    rw [Option.map_some, Option.getD_some]
    omega

section Load

variable {growth : Growth} {ownerSlot : OwnerSlot} {options : LoadOptions} {lc : LoadedContainer} {c : Contents}

/-- A container has at most two cells for each byte of the payloads that it is made of, the counts of the
sections apart. -/
theorem ContainerBuilder.Contents.LoadsAs.cells_le (h : c.LoadsAs growth ownerSlot options lc) :
    lc.cells + 12 ≤ 2 * (c.payloads.map List.length).sum ∧ lc.xref.cells ≤ 3 * lc.vm.cells := by
  have hatoms := h.indexed.cells_add_two_le
  have hkinds := cells_kinds_lt c.kinds
  have hmeta := two_mul_length_lt (c.metaEntries.getD [])
  have hxref := two_mul_length_lt (c.xref.getD [])
  have hheap := cells_seed_lt growth c.heap
  have hrun := h.performs.cells_le
  have hcount := length_varint_pos (UInt64.ofNat c.ops.length)
  have howed : lc.vm.owed = 0 := by rw [ReplayVM.owed, h.frames]; rfl
  have hseeded : (ReplayVM.seed {} ⟨pushAll growth (c.heap.mapIdx HeapNodeSets.node)⟩).owed = 0 := rfl
  have hentries : lc.sectionMeta.keys.card ≤ (c.metaEntries.getD []).length := by
    rw [congrArg LoadedContainer.sectionMeta h.eq]
    show (if _ then _ else _ : UMap AtomId AtomId).keys.card ≤ _
    split
    · have hle := foldl_le_length (fun out : UMap AtomId AtomId => out.keys.card)
        (fun out e => card_keys_insert_le out e.1 e.2) ∅ (c.metaEntries.getD [])
      rwa [Finmap.keys_empty, Finset.card_empty, Nat.zero_add] at hle
    · rw [Finmap.keys_empty, Finset.card_empty]
      exact Nat.zero_le _
  have hindex : lc.xref.cells ≤ 3 * lc.vm.cells := by
    rw [congrArg LoadedContainer.xref h.eq]
    refine Nat.le_trans (XrefIndex.cells_build_le lc.vm.nodes.data) (Nat.mul_le_mul_left 3 ?_)
    unfold ReplayVM.cells
    omega
  refine ⟨?_, hindex⟩
  rw [← h.read.atoms] at hatoms
  unfold LoadedContainer.cells Contents.payloads
  rw [congrArg Schema.kinds h.schema]
  simp only [List.map_cons, List.map_nil, List.sum_cons, List.sum_nil, journalOf, List.length_append]
  omega

/-- **What a file holds is linear in its size.** -/
theorem load_linear (growth : Growth) (ownerSlot : OwnerSlot) (options : LoadOptions) (data : Bytes)
    (lc : LoadedContainer) (hload : load growth ownerSlot options data = .ok lc) :
    lc.cells ≤ 2 * (knownTags.map lc.sections.windowLength).sum ∧ lc.xref.cells ≤ 3 * lc.vm.cells ∧
      (knownTags.map lc.sections.windowLength).sum ≤ 6 * data.length := by
  obtain ⟨c, hc, hcost⟩ := exists_contents hload
  obtain ⟨hcells, hindex⟩ := hc.cells_le
  refine ⟨by omega, hindex, ?_⟩
  obtain ⟨r, table, hdecode, hsections⟩ := decode_of_load hload
  obtain ⟨atoms, schema, seeded, vm, ran, w, out, -, -, -, -, -, -, rfl⟩ := loadSections_ok_iff.mp hsections
  have hwindow := (SectionTable.accepted_of_decode hdecode).windowLength_le
  exact List.sum_le_card_nsmul (knownTags.map table.windowLength) data.length
    (List.forall_mem_map.mpr fun tag _ => hwindow tag)

theorem load_linear_linked : ∃ lc, load Growth.doubling .cached {} linkedContainer = .ok lc ∧
    lc.cells ≤ 2 * (knownTags.map lc.sections.windowLength).sum ∧ lc.xref.cells ≤ 3 * lc.vm.cells ∧
      (knownTags.map lc.sections.windowLength).sum ≤ 6 * linkedContainer.length :=
  ⟨_, rfl, load_linear Growth.doubling .cached {} linkedContainer _ rfl⟩

end Load

end Stratavm
