import Stratavm.Heap

/-!
# The replay machine

`ReplayVM` (`replay_vm.hpp`, `replay_vm.cpp`): seeded with the heap, it streams the journal opcode
by opcode and mutates the node table. Each handler `doX` is a `Machine` over the VM, so what a
handler has already changed when it fails stays visible.

The node table is a `Vec`, and a group frame keeps the source's cached slot pointer. How the
owner's slot is found at `END_GROUP` is the parameter `ownerSlot` of the environment: `cached`
dereferences the pointer, as `resolve_frame` does, and using a stale one is the fault `staleOwner`;
`indexed` re-indexes the table with `frame.owner_id`, the machine the cache is a fast path for.
Capacities are chosen by the standard library, so `growth` is a parameter too: what is proved holds
for every policy that makes room.

Out of scope: an allocation that fails. `BEGIN_GROUP` reserves as many nodes as its 32-bit hint
says and nothing checks the hint, so `std::bad_alloc` can leave `run` in the source; here a reserve
always succeeds. Also out of scope: what the source does after it has written through a stale
pointer, which is undefined. The machine stops there.
-/

namespace Stratavm

open Lib

/-! ## State -/

/-- `Snapshot`. -/
structure Snapshot where
  label : AtomId := kInvalidAtom
  nodeCount : UInt32 := 0
  aliveCount : UInt32 := 0
  deriving DecidableEq, Repr

/-- `GroupFrame`. -/
structure GroupFrame where
  ownerId : NodeId := kInvalidNode
  ownerCache : Vec.Ptr
  ownerName : AtomId := kInvalidAtom
  reserveHint : UInt32 := 0
  deferredChildren : List AtomId := []
  deriving DecidableEq, Repr

/-- `ReplayStats`. -/
structure ReplayStats where
  opsExecuted : UInt32 := 0
  nodesCreated : UInt32 := 0
  placeholders : UInt32 := 0
  nodesDropped : UInt32 := 0
  childrenLinked : UInt32 := 0
  unresolvedRefs : UInt32 := 0
  snapshots : UInt32 := 0
  deriving DecidableEq, Repr

/-- `ReplayVM`. The back of the frame stack is the head of `frames`. -/
structure ReplayVM where
  nodes : Vec Node := Vec.empty
  nameIndex : UMap AtomId NodeId := ∅
  frames : List GroupFrame := []
  freeList : List NodeId := []
  snapshots : List Snapshot := []
  metaMap : UMap AtomId AtomId := ∅
  stats : ReplayStats := {}

/-- How `resolve_frame` reaches the owner's slot. -/
inductive OwnerSlot where
  /-- Through `frame.owner_cache`. -/
  | cached
  /-- As `nodes_[frame.owner_id]`. -/
  | indexed
  deriving DecidableEq, Repr

/-- What the machine runs against: its three references, and the vector implementation. -/
structure Env where
  schema : Schema
  atoms : AtomPool
  limits : Limits := {}
  growth : Growth := Growth.doubling
  ownerSlot : OwnerSlot := .cached

/-- Why a run stops early: an error status, or undefined behaviour. -/
inductive Fault where
  | status (s : Status)
  /-- Dereferencing a slot pointer the table has moved away from. -/
  | staleOwner
  /-- `nodes_[i]` with `i` out of range. -/
  | badIndex
  deriving DecidableEq, Repr

/-- A handler: it reads operands and mutates the VM. -/
abbrev Exec (α : Type) := Machine Fault ReplayVM α

/-- `return fail(code, detail)`. -/
def failWith {α : Type} (code : Code) (detail : String) : Exec α :=
  Machine.fail (.status ⟨code, detail⟩)

/-- Read an operand. -/
def operand {α : Type} (d : Reader α) : Exec α := Machine.read .status d

/-- `register_name`: anonymous nodes are not indexed. -/
def registerName (index : UMap AtomId NodeId) (name : AtomId) (id : NodeId) : UMap AtomId NodeId :=
  if name = kInvalidAtom then index else index.insert name id

theorem lookup_registerName {index : UMap AtomId NodeId} {name a : AtomId} {id : NodeId} :
    (registerName index name id).lookup a =
      if name ≠ kInvalidAtom ∧ a = name then some id else index.lookup a := by
  unfold registerName
  by_cases hn : name = kInvalidAtom
  · simp [hn]
  by_cases ha : a = name
  · rw [if_neg hn, if_pos ⟨hn, ha⟩, ha]
    exact Finmap.lookup_insert _
  · rw [if_neg hn, if_neg fun h => ha h.2]
    exact Finmap.lookup_insert_of_ne _ ha

/-- An index built from a list of named nodes maps names to their ids. -/
theorem lookup_foldl_registerName {P : AtomId → NodeId → Prop} {nodes : List Node}
    (hP : ∀ n ∈ nodes, n.name ≠ kInvalidAtom → P n.name n.id) {a : AtomId} {i : NodeId}
    (h : (nodes.foldl (fun index n => registerName index n.name n.id) ∅).lookup a = some i) :
    P a i := by
  have hinv := List.foldlRecOn nodes (fun index n => registerName index n.name n.id)
    (motive := fun index => ∀ a i, index.lookup a = some i → P a i) (b := ∅) ?_ ?_
  · exact hinv a i h
  · intro a i hi
    rw [Finmap.lookup_empty] at hi
    cases hi
  · intro index hindex n hn a i hi
    rw [lookup_registerName] at hi
    split at hi
    · rename_i hname
      obtain rfl := Option.some.inj hi
      exact hname.2 ▸ hP n hn hname.1
    · exact hindex a i hi

namespace ReplayVM

variable (env : Env) (vm : ReplayVM)

/-- `nodes_[i]`. -/
def node? (i : NodeId) : Option Node := vm.nodes.data[i.toNat]?

/-- The node an id from `find_named` denotes: `kInvalidNode` denotes none. -/
def foundNode? (i : NodeId) : Option Node := if i = kInvalidNode then none else vm.node? i

/-- `find_named`. -/
def findNamed (name : AtomId) : NodeId := (vm.nameIndex.lookup name).getD kInvalidNode

/-- `seed`. -/
def seed (heap : HeapImage) : ReplayVM :=
  { vm with
    nodes := heap.nodes
    nameIndex := heap.nodes.data.foldl (fun index n => registerName index n.name n.id) ∅
    stats := { vm.stats with nodesCreated := UInt32.ofNat heap.nodes.size } }

/-! ## The effects of the opcodes -/

/-- The append and registration of `do_new_node`. -/
def createNode (kind : KindId) (name : AtomId) : ReplayVM :=
  let id := UInt32.ofNat vm.nodes.size
  { vm with
    nodes := vm.nodes.pushBack env.growth { id, kind, name, alive := true }
    nameIndex := registerName vm.nameIndex name id
    stats := { vm.stats with nodesCreated := vm.stats.nodesCreated + 1 } }

/-- The edges `do_set_field` records for a value, in a table of `size` nodes. -/
def outgoing (size : Nat) : Value → List NodeId
  | .ref n => if n ≠ kInvalidNode ∧ n.toNat < size then [n] else []
  | .list items => items.filter fun t => t.toNat < size
  | _ => []

/-- The references `do_set_field` counts as unresolved. -/
def unresolved (size : Nat) : Value → UInt32
  | .ref n => if n ≠ kInvalidNode ∧ n.toNat < size then 0 else 1
  | .list items => UInt32.ofNat (items.countP fun t => ¬ t.toNat < size)
  | _ => 0

/-- The stores of `do_set_field`. -/
def storeField (nodeId : NodeId) (fieldIdx : FieldId) (v : Value) : ReplayVM :=
  { vm with
    nodes := vm.nodes.modify nodeId.toNat fun n =>
      { n with refs := n.refs ++ outgoing vm.nodes.size v }.setField fieldIdx v
    stats := { vm.stats with
      unresolvedRefs := vm.stats.unresolvedRefs + unresolved vm.nodes.size v } }

/-- The reserve and push of `do_begin_group`. -/
def openGroup (ownerId : NodeId) (ownerName : AtomId) (reserveHint : UInt32) : ReplayVM :=
  let nodes := vm.nodes.reserve env.growth (vm.nodes.size + reserveHint.toNat)
  { vm with
    nodes
    frames := { ownerId, ownerCache := nodes.ptr ownerId.toNat, ownerName, reserveHint } ::
      vm.frames }

/-- `materialize_placeholder`: the new id and the VM afterwards. -/
def materializePlaceholder (name : AtomId) : NodeId × ReplayVM :=
  let id := UInt32.ofNat vm.nodes.size
  (id, { vm with
    nodes := vm.nodes.pushBack env.growth
      { id, kind := kInvalidKind, name, alive := true, placeholder := true }
    nameIndex := registerName vm.nameIndex name id
    stats := { vm.stats with placeholders := vm.stats.placeholders + 1 } })

/-- The target of a queued child name in `resolve_frame`, made if nothing defines it. -/
def target (child : AtomId) : NodeId × ReplayVM :=
  let found := vm.findNamed child
  if found = kInvalidNode then vm.materializePlaceholder env child else (found, vm)

/-- The slot `resolve_frame` writes the owner's children in, when it may. -/
def ownerSlot (frame : GroupFrame) : Option Nat :=
  match env.ownerSlot with
  | .cached => if vm.nodes.live frame.ownerCache then some frame.ownerCache.slot else none
  | .indexed => if frame.ownerId.toNat < vm.nodes.size then some frame.ownerId.toNat else none

/-- The stores of `resolve_frame` for one child: `owner->children.push_back(target)`,
`nodes_[target].refs.push_back(owner->id)`. -/
def attach (slot : Nat) (target : NodeId) : ReplayVM :=
  let ownerId := (vm.nodes.data[slot]?.map Node.id).getD kInvalidNode
  { vm with
    nodes := (vm.nodes.modify slot fun n => { n with children := n.children ++ [target] }).modify
      target.toNat fun n => { n with refs := n.refs ++ [ownerId] }
    stats := { vm.stats with childrenLinked := vm.stats.childrenLinked + 1 } }

/-- The stores of `do_link_ref` once the target is known. -/
def storeRef (src : NodeId) (fieldIdx : FieldId) (target : NodeId) : ReplayVM :=
  { vm with
    nodes := vm.nodes.modify src.toNat fun n =>
      { n.setField fieldIdx (.ref target) with refs := n.refs ++ [target] } }

/-- An unresolved `LINK_REF` is only counted. -/
def countUnresolved : ReplayVM :=
  { vm with stats := { vm.stats with unresolvedRefs := vm.stats.unresolvedRefs + 1 } }

/-- The stores of `do_drop_node` on an alive node. -/
def drop (nodeId : NodeId) (node : Node) : ReplayVM :=
  { vm with
    nodes := vm.nodes.modify nodeId.toNat fun n =>
      { n with alive := false, generation := n.generation + 1 }
    freeList := vm.freeList ++ [nodeId]
    nameIndex :=
      if node.name ≠ kInvalidAtom ∧ vm.nameIndex.lookup node.name = some nodeId then
        vm.nameIndex.erase node.name
      else vm.nameIndex
    stats := { vm.stats with nodesDropped := vm.stats.nodesDropped + 1 } }

/-- The number of alive nodes. -/
def aliveCount : Nat := vm.nodes.data.countP Node.alive

/-- The stores of `do_snapshot`. -/
def takeSnapshot (label : AtomId) : ReplayVM :=
  { vm with
    snapshots := vm.snapshots ++
      [{ label, nodeCount := UInt32.ofNat vm.nodes.size, aliveCount := UInt32.ofNat vm.aliveCount }]
    stats := { vm.stats with snapshots := vm.stats.snapshots + 1 } }

/-- The store of `do_set_meta`. -/
def putMeta (key value : AtomId) : ReplayVM :=
  { vm with metaMap := vm.metaMap.insert key value }

/-- `stats_.ops_executed++`. -/
def tick : ReplayVM := { vm with stats := { vm.stats with opsExecuted := vm.stats.opsExecuted + 1 } }

variable {env vm}

@[simp] theorem nodes_tick : vm.tick.nodes = vm.nodes := rfl

@[simp] theorem nameIndex_tick : vm.tick.nameIndex = vm.nameIndex := rfl

@[simp] theorem frames_tick : vm.tick.frames = vm.frames := rfl

@[simp] theorem size_createNode {kind : KindId} {name : AtomId} :
    (vm.createNode env kind name).nodes.size = vm.nodes.size + 1 := by simp [createNode]

@[simp] theorem size_storeField {nodeId : NodeId} {f : FieldId} {v : Value} :
    (vm.storeField nodeId f v).nodes.size = vm.nodes.size := by simp [storeField]

@[simp] theorem size_openGroup {ownerId : NodeId} {ownerName : AtomId} {hint : UInt32} :
    (vm.openGroup env ownerId ownerName hint).nodes.size = vm.nodes.size := by simp [openGroup]

@[simp] theorem size_attach {slot : Nat} {target : NodeId} :
    (vm.attach slot target).nodes.size = vm.nodes.size := by simp [attach]

@[simp] theorem frames_attach {slot : Nat} {target : NodeId} :
    (vm.attach slot target).frames = vm.frames := rfl

@[simp] theorem size_storeRef {src : NodeId} {f : FieldId} {target : NodeId} :
    (vm.storeRef src f target).nodes.size = vm.nodes.size := by simp [storeRef]

@[simp] theorem size_drop {nodeId : NodeId} {node : Node} :
    (vm.drop nodeId node).nodes.size = vm.nodes.size := by simp [drop]

end ReplayVM

/-! ## The handlers -/

section Handlers

variable (env : Env)

/-- A name operand that is neither `kInvalidAtom` nor in the pool. -/
def BadName (name : AtomId) : Prop := name ≠ kInvalidAtom ∧ env.atoms.get name = none

instance (name : AtomId) : Decidable (BadName env name) := inferInstanceAs (Decidable (_ ∧ _))

/-- `do_new_node`. -/
def doNewNode : Exec Unit := do
  let kind ← operand readVarintU32
  let name ← operand readVarintU32
  let vm ← Machine.get
  if env.schema.kind kind = none then failWith .kindOutOfRange "new_node kind"
  else if BadName env name then failWith .atomOutOfRange "new_node name"
  else if vm.nodes.size ≥ env.limits.maxNodes.toNat then failWith .limitExceeded "node table full"
  else Machine.set (vm.createNode env kind name)

/-- `do_set_field`. The value's wire type is that of the live node's field. -/
def doSetField : Exec Unit := do
  let nodeId ← operand readVarintU32
  let fieldIdx ← operand readVarintU32
  let vm ← Machine.get
  match vm.node? nodeId with
  | none => failWith .nodeOutOfRange "set_field node"
  | some node =>
    let vt := env.schema.fieldType node.kind fieldIdx
    if vt = .invalid then failWith .fieldOutOfRange "set_field field"
    else do
      let v ← operand (Value.decode vt env.limits)
      if node.alive = false then failWith .invariantViolation "set_field on dropped node"
      else Machine.set (vm.storeField nodeId fieldIdx v)

/-- `do_begin_group`. -/
def doBeginGroup : Exec Unit := do
  let ownerName ← operand readVarintU32
  let reserveHint ← operand readVarintU32
  let vm ← Machine.get
  if vm.frames.length ≥ env.limits.maxGroupDepth.toNat then
    failWith .groupOverflow "group nesting too deep"
  else
    let ownerId := vm.findNamed ownerName
    match vm.foundNode? ownerId with
    | none => failWith .unresolvedRef "begin_group owner not found"
    | some owner =>
      if owner.alive = false then failWith .invariantViolation "begin_group owner dropped"
      else Machine.set (vm.openGroup env ownerId ownerName reserveHint)

/-- `do_add_child`. -/
def doAddChild : Exec Unit := do
  let childName ← operand readVarintU32
  let vm ← Machine.get
  match vm.frames with
  | [] => failWith .groupUnderflow "add_child outside group"
  | frame :: frames =>
    if BadName env childName then failWith .atomOutOfRange "add_child name"
    else Machine.set { vm with
      frames := { frame with deferredChildren := frame.deferredChildren ++ [childName] } :: frames }

/-- One iteration of the loop of `resolve_frame`. -/
def linkChild (frame : GroupFrame) (child : AtomId) : Exec Unit := do
  let target ← Machine.modifyGet fun vm => vm.target env child
  let vm ← Machine.get
  match vm.ownerSlot env frame with
  | none => Machine.fail .staleOwner
  | some slot =>
    if target.toNat < vm.nodes.size then Machine.set (vm.attach slot target)
    else Machine.fail .badIndex

/-- The loop of `resolve_frame`. -/
def resolveFrame (frame : GroupFrame) : List AtomId → Exec Unit
  | [] => pure ()
  | child :: children => do
    linkChild env frame child
    resolveFrame frame children

/-- `do_end_group`. -/
def doEndGroup : Exec Unit := do
  let vm ← Machine.get
  match vm.frames with
  | [] => failWith .groupUnderflow "end_group without group"
  | frame :: frames => do
    Machine.set { vm with frames }
    resolveFrame env frame frame.deferredChildren

/-- `do_link_ref`. -/
def doLinkRef : Exec Unit := do
  let src ← operand readVarintU32
  let fieldIdx ← operand readVarintU32
  let targetAtom ← operand readVarintU32
  let vm ← Machine.get
  match vm.node? src with
  | none => failWith .nodeOutOfRange "link_ref src"
  | some node =>
    if env.schema.fieldType node.kind fieldIdx ≠ .ref then
      failWith .typeMismatch "link_ref target field is not a ref"
    else
      let target := vm.findNamed targetAtom
      if target = kInvalidNode then Machine.set vm.countUnresolved
      else Machine.set (vm.storeRef src fieldIdx target)

/-- `do_drop_node`. Dropping twice is a no-op. -/
def doDropNode : Exec Unit := do
  let nodeId ← operand readVarintU32
  let vm ← Machine.get
  match vm.node? nodeId with
  | none => failWith .nodeOutOfRange "drop_node"
  | some node => if node.alive = false then pure () else Machine.set (vm.drop nodeId node)

/-- `do_snapshot`. -/
def doSnapshot : Exec Unit := do
  let label ← operand readVarintU32
  let vm ← Machine.get
  if BadName env label then failWith .atomOutOfRange "snapshot label"
  else Machine.set (vm.takeSnapshot label)

/-- `do_set_meta`. -/
def doSetMeta : Exec Unit := do
  let key ← operand readVarintU32
  let value ← operand readVarintU32
  let vm ← Machine.get
  if env.atoms.get key = none then failWith .atomOutOfRange "meta key"
  else if BadName env value then failWith .atomOutOfRange "meta value"
  else Machine.set (vm.putMeta key value)

/-- The `switch` of `run`. -/
def dispatch : OpCode → Exec Unit
  | .newNode => doNewNode env
  | .setField => doSetField env
  | .beginGroup => doBeginGroup env
  | .endGroup => doEndGroup env
  | .addChild => doAddChild env
  | .linkRef => doLinkRef env
  | .dropNode => doDropNode
  | .snapshot => doSnapshot env
  | .setMeta => doSetMeta env
  | .nop => pure ()

/-- One iteration of the loop of `run`. -/
def stepOp : Exec Unit := do
  let raw ← operand readU8
  match OpCode.ofRaw? raw with
  | none => failWith .badOpcode ("opcode " ++ toString raw)
  | some op => do
    dispatch env op
    let vm ← Machine.get
    Machine.set vm.tick

/-- The loop of `run`, `n` opcodes left. -/
def runOps : Nat → Exec Unit
  | 0 => pure ()
  | n + 1 => do
    stepOp env
    runOps n

/-- The end of `run`: a well-formed container balances every group. -/
def closeRun : Exec Unit := do
  let vm ← Machine.get
  if vm.frames.isEmpty = false then failWith .groupUnderflow "journal ended with open group"
  else pure ()

/-- `ReplayVM::run`. -/
def run : Exec Unit := do
  let opCount ← operand readVarintU32
  if opCount > env.limits.maxJournalOps then failWith .limitExceeded "journal op count too large"
  else do
    runOps env opCount.toNat
    closeRun

end Handlers

end Stratavm
