import Stratavm.ReplayVm.Reach

/-!
# What a table holds can be written again

A patch journal writes into one table what another holds: names, kinds, field values, children. The
machine checks all of them, and what it has accepted once it accepts again: `Node.Writable` lists
what that takes. A placeholder alone was never made by an opcode of its own.

The invariant has to look ahead: an `END_GROUP` gives names to placeholders and children to an owner that
were checked when they were queued, so `Writable` speaks of the open frames too.

* `Effect.writable`: an opcode keeps it. A field value is typed and within the limits by the way it
  was read (`readOp_typed`).
* **`writable_of_visits`**: every state of a run from a decoded heap is so.

Out of scope: room. Whether there is a slot left for a node is a matter of the table it is written into.
-/

namespace Stratavm

open Lib

/-- What the opcodes that write the node in slot `i` check. -/
structure Node.Writable (env : Env) (i : Nat) (n : Node) : Prop where
  name : ¬ BadName env n.name
  /-- A node that is no placeholder was made below the node limit. -/
  made : n.kind = kInvalidKind ∨ env.schema.kind n.kind ≠ none ∧ i < env.limits.maxNodes.toNat
  fields : ∀ f v, n.field f = some v → env.schema.fieldType n.kind f = v.type ∧ v.Fits env.limits
  /-- Children were added in a group. -/
  grouped : n.children ≠ [] → 0 < env.limits.maxGroupDepth.toNat

section Node

variable {env : Env} {i : Nat} {n n' : Node}

/-- Only name, kind, fields and children matter. -/
theorem Node.Writable.congr (h : n.Writable env i) (hname : n'.name = n.name)
    (hkind : n'.kind = n.kind) (hfields : n'.fields = n.fields)
    (hchildren : n'.children ≠ [] → 0 < env.limits.maxGroupDepth.toNat) : n'.Writable env i where
  name := hname ▸ h.name
  made := hkind ▸ h.made
  fields f v hv := by
    rw [hkind]
    refine h.fields f v ?_
    rwa [Node.field, ← hfields]
  grouped := hchildren

theorem Node.Writable.setField (h : n.Writable env i) {f : FieldId} {v : Value}
    (ht : env.schema.fieldType n.kind f = v.type) (hv : v.Fits env.limits) :
    (n.setField f v).Writable env i where
  name := h.name
  made := h.made
  fields g w hw := by
    rw [Node.field_setField] at hw
    split at hw
    · rename_i hg
      obtain rfl := Option.some.inj hw
      exact ⟨hg ▸ ht, hv⟩
    · exact h.fields g w hw
  grouped := h.grouped

/-- A placeholder. -/
theorem Node.Writable.placeholder (hname : ¬ BadName env n.name) (hkind : n.kind = kInvalidKind)
    (hfields : n.fields = ∅) (hchildren : n.children = []) : n.Writable env i where
  name := hname
  made := .inl hkind
  fields f v hv := by
    rw [Node.field, hfields, Finmap.lookup_empty] at hv
    cases hv
  grouped hne := absurd hchildren hne

/-- A node as `NEW_NODE` makes it. -/
theorem Node.Writable.fresh (hname : ¬ BadName env n.name) (hkind : env.schema.kind n.kind ≠ none)
    (hlt : i < env.limits.maxNodes.toNat) (hfields : n.fields = ∅) (hchildren : n.children = []) :
    n.Writable env i where
  name := hname
  made := .inr ⟨hkind, hlt⟩
  fields f v hv := by
    rw [Node.field, hfields, Finmap.lookup_empty] at hv
    cases hv
  grouped hne := absurd hchildren hne

end Node

namespace ReplayVM

/-- The nodes of a table are writable. -/
def NodesWritable (env : Env) (vm : ReplayVM) : Prop :=
  ∀ i (n : Node), vm.nodes.data[i]? = some n → n.Writable env i

/-- The nodes are writable, and so will be those that the open groups make. -/
structure Writable (env : Env) (vm : ReplayVM) : Prop where
  nodes : vm.NodesWritable env
  depth : vm.frames ≠ [] → 0 < env.limits.maxGroupDepth.toNat
  queued : ∀ frame ∈ vm.frames, ∀ c ∈ frame.deferredChildren, ¬ BadName env c

variable {env : Env} {vm vm' : ReplayVM}

/-- Changing one node keeps the table writable if the change keeps that node so. -/
theorem NodesWritable.modify (h : vm.NodesWritable env) {i : Nat} {f : Node → Node}
    (hnodes : vm'.nodes = vm.nodes.modify i f)
    (hf : ∀ n, vm.nodes.data[i]? = some n → n.Writable env i → (f n).Writable env i) :
    vm'.NodesWritable env := by
  intro j n hn
  rw [hnodes, Vec.data_modify, List.getElem?_modify] at hn
  obtain ⟨m, hm, rfl⟩ := Option.map_eq_some_iff.mp hn
  have hmem := h j m hm
  by_cases hij : i = j
  · subst hij
    simpa using hf m hm hmem
  · simpa [hij] using hmem

theorem NodesWritable.pushBack (h : vm.NodesWritable env) {n : Node}
    (hnodes : vm'.nodes = vm.nodes.pushBack env.growth n) (hn : n.Writable env vm.nodes.size) :
    vm'.NodesWritable env := by
  intro j m hm
  rw [hnodes, Vec.data_pushBack] at hm
  rcases Nat.lt_trichotomy j vm.nodes.data.length with hj | hj | hj
  · rw [List.getElem?_append_left hj] at hm
    exact h j m hm
  · subst hj
    rw [List.getElem?_append_right (Nat.le_refl _), Nat.sub_self] at hm
    obtain rfl := Option.some.inj hm
    exact hn
  · rw [List.getElem?_eq_none (by rw [List.length_append]; exact hj)] at hm
    cases hm

theorem NodesWritable.target (h : vm.NodesWritable env) {child : AtomId}
    (hname : ¬ BadName env child) : (vm.target env child).2.NodesWritable env := by
  rcases target_eq env vm child with ⟨-, heq⟩ | ⟨-, heq⟩
  · rw [heq]
    exact h.pushBack rfl (.placeholder hname rfl rfl rfl)
  · rw [heq]
    exact h

theorem NodesWritable.attach (h : vm.NodesWritable env)
    (hdepth : 0 < env.limits.maxGroupDepth.toNat) (slot : Nat) (target : NodeId) :
    (vm.attach slot target).NodesWritable env := by
  let one : ReplayVM := { vm with
    nodes := vm.nodes.modify slot fun n => { n with children := n.children ++ [target] } }
  have hone : one.NodesWritable env :=
    h.modify rfl fun n _ hn => hn.congr rfl rfl rfl fun _ => hdepth
  exact hone.modify rfl fun n _ hn => hn.congr rfl rfl rfl hn.grouped

theorem resolve_nodesWritable {frame : GroupFrame} {children : List AtomId}
    (h0 : vm.NodesWritable env) (hdepth : 0 < env.limits.maxGroupDepth.toNat)
    (hnames : ∀ c ∈ children, ¬ BadName env c)
    (h : resolve env frame children vm = some vm') : vm'.NodesWritable env := by
  refine resolve_induction (P := fun vm => vm.NodesWritable env) h h0
    fun vm child slot hc _ hvm => ?_
  exact (hvm.target (hnames child hc)).attach hdepth slot _

/-- **An opcode keeps the table writable.** -/
theorem Effect.writable {op : Op} (h0 : vm.Writable env)
    (htyped : op.Typed (vm.fieldType env) env.limits) (h : Effect env vm op vm') :
    vm'.Writable env := by
  obtain ⟨hnodes, hdepth, hqueued⟩ := h0
  cases h with
  | newNode hk hn hsize => exact ⟨hnodes.pushBack rfl (.fresh hn hk hsize rfl rfl), hdepth, hqueued⟩
  | @setField _ _ v node hnode _ ht =>
    refine ⟨hnodes.modify rfl fun n hn hwritable => ?_, hdepth, hqueued⟩
    obtain rfl : node = n := Option.some.inj (hnode.symm.trans hn)
    have hrefs : Node.Writable env _
        { node with refs := node.refs ++ outgoing vm.nodes.size v } :=
      hwritable.congr rfl rfl rfl hwritable.grouped
    exact hrefs.setField ht htyped.2
  | beginGroup hd =>
    refine ⟨?_, fun _ => Nat.lt_of_le_of_lt (Nat.zero_le _) hd, fun frame hframe => ?_⟩
    · simpa [NodesWritable, openGroup] using hnodes
    · rcases List.mem_cons.mp hframe with rfl | hframe
      · exact fun c hc => absurd hc List.not_mem_nil
      · exact hqueued frame hframe
  | @endGroup frame frames _ hf hr =>
    have hpop : ({ vm with frames } : ReplayVM).NodesWritable env := hnodes
    have hpos := hdepth (hf ▸ List.cons_ne_nil _ _)
    have hframes := (resolve_size hr).1
    refine ⟨resolve_nodesWritable hpop hpos (hqueued frame (hf ▸ List.mem_cons_self)) hr,
      fun _ => hpos, fun frame' hframe' => ?_⟩
    rw [hframes] at hframe'
    exact hqueued frame' (hf ▸ List.mem_cons_of_mem _ hframe')
  | @addChild child frame frames hf hn =>
    refine ⟨hnodes, fun _ => hdepth (hf ▸ List.cons_ne_nil _ _), fun frame' hframe' c hc => ?_⟩
    rcases List.mem_cons.mp hframe' with rfl | hframe'
    · rcases List.mem_append.mp hc with hc | hc
      · exact hqueued frame (hf ▸ List.mem_cons_self) c hc
      · exact List.mem_singleton.mp hc ▸ hn
    · exact hqueued frame' (hf ▸ List.mem_cons_of_mem _ hframe') c hc
  | @linkRef _ field name node hnode ht =>
    refine ⟨hnodes.modify rfl fun n hn hwritable => ?_, hdepth, hqueued⟩
    obtain rfl := Option.some.inj (hnode.symm.trans hn)
    have hfits : (Value.ref (vm.findNamed name)).Fits env.limits := ⟨by rintro ⟨⟩, Nat.zero_le _⟩
    have hset := hwritable.setField ht hfits
    exact hset.congr rfl rfl rfl hset.grouped
  | drop =>
    refine ⟨hnodes.modify rfl fun n _ hn => ?_, hdepth, hqueued⟩
    exact hn.congr rfl rfl rfl hn.grouped
  | linkRefMissing | dropDead | snapshot | setMeta | nop => exact ⟨hnodes, hdepth, hqueued⟩

end ReplayVM

section Runs

variable {env : Env} {vm vm' : ReplayVM}

theorem writable_of_replays {ops : List Op} {r r' : Bytes} (h : Replays env ops vm r vm' r')
    (h0 : vm.Writable env) : vm'.Writable env := by
  induction h with
  | nil => exact h0
  | cons hread heff _ ih =>
    have hstep := heff.writable h0 (readOp_typed hread)
    exact ih ⟨hstep.nodes, hstep.depth, hstep.queued⟩

theorem writable_seed {bytes rest : Bytes} {heap : HeapImage}
    (hheap : decodeHeap env.growth env.schema env.atoms env.limits bytes = .ok (heap, rest)) :
    (ReplayVM.seed {} heap).Writable env := by
  obtain ⟨hsize, hnodes⟩ := decodeHeap_spec hheap
  refine ⟨fun i n hn => ?_, fun h => absurd rfl h, fun f hf => absurd hf List.not_mem_nil⟩
  obtain ⟨-, hkind, hname, -, -, -, hchildren, -, hfields⟩ := hnodes i n hn
  have hlt : i < heap.nodes.size := (List.getElem?_eq_some_iff.mp hn).1
  refine ⟨?_, .inr ⟨Option.isSome_iff_ne_none.mp hkind, Nat.lt_of_lt_of_le hlt hsize⟩,
    fun f v hv => ⟨(hfields f v hv).2, decodeHeap_fits hheap i n hn f v hv⟩,
    fun hne => absurd hchildren hne⟩
  rintro ⟨hvalid, hnone⟩
  rcases hname with hname | hname
  · exact hvalid hname
  · rw [hnone] at hname
    cases hname

/-- **What a run from a decoded heap holds can be written again.** -/
theorem writable_of_visits {bytes rest journal : Bytes} {heap : HeapImage}
    (hheap : decodeHeap env.growth env.schema env.atoms env.limits bytes = .ok (heap, rest))
    (hvm : Visits env (ReplayVM.seed {} heap) journal vm) : vm.Writable env := by
  obtain ⟨ops, r, r', -, hrep⟩ := hvm.replays
  exact writable_of_replays hrep (writable_seed hheap)

end Runs

end Stratavm
