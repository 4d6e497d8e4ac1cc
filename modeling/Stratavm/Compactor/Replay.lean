import Stratavm.Compactor.NodeIds
import Stratavm.ReplayVm.History

/-!
# Replaying a compacted journal

The run of a journal and the run of its compacted journal go through different states: overwritten
fields, dropped nodes and childless groups are missing from the second. `Sim` says how a state of
the first and a state of the second agree with `rest` still to come: `Alike` is what they share,
fields agree unless `rest` sets them, and a group is open in the second if a child is added to it.

The compacted hints are all 0, so in the second run only `push_back` grows the node table. A group
that adds a child needs the owner's slot not to move before its `END_GROUP`: `GroupsFit` says that it
does not, from the journal alone.

* **`compact_replay_iff`**: compacting a journal keeps what its run ends with iff the groups fit.
* `hint_lost`: a journal whose compacted journal writes through a stale pointer.
-/

namespace Stratavm

open Lib

/-! ## What is compared -/

/-- Two nodes agree, the fields of a dropped one apart. -/
structure Node.Same (n m : Node) : Prop where
  kind : n.kind = m.kind
  name : n.name = m.name
  alive : n.alive = m.alive
  generation : n.generation = m.generation
  children : n.children = m.children
  fields : n.alive = true → n.fields = m.fields

/-- Two states agree, but for references, statistics, and the fields of dropped nodes. -/
structure ReplayVM.Same (a b : ReplayVM) : Prop where
  size : a.nodes.size = b.nodes.size
  node : ∀ i n m, a.node? i = some n → b.node? i = some m → n.Same m
  nameIndex : a.nameIndex = b.nameIndex
  metaMap : a.metaMap = b.metaMap
  snapshots : a.snapshots = b.snapshots

/-- A node without its fields and references. -/
def Node.core (n : Node) : Node := { n with fields := ∅, refs := [] }

/-- Two states agree on all but fields, references and open groups. -/
structure ReplayVM.Alike (a b : ReplayVM) : Prop where
  core : a.nodes.data.map Node.core = b.nodes.data.map Node.core
  nameIndex : a.nameIndex = b.nameIndex
  metaMap : a.metaMap = b.metaMap
  snapshots : a.snapshots = b.snapshots

namespace ReplayVM

variable {env : Env} {a b a' b' : ReplayVM}

/-- Changing the same slot in two tables alike. -/
theorem core_modify {xs ys : List Node} (h : xs.map Node.core = ys.map Node.core) {f g : Node → Node}
    (hfg : ∀ n m, n.core = m.core → (f n).core = (g m).core) (i : Nat) :
    (xs.modify i f).map Node.core = (ys.modify i g).map Node.core := by
  refine List.ext_getElem? fun j => ?_
  have hj := congrArg (·[j]?) h
  simp only [List.getElem?_map] at hj
  rw [List.getElem?_map, List.getElem?_map, List.getElem?_modify, List.getElem?_modify]
  cases hx : xs[j]? with
  | none =>
    rw [hx] at hj
    rw [Option.map_eq_none_iff.mp hj.symm]
    rfl
  | some n =>
    rw [hx] at hj
    obtain ⟨m, hm, hnm⟩ := Option.map_eq_some_iff.mp hj.symm
    rw [hm]
    by_cases hij : i = j
    · simp [hij, hfg n m hnm.symm]
    · simp [hij, hnm]

namespace Alike

theorem size (h : a.Alike b) : a.nodes.size = b.nodes.size := by
  have := congrArg List.length h.core
  rwa [List.length_map, List.length_map] at this

theorem findNamed (h : a.Alike b) (name : AtomId) : a.findNamed name = b.findNamed name := by
  rw [ReplayVM.findNamed, h.nameIndex, ReplayVM.findNamed]

theorem node? (h : a.Alike b) {i : NodeId} {n : Node} (hn : a.node? i = some n) :
    ∃ m, b.node? i = some m ∧ n.core = m.core := by
  have hi := congrArg (·[i.toNat]?) h.core
  simp only [List.getElem?_map] at hi
  rw [show a.nodes.data[i.toNat]? = some n from hn] at hi
  obtain ⟨m, hm, hnm⟩ := Option.map_eq_some_iff.mp hi.symm
  exact ⟨m, hm, hnm.symm⟩

theorem foundNode? (h : a.Alike b) {i : NodeId} {n : Node} (hn : a.foundNode? i = some n) :
    ∃ m, b.foundNode? i = some m ∧ n.core = m.core := by
  unfold ReplayVM.foundNode? at hn ⊢
  split at hn
  · cases hn
  · rename_i hi
    rw [if_neg hi]
    exact h.node? hn

theorem kinds (h : a.Alike b) : a.kinds = b.kinds := by
  have hcore := congrArg (List.map Node.kind) h.core
  rw [List.map_map, List.map_map] at hcore
  exact hcore

theorem fieldType (h : a.Alike b) (env : Env) : a.fieldType env = b.fieldType env := by
  have hkind : ∀ (vm : ReplayVM) (i : NodeId), (vm.node? i).map Node.kind = vm.kinds[i.toNat]? :=
    fun vm i => (List.getElem?_map ..).symm
  funext i field
  have hi : (a.node? i).map Node.kind = (b.node? i).map Node.kind := by
    rw [hkind, hkind, h.kinds]
  unfold ReplayVM.fieldType
  cases ha : a.node? i <;> cases hb : b.node? i <;> rw [ha, hb] at hi
  · cases hi
  · cases hi
  · exact congrArg (env.schema.fieldType · field) (Option.some.inj hi)

theorem aliveCount (h : a.Alike b) : a.aliveCount = b.aliveCount := by
  have halive := congrArg (List.countP Node.alive) h.core
  rw [List.countP_map, List.countP_map] at halive
  exact halive

/-- The same change of the same slot. -/
theorem modify (h : a.Alike b) {i : Nat} {f g : Node → Node}
    (ha : a'.nodes = a.nodes.modify i f) (hb : b'.nodes = b.nodes.modify i g)
    (hfg : ∀ n m, n.core = m.core → (f n).core = (g m).core)
    (hindex : a'.nameIndex = b'.nameIndex) (hmeta : a'.metaMap = b'.metaMap)
    (hsnap : a'.snapshots = b'.snapshots) : a'.Alike b' where
  core := by
    rw [ha, hb]
    exact core_modify h.core hfg i
  nameIndex := hindex
  metaMap := hmeta
  snapshots := hsnap

end Alike

/-- The value of a field, if its node and the field are there. -/
def fieldAt (vm : ReplayVM) (i : NodeId) (f : FieldId) : Option Value := (vm.node? i).bind (·.field f)

/-- What an opcode does to a field. -/
theorem Effect.fieldAt {op : Op} (h : Effect env a op a') (i : NodeId) (f : FieldId) :
    a'.fieldAt i f = (op.written a i.toNat f).or (a.fieldAt i f) :=
  h.slotField i.toNat f

/-- An opcode has one effect. -/
theorem Effect.unique {op : Op} {vm vm1 vm2 : ReplayVM} (h1 : Effect env vm op vm1)
    (h2 : Effect env vm op vm2) : vm1 = vm2 :=
  Option.some.inj ((exec_iff_effect.mpr h1).symm.trans (exec_iff_effect.mpr h2))

/-- **An opcode of no group does alike to states that are alike**, and grows the table by
`push_back`. -/
theorem Alike.effect (h : a.Alike b) {op : Op} (heff : Effect env a op a')
    (hbegin : op.code ≠ .beginGroup) (hend : op.code ≠ .endGroup) (hadd : op.code ≠ .addChild) :
    ∃ b', Effect env b op b' ∧ a'.Alike b' ∧ a'.frames = a.frames ∧ b'.frames = b.frames ∧
      (Vec.Pushed env.growth b.nodes → Vec.Pushed env.growth b'.nodes) := by
  cases heff with
  | beginGroup => exact absurd rfl hbegin
  | endGroup => exact absurd rfl hend
  | addChild => exact absurd rfl hadd
  | @newNode kind name hk hn hsize =>
    refine ⟨_, .newNode hk hn (h.size ▸ hsize), ⟨?_, ?_, h.metaMap, h.snapshots⟩, rfl, rfl,
      fun hb => hb.pushBack _⟩
    · simp only [createNode, Vec.data_pushBack, List.map_append, h.core, h.size]
    · simp only [createNode, h.nameIndex, h.size]
  | @setField nodeId field v node hnode hv ht ha =>
    obtain ⟨m, hm, hcore⟩ := h.node? hnode
    have hkind : m.kind = node.kind := (congrArg Node.kind hcore).symm
    have halive : m.alive = node.alive := (congrArg Node.alive hcore).symm
    exact ⟨_, .setField hm hv (hkind ▸ ht) (halive.trans ha),
      h.modify rfl rfl (fun _ _ hnm => hnm) h.nameIndex h.metaMap h.snapshots, rfl, rfl,
      fun hb => hb.modify ..⟩
  | @linkRefMissing src field name node hnode ht hm =>
    obtain ⟨m, hnode', hcore⟩ := h.node? hnode
    have hkind : m.kind = node.kind := (congrArg Node.kind hcore).symm
    exact ⟨_, .linkRefMissing hnode' (hkind ▸ ht) ((h.findNamed name).symm.trans hm),
      ⟨h.core, h.nameIndex, h.metaMap, h.snapshots⟩, rfl, rfl, id⟩
  | @linkRef src field name node hnode ht hm =>
    obtain ⟨m, hnode', hcore⟩ := h.node? hnode
    have hkind : m.kind = node.kind := (congrArg Node.kind hcore).symm
    exact ⟨_, .linkRef hnode' (hkind ▸ ht) (h.findNamed name ▸ hm),
      h.modify rfl rfl (fun _ _ hnm => hnm) h.nameIndex h.metaMap h.snapshots, rfl, rfl,
      fun hb => hb.modify ..⟩
  | @dropDead nodeId node hnode ha =>
    obtain ⟨m, hm, hcore⟩ := h.node? hnode
    have halive : m.alive = node.alive := (congrArg Node.alive hcore).symm
    exact ⟨_, .dropDead hm (halive.trans ha), h, rfl, rfl, id⟩
  | @drop nodeId node hnode ha =>
    obtain ⟨m, hm, hcore⟩ := h.node? hnode
    have halive : m.alive = node.alive := (congrArg Node.alive hcore).symm
    have hname : m.name = node.name := (congrArg Node.name hcore).symm
    refine ⟨_, .drop hm (halive.trans ha), h.modify rfl rfl (fun n n' hnn => ?_) ?_ h.metaMap
      h.snapshots, rfl, rfl, fun hb => hb.modify ..⟩
    · exact congrArg
        (fun n : Node => { n with alive := false, generation := n.generation + 1 }) hnn
    · simp only [ReplayVM.drop, h.nameIndex]
      rw [hname]
  | @snapshot label hn =>
    refine ⟨_, .snapshot hn, ⟨h.core, h.nameIndex, h.metaMap, ?_⟩, rfl, rfl, id⟩
    simp only [takeSnapshot, h.snapshots, h.size, h.aliveCount]
  | @setMeta key value hk hn =>
    refine ⟨_, .setMeta hk hn, ⟨h.core, h.nameIndex, ?_, h.snapshots⟩, rfl, rfl, id⟩
    simp only [putMeta, h.metaMap]
  | nop => exact ⟨_, .nop, h, rfl, rfl, id⟩

/-! ### Closing a group -/

/-- A frame that appends nothing finds its first child. -/
theorem resolve_cons_quiet {frame : GroupFrame} {child : AtomId} {children : List AtomId}
    (h : resolve env frame (child :: children) a = some a')
    (hquiet : a'.nodes.size = a.nodes.size) :
    a.findNamed child ≠ kInvalidNode ∧ ∃ slot, a.ownerSlot env frame = some slot ∧
      (a.findNamed child).toNat < a.nodes.size ∧
        resolve env frame children (a.attach slot (a.findNamed child)) = some a' := by
  obtain ⟨slot, hslot, hlt, h⟩ := resolve_cons h
  have hle := (resolve_size h).2.1
  rw [size_attach] at hle
  rcases target_eq env a child with ⟨-, heq⟩ | ⟨hf, heq⟩
  · rw [heq] at hle
    simp only [materializePlaceholder, Vec.size_pushBack] at hle
    omega
  · rw [heq] at hslot hlt h
    exact ⟨hf, slot, hslot, hlt, h⟩

/-- Linking a child does alike to states that are alike. -/
theorem Alike.attach (h : a.Alike b) (slot : Nat) (target : NodeId) :
    (a.attach slot target).Alike (b.attach slot target) where
  core := by
    have hchildren : ∀ n m : Node, n.core = m.core →
        ({ n with children := n.children ++ [target] } : Node).core =
          ({ m with children := m.children ++ [target] } : Node).core := fun n m hnm =>
      congrArg (fun n : Node => { n with children := n.children ++ [target] }) hnm
    have hrefs : ∀ (x y : NodeId) (n m : Node), n.core = m.core →
        ({ n with refs := n.refs ++ [x] } : Node).core =
          ({ m with refs := m.refs ++ [y] } : Node).core := fun _ _ _ _ hnm => hnm
    exact core_modify (core_modify h.core hchildren slot) (hrefs _ _) target.toNat
  nameIndex := h.nameIndex
  metaMap := h.metaMap
  snapshots := h.snapshots

theorem Alike.resolve {fa fb : GroupFrame} {children : List AtomId} (h : a.Alike b)
    (hslot : fa.ownerCache.slot = fa.ownerId.toNat)
    (hcached : env.ownerSlot = .cached) (hbuf : fb.ownerCache = ⟨b.nodes.buf, fa.ownerId.toNat⟩)
    (hr : ReplayVM.resolve env fa children a = some a') (hquiet : a'.nodes.size = a.nodes.size) :
    ∃ b', ReplayVM.resolve env fb children b = some b' ∧ a'.Alike b' ∧ b'.frames = b.frames ∧
      (Vec.Pushed env.growth b.nodes → Vec.Pushed env.growth b'.nodes) := by
  induction children generalizing a b with
  | nil =>
    obtain rfl := Option.some.inj hr
    exact ⟨b, rfl, h, rfl, id⟩
  | cons child children ih =>
    obtain ⟨hf, slot, hs, hlt, hr⟩ := resolve_cons_quiet hr hquiet
    obtain ⟨rfl, howner⟩ := ownerSlot_eq hslot hs
    have hfound := h.findNamed child
    have htarget : b.target env child = (a.findNamed child, b) := by
      rw [ReplayVM.target, ← hfound]
      exact if_neg hf
    have hlive : b.ownerSlot env fb = some fa.ownerId.toNat := by
      have hptr : b.nodes.live fb.ownerCache = true := by
        rw [hbuf, Vec.live_iff]
        exact ⟨rfl, h.size ▸ howner⟩
      rw [ReplayVM.ownerSlot, hcached]
      simp only [hptr, if_true]
      rw [hbuf]
    obtain ⟨b', hb', hrest, hframes, hpushed⟩ := ih (h.attach fa.ownerId.toNat (a.findNamed child))
      hbuf hr (by rw [size_attach]; exact hquiet)
    refine ⟨b', ?_, hrest, hframes, fun hb => hpushed ((hb.modify ..).modify ..)⟩
    rw [ReplayVM.resolve, htarget, hlive]
    simp only [h.size ▸ hlt, if_true]
    exact hb'

/-- A stale owner pointer stops the first child. -/
theorem Alike.resolve_stale {fa fb : GroupFrame} {children : List AtomId} (h : a.Alike b)
    (hcached : env.ownerSlot = .cached) (hbuf : fb.ownerCache.buf ≠ b.nodes.buf)
    (hchildren : children ≠ []) (hr : ReplayVM.resolve env fa children a = some a')
    (hquiet : a'.nodes.size = a.nodes.size) : ReplayVM.resolve env fb children b = none := by
  obtain ⟨child, children, rfl⟩ := List.exists_cons_of_ne_nil hchildren
  obtain ⟨hf, -⟩ := resolve_cons_quiet hr hquiet
  have htarget : b.target env child = (b.findNamed child, b) := by
    rw [ReplayVM.target]
    exact if_neg (h.findNamed child ▸ hf)
  have hstale : b.ownerSlot env fb = none := by
    rw [ReplayVM.ownerSlot, hcached]
    refine if_neg fun hlive => hbuf ?_
    exact (Vec.live_iff.mp hlive).1
  rw [ReplayVM.resolve, htarget, hstale]

end ReplayVM

namespace JournalCompactor

/-! ## When the groups fit -/

/-- What is recorded of the open groups, innermost first: whether a child is added directly to the
group, and the number of nodes when it was opened. -/
def nextOpens (size : Nat) (opens : List (Bool × Nat)) (op : Op) (rest : List Op) :
    List (Bool × Nat) :=
  match op with
  | .beginGroup _ _ => (childAhead 0 rest, size) :: opens
  | .endGroup => opens.tail
  | .newNode _ _ | .setField _ _ _ | .addChild _ | .linkRef _ _ _ | .dropNode _ | .snapshot _
  | .setMeta _ _ | .nop => opens

/-- The innermost group can be closed in a table of `size` nodes that only `push_back` has grown: the
buffer the group was opened in still has room for them. -/
def Fits (growth : Growth) (size : Nat) (opens : List (Bool × Nat)) : Prop :=
  ∀ o ∈ opens.head?, o.1 = true → size ≤ (Vec.grown growth o.2).1

/-- Every group of `ops` that adds a child directly can be closed. -/
def GroupsFit (growth : Growth) : Nat → List (Bool × Nat) → List Op → Prop
  | _, _, [] => True
  | size, opens, op :: ops =>
    (op = .endGroup → Fits growth size opens) ∧
      GroupsFit growth (if op.code = .newNode then size + 1 else size)
        (nextOpens size opens op ops) ops

/-! ## The simulation -/

/-- The frames of the second run are those of the first whose group adds a child, with the owner's
slot in the buffer the table had at their `BEGIN_GROUP`. -/
inductive Mirrors (growth : Growth) (size : Nat) :
    List (Bool × Nat) → List GroupFrame → List GroupFrame → Prop
  | nil : Mirrors growth size [] [] []
  | kept {base opens fa fb as bs} (hbase : base ≤ size)
      (hchildren : fb.deferredChildren = fa.deferredChildren)
      (hcache : fb.ownerCache = ⟨(Vec.grown growth base).2, fa.ownerId.toNat⟩)
      (hrest : Mirrors growth size opens as bs) :
      Mirrors growth size ((true, base) :: opens) (fa :: as) (fb :: bs)
  | gone {base opens fa as bs} (hrest : Mirrors growth size opens as bs) :
      Mirrors growth size ((false, base) :: opens) (fa :: as) bs

theorem Mirrors.mono {growth : Growth} {size size' : Nat} {opens : List (Bool × Nat)}
    {as bs : List GroupFrame} (h : Mirrors growth size opens as bs) (hle : size ≤ size') :
    Mirrors growth size' opens as bs := by
  induction h with
  | nil => exact .nil
  | kept hbase hchildren hcache _ ih => exact .kept (Nat.le_trans hbase hle) hchildren hcache ih
  | gone _ ih => exact .gone ih

theorem Mirrors.length_le {growth : Growth} {size : Nat} {opens : List (Bool × Nat)}
    {as bs : List GroupFrame} (h : Mirrors growth size opens as bs) : bs.length ≤ as.length := by
  induction h with
  | nil => exact Nat.le_refl _
  | kept _ _ _ _ ih => exact Nat.succ_le_succ ih
  | gone _ ih => exact Nat.le_succ_of_le ih

/-- A frame has a child so far. -/
def hasChild (frame : GroupFrame) : Bool := !frame.deferredChildren.isEmpty

/-- **The simulation**: `a` is a state of the run of the journal, `b` one of the run of the compacted
journal, and `rest` is what is left of the journal. -/
structure Sim (growth : Growth) (live : Finset NodeId) (rest : List Op)
    (opens : List (Bool × Nat)) (a b : ReplayVM) : Prop extends ReplayVM.Alike a b where
  fields : ∀ i ∈ live, ∀ f, overwritten i f rest = false → a.fieldAt i f = b.fieldAt i f
  frames : Mirrors growth b.nodes.size opens a.frames b.frames
  flags : opens.map Prod.fst = groupFlags (a.frames.map hasChild) 0 rest
  pushed : Vec.Pushed growth b.nodes

/-- The statistics do not matter. -/
theorem Sim.tick {growth : Growth} {live : Finset NodeId} {rest : List Op}
    {opens : List (Bool × Nat)} {a b : ReplayVM} (h : Sim growth live rest opens a b) :
    Sim growth live rest opens a.tick b ∧ Sim growth live rest opens a.tick b.tick :=
  ⟨⟨⟨h.core, h.nameIndex, h.metaMap, h.snapshots⟩, h.fields, h.frames, h.flags, h.pushed⟩,
    ⟨⟨h.core, h.nameIndex, h.metaMap, h.snapshots⟩, h.fields, h.frames, h.flags, h.pushed⟩⟩

section Step

variable {env : Env} {live : Finset NodeId} {rest : List Op} {opens : List (Bool × Nat)}
  {a a' b b' : ReplayVM} {op : Op}

theorem map_fst_nextOpens (size : Nat) :
    (nextOpens size opens op rest).map Prod.fst = nextFlags (opens.map Prod.fst) op rest := by
  cases op with
  | endGroup => exact List.map_tail
  | _ => rfl

/-- Which open groups have a child, after an opcode. -/
theorem map_hasChild (heff : ReplayVM.Effect env a op a') :
    a'.frames.map hasChild = nextGroups (a.frames.map hasChild) op := by
  cases heff with
  | beginGroup => rfl
  | endGroup hf hr =>
    rw [(ReplayVM.resolve_size hr).1, hf]
    rfl
  | addChild hf =>
    rw [hf]
    simp [ReplayVM.queueChild, nextGroups, hasChild]
  | _ => rfl

theorem Sim.nextFlags (h : Sim env.growth live (op :: rest) opens a b)
    (heff : ReplayVM.Effect env a op a') (size : Nat) :
    (nextOpens size opens op rest).map Prod.fst = groupFlags (a'.frames.map hasChild) 0 rest := by
  rw [map_fst_nextOpens, h.flags, nextFlags_groupFlags, map_hasChild heff]

/-- A field that `op` does not write and `rest` does not set, `op :: rest` does not set. -/
theorem overwritten_cons_of_written {i : NodeId} {f : FieldId}
    (hwritten : op.written a i.toNat f = none) (hrest : overwritten i f rest = false) :
    overwritten i f (op :: rest) = false := by
  unfold overwritten at hrest ⊢
  rw [List.any_cons, hrest, Bool.or_false]
  cases op with
  | setField node field v =>
    by_contra h
    simp only [Bool.not_eq_false, Bool.and_eq_true, beq_iff_eq] at h
    simp [Op.written, h.1, h.2] at hwritten
  | _ => rfl

theorem written_withoutHint (vm : ReplayVM) (i : Nat) (f : FieldId) :
    op.withoutHint.written vm i f = op.written vm i f := by
  cases op <;> rfl

/-- The fields after an opcode that both runs execute. -/
theorem Sim.fields_kept (h : Sim env.growth live (op :: rest) opens a b)
    (heff : ReplayVM.Effect env a op a') (heff' : ReplayVM.Effect env b op.withoutHint b') :
    ∀ i ∈ live, ∀ f, overwritten i f rest = false → a'.fieldAt i f = b'.fieldAt i f := by
  intro i hi f hrest
  have hwritten : op.written a i.toNat f = op.written b i.toNat f := by
    cases op with
    | linkRef src field target => simp only [Op.written, h.findNamed]
    | _ => rfl
  rw [heff.fieldAt, heff'.fieldAt, written_withoutHint, hwritten]
  cases hw : op.written b i.toNat f with
  | some v => rfl
  | none => exact congrArg _ (h.fields i hi f (overwritten_cons_of_written hw hrest))

/-- An opcode that is not kept writes no field that is still needed. -/
theorem written_of_not_kept {flags : List Bool}
    (hkeep : (keepsField live op rest && keepsGroup flags op rest) = false) {i : NodeId}
    (hi : i ∈ live) {f : FieldId} (hrest : overwritten i f rest = false) (vm : ReplayVM) :
    op.written vm i.toNat f = none := by
  cases op with
  | setField node field v =>
    refine if_neg ?_
    rintro ⟨hnode, rfl⟩
    obtain rfl := UInt32.toNat_inj.mp hnode
    simp [keepsField, keepsGroup, hi, hrest] at hkeep
  | linkRef src field target =>
    refine if_neg ?_
    rintro ⟨hnode, -⟩
    obtain rfl := UInt32.toNat_inj.mp hnode
    simp [keepsField, keepsGroup, hi] at hkeep
  | _ => rfl

theorem Sim.fields_gone (h : Sim env.growth live (op :: rest) opens a b)
    (heff : ReplayVM.Effect env a op a') (hkeep : (keepsField live op rest &&
      keepsGroup (opens.map Prod.fst) op rest) = false) :
    ∀ i ∈ live, ∀ f, overwritten i f rest = false → a'.fieldAt i f = b.fieldAt i f := by
  intro i hi f hrest
  have hwritten := written_of_not_kept hkeep hi hrest a
  rw [heff.fieldAt, hwritten, Option.none_or]
  exact h.fields i hi f (overwritten_cons_of_written hwritten hrest)

/-- At an `END_GROUP`, the flag of the innermost group is whether it has a child. -/
theorem Sim.endGroup (h : Sim env.growth live (.endGroup :: rest) opens a b) {frame : GroupFrame}
    {frames : List GroupFrame} (hf : a.frames = frame :: frames) :
    ∃ base opens', opens = (hasChild frame, base) :: opens' := by
  have hflags := h.flags
  rw [hf, List.map_cons, groupFlags, childAhead, Bool.or_false] at hflags
  cases opens with
  | nil => cases hflags
  | cons o opens =>
    obtain ⟨hhead, -⟩ := List.cons.inj hflags
    exact ⟨o.2, opens, by rw [← hhead]⟩

/-- **An opcode that is not kept** leaves the second run where it is. -/
theorem Sim.gone (h : Sim env.growth live (op :: rest) opens a b)
    (heff : ReplayVM.Effect env a op a') (hkeep : (keepsField live op rest &&
      keepsGroup (opens.map Prod.fst) op rest) = false) :
    Sim env.growth live rest (nextOpens a.nodes.size opens op rest) a' b := by
  have hfields := h.fields_gone heff hkeep
  have hflags := h.nextFlags heff a.nodes.size
  cases heff with
  | nop => exact ⟨⟨h.core, h.nameIndex, h.metaMap, h.snapshots⟩, hfields, h.frames, hflags, h.pushed⟩
  | setField =>
    refine ⟨⟨?_, h.nameIndex, h.metaMap, h.snapshots⟩, hfields, h.frames, hflags, h.pushed⟩
    rw [← h.core]
    refine map_modify_eq ?_ ..
    exact fun _ => rfl
  | linkRefMissing =>
    exact ⟨⟨h.core, h.nameIndex, h.metaMap, h.snapshots⟩, hfields, h.frames, hflags, h.pushed⟩
  | linkRef =>
    refine ⟨⟨?_, h.nameIndex, h.metaMap, h.snapshots⟩, hfields, h.frames, hflags, h.pushed⟩
    rw [← h.core]
    refine map_modify_eq ?_ ..
    exact fun _ => rfl
  | beginGroup =>
    have hchild : childAhead 0 rest = false := hkeep
    refine ⟨⟨?_, h.nameIndex, h.metaMap, h.snapshots⟩, hfields, ?_, hflags, h.pushed⟩
    · rw [← h.core]
      simp [ReplayVM.openGroup]
    · rw [nextOpens, hchild]
      exact .gone h.frames
  | @endGroup frame frames vm' hf hr =>
    obtain ⟨base, opens', rfl⟩ := h.endGroup hf
    have hchild : hasChild frame = false := hkeep
    have hnil : frame.deferredChildren = [] := by simpa [hasChild] using hchild
    rw [hnil] at hr
    obtain rfl := Option.some.inj hr
    refine ⟨⟨h.core, h.nameIndex, h.metaMap, h.snapshots⟩, hfields, ?_, hflags, h.pushed⟩
    have hframes := h.frames
    rw [hf, hchild] at hframes
    cases hframes with
    | gone hrest => exact hrest
  | _ => simp [keepsField, keepsGroup] at hkeep

/-- A compacted `BEGIN_GROUP` reserves nothing. -/
theorem nodes_openGroup_zero (vm : ReplayVM) (owner : NodeId) (name : AtomId) :
    (vm.openGroup env owner name 0).nodes = vm.nodes := Vec.reserve_size vm.nodes

theorem Sim.beginGroup_kept {name : AtomId} {hint : UInt32}
    (h : Sim env.growth live (.beginGroup name hint :: rest) opens a b)
    (heff : ReplayVM.Effect env a (.beginGroup name hint) a') (hchild : childAhead 0 rest = true) :
    ∃ b', ReplayVM.Effect env b (.beginGroup name 0) b' ∧
      Sim env.growth live rest ((true, a.nodes.size) :: opens) a' b' := by
  have hflags := h.nextFlags heff a.nodes.size
  have hfields := fun b' (heff' : ReplayVM.Effect env b (.beginGroup name 0) b') =>
    h.fields_kept heff heff'
  cases heff with
  | @beginGroup _ _ owner hd ho ha =>
    obtain ⟨m, hm, hcore⟩ := h.foundNode? ho
    rw [h.findNamed] at hm
    have halive : m.alive = true := (congrArg Node.alive hcore).symm.trans ha
    have heff' : ReplayVM.Effect env b (.beginGroup name 0)
        (b.openGroup env (b.findNamed name) name 0) :=
      .beginGroup (Nat.lt_of_le_of_lt h.frames.length_le hd) hm halive
    refine ⟨_, heff', ⟨?_, h.nameIndex, h.metaMap, h.snapshots⟩, hfields _ heff', ?_, ?_, ?_⟩
    · rw [nodes_openGroup_zero, ← h.core]
      simp [ReplayVM.openGroup]
    · rw [nodes_openGroup_zero]
      refine .kept (Nat.le_of_eq h.size) rfl ?_ h.frames
      show Vec.ptr (b.openGroup env (b.findNamed name) name 0).nodes (b.findNamed name).toNat = _
      rw [nodes_openGroup_zero, Vec.ptr, h.pushed.buf, h.size, h.findNamed]
    · rw [← hflags, nextOpens, hchild]
    · rw [nodes_openGroup_zero]
      exact h.pushed

theorem Sim.addChild_kept {child : AtomId}
    (h : Sim env.growth live (.addChild child :: rest) opens a b)
    (heff : ReplayVM.Effect env a (.addChild child) a') :
    ∃ b', ReplayVM.Effect env b (.addChild child) b' ∧
      Sim env.growth live rest opens a' b' := by
  have hflags := h.nextFlags heff a.nodes.size
  have hfields := fun b' (heff' : ReplayVM.Effect env b (.addChild child) b') =>
    h.fields_kept heff heff'
  cases heff with
  | @addChild _ frame frames hf hn =>
    have hframes := h.frames
    have hopens := h.flags
    rw [hf] at hframes
    generalize hb : b.frames = bframes at hframes
    rw [hf, List.map_cons, groupFlags, childAhead, beq_self_eq_true, Bool.true_or, Bool.or_true]
      at hopens
    cases hframes with
    | gone => cases hopens
    | @kept base opens fa fb as bs hbase hchildren hcache hrest =>
      have heff' : ReplayVM.Effect env b (.addChild child) (b.queueChild fb bs child) :=
        .addChild hb hn
      refine ⟨_, heff', ⟨h.core, h.nameIndex, h.metaMap, h.snapshots⟩, hfields _ heff', ?_, hflags,
        h.pushed⟩
      exact .kept hbase (by rw [hchildren]) hcache hrest

theorem Sim.endGroup_kept (h : Sim env.growth live (.endGroup :: rest) opens a b)
    (heff : ReplayVM.Effect env a .endGroup a') (hslots : a.SlotsAgree)
    (hcached : env.ownerSlot = .cached) (hquiet : a'.nodes.size = a.nodes.size)
    (hkeep : (opens.map Prod.fst).headD true = true) :
    (Fits env.growth a.nodes.size opens → ∃ b', ReplayVM.Effect env b .endGroup b' ∧
      Sim env.growth live rest opens.tail a' b') ∧
    (¬ Fits env.growth a.nodes.size opens → ∀ b', ¬ ReplayVM.Effect env b .endGroup b') := by
  have hflags := h.nextFlags heff a.nodes.size
  have hfields := fun b' (heff' : ReplayVM.Effect env b .endGroup b') => h.fields_kept heff heff'
  cases heff with
  | @endGroup frame frames a' hf hr =>
    obtain ⟨base, opens, rfl⟩ := h.endGroup hf
    have hchild : hasChild frame = true := hkeep
    have hne : frame.deferredChildren ≠ [] := fun hnil => by
      rw [hasChild, hnil] at hchild
      cases hchild
    have hslot : frame.ownerCache.slot = frame.ownerId.toNat :=
      hslots frame (hf ▸ List.mem_cons_self)
    have hframes := h.frames
    rw [hf, hchild] at hframes
    generalize hb : b.frames = bframes at hframes
    cases hframes with
    | @kept _ _ _ fb _ bs hbase hchildren hcache hrest =>
      have hpopped : ({ a with frames } : ReplayVM).Alike { b with frames := bs } :=
        ⟨h.core, h.nameIndex, h.metaMap, h.snapshots⟩
      have hbuf : (Vec.grown env.growth base).2 = b.nodes.buf ↔
          Fits env.growth a.nodes.size ((hasChild frame, base) :: opens) := by
        rw [h.pushed.buf, Vec.buf_grown_eq_iff hbase, h.size]
        simp [Fits, hchild]
      refine ⟨fun hfits => ?_, fun hfits b' heff' => ?_⟩
      · have hcache' : fb.ownerCache = ⟨b.nodes.buf, frame.ownerId.toNat⟩ := by
          rw [hcache, hbuf.mpr hfits]
        obtain ⟨b', hb', hrest', hframes', hpushed⟩ :=
          hpopped.resolve hslot hcached hcache' hr hquiet
        have heff' : ReplayVM.Effect env b .endGroup b' := .endGroup hb (hchildren ▸ hb')
        refine ⟨b', heff', ⟨hrest'.core, hrest'.nameIndex, hrest'.metaMap, hrest'.snapshots⟩,
          hfields _ heff', ?_, hflags, hpushed h.pushed⟩
        show Mirrors _ b'.nodes.size opens a'.frames b'.frames
        rw [(ReplayVM.resolve_size hr).1, hframes', ← hrest'.size, hquiet, h.size]
        exact hrest
      · cases heff' with
        | endGroup hb' hr' =>
          obtain ⟨rfl, rfl⟩ := List.cons.inj (hb.symm.trans hb')
          rw [hchildren, hpopped.resolve_stale hcached (by rw [hcache]; exact mt hbuf.mp hfits) hne
            hr hquiet] at hr'
          cases hr'

/-- **An opcode that is kept** is executed by both runs, if a group it closes fits. -/
theorem Sim.kept (h : Sim env.growth live (op :: rest) opens a b)
    (heff : ReplayVM.Effect env a op a') (hslots : a.SlotsAgree) (hcached : env.ownerSlot = .cached)
    (hquiet : op = .endGroup → a'.nodes.size = a.nodes.size)
    (hkeep : (keepsField live op rest && keepsGroup (opens.map Prod.fst) op rest) = true)
    (hfits : op = .endGroup → Fits env.growth a.nodes.size opens) :
    ∃ b', ReplayVM.Effect env b op.withoutHint b' ∧
      Sim env.growth live rest (nextOpens a.nodes.size opens op rest) a' b' := by
  obtain ⟨-, hgroup⟩ := Bool.and_eq_true_iff.mp hkeep
  cases op with
  | beginGroup name hint =>
    have hchild : childAhead 0 rest = true := hgroup
    rw [nextOpens, hchild]
    exact h.beginGroup_kept heff hchild
  | addChild child => exact h.addChild_kept heff
  | endGroup => exact (h.endGroup_kept heff hslots hcached (hquiet rfl) hgroup).1 (hfits rfl)
  | _ =>
    obtain ⟨b', heff', halike, hframes, hframes', hpushed⟩ :=
      h.toAlike.effect heff nofun nofun nofun
    refine ⟨b', heff', ⟨halike.core, halike.nameIndex, halike.metaMap, halike.snapshots⟩,
      h.fields_kept heff heff', ?_, h.nextFlags heff _, hpushed h.pushed⟩
    rw [hframes, hframes']
    exact h.frames.mono heff'.size_mono

end Step

/-! ## Whole runs -/

section Run

variable {env : Env} {vm vm' : ReplayVM} {r r' : Bytes} {op : Op}

/-- The states at the end agree, if what is alive is live. -/
theorem Sim.same {live : Finset NodeId} {opens : List (Bool × Nat)} {a b : ReplayVM}
    (h : Sim env.growth live [] opens a b)
    (hlive : ∀ i n, a.node? i = some n → n.alive = true → i ∈ live) : a.Same b where
  size := h.size
  nameIndex := h.nameIndex
  metaMap := h.metaMap
  snapshots := h.snapshots
  node i n m hn hm := by
    obtain ⟨m', hm', hcore⟩ := h.node? hn
    obtain rfl := Option.some.inj (hm'.symm.trans hm)
    refine ⟨(congrArg Node.kind hcore :), (congrArg Node.name hcore :),
      (congrArg Node.alive hcore :), (congrArg Node.generation hcore :),
      (congrArg Node.children hcore :), fun ha => ?_⟩
    refine Finmap.ext_lookup fun f => ?_
    have hfield := h.fields i (hlive i n hn ha) f rfl
    rw [ReplayVM.fieldAt, ReplayVM.fieldAt, hn, hm] at hfield
    exact hfield

theorem typed_withoutHint {ty : FieldTypes} {limits : Limits} (h : op.Typed ty limits) :
    op.withoutHint.Typed ty limits := by
  cases op <;> exact h

/-- **The second run** from a simulated state ends like the first iff the groups still fit. -/
theorem sim_run {journal body : Bytes} {count : UInt32} {ops : List Op} {live : Finset NodeId}
    {b : ReplayVM} (hlimits : env.limits = {}) (hcached : env.ownerSlot = .cached)
    (hquiet : Quiet env {} journal) (hcount : readVarintU32 journal = .ok (count, body))
    (hle : count ≤ env.limits.maxJournalOps) (hlen : ops.length = count.toNat)
    (hrep : Replays env ops {} body vm' r') (hclosed : vm'.frames = [])
    (hlive : ∀ i n, vm'.node? i = some n → n.alive = true → i ∈ live)
    (hsim : Sim env.growth live ops [] {} b) :
    (∃ b' t, Machine.Ok (runOps env (survivors live [] ops).length) b
      (((survivors live [] ops).map Op.withoutHint).flatMap Op.encode) () b' t ∧
        b'.frames = [] ∧ vm'.Same b') ↔ GroupsFit env.growth 0 [] ops := by
  refine run_induction (motive := fun ops a _ => ∀ opens b, Sim env.growth live ops opens a b →
    ((∃ b' t, Machine.Ok (runOps env (survivors live (opens.map Prod.fst) ops).length) b
      (((survivors live (opens.map Prod.fst) ops).map Op.withoutHint).flatMap Op.encode) () b' t ∧
        b'.frames = [] ∧ vm'.Same b') ↔ GroupsFit env.growth a.nodes.size opens ops))
    hcount hle (Nat.le_of_eq hlen) hrep ?_ ?_ [] b hsim
  · intro opens b h
    refine iff_of_true ⟨b, [], Machine.pure_ok.mpr ⟨rfl, rfl, rfl⟩, ?_, h.same hlive⟩ trivial
    have hframes := h.frames.length_le
    rw [hclosed] at hframes
    exact List.length_eq_zero_iff.mp (Nat.le_zero.mp hframes)
  · intro k a op a' r r1 ops hexec hread ih opens b h
    have heff := hexec.effect
    obtain ⟨_, hbefore⟩ := hexec.before
    have hsound : a.Sound := sound_of_fresh (hlimits ▸ idsFit_default) hbefore
    have hquiet' : op = .endGroup → a'.nodes.size = a.nodes.size := by
      rintro rfl
      exact hquiet k a a' hexec
    have hsize : a'.tick.nodes.size = if op.code = .newNode then a.nodes.size + 1
        else a.nodes.size := by
      by_cases hnew : op.code = .newNode
      · rw [if_pos hnew]
        cases heff with
        | newNode => exact ReplayVM.size_createNode
        | _ => cases hnew
      · rw [if_neg hnew]
        exact heff.size_quiet hnew hquiet'
    rw [GroupsFit, ← hsize, survivors]
    cases hkeep : keepsField live op ops && keepsGroup (opens.map Prod.fst) op ops with
    | false =>
      have hfits : op = .endGroup → Fits env.growth a.nodes.size opens := by
        rintro rfl o ho hchild
        have hhead : (opens.map Prod.fst).headD true = false := hkeep
        obtain ⟨opens, rfl⟩ := List.head?_eq_some_iff.mp ho
        rw [List.map_cons, List.headD_cons, hchild] at hhead
        cases hhead
      rw [if_neg Bool.false_ne_true, ← map_fst_nextOpens a.nodes.size, and_iff_right hfits]
      exact ih _ _ (h.gone heff hkeep).tick.1
    | true =>
      have htyped : op.withoutHint.Typed (b.fieldType env) env.limits := by
        rw [← h.toAlike.fieldType env]
        exact typed_withoutHint (readOp_typed hread)
      rw [if_pos rfl, List.length_cons, List.map_cons, List.flatMap_cons]
      simp only [runOps_encode_ok htyped]
      by_cases hfits : op = .endGroup → Fits env.growth a.nodes.size opens
      · obtain ⟨b1, heff', hsim⟩ := h.kept heff hsound.slots hcached hquiet' hkeep hfits
        rw [and_iff_right hfits, ← ih _ _ hsim.tick.2, map_fst_nextOpens]
        constructor
        · rintro ⟨b', t, ⟨b2, heff2, hrest⟩, hend⟩
          obtain rfl := heff'.unique heff2
          exact ⟨b', t, hrest, hend⟩
        · rintro ⟨b', t, hrest, hend⟩
          exact ⟨b', t, ⟨b1, heff', hrest⟩, hend⟩
      · obtain ⟨rfl, hnot⟩ := Classical.not_imp.mp hfits
        refine iff_of_false ?_ fun hand => hfits hand.1
        rintro ⟨b', t, ⟨b2, heff2, -⟩, -⟩
        have hgroup : (opens.map Prod.fst).headD true = true := hkeep
        exact (h.endGroup_kept heff hsound.slots hcached (hquiet' rfl) hgroup).2 hnot b2 heff2

theorem length_survivors_le (live : Finset NodeId) (flags : List Bool) (ops : List Op) :
    (survivors live flags ops).length ≤ ops.length := by
  induction ops generalizing flags with
  | nil => exact Nat.le_refl _
  | cons op ops ih =>
    rw [survivors]
    split
    · exact Nat.succ_le_succ (ih _)
    · exact Nat.le_succ_of_le (ih _)

/-- **Compaction keeps what the run of a journal ends with** iff, in a table that only `push_back` has
grown, every group that adds a child is closed before the table moves. -/
theorem compact_replay_iff (hlimits : env.limits = {}) (hcached : env.ownerSlot = .cached)
    {journal rest : Bytes} (hrun : Machine.Ok (run env) {} journal () vm rest)
    (hquiet : Quiet env {} journal) :
    (∃ res vm' rest', compact env.schema journal = .ok res ∧
      Machine.Ok (run env) {} res.journalBytes () vm' rest' ∧ vm.Same vm') ↔
      ∃ ops, RunsOver env {} journal ops ∧ GroupsFit env.growth 0 [] ops := by
  obtain ⟨count, body, hcount, hle, hops, hclosed⟩ := run_ok_iff_runOps.mp hrun
  -- what holds of any opcodes the run executes
  have hfit : ∀ ops, RunsOver env {} journal ops → ((∃ res vm' rest',
      compact env.schema journal = .ok res ∧
        Machine.Ok (run env) {} res.journalBytes () vm' rest' ∧ vm.Same vm') ↔
          GroupsFit env.growth 0 [] ops) := by
    rintro ops ⟨count', body', mid, t, hcount', hlen, hrep⟩
    obtain ⟨rfl, rfl⟩ := Prod.mk.inj (Except.ok.inj (hcount.symm.trans hcount'))
    have hsame := hops.symm.trans (runOps_ok_iff (u := ()).mpr ⟨ops, hlen, hrep⟩)
    obtain ⟨hvalue, rfl⟩ := Prod.mk.inj hsame
    obtain ⟨records, st', hdec, hstack⟩ :=
      decodes_of_run hlimits hquiet hcount hle hlen hrep hclosed
    obtain ⟨res, hres, hbytes⟩ := compact_of_decodes hcount hlen hdec hstack
    have hsim : Sim env.growth (liveOf ops) ops [] {} {} :=
      ⟨⟨rfl, rfl, rfl, rfl⟩, fun _ _ _ _ => rfl, .nil, rfl, Vec.pushed_empty⟩
    have hkept : (compacted ops).length ≤ env.limits.maxJournalOps.toNat := by
      have := length_survivors_le (liveOf ops) [] ops
      have := UInt32.le_iff_toNat_le.mp hle
      rw [compacted, List.length_map]
      omega
    rw [← sim_run hlimits hcached hquiet hcount hle hlen hrep hclosed
      (fun i n hn ha => mem_liveOf_of_alive hquiet hcount hle hlen hrep hn ha) hsim]
    constructor
    · rintro ⟨res', vm', rest', hres', hrun', hsame⟩
      obtain rfl := Except.ok.inj (hres.symm.trans hres')
      rw [hbytes, run_journalOf hkept, compacted, List.length_map] at hrun'
      exact ⟨vm', rest', hrun'.1, hrun'.2, hsame⟩
    · rintro ⟨vm', rest', hrun', hframes, hsame⟩
      refine ⟨res, vm', rest', hres, ?_, hsame⟩
      rw [hbytes, run_journalOf hkept, compacted, List.length_map]
      exact ⟨hrun', hframes⟩
  constructor
  · intro h
    obtain ⟨ops, hlen, hrep⟩ := runOps_ok_iff.mp hops
    have hover : RunsOver env {} journal ops := ⟨count, body, vm, rest, hcount, hlen, hrep⟩
    exact ⟨ops, hover, (hfit ops hover).mp h⟩
  · rintro ⟨ops, hover, hfits⟩
    exact (hfit ops hover).mpr hfits

/-- A group with room for the node made inside it, by its hint. -/
def hintedGroup : List Op :=
  [.newNode 0 0, .beginGroup 0 1, .newNode 0 0, .addChild 0, .endGroup]

theorem hint_lost :
    (∃ vm, Machine.Ok (run oneOwner) {} (journalOf hintedGroup) () vm []) ∧
      Quiet oneOwner {} (journalOf hintedGroup) ∧
      ∃ res, compact oneOwner.schema (journalOf hintedGroup) = .ok res ∧
        (run oneOwner {} res.journalBytes).1 = .error .staleOwner := by
  refine ⟨⟨_, Machine.ok_of_fst rfl⟩, quiet_of_executed rfl (by decide), _, rfl, rfl⟩

/-- The same nodes and group, the group opened last. -/
def lateGroup : List Op :=
  [.newNode 0 0, .newNode 0 0, .beginGroup 0 0, .addChild 0, .endGroup]

theorem compact_replay_lateGroup :
    (∃ res vm' rest', compact oneOwner.schema (journalOf lateGroup) = .ok res ∧
      Machine.Ok (run oneOwner) {} res.journalBytes () vm' rest' ∧
        (run oneOwner {} (journalOf lateGroup)).2.Same vm') ↔
      ∃ ops, RunsOver oneOwner {} (journalOf lateGroup) ops ∧
        GroupsFit oneOwner.growth 0 [] ops :=
  compact_replay_iff rfl rfl (Machine.ok_of_fst rfl) (quiet_of_executed rfl (by decide))

end Run

end JournalCompactor

end Stratavm
