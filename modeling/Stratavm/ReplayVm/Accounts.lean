import Stratavm.Lib.Tally
import Stratavm.ReplayVm.Atomic
import Stratavm.ReplayVm.Perform
import Stratavm.ReplayVm.Slots

/-!
# The books of a run

`ReplayStats` is bumped by hand in the handlers; the free list and the snapshots are appended to.
`Accounts` says what the counters count, in terms of the table: a total over its nodes (`total`), or the
length of a list. It is a matter of what an opcode does to the table without its references
(`bodies`), so there is one lemma for each way of changing that: `Accounts.append`,
`Accounts.modified`, `Accounts.drop`, `Accounts.snapshot`.

The counters are 32-bit numbers; a run within the default limits does not wrap them (`linkable`).

* `Effect.accounts`: an opcode keeps the books.
* **`replay_accounts`**: so does every run from a decoded heap.
-/

namespace Stratavm

open Lib

namespace ReplayVM

variable {env : Env} {vm vm' : ReplayVM} {op : Op}

/-! ## Totals -/

/-- The weights of the nodes, added up. -/
def total (w : Node → Nat) (vm : ReplayVM) : Nat := tally (fun _ => w) vm.bodies

/-- A node that `NEW_NODE` or the heap made. -/
def made (n : Node) : Nat := (!n.placeholder).toNat

/-- A node that stands in for one. -/
def standIn (n : Node) : Nat := n.placeholder.toNat

/-- A node that was dropped. -/
def dead (n : Node) : Nat := (!n.alive).toNat

/-- The edges to children. -/
def links (n : Node) : Nat := n.children.length

theorem total_append {w : Node → Nat} {n : Node} (h : vm'.bodies = vm.bodies ++ [n]) :
    vm'.total w = vm.total w + w n := by
  unfold total
  rw [h, tally_append_singleton]

theorem total_modify {w : Node → Nat} {i : Nat} {f : Node → Node} {n : Node}
    (h : vm'.bodies = vm.bodies.modify i f) (hn : vm.bodies[i]? = some n) :
    vm'.total w + w n = vm.total w + w (f n) := by
  unfold total
  rw [h]
  exact tally_modify hn

theorem total_modify_eq {w : Node → Nat} {i : Nat} {f : Node → Node}
    (h : vm'.bodies = vm.bodies.modify i f) (hf : ∀ n, w (f n) = w n) : vm'.total w = vm.total w := by
  unfold total
  rw [h]
  exact tally_modify_eq fun n _ => hf n

theorem total_congr {w : Node → Nat} (h : vm'.bodies = vm.bodies) : vm'.total w = vm.total w := by
  unfold total
  rw [h]

/-- A total that references do not matter for, over the table itself. -/
theorem total_eq_sum {w : Node → Nat} (hw : ∀ n, w n.body = w n) :
    vm.total w = (vm.nodes.data.map w).sum := by
  unfold total bodies
  rw [tally_const, List.map_map]
  congr 2
  funext n
  exact hw n

theorem total_eq_countP {p : Node → Bool} (hp : ∀ n, p n.body = p n) :
    vm.total (fun n => (p n).toNat) = vm.nodes.data.countP p := by
  rw [total_eq_sum fun n => congrArg Bool.toNat (hp n), ← tally_const, tally_toNat]

theorem countP_add_countP_not (p : Node → Bool) (nodes : List Node) :
    nodes.countP p + nodes.countP (fun n => !p n) = nodes.length := by
  rw [List.length_eq_countP_add_countP p]
  congr 2
  funext n
  cases p n <;> rfl

/-- Every node was made, or stands in for one. -/
theorem total_made_add_standIn (vm : ReplayVM) :
    vm.total made + vm.total standIn = vm.nodes.size := by
  have hmade : vm.total made = vm.nodes.data.countP fun n => !n.placeholder :=
    total_eq_countP fun _ => rfl
  have hstandIn : vm.total standIn = vm.nodes.data.countP Node.placeholder :=
    total_eq_countP fun _ => rfl
  rw [hmade, hstandIn, Nat.add_comm]
  exact countP_add_countP_not ..

/-- Every node is alive or dead. -/
theorem aliveCount_add_dead (vm : ReplayVM) : vm.aliveCount + vm.total dead = vm.nodes.size := by
  have hdead : vm.total dead = vm.nodes.data.countP fun n => !n.alive := total_eq_countP fun _ => rfl
  rw [hdead]
  exact countP_add_countP_not ..

theorem total_eq_zero {w : Node → Nat} (h : ∀ n ∈ vm.bodies, w n = 0) : vm.total w = 0 := by
  unfold total
  rw [tally_const]
  refine List.sum_eq_zero fun k hk => ?_
  obtain ⟨n, hn, rfl⟩ := List.mem_map.mp hk
  exact h n hn

/-- One edge more. -/
theorem total_links {slot : Nat} {t : NodeId} (hslot : slot < vm.bodies.length)
    (hbodies : vm'.bodies =
      vm.bodies.modify slot fun n => { n with children := n.children ++ [t] }) :
    vm'.total links = vm.total links + 1 := by
  have htotal := total_modify (w := links) hbodies (List.getElem?_eq_getElem hslot)
  unfold links at htotal
  rw [List.length_append, List.length_singleton] at htotal
  unfold links
  omega

/-! ## The books -/

/-- Whether a node is alive, and its generation. -/
def life (n : Node) : Bool × UInt32 := (n.alive, n.generation)

/-- Dropping a node ends its life. -/
theorem lives_drop {i : NodeId} {node : Node} (hlife : (vm.bodies.map life)[i.toNat]? = some (true, 0))
    (j : Nat) : ((vm.drop i node).bodies.map life)[j]? =
      if j = i.toNat then some (false, 1) else (vm.bodies.map life)[j]? := by
  have hlives : (vm.drop i node).bodies.map life =
      (vm.bodies.map life).modify i.toNat fun l => (false, l.2 + 1) := by
    rw [bodies_drop]
    refine List.ext_getElem? fun j => ?_
    rw [List.getElem?_map, List.getElem?_modify, List.getElem?_modify, List.getElem?_map]
    cases vm.bodies[j]? with
    | none => rfl
    | some n => by_cases hj : i.toNat = j <;> simp [hj, life]
  rw [hlives]
  by_cases hj : j = i.toNat
  · rw [if_pos hj, hj, List.getElem?_modify_eq, hlife]
    rfl
  · rw [if_neg hj, List.getElem?_modify_ne _ _ (Ne.symm hj)]

theorem total_dead_drop {i : NodeId} {node : Node} (hnode : vm.node? i = some node)
    (halive : node.alive = true) : (vm.drop i node).total dead = vm.total dead + 1 := by
  have hbody : vm.bodies[i.toNat]? = some node.body := body?_of_node? hnode
  have htotal : (vm.drop i node).total dead + dead node.body = vm.total dead + 1 :=
    total_modify bodies_drop hbody
  have hbefore : dead node.body = 0 := by
    show (!node.alive).toNat = 0
    rw [halive]
    rfl
  rw [hbefore] at htotal
  exact htotal

/-- **The counters count**, and the free list lists the dead. -/
structure Accounts (vm : ReplayVM) : Prop where
  created : vm.stats.nodesCreated = UInt32.ofNat (vm.total made)
  placeholders : vm.stats.placeholders = UInt32.ofNat (vm.total standIn)
  linked : vm.stats.childrenLinked = UInt32.ofNat (vm.total links)
  dropped : vm.stats.nodesDropped = UInt32.ofNat vm.freeList.length
  /-- A node dies once, and its generation says so. -/
  lives : ∀ l ∈ vm.bodies.map life, l = (true, 0) ∨ l = (false, 1)
  free : vm.freeList.Nodup
  mem_free : ∀ i, i ∈ vm.freeList ↔ (vm.bodies.map life)[i.toNat]? = some (false, 1)
  length_free : vm.freeList.length = vm.total dead
  snapshots : vm.stats.snapshots = UInt32.ofNat vm.snapshots.length

namespace Accounts

/-- A node changed in what no total is about, but for its edges. -/
theorem modified (h : vm.Accounts) {i : Nat} {f : Node → Node}
    (hbodies : vm'.bodies = vm.bodies.modify i f) (hplaceholder : ∀ n, (f n).placeholder = n.placeholder)
    (hlife : ∀ n, life (f n) = life n)
    (hlinked : vm'.stats.childrenLinked = UInt32.ofNat (vm'.total links))
    (hfree : vm'.freeList = vm.freeList) (hsnapshots : vm'.snapshots = vm.snapshots)
    (hcreated : vm'.stats.nodesCreated = vm.stats.nodesCreated)
    (hplaceholders : vm'.stats.placeholders = vm.stats.placeholders)
    (hdropped : vm'.stats.nodesDropped = vm.stats.nodesDropped)
    (hcount : vm'.stats.snapshots = vm.stats.snapshots) : vm'.Accounts := by
  have hmade : vm'.total made = vm.total made :=
    total_modify_eq hbodies fun n => congrArg (fun b : Bool => (!b).toNat) (hplaceholder n)
  have hstandIn : vm'.total standIn = vm.total standIn :=
    total_modify_eq hbodies fun n => congrArg Bool.toNat (hplaceholder n)
  have hdead : vm'.total dead = vm.total dead :=
    total_modify_eq hbodies fun n =>
      congrArg (fun l : Bool × UInt32 => (!l.1).toNat) (hlife n)
  have hlives : vm'.bodies.map life = vm.bodies.map life := by
    rw [hbodies]
    exact map_modify_eq hlife ..
  exact {
    created := by rw [hcreated, h.created, hmade]
    placeholders := by rw [hplaceholders, h.placeholders, hstandIn]
    linked := hlinked
    dropped := by rw [hdropped, h.dropped, hfree]
    lives := hlives ▸ h.lives
    free := hfree ▸ h.free
    mem_free := fun i => by rw [hfree, hlives, h.mem_free]
    length_free := by rw [hfree, h.length_free, hdead]
    snapshots := by rw [hcount, h.snapshots, hsnapshots] }

/-- Only the books and what they are about matter. -/
theorem congr (h : vm.Accounts) (hbodies : vm'.bodies = vm.bodies) (hfree : vm'.freeList = vm.freeList)
    (hsnapshots : vm'.snapshots = vm.snapshots)
    (hcreated : vm'.stats.nodesCreated = vm.stats.nodesCreated)
    (hplaceholders : vm'.stats.placeholders = vm.stats.placeholders)
    (hlinked : vm'.stats.childrenLinked = vm.stats.childrenLinked)
    (hdropped : vm'.stats.nodesDropped = vm.stats.nodesDropped)
    (hcount : vm'.stats.snapshots = vm.stats.snapshots) : vm'.Accounts := by
  have hsame : vm'.bodies = vm.bodies.modify 0 id := by rw [hbodies, List.modify_id]
  refine h.modified hsame (fun _ => rfl) (fun _ => rfl) ?_ hfree hsnapshots hcreated hplaceholders
    hdropped hcount
  rw [hlinked, h.linked, total_congr hbodies]

/-- A field is in no book. -/
theorem write (h : vm.Accounts) {i : Nat} {field : FieldId} {v : Value}
    (hbodies : vm'.bodies = vm.bodies.modify i fun n => n.setField field v)
    (hfree : vm'.freeList = vm.freeList) (hsnapshots : vm'.snapshots = vm.snapshots)
    (hcreated : vm'.stats.nodesCreated = vm.stats.nodesCreated)
    (hplaceholders : vm'.stats.placeholders = vm.stats.placeholders)
    (hlinked : vm'.stats.childrenLinked = vm.stats.childrenLinked)
    (hdropped : vm'.stats.nodesDropped = vm.stats.nodesDropped)
    (hcount : vm'.stats.snapshots = vm.stats.snapshots) : vm'.Accounts := by
  refine h.modified hbodies (fun _ => rfl) (fun _ => rfl) ?_ hfree hsnapshots hcreated hplaceholders
    hdropped hcount
  rw [hlinked, h.linked, total_modify_eq hbodies fun _ => rfl]

/-- Appending a new node: one of the two counters goes up. -/
theorem append (h : vm.Accounts) {n : Node} (hbodies : vm'.bodies = vm.bodies ++ [n])
    (hlife : life n = (true, 0)) (hchildren : n.children = [])
    (hcreated : vm'.stats.nodesCreated = vm.stats.nodesCreated + UInt32.ofNat (made n))
    (hplaceholders : vm'.stats.placeholders = vm.stats.placeholders + UInt32.ofNat (standIn n))
    (hlinked : vm'.stats.childrenLinked = vm.stats.childrenLinked)
    (hdropped : vm'.stats.nodesDropped = vm.stats.nodesDropped)
    (hcount : vm'.stats.snapshots = vm.stats.snapshots) (hfree : vm'.freeList = vm.freeList)
    (hsnapshots : vm'.snapshots = vm.snapshots) : vm'.Accounts := by
  have hlives : vm'.bodies.map life = vm.bodies.map life ++ [(true, 0)] := by
    rw [hbodies, List.map_append, List.map_singleton, hlife]
  exact {
    created := by rw [hcreated, h.created, total_append hbodies, UInt32.ofNat_add]
    placeholders := by rw [hplaceholders, h.placeholders, total_append hbodies, UInt32.ofNat_add]
    linked := by
      rw [hlinked, h.linked, total_append hbodies, links, hchildren]
      rfl
    dropped := by rw [hdropped, h.dropped, hfree]
    lives := by
      intro l hl
      rw [hlives] at hl
      rcases List.mem_append.mp hl with hl | hl
      · exact h.lives l hl
      · exact .inl (List.mem_singleton.mp hl)
    free := hfree ▸ h.free
    mem_free := by
      intro i
      rw [hfree, hlives, h.mem_free]
      rcases Nat.lt_or_ge i.toNat (vm.bodies.map life).length with hlt | hge
      · rw [List.getElem?_append_left hlt]
      · rw [List.getElem?_append_right hge, List.getElem?_eq_none hge]
        refine ⟨nofun, fun hnew => ?_⟩
        cases List.mem_singleton.mp (List.mem_of_getElem? hnew)
    length_free := by
      have halive : n.alive = true := congrArg Prod.fst hlife
      rw [hfree, h.length_free, total_append hbodies, dead, halive]
      rfl
    snapshots := by rw [hcount, h.snapshots, hsnapshots] }

/-- Linking a child: its owner has one edge more. -/
theorem link (h : vm.Accounts) {slot : Nat} {t : NodeId} (hslot : slot < vm.bodies.length)
    (hbodies : vm'.bodies =
      vm.bodies.modify slot fun n => { n with children := n.children ++ [t] })
    (hlinked : vm'.stats.childrenLinked = vm.stats.childrenLinked + 1)
    (hcreated : vm'.stats.nodesCreated = vm.stats.nodesCreated)
    (hplaceholders : vm'.stats.placeholders = vm.stats.placeholders)
    (hdropped : vm'.stats.nodesDropped = vm.stats.nodesDropped)
    (hcount : vm'.stats.snapshots = vm.stats.snapshots) (hfree : vm'.freeList = vm.freeList)
    (hsnapshots : vm'.snapshots = vm.snapshots) : vm'.Accounts := by
  refine h.modified hbodies (fun _ => rfl) (fun _ => rfl) ?_ hfree hsnapshots hcreated hplaceholders
    hdropped hcount
  rw [hlinked, h.linked, total_links hslot hbodies, UInt32.ofNat_add]
  rfl

/-- The life of a node that is alive. -/
theorem life_of_alive (h : vm.Accounts) {i : NodeId} {node : Node} (hnode : vm.node? i = some node)
    (halive : node.alive = true) : (vm.bodies.map life)[i.toNat]? = some (true, 0) := by
  have hbody : vm.bodies[i.toNat]? = some node.body := body?_of_node? hnode
  have hmem : life node.body ∈ vm.bodies.map life :=
    List.mem_map_of_mem (List.mem_of_getElem? hbody)
  rw [List.getElem?_map, hbody, Option.map_some]
  refine congrArg some ((h.lives _ hmem).resolve_right fun hdead => ?_)
  have hfalse : node.alive = false := congrArg Prod.fst hdead
  rw [halive] at hfalse
  cases hfalse

/-- Dropping a node that is alive. -/
theorem drop (h : vm.Accounts) {i : NodeId} {node : Node} (hnode : vm.node? i = some node)
    (halive : node.alive = true) : (vm.drop i node).Accounts := by
  have hmade : (vm.drop i node).total made = vm.total made :=
    total_modify_eq bodies_drop fun _ => rfl
  have hstandIn : (vm.drop i node).total standIn = vm.total standIn :=
    total_modify_eq bodies_drop fun _ => rfl
  have hlinks : (vm.drop i node).total links = vm.total links :=
    total_modify_eq bodies_drop fun _ => rfl
  have hdead : (vm.drop i node).total dead = vm.total dead + 1 := total_dead_drop hnode halive
  have hlife := h.life_of_alive hnode halive
  have hnew : i ∉ vm.freeList := by
    rw [h.mem_free, hlife]
    exact nofun
  exact {
    created := by
      rw [hmade]
      exact h.created
    placeholders := by
      rw [hstandIn]
      exact h.placeholders
    linked := by
      rw [hlinks]
      exact h.linked
    dropped := by
      show vm.stats.nodesDropped + 1 = UInt32.ofNat (vm.freeList ++ [i]).length
      rw [h.dropped, List.length_append, UInt32.ofNat_add]
      rfl
    lives := by
      intro l hl
      obtain ⟨j, hj⟩ := List.mem_iff_getElem?.mp hl
      rw [lives_drop hlife] at hj
      split at hj
      · exact .inr (Option.some.inj hj).symm
      · exact h.lives l (List.mem_of_getElem? hj)
    free := List.nodup_append.mpr ⟨h.free, List.nodup_singleton i, by
      rintro j hj _ hi rfl
      rw [List.mem_singleton.mp hi] at hj
      exact hnew hj⟩
    mem_free := by
      intro j
      show j ∈ vm.freeList ++ [i] ↔ _
      rw [lives_drop hlife, List.mem_append, List.mem_singleton, h.mem_free]
      by_cases hj : j = i
      · simp [hj]
      · simp [hj, UInt32.toNat_inj]
    length_free := by
      show (vm.freeList ++ [i]).length = _
      rw [hdead, List.length_append, h.length_free]
      rfl
    snapshots := h.snapshots }

theorem snapshot (h : vm.Accounts) {label : AtomId} : (vm.takeSnapshot label).Accounts where
  created := h.created
  placeholders := h.placeholders
  linked := h.linked
  dropped := h.dropped
  lives := h.lives
  free := h.free
  mem_free := h.mem_free
  length_free := h.length_free
  snapshots := by
    show vm.stats.snapshots + 1 = UInt32.ofNat (vm.snapshots ++ [_]).length
    rw [h.snapshots, List.length_append, UInt32.ofNat_add]
    rfl

/-- One child of a frame. -/
theorem linkChild (h : vm.Accounts) {child : AtomId} {slot : Nat} {t : NodeId}
    (hslot : slot < (vm.target env child).2.nodes.size) :
    ((vm.target env child).2.attach slot t).Accounts := by
  have htarget : (vm.target env child).2.Accounts := by
    rcases target_eq env vm child with ⟨-, heq⟩ | ⟨-, heq⟩
    · rw [heq]
      exact h.append bodies_materialize rfl rfl (UInt32.add_zero _).symm rfl rfl rfl rfl rfl rfl
    · rw [heq]
      exact h
  rw [← length_bodies] at hslot
  exact htarget.link hslot (bodies_attach slot t) rfl rfl rfl rfl rfl rfl rfl

end Accounts

theorem Accounts.resolve {frame : GroupFrame} {children : List AtomId} (h0 : vm.Accounts)
    (h : ReplayVM.resolve env frame children vm = some vm') : vm'.Accounts := by
  refine resolve_induction (P := ReplayVM.Accounts) h h0 fun vm child slot _ hslot hvm => ?_
  exact hvm.linkChild (lt_of_ownerSlot hslot)

/-- **An opcode keeps the books.** -/
theorem Effect.accounts (h0 : vm.Accounts) (h : Effect env vm op vm') : vm'.tick.Accounts := by
  have hkeeps : vm'.Accounts := by
    cases h with
    | newNode =>
      exact h0.append bodies_createNode rfl rfl rfl (UInt32.add_zero _).symm rfl rfl rfl rfl rfl
    | setField => exact h0.write bodies_storeField rfl rfl rfl rfl rfl rfl rfl
    | beginGroup => exact h0.congr bodies_openGroup rfl rfl rfl rfl rfl rfl rfl
    | @endGroup _ frames _ _ hr =>
      have hpopped : ({ vm with frames } : ReplayVM).Accounts :=
        h0.congr rfl rfl rfl rfl rfl rfl rfl rfl
      exact hpopped.resolve hr
    | addChild | linkRefMissing | setMeta => exact h0.congr rfl rfl rfl rfl rfl rfl rfl rfl
    | linkRef => exact h0.write bodies_storeRef rfl rfl rfl rfl rfl rfl rfl
    | drop hnode halive => exact h0.drop hnode halive
    | snapshot => exact h0.snapshot
    | dropDead | nop => exact h0
  exact hkeeps.congr rfl rfl rfl rfl rfl rfl rfl rfl

section Seed

variable {limits : Limits} {g : Growth} {schema : Schema} {atoms : AtomPool} {r r' : Bytes}
  {heap : HeapImage}

theorem bodies_seed (h : decodeHeap g schema atoms limits r = .ok (heap, r')) :
    ∀ n ∈ (ReplayVM.seed {} heap).bodies,
      n.alive = true ∧ n.placeholder = false ∧ n.generation = 0 ∧ n.children = [] := by
  intro n hn
  obtain ⟨m, hm, rfl⟩ := List.mem_map.mp hn
  obtain ⟨i, hi⟩ := List.mem_iff_getElem?.mp hm
  have hheap := (decodeHeap_spec h).2 i m hi
  exact ⟨hheap.alive, hheap.placeholder, hheap.generation, hheap.children⟩

theorem total_links_seed (h : decodeHeap g schema atoms limits r = .ok (heap, r')) :
    (ReplayVM.seed {} heap).total links = 0 := by
  refine total_eq_zero fun n hn => ?_
  rw [links, (bodies_seed h n hn).2.2.2]
  rfl

/-- The books of a decoded heap. -/
theorem accounts_seed (h : decodeHeap g schema atoms limits r = .ok (heap, r')) :
    (ReplayVM.seed {} heap).Accounts := by
  have hbody := bodies_seed h
  have hstandIn : (ReplayVM.seed {} heap).total standIn = 0 := by
    refine total_eq_zero fun n hn => ?_
    rw [standIn, (hbody n hn).2.1]
    rfl
  have hdead : (ReplayVM.seed {} heap).total dead = 0 := by
    refine total_eq_zero fun n hn => ?_
    rw [dead, (hbody n hn).1]
    rfl
  have hlives : ∀ l ∈ (ReplayVM.seed {} heap).bodies.map life, l = (true, 0) := by
    intro l hl
    obtain ⟨n, hn, rfl⟩ := List.mem_map.mp hl
    obtain ⟨halive, -, hgeneration, -⟩ := hbody n hn
    rw [life, halive, hgeneration]
  exact {
    created := by
      have hmade := total_made_add_standIn (ReplayVM.seed {} heap)
      rw [hstandIn, Nat.add_zero] at hmade
      rw [hmade]
      rfl
    placeholders := by
      rw [hstandIn]
      rfl
    linked := by
      rw [total_links_seed h]
      rfl
    dropped := rfl
    lives := fun l hl => .inl (hlives l hl)
    free := List.nodup_nil
    mem_free := by
      refine fun i => ⟨nofun, fun hi => ?_⟩
      cases hlives _ (List.mem_of_getElem? hi)
    length_free := hdead.symm
    snapshots := rfl }

end Seed

/-! ## Snapshots -/

theorem resolve_lists {frame : GroupFrame} {children : List AtomId}
    (h : resolve env frame children vm = some vm') :
    vm'.snapshots = vm.snapshots ∧ vm'.freeList = vm.freeList := by
  refine resolve_induction
    (P := fun mid => mid.snapshots = vm.snapshots ∧ mid.freeList = vm.freeList) h ⟨rfl, rfl⟩
    fun mid child slot _ _ hmid => ?_
  rcases target_eq env mid child with ⟨-, heq⟩ | ⟨-, heq⟩ <;> rw [heq] <;> exact hmid

/-- Nothing leaves the free list. -/
theorem Effect.freeList_prefix (h : Effect env vm op vm') : vm.freeList <+: vm'.freeList := by
  cases h with
  | endGroup _ hr => rw [(resolve_lists hr).2]
  | drop => exact List.prefix_append ..
  | _ => exact List.prefix_rfl

/-- A later snapshot against an earlier one: no node is gone, and none has come back to life. -/
def Grows (s t : Snapshot) : Prop :=
  s.nodeCount ≤ t.nodeCount ∧ s.nodeCount - s.aliveCount ≤ t.nodeCount - t.aliveCount

/-- The snapshots are of earlier tables. -/
structure SnapshotsGrow (vm : ReplayVM) : Prop where
  sorted : vm.snapshots.Pairwise Grows
  past : ∀ s ∈ vm.snapshots, s.aliveCount ≤ s.nodeCount ∧ s.nodeCount.toNat ≤ vm.nodes.size ∧
    (s.nodeCount - s.aliveCount).toNat ≤ vm.freeList.length

/-- A snapshot of the table as it is. -/
theorem SnapshotsGrow.snapshot (h0 : vm.SnapshotsGrow) (hbooks : vm.Accounts)
    (hsize : vm.nodes.size < 2 ^ 32) {label : AtomId} : (vm.takeSnapshot label).SnapshotsGrow := by
  have hsplit := aliveCount_add_dead vm
  have hnode : (UInt32.ofNat vm.nodes.size).toNat = vm.nodes.size := toNat_ofNat_of_lt hsize
  have halive : (UInt32.ofNat vm.aliveCount).toNat = vm.aliveCount := toNat_ofNat_of_lt (by omega)
  have hle : UInt32.ofNat vm.aliveCount ≤ UInt32.ofNat vm.nodes.size := by
    rw [UInt32.le_iff_toNat_le, hnode, halive]
    omega
  have hdead : (UInt32.ofNat vm.nodes.size - UInt32.ofNat vm.aliveCount).toNat =
      vm.freeList.length := by
    rw [UInt32.toNat_sub_of_le _ _ hle, hnode, halive, hbooks.length_free]
    omega
  refine ⟨List.pairwise_append.mpr ⟨h0.sorted, List.pairwise_singleton .., ?_⟩, ?_⟩
  · intro s hs t ht
    obtain rfl := List.mem_singleton.mp ht
    obtain ⟨-, hsnode, hsdead⟩ := h0.past s hs
    refine ⟨?_, ?_⟩
    · rw [UInt32.le_iff_toNat_le, hnode]
      exact hsnode
    · rw [UInt32.le_iff_toNat_le, hdead]
      exact hsdead
  · intro s hs
    rcases List.mem_append.mp hs with hs | hs
    · exact h0.past s hs
    · obtain rfl := List.mem_singleton.mp hs
      exact ⟨hle, hnode.le, hdead.le⟩

/-- **Snapshots keep growing.** -/
theorem Effect.snapshotsGrow (h0 : vm.SnapshotsGrow) (hbooks : vm.Accounts)
    (hsize : vm.nodes.size < 2 ^ 32) (h : Effect env vm op vm') : vm'.tick.SnapshotsGrow := by
  have hkeeps : vm'.snapshots = vm.snapshots → vm'.tick.SnapshotsGrow := by
    intro hsame
    refine ⟨hsame ▸ h0.sorted, fun s hs => ?_⟩
    obtain ⟨halive, hnode, hdead⟩ := h0.past s (hsame ▸ hs)
    exact ⟨halive, Nat.le_trans hnode h.size_mono,
      Nat.le_trans hdead h.freeList_prefix.length_le⟩
  cases h with
  | @snapshot label =>
    have hgrow : (vm.takeSnapshot label).SnapshotsGrow := h0.snapshot hbooks hsize
    exact ⟨hgrow.sorted, hgrow.past⟩
  | endGroup _ hr => exact hkeeps (resolve_lists hr).1
  | _ => exact hkeeps rfl

theorem Effect.length_snapshots_le (h : Effect env vm op vm') :
    vm'.snapshots.length ≤ vm.snapshots.length + 1 := by
  cases h with
  | endGroup _ hr =>
    rw [(resolve_lists hr).1]
    exact Nat.le_succ _
  | snapshot =>
    unfold takeSnapshot
    rw [List.length_append]
    rfl
  | _ => exact Nat.le_succ _

/-! ## No counter wraps -/

/-- The edges to children, and the children still queued. -/
def linkable (vm : ReplayVM) : Nat :=
  vm.total links + (vm.frames.map fun f => f.deferredChildren.length).sum

theorem resolve_links {frame : GroupFrame} {children : List AtomId}
    (h : resolve env frame children vm = some vm') :
    vm'.total links = vm.total links + children.length := by
  induction children generalizing vm with
  | nil =>
    obtain rfl := Option.some.inj h
    rfl
  | cons child children ih =>
    obtain ⟨slot, hslot, -, h⟩ := resolve_cons h
    have hlt := lt_of_ownerSlot hslot
    rw [← length_bodies] at hlt
    have htarget : (vm.target env child).2.total links = vm.total links := by
      rcases target_eq env vm child with ⟨-, heq⟩ | ⟨-, heq⟩
      · rw [heq, total_append bodies_materialize]
        rfl
      · rw [heq]
    rw [ih h, total_links hlt (bodies_attach ..), htarget, List.length_cons]
    omega

theorem linkable_congr (ht : vm'.total links = vm.total links) (hf : vm'.frames = vm.frames) :
    vm'.linkable ≤ vm.linkable + 1 := by
  unfold linkable
  rw [ht, hf]
  exact Nat.le_succ _

/-- An opcode adds at most one edge, or one child to queue. -/
theorem Effect.linkable_le (h : Effect env vm op vm') : vm'.linkable ≤ vm.linkable + 1 := by
  cases h with
  | newNode => exact linkable_congr (total_append bodies_createNode) rfl
  | setField => exact linkable_congr (total_modify_eq bodies_storeField fun _ => rfl) rfl
  | linkRef => exact linkable_congr (total_modify_eq bodies_storeRef fun _ => rfl) rfl
  | drop => exact linkable_congr (total_modify_eq bodies_drop fun _ => rfl) rfl
  | beginGroup =>
    unfold linkable
    rw [total_congr bodies_openGroup]
    simp [openGroup]
  | @endGroup frame frames _ hf hr =>
    have hpopped : ({ vm with frames } : ReplayVM).total links = vm.total links := rfl
    have hframes : vm'.frames = frames := (resolve_size hr).1
    unfold linkable
    rw [resolve_links hr, hframes, hf, hpopped, List.map_cons, List.sum_cons]
    omega
  | @addChild child frame frames hf =>
    have hqueued : (vm.queueChild frame frames child).total links = vm.total links := rfl
    unfold linkable
    rw [hqueued, hf]
    simp only [queueChild, List.map_cons, List.sum_cons, List.length_append, List.length_singleton]
    omega
  | _ => exact Nat.le_succ _

end ReplayVM

section Runs

variable {env : Env} {bytes rest : Bytes} {heap : HeapImage} {journal r : Bytes} {k : Nat}
  {vm : ReplayVM}

/-- The books along a run, and what bounds the counters. -/
theorem accounts_of_stateAt (hids : env.limits.IdsFit)
    (hheap : decodeHeap env.growth env.schema env.atoms env.limits bytes = .ok (heap, rest))
    (h : StateAt env (ReplayVM.seed {} heap) journal k vm r) :
    vm.Accounts ∧ vm.SnapshotsGrow ∧ vm.linkable ≤ k ∧ vm.snapshots.length ≤ k := by
  refine h.induction (P := fun k vm =>
    vm.Accounts ∧ vm.SnapshotsGrow ∧ vm.linkable ≤ k ∧ vm.snapshots.length ≤ k) ?_ ?_
  · have hbooks := ReplayVM.accounts_seed hheap
    refine ⟨hbooks, ⟨List.Pairwise.nil, nofun⟩, ?_, Nat.le_refl 0⟩
    exact (ReplayVM.total_links_seed hheap).le
  · intro k vm op vm' hexec ⟨hbooks, hgrow, hlinkable, hlength⟩
    obtain ⟨r, hbefore⟩ := hexec.before
    have hsound := sound_of_stateAt hids hheap hbefore
    have hsize : vm.nodes.size < 2 ^ 32 := Nat.lt_of_le_of_lt ReplayVM.size_le_weight hsound.room
    have hle : vm'.tick.linkable ≤ vm.linkable + 1 := hexec.effect.linkable_le
    have hlen : vm'.tick.snapshots.length ≤ vm.snapshots.length + 1 :=
      hexec.effect.length_snapshots_le
    exact ⟨hexec.effect.accounts hbooks, hexec.effect.snapshotsGrow hgrow hbooks hsize,
      by omega, by omega⟩

/-- The accounts after `k` opcodes, as numbers. -/
structure ReplayVM.Balanced (k : Nat) (vm : ReplayVM) : Prop where
  nodes : vm.stats.nodesCreated.toNat + vm.stats.placeholders.toNat = vm.nodes.size
  placeholders : vm.stats.placeholders.toNat = vm.nodes.data.countP Node.placeholder
  dead : vm.stats.nodesDropped.toNat = vm.nodes.data.countP fun n => !n.alive
  free : vm.stats.nodesDropped.toNat = vm.freeList.length
  nodup_free : vm.freeList.Nodup
  mem_free : ∀ i, i ∈ vm.freeList ↔ ∃ n, vm.node? i = some n ∧ n.alive = false
  generation : ∀ n ∈ vm.nodes.data, n.alive = false ↔ n.generation = 1
  children : vm.stats.childrenLinked.toNat = (vm.nodes.data.map fun n => n.children.length).sum
  snapshots : vm.stats.snapshots.toNat = vm.snapshots.length
  ops : vm.stats.opsExecuted.toNat = k
  /-- Along the snapshots neither the nodes nor the dead among them become fewer. -/
  grow : vm.snapshots.Pairwise fun s t => s.nodeCount ≤ t.nodeCount ∧
    s.nodeCount.toNat - s.aliveCount.toNat ≤ t.nodeCount.toNat - t.aliveCount.toNat

/-- Books whose counters do not wrap are balanced. -/
theorem ReplayVM.Accounts.balanced (h : vm.Accounts) (hgrow : vm.SnapshotsGrow)
    (hsize : vm.nodes.size < 2 ^ 32) (hlinks : vm.total links < 2 ^ 32)
    (hlength : vm.snapshots.length < 2 ^ 32) (hops : vm.stats.opsExecuted.toNat = k) :
    vm.Balanced k := by
  have hsplit := vm.total_made_add_standIn
  have hdead := vm.aliveCount_add_dead
  have hstandIn : vm.total standIn = vm.nodes.data.countP Node.placeholder :=
    total_eq_countP fun _ => rfl
  have hlife : ∀ n ∈ vm.nodes.data, life n = (true, 0) ∨ life n = (false, 1) := by
    intro n hn
    have hmem : life n.body ∈ vm.bodies.map life :=
      List.mem_map_of_mem (List.mem_map_of_mem hn)
    exact h.lives _ hmem
  have hdropped : vm.stats.nodesDropped.toNat = vm.freeList.length := by
    rw [h.dropped, toNat_ofNat_of_lt]
    rw [h.length_free]
    omega
  refine ⟨?_, ?_, ?_, hdropped, h.free, fun i => ?_, fun n hn => ?_, ?_, ?_, hops, ?_⟩
  · rw [h.created, h.placeholders, toNat_ofNat_of_lt (by omega), toNat_ofNat_of_lt (by omega), hsplit]
  · rw [h.placeholders, toNat_ofNat_of_lt (by omega), hstandIn]
  · rw [hdropped, h.length_free]
    exact total_eq_countP fun _ => rfl
  · rw [h.mem_free, List.getElem?_map, bodies_getElem?]
    cases hnode : vm.node? i with
    | none => simp
    | some n =>
      have hn : n ∈ vm.nodes.data := List.mem_of_getElem? hnode
      have hbody : life n.body = life n := rfl
      rw [Option.map_some, Option.map_some, hbody]
      rcases hlife n hn with hlife | hlife
      · have halive : n.alive = true := congrArg Prod.fst hlife
        simp [hlife, halive]
      · have halive : n.alive = false := congrArg Prod.fst hlife
        simp [hlife, halive]
  · rcases hlife n hn with hlife | hlife
    · have halive : n.alive = true := congrArg Prod.fst hlife
      have hgeneration : n.generation = 0 := congrArg Prod.snd hlife
      simp [halive, hgeneration]
    · exact iff_of_true (congrArg Prod.fst hlife) (congrArg Prod.snd hlife)
  · rw [h.linked, toNat_ofNat_of_lt hlinks]
    exact total_eq_sum fun _ => rfl
  · rw [h.snapshots, toNat_ofNat_of_lt hlength]
  · refine hgrow.sorted.imp_of_mem fun hs ht ⟨hnode, hdead⟩ => ⟨hnode, ?_⟩
    rw [UInt32.le_iff_toNat_le, UInt32.toNat_sub_of_le _ _ (hgrow.past _ hs).1,
      UInt32.toNat_sub_of_le _ _ (hgrow.past _ ht).1] at hdead
    exact hdead

/-- **The accounts of a run balance**: from a heap that was decoded under the default limits, after
any number of opcodes. -/
theorem replay_accounts (hlimits : env.limits = {})
    (hheap : decodeHeap env.growth env.schema env.atoms env.limits bytes = .ok (heap, rest))
    (h : StateAt env (ReplayVM.seed {} heap) journal k vm r) : vm.Balanced k := by
  have hids : env.limits.IdsFit := hlimits ▸ idsFit_default
  have hk : k ≤ ({} : Limits).maxJournalOps.toNat := by
    obtain ⟨count, _, -, hle, hk, -⟩ := h
    rw [hlimits] at hle
    exact Nat.le_trans hk (UInt32.le_iff_toNat_le.mp hle)
  have hmax : ({} : Limits).maxJournalOps.toNat < 2 ^ 32 := by decide
  obtain ⟨hbooks, hgrow, hlinkable, hlength⟩ := accounts_of_stateAt hids hheap h
  have hsound := sound_of_stateAt hids hheap h
  have hsize : vm.nodes.size < 2 ^ 32 := Nat.lt_of_le_of_lt ReplayVM.size_le_weight hsound.room
  have hlinks : vm.total ReplayVM.links ≤ vm.linkable := Nat.le_add_right ..
  refine hbooks.balanced hgrow hsize (by omega) (by omega) ?_
  rw [h.opsExecuted]
  show (0 + UInt32.ofNat k).toNat = k
  rw [UInt32.zero_add, toNat_ofNat_of_lt (by omega)]

/-- A node, a placeholder for its child, and the node dropped twice, between two snapshots. -/
def droppedParent : List Op :=
  [.newNode 0 0, .snapshot 0, .beginGroup 0 1, .addChild 1, .endGroup, .dropNode 0, .dropNode 0,
    .snapshot 0]

theorem replay_accounts_droppedParent :
    ∃ vm : ReplayVM, vm.Balanced 8 ∧ vm.freeList = [0] ∧ vm.snapshots.length = 2 := by
  have hheap : decodeHeap twoNames.growth twoNames.schema twoNames.atoms twoNames.limits [0] =
      .ok (⟨Vec.empty⟩, []) := rfl
  have hstate : StateAt twoNames (ReplayVM.seed {} ⟨Vec.empty⟩)
      (8 :: droppedParent.flatMap Op.encode) 8 _ [] :=
    ⟨8, _, rfl, by decide, Nat.le_refl 8, Machine.ok_of_fst rfl⟩
  exact ⟨_, replay_accounts rfl hheap hstate, by decide, by decide⟩

end Runs

end Stratavm
