import Stratavm.ReplayVm.Stale

/-!
# The node limit

`decode_heap` and `NEW_NODE` refuse to outgrow `limits.max_nodes`; `materialize_placeholder` does
not look at it. `placeholdersNeeded` is how many placeholders a group needs, read off the index and
the table before it (`resolve_size_eq`). A group whose owner pointer goes stale on the way makes
fewer: `placeholdersMade` is how many are in the table when `END_GROUP` is done or stops
(`size_resolveFrame`).

`PassesThrough` has every state of a run: those between two opcodes, those inside an `END_GROUP`, one
for each number of children it has gone through, and the one that it leaves when it stops
(`run_passesThrough`).

* **`node_limit_iff`**: the table stays within the limit in every state of a run iff every
  `END_GROUP` that it comes to finds room for the placeholders it makes.
* `placeholder_over_limit`: a limit of one node, a run that ends with two.

Out of scope: what the source does after it has written through a stale pointer.
-/

namespace Stratavm

open Lib

/-- The placeholders that linking `children` makes, in a table of `size` nodes. A name is looked up
in the index that the placeholders before it have been registered in. -/
def placeholdersNeeded (index : UMap AtomId NodeId) (size : Nat) : List AtomId → Nat
  | [] => 0
  | child :: children =>
    if (index.lookup child).getD kInvalidNode = kInvalidNode then
      placeholdersNeeded (registerName index child (UInt32.ofNat size)) (size + 1) children + 1
    else placeholdersNeeded index size children

/-- The placeholders that linking `children` has made when it is done, or has come to a child whose
owner can no longer be written: `writable size` is whether it can in a table of `size` nodes. -/
def placeholdersMade (writable : Nat → Bool) (index : UMap AtomId NodeId) (size : Nat) :
    List AtomId → Nat
  | [] => 0
  | child :: children =>
    if (index.lookup child).getD kInvalidNode = kInvalidNode then
      if writable (size + 1) then
        placeholdersMade writable (registerName index child (UInt32.ofNat size)) (size + 1) children + 1
      else 1
    else if writable size then placeholdersMade writable index size children
    else 0

/-- Going through fewer children makes no more. -/
theorem placeholdersMade_append_le {writable : Nat → Bool} {children : List AtomId}
    (rest : List AtomId) (index : UMap AtomId NodeId) (size : Nat) : placeholdersMade writable index size children ≤
      placeholdersMade writable index size (children ++ rest) := by
  induction children generalizing index size with
  | nil => exact Nat.zero_le _
  | cons child children ih =>
    rw [List.cons_append, placeholdersMade, placeholdersMade]
    split
    · split
      · exact Nat.succ_le_succ (ih _ _)
      · exact Nat.le_refl 1
    · split
      · exact ih _ _
      · exact Nat.le_refl 0

namespace ReplayVM

/-- A table of `size` nodes, grown out of `vm`'s by appends, still has the slot that the frame's pointer
is to. -/
def ownerWritable (env : Env) (vm : ReplayVM) (frame : GroupFrame) (size : Nat) : Bool :=
  match env.ownerSlot with
  | .cached => vm.nodes.live frame.ownerCache && decide (size ≤ vm.nodes.cap)
  | .indexed => true

/-- The innermost group, if there is one, can be closed within the limit. -/
def RoomToClose (env : Env) (vm : ReplayVM) : Prop :=
  ∀ frame ∈ vm.frames.head?,
    vm.nodes.size + placeholdersMade (vm.ownerWritable env frame) vm.nameIndex vm.nodes.size
      frame.deferredChildren ≤ env.limits.maxNodes.toNat

variable {env : Env} {vm vm' : ReplayVM}

/-- **What closing a group adds to the table.** -/
theorem resolve_size_eq {frame : GroupFrame} {children : List AtomId}
    (h : resolve env frame children vm = some vm') :
    vm'.nodes.size = vm.nodes.size + placeholdersNeeded vm.nameIndex vm.nodes.size children := by
  induction children generalizing vm with
  | nil =>
    obtain rfl := Option.some.inj h
    rfl
  | cons child children ih =>
    obtain ⟨slot, -, -, h⟩ := resolve_cons h
    have hrest := ih h
    rw [size_attach] at hrest
    rw [placeholdersNeeded]
    rcases target_eq env vm child with ⟨hf, heq⟩ | ⟨hf, heq⟩
    · rw [heq] at hrest
      rw [if_pos (show (vm.nameIndex.lookup child).getD kInvalidNode = _ from hf), hrest]
      simp only [materializePlaceholder, ReplayVM.attach, Vec.size_pushBack]
      omega
    · rw [heq] at hrest
      rw [if_neg (show (vm.nameIndex.lookup child).getD kInvalidNode ≠ _ from hf), hrest]
      rfl

/-! ## What an `END_GROUP` leaves, however it ends -/

/-- The slot that is written for a child is there iff `ownerWritable` says so. -/
theorem ownerSlot_eq_ite (env : Env) (start : ReplayVM) {frame : GroupFrame}
    (hslot : frame.ownerCache.slot = frame.ownerId.toNat)
    (hbuf : frame.ownerCache.buf ≤ start.nodes.buf) (howner : frame.ownerId.toNat < start.nodes.size)
    (happ : start.nodes.Appended vm.nodes) : vm.ownerSlot env frame =
      if start.ownerWritable env frame vm.nodes.size then some frame.ownerId.toNat else none := by
  have hsize := happ.size_le
  unfold ownerSlot ownerWritable
  cases env.ownerSlot with
  | cached =>
    have hlive := happ.live_iff hbuf (by rw [hslot]; exact howner)
    simp only [hslot, Bool.and_eq_true, decide_eq_true_iff]
    exact if_congr hlive rfl rfl
  | indexed => exact if_pos (by omega)

theorem appended_target {start : ReplayVM} (happ : start.nodes.Appended vm.nodes) (env : Env)
    (child : AtomId) : start.nodes.Appended (vm.target env child).2.nodes := by
  rcases target_eq env vm child with ⟨-, heq⟩ | ⟨-, heq⟩
  · rw [heq]
    exact happ.pushBack (g := env.growth) _
  · rw [heq]
    exact happ

/-- **The size of the table that `resolve_frame` leaves**, also when it stops at the owner's pointer.
By induction on the children: between two of them the table is that of the start with appends. -/
theorem size_resolveFrame (start : ReplayVM) {frame : GroupFrame} {children : List AtomId}
    (hslot : frame.ownerCache.slot = frame.ownerId.toNat)
    (hbuf : frame.ownerCache.buf ≤ start.nodes.buf) (howner : frame.ownerId.toNat < start.nodes.size)
    (happ : start.nodes.Appended vm.nodes) (hindex : vm.IndexInRange) (r : Bytes) :
    (resolveFrame env frame children vm r).2.nodes.size = vm.nodes.size +
      placeholdersMade (start.ownerWritable env frame) vm.nameIndex vm.nodes.size children := by
  induction children generalizing vm with
  | nil => rfl
  | cons child children ih =>
    obtain ⟨hindex', htarget⟩ := hindex.target env child
    have happ' := appended_target happ env child
    have hfind := ownerSlot_eq_ite env start hslot hbuf howner happ'
    -- the table after the child's target is found or made, which is what a stale pointer leaves
    have hmade : (resolveFrame env frame (child :: children) vm r).2.nodes.size =
        (vm.target env child).2.nodes.size +
          if start.ownerWritable env frame (vm.target env child).2.nodes.size then
            placeholdersMade (start.ownerWritable env frame) (vm.target env child).2.nameIndex
              (vm.target env child).2.nodes.size children
          else 0 := by
      rw [resolveFrame, linkChild]
      by_cases hw : start.ownerWritable env frame (vm.target env child).2.nodes.size = true
      · rw [if_pos hw] at hfind ⊢
        have hlink : Machine.Ok (linkChild env frame child) vm r ()
            ((vm.target env child).2.attach frame.ownerId.toNat (vm.target env child).1) r :=
          linkChild_ok_iff.mpr ⟨_, hfind, htarget, rfl, rfl⟩
        rw [Machine.bind_apply, ← linkChild, hlink]
        refine (ih ((happ'.modify _ _).modify _ _) fun a i hi => ?_).trans ?_
        · rw [size_attach]
          exact hindex' a i hi
        · rw [size_attach]
          rfl
      · rw [if_neg hw] at hfind ⊢
        have hlink : linkChild env frame child vm r = (.error .staleOwner, (vm.target env child).2) := by
          rw [linkChild, Machine.bind_modifyGet_apply, Machine.bind_get_apply, hfind]
          rfl
        rw [← linkChild, Machine.bind_of_error (congrArg Prod.fst hlink), hlink]
        rfl
    rw [hmade, placeholdersMade]
    rcases target_eq env vm child with ⟨hf, heq⟩ | ⟨hf, heq⟩
    · rw [heq, if_pos (show (vm.nameIndex.lookup child).getD kInvalidNode = _ from hf)]
      simp only [materializePlaceholder, Vec.size_pushBack]
      split <;> omega
    · rw [heq, if_neg (show (vm.nameIndex.lookup child).getD kInvalidNode ≠ _ from hf)]

/-- An opcode other than `END_GROUP` keeps the table within the limit. -/
theorem Effect.size_le {op : Op} (hop : op ≠ .endGroup)
    (h0 : vm.nodes.size ≤ env.limits.maxNodes.toNat) (h : Effect env vm op vm') :
    vm'.nodes.size ≤ env.limits.maxNodes.toNat := by
  cases h with
  | endGroup => exact absurd rfl hop
  | newNode _ _ hsize =>
    rw [size_createNode]
    exact hsize
  | setField => rwa [size_storeField]
  | beginGroup => rwa [size_openGroup]
  | linkRef => rwa [size_storeRef]
  | drop => rwa [size_drop]
  | _ => exact h0

/-- What closing the innermost group leaves, after some of its children. -/
theorem Pointed.size_resolveFrame (h : vm.Pointed) (env : Env) {frame : GroupFrame} {frames : List GroupFrame}
    (hf : vm.frames = frame :: frames) (children : List AtomId) (r : Bytes) :
    (resolveFrame env frame children { vm with frames } r).2.nodes.size = vm.nodes.size +
      placeholdersMade (vm.ownerWritable env frame) vm.nameIndex vm.nodes.size children := by
  have hmem : frame ∈ vm.frames := by rw [hf]; exact List.mem_cons_self
  have happ : vm.nodes.Appended ({ vm with frames } : ReplayVM).nodes := .refl _
  have hindex : ({ vm with frames } : ReplayVM).IndexInRange := h.inTable.index
  exact ReplayVM.size_resolveFrame vm (h.slots frame hmem) (h.bufs frame hmem)
    (h.inTable.owners frame hmem) happ hindex r

end ReplayVM

section Runs

/-- The run over `journal` comes to an `END_GROUP` in the state `vm`. -/
def Closes (env : Env) (vm0 : ReplayVM) (journal : Bytes) (vm : ReplayVM) : Prop :=
  ∃ k r count body r', StateAt env vm0 journal k vm r ∧ readVarintU32 journal = .ok (count, body) ∧
    k < count.toNat ∧ readU8 r = .ok (OpCode.endGroup.raw, r')

/-- The run over `journal` passes through a state. -/
inductive PassesThrough (env : Env) (vm0 : ReplayVM) (journal : Bytes) : ReplayVM → Prop
  | start : PassesThrough env vm0 journal vm0
  /-- After some of the opcodes. -/
  | after {k vm r} (h : StateAt env vm0 journal k vm r) : PassesThrough env vm0 journal vm
  /-- Inside an `END_GROUP`: after some of the children, or at the one where it stops. -/
  | inside {vm frame frames children} (r : Bytes) (h : Closes env vm0 journal vm)
      (hframes : vm.frames = frame :: frames) (hfirst : children <+: frame.deferredChildren) :
      PassesThrough env vm0 journal (resolveFrame env frame children { vm with frames } r).2

variable {env : Env} {vm0 vm vm' : ReplayVM} {journal r : Bytes} {k : Nat}

/-- An opcode that stops leaves the state it was read in, or one inside an `END_GROUP`. -/
theorem stepOp_stops {e : Fault} (h : stepOp env vm r = (.error e, vm')) : vm' = vm ∨
    ∃ r' frame frames, readU8 r = .ok (OpCode.endGroup.raw, r') ∧ vm.frames = frame :: frames ∧
      vm' = (resolveFrame env frame frame.deferredChildren { vm with frames } r').2 := by
  unfold stepOp operand at h
  cases hraw : readU8 r with
  | error st =>
    rw [Machine.bind_read_of_error hraw] at h
    exact .inl (Prod.mk.inj h).2.symm
  | ok p =>
    obtain ⟨raw, r1⟩ := p
    rw [Machine.bind_read_of_ok hraw] at h
    cases hcode : OpCode.ofRaw? raw with
    | none =>
      rw [hcode] at h
      exact .inl (Prod.mk.inj h).2.symm
    | some code =>
      simp only [hcode, Machine.bind_apply] at h
      rcases hd : dispatch env code vm r1 with ⟨e' | p, vm1⟩
      · rw [hd] at h
        obtain rfl := (Prod.mk.inj h).2
        by_cases hend : code = .endGroup
        · subst hend
          cases hf : vm.frames with
          | nil =>
            simp only [dispatch, doEndGroup, Machine.bind_get_apply, hf] at hd
            exact .inl (Prod.mk.inj hd).2.symm
          | cons frame frames =>
            simp only [dispatch, doEndGroup, Machine.bind_get_apply, hf, Machine.bind_set_apply] at hd
            refine .inr ⟨r1, frame, frames, ?_, rfl, by rw [hd]⟩
            rw [OpCode.eq_raw_of_ofRaw? hcode]
        · exact .inl (dispatch_guarded hend _ _ _ _ hd).2
      · rw [hd] at h
        cases (Prod.mk.inj h).1

/-- **However a run ends, it passes through the state it leaves.** -/
theorem run_passesThrough (env : Env) (vm0 : ReplayVM) (journal : Bytes) :
    PassesThrough env vm0 journal (run env vm0 journal).2 := by
  unfold run operand
  cases hcount : readVarintU32 journal with
  | error st =>
    rw [Machine.bind_read_of_error hcount]
    exact .start
  | ok p =>
    obtain ⟨count, body⟩ := p
    rw [Machine.bind_read_of_ok hcount]
    by_cases hlimit : count > env.limits.maxJournalOps
    · rw [if_pos hlimit]
      exact .start
    rw [if_neg hlimit, Machine.bind_apply]
    have hle : count ≤ env.limits.maxJournalOps := UInt32.not_lt.mp hlimit
    rcases hrun : runOps env count.toNat vm0 body with ⟨e | ⟨u, r1⟩, vm1⟩
    · obtain ⟨k, vm, r, hk, hok, hstop⟩ := runOps_stops hrun
      have hstate : StateAt env vm0 journal k vm r := ⟨count, body, hcount, hle, Nat.le_of_lt hk, hok⟩
      rcases stepOp_stops hstop with rfl | ⟨r', frame, frames, hread, hf, rfl⟩
      · exact .after hstate
      · exact .inside r' ⟨k, r, count, body, r', hstate, hcount, hk, hread⟩ hf (List.prefix_refl _)
    · have hstate : StateAt env vm0 journal count.toNat vm1 r1 :=
        ⟨count, body, hcount, hle, Nat.le_refl _, hrun⟩
      have hclose : (closeRun vm1 r1).2 = vm1 := by
        unfold closeRun
        rw [Machine.bind_get_apply]
        split <;> rfl
      simp only [hclose]
      exact .after hstate

/-- An executed `END_GROUP` is one the run comes to. -/
theorem Executes.closes (h : Executes env vm0 journal k vm .endGroup vm') :
    Closes env vm0 journal vm := by
  obtain ⟨-, r, r', hbefore, hread, count, body, hcount, -, hk, -⟩ := h
  obtain ⟨raw, r1, hraw, hcode, -⟩ := readOp_eq_ok.mp hread
  rw [OpCode.eq_raw_of_ofRaw? hcode] at hraw
  exact ⟨k, r, count, body, r1, hbefore, hcount, hk, hraw⟩

/-- The pointers of a run are tracked from its start. -/
theorem StateAt.pointed (h0 : vm0.Pointed) (h : StateAt env vm0 journal k vm r) : vm.Pointed := by
  obtain ⟨count, body, -, -, -, hrun⟩ := h
  clear count
  induction k generalizing vm r with
  | zero =>
    obtain ⟨-, rfl, -⟩ := Machine.pure_ok.mp hrun
    exact h0
  | succ k ih =>
    obtain ⟨vm1, r1, hfirst, hlast⟩ := runOps_succ_ok.mp hrun
    exact (ih hfirst).step hlast

/-- **The table stays within its limit** in every state of a run iff there is room to close every group
that the run comes to close. -/
theorem node_limit_iff {bytes rest : Bytes} {heap : HeapImage}
    (hheap : decodeHeap env.growth env.schema env.atoms env.limits bytes = .ok (heap, rest))
    (journal : Bytes) :
    (∀ vm, PassesThrough env (ReplayVM.seed {} heap) journal vm →
        vm.nodes.size ≤ env.limits.maxNodes.toNat) ↔
      ∀ vm, Closes env (ReplayVM.seed {} heap) journal vm → vm.RoomToClose env := by
  have hnone : ∀ f ∈ (ReplayVM.seed {} heap).frames, False := fun f hf => absurd hf List.not_mem_nil
  have hpointed : (ReplayVM.seed {} heap).Pointed :=
    ⟨⟨indexInRange_seed hheap, fun f hf => (hnone f hf).elim⟩, fun f hf => (hnone f hf).elim,
      fun f hf => (hnone f hf).elim, fun f hf => (hnone f hf).elim⟩
  have hclose : ∀ {vm}, Closes env (ReplayVM.seed {} heap) journal vm → vm.Pointed := by
    rintro vm ⟨_, _, -, -, -, hstate, -, -, -⟩
    exact hstate.pointed hpointed
  constructor
  · intro h vm hvm frame hf
    obtain ⟨frames, hframes⟩ := List.head?_eq_some_iff.mp hf
    have hle := h _ (.inside [] hvm hframes (List.prefix_refl _))
    rwa [(hclose hvm).size_resolveFrame env hframes] at hle
  · intro h vm hvm
    cases hvm with
    | start => exact (decodeHeap_spec hheap).1
    | after hstate =>
      refine hstate.induction (P := fun _ vm => vm.nodes.size ≤ env.limits.maxNodes.toNat)
        (decodeHeap_spec hheap).1 ?_
      intro k vm op vm' hexec ih
      show vm'.nodes.size ≤ env.limits.maxNodes.toNat
      by_cases hop : op = .endGroup
      · subst hop
        have hroom := h vm hexec.closes
        cases hexec.effect with
        | @endGroup frame frames _ hf hr =>
          have hok : Machine.Ok (resolveFrame env frame frame.deferredChildren) { vm with frames } [] ()
              vm' [] := resolveFrame_ok_iff.mpr ⟨hr, rfl⟩
          have hsize := (hclose hexec.closes).size_resolveFrame env hf frame.deferredChildren []
          rw [hok] at hsize
          rw [hsize]
          exact hroom frame (by rw [hf]; rfl)
      · exact hexec.effect.size_le hop ih
    | inside r hvm hframes hfirst =>
      obtain ⟨rest, hrest⟩ := hfirst
      rw [(hclose hvm).size_resolveFrame env hframes]
      refine Nat.le_trans (Nat.add_le_add_left (placeholdersMade_append_le rest _ _) _) ?_
      rw [hrest]
      exact h _ hvm _ (by rw [hframes]; rfl)

/-- Room for one node only. -/
def oneNodeLimit : Env where
  schema := { kinds := [{ name := 0 }] }
  atoms := { atoms := [[0x61], [0x62]] }
  limits := { maxNodes := 1 }

/-- A node, and a child of it that nothing defines; the hint is honoured. -/
def placeholderChild : List Op := [.newNode 0 0, .beginGroup 0 1, .addChild 1, .endGroup]

theorem placeholder_over_limit :
    ∃ heap vm, decodeHeap oneNodeLimit.growth oneNodeLimit.schema oneNodeLimit.atoms
        oneNodeLimit.limits [0] = .ok (heap, []) ∧
      Machine.Ok (run oneNodeLimit) (ReplayVM.seed {} heap)
        (4 :: placeholderChild.flatMap Op.encode) () vm [] ∧
      PassesThrough oneNodeLimit (ReplayVM.seed {} heap) (4 :: placeholderChild.flatMap Op.encode) vm ∧
      ¬ vm.nodes.size ≤ oneNodeLimit.limits.maxNodes.toNat := by
  refine ⟨⟨Vec.empty⟩, _, rfl, Machine.ok_of_fst rfl, run_passesThrough _ _ _, ?_⟩
  decide

/-- The same limit and a group whose child is its owner: nothing is made. -/
def knownChild : List Op := [.newNode 0 0, .beginGroup 0 0, .addChild 0, .endGroup]

theorem node_limit_knownChild :
    (∃ vm, Machine.Ok (run oneNodeLimit) (ReplayVM.seed {} ⟨Vec.empty⟩)
      (4 :: knownChild.flatMap Op.encode) () vm [] ∧ vm.nodes.size = 1) ∧
    ∀ vm, PassesThrough oneNodeLimit (ReplayVM.seed {} ⟨Vec.empty⟩)
      (4 :: knownChild.flatMap Op.encode) vm → vm.nodes.size ≤ oneNodeLimit.limits.maxNodes.toNat := by
  have hheap : decodeHeap oneNodeLimit.growth oneNodeLimit.schema oneNodeLimit.atoms
      oneNodeLimit.limits [0] = .ok (⟨Vec.empty⟩, []) := rfl
  refine ⟨⟨_, Machine.ok_of_fst rfl, rfl⟩, (node_limit_iff hheap _).mpr ?_⟩
  rintro vm ⟨k, r, count, body, r', hstate, hcount, hk, hread⟩
  obtain ⟨rfl, rfl⟩ := Prod.mk.inj (Except.ok.inj hcount)
  obtain ⟨_, _, hcount', -, -, hrun⟩ := hstate
  obtain ⟨rfl, rfl⟩ := Prod.mk.inj (Except.ok.inj hcount')
  -- the fourth opcode is the only `END_GROUP`
  obtain rfl | rfl | rfl | rfl : k = 0 ∨ k = 1 ∨ k = 2 ∨ k = 3 := by
    have : k < 4 := hk
    omega
  all_goals
    obtain ⟨hfst, rfl⟩ := Prod.mk.inj hrun
    obtain ⟨-, rfl⟩ := Prod.mk.inj (Except.ok.inj hfst)
  · cases hread
  · cases hread
  · cases hread
  · rintro frame hf
    obtain rfl := Option.some.inj hf
    decide

/-- A node that fills the heap, and a group that makes a placeholder before it stops at the pointer that
the placeholder has left behind. -/
example :
    let full : HeapImage := ⟨Vec.empty.pushBack .doubling { id := 0, kind := 0, name := 0 }⟩
    let left := run oneNodeLimit (ReplayVM.seed {} full) [3, 3, 0, 0, 5, 1, 4]
    left.1 = .error .staleOwner ∧ left.2.nodes.size = 2 := by decide

end Runs

end Stratavm
