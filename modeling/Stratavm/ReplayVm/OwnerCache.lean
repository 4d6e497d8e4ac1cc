import Stratavm.ReplayVm.Exec

/-!
# The cached owner slot

`resolve_frame` writes through the slot pointer captured at `BEGIN_GROUP`. The `cached` machine
dereferences it, and a stale pointer is the fault `staleOwner`; the `indexed` machine re-indexes
the table. `Agrees` says that a run of the first is never stale and equals the run of the second.

A group honours its hint when no more nodes are appended while it is open than the hint announces
(`Executed.Honours`). Then its own `reserve` has made the room for every append, and only a nested
`BEGIN_GROUP` can move the table: one that asks for more than the capacity. `Executed.Fresh` says
that this did not happen to a group that links children. `OpenGroup` is the ghost of an open frame
that records both: the table's size when it opened, and whether a nested `reserve` moved it since.

* **`agrees_iff_fresh`**: when every hint is honoured, the two machines agree iff every
  `END_GROUP` with children is `Fresh`.
* `nested_reserve_stale`: honouring the hints alone is not enough.
-/

namespace Stratavm

open Lib

/-! ## The two machines -/

/-- The environment with the owner's slot found as given. -/
def Env.withSlot (env : Env) (slot : OwnerSlot) : Env := { env with ownerSlot := slot }

/-- The cached machine is never stale, and its result and state are those of the indexed one. -/
structure Agrees (env : Env) (vm : ReplayVM) (journal : Bytes) : Prop where
  fresh : (run (env.withSlot .cached) vm journal).1 ≠ .error .staleOwner
  same : run (env.withSlot .cached) vm journal = run (env.withSlot .indexed) vm journal

/-! ## Executed steps -/

/-- What is recorded of an open group. -/
structure OpenGroup where
  /-- The table's size when the group was opened. -/
  base : Nat
  /-- A later `BEGIN_GROUP` asked for more than the capacity. -/
  grown : Bool := false
  deriving DecidableEq, Repr

/-- The records after an opcode executed in `vm`. -/
def OpenGroup.next (vm : ReplayVM) (op : Op) (opens : List OpenGroup) : List OpenGroup :=
  match op with
  | .beginGroup _ hint =>
    { base := vm.nodes.size } :: opens.map fun g =>
      { g with grown := g.grown || decide (vm.nodes.cap < vm.nodes.size + hint.toNat) }
  | .endGroup => opens.tail
  | _ => opens

/-- One executed opcode: the records and the state before it, and the state after it. -/
structure Executed where
  opens : List OpenGroup
  before : ReplayVM
  op : Op
  after : ReplayVM

/-- The opcodes a run executes, at most `n` of them. -/
def executed (env : Env) : Nat → List OpenGroup → ReplayVM → Bytes → List Executed
  | 0, _, _, _ => []
  | n + 1, opens, vm, r =>
    match readOp (vm.fieldType env) env.limits r with
    | .error _ => []
    | .ok (op, r') =>
      match vm.exec env op with
      | none => []
      | some vm' => ⟨opens, vm, op, vm'⟩ :: executed env n (OpenGroup.next vm op opens) vm'.tick r'

/-- The opcodes the indexed machine executes of a journal. -/
def journalSteps (env : Env) (vm : ReplayVM) (journal : Bytes) : List Executed :=
  match readVarintU32 journal with
  | .error _ => []
  | .ok (count, r) =>
    if count > env.limits.maxJournalOps then []
    else executed (env.withSlot .indexed) count.toNat [] vm r

/-- No open group has seen more appends than its hint announced. -/
def Executed.Honours (s : Executed) : Prop :=
  ∀ p ∈ s.before.frames.zip s.opens,
    s.after.nodes.size ≤ p.2.base + p.1.reserveHint.toNat

instance (s : Executed) : Decidable s.Honours := inferInstanceAs (Decidable (∀ _ ∈ _, _))

/-- An `END_GROUP` that links children closes a group that no nested `BEGIN_GROUP` has moved. -/
def Executed.Fresh (s : Executed) : Prop :=
  s.op = .endGroup → ∀ p ∈ (s.before.frames.zip s.opens).head?,
    p.1.deferredChildren ≠ [] → p.2.grown = false

/-! ## The invariant -/

/-- A frame and its record against the table. -/
structure Tracks (nodes : Vec Node) (f : GroupFrame) (g : OpenGroup) : Prop where
  slot : f.ownerCache.slot = f.ownerId.toNat
  owner : f.ownerId.toNat < nodes.size
  /-- The group's own `reserve` has made its room. -/
  room : g.base + f.reserveHint.toNat ≤ nodes.cap
  fresh : g.grown = false → f.ownerCache.buf = nodes.buf
  stale : g.grown = true → f.ownerCache.buf < nodes.buf

/-- The name index stays inside the table. -/
def ReplayVM.IndexInRange (vm : ReplayVM) : Prop :=
  ∀ a i, vm.nameIndex.lookup a = some i → i.toNat < vm.nodes.size

/-- Every open frame is tracked, and the name index stays inside the table. -/
structure Tracked (opens : List OpenGroup) (vm : ReplayVM) : Prop where
  frames : List.Forall₂ (Tracks vm.nodes) vm.frames opens
  index : vm.IndexInRange

section Invariant

variable {env : Env} {vm vm' : ReplayVM} {opens : List OpenGroup} {nodes nodes' : Vec Node}
  {f : GroupFrame} {g : OpenGroup}

/-- The table may grow in place. -/
theorem Tracks.grow (h : Tracks nodes f g) (hsize : nodes.size ≤ nodes'.size)
    (hcap : nodes'.cap = nodes.cap) (hbuf : nodes'.buf = nodes.buf) : Tracks nodes' f g where
  slot := h.slot
  owner := Nat.lt_of_lt_of_le h.owner hsize
  room := hcap ▸ h.room
  fresh := fun hg => hbuf ▸ h.fresh hg
  stale := fun hg => hbuf ▸ h.stale hg

/-- A nested `reserve` may move the table, and the record says so. -/
theorem Tracks.reserve (h : Tracks nodes f g) (growth : Growth) (n : Nat) :
    Tracks (nodes.reserve growth n) f { g with grown := g.grown || decide (nodes.cap < n) } where
  slot := h.slot
  owner := by rw [Vec.size_reserve]; exact h.owner
  room := Nat.le_trans h.room (Vec.cap_le_cap_reserve growth n nodes)
  fresh := fun hg => by
    rw [Bool.or_eq_false_iff, decide_eq_false_iff_not, Nat.not_lt] at hg
    exact (h.fresh hg.1).trans (Vec.buf_reserve_eq_iff growth |>.mpr hg.2).symm
  stale := fun hg => by
    have hle := Vec.buf_le_buf_reserve growth n nodes
    rcases hgr : g.grown with _ | _
    · rw [hgr, Bool.false_or, decide_eq_true_iff] at hg
      have hne : (nodes.reserve growth n).buf ≠ nodes.buf := fun heq =>
        absurd (Vec.buf_reserve_eq_iff growth |>.mp heq) (Nat.not_le.mpr hg)
      have := h.fresh hgr
      omega
    · have := h.stale hgr
      omega

end Invariant

namespace ReplayVM

variable {env : Env} {vm vm' : ReplayVM}

/-! ### Resolving a frame in place -/

theorem IndexInRange.register (h : vm.IndexInRange) {nodes : Vec Node} {name : AtomId}
    (hsize : nodes.size = vm.nodes.size + 1) {a : AtomId} {i : NodeId}
    (hi : (registerName vm.nameIndex name (UInt32.ofNat vm.nodes.size)).lookup a = some i) :
    i.toNat < nodes.size := by
  rw [lookup_registerName] at hi
  split at hi
  · obtain rfl := Option.some.inj hi
    have := Nat.mod_le vm.nodes.size (2 ^ 32)
    rw [UInt32.toNat_ofNat']
    omega
  · have := h a i hi
    omega

theorem IndexInRange.target (h : vm.IndexInRange) (env : Env) (child : AtomId) :
    (vm.target env child).2.IndexInRange ∧
      (vm.target env child).1.toNat < (vm.target env child).2.nodes.size := by
  rcases target_eq env vm child with ⟨-, heq⟩ | ⟨hf, heq⟩
  · rw [heq]
    refine ⟨fun a i hi => h.register (by simp [materializePlaceholder]) hi, ?_⟩
    have := Nat.mod_le vm.nodes.size (2 ^ 32)
    simp only [materializePlaceholder, UInt32.toNat_ofNat', Vec.size_pushBack]
    omega
  · rw [heq]
    exact ⟨h, h _ _ (lookup_of_findNamed hf)⟩

theorem ownerSlot_withSlot_indexed (frame : GroupFrame) :
    vm.ownerSlot (env.withSlot .indexed) frame =
      if frame.ownerId.toNat < vm.nodes.size then some frame.ownerId.toNat else none := rfl

theorem ownerSlot_withSlot_cached (frame : GroupFrame) :
    vm.ownerSlot (env.withSlot .cached) frame =
      if vm.nodes.live frame.ownerCache then some frame.ownerCache.slot else none := rfl

/-- The indexed machine always resolves a frame whose owner is in the table. -/
theorem IndexInRange.resolve_indexed {frame : GroupFrame} (h : vm.IndexInRange) (env : Env)
    (children : List AtomId) (howner : frame.ownerId.toNat < vm.nodes.size) :
    ∃ vm', resolve (env.withSlot .indexed) frame children vm = some vm' ∧ vm'.IndexInRange := by
  induction children generalizing vm with
  | nil => exact ⟨vm, rfl, h⟩
  | cons child children ih =>
    obtain ⟨hindex, htarget⟩ := h.target (env.withSlot .indexed) child
    have hle := size_le_target (env.withSlot .indexed) vm child
    have hslot : (vm.target (env.withSlot .indexed) child).2.ownerSlot (env.withSlot .indexed)
        frame = some frame.ownerId.toNat := if_pos (by omega)
    rw [resolve, hslot]
    simp only [htarget, if_true]
    refine ih (fun a i hi => ?_) (by rw [size_attach]; omega)
    rw [size_attach]
    exact hindex a i hi

/-- A target that fits the capacity is made in place. -/
theorem target_in_place (env : Env) {child : AtomId}
    (h : (vm.target env child).2.nodes.size ≤ vm.nodes.cap) :
    (vm.target env child).2.nodes.cap = vm.nodes.cap ∧
      (vm.target env child).2.nodes.buf = vm.nodes.buf := by
  rcases target_eq env vm child with ⟨-, heq⟩ | ⟨-, heq⟩
  · rw [heq] at h ⊢
    simp only [materializePlaceholder, Vec.size_pushBack] at h ⊢
    exact ⟨Vec.cap_pushBack_of_lt _ h, (Vec.buf_pushBack_eq_iff _).mpr h⟩
  · rw [heq]
    exact ⟨rfl, rfl⟩

theorem resolve_in_place {frame : GroupFrame} {children : List AtomId}
    (h : resolve env frame children vm = some vm') (hcap : vm'.nodes.size ≤ vm.nodes.cap) :
    vm'.nodes.cap = vm.nodes.cap ∧ vm'.nodes.buf = vm.nodes.buf := by
  induction children generalizing vm with
  | nil =>
    obtain rfl := Option.some.inj h
    exact ⟨rfl, rfl⟩
  | cons child children ih =>
    obtain ⟨slot, -, -, h⟩ := resolve_cons h
    have hle := (resolve_size h).2.1
    rw [size_attach] at hle
    obtain ⟨hc, hb⟩ := target_in_place env (Nat.le_trans hle hcap)
    obtain ⟨hc', hb'⟩ := ih h (by simpa [ReplayVM.attach, hc] using hcap)
    exact ⟨hc'.trans hc, hb'.trans hb⟩

/-- **A fresh pointer resolves like the index**, when the table has room for the placeholders. -/
theorem resolve_cached {frame : GroupFrame} {children : List AtomId}
    (h : resolve (env.withSlot .indexed) frame children vm = some vm')
    (hcap : vm'.nodes.size ≤ vm.nodes.cap) (hslot : frame.ownerCache.slot = frame.ownerId.toNat)
    (hbuf : frame.ownerCache.buf = vm.nodes.buf) :
    resolve (env.withSlot .cached) frame children vm = some vm' := by
  induction children generalizing vm with
  | nil => exact h
  | cons child children ih =>
    obtain ⟨slot, hs, htarget, h⟩ := resolve_cons h
    have hle := (resolve_size h).2.1
    rw [size_attach] at hle
    obtain ⟨hc, hb⟩ := target_in_place (env.withSlot .indexed) (Nat.le_trans hle hcap)
    have hlive : (vm.target (env.withSlot .indexed) child).2.ownerSlot (env.withSlot .cached)
        frame = some slot := by
      rw [ownerSlot_withSlot_indexed] at hs
      rw [ownerSlot_withSlot_cached]
      split at hs
      · rename_i hlt
        obtain rfl := Option.some.inj hs
        rw [if_pos (Vec.live_iff.mpr ⟨hbuf.trans hb.symm, hslot ▸ hlt⟩), hslot]
      · cases hs
    have htgt : vm.target (env.withSlot .cached) child = vm.target (env.withSlot .indexed) child :=
      rfl
    rw [resolve, htgt, hlive]
    simp only [htarget, if_true]
    exact ih h (by simpa [ReplayVM.attach, hc] using hcap) (hbuf.trans hb.symm)

end ReplayVM

/-! ## One opcode -/

section Step

variable {env : Env} {vm vm' : ReplayVM} {opens : List OpenGroup} {op : Op} {r r' : Bytes}

/-- Only `END_GROUP` depends on how the owner's slot is found. -/
theorem exec_withSlot (hop : op ≠ .endGroup) :
    vm.exec (env.withSlot .cached) op = vm.exec (env.withSlot .indexed) op := by
  cases op with
  | endGroup => exact absurd rfl hop
  | _ => rfl

theorem dispatch_withSlot {code : OpCode} (hcode : code ≠ .endGroup) :
    dispatch (env.withSlot .cached) code = dispatch (env.withSlot .indexed) code := by
  cases code with
  | endGroup => exact absurd rfl hcode
  | _ => rfl

/-- Honoured hints leave room in the table, if any group is open. -/
theorem Tracked.room (h : Tracked opens vm) {n : Nat}
    (hn : ∀ p ∈ vm.frames.zip opens, n ≤ p.2.base + p.1.reserveHint.toNat) :
    vm.frames = [] ∨ n ≤ vm.nodes.cap := by
  obtain ⟨hframes, -⟩ := h
  generalize vm.frames = frames at hframes hn
  cases hframes with
  | nil => exact .inl rfl
  | cons hfg _ => exact .inr (Nat.le_trans (hn _ List.mem_cons_self) hfg.room)

/-- The frames stay tracked when the table grows in place, or when there are none. -/
theorem Tracked.frames_grow (h : Tracked opens vm) {nodes : Vec Node}
    (hsize : vm.nodes.size ≤ nodes.size)
    (hplace : vm.frames = [] ∨ nodes.cap = vm.nodes.cap ∧ nodes.buf = vm.nodes.buf) :
    List.Forall₂ (Tracks nodes) vm.frames opens := by
  rcases hplace with hnil | ⟨hcap, hbuf⟩
  · have hframes := h.frames
    rw [hnil, List.forall₂_nil_left_iff] at hframes
    rw [hnil, hframes]
    exact .nil
  · exact h.frames.imp fun f g hfg => hfg.grow hsize hcap hbuf

/-- **An opcode keeps every open frame tracked**, if it honours the hints. -/
theorem Tracked.step (h : Tracked opens vm)
    (heff : ReplayVM.Effect (env.withSlot .indexed) vm op vm')
    (hh : (⟨opens, vm, op, vm'⟩ : Executed).Honours) :
    Tracked (OpenGroup.next vm op opens) vm'.tick := by
  have hroom := h.room hh
  cases heff with
  | newNode =>
    refine ⟨h.frames_grow (by simp) ?_, fun a i hi =>
      h.index.register (by simp) hi⟩
    refine hroom.imp_right fun hle => ?_
    simp only [ReplayVM.createNode, Vec.size_pushBack] at hle
    exact ⟨Vec.cap_pushBack_of_lt _ hle, (Vec.buf_pushBack_eq_iff _).mpr hle⟩
  | setField =>
    exact ⟨h.frames_grow (by simp) (.inr ⟨rfl, rfl⟩), fun a i hi => by
      simpa using h.index a i hi⟩
  | @beginGroup name hint owner _ ho _ =>
    refine ⟨List.Forall₂.cons ?_ ?_, fun a i hi => by
      simpa using h.index a i hi⟩
    · have hlt : (vm.findNamed name).toNat < vm.nodes.size := by
        unfold ReplayVM.foundNode? at ho
        split at ho
        · cases ho
        · exact (List.getElem?_eq_some_iff.mp ho).1
      exact ⟨rfl, by simpa using hlt,
        Vec.le_cap_reserve _ _ _, fun _ => rfl, by rintro ⟨⟩⟩
    · rw [List.forall₂_map_right_iff]
      exact h.frames.imp fun f g hfg => hfg.reserve _ _
  | @endGroup frame frames vm' hf hr =>
    obtain ⟨hframes, hindex⟩ := h
    obtain ⟨hframes', hsize, -⟩ := ReplayVM.resolve_size hr
    rw [hf] at hframes hroom
    cases hframes with
    | @cons _ g _ gs hfg hrest =>
      have hle : vm'.nodes.size ≤ vm.nodes.cap := hroom.resolve_left (List.cons_ne_nil _ _)
      obtain ⟨hcap, hbuf⟩ := ReplayVM.resolve_in_place hr hle
      have hpop : ({ vm with frames } : ReplayVM).IndexInRange := hindex
      obtain ⟨vm'', hr', hindex'⟩ := hpop.resolve_indexed env
        frame.deferredChildren hfg.owner
      obtain rfl := Option.some.inj (hr.symm.trans hr')
      refine ⟨?_, hindex'⟩
      show List.Forall₂ _ vm'.frames gs
      rw [hframes']
      exact hrest.imp fun f g hfg => hfg.grow hsize hcap hbuf
  | @addChild child frame frames hf _ =>
    obtain ⟨hframes, hindex⟩ := h
    refine ⟨?_, hindex⟩
    rw [hf] at hframes
    cases hframes with
    | cons hfg hrest => exact .cons ⟨hfg.slot, hfg.owner, hfg.room, hfg.fresh, hfg.stale⟩ hrest
  | linkRefMissing => exact ⟨h.frames, h.index⟩
  | linkRef =>
    exact ⟨h.frames_grow (by simp) (.inr ⟨rfl, rfl⟩), fun a i hi => by
      simpa using h.index a i hi⟩
  | dropDead => exact ⟨h.frames, h.index⟩
  | @drop nodeId node =>
    refine ⟨h.frames_grow (by simp) (.inr ⟨rfl, rfl⟩), fun a i hi => ?_⟩
    rw [ReplayVM.nodes_tick, ReplayVM.size_drop]
    rw [ReplayVM.nameIndex_tick, ReplayVM.drop] at hi
    split at hi
    · by_cases ha : a = node.name
      · rw [ha, Finmap.lookup_erase] at hi
        cases hi
      · rw [Finmap.lookup_erase_ne ha] at hi
        exact h.index a i hi
    · exact h.index a i hi
  | snapshot => exact ⟨h.frames, h.index⟩
  | setMeta => exact ⟨h.frames, h.index⟩
  | nop => exact ⟨h.frames, h.index⟩

/-- A fresh step is the same step of the cached machine. -/
theorem Effect.withSlot_cached (h : Tracked opens vm)
    (heff : ReplayVM.Effect (env.withSlot .indexed) vm op vm')
    (hh : (⟨opens, vm, op, vm'⟩ : Executed).Honours)
    (hfresh : (⟨opens, vm, op, vm'⟩ : Executed).Fresh) :
    ReplayVM.Effect (env.withSlot .cached) vm op vm' := by
  by_cases hop : op = .endGroup
  · subst hop
    have hroom := h.room hh
    cases heff with
    | @endGroup frame frames _ hf hr =>
      refine .endGroup hf ?_
      obtain ⟨hframes, -⟩ := h
      have hfresh := hfresh rfl
      simp only [hf] at hframes hfresh hroom
      cases hframes with
      | @cons _ g _ gs hfg hrest =>
        by_cases hnone : frame.deferredChildren = []
        · rw [hnone] at hr ⊢
          exact hr
        · have hgrown : g.grown = false := hfresh _ rfl hnone
          have hle := hroom.resolve_left (List.cons_ne_nil _ _)
          exact ReplayVM.resolve_cached hr hle hfg.slot (hfg.fresh hgrown)
  · rw [← ReplayVM.exec_iff_effect, exec_withSlot hop]
    exact ReplayVM.exec_iff_effect.mpr heff

/-- A step that is not fresh dereferences a stale pointer. -/
theorem stepOp_stale (h : Tracked opens vm)
    (hread : readOp (vm.fieldType env) env.limits r = .ok (op, r'))
    (hstale : ¬ (⟨opens, vm, op, vm'⟩ : Executed).Fresh) :
    (stepOp (env.withSlot .cached) vm r).1 = .error .staleOwner := by
  obtain ⟨raw, r1, hraw, hcode, -⟩ := readOp_eq_ok.mp hread
  unfold Executed.Fresh at hstale
  push Not at hstale
  obtain ⟨rfl, p, hp, hchildren, hgrown⟩ := hstale
  obtain ⟨hframes, -⟩ := h
  cases hf : vm.frames with
  | nil => simp [hf] at hp
  | cons frame frames =>
    rw [hf] at hframes
    cases hframes with
    | @cons _ g _ gs hfg hrest =>
      obtain rfl : (frame, g) = p := by simpa [hf] using hp
      obtain ⟨child, children, hcs⟩ := List.exists_cons_of_ne_nil hchildren
      have hbuf : frame.ownerCache.buf < vm.nodes.buf := hfg.stale (by simpa using hgrown)
      have hdead : (({ vm with frames } : ReplayVM).target (env.withSlot .cached) child).2.ownerSlot
          (env.withSlot .cached) frame = none := by
        have hle := ReplayVM.buf_le_target (env.withSlot .cached) { vm with frames } child
        rw [ReplayVM.ownerSlot_withSlot_cached, if_neg]
        rw [Vec.live_iff]
        rintro ⟨heq, -⟩
        exact absurd hle (Nat.not_le.mpr (heq ▸ hbuf))
      have hlink : (linkChild (env.withSlot .cached) frame child { vm with frames } r1).1 =
          .error .staleOwner := by
        unfold linkChild
        rw [Machine.bind_modifyGet_apply, Machine.bind_get_apply, hdead]
        rfl
      have hend : (doEndGroup (env.withSlot .cached) vm r1).1 = .error .staleOwner := by
        unfold doEndGroup
        rw [Machine.bind_get_apply, hf]
        simp only
        rw [Machine.bind_set_apply, hcs, resolveFrame, Machine.bind_of_error hlink]
      unfold stepOp operand
      rw [Machine.bind_read_of_ok hraw]
      simp only [hcode]
      exact congrArg Prod.fst (Machine.bind_of_error hend)

theorem Fault.status_ne_staleOwner (st : Status) : Fault.status st ≠ .staleOwner :=
  fun h => nomatch h

/-- No handler but that of `END_GROUP` dereferences a slot. -/
theorem dispatch_raises {code : OpCode} (hcode : code ≠ .endGroup) :
    Machine.Raises (· ≠ Fault.staleOwner) (dispatch env code) := by
  refine (dispatch_guarded hcode).raises fun e he => ?_
  obtain ⟨st, rfl⟩ := he
  exact Fault.status_ne_staleOwner st

theorem closeRun_raises : Machine.Raises (· ≠ Fault.staleOwner) closeRun := by
  refine .bind_get fun vm => ?_
  split
  · exact .fail (Fault.status_ne_staleOwner _)
  · exact .pure _

/-- The indexed machine resolves a frame whenever there is one. -/
theorem doEndGroup_error (h : Tracked opens vm) {e : Fault}
    (herr : doEndGroup (env.withSlot .indexed) vm r = (.error e, vm')) :
    doEndGroup (env.withSlot .cached) vm r = (.error e, vm') ∧ e ≠ .staleOwner := by
  cases hf : vm.frames with
  | nil =>
    have hfail : ∀ slot, doEndGroup (env.withSlot slot) vm r =
        failWith .groupUnderflow "end_group without group" vm r := by
      intro slot
      unfold doEndGroup
      rw [Machine.bind_get_apply, hf]
    rw [hfail] at herr ⊢
    refine ⟨herr, ?_⟩
    obtain rfl := Except.error.inj (Prod.mk.inj herr).1
    exact Fault.status_ne_staleOwner _
  | cons frame frames =>
    obtain ⟨hframes, hindex⟩ := h
    rw [hf] at hframes
    cases hframes with
    | cons hfg _ =>
      have hpop : ({ vm with frames } : ReplayVM).IndexInRange := hindex
      obtain ⟨vm1, hr, -⟩ := hpop.resolve_indexed env frame.deferredChildren hfg.owner
      have hok : Machine.Ok (doEndGroup (env.withSlot .indexed)) vm r () vm1 r :=
        doEndGroup_computes.mpr ⟨.endGroup, rfl, .endGroup hf hr⟩
      rw [Machine.Ok, herr] at hok
      cases (Prod.mk.inj hok).1

theorem dispatch_error (h : Tracked opens vm) {code : OpCode} {e : Fault}
    (herr : dispatch (env.withSlot .indexed) code vm r = (.error e, vm')) :
    dispatch (env.withSlot .cached) code vm r = (.error e, vm') ∧ e ≠ .staleOwner := by
  by_cases hend : code = .endGroup
  · subst hend
    exact doEndGroup_error h herr
  · rw [dispatch_withSlot hend]
    exact ⟨herr, dispatch_raises hend _ _ _ _ herr⟩

/-- Where the indexed machine stops, the cached one stops the same way, and not on a stale slot. -/
theorem stepOp_error (h : Tracked opens vm) {e : Fault}
    (herr : stepOp (env.withSlot .indexed) vm r = (.error e, vm')) :
    stepOp (env.withSlot .cached) vm r = (.error e, vm') ∧ e ≠ .staleOwner := by
  have hstatus := Fault.status_ne_staleOwner
  unfold stepOp operand at herr ⊢
  cases hraw : readU8 r with
  | error st =>
    rw [Machine.bind_read_of_error hraw] at herr ⊢
    refine ⟨herr, ?_⟩
    obtain rfl := Except.error.inj (Prod.mk.inj herr).1
    exact hstatus st
  | ok p =>
    rw [Machine.bind_read_of_ok (show readU8 r = .ok (p.1, p.2) from hraw)] at herr ⊢
    cases hcode : OpCode.ofRaw? p.1 with
    | none =>
      rw [hcode] at herr
      refine ⟨herr, ?_⟩
      obtain rfl := Except.error.inj (Prod.mk.inj herr).1
      exact hstatus _
    | some code =>
      simp only [hcode] at herr ⊢
      rcases hd : dispatch (env.withSlot .indexed) code vm p.2 with ⟨e' | u, vm1⟩
      · rw [Machine.bind_apply, hd] at herr
        obtain ⟨hfst, rfl⟩ := Prod.mk.inj herr
        obtain rfl := Except.error.inj hfst
        obtain ⟨hd', hne⟩ := dispatch_error h hd
        rw [Machine.bind_apply, hd']
        exact ⟨rfl, hne⟩
      · rw [Machine.bind_apply, hd] at herr
        cases (Prod.mk.inj herr).1

end Step

/-! ## Runs -/

section Runs

variable {env : Env}

/-- Nothing is executed where the machine stops. -/
theorem executed_of_error {n : Nat} {opens : List OpenGroup} {vm vm' : ReplayVM} {r : Bytes}
    {e : Fault} (h : stepOp env vm r = (.error e, vm')) : executed env (n + 1) opens vm r = [] := by
  rw [executed]
  split
  · rfl
  rename_i op r' hread
  split
  · rfl
  rename_i vm1 hexec
  have hok : Machine.Ok (stepOp env) vm r () vm1.tick r' :=
    stepOp_ok_iff.mpr ⟨op, vm1, hread, ReplayVM.exec_iff_effect.mp hexec, rfl⟩
  rw [Machine.Ok, h] at hok
  cases (Prod.mk.inj hok).1

/-- If every executed step is fresh the two loops are the same and not stale; otherwise the cached
one runs into a stale slot. -/
theorem runOps_agree {n : Nat} {opens : List OpenGroup} {vm : ReplayVM} {r : Bytes}
    (h : Tracked opens vm)
    (hh : ∀ s ∈ executed (env.withSlot .indexed) n opens vm r, s.Honours) :
    ((∀ s ∈ executed (env.withSlot .indexed) n opens vm r, s.Fresh) ∧
      runOps (env.withSlot .cached) n vm r = runOps (env.withSlot .indexed) n vm r ∧
      (runOps (env.withSlot .cached) n vm r).1 ≠ .error .staleOwner) ∨
    ((¬ ∀ s ∈ executed (env.withSlot .indexed) n opens vm r, s.Fresh) ∧
      (runOps (env.withSlot .cached) n vm r).1 = .error .staleOwner) := by
  induction n generalizing opens vm r with
  | zero => exact .inl ⟨fun s hs => absurd hs List.not_mem_nil, rfl, nofun⟩
  | succ n ih =>
    simp only [runOps]
    rcases hstep : stepOp (env.withSlot .indexed) vm r with ⟨e | ⟨u, r1⟩, vm1⟩
    · -- nothing is executed, and both loops stop here
      obtain ⟨hsame, hne⟩ := stepOp_error h hstep
      rw [executed_of_error hstep]
      refine .inl ⟨fun s hs => absurd hs List.not_mem_nil, ?_⟩
      rw [Machine.bind_apply, Machine.bind_apply, hsame, hstep]
      exact ⟨rfl, fun heq => hne (Except.error.inj heq)⟩
    · obtain ⟨op, vm', hread, heff, rfl⟩ := stepOp_ok_iff.mp (show Machine.Ok _ _ _ _ _ _ from hstep)
      have hcons : executed (env.withSlot .indexed) (n + 1) opens vm r =
          ⟨opens, vm, op, vm'⟩ ::
            executed (env.withSlot .indexed) n (OpenGroup.next vm op opens) vm'.tick r1 := by
        rw [executed, hread]
        simp only [ReplayVM.exec_iff_effect.mpr heff]
      rw [hcons, List.forall_mem_cons] at hh ⊢
      by_cases hfresh : (⟨opens, vm, op, vm'⟩ : Executed).Fresh
      · have hsame : stepOp (env.withSlot .cached) vm r = stepOp (env.withSlot .indexed) vm r := by
          rw [hstep]
          exact stepOp_ok_iff.mpr
            ⟨op, vm', hread, Effect.withSlot_cached h heff hh.1 hfresh, rfl⟩
        rw [Machine.bind_apply, Machine.bind_apply, hsame, hstep]
        rcases ih (h.step heff hh.1) hh.2 with ⟨hall, hrun⟩ | ⟨hnot, hrun⟩
        · exact .inl ⟨⟨hfresh, hall⟩, hrun⟩
        · exact .inr ⟨fun hall => hnot hall.2, hrun⟩
      · refine .inr ⟨fun hall => hfresh hall.1, ?_⟩
        exact congrArg Prod.fst (Machine.bind_of_error (stepOp_stale h hread hfresh))

/-- Ids of a decoded heap are positions truncated to 32 bits, so they stay inside the table. -/
theorem indexInRange_seed {limits : Limits} {r r' : Bytes} {heap : HeapImage}
    (h : decodeHeap env.growth env.schema env.atoms limits r = .ok (heap, r')) :
    (ReplayVM.seed {} heap).IndexInRange := by
  intro a i hi
  refine lookup_foldl_registerName (P := fun _ i => i.toNat < heap.nodes.size) ?_ hi
  intro n hn _
  obtain ⟨j, hj⟩ := List.mem_iff_getElem?.mp hn
  have hlt : j < heap.nodes.size := (List.getElem?_eq_some_iff.mp hj).1
  rw [((decodeHeap_spec h).2 j n hj).id, UInt32.toNat_ofNat']
  exact Nat.lt_of_le_of_lt (Nat.mod_le _ _) hlt

/-- **The cached owner slot agrees with re-indexing the table**, in a run that honours its hints,
iff no group that links children has been moved by a nested `BEGIN_GROUP`. -/
theorem agrees_iff_fresh {bytes rest : Bytes} {heap : HeapImage}
    (hheap : decodeHeap env.growth env.schema env.atoms env.limits bytes = .ok (heap, rest))
    {journal : Bytes}
    (hh : ∀ s ∈ journalSteps env (ReplayVM.seed {} heap) journal, s.Honours) :
    Agrees env (ReplayVM.seed {} heap) journal ↔
      ∀ s ∈ journalSteps env (ReplayVM.seed {} heap) journal, s.Fresh := by
  have htracked : Tracked [] (ReplayVM.seed {} heap) := ⟨.nil, indexInRange_seed hheap⟩
  unfold journalSteps at hh ⊢
  cases hcount : readVarintU32 journal with
  | error st =>
    refine iff_of_true ⟨?_, ?_⟩ fun s hs => absurd hs List.not_mem_nil
    · unfold run operand
      rw [Machine.bind_read_of_error hcount]
      rintro ⟨⟩
    · unfold run operand
      rw [Machine.bind_read_of_error hcount, Machine.bind_read_of_error hcount]
  | ok p =>
    have hrun : ∀ slot, run (env.withSlot slot) (ReplayVM.seed {} heap) journal =
        (if p.1 > env.limits.maxJournalOps then
          failWith .limitExceeded "journal op count too large"
        else do
          runOps (env.withSlot slot) p.1.toNat
          closeRun) (ReplayVM.seed {} heap) p.2 := fun slot =>
      Machine.bind_read_of_ok (show readVarintU32 journal = .ok (p.1, p.2) from hcount)
    simp only [hcount] at hh ⊢
    by_cases hlimit : p.1 > env.limits.maxJournalOps
    · rw [if_pos hlimit]
      refine iff_of_true ⟨?_, ?_⟩ fun s hs => absurd hs List.not_mem_nil
      · rw [hrun, if_pos hlimit]
        rintro ⟨⟩
      · rw [hrun, hrun, if_pos hlimit, if_pos hlimit]
    · simp only [if_neg hlimit] at hh hrun ⊢
      rcases runOps_agree htracked hh with ⟨hall, hsame, hne⟩ | ⟨hnot, hstale⟩
      · refine iff_of_true ⟨?_, ?_⟩ hall
        · rw [hrun, Machine.bind_apply]
          rcases hr : runOps (env.withSlot .cached) p.1.toNat (ReplayVM.seed {} heap) p.2
            with ⟨e | ⟨u, r1⟩, vm1⟩
          · rw [hr] at hne
            exact hne
          · intro herr
            exact closeRun_raises _ _ _ _ (Prod.ext herr rfl) rfl
        · rw [hrun, hrun, Machine.bind_apply, Machine.bind_apply, hsame]
      · refine iff_of_false (fun hagrees => hagrees.fresh ?_) hnot
        rw [hrun, Machine.bind_of_error hstale]

/-- No kind has fields, and the heap is one node under the first name, at capacity one. -/
def oneOwner : Env where
  schema := { kinds := [{ name := 0 }] }
  atoms := { atoms := [[0x61]] }

/-- A nested group of the same owner asks for five more slots, and the outer one links a child. -/
def nestedReserve : List Op :=
  [.beginGroup 0 0, .beginGroup 0 5, .endGroup, .addChild 0, .endGroup]

theorem nested_reserve_stale :
    ∃ heap, decodeHeap oneOwner.growth oneOwner.schema oneOwner.atoms oneOwner.limits
        [1, 0, 0, 0, 0] = .ok (heap, []) ∧
      (∀ s ∈ journalSteps oneOwner (ReplayVM.seed {} heap) (5 :: nestedReserve.flatMap Op.encode),
        s.Honours) ∧
      ¬ Agrees oneOwner (ReplayVM.seed {} heap) (5 :: nestedReserve.flatMap Op.encode) := by
  refine ⟨⟨⟨[{ id := 0, kind := 0, name := 0 }], 1, 1, Nat.le_refl 1⟩⟩, rfl, by decide, ?_⟩
  exact fun h => h.fresh rfl

/-- Two nested groups within the hint of the outer one, whose child is the owner itself. -/
def nestedRoom : List Op :=
  [.beginGroup 0 1, .beginGroup 0 1, .endGroup, .addChild 0, .endGroup]

theorem agrees_nestedRoom :
    Agrees oneOwner (ReplayVM.seed {} ⟨⟨[{ id := 0, kind := 0, name := 0 }], 1, 1, Nat.le_refl 1⟩⟩)
        (5 :: nestedRoom.flatMap Op.encode) ↔
      ∀ s ∈ journalSteps oneOwner
        (ReplayVM.seed {} ⟨⟨[{ id := 0, kind := 0, name := 0 }], 1, 1, Nat.le_refl 1⟩⟩)
        (5 :: nestedRoom.flatMap Op.encode), s.Fresh := by
  have hheap : decodeHeap oneOwner.growth oneOwner.schema oneOwner.atoms oneOwner.limits
      [1, 0, 0, 0, 0] =
        .ok (⟨⟨[{ id := 0, kind := 0, name := 0 }], 1, 1, Nat.le_refl 1⟩⟩, []) := rfl
  exact agrees_iff_fresh hheap (by decide)

end Runs

end Stratavm
