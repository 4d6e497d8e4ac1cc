import Stratavm.ReplayVm.Perform
import Stratavm.ReplayVm.Safe

/-!
# When a pointer goes stale

`resolve_frame` keeps the pointer to the owner's slot that `do_begin_group` took, and appends placeholders
to the table it points into. Whatever the hints of the groups are, what decides is whether the table has
moved. `Executed.Unmoved` says so of the run of the machine that re-indexes: an `END_GROUP` that links
children leaves the table in the buffer that its `BEGIN_GROUP` saw. A buffer is never used again, so the
state after the last child tells for all of them (`resolveFrame_stale`).

* **`stale_iff_moved`**: the cached machine dereferences a stale pointer iff some executed `END_GROUP` is
  not `Unmoved`, and in every other run it does what the machine that re-indexes does.
* **`forward_group_stale_iff`**: a group of forward references does so iff it has more children than there
  is room for after the `reserve` of its own `BEGIN_GROUP`.
-/

namespace Stratavm

open Lib ReplayVM

/-- An `END_GROUP` that links children leaves the table where its `BEGIN_GROUP` saw it. -/
def Executed.Unmoved (s : Executed) : Prop :=
  s.op = .endGroup → ∀ f ∈ s.before.frames.head?, f.deferredChildren ≠ [] →
    f.ownerCache.buf = s.after.nodes.buf

instance (s : Executed) : Decidable s.Unmoved := inferInstanceAs (Decidable (_ → _))

/-- The pointers of the open frames, live or not. -/
structure ReplayVM.Pointed (vm : ReplayVM) : Prop where
  inTable : vm.InTable
  slots : vm.SlotsAgree
  /-- No pointer is into a later buffer. -/
  bufs : ∀ f ∈ vm.frames, f.ownerCache.buf ≤ vm.nodes.buf
  /-- Capacity never shrinks. -/
  hints : ∀ f ∈ vm.frames, f.reserveHint.toNat ≤ vm.nodes.cap

namespace ReplayVM

variable {env : Env} {vm vm' : ReplayVM} {op : Op} {r r' : Bytes}

/-! ## The buffers along a run -/

/-- `vm'` has the buffer of `vm` or a later one, and no less room. -/
def Later (vm vm' : ReplayVM) : Prop := vm.nodes.buf ≤ vm'.nodes.buf ∧ vm.nodes.cap ≤ vm'.nodes.cap

theorem Later.refl (vm : ReplayVM) : vm.Later vm := ⟨Nat.le_refl _, Nat.le_refl _⟩

theorem Later.trans {vm1 : ReplayVM} (h : vm.Later vm1) (h' : vm1.Later vm') : vm.Later vm' :=
  ⟨Nat.le_trans h.1 h'.1, Nat.le_trans h.2 h'.2⟩

theorem later_target (env : Env) (vm : ReplayVM) (child : AtomId) : vm.Later (vm.target env child).2 := by
  rcases target_eq env vm child with ⟨-, heq⟩ | ⟨-, heq⟩
  · rw [heq]
    exact ⟨Vec.buf_le_buf_pushBack _ _ _, Vec.cap_le_cap_pushBack _ _ _⟩
  · rw [heq]
    exact .refl vm

theorem later_resolve {frame : GroupFrame} {children : List AtomId}
    (h : resolve env frame children vm = some vm') : vm.Later vm' := by
  refine resolve_induction (P := fun mid => vm.Later mid) h (.refl vm) fun mid child slot _ _ hmid => ?_
  exact hmid.trans (later_target env mid child)

theorem Effect.later (h : Effect env vm op vm') : vm.Later vm' := by
  cases h with
  | newNode => exact ⟨Vec.buf_le_buf_pushBack _ _ _, Vec.cap_le_cap_pushBack _ _ _⟩
  | beginGroup => exact ⟨Vec.buf_le_buf_reserve _ _ _, Vec.cap_le_cap_reserve _ _ _⟩
  | endGroup _ hr =>
    have hlater := later_resolve hr
    exact hlater
  | _ => exact .refl _

/-- An open frame was open before, or has just been opened on the table as it is. -/
theorem Effect.frame_cases (h : Effect env vm op vm') {f : GroupFrame} (hf : f ∈ vm'.frames) :
    (∃ g ∈ vm.frames, g.ownerCache = f.ownerCache ∧ g.reserveHint = f.reserveHint) ∨
      f.ownerCache.buf = vm'.nodes.buf ∧ f.reserveHint.toNat ≤ vm'.nodes.cap := by
  have hold : ∀ {g : GroupFrame}, g ∈ vm.frames → ∃ g' ∈ vm.frames, g'.ownerCache = g.ownerCache ∧
      g'.reserveHint = g.reserveHint := fun hg => ⟨_, hg, rfl, rfl⟩
  cases h with
  | beginGroup =>
    rcases List.mem_cons.mp hf with rfl | hf
    · exact .inr ⟨rfl, Nat.le_trans (Nat.le_add_left _ _) (Vec.le_cap_reserve _ _ _)⟩
    · exact .inl (hold hf)
  | endGroup hframes hr =>
    rw [(resolve_size hr).1] at hf
    exact .inl (hold (hframes ▸ List.mem_cons_of_mem _ hf))
  | @addChild _ frame _ hframes _ =>
    rcases List.mem_cons.mp hf with rfl | hf
    · exact .inl ⟨frame, by rw [hframes]; exact List.mem_cons_self, rfl, rfl⟩
    · exact .inl (hold (hframes ▸ List.mem_cons_of_mem _ hf))
  | _ => exact .inl (hold hf)

/-- **A step of either machine keeps the pointers**, live or not. -/
theorem Pointed.step (h : vm.Pointed) (hok : Machine.Ok (stepOp env) vm r () vm' r') : vm'.Pointed := by
  obtain ⟨op, vm1, -, heff, rfl⟩ := stepOp_ok_iff.mp hok
  obtain ⟨hbuf, hcap⟩ := heff.later
  refine ⟨(stepOp_safe vm r h.inTable).1 () _ r' hok, (heff.slotsAgree h.slots :), fun f hf => ?_,
    fun f hf => ?_⟩
  · rcases heff.frame_cases hf with ⟨g, hg, hcache, -⟩ | ⟨hnew, -⟩
    · exact hcache ▸ Nat.le_trans (h.bufs g hg) hbuf
    · exact hnew.le
  · rcases heff.frame_cases hf with ⟨g, hg, -, hhint⟩ | ⟨-, hnew⟩
    · exact hhint ▸ Nat.le_trans (h.hints g hg) hcap
    · exact hnew

/-- What the cached machine does where the other stops is known of tracked frames, and these are. -/
theorem Pointed.tracked (h : vm.Pointed) :
    Tracked (vm.frames.map fun f => ⟨0, decide (f.ownerCache.buf < vm.nodes.buf)⟩) vm := by
  refine ⟨?_, h.inTable.index⟩
  rw [List.forall₂_map_right_iff, List.forall₂_same]
  intro f hf
  refine ⟨h.slots f hf, h.inTable.owners f hf, ?_, fun hfresh => ?_, fun hstale => of_decide_eq_true hstale⟩
  · exact (Nat.zero_add _).trans_le (h.hints f hf)
  · exact Nat.le_antisymm (h.bufs f hf) (Nat.not_lt.mp (of_decide_eq_false hfresh))

/-! ## Resolving a frame -/

variable {frame : GroupFrame} {children : List AtomId}

/-- The two machines find the same slot while the buffer is the one of the pointer. -/
theorem ownerSlot_cached (hslot : frame.ownerCache.slot = frame.ownerId.toNat) {slot : Nat}
    (hs : vm.ownerSlot (env.withSlot .indexed) frame = some slot) :
    vm.ownerSlot (env.withSlot .cached) frame =
      if frame.ownerCache.buf = vm.nodes.buf then some slot else none := by
  rw [ownerSlot_withSlot_indexed] at hs
  obtain ⟨hlt, hs⟩ := Option.ite_none_right_eq_some.mp hs
  obtain rfl := Option.some.inj hs
  rw [ownerSlot_withSlot_cached, hslot]
  refine if_congr ?_ rfl rfl
  rw [Vec.live_iff, hslot]
  exact and_iff_left hlt

/-- A pointer that is live at the end was live for every child. -/
theorem resolve_of_unmoved (hslot : frame.ownerCache.slot = frame.ownerId.toNat)
    (hbuf : frame.ownerCache.buf ≤ vm.nodes.buf)
    (h : resolve (env.withSlot .indexed) frame children vm = some vm')
    (hunmoved : children ≠ [] → frame.ownerCache.buf = vm'.nodes.buf) :
    resolve (env.withSlot .cached) frame children vm = some vm' := by
  induction children generalizing vm with
  | nil => exact h
  | cons child children ih =>
    have hend := hunmoved (List.cons_ne_nil _ _)
    obtain ⟨slot, hs, htarget, h⟩ := resolve_cons h
    have hmid := (later_target (env.withSlot .indexed) vm child).1
    have hrest : (vm.target (env.withSlot .indexed) child).2.nodes.buf ≤ vm'.nodes.buf := (later_resolve h).1
    have hlive := ownerSlot_cached hslot hs
    rw [if_pos (by omega)] at hlive
    have htgt : vm.target (env.withSlot .cached) child = vm.target (env.withSlot .indexed) child := rfl
    rw [resolve, htgt, hlive]
    simp only [htarget, if_true]
    exact ih (Nat.le_trans hbuf hmid) h fun _ => hend

/-- A pointer that is stale at the end was stale for the child that moved the table. -/
theorem resolveFrame_stale (hslot : frame.ownerCache.slot = frame.ownerId.toNat)
    (hbuf : frame.ownerCache.buf ≤ vm.nodes.buf)
    (h : resolve (env.withSlot .indexed) frame children vm = some vm') (hne : children ≠ [])
    (hmoved : frame.ownerCache.buf ≠ vm'.nodes.buf) (r : Bytes) :
    (resolveFrame (env.withSlot .cached) frame children vm r).1 = .error .staleOwner := by
  induction children generalizing vm with
  | nil => exact absurd rfl hne
  | cons child children ih =>
    obtain ⟨slot, hs, htarget, h⟩ := resolve_cons h
    have hmid := (later_target (env.withSlot .indexed) vm child).1
    have hlive := ownerSlot_cached hslot hs
    have htgt : vm.target (env.withSlot .cached) child = vm.target (env.withSlot .indexed) child := rfl
    by_cases hsame : frame.ownerCache.buf = (vm.target (env.withSlot .indexed) child).2.nodes.buf
    · -- linked, and the table moves for a later child
      rw [if_pos hsame] at hlive
      have hlink : Machine.Ok (linkChild (env.withSlot .cached) frame child) vm r ()
          ((vm.target (env.withSlot .indexed) child).2.attach slot
            (vm.target (env.withSlot .indexed) child).1) r :=
        linkChild_ok_iff.mpr ⟨slot, by rw [htgt]; exact hlive, by rw [htgt]; exact htarget, rfl, rfl⟩
      have hnext : children ≠ [] := by
        rintro rfl
        obtain rfl := Option.some.inj h
        exact hmoved hsame
      have hbuf' : frame.ownerCache.buf ≤ ((vm.target (env.withSlot .indexed) child).2.attach slot
          (vm.target (env.withSlot .indexed) child).1).nodes.buf := Nat.le_trans hbuf hmid
      rw [resolveFrame, Machine.bind_apply, hlink]
      exact ih hbuf' h hnext
    · rw [if_neg hsame] at hlive
      have hlink : (linkChild (env.withSlot .cached) frame child vm r).1 = .error .staleOwner := by
        rw [linkChild, Machine.bind_modifyGet_apply, Machine.bind_get_apply, htgt, hlive]
        rfl
      rw [resolveFrame]
      exact congrArg Prod.fst (Machine.bind_of_error hlink)

end ReplayVM

/-! ## Runs -/

section Runs

variable {env : Env} {vm vm' : ReplayVM} {op : Op} {opens : List OpenGroup} {r r' : Bytes}

/-- A step that leaves the table in place is the same step of the cached machine. -/
theorem Effect.cached_of_unmoved (h : vm.Pointed)
    (heff : ReplayVM.Effect (env.withSlot .indexed) vm op vm')
    (hs : (⟨opens, vm, op, vm'⟩ : Executed).Unmoved) :
    ReplayVM.Effect (env.withSlot .cached) vm op vm' := by
  by_cases hop : op = .endGroup
  · subst hop
    cases heff with
    | @endGroup frame frames _ hf hr =>
      have hmem : frame ∈ vm.frames := by rw [hf]; exact List.mem_cons_self
      have hunmoved := hs rfl frame (by rw [hf]; rfl)
      exact .endGroup hf (resolve_of_unmoved (h.slots frame hmem) (h.bufs frame hmem) hr hunmoved)
  · rw [← exec_iff_effect, exec_withSlot hop]
    exact exec_iff_effect.mpr heff

/-- A step that moves the table writes through the pointer that was left behind. -/
theorem stepOp_moved (h : vm.Pointed)
    (hread : readOp (vm.fieldType env) env.limits r = .ok (op, r'))
    (heff : ReplayVM.Effect (env.withSlot .indexed) vm op vm')
    (hs : ¬ (⟨opens, vm, op, vm'⟩ : Executed).Unmoved) :
    (stepOp (env.withSlot .cached) vm r).1 = .error .staleOwner := by
  unfold Executed.Unmoved at hs
  push Not at hs
  obtain ⟨rfl, f, hf, hchildren, hmoved⟩ := hs
  obtain ⟨raw, r1, hraw, hcode, -⟩ := readOp_eq_ok.mp hread
  cases heff with
  | @endGroup frame frames _ hframes hr =>
    obtain rfl : frame = f := by simpa [hframes] using hf
    have hmem : frame ∈ vm.frames := by rw [hframes]; exact List.mem_cons_self
    have hbuf : frame.ownerCache.buf ≤ ({ vm with frames } : ReplayVM).nodes.buf := h.bufs frame hmem
    have hend : (doEndGroup (env.withSlot .cached) vm r1).1 = .error .staleOwner := by
      rw [doEndGroup, Machine.bind_get_apply, hframes]
      dsimp only
      rw [Machine.bind_set_apply]
      exact resolveFrame_stale (h.slots frame hmem) hbuf hr hchildren hmoved r1
    unfold stepOp operand
    rw [Machine.bind_read_of_ok hraw]
    simp only [hcode]
    exact congrArg Prod.fst (Machine.bind_of_error hend)

/-- While every executed step leaves the table in place the two loops are the same and not stale;
otherwise the cached one runs into a stale slot. By induction on the opcodes left. -/
theorem runOps_stale_or {n : Nat} (h : vm.Pointed) :
    ((∀ s ∈ executed (env.withSlot .indexed) n opens vm r, s.Unmoved) ∧
      runOps (env.withSlot .cached) n vm r = runOps (env.withSlot .indexed) n vm r ∧
      (runOps (env.withSlot .cached) n vm r).1 ≠ .error .staleOwner) ∨
    ((∃ s ∈ executed (env.withSlot .indexed) n opens vm r, ¬ s.Unmoved) ∧
      (runOps (env.withSlot .cached) n vm r).1 = .error .staleOwner) := by
  induction n generalizing opens vm r with
  | zero => exact .inl ⟨fun s hs => absurd hs List.not_mem_nil, rfl, by rintro ⟨⟩⟩
  | succ n ih =>
    simp only [runOps]
    rcases hstep : stepOp (env.withSlot .indexed) vm r with ⟨e | ⟨u, r1⟩, vm1⟩
    · -- nothing is executed, and both loops stop here
      obtain ⟨hsame, hne⟩ := stepOp_error h.tracked hstep
      rw [executed_of_error hstep]
      refine .inl ⟨fun s hs => absurd hs List.not_mem_nil, ?_⟩
      rw [Machine.bind_apply, Machine.bind_apply, hsame, hstep]
      exact ⟨rfl, fun heq => hne (Except.error.inj heq)⟩
    · have hok : Machine.Ok (stepOp (env.withSlot .indexed)) vm r () vm1 r1 := hstep
      obtain ⟨op, vm', hread, heff, rfl⟩ := stepOp_ok_iff.mp hok
      have hcons : executed (env.withSlot .indexed) (n + 1) opens vm r =
          ⟨opens, vm, op, vm'⟩ ::
            executed (env.withSlot .indexed) n (OpenGroup.next vm op opens) vm'.tick r1 := by
        rw [executed, hread]
        simp only [exec_iff_effect.mpr heff]
      rw [hcons, List.forall_mem_cons]
      by_cases hunmoved : (⟨opens, vm, op, vm'⟩ : Executed).Unmoved
      · have hsame : stepOp (env.withSlot .cached) vm r = stepOp (env.withSlot .indexed) vm r := by
          rw [hstep]
          exact stepOp_ok_iff.mpr ⟨op, vm', hread, Effect.cached_of_unmoved h heff hunmoved, rfl⟩
        rw [Machine.bind_apply, Machine.bind_apply, hsame, hstep]
        rcases @ih vm'.tick (OpenGroup.next vm op opens) r1 (h.step hok)
          with ⟨hall, hrun⟩ | ⟨⟨s, hs, hmoved⟩, hrun⟩
        · exact .inl ⟨⟨hunmoved, hall⟩, hrun⟩
        · exact .inr ⟨⟨s, List.mem_cons_of_mem _ hs, hmoved⟩, hrun⟩
      · refine .inr ⟨⟨_, List.mem_cons_self, hunmoved⟩, ?_⟩
        exact congrArg Prod.fst (Machine.bind_of_error (stepOp_moved h hread heff hunmoved))

/-- The same of the whole journal. -/
theorem run_stale_or (h : vm.Pointed) (journal : Bytes) :
    ((∀ s ∈ journalSteps env vm journal, s.Unmoved) ∧
      run (env.withSlot .cached) vm journal = run (env.withSlot .indexed) vm journal ∧
      (run (env.withSlot .cached) vm journal).1 ≠ .error .staleOwner) ∨
    ((∃ s ∈ journalSteps env vm journal, ¬ s.Unmoved) ∧
      (run (env.withSlot .cached) vm journal).1 = .error .staleOwner) := by
  have hnone : ∀ s ∈ ([] : List Executed), s.Unmoved := fun s hs => absurd hs List.not_mem_nil
  unfold journalSteps
  cases hcount : readVarintU32 journal with
  | error st =>
    unfold run operand
    rw [Machine.bind_read_of_error hcount, Machine.bind_read_of_error hcount]
    exact .inl ⟨hnone, rfl, fun heq => Fault.status_ne_staleOwner _ (Except.error.inj heq)⟩
  | ok p =>
    have hrun : ∀ slot, run (env.withSlot slot) vm journal =
        (if p.1 > env.limits.maxJournalOps then failWith .limitExceeded "journal op count too large"
        else do
          runOps (env.withSlot slot) p.1.toNat
          closeRun) vm p.2 := fun slot =>
      Machine.bind_read_of_ok (show readVarintU32 journal = .ok (p.1, p.2) from hcount)
    dsimp only
    rw [hrun, hrun]
    by_cases hlimit : p.1 > env.limits.maxJournalOps
    · rw [if_pos hlimit, if_pos hlimit, if_pos hlimit]
      exact .inl ⟨hnone, rfl, fun heq => Fault.status_ne_staleOwner _ (Except.error.inj heq)⟩
    · rw [if_neg hlimit, if_neg hlimit, if_neg hlimit]
      rcases @runOps_stale_or env vm [] p.2 p.1.toNat h with ⟨hall, hsame, hne⟩ | ⟨hmoved, hstale⟩
      · refine .inl ⟨hall, ?_, ?_⟩
        · rw [Machine.bind_apply, Machine.bind_apply, hsame]
        · rw [Machine.bind_apply]
          rcases hr : runOps (env.withSlot .cached) p.1.toNat vm p.2 with ⟨e | ⟨u, r1⟩, vm1⟩
          · rw [hr] at hne
            exact hne
          · exact fun herr => closeRun_raises _ _ _ _ (Prod.ext herr rfl) rfl
      · exact .inr ⟨hmoved, congrArg Prod.fst (Machine.bind_of_error hstale)⟩

end Runs

/-- **When a pointer goes stale**, in the run over any journal from a table without open groups. -/
theorem stale_iff_moved (env : Env) (vm : ReplayVM) (hindex : vm.IndexInRange) (hframes : vm.frames = [])
    (journal : Bytes) :
    ((run (env.withSlot .cached) vm journal).1 = .error .staleOwner ↔
      ∃ s ∈ journalSteps env vm journal, ¬ s.Unmoved) ∧
    ((∀ s ∈ journalSteps env vm journal, s.Unmoved) →
      run (env.withSlot .cached) vm journal = run (env.withSlot .indexed) vm journal) := by
  have hnone : ∀ {P : GroupFrame → Prop}, ∀ f ∈ vm.frames, P f := by
    rw [hframes]
    exact fun f hf => absurd hf List.not_mem_nil
  have hpointed : vm.Pointed := ⟨⟨hindex, hnone⟩, hnone, hnone, hnone⟩
  rcases @run_stale_or env vm hpointed journal with ⟨hall, hsame, hne⟩ | ⟨⟨s, hs, hmoved⟩, hstale⟩
  · refine ⟨iff_of_false hne ?_, fun _ => hsame⟩
    rintro ⟨s, hs, hmoved⟩
    exact hmoved (hall s hs)
  · exact ⟨iff_of_true hstale ⟨s, hs, hmoved⟩, fun hall => absurd (hall s hs) hmoved⟩

/-- The names and the kind of `gen_poc.cpp`. -/
def pocEnv : Env where
  atoms := { atoms := ["document", "section", "paragraph", "link", "image", "title", "body", "order",
    "parent", "href", "target", "width", "height", "root", "main", "alpha", "beta"].map (·.toUTF8.toList) }
  schema := { kinds := [{ name := 0, fields := [{ name := 5, type := .atom }, { name := 6, type := .ref },
    { name := 7, type := .int }] }] }

/-- Its heap, one document called `root`. -/
def pocHeap : HeapImage :=
  ⟨(Vec.empty.reserve pocEnv.growth 1).pushBack pocEnv.growth
    { id := 0, kind := 0, name := 13, fields := (∅ : UMap FieldId Value).insert 2 (.int 1) }⟩

theorem pocHeap_decodes : decodeHeap pocEnv.growth pocEnv.schema pocEnv.atoms pocEnv.limits
    [1, 0, 0, 13, 1, 2, 2] = .ok (pocHeap, []) := rfl

/-- Its journal: a group for one node, with two forward references. -/
def pocJournal : Bytes :=
  journalOf [.beginGroup 13 1, .addChild 15, .addChild 16, .endGroup]

theorem stale_iff_moved_poc :
    ((run (pocEnv.withSlot .cached) (ReplayVM.seed {} pocHeap) pocJournal).1 = .error .staleOwner ↔
      ∃ s ∈ journalSteps pocEnv (ReplayVM.seed {} pocHeap) pocJournal, ¬ s.Unmoved) ∧
    ((∀ s ∈ journalSteps pocEnv (ReplayVM.seed {} pocHeap) pocJournal, s.Unmoved) →
      run (pocEnv.withSlot .cached) (ReplayVM.seed {} pocHeap) pocJournal =
        run (pocEnv.withSlot .indexed) (ReplayVM.seed {} pocHeap) pocJournal) :=
  stale_iff_moved pocEnv (ReplayVM.seed {} pocHeap) (indexInRange_seed pocHeap_decodes) rfl pocJournal

/-! ## A group of forward references -/

section Forward

variable {env : Env} {vm vm' : ReplayVM} {op : Op} {opens : List OpenGroup} {t : Bytes}

/-- A placeholder for each child, and the buffer is kept iff there is room for all of them. -/
theorem resolve_unknown {frame : GroupFrame} {children : List AtomId} (hnodup : children.Nodup)
    (hunknown : ∀ c ∈ children, vm.findNamed c = kInvalidNode)
    (h : resolve env frame children vm = some vm') :
    vm.nodes.buf = vm'.nodes.buf ↔ vm.nodes.size + children.length ≤ vm.nodes.cap := by
  induction children generalizing vm with
  | nil =>
    obtain rfl := Option.some.inj h
    exact iff_of_true rfl vm.nodes.size_le_cap
  | cons child children ih =>
    obtain ⟨slot, -, -, h⟩ := resolve_cons h
    obtain ⟨hfresh, hnodup⟩ := List.nodup_cons.mp hnodup
    have htarget : vm.target env child = vm.materializePlaceholder env child :=
      if_pos (hunknown child List.mem_cons_self)
    rw [htarget] at h
    have hrest : ∀ c ∈ children, ((vm.materializePlaceholder env child).2.attach slot
        (vm.materializePlaceholder env child).1).findNamed c = kInvalidNode := by
      intro c hc
      have hne : c ≠ child := fun heq => hfresh (heq ▸ hc)
      show ((registerName vm.nameIndex child _).lookup c).getD kInvalidNode = kInvalidNode
      rw [lookup_registerName, if_neg fun h => hne h.2]
      exact hunknown c (List.mem_cons_of_mem _ hc)
    have hmid : (vm.materializePlaceholder env child).2.nodes.buf ≤ vm'.nodes.buf := (later_resolve h).1
    have hiff := ih hnodup hrest h
    rw [size_attach] at hiff
    change (vm.materializePlaceholder env child).2.nodes.buf = _ ↔
      _ ≤ (vm.materializePlaceholder env child).2.nodes.cap at hiff
    have hsize : (vm.materializePlaceholder env child).2.nodes.size = vm.nodes.size + 1 :=
      Vec.size_pushBack ..
    rw [hsize] at hiff
    rw [List.length_cons]
    by_cases hroom : vm.nodes.size < vm.nodes.cap
    · have hbuf : (vm.materializePlaceholder env child).2.nodes.buf = vm.nodes.buf :=
        (Vec.buf_pushBack_eq_iff _).mpr hroom
      have hcap : (vm.materializePlaceholder env child).2.nodes.cap = vm.nodes.cap :=
        Vec.cap_pushBack_of_lt _ hroom
      rw [hbuf, hcap] at hiff
      rw [hiff]
      omega
    · have hbuf : (vm.materializePlaceholder env child).2.nodes.buf ≠ vm.nodes.buf :=
        fun heq => hroom ((Vec.buf_pushBack_eq_iff _).mp heq)
      have hle : vm.nodes.buf ≤ (vm.materializePlaceholder env child).2.nodes.buf :=
        Vec.buf_le_buf_pushBack _ _ _
      exact iff_of_false (by omega) (by omega)

/-- The first of the opcodes of a journal body. -/
theorem executed_encode (htyped : op.Typed (vm.fieldType env) env.limits)
    (heff : ReplayVM.Effect env vm op vm') (n : Nat) :
    executed env (n + 1) opens vm (op.encode ++ t) =
      ⟨opens, vm, op, vm'⟩ :: executed env n (OpenGroup.next vm op opens) vm'.tick t := by
  rw [executed, reads_op htyped t]
  simp only [exec_iff_effect.mpr heff]

/-- Queueing children leaves the table as it is. -/
theorem executed_addChildren {children : List AtomId} (hnames : ∀ c ∈ children, ¬ BadName env c)
    {frame : GroupFrame} {frames : List GroupFrame} (hf : vm.frames = frame :: frames) (n : Nat) :
    ∃ steps opens' vm1, executed env (children.length + n) opens vm
        ((children.map Op.addChild).flatMap Op.encode ++ t) = steps ++ executed env n opens' vm1 t ∧
      (∀ s ∈ steps, s.op ≠ .endGroup) ∧ vm1.nodes = vm.nodes ∧ vm1.nameIndex = vm.nameIndex ∧
      vm1.frames =
        { frame with deferredChildren := frame.deferredChildren ++ children } :: frames := by
  induction children generalizing vm frame opens with
  | nil =>
    refine ⟨[], opens, vm, by rw [List.length_nil, Nat.zero_add]; rfl, fun s hs => absurd hs List.not_mem_nil,
      rfl, rfl, ?_⟩
    rw [List.append_nil]
    exact hf
  | cons child children ih =>
    obtain ⟨hname, hnames⟩ := List.forall_mem_cons.mp hnames
    have heff : ReplayVM.Effect env vm (.addChild child) (vm.queueChild frame frames child) :=
      .addChild hf hname
    obtain ⟨steps, opens', vm1, hsteps, hops, hnodes, hindex, hframes⟩ :=
      @ih (vm.queueChild frame frames child).tick (OpenGroup.next vm (.addChild child) opens) hnames
        { frame with deferredChildren := frame.deferredChildren ++ [child] } rfl
    refine ⟨⟨opens, vm, .addChild child, vm.queueChild frame frames child⟩ :: steps, opens', vm1, ?_,
      List.forall_mem_cons.mpr ⟨by rintro ⟨⟩, hops⟩, hnodes, hindex, ?_⟩
    · rw [List.map_cons, List.flatMap_cons, List.append_assoc, List.length_cons, Nat.add_right_comm,
        executed_encode (by exact trivial) heff, hsteps]
      rfl
    · rw [hframes, List.append_assoc]
      rfl

theorem journalSteps_journalOf {ops : List Op} (hlen : ops.length ≤ env.limits.maxJournalOps.toNat) :
    journalSteps env vm (journalOf ops) =
      executed (env.withSlot .indexed) ops.length [] vm (ops.flatMap Op.encode) := by
  have hlt := Nat.lt_of_le_of_lt hlen env.limits.maxJournalOps.toNat_lt
  obtain ⟨hread, hcount⟩ := reads_count32 hlt
  rw [journalSteps, journalOf, hread]
  dsimp only
  rw [if_neg, hcount]
  rw [gt_iff_lt, UInt32.lt_iff_toNat_lt, hcount]
  exact Nat.not_lt.mpr hlen

/-- The end of a group that has queued forward references only. -/
theorem unmoved_endGroup_iff {frame : GroupFrame} (hframes : vm.frames = [frame])
    (hbuf : frame.ownerCache.buf = vm.nodes.buf) (hindex : vm.IndexInRange)
    (howner : frame.ownerId.toNat < vm.nodes.size) (hnodup : frame.deferredChildren.Nodup)
    (hunknown : ∀ c ∈ frame.deferredChildren, vm.findNamed c = kInvalidNode) :
    ∃ vm', ReplayVM.Effect (env.withSlot .indexed) vm .endGroup vm' ∧ ∀ opens,
      ((⟨opens, vm, .endGroup, vm'⟩ : Executed).Unmoved ↔
        vm.nodes.size + frame.deferredChildren.length ≤ vm.nodes.cap) := by
  have hpop : ({ vm with frames := [] } : ReplayVM).IndexInRange := hindex
  obtain ⟨vm', hr, -⟩ := hpop.resolve_indexed env frame.deferredChildren howner
  have hfree : ∀ c ∈ frame.deferredChildren, ({ vm with frames := [] } : ReplayVM).findNamed c =
      kInvalidNode := hunknown
  have hroom := resolve_unknown hnodup hfree hr
  change vm.nodes.buf = vm'.nodes.buf ↔ vm.nodes.size + _ ≤ vm.nodes.cap at hroom
  refine ⟨vm', .endGroup hframes hr, fun opens => ?_⟩
  rw [Executed.Unmoved, hframes, ← hroom, ← hbuf]
  constructor
  · intro h
    by_cases hnil : frame.deferredChildren = []
    · rw [hnil] at hr
      obtain rfl := Option.some.inj hr
      exact hbuf
    · exact h rfl frame rfl hnil
  · rintro h - f hf -
    obtain rfl := Option.some.inj hf
    exact h

/-- A group that queues `children` on the owner. -/
def groupOps (name : AtomId) (hint : UInt32) (children : List AtomId) : List Op :=
  .beginGroup name hint :: (children.map Op.addChild ++ [.endGroup])

/-- **A group of forward references** writes through a stale pointer iff its children do not fit the
capacity that its `BEGIN_GROUP` left. Where that `reserve` moved the table, and to a buffer of exactly the
size asked for, this is when they are more than its hint. -/
theorem forward_group_stale_iff (env : Env) (vm : ReplayVM) (name : AtomId) (hint : UInt32)
    (children : List AtomId) (owner : Node) (hindex : vm.IndexInRange) (hframes : vm.frames = [])
    (hdepth : 0 < env.limits.maxGroupDepth.toNat)
    (howner : vm.foundNode? (vm.findNamed name) = some owner) (halive : owner.alive = true)
    (hnodup : children.Nodup) (hunknown : ∀ c ∈ children, vm.findNamed c = kInvalidNode)
    (hnames : ∀ c ∈ children, ¬ BadName env c)
    (hlen : children.length + 2 ≤ env.limits.maxJournalOps.toNat) :
    (run (env.withSlot .cached) vm (journalOf (groupOps name hint children))).1 = .error .staleOwner ↔
      (vm.nodes.reserve env.growth (vm.nodes.size + hint.toNat)).cap < vm.nodes.size + children.length := by
  have hops : (groupOps name hint children).length = children.length + 1 + 1 := by
    rw [groupOps, List.length_cons, List.length_append, List.length_map, List.length_singleton]
  rw [(stale_iff_moved env vm hindex hframes _).1, journalSteps_journalOf (by omega), hops, groupOps,
    List.flatMap_cons, List.flatMap_append]
  -- the table is reserved for the group, and then left as it is until the group ends
  have hopen : ReplayVM.Effect (env.withSlot .indexed) vm (.beginGroup name hint)
      (vm.openGroup env (vm.findNamed name) name hint) :=
    .beginGroup (by rw [hframes]; exact hdepth) howner halive
  have hlt : (vm.findNamed name).toNat < vm.nodes.size := by
    unfold ReplayVM.foundNode? at howner
    split at howner
    · cases howner
    · exact (List.getElem?_eq_some_iff.mp howner).1
  obtain ⟨steps, opens, vm1, hsteps, hadds, hnodes, hindex1, hframes1⟩ :=
    @executed_addChildren (env.withSlot .indexed) (vm.openGroup env (vm.findNamed name) name hint).tick
      (OpenGroup.next vm (.beginGroup name hint) []) ([Op.endGroup].flatMap Op.encode) children hnames
      { ownerId := vm.findNamed name
        ownerCache := (vm.nodes.reserve env.growth (vm.nodes.size + hint.toNat)).ptr (vm.findNamed name).toNat
        ownerName := name
        reserveHint := hint } [] (congrArg _ hframes) 1
  replace hnodes : vm1.nodes = vm.nodes.reserve env.growth (vm.nodes.size + hint.toNat) := hnodes
  replace hindex1 : vm1.nameIndex = vm.nameIndex := hindex1
  have hsize : vm1.nodes.size = vm.nodes.size := by rw [hnodes, Vec.size_reserve]
  -- it ends in the buffer it was opened in iff that one has the room
  obtain ⟨vm2, hend, hunmoved⟩ := @unmoved_endGroup_iff env vm1 _ hframes1 (congrArg Vec.buf hnodes.symm)
    (fun a i hi => by rw [hsize]; exact hindex a i (hindex1 ▸ hi)) (by rw [hsize]; exact hlt) hnodup
    (fun c hc => by rw [ReplayVM.findNamed, hindex1]; exact hunknown c hc)
  have hlast : executed (env.withSlot .indexed) 1 opens vm1 ([Op.endGroup].flatMap Op.encode) =
      [⟨opens, vm1, .endGroup, vm2⟩] := executed_encode (by exact trivial) hend 0
  rw [executed_encode (by exact trivial) hopen, hsteps, hlast]
  replace hunmoved : (⟨opens, vm1, .endGroup, vm2⟩ : Executed).Unmoved ↔
      vm.nodes.size + children.length ≤ (vm.nodes.reserve env.growth (vm.nodes.size + hint.toNat)).cap := by
    rw [hunmoved opens, hsize, hnodes]
    rfl
  rw [← Nat.not_le, ← hunmoved]
  constructor
  · rintro ⟨s, hs, hmoved⟩ hnot
    simp only [List.mem_cons, List.mem_append, List.not_mem_nil, or_false] at hs
    rcases hs with rfl | hs | rfl
    · exact hmoved (by rintro ⟨⟩)
    · exact hmoved fun heq => absurd heq (hadds s hs)
    · exact hmoved hnot
  · intro hmoved
    exact ⟨_, List.mem_cons_of_mem _ (List.mem_append_right _ List.mem_cons_self), hmoved⟩

theorem forward_group_stale_iff_poc :
    (run (pocEnv.withSlot .cached) (ReplayVM.seed {} pocHeap) pocJournal).1 = .error .staleOwner :=
  (forward_group_stale_iff pocEnv (ReplayVM.seed {} pocHeap) 13 1 [15, 16] _
    (indexInRange_seed pocHeap_decodes) rfl (by decide) rfl rfl (by decide)
    (List.forall_mem_cons.mpr ⟨by decide, List.forall_mem_singleton.mpr (by decide)⟩)
    (List.forall_mem_cons.mpr ⟨by decide, List.forall_mem_singleton.mpr (by decide)⟩)
    (by decide)).mpr (by decide)

end Forward

end Stratavm
