import Stratavm.ReplayVm.Reach

/-!
# Journals of given opcodes

`journalOf` is the journal of a list of opcodes, as the encoders of the repository write it.
`Performs` is what the machine does when it runs one: each opcode has its effect, and its values are of
the types they are read with (`run_of_performs`). The edges back to the owners and to the nodes that
fields name are apart from the graph the opcodes write: `bodies` is the table without them.

* `RunsOver.performs`: a run that reads given opcodes performs them.
* `Performs.body_kept`, `Performs.children_kept`: what opcodes leave of a node that they do not name.
* `performs_setFields`, `performed_setFields`: a list of `SET_FIELD`s of one node can be performed, and
  what it does.
* `performs_group`, `performed_group`: the same for a group where no other is open. Its hint keeps the
  table from moving, so the owner is found however its slot is.
-/

namespace Stratavm

open Lib

/-- The machine, from `vm`, executes `ops` and ends in `vm'`. -/
inductive Performs (env : Env) : List Op → ReplayVM → ReplayVM → Prop
  | nil {vm} : Performs env [] vm vm
  | cons {op ops vm vm1 vm'} (htyped : op.Typed (vm.fieldType env) env.limits)
      (heff : ReplayVM.Effect env vm op vm1) (hrest : Performs env ops vm1.tick vm') :
      Performs env (op :: ops) vm vm'

section Journal

variable {env : Env} {vm vm' : ReplayVM} {r r' : Bytes} {op : Op}

/-- The journal bytes of opcodes: their number and their encodings. -/
def journalOf (ops : List Op) : Bytes :=
  varint (UInt64.ofNat ops.length) ++ ops.flatMap Op.encode

/-- One encoded opcode of a journal. -/
theorem runOps_encode_ok (htyped : op.Typed (vm.fieldType env) env.limits) {n : Nat} :
    Machine.Ok (runOps env (n + 1)) vm (op.encode ++ r) () vm' r' ↔
      ∃ vm1, ReplayVM.Effect env vm op vm1 ∧ Machine.Ok (runOps env n) vm1.tick r () vm' r' := by
  rw [runOps, Machine.bind_ok]
  constructor
  · rintro ⟨_, mid, r1, hstep, hrest⟩
    obtain ⟨op', vm1, hread, heff, rfl⟩ := stepOp_ok_iff.mp hstep
    obtain ⟨rfl, rfl⟩ := Prod.mk.inj (Except.ok.inj ((reads_op htyped r).symm.trans hread))
    exact ⟨vm1, heff, hrest⟩
  · rintro ⟨vm1, heff, hrest⟩
    exact ⟨(), vm1.tick, r, stepOp_ok_iff.mpr ⟨op, vm1, reads_op htyped r, heff, rfl⟩, hrest⟩

theorem run_ok_iff_runOps : Machine.Ok (run env) vm r () vm' r' ↔
    ∃ count r1, readVarintU32 r = .ok (count, r1) ∧ count ≤ env.limits.maxJournalOps ∧
      Machine.Ok (runOps env count.toNat) vm r1 () vm' r' ∧ vm'.frames = [] := by
  rw [run_ok_iff]
  constructor
  · rintro ⟨count, r1, ops, hcount, hle, hlen, hrep, hframes⟩
    exact ⟨count, r1, hcount, hle, runOps_ok_iff.mpr ⟨ops, hlen, hrep⟩, hframes⟩
  · rintro ⟨count, r1, hcount, hle, hrun, hframes⟩
    obtain ⟨ops, hlen, hrep⟩ := runOps_ok_iff.mp hrun
    exact ⟨count, r1, ops, hcount, hle, hlen, hrep, hframes⟩

/-- `ops` are the opcodes that the run over `journal` executes. -/
def RunsOver (env : Env) (vm0 : ReplayVM) (journal : Bytes) (ops : List Op) : Prop :=
  ∃ count body vm r, readVarintU32 journal = .ok (count, body) ∧ ops.length = count.toNat ∧
    Replays env ops vm0 body vm r

/-- The run over a short enough list of encoded opcodes. -/
theorem run_journalOf {ops : List Op} (hlen : ops.length ≤ env.limits.maxJournalOps.toNat) :
    Machine.Ok (run env) vm (journalOf ops) () vm' r' ↔
      Machine.Ok (runOps env ops.length) vm (ops.flatMap Op.encode) () vm' r' ∧ vm'.frames = [] := by
  have hlt := Nat.lt_of_le_of_lt hlen env.limits.maxJournalOps.toNat_lt
  obtain ⟨hread, hcount⟩ := reads_count32 hlt
  have hheader : readVarintU32 (journalOf ops) =
      .ok (UInt32.ofNat ops.length, ops.flatMap Op.encode) := hread _
  rw [run_ok_iff_runOps]
  constructor
  · rintro ⟨count, r1, hc, -, hrun, hframes⟩
    obtain ⟨rfl, rfl⟩ := Prod.mk.inj (Except.ok.inj (hheader.symm.trans hc))
    rw [hcount] at hrun
    exact ⟨hrun, hframes⟩
  · rintro ⟨hrun, hframes⟩
    refine ⟨_, _, hheader, ?_, by rw [hcount]; exact hrun, hframes⟩
    rw [UInt32.le_iff_toNat_le, hcount]
    exact hlen

variable {ops ops' : List Op}

theorem Performs.append {mid : ReplayVM} (h : Performs env ops vm mid)
    (h' : Performs env ops' mid vm') : Performs env (ops ++ ops') vm vm' := by
  induction h with
  | nil => exact h'
  | cons htyped heff _ ih => exact .cons htyped heff (ih h')

/-- Opcodes are performed one part after the other. -/
theorem Performs.of_append (h : Performs env (ops ++ ops') vm vm') :
    ∃ mid, Performs env ops vm mid ∧ Performs env ops' mid vm' := by
  induction ops generalizing vm with
  | nil => exact ⟨vm, .nil, h⟩
  | cons op ops ih =>
    cases h with
    | cons htyped heff hrest =>
      obtain ⟨mid, hfirst, hlast⟩ := ih hrest
      exact ⟨mid, .cons htyped heff hfirst, hlast⟩

/-- Each of the opcodes has had an effect. -/
theorem Performs.effect_of_mem (h : Performs env ops vm vm') (hop : op ∈ ops) :
    ∃ vm1 vm2, ReplayVM.Effect env vm1 op vm2 := by
  induction h with
  | nil => cases hop
  | cons _ heff _ ih =>
    rcases List.mem_cons.mp hop with rfl | hop
    · exact ⟨_, _, heff⟩
    · exact ih hop

/-- One opcode that does not count. -/
theorem Performs.single (htyped : op.Typed (vm.fieldType env) env.limits)
    (heff : ReplayVM.Effect env vm op vm') : Performs env [op] vm vm'.tick :=
  .cons htyped heff .nil

/-- What is performed is replayed from the encodings. -/
theorem Performs.replays (h : Performs env ops vm vm') :
    Replays env ops vm (ops.flatMap Op.encode) vm' [] := by
  induction h with
  | nil => exact .nil
  | cons htyped heff _ ih =>
    rw [List.flatMap_cons]
    exact .cons (reads_op htyped _) heff ih

/-- What is replayed is performed: a value is read under the type its field has. -/
theorem Replays.performs (h : Replays env ops vm r vm' r') : Performs env ops vm vm' := by
  induction h with
  | nil => exact .nil
  | cons hread heff _ ih => exact .cons (readOp_typed hread) heff ih

theorem Performs.runOps_ok (h : Performs env ops vm vm') :
    Machine.Ok (runOps env ops.length) vm (ops.flatMap Op.encode) () vm' [] :=
  runOps_ok_iff.mpr ⟨ops, rfl, h.replays⟩

/-- **Soundness along a list of opcodes**, as long as there are ids left. -/
theorem Performs.sound (h : Performs env ops vm vm') (h0 : vm.Sound)
    (hroom : vm.weight + ops.length < 2 ^ 32) :
    vm'.Sound ∧ vm'.weight ≤ vm.weight + ops.length := by
  induction h with
  | nil => exact ⟨h0, Nat.le_refl _⟩
  | @cons _ ops _ vm1 _ _ heff _ ih =>
    rw [List.length_cons] at hroom ⊢
    have hweight : vm1.tick.weight ≤ _ := heff.weight_le
    obtain ⟨hsound, hle⟩ := ih (heff.sound h0 (by omega)) (by omega)
    exact ⟨hsound, by omega⟩

/-- **Opcodes that can be performed are run** from their journal. -/
theorem run_of_performs (h : Performs env ops vm vm')
    (hlen : ops.length ≤ env.limits.maxJournalOps.toNat) (hframes : vm'.frames = []) :
    Machine.Ok (run env) vm (journalOf ops) () vm' [] :=
  (run_journalOf hlen).mpr ⟨h.runOps_ok, hframes⟩

theorem runsOver_of_performs (h : Performs env ops vm vm') (hlen : ops.length < 2 ^ 32) :
    RunsOver env vm (journalOf ops) ops := by
  obtain ⟨hread, hcount⟩ := reads_count32 hlen
  exact ⟨_, _, vm', [], hread _, hcount.symm, h.replays⟩

/-- **A run that reads these opcodes** performs them. -/
theorem RunsOver.performs {journal : Bytes} (hover : RunsOver env vm journal ops)
    (hrun : Machine.Ok (run env) vm journal () vm' r') : Performs env ops vm vm' ∧
      ops.length ≤ env.limits.maxJournalOps.toNat ∧ vm'.frames = [] := by
  obtain ⟨count, body, hcount, hle, hok, hframes⟩ := run_ok_iff_runOps.mp hrun
  obtain ⟨count', body', vm1, r1, hcount', hlength, hrep⟩ := hover
  obtain ⟨rfl, rfl⟩ := Prod.mk.inj (Except.ok.inj (hcount.symm.trans hcount'))
  have hok' : Machine.Ok (runOps env count.toNat) vm body () vm1 r1 :=
    runOps_ok_iff.mpr ⟨ops, hlength, hrep⟩
  obtain rfl : vm' = vm1 := congrArg Prod.snd (hok.symm.trans hok')
  exact ⟨hrep.performs, hlength ▸ UInt32.le_iff_toNat_le.mp hle, hframes⟩

end Journal

/-! ## The table without references -/

/-- A node without its references. -/
def Node.body (n : Node) : Node := { n with refs := [] }

namespace ReplayVM

variable {env : Env} {vm vm' : ReplayVM}

/-- The nodes without their references. -/
def bodies (vm : ReplayVM) : List Node := vm.nodes.data.map Node.body

@[simp] theorem bodies_tick : vm.tick.bodies = vm.bodies := rfl

theorem length_bodies : vm.bodies.length = vm.nodes.size := List.length_map ..

theorem bodies_getElem? (i : NodeId) : vm.bodies[i.toNat]? = (vm.node? i).map Node.body :=
  List.getElem?_map ..

theorem body?_of_node? {i : NodeId} {n : Node} (h : vm.node? i = some n) :
    vm.bodies[i.toNat]? = some n.body := by
  rw [bodies_getElem?, h, Option.map_some]

/-- Changing an element of the first part. -/
theorem modify_append_of_lt {α : Type} {xs ys : List α} {i : Nat} {f : α → α} (h : i < xs.length) :
    xs.modify i f ++ ys = (xs ++ ys).modify i f := by
  induction xs generalizing i with
  | nil => exact absurd h (Nat.not_lt_zero _)
  | cons x xs ih =>
    cases i with
    | zero => rfl
    | succ i =>
      rw [List.modify_succ_cons, List.cons_append, ih (Nat.lt_of_succ_lt_succ h),
        List.cons_append, List.modify_succ_cons]

/-- A change of one node, in the table without references. -/
theorem bodies_of_modify {f g : Node → Node} {i : Nat} (h : vm'.nodes = vm.nodes.modify i f)
    (hfg : ∀ n, (f n).body = g n.body) : vm'.bodies = vm.bodies.modify i g := by
  unfold bodies
  rw [h, Vec.data_modify]
  refine List.ext_getElem? fun j => ?_
  rw [List.getElem?_map, List.getElem?_modify, List.getElem?_modify, List.getElem?_map]
  cases vm.nodes.data[j]? with
  | none => rfl
  | some n => by_cases hij : i = j <;> simp [hij, hfg]

theorem bodies_createNode {kind : KindId} {name : AtomId} :
    (vm.createNode env kind name).bodies =
      vm.bodies ++ [{ id := UInt32.ofNat vm.nodes.size, kind, name, alive := true }] := by
  simp [bodies, createNode, Node.body]

theorem bodies_storeField {i : NodeId} {f : FieldId} {v : Value} :
    (vm.storeField i f v).bodies = vm.bodies.modify i.toNat fun n => n.setField f v := by
  refine bodies_of_modify rfl ?_
  exact fun _ => rfl

theorem bodies_storeRef {i : NodeId} {f : FieldId} {t : NodeId} :
    (vm.storeRef i f t).bodies = vm.bodies.modify i.toNat fun n => n.setField f (.ref t) := by
  refine bodies_of_modify rfl ?_
  exact fun _ => rfl

theorem bodies_drop {i : NodeId} {node : Node} : (vm.drop i node).bodies =
    vm.bodies.modify i.toNat fun n =>
      { n with alive := false, generation := n.generation + 1 } := by
  refine bodies_of_modify rfl ?_
  exact fun _ => rfl

theorem bodies_openGroup {owner : NodeId} {name : AtomId} {hint : UInt32} :
    (vm.openGroup env owner name hint).bodies = vm.bodies := by
  simp [bodies, openGroup]

theorem bodies_attach (slot : Nat) (t : NodeId) : (vm.attach slot t).bodies =
    vm.bodies.modify slot fun n => { n with children := n.children ++ [t] } := by
  let one : ReplayVM := { vm with
    nodes := vm.nodes.modify slot fun n => { n with children := n.children ++ [t] } }
  have hone : one.bodies =
      vm.bodies.modify slot fun n => { n with children := n.children ++ [t] } := by
    refine bodies_of_modify rfl ?_
    exact fun _ => rfl
  have hback : (vm.attach slot t).bodies = one.bodies.modify t.toNat id := by
    refine bodies_of_modify rfl ?_
    exact fun _ => rfl
  rw [hback, hone, List.modify_id]

theorem bodies_materialize {child : AtomId} : (vm.materializePlaceholder env child).2.bodies =
    vm.bodies ++ [{ id := UInt32.ofNat vm.nodes.size, kind := kInvalidKind, name := child,
                    alive := true, placeholder := true }] := by
  simp [bodies, materializePlaceholder, Node.body]

/-- A placeholder is appended, or nothing. -/
theorem bodies_target (env : Env) (vm : ReplayVM) (child : AtomId) : ∃ made : List Node,
    (vm.target env child).2.bodies = vm.bodies ++ made ∧
      ∀ n ∈ made, n.kind = kInvalidKind ∧ n.fields = ∅ ∧ n.children = [] := by
  rcases target_eq env vm child with ⟨-, heq⟩ | ⟨-, heq⟩
  · rw [heq]
    refine ⟨_, bodies_materialize, fun n hn => ?_⟩
    obtain rfl := List.mem_singleton.mp hn
    exact ⟨rfl, rfl, rfl⟩
  · rw [heq]
    exact ⟨[], (List.append_nil _).symm, nofun⟩

/-- **Linking the children of a frame**: placeholders are appended, and the owner gains as many
children as were queued. -/
theorem bodies_resolve {frame : GroupFrame} {children : List AtomId}
    (hframe : frame.ownerCache.slot = frame.ownerId.toNat)
    (h : resolve env frame children vm = some vm') : ∃ made : List Node, ∃ linked : List NodeId,
    (∀ n ∈ made, n.kind = kInvalidKind ∧ n.fields = ∅ ∧ n.children = []) ∧
      linked.length = children.length ∧
      vm'.bodies = (vm.bodies ++ made).modify frame.ownerId.toNat fun n =>
        { n with children := n.children ++ linked } := by
  induction children generalizing vm with
  | nil =>
    obtain rfl := Option.some.inj h
    refine ⟨[], [], nofun, rfl, ?_⟩
    have hid : (fun n : Node => { n with children := n.children ++ [] }) = id := by
      funext n
      rw [List.append_nil]
      rfl
    rw [hid, List.modify_id, List.append_nil]
  | cons child children ih =>
    obtain ⟨slot, hslot, -, h⟩ := resolve_cons h
    obtain ⟨rfl, hlt⟩ := ownerSlot_eq hframe hslot
    obtain ⟨made, hmade, hplain⟩ := bodies_target env vm child
    obtain ⟨made', linked, hplain', hlength, hbodies⟩ := ih h
    refine ⟨made ++ made', (vm.target env child).1 :: linked, fun n hn => ?_, ?_, ?_⟩
    · exact (List.mem_append.mp hn).elim (hplain n) (hplain' n)
    · rw [List.length_cons, List.length_cons, hlength]
    · rw [← length_bodies, hmade] at hlt
      rw [hbodies, bodies_attach, hmade, ← List.append_assoc, modify_append_of_lt hlt,
        List.modify_modify_eq]
      congr 1
      funext n
      simp [Function.comp]

/-- What an opcode leaves of node `i`: the node is dropped by its own `DROP_NODE` only, its fields are
written by its own `SET_FIELD`s and by `LINK_REF`s, and children are added by a group of its own. -/
structure BodyStep (vm : ReplayVM) (op : Op) (i : NodeId) (n n' : Node) : Prop where
  label : n'.kind = n.kind ∧ n'.name = n.name
  dead : n'.alive = true → n.alive = true
  alive : op ≠ .dropNode i → n'.alive = n.alive
  field : ∀ f, n.field f ≠ none → n'.field f ≠ none
  fields : (∀ f v, op ≠ .setField i f v) → op.code ≠ .linkRef → n'.fields = n.fields
  children : (∀ frame ∈ vm.frames, frame.ownerId ≠ i) → n'.children = n.children

theorem BodyStep.refl (vm : ReplayVM) (op : Op) (i : NodeId) (n : Node) : BodyStep vm op i n n :=
  ⟨⟨rfl, rfl⟩, fun h => h, fun _ => rfl, fun _ h => h, fun _ _ => rfl, fun _ => rfl⟩

/-- A change of one node, which is a step of that node. -/
theorem bodyStep_modify {op : Op} {i j : NodeId} {g : Node → Node} {n : Node}
    (hn : vm.bodies[i.toNat]? = some n) (hbodies : vm'.bodies = vm.bodies.modify j.toNat g)
    (hg : i = j → BodyStep vm op i n (g n)) :
    ∃ n', vm'.bodies[i.toNat]? = some n' ∧ BodyStep vm op i n n' := by
  by_cases hij : i = j
  · subst hij
    refine ⟨g n, ?_, hg rfl⟩
    rw [hbodies, List.getElem?_modify_eq, hn]
    rfl
  · refine ⟨n, ?_, .refl vm op i n⟩
    have hne : j.toNat ≠ i.toNat := fun h => hij (UInt32.toNat_inj.mp h.symm)
    rw [hbodies, List.getElem?_modify_ne _ _ hne, hn]

/-- A field is set. -/
theorem bodyStep_setField {op : Op} {i : NodeId} (n : Node) (f : FieldId) (v : Value)
    (hop : op.code = .linkRef ∨ op = .setField i f v) : BodyStep vm op i n (n.setField f v) where
  label := ⟨rfl, rfl⟩
  dead ha := ha
  alive _ := rfl
  field g hg := by
    rw [Node.field_setField]
    split
    · exact Option.some_ne_none v
    · exact hg
  fields hset hlink := (hop.elim (absurd · hlink) (absurd · (hset f v)))
  children _ := rfl

/-- **What an opcode leaves of a node.** -/
theorem Effect.bodyStep {op : Op} (hslots : vm.SlotsAgree) (h : Effect env vm op vm') {i : NodeId}
    {n : Node} (hn : vm.bodies[i.toNat]? = some n) :
    ∃ n', vm'.bodies[i.toNat]? = some n' ∧ BodyStep vm op i n n' := by
  cases h with
  | newNode =>
    refine ⟨n, ?_, .refl vm _ i n⟩
    rw [bodies_createNode, List.getElem?_append_left (List.getElem?_eq_some_iff.mp hn).1, hn]
  | setField => exact bodyStep_modify hn bodies_storeField fun h => bodyStep_setField n _ _ (.inr (by rw [h]))
  | linkRef => exact bodyStep_modify hn bodies_storeRef fun _ => bodyStep_setField n _ _ (.inl rfl)
  | beginGroup => exact ⟨n, by rw [bodies_openGroup, hn], .refl vm _ i n⟩
  | @drop node =>
    refine bodyStep_modify hn bodies_drop fun h => ⟨⟨rfl, rfl⟩, fun ha => ?_,
      fun hne => absurd (by rw [h]) hne, fun _ hf => hf, fun _ _ => rfl, fun _ => rfl⟩
    cases ha
  | @endGroup frame frames _ hf hr =>
    have hmem : frame ∈ vm.frames := hf ▸ List.mem_cons_self
    obtain ⟨made, linked, -, -, hbodies⟩ := bodies_resolve (hslots frame hmem) hr
    have hsame : ({ vm with frames } : ReplayVM).bodies = vm.bodies := rfl
    rw [hsame] at hbodies
    have hn' : (vm.bodies ++ made)[i.toNat]? = some n := by
      rw [List.getElem?_append_left (List.getElem?_eq_some_iff.mp hn).1, hn]
    by_cases hi : i = frame.ownerId
    · subst hi
      refine ⟨{ n with children := n.children ++ linked }, ?_, ⟨rfl, rfl⟩, fun ha => ha, fun _ => rfl,
        fun _ hf => hf, fun _ _ => rfl, fun hall => absurd rfl (hall frame hmem)⟩
      rw [hbodies, List.getElem?_modify_eq, hn']
      rfl
    · refine ⟨n, ?_, .refl vm _ i n⟩
      have hne : frame.ownerId.toNat ≠ i.toNat := fun h => hi (UInt32.toNat_inj.mp h.symm)
      rw [hbodies, List.getElem?_modify_ne _ _ hne, hn']
  | _ => exact ⟨n, hn, .refl vm _ i n⟩

end ReplayVM

section Runs

variable {env : Env} {vm vm' : ReplayVM} {ops : List Op} {i : NodeId} {n : Node} {c : AtomId}

theorem Performs.slotsAgree (h : Performs env ops vm vm') (h0 : vm.SlotsAgree) : vm'.SlotsAgree := by
  induction h with
  | nil => exact h0
  | @cons _ _ _ vm1 _ _ heff _ ih =>
    have hslots : vm1.SlotsAgree := heff.slotsAgree h0
    exact ih hslots

/-- What opcodes leave of node `i`. -/
structure BodyKept (ops : List Op) (i : NodeId) (n n' : Node) : Prop where
  label : n'.kind = n.kind ∧ n'.name = n.name
  dead : n'.alive = true → n.alive = true
  alive : .dropNode i ∉ ops → n'.alive = n.alive
  field : ∀ f, n.field f ≠ none → n'.field f ≠ none
  fields : (∀ op ∈ ops, op.code ≠ .linkRef ∧ ∀ f v, op ≠ .setField i f v) → n'.fields = n.fields

/-- **A node is there as long as it is not dropped**, and keeps its fields, which `SET_FIELD`s and
`LINK_REF`s change only. -/
theorem Performs.body_kept (h : Performs env ops vm vm') (hslots : vm.SlotsAgree)
    (hn : vm.bodies[i.toNat]? = some n) :
    ∃ n', vm'.bodies[i.toNat]? = some n' ∧ BodyKept ops i n n' := by
  induction h generalizing n with
  | nil => exact ⟨n, hn, ⟨rfl, rfl⟩, fun h => h, fun _ => rfl, fun _ h => h, fun _ => rfl⟩
  | @cons op ops _ vm1 _ _ heff _ ih =>
    obtain ⟨n1, hn1, hstep⟩ := heff.bodyStep hslots hn
    have hslots1 : vm1.SlotsAgree := heff.slotsAgree hslots
    obtain ⟨n', hn', hrest⟩ := ih hslots1 hn1
    refine ⟨n', hn', ?_, fun ha => hstep.dead (hrest.dead ha), fun hdrop => ?_,
      fun f hf => hrest.field f (hstep.field f hf), fun hall => ?_⟩
    · exact ⟨hrest.label.1.trans hstep.label.1, hrest.label.2.trans hstep.label.2⟩
    · rw [hrest.alive fun hmem => hdrop (List.mem_cons_of_mem _ hmem),
        hstep.alive fun heq => hdrop (heq ▸ List.mem_cons_self)]
    · obtain ⟨hlink, hset⟩ := hall op List.mem_cons_self
      rw [hrest.fields fun op' hop' => hall op' (List.mem_cons_of_mem _ hop'), hstep.fields hset hlink]

/-- No name finds node `i`, and no open group is its own, so it will gain no children. -/
structure ReplayVM.Unreached (vm : ReplayVM) (i : NodeId) : Prop where
  made : i.toNat < vm.nodes.size
  names : ∀ a, vm.nameIndex.lookup a ≠ some i
  frames : ∀ frame ∈ vm.frames, frame.ownerId ≠ i

/-- The id of a new node is not that of one that is there. -/
theorem lookup_register_ne {index : UMap AtomId NodeId} {size : Nat} (hsize : size < 2 ^ 32)
    (hmade : i.toNat < size) (hnames : ∀ a, index.lookup a ≠ some i) (name a : AtomId) :
    (registerName index name (UInt32.ofNat size)).lookup a ≠ some i := by
  rw [lookup_registerName]
  split
  · intro heq
    obtain rfl := Option.some.inj heq
    rw [toNat_ofNat_of_lt hsize] at hmade
    exact Nat.lt_irrefl _ hmade
  · exact hnames a

/-- Names that do not find a node never will. -/
theorem ReplayVM.Effect.unreached {op : Op} (hsound : vm.Sound) (h : vm.Unreached i)
    (heff : Effect env vm op vm') : vm'.Unreached i := by
  have hsize : vm.nodes.size < 2 ^ 32 := Nat.lt_of_le_of_lt size_le_weight hsound.room
  cases heff with
  | newNode =>
    refine ⟨?_, lookup_register_ne hsize h.made h.names _, h.frames⟩
    rw [size_createNode]
    exact Nat.lt_succ_of_lt h.made
  | setField => exact ⟨by rw [size_storeField]; exact h.made, h.names, h.frames⟩
  | linkRef => exact ⟨by rw [size_storeRef]; exact h.made, h.names, h.frames⟩
  | @beginGroup name _ _ _ ho _ =>
    refine ⟨by rw [size_openGroup]; exact h.made, h.names, fun frame hframe => ?_⟩
    rcases List.mem_cons.mp hframe with rfl | hframe
    · rintro rfl
      have hfound : vm.findNamed name ≠ kInvalidNode := fun hnone => by
        rw [hnone] at ho
        cases ho
      exact h.names name (lookup_of_findNamed hfound)
    · exact h.frames frame hframe
  | @endGroup frame frames _ hf hr =>
    have hmem : frame ∈ vm.frames := hf ▸ List.mem_cons_self
    have hroom : vm.nodes.size + frame.deferredChildren.length < 2 ^ 32 := by
      have hweight := hsound.room
      unfold weight at hweight
      rw [hf, List.map_cons, List.sum_cons] at hweight
      omega
    have hpop : ({ vm with frames } : ReplayVM).Integrity :=
      ⟨hsound.toGraphOk, fun g hg => hsound.frames g (hf ▸ List.mem_cons_of_mem _ hg)⟩
    have hkept : i.toNat < vm'.nodes.size ∧ ∀ a, vm'.nameIndex.lookup a ≠ some i := by
      refine hpop.resolve_induction (P := fun mid => i.toNat < mid.nodes.size ∧
        ∀ a, mid.nameIndex.lookup a ≠ some i) (hsound.slots frame hmem) hroom ?_ ⟨h.made, h.names⟩ hr
      rintro mid child - hlt - ⟨hmade, hnames⟩
      rw [size_attach]
      rcases target_eq env mid child with ⟨-, heq⟩ | ⟨-, heq⟩
      · rw [heq]
        refine ⟨?_, fun a => ?_⟩
        · rw [materializePlaceholder, Vec.size_pushBack]
          exact Nat.lt_succ_of_lt hmade
        · exact lookup_register_ne (by omega) hmade hnames child a
      · rw [heq]
        exact ⟨hmade, hnames⟩
    refine ⟨hkept.1, hkept.2, fun g hg => ?_⟩
    rw [(resolve_size hr).1] at hg
    exact h.frames g (hf ▸ List.mem_cons_of_mem _ hg)
  | @addChild _ frame frames hf _ =>
    refine ⟨h.made, h.names, fun g hg => ?_⟩
    rcases List.mem_cons.mp hg with rfl | hg
    · exact h.frames frame (hf ▸ List.mem_cons_self)
    · exact h.frames g (hf ▸ List.mem_cons_of_mem _ hg)
  | drop =>
    refine ⟨by rw [size_drop]; exact h.made, fun a hi => h.names a ?_, h.frames⟩
    unfold ReplayVM.drop at hi
    dsimp only at hi
    split at hi
    · rename_i node _ _ _
      by_cases ha : a = node.name
      · rw [ha, Finmap.lookup_erase] at hi
        cases hi
      · rwa [Finmap.lookup_erase_ne ha] at hi
    · exact hi
  | _ => exact ⟨h.made, h.names, h.frames⟩

/-- **A node that no name finds gains no children.** -/
theorem Performs.children_kept (h : Performs env ops vm vm') (hsound : vm.Sound)
    (hroom : vm.weight + ops.length < 2 ^ 32) (hi : vm.Unreached i) (hn : vm.bodies[i.toNat]? = some n) :
    ∃ n', vm'.bodies[i.toNat]? = some n' ∧ n'.children = n.children := by
  induction h generalizing n with
  | nil => exact ⟨n, hn, rfl⟩
  | @cons op ops _ vm1 _ _ heff _ ih =>
    rw [List.length_cons] at hroom
    obtain ⟨n1, hn1, hstep⟩ := heff.bodyStep hsound.slots hn
    have hnext : vm1.Unreached i := heff.unreached hsound hi
    have hweight : vm1.tick.weight ≤ _ := heff.weight_le
    obtain ⟨n', hn', hchildren⟩ :=
      ih (heff.sound hsound (by omega)) (by omega) ⟨hnext.made, hnext.names, hnext.frames⟩ hn1
    exact ⟨n', hn', hchildren.trans (hstep.children hi.frames)⟩

end Runs

namespace ReplayVM

variable {env : Env} {vm vm' : ReplayVM}

/-! ## Fields and groups -/

/-- Several fields of one node. -/
def setFields (fields : List (FieldId × Value)) (n : Node) : Node :=
  fields.foldl (fun n p => n.setField p.1 p.2) n

/-- **`SET_FIELD`s of one node** can be performed on one that is alive and has fields of these types. -/
theorem performs_setFields {i : NodeId} {n : Node} {fields : List (FieldId × Value)}
    (hnode : vm.node? i = some n) (ha : n.alive = true)
    (hfields : ∀ p ∈ fields, env.schema.fieldType n.kind p.1 = p.2.type ∧ p.2.Fits env.limits) :
    ∃ vm', Performs env (fields.map fun p => .setField i p.1 p.2) vm vm' := by
  induction fields generalizing vm n with
  | nil => exact ⟨vm, .nil⟩
  | cons p fields ih =>
    obtain ⟨f, v⟩ := p
    obtain ⟨htype, hfits⟩ := hfields _ List.mem_cons_self
    have htyped : (Op.setField i f v).Typed (vm.fieldType env) env.limits := by
      refine ⟨?_, hfits⟩
      rw [fieldType, hnode]
      exact htype
    have heff : Effect env vm (.setField i f v) (vm.storeField i f v) :=
      .setField hnode hfits.1 htype ha
    have hnode' : (vm.storeField i f v).tick.node? i =
        some ({ n with refs := n.refs ++ outgoing vm.nodes.size v }.setField f v) := by
      refine Eq.trans node?_storeField ?_
      rw [hnode, Option.map_some, if_pos rfl]
    obtain ⟨vm', hperf⟩ := ih hnode' ha fun p hp => hfields p (List.mem_cons_of_mem _ hp)
    exact ⟨vm', .cons htyped heff hperf⟩

/-- What they do. -/
theorem performed_setFields {i : NodeId} {fields : List (FieldId × Value)}
    (h : Performs env (fields.map fun p => .setField i p.1 p.2) vm vm') :
    vm'.frames = vm.frames ∧ vm'.nameIndex = vm.nameIndex ∧
      vm'.bodies = vm.bodies.modify i.toNat (ReplayVM.setFields fields) := by
  induction fields generalizing vm with
  | nil =>
    cases h
    exact ⟨rfl, rfl, (List.modify_id ..).symm⟩
  | cons p fields ih =>
    cases h with
    | cons _ heff hrest =>
      cases heff
      obtain ⟨hframes, hindex, hbodies⟩ := ih hrest
      refine ⟨hframes, hindex, ?_⟩
      rw [hbodies, bodies_tick, bodies_storeField, List.modify_modify_eq]
      rfl

/-- They are set on a node that is alive, under the types of its kind. -/
theorem performed_setFields_node {i : NodeId} {fields : List (FieldId × Value)}
    (h : Performs env (fields.map fun p => .setField i p.1 p.2) vm vm') {p : FieldId × Value}
    (hp : p ∈ fields) : ∃ n, vm.node? i = some n ∧ n.alive = true ∧
      env.schema.fieldType n.kind p.1 = p.2.type ∧ p.2.type ≠ .invalid := by
  induction fields generalizing vm with
  | nil => cases hp
  | cons q fields ih =>
    cases h with
    | cons _ heff hrest =>
      cases heff with
      | setField hnode hv ht ha =>
        rcases List.mem_cons.mp hp with rfl | hp
        · exact ⟨_, hnode, ha, ht, hv⟩
        · -- the node of the rest is the same one, but for its fields
          obtain ⟨n', hn', -, ht', hv'⟩ := ih hrest hp
          refine ⟨_, hnode, ha, ?_, hv'⟩
          rw [show (vm.storeField i q.1 q.2).tick.node? i = _ from node?_storeField, hnode,
            Option.map_some, if_pos rfl] at hn'
          obtain rfl := Option.some.inj hn'
          exact ht'

/-- The owner of a frame is found in the buffer its pointer was taken from. -/
theorem ownerSlot_of_buf {frame : GroupFrame}
    (hcache : frame.ownerCache = ⟨vm.nodes.buf, frame.ownerId.toNat⟩)
    (hlt : frame.ownerId.toNat < vm.nodes.size) :
    vm.ownerSlot env frame = some frame.ownerId.toNat := by
  unfold ownerSlot
  cases env.ownerSlot with
  | cached =>
    have hlive : vm.nodes.live frame.ownerCache = true := by
      rw [hcache]
      exact Vec.live_iff.mpr ⟨rfl, hlt⟩
    rw [hcache] at hlive ⊢
    exact if_pos hlive
  | indexed => exact if_pos hlt

/-- **A group can be closed** if there is capacity for a placeholder for each of its children. -/
theorem exists_resolve {frame : GroupFrame} {children : List AtomId}
    (hcache : frame.ownerCache = ⟨vm.nodes.buf, frame.ownerId.toNat⟩)
    (hlt : frame.ownerId.toNat < vm.nodes.size) (hindex : vm.IndexInRange)
    (hcap : vm.nodes.size + children.length ≤ vm.nodes.cap) :
    ∃ vm', resolve env frame children vm = some vm' := by
  induction children generalizing vm with
  | nil => exact ⟨vm, rfl⟩
  | cons child children ih =>
    rw [List.length_cons] at hcap
    obtain ⟨hindex', htarget⟩ := hindex.target env child
    -- the capacity keeps the table where the pointer was taken
    have hkept : (vm.target env child).2.nodes.buf = vm.nodes.buf ∧
        (vm.target env child).2.nodes.cap = vm.nodes.cap ∧
        vm.nodes.size ≤ (vm.target env child).2.nodes.size ∧
        (vm.target env child).2.nodes.size ≤ vm.nodes.size + 1 := by
      rcases target_eq env vm child with ⟨-, heq⟩ | ⟨-, heq⟩
      · rw [heq]
        have hroom : vm.nodes.size < vm.nodes.cap := by omega
        refine ⟨(Vec.buf_pushBack_eq_iff _).mpr hroom, Vec.cap_pushBack_of_lt _ hroom, ?_⟩
        simp [materializePlaceholder]
      · rw [heq]
        exact ⟨rfl, rfl, Nat.le_refl _, Nat.le_succ _⟩
    obtain ⟨hbuf, hcap', hge, hle⟩ := hkept
    have hslot : (vm.target env child).2.ownerSlot env frame = some frame.ownerId.toNat :=
      ownerSlot_of_buf (by rw [hcache, hbuf]) (Nat.lt_of_lt_of_le hlt hge)
    let mid := (vm.target env child).2.attach frame.ownerId.toNat (vm.target env child).1
    obtain ⟨vm', hr⟩ : ∃ vm', resolve env frame children mid = some vm' := by
      refine ih (hcache.trans (congrArg (Vec.Ptr.mk · _) hbuf.symm)) ?_ (fun a i hi => ?_) ?_
      · rw [size_attach]
        exact Nat.lt_of_lt_of_le hlt hge
      · rw [size_attach]
        exact hindex' a i hi
      · show mid.nodes.size + children.length ≤ (vm.target env child).2.nodes.cap
        rw [size_attach, hcap']
        omega
    refine ⟨vm', ?_⟩
    rw [resolve, hslot]
    simp only [htarget, if_true]
    exact hr

/-- Children with names of the pool can be queued on the innermost frame. -/
theorem performs_addChildren {frame : GroupFrame} {frames : List GroupFrame}
    {children : List AtomId} (hframes : vm.frames = frame :: frames)
    (hnames : ∀ c ∈ children, ¬ BadName env c) :
    ∃ vm', Performs env (children.map .addChild) vm vm' := by
  induction children generalizing vm frame with
  | nil => exact ⟨vm, .nil⟩
  | cons child children ih =>
    have heff : Effect env vm (.addChild child) (vm.queueChild frame frames child) :=
      .addChild hframes (hnames child List.mem_cons_self)
    obtain ⟨vm', hperf⟩ := @ih (vm.queueChild frame frames child).tick
      { frame with deferredChildren := frame.deferredChildren ++ [child] } rfl
      fun c hc => hnames c (List.mem_cons_of_mem _ hc)
    exact ⟨vm', .cons trivial heff hperf⟩

/-- Queueing children changes the frame only. -/
theorem performed_addChildren {frame : GroupFrame} {frames : List GroupFrame}
    {children : List AtomId} (h : Performs env (children.map .addChild) vm vm')
    (hframes : vm.frames = frame :: frames) :
    vm'.frames = { frame with deferredChildren := frame.deferredChildren ++ children } :: frames ∧
      vm'.nameIndex = vm.nameIndex ∧ vm'.nodes = vm.nodes := by
  induction children generalizing vm frame with
  | nil =>
    cases h
    exact ⟨by rw [hframes, List.append_nil], rfl, rfl⟩
  | cons child children ih =>
    cases h with
    | cons _ heff hrest =>
      cases heff with
      | addChild hf _ =>
        obtain ⟨rfl, rfl⟩ := List.cons.inj (hf.symm.trans hframes)
        obtain ⟨hframes', hindex, hnodes⟩ := ih hrest rfl
        refine ⟨?_, hindex, hnodes⟩
        rw [hframes', List.append_assoc]
        rfl

/-- The opcodes of a group. -/
def groupOps (name : AtomId) (children : List AtomId) : List Op :=
  .beginGroup name (UInt32.ofNat children.length) :: (children.map .addChild ++ [.endGroup])

/-- The frame of a group that was opened in `vm`, with its children queued. -/
def openedFrame (env : Env) (vm : ReplayVM) (name : AtomId) (children : List AtomId) : GroupFrame where
  ownerId := vm.findNamed name
  ownerCache :=
    (vm.openGroup env (vm.findNamed name) name (UInt32.ofNat children.length)).nodes.ptr
      (vm.findNamed name).toNat
  ownerName := name
  reserveHint := UInt32.ofNat children.length
  deferredChildren := children

/-- **What the opcodes of a group do** before the last of them, and what that one closes. -/
theorem performed_group {name : AtomId} {children : List AtomId}
    (h : Performs env (groupOps name children) vm vm') : ∃ full closed,
      Performs env (.beginGroup name (UInt32.ofNat children.length) :: children.map .addChild) vm full ∧
      full.frames = openedFrame env vm name children :: vm.frames ∧
      full.nameIndex = vm.nameIndex ∧ full.bodies = vm.bodies ∧
      resolve env (openedFrame env vm name children) children { full with frames := vm.frames } =
        some closed ∧ vm' = closed.tick := by
  cases h with
  | cons htyped hopen hrest =>
    obtain ⟨full, hadd, hend⟩ := hrest.of_append
    cases hopen with
    | beginGroup hd ho ha =>
      obtain ⟨hframes, hindex, hnodes⟩ := performed_addChildren hadd (rfl : _ = _ :: vm.frames)
      have hbodies : full.bodies = vm.bodies := by
        have hopened : (vm.openGroup env (vm.findNamed name) name
            (UInt32.ofNat children.length)).bodies = vm.bodies := bodies_openGroup
        rw [← hopened, bodies, bodies, hnodes]
        rfl
      cases hend with
      | cons _ hclose hnil =>
        cases hnil
        cases hclose with
        | endGroup hf hr =>
          obtain ⟨rfl, rfl⟩ := List.cons.inj (hf.symm.trans hframes)
          exact ⟨full, _, .cons htyped (.beginGroup hd ho ha) hadd, hframes, hindex, hbodies, hr, rfl⟩

/-- **A group can be performed** where no other is open: its hint keeps the table from moving. -/
theorem performs_group {name : AtomId} {owner : Node} {children : List AtomId}
    (hframes : vm.frames = []) (hdepth : 0 < env.limits.maxGroupDepth.toNat)
    (howner : vm.foundNode? (vm.findNamed name) = some owner) (ha : owner.alive = true)
    (hindex : vm.IndexInRange) (hlength : children.length < 2 ^ 32)
    (hnames : ∀ c ∈ children, ¬ BadName env c) :
    ∃ vm', Performs env (groupOps name children) vm vm' := by
  let hint := UInt32.ofNat children.length
  let opened := vm.openGroup env (vm.findNamed name) name hint
  have hopen : Effect env vm (.beginGroup name hint) opened := by
    refine .beginGroup ?_ howner ha
    rw [hframes]
    exact hdepth
  have hlt : (vm.findNamed name).toNat < vm.nodes.size := by
    unfold foundNode? at howner
    split at howner
    · cases howner
    · exact (List.getElem?_eq_some_iff.mp howner).1
  obtain ⟨full, hadd⟩ : ∃ full, Performs env (children.map .addChild) opened.tick full :=
    performs_addChildren (rfl : _ = _ :: vm.frames) hnames
  obtain ⟨hfull, hfullIndex, hnodes⟩ := performed_addChildren hadd (rfl : _ = _ :: vm.frames)
  have hsize : full.nodes.size = vm.nodes.size := by
    have hopened : opened.nodes.size = vm.nodes.size := size_openGroup
    rw [hnodes, ← hopened]
    rfl
  obtain ⟨vm', hr⟩ : ∃ vm', resolve env (openedFrame env vm name children) children
      { full with frames := vm.frames } = some vm' := by
    refine exists_resolve ?_ (hsize.symm ▸ hlt) (fun a i hi => ?_) ?_
    · show _ = Vec.Ptr.mk full.nodes.buf _
      rw [hnodes]
      rfl
    · show i.toNat < full.nodes.size
      rw [hsize]
      exact hindex a i (hfullIndex ▸ hi)
    · show full.nodes.size + children.length ≤ full.nodes.cap
      have hcap : vm.nodes.size + hint.toNat ≤ opened.nodes.cap :=
        Vec.le_cap_reserve env.growth _ vm.nodes
      have hcount : hint.toNat = children.length := toNat_ofNat_of_lt hlength
      rw [hsize, hnodes]
      rw [hcount] at hcap
      exact hcap
  have hclose : Effect env full .endGroup vm' := .endGroup hfull hr
  exact ⟨vm'.tick, .cons trivial hopen (hadd.append (.single trivial hclose))⟩

end ReplayVM

end Stratavm
