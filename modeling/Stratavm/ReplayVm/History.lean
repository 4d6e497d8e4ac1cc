import Stratavm.Lib.Extends
import Stratavm.ReplayVm.Reach
import Stratavm.ReplayVm.Slots
import Stratavm.ReplayVm.Typing

/-!
# The history of a graph

Replay never takes a node away and never turns one into another: along a run a node keeps its id, kind,
name and placeholder flag, dies at most once, and its edges are only added to (`Node.Grows`). What can be
overwritten is a field, and its value is that of the last opcode that wrote it.

Both are read off one opcode. `Effect.tableExtends` has a case for each way of changing the table, and
`Effect.slotField` says that a field of a slot changes as `Op.written` says and not otherwise. The first is a
preorder, so it holds between any two states of a run; the second is followed back from the end of the run
to the last opcode that wrote.

* **`run_extends`**: between two states of a run the node table `Extends` along `Node.Grows`.
* **`field_last_write`**: a field holds what the last opcode to write it wrote, or what it held at the
  start if none did.
-/

namespace Stratavm

open Lib

/-- What replay does to a node that is there. -/
structure Node.Grows (n n' : Node) : Prop where
  id : n'.id = n.id
  kind : n'.kind = n.kind
  name : n'.name = n.name
  placeholder : n'.placeholder = n.placeholder
  /-- A node dies at most once, and its generation counts that. -/
  life : (n'.alive = n.alive ∧ n'.generation = n.generation) ∨
    (n.alive = true ∧ n'.alive = false ∧ n'.generation = n.generation + 1)
  children : n.children <+: n'.children
  refs : n.refs <+: n'.refs
  fields : ∀ f, n.field f ≠ none → n'.field f ≠ none

namespace Node.Grows

variable {n n' n'' : Node}

theorem refl (n : Node) : n.Grows n :=
  ⟨rfl, rfl, rfl, rfl, .inl ⟨rfl, rfl⟩, List.prefix_rfl, List.prefix_rfl, fun _ h => h⟩

theorem trans (n n' n'' : Node) (h : n.Grows n') (h' : n'.Grows n'') : n.Grows n'' where
  id := h'.id.trans h.id
  kind := h'.kind.trans h.kind
  name := h'.name.trans h.name
  placeholder := h'.placeholder.trans h.placeholder
  life := by
    rcases h.life with ⟨ha, hg⟩ | ⟨ha, ha', hg⟩
    · rcases h'.life with ⟨hb, hk⟩ | ⟨hb, hb', hk⟩
      · exact .inl ⟨hb.trans ha, hk.trans hg⟩
      · exact .inr ⟨ha ▸ hb, hb', by rw [hk, hg]⟩
    · rcases h'.life with ⟨hb, hk⟩ | ⟨hb, -, -⟩
      · exact .inr ⟨ha, hb.trans ha', hk.trans hg⟩
      · rw [ha'] at hb
        cases hb
  children := h.children.trans h'.children
  refs := h.refs.trans h'.refs
  fields := fun f hf => h'.fields f (h.fields f hf)

/-- A node that gains edges. -/
theorem gain (n : Node) (children refs : List NodeId) : n.Grows (n.gain children refs) :=
  ⟨rfl, rfl, rfl, rfl, .inl ⟨rfl, rfl⟩, List.prefix_append .., List.prefix_append .., fun _ h => h⟩

/-- A node whose field is written, with the edges of the value. -/
theorem write (n : Node) (f : FieldId) (v : Value) (refs : List NodeId) :
    n.Grows { n.setField f v with refs := n.refs ++ refs } := by
  refine ⟨rfl, rfl, rfl, rfl, .inl ⟨rfl, rfl⟩, List.prefix_rfl, List.prefix_append .., fun g hg => ?_⟩
  show (n.setField f v).field g ≠ none
  rw [Node.field_setField]
  split
  · exact Option.some_ne_none v
  · exact hg

end Node.Grows

namespace ReplayVM

variable {env : Env} {vm vm' : ReplayVM} {op : Op}

/-- The node table of a later state. -/
def TableExtends (vm vm' : ReplayVM) : Prop := Extends Node.Grows vm.nodes.data vm'.nodes.data

theorem TableExtends.refl (vm : ReplayVM) : vm.TableExtends vm := Extends.refl Node.Grows.refl _

theorem TableExtends.trans {vm'' : ReplayVM} (h : vm.TableExtends vm') (h' : vm'.TableExtends vm'') :
    vm.TableExtends vm'' := Extends.trans Node.Grows.trans h h'

theorem tableExtends_modify {i : Nat} {f : Node → Node} (h : vm'.nodes = vm.nodes.modify i f)
    (hf : ∀ n, vm.nodes.data[i]? = some n → n.Grows (f n)) : vm.TableExtends vm' := by
  unfold TableExtends
  rw [h, Vec.data_modify]
  exact Extends.modify Node.Grows.refl hf

theorem tableExtends_pushBack {n : Node} (h : vm'.nodes = vm.nodes.pushBack env.growth n) :
    vm.TableExtends vm' := by
  unfold TableExtends
  rw [h, Vec.data_pushBack]
  exact Extends.append Node.Grows.refl _ _

theorem tableExtends_target (child : AtomId) : vm.TableExtends (vm.target env child).2 := by
  rcases target_eq env vm child with ⟨-, heq⟩ | ⟨-, heq⟩
  · rw [heq]
    exact tableExtends_pushBack rfl
  · rw [heq]
    exact .refl vm

theorem tableExtends_attach (slot : Nat) (target : NodeId) : vm.TableExtends (vm.attach slot target) := by
  let one : ReplayVM := { vm with
    nodes := vm.nodes.modify slot fun n => { n with children := n.children ++ [target] } }
  have hone : vm.TableExtends one := by
    refine tableExtends_modify rfl fun n _ => ?_
    have h := Node.Grows.gain n [target] []
    rw [Node.gain, List.append_nil] at h
    exact h
  refine hone.trans (tableExtends_modify rfl fun n _ => ?_)
  have h := Node.Grows.gain n [] [(vm.nodes.data[slot]?.map Node.id).getD kInvalidNode]
  rw [Node.gain, List.append_nil] at h
  exact h

/-- **An opcode only extends the table.** -/
theorem Effect.tableExtends (h : Effect env vm op vm') : vm.TableExtends vm' := by
  cases h with
  | newNode => exact tableExtends_pushBack rfl
  | setField => exact tableExtends_modify rfl fun n _ => .write n _ _ _
  | beginGroup =>
    unfold TableExtends
    rw [openGroup, Vec.data_reserve]
    exact .refl Node.Grows.refl _
  | @endGroup _ frames _ _ hr =>
    refine resolve_induction (P := fun mid => vm.TableExtends mid) hr (.refl vm)
      fun mid child slot _ _ hmid => ?_
    exact hmid.trans ((tableExtends_target child).trans (tableExtends_attach slot _))
  | linkRef => exact tableExtends_modify rfl fun n _ => .write n _ _ _
  | drop hnode ha =>
    refine tableExtends_modify rfl fun n hn => ?_
    obtain rfl := Option.some.inj (hnode.symm.trans hn)
    exact ⟨rfl, rfl, rfl, rfl, .inr ⟨ha, rfl, rfl⟩, List.prefix_rfl, List.prefix_rfl, fun _ h => h⟩
  | addChild | linkRefMissing | dropDead | snapshot | setMeta | nop => exact .refl _

/-- The value in a slot's field. -/
def slotField (vm : ReplayVM) (i : Nat) (f : FieldId) : Option Value := vm.nodes.data[i]?.bind (·.field f)

/-- An opcode writes the fields it writes, and no others. -/
theorem Effect.slotField (h : Effect env vm op vm') (i : Nat) (f : FieldId) :
    vm'.slotField i f = (op.written vm i f).or (vm.slotField i f) := by
  have hslot := h.slot i
  unfold ReplayVM.slotField
  cases hn : vm.nodes.data[i]? with
  | none =>
    -- only a node that is there is written
    have hwritten : op.written vm i f = none := by
      have hnode : ∀ {j : NodeId} {n : Node}, vm.node? j = some n → j.toNat ≠ i := by
        rintro j n hj rfl
        exact nomatch hj.symm.trans hn
      cases h with
      | setField hj => simp [Op.written, hnode hj]
      | linkRefMissing hj => simp [Op.written, hnode hj]
      | linkRef hj => simp [Op.written, hnode hj]
      | _ => rfl
    rw [hwritten]
    rw [hn] at hslot
    cases hn' : vm'.nodes.data[i]? with
    | none => rfl
    | some n' =>
      have hempty : n'.fields = ∅ := hslot n' hn'
      simp [Node.field, hempty]
  | some n =>
    rw [hn] at hslot
    obtain ⟨n', hn', hstep⟩ := hslot
    rw [hn']
    exact hstep.field f

end ReplayVM

/-! ## Along a run -/

section Runs

variable {env : Env} {vm0 vm vm' : ReplayVM} {journal r r' : Bytes} {k k' : Nat} {op op' : Op}

/-- **Replay only extends the graph**: between two states of a run, the later table extends the earlier
one, node by node. -/
theorem run_extends (env : Env) (vm0 : ReplayVM) (journal : Bytes) (k k' : Nat) (vm vm' : ReplayVM)
    (r r' : Bytes) (hk : k ≤ k') (h : StateAt env vm0 journal k vm r)
    (h' : StateAt env vm0 journal k' vm' r') : vm.TableExtends vm' := by
  induction k' generalizing vm' r' with
  | zero =>
    obtain rfl := Nat.le_zero.mp hk
    rw [(h.unique h').1]
    exact .refl vm'
  | succ k' ih =>
    rcases Nat.of_le_succ hk with hk | rfl
    · obtain ⟨vm1, op, vm2, hexec, rfl⟩ := h'.exists_step
      obtain ⟨r1, hbefore⟩ := hexec.before
      exact (ih vm1 r1 hk hbefore).trans hexec.effect.tableExtends
    · rw [(h.unique h').1]
      exact .refl vm'

/-- A node whose field is written twice, the second time by `LINK_REF`. -/
def setThenLinked : List Op := [.newNode 0 0, .setField 0 0 (.ref 7), .linkRef 0 0 0]

theorem stateAt_setThenLinked (k : Nat) (hk : k ≤ 3) (vm : ReplayVM) (r : Bytes)
    (h : Machine.Ok (runOps oneRef k) {} (setThenLinked.flatMap Op.encode) () vm r) :
    StateAt oneRef {} (3 :: setThenLinked.flatMap Op.encode) k vm r :=
  ⟨3, _, rfl, by decide, hk, h⟩

theorem run_extends_setThenLinked : ∃ vm vm' r, StateAt oneRef {} (3 :: setThenLinked.flatMap Op.encode) 1 vm r ∧
    StateAt oneRef {} (3 :: setThenLinked.flatMap Op.encode) 3 vm' [] ∧ vm.TableExtends vm' := by
  have h1 := stateAt_setThenLinked 1 (by decide) _ _ rfl
  have h3 := stateAt_setThenLinked 3 (by decide) _ [] rfl
  exact ⟨_, _, _, h1, h3, run_extends oneRef {} _ 1 3 _ _ _ _ (by decide) h1 h3⟩

/-- There is one opcode at each place of a run. -/
theorem Executes.unique {vm1 vm1' : ReplayVM} (h : Executes env vm0 journal k vm op vm')
    (h' : Executes env vm0 journal k vm1 op' vm1') : vm = vm1 ∧ op = op' := by
  obtain ⟨-, r, _, hstate, hread, -⟩ := h
  obtain ⟨-, r1, _, hstate1, hread1, -⟩ := h'
  obtain ⟨rfl, rfl⟩ := hstate.unique hstate1
  exact ⟨rfl, (Prod.mk.inj (Except.ok.inj (hread.symm.trans hread1))).1⟩

/-- No opcode of the run from place `j` up to place `k` writes the field. -/
def Unwritten (env : Env) (vm0 : ReplayVM) (journal : Bytes) (i : Nat) (f : FieldId) (j k : Nat) : Prop :=
  ∀ l vm op vm', j ≤ l → l < k → Executes env vm0 journal l vm op vm' → op.written vm i f = none

/-- **The last write wins**: after `k` opcodes a field holds what the last of them to write it wrote, or
what it held at the start if none of them did. -/
theorem field_last_write (env : Env) (vm0 : ReplayVM) (journal : Bytes) (k : Nat) (vm : ReplayVM)
    (r : Bytes) (h : StateAt env vm0 journal k vm r) (i : Nat) (f : FieldId) :
    (vm.slotField i f = vm0.slotField i f ∧ Unwritten env vm0 journal i f 0 k) ∨
      ∃ j vm1 op vm2, j < k ∧ Executes env vm0 journal j vm1 op vm2 ∧
        op.written vm1 i f = vm.slotField i f ∧ vm.slotField i f ≠ none ∧
        Unwritten env vm0 journal i f (j + 1) k := by
  refine h.induction (P := fun k vm =>
    (vm.slotField i f = vm0.slotField i f ∧ Unwritten env vm0 journal i f 0 k) ∨
      ∃ j vm1 op vm2, j < k ∧ Executes env vm0 journal j vm1 op vm2 ∧
        op.written vm1 i f = vm.slotField i f ∧ vm.slotField i f ≠ none ∧
        Unwritten env vm0 journal i f (j + 1) k) ?_ ?_
  · exact .inl ⟨rfl, fun l _ _ _ _ hl => absurd hl (Nat.not_lt_zero l)⟩
  · intro k vm op vm' hexec ih
    have hfield : vm'.tick.slotField i f = (op.written vm i f).or (vm.slotField i f) :=
      hexec.effect.slotField i f
    -- the opcode at place `k` is the one that was just executed
    have hnext : op.written vm i f = none → ∀ j, Unwritten env vm0 journal i f j k →
        Unwritten env vm0 journal i f j (k + 1) := by
      intro hnone j hunwritten l vm1 op1 vm2 hj hl hexec1
      rcases Nat.lt_succ_iff_lt_or_eq.mp hl with hl | rfl
      · exact hunwritten l vm1 op1 vm2 hj hl hexec1
      · obtain ⟨rfl, rfl⟩ := hexec1.unique hexec
        exact hnone
    cases hw : op.written vm i f with
    | some v =>
      rw [hw, Option.some_or] at hfield
      refine .inr ⟨k, vm, op, vm', Nat.lt_succ_self k, hexec, hw.trans hfield.symm, ?_, ?_⟩
      · rw [hfield]
        exact Option.some_ne_none v
      · exact fun l _ _ _ hj hl => absurd hl (by omega)
    | none =>
      rw [hw, Option.none_or] at hfield
      rcases ih with ⟨heq, hunwritten⟩ | ⟨j, vm1, op1, vm2, hj, hexec1, hlast, hsome, hunwritten⟩
      · exact .inl ⟨hfield.trans heq, hnext hw 0 hunwritten⟩
      · exact .inr ⟨j, vm1, op1, vm2, Nat.lt_succ_of_lt hj, hexec1, hlast.trans hfield.symm,
          by rwa [hfield], hnext hw _ hunwritten⟩

theorem field_last_write_setThenLinked : ∃ vm,
    StateAt oneRef {} (3 :: setThenLinked.flatMap Op.encode) 3 vm [] ∧
    ((vm.slotField 0 0 = ({} : ReplayVM).slotField 0 0 ∧
        Unwritten oneRef {} (3 :: setThenLinked.flatMap Op.encode) 0 0 0 3) ∨
      ∃ j vm1 op vm2, j < 3 ∧ Executes oneRef {} (3 :: setThenLinked.flatMap Op.encode) j vm1 op vm2 ∧
        op.written vm1 0 0 = vm.slotField 0 0 ∧ vm.slotField 0 0 ≠ none ∧
        Unwritten oneRef {} (3 :: setThenLinked.flatMap Op.encode) 0 0 (j + 1) 3) := by
  have h3 := stateAt_setThenLinked 3 (by decide) _ [] rfl
  exact ⟨_, h3, field_last_write oneRef {} _ 3 _ [] h3 0 0⟩

end Runs

end Stratavm
