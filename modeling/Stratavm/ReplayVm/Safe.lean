import Stratavm.Lib.Triple
import Stratavm.ReplayVm.OwnerCache

/-!
# The machine never leaves its table

A journal drives stores into the node table by index. Every index that is used without a check was put
there by the machine itself: by the name index, by a group that was opened on an alive node, or by an
append (`InTable`). What can go wrong is the cached owner slot only.

The proof follows the handlers with triples (`Lib/Triple.lean`), one a handler, and no handler needs to
know of another more than that it keeps `InTable`.

* **`run_safe`**: the triple of the machine, from any state that is `InTable`: it returns in such a state,
  or stops with an error status or at a stale owner slot.

Out of scope: the memory a run takes. A `reserve` always succeeds here.
-/

namespace Stratavm

open Lib

/-- What a run may stop with: an error, or the stale pointer of the cached machine. -/
inductive Fault.Safe (slot : OwnerSlot) : Fault → Prop
  | status (st : Status) : Safe slot (.status st)
  | staleOwner (h : slot = .cached) : Safe slot .staleOwner

/-- What the machine indexes the table with lies in it. -/
structure ReplayVM.InTable (vm : ReplayVM) : Prop where
  index : vm.IndexInRange
  owners : ∀ f ∈ vm.frames, f.ownerId.toNat < vm.nodes.size

namespace ReplayVM

variable {env : Env} {vm vm' : ReplayVM}

/-- In a table that is no smaller, under the same names and frames. -/
theorem InTable.congr (h : vm.InTable) (hindex : vm'.nameIndex = vm.nameIndex)
    (hframes : vm'.frames = vm.frames) (hsize : vm.nodes.size ≤ vm'.nodes.size) : vm'.InTable := by
  refine ⟨fun a i hi => ?_, fun f hf => ?_⟩
  · rw [hindex] at hi
    exact Nat.lt_of_lt_of_le (h.index a i hi) hsize
  · rw [hframes] at hf
    exact Nat.lt_of_lt_of_le (h.owners f hf) hsize

theorem InTable.createNode (h : vm.InTable) (kind : KindId) (name : AtomId) :
    (vm.createNode env kind name).InTable := by
  refine ⟨fun a i hi => h.index.register (by simp) hi, fun f hf => ?_⟩
  have := h.owners f hf
  rw [size_createNode]
  omega

theorem InTable.drop (h : vm.InTable) (nodeId : NodeId) (node : Node) : (vm.drop nodeId node).InTable := by
  refine ⟨fun a i hi => ?_, fun f hf => by rw [size_drop]; exact h.owners f hf⟩
  rw [size_drop]
  simp only [ReplayVM.drop] at hi
  split at hi
  · by_cases ha : a = node.name
    · rw [ha, Finmap.lookup_erase] at hi
      cases hi
    · rw [Finmap.lookup_erase_ne ha] at hi
      exact h.index a i hi
  · exact h.index a i hi

theorem InTable.openGroup (h : vm.InTable) {name : AtomId} {hint : UInt32} {owner : Node}
    (ho : vm.foundNode? (vm.findNamed name) = some owner) :
    (vm.openGroup env (vm.findNamed name) name hint).InTable := by
  have hlt : (vm.findNamed name).toNat < vm.nodes.size := by
    unfold foundNode? at ho
    split at ho
    · cases ho
    · exact (List.getElem?_eq_some_iff.mp ho).1
  refine ⟨fun a i hi => by rw [size_openGroup]; exact h.index a i hi, fun f hf => ?_⟩
  rw [size_openGroup]
  rcases List.mem_cons.mp hf with rfl | hf
  · exact hlt
  · exact h.owners f hf

end ReplayVM

section Handlers

open ReplayVM

variable {env : Env}

/-- Reading an operand leaves the state, or returns an error. -/
theorem operand_safe {α β : Type} {slot : OwnerSlot} {P : ReplayVM → Prop} {Q : β → ReplayVM → Prop}
    {d : Reader α} {f : α → Exec β} (hf : ∀ a, Machine.Triple P (f a) Q (Fault.Safe slot)) :
    Machine.Triple P (operand d >>= f) Q (Fault.Safe slot) :=
  .bind_read (V := fun _ => True) (fun _ _ _ _ => trivial) .status fun a _ => hf a

/-- The precondition of `resolveFrame`: the frame is popped, and its owner still in the table. -/
def Popped (frame : GroupFrame) (vm : ReplayVM) : Prop :=
  vm.InTable ∧ frame.ownerId.toNat < vm.nodes.size

theorem linkChild_safe (frame : GroupFrame) (child : AtomId) :
    Machine.Triple (Popped frame) (linkChild env frame child) (fun _ => Popped frame)
      (Fault.Safe env.ownerSlot) := by
  refine .bind_modifyGet fun vm hvm => .bind_get fun vm1 h1 => ?_
  obtain rfl := h1
  obtain ⟨hin, howner⟩ := hvm
  obtain ⟨hindex, htarget⟩ := hin.index.target env child
  have hle := size_le_target env vm child
  have hin1 : (vm.target env child).2.InTable :=
    ⟨hindex, fun f hf => Nat.lt_of_lt_of_le (hin.owners f (by rwa [frames_target] at hf)) hle⟩
  cases hslot : (vm.target env child).2.ownerSlot env frame with
  | none =>
    refine .fail (.staleOwner ?_)
    unfold ReplayVM.ownerSlot at hslot
    split at hslot
    · assumption
    · rw [if_pos (by omega)] at hslot
      cases hslot
  | some slot =>
    refine .ite (fun _ => .set fun _ _ => ?_) fun hnot => absurd htarget hnot
    exact ⟨hin1.congr rfl rfl (by simp), by rw [size_attach]; omega⟩

theorem resolveFrame_safe (frame : GroupFrame) : ∀ children,
    Machine.Triple (Popped frame) (resolveFrame env frame children) (fun _ => Popped frame)
      (Fault.Safe env.ownerSlot)
  | [] => .pure fun _ h => h
  | child :: children =>
    (linkChild_safe frame child).bind fun _ => resolveFrame_safe frame children

/-- **Every handler is safe** in a state that is `InTable`, and leaves such a state. -/
theorem dispatch_safe (code : OpCode) :
    Machine.Triple ReplayVM.InTable (dispatch env code) (fun _ => ReplayVM.InTable)
      (Fault.Safe env.ownerSlot) := by
  have hfail : ∀ {α : Type} {P : ReplayVM → Prop} {Q : α → ReplayVM → Prop} {c d},
      Machine.Triple P (failWith c d) Q (Fault.Safe env.ownerSlot) := .fail (.status _)
  cases code with
  | newNode =>
    refine operand_safe fun kind => operand_safe fun name => .bind_get fun vm hvm => ?_
    refine .ite (fun _ => hfail) fun _ => .ite (fun _ => hfail) fun _ => .ite (fun _ => hfail) fun _ => ?_
    exact .set fun _ _ => hvm.createNode kind name
  | setField =>
    refine operand_safe fun id => operand_safe fun field => .bind_get fun vm hvm => ?_
    split
    · exact hfail
    refine .ite (fun _ => hfail) fun _ => operand_safe fun v => .ite (fun _ => hfail) fun _ => ?_
    exact .set fun _ _ => hvm.congr rfl rfl (by simp)
  | beginGroup =>
    refine operand_safe fun name => operand_safe fun hint => .bind_get fun vm hvm => .ite (fun _ => hfail) fun _ => ?_
    simp only
    split
    · exact hfail
    rename_i owner ho
    exact .ite (fun _ => hfail) fun _ => .set fun _ _ => hvm.openGroup ho
  | endGroup =>
    refine .bind_get fun vm hvm => ?_
    split
    · exact hfail
    rename_i frame frames hf
    refine .bind_set fun _ _ => (resolveFrame_safe frame _).mono ?_ (fun _ _ h => h.1) fun _ h => h
    rintro _ rfl
    have hmem : ∀ g ∈ frames, g ∈ vm.frames := fun g hg => hf ▸ List.mem_cons_of_mem _ hg
    exact ⟨⟨hvm.index, fun g hg => hvm.owners g (hmem g hg)⟩,
      hvm.owners frame (hf ▸ List.mem_cons_self)⟩
  | addChild =>
    refine operand_safe fun child => .bind_get fun vm hvm => ?_
    split
    · exact hfail
    rename_i frame frames hf
    refine .ite (fun _ => hfail) fun _ => .set fun _ _ => ⟨hvm.index, fun g hg => ?_⟩
    rcases List.mem_cons.mp hg with rfl | hg
    · exact hvm.owners frame (hf ▸ List.mem_cons_self)
    · exact hvm.owners g (hf ▸ List.mem_cons_of_mem _ hg)
  | linkRef =>
    refine operand_safe fun src => operand_safe fun field => operand_safe fun name => .bind_get fun vm hvm => ?_
    split
    · exact hfail
    refine .ite (fun _ => hfail) fun _ => .ite (fun _ => .set fun _ _ => ?_) fun _ => .set fun _ _ => ?_
    · exact hvm.congr rfl rfl (Nat.le_refl _)
    · exact hvm.congr rfl rfl (by simp)
  | dropNode =>
    refine operand_safe fun id => .bind_get fun vm hvm => ?_
    split
    · exact hfail
    · exact .ite (fun _ => .pure fun _ h => h ▸ hvm) fun _ => .set fun _ _ => hvm.drop _ _
  | snapshot =>
    refine operand_safe fun label => .bind_get fun vm hvm => .ite (fun _ => hfail) fun _ => ?_
    exact .set fun _ _ => hvm.congr rfl rfl (Nat.le_refl _)
  | setMeta =>
    refine operand_safe fun key => operand_safe fun value => .bind_get fun vm hvm => ?_
    refine .ite (fun _ => hfail) fun _ => .ite (fun _ => hfail) fun _ => ?_
    exact .set fun _ _ => hvm.congr rfl rfl (Nat.le_refl _)
  | nop => exact .pure fun _ h => h

theorem stepOp_safe : Machine.Triple ReplayVM.InTable (stepOp env) (fun _ => ReplayVM.InTable)
    (Fault.Safe env.ownerSlot) := by
  refine operand_safe fun raw => ?_
  split
  · exact .fail (.status _)
  · refine (dispatch_safe _).bind fun _ => .bind_get fun vm hvm => ?_
    exact .set fun _ _ => hvm.congr rfl rfl (Nat.le_refl _)

theorem runOps_safe : ∀ n, Machine.Triple ReplayVM.InTable (runOps env n) (fun _ => ReplayVM.InTable)
    (Fault.Safe env.ownerSlot)
  | 0 => .pure fun _ h => h
  | n + 1 => stepOp_safe.bind fun _ => runOps_safe n

/-- **The machine is safe.** -/
theorem run_safe : Machine.Triple ReplayVM.InTable (run env) (fun _ => ReplayVM.InTable)
    (Fault.Safe env.ownerSlot) := by
  refine operand_safe fun count => .ite (fun _ => .fail (.status _)) fun _ => ?_
  refine (runOps_safe _).bind fun _ => .bind_get fun vm hvm => ?_
  exact .ite (fun _ => .fail (.status _)) fun _ => .pure fun _ h => h ▸ hvm

end Handlers

end Stratavm
