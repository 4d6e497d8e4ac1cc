import Stratavm.ReplayVm.Reach

/-!
# A failed opcode leaves no trace

Every handler reads all its operands and passes all its checks before its first store
(`dispatch_guarded`), so a handler that returns an error has changed nothing (`dispatch_atomic`).
`END_GROUP` is the exception to the shape: it stores while it resolves the frame, but the only error it
returns comes before that (`resolveFrame_raises`).

A whole run is not atomic. `RunFailure` lists how it fails: at the count, at an opcode, or at the end with
a group still open; and which state each of them leaves. `ops_executed` is bumped by the loop alone, after
the handler (`Effect.opsExecuted`), so it is where the run has stopped.

* **`failure_atomic`**: every handler is atomic, and when `run` returns an error the state is the
  one after the opcodes before the failing one, which `ops_executed` has counted.

Out of scope: faults that are no error. A stale pointer has been written through by then (`Fault.Returned`).
-/

namespace Stratavm

open Lib

/-- An error that the machine returns, not undefined behaviour. -/
def Fault.Returned : Fault → Prop
  | .status _ => True
  | .staleOwner => False
  | .badIndex => False

section Handlers

variable {env : Env}

/-- Resolving a frame never returns an error. -/
theorem resolveFrame_raises {frame : GroupFrame} {children : List AtomId} :
    Machine.Raises (fun e => ¬ e.Returned) (resolveFrame env frame children) := by
  induction children with
  | nil => exact .pure ()
  | cons child children ih =>
    refine .bind ?_ fun _ => ih
    refine .bind (fun _ _ _ _ h => nomatch (Prod.mk.inj h).1) fun target => .bind_get fun vm => ?_
    split
    · exact .fail id
    · split
      · exact .set _
      · exact .fail id

theorem doEndGroup_atomic : Machine.Atomic Fault.Returned (doEndGroup env) := by
  refine .bind_get fun vm => ?_
  split
  · exact .fail _
  · exact .of_raises (.bind (.set _) fun _ => resolveFrame_raises)

/-- **Every opcode handler is atomic**: an error it returns leaves the machine as it was. -/
theorem dispatch_atomic (code : OpCode) : Machine.Atomic Fault.Returned (dispatch env code) := by
  by_cases hend : code = .endGroup
  · subst hend
    exact doEndGroup_atomic
  · exact (dispatch_guarded hend).atomic

/-- An iteration of the loop is atomic: it counts the opcode only once its handler is done. -/
theorem stepOp_atomic : Machine.Atomic Fault.Returned (stepOp env) := by
  refine .bind_read fun raw => ?_
  split
  · exact .fail _
  · rename_i op _
    intro vm r e vm' h he
    rcases hd : dispatch env op vm r with ⟨e' | p, vm1⟩
    · rw [Machine.bind_apply, hd] at h
      obtain ⟨hfst, rfl⟩ := Prod.mk.inj h
      obtain rfl := Except.error.inj hfst
      exact dispatch_atomic op _ _ _ _ hd he
    · rw [Machine.bind_apply, hd] at h
      exact nomatch (Prod.mk.inj h).1

end Handlers

/-! ## The counter -/

namespace ReplayVM

variable {env : Env} {vm vm' : ReplayVM}

theorem resolve_opsExecuted {frame : GroupFrame} {children : List AtomId}
    (h : resolve env frame children vm = some vm') :
    vm'.stats.opsExecuted = vm.stats.opsExecuted := by
  refine resolve_induction (P := fun mid => mid.stats.opsExecuted = vm.stats.opsExecuted) h rfl
    fun mid child slot _ _ hmid => ?_
  rcases target_eq env mid child with ⟨-, heq⟩ | ⟨-, heq⟩ <;> rw [heq] <;> exact hmid

/-- Only the loop counts opcodes. -/
theorem Effect.opsExecuted {op : Op} (h : Effect env vm op vm') :
    vm'.stats.opsExecuted = vm.stats.opsExecuted := by
  cases h with
  | endGroup hf hr => exact (resolve_opsExecuted hr).trans rfl
  | _ => rfl

end ReplayVM

section Runs

variable {env : Env} {vm vm' : ReplayVM} {journal r : Bytes} {k : Nat}

/-- After `k` opcodes the counter has gone up by `k`. -/
theorem StateAt.opsExecuted (h : StateAt env vm journal k vm' r) :
    vm'.stats.opsExecuted = vm.stats.opsExecuted + UInt32.ofNat k := by
  refine h.induction (P := fun k vm' =>
    vm'.stats.opsExecuted = vm.stats.opsExecuted + UInt32.ofNat k) (by simp) ?_
  intro k vm1 op vm2 hexec ih
  show vm2.stats.opsExecuted + 1 = _
  rw [hexec.effect.opsExecuted, ih, UInt32.add_assoc, UInt32.ofNat_add]
  rfl

/-- How `run` over `journal` fails with `st`, leaving `vm'`. -/
inductive RunFailure (env : Env) (vm : ReplayVM) (journal : Bytes) (st : Status)
    (vm' : ReplayVM) : Prop
  /-- Before the first opcode: there is no count, or it exceeds the limit. -/
  | header (hcount : ∀ count r, readVarintU32 journal = .ok (count, r) →
      env.limits.maxJournalOps < count) (hsame : vm' = vm)
  /-- At opcode number `k + 1`: truncated, unknown, or refused by its handler. -/
  | opcode {k : Nat} {r : Bytes} (hstate : StateAt env vm journal k vm' r)
      (hmore : ∀ count r, readVarintU32 journal = .ok (count, r) → k < count.toNat)
      (hstop : stepOp env vm' r = (.error (.status st), vm'))
      (hops : vm'.stats.opsExecuted = vm.stats.opsExecuted + UInt32.ofNat k)
  /-- After the last opcode, with a group still open. -/
  | openGroup {count : UInt32} {r r' : Bytes} (hcount : readVarintU32 journal = .ok (count, r))
      (hstate : StateAt env vm journal count.toNat vm' r') (hframes : vm'.frames ≠ [])
      (hops : vm'.stats.opsExecuted = vm.stats.opsExecuted + count)

/-- A loop that returns an error has executed the opcodes before the failing one. -/
theorem runOps_error {n : Nat} {st : Status} (h : runOps env n vm r = (.error (.status st), vm')) :
    ∃ k r1, k < n ∧ Machine.Ok (runOps env k) vm r () vm' r1 ∧
      stepOp env vm' r1 = (.error (.status st), vm') := by
  obtain ⟨k, vm1, r1, hk, hrun, hstop⟩ := runOps_stops h
  obtain rfl := stepOp_atomic _ _ _ _ hstop trivial
  exact ⟨k, r1, hk, hrun, hstop⟩

/-- A failed run stops in the state after the opcodes before the failing one. -/
theorem run_error {st : Status} (h : run env vm journal = (.error (.status st), vm')) :
    RunFailure env vm journal st vm' := by
  unfold run operand at h
  cases hcount : readVarintU32 journal with
  | error e =>
    rw [Machine.bind_read_of_error hcount] at h
    exact .header (fun _ _ hok => nomatch hcount.symm.trans hok) (Prod.mk.inj h).2.symm
  | ok p =>
    obtain ⟨count, r⟩ := p
    have hread : ∀ c r', readVarintU32 journal = .ok (c, r') → c = count ∧ r' = r := by
      intro c r' hok
      obtain ⟨rfl, rfl⟩ := Prod.mk.inj (Except.ok.inj (hcount.symm.trans hok))
      exact ⟨rfl, rfl⟩
    rw [Machine.bind_read_of_ok hcount] at h
    split at h
    · rename_i hlimit
      refine .header (fun c r' hok => ?_) (Prod.mk.inj h).2.symm
      rw [(hread c r' hok).1]
      exact hlimit
    rename_i hlimit
    have hle : count ≤ env.limits.maxJournalOps := UInt32.not_lt.mp hlimit
    rw [Machine.bind_apply] at h
    rcases hrun : runOps env count.toNat vm r with ⟨e | ⟨u, r1⟩, vm1⟩
    · rw [hrun] at h
      obtain ⟨hfst, rfl⟩ := Prod.mk.inj h
      obtain rfl := Except.error.inj hfst
      obtain ⟨k, r1, hk, hok, hstop⟩ := runOps_error hrun
      have hstate : StateAt env vm journal k vm1 r1 := ⟨count, r, hcount, hle, Nat.le_of_lt hk, hok⟩
      refine .opcode hstate (fun c r' hc => ?_) hstop hstate.opsExecuted
      rw [(hread c r' hc).1]
      exact hk
    · rw [hrun] at h
      have hstate : StateAt env vm journal count.toNat vm1 r1 :=
        ⟨count, r, hcount, hle, Nat.le_refl _, hrun⟩
      have hops := hstate.opsExecuted
      rw [UInt32.ofNat_toNat] at hops
      unfold closeRun at h
      simp only [Machine.bind_get_apply] at h
      split at h
      · rename_i hframes
        obtain ⟨-, rfl⟩ := Prod.mk.inj h
        exact .openGroup hcount hstate (by simpa using hframes) hops
      · exact nomatch (Prod.mk.inj h).1

/-- **Failing leaves no trace**: neither a handler that returns an error nor, past the opcodes it
has executed, a run that does. -/
theorem failure_atomic (env : Env) :
    (∀ code, Machine.Atomic Fault.Returned (dispatch env code)) ∧
      ∀ vm journal st vm', run env vm journal = (.error (.status st), vm') →
        RunFailure env vm journal st vm' :=
  ⟨dispatch_atomic, fun _ _ _ _ h => run_error h⟩

/-- A node is made, and a field of it set that its kind does not have. -/
def secondFails : List Op := [.newNode 0 0, .setField 0 7 (.int 0)]

theorem failure_atomic_secondFails :
    RunFailure oneOwner {} (2 :: secondFails.flatMap Op.encode)
      ⟨.fieldOutOfRange, "set_field field"⟩
      (({} : ReplayVM).createNode oneOwner 0 0).tick :=
  (failure_atomic oneOwner).2 _ _ _ _ rfl

end Runs

end Stratavm
