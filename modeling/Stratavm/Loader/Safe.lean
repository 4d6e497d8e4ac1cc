import Stratavm.Loader
import Stratavm.ReplayVm.Safe

/-!
# Loading is safe on every input

A container comes from anywhere. Its sections are decoded from windows of the file, and the machine starts
from a decoded heap or from nothing, so no byte string makes `load` index past the node table.

* **`load_safe`**: on every byte string, under all limits, `load` returns a container or an error status,
  or stops at a stale owner slot of the cached machine.

Out of scope: an allocation that fails. A file of 82 bytes can announce a group of `2 ^ 32 - 1` children,
and the `reserve` for them may throw.
-/

namespace Stratavm

open Lib

section Load

variable {slot : OwnerSlot}

theorem orStatus_safe {α : Type} (x : Except Status α) :
    Returns (orStatus x) (fun a => x = .ok a) (Fault.Safe slot) := by
  cases x with
  | error st => exact .error (.status st)
  | ok a => exact .ok rfl

/-- A section is absent, or decoded from its window. -/
theorem withSection_safe {α : Type} {V : α → Prop} {data : Bytes} {sections : SectionTable}
    {tag : SectionTag} {absent : α} {decode : Bytes → Except Fault α} (habsent : V absent)
    (h : ∀ r, Returns (decode r) V (Fault.Safe slot)) :
    Returns (withSection data sections tag absent decode) V (Fault.Safe slot) := by
  unfold withSection
  split
  · exact .ok habsent
  · exact (orStatus_safe _).bind fun r _ => h r

/-- The VM before the journal is `InTable`: it is empty, or seeded from a decoded heap. -/
theorem inTable_seed {growth : Growth} {schema : Schema} {atoms : AtomPool} {limits : Limits}
    {r r' : Bytes} {heap : HeapImage} (h : decodeHeap growth schema atoms limits r = .ok (heap, r')) :
    (ReplayVM.seed {} heap).InTable :=
  ⟨@indexInRange_seed { schema, atoms, growth } limits r r' heap h, fun _ hf => absurd hf List.not_mem_nil⟩

theorem inTable_empty : ({} : ReplayVM).InTable := by
  refine ⟨fun a i hi => ?_, fun _ hf => absurd hf List.not_mem_nil⟩
  rw [show ({} : ReplayVM).nameIndex = ∅ from rfl, Finmap.lookup_empty] at hi
  cases hi

theorem replayJournal_safe {options : LoadOptions} {data : Bytes} {env : Env} (sections : SectionTable)
    {seeded : ReplayVM} (h : seeded.InTable) :
    Returns (replayJournal options data env sections seeded) (fun p => p.1.InTable)
      (Fault.Safe env.ownerSlot) := by
  unfold replayJournal
  split
  · refine withSection_safe h fun r => (run_safe.finalState h r).bind fun vm hvm => .ok ?_
    exact hvm.choose_spec
  · exact .ok h

/-- **Loading is safe on every input**, under all limits: `load` never indexes past the node table, and
with the owner's slot looked up by its id it has no undefined behaviour at all. -/
theorem load_safe (growth : Growth) (ownerSlot : OwnerSlot) (options : LoadOptions) (data : Bytes) :
    (∃ lc, load growth ownerSlot options data = .ok lc ∧ lc.vm.InTable) ∨
      (∃ st, load growth ownerSlot options data = .error (.status st)) ∨
        load growth ownerSlot options data = .error .staleOwner ∧ ownerSlot = .cached := by
  have hload : Returns (load growth ownerSlot options data) (fun lc => lc.vm.InTable)
      (Fault.Safe ownerSlot) := by
    refine (orStatus_safe _).bind fun sections _ => ?_
    refine (withSection_safe (V := fun _ => True) trivial fun r => ?_).bind fun atoms _ => ?_
    · exact (orStatus_safe _).mono fun _ _ => trivial
    refine (withSection_safe (V := fun _ => True) trivial fun r => ?_).bind fun schema _ => ?_
    · exact (orStatus_safe _).mono fun _ _ => trivial
    refine (withSection_safe inTable_empty fun r => ?_).bind fun seeded hseeded => ?_
    · refine (orStatus_safe _).mono fun vm hvm => ?_
      obtain ⟨p, hp, rfl⟩ := exists_of_map_eq_ok hvm
      exact inTable_seed hp
    refine (replayJournal_safe sections hseeded).bind fun (vm, journalRan) hvm => ?_
    refine (withSection_safe (V := fun _ => True) trivial fun r => ?_).bind fun xrefWarnings _ => ?_
    · exact (orStatus_safe _).mono fun _ _ => trivial
    refine (withSection_safe (V := fun _ => True) trivial fun r => ?_).bind fun sectionMeta _ => ?_
    · exact (orStatus_safe _).mono fun _ _ => trivial
    exact .ok hvm
  cases hres : load growth ownerSlot options data with
  | ok lc => exact .inl ⟨lc, rfl, hload.1 lc hres⟩
  | error e =>
    cases hload.2 e hres with
    | status st => exact .inr (.inl ⟨st, rfl⟩)
    | staleOwner hslot => exact .inr (.inr ⟨rfl, hslot⟩)

end Load

end Stratavm
