import Stratavm.Lib.Triple
import Stratavm.Loader

/-!
# The steps of `load`

`load` is one long function that stops at the first step that fails. Whoever proves something of what
it returns wants the steps apart: which decoder read which window, what the journal was replayed on,
and what the validator was asked.

* **`loadSections_ok_iff`**: it returns a container iff each of its steps returned a part of it, one
  conjunct a step, in the order of the source.
* `replayJournal_ok_iff`: the step of the journal, run from the seeded machine.

The steps that a file skips, because it has no such section or the options say so, are part of the
conjuncts: a missing section leaves the part as it was constructed.
-/

namespace Stratavm

open Lib Lib.Decoder

theorem orStatus_eq_ok {α : Type} {x : Except Status α} {a : α} : orStatus x = .ok a ↔ x = .ok a := by
  cases x with
  | error st => exact ⟨nofun, nofun⟩
  | ok a' => exact ⟨fun h => Except.ok.inj h ▸ rfl, fun h => Except.ok.inj h ▸ rfl⟩

section Steps

variable {growth : Growth} {ownerSlot : OwnerSlot} {options : LoadOptions} {data r : Bytes}
  {table : SectionTable} {lc : LoadedContainer}

/-- With a directory, what is left to do. -/
theorem load_of_decode (h : SectionTable.decode data.length options.limits {} data = (.ok ((), r), table)) :
    load growth ownerSlot options data = loadSections growth ownerSlot options data table := by
  simp only [load, Machine.finalState_eq_ok.mpr ⟨(), r, h⟩]
  rfl

/-- What loads has a directory. -/
theorem decode_of_load (h : load growth ownerSlot options data = .ok lc) : ∃ r table,
    SectionTable.decode data.length options.limits {} data = (.ok ((), r), table) ∧
      loadSections growth ownerSlot options data table = .ok lc := by
  obtain ⟨table, hdirectory, hsections⟩ := bind_eq_ok_iff.mp h
  obtain ⟨_, r, hdecode⟩ := Machine.finalState_eq_ok.mp (orStatus_eq_ok.mp hdirectory)
  exact ⟨r, table, hdecode, hsections⟩

/-- **The steps after the directory**, one by one. -/
theorem loadSections_ok_iff : loadSections growth ownerSlot options data table = .ok lc ↔
    ∃ atoms schema seeded vm journalRan xrefWarnings sectionMeta,
      withSection data table .atom {} (fun r =>
        orStatus (Machine.finalState (AtomPool.decode options.limits) {} r)) = .ok atoms ∧
      withSection data table .schema {} (fun r =>
        orStatus ((Schema.decode atoms options.limits r).map Prod.fst)) = .ok schema ∧
      withSection data table .heap ({} : ReplayVM) (fun r =>
        orStatus ((decodeHeap growth schema atoms options.limits r).map fun heap =>
          ReplayVM.seed {} heap.1)) = .ok seeded ∧
      replayJournal options data { schema, atoms, limits := options.limits, growth, ownerSlot } table
        seeded = .ok (vm, journalRan) ∧
      withSection data table .xref 0 (fun r => orStatus
        (((XrefIndex.build vm.nodes.data).decodeAndReconcile atoms options.limits vm.nodes.size r).map
          Prod.fst)) = .ok xrefWarnings ∧
      withSection data table .metadata ∅ (fun r =>
        orStatus (Machine.finalState (decodeMetaSection atoms options.limits) ∅ r)) = .ok sectionMeta ∧
      lc =
        { limits := options.limits, atoms, schema, sections := table, vm
          xref := XrefIndex.build vm.nodes.data
          report := validateGraph vm.nodes.data atoms options.strictValidation schema
          sectionMeta, xrefWarnings, journalRan } := by
  rw [loadSections]
  simp only [bind_eq_ok_iff]
  constructor
  · rintro ⟨atoms, ha, schema, hs, seeded, hh, ⟨vm, journalRan⟩, hj, w, hx, m, hm, hlc⟩
    exact ⟨atoms, schema, seeded, vm, journalRan, w, m, ha, hs, hh, hj, hx, hm, (Except.ok.inj hlc).symm⟩
  · rintro ⟨atoms, schema, seeded, vm, journalRan, w, m, ha, hs, hh, hj, hx, hm, rfl⟩
    exact ⟨atoms, ha, schema, hs, seeded, hh, (vm, journalRan), hj, w, hx, m, hm, rfl⟩

/-- The step of a journal section that is there. -/
theorem replayJournal_ok_iff {env : Env} {seeded vm : ReplayVM} {journalRan : Bool} {journal : Bytes}
    (hrun : options.runJournal = true)
    (hsection : ∀ (absent : ReplayVM × Bool) decode,
      withSection data table .journal absent decode = decode journal) :
    replayJournal options data env table seeded = .ok (vm, journalRan) ↔
      journalRan = true ∧ ∃ r, Machine.Ok (run env) seeded journal () vm r := by
  rw [replayJournal, if_pos hrun, hsection, bind_eq_ok_iff]
  constructor
  · rintro ⟨vm', hfin, hpure⟩
    obtain ⟨rfl, rfl⟩ := Prod.mk.inj (Except.ok.inj hpure)
    obtain ⟨_, r, hok⟩ := Machine.finalState_eq_ok.mp hfin
    exact ⟨rfl, r, hok⟩
  · rintro ⟨rfl, r, hok⟩
    exact ⟨vm, Machine.finalState_eq_ok.mpr ⟨(), r, hok⟩, rfl⟩

end Steps

end Stratavm
