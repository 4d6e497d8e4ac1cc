import Stratavm.Diff.Necessary

/-!
# A journal patch reproduces the after-state

A patch that fits is performed (`PatchFits.performed`), one that works fits (`patchFits_of_performed`);
here both are carried to the journals that are run.

* **`diffToJournal_reproduces_iff`**: `PatchFits` holds iff `diff_to_journal` succeeds, its journal runs on
  the before-state with the opcodes that were written, and its result differs in nothing from the
  after-state.
* **`patch_misnumbered`**: the patch of one new node with a field may not even run, because its id in the
  after-table is not the one it gets.

Out of scope: runs that read other opcodes than those written. A value on a wrong node is decoded by the
type of another field, and may take the bytes of the next opcode with it.
-/

namespace Stratavm

open Lib

section Runs

variable {env : Env} {S S' : ReplayVM}

/-- **A journal patch reproduces the after-state** iff `diff_to_journal` gets what it relies on. -/
theorem diffToJournal_reproduces_iff
    (hids : env.limits.maxNodes.toNat + 2 * env.limits.maxJournalOps.toNat < 2 ^ 32)
    {schemaBytes bytes rest rest' journal journal' r' : Bytes} {limits : Limits}
    (hschema : Schema.decode env.atoms limits schemaBytes = .ok (env.schema, rest'))
    {heap : HeapImage}
    (hheap : decodeHeap env.growth env.schema env.atoms env.limits bytes = .ok (heap, rest))
    (hS : Visits env (ReplayVM.seed {} heap) journal S)
    (hrun : Machine.Ok (run env) S journal' () S' r') (order : IterationOrder)
    (hkeep : (diffNodeGraphs order S.nodes.data S'.nodes.data).RemovesNothing) :
    PatchFits env order S S' ↔ ∃ patch R,
      diffToJournal (diffNodeGraphs order S.nodes.data S'.nodes.data) = .ok patch ∧
      Machine.Ok (run env) S patch () R [] ∧
      RunsOver env S patch (patchOps (diffNodeGraphs order S.nodes.data S'.nodes.data).changes) ∧
      ∀ order' : IterationOrder,
        ∀ nc ∈ (diffNodeGraphs order' R.nodes.data S'.nodes.data).changes,
          nc.change = .unchanged := by
  have hmax := env.limits.maxJournalOps.toNat_lt
  constructor
  · intro hfits
    have hlater := follows_of_run hids hheap hS hfits.closed hrun
    have hlength := patch_length_le hfits hlater
    have hlt := Nat.lt_of_le_of_lt hlength hmax
    obtain ⟨R, hperf, hmatched⟩ := hfits.performed hlater hkeep
    have hframes : R.frames = [] := (frames_of_patch hperf).trans hfits.closed
    exact ⟨_, R, diffToJournal_eq hlt, run_of_performs hperf hlength hframes,
      runsOver_of_performs hperf hlt, fun order' => unchanged_of_matched hmatched⟩
  · rintro ⟨patch, R, -, hok, hover, hunchanged⟩
    obtain ⟨hperf, hlength, hR⟩ := hover.performs hok
    have hframes : S.frames = [] := (frames_of_patch hperf).symm.trans hR
    have hlater := follows_of_run hids hheap hS hframes hrun
    have hroom := hlater.room
    refine patchFits_of_performed ⟨hlater, hkeep, hperf, by omega, fun name hname => ?_⟩
      (Schema.decode_typed hschema).kind_invalid hframes
    exact ReplayVM.matched_bodies (matched_of_unchanged (hunchanged order) hname)

end Runs

/-! ## A child that the index has lost -/

/-- One kind with an integer, two atoms. -/
def oneInt : Env where
  schema := { kinds := [{ name := 0, fields := [{ name := 0, type := .int }] }] }
  atoms := { atoms := [[0x61], [0x62]] }

/-- The field of a node that has one. -/
theorem field_setField_zero (n : Node) (hn : n.fields = ∅) (v : Value) (f : FieldId) :
    (n.setField 0 v).field f = if f = 0 then some v else none := by
  rw [Node.field_setField, Node.field, hn, Finmap.lookup_empty]

/-- Nodes without fields and children have none to lose. -/
theorem removesNothing_of_bare {before after : List Node} (order : IterationOrder)
    (hbare : ∀ n ∈ before, n.fields = ∅ ∧ n.children = []) :
    (diffNodeGraphs order before after).RemovesNothing := by
  intro nc hnc
  cases changeOf_of_mem hnc with
  | added =>
    refine ⟨rfl, fun fc hfc _ => ?_⟩
    obtain ⟨entry, -, rfl⟩ := List.mem_map.mp hfc
    rfl
  | @compared _ b _ _ _ _ hb _ =>
    obtain ⟨hfields, hchildren⟩ := hbare b (mem_namesakes.mp (hb ▸ List.mem_cons_self)).1
    have hnone : ∀ f, b.field f = none := fun f => by
      rw [Node.field, hfields]
      exact Finmap.lookup_empty f
    constructor
    · refine List.eq_nil_iff_forall_not_mem.mpr fun c hc => ?_
      have hmem := (mem_childrenRemoved.mp hc).1
      rw [hchildren] at hmem
      cases hmem
    · intro fc hfc _
      rcases mem_fieldDifferences.mp hfc with
        ⟨f, v, -, ⟨-, rfl⟩ | ⟨w, hw, -, -⟩⟩ | ⟨f, w, hw, -, -⟩
      · rfl
      · rw [hnone] at hw
        cases hw
      · rw [hnone] at hw
        cases hw
  | removed => exact ⟨rfl, fun _ hfc => absurd hfc List.not_mem_nil⟩

/-- Two nodes of name 0, the second of which is dropped, and one of name 1. -/
def secondDropped : List Op := [.newNode 0 0, .newNode 0 0, .dropNode 1, .newNode 0 1]

/-- The node of name 1 gets a field, and a child by a name that the index has lost. -/
def adoptsLost : List Op := [.setField 2 0 (.int 7), .beginGroup 1 1, .addChild 0, .endGroup]

/-- The first node of name 0. -/
def keptNode : Node := { id := 0, kind := 0, name := 0 }

/-- The table before: the node of name 1 is bare. -/
def tableBefore : List Node :=
  [keptNode, { id := 1, kind := 0, name := 0, alive := false, generation := 1 },
    { id := 2, kind := 0, name := 1 }]

/-- The node of name 1 after. -/
def adopter : Node := ({ id := 2, kind := 0, name := 1, children := [3] } : Node).setField 0 (.int 7)

/-- The table after: there is a placeholder of name 0. -/
def tableAfter : List Node :=
  [keptNode, { id := 1, kind := 0, name := 0, alive := false, generation := 1 }, adopter,
    { id := 3, kind := kInvalidKind, name := 0, placeholder := true, refs := [2] }]

theorem runs_adoptsLost : ∃ S S',
    Machine.Ok (run oneInt) (ReplayVM.seed {} ⟨Vec.empty⟩) (journalOf secondDropped) () S [] ∧
    Machine.Ok (run oneInt) S (journalOf adoptsLost) () S' [] ∧ S.nodes.data = tableBefore ∧
    S'.nodes.data = tableAfter ∧ S.findNamed 0 = kInvalidNode ∧ S.findNamed 1 = 2 ∧ S.frames = [] :=
  ⟨_, _, Machine.ok_of_fst rfl, Machine.ok_of_fst rfl, rfl, rfl, rfl, rfl, rfl⟩

theorem byName_tableBefore {name : AtomId} {n : Node}
    (h : (byName tableBefore).lookup name = some n) :
    name = 0 ∧ n = keptNode ∨ name = 1 ∧ n = { id := 2, kind := 0, name := 1 } := by
  obtain ⟨hmem, halive, rfl⟩ := mem_namesakes.mp (namesake_of_byName h)
  simp only [tableBefore, List.mem_cons, List.not_mem_nil, or_false] at hmem
  rcases hmem with rfl | rfl | rfl
  · exact .inl ⟨rfl, rfl⟩
  · cases halive
  · exact .inr ⟨rfl, rfl⟩

theorem byName_tableAfter {name : AtomId} {n : Node}
    (h : (byName tableAfter).lookup name = some n) :
    name = 0 ∧ n = keptNode ∨ name = 1 ∧ n = adopter := by
  obtain ⟨-, ns, hns⟩ := cons_of_byName h
  obtain ⟨hmem, halive, rfl⟩ := mem_namesakes.mp (hns ▸ List.mem_cons_self (a := n))
  simp only [tableAfter, List.mem_cons, List.not_mem_nil, or_false] at hmem
  rcases hmem with rfl | rfl | rfl | rfl
  · exact .inl ⟨rfl, rfl⟩
  · cases halive
  · exact .inr ⟨rfl, rfl⟩
  · -- the placeholder is behind the first node of its name
    obtain ⟨hfirst, -⟩ := List.cons.inj hns
    exact absurd (congrArg Node.id hfirst) (by decide)

theorem patchFits_adoptsLost {order : IterationOrder} {S S' : ReplayVM}
    (hbefore : S.nodes.data = tableBefore) (hafter : S'.nodes.data = tableAfter)
    (hfound : S.findNamed 1 = 2) (hframes : S.frames = []) : PatchFits oneInt order S S' := by
  have hold : ∀ name a, (byName tableAfter).lookup name = some a →
      (byName tableBefore).lookup name ≠ none := by
    intro name a ha
    rcases byName_tableAfter ha with ⟨rfl, -⟩ | ⟨rfl, -⟩
    · rw [byName_lookup_of_cons (n := keptNode) (by decide) rfl]
      exact nofun
    · rw [byName_lookup_of_cons (n := { id := 2, kind := 0, name := 1 }) (by decide) rfl]
      exact nofun
  have hkept : ∀ name b, (byName tableBefore).lookup name = some b →
      (byName tableAfter).lookup name ≠ none := by
    intro name b hb
    rcases byName_tableBefore hb with ⟨rfl, -⟩ | ⟨rfl, -⟩
    · rw [byName_lookup_of_cons (n := keptNode) (by decide) rfl]
      exact nofun
    · rw [byName_lookup_of_cons (n := adopter) (by decide) rfl]
      exact nofun
  refine ⟨hframes, fun visited name a rest hentries => ?_, fun name b hb ha => ?_⟩
  · have ha : (byName tableAfter).lookup name = some a :=
      hafter ▸ (order.mem_iff ..).mp (hentries ▸ List.mem_append_right _ List.mem_cons_self)
    have hnot : (byName S.nodes.data).lookup name ≠ none := hbefore ▸ hold name a ha
    have hsame : ∀ b, (byName S.nodes.data).lookup name = some b → b.kind = a.kind ∧ a.id = b.id := by
      intro b hb
      rw [hbefore] at hb
      rcases byName_tableAfter ha with ⟨rfl, rfl⟩ | ⟨rfl, rfl⟩
      · rcases byName_tableBefore hb with ⟨-, rfl⟩ | ⟨hname, -⟩
        · exact ⟨rfl, rfl⟩
        · cases hname
      · rcases byName_tableBefore hb with ⟨hname, -⟩ | ⟨-, rfl⟩
        · cases hname
        · exact ⟨rfl, rfl⟩
    refine ⟨⟨?_, fun h => absurd h hnot, fun h => absurd h hnot, fun h => absurd h hnot,
      fun b hb => (hsame b hb).1, fun b hb => .inl (hsame b hb).2, fun b hb => ?_⟩, fun c hc => ?_⟩
    · rcases byName_tableAfter ha with ⟨-, rfl⟩ | ⟨-, rfl⟩
      · intro f v hv
        rw [Node.field, show keptNode.fields = ∅ from rfl, Finmap.lookup_empty] at hv
        cases hv
      · intro f v hv
        rw [adopter, field_setField_zero _ rfl] at hv
        split at hv
        · obtain rfl := Option.some.inj hv
          rfl
        · cases hv
    · rcases byName_tableAfter ha with ⟨rfl, rfl⟩ | ⟨rfl, rfl⟩
      · right
        rw [gainedNames, show keptNode.children = [] from rfl]
        rfl
      · left
        rw [hfound, ← (hsame b hb).2]
        rfl
    · -- the only child there is has the name 0
      have hchild := (mem_gainedNames.mp hc).1
      rw [hafter] at hchild
      have hzero : c = 0 := by
        rcases byName_tableAfter ha with ⟨-, rfl⟩ | ⟨-, rfl⟩
        · cases hchild
        · exact List.mem_singleton.mp hchild
      rw [hzero, hbefore, hafter]
      refine .inr (.inr ⟨?_, ?_⟩)
      · rw [byName_lookup_of_cons (n := keptNode) (by decide) rfl]
        exact nofun
      · rw [byName_lookup_of_cons (n := keptNode) (by decide) rfl]
        exact nofun
  · rw [hbefore] at hb
    rw [hafter] at ha
    exact absurd ha (hkept name b hb)

/-- The placeholder for the child is made again, behind the node that has its name. -/
theorem diffToJournal_reproduces_adoptsLost : ∃ (order : IterationOrder) (S S' R : ReplayVM)
    (patch : Bytes), S.findNamed 0 = kInvalidNode ∧
      Machine.Ok (run oneInt) (ReplayVM.seed {} ⟨Vec.empty⟩) (journalOf secondDropped) () S [] ∧
      Machine.Ok (run oneInt) S (journalOf adoptsLost) () S' [] ∧
      diffToJournal (diffNodeGraphs order S.nodes.data S'.nodes.data) = .ok patch ∧
      Machine.Ok (run oneInt) S patch () R [] ∧
      RunsOver oneInt S patch (patchOps (diffNodeGraphs order S.nodes.data S'.nodes.data).changes) ∧
      ∀ order' : IterationOrder, ∀ nc ∈ (diffNodeGraphs order' R.nodes.data S'.nodes.data).changes,
        nc.change = .unchanged := by
  obtain ⟨S, S', hS, hS', hbefore, hafter, hlost, hfound, hframes⟩ := runs_adoptsLost
  obtain ⟨order⟩ := exists_iterationOrder
  have hvisits : Visits oneInt (ReplayVM.seed {} ⟨Vec.empty⟩) (journalOf secondDropped) S := by
    obtain ⟨count, r, hcount, hle, hok, -⟩ := run_ok_iff_runOps.mp hS
    exact ⟨count, r, count.toNat, [], hcount, hle, Nat.le_refl _, hok⟩
  have hbare : ∀ n ∈ S.nodes.data, n.fields = ∅ ∧ n.children = [] := by
    rw [hbefore]
    simp [tableBefore, keptNode]
  have hheap : decodeHeap oneInt.growth oneInt.schema oneInt.atoms oneInt.limits [0] =
      .ok (⟨Vec.empty⟩, []) := rfl
  have hschema : Schema.decode oneInt.atoms oneInt.limits [1, 0, 1, 0, 0, 0] =
      .ok (oneInt.schema, []) := rfl
  obtain ⟨patch, R, hpatch, hrun, hover, hunchanged⟩ :=
    (diffToJournal_reproduces_iff (by decide) hschema hheap hvisits hS' order
      (removesNothing_of_bare order hbare)).mp (patchFits_adoptsLost hbefore hafter hfound hframes)
  exact ⟨order, S, S', R, patch, hlost, hS, hS', hpatch, hrun, hover, hunchanged⟩

/-! ## An id that is off -/

/-- A node without a name, and one with a name and a field. -/
def anonymousFirst : List Op := [.newNode 0 kInvalidAtom, .newNode 0 0, .setField 1 0 (.int 7)]

section OneNew

variable (order : IterationOrder) {nodes : List Node} {n : Node} {v : Value}
  (hn : ∀ a, (byName nodes).lookup a = if a = 0 then some n else none)
  (hfields : ∀ f, n.field f = if f = 0 then some v else none) (hchildren : n.children = [])

include hn hfields hchildren

/-- The change of a table that has one name, and nothing before it. -/
theorem changes_oneNew : (diffNodeGraphs order [] nodes).changes =
    [{ change := .added, afterId := n.id, name := 0, kind := n.kind,
       fieldChanges := [⟨0, .invalid, v⟩] }] := by
  have hnone : order.entries .beforeByName (byName []) = [] := entries_empty rfl
  rw [changes_diffNodeGraphs, entries_singleton hn, hnone]
  have hadded : addedChange order nodes 0 n =
      { change := .added, afterId := n.id, name := 0, kind := n.kind,
        fieldChanges := [⟨0, .invalid, v⟩] } := by
    unfold addedChange
    rw [entries_singleton hfields, hchildren]
    rfl
  exact congrArg (fun nc => [nc]) hadded

end OneNew

/-- The first alive node of the only name of a table. -/
theorem byName_oneName (nodes : List Node) (n : Node) (hn : namesakes nodes 0 = [n])
    (hothers : ∀ m ∈ nodes, m.name = 0 ∨ m.name = kInvalidAtom) (a : AtomId) :
    (byName nodes).lookup a = if a = 0 then some n else none := by
  rw [byName_lookup]
  by_cases h0 : a = 0
  · rw [h0, hn]
    rfl
  · rw [if_neg h0]
    by_cases ha : a = kInvalidAtom
    · exact if_pos ha
    · rw [if_neg ha, List.head?_eq_none_iff]
      refine List.eq_nil_iff_forall_not_mem.mpr fun m hm => ?_
      obtain ⟨hmem, -, rfl⟩ := mem_namesakes.mp hm
      exact (hothers m hmem).elim h0 ha

theorem patch_misnumbered : ∃ heap S', decodeHeap oneInt.growth oneInt.schema oneInt.atoms
      oneInt.limits [0] = .ok (heap, []) ∧
    Visits oneInt (ReplayVM.seed {} heap) [0] (ReplayVM.seed {} heap) ∧
    Machine.Ok (run oneInt) (ReplayVM.seed {} heap) (3 :: anonymousFirst.flatMap Op.encode) () S' [] ∧
    Nonempty IterationOrder ∧ ∀ order : IterationOrder,
      (diffNodeGraphs order (ReplayVM.seed {} heap).nodes.data S'.nodes.data).RemovesNothing ∧
      ∃ patch, diffToJournal (diffNodeGraphs order (ReplayVM.seed {} heap).nodes.data
          S'.nodes.data) = .ok patch ∧
        ∀ R r, ¬ Machine.Ok (run oneInt) (ReplayVM.seed {} heap) patch () R r := by
  let S : ReplayVM := ReplayVM.seed {} ⟨Vec.empty⟩
  let S' := (run oneInt S (3 :: anonymousFirst.flatMap Op.encode)).2
  have hvisits : Visits oneInt S [0] S :=
    ⟨0, [], 0, [], rfl, by decide, Nat.le_refl 0, Machine.pure_ok.mpr ⟨rfl, rfl, rfl⟩⟩
  refine ⟨⟨Vec.empty⟩, S', rfl, hvisits, Machine.ok_of_fst rfl, exists_iterationOrder,
    fun order => ?_⟩
  let n : Node := ({ id := 1, kind := 0, name := 0 } : Node).setField 0 (.int 7)
  have hnodes : S'.nodes.data = [{ id := 0, kind := 0, name := kInvalidAtom }, n] := rfl
  have hn := byName_oneName S'.nodes.data n rfl (by rw [hnodes]; decide)
  have hfields := field_setField_zero { id := 1, kind := 0, name := 0 } rfl (.int 7)
  have hchanges := changes_oneNew order hn hfields rfl
  have hlength : (patchOps (diffNodeGraphs order [] S'.nodes.data).changes).length < 2 ^ 32 := by
    rw [hchanges]
    decide
  have hpatch := diffToJournal_eq hlength
  rw [hchanges] at hpatch
  refine ⟨removesNothing_of_bare order (fun n hn => by cases hn), _, hpatch, fun R r hrun => ?_⟩
  -- the second opcode sets a field of node 1, and there is only node 0
  have hfail : (run oneInt S (journalOf [.newNode 0 0, .setField 1 0 (.int 7)])).1.isOk = false := rfl
  have hok := congrArg Prod.fst hrun
  rw [show (run oneInt S (journalOf [.newNode 0 0, .setField 1 0 (.int 7)])).1 = _ from hok] at hfail
  cases hfail

end Stratavm
