import Stratavm.ReplayVm.Fields
import Stratavm.Validator

/-!
# What strict validation says about references

The validator reads a node's `refs`, not its fields. So a strict report without issues vouches for
the ids that the machine recorded (`refs_alive_of_ok`) and for no others: ids decoded with the heap
are never recorded, those of a `SET_FIELD` only if they are in the table by then, and a `LINK_REF`
whose target is not found leaves nothing to report.

* **`strict_sound_iff`**: a strictly validated graph has no dangling reference in its fields, and no
  `LINK_REF` of the run was left unresolved, iff every `LINK_REF` found its target when it was
  executed and what alive nodes hold `Unrecorded` is the id of an alive node.
* `unresolved_link_passes`: a `LINK_REF` to a name that nothing has.
-/

namespace Stratavm

open Lib

/-! ## The issues of a report -/

section Issues

variable (nodes : List Node) (atoms : AtomPool) (strict : Bool)

/-- What `checkField` reports. -/
def fieldIssues (n : Node) (field : FieldDef × Nat) : List ValidationIssue :=
  if field.1.isRequired ∧ n.field (UInt32.ofNat field.2) = none then
    [{ code := .invariantViolation, node := n.id, detail := "missing required field "
       text := atoms.textOr field.1.name "?".toUTF8.toList }]
  else []

/-- What `checkRef` reports in strict mode. -/
def refIssues (n : Node) (t : NodeId) : List ValidationIssue :=
  if outOfRange nodes t then
    [{ code := .unresolvedRef, node := n.id, detail := "ref out of range" }]
  else if (nodes[t.toNat]?.map Node.alive).getD true = false then
    [{ code := .unresolvedRef, node := n.id, detail := "ref to dropped node" }]
  else []

/-- What `checkChild` reports in strict mode. -/
def childIssues (n : Node) (c : NodeId) : List ValidationIssue :=
  if outOfRange nodes c then
    [{ code := .unresolvedRef, node := n.id, detail := "child out of range" }]
  else []

/-- Issues that only strict mode reports. -/
def onlyStrict (issues : List ValidationIssue) : List ValidationIssue :=
  if strict then issues else []

/-- What `checkNode` reports. -/
def nodeIssues (schema : Schema) (n : Node) : List ValidationIssue :=
  if n.placeholder then
    onlyStrict strict [{ code := .unresolvedRef, node := n.id, detail := "unfilled placeholder" }]
  else if n.alive = false then []
  else
    match schema.kind n.kind with
    | none => [{ code := .kindOutOfRange, node := n.id, detail := "live node with bad kind" }]
    | some kind =>
      kind.fields.zipIdx.flatMap (fieldIssues atoms n) ++
        n.refs.flatMap (fun t => onlyStrict strict (refIssues nodes n t)) ++
        n.children.flatMap (fun c => onlyStrict strict (childIssues nodes n c))

variable {nodes atoms strict} {rep : ValidationReport} {n : Node}

theorem ValidationReport.issues_addIssueIf {issue : ValidationIssue} :
    (rep.addIssueIf strict issue).issues = rep.issues ++ onlyStrict strict [issue] := by
  cases strict with
  | false => simp [ValidationReport.addIssueIf, onlyStrict]
  | true => rfl

/-- A loop whose body appends to the issues. -/
theorem issues_foldl {α : Type} {f : ValidationReport → α → ValidationReport}
    {g : α → List ValidationIssue} (h : ∀ rep x, (f rep x).issues = rep.issues ++ g x)
    (xs : List α) (rep : ValidationReport) :
    (xs.foldl f rep).issues = rep.issues ++ xs.flatMap g := by
  induction xs generalizing rep with
  | nil => simp
  | cons x xs ih => rw [List.foldl_cons, ih, h, List.flatMap_cons, List.append_assoc]

theorem issues_checkField (rep : ValidationReport) (field : FieldDef × Nat) :
    (checkField atoms n rep field).issues = rep.issues ++ fieldIssues atoms n field := by
  unfold checkField fieldIssues
  split
  · rfl
  · rw [List.append_nil]

theorem issues_checkRef (rep : ValidationReport) (t : NodeId) :
    (checkRef nodes strict n rep t).issues =
      rep.issues ++ onlyStrict strict (refIssues nodes n t) := by
  unfold checkRef refIssues
  split
  · exact ValidationReport.issues_addIssueIf
  split
  · exact ValidationReport.issues_addIssueIf
  · cases strict <;> exact (List.append_nil _).symm

theorem issues_checkChild (rep : ValidationReport) (c : NodeId) :
    (checkChild nodes strict n rep c).issues =
      rep.issues ++ onlyStrict strict (childIssues nodes n c) := by
  unfold checkChild childIssues
  split
  · exact ValidationReport.issues_addIssueIf
  · cases strict <;> exact (List.append_nil _).symm

theorem issues_checkNode {schema : Schema} (rep : ValidationReport) (n : Node) :
    (checkNode nodes atoms strict schema rep n).issues =
      rep.issues ++ nodeIssues nodes atoms strict schema n := by
  unfold checkNode nodeIssues
  split
  · exact ValidationReport.issues_addIssueIf
  split
  · rw [List.append_nil]
  cases schema.kind n.kind with
  | none => rfl
  | some kind =>
    simp only
    rw [issues_foldl issues_checkChild, issues_foldl issues_checkRef,
      issues_foldl issues_checkField]
    simp only [List.append_assoc]

/-- **The issues of a report**, node by node. -/
theorem issues_validateGraph {schema : Schema} :
    (validateGraph nodes atoms strict schema).issues =
      nodes.flatMap (nodeIssues nodes atoms strict schema) := by
  unfold validateGraph
  rw [issues_foldl issues_checkNode]
  rfl

/-- What a strict report without issues vouches for: the recorded references of alive nodes. -/
theorem refs_alive_of_ok {schema : Schema} (hok : (validateGraph nodes atoms true schema).ok = true)
    {n : Node} (hn : n ∈ nodes) (ha : n.alive = true) {t : NodeId} (ht : t ∈ n.refs) :
    ∃ m : Node, nodes[t.toNat]? = some m ∧ m.alive = true := by
  rw [ValidationReport.ok, List.isEmpty_iff, issues_validateGraph, List.flatMap_eq_nil_iff] at hok
  have hnode := hok n hn
  unfold nodeIssues at hnode
  split at hnode
  · exact absurd hnode (List.cons_ne_nil _ _)
  rw [if_neg (by simp [ha])] at hnode
  cases hk : schema.kind n.kind with
  | none =>
    rw [hk] at hnode
    exact absurd hnode (List.cons_ne_nil _ _)
  | some kind =>
    rw [hk] at hnode
    simp only [List.append_eq_nil_iff, List.flatMap_eq_nil_iff] at hnode
    have href := hnode.1.2 t ht
    simp only [onlyStrict, if_true, refIssues] at href
    split at href
    · exact absurd href (List.cons_ne_nil _ _)
    rename_i hrange
    split at href
    · exact absurd href (List.cons_ne_nil _ _)
    rename_i hdead
    rw [outOfRange, decide_eq_true_eq, UInt32.not_le, UInt32.lt_iff_toNat_lt,
      UInt32.toNat_ofNat'] at hrange
    have hlt : t.toNat < nodes.length := Nat.lt_of_lt_of_le hrange (Nat.mod_le _ _)
    refine ⟨_, List.getElem?_eq_getElem hlt, ?_⟩
    simpa [List.getElem?_eq_getElem hlt] using hdead

end Issues

/-! ## Runs -/

/-- The id of an alive node in the table. -/
def ReplayVM.AliveAt (vm : ReplayVM) (t : NodeId) : Prop :=
  ∃ n, vm.node? t = some n ∧ n.alive = true

/-- Every `LINK_REF` of the run finds its target when it is executed. -/
def LinksResolve (env : Env) (vm0 : ReplayVM) (journal : Bytes) : Prop :=
  ∀ k vm src field target vm', Executes env vm0 journal k vm (.linkRef src field target) vm' →
    vm.findNamed target ≠ kInvalidNode

/-- The fields of alive nodes hold the ids of alive nodes. -/
def ReplayVM.HoldsAlive (vm : ReplayVM) : Prop :=
  ∀ n ∈ vm.nodes.data, n.alive = true → ∀ f v, n.field f = some v → ∀ t ∈ v.nodeIds, vm.AliveAt t

/-- After `k` opcodes, field `f` of the node in slot `i` still holds the id `t` from the heap, or
from a `SET_FIELD` that was executed before the table had a node with it. -/
inductive Unrecorded (env : Env) (heap : HeapImage) (journal : Bytes) :
    Nat → Nat → FieldId → NodeId → Prop
  | heap {i f t n v} (hn : heap.nodes.data[i]? = some n) (hv : n.field f = some v)
      (ht : t ∈ v.nodeIds) : Unrecorded env heap journal 0 i f t
  | forward {k vm vm' node f v t}
      (hexec : Executes env (ReplayVM.seed {} heap) journal k vm (.setField node f v) vm')
      (ht : t ∈ v.nodeIds) (hsize : vm.nodes.size ≤ t.toNat) :
      Unrecorded env heap journal (k + 1) node.toNat f t
  | kept {k vm op vm' i f t} (hexec : Executes env (ReplayVM.seed {} heap) journal k vm op vm')
      (hop : op.written vm i f = none) (h : Unrecorded env heap journal k i f t) :
      Unrecorded env heap journal (k + 1) i f t

section Runs

variable {env : Env} {heap : HeapImage} {journal r : Bytes} {k : Nat} {vm : ReplayVM}

/-- Where a `SET_FIELD` writes. -/
theorem written_setField {vm : ReplayVM} {node : NodeId} {field f : FieldId} {v w : Value} {i : Nat}
    (h : (Op.setField node field v).written vm i f = some w) :
    node.toNat = i ∧ field = f ∧ v = w := by
  simp only [Op.written] at h
  split at h
  · rename_i hc
    exact ⟨hc.1, hc.2, Option.some.inj h⟩
  · cases h

/-- **An id that a field holds is recorded, or one of the unrecorded.** -/
theorem recorded_or_unrecorded (h : StateAt env (ReplayVM.seed {} heap) journal k vm r) :
    ∀ i n f v t, vm.nodes.data[i]? = some n → n.field f = some v → t ∈ v.nodeIds →
      t ∈ n.refs ∨ Unrecorded env heap journal k i f t := by
  refine h.induction (P := fun k vm => ∀ i n f v t, vm.nodes.data[i]? = some n →
    n.field f = some v → t ∈ v.nodeIds → t ∈ n.refs ∨ Unrecorded env heap journal k i f t) ?_ ?_
  · exact fun i n f v t hn hv ht => .inr (.heap hn hv ht)
  · intro k vm op vm' hexec ih i n' f v t hn' hv ht
    have hslot := hexec.effect.slot i
    cases hi : vm.nodes.data[i]? with
    | none =>
      rw [hi] at hslot
      rw [Node.field, hslot n' hn', Finmap.lookup_empty] at hv
      cases hv
    | some n =>
      rw [hi] at hslot
      obtain ⟨n'', hn'', hstep⟩ := hslot
      obtain rfl := Option.some.inj (hn''.symm.trans hn')
      rw [hstep.field] at hv
      cases hw : op.written vm i f with
      | none =>
        rw [hw, Option.none_or] at hv
        rcases ih i n f v t hi hv ht with hrec | hun
        · exact .inl (hstep.refs t hrec)
        · exact .inr (.kept hexec hw hun)
      | some w =>
        rw [hw, Option.some_or] at hv
        obtain rfl := Option.some.inj hv
        rcases hstep.recorded f w hw t ht with hrec | ⟨hsize, node, rfl⟩
        · exact .inl hrec
        · obtain ⟨rfl, -, -⟩ := written_setField hw
          exact .inr (.forward hexec ht hsize)

/-- An unrecorded id is held by its field. -/
theorem Unrecorded.held {i : Nat} {f : FieldId} {t : NodeId} (h : Unrecorded env heap journal k i f t)
    (hvm : StateAt env (ReplayVM.seed {} heap) journal k vm r) :
    ∃ n v, vm.nodes.data[i]? = some n ∧ n.field f = some v ∧ t ∈ v.nodeIds := by
  -- where an opcode leaves a field is the same in both cases
  have hafter : ∀ {k vm op vm1 vm' r i n f}, Executes env (ReplayVM.seed {} heap) journal k vm op vm1 →
      StateAt env (ReplayVM.seed {} heap) journal (k + 1) vm' r → vm.nodes.data[i]? = some n →
      ∃ n', vm'.nodes.data[i]? = some n' ∧ n'.field f = (op.written vm i f).or (n.field f) := by
    intro k vm op vm1 vm' r i n f hexec hvm' hn
    obtain ⟨r', hstate⟩ := hexec.after
    obtain ⟨rfl, -⟩ := hstate.unique hvm'
    have hslot := hexec.effect.slot i
    rw [hn] at hslot
    obtain ⟨n', hn', hstep⟩ := hslot
    exact ⟨n', hn', hstep.field f⟩
  induction h generalizing vm r with
  | heap hn hv ht =>
    obtain rfl := hvm.eq_start
    exact ⟨_, _, hn, hv, ht⟩
  | @forward k vm1 vm2 node f v t hexec ht hsize =>
    obtain ⟨n, hn⟩ : ∃ n, vm1.nodes.data[node.toNat]? = some n := by
      cases hexec.effect with
      | setField hnode => exact ⟨_, hnode⟩
    obtain ⟨n', hn', hfield⟩ := hafter (f := f) hexec hvm hn
    refine ⟨n', v, hn', ?_, ht⟩
    rw [hfield]
    simp [Op.written]
  | @kept k vm1 op vm2 i f t hexec hop _ ih =>
    obtain ⟨r1, hbefore⟩ := hexec.before
    obtain ⟨n, v, hn, hv, ht⟩ := ih hbefore
    obtain ⟨n', hn', hfield⟩ := hafter (f := f) hexec hvm hn
    refine ⟨n', v, hn', ?_, ht⟩
    rw [hfield, hop, Option.none_or, hv]

/-- **Strict validation is sound for references** exactly as far as the machine recorded them: the
`LINK_REF`s have all found their targets, and what alive nodes hold unrecorded is alive. -/
theorem strict_sound_iff
    (hrun : Machine.Ok (run env) (ReplayVM.seed {} heap) journal () vm r)
    (hok : (validateGraph vm.nodes.data env.atoms true env.schema).ok = true) :
    LinksResolve env (ReplayVM.seed {} heap) journal ∧ vm.HoldsAlive ↔
      LinksResolve env (ReplayVM.seed {} heap) journal ∧
        ∀ k r' i f t n, StateAt env (ReplayVM.seed {} heap) journal k vm r' →
          vm.nodes.data[i]? = some n → n.alive = true → Unrecorded env heap journal k i f t →
            vm.AliveAt t := by
  refine and_congr_right fun _ => ⟨?_, ?_⟩
  · intro h k r' i f t n hstate hn ha hun
    obtain ⟨n', v, hn', hv, ht⟩ := hun.held hstate
    obtain rfl := Option.some.inj (hn.symm.trans hn')
    exact h n (List.mem_of_getElem? hn) ha f v hv t ht
  · intro h n hn ha f v hv t ht
    obtain ⟨i, hi⟩ := List.mem_iff_getElem?.mp hn
    obtain ⟨k, hstate⟩ := stateAt_of_run hrun
    rcases recorded_or_unrecorded hstate i n f v t hi hv ht with hrec | hun
    · exact refs_alive_of_ok hok hn ha hrec
    · exact h k r i f t n hstate hi ha hun

/-- One kind with one reference field, two names. -/
def linkable : Env where
  schema := { kinds := [{ name := 0, fields := [{ name := 0, type := .ref }] }] }
  atoms := { atoms := [[0x61], [0x62]] }

/-- A node, and a reference to a name that nothing has. -/
def linkNowhere : List Op := [.newNode 0 0, .linkRef 0 0 1]

theorem unresolved_link_passes :
    ∃ heap vm, decodeHeap linkable.growth linkable.schema linkable.atoms linkable.limits [0] =
        .ok (heap, []) ∧
      Machine.Ok (run linkable) (ReplayVM.seed {} heap) (2 :: linkNowhere.flatMap Op.encode) () vm
        [] ∧
      (validateGraph vm.nodes.data linkable.atoms true linkable.schema).ok = true ∧
      ¬ (LinksResolve linkable (ReplayVM.seed {} heap) (2 :: linkNowhere.flatMap Op.encode) ∧
        vm.HoldsAlive) := by
  refine ⟨⟨Vec.empty⟩, _, rfl, Machine.ok_of_fst rfl, by decide, fun h => ?_⟩
  have hexec : Executes linkable (ReplayVM.seed {} ⟨Vec.empty⟩)
      (2 :: linkNowhere.flatMap Op.encode) 1 _ (.linkRef 0 0 1) _ :=
    ⟨ReplayVM.exec_iff_effect.mp rfl, (Op.linkRef 0 0 1).encode, [],
      ⟨2, _, rfl, by decide, by decide, Machine.ok_of_fst rfl⟩, rfl,
      ⟨2, _, rfl, by decide, by decide, Machine.ok_of_fst rfl⟩⟩
  exact h.1 _ _ _ _ _ _ hexec rfl

/-- A node that refers to itself. -/
def linkSelf : List Op := [.newNode 0 0, .linkRef 0 0 0]

/-- The state after `linkSelf`. -/
def afterLinkSelf : ReplayVM :=
  (run linkable (ReplayVM.seed {} ⟨Vec.empty⟩) (2 :: linkSelf.flatMap Op.encode)).2

theorem strict_sound_linkSelf :
    (LinksResolve linkable (ReplayVM.seed {} ⟨Vec.empty⟩) (2 :: linkSelf.flatMap Op.encode) ∧
      afterLinkSelf.HoldsAlive) ∧
    ∀ k r i f t n, StateAt linkable (ReplayVM.seed {} ⟨Vec.empty⟩)
        (2 :: linkSelf.flatMap Op.encode) k afterLinkSelf r →
      afterLinkSelf.nodes.data[i]? = some n → n.alive = true →
        Unrecorded linkable ⟨Vec.empty⟩ (2 :: linkSelf.flatMap Op.encode) k i f t →
          afterLinkSelf.AliveAt t := by
  have hresolve : LinksResolve linkable (ReplayVM.seed {} ⟨Vec.empty⟩)
      (2 :: linkSelf.flatMap Op.encode) := by
    rintro k vm src field target vm' ⟨-, r, r', ⟨_, _, hcount, -, -, hrun⟩, hread, _, _, hcount', -, hk, -⟩
    obtain ⟨rfl, rfl⟩ := Prod.mk.inj (Except.ok.inj hcount)
    obtain ⟨rfl, rfl⟩ := Prod.mk.inj (Except.ok.inj hcount')
    -- the second opcode is the link
    obtain rfl | rfl : k = 0 ∨ k = 1 := by
      have : k + 1 ≤ 2 := hk
      omega
    all_goals
      obtain ⟨hfst, rfl⟩ := Prod.mk.inj hrun
      obtain ⟨-, rfl⟩ := Prod.mk.inj (Except.ok.inj hfst)
      obtain ⟨hop, -⟩ := Prod.mk.inj (Except.ok.inj hread)
    · cases hop
    · cases hop
      decide
  have halive : afterLinkSelf.HoldsAlive := by
    let made : Node := { id := 0, kind := 0, name := 0 }
    intro n hn _ f v hv t ht
    obtain rfl : n = { made.setField 0 (.ref 0) with refs := [0] } := List.mem_singleton.mp hn
    have hset : (made.setField 0 (.ref 0)).field f = some v := hv
    rw [Node.field_setField] at hset
    split at hset
    · obtain rfl := Option.some.inj hset
      obtain rfl := List.mem_singleton.mp ht
      exact ⟨_, rfl, rfl⟩
    · cases hset
  have hrun : Machine.Ok (run linkable) (ReplayVM.seed {} ⟨Vec.empty⟩)
      (2 :: linkSelf.flatMap Op.encode) () afterLinkSelf [] := Machine.ok_of_fst rfl
  have hsound := (strict_sound_iff hrun (by decide)).mp ⟨hresolve, halive⟩
  exact ⟨⟨hresolve, halive⟩, hsound.2⟩

end Runs

end Stratavm
