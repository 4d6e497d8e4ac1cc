import Stratavm.ReplayVm

/-!
# The validator

`validate_graph` (`validator.hpp`, `validator.cpp`): a pass over the final node table that counts and
reports what is wrong with it. Each loop body is a function of its own from report to report, so a fold
over the nodes is the pass. Only some findings are issues of a report that is not strict (`addIssueIf`).

`outOfRange` is the guard of the two range branches; the table's size is compared as a 32-bit number, as
the source compares it. A target that passes the guard and has no node would be read out of bounds
there, and is taken to be alive here: it does not occur below `2 ^ 32` nodes.

* `validateGraph_inRange`: a table whose edges pass the guard is never reported for them.

Out of scope: what a node's fields name. The validator reads `refs`, and `Validator/Strict.lean` says what
that leaves out.
-/

namespace Stratavm

open Lib

/-- `ValidationIssue`. The source's detail is `detail` followed by the bytes of `text`. -/
structure ValidationIssue where
  code : Code
  node : NodeId
  detail : String
  text : Bytes := []
  deriving DecidableEq, Repr

/-- `ValidationReport`. -/
structure ValidationReport where
  issues : List ValidationIssue := []
  liveNodes : UInt32 := 0
  danglingRefs : UInt32 := 0
  unfilledPlaceholders : UInt32 := 0
  missingRequired : UInt32 := 0
  deriving DecidableEq, Repr

namespace ValidationReport

/-- `ValidationReport::ok`. -/
def ok (rep : ValidationReport) : Bool := rep.issues.isEmpty

/-- `add_issue`. -/
def addIssue (rep : ValidationReport) (issue : ValidationIssue) : ValidationReport :=
  { rep with issues := rep.issues ++ [issue] }

/-- `if (strict) add_issue(...)`. -/
def addIssueIf (strict : Bool) (rep : ValidationReport) (issue : ValidationIssue) :
    ValidationReport :=
  if strict then rep.addIssue issue else rep

end ValidationReport

/-- `t >= count`, with `count` the table size as a `NodeId`. -/
def outOfRange (nodes : List Node) (t : NodeId) : Bool := decide (UInt32.ofNat nodes.length ≤ t)

section Checks

variable (nodes : List Node) (atoms : AtomPool) (strict : Bool)

/-- One iteration of the required-field loop. -/
def checkField (n : Node) (rep : ValidationReport) (field : FieldDef × Nat) : ValidationReport :=
  if field.1.isRequired ∧ n.field (UInt32.ofNat field.2) = none then
    { rep with missingRequired := rep.missingRequired + 1 }.addIssue
      { code := .invariantViolation, node := n.id, detail := "missing required field "
        text := atoms.textOr field.1.name "?".toUTF8.toList }
  else rep

/-- One iteration of the reference loop. -/
def checkRef (n : Node) (rep : ValidationReport) (t : NodeId) : ValidationReport :=
  if outOfRange nodes t then
    { rep with danglingRefs := rep.danglingRefs + 1 }.addIssueIf strict
      { code := .unresolvedRef, node := n.id, detail := "ref out of range" }
  else if (nodes[t.toNat]?.map Node.alive).getD true = false then
    { rep with danglingRefs := rep.danglingRefs + 1 }.addIssueIf strict
      { code := .unresolvedRef, node := n.id, detail := "ref to dropped node" }
  else rep

/-- One iteration of the child loop. -/
def checkChild (n : Node) (rep : ValidationReport) (c : NodeId) : ValidationReport :=
  if outOfRange nodes c then
    { rep with danglingRefs := rep.danglingRefs + 1 }.addIssueIf strict
      { code := .unresolvedRef, node := n.id, detail := "child out of range" }
  else rep

/-- One iteration of the node loop. -/
def checkNode (schema : Schema) (rep : ValidationReport) (n : Node) : ValidationReport :=
  if n.placeholder then
    { rep with unfilledPlaceholders := rep.unfilledPlaceholders + 1 }.addIssueIf strict
      { code := .unresolvedRef, node := n.id, detail := "unfilled placeholder" }
  else if n.alive = false then rep
  else
    let rep := { rep with liveNodes := rep.liveNodes + 1 }
    match schema.kind n.kind with
    | none => rep.addIssue
        { code := .kindOutOfRange, node := n.id, detail := "live node with bad kind" }
    | some kind =>
      let rep := kind.fields.zipIdx.foldl (checkField atoms n) rep
      let rep := n.refs.foldl (checkRef nodes strict n) rep
      n.children.foldl (checkChild nodes strict n) rep

/-- `validate_graph`. -/
def validateGraph (schema : Schema) : ValidationReport :=
  nodes.foldl (checkNode nodes atoms strict schema) {}

/-! ## Range issues -/

/-- An issue of one of the two range branches. -/
def ValidationIssue.IsRange (issue : ValidationIssue) : Prop :=
  issue.detail = "ref out of range" ∨ issue.detail = "child out of range"

/-- No issue so far is a range issue. -/
def ValidationReport.NoRange (rep : ValidationReport) : Prop :=
  ∀ issue ∈ rep.issues, ¬ issue.IsRange

variable {nodes atoms strict} {rep : ValidationReport} {n : Node}

theorem ValidationReport.NoRange.addIssue (h : rep.NoRange) {issue : ValidationIssue}
    (hi : ¬ issue.IsRange) : (rep.addIssue issue).NoRange := by
  intro i hmem
  rcases List.mem_append.mp hmem with hmem | hmem
  · exact h i hmem
  · rcases List.mem_singleton.mp hmem with rfl
    exact hi

theorem ValidationReport.NoRange.addIssueIf (h : rep.NoRange) {issue : ValidationIssue}
    (hi : ¬ issue.IsRange) : (rep.addIssueIf strict issue).NoRange := by
  unfold ValidationReport.addIssueIf
  split
  · exact h.addIssue hi
  · exact h

theorem checkField_noRange (h : rep.NoRange) (field : FieldDef × Nat) :
    (checkField atoms n rep field).NoRange := by
  unfold checkField
  split
  · exact ValidationReport.NoRange.addIssue h (by simp [ValidationIssue.IsRange])
  · exact h

theorem checkRef_noRange (h : rep.NoRange) {t : NodeId} (ht : outOfRange nodes t = false) :
    (checkRef nodes strict n rep t).NoRange := by
  unfold checkRef
  rw [ht, if_neg Bool.false_ne_true]
  split
  · refine ValidationReport.NoRange.addIssueIf ?_ ?_
    · exact h
    · simp [ValidationIssue.IsRange]
  · exact h

theorem checkChild_noRange (h : rep.NoRange) {c : NodeId} (hc : outOfRange nodes c = false) :
    (checkChild nodes strict n rep c).NoRange := by
  unfold checkChild
  rw [hc, if_neg Bool.false_ne_true]
  exact h

theorem checkNode_noRange {schema : Schema} (h : rep.NoRange)
    (hrefs : ∀ t ∈ n.refs, outOfRange nodes t = false)
    (hchildren : ∀ c ∈ n.children, outOfRange nodes c = false) :
    (checkNode nodes atoms strict schema rep n).NoRange := by
  unfold checkNode
  split
  · refine ValidationReport.NoRange.addIssueIf ?_ ?_
    · exact h
    · simp [ValidationIssue.IsRange]
  split
  · exact h
  cases schema.kind n.kind with
  | none => exact ValidationReport.NoRange.addIssue h (by simp [ValidationIssue.IsRange])
  | some kind =>
    refine List.foldlRecOn _ _ (List.foldlRecOn _ _ (List.foldlRecOn _ _ h ?_) ?_) ?_
    · exact fun _ hrep field _ => checkField_noRange hrep field
    · exact fun _ hrep t ht => checkRef_noRange hrep (hrefs t ht)
    · exact fun _ hrep c hc => checkChild_noRange hrep (hchildren c hc)

end Checks

/-- A table whose edges are all in range is never reported for a range. -/
theorem validateGraph_inRange {nodes : List Node}
    (hrefs : ∀ n ∈ nodes, ∀ t ∈ n.refs, outOfRange nodes t = false)
    (hchildren : ∀ n ∈ nodes, ∀ c ∈ n.children, outOfRange nodes c = false)
    (atoms : AtomPool) (strict : Bool) (schema : Schema) :
    (validateGraph nodes atoms strict schema).NoRange := by
  refine List.foldlRecOn _ _ (fun _ hmem => absurd hmem List.not_mem_nil) ?_
  exact fun _ hrep n hn => checkNode_noRange hrep (hrefs n hn) (hchildren n hn)

end Stratavm
