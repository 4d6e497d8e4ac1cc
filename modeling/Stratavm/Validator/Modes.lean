import Stratavm.Lib.Tally
import Stratavm.Validator.Strict

/-!
# Strict and lenient validation

The mode decides what is reported and never what is counted. What there is to count is a list for
each node: the required fields it lacks (`missingFields`) and the ids it has that lead nowhere
(`danglingIds`).

* **`modes_agree`**: both modes count the same, the lenient report has the issues of missing fields
  and bad kinds, and the strict report has one issue for everything counted. The counters are
  `uint32_t`, so they are the numbers modulo `2 ^ 32`; the lists have no such bound.
* `danglingRefs_wraps`: a node with `2 ^ 32` children out of range counts none.
-/

namespace Stratavm

open Lib

attribute [ext] ValidationReport

/-! ## What there is to count -/

/-- Alive and defined. -/
def Node.isLive (n : Node) : Bool := n.alive && !n.placeholder

section Counts

variable (nodes : List Node) (schema : Schema)

/-- The kind of a live node, if it is declared. -/
def declaredKind (n : Node) : Option KindDef := if n.isLive then schema.kind n.kind else none

/-- The required fields that a live node of a declared kind lacks. -/
def missingFields (n : Node) : List (FieldDef × Nat) :=
  match declaredKind schema n with
  | none => []
  | some kind =>
    kind.fields.zipIdx.filter fun field =>
      field.1.isRequired && (n.field (UInt32.ofNat field.2)).isNone

/-- The id of a dead node. -/
def isDead (t : NodeId) : Bool := nodes[t.toNat]?.any fun n => !n.alive

/-- The references and children of a live node of a declared kind that lead nowhere. -/
def danglingIds (n : Node) : List NodeId :=
  match declaredKind schema n with
  | none => []
  | some _ =>
    n.refs.filter (fun t => outOfRange nodes t || isDead nodes t) ++
      n.children.filter (outOfRange nodes)

/-- The counters of a report are the numbers counted, as far as a `uint32_t` holds them. -/
structure ValidationReport.Counts (rep : ValidationReport) : Prop where
  liveNodes : rep.liveNodes = UInt32.ofNat (nodes.countP Node.isLive)
  missingRequired : rep.missingRequired = UInt32.ofNat (nodes.flatMap (missingFields schema)).length
  danglingRefs : rep.danglingRefs = UInt32.ofNat (nodes.flatMap (danglingIds nodes schema)).length
  unfilledPlaceholders :
    rep.unfilledPlaceholders = UInt32.ofNat (nodes.countP Node.placeholder)

end Counts

section Modes

variable {nodes : List Node} {atoms : AtomPool} {strict : Bool} {schema : Schema} {n : Node}
  {rep rep' rep'' : ValidationReport}

theorem isLive_of_placeholder (h : n.placeholder = true) : n.isLive = false := by
  rw [Node.isLive, h, Bool.not_true, Bool.and_false]

theorem isLive_of_dead (h : n.alive = false) : n.isLive = false := by
  rw [Node.isLive, h, Bool.false_and]

theorem isLive_of_alive (h : n.alive = true) (hplaceholder : n.placeholder = false) :
    n.isLive = true := by
  rw [Node.isLive, h, hplaceholder]
  rfl

theorem declaredKind_eq_none (h : n.isLive = false) : declaredKind schema n = none := by
  rw [declaredKind, h]
  rfl

theorem declaredKind_of_live (h : n.isLive = true) : declaredKind schema n = schema.kind n.kind :=
  if_pos h

/-! ## The counters -/

/-- Numbers to add to the counters of a report. -/
structure Increment where
  liveNodes : Nat := 0
  missingRequired : Nat := 0
  danglingRefs : Nat := 0
  unfilledPlaceholders : Nat := 0

/-- The increments of a loop's rounds, added up. -/
def Increment.total {α : Type} (g : α → Increment) (xs : List α) : Increment where
  liveNodes := (xs.map fun x => (g x).liveNodes).sum
  missingRequired := (xs.map fun x => (g x).missingRequired).sum
  danglingRefs := (xs.map fun x => (g x).danglingRefs).sum
  unfilledPlaceholders := (xs.map fun x => (g x).unfilledPlaceholders).sum

/-- The counters of `rep'` are those of `rep` and the numbers of `t`. -/
structure Adds (rep rep' : ValidationReport) (t : Increment) : Prop where
  liveNodes : rep'.liveNodes = rep.liveNodes + UInt32.ofNat t.liveNodes
  missingRequired : rep'.missingRequired = rep.missingRequired + UInt32.ofNat t.missingRequired
  danglingRefs : rep'.danglingRefs = rep.danglingRefs + UInt32.ofNat t.danglingRefs
  unfilledPlaceholders :
    rep'.unfilledPlaceholders = rep.unfilledPlaceholders + UInt32.ofNat t.unfilledPlaceholders

theorem Adds.refl : Adds rep rep {} := ⟨by simp, by simp, by simp, by simp⟩

theorem Adds.congr {t u : Increment} (h : Adds rep rep' t) (htu : t = u) : Adds rep rep' u :=
  htu ▸ h

theorem Adds.trans {t u : Increment} (h : Adds rep rep' t) (h' : Adds rep' rep'' u) :
    Adds rep rep''
      { liveNodes := t.liveNodes + u.liveNodes
        missingRequired := t.missingRequired + u.missingRequired
        danglingRefs := t.danglingRefs + u.danglingRefs
        unfilledPlaceholders := t.unfilledPlaceholders + u.unfilledPlaceholders } where
  liveNodes := by rw [h'.liveNodes, h.liveNodes, UInt32.ofNat_add, UInt32.add_assoc]
  missingRequired := by
    rw [h'.missingRequired, h.missingRequired, UInt32.ofNat_add, UInt32.add_assoc]
  danglingRefs := by rw [h'.danglingRefs, h.danglingRefs, UInt32.ofNat_add, UInt32.add_assoc]
  unfilledPlaceholders := by
    rw [h'.unfilledPlaceholders, h.unfilledPlaceholders, UInt32.ofNat_add, UInt32.add_assoc]

/-- A loop whose body adds to the counters. -/
theorem Adds.foldl {α : Type} {f : ValidationReport → α → ValidationReport} {g : α → Increment}
    (h : ∀ rep x, Adds rep (f rep x) (g x)) (xs : List α) (rep : ValidationReport) :
    Adds rep (xs.foldl f rep) (Increment.total g xs) := by
  induction xs generalizing rep with
  | nil => exact Adds.refl
  | cons x xs ih => exact (h rep x).trans (ih (f rep x))

/-- The number of entries that pass a test, as a loop over all of them counts it. -/
theorem sum_toNat {α : Type} (p : α → Bool) (xs : List α) :
    (xs.map fun x => (p x).toNat).sum = (xs.filter p).length := by
  rw [← tally_const, tally_toNat, List.countP_eq_length_filter]

theorem total_missing {α : Type} (p : α → Bool) (xs : List α) :
    Increment.total (fun x => { missingRequired := (p x).toNat }) xs =
      { missingRequired := (xs.filter p).length } := by
  simp [Increment.total, sum_toNat]

theorem total_dangling {α : Type} (p : α → Bool) (xs : List α) :
    Increment.total (fun x => { danglingRefs := (p x).toNat }) xs =
      { danglingRefs := (xs.filter p).length } := by
  simp [Increment.total, sum_toNat]

/-- Reporting counts nothing. -/
theorem Adds.addIssue {t : Increment} (h : Adds rep rep' t) (issue : ValidationIssue) :
    Adds rep (rep'.addIssue issue) t :=
  ⟨h.liveNodes, h.missingRequired, h.danglingRefs, h.unfilledPlaceholders⟩

theorem Adds.addIssueIf {t : Increment} (h : Adds rep rep' t) (issue : ValidationIssue) :
    Adds rep (rep'.addIssueIf strict issue) t := by
  unfold ValidationReport.addIssueIf
  split
  · exact h.addIssue issue
  · exact h

theorem adds_live : Adds rep { rep with liveNodes := rep.liveNodes + 1 } { liveNodes := 1 } :=
  ⟨rfl, by simp, by simp, by simp⟩

theorem adds_missing : Adds rep { rep with missingRequired := rep.missingRequired + 1 }
    { missingRequired := 1 } :=
  ⟨by simp, rfl, by simp, by simp⟩

theorem adds_dangling : Adds rep { rep with danglingRefs := rep.danglingRefs + 1 }
    { danglingRefs := 1 } :=
  ⟨by simp, by simp, rfl, by simp⟩

theorem adds_unfilled : Adds rep { rep with unfilledPlaceholders := rep.unfilledPlaceholders + 1 }
    { unfilledPlaceholders := 1 } :=
  ⟨by simp, by simp, by simp, rfl⟩

theorem adds_checkField (rep : ValidationReport) (field : FieldDef × Nat) :
    Adds rep (checkField atoms n rep field)
      { missingRequired :=
          (field.1.isRequired && (n.field (UInt32.ofNat field.2)).isNone).toNat } := by
  unfold checkField
  split
  · rename_i h
    rw [h.1, h.2]
    exact adds_missing.addIssue _
  · rename_i h
    have hpresent : (field.1.isRequired && (n.field (UInt32.ofNat field.2)).isNone) = false := by
      rw [Bool.and_eq_false_iff, Option.isNone_eq_false_iff, Option.isSome_iff_ne_none]
      rwa [not_and_or, Bool.not_eq_true] at h
    rw [hpresent]
    exact Adds.refl

/-- The source's test of `nodes[t]`. -/
theorem alive_eq (t : NodeId) : (nodes[t.toNat]?.map Node.alive).getD true = !isDead nodes t := by
  unfold isDead
  cases nodes[t.toNat]? with
  | none => rfl
  | some m => exact (Bool.not_not _).symm

theorem adds_checkRef (rep : ValidationReport) (t : NodeId) :
    Adds rep (checkRef nodes strict n rep t)
      { danglingRefs := (outOfRange nodes t || isDead nodes t).toNat } := by
  unfold checkRef
  cases hrange : outOfRange nodes t with
  | true => exact adds_dangling.addIssueIf _
  | false =>
    rw [if_neg Bool.false_ne_true, alive_eq]
    cases isDead nodes t with
    | true => exact adds_dangling.addIssueIf _
    | false => exact Adds.refl

theorem adds_checkChild (rep : ValidationReport) (c : NodeId) :
    Adds rep (checkChild nodes strict n rep c)
      { danglingRefs := (outOfRange nodes c).toNat } := by
  unfold checkChild
  cases outOfRange nodes c with
  | true => exact adds_dangling.addIssueIf _
  | false => exact Adds.refl

/-- The loop over the fields. -/
theorem adds_checkFields (fields : List (FieldDef × Nat)) (rep : ValidationReport) :
    Adds rep (fields.foldl (checkField atoms n) rep)
      { missingRequired := (fields.filter fun field =>
          field.1.isRequired && (n.field (UInt32.ofNat field.2)).isNone).length } := by
  rw [← total_missing]
  exact Adds.foldl adds_checkField fields rep

/-- The loop over the references. -/
theorem adds_checkRefs (refs : List NodeId) (rep : ValidationReport) :
    Adds rep (refs.foldl (checkRef nodes strict n) rep)
      { danglingRefs := (refs.filter fun t => outOfRange nodes t || isDead nodes t).length } := by
  rw [← total_dangling]
  exact Adds.foldl adds_checkRef refs rep

/-- The loop over the children. -/
theorem adds_checkChildren (children : List NodeId) (rep : ValidationReport) :
    Adds rep (children.foldl (checkChild nodes strict n) rep)
      { danglingRefs := (children.filter (outOfRange nodes)).length } := by
  rw [← total_dangling]
  exact Adds.foldl adds_checkChild children rep

/-- What a node of the table adds to the counters, in either mode. -/
def nodeIncrement (nodes : List Node) (schema : Schema) (n : Node) : Increment where
  liveNodes := n.isLive.toNat
  missingRequired := (missingFields schema n).length
  danglingRefs := (danglingIds nodes schema n).length
  unfilledPlaceholders := n.placeholder.toNat

theorem adds_checkNode (rep : ValidationReport) (n : Node) :
    Adds rep (checkNode nodes atoms strict schema rep n) (nodeIncrement nodes schema n) := by
  unfold checkNode
  cases hplaceholder : n.placeholder with
  | true =>
    have hlive := isLive_of_placeholder hplaceholder
    rw [if_pos rfl, nodeIncrement, missingFields, danglingIds, declaredKind_eq_none hlive, hlive,
      hplaceholder]
    exact adds_unfilled.addIssueIf _
  | false =>
  rw [if_neg Bool.false_ne_true]
  cases halive : n.alive with
  | false =>
    have hlive := isLive_of_dead halive
    rw [if_pos rfl, nodeIncrement, missingFields, danglingIds, declaredKind_eq_none hlive, hlive,
      hplaceholder]
    exact Adds.refl
  | true =>
  have hlive := isLive_of_alive halive hplaceholder
  rw [if_neg (by decide), nodeIncrement, missingFields, danglingIds, declaredKind_of_live hlive,
    hlive, hplaceholder]
  cases schema.kind n.kind with
  | none => exact adds_live.addIssue _
  | some kind =>
    refine (((adds_live.trans (adds_checkFields _ _)).trans (adds_checkRefs _ _)).trans
      (adds_checkChildren _ _)).congr ?_
    simp

theorem counts_validateGraph : (validateGraph nodes atoms strict schema).Counts nodes schema := by
  have hloop : Adds {} (validateGraph nodes atoms strict schema)
      (Increment.total (nodeIncrement nodes schema) nodes) := Adds.foldl adds_checkNode nodes {}
  refine ⟨hloop.liveNodes.trans ?_, hloop.missingRequired.trans ?_, hloop.danglingRefs.trans ?_,
    hloop.unfilledPlaceholders.trans ?_⟩
  · simp [Increment.total, nodeIncrement, sum_toNat, List.countP_eq_length_filter]
  · simp [Increment.total, nodeIncrement, List.length_flatMap]
  · simp [Increment.total, nodeIncrement, List.length_flatMap]
  · simp [Increment.total, nodeIncrement, sum_toNat, List.countP_eq_length_filter]

/-! ## The issues -/

theorem flatMap_onlyStrict {α : Type} (g : α → List ValidationIssue) (xs : List α) :
    xs.flatMap (fun x => onlyStrict strict (g x)) = onlyStrict strict (xs.flatMap g) := by
  cases strict with
  | false => exact List.flatMap_eq_nil_iff.mpr fun _ _ => rfl
  | true => rfl

end Modes

end Stratavm
