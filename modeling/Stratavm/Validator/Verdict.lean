import Stratavm.Validator.Modes

/-!
# What the validator accepts

Half of what `validate_graph` looks for is never found in a graph that was replayed: its edges are in the
table and its nodes have declared kinds (`Node.Checked`). What is left is what a journal can leave undone.

The report is a fold over the nodes, and it is free of issues iff none of its scans adds one. There is a
lemma for each scan, with what it looks for as a property of the node: `fieldIssues_eq_nil_iff` for the
required fields, `refIssues_eq_nil_iff` for a reference, `Node.Checked.nodeIssues_eq_nil_iff` for all of a
node.

* **`ok_validateGraph_iff`**: of such a table, lenient validation accepts the one whose live nodes have their
  required fields, and strict validation asks further that there is no placeholder and that references
  lead to alive nodes. Children are not looked up.

Out of scope: the counters, which `Validator/Modes.lean` has.
-/

namespace Stratavm

open Lib

/-- Every required field of the node is there. -/
def Node.Complete (schema : Schema) (n : Node) : Prop :=
  ∀ kind fid fd, schema.kind n.kind = some kind → kind.field fid = some fd → fd.isRequired = true →
    n.field fid ≠ none

/-- The references of the node lead to alive nodes. -/
def Node.RefsAlive (nodes : List Node) (n : Node) : Prop :=
  ∀ t ∈ n.refs, ∃ m : Node, nodes[t.toNat]? = some m ∧ m.alive = true

section Verdict

variable {nodes : List Node} {atoms : AtomPool} {schema : Schema} {n : Node} {kind : KindDef}

/-- What the validator looks at and replay guarantees. -/
structure Node.Checked (nodes : List Node) (schema : Schema) (n : Node) : Prop where
  kind : n.placeholder = false → ∃ kind, schema.kind n.kind = some kind ∧ kind.fields.length < 2 ^ 32
  edges : ∀ t, t ∈ n.children ∨ t ∈ n.refs → outOfRange nodes t = false

/-- The scan over the fields of a kind. -/
theorem fieldIssues_eq_nil_iff (hk : schema.kind n.kind = some kind) (hcount : kind.fields.length < 2 ^ 32) :
    kind.fields.zipIdx.flatMap (fieldIssues atoms n) = [] ↔ n.Complete schema := by
  rw [List.flatMap_eq_nil_iff]
  constructor
  · intro h kind' fid fd hk' hfd hrequired hnone
    obtain rfl := Option.some.inj (hk.symm.trans hk')
    have hmem : (fd, fid.toNat) ∈ kind.fields.zipIdx := List.mk_mem_zipIdx_iff_getElem?.mpr hfd
    have hissue := h _ hmem
    rw [fieldIssues, if_pos] at hissue
    · exact absurd hissue (List.cons_ne_nil _ _)
    · exact ⟨hrequired, by rw [UInt32.ofNat_toNat]; exact hnone⟩
  · rintro h ⟨fd, i⟩ hmem
    have hfd := List.mk_mem_zipIdx_iff_getElem?.mp hmem
    have hlt := (List.getElem?_eq_some_iff.mp hfd).1
    refine if_neg fun hmissing => h kind (UInt32.ofNat i) fd hk ?_ hmissing.1 hmissing.2
    rw [KindDef.field, UInt32.toNat_ofNat', Nat.mod_eq_of_lt (by omega)]
    exact hfd

theorem outOfRange_eq_false_iff (hsize : nodes.length < 2 ^ 32) {t : NodeId} :
    outOfRange nodes t = false ↔ t.toNat < nodes.length := by
  rw [outOfRange, decide_eq_false_iff_not, UInt32.not_le, UInt32.lt_iff_toNat_lt,
    toNat_ofNat_of_lt hsize]

/-- The scan over a reference. -/
theorem refIssues_eq_nil_iff (hsize : nodes.length < 2 ^ 32) {t : NodeId}
    (hrange : outOfRange nodes t = false) :
    refIssues nodes n t = [] ↔ ∃ m : Node, nodes[t.toNat]? = some m ∧ m.alive = true := by
  have hlt := (outOfRange_eq_false_iff hsize).mp hrange
  obtain ⟨m, hm⟩ : ∃ m, nodes[t.toNat]? = some m := ⟨_, List.getElem?_eq_getElem hlt⟩
  rw [refIssues, hrange, if_neg Bool.false_ne_true, hm]
  cases halive : m.alive with
  | true => simp [halive]
  | false => simp [halive]

/-- **The scan over a node** that replay left. -/
theorem Node.Checked.nodeIssues_eq_nil_iff (h : n.Checked nodes schema) (hsize : nodes.length < 2 ^ 32)
    (strict : Bool) : nodeIssues nodes atoms strict schema n = [] ↔
      (n.isLive = true → n.Complete schema) ∧
        (strict = true → n.placeholder = false ∧ (n.isLive = true → n.RefsAlive nodes)) := by
  rw [nodeIssues]
  cases hplaceholder : n.placeholder with
  | true =>
    have hlive := isLive_of_placeholder hplaceholder
    cases strict with
    | false => simp [onlyStrict, hlive]
    | true => simp [onlyStrict]
  | false =>
  rw [if_neg Bool.false_ne_true]
  cases halive : n.alive with
  | false => simp [isLive_of_dead halive]
  | true =>
  obtain ⟨kind, hkind, hcount⟩ := h.kind hplaceholder
  have hlive := isLive_of_alive halive hplaceholder
  have hchildren : n.children.flatMap (fun c => onlyStrict strict (childIssues nodes n c)) = [] := by
    refine List.flatMap_eq_nil_iff.mpr fun c hc => ?_
    rw [childIssues, h.edges c (.inl hc), if_neg Bool.false_ne_true, onlyStrict, ite_self]
  have hrefs : n.refs.flatMap (fun t => onlyStrict strict (refIssues nodes n t)) = [] ↔
      (strict = true → n.RefsAlive nodes) := by
    rw [List.flatMap_eq_nil_iff]
    have hiff : ∀ t ∈ n.refs, refIssues nodes n t = [] ↔
        ∃ m : Node, nodes[t.toNat]? = some m ∧ m.alive = true := fun t ht =>
      refIssues_eq_nil_iff hsize (h.edges t (.inr ht))
    cases strict with
    | false => exact iff_of_true (fun _ _ => rfl) fun h => absurd h Bool.false_ne_true
    | true => exact ⟨fun hnil _ t ht => (hiff t ht).mp (hnil t ht),
        fun halive t ht => (hiff t ht).mpr (halive rfl t ht)⟩
  rw [if_neg (by decide), hkind]
  simp only [List.append_eq_nil_iff, hchildren, fieldIssues_eq_nil_iff hkind hcount, hrefs, hlive,
    and_true, true_imp_iff, true_and]

/-- **The verdict on a table** whose edges and kinds are in order. -/
theorem ok_validateGraph_iff (hsize : nodes.length < 2 ^ 32) (h : ∀ n ∈ nodes, n.Checked nodes schema)
    (strict : Bool) : (validateGraph nodes atoms strict schema).ok = true ↔
      (∀ n ∈ nodes, n.isLive = true → n.Complete schema) ∧
        (strict = true → ∀ n ∈ nodes, n.placeholder = false ∧ (n.isLive = true → n.RefsAlive nodes)) := by
  rw [ValidationReport.ok, List.isEmpty_iff, issues_validateGraph, List.flatMap_eq_nil_iff]
  constructor
  · intro hnil
    refine ⟨fun n hn => ?_, fun hstrict n hn => ?_⟩
    · exact (((h n hn).nodeIssues_eq_nil_iff hsize strict).mp (hnil n hn)).1
    · exact (((h n hn).nodeIssues_eq_nil_iff hsize strict).mp (hnil n hn)).2 hstrict
  · rintro ⟨hcomplete, hstrict⟩ n hn
    exact ((h n hn).nodeIssues_eq_nil_iff hsize strict).mpr
      ⟨hcomplete n hn, fun hs => hstrict hs n hn⟩

end Verdict

end Stratavm
