import Stratavm.AtomPool.Index
import Stratavm.QueryEval
import Stratavm.ReplayVm.Reach

/-!
# Matching by text

The engine resolves a text to one atom id, the first of that text (`AtomPool.Indexed.find_eq_iff`), and
compares ids. `Query.reads` is the Boolean reading of a query without field comparisons, over a relation
`named` between the atoms and the texts they match.

* **`execute_reads`**: a query returns the nodes that satisfy its reading, where an atom matches the
  text it is the first atom of; in a pool without repeated strings, where it matches its text.
* `repeated_name_missed`: a kind named by the second atom of a text is not found by that text.
-/

namespace Stratavm

open Lib

/-! ## Readings -/

namespace Query

/-- A query without field comparisons. -/
def FieldFree : Query → Prop
  | .or lhs rhs => lhs.FieldFree ∧ rhs.FieldFree
  | .and lhs rhs => lhs.FieldFree ∧ rhs.FieldFree
  | .not inner => inner.FieldFree
  | .fieldCmp _ _ _ => False
  | _ => True

section Reads

variable (named : AtomId → Bytes → Bool) (schema : Schema) (nodes : List Node)

/-- Some alive node in range has this name. -/
def someNamed (ids : List NodeId) (name : Bytes) : Bool :=
  ids.any fun id => (nodes[id.toNat]?).any fun m => m.alive && named m.name name

/-- The Boolean reading of a query. -/
def reads : Query → Node → Bool
  | .or lhs rhs, n => lhs.reads n || rhs.reads n
  | .and lhs rhs, n => lhs.reads n && rhs.reads n
  | .not inner, n => !inner.reads n
  | .kindMatch name, n => (schema.kind n.kind).any fun k => named k.name name
  | .hasChild name, n => someNamed named nodes n.children name
  | .hasRef name, n => someNamed named nodes n.refs name
  | .anyAlive, _ => true
  | .fieldCmp _ _ _, _ => false

end Reads

/-- Readings over equivalent relations agree. -/
theorem reads_congr {named named' : AtomId → Bytes → Bool} (h : ∀ a s, named a s = named' a s)
    (schema : Schema) (nodes : List Node) (q : Query) :
    q.reads named schema nodes = q.reads named' schema nodes := by
  rw [show named = named' from funext fun a => funext fun s => h a s]

end Query

/-- `a` has the text `s`. -/
def AtomPool.hasText (p : AtomPool) (a : AtomId) (s : Bytes) : Bool := p.get a == some s

/-- `a` is the first atom of the text `s`. -/
def AtomPool.isFirst (p : AtomPool) (a : AtomId) (s : Bytes) : Bool :=
  p.atoms.idxOf? s == some a.toNat

/-- `result` is what a scan of `nodes` for `p` returns. -/
structure QueryResult.Answers (result : QueryResult) (nodes : List Node) (p : Node → Bool) : Prop where
  ids : result.nodes = (nodes.filter fun n => n.alive && p n).map Node.id
  matched : result.matched.toNat = result.nodes.length
  scanned : result.scanned.toNat = nodes.length

namespace QueryEngine

variable {engine : QueryEngine}

/-- Below `2 ^ 32` nodes the counters do not wrap. -/
theorem execute_answers (hsize : engine.nodes.length < 2 ^ 32) (expr : QueryExpr) :
    (engine.execute expr).Answers engine.nodes (engine.evalNode expr) := by
  rw [execute_eq]
  have hle := List.length_filter_le (engine.selects expr) engine.nodes
  exact ⟨rfl, (toNat_ofNat_of_lt (by omega)).trans (List.length_map _).symm, toNat_ofNat_of_lt hsize⟩

section Names

variable (hatoms : engine.atoms.Indexed)

include hatoms

/-- An id equals the one a text resolves to iff it is the first of that text. -/
theorem find_isFirst (a : AtomId) (s : Bytes) : engine.atoms.isFirst a s =
    if engine.atoms.find s = kInvalidAtom then false else a == engine.atoms.find s := by
  rw [Bool.eq_iff_iff, AtomPool.isFirst, beq_iff_eq, ← hatoms.find_eq_iff]
  by_cases hs : engine.atoms.find s = kInvalidAtom <;> simp [hs]

theorem matchKind_eq (hkind : engine.schema.kind kInvalidKind = none) (name : Bytes) (n : Node) :
    engine.matchKind name n =
      (engine.schema.kind n.kind).any fun k => engine.atoms.isFirst k.name name := by
  simp only [find_isFirst hatoms, matchKind]
  by_cases hs : engine.atoms.find name = kInvalidAtom
  · simp [hs]
  · rw [if_neg hs]
    by_cases hn : n.kind = kInvalidKind
    · rw [if_pos hn, hn, hkind, Option.any_none]
    · rw [if_neg hn]
      cases engine.schema.kind n.kind with
      | none => rfl
      | some k => simp [hs]

theorem hasNamed_eq (name : Bytes) (ids : List NodeId) : engine.hasNamed name ids =
    Query.someNamed engine.atoms.isFirst engine.nodes ids name := by
  simp only [Query.someNamed, find_isFirst hatoms, hasNamed]
  by_cases hs : engine.atoms.find name = kInvalidAtom
  · simp [hs]
  · rw [if_neg hs]
    refine congrArg ids.any (funext fun id => ?_)
    cases engine.nodes[id.toNat]? with
    | none => rfl
    | some m => simp [hs]

/-- **The predicate is the reading**, where an atom matches the text it is the first of. -/
theorem evalNode_toExpr (hkind : engine.schema.kind kInvalidKind = none) {q : Query}
    (hq : q.FieldFree) (n : Node) : engine.evalNode q.toExpr n =
      q.reads engine.atoms.isFirst engine.schema engine.nodes n := by
  induction q with
  | or lhs rhs ihl ihr =>
    show (engine.evalNode lhs.toExpr n || engine.evalNode rhs.toExpr n) = _
    rw [ihl hq.1, ihr hq.2, Query.reads]
  | and lhs rhs ihl ihr =>
    show (engine.evalNode lhs.toExpr n && engine.evalNode rhs.toExpr n) = _
    rw [ihl hq.1, ihr hq.2, Query.reads]
  | not inner ih =>
    show (!engine.evalNode inner.toExpr n) = _
    rw [ih hq, Query.reads]
  | kindMatch name => exact matchKind_eq hatoms hkind name n
  | fieldCmp field op value => exact hq.elim
  | hasChild name => exact hasNamed_eq hatoms name n.children
  | hasRef name => exact hasNamed_eq hatoms name n.refs
  | anyAlive => rfl

end Names

end QueryEngine

/-- The engine over a state of the machine. -/
def ReplayVM.queryEngine (env : Env) (vm : ReplayVM) : QueryEngine :=
  ⟨env.atoms, env.schema, vm.nodes.data⟩

/-- **Names match by their first atom**, so by text where no string is repeated. -/
theorem execute_reads {env : Env} (hids : env.limits.IdsFit)
    {poolBytes schemaBytes heapBytes rest rest' rest'' journal : Bytes} {limits limits' : Limits}
    {pool : AtomPool} (hpool : Machine.Ok (AtomPool.decode limits) pool poolBytes () env.atoms rest)
    (hschema : Schema.decode env.atoms limits' schemaBytes = .ok (env.schema, rest'))
    {heap : HeapImage}
    (hheap : decodeHeap env.growth env.schema env.atoms env.limits heapBytes = .ok (heap, rest''))
    {vm : ReplayVM} (hvm : Visits env (ReplayVM.seed {} heap) journal vm) {q : Query}
    (hq : q.FieldFree) :
    ((vm.queryEngine env).execute q.toExpr).Answers vm.nodes.data
        (q.reads env.atoms.isFirst env.schema vm.nodes.data) ∧
      (env.atoms.atoms.Nodup → ((vm.queryEngine env).execute q.toExpr).Answers vm.nodes.data
        (q.reads env.atoms.hasText env.schema vm.nodes.data)) := by
  obtain ⟨k, r, hstate⟩ := visits_iff.mp hvm
  have hsound := sound_of_stateAt hids hheap hstate
  have hsize : vm.nodes.data.length < 2 ^ 32 := Nat.lt_of_le_of_lt vm.size_le_weight hsound.room
  have hatoms : (vm.queryEngine env).atoms.Indexed := AtomPool.decode_indexed hpool
  have hfirst : ((vm.queryEngine env).execute q.toExpr).Answers vm.nodes.data
      (q.reads env.atoms.isFirst env.schema vm.nodes.data) := by
    have heval : (vm.queryEngine env).evalNode q.toExpr =
        q.reads env.atoms.isFirst env.schema vm.nodes.data :=
      funext (QueryEngine.evalNode_toExpr hatoms (Schema.decode_typed hschema).kind_invalid hq)
    rw [← heval]
    exact QueryEngine.execute_answers hsize q.toExpr
  refine ⟨hfirst, fun hnodup => ?_⟩
  rwa [Query.reads_congr (fun a s => ?_)] at hfirst
  rw [Bool.eq_iff_iff, AtomPool.isFirst, AtomPool.hasText, beq_iff_eq, beq_iff_eq,
    AtomPool.idxOf?_eq_some_iff_get hnodup]

/-! ### A repeated name -/

/-- A pool that holds `a` twice. -/
def repeatedPool : AtomPool := (AtomPool.decode {} {} [2, 1, 0x61, 1, 0x61]).2

/-- One kind, named by the second of them. -/
def secondNamed : Env where
  atoms := repeatedPool
  schema := { kinds := [{ name := 1 }] }

/-- A node of it. -/
def secondNode : HeapImage :=
  ⟨Vec.empty.pushBack Growth.doubling { id := 0, kind := 0, name := 1 }⟩

theorem secondNamed_pool :
    Machine.Ok (AtomPool.decode {}) {} [2, 1, 0x61, 1, 0x61] () secondNamed.atoms [] :=
  Machine.ok_of_fst rfl

theorem secondNamed_schema :
    Schema.decode secondNamed.atoms {} [1, 1, 0] = .ok (secondNamed.schema, []) := rfl

theorem secondNamed_heap : decodeHeap secondNamed.growth secondNamed.schema secondNamed.atoms
    secondNamed.limits [1, 0, 0, 1, 0] = .ok (secondNode, []) := rfl

theorem secondNamed_visits :
    Visits secondNamed (ReplayVM.seed {} secondNode) [0] (ReplayVM.seed {} secondNode) :=
  ⟨0, [], 0, [], rfl, by decide, Nat.le_refl 0, rfl⟩

/-- **A repeated name is missed**: the query for it resolves to the other atom. -/
theorem repeated_name_missed : ¬ ∀ (env : Env) (limits limits' : Limits) (pool : AtomPool)
    (poolBytes schemaBytes heapBytes rest rest' rest'' journal : Bytes) (heap : HeapImage)
    (vm : ReplayVM) (q : Query), env.limits.IdsFit →
    Machine.Ok (AtomPool.decode limits) pool poolBytes () env.atoms rest →
    Schema.decode env.atoms limits' schemaBytes = .ok (env.schema, rest') →
    decodeHeap env.growth env.schema env.atoms env.limits heapBytes = .ok (heap, rest'') →
    Visits env (ReplayVM.seed {} heap) journal vm → q.FieldFree →
      ((vm.queryEngine env).execute q.toExpr).Answers vm.nodes.data
        (q.reads env.atoms.hasText env.schema vm.nodes.data) := by
  intro h
  have hans := (h secondNamed {} {} {} _ _ _ _ _ _ _ _ _ (.kindMatch [0x61]) idsFit_default
    secondNamed_pool secondNamed_schema secondNamed_heap secondNamed_visits trivial).ids
  revert hans
  decide

/-- The same query over the first atom, and a child that is not there. -/
theorem execute_reads_secondNamed :
    (((ReplayVM.seed {} secondNode).queryEngine secondNamed).execute
        (Query.or (.not (.kindMatch [0x61])) (.hasChild [0x62])).toExpr).Answers [secondNode.nodes.data[0]]
      ((Query.or (.not (.kindMatch [0x61])) (.hasChild [0x62])).reads secondNamed.atoms.isFirst
        secondNamed.schema [secondNode.nodes.data[0]]) :=
  (execute_reads idsFit_default secondNamed_pool secondNamed_schema secondNamed_heap
    secondNamed_visits (q := .or (.not (.kindMatch [0x61])) (.hasChild [0x62])) ⟨trivial, trivial⟩).1

end Stratavm
