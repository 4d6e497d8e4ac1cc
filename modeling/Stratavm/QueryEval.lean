import Stratavm.Heap
import Stratavm.Query

/-!
# Evaluating queries

`QueryEngine::execute` (`query.hpp`, `query_eval.cpp`): a scan of the node table with a predicate on
each alive node. Texts are resolved to atom ids when a node is looked at, and ids are compared, so a
text that is not in the pool compares with nothing.

`evalNode` walks the source's untyped tree and has its exits for a node with too few children; a tree
that `Query.toExpr` makes takes none of them. The counters of a result are 32-bit ones.

* **`execute_eq`**: the scan returns the ids of the alive nodes that the expression holds of, in table
  order, and counts the nodes it has seen and those it returns.

Out of scope: the lifetime of the pool, the schema and the table that the engine refers to. It owns none.
-/

namespace Stratavm

/-- `QueryResult`. -/
structure QueryResult where
  nodes : List NodeId := []
  scanned : UInt32 := 0
  matched : UInt32 := 0
  deriving DecidableEq

/-- `QueryEngine`. -/
structure QueryEngine where
  atoms : AtomPool
  schema : Schema
  nodes : List Node

namespace QueryEngine

/-- `QueryEngine::apply_cmp`. -/
def applyCmp : CmpOp → Int64 → Int64 → Bool
  | .eq, lhs, rhs => lhs == rhs
  | .neq, lhs, rhs => lhs != rhs
  | .lt, lhs, rhs => lhs < rhs
  | .gt, lhs, rhs => rhs < lhs
  | .le, lhs, rhs => lhs ≤ rhs
  | .ge, lhs, rhs => rhs ≤ lhs

/-- `static_cast<std::int64_t>` of an id. -/
def widen (id : UInt32) : Int64 := id.toUInt64.toInt64

/-- `kNotFound`. -/
def kNotFound : FieldId := 0xFFFFFFFF

/-- The scan of a kind's fields for a name. -/
def fieldNamed (kdef : KindDef) (fieldNameAtom : AtomId) : FieldId :=
  let scanned := kdef.fields.take (UInt32.ofNat kdef.fields.length).toNat
  ((scanned.findIdx? fun fd => fd.name == fieldNameAtom).map UInt32.ofNat).getD kNotFound

variable (engine : QueryEngine)

/-- `KindMatch`. -/
def matchKind (name : Bytes) (node : Node) : Bool :=
  let queryAtom := engine.atoms.find name
  if queryAtom = kInvalidAtom then false
  else if node.kind = kInvalidKind then false
  else
    match engine.schema.kind node.kind with
    | none => false
    | some kdef => kdef.name == queryAtom

/-- A stored value against a string literal. -/
def compareString (op : CmpOp) (val : Value) (literal : Bytes) : Bool :=
  match val.type with
  | .atom =>
    let queryAtom := engine.atoms.find literal
    if queryAtom = kInvalidAtom then false
    else applyCmp op (widen val.asAtom) (widen queryAtom)
  | _ => false

/-- A stored value against an integer literal. -/
def compareInt (op : CmpOp) (val : Value) (literal : Int64) : Bool :=
  match val.type with
  | .int => applyCmp op val.asInt literal
  | .ref => applyCmp op (widen val.asRef) literal
  | .atom => applyCmp op (widen val.asAtom) literal
  | _ => false

/-- The value of the field a `FieldCmp` names. -/
def fieldValue (field : Bytes) (node : Node) : Option Value :=
  if node.kind = kInvalidKind then none
  else
    match engine.schema.kind node.kind with
    | none => none
    | some kdef =>
      let fieldNameAtom := engine.atoms.find field
      if fieldNameAtom = kInvalidAtom then none
      else
        let fid := fieldNamed kdef fieldNameAtom
        if fid = kNotFound then none else node.field fid

/-- `HasChild` over the children, and `HasRef` over the references. -/
def hasNamed (name : Bytes) (ids : List NodeId) : Bool :=
  let queryAtom := engine.atoms.find name
  if queryAtom = kInvalidAtom then false
  else ids.any fun id =>
    match engine.nodes[id.toNat]? with
    | none => false
    | some m => m.alive && m.name == queryAtom

/-- `QueryEngine::eval_node`. -/
def evalNode : QueryExpr → Node → Bool
  | ⟨kind, cmpOp, atomName, intVal, atomVal, useAtomVal, children⟩, node =>
    match kind with
    | .true => true
    | .anyAlive => true
    | .and =>
      match children with
      | lhs :: rhs :: _ => evalNode lhs node && evalNode rhs node
      | _ => false
    | .or =>
      match children with
      | lhs :: rhs :: _ => evalNode lhs node || evalNode rhs node
      | _ => false
    | .not =>
      match children with
      | inner :: _ => !evalNode inner node
      | [] => false
    | .kindMatch => engine.matchKind atomName node
    | .fieldCmp =>
      match engine.fieldValue atomName node with
      | none => false
      | some val =>
        if useAtomVal then engine.compareString cmpOp val atomVal
        else compareInt cmpOp val intVal
    | .hasChild => engine.hasNamed atomName node.children
    | .hasRef => engine.hasNamed atomName node.refs
    | .literal => false

/-- The loop of `execute`. -/
def scanNode (expr : QueryExpr) (result : QueryResult) (node : Node) : QueryResult :=
  let result := { result with scanned := result.scanned + 1 }
  if node.alive = false then result
  else if engine.evalNode expr node then
    { result with matched := result.matched + 1, nodes := result.nodes ++ [node.id] }
  else result

/-- `QueryEngine::execute` of an expression. -/
def execute (expr : QueryExpr) : QueryResult := engine.nodes.foldl (engine.scanNode expr) {}

/-- A stored value against the literal of a query. -/
def compareLiteral (op : CmpOp) (val : Value) : Literal → Bool
  | .string s => engine.compareString op val s
  | .integer v => compareInt op val v

/-- A comparison holds of a node that has the field, with a value that compares. -/
theorem evalNode_fieldCmp (field : Bytes) (op : CmpOp) (literal : Literal) (node : Node) :
    engine.evalNode (Query.fieldCmp field op literal).toExpr node =
      (engine.fieldValue field node).any fun val => engine.compareLiteral op val literal := by
  simp only [Query.toExpr, evalNode]
  cases engine.fieldValue field node with
  | none => rfl
  | some val => cases literal <;> rfl

/-! ## The scan -/

/-- The nodes a query returns. -/
def selects (expr : QueryExpr) (node : Node) : Bool := node.alive && engine.evalNode expr node

/-- **A scan selects from the table** and counts what it sees and what it returns. -/
theorem execute_eq (expr : QueryExpr) : engine.execute expr =
    { nodes := (engine.nodes.filter (engine.selects expr)).map Node.id
      scanned := UInt32.ofNat engine.nodes.length
      matched := UInt32.ofNat (engine.nodes.filter (engine.selects expr)).length } := by
  rw [execute]
  generalize engine.nodes = nodes
  induction nodes using List.reverseRecOn with
  | nil => rfl
  | append_singleton nodes node ih =>
    rw [List.foldl_append, ih, List.foldl_cons, List.foldl_nil, scanNode, List.filter_append,
      List.filter_cons, List.filter_nil]
    cases ha : node.alive with
    | false => simp [selects, ha]
    | true => cases he : engine.evalNode expr node <;> simp [selects, ha, he]

end QueryEngine

end Stratavm
