import Stratavm.Format

/-!
# Query tokens and expression trees

`query.hpp`: `QueryToken`, `QueryExpr` and their enumerations. `QueryExpr` is the source's untyped node: one
record for every kind, with the fields of all kinds and any number of children, and the parser and the
evaluator are written over it.

`Query` is the expression such a tree stands for, with the children each kind must have, and `toExpr` is its
tree. The grammar and the composition laws are stated over `Query`; that two queries with one tree are one
query (`toExpr_inj`) carries them back.

A `QueryExpr` owns its children by `unique_ptr` in the source, so a tree is shared by nothing and is a value.
-/

namespace Stratavm

/-- `QueryTokenKind`, in the source's order; `sentinel` is `END`. -/
inductive QueryTokenKind where
  | kind
  | field
  | hasChild
  | hasRef
  | alive
  | any
  | and
  | or
  | not
  | lparen
  | rparen
  | eq
  | neq
  | lt
  | gt
  | le
  | ge
  | colon
  | string
  | integer
  | ident
  | sentinel
  deriving DecidableEq, Repr

/-- `QueryToken`. -/
structure QueryToken where
  kind : QueryTokenKind := .sentinel
  stringVal : Bytes := []
  intVal : Int64 := 0
  pos : Nat := 0
  deriving DecidableEq, Repr

/-- `QueryNodeKind`. -/
inductive QueryNodeKind where
  | literal
  | and
  | or
  | not
  | kindMatch
  | fieldCmp
  | hasChild
  | hasRef
  | anyAlive
  | true
  deriving DecidableEq, Repr

/-- `CmpOp`. -/
inductive CmpOp where
  | eq
  | neq
  | lt
  | gt
  | le
  | ge
  deriving DecidableEq, Repr

/-- `QueryExpr`. -/
structure QueryExpr where
  kind : QueryNodeKind := .true
  cmpOp : CmpOp := .eq
  atomName : Bytes := []
  intVal : Int64 := 0
  atomVal : Bytes := []
  useAtomVal : Bool := false
  children : List QueryExpr := []

/-! ## Expressions -/

/-- The right-hand side of a field comparison. -/
inductive Literal where
  | string (s : Bytes)
  | integer (v : Int64)
  deriving DecidableEq, Repr

/-- A query. -/
inductive Query where
  | or (lhs rhs : Query)
  | and (lhs rhs : Query)
  | not (inner : Query)
  | kindMatch (name : Bytes)
  | fieldCmp (field : Bytes) (op : CmpOp) (value : Literal)
  | hasChild (name : Bytes)
  | hasRef (name : Bytes)
  | anyAlive
  deriving DecidableEq, Repr

/-- `atom_val` of a comparison. -/
def Literal.atomVal : Literal → Bytes
  | .string s => s
  | .integer _ => []

/-- `int_val` of a comparison. -/
def Literal.intVal : Literal → Int64
  | .string _ => 0
  | .integer v => v

/-- `use_atom_val` of a comparison. -/
def Literal.useAtomVal : Literal → Bool
  | .string _ => Bool.true
  | .integer _ => Bool.false

theorem Literal.ext_fields {v w : Literal} (ha : v.atomVal = w.atomVal) (hi : v.intVal = w.intVal)
    (hu : v.useAtomVal = w.useAtomVal) : v = w := by
  cases v <;> cases w
  · exact congrArg Literal.string ha
  · cases hu
  · cases hu
  · exact congrArg Literal.integer hi

/-- The source's tree of a query. -/
def Query.toExpr : Query → QueryExpr
  | .or lhs rhs => { kind := .or, children := [lhs.toExpr, rhs.toExpr] }
  | .and lhs rhs => { kind := .and, children := [lhs.toExpr, rhs.toExpr] }
  | .not inner => { kind := .not, children := [inner.toExpr] }
  | .kindMatch name => { kind := .kindMatch, atomName := name }
  | .fieldCmp field op value =>
    { kind := .fieldCmp, atomName := field, cmpOp := op, atomVal := value.atomVal,
      intVal := value.intVal, useAtomVal := value.useAtomVal }
  | .hasChild name => { kind := .hasChild, atomName := name }
  | .hasRef name => { kind := .hasRef, atomName := name }
  | .anyAlive => { kind := .anyAlive }

/-- Two queries with one tree are one query. -/
theorem Query.toExpr_inj {q q' : Query} (h : q.toExpr = q'.toExpr) : q = q' := by
  induction q generalizing q' with
  | or lhs rhs ihl ihr =>
    cases q' with
    | or lhs' rhs' =>
      simp only [toExpr, QueryExpr.mk.injEq, List.cons.injEq, true_and, and_true] at h
      rw [ihl h.1, ihr h.2]
    | _ => simp [toExpr] at h
  | and lhs rhs ihl ihr =>
    cases q' with
    | and lhs' rhs' =>
      simp only [toExpr, QueryExpr.mk.injEq, List.cons.injEq, true_and, and_true] at h
      rw [ihl h.1, ihr h.2]
    | _ => simp [toExpr] at h
  | not inner ih =>
    cases q' with
    | not inner' =>
      simp only [toExpr, QueryExpr.mk.injEq, List.cons.injEq, true_and, and_true] at h
      rw [ih h]
    | _ => simp [toExpr] at h
  | fieldCmp field op value =>
    cases q' with
    | fieldCmp field' op' value' =>
      simp only [toExpr, QueryExpr.mk.injEq, true_and, and_true] at h
      obtain ⟨rfl, rfl, hi, ha, hu⟩ := h
      rw [Literal.ext_fields ha hi hu]
    | _ => simp [toExpr] at h
  | kindMatch name => cases q' <;> simp_all [toExpr]
  | hasChild name => cases q' <;> simp_all [toExpr]
  | hasRef name => cases q' <;> simp_all [toExpr]
  | anyAlive => cases q' <;> simp_all [toExpr]

end Stratavm
