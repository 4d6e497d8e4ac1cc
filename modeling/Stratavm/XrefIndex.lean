import Stratavm.Heap

/-!
# The cross-reference index and the optional sections

`XrefIndex` (`xref_index.hpp`, `xref_index.cpp`): lookup structures over a node table, and the
decoder of the XREF section, which reconciles its entries with them. An entry that disagrees is counted as
a warning and not refused; one whose name or node is out of range is refused.

`decodeMetaSection` is the decoder of the META section (`loader.cpp`). Both sections are a count and that
many pairs of ids (`readPair`).

`XrefIndex/Inverse.lean` says that the index is the inverse of the table it was built of.
-/

namespace Stratavm

open Lib Lib.Decoder

/-- `XrefEntry`, or a key and a value of META: two ids. -/
def readPair : Reader (UInt32 × UInt32) := do
  let first ← readVarintU32
  let second ← readVarintU32
  pure (first, second)

/-- `XrefIndex`. -/
structure XrefIndex where
  nameToId : UMap AtomId NodeId := ∅
  kindToIds : UMap KindId (List NodeId) := ∅
  reverseAdj : List (List NodeId) := []

namespace XrefIndex

/-- `reverse_adj_[t].push_back(id)` for each `t` in range. -/
def recordEdges (id : NodeId) (targets : List NodeId) (adj : List (List NodeId)) :
    List (List NodeId) :=
  targets.foldl (fun adj t => adj.modify t.toNat (· ++ [id])) adj

/-- `XrefIndex::build`. -/
def build (nodes : List Node) : XrefIndex where
  nameToId := nodes.foldl (fun index n =>
    if n.name ≠ kInvalidAtom ∧ n.alive = true then index.insert n.name n.id else index) ∅
  kindToIds := nodes.foldl (fun index n =>
    if n.kind ≠ kInvalidKind then index.insert n.kind ((index.lookup n.kind).getD [] ++ [n.id])
    else index) ∅
  reverseAdj := nodes.foldl (fun adj n => recordEdges n.id n.children (recordEdges n.id n.refs adj))
    (List.replicate nodes.length [])

/-- `XrefIndex::by_name`. -/
def byName (index : XrefIndex) (name : AtomId) : NodeId :=
  (index.nameToId.lookup name).getD kInvalidNode

/-- `XrefIndex::decode_and_reconcile`: the warnings it adds. -/
def decodeAndReconcile (index : XrefIndex) (atoms : AtomPool) (limits : Limits)
    (nodeCount : Nat) : Reader UInt32 := do
  let entryCount ← readVarintU32
  if entryCount > limits.maxNodes then fail .limitExceeded "xref entry count too large"
  else loop (fun _ (warnings : UInt32) => do
    let e ← readPair
    if e.1 ≠ kInvalidAtom ∧ atoms.get e.1 = none then fail .badXref "xref name out of range"
    else if e.2 ≠ kInvalidNode ∧ e.2.toNat ≥ nodeCount then fail .badXref "xref node out of range"
    else pure (if index.byName e.1 ≠ e.2 then warnings + 1 else warnings)) 0 entryCount.toNat 0

end XrefIndex

/-- The loop of `decode_meta_section`, `n` pairs left. -/
def decodeMetaPairs (atoms : AtomPool) : Nat → Machine Status (UMap AtomId AtomId) Unit
  | 0 => pure ()
  | n + 1 => do
    let e ← Machine.read id readPair
    if atoms.get e.1 = none then Machine.fail ⟨.atomOutOfRange, "meta key"⟩
    else if e.2 ≠ kInvalidAtom ∧ atoms.get e.2 = none then
      Machine.fail ⟨.atomOutOfRange, "meta value"⟩
    else do
      Machine.modify fun out => out.insert e.1 e.2
      decodeMetaPairs atoms n

/-- `decode_meta_section`. -/
def decodeMetaSection (atoms : AtomPool) (limits : Limits) :
    Machine Status (UMap AtomId AtomId) Unit := do
  let count ← Machine.read id readVarintU32
  if count > limits.maxAtoms then Machine.fail ⟨.limitExceeded, "meta count too large"⟩
  else decodeMetaPairs atoms count.toNat

end Stratavm
