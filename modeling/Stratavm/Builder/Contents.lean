import Stratavm.Builder.Record

/-!
# A program for given contents

`Contents` lists what the sections of a container hold, in the order in which they hold it, and `program`
calls the builder for each item of it. It is the way back from a file that was read to a builder that
could have written it.

Not all contents have a program. The setters of the builder take no invalid value and name a node by a
32-bit id (`Callable`), and `intern` returns the id of a text that it has, so a text that is listed twice
would shift the ids after it (`Nodup`).

* `emitted_program`, `recorded_program`: a program says what the contents list.
* **`build_program`**: the builder of the program holds the contents (`HeldBy`).
* `interned_build`: no builder lists a text twice, whatever its program.
-/

namespace Stratavm

open Lib

namespace ContainerBuilder

/-- A heap node, with the values that are set for its fields in order. -/
structure HeapNodeSets where
  kind : KindId
  name : AtomId
  sets : List (FieldId × Value) := []

/-- The contents of a container, section by section. The last two sections are optional. -/
structure Contents where
  atoms : List Bytes := []
  kinds : List KindDef := []
  heap : List HeapNodeSets := []
  ops : List Op := []
  xref : Option (List (AtomId × NodeId)) := none
  metaEntries : Option (List (AtomId × AtomId)) := none

/-! ## The calls -/

/-- The setter of a heap field. There is none for an invalid value. -/
def heapCall? (node : NodeId) : FieldId × Value → Option Call
  | (field, .int v) => some (.heapInt node field v)
  | (field, .float v) => some (.heapFloat node field v)
  | (field, .atom v) => some (.heapAtom node field v)
  | (field, .ref v) => some (.heapRef node field v)
  | (field, .list v) => some (.heapList node field v)
  | (_, .invalid) => none

/-- The call that emits an opcode. -/
def opCall? : Op → Option Call
  | .newNode kind name => some (.opNewNode kind name)
  | .setField node field (.int v) => some (.opSetInt node field v)
  | .setField node field (.float v) => some (.opSetFloat node field v)
  | .setField node field (.atom v) => some (.opSetAtom node field v)
  | .setField node field (.ref v) => some (.opSetRef node field v)
  | .setField node field (.list v) => some (.opSetList node field v)
  | .setField _ _ .invalid => none
  | .beginGroup owner hint => some (.opBeginGroup owner hint)
  | .endGroup => some .opEndGroup
  | .addChild child => some (.opAddChild child)
  | .linkRef src field target => some (.opLinkRef src field target)
  | .dropNode node => some (.opDropNode node)
  | .snapshot label => some (.opSnapshot label)
  | .setMeta key value => some (.opSetMeta key value)
  | .nop => some .opNop

/-- The calls for a heap node at position `i`. -/
def nodeCalls (i : Nat) (n : HeapNodeSets) : List Call :=
  .heapNode n.kind n.name :: n.sets.filterMap (heapCall? (UInt32.ofNat i))

/-- The calls for the heap nodes, the first of them at position `i`. -/
def heapCalls : Nat → List HeapNodeSets → List Call
  | _, [] => []
  | i, n :: ns => nodeCalls i n ++ heapCalls (i + 1) ns

/-- The calls for an optional section: its entries, and that it is emitted without any. -/
def sectionCalls {α : Type} (entry : α → Call) (on : Call) : Option (List α) → List Call
  | none => []
  | some entries => entries.map entry ++ [on]

/-- The program of the contents. -/
def Contents.program (c : Contents) : List Call :=
  c.atoms.map .atom ++ (c.kinds.map (fun k => .defineKind k.name k.fields) ++ (heapCalls 0 c.heap ++
    (c.ops.filterMap opCall? ++ (sectionCalls (fun e => .xrefEntry e.1 e.2) (.setEmitXref true) c.xref ++
      sectionCalls (fun e => .metaEntry e.1 e.2) (.setEmitMeta true) c.metaEntries))))

/-- The heap entry of a node. -/
def HeapNodeSets.spec (n : HeapNodeSets) : HeapNodeSpec where
  kind := n.kind
  name := n.name
  fields := n.sets.map encodeField

/-- Contents that have calls: the nodes have ids and the values are valid. -/
structure Contents.Callable (c : Contents) : Prop where
  ids : c.heap.length ≤ 2 ^ 32
  sets : ∀ n ∈ c.heap, ∀ s ∈ n.sets, s.2.type ≠ .invalid
  ops : ∀ node field v, .setField node field v ∈ c.ops → v.type ≠ .invalid

/-! ## What a program says -/

section Said

variable {i : Nat} {ns : List HeapNodeSets} {sets : List (FieldId × Value)} {ops : List Op}

theorem heapCall?_eq (node : NodeId) {s : FieldId × Value} (h : s.2.type ≠ .invalid) :
    ∃ c, heapCall? node s = some c ∧ c.op? = none ∧ c.heapField? = some (node, s) ∧
      ∀ b : ContainerBuilder, b.apply c = b.pushHeapField node s.1 s.2.payload := by
  obtain ⟨field, v⟩ := s
  cases v with
  | invalid => exact absurd rfl h
  | int | float | atom | ref | list => exact ⟨_, rfl, rfl, rfl, fun _ => rfl⟩

theorem opCall?_eq (op : Op) (h : ∀ node field v, op = .setField node field v → v.type ≠ .invalid) :
    ∃ c, opCall? op = some c ∧ c.op? = some op ∧ c.heapField? = none ∧
      ∀ b : ContainerBuilder, b.apply c = some (b.emit op.code op.operands) := by
  cases op with
  | setField node field v =>
    cases v with
    | invalid => exact absurd rfl (h node field .invalid rfl)
    | int | float | atom | ref | list => exact ⟨_, rfl, rfl, rfl, fun _ => rfl⟩
  | _ => exact ⟨_, rfl, rfl, rfl, fun _ => rfl⟩

theorem emitted_calls_append (xs ys : List Call) : emitted (xs ++ ys) = emitted xs ++ emitted ys :=
  List.filterMap_append

theorem recorded_calls_append (xs ys : List Call) (j : Nat) :
    recorded (xs ++ ys) j = recorded xs j ++ recorded ys j := by
  simp [recorded, List.filterMap_append]

/-- Calls that set no heap field. -/
theorem recorded_eq_nil {calls : List Call} (h : ∀ c ∈ calls, c.heapField? = none) (j : Nat) :
    recorded calls j = [] := by
  have hnone : calls.filterMap Call.heapField? = [] := List.filterMap_eq_nil_iff.mpr h
  simp [recorded, hnone]

/-- Calls that emit no opcode. -/
theorem emitted_eq_nil {calls : List Call} (h : ∀ c ∈ calls, c.op? = none) : emitted calls = [] :=
  List.filterMap_eq_nil_iff.mpr h

theorem emitted_ops (h : ∀ node field v, .setField node field v ∈ ops → v.type ≠ .invalid) :
    emitted (ops.filterMap opCall?) = ops ∧ ∀ c ∈ ops.filterMap opCall?, c.heapField? = none := by
  induction ops with
  | nil => exact ⟨rfl, nofun⟩
  | cons op ops ih =>
    obtain ⟨c, hc, hop, hfield, -⟩ := opCall?_eq op
      fun node field v heq => h node field v (heq ▸ List.mem_cons_self)
    obtain ⟨hemit, hfields⟩ := ih fun node field v hm => h node field v (List.mem_cons_of_mem _ hm)
    rw [List.filterMap_cons_some hc]
    refine ⟨?_, List.forall_mem_cons.mpr ⟨hfield, hfields⟩⟩
    rw [emitted, List.filterMap_cons_some hop]
    exact congrArg (op :: ·) hemit

/-- The setters of one node. -/
theorem recorded_sets (node : NodeId) (h : ∀ s ∈ sets, s.2.type ≠ .invalid) (j : Nat) :
    recorded (sets.filterMap (heapCall? node)) j = (if node.toNat = j then sets else []) ∧
      ∀ c ∈ sets.filterMap (heapCall? node), c.op? = none := by
  induction sets with
  | nil => exact ⟨by simp [recorded], nofun⟩
  | cons s sets ih =>
    obtain ⟨hs, hsets⟩ := List.forall_mem_cons.mp h
    obtain ⟨c, hc, hop, hfield, -⟩ := heapCall?_eq node hs
    obtain ⟨hrec, hops⟩ := ih hsets
    rw [List.filterMap_cons_some hc]
    refine ⟨?_, List.forall_mem_cons.mpr ⟨hop, hops⟩⟩
    have happend := recorded_calls_append [c] (sets.filterMap (heapCall? node)) j
    rw [List.singleton_append] at happend
    rw [happend, hrec]
    by_cases hj : node.toNat = j <;> simp [recorded, hfield, hj]

theorem recorded_nodeCalls {n : HeapNodeSets} (hn : ∀ s ∈ n.sets, s.2.type ≠ .invalid) (hi : i < 2 ^ 32)
    (j : Nat) : recorded (nodeCalls i n) j = (if i = j then n.sets else []) ∧
      ∀ c ∈ nodeCalls i n, c.op? = none := by
  obtain ⟨hsets, hops⟩ := recorded_sets (UInt32.ofNat i) hn j
  refine ⟨?_, List.forall_mem_cons.mpr ⟨rfl, hops⟩⟩
  rw [toNat_ofNat_of_lt hi] at hsets
  exact hsets

/-- The heap calls set the fields of their nodes, and emit nothing. -/
theorem recorded_heapCalls (h : ∀ n ∈ ns, ∀ s ∈ n.sets, s.2.type ≠ .invalid) (hi : i + ns.length ≤ 2 ^ 32)
    (j : Nat) : recorded (heapCalls i ns) j = (if i ≤ j then (ns[j - i]?.map HeapNodeSets.sets).getD [] else []) ∧
      ∀ c ∈ heapCalls i ns, c.op? = none := by
  induction ns generalizing i with
  | nil => exact ⟨by simp [heapCalls, recorded], nofun⟩
  | cons n ns ih =>
    obtain ⟨hn, hns⟩ := List.forall_mem_cons.mp h
    rw [List.length_cons] at hi
    obtain ⟨hnode, hops⟩ := recorded_nodeCalls hn (i := i) (by omega) j
    obtain ⟨hrec, hrestops⟩ := ih hns (i := i + 1) (by omega)
    refine ⟨?_, List.forall_mem_append.mpr ⟨hops, hrestops⟩⟩
    rw [heapCalls, recorded_calls_append, hnode, hrec]
    rcases Nat.lt_trichotomy i j with hlt | rfl | hgt
    · have hpos : j - i = j - (i + 1) + 1 := by omega
      rw [if_neg (Nat.ne_of_lt hlt), if_pos (show i + 1 ≤ j from hlt), if_pos (Nat.le_of_lt hlt), hpos, List.getElem?_cons_succ,
        List.nil_append]
    · simp
    · rw [if_neg (Nat.ne_of_gt hgt), if_neg (by omega), if_neg (by omega)]
      rfl

end Said

section Program

variable {c : Contents}

theorem sectionCalls_quiet {α : Type} {entry : α → Call} {on : Call} (hentry : ∀ e, (entry e).op? = none ∧
    (entry e).heapField? = none) (hon : on.op? = none ∧ on.heapField? = none) (entries : Option (List α)) :
    ∀ call ∈ sectionCalls entry on entries, call.op? = none ∧ call.heapField? = none := by
  cases entries with
  | none => exact nofun
  | some entries =>
    refine List.forall_mem_append.mpr ⟨fun call hm => ?_, List.forall_mem_singleton.mpr hon⟩
    obtain ⟨e, -, rfl⟩ := List.mem_map.mp hm
    exact hentry e

/-- **A program emits its opcodes**, -/
theorem emitted_program (h : c.Callable) : emitted c.program = c.ops := by
  have hatoms : emitted (c.atoms.map .atom) = [] := emitted_eq_nil (List.forall_mem_map.mpr fun _ _ => rfl)
  have hkinds : emitted (c.kinds.map fun k => .defineKind k.name k.fields) = [] :=
    emitted_eq_nil (List.forall_mem_map.mpr fun _ _ => rfl)
  have hheap : emitted (heapCalls 0 c.heap) = [] :=
    emitted_eq_nil (recorded_heapCalls h.sets (by simpa using h.ids) 0).2
  have hxref : emitted (sectionCalls (fun e => .xrefEntry e.1 e.2) (.setEmitXref true) c.xref) = [] :=
    emitted_eq_nil fun call hm => (sectionCalls_quiet (fun _ => ⟨rfl, rfl⟩) ⟨rfl, rfl⟩ _ call hm).1
  have hmeta : emitted (sectionCalls (fun e => .metaEntry e.1 e.2) (.setEmitMeta true) c.metaEntries) = [] :=
    emitted_eq_nil fun call hm => (sectionCalls_quiet (fun _ => ⟨rfl, rfl⟩) ⟨rfl, rfl⟩ _ call hm).1
  simp only [Contents.program, emitted_calls_append, hatoms, hkinds, hheap, hxref, hmeta, (emitted_ops h.ops).1,
    List.nil_append, List.append_nil]

/-- and records the fields of its heap nodes. -/
theorem recorded_program (h : c.Callable) (j : Nat) :
    recorded c.program j = (c.heap[j]?.map HeapNodeSets.sets).getD [] := by
  have hatoms : recorded (c.atoms.map .atom) j = [] := recorded_eq_nil (by simp [Call.heapField?]) j
  have hkinds : recorded (c.kinds.map fun k => .defineKind k.name k.fields) j = [] :=
    recorded_eq_nil (by simp [Call.heapField?]) j
  have hheap := (recorded_heapCalls h.sets (i := 0) (by simpa using h.ids) j).1
  have hops : recorded (c.ops.filterMap opCall?) j = [] := recorded_eq_nil (emitted_ops h.ops).2 j
  have hxref : recorded (sectionCalls (fun e => .xrefEntry e.1 e.2) (.setEmitXref true) c.xref) j = [] :=
    recorded_eq_nil (fun call hm => (sectionCalls_quiet (fun _ => ⟨rfl, rfl⟩) ⟨rfl, rfl⟩ _ call hm).2) j
  have hmeta : recorded (sectionCalls (fun e => .metaEntry e.1 e.2) (.setEmitMeta true) c.metaEntries) j = [] :=
    recorded_eq_nil (fun call hm => (sectionCalls_quiet (fun _ => ⟨rfl, rfl⟩) ⟨rfl, rfl⟩ _ call hm).2) j
  simp only [Contents.program, recorded_calls_append, hatoms, hkinds, hheap, hops, hxref, hmeta, List.nil_append,
    List.append_nil, Nat.zero_le, if_true, Nat.sub_zero]

end Program

/-! ## The builder it makes -/

section Build

variable {b : ContainerBuilder}

theorem runCalls_cons (c : Call) (calls : List Call) :
    b.runCalls (c :: calls) = (b.apply c).bind fun b' => b'.runCalls calls := rfl

theorem runCalls_append (xs ys : List Call) :
    b.runCalls (xs ++ ys) = (b.runCalls xs).bind fun b' => b'.runCalls ys := List.foldlM_append

/-- New texts are interned in order. -/
theorem runCalls_atoms {texts : List Bytes} (hnodup : texts.Nodup)
    (hnew : ∀ s ∈ texts, b.atomIndex.lookup s = none) : ∃ index,
      b.runCalls (texts.map .atom) = some { b with atoms := b.atoms ++ texts, atomIndex := index } := by
  induction texts generalizing b with
  | nil => exact ⟨b.atomIndex, by rw [List.append_nil]; rfl⟩
  | cons s texts ih =>
    obtain ⟨hs, htexts⟩ := List.forall_mem_cons.mp hnew
    obtain ⟨hnotin, hnodup⟩ := List.nodup_cons.mp hnodup
    let b1 : ContainerBuilder :=
      { b with atoms := b.atoms ++ [s], atomIndex := b.atomIndex.insert s (UInt32.ofNat b.atoms.length) }
    have hatom : b.apply (.atom s) = some b1 := by simp only [apply, atom, hs, b1]
    have hnew1 : ∀ t ∈ texts, b1.atomIndex.lookup t = none := by
      intro t ht
      have hne : t ≠ s := fun heq => hnotin (heq ▸ ht)
      exact (Finmap.lookup_insert_of_ne _ hne).trans (htexts t ht)
    obtain ⟨index, hrun⟩ := ih hnodup hnew1
    refine ⟨index, ?_⟩
    rw [List.map_cons, runCalls_cons, hatom, Option.bind_some, hrun]
    simp [b1]

theorem runCalls_kinds (kinds : List KindDef) : b.runCalls (kinds.map fun k => .defineKind k.name k.fields) =
    some { b with kinds := b.kinds ++ kinds } := by
  induction kinds generalizing b with
  | nil => simp [runCalls]
  | cons k kinds ih =>
    rw [List.map_cons, runCalls_cons, apply, Option.bind_some, ih]
    simp [defineKind]

theorem modify_concat {α : Type} (pre : List α) (a : α) (f : α → α) :
    (pre ++ [a]).modify pre.length f = pre ++ [f a] := by
  induction pre with
  | nil => rfl
  | cons x pre ih => simp [ih]

/-- The setters of the last node append to its fields. -/
theorem runCalls_sets {node : NodeId} {pre : List HeapNodeSpec} {n : HeapNodeSpec}
    {sets : List (FieldId × Value)} (h : ∀ s ∈ sets, s.2.type ≠ .invalid) (hb : b.heap = pre ++ [n])
    (hnode : node.toNat = pre.length) : b.runCalls (sets.filterMap (heapCall? node)) =
      some { b with heap := pre ++ [{ n with fields := n.fields ++ sets.map encodeField }] } := by
  induction sets generalizing b n with
  | nil => simp [runCalls, ← hb]
  | cons s sets ih =>
    obtain ⟨hs, hsets⟩ := List.forall_mem_cons.mp h
    obtain ⟨c, hc, -, -, happly⟩ := heapCall?_eq node hs
    let n1 : HeapNodeSpec := { n with fields := n.fields ++ [encodeField s] }
    have hpush : b.apply c = some { b with heap := pre ++ [n1] } := by
      rw [happly, pushHeapField, if_pos (by simp [hb, hnode]), hb, hnode, modify_concat]
      rfl
    rw [List.filterMap_cons_some hc, runCalls_cons, hpush, Option.bind_some, ih hsets rfl]
    simp [n1]

/-- The heap calls append their nodes. -/
theorem runCalls_heap {i : Nat} {ns : List HeapNodeSets} (h : ∀ n ∈ ns, ∀ s ∈ n.sets, s.2.type ≠ .invalid)
    (hi : i + ns.length ≤ 2 ^ 32) (hb : b.heap.length = i) :
    b.runCalls (heapCalls i ns) = some { b with heap := b.heap ++ ns.map HeapNodeSets.spec } := by
  induction ns generalizing b i with
  | nil => simp [heapCalls, runCalls]
  | cons n ns ih =>
    obtain ⟨hn, hns⟩ := List.forall_mem_cons.mp h
    rw [List.length_cons] at hi
    have hid : (UInt32.ofNat i).toNat = b.heap.length := by rw [toNat_ofNat_of_lt (by omega), hb]
    have hnode : b.runCalls (nodeCalls i n) = some { b with heap := b.heap ++ [n.spec] } := by
      rw [nodeCalls, runCalls_cons, apply, Option.bind_some, runCalls_sets hn rfl hid]
      simp [heapNode, HeapNodeSets.spec]
    rw [heapCalls, runCalls_append, hnode, Option.bind_some, ih hns (by omega) (by simp [hb])]
    simp

/-- Opcodes go to the journal. -/
theorem runCalls_ops {ops : List Op} (h : ∀ node field v, .setField node field v ∈ ops → v.type ≠ .invalid) :
    ∃ body count, b.runCalls (ops.filterMap opCall?) =
      some { b with journalBody := body, journalOps := count } := by
  induction ops generalizing b with
  | nil => exact ⟨b.journalBody, b.journalOps, rfl⟩
  | cons op ops ih =>
    obtain ⟨c, hc, -, -, happly⟩ := opCall?_eq op
      fun node field v heq => h node field v (heq ▸ List.mem_cons_self)
    obtain ⟨body, count, hrun⟩ := ih (b := b.emit op.code op.operands)
      fun node field v hm => h node field v (List.mem_cons_of_mem _ hm)
    refine ⟨body, count, ?_⟩
    rw [List.filterMap_cons_some hc, runCalls_cons, happly, Option.bind_some, hrun]
    rfl

/-- Entries of the XREF section, and the section itself. -/
theorem runCalls_xref (hoff : b.emitXref = false) (entries : Option (List (AtomId × NodeId))) :
    b.runCalls (sectionCalls (fun e => .xrefEntry e.1 e.2) (.setEmitXref true) entries) =
      some { b with xref := b.xref ++ entries.getD [], emitXref := entries.isSome } := by
  have hentries (es : List (AtomId × NodeId)) (b : ContainerBuilder) :
      b.runCalls (es.map (fun e => .xrefEntry e.1 e.2) ++ [.setEmitXref true]) =
        some { b with xref := b.xref ++ es, emitXref := true } := by
    induction es generalizing b with
    | nil => simp [runCalls, apply, setEmitXref]
    | cons e es ih =>
      rw [List.map_cons, List.cons_append, runCalls_cons, apply, Option.bind_some, ih]
      simp [xrefEntry]
  cases entries with
  | none => simp [sectionCalls, runCalls, ← hoff]
  | some es => exact hentries es b

/-- The same of the META section. -/
theorem runCalls_meta (hoff : b.emitMeta = false) (entries : Option (List (AtomId × AtomId))) :
    b.runCalls (sectionCalls (fun e => .metaEntry e.1 e.2) (.setEmitMeta true) entries) =
      some { b with metaEntries := b.metaEntries ++ entries.getD [], emitMeta := entries.isSome } := by
  have hentries (es : List (AtomId × AtomId)) (b : ContainerBuilder) :
      b.runCalls (es.map (fun e => .metaEntry e.1 e.2) ++ [.setEmitMeta true]) =
        some { b with metaEntries := b.metaEntries ++ es, emitMeta := true } := by
    induction es generalizing b with
    | nil => simp [runCalls, apply, setEmitMeta]
    | cons e es ih =>
      rw [List.map_cons, List.cons_append, runCalls_cons, apply, Option.bind_some, ih]
      simp [metaEntry]
  cases entries with
  | none => simp [sectionCalls, runCalls, ← hoff]
  | some es => exact hentries es b

/-- `b` holds the contents `c`. Its journal is what it records (`Records`). -/
structure Contents.HeldBy (c : Contents) (b : ContainerBuilder) : Prop where
  atoms : b.atoms = c.atoms
  kinds : b.kinds = c.kinds
  heap : b.heap = c.heap.map HeapNodeSets.spec
  xref : b.xref = c.xref.getD []
  emitXref : b.emitXref = c.xref.isSome
  metaEntries : b.metaEntries = c.metaEntries.getD []
  emitMeta : b.emitMeta = c.metaEntries.isSome

/-- **The program of contents builds them**, if it has a call for each item and no text twice. -/
theorem build_program {c : Contents} (h : c.Callable) (hatoms : c.atoms.Nodup) :
    ∃ b, build c.program = some b ∧ c.HeldBy b := by
  obtain ⟨index, hinterned⟩ := runCalls_atoms (b := {}) hatoms fun s _ => Finmap.lookup_empty s
  let b1 : ContainerBuilder := { atoms := c.atoms, atomIndex := index, kinds := c.kinds }
  let b2 : ContainerBuilder := { b1 with heap := c.heap.map HeapNodeSets.spec }
  have hheap : b1.runCalls (heapCalls 0 c.heap) = some b2 :=
    runCalls_heap h.sets (by simpa using h.ids) rfl
  obtain ⟨body, count, hops⟩ := runCalls_ops (b := b2) h.ops
  refine ⟨{ b2 with journalBody := body, journalOps := count, xref := c.xref.getD [], emitXref := c.xref.isSome
                    metaEntries := c.metaEntries.getD [], emitMeta := c.metaEntries.isSome },
    ?_, rfl, rfl, rfl, rfl, rfl, rfl, rfl⟩
  rw [build, Contents.program, runCalls_append, hinterned, Option.bind_some, runCalls_append, runCalls_kinds,
    Option.bind_some, runCalls_append]
  show (b1.runCalls _).bind _ = _
  rw [hheap, Option.bind_some, runCalls_append, hops, Option.bind_some, runCalls_append, runCalls_xref rfl,
    Option.bind_some, runCalls_meta rfl]
  rfl

end Build

/-! ## The atoms of a builder -/

/-- Every atom is indexed, and no text is listed twice. -/
structure Interned (b : ContainerBuilder) : Prop where
  nodup : b.atoms.Nodup
  indexed : ∀ s ∈ b.atoms, b.atomIndex.lookup s ≠ none

namespace Interned

variable {b b' : ContainerBuilder}

theorem congr (h : b.Interned) (hatoms : b'.atoms = b.atoms) (hindex : b'.atomIndex = b.atomIndex) :
    b'.Interned := ⟨hatoms ▸ h.nodup, fun s hs => hindex ▸ h.indexed s (hatoms ▸ hs)⟩

theorem pushHeapField (h : b.Interned) {node : NodeId} {field : FieldId} {bytes : Bytes}
    (hb : b.pushHeapField node field bytes = some b') : b'.Interned := by
  obtain ⟨-, hb'⟩ := Option.ite_none_right_eq_some.mp hb
  obtain rfl := Option.some.inj hb'
  exact h.congr rfl rfl

/-- **A call keeps the atoms interned.** -/
theorem apply (h : b.Interned) {c : Call} (hb : b.apply c = some b') : b'.Interned := by
  cases c with
  | atom text =>
    obtain rfl := Option.some.inj hb
    unfold ContainerBuilder.atom
    cases htext : b.atomIndex.lookup text with
    | some id => exact h
    | none =>
      refine ⟨List.nodup_append.mpr ⟨h.nodup, List.nodup_singleton text, fun s hs t ht heq => ?_⟩, fun s hs => ?_⟩
      · obtain rfl := List.mem_singleton.mp ht
        exact h.indexed s hs (heq ▸ htext)
      · by_cases heq : s = text
        · subst heq
          simp
        · rcases List.mem_append.mp hs with hs | hs
          · simpa [Finmap.lookup_insert_of_ne _ heq] using h.indexed s hs
          · exact absurd (List.mem_singleton.mp hs) heq
  | heapInt | heapFloat | heapAtom | heapRef | heapList => exact h.pushHeapField hb
  | _ =>
    obtain rfl := Option.some.inj hb
    exact h.congr rfl rfl

end Interned

theorem interned_build {calls : List Call} {b : ContainerBuilder} (h : build calls = some b) : b.Interned := by
  induction calls using List.reverseRecOn generalizing b with
  | nil =>
    obtain rfl := Option.some.inj h
    exact ⟨List.nodup_nil, nofun⟩
  | append_singleton calls c ih =>
    rw [build, runCalls_append] at h
    obtain ⟨mid, hmid, hc⟩ := Option.bind_eq_some_iff.mp h
    obtain ⟨b1, hb1, hb'⟩ := Option.bind_eq_some_iff.mp hc
    obtain rfl := Option.some.inj hb'
    exact (ih hmid).apply hb1

end ContainerBuilder

end Stratavm
