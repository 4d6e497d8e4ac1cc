import Stratavm.Builder

/-!
# What a builder program records

A builder encodes values and opcodes as they arrive, so its fields are bytes and two programs may
lead to one builder. `emitted` and `recorded` are what a program said: its opcodes, and for each heap
node the fields it set, in order and with repetitions.

`Records` ties a builder's bytes to it: the journal is the encodings of the emitted opcodes, and the
fields of a heap node are those recorded for it, encoded (`encodeField`).

* **`Records.apply`**: every call keeps it. Calls differ in what they touch, and there is one lemma for
  each way: `congr` for calls that record nothing, `emit`, `heapNode` and `pushHeapField`.
* **`records_build`**: so every program's builder records its program.
-/

namespace Stratavm

open Lib

namespace ContainerBuilder

/-- The opcode a call emits. -/
def Call.op? : Call → Option Op
  | .opNewNode kind name => some (.newNode kind name)
  | .opSetInt node field v => some (.setField node field (.int v))
  | .opSetFloat node field v => some (.setField node field (.float v))
  | .opSetAtom node field v => some (.setField node field (.atom v))
  | .opSetRef node field v => some (.setField node field (.ref v))
  | .opSetList node field v => some (.setField node field (.list v))
  | .opBeginGroup ownerName hint => some (.beginGroup ownerName hint)
  | .opAddChild childName => some (.addChild childName)
  | .opEndGroup => some .endGroup
  | .opLinkRef src field targetName => some (.linkRef src field targetName)
  | .opDropNode node => some (.dropNode node)
  | .opSnapshot label => some (.snapshot label)
  | .opSetMeta key value => some (.setMeta key value)
  | .opNop => some .nop
  | _ => none

/-- The heap field a call sets. -/
def Call.heapField? : Call → Option (NodeId × FieldId × Value)
  | .heapInt node field v => some (node, field, .int v)
  | .heapFloat node field v => some (node, field, .float v)
  | .heapAtom node field v => some (node, field, .atom v)
  | .heapRef node field v => some (node, field, .ref v)
  | .heapList node field v => some (node, field, .list v)
  | _ => none

/-- The opcodes a program emits, in order. -/
def emitted (calls : List Call) : List Op := calls.filterMap Call.op?

/-- The fields a program sets on heap node `i`, in order. -/
def recorded (calls : List Call) (i : Nat) : List (FieldId × Value) :=
  ((calls.filterMap Call.heapField?).filter fun s => s.1.toNat = i).map Prod.snd

/-- A field as the builder keeps it. -/
def encodeField (s : FieldId × Value) : FieldValue := { field := s.1, bytes := s.2.payload }

/-- `b` holds the encodings of what `calls` recorded. -/
structure Records (calls : List Call) (b : ContainerBuilder) : Prop where
  journalBody : b.journalBody = (emitted calls).flatMap Op.encode
  journalOps : b.journalOps = UInt32.ofNat (emitted calls).length
  fields : ∀ i n, b.heap[i]? = some n → n.fields = (recorded calls i).map encodeField
  /-- Only nodes that exist have fields. -/
  fresh : ∀ i, b.heap.length ≤ i → recorded calls i = []

namespace Records

variable {calls : List Call} {b b' : ContainerBuilder} {c : Call}

theorem emitted_append : emitted (calls ++ [c]) = emitted calls ++ c.op?.toList := by
  rw [emitted, List.filterMap_append]
  cases h : c.op? <;> simp [emitted, h]

theorem recorded_append (i : Nat) : recorded (calls ++ [c]) i = recorded calls i ++
    ((c.heapField?.toList.filter fun s => s.1.toNat = i).map Prod.snd) := by
  unfold recorded
  rw [List.filterMap_append, List.filter_append, List.map_append]
  cases h : c.heapField? <;> simp [h]

/-- A call that records nothing may change the rest of the builder. -/
theorem congr (h : Records calls b) (hop : c.op? = none) (hset : c.heapField? = none)
    (hbody : b'.journalBody = b.journalBody) (hops : b'.journalOps = b.journalOps)
    (hheap : b'.heap = b.heap) : Records (calls ++ [c]) b' := by
  have he : emitted (calls ++ [c]) = emitted calls := by simp [emitted_append, hop]
  have hr : ∀ i, recorded (calls ++ [c]) i = recorded calls i := fun i => by
    simp [recorded_append, hset]
  refine ⟨?_, ?_, fun i n hn => ?_, fun i hi => ?_⟩
  · rw [hbody, he, h.journalBody]
  · rw [hops, he, h.journalOps]
  · rw [hr]
    exact h.fields i n (hheap ▸ hn)
  · rw [hr]
    exact h.fresh i (hheap ▸ hi)

/-- Emitting an opcode. -/
theorem emit (h : Records calls b) {op : Op} (hop : c.op? = some op) (hset : c.heapField? = none)
    (hb : b' = b.emit op.code op.operands) : Records (calls ++ [c]) b' := by
  subst hb
  have he : emitted (calls ++ [c]) = emitted calls ++ [op] := by simp [emitted_append, hop]
  have hr : ∀ i, recorded (calls ++ [c]) i = recorded calls i := fun i => by
    simp [recorded_append, hset]
  refine ⟨?_, ?_, fun i n hn => ?_, fun i hi => ?_⟩
  · rw [he, List.flatMap_append, ← h.journalBody, List.flatMap_singleton]
    rfl
  · rw [he, List.length_append, List.length_singleton, UInt32.ofNat_add, ← h.journalOps]
    rfl
  · rw [hr]
    exact h.fields i n hn
  · rw [hr]
    exact h.fresh i hi

/-- Adding a heap node. -/
theorem heapNode (h : Records calls b) (kind : KindId) (name : AtomId) (hop : c.op? = none)
    (hset : c.heapField? = none) : Records (calls ++ [c]) (b.heapNode kind name).2 := by
  have he : emitted (calls ++ [c]) = emitted calls := by simp [emitted_append, hop]
  have hr : ∀ i, recorded (calls ++ [c]) i = recorded calls i := fun i => by
    simp [recorded_append, hset]
  refine ⟨?_, ?_, fun i n hn => ?_, fun i hi => ?_⟩
  · rw [he]
    exact h.journalBody
  · rw [he]
    exact h.journalOps
  · rw [hr]
    rcases Nat.lt_or_ge i b.heap.length with hlt | hge
    · exact h.fields i n (by rwa [ContainerBuilder.heapNode, List.getElem?_append_left hlt] at hn)
    · rw [ContainerBuilder.heapNode, List.getElem?_append_right hge] at hn
      obtain rfl := List.mem_singleton.mp (List.mem_of_getElem? hn)
      rw [h.fresh i hge]
      rfl
  · rw [hr]
    rw [ContainerBuilder.heapNode, List.length_append] at hi
    exact h.fresh i (by omega)

/-- Setting a heap field. -/
theorem pushHeapField (h : Records calls b) {node : NodeId} {field : FieldId} {v : Value}
    (hop : c.op? = none) (hset : c.heapField? = some (node, field, v))
    (hb : b.pushHeapField node field v.payload = some b') : Records (calls ++ [c]) b' := by
  unfold ContainerBuilder.pushHeapField at hb
  split at hb
  · rename_i hlt
    obtain rfl := Option.some.inj hb
    have he : emitted (calls ++ [c]) = emitted calls := by simp [emitted_append, hop]
    have hr : ∀ i, recorded (calls ++ [c]) i =
        recorded calls i ++ if node.toNat = i then [(field, v)] else [] := fun i => by
      by_cases hi : node.toNat = i <;> simp [recorded_append, hset, hi]
    refine ⟨?_, ?_, fun i n hn => ?_, fun i hi => ?_⟩
    · rw [he]
      exact h.journalBody
    · rw [he]
      exact h.journalOps
    · simp only [List.getElem?_modify] at hn
      obtain ⟨m, hm, rfl⟩ := Option.map_eq_some_iff.mp hn
      rw [hr, List.map_append, ← h.fields i m hm]
      by_cases hi : node.toNat = i <;> simp [hi, encodeField]
    · simp only [List.length_modify] at hi
      rw [hr, h.fresh i hi, if_neg (by omega)]
      rfl
  · cases hb

/-- **A call records what it says.** -/
theorem apply (h : Records calls b) (hb : b.apply c = some b') : Records (calls ++ [c]) b' := by
  cases c with
  | atom text =>
    obtain rfl := Option.some.inj hb
    unfold ContainerBuilder.atom
    split
    · exact h.congr rfl rfl rfl rfl rfl
    · exact h.congr rfl rfl rfl rfl rfl
  | heapNode kind name =>
    obtain rfl := Option.some.inj hb
    exact h.heapNode kind name rfl rfl
  | heapInt | heapFloat | heapAtom | heapRef | heapList => exact h.pushHeapField rfl rfl hb
  | opNewNode | opSetInt | opSetFloat | opSetAtom | opSetRef | opSetList | opBeginGroup | opAddChild
  | opEndGroup | opLinkRef | opDropNode | opSnapshot | opSetMeta | opNop =>
    obtain rfl := Option.some.inj hb
    exact h.emit rfl rfl rfl
  | defineKind | xrefEntry | metaEntry | setEmitXref | setEmitMeta | setHeaderFlags =>
    obtain rfl := Option.some.inj hb
    exact h.congr rfl rfl rfl rfl rfl

end Records

/-- **A program's builder records the program.** -/
theorem records_build {calls : List Call} {b : ContainerBuilder} (h : build calls = some b) :
    Records calls b := by
  induction calls using List.reverseRecOn generalizing b with
  | nil =>
    obtain rfl := Option.some.inj h
    exact ⟨rfl, rfl, nofun, fun _ _ => rfl⟩
  | append_singleton calls c ih =>
    rw [build, runCalls, List.foldlM_append] at h
    obtain ⟨mid, hmid, hc⟩ := Option.bind_eq_some_iff.mp h
    obtain ⟨b1, hb1, hb'⟩ := Option.bind_eq_some_iff.mp hc
    obtain rfl := Option.some.inj hb'
    exact (ih hmid).apply hb1

end ContainerBuilder

end Stratavm
