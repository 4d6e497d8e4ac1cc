import Stratavm.ReplayVm

/-!
# The machine, opcode by opcode

The handlers mix reading operands with changing the VM. This module separates the two: `readOp`
decodes one opcode with its operands, given the type of every field (`Op`), and `Effect` says what
the opcode does to the VM when it succeeds, one constructor per way it can succeed, guards included.

* `stepOp_ok_iff`: an iteration of `run`'s loop succeeds iff it decodes an opcode and that opcode
  has an effect; `exec` computes it (`exec_iff_effect`).
* `run_ok_iff`: `run` succeeds iff the announced opcodes `Replay` one after the other and every
  group is closed.

Everything proved about replay is proved of `Effect` and carried to the bytes by these two.
-/

namespace Stratavm

open Lib

/-! ## Decoded opcodes -/

/-- An opcode with its operands. -/
inductive Op where
  | newNode (kind : KindId) (name : AtomId)
  | setField (node : NodeId) (field : FieldId) (value : Value)
  | beginGroup (owner : AtomId) (hint : UInt32)
  | endGroup
  | addChild (child : AtomId)
  | linkRef (src : NodeId) (field : FieldId) (target : AtomId)
  | dropNode (node : NodeId)
  | snapshot (label : AtomId)
  | setMeta (key value : AtomId)
  | nop
  deriving DecidableEq, Repr

/-- The types fields are read with. -/
abbrev FieldTypes := NodeId → FieldId → ValueType

/-- Read the operands of an opcode. -/
def readOperands (ty : FieldTypes) (limits : Limits) : OpCode → Reader Op
  | .newNode => do
    let kind ← readVarintU32
    let name ← readVarintU32
    pure (.newNode kind name)
  | .setField => do
    let node ← readVarintU32
    let field ← readVarintU32
    let value ← Value.decode (ty node field) limits
    pure (.setField node field value)
  | .beginGroup => do
    let owner ← readVarintU32
    let hint ← readVarintU32
    pure (.beginGroup owner hint)
  | .endGroup => pure .endGroup
  | .addChild => do
    let child ← readVarintU32
    pure (.addChild child)
  | .linkRef => do
    let src ← readVarintU32
    let field ← readVarintU32
    let target ← readVarintU32
    pure (.linkRef src field target)
  | .dropNode => do
    let node ← readVarintU32
    pure (.dropNode node)
  | .snapshot => do
    let label ← readVarintU32
    pure (.snapshot label)
  | .setMeta => do
    let key ← readVarintU32
    let value ← readVarintU32
    pure (.setMeta key value)
  | .nop => pure .nop

/-- Read one opcode. -/
def readOp (ty : FieldTypes) (limits : Limits) : Reader Op := do
  let raw ← readU8
  match OpCode.ofRaw? raw with
  | none => fail .badOpcode "unknown opcode"
  | some code => readOperands ty limits code

namespace Op

/-- The opcode. -/
def code : Op → OpCode
  | newNode .. => .newNode
  | setField .. => .setField
  | beginGroup .. => .beginGroup
  | endGroup => .endGroup
  | addChild _ => .addChild
  | linkRef .. => .linkRef
  | dropNode _ => .dropNode
  | snapshot _ => .snapshot
  | setMeta .. => .setMeta
  | nop => .nop

/-- The operand bytes, in canonical varints. -/
def operands : Op → Bytes
  | newNode kind name => varint kind.toUInt64 ++ varint name.toUInt64
  | setField node field value => varint node.toUInt64 ++ (varint field.toUInt64 ++ value.payload)
  | beginGroup owner hint => varint owner.toUInt64 ++ varint hint.toUInt64
  | endGroup => []
  | addChild child => varint child.toUInt64
  | linkRef src field target =>
    varint src.toUInt64 ++ (varint field.toUInt64 ++ varint target.toUInt64)
  | dropNode node => varint node.toUInt64
  | snapshot label => varint label.toUInt64
  | setMeta key value => varint key.toUInt64 ++ varint value.toUInt64
  | nop => []

/-- The opcode byte and the operands. -/
def encode (op : Op) : Bytes := u8 op.code.raw ++ op.operands

/-- Every value of `op` has the type its field is read with. -/
def Typed (ty : FieldTypes) (limits : Limits) : Op → Prop
  | setField node field value => ty node field = value.type ∧ value.Fits limits
  | _ => True

end Op

/-- **An encoded opcode reads back as itself**, if its value has the type it is read with. -/
theorem reads_op {ty : FieldTypes} {limits : Limits} {op : Op} (h : op.Typed ty limits) :
    Decoder.Reads (readOp ty limits) op.encode op := by
  have hops : Decoder.Reads (readOperands ty limits op.code) op.operands op := by
    cases op with
    | newNode kind name =>
      exact (reads_varintU32 kind).bind (reads_varintU32 name).bind_pure
    | setField node field value =>
      obtain ⟨ht, hfits⟩ := h
      refine (reads_varintU32 node).bind ((reads_varintU32 field).bind ?_)
      rw [ht]
      exact (Value.reads_value hfits).bind_pure
    | beginGroup owner hint =>
      exact (reads_varintU32 owner).bind (reads_varintU32 hint).bind_pure
    | endGroup => exact Decoder.Reads.pure _
    | addChild child => exact (reads_varintU32 child).bind_pure
    | linkRef src field target =>
      exact (reads_varintU32 src).bind
        ((reads_varintU32 field).bind (reads_varintU32 target).bind_pure)
    | dropNode node => exact (reads_varintU32 node).bind_pure
    | snapshot label => exact (reads_varintU32 label).bind_pure
    | setMeta key value => exact (reads_varintU32 key).bind (reads_varintU32 value).bind_pure
    | nop => exact Decoder.Reads.pure _
  refine (reads_u8 op.code.raw).bind ?_
  rw [OpCode.ofRaw?_raw]
  exact hops

/-- What `readOperands` reads is its opcode's, and typed by the types it reads with. -/
theorem readOperands_spec {ty : FieldTypes} {limits : Limits} {code : OpCode} {r r' : Bytes}
    {op : Op} (h : readOperands ty limits code r = .ok (op, r')) :
    op.code = code ∧ op.Typed ty limits := by
  cases code with
  | setField =>
    obtain ⟨node, r2, -, h⟩ := Decoder.bind_eq_ok.mp h
    obtain ⟨field, r3, -, h⟩ := Decoder.bind_eq_ok.mp h
    obtain ⟨value, r4, hv, h⟩ := Decoder.bind_eq_ok.mp h
    obtain ⟨rfl, -⟩ := Decoder.pure_eq_ok.mp h
    obtain ⟨ht, hfits⟩ := Value.decode_type hv
    exact ⟨rfl, ht.symm, hfits⟩
  | newNode | beginGroup | setMeta =>
    obtain ⟨_, _, -, h⟩ := Decoder.bind_eq_ok.mp h
    obtain ⟨_, _, -, h⟩ := Decoder.bind_eq_ok.mp h
    obtain ⟨rfl, -⟩ := Decoder.pure_eq_ok.mp h
    exact ⟨rfl, trivial⟩
  | linkRef =>
    obtain ⟨_, _, -, h⟩ := Decoder.bind_eq_ok.mp h
    obtain ⟨_, _, -, h⟩ := Decoder.bind_eq_ok.mp h
    obtain ⟨_, _, -, h⟩ := Decoder.bind_eq_ok.mp h
    obtain ⟨rfl, -⟩ := Decoder.pure_eq_ok.mp h
    exact ⟨rfl, trivial⟩
  | addChild | dropNode | snapshot =>
    obtain ⟨_, _, -, h⟩ := Decoder.bind_eq_ok.mp h
    obtain ⟨rfl, -⟩ := Decoder.pure_eq_ok.mp h
    exact ⟨rfl, trivial⟩
  | endGroup | nop =>
    obtain ⟨rfl, -⟩ := Decoder.pure_eq_ok.mp h
    exact ⟨rfl, trivial⟩

/-- An opcode is read as its byte, then its operands. -/
theorem readOp_eq_ok {ty : FieldTypes} {limits : Limits} {r r' : Bytes} {op : Op} :
    readOp ty limits r = .ok (op, r') ↔ ∃ raw r1, readU8 r = .ok (raw, r1) ∧
      OpCode.ofRaw? raw = some op.code ∧ readOperands ty limits op.code r1 = .ok (op, r') := by
  unfold readOp
  rw [Decoder.bind_eq_ok]
  refine exists_congr fun raw => exists_congr fun r1 => and_congr_right fun _ => ?_
  cases hc : OpCode.ofRaw? raw with
  | none => exact ⟨fun h => absurd h fail_ne_ok, fun h => nomatch h.1⟩
  | some code =>
    constructor
    · intro h
      obtain ⟨rfl, -⟩ := readOperands_spec h
      exact ⟨rfl, h⟩
    · rintro ⟨hcode, h⟩
      obtain rfl := Option.some.inj hcode
      exact h

/-- What `readOp` reads is typed by the types it reads with. -/
theorem readOp_typed {ty : FieldTypes} {limits : Limits} {r r' : Bytes} {op : Op}
    (h : readOp ty limits r = .ok (op, r')) : op.Typed ty limits := by
  obtain ⟨_, _, -, -, h⟩ := readOp_eq_ok.mp h
  exact (readOperands_spec h).2

/-! ## Effects -/

namespace ReplayVM

variable (env : Env)

/-- The type the machine reads field `field` of node `node` with. -/
def fieldType (vm : ReplayVM) : FieldTypes := fun node field =>
  match vm.node? node with
  | none => .invalid
  | some n => env.schema.fieldType n.kind field

/-- `resolve_frame` on the children still queued, when no store faults. -/
def resolve (frame : GroupFrame) : List AtomId → ReplayVM → Option ReplayVM
  | [], vm => some vm
  | child :: children, vm =>
    match (vm.target env child).2.ownerSlot env frame with
    | none => none
    | some slot =>
      if (vm.target env child).1.toNat < (vm.target env child).2.nodes.size then
        resolve frame children ((vm.target env child).2.attach slot (vm.target env child).1)
      else none

/-- Queue a child on the innermost frame. -/
def queueChild (vm : ReplayVM) (frame : GroupFrame) (frames : List GroupFrame) (child : AtomId) :
    ReplayVM :=
  { vm with
    frames := { frame with deferredChildren := frame.deferredChildren ++ [child] } :: frames }

/-- **What an opcode does when it succeeds**, with the guards it passed. -/
inductive Effect (vm : ReplayVM) : Op → ReplayVM → Prop
  | newNode {kind name} (hk : env.schema.kind kind ≠ none) (hn : ¬ BadName env name)
      (hsize : vm.nodes.size < env.limits.maxNodes.toNat) :
      Effect vm (.newNode kind name) (vm.createNode env kind name)
  | setField {nodeId field v node} (hnode : vm.node? nodeId = some node)
      (hv : v.type ≠ .invalid) (ht : env.schema.fieldType node.kind field = v.type)
      (ha : node.alive = true) : Effect vm (.setField nodeId field v) (vm.storeField nodeId field v)
  | beginGroup {name hint owner} (hd : vm.frames.length < env.limits.maxGroupDepth.toNat)
      (ho : vm.foundNode? (vm.findNamed name) = some owner) (ha : owner.alive = true) :
      Effect vm (.beginGroup name hint) (vm.openGroup env (vm.findNamed name) name hint)
  | endGroup {frame frames vm'} (hf : vm.frames = frame :: frames)
      (hr : resolve env frame frame.deferredChildren { vm with frames } = some vm') :
      Effect vm .endGroup vm'
  | addChild {child frame frames} (hf : vm.frames = frame :: frames) (hn : ¬ BadName env child) :
      Effect vm (.addChild child) (vm.queueChild frame frames child)
  | linkRefMissing {src field name node} (hnode : vm.node? src = some node)
      (ht : env.schema.fieldType node.kind field = .ref) (hm : vm.findNamed name = kInvalidNode) :
      Effect vm (.linkRef src field name) vm.countUnresolved
  | linkRef {src field name node} (hnode : vm.node? src = some node)
      (ht : env.schema.fieldType node.kind field = .ref) (hm : vm.findNamed name ≠ kInvalidNode) :
      Effect vm (.linkRef src field name) (vm.storeRef src field (vm.findNamed name))
  | dropDead {nodeId node} (hnode : vm.node? nodeId = some node) (ha : node.alive = false) :
      Effect vm (.dropNode nodeId) vm
  | drop {nodeId node} (hnode : vm.node? nodeId = some node) (ha : node.alive = true) :
      Effect vm (.dropNode nodeId) (vm.drop nodeId node)
  | snapshot {label} (hn : ¬ BadName env label) : Effect vm (.snapshot label) (vm.takeSnapshot label)
  | setMeta {key value} (hk : env.atoms.get key ≠ none) (hn : ¬ BadName env value) :
      Effect vm (.setMeta key value) (vm.putMeta key value)
  | nop : Effect vm .nop vm

/-- The effect of an opcode, if it has one. -/
def exec (vm : ReplayVM) : Op → Option ReplayVM
  | .newNode kind name =>
    if env.schema.kind kind = none ∨ BadName env name ∨
        env.limits.maxNodes.toNat ≤ vm.nodes.size then none
    else some (vm.createNode env kind name)
  | .setField nodeId field v =>
    match vm.node? nodeId with
    | none => none
    | some node =>
      if v.type = .invalid ∨ env.schema.fieldType node.kind field ≠ v.type ∨ node.alive = false then
        none
      else some (vm.storeField nodeId field v)
  | .beginGroup name hint =>
    if env.limits.maxGroupDepth.toNat ≤ vm.frames.length then none
    else
      match vm.foundNode? (vm.findNamed name) with
      | none => none
      | some owner =>
        if owner.alive = false then none
        else some (vm.openGroup env (vm.findNamed name) name hint)
  | .endGroup =>
    match vm.frames with
    | [] => none
    | frame :: frames => resolve env frame frame.deferredChildren { vm with frames }
  | .addChild child =>
    match vm.frames with
    | [] => none
    | frame :: frames => if BadName env child then none else some (vm.queueChild frame frames child)
  | .linkRef src field name =>
    match vm.node? src with
    | none => none
    | some node =>
      if env.schema.fieldType node.kind field ≠ .ref then none
      else if vm.findNamed name = kInvalidNode then some vm.countUnresolved
      else some (vm.storeRef src field (vm.findNamed name))
  | .dropNode nodeId =>
    match vm.node? nodeId with
    | none => none
    | some node => if node.alive = false then some vm else some (vm.drop nodeId node)
  | .snapshot label => if BadName env label then none else some (vm.takeSnapshot label)
  | .setMeta key value =>
    if env.atoms.get key = none ∨ BadName env value then none else some (vm.putMeta key value)
  | .nop => some vm

/-- Execute decoded opcodes, one after the other. -/
def execAll : List Op → ReplayVM → Option ReplayVM
  | [], vm => some vm
  | op :: ops, vm => (exec env vm op).bind fun vm1 => execAll ops vm1.tick

variable {env} {vm vm' : ReplayVM}

/-- What `exec` computes is an effect of the opcode, as each guard that it passed says. -/
theorem effect_of_exec {op : Op} (h : exec env vm op = some vm') : Effect env vm op vm' := by
  cases op with
  | newNode kind name =>
    simp only [exec] at h
    split at h
    · cases h
    · rename_i hg
      push Not at hg
      cases h
      exact .newNode hg.1 hg.2.1 hg.2.2
  | setField nodeId field v =>
    simp only [exec] at h
    cases hnode : vm.node? nodeId with
    | none => simp [hnode] at h
    | some node =>
      simp only [hnode] at h
      split at h
      · cases h
      · rename_i hg
        push Not at hg
        cases h
        exact .setField hnode hg.1 hg.2.1 (by simpa using hg.2.2)
  | beginGroup name hint =>
    simp only [exec] at h
    split at h
    · cases h
    · rename_i hd
      cases ho : vm.foundNode? (vm.findNamed name) with
      | none => simp [ho] at h
      | some owner =>
        simp only [ho] at h
        split at h
        · cases h
        · rename_i ha
          cases h
          exact .beginGroup (by omega) ho (by simpa using ha)
  | endGroup =>
    simp only [exec] at h
    cases hf : vm.frames with
    | nil => simp [hf] at h
    | cons frame frames =>
      simp only [hf] at h
      exact .endGroup hf h
  | addChild child =>
    simp only [exec] at h
    cases hf : vm.frames with
    | nil => simp [hf] at h
    | cons frame frames =>
      simp only [hf] at h
      split at h
      · cases h
      · rename_i hn
        cases h
        exact .addChild hf hn
  | linkRef src field name =>
    simp only [exec] at h
    cases hnode : vm.node? src with
    | none => simp [hnode] at h
    | some node =>
      simp only [hnode] at h
      split at h
      · cases h
      · rename_i ht
        split at h
        · rename_i hm
          cases h
          exact .linkRefMissing hnode (by simpa using ht) hm
        · rename_i hm
          cases h
          exact .linkRef hnode (by simpa using ht) hm
  | dropNode nodeId =>
    simp only [exec] at h
    cases hnode : vm.node? nodeId with
    | none => simp [hnode] at h
    | some node =>
      simp only [hnode] at h
      split at h
      · rename_i ha
        cases h
        exact .dropDead hnode ha
      · rename_i ha
        cases h
        exact .drop hnode (by simpa using ha)
  | snapshot label =>
    simp only [exec] at h
    split at h
    · cases h
    · rename_i hn
      cases h
      exact .snapshot hn
  | setMeta key value =>
    simp only [exec] at h
    split at h
    · cases h
    · rename_i hg
      push Not at hg
      cases h
      exact .setMeta hg.1 hg.2
  | nop =>
    cases h
    exact .nop

/-- `exec` passes the guards of an effect. -/
theorem Effect.exec_eq {op : Op} (h : Effect env vm op vm') : exec env vm op = some vm' := by
  cases h with
  | newNode hk hn hsize =>
    simp only [exec]
    rw [if_neg]
    push Not
    exact ⟨hk, hn, hsize⟩
  | setField hnode hv ht ha =>
    simp only [exec]
    simp [hnode, hv, ht, ha]
  | beginGroup hd ho ha =>
    simp only [exec]
    rw [if_neg (by omega)]
    simp [ho, ha]
  | endGroup hf hr =>
    simp only [exec]
    simp only [hf]
    exact hr
  | addChild hf hn =>
    simp only [exec]
    simp [hf, hn]
  | linkRefMissing hnode ht hm =>
    simp only [exec]
    simp [hnode, ht, hm]
  | linkRef hnode ht hm =>
    simp only [exec]
    simp [hnode, ht, hm]
  | dropDead hnode ha =>
    simp only [exec]
    simp [hnode, ha]
  | drop hnode ha =>
    simp only [exec]
    simp [hnode, ha]
  | snapshot hn =>
    simp only [exec]
    rw [if_neg hn]
  | setMeta hk hn =>
    simp only [exec]
    simp [hk, hn]
  | nop => rfl

/-- `exec` computes `Effect`. -/
theorem exec_iff_effect {op : Op} : exec env vm op = some vm' ↔ Effect env vm op vm' :=
  ⟨effect_of_exec, Effect.exec_eq⟩

/-! ### Resolving a frame -/

/-- A name that is found is in the index. -/
theorem lookup_of_findNamed {name : AtomId} (h : vm.findNamed name ≠ kInvalidNode) :
    vm.nameIndex.lookup name = some (vm.findNamed name) := by
  unfold findNamed at h ⊢
  cases hl : vm.nameIndex.lookup name with
  | none => exact absurd (by rw [hl]; rfl) h
  | some i => rfl

/-- The target of a child is what its name finds, or else a new placeholder. -/
theorem target_eq (env : Env) (vm : ReplayVM) (child : AtomId) :
    (vm.findNamed child = kInvalidNode ∧
      vm.target env child = vm.materializePlaceholder env child) ∨
    (vm.findNamed child ≠ kInvalidNode ∧ vm.target env child = (vm.findNamed child, vm)) := by
  unfold target
  by_cases h : vm.findNamed child = kInvalidNode
  · exact .inl ⟨h, if_pos h⟩
  · exact .inr ⟨h, if_neg h⟩

@[simp] theorem frames_target (env : Env) (vm : ReplayVM) (child : AtomId) :
    (vm.target env child).2.frames = vm.frames := by
  rcases target_eq env vm child with ⟨-, h⟩ | ⟨-, h⟩ <;> simp [h, materializePlaceholder]

theorem size_target_le (env : Env) (vm : ReplayVM) (child : AtomId) :
    (vm.target env child).2.nodes.size ≤ vm.nodes.size + 1 := by
  rcases target_eq env vm child with ⟨-, h⟩ | ⟨-, h⟩
  · simp [h, materializePlaceholder]
  · simp [h]

theorem size_le_target (env : Env) (vm : ReplayVM) (child : AtomId) :
    vm.nodes.size ≤ (vm.target env child).2.nodes.size := by
  rcases target_eq env vm child with ⟨-, h⟩ | ⟨-, h⟩
  · simp [h, materializePlaceholder]
  · simp [h]

theorem buf_le_target (env : Env) (vm : ReplayVM) (child : AtomId) :
    vm.nodes.buf ≤ (vm.target env child).2.nodes.buf := by
  rcases target_eq env vm child with ⟨-, h⟩ | ⟨-, h⟩
  · rw [h]
    exact Vec.buf_le_buf_pushBack _ _ _
  · rw [h]

/-- One child resolved. -/
theorem resolve_cons {frame : GroupFrame} {child : AtomId} {children : List AtomId}
    (h : resolve env frame (child :: children) vm = some vm') :
    ∃ slot, (vm.target env child).2.ownerSlot env frame = some slot ∧
      (vm.target env child).1.toNat < (vm.target env child).2.nodes.size ∧
      resolve env frame children ((vm.target env child).2.attach slot (vm.target env child).1) =
        some vm' := by
  rw [resolve] at h
  cases hs : (vm.target env child).2.ownerSlot env frame with
  | none => simp [hs] at h
  | some slot =>
    simp only [hs] at h
    split at h
    · rename_i hlt
      exact ⟨slot, rfl, hlt, h⟩
    · cases h

/-- **Induction over the children a frame resolves.** -/
theorem resolve_induction {frame : GroupFrame} {children : List AtomId} {P : ReplayVM → Prop}
    (h : resolve env frame children vm = some vm') (h0 : P vm)
    (hstep : ∀ (vm : ReplayVM) (child : AtomId) (slot : Nat), child ∈ children →
      (vm.target env child).2.ownerSlot env frame = some slot → P vm →
        P ((vm.target env child).2.attach slot (vm.target env child).1)) : P vm' := by
  induction children generalizing vm with
  | nil =>
    obtain rfl := Option.some.inj h
    exact h0
  | cons child children ih =>
    obtain ⟨slot, hslot, -, h⟩ := resolve_cons h
    refine ih h (hstep vm child slot List.mem_cons_self hslot h0) fun vm c slot hc => ?_
    exact hstep vm c slot (List.mem_cons_of_mem child hc)

/-- Resolving appends at most one node a child and leaves the open groups alone. -/
theorem resolve_size {frame : GroupFrame} {children : List AtomId}
    (h : resolve env frame children vm = some vm') :
    vm'.frames = vm.frames ∧ vm.nodes.size ≤ vm'.nodes.size ∧
      vm'.nodes.size ≤ vm.nodes.size + children.length := by
  induction children generalizing vm with
  | nil =>
    obtain rfl := Option.some.inj h
    exact ⟨rfl, Nat.le_refl _, Nat.le_refl _⟩
  | cons child children ih =>
    obtain ⟨slot, -, -, h⟩ := resolve_cons h
    obtain ⟨hf, hge, hle⟩ := ih h
    have := size_target_le env vm child
    have := size_le_target env vm child
    rw [size_attach] at hge hle
    rw [List.length_cons]
    exact ⟨by simpa using hf, by omega, by omega⟩

/-- `exec` and the tick of the loop. -/
def step (env : Env) (vm : ReplayVM) (op : Op) : Option ReplayVM := (exec env vm op).map tick

end ReplayVM

/-! ## The handlers compute the effects -/

section Handlers

variable {env : Env} {vm vm' : ReplayVM} {r r' : Bytes} {u : Unit}

theorem bind_operand_ok {α β : Type} {d : Reader α} {f : α → Exec β} {b : β} :
    Machine.Ok (operand d >>= f) vm r b vm' r' ↔
      ∃ a r1, d r = .ok (a, r1) ∧ Machine.Ok (f a) vm r1 b vm' r' := Machine.bind_read_ok

theorem linkChild_ok_iff {frame : GroupFrame} {child : AtomId} :
    Machine.Ok (linkChild env frame child) vm r u vm' r' ↔
      ∃ slot, (vm.target env child).2.ownerSlot env frame = some slot ∧
        (vm.target env child).1.toNat < (vm.target env child).2.nodes.size ∧
        vm' = (vm.target env child).2.attach slot (vm.target env child).1 ∧ r' = r := by
  simp only [linkChild, Machine.bind_modifyGet_ok, Machine.bind_get_ok]
  cases hs : (vm.target env child).2.ownerSlot env frame with
  | none => exact ⟨fun h => absurd h Machine.not_fail_ok, fun ⟨_, h, _⟩ => nomatch h⟩
  | some slot =>
    simp only
    split
    · rename_i hlt
      rw [Machine.set_ok]
      exact ⟨fun ⟨h1, h2⟩ => ⟨slot, rfl, hlt, h1, h2⟩,
        fun ⟨_, hslot, _, h1, h2⟩ => by cases hslot; exact ⟨h1, h2⟩⟩
    · rename_i hlt
      exact ⟨fun h => absurd h Machine.not_fail_ok, fun ⟨_, _, h, _⟩ => absurd h hlt⟩

theorem resolveFrame_ok_iff {frame : GroupFrame} {children : List AtomId} :
    Machine.Ok (resolveFrame env frame children) vm r u vm' r' ↔
      ReplayVM.resolve env frame children vm = some vm' ∧ r' = r := by
  induction children generalizing vm r with
  | nil =>
    simp only [resolveFrame, ReplayVM.resolve, Machine.pure_ok, Option.some.injEq, true_and]
    exact and_congr_right fun _ => eq_comm
  | cons child children ih =>
    simp only [resolveFrame, ReplayVM.resolve, Machine.bind_ok, linkChild_ok_iff, ih]
    constructor
    · rintro ⟨_, _, _, ⟨slot, hs, hlt, rfl, rfl⟩, h⟩
      simp only [hs, hlt, if_true]
      exact h
    · rintro ⟨h, rfl⟩
      obtain ⟨slot, hs, hlt, h⟩ := ReplayVM.resolve_cons h
      exact ⟨(), _, _, ⟨slot, hs, hlt, rfl, rfl⟩, h, rfl⟩

/-- A handler succeeds iff its operands decode and the opcode has the effect. -/
def Computes (env : Env) (m : Exec Unit) (code : OpCode) : Prop :=
  ∀ {vm r u vm' r'}, Machine.Ok m vm r u vm' r' ↔
    ∃ op, readOperands (vm.fieldType env) env.limits code r = .ok (op, r') ∧
      ReplayVM.Effect env vm op vm'

theorem doNewNode_computes : Computes env (doNewNode env) .newNode := by
  intro vm r u vm' r'
  simp only [doNewNode, readOperands, bind_operand_ok, Machine.bind_get_ok,
    Decoder.bind_eq_ok, Decoder.pure_eq_ok]
  constructor
  · rintro ⟨kind, r1, hk, name, r2, hn, h⟩
    split at h
    · exact absurd h Machine.not_fail_ok
    rename_i hkind
    split at h
    · exact absurd h Machine.not_fail_ok
    rename_i hname
    split at h
    · exact absurd h Machine.not_fail_ok
    rename_i hsize
    obtain ⟨rfl, rfl⟩ := Machine.set_ok.mp h
    exact ⟨_, ⟨kind, r1, hk, name, _, hn, rfl, rfl⟩, .newNode hkind hname (by omega)⟩
  · rintro ⟨op, ⟨kind, r1, hk, name, r2, hn, rfl, rfl⟩, h⟩
    cases h with
    | newNode hkind hname hsize =>
      refine ⟨kind, r1, hk, name, _, hn, ?_⟩
      rw [if_neg hkind, if_neg hname, if_neg (by omega)]
      exact Machine.set_ok.mpr ⟨rfl, rfl⟩

theorem doSetField_computes : Computes env (doSetField env) .setField := by
  intro vm r u vm' r'
  simp only [doSetField, readOperands, bind_operand_ok, Machine.bind_get_ok,
    Decoder.bind_eq_ok, Decoder.pure_eq_ok]
  constructor
  · rintro ⟨id, r1, hid, field, r2, hfield, h⟩
    cases hnode : vm.node? id with
    | none =>
      rw [hnode] at h
      exact absurd h Machine.not_fail_ok
    | some node =>
      simp only [hnode] at h
      split at h
      · exact absurd h Machine.not_fail_ok
      rename_i hvt
      obtain ⟨v, r3, hv, h⟩ := bind_operand_ok.mp h
      split at h
      · exact absurd h Machine.not_fail_ok
      rename_i ha
      obtain ⟨rfl, rfl⟩ := Machine.set_ok.mp h
      obtain ⟨htype, hfits⟩ := Value.decode_type hv
      have hty : vm.fieldType env id field = env.schema.fieldType node.kind field := by
        simp only [ReplayVM.fieldType, hnode]
      refine ⟨_, ⟨id, r1, hid, field, r2, hfield, v, _, by rw [hty]; exact hv, rfl, rfl⟩, ?_⟩
      exact .setField hnode hfits.1 htype.symm (by simpa using ha)
  · rintro ⟨op, ⟨id, r1, hid, field, r2, hfield, v, r3, hv, rfl, rfl⟩, h⟩
    cases h with
    | setField hnode hvalid ht ha =>
      refine ⟨id, r1, hid, field, r2, hfield, ?_⟩
      simp only [ReplayVM.fieldType, hnode] at hv
      simp only [hnode]
      rw [if_neg (by rw [ht]; exact hvalid), bind_operand_ok]
      refine ⟨v, _, hv, ?_⟩
      rw [if_neg (by simp [ha])]
      exact Machine.set_ok.mpr ⟨rfl, rfl⟩

theorem doBeginGroup_computes : Computes env (doBeginGroup env) .beginGroup := by
  intro vm r u vm' r'
  simp only [doBeginGroup, readOperands, bind_operand_ok, Machine.bind_get_ok,
    Decoder.bind_eq_ok, Decoder.pure_eq_ok]
  constructor
  · rintro ⟨name, r1, hname, hint, r2, hhint, h⟩
    split at h
    · exact absurd h Machine.not_fail_ok
    rename_i hdepth
    cases ho : vm.foundNode? (vm.findNamed name) with
    | none =>
      rw [ho] at h
      exact absurd h Machine.not_fail_ok
    | some owner =>
      simp only [ho] at h
      split at h
      · exact absurd h Machine.not_fail_ok
      rename_i ha
      obtain ⟨rfl, rfl⟩ := Machine.set_ok.mp h
      exact ⟨_, ⟨name, r1, hname, hint, _, hhint, rfl, rfl⟩,
        .beginGroup (by omega) ho (by simpa using ha)⟩
  · rintro ⟨op, ⟨name, r1, hname, hint, r2, hhint, rfl, rfl⟩, h⟩
    cases h with
    | beginGroup hdepth ho ha =>
      refine ⟨name, r1, hname, hint, _, hhint, ?_⟩
      rw [if_neg (by omega)]
      simp only [ho]
      rw [if_neg (by simp [ha])]
      exact Machine.set_ok.mpr ⟨rfl, rfl⟩

theorem doAddChild_computes : Computes env (doAddChild env) .addChild := by
  intro vm r u vm' r'
  simp only [doAddChild, readOperands, bind_operand_ok, Machine.bind_get_ok,
    Decoder.bind_eq_ok, Decoder.pure_eq_ok]
  constructor
  · rintro ⟨child, r1, hchild, h⟩
    cases hf : vm.frames with
    | nil =>
      rw [hf] at h
      exact absurd h Machine.not_fail_ok
    | cons frame frames =>
      simp only [hf] at h
      split at h
      · exact absurd h Machine.not_fail_ok
      rename_i hn
      obtain ⟨rfl, rfl⟩ := Machine.set_ok.mp h
      exact ⟨_, ⟨child, _, hchild, rfl, rfl⟩, .addChild hf hn⟩
  · rintro ⟨op, ⟨child, r1, hchild, rfl, rfl⟩, h⟩
    cases h with
    | addChild hf hn =>
      refine ⟨child, _, hchild, ?_⟩
      simp only [hf]
      rw [if_neg hn]
      exact Machine.set_ok.mpr ⟨rfl, rfl⟩

theorem doEndGroup_computes : Computes env (doEndGroup env) .endGroup := by
  intro vm r u vm' r'
  simp only [doEndGroup, readOperands, Machine.bind_get_ok, Decoder.pure_eq_ok]
  constructor
  · intro h
    cases hf : vm.frames with
    | nil =>
      rw [hf] at h
      exact absurd h Machine.not_fail_ok
    | cons frame frames =>
      simp only [hf, Machine.bind_set_ok] at h
      obtain ⟨hr, rfl⟩ := resolveFrame_ok_iff.mp h
      exact ⟨_, ⟨rfl, rfl⟩, .endGroup hf hr⟩
  · rintro ⟨op, ⟨rfl, rfl⟩, h⟩
    cases h with
    | endGroup hf hr =>
      simp only [hf, Machine.bind_set_ok]
      exact resolveFrame_ok_iff.mpr ⟨hr, rfl⟩

theorem doLinkRef_computes : Computes env (doLinkRef env) .linkRef := by
  intro vm r u vm' r'
  simp only [doLinkRef, readOperands, bind_operand_ok, Machine.bind_get_ok,
    Decoder.bind_eq_ok, Decoder.pure_eq_ok]
  constructor
  · rintro ⟨src, r1, hsrc, field, r2, hfield, name, r3, hname, h⟩
    cases hnode : vm.node? src with
    | none =>
      rw [hnode] at h
      exact absurd h Machine.not_fail_ok
    | some node =>
      simp only [hnode] at h
      split at h
      · exact absurd h Machine.not_fail_ok
      rename_i ht
      split at h
      · rename_i hm
        obtain ⟨rfl, rfl⟩ := Machine.set_ok.mp h
        exact ⟨_, ⟨src, r1, hsrc, field, r2, hfield, name, _, hname, rfl, rfl⟩,
          .linkRefMissing hnode (by simpa using ht) hm⟩
      · rename_i hm
        obtain ⟨rfl, rfl⟩ := Machine.set_ok.mp h
        exact ⟨_, ⟨src, r1, hsrc, field, r2, hfield, name, _, hname, rfl, rfl⟩,
          .linkRef hnode (by simpa using ht) hm⟩
  · rintro ⟨op, ⟨src, r1, hsrc, field, r2, hfield, name, r3, hname, rfl, rfl⟩, h⟩
    refine ⟨src, r1, hsrc, field, r2, hfield, name, _, hname, ?_⟩
    cases h with
    | linkRefMissing hnode ht hm =>
      simp only [hnode]
      rw [if_neg (by simp [ht]), if_pos hm]
      exact Machine.set_ok.mpr ⟨rfl, rfl⟩
    | linkRef hnode ht hm =>
      simp only [hnode]
      rw [if_neg (by simp [ht]), if_neg hm]
      exact Machine.set_ok.mpr ⟨rfl, rfl⟩

theorem doDropNode_computes : Computes env doDropNode .dropNode := by
  intro vm r u vm' r'
  simp only [doDropNode, readOperands, bind_operand_ok, Machine.bind_get_ok,
    Decoder.bind_eq_ok, Decoder.pure_eq_ok]
  constructor
  · rintro ⟨id, r1, hid, h⟩
    cases hnode : vm.node? id with
    | none =>
      rw [hnode] at h
      exact absurd h Machine.not_fail_ok
    | some node =>
      simp only [hnode] at h
      split at h
      · rename_i ha
        obtain ⟨-, rfl, rfl⟩ := Machine.pure_ok.mp h
        exact ⟨_, ⟨id, _, hid, rfl, rfl⟩, .dropDead hnode ha⟩
      · rename_i ha
        obtain ⟨rfl, rfl⟩ := Machine.set_ok.mp h
        exact ⟨_, ⟨id, _, hid, rfl, rfl⟩, .drop hnode (by simpa using ha)⟩
  · rintro ⟨op, ⟨id, r1, hid, rfl, rfl⟩, h⟩
    refine ⟨id, _, hid, ?_⟩
    cases h with
    | dropDead hnode ha =>
      simp only [hnode]
      rw [if_pos ha]
      exact Machine.pure_ok.mpr ⟨rfl, rfl, rfl⟩
    | drop hnode ha =>
      simp only [hnode]
      rw [if_neg (by simp [ha])]
      exact Machine.set_ok.mpr ⟨rfl, rfl⟩

theorem doSnapshot_computes : Computes env (doSnapshot env) .snapshot := by
  intro vm r u vm' r'
  simp only [doSnapshot, readOperands, bind_operand_ok, Machine.bind_get_ok,
    Decoder.bind_eq_ok, Decoder.pure_eq_ok]
  constructor
  · rintro ⟨label, r1, hlabel, h⟩
    split at h
    · exact absurd h Machine.not_fail_ok
    rename_i hn
    obtain ⟨rfl, rfl⟩ := Machine.set_ok.mp h
    exact ⟨_, ⟨label, _, hlabel, rfl, rfl⟩, .snapshot hn⟩
  · rintro ⟨op, ⟨label, r1, hlabel, rfl, rfl⟩, h⟩
    cases h with
    | snapshot hn =>
      refine ⟨label, _, hlabel, ?_⟩
      rw [if_neg hn]
      exact Machine.set_ok.mpr ⟨rfl, rfl⟩

theorem doSetMeta_computes : Computes env (doSetMeta env) .setMeta := by
  intro vm r u vm' r'
  simp only [doSetMeta, readOperands, bind_operand_ok, Machine.bind_get_ok,
    Decoder.bind_eq_ok, Decoder.pure_eq_ok]
  constructor
  · rintro ⟨key, r1, hkey, value, r2, hvalue, h⟩
    split at h
    · exact absurd h Machine.not_fail_ok
    rename_i hk
    split at h
    · exact absurd h Machine.not_fail_ok
    rename_i hn
    obtain ⟨rfl, rfl⟩ := Machine.set_ok.mp h
    exact ⟨_, ⟨key, r1, hkey, value, _, hvalue, rfl, rfl⟩, .setMeta hk hn⟩
  · rintro ⟨op, ⟨key, r1, hkey, value, r2, hvalue, rfl, rfl⟩, h⟩
    cases h with
    | setMeta hk hn =>
      refine ⟨key, r1, hkey, value, _, hvalue, ?_⟩
      rw [if_neg hk, if_neg hn]
      exact Machine.set_ok.mpr ⟨rfl, rfl⟩

theorem dispatch_computes (code : OpCode) : Computes env (dispatch env code) code := by
  cases code with
  | newNode => exact doNewNode_computes
  | setField => exact doSetField_computes
  | beginGroup => exact doBeginGroup_computes
  | endGroup => exact doEndGroup_computes
  | addChild => exact doAddChild_computes
  | linkRef => exact doLinkRef_computes
  | dropNode => exact doDropNode_computes
  | snapshot => exact doSnapshot_computes
  | setMeta => exact doSetMeta_computes
  | nop =>
    intro vm r u vm' r'
    simp only [dispatch, readOperands, Decoder.pure_eq_ok, Machine.pure_ok]
    constructor
    · rintro ⟨-, rfl, rfl⟩
      exact ⟨_, ⟨rfl, rfl⟩, .nop⟩
    · rintro ⟨op, ⟨rfl, rfl⟩, h⟩
      cases h
      exact ⟨trivial, rfl, rfl⟩

/-- **Every handler but that of `END_GROUP` checks before it stores**: it stops with a status, and has
changed nothing then. -/
theorem dispatch_guarded {code : OpCode} (hcode : code ≠ .endGroup) :
    Machine.Guarded (fun e => ∃ st, e = Fault.status st) (dispatch env code) := by
  have hstatus : ∀ st, ∃ st', Fault.status st = Fault.status st' := fun st => ⟨st, rfl⟩
  cases code with
  | endGroup => exact absurd rfl hcode
  | newNode =>
    refine .bind_read hstatus fun kind => .bind_read hstatus fun name => .bind_get fun vm => ?_
    split
    · exact .fail (hstatus _)
    split
    · exact .fail (hstatus _)
    split
    · exact .fail (hstatus _)
    · exact .set _
  | setField =>
    refine .bind_read hstatus fun id => .bind_read hstatus fun field => .bind_get fun vm => ?_
    split
    · exact .fail (hstatus _)
    simp only
    split
    · exact .fail (hstatus _)
    -- the value is decoded into a local before anything is stored
    refine .bind_read hstatus fun v => ?_
    split
    · exact .fail (hstatus _)
    · exact .set _
  | beginGroup =>
    refine .bind_read hstatus fun name => .bind_read hstatus fun hint => .bind_get fun vm => ?_
    split
    · exact .fail (hstatus _)
    simp only
    split
    · exact .fail (hstatus _)
    split
    · exact .fail (hstatus _)
    · exact .set _
  | addChild =>
    refine .bind_read hstatus fun child => .bind_get fun vm => ?_
    split
    · exact .fail (hstatus _)
    split
    · exact .fail (hstatus _)
    · exact .set _
  | linkRef =>
    refine .bind_read hstatus fun src => .bind_read hstatus fun field =>
      .bind_read hstatus fun name => .bind_get fun vm => ?_
    split
    · exact .fail (hstatus _)
    split
    · exact .fail (hstatus _)
    simp only
    split
    · exact .set _
    · exact .set _
  | dropNode =>
    refine .bind_read hstatus fun id => .bind_get fun vm => ?_
    split
    · exact .fail (hstatus _)
    split
    · exact .pure _
    · exact .set _
  | snapshot =>
    refine .bind_read hstatus fun label => .bind_get fun vm => ?_
    split
    · exact .fail (hstatus _)
    · exact .set _
  | setMeta =>
    refine .bind_read hstatus fun key => .bind_read hstatus fun value => .bind_get fun vm => ?_
    split
    · exact .fail (hstatus _)
    split
    · exact .fail (hstatus _)
    · exact .set _
  | nop => exact .pure _

/-- **One iteration of `run`**: it decodes an opcode, and the opcode has its effect. -/
theorem stepOp_ok_iff : Machine.Ok (stepOp env) vm r u vm' r' ↔
    ∃ op vm1, readOp (vm.fieldType env) env.limits r = .ok (op, r') ∧
      ReplayVM.Effect env vm op vm1 ∧ vm' = vm1.tick := by
  simp only [stepOp, readOp, bind_operand_ok, Decoder.bind_eq_ok]
  constructor
  · rintro ⟨raw, r1, hraw, h⟩
    cases hc : OpCode.ofRaw? raw with
    | none =>
      rw [hc] at h
      exact absurd h Machine.not_fail_ok
    | some code =>
      simp only [hc] at h
      obtain ⟨_, vm1, r2, hd, h⟩ := Machine.bind_ok.mp h
      obtain ⟨op, hop, heff⟩ := (dispatch_computes code).mp hd
      obtain ⟨rfl, rfl⟩ := Machine.set_ok.mp (Machine.bind_get_ok.mp h)
      exact ⟨op, vm1, ⟨raw, r1, hraw, by rw [hc]; exact hop⟩, heff, rfl⟩
  · rintro ⟨op, vm1, ⟨raw, r1, hraw, hop⟩, heff, rfl⟩
    refine ⟨raw, r1, hraw, ?_⟩
    cases hc : OpCode.ofRaw? raw with
    | none =>
      rw [hc] at hop
      exact absurd hop fail_ne_ok
    | some code =>
      rw [hc] at hop
      have hd := (dispatch_computes code (u := ())).mpr ⟨op, hop, heff⟩
      exact Machine.bind_ok.mpr ⟨(), vm1, r', hd, Machine.set_ok.mpr ⟨rfl, rfl⟩⟩

end Handlers

/-! ## Runs -/

/-- `ops` are decoded from `r` and executed one after the other, ending in `vm'` with `r'` left. -/
inductive Replays (env : Env) : List Op → ReplayVM → Bytes → ReplayVM → Bytes → Prop
  | nil {vm r} : Replays env [] vm r vm r
  | cons {op ops vm r vm1 r1 vm' r'}
      (hread : readOp (vm.fieldType env) env.limits r = .ok (op, r1))
      (heff : ReplayVM.Effect env vm op vm1) (hrest : Replays env ops vm1.tick r1 vm' r') :
      Replays env (op :: ops) vm r vm' r'

section Runs

variable {env : Env} {vm vm' : ReplayVM} {r r' : Bytes} {u : Unit}

theorem runOps_ok_iff {n : Nat} : Machine.Ok (runOps env n) vm r u vm' r' ↔
    ∃ ops : List Op, ops.length = n ∧ Replays env ops vm r vm' r' := by
  induction n generalizing vm r with
  | zero =>
    simp only [runOps, Machine.pure_ok]
    constructor
    · rintro ⟨-, rfl, rfl⟩
      exact ⟨[], rfl, .nil⟩
    · rintro ⟨ops, hlen, h⟩
      cases h with
      | nil => exact ⟨trivial, rfl, rfl⟩
      | cons => cases hlen
  | succ n ih =>
    simp only [runOps, Machine.bind_ok, stepOp_ok_iff, ih]
    constructor
    · rintro ⟨_, _, r1, ⟨op, vm1, hread, heff, rfl⟩, ops, hlen, h⟩
      exact ⟨op :: ops, congrArg (· + 1) hlen, .cons hread heff h⟩
    · rintro ⟨ops, hlen, h⟩
      cases h with
      | nil => cases hlen
      | cons hread heff h =>
        exact ⟨(), _, _, ⟨_, _, hread, heff, rfl⟩, _, Nat.succ.inj hlen, h⟩

/-- **`run` succeeds** iff the announced number of opcodes, within the limit, replay one after the
other and leave no group open. -/
theorem run_ok_iff : Machine.Ok (run env) vm r u vm' r' ↔
    ∃ count r1 ops, readVarintU32 r = .ok (count, r1) ∧ count ≤ env.limits.maxJournalOps ∧
      ops.length = count.toNat ∧ Replays env ops vm r1 vm' r' ∧ vm'.frames = [] := by
  simp only [run, bind_operand_ok]
  constructor
  · rintro ⟨count, r1, hcount, h⟩
    split at h
    · exact absurd h Machine.not_fail_ok
    rename_i hle
    obtain ⟨_, vm1, r2, hops, h⟩ := Machine.bind_ok.mp h
    obtain ⟨ops, hlen, hrep⟩ := runOps_ok_iff.mp hops
    have h := Machine.bind_get_ok.mp h
    split at h
    · exact absurd h Machine.not_fail_ok
    rename_i hframes
    obtain ⟨-, rfl, rfl⟩ := Machine.pure_ok.mp h
    exact ⟨count, r1, ops, hcount, UInt32.not_lt.mp hle, hlen, hrep, by simpa using hframes⟩
  · rintro ⟨count, r1, ops, hcount, hle, hlen, hrep, hframes⟩
    refine ⟨count, r1, hcount, ?_⟩
    rw [if_neg (UInt32.not_lt.mpr hle)]
    refine Machine.bind_ok.mpr ⟨(), vm', r', runOps_ok_iff.mpr ⟨ops, hlen, hrep⟩, ?_⟩
    rw [closeRun, Machine.bind_get_ok, if_neg (by simp [hframes])]
    exact Machine.pure_ok.mpr ⟨rfl, rfl, rfl⟩

/-- `vm'` is a state of the run over `journal` from `vm`: the one between two iterations of its
loop, after `k` of the announced opcodes. -/
def Visits (env : Env) (vm : ReplayVM) (journal : Bytes) (vm' : ReplayVM) : Prop :=
  ∃ count r k r', readVarintU32 journal = .ok (count, r) ∧ count ≤ env.limits.maxJournalOps ∧
    k ≤ count.toNat ∧ Machine.Ok (runOps env k) vm r () vm' r'

/-- A visited state is replayed to, within the limit on opcodes. -/
theorem Visits.replays {journal : Bytes} (h : Visits env vm journal vm') :
    ∃ ops r r', ops.length ≤ env.limits.maxJournalOps.toNat ∧ Replays env ops vm r vm' r' := by
  obtain ⟨count, r, k, r', -, hcount, hk, hrun⟩ := h
  obtain ⟨ops, hlen, hrep⟩ := runOps_ok_iff.mp hrun
  have := UInt32.le_iff_toNat_le.mp hcount
  exact ⟨ops, r, r', by omega, hrep⟩

/-- An invariant of every effect and of the tick holds after every replay. -/
theorem Replays.invariant {P : ReplayVM → Prop}
    (hstep : ∀ {vm op vm1}, P vm → ReplayVM.Effect env vm op vm1 → P vm1.tick)
    {ops : List Op} (h : Replays env ops vm r vm' r') (h0 : P vm) : P vm' := by
  induction h with
  | nil => exact h0
  | cons _ heff _ ih => exact ih (hstep h0 heff)

end Runs

end Stratavm
