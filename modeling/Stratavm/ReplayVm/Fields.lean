import Stratavm.ReplayVm.Reach

/-!
# What an opcode does to a slot

Two opcodes write a field: `SET_FIELD`, and `LINK_REF` when it finds its target. `Op.written` is the value
that an opcode writes into a field of the node in a slot, if it writes one.

`SlotStep` is what happens to a node that was there: it keeps its id and what it referenced, its fields
are as before but for the written one, and references are recorded for the values written. `SlotChange`
adds the slots that were not there: a new node has no fields. Both compose along the children of a group
(`SlotChange.trans`), whose placeholders are slots that were not there.

* **`Effect.slot`**: what any opcode does to any slot. The index of references and the typing of a run read
  their steps off it.
-/

namespace Stratavm

open Lib

/-- The nodes a value names: a reference other than `kInvalidNode`, the elements of a list. -/
def Value.nodeIds : Value → List NodeId
  | .ref n => if n = kInvalidNode then [] else [n]
  | .list items => items
  | _ => []

/-- The value that `op`, executed in `vm`, writes in field `f` of the node in slot `i`. -/
def Op.written (vm : ReplayVM) (i : Nat) (f : FieldId) : Op → Option Value
  | .setField node field v => if node.toNat = i ∧ field = f then some v else none
  | .linkRef src field target =>
    if src.toNat = i ∧ field = f ∧ vm.findNamed target ≠ kInvalidNode then
      some (.ref (vm.findNamed target))
    else none
  | _ => none

namespace ReplayVM

variable {env : Env} {vm vm' : ReplayVM}

/-- The edges recorded for a value are its ids in the table. -/
theorem mem_outgoing {size : Nat} {v : Value} {t : NodeId} :
    t ∈ outgoing size v ↔ t ∈ v.nodeIds ∧ t.toNat < size := by
  cases v with
  | ref n =>
    simp only [outgoing, Value.nodeIds]
    by_cases hn : n = kInvalidNode
    · simp [hn]
    · by_cases hlt : n.toNat < size
      · simp only [ne_eq, hn, not_false_eq_true, hlt, and_self, if_true, if_false,
          List.mem_singleton]
        exact ⟨fun ht => ⟨ht, ht ▸ hlt⟩, fun ht => ht.1⟩
      · simp only [ne_eq, hn, not_false_eq_true, hlt, and_false, if_false, List.mem_singleton]
        exact ⟨fun ht => absurd ht List.not_mem_nil, fun ht => absurd (ht.1 ▸ ht.2) hlt⟩
  | list items => simp [outgoing, Value.nodeIds]
  | _ => simp [outgoing, Value.nodeIds]

/-- What an opcode does to a node that is there: its fields but for the written one stay, what it
references stays, and what a written value names is referenced if it is in the table. -/
structure SlotStep (vm : ReplayVM) (op : Op) (i : Nat) (n n' : Node) : Prop where
  id : n'.id = n.id
  alive : n'.alive = true → n.alive = true
  stays : (∀ j, op ≠ .dropNode j) → n'.alive = n.alive
  field : ∀ f, n'.field f = (op.written vm i f).or (n.field f)
  refs : ∀ t ∈ n.refs, t ∈ n'.refs
  recorded : ∀ f v, op.written vm i f = some v → ∀ t ∈ v.nodeIds, t ∈ n'.refs ∨
    vm.nodes.size ≤ t.toNat ∧ ∃ node, op = .setField node f v

/-- A slot before and after an opcode executed in `vm`: a new node has no fields. -/
def SlotChange (vm : ReplayVM) (op : Op) (i : Nat) : Option Node → Option Node → Prop
  | none, after => ∀ n', after = some n' → n'.fields = ∅
  | some n, after => ∃ n', after = some n' ∧ SlotStep vm op i n n'

section Slot

variable {op : Op} {i : Nat} {n n' : Node}

/-- A node that only gains edges, by an opcode that writes none of its fields. -/
theorem SlotStep.of_gain (hid : n'.id = n.id) (halive : n'.alive = n.alive)
    (hfields : n'.fields = n.fields) (hrefs : ∀ t ∈ n.refs, t ∈ n'.refs)
    (hop : ∀ f, op.written vm i f = none) : SlotStep vm op i n n' where
  id := hid
  alive ha := halive ▸ ha
  stays _ := halive
  field f := by rw [hop f, Option.none_or, Node.field, hfields, Node.field]
  refs := hrefs
  recorded f v hv := by
    rw [hop f] at hv
    cases hv

theorem SlotStep.refl (hop : ∀ f, op.written vm i f = none) : SlotStep vm op i n n :=
  .of_gain rfl rfl rfl (fun _ ht => ht) hop

/-- A table that stays as it is. -/
theorem slotChange_of_same {before after : Option Node} (h : after = before)
    (hop : ∀ f, op.written vm i f = none) : SlotChange vm op i before after := by
  cases before with
  | none => exact fun n' hn' => nomatch h.symm.trans hn'
  | some n => exact ⟨n, h, .refl hop⟩

/-- A node appended without fields. -/
theorem slotChange_pushBack {mid vm' : ReplayVM} {m : Node} (hm : m.fields = ∅)
    (h : vm'.nodes = mid.nodes.pushBack env.growth m) (hop : ∀ f, op.written vm i f = none) :
    SlotChange vm op i mid.nodes.data[i]? vm'.nodes.data[i]? := by
  rw [h, Vec.data_pushBack]
  cases hi : mid.nodes.data[i]? with
  | none =>
    intro n' hn'
    rw [List.getElem?_append_right (List.getElem?_eq_none_iff.mp hi)] at hn'
    rcases List.mem_singleton.mp (List.mem_of_getElem? hn') with rfl
    exact hm
  | some n =>
    have hlt := (List.getElem?_eq_some_iff.mp hi).1
    exact ⟨n, by rw [List.getElem?_append_left hlt, hi], .refl hop⟩

/-- A node changed in place. -/
theorem slotChange_modify {mid vm' : ReplayVM} {j : Nat} {f : Node → Node}
    (h : vm'.nodes = mid.nodes.modify j f)
    (hf : ∀ n, mid.nodes.data[i]? = some n → SlotStep vm op i n (if j = i then f n else n)) :
    SlotChange vm op i mid.nodes.data[i]? vm'.nodes.data[i]? := by
  rw [h, Vec.data_modify, List.getElem?_modify]
  cases hi : mid.nodes.data[i]? with
  | none => exact fun n' hn' => nomatch hn'
  | some n => exact ⟨_, rfl, hf n hi⟩

/-- Linking one child after the other. -/
theorem SlotChange.trans {a b c : Option Node} (hop : ∀ f, op.written vm i f = none)
    (h : SlotChange vm op i a b) (h' : SlotChange vm op i b c) : SlotChange vm op i a c := by
  cases a with
  | none =>
    cases b with
    | none => exact h'
    | some m =>
      obtain ⟨n, hn, hstep⟩ := h'
      intro n' hn'
      obtain rfl := Option.some.inj (hn.symm.trans hn')
      refine Finmap.ext_lookup fun f => ?_
      have hf := hstep.field f
      rw [hop f, Option.none_or] at hf
      exact hf.trans (congrArg (fun fields : UMap FieldId Value => fields.lookup f) (h m rfl))
  | some n =>
    obtain ⟨m, rfl, hstep⟩ := h
    obtain ⟨n', hn', hstep'⟩ := h'
    refine ⟨n', hn', ?_⟩
    refine ⟨hstep'.id.trans hstep.id, fun ha => hstep.alive (hstep'.alive ha),
      fun hd => (hstep'.stays hd).trans (hstep.stays hd), fun f => ?_,
      fun t ht => hstep'.refs t (hstep.refs t ht), fun f v hv => ?_⟩
    · rw [hstep'.field, hstep.field, hop f, Option.none_or]
    · rw [hop f] at hv
      cases hv

theorem slotChange_attach {mid : ReplayVM} {slot : Nat} {t : NodeId}
    (hop : ∀ f, op.written vm i f = none) :
    SlotChange vm op i mid.nodes.data[i]? (mid.attach slot t).nodes.data[i]? := by
  let one : ReplayVM := { mid with
    nodes := mid.nodes.modify slot fun n => { n with children := n.children ++ [t] } }
  have hone : SlotChange vm op i mid.nodes.data[i]? one.nodes.data[i]? := by
    refine slotChange_modify rfl fun n _ => ?_
    split
    · exact .of_gain rfl rfl rfl (fun _ ht => ht) hop
    · exact .refl hop
  refine SlotChange.trans hop hone (slotChange_modify (j := t.toNat) rfl fun n _ => ?_)
  split
  · exact .of_gain rfl rfl rfl (fun _ ht => List.mem_append_left _ ht) hop
  · exact .refl hop

theorem slotChange_resolve {frame : GroupFrame} {children : List AtomId}
    (hop : ∀ f, op.written vm i f = none) {mid vm' : ReplayVM}
    (h : resolve env frame children mid = some vm') :
    SlotChange vm op i mid.nodes.data[i]? vm'.nodes.data[i]? := by
  refine resolve_induction
    (P := fun later => SlotChange vm op i mid.nodes.data[i]? later.nodes.data[i]?) h
    (slotChange_of_same rfl hop) fun now child slot _ _ hnow => ?_
  have htarget : SlotChange vm op i now.nodes.data[i]? (now.target env child).2.nodes.data[i]? := by
    rcases target_eq env now child with ⟨-, heq⟩ | ⟨-, heq⟩
    · rw [heq]
      exact slotChange_pushBack rfl rfl hop
    · rw [heq]
      exact slotChange_of_same rfl hop
  exact SlotChange.trans hop hnow (SlotChange.trans hop htarget (slotChange_attach hop))

end Slot

/-- **What an opcode does to a slot.** -/
theorem Effect.slot {op : Op} (h : Effect env vm op vm') (i : Nat) :
    SlotChange vm op i vm.nodes.data[i]? vm'.nodes.data[i]? := by
  cases h with
  | newNode => exact slotChange_pushBack rfl rfl fun _ => rfl
  | @setField nodeId field v node hnode =>
    refine slotChange_modify rfl fun n hn => ?_
    by_cases hi : nodeId.toNat = i
    · rw [if_pos hi]
      refine ⟨rfl, id, fun _ => rfl, fun f => ?_, fun t ht => List.mem_append_left _ ht,
        fun f w hw t ht => ?_⟩
      · rw [Node.field_setField]
        by_cases hf : field = f
        · simp [Op.written, hi, hf]
        · rw [if_neg fun heq => hf heq.symm]
          simp [Op.written, hf, Node.field]
      · simp only [Op.written] at hw
        split at hw
        · rename_i hc
          obtain rfl := Option.some.inj hw
          obtain ⟨-, rfl⟩ := hc
          by_cases hlt : t.toNat < vm.nodes.size
          · exact .inl (List.mem_append_right _ (mem_outgoing.mpr ⟨ht, hlt⟩))
          · exact .inr ⟨Nat.not_lt.mp hlt, nodeId, rfl⟩
        · cases hw
    · rw [if_neg hi]
      exact .refl fun f => by simp [Op.written, hi]
  | beginGroup => exact slotChange_of_same (by simp [openGroup]) fun _ => rfl
  | @endGroup _ frames _ _ hr =>
    have hslot : SlotChange vm .endGroup i ({ vm with frames } : ReplayVM).nodes.data[i]?
        vm'.nodes.data[i]? := slotChange_resolve (fun _ => rfl) hr
    exact hslot
  | addChild => exact slotChange_of_same rfl fun _ => rfl
  | linkRefMissing _ _ hm => exact slotChange_of_same rfl fun f => by simp [Op.written, hm]
  | @linkRef src field name node hnode _ hm =>
    refine slotChange_modify rfl fun n hn => ?_
    by_cases hi : src.toNat = i
    · rw [if_pos hi]
      refine ⟨rfl, id, fun _ => rfl, fun f => ?_, fun t ht => List.mem_append_left _ ht,
        fun f w hw t ht => ?_⟩
      · show (n.setField field _).field f = _
        rw [Node.field_setField]
        by_cases hf : field = f
        · simp [Op.written, hi, hf, hm]
        · rw [if_neg fun heq => hf heq.symm]
          simp [Op.written, hf]
      · simp only [Op.written] at hw
        split at hw
        · obtain rfl := Option.some.inj hw
          refine .inl (List.mem_append_right _ ?_)
          simpa [Value.nodeIds, hm] using ht
        · cases hw
    · rw [if_neg hi]
      exact .refl fun f => by simp [Op.written, hi]
  | dropDead => exact slotChange_of_same rfl fun _ => rfl
  | drop =>
    refine slotChange_modify rfl fun n _ => ?_
    split
    · refine ⟨rfl, ?_, fun hd => absurd rfl (hd _), fun _ => rfl, fun _ ht => ht, ?_⟩
      · rintro ⟨⟩
      · rintro f v ⟨⟩
    · exact .refl fun _ => rfl
  | snapshot => exact slotChange_of_same rfl fun _ => rfl
  | setMeta => exact slotChange_of_same rfl fun _ => rfl
  | nop => exact slotChange_of_same rfl fun _ => rfl

end ReplayVM

end Stratavm
