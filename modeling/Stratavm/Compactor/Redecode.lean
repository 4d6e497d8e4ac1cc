import Stratavm.Compactor.Groups

/-!
# The output is decoded again

What survives is typed by the same kinds as before, as every `NEW_NODE` does, and its groups are closed,
as a `BEGIN_GROUP` and its `END_GROUP` have the same flag. So the output decodes to the opcodes kept.

`TypedFrom` follows the kinds that the decoder knows through a list of opcodes. Removing anything but a
`NEW_NODE` changes none of them, so every value that survives is read with the type it was read with before
(`TypedFrom.survivors`). That the groups are closed goes by the flags of the open groups: one that is
kept is open in the output from its `BEGIN_GROUP` to its `END_GROUP` (`Balanced.survivors`).

* `survivors_beginGroup`, `survivors_endGroup`, `survivors_other`: one opcode of the input.
* `DecodesTo`: a journal that `compact` accepts, and its opcodes.
* **`DecodesTo.compacted`**: so is the output, whose opcodes are those that survive.
-/

namespace Stratavm

open Lib

namespace JournalCompactor

/-- The journal decodes to `ops`, and leaves no group open. -/
def DecodesTo (schema : Schema) (journal : Bytes) (ops : List Op) : Prop :=
  ∃ count body records st' r', readVarintU32 journal = .ok (count, body) ∧
    ops.length = count.toNat ∧ Decodes schema ops {} body records st' r' ∧ st'.groupStack = []

/-! ## One opcode -/

section Survivors

variable {live : Finset NodeId} {flags : List Bool} {op : Op} {ops : List Op}

theorem survivors_beginGroup {owner : AtomId} {hint : UInt32} :
    survivors live flags (.beginGroup owner hint :: ops) =
      if childAhead 0 ops then .beginGroup owner hint :: survivors live (true :: flags) ops
      else survivors live (false :: flags) ops := by
  rw [survivors]
  cases h : childAhead 0 ops <;> simp [keepsField, keepsGroup, nextFlags, h]

theorem survivors_endGroup {flag : Bool} :
    survivors live (flag :: flags) (.endGroup :: ops) =
      if flag then .endGroup :: survivors live flags ops else survivors live flags ops := by
  rw [survivors]
  cases flag <;> simp [keepsField, keepsGroup, nextFlags]

theorem survivors_other (hbegin : op.code ≠ .beginGroup) (hend : op.code ≠ .endGroup) :
    survivors live flags (op :: ops) =
      if keepsField live op ops then op :: survivors live flags ops
      else survivors live flags ops := by
  rw [survivors]
  cases op with
  | beginGroup => exact absurd rfl hbegin
  | endGroup => exact absurd rfl hend
  | _ => simp [keepsGroup, nextFlags]

theorem survivors_addChild {child : AtomId} :
    survivors live flags (.addChild child :: ops) = .addChild child :: survivors live flags ops := by
  rw [survivors]
  simp [keepsField, keepsGroup, nextFlags]

/-- **The groups that survive are closed.** -/
theorem Balanced.survivors (h : Balanced flags.length ops) :
    Balanced (flags.count true) (survivors live flags ops) := by
  induction ops generalizing flags with
  | nil =>
    obtain rfl := List.length_eq_zero_iff.mp h
    rfl
  | cons op ops ih =>
    cases op using Op.groupCases with
    | beginGroup owner hint =>
      have hopen : ∀ flag : Bool, Balanced ((flag :: flags).count true)
          (JournalCompactor.survivors live (flag :: flags) ops) := fun flag => ih h
      rw [survivors_beginGroup]
      split
      · have hkept := hopen true
        rwa [List.count_cons_self] at hkept
      · exact hopen false
    | endGroup =>
      cases flags with
      | nil => exact absurd h.1 (Nat.lt_irrefl 0)
      | cons flag flags =>
        rw [survivors_endGroup]
        cases flag with
        | true =>
          rw [List.count_cons_self]
          exact ⟨Nat.succ_pos _, ih h.2⟩
        | false => exact ih h.2
    | addChild child => exact ih h
    | other op hbegin hend hadd =>
      rw [balanced_other hbegin hend] at h
      rw [survivors_other hbegin hend]
      split
      · exact (balanced_other hbegin hend).mpr (ih h)
      · exact ih h

end Survivors

/-! ## Hints -/

section Hints

variable {op : Op} {ops : List Op} {depth : Nat}

theorem withoutHint_withoutHint (op : Op) : op.withoutHint.withoutHint = op.withoutHint := by
  cases op <;> rfl

theorem nextKinds_withoutHint (kinds : List KindId) (op : Op) :
    nextKinds kinds op.withoutHint = nextKinds kinds op := by
  cases op <;> rfl

theorem balanced_withoutHint : Balanced depth (ops.map Op.withoutHint) ↔ Balanced depth ops := by
  induction ops generalizing depth with
  | nil => exact Iff.rfl
  | cons op ops ih =>
    cases op with
    | endGroup => exact and_congr_right fun _ => ih
    | _ => exact ih

end Hints

/-! ## Typed opcodes -/

/-- The opcodes have the types `decode_op` reads them with, from these kinds on. -/
def TypedFrom (schema : Schema) : List KindId → List Op → Prop
  | _, [] => True
  | kinds, op :: ops =>
    op.Typed (readType schema kinds) {} ∧ TypedFrom schema (nextKinds kinds op) ops

section Typed

variable {schema : Schema} {kinds : List KindId} {st st' : DecodeState} {r r' : Bytes} {op : Op}
  {ops : List Op} {records : List OpRecord}

theorem Decodes.typedFrom (h : Decodes schema ops st r records st' r') :
    TypedFrom schema st.nodeKinds ops := by
  induction h with
  | nil => exact trivial
  | cons hread _ _ ih =>
    rw [nodeKinds_next] at ih
    exact ⟨readOp_typed hread, ih⟩

/-- Decoding is a function of the bytes. -/
theorem Decodes.unique {ops' : List Op} {records' : List OpRecord} {st2 : DecodeState} {r2 : Bytes}
    (h : Decodes schema ops st r records st' r') (h' : Decodes schema ops' st r records' st2 r2)
    (hlen : ops.length = ops'.length) : ops = ops' := by
  induction h generalizing ops' records' with
  | nil => exact (List.length_eq_zero_iff.mp hlen.symm).symm
  | cons hread _ _ ih =>
    cases h' with
    | nil => cases hlen
    | cons hread' _ hrest =>
      obtain ⟨rfl, rfl⟩ := Prod.mk.inj (Except.ok.inj (hread.symm.trans hread'))
      rw [ih hrest (Nat.succ.inj hlen)]

/-- **Typed, balanced opcodes are decoded** from their encodings. -/
theorem TypedFrom.decodes (st : DecodeState) (h : TypedFrom schema st.nodeKinds ops)
    (hbalanced : Balanced st.groupStack.length ops) (t : Bytes) :
    ∃ records st', Decodes schema ops st (ops.flatMap Op.encode ++ t) records st' t ∧
      st'.groupStack = [] := by
  induction ops generalizing st with
  | nil => exact ⟨[], st, .nil, List.length_eq_zero_iff.mp hbalanced⟩
  | cons op ops ih =>
    obtain ⟨htyped, htail⟩ := h
    obtain ⟨hgroup, hbalanced⟩ := balanced_cons.mp hbalanced
    rw [← length_groupStack_next] at hbalanced
    rw [← nodeKinds_next] at htail
    obtain ⟨records, st', hdec, hclosed⟩ := ih _ htail hbalanced
    rw [List.flatMap_cons, List.append_assoc]
    exact ⟨_, st', .cons (reads_op htyped _) (fun h => List.length_pos_iff.mp (hgroup h)) hdec, hclosed⟩

/-- **What survives is typed as before**. -/
theorem TypedFrom.survivors {live : Finset NodeId} {flags : List Bool}
    (h : TypedFrom schema kinds ops) :
    TypedFrom schema kinds ((survivors live flags ops).map Op.withoutHint) := by
  induction ops generalizing kinds flags with
  | nil => exact trivial
  | cons op ops ih =>
    obtain ⟨htyped, htail⟩ := h
    have hkept : TypedFrom schema kinds
        (op.withoutHint :: (JournalCompactor.survivors live (nextFlags flags op ops) ops).map
          Op.withoutHint) :=
      ⟨typed_withoutHint htyped, (nextKinds_withoutHint kinds op).symm ▸ ih htail⟩
    rw [JournalCompactor.survivors]
    split
    · exact hkept
    · rename_i hgone
      cases op with
      | newNode => exact absurd rfl hgone
      | _ => exact ih htail

end Typed

/-! ## The output -/

section Output

variable {schema : Schema} {journal : Bytes} {ops : List Op}

theorem DecodesTo.length_lt (h : DecodesTo schema journal ops) : ops.length < 2 ^ 32 := by
  obtain ⟨count, _, _, _, _, -, hlen, -⟩ := h
  exact hlen ▸ count.toNat_lt

theorem DecodesTo.unique {ops' : List Op} (h : DecodesTo schema journal ops)
    (h' : DecodesTo schema journal ops') : ops = ops' := by
  obtain ⟨count, body, _, _, _, hcount, hlen, hdec, -⟩ := h
  obtain ⟨count', body', _, _, _, hcount', hlen', hdec', -⟩ := h'
  obtain ⟨rfl, rfl⟩ := Prod.mk.inj (Except.ok.inj (hcount.symm.trans hcount'))
  exact hdec.unique hdec' (hlen.trans hlen'.symm)

theorem length_compacted_le (ops : List Op) : (compacted ops).length ≤ ops.length := by
  rw [compacted, List.length_map]
  exact length_survivors_le _ _ _

theorem balanced_compacted (h : Balanced 0 ops) : Balanced 0 (compacted ops) := by
  have hnone : Balanced ([] : List Bool).length ops := h
  exact balanced_withoutHint.mpr hnone.survivors

/-- Typed, balanced opcodes are those of their journal. -/
theorem decodesTo_journalOf (htyped : TypedFrom schema [] ops) (hbalanced : Balanced 0 ops)
    (hlt : ops.length < 2 ^ 32) : DecodesTo schema (journalOf ops) ops := by
  obtain ⟨records, st', hdec, hclosed⟩ := TypedFrom.decodes {} htyped hbalanced []
  obtain ⟨hread, hcount⟩ := reads_count32 hlt
  rw [List.append_nil] at hdec
  exact ⟨_, _, records, st', [], hread _, hcount.symm, hdec, hclosed⟩

/-- **The output decodes** to the opcodes kept. -/
theorem DecodesTo.compacted (h : DecodesTo schema journal ops) :
    DecodesTo schema (journalOf (compacted ops)) (compacted ops) := by
  have hlt := Nat.lt_of_le_of_lt (length_compacted_le ops) h.length_lt
  obtain ⟨_, _, _, _, _, -, -, hdec, hclosed⟩ := h
  exact decodesTo_journalOf hdec.typedFrom.survivors (balanced_compacted (hdec.balanced hclosed)) hlt

end Output

end JournalCompactor

end Stratavm
