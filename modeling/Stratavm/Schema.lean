import Stratavm.AtomPool

/-!
# The schema

`Schema` (`schema.hpp`, `schema.cpp`): the kinds a container declares and their typed fields. A kind is
its position, a field its position in the kind; `field_type` of anything else is `Invalid`, which is how
the machine refuses a field that is not declared.

* **`decode_typed`**: every declared type of a decoded schema is one of the five on-disk types, and there
  are too few kinds for `kInvalidKind` to be one.
* **`decode_named`**: its names are in the pool, and its counts within the limits.

Nothing is said of distinct names: two kinds, or two fields of a kind, may have one name.
-/

namespace Stratavm

open Lib Lib.Decoder

/-- `kFieldRequired`. -/
def kFieldRequired : UInt8 := 0x01

/-- `kFieldIndexed`. -/
def kFieldIndexed : UInt8 := 0x02

/-- `FieldDef`. -/
structure FieldDef where
  name : AtomId := kInvalidAtom
  type : ValueType := .invalid
  flags : UInt8 := 0
  deriving DecidableEq, Repr

/-- `FieldDef::is_required`. -/
def FieldDef.isRequired (f : FieldDef) : Bool := f.flags &&& kFieldRequired != 0

/-- `KindDef`. -/
structure KindDef where
  name : AtomId := kInvalidAtom
  fields : List FieldDef := []
  deriving DecidableEq, Repr

/-- `KindDef::field`. -/
def KindDef.field (k : KindDef) (id : FieldId) : Option FieldDef := k.fields[id.toNat]?

/-- `Schema`. -/
structure Schema where
  kinds : List KindDef := []
  deriving DecidableEq, Repr

namespace Schema

/-- `Schema::kind`. -/
def kind (s : Schema) (id : KindId) : Option KindDef := s.kinds[id.toNat]?

/-- `Schema::field_type`. -/
def fieldType (s : Schema) (kindId : KindId) (fieldId : FieldId) : ValueType :=
  match s.kind kindId with
  | none => .invalid
  | some k =>
    match k.field fieldId with
    | none => .invalid
    | some f => f.type

/-- One iteration of the field loop of `decode`. -/
def decodeField (atoms : AtomPool) : Reader FieldDef := do
  let name ← readVarintU32
  if atoms.get name = none then fail .badSchema "field name atom out of range"
  else do
    let typeRaw ← readU8
    match ValueType.ofRaw? typeRaw with
    | none => fail .badSchema "unknown field type"
    | some type => do
      let flags ← readU8
      pure { name, type, flags }

/-- One iteration of the kind loop of `decode`. -/
def decodeKind (atoms : AtomPool) (limits : Limits) : Reader KindDef := do
  let name ← readVarintU32
  if atoms.get name = none then fail .badSchema "kind name atom out of range"
  else do
    let fieldCount ← readVarintU32
    if fieldCount > limits.maxFieldsPerKind then fail .limitExceeded "field count too large"
    else do
      let fields ← listFrom (fun _ => decodeField atoms) 0 fieldCount.toNat
      pure { name, fields }

/-- `Schema::decode`. -/
def decode (atoms : AtomPool) (limits : Limits) : Reader Schema := do
  let kindCount ← readVarintU32
  if kindCount > limits.maxKinds then fail .limitExceeded "kind count too large"
  else do
    let kinds ← listFrom (fun _ => decodeKind atoms limits) 0 kindCount.toNat
    pure { kinds }

/-! ## What a decoded schema guarantees -/

theorem kind_eq_some_mem {s : Schema} {id : KindId} {k : KindDef} (h : s.kind id = some k) :
    k ∈ s.kinds := List.mem_of_getElem? h

theorem fieldType_eq {s : Schema} {kindId : KindId} {fieldId : FieldId} {k : KindDef}
    (hk : s.kind kindId = some k) {f : FieldDef} (hf : k.field fieldId = some f) :
    s.fieldType kindId fieldId = f.type := by
  simp only [fieldType, hk, hf]

/-- A valid field type comes from a declared field of a declared kind. -/
theorem exists_of_fieldType_ne_invalid {s : Schema} {kindId : KindId} {fieldId : FieldId}
    (h : s.fieldType kindId fieldId ≠ .invalid) :
    ∃ k f, s.kind kindId = some k ∧ k.field fieldId = some f ∧ s.fieldType kindId fieldId = f.type := by
  unfold fieldType at h ⊢
  cases hk : s.kind kindId with
  | none => rw [hk] at h; exact absurd rfl h
  | some k =>
    rw [hk] at h
    simp only at h ⊢
    cases hf : k.field fieldId with
    | none => rw [hf] at h; exact absurd rfl h
    | some f => exact ⟨k, f, rfl, hf, rfl⟩

/-- What `decode` establishes of a schema. -/
structure Typed (s : Schema) : Prop where
  /-- Every declared field has one of the five on-disk types. -/
  types : ∀ k ∈ s.kinds, ∀ f ∈ k.fields, f.type ≠ .invalid
  /-- The kind count was read as a `u32`. -/
  count : s.kinds.length < 2 ^ 32

/-- What `decode` establishes of the names and counts of a schema. -/
structure Named (atoms : AtomPool) (s : Schema) : Prop where
  kinds : ∀ k ∈ s.kinds, atoms.get k.name ≠ none
  fields : ∀ k ∈ s.kinds, ∀ f ∈ k.fields, atoms.get f.name ≠ none
  /-- The field count was read as a `u32`. -/
  count : ∀ k ∈ s.kinds, k.fields.length < 2 ^ 32

theorem decodeField_spec {atoms : AtomPool} {r r' : Bytes} {f : FieldDef}
    (h : decodeField atoms r = .ok (f, r')) : f.type ≠ .invalid ∧ atoms.get f.name ≠ none := by
  unfold decodeField at h
  obtain ⟨name, r1, -, h⟩ := bind_eq_ok.mp h
  split at h
  · exact absurd h fail_ne_ok
  rename_i hname
  obtain ⟨raw, r2, -, h⟩ := bind_eq_ok.mp h
  cases ht : ValueType.ofRaw? raw with
  | none =>
    rw [ht] at h
    exact absurd h fail_ne_ok
  | some type =>
    rw [ht] at h
    obtain ⟨flags, r3, -, h⟩ := bind_eq_ok.mp h
    obtain ⟨rfl, -⟩ := pure_eq_ok.mp h
    exact ⟨ValueType.ofRaw?_ne_invalid ht, hname⟩

theorem decodeKind_spec {atoms : AtomPool} {limits : Limits} {r r' : Bytes} {k : KindDef}
    (h : decodeKind atoms limits r = .ok (k, r')) : atoms.get k.name ≠ none ∧
      k.fields.length < 2 ^ 32 ∧ ∀ f ∈ k.fields, f.type ≠ .invalid ∧ atoms.get f.name ≠ none := by
  unfold decodeKind at h
  obtain ⟨name, r1, -, h⟩ := bind_eq_ok.mp h
  split at h
  · exact absurd h fail_ne_ok
  rename_i hname
  obtain ⟨count, r2, -, h⟩ := bind_eq_ok.mp h
  split at h
  · exact absurd h fail_ne_ok
  obtain ⟨fields, r3, hf, h⟩ := bind_eq_ok.mp h
  obtain ⟨rfl, -⟩ := pure_eq_ok.mp h
  obtain ⟨hlen, hall⟩ := listFrom_forall (fun _ _ _ _ => decodeField_spec) hf
  exact ⟨hname, by rw [hlen]; exact count.toNat_lt, hall⟩

theorem decode_spec {atoms : AtomPool} {limits : Limits} {r r' : Bytes} {s : Schema}
    (h : decode atoms limits r = .ok (s, r')) : s.Typed ∧ s.Named atoms := by
  unfold decode at h
  obtain ⟨count, r1, -, h⟩ := bind_eq_ok.mp h
  split at h
  · exact absurd h fail_ne_ok
  obtain ⟨kinds, r2, hk, h⟩ := bind_eq_ok.mp h
  obtain ⟨rfl, -⟩ := pure_eq_ok.mp h
  obtain ⟨hlen, hall⟩ := listFrom_forall (fun _ _ _ _ => decodeKind_spec) hk
  refine ⟨⟨fun k hk f hf => ((hall k hk).2.2 f hf).1, by rw [hlen]; exact count.toNat_lt⟩, ?_⟩
  exact ⟨fun k hk => (hall k hk).1, fun k hk f hf => ((hall k hk).2.2 f hf).2,
    fun k hk => (hall k hk).2.1⟩

/-- **A decoded schema is well typed.** -/
theorem decode_typed {atoms : AtomPool} {limits : Limits} {r r' : Bytes} {s : Schema}
    (h : decode atoms limits r = .ok (s, r')) : s.Typed := (decode_spec h).1

/-- **The names of a decoded schema** are in the pool. -/
theorem decode_named {atoms : AtomPool} {limits : Limits} {r r' : Bytes} {s : Schema}
    (h : decode atoms limits r = .ok (s, r')) : s.Named atoms := (decode_spec h).2

/-- No decoded schema declares the kind `kInvalidKind`. -/
theorem Typed.kind_invalid {s : Schema} (h : s.Typed) : s.kind kInvalidKind = none := by
  apply List.getElem?_eq_none
  have := h.count
  show s.kinds.length ≤ 2 ^ 32 - 1
  omega

end Schema

end Stratavm
