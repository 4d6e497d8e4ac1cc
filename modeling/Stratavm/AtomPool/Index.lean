import Stratavm.AtomPool

/-!
# The reverse index of a pool

`find` returns the earliest id of a string, in a pool that `decode` or `intern` fills while there are
ids left (`Produced.indexed`). So an id is what `find` returns for its text iff the text is not in the
pool before it (`find_eq_iff`), which is every id of a pool without repeated strings
(`idxOf?_eq_some_iff_get`).

`Indexed` is the invariant: the index has the position of the first occurrence of each string. `intern`
keeps it because it appends a string only when the index lacks it, and `decode` because it inserts an atom
only when the index lacks its text, though it appends the atom in any case. The loop of `decode` keeps it
wherever it stops, so a pool that failed to decode is in step as well (`decode_indexed_or`).

Out of scope: pools of `2 ^ 32` atoms and more, whose ids wrap.
-/

namespace Stratavm

open Lib

namespace AtomPool

variable {p : AtomPool} {s : Bytes} {a : AtomId}

/-- What `intern` does to a string that the index has, -/
theorem intern_of_some (h : p.index.lookup s = some a) : p.intern s = (a, p) := by
  simp only [intern, h]

/-- and to one that it lacks. -/
theorem intern_of_none (h : p.index.lookup s = none) : p.intern s =
    (UInt32.ofNat p.size, { atoms := p.atoms ++ [s]
                            index := p.index.insert s (UInt32.ofNat p.size) }) := by
  simp only [intern, h, size]

theorem prefix_atoms_intern (p : AtomPool) (s : Bytes) : p.atoms <+: (p.intern s).2.atoms := by
  cases h : p.index.lookup s with
  | some a => rw [intern_of_some h]
  | none =>
    rw [intern_of_none h]
    exact List.prefix_append _ _

theorem size_le_intern (p : AtomPool) (s : Bytes) : p.size ≤ (p.intern s).2.size :=
  (prefix_atoms_intern p s).length_le

/-- The reverse index has the first occurrence of each string, and there is an id for every atom. -/
structure Indexed (p : AtomPool) : Prop where
  fits : p.size < 2 ^ 32
  lookup : ∀ s, p.index.lookup s = (p.atoms.idxOf? s).map UInt32.ofNat

theorem Indexed.empty : ({} : AtomPool).Indexed := ⟨by decide, fun s => Finmap.lookup_empty s⟩

/-- Appending an atom keeps the index if the index takes new strings only. -/
theorem Indexed.push (h : p.Indexed) (hsize : p.size + 1 < 2 ^ 32) (s : Bytes) :
    Indexed
      { atoms := p.atoms ++ [s]
        index := if p.index.lookup s = none then p.index.insert s (UInt32.ofNat p.size)
          else p.index } := by
  refine ⟨by rw [size, List.length_append]; exact hsize, fun t => ?_⟩
  have hidx : (p.atoms ++ [s]).idxOf? t =
      (p.atoms.idxOf? t).or (if s = t then some p.size else none) := by
    show List.findIdx? (· == t) (p.atoms ++ [s]) = _
    rw [List.findIdx?_append]
    by_cases hst : s = t <;> simp [List.idxOf?, List.findIdx?_cons, hst, size]
  rw [hidx]
  by_cases hs : p.index.lookup s = none
  · rw [if_pos hs]
    by_cases hst : s = t
    · subst hst
      have hnone : p.atoms.idxOf? s = none := by simpa [h.lookup s] using hs
      rw [Finmap.lookup_insert, hnone, Option.none_or, if_pos rfl, Option.map_some]
    · rw [Finmap.lookup_insert_of_ne _ (Ne.symm hst), h.lookup, if_neg hst, Option.or_none]
  · rw [if_neg hs, h.lookup]
    by_cases hst : s = t
    · subst hst
      obtain ⟨i, hi⟩ : ∃ i, p.atoms.idxOf? s = some i := by
        refine Option.ne_none_iff_exists'.mp fun hnone => hs ?_
        rw [h.lookup, hnone, Option.map_none]
      rw [hi, Option.some_or]
    · rw [if_neg hst, Option.or_none]

theorem Indexed.intern (h : p.Indexed) (hsize : (p.intern s).2.size < 2 ^ 32) :
    (p.intern s).2.Indexed := by
  cases hs : p.index.lookup s with
  | some id => rwa [intern_of_some hs]
  | none =>
    rw [intern_of_none hs] at hsize ⊢
    have hpush := h.push (by rwa [size, List.length_append] at hsize) s
    rwa [if_pos hs] at hpush

/-- The loop of `decode` keeps the index, wherever it stops. -/
theorem decodeAtoms_indexed (limits : Limits) {n i : Nat} {p : AtomPool} (r : Bytes) (h0 : p.Indexed)
    (hi : p.size = i) (hn : i + n < 2 ^ 32) : (decodeAtoms limits n i p r).2.Indexed := by
  induction n generalizing i p r with
  | zero => exact h0
  | succ n ih =>
    rw [decodeAtoms]
    cases hs : readLpString limits.maxAtomLen.toNat r with
    | error e =>
      rw [Machine.bind_read_of_error hs]
      exact h0
    | ok q =>
      rw [Machine.bind_read_of_ok (show _ = Except.ok (q.1, q.2) from hs), Machine.bind_get_apply,
        Machine.bind_set_apply]
      refine ih (i := i + 1) _ ?_ ?_ (by omega)
      · rw [← hi]
        exact h0.push (by omega) q.1
      · rw [size, List.length_append, ← hi]
        rfl

/-- A decoded pool. -/
theorem decode_indexed {limits : Limits} {p p' : AtomPool} {r r' : Bytes} {u : Unit}
    (h : Machine.Ok (decode limits) p r u p' r') : p'.Indexed := by
  obtain ⟨count, r1, -, h⟩ := Machine.bind_read_ok.mp h
  split at h
  · exact absurd h Machine.not_fail_ok
  · rw [Machine.bind_set_ok] at h
    have hlast : (decodeAtoms limits count.toNat 0 {} r1).2 = p' := congrArg Prod.snd h
    rw [← hlast]
    exact decodeAtoms_indexed limits r1 .empty rfl (by rw [Nat.zero_add]; exact count.toNat_lt)

/-- A call of `decode` that fails leaves the pool as it was, or with the atoms read so far. -/
theorem decode_indexed_or (limits : Limits) (p : AtomPool) (r : Bytes) :
    (decode limits p r).2 = p ∨ (decode limits p r).2.Indexed := by
  unfold decode
  cases hcount : readVarintU32 r with
  | error e =>
    rw [Machine.bind_read_of_error hcount]
    exact .inl rfl
  | ok q =>
    rw [Machine.bind_read_of_ok (show _ = Except.ok (q.1, q.2) from hcount)]
    split
    · exact .inl rfl
    · exact .inr (decodeAtoms_indexed limits q.2 .empty rfl
        (by rw [Nat.zero_add]; exact q.1.toNat_lt))

/-- **A pool knows the first occurrence of each string**, while there are ids left. -/
theorem Produced.indexed (h : p.Produced) (hsize : p.size < 2 ^ 32) : p.Indexed := by
  induction h with
  | empty => exact .empty
  | decode h => exact decode_indexed h
  | intern _ s ih => exact (ih (Nat.lt_of_le_of_lt (size_le_intern _ s) hsize)).intern hsize

/-- **What `find` returns**: the first atom of that text. -/
theorem Indexed.find_eq_iff (h : p.Indexed) :
    p.find s ≠ kInvalidAtom ∧ a = p.find s ↔ p.atoms.idxOf? s = some a.toNat := by
  have hfits := h.fits
  rw [find, h.lookup]
  cases hs : p.atoms.idxOf? s with
  | none => simp
  | some i =>
    have hi : i < p.size := (List.idxOf?_eq_some_iff.mp hs).1
    have htoNat : (UInt32.ofNat i).toNat = i := toNat_ofNat_of_lt (by omega)
    rw [Option.map_some, Option.getD_some, Option.some.injEq]
    constructor
    · rintro ⟨-, rfl⟩
      exact htoNat.symm
    · rintro rfl
      refine ⟨fun hinv => ?_, UInt32.ofNat_toNat.symm⟩
      rw [hinv] at htoNat
      have : kInvalidAtom.toNat = 2 ^ 32 - 1 := rfl
      omega

/-- A string is found iff it is in the pool. -/
theorem Indexed.find_ne_invalid_iff (h : p.Indexed) : p.find s ≠ kInvalidAtom ↔ s ∈ p.atoms := by
  constructor
  · intro hne
    by_contra hmem
    have hs := h.find_eq_iff.mp ⟨hne, rfl⟩
    rw [List.idxOf?_eq_none_iff.mpr hmem] at hs
    cases hs
  · intro hmem
    obtain ⟨i, hi⟩ := Option.ne_none_iff_exists'.mp fun h => List.idxOf?_eq_none_iff.mp h hmem
    have hlt : i < p.size := (List.idxOf?_eq_some_iff.mp hi).1
    have htoNat : (UInt32.ofNat i).toNat = i := toNat_ofNat_of_lt (by have := h.fits; omega)
    exact (h.find_eq_iff.mpr (htoNat.symm ▸ hi)).1

/-- In a pool without repeated strings every atom is the first of its text. -/
theorem idxOf?_eq_some_iff_get (h : p.atoms.Nodup) :
    p.atoms.idxOf? s = some a.toNat ↔ p.get a = some s := by
  rw [get]
  constructor
  · intro hs
    obtain ⟨hlt, heq, -⟩ := List.idxOf?_eq_some_iff.mp hs
    rw [List.getElem?_eq_getElem hlt, heq]
  · intro hs
    obtain ⟨hlt, heq⟩ := List.getElem?_eq_some_iff.mp hs
    refine List.idxOf?_eq_some_iff.mpr ⟨hlt, heq, fun j hj heq' => ?_⟩
    exact absurd (h.getElem_inj_iff.mp (heq'.trans heq.symm)) (Nat.ne_of_lt hj)

end AtomPool

end Stratavm
