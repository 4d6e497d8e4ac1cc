import Stratavm.AtomPool.Index

/-!
# A pool over its history

`decode` clears a pool and fills it again, and leaves it partly filled where it fails; `intern` appends to
it. The list of atoms and the reverse index stay in step through any sequence of such calls, failed ones
included (`Reached.indexed`).

`Exact` is what a caller of the pool relies on: `find` has the least id of a string, or `kInvalidAtom`,
which is no atom's id; `intern` returns what `find` does, or an id that was free and now has the string;
every id keeps its string, and a string interned once is interned to the same id ever after, whatever is
interned in between.

* **`reached_exact`**: every pool reached is so, by induction on the calls, while there are ids left.

Out of scope: a pool of `2 ^ 32 - 1` atoms, whose next id would be `kInvalidAtom`.
-/

namespace Stratavm

open Lib

namespace AtomPool

variable {p : AtomPool} {s t : Bytes} {a : AtomId}

/-- Pools that calls of `decode`, failed or not, and of `intern` lead to. -/
inductive Reached : AtomPool → Prop
  | empty : Reached {}
  | decode {p : AtomPool} (h : Reached p) (limits : Limits) (bytes : Bytes) :
      Reached (AtomPool.decode limits p bytes).2
  | intern {p : AtomPool} (h : Reached p) (s : Bytes) : Reached (p.intern s).2

/-- Interning the strings one after the other. -/
def internMany (p : AtomPool) (strings : List Bytes) : AtomPool :=
  strings.foldl (fun p s => (p.intern s).2) p

/-- The least id of every string, and ids that stay. -/
structure Exact (p : AtomPool) : Prop where
  find_least : ∀ s a, p.get a = some s → p.get (p.find s) = some s ∧ p.find s ≤ a
  find_none : ∀ s, (∀ a, p.get a ≠ some s) → p.find s = kInvalidAtom ∧ p.get kInvalidAtom = none
  intern_present : ∀ s a, p.get a = some s → (p.intern s).1 = p.find s
  intern_fresh : ∀ s, (∀ a, p.get a ≠ some s) →
    p.get (p.intern s).1 = none ∧ (p.intern s).2.get (p.intern s).1 = some s
  intern_keeps : ∀ s a t, p.get a = some t → (p.intern s).2.get a = some t
  intern_again : ∀ s strings, (((p.intern s).2.internMany strings).intern s).1 = (p.intern s).1

/-! ## One call -/

/-- An interned string is in the index. -/
theorem lookup_intern_self (p : AtomPool) (s : Bytes) :
    (p.intern s).2.index.lookup s = some (p.intern s).1 := by
  cases h : p.index.lookup s with
  | some a => rw [intern_of_some h, h]
  | none =>
    rw [intern_of_none h]
    exact Finmap.lookup_insert _

/-- A string in the index keeps its id. -/
theorem lookup_intern (h : p.index.lookup s = some a) : (p.intern t).2.index.lookup s = some a := by
  cases ht : p.index.lookup t with
  | some b =>
    rw [intern_of_some ht]
    exact h
  | none =>
    rw [intern_of_none ht]
    have hne : s ≠ t := by
      rintro rfl
      rw [h] at ht
      cases ht
    exact (Finmap.lookup_insert_of_ne _ hne).trans h

theorem lookup_internMany (h : p.index.lookup s = some a) (strings : List Bytes) :
    (p.internMany strings).index.lookup s = some a := by
  induction strings generalizing p with
  | nil => exact h
  | cons t strings ih => exact ih (lookup_intern h)

/-! ## Every call -/

/-- **The index is in step** in every pool reached, while there are ids left. -/
theorem Reached.indexed (h : p.Reached) (hsize : p.size < 2 ^ 32) : p.Indexed := by
  induction h with
  | empty => exact .empty
  | decode _ limits bytes ih =>
    rcases decode_indexed_or limits _ bytes with hsame | hindexed
    · rw [hsame] at hsize ⊢
      exact ih hsize
    · exact hindexed
  | intern _ s ih => exact (ih (Nat.lt_of_le_of_lt (size_le_intern _ s) hsize)).intern hsize

theorem get_eq_some_iff : p.get a = some s ↔ ∃ h : a.toNat < p.atoms.length, p.atoms[a.toNat] = s :=
  List.getElem?_eq_some_iff

/-- A string has an id iff it is in the pool. -/
theorem exists_get_iff (hsize : p.size < 2 ^ 32) : (∃ a, p.get a = some s) ↔ s ∈ p.atoms := by
  constructor
  · rintro ⟨a, ha⟩
    exact List.mem_of_getElem? ha
  · intro hs
    obtain ⟨i, hi, hget⟩ := List.getElem_of_mem hs
    have htoNat : (UInt32.ofNat i).toNat = i := toNat_ofNat_of_lt (Nat.lt_trans hi hsize)
    exact ⟨UInt32.ofNat i, get_eq_some_iff.mpr ⟨htoNat.symm ▸ hi, by simpa only [htoNat] using hget⟩⟩

/-- What `find` returns of a string in the pool: its first id. -/
theorem Indexed.find_least (h : p.Indexed) (ha : p.get a = some s) :
    p.index.lookup s = some (p.find s) ∧ p.get (p.find s) = some s ∧ p.find s ≤ a := by
  obtain ⟨hlt, hget⟩ := get_eq_some_iff.mp ha
  have hne : p.find s ≠ kInvalidAtom := h.find_ne_invalid_iff.mpr (hget ▸ List.getElem_mem hlt)
  have hfirst := h.find_eq_iff.mp ⟨hne, rfl⟩
  obtain ⟨hlt', hget', hleast⟩ := List.idxOf?_eq_some_iff.mp hfirst
  refine ⟨?_, get_eq_some_iff.mpr ⟨hlt', hget'⟩, ?_⟩
  · unfold find at hne ⊢
    cases hs : p.index.lookup s with
    | some b => rfl
    | none => exact absurd (by rw [hs]; rfl) hne
  · rw [UInt32.le_iff_toNat_le]
    by_contra hgt
    exact hleast a.toNat (Nat.lt_of_not_le hgt) hget

/-- A string without an id is not in the index. -/
theorem Indexed.lookup_eq_none (h : p.Indexed) (hs : ∀ a, p.get a ≠ some s) :
    p.index.lookup s = none := by
  have hmem : s ∉ p.atoms := fun hmem => by
    obtain ⟨a, ha⟩ := (exists_get_iff h.fits).mpr hmem
    exact hs a ha
  rw [h.lookup, List.idxOf?_eq_none_iff.mpr hmem, Option.map_none]

/-- **A pool is exact** after any sequence of calls of `decode`, failed or not, and `intern`. -/
theorem reached_exact (h : p.Reached) (hsize : p.size < 2 ^ 32 - 1) : p.Exact := by
  have hi : p.Indexed := h.indexed (by omega)
  refine ⟨fun s a ha => (hi.find_least ha).2, fun s hs => ⟨?_, ?_⟩, fun s a ha => ?_,
    fun s hs => ?_, fun s a t ha => ?_, fun s strings => ?_⟩
  · rw [find, hi.lookup_eq_none hs]
    rfl
  · exact List.getElem?_eq_none (show p.size ≤ 2 ^ 32 - 1 by omega)
  · rw [intern_of_some (hi.find_least ha).1]
  · have htoNat : (UInt32.ofNat p.size).toNat = p.size := toNat_ofNat_of_lt (by omega)
    rw [intern_of_none (hi.lookup_eq_none hs)]
    refine ⟨List.getElem?_eq_none (Nat.le_of_eq htoNat.symm), ?_⟩
    rw [get, htoNat, size, List.getElem?_concat_length]
  · obtain ⟨u, hu⟩ := prefix_atoms_intern p s
    rw [get, ← hu, List.getElem?_append_left (List.getElem?_eq_some_iff.mp ha).1]
    exact ha
  · rw [intern_of_some (lookup_internMany (lookup_intern_self p s) strings)]

/-- A pool that failed at its third atom, after the same text twice. -/
theorem reached_exact_failedDecode :
    (AtomPool.decode {} {} [3, 1, 0x61, 1, 0x61, 9]).2.size = 2 ∧
      (AtomPool.decode {} {} [3, 1, 0x61, 1, 0x61, 9]).2.Exact :=
  ⟨rfl, reached_exact (.decode .empty {} [3, 1, 0x61, 1, 0x61, 9]) (by decide)⟩

end AtomPool

end Stratavm
