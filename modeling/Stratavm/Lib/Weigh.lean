import Mathlib.Algebra.BigOperators.Group.Finset.Basic
import Mathlib.Algebra.Order.BigOperators.Group.Finset
import Mathlib.Algebra.Ring.Nat
import Mathlib.Data.Finmap

/-!
# Totals over a finite map

`weigh w m` adds up the weights of the values of `m`, as `tally` does for a list. The order of the entries of
a map is not determined, and the sum does not need it.

* **`weigh_insert`**: writing an entry moves the total by as much as the weight under its key moves, from
  nothing if the key is new; `weigh_insert_le` bounds it from above.
* **`foldl_le_add`**: what a fold adds to a size is at most what its steps add. It bounds a structure that a
  loop fills by the items the loop reads.
-/

namespace Stratavm.Lib

variable {K V : Type} [DecidableEq K] {w : V → Nat}

/-- The weights of the values, added up. -/
def weigh (w : V → Nat) (m : Finmap fun _ : K => V) : Nat := ∑ k ∈ m.keys, ((m.lookup k).map w).getD 0

@[simp] theorem weigh_empty : weigh w (∅ : Finmap fun _ : K => V) = 0 := by
  rw [weigh, Finmap.keys_empty, Finset.sum_empty]

/-- The entry of one key, apart from the others. -/
theorem weigh_eq_add (m : Finmap fun _ : K => V) (k : K) : weigh w m =
    ((m.lookup k).map w).getD 0 + ∑ x ∈ m.keys.erase k, ((m.lookup x).map w).getD 0 := by
  unfold weigh
  by_cases hk : k ∈ m.keys
  · exact (Finset.add_sum_erase m.keys (fun x => ((m.lookup x).map w).getD 0) hk).symm
  · have hnone : m.lookup k = none := Finmap.lookup_eq_none.mpr fun hmem => hk (Finmap.mem_keys.mpr hmem)
    rw [Finset.erase_eq_of_notMem hk, hnone, Option.map_none, Option.getD_none, Nat.zero_add]

/-- **Writing an entry.** -/
theorem weigh_insert (m : Finmap fun _ : K => V) (k : K) (v : V) :
    weigh w (m.insert k v) + ((m.lookup k).map w).getD 0 = weigh w m + w v := by
  have hkeys : (m.insert k v).keys.erase k = m.keys.erase k := by
    ext x
    simp only [Finset.mem_erase, Finmap.mem_keys, Finmap.mem_insert]
    refine and_congr_right fun hx => ?_
    rw [or_iff_right hx]
  have hrest : ∑ x ∈ m.keys.erase k, (((m.insert k v).lookup x).map w).getD 0 =
      ∑ x ∈ m.keys.erase k, ((m.lookup x).map w).getD 0 := by
    refine Finset.sum_congr rfl fun x hx => ?_
    rw [Finmap.lookup_insert_of_ne _ (Finset.ne_of_mem_erase hx)]
  rw [weigh_eq_add (m.insert k v) k, weigh_eq_add m k, hkeys, hrest, Finmap.lookup_insert, Option.map_some,
    Option.getD_some]
  omega

theorem weigh_insert_le (m : Finmap fun _ : K => V) (k : K) (v : V) :
    weigh w (m.insert k v) ≤ weigh w m + w v := by
  rw [← weigh_insert m k v]
  exact Nat.le_add_right _ _

/-! ## Folds -/

section Fold

variable {A B : Type} {f : B → A → B} (size : B → Nat) (cost : A → Nat)

/-- **A fold adds at most what its steps add.** -/
theorem foldl_le_add (h : ∀ b a, size (f b a) ≤ size b + cost a) (b : B) (xs : List A) :
    size (xs.foldl f b) ≤ size b + (xs.map cost).sum := by
  induction xs generalizing b with
  | nil => exact Nat.le_refl _
  | cons x xs ih =>
    have hrest := ih (f b x)
    have hstep := h b x
    rw [List.foldl_cons, List.map_cons, List.sum_cons]
    omega

theorem foldl_le_length (h : ∀ b a, size (f b a) ≤ size b + 1) (b : B) (xs : List A) :
    size (xs.foldl f b) ≤ size b + xs.length := by
  have hadd : size (xs.foldl f b) ≤ size b + (xs.map fun _ => 1).sum :=
    foldl_le_add size (fun _ => 1) h b xs
  rwa [List.map_const', List.sum_replicate_nat, Nat.mul_one] at hadd

end Fold

end Stratavm.Lib
