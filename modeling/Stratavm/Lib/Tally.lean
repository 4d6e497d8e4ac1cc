import Mathlib.Algebra.BigOperators.Fin
import Mathlib.Algebra.Order.BigOperators.Group.Finset

/-!
# Totals over a table

`tally w xs` adds up the weight `w i x` of every entry `x` of a table, at its index `i`. It is what a counter
that is kept by hand should have: whoever changes the table has to move the counter by as much as the
total moves.

* `tally_append_singleton`, `tally_append_eq`: appending an entry adds its weight, and entries of no
  weight add nothing.
* `tally_modify`, `tally_modify_eq`, `tally_modify_le`: changing an entry moves the total by as much as its
  weight moves.
* `tally_toNat`, `tally_const`: numbers of entries, and weights that do not depend on the index.
* **`sum_le_tally`**: the charging argument. Amounts charged to distinct entries, each within the weight
  of its entry, add up to no more than the total.
-/

namespace Stratavm.Lib

variable {α β γ : Type}

/-- The weights of all entries, added up. -/
def tally (w : Nat → α → Nat) (xs : List α) : Nat := (xs.mapIdx w).sum

variable {w : Nat → α → Nat} {xs : List α} {i : Nat} {f : α → α}

@[simp] theorem tally_nil : tally w [] = 0 := rfl

@[simp] theorem tally_append_singleton (xs : List α) (x : α) :
    tally w (xs ++ [x]) = tally w xs + w xs.length x := by
  simp [tally, List.mapIdx_append]

theorem tally_cons (x : α) (xs : List α) :
    tally w (x :: xs) = w 0 x + tally (fun i => w (i + 1)) xs := by
  simp [tally, List.mapIdx_cons]

/-- Weights that do not depend on the index. -/
theorem tally_const (w : α → Nat) (xs : List α) : tally (fun _ => w) xs = (xs.map w).sum := by
  induction xs with
  | nil => rfl
  | cons x xs ih => rw [tally_cons, ih, List.map_cons, List.sum_cons]

/-- A number of entries. -/
theorem tally_toNat (p : α → Bool) (xs : List α) :
    tally (fun _ x => (p x).toNat) xs = xs.countP p := by
  rw [tally_const]
  induction xs with
  | nil => rfl
  | cons x xs ih =>
    rw [List.map_cons, List.sum_cons, ih, List.countP_cons]
    cases p x with
    | true => exact Nat.add_comm _ _
    | false => exact Nat.zero_add _

/-- Entries of no weight. -/
theorem tally_append_eq {xs ys : List α} (h : ∀ y ∈ ys, ∀ i, xs.length ≤ i → w i y = 0) :
    tally w (xs ++ ys) = tally w xs := by
  induction ys using List.reverseRecOn with
  | nil => rw [List.append_nil]
  | append_singleton ys y ih =>
    have hweight := h y (List.mem_append_right _ List.mem_cons_self) (xs ++ ys).length
      (by rw [List.length_append]; exact Nat.le_add_right _ _)
    rw [← List.append_assoc, tally_append_singleton, hweight,
      ih fun y hy => h y (List.mem_append_left _ hy)]
    rfl

/-- Changing an entry. -/
theorem tally_modify {x : α} (hx : xs[i]? = some x) :
    tally w (xs.modify i f) + w i x = tally w xs + w i (f x) := by
  induction xs generalizing i w with
  | nil => cases hx
  | cons y ys ih =>
    cases i with
    | zero =>
      obtain rfl := Option.some.inj hx
      rw [List.modify_zero_cons, tally_cons, tally_cons]
      omega
    | succ i =>
      have hrest := ih (w := fun i => w (i + 1)) hx
      rw [List.modify_succ_cons, tally_cons, tally_cons]
      omega

/-- A change that keeps the weight of the entry. -/
theorem tally_modify_eq (h : ∀ x, xs[i]? = some x → w i (f x) = w i x) :
    tally w (xs.modify i f) = tally w xs := by
  cases hx : xs[i]? with
  | none => rw [List.modify_eq_self (List.getElem?_eq_none_iff.mp hx)]
  | some x =>
    have hmodify := tally_modify (w := w) (f := f) hx
    have heq := h x hx
    omega

/-- A change that adds at most `k` to the weight of the entry. -/
theorem tally_modify_le {k : Nat} (h : ∀ x, xs[i]? = some x → w i (f x) ≤ w i x + k) :
    tally w (xs.modify i f) ≤ tally w xs + k := by
  cases hx : xs[i]? with
  | none =>
    rw [List.modify_eq_self (List.getElem?_eq_none_iff.mp hx)]
    exact Nat.le_add_right _ _
  | some x =>
    have hmodify := tally_modify (w := w) (f := f) hx
    have hle := h x hx
    omega

/-- A total, as a sum over the indices. -/
theorem tally_eq_sum (w : Nat → α → Nat) (xs : List α) :
    tally w xs = ∑ i : Fin xs.length, w i xs[i] := by
  induction xs generalizing w with
  | nil => rfl
  | cons x xs ih =>
    rw [tally_cons, ih]
    exact (Fin.sum_univ_succ fun i : Fin (x :: xs).length => w i (x :: xs)[i]).symm

/-- **Charging**: what is charged to entries of distinct keys adds up to at most the total. -/
theorem sum_le_tally {ys : List β} {amount : β → Nat} {key : β → γ} {entryKey : α → γ}
    (hnodup : (ys.map key).Nodup)
    (h : ∀ y ∈ ys, ∃ i x, xs[i]? = some x ∧ entryKey x = key y ∧ amount y ≤ w i x) :
    (ys.map amount).sum ≤ tally w xs := by
  suffices hcharged : ∃ charged : Finset (Fin xs.length),
      (∀ i ∈ charged, ∃ y ∈ ys, entryKey xs[i] = key y) ∧
        (ys.map amount).sum ≤ ∑ i ∈ charged, w i xs[i] by
    obtain ⟨charged, -, hle⟩ := hcharged
    rw [tally_eq_sum]
    exact Nat.le_trans hle (Finset.sum_le_univ_sum_of_nonneg fun _ => Nat.zero_le _)
  induction ys with
  | nil => exact ⟨∅, fun _ hi => absurd hi (Finset.notMem_empty _), Nat.le_refl _⟩
  | cons y ys ih =>
    rw [List.map_cons, List.nodup_cons] at hnodup
    obtain ⟨charged, hkeys, hle⟩ := ih hnodup.2 fun y' hy' => h y' (List.mem_cons_of_mem _ hy')
    obtain ⟨i, x, hx, hkey, hamount⟩ := h y List.mem_cons_self
    obtain ⟨hlt, rfl⟩ := List.getElem?_eq_some_iff.mp hx
    have hnew : (⟨i, hlt⟩ : Fin xs.length) ∉ charged := by
      intro hmem
      obtain ⟨y', hy', heq⟩ := hkeys _ hmem
      exact hnodup.1 (List.mem_map.mpr ⟨y', hy', heq.symm.trans hkey⟩)
    refine ⟨insert ⟨i, hlt⟩ charged, fun j hj => ?_, ?_⟩
    · rcases Finset.mem_insert.mp hj with rfl | hj
      · exact ⟨y, List.mem_cons_self, hkey⟩
      · obtain ⟨y', hy', heq⟩ := hkeys j hj
        exact ⟨y', List.mem_cons_of_mem _ hy', heq⟩
    · rw [List.map_cons, List.sum_cons, Finset.sum_insert hnew]
      exact Nat.add_le_add hamount hle

end Stratavm.Lib
