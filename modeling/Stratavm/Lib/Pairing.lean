import Mathlib.Algebra.Ring.Nat
import Mathlib.Data.List.Dedup
import Mathlib.Data.List.Forall2

/-!
# Lists that pair up

`Pairs R xs ys`: the entries of `ys` are, in some order, those of `xs` one by one up to `R`. It relates two
reports that list the same findings, each in an order of its own.

* **`of_keys`**: two lists whose entries have distinct keys pair up when every entry finds a partner of its
  key. There is nothing to show of the order.
* `filter`, `length_eq`, `countP_eq`, `sum_eq`: lists that pair up are selected from, counted and summed
  alike, if partners are.
-/

namespace Stratavm.Lib

variable {α β κ : Type} {R : α → β → Prop} {xs : List α} {ys : List β}

/-- The entries of `ys`, reordered, are those of `xs` up to `R`. -/
def Pairs (R : α → β → Prop) (xs : List α) (ys : List β) : Prop :=
  ∃ l, ys.Perm l ∧ List.Forall₂ R xs l

namespace Pairs

/-- A partner for every entry. -/
theorem choose (h : ∀ x ∈ xs, ∃ y ∈ ys, R x y) : ∃ l, l ⊆ ys ∧ List.Forall₂ R xs l := by
  induction xs with
  | nil => exact ⟨[], List.nil_subset ys, .nil⟩
  | cons x xs ih =>
    obtain ⟨⟨y, hy, hxy⟩, hxs⟩ := List.forall_mem_cons.mp h
    obtain ⟨l, hl, hall⟩ := ih hxs
    exact ⟨y :: l, List.cons_subset.mpr ⟨hy, hl⟩, .cons hxy hall⟩

theorem keys_eq {key : α → κ} {key' : β → κ} (hkey : ∀ x y, R x y → key' y = key x)
    (h : List.Forall₂ R xs ys) : ys.map key' = xs.map key := by
  induction h with
  | nil => rfl
  | cons hxy _ ih => rw [List.map_cons, List.map_cons, ih, hkey _ _ hxy]

/-- **Lists with the same distinct keys pair up** if every entry of one has a partner in the other. -/
theorem of_keys {key : α → κ} {key' : β → κ} (hxs : (xs.map key).Nodup) (hys : (ys.map key').Nodup)
    (hkey : ∀ x y, R x y → key' y = key x) (h : ∀ x ∈ xs, ∃ y ∈ ys, R x y)
    (hback : ∀ y ∈ ys, key' y ∈ xs.map key) : Pairs R xs ys := by
  obtain ⟨l, hl, hall⟩ := choose h
  have hkeys := keys_eq hkey hall
  refine ⟨l, (List.perm_ext_iff_of_nodup (.of_map _ hys) (.of_map key' (hkeys ▸ hxs))).mpr fun y => ?_, hall⟩
  refine ⟨fun hy => ?_, fun hy => hl hy⟩
  obtain ⟨y', hy', heq⟩ := List.mem_map.mp (hkeys ▸ hback y hy)
  exact List.inj_on_of_nodup_map hys (hl hy') hy heq ▸ hy'

/-- Selections that agree on partners pair up. -/
theorem filter {p : α → Bool} {q : β → Bool} (h : Pairs R xs ys) (hpq : ∀ x y, R x y → q y = p x) :
    Pairs (fun x y => R x y ∧ p x = true) (xs.filter p) (ys.filter q) := by
  obtain ⟨l, hperm, hall⟩ := h
  refine ⟨l.filter q, hperm.filter q, ?_⟩
  clear hperm
  induction hall with
  | nil => exact .nil
  | @cons x y xs l hxy _ ih =>
    rw [List.filter_cons, List.filter_cons, hpq x y hxy]
    by_cases hp : p x = true
    · rw [if_pos hp, if_pos hp]
      exact .cons ⟨hxy, hp⟩ ih
    · rw [if_neg hp, if_neg hp]
      exact ih

theorem length_eq (h : Pairs R xs ys) : ys.length = xs.length := by
  obtain ⟨l, hperm, hall⟩ := h
  rw [hperm.length_eq, hall.length_eq]

/-- Entries that pair up are counted alike. -/
theorem countP_eq {p : α → Bool} {q : β → Bool} (h : Pairs R xs ys) (hpq : ∀ x y, R x y → q y = p x) :
    ys.countP q = xs.countP p := by
  rw [List.countP_eq_length_filter, List.countP_eq_length_filter, (h.filter hpq).length_eq]

/-- The sums over entries that pair up are equal. -/
theorem sum_eq {f : α → Nat} {g : β → Nat} (h : Pairs R xs ys) (hfg : ∀ x y, R x y → g y = f x) :
    (ys.map g).sum = (xs.map f).sum := by
  obtain ⟨l, hperm, hall⟩ := h
  rw [(hperm.map g).sum_nat, keys_eq hfg hall]

end Pairs

end Stratavm.Lib
