import Mathlib.Data.List.Dedup
import Mathlib.Data.List.Forall2

/-!
# Enumerations

A list enumerates a predicate if it has one entry for each element that satisfies it, and no other
(`Enumerates`): the entries need not be distinct, the elements are. Each entry is related to its element,
so the list can be a report about the elements and not a list of them.

Enumerations are put together as lists are, by `append`, `flatMap` and `filterMap`: a report that is written
by nested loops enumerates what it is about if no two rounds have an element in common.

* `eq_nil_iff`: an enumeration is empty iff nothing satisfies the predicate.
* **`countP_eq`**: enumerations of two predicates, one the image of the other under an injective map, have
  as many entries of a kind, if the kind can be told from the elements. It compares two reports without
  an order on either.
-/

namespace Stratavm.Lib

variable {α α' β β' γ κ : Type}

/-- One entry of `l` for each element of `P`, related to it by `R`. -/
def Enumerates (P : α → Prop) (R : α → β → Prop) (l : List β) : Prop :=
  ∃ as : List α, as.Nodup ∧ (∀ a, a ∈ as ↔ P a) ∧ List.Forall₂ R as l

namespace Enumerates

variable {P Q : α → Prop} {R : α → β → Prop} {l l' : List β}

theorem congr (h : Enumerates P R l) (hiff : ∀ a, P a ↔ Q a) : Enumerates Q R l := by
  obtain ⟨as, hnodup, hmem, hall⟩ := h
  exact ⟨as, hnodup, fun a => (hmem a).trans (hiff a), hall⟩

theorem nil (h : ∀ a, ¬ P a) : Enumerates P R [] :=
  ⟨[], List.nodup_nil, fun a => iff_of_false List.not_mem_nil (h a), .nil⟩

theorem append (h : Enumerates P R l) (h' : Enumerates Q R l') (hdisjoint : ∀ a, P a → ¬ Q a) :
    Enumerates (fun a => P a ∨ Q a) R (l ++ l') := by
  obtain ⟨as, hnodup, hmem, hall⟩ := h
  obtain ⟨as', hnodup', hmem', hall'⟩ := h'
  refine ⟨as ++ as', List.nodup_append.mpr ⟨hnodup, hnodup', ?_⟩, fun a => ?_, List.rel_append hall hall'⟩
  · rintro a ha b hb rfl
    exact hdisjoint a ((hmem a).mp ha) ((hmem' a).mp hb)
  · rw [List.mem_append, hmem, hmem']

/-- Keys in turn, where no element belongs to two of them. -/
theorem flatMap {P : κ → α → Prop} {ks : List κ} {f : κ → List β}
    (h : ∀ k ∈ ks, Enumerates (P k) R (f k)) (hdisjoint : ks.Pairwise fun k k' => ∀ a, P k a → ¬ P k' a) :
    Enumerates (fun a => ∃ k ∈ ks, P k a) R (ks.flatMap f) := by
  induction ks with
  | nil => exact nil fun a ⟨_, hk, _⟩ => List.not_mem_nil hk
  | cons k ks ih =>
    obtain ⟨hk, hks⟩ := List.forall_mem_cons.mp h
    obtain ⟨hhead, htail⟩ := List.pairwise_cons.mp hdisjoint
    refine ((hk.append (ih hks htail) ?_).congr fun a => ?_)
    · rintro a ha ⟨k', hk', ha'⟩
      exact hhead k' hk' a ha ha'
    · rw [List.exists_mem_cons_iff]

/-- The items that give an entry, each standing for its own element. -/
theorem filterMap (key : γ → α) {g : γ → Option β} {xs : List γ} (hnodup : (xs.map key).Nodup)
    (hR : ∀ x ∈ xs, ∀ b, g x = some b → R (key x) b) :
    Enumerates (fun a => ∃ x ∈ xs, key x = a ∧ (g x).isSome) R (xs.filterMap g) := by
  induction xs with
  | nil => exact nil fun a ⟨_, hx, _⟩ => List.not_mem_nil hx
  | cons x xs ih =>
    obtain ⟨hx, hxs⟩ := List.forall_mem_cons.mp hR
    obtain ⟨hfresh, hnodup⟩ := List.nodup_cons.mp hnodup
    obtain ⟨as, has, hmem, hall⟩ := ih hnodup hxs
    cases hg : g x with
    | none =>
      rw [List.filterMap_cons_none hg]
      refine ⟨as, has, fun a => ?_, hall⟩
      simp [hmem, hg]
    | some b =>
      rw [List.filterMap_cons_some hg]
      refine ⟨key x :: as, List.nodup_cons.mpr ⟨fun hkey => ?_, has⟩, fun a => ?_, .cons (hx b hg) hall⟩
      · obtain ⟨y, hy, hyx, -⟩ := (hmem _).mp hkey
        exact hfresh (hyx ▸ List.mem_map_of_mem hy)
      · rw [List.mem_cons, hmem]
        refine (or_congr ?_ Iff.rfl).trans (List.exists_mem_cons_iff _ _ _).symm
        rw [hg, Option.isSome_some, and_iff_left rfl, eq_comm]

theorem eq_nil_iff (h : Enumerates P R l) : l = [] ↔ ∀ a, ¬ P a := by
  obtain ⟨as, -, hmem, hall⟩ := h
  constructor
  · rintro rfl a ha
    cases hall
    exact List.not_mem_nil ((hmem a).mpr ha)
  · intro hnone
    obtain rfl : as = [] := List.eq_nil_iff_forall_not_mem.mpr fun a ha => hnone a ((hmem a).mp ha)
    cases hall
    rfl

/-- Entries are counted as their elements are. -/
theorem countP_forall₂ {q : β → Bool} {c : α → Bool} (hq : ∀ a b, R a b → q b = c a) {as : List α}
    (h : List.Forall₂ R as l) : l.countP q = as.countP c := by
  induction h with
  | nil => rfl
  | cons hab _ ih => rw [List.countP_cons, List.countP_cons, ih, hq _ _ hab]

/-- **Two enumerations are counted alike** if a one-to-one map takes the elements of one to those of the
other, and the counted ones to the counted ones. -/
theorem countP_eq {P' : α' → Prop} {R' : α' → β' → Prop} {m : List β'} {f : α → α'}
    (h : Enumerates P R l) (h' : Enumerates P' R' m) (hf : Function.Injective f)
    (himage : ∀ a', P' a' ↔ ∃ a, P a ∧ f a = a') {q : β → Bool} {q' : β' → Bool} {c : α' → Bool}
    (hq : ∀ a b, R a b → q b = c (f a)) (hq' : ∀ a b, R' a b → q' b = c a) :
    l.countP q = m.countP q' := by
  obtain ⟨as, hnodup, hmem, hall⟩ := h
  obtain ⟨as', hnodup', hmem', hall'⟩ := h'
  have hperm : (as.map f).Perm as' := by
    refine (List.perm_ext_iff_of_nodup (hnodup.map hf) hnodup').mpr fun a' => ?_
    rw [hmem', himage, List.mem_map]
    exact exists_congr fun a => and_congr_left' (hmem a)
  calc l.countP q = as.countP (c ∘ f) := countP_forall₂ hq hall
    _ = (as.map f).countP c := (List.countP_map ..).symm
    _ = as'.countP c := hperm.countP_eq c
    _ = m.countP q' := (countP_forall₂ hq' hall').symm

end Enumerates

end Stratavm.Lib
