import Mathlib.Data.Finmap

/-!
# Maps from keys to lists

`Buckets K A` is a map whose values are lists, `add` pushes at the end of the bucket of a key, and
`group` fills the buckets with the items of a list, in order, leaving out those without a key. It is
the multi-map of an index that is built in one pass over a table.

A key that was never added to has the empty bucket (`get`), so an index answers every key.

* **`get_group`**: after the pass a bucket holds what it held before and then the items of its key, in
  the order of the list.
-/

namespace Stratavm.Lib

/-- A map from keys to lists. -/
abbrev Buckets (K A : Type) := Finmap fun _ : K => List A

namespace Buckets

variable {K A B : Type} [DecidableEq K] {m : Buckets K A} {k k' : K}

/-- The bucket of a key, empty if it has none. -/
def get (m : Buckets K A) (k : K) : List A := (m.lookup k).getD []

/-- Push at the end of a bucket. -/
def add (m : Buckets K A) (k : K) (a : A) : Buckets K A := m.insert k (get m k ++ [a])

@[simp] theorem get_empty (k : K) : get (∅ : Buckets K A) k = [] := by
  rw [get, Finmap.lookup_empty, Option.getD_none]

theorem get_add (m : Buckets K A) (k k' : K) (a : A) :
    get (add m k a) k' = get m k' ++ if k' = k then [a] else [] := by
  by_cases h : k' = k
  · rw [h, get, add, Finmap.lookup_insert, Option.getD_some, if_pos rfl]
  · rw [get, add, Finmap.lookup_insert_of_ne _ h, if_neg h, List.append_nil, get]

/-- Push each item that has a key into its bucket. -/
def group (key : B → Option K) (val : B → A) (m : Buckets K A) (xs : List B) : Buckets K A :=
  xs.foldl (fun m x =>
    match key x with
    | none => m
    | some k => add m k (val x)) m

/-- **A bucket holds the items of its key**, in order. -/
theorem get_group (key : B → Option K) (val : B → A) (m : Buckets K A) (xs : List B) (k : K) :
    get (group key val m xs) k = get m k ++ (xs.filter fun x => key x = some k).map val := by
  induction xs generalizing m with
  | nil => simp [group]
  | cons x xs ih =>
    rw [group, List.foldl_cons]
    refine (ih _).trans ?_
    cases hx : key x with
    | none => simp [hx]
    | some k' =>
      rw [get_add]
      by_cases hk : k = k'
      · simp [hx, hk]
      · simp [hx, hk, Ne.symm hk]

end Buckets

end Stratavm.Lib
