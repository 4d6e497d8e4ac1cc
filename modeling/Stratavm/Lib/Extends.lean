/-!
# Tables that only grow

`Extends R xs ys`: every entry of `xs` is still at its index in `ys`, up to `R`. With a reflexive and
transitive `R` it is the order of a table that appends entries and changes those it has along `R`.

`refl` and `trans` make it a preorder, so what each step of a run does adds up to what the run does;
`append` and `modify` are the two steps such a table takes. With equality for `R` it says that `xs` is
an initial segment of `ys`.

Ids that are positions stay valid along it, which is what a table that is referred to by index needs.

Out of scope: how many entries there are. An extension may be of any length.
-/

namespace Stratavm.Lib

variable {α : Type} {R : α → α → Prop} {xs ys zs : List α}

/-- Every entry of `xs` is at its index in `ys`, up to `R`. -/
def Extends (R : α → α → Prop) (xs ys : List α) : Prop :=
  ∀ (i : Nat) (x : α), xs[i]? = some x → ∃ y, ys[i]? = some y ∧ R x y

namespace Extends

theorem refl (hR : ∀ x, R x x) (xs : List α) : Extends R xs xs := fun _ x hx => ⟨x, hx, hR x⟩

theorem trans (hR : ∀ x y z, R x y → R y z → R x z) (h : Extends R xs ys) (h' : Extends R ys zs) :
    Extends R xs zs := by
  intro i x hx
  obtain ⟨y, hy, hxy⟩ := h i x hx
  obtain ⟨z, hz, hyz⟩ := h' i y hy
  exact ⟨z, hz, hR x y z hxy hyz⟩

/-- An entry more. -/
theorem append (hR : ∀ x, R x x) (xs ys : List α) : Extends R xs (xs ++ ys) := fun i x hx =>
  ⟨x, by rw [List.getElem?_append_left (List.getElem?_eq_some_iff.mp hx).1, hx], hR x⟩

/-- An entry changed along `R`. -/
theorem modify (hR : ∀ x, R x x) {i : Nat} {f : α → α} (hf : ∀ x, xs[i]? = some x → R x (f x)) :
    Extends R xs (xs.modify i f) := by
  intro j x hx
  rw [List.getElem?_modify, hx]
  by_cases hij : i = j
  · subst hij
    exact ⟨f x, by simp, hf x hx⟩
  · exact ⟨x, by simp [hij], hR x⟩

end Extends

end Stratavm.Lib
