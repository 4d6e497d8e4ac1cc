import Mathlib.Data.List.Basic
import Mathlib.Data.List.Forall2

/-!
# Spans of a text

A `Span` is an interval of positions of a text. `Cut` says that a lexer cuts what is unread of a text
into spans, with space between them, and what it makes of each. Then

* the spans are disjoint and in order (`Cut.disjoint`) and lose nothing but space (`Cut.space`);
* what each step says of its span, given an invariant of the text read so far, holds of all of them
  (`Cut.forall₂`).

`Span.maximal_of` is how a span is shown to be the largest of its kind: nothing of the kind that has
more on its left or right is there.
-/

namespace Stratavm.Lib

/-- The positions from `start` up to `stop`. -/
structure Span where
  start : Nat
  stop : Nat
  deriving DecidableEq, Repr

variable {α τ : Type}

namespace Span

/-- What a text has there. -/
def text (s : Span) (src : List α) : List α := (src.take s.stop).drop s.start

def Contains (s : Span) (i : Nat) : Prop := s.start ≤ i ∧ i < s.stop

/-- The text there is in `P`, and that of no larger span is. -/
structure Maximal (P : List α → Prop) (src : List α) (s : Span) : Prop where
  mem : P (s.text src)
  maximal : ∀ s' : Span, s'.start ≤ s.start → s.stop ≤ s'.stop → s'.stop ≤ src.length →
    P (s'.text src) → s' = s

variable {pre l rem : List α} {P : List α → Prop}

/-- The span of `l` after `pre`. -/
def after (pre l : List α) : Span := ⟨pre.length, pre.length + l.length⟩

theorem text_after (pre l rem : List α) : (after pre l).text (pre ++ (l ++ rem)) = l := by
  rw [text, after, ← List.append_assoc, ← List.length_append, List.take_left, List.drop_left]

/-- A span that contains another has more on its left, and more on its right. -/
theorem text_larger {s : Span} (hstart : s.start ≤ pre.length)
    (hstop : pre.length + l.length ≤ s.stop) (hsize : s.stop ≤ (pre ++ (l ++ rem)).length) :
    ∃ x y, s.text (pre ++ (l ++ rem)) = x ++ (l ++ y) ∧ x <:+ pre ∧ y <+: rem ∧
      x.length = pre.length - s.start ∧ y.length = s.stop - (pre.length + l.length) := by
  refine ⟨pre.drop s.start, rem.take (s.stop - (pre.length + l.length)), ?_, List.drop_suffix _ _,
    List.take_prefix _ _, List.length_drop, ?_⟩
  · rw [text, List.take_append, List.take_append,
      List.take_of_length_le (show pre.length ≤ s.stop by omega),
      List.take_of_length_le (show l.length ≤ s.stop - pre.length by omega), Nat.sub_sub,
      List.drop_append_of_le_length hstart]
  · rw [List.length_append, List.length_append] at hsize
    rw [List.length_take]
    omega

theorem maximal_of (hP : P l)
    (hleft : ∀ x y, x ≠ [] → x <:+ pre → y <+: rem → ¬ P (x ++ (l ++ y)))
    (hright : ∀ y, y ≠ [] → y <+: rem → ¬ P (l ++ y)) :
    (after pre l).Maximal P (pre ++ (l ++ rem)) where
  mem := by rwa [text_after]
  maximal := by
    intro s hstart hstop hsize hs
    obtain ⟨x, y, htext, hx, hy, hxlen, hylen⟩ := text_larger hstart hstop hsize
    rw [htext] at hs
    have hxnil : x = [] := by
      by_contra hne
      exact hleft x y hne hx hy hs
    subst hxnil
    have hynil : y = [] := by
      by_contra hne
      exact hright y hne hy hs
    subst hynil
    rw [List.length_nil] at hxlen hylen
    change s.start ≤ pre.length at hstart
    change pre.length + l.length ≤ s.stop at hstop
    obtain ⟨start, stop⟩ := s
    rw [after, Span.mk.injEq]
    exact ⟨by simp only at *; omega, by simp only at *; omega⟩

end Span

/-- The text `src`, of which `pre` is read, is cut into spans with space between them. `R` is what a
step says: where it starts, what it takes, what it leaves and what it makes of it. -/
inductive Cut (space : α → Bool) (R : Nat → List α → List α → τ → Prop) (src : List α) :
    List α → List α → List τ → List Span → Prop
  | done {pre gap : List α} (hsrc : src = pre ++ gap) (hgap : ∀ c ∈ gap, space c) :
      Cut space R src pre gap [] []
  | token {pre gap l rem : List α} {t : τ} {ts : List τ} {spans : List Span}
      (hgap : ∀ c ∈ gap, space c) (hne : l ≠ []) (ht : R (pre ++ gap).length l rem t)
      (hrest : Cut space R src (pre ++ gap ++ l) rem ts spans) :
      Cut space R src pre (gap ++ (l ++ rem)) (t :: ts) (Span.after (pre ++ gap) l :: spans)

namespace Cut

variable {space : α → Bool} {R : Nat → List α → List α → τ → Prop} {src pre text : List α}
  {ts : List τ} {spans : List Span}

theorem src_eq (h : Cut space R src pre text ts spans) : src = pre ++ text := by
  induction h with
  | done hsrc _ => exact hsrc
  | token _ _ _ _ ih => rw [ih, List.append_assoc, List.append_assoc]

/-- The spans are of text that was not read yet. -/
theorem length_le_start (h : Cut space R src pre text ts spans) :
    ∀ s ∈ spans, pre.length ≤ s.start := by
  induction h with
  | done _ _ => exact fun s hs => absurd hs List.not_mem_nil
  | @token pre gap l rem t ts spans _ _ _ _ ih =>
    intro s hs
    have hgap : pre.length ≤ (pre ++ gap).length := by
      rw [List.length_append]
      exact Nat.le_add_right _ _
    rcases List.mem_cons.mp hs with rfl | hs
    · exact hgap
    · refine Nat.le_trans hgap (Nat.le_trans ?_ (ih s hs))
      simp only [List.length_append]
      exact Nat.le_add_right _ _

theorem disjoint (h : Cut space R src pre text ts spans) :
    spans.Pairwise fun s s' => s.stop ≤ s'.start := by
  induction h with
  | done _ _ => exact List.Pairwise.nil
  | token _ _ _ hrest ih =>
    refine List.pairwise_cons.mpr ⟨fun s hs => ?_, ih⟩
    have hle := hrest.length_le_start s hs
    rwa [List.length_append] at hle

theorem nonempty (h : Cut space R src pre text ts spans) :
    ∀ s ∈ spans, s.start < s.stop ∧ s.stop ≤ src.length := by
  induction h with
  | done _ _ => exact fun s hs => absurd hs List.not_mem_nil
  | @token pre gap l rem t ts spans _ hne _ hrest ih =>
    intro s hs
    rcases List.mem_cons.mp hs with rfl | hs
    · have hsize := congrArg List.length hrest.src_eq
      have hpos : 0 < l.length := List.length_pos_iff.mpr hne
      simp only [Span.after, List.length_append] at hsize ⊢
      omega
    · exact ih s hs

/-- **Nothing but space is lost.** -/
theorem space_outside (h : Cut space R src pre text ts spans) {i : Nat} {c : α}
    (hi : src[i]? = some c) (hread : pre.length ≤ i) (hout : ∀ s ∈ spans, ¬ s.Contains i) :
    space c := by
  have hsrc := h.src_eq
  induction h with
  | done _ hgap =>
    rw [hsrc, List.getElem?_append_right hread] at hi
    exact hgap c (List.mem_of_getElem? hi)
  | @token pre gap l rem t ts spans hgap _ _ hrest ih =>
    rcases Nat.lt_or_ge i (pre ++ gap).length with hlt | hge
    · rw [hsrc, ← List.append_assoc, List.getElem?_append_left hlt,
        List.getElem?_append_right hread] at hi
      exact hgap c (List.mem_of_getElem? hi)
    · have hafter : (pre ++ gap).length + l.length ≤ i := by
        by_contra hlt
        exact hout _ List.mem_cons_self ⟨hge, Nat.lt_of_not_le hlt⟩
      refine ih ?_ (fun s hs => hout s (List.mem_cons_of_mem _ hs)) hrest.src_eq
      rwa [List.length_append]

/-- **The rule of invariants**: `I` holds of what is read and what is not, all along, and with it `Q` of
every span and what is made of it. -/
theorem forall₂ {I : List α → List α → Prop} {Q : τ → Span → Prop}
    (hspace : ∀ pre c text, space c → I pre (c :: text) → I (pre ++ [c]) text)
    (hstep : ∀ pre l rem t, src = pre ++ (l ++ rem) → R pre.length l rem t → I pre (l ++ rem) →
      Q t (Span.after pre l) ∧ I (pre ++ l) rem)
    (h : Cut space R src pre text ts spans) (hI : I pre text) : List.Forall₂ Q ts spans := by
  have hgaps : ∀ gap pre text, (∀ c ∈ gap, space c) → I pre (gap ++ text) → I (pre ++ gap) text := by
    intro gap
    induction gap with
    | nil => exact fun pre text _ h => by rwa [List.append_nil]
    | cons c gap ih =>
      intro pre text hgap h
      rw [List.append_cons]
      exact ih _ _ (fun d hd => hgap d (List.mem_cons_of_mem c hd))
        (hspace _ _ _ (hgap c List.mem_cons_self) h)
  induction h with
  | done _ _ => exact List.Forall₂.nil
  | @token pre gap l rem t ts spans hgap _ ht hrest ih =>
    have hsrc := hrest.src_eq
    rw [List.append_assoc] at hsrc
    obtain ⟨hq, hI'⟩ := hstep _ _ _ _ hsrc ht (hgaps _ _ _ hgap hI)
    exact .cons hq (ih hI')

end Cut

end Stratavm.Lib
