import Mathlib.Data.List.TakeWhile

/-!
# Maximal munch

A `Lexicon` is a set of lexemes, and of symbols that may stand between them. A lexer takes the longest
lexeme at the front of its input (`Longest`), which there is at most one of (`Longest.unique`), and skips
spaces. Lexemes that are runs of a class of symbols are found by `takeWhile`: a run that has ended
(`Stops`) is taken whole, whatever follows.

`Reaches L Bad` says that such a lexer comes to a lexeme in `Bad`, which it may fail on. It is decided one
lexeme at a time, so it is a property of the text and of the lexicon and of no lexer in particular:

* `reaches_space`: a space is skipped;
* **`reaches_lexeme`**: the longest lexeme is bad, or the text after it reaches a bad one;
* `not_reaches_stuck`: a text with neither at its front reaches nothing.
-/

namespace Stratavm.Lib

/-- Lexemes and the space between them. No lexeme is empty or starts with a space. -/
structure Lexicon (α : Type) where
  space : α → Bool
  Lexeme : List α → Prop
  starts : ∀ {l}, Lexeme l → ∃ c t, l = c :: t ∧ space c = false

variable {α : Type}

/-- A prefix in `p` is no longer than the run of `p` at the front. -/
theorem length_le_takeWhile {p : α → Bool} {t s : List α} (hfront : t <+: s) (ht : ∀ b ∈ t, p b) :
    t.length ≤ (s.takeWhile p).length := by
  obtain ⟨u, rfl⟩ := hfront
  rw [List.takeWhile_append_of_pos ht, List.length_append]
  exact Nat.le_add_right _ _

/-- A run of `p` has ended: what follows is nothing, or starts with a symbol that is not in `p`. -/
def Stops (p : α → Bool) (rest : List α) : Prop := ∀ c, rest.head? = some c → p c = false

theorem stops_dropWhile (p : α → Bool) (s : List α) : Stops p (s.dropWhile p) := by
  intro c hc
  have hhead := List.head?_dropWhile_not p s
  rwa [hc] at hhead

theorem Stops.mono {p q : α → Bool} {rest : List α} (h : Stops p rest)
    (hpq : ∀ c, p c = false → q c = false) : Stops q rest := fun c hc => hpq c (h c hc)

theorem Stops.dropWhile {p : α → Bool} {rest : List α} (h : Stops p rest) :
    rest.dropWhile p = rest := by
  cases rest with
  | nil => rfl
  | cons c rest => exact List.dropWhile_cons_of_neg (by rw [h c rfl]; exact Bool.false_ne_true)

theorem Stops.takeWhile {p : α → Bool} {rest : List α} (h : Stops p rest) :
    rest.takeWhile p = [] := by
  cases rest with
  | nil => rfl
  | cons c rest => exact List.takeWhile_cons_of_neg (by rw [h c rfl]; exact Bool.false_ne_true)

/-- A run that has ended does not go on. -/
theorem Stops.not_forall {p : α → Bool} {l rest : List α} (h : Stops p (l ++ rest)) (hne : l ≠ []) :
    ¬ ∀ c ∈ l, p c := by
  obtain ⟨c, t, rfl⟩ := List.exists_cons_of_ne_nil hne
  intro hall
  exact absurd (hall c List.mem_cons_self) (Bool.eq_false_iff.mp (h c rfl))

/-- A run that has ended is taken whole. -/
theorem takeWhile_run {p : α → Bool} {l rest : List α} (hl : ∀ c ∈ l, p c) (h : Stops p rest) :
    (l ++ rest).takeWhile p = l := by
  rw [List.takeWhile_append_of_pos hl, h.takeWhile, List.append_nil]

theorem dropWhile_run {p : α → Bool} {l rest : List α} (hl : ∀ c ∈ l, p c) (h : Stops p rest) :
    (l ++ rest).dropWhile p = rest := by
  rw [List.dropWhile_append_of_pos hl, h.dropWhile]

/-- What follows a run that has ended there is not part of one before it. -/
theorem Stops.takeWhile_append {p : α → Bool} (s : List α) {rest : List α} (h : Stops p rest) :
    (s ++ rest).takeWhile p = s.takeWhile p := by
  induction s with
  | nil => exact h.takeWhile
  | cons c s ih =>
    by_cases hc : p c
    · rw [List.cons_append, List.takeWhile_cons_of_pos hc, List.takeWhile_cons_of_pos hc, ih]
    · rw [List.cons_append, List.takeWhile_cons_of_neg hc, List.takeWhile_cons_of_neg hc]

theorem Stops.dropWhile_append {p : α → Bool} (s : List α) {rest : List α} (h : Stops p rest) :
    (s ++ rest).dropWhile p = s.dropWhile p ++ rest := by
  induction s with
  | nil => exact h.dropWhile
  | cons c s ih =>
    by_cases hc : p c
    · rw [List.cons_append, List.dropWhile_cons_of_pos hc, List.dropWhile_cons_of_pos hc, ih]
    · rw [List.cons_append, List.dropWhile_cons_of_neg hc, List.dropWhile_cons_of_neg hc,
        List.cons_append]

namespace Lexicon

variable {L : Lexicon α} {Bad : List α → Prop} {l l' rest rest' : List α} {c : α}

/-- `l` is the longest lexeme at the front of `l` and `rest`. -/
structure Longest (L : Lexicon α) (l rest : List α) : Prop where
  lexeme : L.Lexeme l
  longest : ∀ l', L.Lexeme l' → l' <+: l ++ rest → l'.length ≤ l.length

theorem Longest.unique (h : L.Longest l rest) (h' : L.Longest l' rest')
    (heq : l ++ rest = l' ++ rest') : l = l' ∧ rest = rest' := by
  have hle := h.longest l' h'.lexeme (heq ▸ List.prefix_append l' rest')
  have hge := h'.longest l h.lexeme (heq ▸ List.prefix_append l rest)
  exact List.append_inj heq (Nat.le_antisymm hge hle)

/-- A symbol and the run of `p` after it, where no lexeme that starts with the symbol has others. -/
theorem Longest.run {p : α → Bool} {s : List α} (hlexeme : L.Lexeme (c :: s.takeWhile p))
    (hrun : ∀ t, L.Lexeme (c :: t) → t <+: s → ∀ b ∈ t, p b) :
    L.Longest (c :: s.takeWhile p) (s.dropWhile p) where
  lexeme := hlexeme
  longest := by
    intro l' hl' hfront
    rw [List.cons_append, List.takeWhile_append_dropWhile] at hfront
    obtain ⟨d, t, rfl, -⟩ := L.starts hl'
    obtain ⟨rfl, ht⟩ := List.cons_prefix_cons.mp hfront
    rw [List.length_cons, List.length_cons]
    exact Nat.succ_le_succ (length_le_takeWhile ht (hrun t hl' ht))

/-- Among the lexemes that are taken from the text is a bad one. -/
inductive Reaches (L : Lexicon α) (Bad : List α → Prop) : List α → Prop
  | here {l rest : List α} : L.Longest l rest → Bad l → Reaches L Bad (l ++ rest)
  | space {c : α} {rest : List α} : L.space c → Reaches L Bad rest → Reaches L Bad (c :: rest)
  | lexeme {l rest : List α} : L.Longest l rest → Reaches L Bad rest → Reaches L Bad (l ++ rest)

/-- A text that a lexeme is taken from does not start with a space. -/
theorem Longest.not_space (h : L.Longest l rest) (heq : l ++ rest = c :: rest') : L.space c = false := by
  obtain ⟨d, t, rfl, hd⟩ := L.starts h.lexeme
  rwa [← (List.cons.inj heq).1]

theorem reaches_space (hspace : L.space c) : L.Reaches Bad (c :: rest) ↔ L.Reaches Bad rest := by
  refine ⟨fun h => ?_, .space hspace⟩
  generalize htext : c :: rest = text at h
  cases h with
  | space _ h => exact (List.cons.inj htext).2 ▸ h
  | here hl _ | lexeme hl _ => exact absurd hspace (by rw [hl.not_space htext.symm]; decide)

theorem reaches_spaces (s : List α) :
    L.Reaches Bad s ↔ L.Reaches Bad (s.dropWhile L.space) := by
  induction s with
  | nil => rfl
  | cons c s ih =>
    by_cases hspace : L.space c
    · rw [reaches_space hspace, List.dropWhile_cons_of_pos hspace, ih]
    · rw [List.dropWhile_cons_of_neg hspace]

/-- **One lexeme**: it is bad, or the text after it reaches a bad one. -/
theorem reaches_lexeme (h : L.Longest l rest) :
    L.Reaches Bad (l ++ rest) ↔ Bad l ∨ L.Reaches Bad rest := by
  refine ⟨fun hreaches => ?_, Or.rec (.here h) (.lexeme h)⟩
  generalize htext : l ++ rest = text at hreaches
  cases hreaches with
  | here hl hbad => exact .inl ((h.unique hl htext).1 ▸ hbad)
  | space hspace _ => exact absurd hspace (by rw [h.not_space htext]; decide)
  | lexeme hl hrest => exact .inr ((h.unique hl htext).2 ▸ hrest)

/-- A text with neither a space nor a lexeme at its front reaches nothing. -/
theorem not_reaches_stuck (hspace : L.space c = false)
    (hstuck : ∀ l, L.Lexeme l → ¬ l <+: c :: rest) : ¬ L.Reaches Bad (c :: rest) := by
  intro h
  generalize htext : c :: rest = text at h
  cases h with
  | space h _ =>
    obtain ⟨rfl, -⟩ := List.cons.inj htext
    rw [hspace] at h
    cases h
  | here hl _ | lexeme hl _ => exact hstuck _ hl.lexeme (htext ▸ List.prefix_append _ _)

theorem not_reaches_nil : ¬ L.Reaches Bad [] := by
  intro h
  generalize htext : [] = text at h
  cases h with
  | space => cases htext
  | here hl _ | lexeme hl _ =>
    obtain ⟨d, t, rfl, -⟩ := L.starts hl.lexeme
    cases htext

end Lexicon

end Stratavm.Lib
