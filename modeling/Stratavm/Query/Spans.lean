import Stratavm.Lib.Spans
import Stratavm.Query.Tokens

/-!
# The lexer loses and invents nothing

`spans` is where `pos_` is before each token and after it. The loop cuts its text into these spans
(`tokenizeLoop_cut`), and nothing that is read is the front of a word or an integer that goes on
(`Sealed`), so that their spans are the largest (`maximal_token`).

`Sealed` is the invariant between two tokens: the text read so far and the text still to come do not join
to a lexeme across the cursor. After a word that is because a word takes all word characters there are;
after an integer because it takes all digits, and no word reaches into it
(`sealed_integer`). Operators and spaces end whatever was before them (`sealed_concat`).

* **`tokenize_faithful`**: the spans account for the text, and spellings with single spaces between them
  are taken for the tokens that they spell.

Out of scope: what the tokens mean. `Query/Grammar.lean` has the parser.
-/

namespace Stratavm

open Lib

namespace QueryLexer

/-! ## Spans -/

/-- What the loop of `tokenize` takes: where `pos_` is before each token, and after it. -/
def spansLoop (size : Nat) : Nat → Bytes → List Span
  | 0, _ => []
  | fuel + 1, text =>
    match text.dropWhile isSpace with
    | [] => []
    | c :: rest =>
      match nextToken (size - (c :: rest).length) c rest with
      | .error _ => []
      | .ok (_, rem) =>
        { start := size - (c :: rest).length, stop := size - rem.length } :: spansLoop size fuel rem

/-- The source spans of the tokens that `tokenize` makes of a text. -/
def spans (src : Bytes) : List Span := spansLoop src.length (src.length + 1) src

/-- What is known of a token and its span. -/
structure Taken (start : Nat) (l rem : Bytes) (t : QueryToken) : Prop where
  pos : t.pos = start
  spells : Spells l t
  ends : Ends t.kind rem

/-- The loop cuts the text into the spans it takes. -/
theorem tokenizeLoop_cut {src : Bytes} : ∀ {fuel : Nat} {pre text : Bytes} {tokens : List QueryToken},
    src = pre ++ text → tokenizeLoop src.length fuel text = .ok tokens →
    ∃ before, tokens = before ++ [{ kind := .sentinel, pos := src.length }] ∧
      Cut isSpace Taken src pre text before (spansLoop src.length fuel text) := by
  intro fuel
  induction fuel with
  | zero =>
    intro pre text tokens _ h
    cases h
  | succ fuel ih =>
    intro pre text tokens hsrc h
    have hgap : ∀ b ∈ text.takeWhile isSpace, isSpace b := fun b hb => List.mem_takeWhile_imp hb
    have hsplit := List.takeWhile_append_dropWhile (p := isSpace) (l := text)
    rw [tokenizeLoop] at h
    rw [spansLoop]
    cases hdrop : text.dropWhile isSpace with
    | nil =>
      rw [hdrop] at h hsplit
      cases h
      rw [List.append_nil] at hsplit
      exact ⟨[], rfl, .done hsrc (hsplit ▸ hgap)⟩
    | cons c rest =>
      rw [hdrop] at h hsplit
      dsimp only at h ⊢
      cases hnext : nextToken (src.length - (c :: rest).length) c rest with
      | error e =>
        rw [hnext] at h
        cases h
      | ok res =>
        obtain ⟨t, rem⟩ := res
        rw [hnext] at h
        dsimp only at h ⊢
        obtain ⟨l, htext, hspells, hpos, hends⟩ := nextToken_spells hnext
        generalize text.takeWhile isSpace = gap at hgap hsplit
        have hsrc' : src = pre ++ gap ++ l ++ rem := by
          rw [hsrc, ← hsplit, htext]
          simp only [List.append_assoc]
        have hsize : src.length = (pre ++ gap).length + l.length + rem.length := by
          rw [hsrc', List.length_append, List.length_append]
        have hstart : src.length - (c :: rest).length = (pre ++ gap).length := by
          rw [htext, List.length_append, hsize]
          omega
        have hspan : ({ start := src.length - (c :: rest).length, stop := src.length - rem.length } :
            Span) = Span.after (pre ++ gap) l := by
          rw [hstart, Span.after, Span.mk.injEq]
          exact ⟨rfl, by omega⟩
        have hne : l ≠ [] := by
          obtain ⟨d, u, rfl, -⟩ := queryLexicon.starts hspells.lexeme
          exact List.cons_ne_nil d u
        cases hloop : tokenizeLoop src.length fuel rem with
        | error e =>
          rw [hloop] at h
          cases h
        | ok out =>
          rw [hloop] at h
          cases h
          obtain ⟨before, rfl, hcut⟩ := ih hsrc' hloop
          refine ⟨t :: before, rfl, ?_⟩
          rw [hspan, ← hsplit, htext]
          exact .token hgap hne ⟨hpos.trans hstart, hspells, hends⟩ hcut

/-! ## No larger span -/

/-- The front of an integer. -/
def BeginsInteger (x : Bytes) : Prop :=
  ∃ c t, x = c :: t ∧ (c = '-'.toUInt8 ∨ isDigit c) ∧ ∀ d ∈ t, isDigit d

/-- No word or integer goes on from what is read to what is not. -/
structure Sealed (pre text : Bytes) : Prop where
  word : ∀ x, x <:+ pre → IsWord x → Stops isWordChar text
  integer : ∀ x, x <:+ pre → BeginsInteger x → Stops isDigit text

section Maximal

variable {x y z pre rem text src num : Bytes} {e : UInt8} {pos : Nat}

theorem IsWord.split (h : IsWord (x ++ z)) (hx : x ≠ []) : IsWord x ∧ ∀ b ∈ z, isWordChar b := by
  obtain ⟨c, t, rfl⟩ := List.exists_cons_of_ne_nil hx
  obtain ⟨d, rest, heq, hc, hrest⟩ := h
  obtain ⟨rfl, rfl⟩ := List.cons.inj heq
  exact ⟨⟨c, t, rfl, hc, fun b hb => hrest b (List.mem_append_left z hb)⟩,
    fun b hb => hrest b (List.mem_append_right t hb)⟩

theorem BeginsInteger.of_append (h : IsInteger (x ++ z)) (hx : x ≠ []) :
    BeginsInteger x ∧ ∀ d ∈ z, isDigit d := by
  obtain ⟨c, t, rfl⟩ := List.exists_cons_of_ne_nil hx
  have hall : (c = '-'.toUInt8 ∨ isDigit c) ∧ ∀ d ∈ t ++ z, isDigit d := by
    obtain ⟨digits, -, hdigits, heq | heq⟩ := h
    · subst heq
      exact ⟨.inr (hdigits c List.mem_cons_self), fun d hd => hdigits d (List.mem_cons_of_mem c hd)⟩
    · obtain ⟨rfl, rfl⟩ := List.cons.inj heq
      exact ⟨.inl rfl, hdigits⟩
  exact ⟨⟨c, t, rfl, hall.1, fun d hd => hall.2 d (List.mem_append_left z hd)⟩,
    fun d hd => hall.2 d (List.mem_append_right t hd)⟩

theorem not_isDigit_of_not_isWordChar : ∀ b, isWordChar b = false → isDigit b = false :=
  forall_byte (by decide +kernel)

theorem sealed_nil (text : Bytes) : Sealed [] text where
  word x hx hw := by
    obtain ⟨c, t, rfl, -⟩ := hw
    exact absurd (List.suffix_nil.mp hx) (List.cons_ne_nil c t)
  integer x hx hw := by
    obtain ⟨c, t, rfl, -⟩ := hw
    exact absurd (List.suffix_nil.mp hx) (List.cons_ne_nil c t)

/-- A character of neither words nor integers. -/
theorem sealed_concat (hword : isWordChar e = false) (hminus : e ≠ '-'.toUInt8) (pre text : Bytes) :
    Sealed (pre ++ [e]) text where
  word x hx hw := by
    rcases List.suffix_concat_iff.mp hx with rfl | ⟨t, rfl, -⟩
    · obtain ⟨c, t, heq, -⟩ := hw
      cases heq
    · exact absurd (hw.all e (List.mem_append_right t List.mem_cons_self))
        (Bool.eq_false_iff.mp hword)
  integer x hx hw := by
    have hdigit : ¬ isDigit e := Bool.eq_false_iff.mp (not_isDigit_of_not_isWordChar e hword)
    rcases List.suffix_concat_iff.mp hx with rfl | ⟨t, rfl, -⟩
    · obtain ⟨c, t, heq, -⟩ := hw
      cases heq
    · obtain ⟨c, u, heq, hc, hu⟩ := hw
      have hmem : e ∈ c :: u := heq ▸ List.mem_append_right t List.mem_cons_self
      rcases List.mem_cons.mp hmem with rfl | hmem
      · exact absurd hc (not_or.mpr ⟨hminus, hdigit⟩)
      · exact absurd (hu e hmem) hdigit

theorem not_isWord_of_isInteger (h : IsInteger (y ++ x)) : ¬ IsWord x := by
  rintro ⟨c, rest, rfl, hc, -⟩
  have hmem : c ∈ y ++ c :: rest := List.mem_append_right y List.mem_cons_self
  have hstart := startOf_word hc
  obtain ⟨digits, -, hdigits, heq | heq⟩ := h
  · rw [startOf_digit (hdigits c (heq ▸ hmem))] at hstart
    cases hstart
  · rw [heq] at hmem
    rcases List.mem_cons.mp hmem with rfl | hmem
    · cases hstart
    · rw [startOf_digit (hdigits c hmem)] at hstart
      cases hstart

/-- A word may follow an integer, but none goes on from it. -/
theorem sealed_integer (h : Sealed pre (num ++ rem)) (hnum : IsInteger num)
    (hrem : Stops isDigit rem) : Sealed (pre ++ num) rem where
  word x hx hw := by
    exfalso
    obtain ⟨u, hu⟩ := hx
    rcases List.append_eq_append_iff.mp hu with ⟨y, rfl, rfl⟩ | ⟨y, -, rfl⟩
    · by_cases hy : y = []
      · subst hy
        exact not_isWord_of_isInteger (y := []) hnum hw
      · obtain ⟨hword, hall⟩ := hw.split hy
        obtain ⟨c, t, rfl, -⟩ := hnum.start
        exact (h.word y (List.suffix_append u y) hword).not_forall (List.cons_ne_nil c t) hall
    · exact not_isWord_of_isInteger hnum hw
  integer _ _ _ := hrem

theorem Spells.isWord {l : Bytes} {t : QueryToken} (h : Spells l t) (hk : t.kind.isWord) :
    IsWord l := by
  cases h with
  | string _ | integer _ _ => cases hk
  | double hop => exact absurd hk (Bool.eq_false_iff.mp (kind_of_twoCharOp? hop).1)
  | single hop => exact absurd hk (Bool.eq_false_iff.mp (kind_of_singleOp? hop).1)
  | word hw => exact hw

theorem Spells.isInteger {l : Bytes} {t : QueryToken} (h : Spells l t) (hk : t.kind = .integer) :
    IsInteger l := by
  cases h with
  | string _ => cases hk
  | integer hnum _ => exact hnum
  | double hop => exact absurd hk (kind_of_twoCharOp? hop).2
  | single hop => exact absurd hk (kind_of_singleOp? hop).2
  | word _ =>
    have hword := isWord_classifyWord l
    rw [show classifyWord l = .integer from hk] at hword
    cases hword

/-- A round keeps what is read sealed. -/
theorem Sealed.token {l : Bytes} {t : QueryToken} (h : Sealed pre (l ++ rem)) (hl : Spells l t)
    (hends : Ends t.kind rem) : Sealed (pre ++ l) rem := by
  cases hl with
  | string _ =>
    rw [← List.cons_append, ← List.append_assoc]
    exact sealed_concat (by decide) (by decide) _ _
  | double _ =>
    rw [List.append_cons]
    exact sealed_concat (by decide) (by decide) _ _
  | single hk =>
    exact sealed_concat (not_isWordChar_of_singleOp? (hk ▸ rfl)) (by rintro rfl; cases hk) _ _
  | integer hnum _ => exact sealed_integer h hnum (hends.integer rfl)
  | word _ =>
    have hstop := hends.word (isWord_classifyWord _)
    exact ⟨fun _ _ _ => hstop, fun _ _ _ => hstop.mono not_isDigit_of_not_isWordChar⟩

theorem Sealed.space {c : UInt8} (hc : isSpace c) : Sealed (pre ++ [c]) text :=
  sealed_concat (not_isWordChar_of_space c hc) (by rintro rfl; cases hc) _ _

/-- **The span of a word or an integer is the largest.** -/
theorem maximal_token {l : Bytes} {t : QueryToken} (h : Sealed pre (l ++ rem)) (hl : Spells l t)
    (hends : Ends t.kind rem) :
    (t.kind.isWord → (Span.after pre l).Maximal IsWord (pre ++ (l ++ rem))) ∧
      (t.kind = .integer → (Span.after pre l).Maximal IsInteger (pre ++ (l ++ rem))) := by
  have hne : l ≠ [] := by
    obtain ⟨d, u, rfl, -⟩ := queryLexicon.starts hl.lexeme
    exact List.cons_ne_nil d u
  refine ⟨fun hk => Span.maximal_of (hl.isWord hk) ?_ ?_,
    fun hk => Span.maximal_of (hl.isInteger hk) ?_ ?_⟩
  · intro x y hx hsuffix _ hw
    obtain ⟨hword, hall⟩ := hw.split hx
    exact (h.word x hsuffix hword).not_forall hne fun b hb => hall b (List.mem_append_left y hb)
  · rintro y hy ⟨z, rfl⟩ hw
    exact (hends.word hk).not_forall hy (hw.split hne).2
  · intro x y hx hsuffix _ hw
    obtain ⟨hbegins, hall⟩ := BeginsInteger.of_append hw hx
    exact (h.integer x hsuffix hbegins).not_forall hne fun b hb => hall b (List.mem_append_left y hb)
  · rintro y hy ⟨z, rfl⟩ hw
    exact (hends.integer hk).not_forall hy (BeginsInteger.of_append hw hne).2

end Maximal

/-! ## Nothing lost, nothing invented -/

/-- The spans account for the text: they are where the tokens before END come from, and all but space
is in them. -/
structure Accounts (src : Bytes) (before : List QueryToken) (spans : List Span) : Prop where
  starts : List.Forall₂ (fun t s => t.pos = s.start) before spans
  nonempty : ∀ s ∈ spans, s.start < s.stop ∧ s.stop ≤ src.length
  disjoint : spans.Pairwise fun s s' => s.stop ≤ s'.start
  outside : ∀ i c, src[i]? = some c → (∀ s ∈ spans, ¬ s.Contains i) → isSpace c
  words : List.Forall₂ (fun t s => t.kind.isWord → s.Maximal IsWord src) before spans
  integers : List.Forall₂ (fun t s => t.kind = .integer → s.Maximal IsInteger src) before spans
  again : ∃ out, tokenize (joined (spans.map (·.text src))) = .ok out ∧
    out.map QueryToken.content = before.map QueryToken.content ++ [QueryToken.content {}]

/-- What a step of the loop says of its token, given that what is read is sealed. -/
theorem forall₂_of_cut {src : Bytes} {before : List QueryToken} {spans : List Span}
    (h : Cut isSpace Taken src [] src before spans) :
    List.Forall₂ (fun t s => t.pos = s.start ∧ Spells (s.text src) t ∧
      (t.kind.isWord → s.Maximal IsWord src) ∧ (t.kind = .integer → s.Maximal IsInteger src))
      before spans := by
  refine h.forall₂ (I := Sealed) (fun pre c text hc _ => Sealed.space hc) ?_ (sealed_nil src)
  rintro pre l rem t rfl ht hsealed
  have hmax := maximal_token hsealed ht.spells ht.ends
  refine ⟨⟨ht.pos, ?_, hmax⟩, hsealed.token ht.spells ht.ends⟩
  rw [Span.text_after]
  exact ht.spells

theorem accounts_of_tokenize {src : Bytes} {tokens : List QueryToken}
    (h : tokenize src = .ok tokens) :
    ∃ before, tokens = before ++ [{ kind := .sentinel, pos := src.length }] ∧
      Accounts src before (spans src) := by
  obtain ⟨before, rfl, hcut⟩ := tokenizeLoop_cut (List.nil_append src).symm h
  have hall := forall₂_of_cut hcut
  refine ⟨before, rfl, hall.imp fun _ _ h => h.1, hcut.nonempty, hcut.disjoint,
    fun i c hi hout => hcut.space_outside hi (Nat.zero_le i) hout, hall.imp fun _ _ h => h.2.2.1,
    hall.imp fun _ _ h => h.2.2.2, tokenize_joined ?_⟩
  rw [List.forall₂_map_left_iff]
  exact hall.flip.imp fun _ _ h => h.2.1

/-- **The lexer loses and invents nothing**: the spans of its tokens account for the text, and texts of
spellings are taken for the tokens that they spell. -/
theorem tokenize_faithful :
    (∀ src tokens, tokenize src = .ok tokens →
      ∃ before, tokens = before ++ [{ kind := .sentinel, pos := src.length }] ∧
        Accounts src before (spans src)) ∧
      ∀ tokens : List QueryToken, (∀ t ∈ tokens, WellFormed t) →
        ∃ out, tokenize (joined (tokens.map spelling)) = .ok out ∧
          out.map QueryToken.content = tokens.map QueryToken.content ++ [QueryToken.content {}] := by
  refine ⟨fun src tokens => accounts_of_tokenize, fun tokens h => tokenize_joined ?_⟩
  rw [List.forall₂_map_left_iff, List.forall₂_same]
  exact fun t ht => spells_spelling (h t ht)

example : spans (ascii "x <=-12ab") = [⟨0, 1⟩, ⟨2, 4⟩, ⟨4, 7⟩, ⟨7, 9⟩] := by decide

end QueryLexer

end Stratavm
