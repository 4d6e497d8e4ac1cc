import Stratavm.Query.Tokens
import Stratavm.QueryEval

/-!
# Queries built from texts

A caller that has two query texts can put them together without looking into them: whatever they are, in
parentheses they are parsed as they are alone. A parenthesis continues no word, integer or operator, so
the lexer makes the same tokens of the parts (`tokenizeLoop_append`), and a derivation looks at the kinds
and values of tokens only (`OrExpr.congr`).

* `parse_compose`: `(t) AND (u)`, `(t) OR (u)` and `NOT (t)` are parsed as the nodes over the trees of `t`
  and `u`.
* **`execute_compose`**: they return the nodes that both texts do, one of them does, or `t` does not.
-/

namespace Stratavm

open Lib

namespace QueryLexer

/-! ## Tokens before a boundary -/

/-- What a word, an integer or an operator cannot go on with. -/
structure Boundary (rest : Bytes) : Prop where
  word : Stops isWordChar rest
  integer : Stops isDigit rest
  operator : rest.head? ≠ some '='.toUInt8

variable {c : UInt8} {r rem rest text : Bytes} {t : QueryToken} {pos pos' : Nat}

/-- A string ends with its quote. -/
theorem lexString_append (rest : Bytes) (h : lexString pos r = .ok (t, rem)) :
    lexString pos' (r ++ rest) = .ok ({ t with pos := pos' }, rem ++ rest) := by
  have hsplit := List.takeWhile_append_dropWhile (p := isStringChar) (l := r)
  have hstop := stops_dropWhile isStringChar r
  unfold lexString at h ⊢
  cases hdrop : r.dropWhile isStringChar with
  | nil =>
    rw [hdrop] at h
    cases h
  | cons q after =>
    rw [hdrop] at h hsplit hstop
    cases h
    have hbody : ∀ b ∈ r.takeWhile isStringChar, isStringChar b := fun b hb => List.mem_takeWhile_imp hb
    have hstop' : Stops isStringChar (q :: (rem ++ rest)) := fun b hb => hstop b hb
    have htext : r ++ rest = r.takeWhile isStringChar ++ (q :: (rem ++ rest)) := by
      rw [← List.cons_append, ← List.append_assoc, hsplit]
    rw [htext, dropWhile_run hbody hstop', takeWhile_run hbody hstop']

theorem lexInteger_append {sign : Bytes} (hrest : Boundary rest)
    (h : lexInteger pos sign text = .ok (t, rem)) :
    lexInteger pos' sign (text ++ rest) = .ok ({ t with pos := pos' }, rem ++ rest) := by
  unfold lexInteger at h ⊢
  rw [hrest.integer.takeWhile_append text, hrest.integer.dropWhile_append text]
  cases hv : stoll (sign ++ text.takeWhile isDigit) with
  | none =>
    rw [hv] at h
    cases h
  | some v =>
    rw [hv] at h
    cases h
    rfl

/-- **A token before a boundary** is taken whatever follows. -/
theorem nextToken_append (hrest : Boundary rest) (h : nextToken pos c r = .ok (t, rem)) :
    nextToken pos' c (r ++ rest) = .ok ({ t with pos := pos' }, rem ++ rest) := by
  have hbranch := nextToken_branch pos c r
  rw [h] at hbranch
  generalize hres : Except.ok (t, rem) = res at hbranch
  cases hbranch with
  | string hc =>
    subst hc
    rw [nextToken, if_pos rfl]
    exact lexString_append rest hres.symm
  | double hr hk =>
    cases hres
    subst hr
    exact nextToken_double hk
  | single htwo hk =>
    cases hres
    refine nextToken_single hk ?_
    cases r with
    | cons d r => exact htwo
    | nil =>
      by_contra hne
      obtain ⟨k', hk'⟩ := Option.ne_none_iff_exists'.mp hne
      exact hrest.operator (twoCharOp?_some hk').1
  | minus hc hnext =>
    subst hc
    have hnext' : (r ++ rest).head?.any isDigit := by
      cases r with
      | nil => cases hnext
      | cons d r => exact hnext
    rw [nextToken_minus hnext']
    exact lexInteger_append hrest hres.symm
  | digits hc =>
    rw [nextToken_digit hc, ← List.cons_append]
    exact lexInteger_append hrest hres.symm
  | word hc =>
    cases hres
    rw [nextToken_word hc, ← List.cons_append]
    unfold lexWord
    rw [hrest.word.takeWhile_append, hrest.word.dropWhile_append]
  | stuck => cases hres

/-! ## What a text is lexed to -/

/-- The tokens of a text, up to where they stand, wherever the text stands and whatever the fuel. -/
def LexedTo (text : Bytes) (ts : List QueryToken) : Prop :=
  ∀ size fuel, text.length < fuel → ∃ out, tokenizeLoop size fuel text = .ok out ∧
    out.map QueryToken.content = ts.map QueryToken.content ++ [QueryToken.content {}]

variable {ts : List QueryToken}

theorem LexedTo.nil : LexedTo [] [] := by
  intro size fuel hfuel
  obtain ⟨fuel, rfl⟩ := Nat.exists_eq_add_one.mpr hfuel
  exact ⟨_, rfl, rfl⟩

/-- One round of the loop. -/
theorem LexedTo.token (hc : isSpace c = false) (hrem : rem.length ≤ r.length)
    (hnext : ∀ pos, nextToken pos c r = .ok ({ t with pos }, rem)) (h : LexedTo rem ts) :
    LexedTo (c :: r) (t :: ts) := by
  intro size fuel hfuel
  obtain ⟨fuel, rfl⟩ := Nat.exists_eq_add_one.mpr (Nat.zero_lt_of_lt hfuel)
  rw [List.length_cons] at hfuel
  obtain ⟨out, hout, hcontent⟩ := h size fuel (by omega)
  refine ⟨{ t with pos := size - (c :: r).length } :: out, ?_, ?_⟩
  · rw [tokenizeLoop, List.dropWhile_cons_of_neg (Bool.eq_false_iff.mp hc)]
    dsimp only
    rw [hnext]
    dsimp only
    rw [hout]
    rfl
  · rw [List.map_cons, hcontent]
    rfl

theorem LexedTo.space (hc : isSpace c) (h : LexedTo r ts) : LexedTo (c :: r) ts := by
  intro size fuel hfuel
  obtain ⟨out, hout, hcontent⟩ := h size fuel (Nat.lt_of_succ_lt hfuel)
  obtain ⟨fuel, rfl⟩ := Nat.exists_eq_add_one.mpr (Nat.zero_lt_of_lt hfuel)
  refine ⟨out, ?_, hcontent⟩
  rw [tokenizeLoop, List.dropWhile_cons_of_pos hc]
  exact hout

theorem LexedTo.spaces {gap : Bytes} (hgap : ∀ b ∈ gap, isSpace b) (h : LexedTo r ts) :
    LexedTo (gap ++ r) ts := by
  induction gap with
  | nil => exact h
  | cons c gap ih =>
    exact .space (hgap c List.mem_cons_self) (ih fun b hb => hgap b (List.mem_cons_of_mem c hb))

/-- An operator of one character. -/
theorem LexedTo.single {k : QueryTokenKind} (hc : isSpace c = false) (hk : singleOp? c = some k)
    (htwo : twoCharOp? c r.head? = none) (h : LexedTo r ts) : LexedTo (c :: r) ({ kind := k } :: ts) :=
  .token hc (Nat.le_refl _) (fun _ => nextToken_single hk htwo) h

/-- The lexer makes no sentinel of a lexeme. -/
theorem Spells.ne_sentinel {l : Bytes} (h : Spells l t) : t.kind ≠ .sentinel := by
  cases h with
  | string | integer => exact nofun
  | @double c k _ hk =>
    have hall : ∀ c, (twoCharOp? c (some '='.toUInt8)).all (· ≠ .sentinel) :=
      forall_byte (by decide +kernel)
    have hc := hall c
    rw [hk] at hc
    exact of_decide_eq_true hc
  | @single c k _ hk =>
    have hall : ∀ c, (singleOp? c).all (· ≠ .sentinel) := forall_byte (by decide +kernel)
    have hc := hall c
    rw [hk] at hc
    exact of_decide_eq_true hc
  | word _ =>
    intro hkind
    have hword := isWord_classifyWord l
    rw [show classifyWord l = .sentinel from hkind] at hword
    cases hword

/-- **The tokens of a text before a boundary**, by induction on the rounds of the loop. -/
theorem tokenizeLoop_append (hrest : Boundary rest) (h : LexedTo rest ts) {size : Nat} :
    ∀ {fuel : Nat} {text : Bytes} {tokens : List QueryToken},
      tokenizeLoop size fuel text = .ok tokens → ∃ before last, tokens = before ++ [last] ∧
        last.kind = .sentinel ∧ (∀ t ∈ before, t.kind ≠ .sentinel) ∧
        LexedTo (text ++ rest) (before ++ ts) := by
  intro fuel
  induction fuel with
  | zero =>
    intro text tokens hloop
    cases hloop
  | succ fuel ih =>
    intro text tokens hloop
    have hgap : ∀ b ∈ text.takeWhile isSpace, isSpace b := fun b hb => List.mem_takeWhile_imp hb
    have hsplit := List.takeWhile_append_dropWhile (p := isSpace) (l := text)
    have hstart := List.head?_dropWhile_not isSpace text
    rw [tokenizeLoop] at hloop
    cases hdrop : text.dropWhile isSpace with
    | nil =>
      rw [hdrop] at hloop hsplit
      cases hloop
      refine ⟨[], _, rfl, rfl, fun t ht => absurd ht List.not_mem_nil, ?_⟩
      rw [← hsplit, List.append_nil]
      exact h.spaces hgap
    | cons c r =>
      rw [hdrop] at hloop hsplit hstart
      dsimp only at hloop
      cases hnext : nextToken (size - (c :: r).length) c r with
      | error e =>
        rw [hnext] at hloop
        cases hloop
      | ok res =>
        obtain ⟨t, rem⟩ := res
        rw [hnext] at hloop
        dsimp only at hloop
        cases htail : tokenizeLoop size fuel rem with
        | error e =>
          rw [htail] at hloop
          cases hloop
        | ok out =>
          rw [htail] at hloop
          cases hloop
          obtain ⟨before, last, rfl, hlast, hkinds, hlexed⟩ := ih htail
          obtain ⟨l, htext, hspells, -, -⟩ := nextToken_spells hnext
          obtain ⟨d, u, rfl, -⟩ := queryLexicon.starts hspells.lexeme
          have hshort := congrArg List.length htext
          rw [List.length_append, List.length_cons, List.length_cons] at hshort
          refine ⟨t :: before, last, rfl, hlast, List.forall_mem_cons.mpr ⟨hspells.ne_sentinel, hkinds⟩, ?_⟩
          rw [← hsplit, List.append_assoc, List.cons_append]
          refine LexedTo.spaces hgap (.token hstart ?_ (fun pos => nextToken_append hrest hnext) hlexed)
          rw [List.length_append, List.length_append]
          omega

end QueryLexer

/-! ## Derivations -/

namespace QueryParser

/-- The same kinds and values. -/
def Alike (ts ts' : List QueryToken) : Prop := ts.map QueryToken.content = ts'.map QueryToken.content

theorem Alike.append {ts us ts' : List QueryToken} (h : Alike (ts ++ us) ts') :
    ∃ ts1 us1, ts' = ts1 ++ us1 ∧ Alike ts ts1 ∧ Alike us us1 := by
  unfold Alike at h
  rw [List.map_append] at h
  obtain ⟨ts1, us1, rfl, hts, hus⟩ := List.map_eq_append_iff.mp h.symm
  exact ⟨ts1, us1, rfl, hts.symm, hus.symm⟩

theorem Alike.cons {t : QueryToken} {ts ts' : List QueryToken} (h : Alike (t :: ts) ts') :
    ∃ t1 ts1, ts' = t1 :: ts1 ∧ (t1.kind = t.kind ∧ t1.stringVal = t.stringVal ∧ t1.intVal = t.intVal) ∧
      Alike ts ts1 := by
  obtain ⟨t1, ts1, rfl, ht, hts⟩ := List.map_eq_cons_iff.mp h.symm
  obtain ⟨hkind, hvalues⟩ := Prod.mk.inj ht
  exact ⟨t1, ts1, rfl, ⟨hkind, Prod.mk.inj hvalues⟩, hts.symm⟩

theorem Alike.nil {ts' : List QueryToken} (h : Alike [] ts') : ts' = [] := List.map_eq_nil_iff.mp h.symm

/-- A keyword, a colon and a name. -/
theorem Alike.named {t c i : QueryToken} {us ts' : List QueryToken} (h : Alike (t :: c :: i :: us) ts') :
    ∃ t1 c1 i1 us1, ts' = t1 :: c1 :: i1 :: us1 ∧ t1.kind = t.kind ∧ c1.kind = c.kind ∧ i1.kind = i.kind ∧
      i1.stringVal = i.stringVal ∧ Alike us us1 := by
  obtain ⟨t1, rest1, rfl, ht, h1⟩ := h.cons
  obtain ⟨c1, rest2, rfl, hc, h2⟩ := h1.cons
  obtain ⟨i1, us1, rfl, hi, h3⟩ := h2.cons
  exact ⟨t1, c1, i1, us1, rfl, ht.1, hc.1, hi.1, hi.2.1, h3⟩

mutual

/-- **A derivation looks at kinds and values only.** -/
theorem OrExpr.congr {ts ts' : List QueryToken} {q : Query} :
    OrExpr ts q → Alike ts ts' → OrExpr ts' q
  | .chain h ht, halike => by
    obtain ⟨ts1, us1, rfl, hts, hus⟩ := halike.append
    exact .chain (h.congr hts) (orTail_congr ht hus)

theorem orTail_congr {ts ts' : List QueryToken} {qs : List Query} :
    Tail .or AndExpr ts qs → Alike ts ts' → Tail .or AndExpr ts' qs
  | .nil, halike => by
    rw [halike.nil]
    exact .nil
  | .cons ho h ht, halike => by
    obtain ⟨t1, rest1, rfl, hc, hrest⟩ := halike.cons
    obtain ⟨ts1, us1, rfl, hts, hus⟩ := hrest.append
    exact .cons (hc.1.trans ho) (h.congr hts) (orTail_congr ht hus)

theorem AndExpr.congr {ts ts' : List QueryToken} {q : Query} :
    AndExpr ts q → Alike ts ts' → AndExpr ts' q
  | .chain h ht, halike => by
    obtain ⟨ts1, us1, rfl, hts, hus⟩ := halike.append
    exact .chain (h.congr hts) (andTail_congr ht hus)

theorem andTail_congr {ts ts' : List QueryToken} {qs : List Query} :
    Tail .and NotExpr ts qs → Alike ts ts' → Tail .and NotExpr ts' qs
  | .nil, halike => by
    rw [halike.nil]
    exact .nil
  | .cons ho h ht, halike => by
    obtain ⟨t1, rest1, rfl, hc, hrest⟩ := halike.cons
    obtain ⟨ts1, us1, rfl, hts, hus⟩ := hrest.append
    exact .cons (hc.1.trans ho) (h.congr hts) (andTail_congr ht hus)

theorem NotExpr.congr {ts ts' : List QueryToken} {q : Query} :
    NotExpr ts q → Alike ts ts' → NotExpr ts' q
  | .not ho h, halike => by
    obtain ⟨t1, ts1, rfl, hc, hts⟩ := halike.cons
    exact .not (hc.1.trans ho) (h.congr hts)
  | .atom h, halike => .atom (h.congr halike)

theorem AtomExpr.congr {ts ts' : List QueryToken} {q : Query} :
    AtomExpr ts q → Alike ts ts' → AtomExpr ts' q
  | .kind ht hc hi, halike => by
    obtain ⟨t1, c1, i1, us1, rfl, hkt, hkc, hki, hname, hnil⟩ := halike.named
    rw [hnil.nil, ← hname]
    exact .kind (hkt.trans ht) (hkc.trans hc) (hki.trans hi)
  | .hasChild ht hc hi, halike => by
    obtain ⟨t1, c1, i1, us1, rfl, hkt, hkc, hki, hname, hnil⟩ := halike.named
    rw [hnil.nil, ← hname]
    exact .hasChild (hkt.trans ht) (hkc.trans hc) (hki.trans hi)
  | .hasRef ht hc hi, halike => by
    obtain ⟨t1, c1, i1, us1, rfl, hkt, hkc, hki, hname, hnil⟩ := halike.named
    rw [hnil.nil, ← hname]
    exact .hasRef (hkt.trans ht) (hkc.trans hc) (hki.trans hi)
  | .alive ht, halike => by
    obtain ⟨t1, rest1, rfl, hct, h1⟩ := halike.cons
    rw [h1.nil]
    exact .alive (hct.1.trans ht)
  | .any ht, halike => by
    obtain ⟨t1, rest1, rfl, hct, h1⟩ := halike.cons
    rw [h1.nil]
    exact .any (hct.1.trans ht)
  | .fieldString ht hc hi ho hv, halike => by
    obtain ⟨t1, c1, i1, us1, rfl, hkt, hkc, hki, hname, hrest⟩ := halike.named
    obtain ⟨o1, rest1, rfl, hko, h1⟩ := hrest.cons
    obtain ⟨v1, rest2, rfl, hkv, h2⟩ := h1.cons
    rw [h2.nil, ← hname, ← hkv.2.1]
    exact .fieldString (hkt.trans ht) (hkc.trans hc) (hki.trans hi) (hko.1 ▸ ho) (hkv.1.trans hv)
  | .fieldInteger ht hc hi ho hv, halike => by
    obtain ⟨t1, c1, i1, us1, rfl, hkt, hkc, hki, hname, hrest⟩ := halike.named
    obtain ⟨o1, rest1, rfl, hko, h1⟩ := hrest.cons
    obtain ⟨v1, rest2, rfl, hkv, h2⟩ := h1.cons
    rw [h2.nil, ← hname, ← hkv.2.2]
    exact .fieldInteger (hkt.trans ht) (hkc.trans hc) (hki.trans hi) (hko.1 ▸ ho) (hkv.1.trans hv)
  | .paren hl h hr, halike => by
    obtain ⟨l1, rest1, rfl, hcl, h1⟩ := halike.cons
    obtain ⟨ts1, rest2, rfl, hts, h2⟩ := h1.append
    obtain ⟨r1, rest3, rfl, hcr, h3⟩ := h2.cons
    rw [h3.nil]
    exact .paren (hcl.1.trans hl) (h.congr hts) (hcr.1.trans hr)

end

end QueryParser

/-! ## Composed texts -/

namespace QueryEngine

open QueryLexer (LexedTo Boundary)
open QueryParser (OrExpr AndExpr NotExpr AtomExpr Tail)

/-- A token without values. -/
def punct (k : QueryTokenKind) : QueryToken := { kind := k }

/-- A text in parentheses. -/
def parens (text : Bytes) : Bytes := '('.toUInt8 :: (text ++ [')'.toUInt8])

/-- `(t) AND (u)`. -/
def conjunction (t u : Bytes) : Bytes := parens t ++ (ascii " AND " ++ parens u)

/-- `(t) OR (u)`. -/
def disjunction (t u : Bytes) : Bytes := parens t ++ (ascii " OR " ++ parens u)

/-- `NOT (t)`. -/
def negation (t : Bytes) : Bytes := ascii "NOT " ++ parens t

variable {t u rest : Bytes} {q : Query} {e e' : QueryExpr} {ts : List QueryToken}

/-- What a text that is parsed is lexed to, before any boundary. -/
structure Derives (t : Bytes) (ts : List QueryToken) (q : Query) : Prop where
  derivable : OrExpr ts q
  lexed : ∀ {rest : Bytes} {us : List QueryToken}, Boundary rest → LexedTo rest us →
    LexedTo (t ++ rest) (ts ++ us)

/-- A text that is parsed has a derivation. -/
theorem exists_derives (h : parse t = .ok e) : ∃ ts q, Derives t ts q ∧ e = q.toExpr := by
  unfold parse at h
  cases htokens : QueryLexer.tokenize t with
  | error fault =>
    rw [htokens] at h
    cases h
  | ok tokens =>
    rw [htokens] at h
    dsimp only at h
    have hnil : Boundary [] := ⟨nofun, nofun, nofun⟩
    obtain ⟨before, last, rfl, hlast, hkinds, -⟩ := QueryLexer.tokenizeLoop_append hnil .nil htokens
    have hend : QueryParser.HasEnd (before ++ [last]) := ⟨last, by simp, hlast⟩
    rcases QueryParser.parse_ends hend (Nat.le_refl _) with ⟨q, hq, hok⟩ | ⟨detail, herror⟩
    · rw [QueryParser.beforeEnd_eq hlast hkinds] at hq
      rw [hok] at h
      refine ⟨before, q, ⟨hq, fun hrest hlexed => ?_⟩, (Except.ok.inj h).symm⟩
      obtain ⟨before', last', heq, -, -, hlexed'⟩ := QueryLexer.tokenizeLoop_append hrest hlexed htokens
      rwa [(List.append_inj' heq rfl).1]
    · rw [herror] at h
      cases h

/-- Tokens that are derivable are parsed. -/
theorem parse_of_lexedTo (h : LexedTo t ts) (hq : OrExpr ts q) : parse t = .ok q.toExpr := by
  obtain ⟨out, hout, hcontent⟩ := h t.length (t.length + 1) (Nat.lt_succ_self _)
  obtain ⟨before, tail, rfl, hbefore, htail⟩ := List.map_eq_append_iff.mp hcontent
  obtain ⟨last, rfl, hlast⟩ := List.map_eq_singleton_iff.mp htail
  have hkind : last.kind = .sentinel := congrArg Prod.fst hlast
  have hq' : OrExpr before q := hq.congr hbefore.symm
  have hend : QueryParser.HasEnd (before ++ [last]) := ⟨last, by simp, hkind⟩
  unfold parse
  rw [show QueryLexer.tokenize t = .ok (before ++ [last]) from hout]
  dsimp only
  rw [QueryParser.parse_eq_of_derivable hend (Nat.le_refl _)
    ((QueryParser.beforeEnd_eq hkind hq'.noEnd).symm ▸ hq')]
  rfl

/-! ### In parentheses -/

theorem Derives.lexed_before (h : Derives t ts q) {us : List QueryToken} (hrest : LexedTo rest us) :
    LexedTo (parens t ++ rest) (punct .lparen :: (ts ++ [punct .rparen]) ++ us) := by
  have hclose : LexedTo (')'.toUInt8 :: rest) (punct .rparen :: us) := .single rfl rfl rfl hrest
  have hbound : Boundary (')'.toUInt8 :: rest) := by
    refine ⟨fun b hb => ?_, fun b hb => ?_, fun h => absurd (Option.some.inj h) (by decide)⟩ <;>
    · cases hb
      rfl
  have hopen := LexedTo.single (c := '('.toUInt8) rfl rfl rfl (h.lexed hbound hclose)
  have htext : parens t ++ rest = '('.toUInt8 :: (t ++ ')'.toUInt8 :: rest) := by
    simp [parens]
  rw [htext, List.cons_append, List.append_assoc]
  exact hopen

theorem Derives.atom (h : Derives t ts q) : AtomExpr (punct .lparen :: (ts ++ [punct .rparen])) q :=
  .paren rfl h.derivable rfl

/-! ### The three compositions -/

theorem not_isSpace_of_isAlpha : ∀ c, isAlpha c → isSpace c = false := forall_byte (by decide +kernel)

/-- A keyword before a space. -/
theorem lexedTo_keyword {w : Bytes} {k : QueryTokenKind} (hfirst : w.head?.any isAlpha)
    (hall : w.all QueryLexer.isWordChar) (hk : QueryLexer.classifyWord w = k) (hident : k ≠ .ident)
    (h : LexedTo rest ts) : LexedTo (w ++ ' '.toUInt8 :: rest) (punct k :: ts) := by
  have hspells : QueryLexer.Spells w (punct k) := QueryLexer.spells_keyword hfirst hall hk hident
  obtain ⟨c, hc, halpha⟩ := (Option.any_eq_true ..).mp hfirst
  obtain ⟨r, rfl⟩ := List.head?_eq_some_iff.mp hc
  have hstop : Stops (fun b => !isSpace b) (' '.toUInt8 :: rest) := by
    intro b hb
    cases hb
    rfl
  have hrest : LexedTo (' '.toUInt8 :: rest) ts := .space rfl h
  have hle : (' '.toUInt8 :: rest).length ≤ (r ++ ' '.toUInt8 :: rest).length := by
    rw [List.length_append]
    exact Nat.le_add_left _ _
  exact LexedTo.token (not_isSpace_of_isAlpha c halpha) hle
    (fun _ => QueryLexer.nextToken_of_spells hspells hstop) hrest

/-- A text in parentheses, up to its end. -/
theorem Derives.lexed_parens (h : Derives t ts q) :
    LexedTo (parens t) (punct .lparen :: (ts ++ [punct .rparen])) := by
  have hnil := h.lexed_before LexedTo.nil
  rwa [List.append_nil, List.append_nil] at hnil

/-- Two texts in parentheses, with a keyword between them. -/
theorem Derives.lexed_infix {us : List QueryToken} {r : Query} (h : Derives t ts q) (h' : Derives u us r)
    {w : Bytes} {k : QueryTokenKind} (hfirst : w.head?.any isAlpha)
    (hall : w.all QueryLexer.isWordChar) (hk : QueryLexer.classifyWord w = k) (hident : k ≠ .ident) :
    LexedTo (parens t ++ ' '.toUInt8 :: (w ++ ' '.toUInt8 :: parens u))
      (punct .lparen :: (ts ++ [punct .rparen]) ++ punct k :: (punct .lparen :: (us ++ [punct .rparen]))) :=
  h.lexed_before (.space rfl (lexedTo_keyword hfirst hall hk hident h'.lexed_parens))

section Compose

variable {us : List QueryToken} {r : Query}

theorem Derives.parse_and (h : Derives t ts q) (h' : Derives u us r) :
    parse (conjunction t u) = .ok (Query.and q r).toExpr := by
  have hlexed := h.lexed_infix h' (w := ascii "AND") (k := .and) rfl rfl rfl nofun
  refine parse_of_lexedTo hlexed ?_
  have hand : AndExpr _ (Query.and q r) := .chain (.atom h.atom) (.cons (t := punct .and) rfl (.atom h'.atom) .nil)
  rw [List.append_nil] at hand
  have hor := OrExpr.chain hand .nil
  rwa [List.append_nil] at hor

theorem Derives.parse_or (h : Derives t ts q) (h' : Derives u us r) :
    parse (disjunction t u) = .ok (Query.or q r).toExpr := by
  have hlexed := h.lexed_infix h' (w := ascii "OR") (k := .or) rfl rfl rfl nofun
  refine parse_of_lexedTo hlexed ?_
  have hleft : AndExpr _ q := .chain (.atom h.atom) .nil
  have hright : AndExpr _ r := .chain (.atom h'.atom) .nil
  rw [List.append_nil] at hleft hright
  have hor : OrExpr _ (Query.or q r) := .chain hleft (.cons (t := punct .or) rfl hright .nil)
  rwa [List.append_nil] at hor

theorem Derives.parse_not (h : Derives t ts q) :
    parse (negation t) = .ok (Query.not q).toExpr := by
  have hlexed := lexedTo_keyword (w := ascii "NOT") (k := .not) rfl rfl rfl nofun h.lexed_parens
  refine parse_of_lexedTo hlexed ?_
  have hnot : AndExpr _ (Query.not q) := .chain (.not (t := punct .not) rfl (.atom h.atom)) .nil
  have hor := OrExpr.chain hnot .nil
  rwa [List.append_nil, List.append_nil] at hor

end Compose

/-- **Composed texts are parsed as their parts.** -/
theorem parse_compose (h : parse t = .ok e) (h' : parse u = .ok e') :
    parse (conjunction t u) = .ok { kind := .and, children := [e, e'] } ∧
      parse (disjunction t u) = .ok { kind := .or, children := [e, e'] } ∧
      parse (negation t) = .ok { kind := .not, children := [e] } := by
  obtain ⟨ts, q, hq, rfl⟩ := exists_derives h
  obtain ⟨us, r, hr, rfl⟩ := exists_derives h'
  exact ⟨hq.parse_and hr, hq.parse_or hr, hq.parse_not⟩

/-! ## Composed results -/

section Execute

variable (engine : QueryEngine) (e e' : QueryExpr) (n : Node)

theorem selects_and : engine.selects { kind := .and, children := [e, e'] } n =
    (engine.selects e n && engine.selects e' n) := by
  unfold selects
  cases n.alive <;> simp [evalNode]

theorem selects_or : engine.selects { kind := .or, children := [e, e'] } n =
    (engine.selects e n || engine.selects e' n) := by
  unfold selects
  cases n.alive <;> simp [evalNode]

theorem selects_not : engine.selects { kind := .not, children := [e] } n =
    (n.alive && !engine.selects e n) := by
  unfold selects
  cases n.alive <;> simp [evalNode]

theorem nodes_execute : (engine.execute e).nodes =
    (engine.nodes.filter fun n => engine.selects e n).map Node.id := by
  rw [execute_eq]

theorem matched_execute : (engine.execute e).matched =
    UInt32.ofNat (engine.nodes.countP fun n => engine.selects e n) := by
  rw [execute_eq, List.countP_eq_length_filter]

/-- A node that both return is returned once by the disjunction. -/
theorem countP_and_add_countP_or (p q : Node → Bool) (nodes : List Node) :
    nodes.countP (fun n => p n && q n) + nodes.countP (fun n => p n || q n) =
      nodes.countP p + nodes.countP q := by
  induction nodes with
  | nil => rfl
  | cons n nodes ih =>
    simp only [List.countP_cons]
    cases p n <;> cases q n <;> simp <;> omega

end Execute

/-- **Composed texts return what their parts return**: `(t) AND (u)` the nodes that both do, `(t) OR (u)` the
nodes that one of them does, and `NOT (t)` the other alive nodes, over any graph. -/
theorem execute_compose (t u : Bytes) (e e' : QueryExpr) (h : parse t = .ok e) (h' : parse u = .ok e') :
    ∃ conj disj neg, parse (conjunction t u) = .ok conj ∧ parse (disjunction t u) = .ok disj ∧
      parse (negation t) = .ok neg ∧ ∀ engine : QueryEngine,
        (engine.execute conj).nodes =
          (engine.nodes.filter fun n => engine.selects e n && engine.selects e' n).map Node.id ∧
        (engine.execute disj).nodes =
          (engine.nodes.filter fun n => engine.selects e n || engine.selects e' n).map Node.id ∧
        (engine.execute neg).nodes =
          (engine.nodes.filter fun n => n.alive && !engine.selects e n).map Node.id ∧
        (engine.execute conj).matched + (engine.execute disj).matched =
          (engine.execute e).matched + (engine.execute e').matched := by
  obtain ⟨hand, hor, hnot⟩ := parse_compose h h'
  refine ⟨_, _, _, hand, hor, hnot, fun engine => ⟨?_, ?_, ?_, ?_⟩⟩
  · rw [nodes_execute]
    simp only [selects_and]
  · rw [nodes_execute]
    simp only [selects_or]
  · rw [nodes_execute]
    simp only [selects_not]
  · simp only [matched_execute, selects_and, selects_or]
    rw [← UInt32.ofNat_add, countP_and_add_countP_or, UInt32.ofNat_add]

theorem execute_compose_any : ∃ e e' conj disj neg,
    parse (ascii "any") = .ok e ∧ parse (ascii "kind:a") = .ok e' ∧
      parse (conjunction (ascii "any") (ascii "kind:a")) = .ok conj ∧
      parse (disjunction (ascii "any") (ascii "kind:a")) = .ok disj ∧
      parse (negation (ascii "any")) = .ok neg ∧ ∀ engine : QueryEngine,
        (engine.execute conj).nodes =
          (engine.nodes.filter fun n => engine.selects e n && engine.selects e' n).map Node.id ∧
        (engine.execute disj).nodes =
          (engine.nodes.filter fun n => engine.selects e n || engine.selects e' n).map Node.id ∧
        (engine.execute neg).nodes =
          (engine.nodes.filter fun n => n.alive && !engine.selects e n).map Node.id ∧
        (engine.execute conj).matched + (engine.execute disj).matched =
          (engine.execute e).matched + (engine.execute e').matched := by
  have hok : (parse (ascii "kind:a")).isOk = true := by decide +kernel
  cases hparse : parse (ascii "kind:a") with
  | error e =>
    rw [hparse] at hok
    cases hok
  | ok e' =>
    obtain ⟨conj, disj, neg, hall⟩ := execute_compose (ascii "any") (ascii "kind:a") _ e' rfl hparse
    exact ⟨_, e', conj, disj, neg, rfl, rfl, hall⟩

end QueryEngine

end Stratavm
