import Stratavm.QueryParser

/-!
# The parser accepts exactly its grammar

`OrExpr`, `AndExpr`, `NotExpr` and `AtomExpr` are the rules of the grammar, with the query each
derivation stands for: `ts` is derivable as `q`. A chain is a fold from the left.

* `parse_sound`: what the parser returns is derivable from the tokens it consumed, and it rejects
  with `BadValue` or returns as soon as the fuel exceeds a bound in the number of tokens.
* `parse_complete`: what is derivable is returned, if no token continues the chain it ends.
* **`parse_accepts_grammar`**: the two together, for a whole token list.
-/

namespace Stratavm

open Lib
open Lib.TokenParser (Ends)

namespace QueryParser

/-! ## The grammar -/

/-- `(op operand)*`, with the operands' queries. -/
inductive Tail (op : QueryTokenKind) (Operand : List QueryToken → Query → Prop) :
    List QueryToken → List Query → Prop
  | nil : Tail op Operand [] []
  | cons {t : QueryToken} {ts us : List QueryToken} {q : Query} {qs : List Query} :
      t.kind = op → Operand ts q → Tail op Operand us qs →
      Tail op Operand (t :: (ts ++ us)) (q :: qs)

mutual

/-- `or_expr := and_expr ('OR' and_expr)*`; also `expr`. -/
inductive OrExpr : List QueryToken → Query → Prop
  | chain {ts us : List QueryToken} {q : Query} {qs : List Query} :
      AndExpr ts q → Tail .or AndExpr us qs → OrExpr (ts ++ us) (qs.foldl .or q)

/-- `and_expr := not_expr ('AND' not_expr)*`. -/
inductive AndExpr : List QueryToken → Query → Prop
  | chain {ts us : List QueryToken} {q : Query} {qs : List Query} :
      NotExpr ts q → Tail .and NotExpr us qs → AndExpr (ts ++ us) (qs.foldl .and q)

/-- `not_expr := 'NOT' not_expr | atom_expr`. -/
inductive NotExpr : List QueryToken → Query → Prop
  | not {t : QueryToken} {ts : List QueryToken} {q : Query} :
      t.kind = .not → NotExpr ts q → NotExpr (t :: ts) (.not q)
  | atom {ts : List QueryToken} {q : Query} : AtomExpr ts q → NotExpr ts q

/-- `atom_expr`, with `cmp_op` and `value`. -/
inductive AtomExpr : List QueryToken → Query → Prop
  | kind {t c i : QueryToken} : t.kind = .kind → c.kind = .colon → i.kind = .ident →
      AtomExpr [t, c, i] (.kindMatch i.stringVal)
  | fieldString {t c i o v : QueryToken} {op : CmpOp} : t.kind = .field → c.kind = .colon →
      i.kind = .ident → cmpOp? o.kind = some op → v.kind = .string →
      AtomExpr [t, c, i, o, v] (.fieldCmp i.stringVal op (.string v.stringVal))
  | fieldInteger {t c i o v : QueryToken} {op : CmpOp} : t.kind = .field → c.kind = .colon →
      i.kind = .ident → cmpOp? o.kind = some op → v.kind = .integer →
      AtomExpr [t, c, i, o, v] (.fieldCmp i.stringVal op (.integer v.intVal))
  | hasChild {t c i : QueryToken} : t.kind = .hasChild → c.kind = .colon → i.kind = .ident →
      AtomExpr [t, c, i] (.hasChild i.stringVal)
  | hasRef {t c i : QueryToken} : t.kind = .hasRef → c.kind = .colon → i.kind = .ident →
      AtomExpr [t, c, i] (.hasRef i.stringVal)
  | alive {t : QueryToken} : t.kind = .alive → AtomExpr [t] .anyAlive
  | any {t : QueryToken} : t.kind = .any → AtomExpr [t] .anyAlive
  | paren {l r : QueryToken} {ts : List QueryToken} {q : Query} : l.kind = .lparen →
      OrExpr ts q → r.kind = .rparen → AtomExpr (l :: (ts ++ [r])) q

end

/-! ## What the parser returns is derivable -/

/-- The sentinel is still to come. -/
def HasEnd (rem : List QueryToken) : Prop := ∃ t ∈ rem, t.kind = .sentinel

/-- The only fault of a parser that has enough fuel and a sentinel to stop at. -/
def Rejects (e : TokenFault Status) : Prop := ∃ detail, e = .reject ⟨.badValue, detail⟩

/-- A parser that consumes tokens derivable by `G` and returns the tree, or rejects. -/
def Parses (G : List QueryToken → Query → Prop) (p : QueryParser QueryExpr)
    (rem : List QueryToken) : Prop :=
  Ends p rem (fun e rem' => ∃ ts q, rem = ts ++ rem' ∧ HasEnd rem' ∧ G ts q ∧ e = q.toExpr) Rejects

variable {rem : List QueryToken}

theorem HasEnd.ne_nil (h : HasEnd rem) : ∃ t rest, rem = t :: rest := by
  obtain ⟨t, ht, -⟩ := h
  exact List.exists_cons_of_ne_nil (List.ne_nil_of_mem ht)

/-- A token that is not the sentinel has a successor. -/
theorem HasEnd.next {t : QueryToken} (h : HasEnd (t :: rem)) (ht : t.kind ≠ .sentinel) :
    HasEnd rem := by
  obtain ⟨u, hu, hk⟩ := h
  rcases List.mem_cons.mp hu with rfl | hu
  · exact absurd hk ht
  · exact ⟨u, hu, hk⟩

theorem Ends.badValue {α : Type} {detail : String} {Q : α → List QueryToken → Prop} :
    Ends (badValue detail) rem Q Rejects := TokenParser.Ends.fail ⟨detail, rfl⟩

/-- Passing a token that is not the sentinel. -/
theorem Ends.pass {t : QueryToken} {Q : QueryToken → List QueryToken → Prop}
    (h : HasEnd (t :: rem)) (ht : t.kind ≠ .sentinel) (hQ : HasEnd rem → Q t rem) :
    Ends TokenParser.consume (t :: rem) Q Rejects := by
  have hend := h.next ht
  obtain ⟨u, rest, rfl⟩ := hend.ne_nil
  exact TokenParser.Ends.consume (hQ hend)

/-- `expect` passes a token of the kind it is given, or rejects. -/
theorem Ends.expect {k : QueryTokenKind} {Q : Unit → List QueryToken → Prop} (hk : k ≠ .sentinel)
    (h : HasEnd rem) (hQ : ∀ t rem', rem = t :: rem' → t.kind = k → HasEnd rem' → Q () rem') :
    Ends (expect k) rem Q Rejects := by
  obtain ⟨t, rest, rfl⟩ := h.ne_nil
  refine TokenParser.Ends.bind (TokenParser.Ends.peek ?_)
  by_cases ht : t.kind = k
  · rw [if_neg (not_not_intro ht)]
    refine TokenParser.Ends.bind (Ends.pass h (ht ▸ hk) fun hend => ?_)
    exact TokenParser.Ends.pure (hQ t rest rfl ht hend)
  · rw [if_pos ht]
    exact Ends.badValue

/-- `parseName` passes a colon and an identifier, or rejects. -/
theorem Ends.parseName {what : String} {Q : Bytes → List QueryToken → Prop} (h : HasEnd rem)
    (hQ : ∀ c i rem', rem = c :: i :: rem' → c.kind = .colon → i.kind = .ident → HasEnd rem' →
      Q i.stringVal rem') :
    Ends (parseName what) rem Q Rejects := by
  refine TokenParser.Ends.bind (Ends.expect (by decide) h ?_)
  rintro c rem' rfl hc h'
  obtain ⟨i, rest, rfl⟩ := h'.ne_nil
  refine TokenParser.Ends.bind (TokenParser.Ends.peek ?_)
  by_cases hi : i.kind = .ident
  · rw [if_neg (not_not_intro hi)]
    refine TokenParser.Ends.bind (Ends.pass h' (hi ▸ by decide) fun hend => ?_)
    exact TokenParser.Ends.pure (hQ c i rest rfl hc hi hend)
  · rw [if_pos hi]
    exact Ends.badValue

theorem cmpOp?_some {k : QueryTokenKind} {op : CmpOp} (h : cmpOp? k = some op) :
    k ≠ .sentinel := by
  rintro rfl
  cases h

/-- The loop of a chain consumes a tail of the chain. -/
theorem chainLoop_sound (mk : Query → Query → Query) {op : QueryTokenKind} {node : QueryNodeKind}
    {G : List QueryToken → Query → Prop} {operand : QueryParser QueryExpr} {n : Nat}
    (hop : op ≠ .sentinel)
    (hmk : ∀ l r, (mk l r).toExpr = { kind := node, children := [l.toExpr, r.toExpr] })
    (hoperand : ∀ rem, HasEnd rem → rem.length ≤ n → Parses G operand rem) :
    ∀ {fuel : Nat} {q : Query} {rem : List QueryToken}, HasEnd rem → rem.length ≤ n →
      rem.length < fuel → Ends (chainLoop op node operand fuel q.toExpr) rem
        (fun e rem' => ∃ us qs, rem = us ++ rem' ∧ HasEnd rem' ∧ Tail op G us qs ∧
          e = (qs.foldl mk q).toExpr) Rejects := by
  intro fuel
  induction fuel with
  | zero => exact fun _ _ h => absurd h (Nat.not_lt_zero _)
  | succ fuel ih =>
    intro q rem hend hn hfuel
    obtain ⟨t, rest, rfl⟩ := hend.ne_nil
    rw [chainLoop]
    refine TokenParser.Ends.bind (TokenParser.Ends.peek ?_)
    by_cases ht : t.kind = op
    · rw [if_pos ht]
      rw [List.length_cons] at hn hfuel
      refine TokenParser.Ends.bind (Ends.pass hend (ht ▸ hop) fun hrest => ?_)
      refine TokenParser.Ends.bind ((hoperand rest hrest (by omega)).mono ?_ fun _ h => h)
      rintro e rem' ⟨ts, r, rfl, hend', hG, rfl⟩
      rw [List.length_append] at hn hfuel
      rw [← hmk]
      refine (ih hend' (by omega) (by omega)).mono ?_ fun _ h => h
      rintro e rem'' ⟨us, qs, rfl, hend'', htail, rfl⟩
      exact ⟨t :: (ts ++ us), r :: qs, by simp, hend'', .cons ht hG htail, rfl⟩
    · rw [if_neg ht]
      exact TokenParser.Ends.pure ⟨[], [], rfl, hend, .nil, rfl⟩

/-- `cmp_op value` completes the node of a comparison, or rejects. -/
theorem fieldCmp_sound {t : QueryToken} (ht : t.kind = .field) (hend : HasEnd rem) :
    Ends parseFieldCmp rem (fun e rem' => ∃ ts q, t :: rem = ts ++ rem' ∧ HasEnd rem' ∧
      AtomExpr ts q ∧ e = q.toExpr) Rejects := by
  refine TokenParser.Ends.bind (Ends.parseName hend ?_)
  rintro c i rem' rfl hc hi hend'
  obtain ⟨o, rest, rfl⟩ := hend'.ne_nil
  refine TokenParser.Ends.bind (TokenParser.Ends.bind (TokenParser.Ends.peek ?_))
  cases hop : cmpOp? o.kind with
  | none => exact Ends.badValue
  | some op =>
    refine TokenParser.Ends.bind (Ends.pass hend' (cmpOp?_some hop) fun hrest => TokenParser.Ends.pure ?_)
    obtain ⟨v, rest, rfl⟩ := hrest.ne_nil
    refine TokenParser.Ends.bind (TokenParser.Ends.peek ?_)
    by_cases hs : v.kind = .string
    · rw [if_pos hs]
      refine TokenParser.Ends.bind (Ends.pass hrest (hs ▸ by decide) fun hlast => ?_)
      exact TokenParser.Ends.pure
        ⟨[t, c, i, o, v], _, rfl, hlast, .fieldString ht hc hi hop hs, rfl⟩
    rw [if_neg hs]
    by_cases hv : v.kind = .integer
    · rw [if_pos hv]
      refine TokenParser.Ends.bind (Ends.pass hrest (hv ▸ by decide) fun hlast => ?_)
      exact TokenParser.Ends.pure
        ⟨[t, c, i, o, v], _, rfl, hlast, .fieldInteger ht hc hi hop hv, rfl⟩
    · rw [if_neg hv]
      exact Ends.badValue

/-- An operand and the loop after it make a chain. -/
theorem chain_sound (mk : Query → Query → Query) {op : QueryTokenKind} {node : QueryNodeKind}
    {G H : List QueryToken → Query → Prop} {operand : QueryParser QueryExpr} {fuel : Nat}
    (hop : op ≠ .sentinel)
    (hmk : ∀ l r, (mk l r).toExpr = { kind := node, children := [l.toExpr, r.toExpr] })
    (hend : HasEnd rem) (hfuel : rem.length < fuel)
    (hoperand : ∀ rem', HasEnd rem' → rem'.length ≤ rem.length → Parses G operand rem')
    (hchain : ∀ {ts us q qs}, G ts q → Tail op G us qs → H (ts ++ us) (qs.foldl mk q)) :
    Parses H (operand >>= chainLoop op node operand fuel) rem := by
  refine TokenParser.Ends.bind ((hoperand rem hend (Nat.le_refl _)).mono ?_ fun _ h => h)
  rintro e rem' ⟨ts, q, rfl, hend', hq, rfl⟩
  rw [List.length_append] at hfuel hoperand
  refine (chainLoop_sound mk (n := rem'.length) hop hmk
    (fun r hr hle => hoperand r hr (by omega)) hend' (Nat.le_refl _) (by omega)).mono ?_ fun _ h => h
  rintro e rem'' ⟨us, qs, rfl, hend'', htail, rfl⟩
  exact ⟨ts ++ us, _, (List.append_assoc ..).symm, hend'', hchain hq htail, rfl⟩

/-- A keyword and a name make an atom. -/
theorem namedAtom_sound {what : String} {t : QueryToken} {rest : List QueryToken}
    {mk : Bytes → QueryExpr} {node : Bytes → Query} (hmk : ∀ name, mk name = (node name).toExpr)
    (hend : HasEnd (t :: rest)) (ht : t.kind ≠ .sentinel)
    (hatom : ∀ {c i : QueryToken}, c.kind = .colon → i.kind = .ident →
      AtomExpr [t, c, i] (node i.stringVal)) :
    Parses AtomExpr (do
      let _ ← TokenParser.consume
      let name ← parseName what
      pure (mk name)) (t :: rest) := by
  refine TokenParser.Ends.bind (Ends.pass hend ht fun hrest => ?_)
  refine TokenParser.Ends.bind (Ends.parseName hrest ?_)
  rintro c i rem' rfl hc hi hend'
  exact TokenParser.Ends.pure ⟨[t, c, i], _, rfl, hend', hatom hc hi, hmk _⟩

/-- An atom, given what `parse_or_expr` does between parentheses. -/
theorem atomExpr_sound {fuel : Nat} (hend : HasEnd rem)
    (hor : ∀ rem', rem'.length < rem.length → HasEnd rem' →
      Parses OrExpr (parseOrExpr fuel) rem') :
    Parses AtomExpr (parseAtomExpr (fuel + 1)) rem := by
  obtain ⟨t, rest, rfl⟩ := hend.ne_nil
  rw [parseAtomExpr]
  refine TokenParser.Ends.bind (TokenParser.Ends.peek ?_)
  cases ht : t.kind with
  | lparen =>
    refine TokenParser.Ends.bind (Ends.pass hend (ht ▸ by decide) fun hrest => ?_)
    refine TokenParser.Ends.bind ((hor rest (Nat.lt_succ_self _) hrest).mono ?_ fun _ h => h)
    rintro e rem' ⟨ts, q, rfl, hend', hexpr, rfl⟩
    refine TokenParser.Ends.bind (Ends.expect (by decide) hend' ?_)
    rintro r rem'' rfl hr hend''
    exact TokenParser.Ends.pure
      ⟨t :: (ts ++ [r]), q, by simp, hend'', .paren ht hexpr hr, rfl⟩
  | alive =>
    refine TokenParser.Ends.bind (Ends.pass hend (ht ▸ by decide) fun hrest => ?_)
    exact TokenParser.Ends.pure ⟨[t], _, rfl, hrest, .alive ht, rfl⟩
  | any =>
    refine TokenParser.Ends.bind (Ends.pass hend (ht ▸ by decide) fun hrest => ?_)
    exact TokenParser.Ends.pure ⟨[t], _, rfl, hrest, .any ht, rfl⟩
  | kind =>
    exact namedAtom_sound (fun _ => rfl) hend (ht ▸ by decide) fun hc hi => .kind ht hc hi
  | hasChild =>
    exact namedAtom_sound (fun _ => rfl) hend (ht ▸ by decide) fun hc hi => .hasChild ht hc hi
  | hasRef =>
    exact namedAtom_sound (fun _ => rfl) hend (ht ▸ by decide) fun hc hi => .hasRef ht hc hi
  | field =>
    refine TokenParser.Ends.bind (Ends.pass hend (ht ▸ by decide) fun hrest => ?_)
    exact fieldCmp_sound ht hrest
  | _ => exact Ends.badValue

/-- **What the parser returns is derivable**, by induction on the fuel: a nested expression starts
four calls deeper and at least one token later. -/
theorem parse_sound (fuel : Nat) :
    (∀ rem, HasEnd rem → 4 * rem.length + 4 ≤ fuel → Parses OrExpr (parseOrExpr fuel) rem) ∧
    (∀ rem, HasEnd rem → 4 * rem.length + 3 ≤ fuel → Parses AndExpr (parseAndExpr fuel) rem) ∧
    (∀ rem, HasEnd rem → 4 * rem.length + 2 ≤ fuel → Parses NotExpr (parseNotExpr fuel) rem) ∧
    (∀ rem, HasEnd rem → 4 * rem.length + 1 ≤ fuel →
      Parses AtomExpr (parseAtomExpr fuel) rem) := by
  induction fuel with
  | zero => refine ⟨?_, ?_, ?_, ?_⟩ <;> exact fun _ _ h => absurd h (by omega)
  | succ fuel ih =>
    obtain ⟨hor, hand, hnot, hatom⟩ := ih
    refine ⟨fun rem hend hfuel => ?_, fun rem hend hfuel => ?_, fun rem hend hfuel => ?_,
      fun rem hend hfuel => atomExpr_sound hend fun rem' hlt h => hor rem' h (by omega)⟩
    · rw [parseOrExpr]
      exact chain_sound .or (by decide) (fun _ _ => rfl) hend (by omega)
        (fun r hr hle => hand r hr (by omega)) fun hq htail => .chain hq htail
    · rw [parseAndExpr]
      exact chain_sound .and (by decide) (fun _ _ => rfl) hend (by omega)
        (fun r hr hle => hnot r hr (by omega)) fun hq htail => .chain hq htail
    · obtain ⟨t, rest, rfl⟩ := hend.ne_nil
      rw [List.length_cons] at hfuel
      rw [parseNotExpr]
      refine TokenParser.Ends.bind (TokenParser.Ends.peek ?_)
      by_cases ht : t.kind = .not
      · rw [if_pos ht]
        refine TokenParser.Ends.bind (Ends.pass hend (ht ▸ by decide) fun hrest => ?_)
        refine TokenParser.Ends.bind ((hnot rest hrest (by omega)).mono ?_ fun _ h => h)
        rintro e rem' ⟨ts, q, rfl, hend', hq, rfl⟩
        exact TokenParser.Ends.pure ⟨t :: ts, _, rfl, hend', .not ht hq, rfl⟩
      · rw [if_neg ht]
        refine (hatom _ hend (by rw [List.length_cons]; omega)).mono ?_ fun _ h => h
        rintro e rem' ⟨ts, q, hts, hend', hq, rfl⟩
        exact ⟨ts, q, hts, hend', .atom hq, rfl⟩

/-! ## What is derivable is returned -/

/-- `p` passes `ts` and returns the tree of `q`, if the token after `ts` is of a kind in `Next`. -/
def Returns (Next : QueryTokenKind → Prop) (p : QueryParser QueryExpr) (ts : List QueryToken)
    (q : Query) : Prop :=
  ∀ t rest, Next t.kind → Ends p (ts ++ t :: rest)
    (fun e rem' => e = q.toExpr ∧ rem' = t :: rest) (fun _ => False)

/-- Passing a token of a known kind. -/
theorem Ends.accept {k : QueryTokenKind} {t u : QueryToken} {Q : Unit → List QueryToken → Prop}
    {E : TokenFault Status → Prop} (ht : t.kind = k) (hQ : Q () (u :: rem)) :
    Ends (QueryParser.expect k) (t :: u :: rem) Q E := by
  refine TokenParser.Ends.bind (TokenParser.Ends.peek ?_)
  rw [if_neg (not_not_intro ht)]
  exact TokenParser.Ends.bind (TokenParser.Ends.consume (TokenParser.Ends.pure hQ))

/-- Passing a colon and an identifier. -/
theorem Ends.acceptName {what : String} {c i u : QueryToken} {Q : Bytes → List QueryToken → Prop}
    {E : TokenFault Status → Prop} (hc : c.kind = .colon) (hi : i.kind = .ident)
    (hQ : Q i.stringVal (u :: rem)) :
    Ends (QueryParser.parseName what) (c :: i :: u :: rem) Q E := by
  refine TokenParser.Ends.bind (Ends.accept hc (TokenParser.Ends.bind (TokenParser.Ends.peek ?_)))
  rw [if_neg (not_not_intro hi)]
  exact TokenParser.Ends.bind (TokenParser.Ends.consume (TokenParser.Ends.pure hQ))

/-- Passing a colon, an identifier and a comparison operator. -/
theorem Ends.acceptFieldCmp {c i o u : QueryToken} {op : CmpOp}
    {Q : QueryExpr → List QueryToken → Prop} {E : TokenFault Status → Prop} (hc : c.kind = .colon)
    (hi : i.kind = .ident) (ho : cmpOp? o.kind = some op)
    (hvalue : Ends (QueryParser.parseValue
      { kind := .fieldCmp, atomName := i.stringVal, cmpOp := op }) (u :: rem) Q E) :
    Ends QueryParser.parseFieldCmp (c :: i :: o :: u :: rem) Q E := by
  refine TokenParser.Ends.bind (Ends.acceptName hc hi (TokenParser.Ends.bind (TokenParser.Ends.bind ?_)))
  refine TokenParser.Ends.peek ?_
  rw [ho]
  exact TokenParser.Ends.bind (TokenParser.Ends.consume (TokenParser.Ends.pure hvalue))

/-- The token after an operand: the operator of the tail, or the token after the chain. -/
theorem Tail.next {op : QueryTokenKind} {G : List QueryToken → Query → Prop}
    {us : List QueryToken} {qs : List Query} (h : Tail op G us qs) (t : QueryToken)
    (rest : List QueryToken) :
    ∃ u rest', us ++ t :: rest = u :: rest' ∧ (u.kind = op ∨ u = t) := by
  cases h with
  | nil => exact ⟨t, rest, rfl, .inr rfl⟩
  | cons ho _ _ => exact ⟨_, _, rfl, .inl ho⟩

/-- A tail of a chain is consumed to its end, if the next token starts no further operand. -/
theorem chainLoop_complete (mk : Query → Query → Query) {op : QueryTokenKind}
    {node : QueryNodeKind} {G : List QueryToken → Query → Prop}
    {operand : QueryParser QueryExpr} {n : Nat} {Next : QueryTokenKind → Prop}
    (hmk : ∀ l r, (mk l r).toExpr = { kind := node, children := [l.toExpr, r.toExpr] })
    (hop : Next op)
    (hoperand : ∀ ts q, G ts q → ts.length ≤ n → Returns Next operand ts q)
    {us : List QueryToken} {qs : List Query} (htail : Tail op G us qs) :
    ∀ {fuel : Nat} {q : Query}, us.length ≤ n → us.length < fuel →
      Returns (fun k => k ≠ op ∧ Next k) (chainLoop op node operand fuel q.toExpr) us
        (qs.foldl mk q) := by
  induction htail with
  | nil =>
    intro fuel q _ hfuel t rest hnext
    obtain ⟨fuel, rfl⟩ := Nat.exists_eq_succ_of_ne_zero (Nat.ne_of_gt hfuel)
    rw [chainLoop]
    refine TokenParser.Ends.bind (TokenParser.Ends.peek ?_)
    rw [if_neg hnext.1]
    exact TokenParser.Ends.pure ⟨rfl, rfl⟩
  | @cons o ts us r qs ho hG htail ih =>
    intro fuel q hn hfuel t rest hnext
    obtain ⟨fuel, rfl⟩ := Nat.exists_eq_succ_of_ne_zero (Nat.ne_of_gt (Nat.zero_lt_of_lt hfuel))
    rw [List.length_cons, List.length_append] at hn hfuel
    obtain ⟨u, rest', hu, hnextu⟩ := htail.next t rest
    have hnextu' : Next u.kind := by
      rcases hnextu with hk | rfl
      · exact hk ▸ hop
      · exact hnext.2
    have happ : (o :: (ts ++ us)) ++ t :: rest = o :: (ts ++ u :: rest') := by
      rw [← hu, List.cons_append, List.append_assoc]
    rw [happ, chainLoop]
    refine TokenParser.Ends.bind (TokenParser.Ends.peek ?_)
    rw [if_pos ho]
    refine TokenParser.Ends.bind (TokenParser.Ends.consume_append ?_)
    refine TokenParser.Ends.bind
      ((hoperand ts r hG (by omega) u rest' hnextu').mono ?_ fun _ h => h)
    rintro e rem' ⟨rfl, rfl⟩
    rw [← hmk, ← hu]
    exact ih (by omega) (by omega) t rest hnext

/-- An atom is returned whatever follows it. -/
theorem atomExpr_complete {fuel : Nat} {ts : List QueryToken} {q : Query}
    (hor : ∀ us r, us.length < ts.length → OrExpr us r →
      Returns (fun k => k ≠ .or ∧ k ≠ .and) (parseOrExpr fuel) us r)
    (h : AtomExpr ts q) : Returns (fun _ => True) (parseAtomExpr (fuel + 1)) ts q := by
  intro u rest _
  rw [parseAtomExpr]
  cases h with
  | kind ht hc hi | hasChild ht hc hi | hasRef ht hc hi =>
    refine TokenParser.Ends.bind (TokenParser.Ends.peek ?_)
    rw [ht]
    refine TokenParser.Ends.bind (TokenParser.Ends.consume (TokenParser.Ends.bind ?_))
    exact Ends.acceptName hc hi (TokenParser.Ends.pure ⟨rfl, rfl⟩)
  | alive ht | any ht =>
    refine TokenParser.Ends.bind (TokenParser.Ends.peek ?_)
    rw [ht]
    exact TokenParser.Ends.bind (TokenParser.Ends.consume (TokenParser.Ends.pure ⟨rfl, rfl⟩))
  | fieldString ht hc hi ho hv =>
    refine TokenParser.Ends.bind (TokenParser.Ends.peek ?_)
    rw [ht]
    refine TokenParser.Ends.bind (TokenParser.Ends.consume (Ends.acceptFieldCmp hc hi ho ?_))
    refine TokenParser.Ends.bind (TokenParser.Ends.peek ?_)
    rw [if_pos hv]
    exact TokenParser.Ends.bind (TokenParser.Ends.consume (TokenParser.Ends.pure ⟨rfl, rfl⟩))
  | fieldInteger ht hc hi ho hv =>
    refine TokenParser.Ends.bind (TokenParser.Ends.peek ?_)
    rw [ht]
    refine TokenParser.Ends.bind (TokenParser.Ends.consume (Ends.acceptFieldCmp hc hi ho ?_))
    refine TokenParser.Ends.bind (TokenParser.Ends.peek ?_)
    rw [if_neg (by rw [hv]; decide), if_pos hv]
    exact TokenParser.Ends.bind (TokenParser.Ends.consume (TokenParser.Ends.pure ⟨rfl, rfl⟩))
  | @paren l r us q hl hexpr hr =>
    have happ : (l :: (us ++ [r])) ++ u :: rest = l :: (us ++ r :: u :: rest) := by simp
    rw [happ]
    refine TokenParser.Ends.bind (TokenParser.Ends.peek ?_)
    rw [hl]
    refine TokenParser.Ends.bind (TokenParser.Ends.consume_append ?_)
    have hlt : us.length < (l :: (us ++ [r])).length := by
      rw [List.length_cons, List.length_append]
      omega
    refine TokenParser.Ends.bind ((hor us q hlt hexpr r _ (by rw [hr]; decide)).mono ?_
      fun _ h => h)
    rintro e rem' ⟨rfl, rfl⟩
    exact TokenParser.Ends.bind (Ends.accept hr (TokenParser.Ends.pure ⟨rfl, rfl⟩))

/-- An atom does not start with `NOT`. -/
theorem AtomExpr.head {ts : List QueryToken} {q : Query} (h : AtomExpr ts q) :
    ∃ t us, ts = t :: us ∧ t.kind ≠ .not := by
  cases h with
  | kind ht _ _ | hasChild ht _ _ | hasRef ht _ _ | alive ht | any ht | fieldString ht _ _ _ _
  | fieldInteger ht _ _ _ _ | paren ht _ _ => exact ⟨_, _, rfl, by rw [ht]; decide⟩

/-- **What is derivable is returned**, by induction on the fuel. -/
theorem parse_complete (fuel : Nat) :
    (∀ ts q, 4 * ts.length + 4 ≤ fuel → OrExpr ts q →
      Returns (fun k => k ≠ .or ∧ k ≠ .and) (parseOrExpr fuel) ts q) ∧
    (∀ ts q, 4 * ts.length + 3 ≤ fuel → AndExpr ts q →
      Returns (fun k => k ≠ .and) (parseAndExpr fuel) ts q) ∧
    (∀ ts q, 4 * ts.length + 2 ≤ fuel → NotExpr ts q →
      Returns (fun _ => True) (parseNotExpr fuel) ts q) ∧
    (∀ ts q, 4 * ts.length + 1 ≤ fuel → AtomExpr ts q →
      Returns (fun _ => True) (parseAtomExpr fuel) ts q) := by
  induction fuel with
  | zero => refine ⟨?_, ?_, ?_, ?_⟩ <;> exact fun _ _ h => absurd h (by omega)
  | succ fuel ih =>
    obtain ⟨hor, hand, hnot, hatom⟩ := ih
    refine ⟨?_, ?_, ?_, fun ts q hfuel => atomExpr_complete fun us r hlt => hor us r (by omega)⟩
    · rintro _ _ hfuel (@⟨ts, us, q, qs, hq, htail⟩) t rest hnext
      rw [List.length_append] at hfuel
      obtain ⟨u, rest', hu, hnextu⟩ := htail.next t rest
      have hnextu' : u.kind ≠ .and := by
        rcases hnextu with hk | rfl
        · rw [hk]; decide
        · exact hnext.2
      rw [parseOrExpr, List.append_assoc, hu]
      refine TokenParser.Ends.bind
        ((hand ts q (by omega) hq u rest' hnextu').mono ?_ fun _ h => h)
      rintro e rem' ⟨rfl, rfl⟩
      rw [← hu]
      exact chainLoop_complete .or (fun _ _ => rfl) (by decide)
        (fun ts r hG hle => hand ts r (by omega) hG) htail (Nat.le_refl _) (by omega) t rest hnext
    · rintro _ _ hfuel (@⟨ts, us, q, qs, hq, htail⟩) t rest hnext
      rw [List.length_append] at hfuel
      obtain ⟨u, rest', hu, -⟩ := htail.next t rest
      rw [parseAndExpr, List.append_assoc, hu]
      refine TokenParser.Ends.bind
        ((hnot ts q (by omega) hq u rest' trivial).mono ?_ fun _ h => h)
      rintro e rem' ⟨rfl, rfl⟩
      rw [← hu]
      exact chainLoop_complete .and (fun _ _ => rfl) trivial
        (fun ts r hG hle => hnot ts r (by omega) hG) htail (Nat.le_refl _) (by omega) t rest
        ⟨hnext, trivial⟩
    · intro ts q hfuel h t rest _
      rw [parseNotExpr]
      cases h with
      | @not o ts q ho hq =>
        rw [List.length_cons] at hfuel
        refine TokenParser.Ends.bind (TokenParser.Ends.peek ?_)
        rw [if_pos ho]
        refine TokenParser.Ends.bind (TokenParser.Ends.consume_append ?_)
        refine TokenParser.Ends.bind
          ((hnot ts q (by omega) hq t rest trivial).mono ?_ fun _ h => h)
        rintro e rem' ⟨rfl, rfl⟩
        exact TokenParser.Ends.pure ⟨rfl, rfl⟩
      | atom hq =>
        obtain ⟨o, us, rfl, ho⟩ := hq.head
        refine TokenParser.Ends.bind (TokenParser.Ends.peek ?_)
        rw [if_neg ho]
        exact hatom (o :: us) q (by omega) hq t rest trivial

/-! ## A whole token list -/

/-- The tokens before the sentinel. -/
def beforeEnd (tokens : List QueryToken) : List QueryToken :=
  tokens.takeWhile (·.kind ≠ .sentinel)

theorem beforeEnd_append : ∀ {tokens : List QueryToken}, HasEnd tokens →
    ∃ t rest, tokens = beforeEnd tokens ++ t :: rest ∧ t.kind = .sentinel
  | [], h => by obtain ⟨_, hu, _⟩ := h; cases hu
  | u :: us, h => by
    by_cases hu : u.kind = .sentinel
    · exact ⟨u, us, by simp [beforeEnd, hu], hu⟩
    · obtain ⟨t, rest, hus, ht⟩ := beforeEnd_append (h.next hu)
      refine ⟨t, rest, ?_, ht⟩
      rw [beforeEnd, List.takeWhile_cons_of_pos (by simpa using hu), List.cons_append]
      exact congrArg (u :: ·) hus

theorem beforeEnd_eq {ts rest : List QueryToken} {t : QueryToken} (ht : t.kind = .sentinel)
    (hts : ∀ u ∈ ts, u.kind ≠ .sentinel) : beforeEnd (ts ++ t :: rest) = ts := by
  rw [beforeEnd, List.takeWhile_append_of_pos (by simpa using hts),
    List.takeWhile_cons_of_neg (by simp [ht]), List.append_nil]

mutual

/-- No rule derives the sentinel. -/
theorem OrExpr.noEnd {ts : List QueryToken} {q : Query} :
    OrExpr ts q → ∀ u ∈ ts, u.kind ≠ .sentinel
  | .chain h ht, u, hu => (List.mem_append.mp hu).elim (h.noEnd u) (orTail_noEnd ht u)

theorem orTail_noEnd {ts : List QueryToken} {qs : List Query} :
    Tail .or AndExpr ts qs → ∀ u ∈ ts, u.kind ≠ .sentinel
  | .nil, _, hu => absurd hu List.not_mem_nil
  | .cons ho h ht, u, hu => by
    rcases List.mem_cons.mp hu with rfl | hu
    · rw [ho]; decide
    · exact (List.mem_append.mp hu).elim (h.noEnd u) (orTail_noEnd ht u)

theorem AndExpr.noEnd {ts : List QueryToken} {q : Query} :
    AndExpr ts q → ∀ u ∈ ts, u.kind ≠ .sentinel
  | .chain h ht, u, hu => (List.mem_append.mp hu).elim (h.noEnd u) (andTail_noEnd ht u)

theorem andTail_noEnd {ts : List QueryToken} {qs : List Query} :
    Tail .and NotExpr ts qs → ∀ u ∈ ts, u.kind ≠ .sentinel
  | .nil, _, hu => absurd hu List.not_mem_nil
  | .cons ho h ht, u, hu => by
    rcases List.mem_cons.mp hu with rfl | hu
    · rw [ho]; decide
    · exact (List.mem_append.mp hu).elim (h.noEnd u) (andTail_noEnd ht u)

theorem NotExpr.noEnd {ts : List QueryToken} {q : Query} :
    NotExpr ts q → ∀ u ∈ ts, u.kind ≠ .sentinel
  | .not ho h, u, hu => by
    rcases List.mem_cons.mp hu with rfl | hu
    · rw [ho]; decide
    · exact h.noEnd u hu
  | .atom h, u, hu => h.noEnd u hu

theorem AtomExpr.noEnd {ts : List QueryToken} {q : Query} :
    AtomExpr ts q → ∀ u ∈ ts, u.kind ≠ .sentinel
  | .kind ht hc hi, u, hu | .hasChild ht hc hi, u, hu | .hasRef ht hc hi, u, hu => by
    simp only [List.mem_cons, List.not_mem_nil, or_false] at hu
    rcases hu with rfl | rfl | rfl <;> simp [ht, hc, hi]
  | .alive ht, u, hu | .any ht, u, hu => by
    obtain rfl := List.mem_singleton.mp hu
    simp [ht]
  | .fieldString ht hc hi ho hv, u, hu | .fieldInteger ht hc hi ho hv, u, hu => by
    simp only [List.mem_cons, List.not_mem_nil, or_false] at hu
    rcases hu with rfl | rfl | rfl | rfl | rfl <;> simp [ht, hc, hi, hv, cmpOp?_some ho]
  | .paren hl h hr, u, hu => by
    rcases List.mem_cons.mp hu with rfl | hu
    · rw [hl]; decide
    rcases List.mem_append.mp hu with hu | hu
    · exact h.noEnd u hu
    · obtain rfl := List.mem_singleton.mp hu
      rw [hr]; decide

end

/-! ### The cursor -/

theorem expect_inRange (k : QueryTokenKind) : (expect k).InRange := by
  refine TokenParser.InRange.bind .peek fun t => ?_
  by_cases h : t.kind ≠ k
  · rw [if_pos h]
    exact .fail _
  · rw [if_neg h]
    exact .bind .consume fun _ => .pure _

theorem parseName_inRange (what : String) : (parseName what).InRange := by
  refine .bind (expect_inRange _) fun _ => .bind .peek fun t => ?_
  by_cases h : t.kind ≠ .ident
  · rw [if_pos h]
    exact .fail _
  · rw [if_neg h]
    exact .bind .consume fun _ => .pure _

theorem parseFieldCmp_inRange : parseFieldCmp.InRange := by
  refine .bind (parseName_inRange _) fun _ => .bind (.bind .peek fun t => ?_) fun _ =>
    .bind .peek fun v => ?_
  · cases cmpOp? t.kind with
    | none => exact .fail _
    | some op => exact .bind .consume fun _ => .pure _
  · by_cases hs : v.kind = .string
    · rw [if_pos hs]
      exact .bind .consume fun _ => .pure _
    rw [if_neg hs]
    by_cases hi : v.kind = .integer
    · rw [if_pos hi]
      exact .bind .consume fun _ => .pure _
    · rw [if_neg hi]
      exact .fail _

theorem chainLoop_inRange {op : QueryTokenKind} {node : QueryNodeKind}
    {operand : QueryParser QueryExpr} (h : operand.InRange) :
    ∀ (fuel : Nat) (lhs : QueryExpr), (chainLoop op node operand fuel lhs).InRange
  | 0, _ => .outOfFuel
  | fuel + 1, lhs => by
    refine .bind .peek fun t => ?_
    by_cases ht : t.kind = op
    · rw [if_pos ht]
      exact .bind .consume fun _ => .bind h fun _ => chainLoop_inRange h fuel _
    · rw [if_neg ht]
      exact .pure _

/-- The rules keep the cursor on a token, whatever the tokens are. -/
theorem rules_inRange (fuel : Nat) :
    (parseOrExpr fuel).InRange ∧ (parseAndExpr fuel).InRange ∧ (parseNotExpr fuel).InRange ∧
      (parseAtomExpr fuel).InRange := by
  induction fuel with
  | zero => exact ⟨.outOfFuel, .outOfFuel, .outOfFuel, .outOfFuel⟩
  | succ fuel ih =>
    obtain ⟨hor, hand, hnot, hatom⟩ := ih
    refine ⟨?_, ?_, ?_, ?_⟩
    · rw [parseOrExpr]
      exact .bind hand fun _ => chainLoop_inRange hand _ _
    · rw [parseAndExpr]
      exact .bind hnot fun _ => chainLoop_inRange hnot _ _
    · rw [parseNotExpr]
      refine .bind .peek fun t => ?_
      by_cases ht : t.kind = .not
      · rw [if_pos ht]
        exact .bind .consume fun _ => .bind hnot fun _ => .pure _
      · rw [if_neg ht]
        exact hatom
    · rw [parseAtomExpr]
      refine .bind .peek fun t => ?_
      cases t.kind with
      | lparen =>
        exact .bind .consume fun _ => .bind hor fun _ => .bind (expect_inRange _) fun _ => .pure _
      | alive | any => exact .bind .consume fun _ => .pure _
      | kind | hasChild | hasRef =>
        exact .bind .consume fun _ => .bind (parseName_inRange _) fun _ => .pure _
      | field => exact .bind .consume fun _ => parseFieldCmp_inRange
      | _ => exact .fail _

theorem parseTop_inRange (fuel : Nat) : (parseTop fuel).InRange := by
  refine .bind (rules_inRange fuel).1 fun _ => .bind .peek fun t => ?_
  by_cases h : t.kind ≠ .sentinel
  · rw [if_pos h]
    exact .fail _
  · rw [if_neg h]
    exact .pure _

/-! ### The whole parser -/

/-- What `parse` does to a token list that ends in the sentinel. -/
structure AcceptsGrammar (tokens : List QueryToken) : Prop where
  /-- The cursor stays on a token, however long the parser runs. -/
  inRange : ∀ fuel, TokenParser.OnToken tokens (parseTop fuel tokens 0)
  /-- A token list has one tree at most. -/
  unambiguous : ∀ q q', OrExpr (beforeEnd tokens) q → OrExpr (beforeEnd tokens) q' → q = q'
  /-- With enough fuel the parser returns the trees of the derivations, and nothing else. -/
  accepts : ∀ fuel, 4 * tokens.length + 4 ≤ fuel → ∀ e, parse fuel tokens = .ok e ↔
    ∃ q, OrExpr (beforeEnd tokens) q ∧ e = q.toExpr
  /-- With enough fuel the parser rejects every other list with `BadValue`. -/
  rejects : ∀ fuel, 4 * tokens.length + 4 ≤ fuel → (∀ q, ¬ OrExpr (beforeEnd tokens) q) →
    ∃ detail, parse fuel tokens = .error (.reject ⟨.badValue, detail⟩)

/-- The parser ends in a derivable expression before the sentinel, or rejects. -/
theorem parse_ends {tokens : List QueryToken} (hend : HasEnd tokens) {fuel : Nat}
    (hfuel : 4 * tokens.length + 4 ≤ fuel) :
    (∃ q, OrExpr (beforeEnd tokens) q ∧ parse fuel tokens = .ok q.toExpr) ∨
      ∃ detail, parse fuel tokens = .error (.reject ⟨.badValue, detail⟩) := by
  have hends : Ends (parseTop fuel) tokens
      (fun e _ => ∃ q, OrExpr (beforeEnd tokens) q ∧ e = q.toExpr) Rejects := by
    refine TokenParser.Ends.bind (((parse_sound fuel).1 tokens hend hfuel).mono ?_ fun _ h => h)
    rintro e rem' ⟨ts, q, hts, hend', hq, rfl⟩
    obtain ⟨t, rest, rfl⟩ := hend'.ne_nil
    refine TokenParser.Ends.bind (TokenParser.Ends.peek ?_)
    by_cases ht : t.kind ≠ .sentinel
    · rw [if_pos ht]
      exact Ends.badValue
    · rw [if_neg ht]
      refine TokenParser.Ends.pure ⟨q, ?_, rfl⟩
      rw [hts, beforeEnd_eq (not_not.mp ht) hq.noEnd]
      exact hq
  have hrun := hends tokens 0 List.drop_zero
  unfold parse
  cases hres : parseTop fuel tokens 0 with
  | ok r =>
    rw [hres] at hrun
    obtain ⟨q, hq, he⟩ := hrun
    exact .inl ⟨q, hq, congrArg Except.ok he⟩
  | error e =>
    rw [hres] at hrun
    obtain ⟨detail, rfl⟩ := hrun
    exact .inr ⟨detail, rfl⟩

/-- A derivable list is accepted. -/
theorem parse_eq_of_derivable {tokens : List QueryToken} (hend : HasEnd tokens) {fuel : Nat}
    (hfuel : 4 * tokens.length + 4 ≤ fuel) {q : Query} (hq : OrExpr (beforeEnd tokens) q) :
    parse fuel tokens = .ok q.toExpr := by
  obtain ⟨t, rest, htokens, ht⟩ := beforeEnd_append hend
  have hlen : 4 * (beforeEnd tokens).length + 4 ≤ fuel := by
    have := congrArg List.length htokens
    rw [List.length_append] at this
    omega
  have hends : Ends (parseTop fuel) tokens (fun e _ => e = q.toExpr) (fun _ => False) := by
    rw [htokens]
    refine TokenParser.Ends.bind (((parse_complete fuel).1 _ q hlen hq t rest
      (by rw [ht]; decide)).mono ?_ fun _ h => h)
    rintro e rem' ⟨rfl, rfl⟩
    refine TokenParser.Ends.bind (TokenParser.Ends.peek ?_)
    rw [if_neg (not_not_intro ht)]
    exact TokenParser.Ends.pure rfl
  have hrun := hends tokens 0 List.drop_zero
  unfold parse
  cases hres : parseTop fuel tokens 0 with
  | ok r =>
    rw [hres] at hrun
    exact congrArg Except.ok hrun
  | error e =>
    rw [hres] at hrun
    exact hrun.elim

/-- **The parser accepts exactly its grammar.** -/
theorem parse_accepts_grammar {tokens : List QueryToken} {last : QueryToken}
    (hlast : tokens.getLast? = some last) (hkind : last.kind = .sentinel) :
    AcceptsGrammar tokens := by
  have hend : HasEnd tokens := ⟨last, List.mem_of_getLast? hlast, hkind⟩
  refine ⟨fun fuel => ?_, fun q q' hq hq' => ?_, fun fuel hfuel e => ?_, fun fuel hfuel hnone => ?_⟩
  · exact parseTop_inRange fuel tokens 0 (List.length_pos_of_mem (List.mem_of_getLast? hlast))
  · have h := parse_eq_of_derivable hend (Nat.le_refl _) hq
    rw [parse_eq_of_derivable hend (Nat.le_refl _) hq', Except.ok.injEq] at h
    exact Query.toExpr_inj h.symm
  · constructor
    · intro he
      rcases parse_ends hend hfuel with ⟨q, hq, hres⟩ | ⟨detail, hres⟩
      · rw [hres, Except.ok.injEq] at he
        exact ⟨q, hq, he.symm⟩
      · rw [hres] at he
        cases he
    · rintro ⟨q, hq, rfl⟩
      exact parse_eq_of_derivable hend hfuel hq
  · rcases parse_ends hend hfuel with ⟨q, hq, -⟩ | hres
    · exact absurd hq (hnone q)
    · exact hres

/-- `NOT (alive AND any) OR alive`, then the sentinel. -/
def notBoth : List QueryToken :=
  ([.not, .lparen, .alive, .and, .any, .rparen, .or, .alive, .sentinel] : List QueryTokenKind).map fun k =>
    { kind := k }

theorem parse_accepts_grammar_notBoth :
    AcceptsGrammar notBoth ∧ ∃ q, OrExpr (beforeEnd notBoth) q ∧ parse 40 notBoth = .ok q.toExpr := by
  have haccepts : AcceptsGrammar notBoth := parse_accepts_grammar rfl rfl
  refine ⟨haccepts, ?_⟩
  cases hparse : parse 40 notBoth with
  | error e =>
    have hok : (parse 40 notBoth).isOk = true := by decide
    rw [hparse] at hok
    cases hok
  | ok e =>
    obtain ⟨q, hq, rfl⟩ := (haccepts.accepts 40 (by decide) e).mp hparse
    exact ⟨q, hq, rfl⟩

end QueryParser

end Stratavm
