import Stratavm.Lib.Munch
import Stratavm.Query.Grammar
import Stratavm.QueryLexer

/-!
# Parsing a query text

The lexer takes the longest lexeme at the front of the text (`nextToken_takes`), so what it comes to is
settled by the lexicon alone (`Lexicon.Reaches`): it ends in tokens or in an error `Status`, unless it
comes to an integer literal whose value does not fit into 64 bits (`tokenize_lexes`).

`queryLexicon` says what the lexemes are without saying how they are found: quoted strings, the operators,
integers with a minus or without, and words. The first character decides which of them a lexeme is
(`startOf`), and what may follow it (`Continues`); the branches of the source's loop are told apart by the
same character (`nextToken_branch`).

* **`parse_total_iff`**: parsing ends in a tree with the children its nodes must have, or in an error
  `Status`, exactly when the text reaches no such literal.
* `bigLiteral_throws`: the least literal that does not fit.

Out of scope: texts so deeply nested that the parser's recursion exhausts the stack.
-/

namespace Stratavm

open Lib

/-- The children that a node of an expression tree must have. -/
def QueryNodeKind.arity : QueryNodeKind → Nat
  | .and | .or => 2
  | .not => 1
  | _ => 0

/-- Every node of the tree has the children it must have. -/
inductive QueryExpr.ExactArity : QueryExpr → Prop
  | node {e : QueryExpr} : e.children.length = e.kind.arity → (∀ c ∈ e.children, ExactArity c) →
      ExactArity e

theorem Query.exactArity_toExpr (q : Query) : q.toExpr.ExactArity := by
  induction q with
  | or lhs rhs ihl ihr | and lhs rhs ihl ihr =>
    refine .node rfl fun c hc => ?_
    rcases List.mem_pair.mp hc with rfl | rfl
    · exact ihl
    · exact ihr
  | not inner ih =>
    refine .node rfl fun c hc => ?_
    obtain rfl := List.mem_singleton.mp hc
    exact ih
  | kindMatch | fieldCmp | hasChild | hasRef | anyAlive =>
    exact .node rfl fun c hc => absurd hc List.not_mem_nil

/-! ## The lexicon -/

/-- Operators and punctuation. -/
def operators : List Bytes := ["!=", "<=", ">=", "=", "<", ">", ":", "(", ")"].map ascii

/-- An integer literal: digits, perhaps after a minus. -/
def IsInteger (l : Bytes) : Prop :=
  ∃ digits : Bytes, digits ≠ [] ∧ (∀ d ∈ digits, isDigit d) ∧ (l = digits ∨ l = '-'.toUInt8 :: digits)

/-- An integer literal that does not fit into 64 bits. -/
def OutOfRange (l : Bytes) : Prop :=
  IsInteger l ∧ ¬ (Int64.minValue.toInt ≤ literalValue l ∧ literalValue l ≤ Int64.maxValue.toInt)

open QueryLexer (isStringChar isWordChar)

/-- A lexeme of the query language. -/
inductive QueryLexeme : Bytes → Prop
  | string {body : Bytes} : (∀ b ∈ body, isStringChar b) →
      QueryLexeme ('"'.toUInt8 :: (body ++ ['"'.toUInt8]))
  | operator {op : Bytes} : op ∈ operators → QueryLexeme op
  | integer {num : Bytes} : IsInteger num → QueryLexeme num
  | word {c : UInt8} {rest : Bytes} : (isAlpha c ∨ c = '_'.toUInt8) → (∀ b ∈ rest, isWordChar b) →
      QueryLexeme (c :: rest)

/-- What is decided for every byte holds of every byte. -/
theorem forall_byte {P : UInt8 → Prop} (h : ∀ n : Fin 256, P (UInt8.ofNat n)) (c : UInt8) : P c := by
  have hc := h ⟨c.toNat, c.toNat_lt⟩
  rwa [UInt8.ofNat_toNat] at hc

/-! ### Starts

The first character of a lexeme tells which kind of lexeme it is. -/

/-- What a lexeme that starts with a character is. -/
inductive Start where
  | string
  | operator
  | minus
  | digit
  | word
  | none
  deriving DecidableEq

/-- The lexemes that start with `c`. -/
def startOf (c : UInt8) : Start :=
  if c = '"'.toUInt8 then .string
  else if c ∈ ascii "!<>=:()" then .operator
  else if c = '-'.toUInt8 then .minus
  else if isDigit c then .digit
  else if isAlpha c ∨ c = '_'.toUInt8 then .word
  else .none

/-- What follows the first character of a lexeme. -/
def Continues (c : UInt8) (t : Bytes) : Prop :=
  match startOf c with
  | .string => ∃ body : Bytes, t = body ++ ['"'.toUInt8] ∧ ∀ b ∈ body, isStringChar b
  | .operator => c :: t ∈ operators
  | .minus => t ≠ [] ∧ ∀ d ∈ t, isDigit d
  | .digit => ∀ d ∈ t, isDigit d
  | .word => ∀ b ∈ t, isWordChar b
  | .none => False

theorem startOf_digit : ∀ {c : UInt8}, isDigit c → startOf c = .digit := @(forall_byte (by decide +kernel))

theorem startOf_word : ∀ {c : UInt8}, isAlpha c ∨ c = '_'.toUInt8 → startOf c = .word :=
  @(forall_byte (by decide +kernel))

theorem startOf_space : ∀ {c : UInt8}, isSpace c → startOf c = .none := @(forall_byte (by decide +kernel))

/-- An operator is a character of its own, or one with another after it. -/
theorem operators_split : ∀ op ∈ operators,
    (∃ c ∈ op, op = [c] ∧ startOf c = .operator ∧ (QueryLexer.singleOp? c).isSome) ∨
    ∃ c ∈ op, ∃ d ∈ op, op = [c, d] ∧ startOf c = .operator ∧
      (QueryLexer.twoCharOp? c (some d)).isSome := by
  decide

theorem startOf_operator {c : UInt8} {t : Bytes} (hop : c :: t ∈ operators) :
    startOf c = .operator := by
  rcases operators_split _ hop with ⟨d, -, hd, hstart, -⟩ | ⟨d, -, e, -, hd, hstart, -⟩
  · rwa [(List.cons.inj hd).1]
  · rwa [(List.cons.inj hd).1]

theorem operators_length : ∀ op ∈ operators, op.length ≤ 2 := by decide

theorem IsInteger.start {l : Bytes} (h : IsInteger l) : ∃ c t, l = c :: t ∧ (∀ d ∈ t, isDigit d) ∧
    (startOf c = .digit ∨ startOf c = .minus ∧ t ≠ []) := by
  obtain ⟨digits, hne, hdigits, rfl | rfl⟩ := h
  · obtain ⟨d, t, rfl⟩ := List.exists_cons_of_ne_nil hne
    exact ⟨d, t, rfl, fun b hb => hdigits b (List.mem_cons_of_mem d hb),
      .inl (startOf_digit (hdigits d List.mem_cons_self))⟩
  · exact ⟨_, _, rfl, hdigits, .inr ⟨rfl, hne⟩⟩

theorem QueryLexeme.continues {l : Bytes} (h : QueryLexeme l) :
    ∃ c t, l = c :: t ∧ startOf c ≠ .none ∧ Continues c t := by
  cases h with
  | string hbody => exact ⟨_, _, rfl, by decide, _, rfl, hbody⟩
  | operator hop =>
    rcases operators_split _ hop with ⟨c, -, rfl, hc, -⟩ | ⟨c, -, d, -, rfl, hc, -⟩
    · exact ⟨c, [], rfl, by rw [hc]; decide, by rw [Continues, hc]; exact hop⟩
    · exact ⟨c, [d], rfl, by rw [hc]; decide, by rw [Continues, hc]; exact hop⟩
  | integer hnum =>
    obtain ⟨c, t, rfl, ht, hc | ⟨hc, hne⟩⟩ := hnum.start
    · exact ⟨c, t, rfl, by rw [hc]; decide, by rw [Continues, hc]; exact ht⟩
    · exact ⟨c, t, rfl, by rw [hc]; decide, by rw [Continues, hc]; exact ⟨hne, ht⟩⟩
  | @word c t hc ht =>
    have hstart := startOf_word hc
    exact ⟨c, t, rfl, by rw [hstart]; decide, by rw [Continues, hstart]; exact ht⟩

/-- The lexicon of the query language. -/
def queryLexicon : Lexicon UInt8 where
  space := isSpace
  Lexeme := QueryLexeme
  starts := by
    intro l h
    obtain ⟨c, t, rfl, hstart, -⟩ := h.continues
    exact ⟨c, t, rfl, Bool.eq_false_iff.mpr fun hspace => hstart (startOf_space hspace)⟩

/-! ## One token -/

namespace QueryLexer

/-- The branches of the body of the loop, and the guards that lead there. -/
inductive Branch (pos : Nat) (c : UInt8) (rest : Bytes) :
    Except QueryFault (QueryToken × Bytes) → Prop
  | string (hc : c = '"'.toUInt8) : Branch pos c rest (lexString pos rest)
  | double {k : QueryTokenKind} {rem : Bytes} (hrest : rest = '='.toUInt8 :: rem)
      (hk : twoCharOp? c (some '='.toUInt8) = some k) : Branch pos c rest (.ok ({ kind := k, pos }, rem))
  | single {k : QueryTokenKind} (htwo : twoCharOp? c rest.head? = none)
      (hk : singleOp? c = some k) : Branch pos c rest (.ok ({ kind := k, pos }, rest))
  | minus (hc : c = '-'.toUInt8) (hnext : rest.head?.any isDigit) :
      Branch pos c rest (lexInteger pos ['-'.toUInt8] rest)
  | digits (hc : isDigit c) : Branch pos c rest (lexInteger pos [] (c :: rest))
  | word (hc : isAlpha c ∨ c = '_'.toUInt8) : Branch pos c rest (.ok (lexWord pos (c :: rest)))
  | stuck {detail : String} (hquote : c ≠ '"'.toUInt8) (htwo : twoCharOp? c rest.head? = none)
      (hone : singleOp? c = none) (hminus : ¬ (c = '-'.toUInt8 ∧ rest.head?.any isDigit))
      (hdigit : ¬ isDigit c) (hword : ¬ (isAlpha c ∨ c = '_'.toUInt8)) :
      Branch pos c rest (badValue detail)

/-- What the body of the loop makes of the text `c :: rest`. -/
inductive Takes (c : UInt8) (rest : Bytes) : Except QueryFault (QueryToken × Bytes) → Prop
  | token {l rem : Bytes} {t : QueryToken} (htext : c :: rest = l ++ rem)
      (hl : queryLexicon.Longest l rem) (hfits : ¬ OutOfRange l) : Takes c rest (.ok (t, rem))
  | outOfRange {l rem : Bytes} (htext : c :: rest = l ++ rem) (hl : queryLexicon.Longest l rem)
      (hout : OutOfRange l) : Takes c rest (.error .outOfRange)
  | stuck {detail : String} (hstuck : ∀ l, QueryLexeme l → ¬ l <+: c :: rest) :
      Takes c rest (badValue detail)

variable {c : UInt8} {t rest rem : Bytes} {pos : Nat}

/-- Only digits and a minus start an integer. -/
theorem not_outOfRange {start : Start} (hc : startOf c = start)
    (hstart : start ≠ .digit ∧ start ≠ .minus) : ¬ OutOfRange (c :: t) := by
  rintro ⟨hnum, -⟩
  obtain ⟨d, u, hd, -, h⟩ := hnum.start
  obtain ⟨rfl, -⟩ := List.cons.inj hd
  rw [hc] at h
  rcases h with h | ⟨h, -⟩
  · exact hstart.1 h
  · exact hstart.2 h

theorem continues_cons (hl : QueryLexeme (c :: t)) : Continues c t := by
  obtain ⟨d, u, hd, -, hcont⟩ := hl.continues
  obtain ⟨rfl, rfl⟩ := List.cons.inj hd
  exact hcont

/-- A lexeme at the front of the text continues its first character. -/
theorem continues_of_prefix {l : Bytes} (hl : QueryLexeme l) (hfront : l <+: c :: rest) :
    ∃ t, l = c :: t ∧ t <+: rest ∧ startOf c ≠ .none ∧ Continues c t := by
  obtain ⟨d, t, rfl, hne, hcont⟩ := hl.continues
  obtain ⟨rfl, ht⟩ := List.cons_prefix_cons.mp hfront
  exact ⟨t, rfl, ht, hne, hcont⟩

theorem lexString_takes (pos : Nat) (rest : Bytes) : Takes '"'.toUInt8 rest (lexString pos rest) := by
  unfold lexString
  cases hdrop : rest.dropWhile isStringChar with
  | nil =>
    refine .stuck fun l hl hfront => ?_
    obtain ⟨t, rfl, ht, -, body, rfl, -⟩ := continues_of_prefix hl hfront
    have hquote := List.dropWhile_eq_nil_iff.mp hdrop _
      (ht.subset (List.mem_append_right body (List.mem_singleton.mpr rfl)))
    exact absurd hquote (by decide)
  | cons q rem =>
    have hq : q = '"'.toUInt8 := by
      have hhead := List.head?_dropWhile_not isStringChar rest
      rw [hdrop] at hhead
      simpa [isStringChar] using hhead
    have hsplit := List.takeWhile_append_dropWhile (p := isStringChar) (l := rest)
    rw [hdrop, hq] at hsplit
    have htext : '"'.toUInt8 :: rest =
        '"'.toUInt8 :: (rest.takeWhile isStringChar ++ ['"'.toUInt8]) ++ rem := by
      rw [List.cons_append, List.append_assoc]
      exact congrArg _ hsplit.symm
    refine .token htext ⟨.string fun b hb => List.mem_takeWhile_imp hb, fun l' hl' hfront => ?_⟩
      (not_outOfRange rfl (by decide))
    rw [← htext] at hfront
    obtain ⟨t, rfl, ht, -, body, rfl, hbody⟩ := continues_of_prefix hl' hfront
    have hle := length_le_takeWhile ((List.prefix_append body _).trans ht) hbody
    simp only [List.length_cons, List.length_append, List.length_nil]
    omega

/-- An operator that no longer one starts like. -/
theorem Takes.operator {op : Bytes} {tok : QueryToken} (hop : op ∈ operators)
    (htext : c :: rest = op ++ rem)
    (hlongest : ∀ op' ∈ operators, op' <+: c :: rest → op'.length ≤ op.length) :
    Takes c rest (.ok (tok, rem)) := by
  obtain ⟨d, t, rfl, -, -⟩ := (QueryLexeme.operator hop).continues
  obtain ⟨rfl, -⟩ := List.cons.inj htext
  have hstart := startOf_operator hop
  refine .token htext ⟨.operator hop, fun l' hl' hfront => ?_⟩
    (not_outOfRange hstart (by decide))
  rw [← htext] at hfront
  obtain ⟨t', rfl, -, -, hcont⟩ := continues_of_prefix hl' hfront
  rw [Continues, hstart] at hcont
  exact hlongest _ hcont hfront

/-- An integer literal is taken, if it fits. -/
theorem Takes.integer {num : Bytes} (htext : c :: rest = num ++ rem)
    (hl : queryLexicon.Longest num rem) (hnum : IsInteger num) :
    Takes c rest (match stoll num with
      | none => .error .outOfRange
      | some v => .ok ({ kind := .integer, intVal := v, pos }, rem)) := by
  unfold stoll
  by_cases hfits : Int64.minValue.toInt ≤ literalValue num ∧ literalValue num ≤ Int64.maxValue.toInt
  · rw [if_pos hfits]
    exact .token htext hl fun hout => hout.2 hfits
  · rw [if_neg hfits]
    exact .outOfRange htext hl ⟨hnum, hfits⟩

theorem twoCharOp?_some {next : Option UInt8} {k : QueryTokenKind}
    (h : twoCharOp? c next = some k) : next = some '='.toUInt8 ∧ [c, '='.toUInt8] ∈ operators := by
  unfold twoCharOp? at h
  split_ifs at h with hneq hle hge
  · exact ⟨hneq.2, hneq.1 ▸ by decide⟩
  · exact ⟨hle.2, hle.1 ▸ by decide⟩
  · exact ⟨hge.2, hge.1 ▸ by decide⟩

/-- **The body of the loop**, branch by branch. -/
theorem nextToken_branch (pos : Nat) (c : UInt8) (rest : Bytes) :
    Branch pos c rest (nextToken pos c rest) := by
  unfold nextToken
  by_cases hquote : c = '"'.toUInt8
  · rw [if_pos hquote]
    exact .string hquote
  rw [if_neg hquote]
  cases htwo : twoCharOp? c rest.head? with
  | some k =>
    have hnext := (twoCharOp?_some htwo).1
    obtain ⟨rem, rfl⟩ := List.head?_eq_some_iff.mp hnext
    exact .double rfl htwo
  | none =>
  cases hone : singleOp? c with
  | some k => exact .single htwo hone
  | none =>
  dsimp only
  by_cases hminus : c = '-'.toUInt8 ∧ rest.head?.any isDigit
  · rw [if_pos hminus, hminus.1]
    exact .minus rfl hminus.2
  rw [if_neg hminus]
  by_cases hdigit : isDigit c
  · rw [if_pos hdigit]
    exact .digits hdigit
  rw [if_neg hdigit]
  by_cases hword : isAlpha c ∨ c = '_'.toUInt8
  · rw [if_pos hword]
    exact .word hword
  · rw [if_neg hword]
    exact .stuck hquote htwo hone hminus hdigit hword

theorem singleOp?_some : ∀ {c : UInt8}, (singleOp? c).isSome → [c] ∈ operators :=
  @(forall_byte (by decide +kernel))

theorem run_text (p : UInt8 → Bool) : c :: rest = c :: rest.takeWhile p ++ rest.dropWhile p := by
  rw [List.cons_append, List.takeWhile_append_dropWhile]

theorem isInteger_digits (hdigit : isDigit c) : IsInteger ((c :: rest).takeWhile isDigit) := by
  refine ⟨_, ?_, fun d hd => List.mem_takeWhile_imp hd, .inl rfl⟩
  rw [List.takeWhile_cons_of_pos hdigit]
  exact List.cons_ne_nil _ _

theorem isInteger_minus (hnext : rest.head?.any isDigit) :
    IsInteger ('-'.toUInt8 :: rest.takeWhile isDigit) := by
  refine ⟨_, ?_, fun d hd => List.mem_takeWhile_imp hd, .inr rfl⟩
  cases rest with
  | nil => cases hnext
  | cons d rest =>
    rw [List.takeWhile_cons_of_pos (show isDigit d from hnext)]
    exact List.cons_ne_nil _ _

theorem isWordChar_of_start (hword : isAlpha c ∨ c = '_'.toUInt8) : isWordChar c := by
  rcases hword with h | rfl
  · rw [isWordChar, isAlnum, h]
    rfl
  · decide

theorem lexInteger_takes (pos : Nat) (hdigit : isDigit c) :
    Takes c rest (lexInteger pos [] (c :: rest)) := by
  have hnum : IsInteger ((c :: rest).takeWhile isDigit) := isInteger_digits hdigit
  rw [List.takeWhile_cons_of_pos hdigit] at hnum
  rw [lexInteger, List.nil_append, List.takeWhile_cons_of_pos hdigit,
    List.dropWhile_cons_of_pos hdigit]
  refine .integer (run_text isDigit) (.run (.integer hnum) fun t ht _ => ?_) hnum
  have hcont := continues_cons ht
  rwa [Continues, startOf_digit hdigit] at hcont

theorem lexInteger_takes_minus (pos : Nat) (hnext : rest.head?.any isDigit) :
    Takes '-'.toUInt8 rest (lexInteger pos ['-'.toUInt8] rest) := by
  have hnum := isInteger_minus hnext
  exact .integer (run_text isDigit) (.run (.integer hnum) fun t ht _ => (continues_cons ht).2) hnum

theorem lexWord_takes (pos : Nat) (hword : isAlpha c ∨ c = '_'.toUInt8) :
    Takes c rest (.ok (lexWord pos (c :: rest))) := by
  have hstart := startOf_word hword
  have hchar := isWordChar_of_start hword
  rw [lexWord, List.takeWhile_cons_of_pos hchar, List.dropWhile_cons_of_pos hchar]
  refine .token (run_text isWordChar)
    (.run (.word hword fun b hb => List.mem_takeWhile_imp hb) fun t ht _ => ?_)
    (not_outOfRange hstart (by decide))
  have hcont := continues_cons ht
  rwa [Continues, hstart] at hcont

/-- The character that a two-character operator needs is not there. -/
theorem not_twoCharOp? {e : UInt8} (htwo : twoCharOp? c rest.head? = none) (hfront : [e] <+: rest) :
    ¬ (twoCharOp? c (some e)).isSome := by
  obtain ⟨rem, rfl⟩ := hfront
  have hnone : twoCharOp? c (some e) = none := htwo
  rw [hnone]
  exact Bool.false_ne_true

/-- No lexeme starts where every branch of the loop is passed by. -/
theorem not_lexeme_prefix (hquote : c ≠ '"'.toUInt8) (htwo : twoCharOp? c rest.head? = none)
    (hone : singleOp? c = none) (hminus : ¬ (c = '-'.toUInt8 ∧ rest.head?.any isDigit))
    (hdigit : ¬ isDigit c) (hword : ¬ (isAlpha c ∨ c = '_'.toUInt8)) {l : Bytes}
    (hl : QueryLexeme l) : ¬ l <+: c :: rest := by
  intro hfront
  obtain ⟨t, rfl, ht, -, hcont⟩ := continues_of_prefix hl hfront
  unfold Continues startOf at hcont
  rw [if_neg hquote] at hcont
  by_cases hop : c ∈ ascii "!<>=:()"
  · rw [if_pos hop] at hcont
    rcases operators_split _ hcont with ⟨d, -, hd, -, hsome⟩ | ⟨d, -, e, -, hd, -, hsome⟩
    · obtain ⟨rfl, -⟩ := List.cons.inj hd
      rw [hone] at hsome
      cases hsome
    · obtain ⟨rfl, rfl⟩ := List.cons.inj hd
      exact not_twoCharOp? htwo ht hsome
  rw [if_neg hop] at hcont
  by_cases hsign : c = '-'.toUInt8
  · rw [if_pos hsign] at hcont
    obtain ⟨d, u, rfl⟩ := List.exists_cons_of_ne_nil hcont.1
    obtain ⟨rem, rfl⟩ := ht
    exact hminus ⟨hsign, hcont.2 d List.mem_cons_self⟩
  · rw [if_neg hsign, if_neg hdigit, if_neg hword] at hcont
    exact hcont

/-- **The lexer takes the longest lexeme** at the front of the text. -/
theorem nextToken_takes (pos : Nat) (c : UInt8) (rest : Bytes) :
    Takes c rest (nextToken pos c rest) := by
  have hbranch := nextToken_branch pos c rest
  generalize nextToken pos c rest = res at hbranch
  cases hbranch with
  | string hc =>
    rw [hc]
    exact lexString_takes pos rest
  | double hrest hk =>
    subst hrest
    exact .operator (twoCharOp?_some hk).2 rfl fun op' hop' _ => operators_length op' hop'
  | single htwo hk =>
    refine .operator (singleOp?_some (by rw [hk]; rfl)) rfl fun op' hop' hfront => ?_
    rcases operators_split op' hop' with ⟨d, -, rfl, -⟩ | ⟨d, -, e, -, rfl, -, hsome⟩
    · exact Nat.le_refl _
    · obtain ⟨rfl, hrest⟩ := List.cons_prefix_cons.mp hfront
      exact absurd hsome (not_twoCharOp? htwo hrest)
  | minus hc hnext =>
    rw [hc]
    exact lexInteger_takes_minus pos hnext
  | digits hc => exact lexInteger_takes pos hc
  | word hc => exact lexWord_takes pos hc
  | stuck hquote htwo hone hminus hdigit hword =>
    exact .stuck fun l hl => not_lexeme_prefix hquote htwo hone hminus hdigit hword hl

/-! ## The whole text -/

/-- How the lexer ends: in tokens up to the sentinel or in an error, unless the text reaches a literal
that does not fit. -/
inductive Lexes (text : Bytes) : Except QueryFault (List QueryToken) → Prop
  | tokens {tokens : List QueryToken} (hfits : ¬ queryLexicon.Reaches OutOfRange text)
      (hend : QueryParser.HasEnd tokens) : Lexes text (.ok tokens)
  | rejected {detail : String} (hfits : ¬ queryLexicon.Reaches OutOfRange text) :
      Lexes text (badValue detail)
  | outOfRange (hreaches : queryLexicon.Reaches OutOfRange text) : Lexes text (.error .outOfRange)

theorem Lexes.congr {text text' : Bytes} {res : Except QueryFault (List QueryToken)}
    (hiff : queryLexicon.Reaches OutOfRange text ↔ queryLexicon.Reaches OutOfRange text')
    (h : Lexes text' res) : Lexes text res := by
  cases h with
  | tokens hfits hend => exact .tokens (mt hiff.mp hfits) hend
  | rejected hfits => exact .rejected (mt hiff.mp hfits)
  | outOfRange hreaches => exact .outOfRange (hiff.mpr hreaches)

theorem Lexes.cons {text : Bytes} {res : Except QueryFault (List QueryToken)} (t : QueryToken)
    (h : Lexes text res) : Lexes text (res.map (t :: ·)) := by
  cases h with
  | tokens hfits hend =>
    obtain ⟨u, hu, hk⟩ := hend
    exact .tokens hfits ⟨u, List.mem_cons_of_mem t hu, hk⟩
  | rejected hfits => exact .rejected hfits
  | outOfRange hreaches => exact .outOfRange hreaches

/-- **Every way through the loop**, by induction on the fuel: a token shortens the unread text. -/
theorem tokenizeLoop_lexes (size : Nat) : ∀ {fuel : Nat} {text : Bytes}, text.length < fuel →
    Lexes text (tokenizeLoop size fuel text) := by
  intro fuel
  induction fuel with
  | zero => exact fun h => absurd h (Nat.not_lt_zero _)
  | succ fuel ih =>
    intro text hfuel
    refine Lexes.congr (queryLexicon.reaches_spaces text) ?_
    have hlen : (text.dropWhile isSpace).length ≤ text.length :=
      (List.dropWhile_suffix isSpace).length_le
    have hspace := List.head?_dropWhile_not isSpace text
    rw [tokenizeLoop]
    show Lexes (text.dropWhile isSpace) _
    cases hdrop : text.dropWhile isSpace with
    | nil => exact .tokens Lexicon.not_reaches_nil ⟨_, List.mem_singleton.mpr rfl, rfl⟩
    | cons c rest =>
      rw [hdrop] at hlen hspace
      dsimp only
      have htakes := nextToken_takes (size - (c :: rest).length) c rest
      generalize nextToken (size - (c :: rest).length) c rest = res at htakes
      cases htakes with
      | token htext hl hfits =>
        refine Lexes.congr ?_ ((ih ?_).cons _)
        · rw [htext, Lexicon.reaches_lexeme hl]
          exact or_iff_right hfits
        · obtain ⟨d, t, rfl, -⟩ := queryLexicon.starts hl.lexeme
          have hshort := congrArg List.length htext
          rw [List.length_append, List.length_cons (a := d)] at hshort
          omega
      | outOfRange htext hl hout =>
        rw [htext]
        exact .outOfRange (.here hl hout)
      | stuck hstuck => exact .rejected (Lexicon.not_reaches_stuck hspace hstuck)

theorem tokenize_lexes (text : Bytes) : Lexes text (tokenize text) :=
  tokenizeLoop_lexes _ (Nat.lt_succ_self _)

end QueryLexer

/-! ## Parsing -/

namespace QueryEngine

/-- Parsing ends in a tree with the children its nodes must have, or in an error `Status`. -/
def ParseEnds (text : Bytes) : Prop :=
  (∃ e, parse text = .ok e ∧ e.ExactArity) ∨ ∃ st, parse text = .error (.fault (.reject st))

/-- **Parsing is total** on the texts whose integer literals fit, as far as the lexer reaches them. -/
theorem parse_total_iff (text : Bytes) :
    ParseEnds text ↔ ¬ queryLexicon.Reaches OutOfRange text := by
  have hlexes := QueryLexer.tokenize_lexes text
  unfold ParseEnds parse
  generalize QueryLexer.tokenize text = res at hlexes
  cases hlexes with
  | @tokens tokens hfits hend =>
    refine iff_of_true ?_ hfits
    rcases QueryParser.parse_ends hend (Nat.le_refl _) with ⟨q, -, hq⟩ | ⟨detail, hdetail⟩
    · exact .inl ⟨q.toExpr, congrArg (Except.mapError QueryFault.fault) hq, q.exactArity_toExpr⟩
    · exact .inr ⟨⟨.badValue, detail⟩, congrArg (Except.mapError QueryFault.fault) hdetail⟩
  | rejected hfits => exact iff_of_true (.inr ⟨_, rfl⟩) hfits
  | outOfRange hreaches =>
    refine iff_of_false ?_ (not_not_intro hreaches)
    rintro (⟨e, he, -⟩ | ⟨st, hst⟩)
    · cases he
    · cases hst

/-- The least literal that does not fit. -/
theorem bigLiteral_throws : ¬ ∀ text, ParseEnds text := by
  intro h
  have hparse : parse (ascii "field:x=9223372036854775808") = .error .outOfRange := rfl
  rcases h (ascii "field:x=9223372036854775808") with ⟨e, he, -⟩ | ⟨st, hst⟩
  · rw [hparse] at he
    cases he
  · rw [hparse] at hst
    cases hst

end QueryEngine

end Stratavm
