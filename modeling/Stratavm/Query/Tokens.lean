import Stratavm.Query.Lexing

/-!
# Tokens and how they are spelled

`Spells` says which lexemes a token has. A round of the loop takes a lexeme that spells its token
(`nextToken_spells`), and a lexeme that spells a token is taken for it wherever a space or nothing
follows (`nextToken_of_spells`). So

* **`tokenize_joined`**: lexemes with spaces between them are taken for the tokens they spell;
* **`spells_spelling`**: every well-formed token has a spelling, an `INTEGER` its decimal digits.

A keyword has many lexemes, since it is compared in upper case; its token keeps the text as it was
written. An identifier is a word that is no keyword, and a string has no quote in it, there being no
escape (`WellFormed`). `spellInt` is `std::to_string`, which `std::stoll` inverts on all 64-bit integers, the
least one included (`stoll_spellInt`).
-/

namespace Stratavm

open Lib

/-- Identifiers and keywords. -/
def QueryTokenKind.isWord : QueryTokenKind → Bool
  | .kind | .field | .hasChild | .hasRef | .alive | .any | .and | .or | .not | .ident => true
  | _ => false

/-- Kind and values of a token. -/
def QueryToken.content (t : QueryToken) : QueryTokenKind × Bytes × Int64 :=
  (t.kind, t.stringVal, t.intVal)

namespace QueryLexer

/-- The text of an identifier or keyword. -/
def IsWord (w : Bytes) : Prop :=
  ∃ c rest, w = c :: rest ∧ (isAlpha c ∨ c = '_'.toUInt8) ∧ ∀ b ∈ rest, isWordChar b

/-- The token of an identifier or keyword. -/
def wordToken (w : Bytes) (pos : Nat) : QueryToken :=
  { kind := classifyWord w, stringVal := if classifyWord w = .ident then w else [], pos }

/-- The lexeme `l` spells the token `t`, wherever that is. -/
inductive Spells : Bytes → QueryToken → Prop
  | string {body : Bytes} {pos : Nat} (hbody : ∀ b ∈ body, isStringChar b) :
      Spells ('"'.toUInt8 :: (body ++ ['"'.toUInt8])) { kind := .string, stringVal := body, pos }
  | double {c : UInt8} {k : QueryTokenKind} {pos : Nat}
      (hk : twoCharOp? c (some '='.toUInt8) = some k) : Spells [c, '='.toUInt8] { kind := k, pos }
  | single {c : UInt8} {k : QueryTokenKind} {pos : Nat} (hk : singleOp? c = some k) :
      Spells [c] { kind := k, pos }
  | integer {num : Bytes} {v : Int64} {pos : Nat} (hnum : IsInteger num) (hv : stoll num = some v) :
      Spells num { kind := .integer, intVal := v, pos }
  | word {w : Bytes} {pos : Nat} (hw : IsWord w) : Spells w (wordToken w pos)

/-- What follows a token of kind `k` does not continue it. -/
structure Ends (k : QueryTokenKind) (rest : Bytes) : Prop where
  word : k.isWord → Stops isWordChar rest
  integer : k = .integer → Stops isDigit rest

section Tokens

variable {c : UInt8} {l rest rem : Bytes} {t : QueryToken} {k : QueryTokenKind} {pos : Nat}

/-! ## The branches of the loop -/

theorem twoCharOp?_eq_none (hc : startOf c ≠ .operator) (next : Option UInt8) :
    twoCharOp? c next = none := by
  by_contra hne
  obtain ⟨k, hk⟩ := Option.ne_none_iff_exists'.mp hne
  exact hc (startOf_operator (twoCharOp?_some hk).2)

theorem singleOp?_eq_none (hc : startOf c ≠ .operator) : singleOp? c = none := by
  by_contra hne
  exact hc (startOf_operator (singleOp?_some (Option.isSome_iff_ne_none.mpr hne)))

theorem nextToken_double (hk : twoCharOp? c (some '='.toUInt8) = some k) :
    nextToken pos c ('='.toUInt8 :: rest) = .ok ({ kind := k, pos }, rest) := by
  have hc : c ≠ '"'.toUInt8 := by
    rintro rfl
    cases hk
  rw [nextToken, if_neg hc, List.head?_cons, hk]
  rfl

theorem nextToken_single (hk : singleOp? c = some k) (htwo : twoCharOp? c rest.head? = none) :
    nextToken pos c rest = .ok ({ kind := k, pos }, rest) := by
  have hc : c ≠ '"'.toUInt8 := by
    rintro rfl
    cases hk
  rw [nextToken, if_neg hc, htwo, hk]

theorem nextToken_minus (hrest : rest.head?.any isDigit) :
    nextToken pos '-'.toUInt8 rest = lexInteger pos ['-'.toUInt8] rest := by
  rw [nextToken, if_neg (by decide), twoCharOp?_eq_none (by decide), singleOp?_eq_none (by decide),
    if_pos ⟨rfl, hrest⟩]

theorem nextToken_digit (hc : isDigit c) :
    nextToken pos c rest = lexInteger pos [] (c :: rest) := by
  have hstart := startOf_digit hc
  have hquote : c ≠ '"'.toUInt8 := by
    rintro rfl
    cases hc
  have hminus : ¬ (c = '-'.toUInt8 ∧ rest.head?.any isDigit) := by
    rintro ⟨rfl, -⟩
    cases hc
  rw [nextToken, if_neg hquote, twoCharOp?_eq_none (by rw [hstart]; decide),
    singleOp?_eq_none (by rw [hstart]; decide), if_neg hminus, if_pos hc]

theorem nextToken_word (hc : isAlpha c ∨ c = '_'.toUInt8) :
    nextToken pos c rest = .ok (lexWord pos (c :: rest)) := by
  have hstart := startOf_word hc
  have hquote : c ≠ '"'.toUInt8 := by
    rintro rfl
    cases hstart
  have hminus : ¬ (c = '-'.toUInt8 ∧ rest.head?.any isDigit) := by
    rintro ⟨rfl, -⟩
    cases hstart
  have hdigit : ¬ isDigit c := fun h => by
    rw [startOf_digit h] at hstart
    cases hstart
  rw [nextToken, if_neg hquote, twoCharOp?_eq_none (by rw [hstart]; decide),
    singleOp?_eq_none (by rw [hstart]; decide), if_neg hminus, if_neg hdigit, if_pos hc]

/-! ## What a round takes -/

theorem isWord_ite {p : Prop} [Decidable p] {a b : QueryTokenKind} (ha : a.isWord) (hb : b.isWord) :
    (if p then a else b).isWord := by
  split
  · exact ha
  · exact hb

theorem isWord_classifyWord (w : Bytes) : (classifyWord w).isWord := by
  have hupper : ∀ u : Bytes, (if u = ascii "AND" then QueryTokenKind.and
      else if u = ascii "OR" then .or else if u = ascii "NOT" then .not else .ident).isWord :=
    fun _ => isWord_ite rfl (isWord_ite rfl (isWord_ite rfl rfl))
  exact isWord_ite rfl (isWord_ite rfl (isWord_ite rfl (isWord_ite rfl (isWord_ite rfl
    (isWord_ite rfl (hupper (w.map toUpper)))))))

theorem kind_of_twoCharOp? {next : Option UInt8} (hk : twoCharOp? c next = some k) :
    k.isWord = false ∧ k ≠ .integer := by
  obtain rfl := (twoCharOp?_some hk).1
  have hall : ∀ c, (twoCharOp? c (some '='.toUInt8)).all
      fun k => decide (k.isWord = false ∧ k ≠ .integer) := forall_byte (by decide +kernel)
  have hc := hall c
  rw [hk] at hc
  exact of_decide_eq_true hc

theorem kind_of_singleOp? (hk : singleOp? c = some k) : k.isWord = false ∧ k ≠ .integer := by
  have hall : ∀ c, (singleOp? c).all fun k => decide (k.isWord = false ∧ k ≠ .integer) :=
    forall_byte (by decide +kernel)
  have hc := hall c
  rw [hk] at hc
  exact of_decide_eq_true hc

theorem ends_other (hk : k.isWord = false ∧ k ≠ .integer) (rem : Bytes) : Ends k rem where
  word := by
    rw [hk.1]
    exact nofun
  integer h := absurd h hk.2

theorem lexString_spells (h : lexString pos rest = .ok (t, rem)) :
    ∃ l, '"'.toUInt8 :: rest = l ++ rem ∧ Spells l t ∧ t.pos = pos ∧ Ends t.kind rem := by
  have hsplit := List.takeWhile_append_dropWhile (p := isStringChar) (l := rest)
  have hhead := stops_dropWhile isStringChar rest
  unfold lexString at h
  cases hdrop : rest.dropWhile isStringChar with
  | nil =>
    rw [hdrop] at h
    cases h
  | cons q after =>
    rw [hdrop] at h hsplit hhead
    have hq : q = '"'.toUInt8 := by
      have hstop := hhead q rfl
      rwa [isStringChar, bne_eq_false_iff_eq] at hstop
    subst hq
    cases h
    have hkind : QueryTokenKind.string.isWord = false ∧ QueryTokenKind.string ≠ .integer := by decide
    refine ⟨_, ?_, .string fun b hb => List.mem_takeWhile_imp hb, rfl, ends_other hkind _⟩
    rw [List.cons_append, List.append_assoc]
    exact congrArg _ hsplit.symm

theorem lexInteger_spells {sign text : Bytes} (hnum : IsInteger (sign ++ text.takeWhile isDigit))
    (h : lexInteger pos sign text = .ok (t, rem)) :
    ∃ l, sign ++ text = l ++ rem ∧ Spells l t ∧ t.pos = pos ∧ Ends t.kind rem := by
  unfold lexInteger at h
  cases hv : stoll (sign ++ text.takeWhile isDigit) with
  | none =>
    rw [hv] at h
    cases h
  | some v =>
    rw [hv] at h
    cases h
    refine ⟨_, ?_, .integer hnum hv, rfl, nofun, fun _ => stops_dropWhile isDigit text⟩
    rw [List.append_assoc, List.takeWhile_append_dropWhile]

theorem lexWord_spells (hc : isAlpha c ∨ c = '_'.toUInt8) :
    ∃ l, c :: rest = l ++ (lexWord pos (c :: rest)).2 ∧ Spells l (lexWord pos (c :: rest)).1 ∧
      (lexWord pos (c :: rest)).1.pos = pos ∧
      Ends (lexWord pos (c :: rest)).1.kind (lexWord pos (c :: rest)).2 := by
  have hword : IsWord ((c :: rest).takeWhile isWordChar) := by
    rw [List.takeWhile_cons_of_pos (isWordChar_of_start hc)]
    exact ⟨c, _, rfl, hc, fun b hb => List.mem_takeWhile_imp hb⟩
  refine ⟨_, List.takeWhile_append_dropWhile.symm, .word hword, rfl, fun _ => ?_, fun hk => ?_⟩
  · exact stops_dropWhile isWordChar _
  · have hkind := isWord_classifyWord ((c :: rest).takeWhile isWordChar)
    rw [show classifyWord ((c :: rest).takeWhile isWordChar) = .integer from hk] at hkind
    cases hkind

/-- **What a round of the loop takes**: a lexeme that spells the token, and that ends there. -/
theorem nextToken_spells (h : nextToken pos c rest = .ok (t, rem)) :
    ∃ l, c :: rest = l ++ rem ∧ Spells l t ∧ t.pos = pos ∧ Ends t.kind rem := by
  have hbranch := nextToken_branch pos c rest
  rw [h] at hbranch
  generalize hres : Except.ok (t, rem) = res at hbranch
  cases hbranch with
  | string hc =>
    rw [hc]
    exact lexString_spells hres.symm
  | double hrest hk =>
    cases hres
    exact ⟨_, congrArg _ hrest, .double hk, rfl, ends_other (kind_of_twoCharOp? hk) _⟩
  | single _ hk =>
    cases hres
    exact ⟨_, rfl, .single hk, rfl, ends_other (kind_of_singleOp? hk) _⟩
  | minus hc hnext =>
    rw [hc]
    exact lexInteger_spells (isInteger_minus hnext) hres.symm
  | digits hc => exact lexInteger_spells (isInteger_digits hc) hres.symm
  | word hc =>
    cases hres
    exact lexWord_spells hc
  | stuck => cases hres

/-! ## What a lexeme is taken for -/

theorem stops_of_space {p : UInt8 → Bool} (hp : ∀ b, isSpace b → p b = false)
    (hrem : Stops (fun b => !isSpace b) rem) : Stops p rem :=
  hrem.mono fun b hb => hp b (by rwa [Bool.not_eq_false'] at hb)

theorem not_isWordChar_of_space : ∀ b, isSpace b → isWordChar b = false :=
  forall_byte (by decide +kernel)

theorem not_isDigit_of_space : ∀ b, isSpace b → isDigit b = false := forall_byte (by decide +kernel)

theorem lexString_of_body {body : Bytes} (hbody : ∀ b ∈ body, isStringChar b) (rem : Bytes) :
    lexString pos (body ++ '"'.toUInt8 :: rem) =
      .ok ({ kind := .string, stringVal := body, pos }, rem) := by
  have hstop : Stops isStringChar ('"'.toUInt8 :: rem) := by
    intro b hb
    cases hb
    rfl
  rw [lexString, dropWhile_run hbody hstop, takeWhile_run hbody hstop]

theorem lexInteger_of_digits {sign digits : Bytes} {v : Int64} (hdigits : ∀ d ∈ digits, isDigit d)
    (hv : stoll (sign ++ digits) = some v) (hrem : Stops isDigit rem) :
    lexInteger pos sign (digits ++ rem) = .ok ({ kind := .integer, intVal := v, pos }, rem) := by
  rw [lexInteger, takeWhile_run hdigits hrem, dropWhile_run hdigits hrem, hv]

theorem not_isWordChar_of_singleOp? : ∀ {c : UInt8}, (singleOp? c).isSome → isWordChar c = false :=
  @(forall_byte (by decide +kernel))

theorem IsWord.all {w : Bytes} (h : IsWord w) : ∀ b ∈ w, isWordChar b := by
  obtain ⟨c, rest, rfl, hc, hrest⟩ := h
  exact List.forall_mem_cons.mpr ⟨isWordChar_of_start hc, hrest⟩

/-- **A lexeme is taken for the token it spells**, where a space or nothing follows. -/
theorem nextToken_of_spells (h : Spells (c :: rest) t) (hrem : Stops (fun b => !isSpace b) rem) :
    nextToken pos c (rest ++ rem) = .ok ({ t with pos }, rem) := by
  generalize hl : c :: rest = l at h
  cases h with
  | @string body _ hbody =>
    obtain ⟨rfl, rfl⟩ := List.cons.inj hl
    rw [nextToken, if_pos rfl, List.append_assoc]
    exact lexString_of_body hbody rem
  | double hk =>
    obtain ⟨rfl, rfl⟩ := List.cons.inj hl
    exact nextToken_double hk
  | single hk =>
    obtain ⟨rfl, rfl⟩ := List.cons.inj hl
    refine nextToken_single hk ?_
    by_contra hne
    obtain ⟨k', hk'⟩ := Option.ne_none_iff_exists'.mp hne
    exact absurd (hrem _ (twoCharOp?_some hk').1) (by decide)
  | @integer _ v _ hnum hv =>
    have hdigit := stops_of_space not_isDigit_of_space hrem
    subst hl
    obtain ⟨digits, hne, hdigits, hl | hl⟩ := hnum
    · subst hl
      rw [nextToken_digit (hdigits c List.mem_cons_self)]
      exact lexInteger_of_digits hdigits hv hdigit
    · obtain ⟨rfl, rfl⟩ := List.cons.inj hl
      obtain ⟨d, ds, rfl⟩ := List.exists_cons_of_ne_nil hne
      rw [nextToken_minus (show (d :: ds ++ rem).head?.any isDigit from hdigits d List.mem_cons_self)]
      exact lexInteger_of_digits hdigits hv hdigit
  | word hw =>
    subst hl
    have hword := stops_of_space not_isWordChar_of_space hrem
    have hc : isAlpha c ∨ c = '_'.toUInt8 := by
      obtain ⟨d, u, hd, hc, -⟩ := hw
      rwa [(List.cons.inj hd).1]
    rw [nextToken_word hc, lexWord, ← List.cons_append, takeWhile_run hw.all hword,
      dropWhile_run hw.all hword]
    rfl

end Tokens

/-! ## Texts of lexemes with spaces between them -/

/-- The texts, with single spaces between them. -/
def joined (ls : List Bytes) : Bytes := List.intercalate [' '.toUInt8] ls

/-- The texts, with a space before each of them. -/
def spaced (ls : List Bytes) : Bytes := ls.flatMap (' '.toUInt8 :: ·)

variable {l : Bytes} {t : QueryToken} {ls : List Bytes} {ts : List QueryToken}

theorem cons_joined (l : Bytes) (ls : List Bytes) :
    ' '.toUInt8 :: joined (l :: ls) = spaced (l :: ls) := by
  induction ls generalizing l with
  | nil => simp [joined, spaced]
  | cons l' ls ih =>
    rw [joined, List.intercalate_cons_cons, List.append_assoc, spaced, List.flatMap_cons]
    exact congrArg (' '.toUInt8 :: l ++ ·) (ih l')

theorem stops_spaced (ls : List Bytes) : Stops (fun b => !isSpace b) (spaced ls) := by
  cases ls with
  | nil => exact nofun
  | cons l ls =>
    intro b hb
    cases hb
    rfl

theorem Spells.lexeme (h : Spells l t) : QueryLexeme l := by
  cases h with
  | string hbody => exact .string hbody
  | double hk => exact .operator (twoCharOp?_some hk).2
  | single hk => exact .operator (singleOp?_some (hk ▸ rfl))
  | integer hnum _ => exact .integer hnum
  | word hw =>
    obtain ⟨c, rest, rfl, hc, hrest⟩ := hw
    exact .word hc hrest

theorem tokenizeLoop_space (size fuel : Nat) (text : Bytes) :
    tokenizeLoop size fuel (' '.toUInt8 :: text) = tokenizeLoop size fuel text := by
  cases fuel with
  | zero => rfl
  | succ fuel => rw [tokenizeLoop, tokenizeLoop, List.dropWhile_cons_of_pos rfl]

theorem tokenizeLoop_spaced (size : Nat) (h : List.Forall₂ Spells ls ts) :
    ∀ {fuel : Nat}, ls.length < fuel → ∃ out, tokenizeLoop size fuel (spaced ls) = .ok out ∧
      out.map QueryToken.content = ts.map QueryToken.content ++ [QueryToken.content {}] := by
  induction h with
  | nil =>
    intro fuel hfuel
    obtain ⟨fuel, rfl⟩ : ∃ n, fuel = n + 1 := Nat.exists_eq_add_one.mpr hfuel
    exact ⟨_, rfl, rfl⟩
  | @cons l t ls ts hl _ ih =>
    intro fuel hfuel
    obtain ⟨fuel, rfl⟩ : ∃ n, fuel = n + 1 := Nat.exists_eq_add_one.mpr (Nat.zero_lt_of_lt hfuel)
    obtain ⟨out, hout, hcontent⟩ := ih (Nat.lt_of_succ_lt_succ hfuel)
    obtain ⟨c, rest, rfl, hc⟩ := queryLexicon.starts hl.lexeme
    have hstart : ¬ isSpace c := Bool.eq_false_iff.mp hc
    refine ⟨{ t with pos := size - (c :: (rest ++ spaced ls)).length } :: out, ?_, ?_⟩
    · rw [spaced, List.flatMap_cons, List.cons_append, tokenizeLoop_space]
      change tokenizeLoop size (fuel + 1) (c :: (rest ++ spaced ls)) = _
      rw [tokenizeLoop, List.dropWhile_cons_of_neg hstart]
      dsimp only
      rw [nextToken_of_spells hl (stops_spaced ls)]
      dsimp only
      rw [hout]
      rfl
    · rw [List.map_cons, hcontent]
      rfl

theorem length_le_length_joined (h : List.Forall₂ Spells ls ts) : ls.length ≤ (joined ls).length := by
  induction h with
  | nil => exact Nat.zero_le _
  | @cons l t ls ts hl _ ih =>
    obtain ⟨c, rest, rfl, -⟩ := queryLexicon.starts hl.lexeme
    cases ls with
    | nil => simp [joined]
    | cons l' ls =>
      rw [joined, List.intercalate_cons_cons]
      simp only [List.length_append, List.length_cons] at ih ⊢
      change ls.length + 1 ≤ (joined (l' :: ls)).length at ih
      change ls.length + 1 + 1 ≤ _ + (joined (l' :: ls)).length
      omega

/-- **Lexemes with spaces between them** are taken for the tokens they spell. -/
theorem tokenize_joined (h : List.Forall₂ Spells ls ts) :
    ∃ out, tokenize (joined ls) = .ok out ∧
      out.map QueryToken.content = ts.map QueryToken.content ++ [QueryToken.content {}] := by
  have hfuel := Nat.lt_succ_of_le (length_le_length_joined h)
  cases ls with
  | nil =>
    cases h
    exact ⟨_, rfl, rfl⟩
  | cons l ls =>
    rw [tokenize, ← tokenizeLoop_space, cons_joined]
    exact tokenizeLoop_spaced _ h hfuel

/-! ## Spelling tokens -/

/-- The decimal digits of a number. -/
def decimalDigits (n : Nat) : Bytes := (Nat.toDigits 10 n).map Char.toUInt8

/-- `std::to_string` of an integer. -/
def spellInt (v : Int) : Bytes :=
  if v < 0 then '-'.toUInt8 :: decimalDigits v.natAbs else decimalDigits v.natAbs

/-- How a token is written: a keyword or an operator as it is, a string in quotes, an integer in
decimal. -/
def spelling (t : QueryToken) : Bytes :=
  match t.kind with
  | .kind => ascii "kind"
  | .field => ascii "field"
  | .hasChild => ascii "has_child"
  | .hasRef => ascii "has_ref"
  | .alive => ascii "alive"
  | .any => ascii "any"
  | .and => ascii "AND"
  | .or => ascii "OR"
  | .not => ascii "NOT"
  | .lparen => ascii "("
  | .rparen => ascii ")"
  | .eq => ascii "="
  | .neq => ascii "!="
  | .lt => ascii "<"
  | .gt => ascii ">"
  | .le => ascii "<="
  | .ge => ascii ">="
  | .colon => ascii ":"
  | .string => '"'.toUInt8 :: (t.stringVal ++ ['"'.toUInt8])
  | .integer => spellInt t.intVal.toInt
  | .ident => t.stringVal
  | .sentinel => []

/-- A token that there is a spelling of: an identifier is not a keyword and a string has no quotes, and
other values are those of a fresh `QueryToken`. -/
def WellFormed (t : QueryToken) : Prop :=
  match t.kind with
  | .sentinel => False
  | .string => (∀ b ∈ t.stringVal, isStringChar b) ∧ t.intVal = 0
  | .ident => IsWord t.stringVal ∧ classifyWord t.stringVal = .ident ∧ t.intVal = 0
  | .integer => t.stringVal = []
  | _ => t.stringVal = [] ∧ t.intVal = 0

section Spelling

variable {k : QueryTokenKind} {pos : Nat} {w : Bytes}

theorem toNat_toUInt8 {c : Char} (hc : c.isDigit) : c.toUInt8.toNat = c.toNat := by
  have hle : c.toNat ≤ '9'.toNat := (Char.isDigit_iff_toNat.mp hc).2
  exact (UInt32.toNat_toUInt8 c.val).trans (Nat.mod_eq_of_lt (Nat.lt_of_le_of_lt hle (by decide)))

theorem isDigit_toUInt8 {c : Char} (hc : c.isDigit) : isDigit c.toUInt8 := by
  obtain ⟨hge, hle⟩ := Char.isDigit_iff_toNat.mp hc
  rw [isDigit, Bool.and_eq_true, decide_eq_true_eq, decide_eq_true_eq, UInt8.le_iff_toNat_le,
    UInt8.le_iff_toNat_le, toNat_toUInt8 hc]
  exact ⟨hge, hle⟩

theorem isDigit_decimalDigits (n : Nat) : ∀ d ∈ decimalDigits n, isDigit d := by
  intro d hd
  obtain ⟨c, hc, rfl⟩ := List.mem_map.mp hd
  exact isDigit_toUInt8 (Nat.isDigit_of_mem_toDigits (by decide) (by decide) hc)

theorem decimalDigits_ne_nil (n : Nat) : decimalDigits n ≠ [] :=
  List.map_eq_nil_iff.not.mpr Nat.toDigits_ne_nil

theorem foldl_toUInt8 {cs : List Char} (hcs : ∀ c ∈ cs, c.isDigit) (init : Nat) :
    (cs.map Char.toUInt8).foldl (fun n d => 10 * n + (d.toNat - '0'.toNat)) init =
      Nat.ofDigitChars 10 cs init := by
  induction cs generalizing init with
  | nil => rfl
  | cons c cs ih =>
    obtain ⟨hc, hcs⟩ := List.forall_mem_cons.mp hcs
    rw [List.map_cons, List.foldl_cons, toNat_toUInt8 hc, ih hcs, Nat.ofDigitChars_cons]

theorem decimal_decimalDigits (n : Nat) : decimal (decimalDigits n) = n :=
  (foldl_toUInt8 (fun _ hc => Nat.isDigit_of_mem_toDigits (by decide) (by decide) hc) 0).trans
    Nat.ofDigitChars_ten_toDigits

theorem isInteger_spellInt (v : Int) : IsInteger (spellInt v) := by
  refine ⟨decimalDigits v.natAbs, decimalDigits_ne_nil _, isDigit_decimalDigits _, ?_⟩
  unfold spellInt
  split
  · exact .inr rfl
  · exact .inl rfl

theorem literalValue_spellInt (v : Int) : literalValue (spellInt v) = v := by
  unfold spellInt literalValue
  split
  · rw [List.head?_cons, if_pos rfl, List.tail_cons, decimal_decimalDigits]
    omega
  · have hdigit : (decimalDigits v.natAbs).head? ≠ some '-'.toUInt8 := fun hhead =>
      absurd (isDigit_decimalDigits _ _ (List.mem_of_head? hhead)) (by decide)
    rw [if_neg hdigit, decimal_decimalDigits]
    omega

theorem stoll_spellInt (v : Int64) : stoll (spellInt v.toInt) = some v := by
  rw [stoll, literalValue_spellInt, if_pos ⟨v.minValue_le_toInt, v.toInt_le⟩, Int64.ofInt_toInt]

theorem spells_keyword (hfirst : w.head?.any isAlpha) (hall : w.all isWordChar)
    (hk : classifyWord w = k) (hident : k ≠ .ident) : Spells w { kind := k, pos } := by
  have hw : IsWord w := by
    obtain ⟨c, hc, halpha⟩ := (Option.any_eq_true ..).mp hfirst
    obtain ⟨rest, rfl⟩ := List.head?_eq_some_iff.mp hc
    exact ⟨c, rest, rfl, .inl halpha,
      fun b hb => List.all_eq_true.mp hall b (List.mem_cons_of_mem c hb)⟩
  subst hk
  have h : Spells w (wordToken w pos) := .word hw
  rwa [wordToken, if_neg hident] at h

/-- **Every well-formed token has a spelling.** -/
theorem spells_spelling {t : QueryToken} (h : WellFormed t) : Spells (spelling t) t := by
  obtain ⟨k, s, v, pos⟩ := t
  cases k with
  | kind | field | hasChild | hasRef | alive | any | and | or | not =>
    obtain ⟨rfl, rfl⟩ := h
    exact spells_keyword rfl rfl rfl nofun
  | lparen | rparen | eq | lt | gt | colon =>
    obtain ⟨rfl, rfl⟩ := h
    exact .single rfl
  | neq | le | ge =>
    obtain ⟨rfl, rfl⟩ := h
    exact .double rfl
  | string =>
    obtain ⟨hs, rfl⟩ := h
    exact .string hs
  | integer =>
    obtain rfl := h
    exact .integer (isInteger_spellInt _) (stoll_spellInt v)
  | ident =>
    obtain ⟨hw, hident, rfl⟩ := h
    have hspells : Spells s (wordToken s pos) := .word hw
    rwa [wordToken, hident, if_pos rfl] at hspells
  | sentinel => exact absurd h id

end Spelling

end QueryLexer

end Stratavm
