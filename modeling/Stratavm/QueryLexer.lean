import Stratavm.QueryParser

/-!
# The query lexer

`QueryLexer` and `QueryEngine::parse` (`query_parser.cpp`). The unread text stands for `pos_`, which is
the size of the source less its length. The loop of `tokenize` is `tokenizeLoop`, and its body, from the
first character of a token on, `nextToken`; every token takes a character, so the fuel lasts.

`std::stoll` throws `std::out_of_range` where the digits do not fit a `long long`, and nothing between it
and the caller of `parse` catches that: it is the fault `outOfRange`, apart from the errors that the lexer
returns.

Out of scope: locales. `isspace`, `isalpha` and `toupper` are those of the "C" locale, which a program has
that never calls `setlocale`.
-/

namespace Stratavm

open Lib

/-- How parsing ends without a tree: with a fault of lexer or parser, or with the exception of
`std::stoll`. -/
inductive QueryFault where
  | fault (e : TokenFault Status)
  | outOfRange
  deriving DecidableEq, Repr

/-- The bytes of an ASCII literal. -/
def ascii (s : String) : Bytes := s.toList.map Char.toUInt8

/-! ## Characters, in the "C" locale -/

/-- `std::isspace`. -/
def isSpace (c : UInt8) : Bool := c == ' '.toUInt8 || (0x09 ≤ c && c ≤ 0x0D)

/-- `std::isdigit`. -/
def isDigit (c : UInt8) : Bool := '0'.toUInt8 ≤ c && c ≤ '9'.toUInt8

/-- `std::isalpha`. -/
def isAlpha (c : UInt8) : Bool :=
  ('a'.toUInt8 ≤ c && c ≤ 'z'.toUInt8) || ('A'.toUInt8 ≤ c && c ≤ 'Z'.toUInt8)

/-- `std::isalnum`. -/
def isAlnum (c : UInt8) : Bool := isAlpha c || isDigit c

/-- `std::toupper`. -/
def toUpper (c : UInt8) : UInt8 := if 'a'.toUInt8 ≤ c ∧ c ≤ 'z'.toUInt8 then c - 0x20 else c

/-- The number that digits stand for. -/
def decimal (digits : Bytes) : Nat :=
  digits.foldl (fun n d => 10 * n + (d.toNat - '0'.toNat)) 0

/-- The number that an integer literal stands for: digits, perhaps after a minus. -/
def literalValue (num : Bytes) : Int :=
  if num.head? = some '-'.toUInt8 then -decimal num.tail else decimal num

/-- `std::stoll` of an integer literal; `none` is the `out_of_range` it throws. -/
def stoll (num : Bytes) : Option Int64 :=
  if Int64.minValue.toInt ≤ literalValue num ∧ literalValue num ≤ Int64.maxValue.toInt then
    some (Int64.ofInt (literalValue num))
  else none

namespace QueryLexer

/-- `return fail(Code::BadValue, detail)`. -/
def badValue {α : Type} (detail : String) : Except QueryFault α :=
  .error (.fault (.reject ⟨.badValue, detail⟩))

/-- `classify_word`. -/
def classifyWord (w : Bytes) : QueryTokenKind :=
  if w = ascii "kind" then .kind
  else if w = ascii "field" then .field
  else if w = ascii "has_child" then .hasChild
  else if w = ascii "has_ref" then .hasRef
  else if w = ascii "alive" then .alive
  else if w = ascii "any" then .any
  else
    let upper := w.map toUpper
    if upper = ascii "AND" then .and
    else if upper = ascii "OR" then .or
    else if upper = ascii "NOT" then .not
    else .ident

/-- The two-character operator that `c` starts. -/
def twoCharOp? (c : UInt8) (next : Option UInt8) : Option QueryTokenKind :=
  if c = '!'.toUInt8 ∧ next = some '='.toUInt8 then some .neq
  else if c = '<'.toUInt8 ∧ next = some '='.toUInt8 then some .le
  else if c = '>'.toUInt8 ∧ next = some '='.toUInt8 then some .ge
  else none

/-- The kind that `push_single` is called with. -/
def singleOp? (c : UInt8) : Option QueryTokenKind :=
  if c = '='.toUInt8 then some .eq
  else if c = '<'.toUInt8 then some .lt
  else if c = '>'.toUInt8 then some .gt
  else if c = ':'.toUInt8 then some .colon
  else if c = '('.toUInt8 then some .lparen
  else if c = ')'.toUInt8 then some .rparen
  else none

/-- A character of a string literal. -/
def isStringChar (c : UInt8) : Bool := c != '"'.toUInt8

/-- A character of an identifier or keyword, after the first. -/
def isWordChar (c : UInt8) : Bool := isAlnum c || c == '_'.toUInt8

/-- A string literal, after its opening quote. -/
def lexString (pos : Nat) (rest : Bytes) : Except QueryFault (QueryToken × Bytes) :=
  match rest.dropWhile isStringChar with
  | [] => badValue s!"unterminated string literal at pos {pos}"
  | _ :: rem => .ok ({ kind := .string, stringVal := rest.takeWhile isStringChar, pos }, rem)

/-- An integer: what has been read of it, and the text that its digits are at the front of. -/
def lexInteger (pos : Nat) (sign text : Bytes) : Except QueryFault (QueryToken × Bytes) :=
  match stoll (sign ++ text.takeWhile isDigit) with
  | none => .error .outOfRange
  | some v => .ok ({ kind := .integer, intVal := v, pos }, text.dropWhile isDigit)

/-- An identifier or keyword. -/
def lexWord (pos : Nat) (text : Bytes) : QueryToken × Bytes :=
  let word := text.takeWhile isWordChar
  let k := classifyWord word
  ({ kind := k, stringVal := if k = .ident then word else [], pos }, text.dropWhile isWordChar)

/-- The body of the loop of `tokenize` at the character `c`: a token, and the text after it. -/
def nextToken (pos : Nat) (c : UInt8) (rest : Bytes) : Except QueryFault (QueryToken × Bytes) :=
  if c = '"'.toUInt8 then lexString pos rest
  else
    match twoCharOp? c rest.head? with
    | some k => .ok ({ kind := k, pos }, rest.tail)
    | none =>
      match singleOp? c with
      | some k => .ok ({ kind := k, pos }, rest)
      | none =>
        if c = '-'.toUInt8 ∧ rest.head?.any isDigit then lexInteger pos [c] rest
        else if isDigit c then lexInteger pos [] (c :: rest)
        else if isAlpha c ∨ c = '_'.toUInt8 then .ok (lexWord pos (c :: rest))
        else badValue s!"unexpected character '{Char.ofNat c.toNat}' at pos {pos}"

/-- The loop of `tokenize` on the unread text; `size` is that of the source. -/
def tokenizeLoop (size : Nat) : Nat → Bytes → Except QueryFault (List QueryToken)
  | 0, _ => .error (.fault .outOfFuel)
  | fuel + 1, text =>
    match text.dropWhile isSpace with
    | [] => .ok [{ kind := .sentinel, pos := size }]
    | c :: rest =>
      match nextToken (size - (c :: rest).length) c rest with
      | .error e => .error e
      | .ok (t, rem) => (tokenizeLoop size fuel rem).map (t :: ·)

/-- `QueryLexer::tokenize`. Every token takes a character, so the fuel lasts (`tokenize_lexes`). -/
def tokenize (src : Bytes) : Except QueryFault (List QueryToken) :=
  tokenizeLoop src.length (src.length + 1) src

end QueryLexer

/-- `QueryEngine::parse`, with the fuel that the parser needs (`parse_ends`). -/
def QueryEngine.parse (queryText : Bytes) : Except QueryFault QueryExpr :=
  match QueryLexer.tokenize queryText with
  | .error e => .error e
  | .ok tokens => (QueryParser.parse (4 * tokens.length + 4) tokens).mapError .fault

end Stratavm
