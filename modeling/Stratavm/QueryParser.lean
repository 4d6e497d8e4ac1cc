import Stratavm.Lib.TokenParser
import Stratavm.Query

/-!
# The query parser

`QueryParser` (`query_parser.cpp`): recursive descent over the lexer's tokens, one function a rule of
the grammar. A rule reads the tokens through a cursor (`TokenParser`), so indexing past the last token
is the fault `badIndex` and not a default. The two loops over operands are one definition,
`chainLoop`, applied to the operator and the kind of node of each.

`parseOrExpr` to `parseAtomExpr` call one another, and a parenthesis starts over. The nesting and the
loops are bounded by fuel only; `Query/Grammar.lean` shows how much is enough for a token list, so
running out of it is no outcome of `parse`.

Out of scope: the call stack. The source has no bound on the nesting of a query, and a text with
enough parentheses exhausts the stack of the process; a run here always has as much as it needs.
-/

namespace Stratavm

open Lib

/-- A rule of `QueryParser`: `tokens_` and `cursor_` to a result. -/
abbrev QueryParser (α : Type) := TokenParser QueryToken Status α

namespace QueryParser

open TokenParser (peek consume outOfFuel)

/-- `return fail(Code::BadValue, detail)`. -/
def badValue {α : Type} (detail : String) : QueryParser α := TokenParser.fail ⟨.badValue, detail⟩

/-- `expect(k)`. -/
def expect (k : QueryTokenKind) : QueryParser Unit := do
  let t ← peek
  if t.kind ≠ k then
    badValue s!"expected token {k.ctorIdx} but got {t.kind.ctorIdx} at pos {t.pos}"
  else do
    let _ ← consume
    pure ()

/-- `':' ident`, with `what` the text of the error when no identifier follows. -/
def parseName (what : String) : QueryParser Bytes := do
  expect .colon
  let t ← peek
  if t.kind ≠ .ident then
    badValue s!"expected {what} at pos {t.pos}"
  else do
    let nameTok ← consume
    pure nameTok.stringVal

/-- The `switch` over the comparison operators. -/
def cmpOp? : QueryTokenKind → Option CmpOp
  | .eq => some .eq
  | .neq => some .neq
  | .lt => some .lt
  | .gt => some .gt
  | .le => some .le
  | .ge => some .ge
  | _ => none

/-- `cmp_op`. -/
def parseCmpOp : QueryParser CmpOp := do
  let t ← peek
  match cmpOp? t.kind with
  | none => badValue s!"expected comparison operator after field name at pos {t.pos}"
  | some op => do
    let _ ← consume
    pure op

/-- `value`, stored in the node that the field name and the operator have started. -/
def parseValue (node : QueryExpr) : QueryParser QueryExpr := do
  let t ← peek
  if t.kind = .string then do
    let valTok ← consume
    pure { node with atomVal := valTok.stringVal, useAtomVal := true }
  else if t.kind = .integer then do
    let valTok ← consume
    pure { node with intVal := valTok.intVal, useAtomVal := false }
  else
    badValue s!"expected string or integer value at pos {t.pos}"

/-- `':' ident cmp_op value`. -/
def parseFieldCmp : QueryParser QueryExpr := do
  let field ← parseName "field name after 'field:'"
  let op ← parseCmpOp
  parseValue { kind := .fieldCmp, atomName := field, cmpOp := op }

/-- The loop of `parse_or_expr` and of `parse_and_expr`: `(op operand)*`, each `operand` joined to
what precedes it by a node of kind `node`. -/
def chainLoop (op : QueryTokenKind) (node : QueryNodeKind) (operand : QueryParser QueryExpr) :
    Nat → QueryExpr → QueryParser QueryExpr
  | 0, _ => outOfFuel
  | fuel + 1, lhs => do
    let t ← peek
    if t.kind = op then do
      let _ ← consume
      let rhs ← operand
      chainLoop op node operand fuel { kind := node, children := [lhs, rhs] }
    else
      pure lhs

mutual

/-- `parse_or_expr`. -/
def parseOrExpr : Nat → QueryParser QueryExpr
  | 0 => outOfFuel
  | fuel + 1 => do
    let lhs ← parseAndExpr fuel
    chainLoop .or .or (parseAndExpr fuel) fuel lhs

/-- `parse_and_expr`. -/
def parseAndExpr : Nat → QueryParser QueryExpr
  | 0 => outOfFuel
  | fuel + 1 => do
    let lhs ← parseNotExpr fuel
    chainLoop .and .and (parseNotExpr fuel) fuel lhs

/-- `parse_not_expr`. -/
def parseNotExpr : Nat → QueryParser QueryExpr
  | 0 => outOfFuel
  | fuel + 1 => do
    let t ← peek
    if t.kind = .not then do
      let _ ← consume
      let inner ← parseNotExpr fuel
      pure { kind := .not, children := [inner] }
    else
      parseAtomExpr fuel

/-- `parse_atom_expr`. -/
def parseAtomExpr : Nat → QueryParser QueryExpr
  | 0 => outOfFuel
  | fuel + 1 => do
    let t ← peek
    match t.kind with
    | .lparen => do
      let _ ← consume
      let inner ← parseOrExpr fuel
      expect .rparen
      pure inner
    | .alive => do
      let _ ← consume
      pure { kind := .anyAlive }
    | .any => do
      let _ ← consume
      pure { kind := .anyAlive }
    | .kind => do
      let _ ← consume
      let name ← parseName "identifier after 'kind:'"
      pure { kind := .kindMatch, atomName := name }
    | .hasChild => do
      let _ ← consume
      let name ← parseName "identifier after 'has_child:'"
      pure { kind := .hasChild, atomName := name }
    | .hasRef => do
      let _ ← consume
      let name ← parseName "identifier after 'has_ref:'"
      pure { kind := .hasRef, atomName := name }
    | .field => do
      let _ ← consume
      parseFieldCmp
    | _ => badValue s!"unexpected token at pos {t.pos}"

end

/-- The body of `parse`: the expression, then `END`. -/
def parseTop (fuel : Nat) : QueryParser QueryExpr := do
  let res ← parseOrExpr fuel
  let t ← peek
  if t.kind ≠ .sentinel then
    badValue s!"unexpected token at pos {t.pos}"
  else
    pure res

/-- `QueryParser(tokens).parse()`. -/
def parse (fuel : Nat) (tokens : List QueryToken) : Except (TokenFault Status) QueryExpr :=
  (parseTop fuel tokens 0).map Prod.fst

end QueryParser

end Stratavm
