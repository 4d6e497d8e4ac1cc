import Mathlib.Data.List.Basic

/-!
# Parsers over a token list with a cursor

A `TokenParser` reads a fixed token list through a cursor. `consume` moves the cursor only while a
token follows, so the last token, the sentinel, is never passed; reading where no token is, the
fault `badIndex`, can only happen on an empty list. A parser that recurses without a measure takes
fuel and stops with `outOfFuel`.

`InRange p` says that `p` keeps the cursor on a token. `Ends p rem Q E` is the rule of pre- and postconditions: wherever the unread tokens are `rem`, `p`
ends in a value and unread tokens that satisfy `Q`, or in a fault that satisfies `E`. The rules
below follow the parser's text, and no proof that uses them mentions the cursor.
-/

namespace Stratavm.Lib

/-- Why a token parser stops without a value. -/
inductive TokenFault (ε : Type) where
  | reject (e : ε)
  /-- No token is under the cursor. -/
  | badIndex
  | outOfFuel
  deriving DecidableEq, Repr

/-- A parser: the tokens and the cursor, to a value and the cursor after it. -/
def TokenParser (τ ε α : Type) := List τ → Nat → Except (TokenFault ε) (α × Nat)

namespace TokenParser

variable {τ ε α β : Type}

instance : Monad (TokenParser τ ε) where
  pure a := fun _ c => .ok (a, c)
  bind p f := fun toks c =>
    match p toks c with
    | .ok (a, c') => f a toks c'
    | .error e => .error e

/-- Reject the input. -/
def fail (e : ε) : TokenParser τ ε α := fun _ _ => .error (.reject e)

/-- Stop because the fuel is spent. -/
def outOfFuel : TokenParser τ ε α := fun _ _ => .error .outOfFuel

/-- The token under the cursor. -/
def peek : TokenParser τ ε τ := fun toks c =>
  match toks[c]? with
  | some t => .ok (t, c)
  | none => .error .badIndex

/-- The token under the cursor; the cursor moves on unless it is at the last token. -/
def consume : TokenParser τ ε τ := fun toks c =>
  match toks[c]? with
  | some t => .ok (t, if c + 1 < toks.length then c + 1 else c)
  | none => .error .badIndex

/-! ## The cursor -/

/-- The cursor of a result is on a token, and so was every cursor that the parser read at. -/
def OnToken (toks : List τ) : Except (TokenFault ε) (α × Nat) → Prop
  | .ok (_, c) => c < toks.length
  | .error e => e ≠ .badIndex

/-- Started on a token, `p` reads only tokens and ends on one. -/
def InRange (p : TokenParser τ ε α) : Prop :=
  ∀ toks c, c < toks.length → OnToken toks (p toks c)

theorem InRange.pure (a : α) : InRange (Pure.pure a : TokenParser τ ε α) := fun _ _ hc => hc

theorem InRange.fail (e : ε) : InRange (fail e : TokenParser τ ε α) := by
  intro toks c _ h
  cases h

theorem InRange.outOfFuel : InRange (outOfFuel : TokenParser τ ε α) := by
  intro toks c _ h
  cases h

theorem InRange.bind {p : TokenParser τ ε α} {f : α → TokenParser τ ε β} (hp : InRange p)
    (hf : ∀ a, InRange (f a)) : InRange (p >>= f) := by
  intro toks c hc
  have hp := hp toks c hc
  show OnToken toks (match p toks c with | .ok (a, c') => f a toks c' | .error e => .error e)
  cases hres : p toks c with
  | error e =>
    rw [hres] at hp
    exact hp
  | ok r =>
    rw [hres] at hp
    exact hf r.1 toks r.2 hp

theorem InRange.peek : InRange (peek : TokenParser τ ε τ) := by
  intro toks c hc
  simp only [TokenParser.peek, List.getElem?_eq_getElem hc]
  exact hc

theorem InRange.consume : InRange (consume : TokenParser τ ε τ) := by
  intro toks c hc
  simp only [TokenParser.consume, List.getElem?_eq_getElem hc]
  by_cases hlt : c + 1 < toks.length
  · rwa [if_pos hlt]
  · rwa [if_neg hlt]

/-! ## Pre- and postconditions -/

/-- Wherever the unread tokens are `rem`, `p` ends as `Q` and `E` say. -/
def Ends (p : TokenParser τ ε α) (rem : List τ) (Q : α → List τ → Prop)
    (E : TokenFault ε → Prop) : Prop :=
  ∀ toks c, toks.drop c = rem →
    match p toks c with
    | .ok (a, c') => Q a (toks.drop c')
    | .error e => E e

variable {p : TokenParser τ ε α} {f : α → TokenParser τ ε β} {rem : List τ}
  {E E' : TokenFault ε → Prop}

theorem Ends.pure {Q : α → List τ → Prop} {a : α} (h : Q a rem) :
    Ends (Pure.pure a : TokenParser τ ε α) rem Q E := by
  rintro toks c rfl
  exact h

theorem Ends.fail {Q : α → List τ → Prop} {e : ε} (h : E (.reject e)) :
    Ends (fail e : TokenParser τ ε α) rem Q E := fun _ _ _ => h

/-- The steps of a block, one after the other. -/
theorem Ends.bind {Q : β → List τ → Prop} (h : Ends p rem (fun a rem' => Ends (f a) rem' Q E) E) :
    Ends (p >>= f) rem Q E := by
  intro toks c hc
  have hp := h toks c hc
  show match (match p toks c with | .ok (a, c') => f a toks c' | .error e => .error e) with
    | .ok (b, c') => Q b (toks.drop c')
    | .error e => E e
  cases hres : p toks c with
  | error e =>
    rw [hres] at hp
    exact hp
  | ok r =>
    rw [hres] at hp
    exact hp toks r.2 rfl

theorem Ends.mono {Q Q' : α → List τ → Prop} (h : Ends p rem Q E)
    (hQ : ∀ a rem', Q a rem' → Q' a rem') (hE : ∀ e, E e → E' e) : Ends p rem Q' E' := by
  intro toks c hc
  have hp := h toks c hc
  cases hres : p toks c with
  | error e =>
    rw [hres] at hp
    exact hE _ hp
  | ok r =>
    rw [hres] at hp
    exact hQ _ _ hp

theorem getElem?_of_drop {toks : List τ} {c : Nat} {t : τ} (h : toks.drop c = t :: rem) :
    toks[c]? = some t := by
  rw [← List.head?_drop, h, List.head?_cons]

theorem Ends.peek {Q : τ → List τ → Prop} {t : τ} (h : Q t (t :: rem)) :
    Ends (peek : TokenParser τ ε τ) (t :: rem) Q E := by
  intro toks c hc
  simp only [TokenParser.peek, getElem?_of_drop hc, hc]
  exact h

/-- A token that another one follows is passed. -/
theorem Ends.consume {Q : τ → List τ → Prop} {t u : τ} (h : Q t (u :: rem)) :
    Ends (consume : TokenParser τ ε τ) (t :: u :: rem) Q E := by
  intro toks c hc
  have hlt : c + 1 < toks.length := by
    have hlen := congrArg List.length hc
    simp only [List.length_drop, List.length_cons] at hlen
    omega
  have hdrop : toks.drop (c + 1) = u :: rem := by
    rw [← List.drop_drop, hc, List.drop_one, List.tail_cons]
  simp only [TokenParser.consume, getElem?_of_drop hc, if_pos hlt, hdrop]
  exact h

/-- A token with a successor is passed, whatever stands between it and that one. -/
theorem Ends.consume_append {Q : τ → List τ → Prop} {t u : τ} {ts : List τ}
    (h : Q t (ts ++ u :: rem)) :
    Ends (TokenParser.consume : TokenParser τ ε τ) (t :: (ts ++ u :: rem)) Q E := by
  cases ts with
  | nil => exact Ends.consume h
  | cons v ts => exact Ends.consume h

end TokenParser

end Stratavm.Lib
