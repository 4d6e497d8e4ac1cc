import Mathlib.Data.List.Basic

/-!
# A growable array with a capacity and a buffer

`Vec α` is a vector as its standard specifies it: elements, a capacity, and the buffer they live
in. `reserve` above the capacity and `pushBack` at full capacity move the elements to a new
buffer (`Growth` says how large). A `Ptr` remembers the buffer it was taken in, and `live` is the
test that dereferencing it is defined; `buf_reserve_eq_iff` and `buf_pushBack_eq_iff` say exactly
which calls leave earlier pointers live, and `Appended.live_iff` what any number of appends does to
one. `grown` is where a vector is that only `pushBack` has grown, and `buf_grown_eq_iff` when a
pointer into such a vector survives.

Out of scope: an allocation that fails, and the addresses behind a buffer's number.
-/

namespace Stratavm.Lib

/-- The capacities an implementation picks: any policy that makes room. -/
structure Growth where
  /-- The capacity after `reserve(n)` reallocates. -/
  reserve : Nat → Nat
  /-- The capacity after `push_back` reallocates a full buffer of this capacity. -/
  push : Nat → Nat
  le_reserve : ∀ n, n ≤ reserve n
  lt_push : ∀ c, c < push c

/-- Reserve exactly, double on growth. -/
def Growth.doubling : Growth where
  reserve n := n
  push c := max 1 (2 * c)
  le_reserve := Nat.le_refl
  lt_push c := by omega

/-- A vector; its elements always fit its capacity. -/
structure Vec (α : Type) where
  data : List α
  cap : Nat
  /-- Which allocation the elements are in; every reallocation takes a fresh number. -/
  buf : Nat
  fits : data.length ≤ cap

namespace Vec

variable {α : Type} (g : Growth)

/-- A default-constructed vector. -/
def empty : Vec α := ⟨[], 0, 0, Nat.le_refl 0⟩

/-- `size()`. -/
def size (v : Vec α) : Nat := v.data.length

/-- `reserve(n)`. -/
def reserve (n : Nat) (v : Vec α) : Vec α :=
  if h : v.cap < n then
    ⟨v.data, g.reserve n, v.buf + 1,
      Nat.le_trans v.fits (Nat.le_trans (Nat.le_of_lt h) (g.le_reserve n))⟩
  else v

/-- `push_back(a)`. -/
def pushBack (a : α) (v : Vec α) : Vec α :=
  if h : v.data.length < v.cap then
    ⟨v.data ++ [a], v.cap, v.buf, by rw [List.length_append]; exact h⟩
  else
    ⟨v.data ++ [a], g.push v.cap, v.buf + 1, by
      rw [List.length_append]
      have := v.fits
      have := g.lt_push v.cap
      simp only [List.length_cons, List.length_nil]
      omega⟩

/-- Change the element in slot `i` in place; nothing when there is none. -/
def modify (i : Nat) (f : α → α) (v : Vec α) : Vec α :=
  ⟨v.data.modify i f, v.cap, v.buf, by rw [List.length_modify]; exact v.fits⟩

/-- A pointer to a slot: the buffer it was taken in and the slot. -/
structure Ptr where
  buf : Nat
  slot : Nat
  deriving DecidableEq, Repr

/-- `&v[i]`. -/
def ptr (v : Vec α) (i : Nat) : Ptr := ⟨v.buf, i⟩

/-- Dereferencing `p` is defined: `v` still has the buffer and the slot. -/
def live (v : Vec α) (p : Ptr) : Bool := p.buf == v.buf && decide (p.slot < v.size)

@[simp] theorem data_empty : (empty : Vec α).data = [] := rfl

@[simp] theorem data_reserve (n : Nat) (v : Vec α) : (v.reserve g n).data = v.data := by
  unfold reserve; split <;> rfl

@[simp] theorem data_pushBack (a : α) (v : Vec α) : (v.pushBack g a).data = v.data ++ [a] := by
  unfold pushBack; split <;> rfl

@[simp] theorem data_modify (i : Nat) (f : α → α) (v : Vec α) :
    (v.modify i f).data = v.data.modify i f := rfl

@[simp] theorem size_empty : (empty : Vec α).size = 0 := rfl

@[simp] theorem size_reserve (n : Nat) (v : Vec α) : (v.reserve g n).size = v.size := by
  rw [size, data_reserve, size]

@[simp] theorem size_pushBack (a : α) (v : Vec α) : (v.pushBack g a).size = v.size + 1 := by
  rw [size, data_pushBack, List.length_append]; rfl

@[simp] theorem size_modify (i : Nat) (f : α → α) (v : Vec α) : (v.modify i f).size = v.size := by
  rw [size, data_modify, List.length_modify]; rfl

@[simp] theorem cap_modify (i : Nat) (f : α → α) (v : Vec α) : (v.modify i f).cap = v.cap := rfl

@[simp] theorem buf_modify (i : Nat) (f : α → α) (v : Vec α) : (v.modify i f).buf = v.buf := rfl

theorem size_le_cap (v : Vec α) : v.size ≤ v.cap := v.fits

/-- `reserve` makes the room asked for. -/
theorem le_cap_reserve (n : Nat) (v : Vec α) : n ≤ (v.reserve g n).cap := by
  unfold reserve
  split
  · exact g.le_reserve n
  · omega

theorem cap_le_cap_reserve (n : Nat) (v : Vec α) : v.cap ≤ (v.reserve g n).cap := by
  unfold reserve
  split
  · rename_i h
    exact Nat.le_trans (Nat.le_of_lt h) (g.le_reserve n)
  · exact Nat.le_refl _

/-- `reserve` keeps the buffer iff the capacity already suffices. -/
theorem buf_reserve_eq_iff {n : Nat} {v : Vec α} : (v.reserve g n).buf = v.buf ↔ n ≤ v.cap := by
  unfold reserve
  split
  · rename_i h
    simp only
    omega
  · rename_i h
    exact ⟨fun _ => Nat.not_lt.mp h, fun _ => rfl⟩

/-- `push_back` keeps the buffer iff there is room for one more. -/
theorem buf_pushBack_eq_iff {a : α} {v : Vec α} :
    (v.pushBack g a).buf = v.buf ↔ v.size < v.cap := by
  unfold pushBack
  split
  · rename_i h
    exact ⟨fun _ => h, fun _ => rfl⟩
  · rename_i h
    simp only [size]
    omega

theorem buf_le_buf_reserve (n : Nat) (v : Vec α) : v.buf ≤ (v.reserve g n).buf := by
  unfold reserve; split <;> simp

theorem buf_le_buf_pushBack (a : α) (v : Vec α) : v.buf ≤ (v.pushBack g a).buf := by
  unfold pushBack; split <;> simp

theorem cap_pushBack_of_lt {a : α} {v : Vec α} (h : v.size < v.cap) :
    (v.pushBack g a).cap = v.cap := by
  unfold pushBack
  rw [dif_pos (show v.data.length < v.cap from h)]

theorem cap_le_cap_pushBack (a : α) (v : Vec α) : v.cap ≤ (v.pushBack g a).cap := by
  unfold pushBack
  split
  · exact Nat.le_refl _
  · exact Nat.le_of_lt (g.lt_push v.cap)

/-- A pointer into a buffer the vector still uses is live iff its slot exists. -/
theorem live_iff {v : Vec α} {p : Ptr} : v.live p = true ↔ p.buf = v.buf ∧ p.slot < v.size := by
  simp [live]

/-! ### Appending -/

/-- `v'` is `v` after appends and changes in place, and no `reserve`. -/
structure Appended (v v' : Vec α) : Prop where
  size_le : v.size ≤ v'.size
  buf_le : v.buf ≤ v'.buf
  cap_eq : v'.buf = v.buf → v'.cap = v.cap
  /-- It has not moved iff `v` had room for what has been appended. -/
  buf_eq_iff : v'.buf = v.buf ↔ v'.size ≤ v.cap

theorem Appended.refl (v : Vec α) : v.Appended v :=
  ⟨Nat.le_refl _, Nat.le_refl _, fun _ => rfl, fun _ => v.size_le_cap, fun _ => rfl⟩

theorem Appended.pushBack {v v' : Vec α} (h : v.Appended v') (a : α) : v.Appended (v'.pushBack g a) := by
  have hle := h.buf_le
  have hmoved := buf_le_buf_pushBack g a v'
  refine ⟨?_, Nat.le_trans hle hmoved, fun hbuf => ?_, ?_⟩
  · rw [size_pushBack]
    exact Nat.le_succ_of_le h.size_le
  · have hlast : (v'.pushBack g a).buf = v'.buf := by omega
    rw [cap_pushBack_of_lt g ((buf_pushBack_eq_iff g).mp hlast), h.cap_eq (hlast.symm.trans hbuf)]
  · rw [size_pushBack]
    constructor
    · intro hbuf
      have hlast : (v'.pushBack g a).buf = v'.buf := by omega
      have hroom := (buf_pushBack_eq_iff g).mp hlast
      rwa [h.cap_eq (hlast.symm.trans hbuf)] at hroom
    · intro hroom
      have hbuf : v'.buf = v.buf := h.buf_eq_iff.mpr (Nat.le_of_succ_le hroom)
      have hlt : v'.size < v'.cap := by rw [h.cap_eq hbuf]; exact hroom
      exact ((buf_pushBack_eq_iff g).mpr hlt).trans hbuf

theorem Appended.modify {v v' : Vec α} (h : v.Appended v') (i : Nat) (f : α → α) :
    v.Appended (v'.modify i f) := by
  refine ⟨?_, h.buf_le, h.cap_eq, ?_⟩ <;> rw [size_modify]
  · exact h.size_le
  · exact h.buf_eq_iff

/-- A pointer that was live is live until the vector moves. -/
theorem Appended.live_iff {v v' : Vec α} (h : v.Appended v') {p : Ptr} (hbuf : p.buf ≤ v.buf)
    (hslot : p.slot < v.size) :
    v'.live p = true ↔ v.live p = true ∧ v'.size ≤ v.cap := by
  have hle := h.buf_le
  have hsize := h.size_le
  have hmoved := h.buf_eq_iff
  rw [Vec.live_iff, Vec.live_iff]
  constructor
  · rintro ⟨hp, -⟩
    exact ⟨⟨by omega, hslot⟩, hmoved.mp (by omega)⟩
  · rintro ⟨⟨hp, -⟩, hroom⟩
    exact ⟨hp.trans (hmoved.mpr hroom).symm, by omega⟩

/-! ### Growing by `push_back` alone -/

/-- The capacity and the buffer of a vector of `n` elements that only `push_back` has grown. -/
def grown : Nat → Nat × Nat
  | 0 => (0, 0)
  | n + 1 =>
    if n < (grown n).1 then grown n else (g.push (grown n).1, (grown n).2 + 1)

/-- Nothing but `push_back` has grown `v`. -/
def Pushed (v : Vec α) : Prop := (v.cap, v.buf) = grown g v.size

variable {g}

theorem pushed_empty : Pushed g (empty : Vec α) := rfl

theorem Pushed.cap {v : Vec α} (h : Pushed g v) : v.cap = (grown g v.size).1 :=
  congrArg Prod.fst h

theorem Pushed.buf {v : Vec α} (h : Pushed g v) : v.buf = (grown g v.size).2 :=
  congrArg Prod.snd h

theorem Pushed.pushBack {v : Vec α} (h : Pushed g v) (a : α) : Pushed g (v.pushBack g a) := by
  unfold Pushed
  rw [size_pushBack, grown, ← h.cap, ← h.buf]
  by_cases hlt : v.size < v.cap
  · rw [if_pos hlt, cap_pushBack_of_lt g hlt, (buf_pushBack_eq_iff g).mpr hlt]
    exact h
  · rw [if_neg hlt]
    unfold Vec.pushBack
    rw [dif_neg (show ¬ v.data.length < v.cap from hlt)]

theorem Pushed.modify {v : Vec α} (h : Pushed g v) (i : Nat) (f : α → α) :
    Pushed g (v.modify i f) := by
  unfold Pushed
  rw [size_modify]
  exact h

/-- A `reserve` that asks for nothing new does nothing. -/
theorem reserve_size (v : Vec α) : v.reserve g v.size = v := by
  unfold reserve
  rw [dif_neg (Nat.not_lt.mpr v.size_le_cap)]

theorem le_grown (n : Nat) : n ≤ (grown g n).1 := by
  induction n with
  | zero => exact Nat.zero_le _
  | succ n ih =>
    rw [grown]
    split
    · assumption
    · exact Nat.lt_of_le_of_lt ih (g.lt_push _)

/-- From `m` elements to `n`, `push_back` keeps the buffer or moves on to a later one. -/
theorem grown_cases {m n : Nat} (h : m ≤ n) :
    (n ≤ (grown g m).1 ∧ grown g n = grown g m) ∨
      ((grown g m).1 < n ∧ (grown g m).2 < (grown g n).2) := by
  induction h with
  | refl =>
    exact .inl ⟨le_grown m, rfl⟩
  | @step n hmn ih =>
    rw [grown]
    rcases ih with ⟨hle, heq⟩ | ⟨hlt, hbuf⟩
    · rw [heq]
      by_cases hn : n < (grown g m).1
      · rw [if_pos hn]
        exact .inl ⟨hn, rfl⟩
      · rw [if_neg hn]
        exact .inr ⟨by omega, Nat.lt_succ_self _⟩
    · refine .inr ⟨by omega, ?_⟩
      split
      · exact hbuf
      · exact Nat.lt_succ_of_lt hbuf

/-- **The buffer at `m` elements is still the one at `n`** iff it had room for `n`. -/
theorem buf_grown_eq_iff {m n : Nat} (h : m ≤ n) :
    (grown g m).2 = (grown g n).2 ↔ n ≤ (grown g m).1 := by
  rcases grown_cases (g := g) h with ⟨hle, heq⟩ | ⟨hlt, hbuf⟩
  · exact iff_of_true (by rw [heq]) hle
  · exact iff_of_false (Nat.ne_of_lt hbuf) (Nat.not_le.mpr hlt)

end Vec

end Stratavm.Lib
