import Mathlib.Data.Finmap
import Stratavm.Bytes

/-!
# The atom pool

`AtomPool` (`atom_pool.hpp`, `atom_pool.cpp`): the interned strings, by id, and a reverse index from
text to id. An `unordered_map` is a `UMap`, a finite map with no order of its own: a function that
loops over one takes the order as a parameter, and `UMap.exists_entries` says that there is one.

`decode` reads a pool from its section and keeps the first id of a text that is listed twice, but
gives the later entry its own id; `intern` returns the id that the index has. `Produced` is a pool
that one of the two has made, which is all that `AtomPool/Index.lean` needs to say what `find` returns.

Out of scope: the hash function and the buckets of the index, and allocations that fail.
-/

namespace Stratavm

open Lib

/-- `std::unordered_map<K, V>`. -/
abbrev UMap (K V : Type) := Finmap fun _ : K => V

/-- The entries of a map can be listed, each once. -/
theorem UMap.exists_entries {K V : Type} [DecidableEq K] : ∃ entries : UMap K V → List (K × V),
    (∀ m, ((entries m).map Prod.fst).Nodup) ∧
      ∀ m k v, (k, v) ∈ entries m ↔ m.lookup k = some v := by
  refine ⟨fun m => m.entries.toList.map fun e => (e.1, e.2), fun m => ?_, fun m k v => ?_⟩
  · rw [List.map_map]
    have hkeys : (m.entries.map Sigma.fst).Nodup := m.nodupKeys.nodup_keys
    rw [← Multiset.coe_toList m.entries, Multiset.map_coe, Multiset.coe_nodup] at hkeys
    exact hkeys
  · rw [Finmap.lookup_eq_some_iff, List.mem_map, ← Multiset.mem_toList]
    constructor
    · rintro ⟨⟨k', v'⟩, hmem, heq⟩
      obtain ⟨rfl, rfl⟩ := Prod.mk.inj heq
      exact hmem
    · exact fun hmem => ⟨⟨k, v⟩, hmem, rfl⟩

/-- `AtomPool`: `atoms_` and `index_`. -/
structure AtomPool where
  atoms : List Bytes := []
  index : UMap Bytes AtomId := ∅

namespace AtomPool

/-- `AtomPool::size`. -/
def size (p : AtomPool) : Nat := p.atoms.length

/-- `AtomPool::get`; `none` is the null pointer. -/
def get (p : AtomPool) (id : AtomId) : Option Bytes := p.atoms[id.toNat]?

/-- `AtomPool::text_or`. -/
def textOr (p : AtomPool) (id : AtomId) (fallback : Bytes) : Bytes := (p.get id).getD fallback

/-- `AtomPool::find`. -/
def find (p : AtomPool) (s : Bytes) : AtomId := (p.index.lookup s).getD kInvalidAtom

/-- `AtomPool::intern`: the atom's id and the pool afterwards. -/
def intern (p : AtomPool) (s : Bytes) : AtomId × AtomPool :=
  match p.index.lookup s with
  | some id => (id, p)
  | none =>
    let id := UInt32.ofNat p.atoms.length
    (id, { atoms := p.atoms ++ [s], index := p.index.insert s id })

/-- The loop of `decode` from atom `i`, `n` atoms left. The reverse index keeps the first
occurrence of a string. -/
def decodeAtoms (limits : Limits) : Nat → Nat → Machine Status AtomPool Unit
  | 0, _ => pure ()
  | n + 1, i => do
    let s ← Machine.read (fun st => ⟨.badAtomPool, "atom " ++ toString i ++ ": " ++ st.detail⟩)
      (readLpString limits.maxAtomLen.toNat)
    let p ← Machine.get
    Machine.set
      { atoms := p.atoms ++ [s]
        index := if p.index.lookup s = none then p.index.insert s (UInt32.ofNat i) else p.index }
    decodeAtoms limits n (i + 1)

/-- `AtomPool::decode`. -/
def decode (limits : Limits) : Machine Status AtomPool Unit := do
  let count ← Machine.read id readVarintU32
  if count > limits.maxAtoms then Machine.fail ⟨.limitExceeded, "atom count too large"⟩
  else do
    Machine.set {}
    decodeAtoms limits count.toNat 0

end AtomPool

/-- The pool that interning `strings` in order makes. -/
def internAll (strings : List Bytes) : AtomPool :=
  strings.foldl (fun atoms s => (atoms.intern s).2) {}

/-- Pools that `AtomPool::decode` or `AtomPool::intern` produce. -/
inductive AtomPool.Produced : AtomPool → Prop
  | empty : Produced {}
  | decode {limits pool pool' bytes rest}
      (h : Machine.Ok (AtomPool.decode limits) pool bytes () pool' rest) : Produced pool'
  | intern {pool} (h : Produced pool) (s : Bytes) : Produced (pool.intern s).2

end Stratavm
