import Stratavm.ReplayVm.Atomic
import Stratavm.Bytes.Streams

/-!
# Journals cut short and journals joined

The machine reads its journal as a stream (`run_streams`): an opcode takes its own bytes and looks at no
others, in every state of the VM.

* **`run_truncated`**: a journal without its last bytes stops the machine with `Truncated`, in the
  state after the opcodes that are whole, and the opcode it stops at is the one that was cut.
* **`run_concat`**: the bodies of two journals, one after the other under the sum of their counts, do
  what the first does and then what the second does to the VM it leaves, errors included.
-/

namespace Stratavm

open Lib

/-- The fault of a machine that ran out of bytes. -/
def Fault.IsCut (e : Fault) : Prop := ∃ st, e = .status st ∧ st.IsTruncated

theorem isCut_status (st : Status) (h : st.IsTruncated) : (Fault.status st).IsCut := ⟨st, rfl, h⟩

section Handlers

variable {env : Env}

theorem operand_streams {α : Type} {d : Reader α} (h : Streams d) :
    Machine.Streams Fault.IsCut (operand d) := .read h isCut_status

theorem resolveFrame_streams (frame : GroupFrame) :
    ∀ children, Machine.Streams Fault.IsCut (resolveFrame env frame children)
  | [] => .pure ()
  | child :: children => by
    refine .bind ?_ fun _ => resolveFrame_streams frame children
    refine .bind_modifyGet fun target => .bind_get fun vm => ?_
    split
    · exact .fail _
    · exact .ite (.set _) (.fail _)

/-- **Every handler streams**, from every state. -/
theorem dispatch_streams (code : OpCode) : Machine.Streams Fault.IsCut (dispatch env code) := by
  have hu32 : Machine.Streams Fault.IsCut (operand readVarintU32) := operand_streams streams_readVarintU32
  cases code with
  | newNode =>
    refine hu32.bind fun kind => hu32.bind fun name => .bind_get fun vm => ?_
    exact .ite (.fail _) (.ite (.fail _) (.ite (.fail _) (.set _)))
  | setField =>
    refine hu32.bind fun id => hu32.bind fun field => .bind_get fun vm => ?_
    split
    · exact .fail _
    refine .ite (.fail _) ?_
    -- the bytes of the value are those its field's type announces
    exact (operand_streams (Value.streams_decode _ _)).bind fun v => .ite (.fail _) (.set _)
  | beginGroup =>
    refine hu32.bind fun name => hu32.bind fun hint => .bind_get fun vm => .ite (.fail _) ?_
    simp only
    split
    · exact .fail _
    · exact .ite (.fail _) (.set _)
  | endGroup =>
    refine .bind_get fun vm => ?_
    split
    · exact .fail _
    · exact .bind_set (resolveFrame_streams _ _)
  | addChild =>
    refine hu32.bind fun child => .bind_get fun vm => ?_
    split
    · exact .fail _
    · exact .ite (.fail _) (.set _)
  | linkRef =>
    refine hu32.bind fun src => hu32.bind fun field => hu32.bind fun name => .bind_get fun vm => ?_
    split
    · exact .fail _
    · exact .ite (.fail _) (.ite (.set _) (.set _))
  | dropNode =>
    refine hu32.bind fun id => .bind_get fun vm => ?_
    split
    · exact .fail _
    · exact .ite (.pure _) (.set _)
  | snapshot => exact hu32.bind fun label => .bind_get fun vm => .ite (.fail _) (.set _)
  | setMeta =>
    refine hu32.bind fun key => hu32.bind fun value => .bind_get fun vm => ?_
    exact .ite (.fail _) (.ite (.fail _) (.set _))
  | nop => exact .pure ()

theorem stepOp_streams : Machine.Streams Fault.IsCut (stepOp env) := by
  refine (operand_streams streams_readU8).bind fun raw => ?_
  split
  · exact .fail _
  · exact (dispatch_streams _).bind fun _ => .bind_get fun vm => .set _

theorem runOps_streams : ∀ n, Machine.Streams Fault.IsCut (runOps env n)
  | 0 => .pure ()
  | n + 1 => stepOp_streams.bind fun _ => runOps_streams n

theorem closeRun_streams : Machine.Streams Fault.IsCut closeRun :=
  .bind_get fun _ => .ite (.fail _) (.pure _)

/-- **The machine streams.** -/
theorem run_streams : Machine.Streams Fault.IsCut (run env) :=
  (operand_streams streams_readVarintU32).bind fun _ =>
    .ite (.fail _) ((runOps_streams _).bind fun _ => closeRun_streams)

end Handlers

section Runs

variable {env : Env} {vm vm' vmk : ReplayVM} {p q : Bytes} {k : Nat}

/-- A state of the run over a journal is one of the run over a longer journal. -/
theorem StateAt.extend {r : Bytes} (h : StateAt env vm p k vmk r) (q : Bytes) :
    StateAt env vm (p ++ q) k vmk (r ++ q) := by
  obtain ⟨count, body, hcount, hle, hk, hrun⟩ := h
  exact ⟨count, body ++ q, streams_readVarintU32.extend hcount q, hle, hk,
    (runOps_streams k).extend hrun q⟩

/-- A run that executes `k` opcodes executes the first `i` of them. -/
theorem StateAt.earlier {i : Nat} {r : Bytes} (h : StateAt env vm p k vmk r) (hi : i ≤ k) :
    ∃ vmi ri, StateAt env vm p i vmi ri := by
  induction k generalizing vmk r with
  | zero =>
    obtain rfl := Nat.le_zero.mp hi
    exact ⟨vmk, r, h⟩
  | succ k ih =>
    rcases Nat.of_le_succ hi with hi | rfl
    · obtain ⟨vm1, op, vm2, hexec, -⟩ := h.exists_step
      obtain ⟨r1, hbefore⟩ := hexec.before
      exact ih hbefore hi
    · exact ⟨vmk, r, h⟩

/-- Between two states in a row is one iteration of the loop. -/
theorem StateAt.step {r r' : Bytes} (h : StateAt env vm p k vmk r)
    (h' : StateAt env vm p (k + 1) vm' r') : Machine.Ok (stepOp env) vmk r () vm' r' := by
  obtain ⟨count, body, hcount, -, -, hrun⟩ := h
  obtain ⟨count', body', hcount', -, -, hrun'⟩ := h'
  obtain ⟨rfl, rfl⟩ := Prod.mk.inj (Except.ok.inj (hcount.symm.trans hcount'))
  obtain ⟨vm1, r1, hfirst, hstep⟩ := runOps_succ_ok.mp hrun'
  obtain ⟨hfst, rfl⟩ := Prod.mk.inj (hfirst.symm.trans hrun)
  obtain rfl := (Prod.mk.inj (Except.ok.inj hfst)).2
  exact hstep

/-- Where the run over `p` stops, when the journal is `p ++ q`: the count, or opcode number `k + 1`, is
not whole. -/
inductive StopsAtCut (env : Env) (vm : ReplayVM) (p q : Bytes) (vmk : ReplayVM) : Prop
  | count (e : Status) (hcount : readVarintU32 p = .error e) (hsame : vmk = vm)
  | opcode {k : Nat} {r r' : Bytes} {vm' : ReplayVM} (hbefore : StateAt env vm (p ++ q) k vmk (r ++ q))
      (hafter : StateAt env vm (p ++ q) (k + 1) vm' r') (hcut : r'.length < q.length)

/-- A run that stops before the end of an accepted journal stops where the journal is cut. -/
theorem stopsAtCut {st : Status} (hq : q ≠ []) (hfull : Machine.Ok (run env) vm (p ++ q) () vm' [])
    (h : run env vm p = (.error (.status st), vmk)) : StopsAtCut env vm p q vmk := by
  obtain ⟨count, body, ops, hcount, hle, hlen, hrep, -⟩ := run_ok_iff.mp hfull
  have hlast : StateAt env vm (p ++ q) count.toNat vm' [] :=
    ⟨count, body, hcount, hle, Nat.le_refl _, runOps_ok_iff.mpr ⟨ops, hlen, hrep⟩⟩
  have hsame : ∀ {c r}, readVarintU32 p = .ok (c, r) → c = count := fun hc =>
    (Prod.mk.inj (Except.ok.inj ((streams_readVarintU32.extend hc q).symm.trans hcount))).1
  cases run_error h with
  | header hlimit heq =>
    cases hc : readVarintU32 p with
    | error e => exact .count e hc heq
    | ok pair =>
      obtain rfl := hsame hc
      exact absurd (hlimit _ _ hc) (UInt32.not_lt.mpr hle)
  | @opcode k r hstate hmore hstop hops =>
    obtain ⟨c, body', hc, -⟩ := id hstate
    have hk := hmore c body' hc
    obtain rfl := hsame hc
    have hbefore := hstate.extend q
    obtain ⟨vm2, r2, hafter⟩ : ∃ vm2 r2, StateAt env vm (p ++ q) (k + 1) vm2 r2 := hlast.earlier hk
    refine .opcode hbefore hafter ?_
    -- the opcode cannot end inside `p`: it would have been executed there
    obtain ⟨bs, hsplit, hread⟩ := stepOp_streams.taken _ _ _ _ _ (hbefore.step hafter)
    rcases append_eq_cut hsplit with ⟨c, hc, rfl⟩ | ⟨c, rfl, rfl⟩
    · rw [List.append_assoc] at hsplit
      rw [List.append_cancel_left hsplit, List.length_append]
      have := List.length_pos_iff.mpr hc
      omega
    · exact nomatch (Prod.mk.inj (hstop.symm.trans (hread c))).1
  | openGroup hc hstate hframes hops =>
    obtain rfl := hsame hc
    have heq := ((hstate.extend q).unique hlast).2
    exact absurd (List.append_eq_nil_iff.mp heq).2 hq

/-- **A truncated journal**: without its last bytes a journal that runs to its end stops the machine with
`Truncated`, in the state after the opcodes that are whole. -/
theorem run_truncated (env : Env) (vm vm' : ReplayVM) (p q : Bytes) (hq : q ≠ [])
    (hfull : Machine.Ok (run env) vm (p ++ q) () vm' []) :
    ∃ detail vmk, run env vm p = (.error (.status ⟨.truncated, detail⟩), vmk) ∧
      StopsAtCut env vm p q vmk := by
  obtain ⟨e, herr, ⟨code, detail⟩, rfl, hcode⟩ :=
    run_streams.cut vm p q () vm' hq (run_streams.reads hfull)
  obtain rfl : code = .truncated := hcode
  exact ⟨detail, _, Prod.ext herr rfl, stopsAtCut hq hfull (Prod.ext herr rfl)⟩

/-- Two opcodes, of which the second loses its last byte. -/
theorem run_truncated_twoNodes :
    ∃ detail vmk, run oneOwner {} [2, 1, 0, 0, 1, 0] = (.error (.status ⟨.truncated, detail⟩), vmk) ∧
      StopsAtCut oneOwner {} [2, 1, 0, 0, 1, 0] [0] vmk :=
  run_truncated oneOwner {} _ _ [0] (by decide) rfl

/-! ## One journal after another -/

theorem runOps_add (m n : Nat) :
    runOps env (m + n) = (runOps env m >>= fun _ => runOps env n) := by
  induction m with
  | zero => rw [Nat.zero_add]; rfl
  | succ m ih =>
    rw [Nat.add_right_comm, runOps, runOps, ih]
    funext s r
    simp only [Machine.bind_apply]
    rcases stepOp env s r with ⟨e | ⟨u, r1⟩, s1⟩ <;> rfl

/-- **Journals compose**: running the two bodies as one journal, under the sum of the two counts, is
running the second journal on the VM the first one leaves. -/
theorem run_concat (env : Env) (vm vm1 : ReplayVM) (j1 j2 j b1 b2 : Bytes) (n1 n2 n : UInt32)
    (h1 : readVarintU32 j1 = .ok (n1, b1)) (h2 : readVarintU32 j2 = .ok (n2, b2))
    (h : readVarintU32 j = .ok (n, b1 ++ b2)) (hn : n.toNat = n1.toNat + n2.toNat)
    (hlimit : n ≤ env.limits.maxJournalOps) (hrun : Machine.Ok (run env) vm j1 () vm1 []) :
    run env vm j = run env vm1 j2 := by
  obtain ⟨count, body, ops, hcount, hle, hlen, hrep, -⟩ := run_ok_iff.mp hrun
  obtain ⟨rfl, rfl⟩ := Prod.mk.inj (Except.ok.inj (hcount.symm.trans h1))
  have hfirst : Machine.Ok (runOps env count.toNat) vm (body ++ b2) () vm1 b2 :=
    (runOps_streams _).extend (runOps_ok_iff.mpr ⟨ops, hlen, hrep⟩) b2
  have hle2 : n2 ≤ env.limits.maxJournalOps := by
    rw [UInt32.le_iff_toNat_le] at hlimit ⊢
    omega
  have hjoined : run env vm j = (runOps env n.toNat >>= fun _ => closeRun) vm (body ++ b2) := by
    unfold run operand
    rw [Machine.bind_read_of_ok h, if_neg (UInt32.not_lt.mpr hlimit)]
  have hsecond : run env vm1 j2 = (runOps env n2.toNat >>= fun _ => closeRun) vm1 b2 := by
    unfold run operand
    rw [Machine.bind_read_of_ok h2, if_neg (UInt32.not_lt.mpr hle2)]
  rw [hjoined, hsecond, hn, runOps_add, Machine.bind_apply, Machine.bind_apply, Machine.bind_apply,
    hfirst]

/-- The second journal names an atom the pool does not have: it is refused alike, alone and joined. -/
theorem run_concat_twoNodes :
    run oneOwner {} [2, 1, 0, 0, 1, 0, 1] =
      run oneOwner ((({} : ReplayVM).createNode oneOwner 0 0).tick) [1, 1, 0, 1] :=
  run_concat oneOwner {} _ [1, 1, 0, 0] [1, 1, 0, 1] _ [1, 0, 0] [1, 0, 1] 1 1 2 rfl rfl rfl rfl
    (by decide) rfl

end Runs

end Stratavm
