import Stratavm.Lib.Stricter
import Stratavm.Loader

/-!
# Limits only refuse

Every field of `Limits` is compared with a count the input announces, or with the size of a table, and
is used for nothing else. So a smaller limit refuses more and changes nothing else.

The proof follows the source from the primitives to `load`, and each step is `Stricter`: what the step does
under the looser limits, or an error that a limit causes. Such an error is not always `LimitExceeded`.
A group that nests too deep is a `GroupOverflow`, and the decoders of the atom pool and of the heap wrap
what a primitive returns into errors of their own (`Status.IsLimit`).

* `dispatch_stricter`: a handler of the machine under tighter limits.
* **`load_limits`**: under tighter limits `load` returns the same container or the same error as
  before, or the error of a limit.
-/

namespace Stratavm

open Lib

/-- No limit is above the other's. -/
structure Limits.Within (tight loose : Limits) : Prop where
  maxSections : tight.maxSections ≤ loose.maxSections
  maxAtoms : tight.maxAtoms ≤ loose.maxAtoms
  maxAtomLen : tight.maxAtomLen ≤ loose.maxAtomLen
  maxKinds : tight.maxKinds ≤ loose.maxKinds
  maxFieldsPerKind : tight.maxFieldsPerKind ≤ loose.maxFieldsPerKind
  maxNodes : tight.maxNodes ≤ loose.maxNodes
  maxJournalOps : tight.maxJournalOps ≤ loose.maxJournalOps
  maxListLen : tight.maxListLen ≤ loose.maxListLen
  maxGroupDepth : tight.maxGroupDepth ≤ loose.maxGroupDepth

/-- The errors that a limit causes: in the atom pool and in the heap they come wrapped. -/
inductive Status.IsLimit : Status → Prop
  | exceeded (detail : String) : IsLimit ⟨.limitExceeded, detail⟩
  | depth : IsLimit ⟨.groupOverflow, "group nesting too deep"⟩
  | atom (i : Nat) : IsLimit ⟨.badAtomPool, "atom " ++ toString i ++ ": " ++ "string too long"⟩
  | heapList : IsLimit ⟨.badHeap, "field value: list too long"⟩

/-- The fault of a limit. -/
def Fault.IsLimit (e : Fault) : Prop := ∃ st, e = .status st ∧ st.IsLimit

theorem isLimit_status (st : Status) (h : st.IsLimit) : (Fault.status st).IsLimit := ⟨st, rfl, h⟩

/-- What is above the looser limit is above the tighter one. -/
theorem lt_of_within {tight loose n : UInt32} (h : tight ≤ loose) (hn : n > loose) : n > tight :=
  UInt32.lt_of_le_of_lt h hn

section Decoders

variable {tight loose : Limits}

theorem readLpString_stricter {m m' : Nat} (h : m ≤ m') :
    Decoder.Stricter (· = ⟨.limitExceeded, "string too long"⟩) (readLpString m) (readLpString m') :=
  (Decoder.Stricter.refl _).bind fun _ => .guard rfl (fun hc => Nat.lt_of_le_of_lt h hc) (.refl _)

theorem Value.decode_stricter (h : tight.Within loose) (declared : ValueType) :
    Decoder.Stricter (· = ⟨.limitExceeded, "list too long"⟩) (Value.decode declared tight)
      (Value.decode declared loose) := by
  cases declared with
  | list => exact (Decoder.Stricter.refl _).bind fun _ => .guard rfl (lt_of_within h.maxListLen) (.refl _)
  | _ => exact .refl _

theorem SectionTable.decode_stricter (h : tight.Within loose) (fileSize : Nat) :
    Machine.Stricter Status.IsLimit (SectionTable.decode fileSize tight)
      (SectionTable.decode fileSize loose) := by
  refine (Machine.Stricter.refl _).bind fun magic => .ite (.refl _) ?_
  refine (Machine.Stricter.refl _).bind fun major => (Machine.Stricter.refl _).bind fun _ => ?_
  refine (Machine.Stricter.refl _).bind fun minor => (Machine.Stricter.refl _).bind fun _ => ?_
  refine (Machine.Stricter.refl _).bind fun flags => (Machine.Stricter.refl _).bind fun _ => ?_
  refine (Machine.Stricter.refl _).bind fun count => (Machine.Stricter.refl _).bind fun _ => ?_
  exact .ite (.refl _) (.guard (.exceeded _) (lt_of_within h.maxSections) (.refl _))

theorem AtomPool.decode_stricter (h : tight.Within loose) :
    Machine.Stricter Status.IsLimit (AtomPool.decode tight) (AtomPool.decode loose) := by
  have hatoms : ∀ n i, Machine.Stricter Status.IsLimit (AtomPool.decodeAtoms tight n i)
      (AtomPool.decodeAtoms loose n i) := by
    intro n
    induction n with
    | zero => exact fun _ => .refl _
    | succ n ih =>
      intro i
      refine .bind (.read (readLpString_stricter (UInt32.le_iff_toNat_le.mp h.maxAtomLen)) ?_) fun s => ?_
      · rintro _ rfl
        exact .atom i
      · exact .bind_get fun p => (Machine.Stricter.refl _).bind fun _ => ih (i + 1)
  refine (Machine.Stricter.refl _).bind fun count => ?_
  refine .guard (.exceeded _) (lt_of_within h.maxAtoms) ?_
  exact (Machine.Stricter.refl _).bind fun _ => hatoms count.toNat 0

theorem Schema.decode_stricter (h : tight.Within loose) (atoms : AtomPool) :
    Decoder.Stricter Status.IsLimit (Schema.decode atoms tight) (Schema.decode atoms loose) := by
  have hkind : Decoder.Stricter Status.IsLimit (Schema.decodeKind atoms tight)
      (Schema.decodeKind atoms loose) :=
    (Decoder.Stricter.refl _).bind fun name => .ite (.refl _) <|
      (Decoder.Stricter.refl _).bind fun count =>
        .guard (.exceeded _) (lt_of_within h.maxFieldsPerKind) (.refl _)
  refine (Decoder.Stricter.refl _).bind fun count => ?_
  refine .guard (.exceeded _) (lt_of_within h.maxKinds) ?_
  exact (Decoder.Stricter.listFrom fun _ => hkind).bind fun _ => .refl _

theorem decodeHeap_stricter (h : tight.Within loose) (g : Growth) (schema : Schema) (atoms : AtomPool) :
    Decoder.Stricter Status.IsLimit (decodeHeap g schema atoms tight) (decodeHeap g schema atoms loose) := by
  have hfields : ∀ kind count, Decoder.Stricter Status.IsLimit (decodeHeapFields kind tight count)
      (decodeHeapFields kind loose count) := by
    intro kind count
    refine .loop fun _ _ => (Decoder.Stricter.refl _).bind fun idx => ?_
    split
    · exact .refl _
    · refine .bind (.mapError (Value.decode_stricter h _) ?_) fun _ => .refl _
      rintro _ rfl
      exact .heapList
  have hnode : ∀ i, Decoder.Stricter Status.IsLimit (decodeHeapNode schema atoms tight i)
      (decodeHeapNode schema atoms loose i) := by
    intro i
    refine (Decoder.Stricter.refl _).bind fun id => .ite (.refl _) ?_
    refine (Decoder.Stricter.refl _).bind fun kindId => ?_
    split
    · exact .refl _
    · refine (Decoder.Stricter.refl _).bind fun name => .ite (.refl _) ?_
      refine (Decoder.Stricter.refl _).bind fun count => .ite (.refl _) ?_
      exact (hfields _ _).bind fun _ => .refl _
  refine (Decoder.Stricter.refl _).bind fun count => ?_
  refine .guard (.exceeded _) (lt_of_within h.maxNodes) ?_
  exact (Decoder.Stricter.loop fun i _ => (hnode i).bind fun _ => .refl _).bind fun _ => .refl _

theorem XrefIndex.decodeAndReconcile_stricter (h : tight.Within loose) (index : XrefIndex)
    (atoms : AtomPool) (nodeCount : Nat) :
    Decoder.Stricter Status.IsLimit (index.decodeAndReconcile atoms tight nodeCount)
      (index.decodeAndReconcile atoms loose nodeCount) :=
  (Decoder.Stricter.refl _).bind fun _ => .guard (.exceeded _) (lt_of_within h.maxNodes) (.refl _)

theorem decodeMetaSection_stricter (h : tight.Within loose) (atoms : AtomPool) :
    Machine.Stricter Status.IsLimit (decodeMetaSection atoms tight) (decodeMetaSection atoms loose) :=
  (Machine.Stricter.refl _).bind fun _ => .guard (.exceeded _) (lt_of_within h.maxAtoms) (.refl _)

end Decoders

/-! ## The machine -/

/-- The environment with other limits. -/
def Env.withLimits (env : Env) (limits : Limits) : Env := { env with limits }

section Machine

variable {env : Env} {tight : Limits}

theorem operand_stricter {α : Type} {d d' : Reader α} {F : Status → Prop} (h : Decoder.Stricter F d d')
    (hF : ∀ st, F st → st.IsLimit) : Machine.Stricter Fault.IsLimit (operand d) (operand d') :=
  .read h fun st hst => isLimit_status st (hF st hst)

/-- Resolving a frame looks at no limit. -/
theorem resolveFrame_withLimits (frame : GroupFrame) (children : List AtomId) :
    resolveFrame (env.withLimits tight) frame children = resolveFrame env frame children := by
  induction children with
  | nil => rfl
  | cons child children ih =>
    rw [resolveFrame, resolveFrame, ih]
    rfl

/-- **Every handler only refuses more.** -/
theorem dispatch_stricter (h : tight.Within env.limits) (code : OpCode) :
    Machine.Stricter Fault.IsLimit (dispatch (env.withLimits tight) code) (dispatch env code) := by
  have hu32 : ∀ {α : Type} {f f' : UInt32 → Exec α}, (∀ a, Machine.Stricter Fault.IsLimit (f a) (f' a)) →
      Machine.Stricter Fault.IsLimit (operand readVarintU32 >>= f) (operand readVarintU32 >>= f') :=
    (Machine.Stricter.refl _).bind
  cases code with
  | newNode =>
    refine hu32 fun kind => hu32 fun name => .bind_get fun vm => .ite (.refl _) (.ite (.refl _) ?_)
    have hnodes := UInt32.le_iff_toNat_le.mp h.maxNodes
    exact .guard (isLimit_status _ (.exceeded _)) (fun hc => Nat.le_trans hnodes hc) (.refl _)
  | setField =>
    refine hu32 fun id => hu32 fun field => .bind_get fun vm => ?_
    split
    · exact .refl _
    refine .ite (.refl _) ?_
    refine .bind (operand_stricter (Value.decode_stricter h _) ?_) fun v => .refl _
    rintro _ rfl
    exact .exceeded _
  | beginGroup =>
    refine hu32 fun name => hu32 fun hint => .bind_get fun vm => ?_
    have hdepth := UInt32.le_iff_toNat_le.mp h.maxGroupDepth
    exact .guard (isLimit_status _ .depth) (fun hc => Nat.le_trans hdepth hc) (.refl _)
  | endGroup =>
    refine .bind_get fun vm => ?_
    split
    · exact .refl _
    · refine (Machine.Stricter.refl _).bind fun _ => ?_
      rw [resolveFrame_withLimits]
      exact .refl _
  | addChild | linkRef | dropNode | snapshot | setMeta | nop => exact .refl _

theorem runOps_stricter (h : tight.Within env.limits) : ∀ n,
    Machine.Stricter Fault.IsLimit (runOps (env.withLimits tight) n) (runOps env n)
  | 0 => .refl _
  | n + 1 => by
    refine .bind ?_ fun _ => runOps_stricter h n
    refine (Machine.Stricter.refl _).bind fun raw => ?_
    split
    · exact .refl _
    · exact (dispatch_stricter h _).bind fun _ => .refl _

theorem run_stricter (h : tight.Within env.limits) :
    Machine.Stricter Fault.IsLimit (run (env.withLimits tight)) (run env) :=
  (Machine.Stricter.refl _).bind fun _ =>
    .guard (isLimit_status _ (.exceeded _)) (lt_of_within h.maxJournalOps)
      ((runOps_stricter h _).bind fun _ => .refl _)

end Machine

/-! ## The loader -/

section Load

variable {tight loose : Limits}

theorem withSection_stricter {α : Type} {data : Bytes} {sections : SectionTable} {tag : SectionTag}
    {absent : α} {decode decode' : Bytes → Except Fault α}
    (h : ∀ r, Lib.Stricter Fault.IsLimit (decode r) (decode' r)) :
    Lib.Stricter Fault.IsLimit (withSection data sections tag absent decode)
      (withSection data sections tag absent decode') := by
  unfold withSection
  split
  · exact .refl _
  · exact (Stricter.refl _).bind h

theorem orStatus_stricter {α : Type} {x y : Except Status α} (h : Lib.Stricter Status.IsLimit x y) :
    Lib.Stricter Fault.IsLimit (orStatus x) (orStatus y) := h.mapError isLimit_status

theorem replayJournal_stricter {options : LoadOptions} {data : Bytes} (env : Env)
    (h : tight.Within env.limits) (sections : SectionTable) (seeded : ReplayVM) :
    Lib.Stricter Fault.IsLimit
      (replayJournal { options with limits := tight } data (env.withLimits tight) sections seeded)
      (replayJournal options data env sections seeded) := by
  unfold replayJournal
  split
  · exact withSection_stricter fun r => ((run_stricter h).finalState seeded r).bind fun _ => .refl _
  · exact .refl _

variable {growth : Growth} {ownerSlot : OwnerSlot} {options : LoadOptions}

theorem loadSections_stricter (h : tight.Within options.limits) (data : Bytes)
    (sections : SectionTable) :
    Lib.Stricter Fault.IsLimit
      (loadSections growth ownerSlot { options with limits := tight } data sections)
      ((loadSections growth ownerSlot options data sections).map ({ · with limits := tight })) := by
  unfold loadSections
  refine .bind_map (withSection_stricter fun r => ?_) fun atoms => ?_
  · exact orStatus_stricter ((AtomPool.decode_stricter h).finalState {} r)
  refine .bind_map (withSection_stricter fun r => ?_) fun schema => ?_
  · exact orStatus_stricter ((Schema.decode_stricter h atoms r).map _)
  refine .bind_map (withSection_stricter fun r => ?_) fun seeded => ?_
  · exact orStatus_stricter ((decodeHeap_stricter h growth schema atoms r).map _)
  refine .bind_map ?_ fun (vm, journalRan) => ?_
  · exact replayJournal_stricter { schema, atoms, limits := options.limits, growth, ownerSlot } h
      sections seeded
  refine .bind_map (withSection_stricter fun r => ?_) fun xrefWarnings => ?_
  · exact orStatus_stricter ((XrefIndex.decodeAndReconcile_stricter h _ atoms _ r).map _)
  refine .bind_map (withSection_stricter fun r => ?_) fun sectionMeta => .refl _
  exact orStatus_stricter ((decodeMetaSection_stricter h atoms).finalState ∅ r)

/-- **Limits only refuse**: under tighter limits `load` returns the same container, or the same error,
or the error of a limit. In particular what loads under some limits loads alike under looser ones. -/
theorem load_limits (growth : Growth) (ownerSlot : OwnerSlot) (options : LoadOptions) (tight : Limits)
    (data : Bytes) (h : tight.Within options.limits) :
    load growth ownerSlot { options with limits := tight } data =
        (load growth ownerSlot options data).map ({ · with limits := tight }) ∨
      ∃ st, load growth ownerSlot { options with limits := tight } data = .error (.status st) ∧
        st.IsLimit := by
  have hload : Lib.Stricter Fault.IsLimit (load growth ownerSlot { options with limits := tight } data)
      ((load growth ownerSlot options data).map ({ · with limits := tight })) := by
    refine .bind_map (orStatus_stricter ?_) fun sections => loadSections_stricter h data sections
    exact (SectionTable.decode_stricter h data.length).finalState {} data
  rcases hload with heq | ⟨_, he, st, rfl, hst⟩
  · exact .inl heq
  · exact .inr ⟨st, he, hst⟩

/-- No room for an atom: `emptyPool` has none. -/
theorem load_limits_noAtoms :
    load Growth.doubling .cached { limits := { maxAtoms := 0 } } (emptyPool []) =
        (load Growth.doubling .cached {} (emptyPool [])).map ({ · with limits := { maxAtoms := 0 } }) ∨
      ∃ st, load Growth.doubling .cached { limits := { maxAtoms := 0 } } (emptyPool []) =
        .error (.status st) ∧ st.IsLimit :=
  load_limits Growth.doubling .cached {} { maxAtoms := 0 } (emptyPool []) <| by
    constructor <;> decide

end Load

end Stratavm
