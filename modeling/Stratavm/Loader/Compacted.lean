import Stratavm.Compactor.References
import Stratavm.Loader.Steps
import Stratavm.Validator.Modes
import Stratavm.XrefIndex.Inverse

/-!
# Loading a file whose journal was compacted

The compactor works on the bytes of a JRNL section; this is about the file. Of two files whose other known
sections have the same bytes, the second has the journal of the first compacted, and the heap has no nodes
(the compactor numbers the nodes from 0). What a run remembers of overwritten fields is lost to the second
file, hence `Keeps`: the validator may find less, and never finds more.

* **`load_compacted`**: a file whose journal runs without making placeholders loads alike with the journal
  compacted iff the groups fit.
-/

namespace Stratavm

open Lib Lib.Decoder JournalCompactor

/-! ## Tables -/

/-- The second node is the first one, with fewer references; if it is dropped, with other fields. -/
structure Node.Trims (n m : Node) : Prop where
  core : n.core = m.core
  fields : n.alive = true → n.fields = m.fields
  refs : m.refs.Sublist n.refs

section Tables

variable {ns ms : List Node} {atoms : AtomPool} {strict : Bool} {schema : Schema} {n m : Node}

/-- The tables of two runs that end the same. -/
theorem trims_of_same {a b : ReplayVM} (halike : a.Alike b) (hsame : a.Same b) (hquotes : a.Quotes b)
    (hids : a.nodes.size ≤ 2 ^ 32) : List.Forall₂ Node.Trims a.nodes.data b.nodes.data := by
  refine List.forall₂_iff_get.mpr ⟨halike.size, fun i hi hi' => ?_⟩
  have hn := List.getElem?_eq_getElem hi
  have hm := List.getElem?_eq_getElem hi'
  have hcore := congrArg (fun ns : List Node => ns[i]?) halike.core
  simp only [List.getElem?_map, hn, hm, Option.map_some] at hcore
  have hid : (UInt32.ofNat i).toNat = i := toNat_ofNat_of_lt (Nat.lt_of_lt_of_le hi hids)
  refine ⟨Option.some.inj hcore, ?_, hquotes i _ _ hn hm⟩
  refine (hsame.node (UInt32.ofNat i) _ _ ?_ ?_).fields
  · rw [ReplayVM.node?, hid]
    exact hn
  · rw [ReplayVM.node?, hid]
    exact hm

theorem core_of_trims (h : List.Forall₂ Node.Trims ns ms) : ns.map Node.core = ms.map Node.core := by
  induction h with
  | nil => rfl
  | cons h _ ih => rw [List.map_cons, List.map_cons, h.core, ih]

/-- What is gathered from nodes that have fewer references. -/
theorem flatMap_trims {α : Type} {f g : Node → List α} (h : List.Forall₂ Node.Trims ns ms)
    (hfg : ∀ n m, n.Trims m → (g m).Sublist (f n)) : (ms.flatMap g).Sublist (ns.flatMap f) := by
  induction h with
  | nil => exact .slnil
  | cons h _ ih =>
    rw [List.flatMap_cons, List.flatMap_cons]
    exact (hfg _ _ h).append ih

/-- What is gathered from all but the references. -/
theorem flatMap_eq_of_trims {α : Type} {f g : Node → List α} (h : List.Forall₂ Node.Trims ns ms)
    (hfg : ∀ n m, n.Trims m → g m = f n) : ms.flatMap g = ns.flatMap f := by
  induction h with
  | nil => rfl
  | cons h _ ih => rw [List.flatMap_cons, List.flatMap_cons, hfg _ _ h, ih]

/-- A table with the same ids and marks. -/
theorem refIssues_eq (h : ns.map Node.core = ms.map Node.core) (hid : n.id = m.id) (t : NodeId) :
    refIssues ms m t = refIssues ns n t := by
  have hlen : ms.length = ns.length := by simpa using (congrArg List.length h).symm
  have halive := congrArg (fun ns : List Node => ns[t.toNat]?.map Node.alive) h
  simp only [List.getElem?_map, Option.map_map] at halive
  replace halive : ns[t.toNat]?.map Node.alive = ms[t.toNat]?.map Node.alive := halive
  rw [refIssues, refIssues, outOfRange, outOfRange, hlen, halive, hid]

theorem childIssues_eq (h : ns.map Node.core = ms.map Node.core) (hid : n.id = m.id) (c : NodeId) :
    childIssues ms m c = childIssues ns n c := by
  have hlen : ms.length = ns.length := by simpa using (congrArg List.length h).symm
  rw [childIssues, childIssues, outOfRange, outOfRange, hlen, hid]

/-- **The validator finds no more**, node by node, and in lenient mode the same. -/
theorem Node.Trims.nodeIssues (h : n.Trims m) (htable : ns.map Node.core = ms.map Node.core) :
    (nodeIssues ms atoms strict schema m).Sublist (nodeIssues ns atoms strict schema n) ∧
      (strict = false → nodeIssues ms atoms strict schema m = nodeIssues ns atoms strict schema n) := by
  have hid : n.id = m.id := (congrArg Node.id h.core :)
  have hplaceholder : n.placeholder = m.placeholder := (congrArg Node.placeholder h.core :)
  have halive : n.alive = m.alive := (congrArg Node.alive h.core :)
  have hkind : n.kind = m.kind := (congrArg Node.kind h.core :)
  have hchildren : n.children = m.children := (congrArg Node.children h.core :)
  unfold Stratavm.nodeIssues
  rw [hplaceholder, halive, hkind, hid]
  cases hp : m.placeholder with
  | true => exact ⟨.refl _, fun _ => rfl⟩
  | false =>
    cases ha : m.alive with
    | false => exact ⟨.refl _, fun _ => rfl⟩
    | true =>
      cases schema.kind m.kind with
      | none => exact ⟨.refl _, fun _ => rfl⟩
      | some kind =>
        have hfields : fieldIssues atoms m = fieldIssues atoms n := by
          funext field
          rw [fieldIssues, fieldIssues, Node.field, Node.field, h.fields (halive.trans ha), hid]
        have hrefs : (fun t => onlyStrict strict (refIssues ms m t)) =
            fun t => onlyStrict strict (refIssues ns n t) :=
          funext fun t => by rw [refIssues_eq htable hid]
        have hchild : (fun c => onlyStrict strict (childIssues ms m c)) =
            fun c => onlyStrict strict (childIssues ns n c) :=
          funext fun c => by rw [childIssues_eq htable hid]
        simp only [Bool.false_eq_true, if_false, reduceCtorEq]
        rw [hfields, hrefs, hchild, hchildren]
        refine ⟨((List.Sublist.refl _).append (h.refs.flatMap _)).append_right _, ?_⟩
        rintro rfl
        rw [flatMap_onlyStrict, flatMap_onlyStrict, flatMap_onlyStrict]
        rfl

/-- The counters that do not count references. -/
structure ValidationReport.SameCounts (rep rep' : ValidationReport) : Prop where
  liveNodes : rep'.liveNodes = rep.liveNodes
  missingRequired : rep'.missingRequired = rep.missingRequired
  unfilledPlaceholders : rep'.unfilledPlaceholders = rep.unfilledPlaceholders

theorem sameCounts_of_trims (h : List.Forall₂ Node.Trims ns ms) :
    (validateGraph ns atoms strict schema).SameCounts (validateGraph ms atoms strict schema) := by
  have hns : (validateGraph ns atoms strict schema).Counts ns schema := counts_validateGraph
  have hms : (validateGraph ms atoms strict schema).Counts ms schema := counts_validateGraph
  have hcore := core_of_trims h
  have hcount (p : Node → Bool) (hp : ∀ n : Node, p n.core = p n) : ms.countP p = ns.countP p := by
    have := congrArg (List.countP p) hcore
    rw [List.countP_map, List.countP_map] at this
    rw [← funext hp]
    exact this.symm
  constructor
  · rw [hms.liveNodes, hns.liveNodes, hcount Node.isLive fun _ => rfl]
  · rw [hms.missingRequired, hns.missingRequired, flatMap_eq_of_trims h fun n m h => ?_]
    have halive : n.alive = m.alive := (congrArg Node.alive h.core :)
    have hplaceholder : n.placeholder = m.placeholder := (congrArg Node.placeholder h.core :)
    have hkind : n.kind = m.kind := (congrArg Node.kind h.core :)
    cases hlive : m.isLive with
    | false =>
      have hlive' : n.isLive = false := by
        rw [Node.isLive, halive, hplaceholder]
        exact hlive
      rw [missingFields, missingFields, declaredKind_eq_none hlive, declaredKind_eq_none hlive']
    | true =>
      have hlive' : n.isLive = true := by
        rw [Node.isLive, halive, hplaceholder]
        exact hlive
      have hfields : n.fields = m.fields := h.fields (Bool.and_eq_true_iff.mp hlive').1
      rw [missingFields, missingFields, declaredKind_of_live hlive, declaredKind_of_live hlive', hkind]
      simp only [Node.field, hfields]
  · rw [hms.unfilledPlaceholders, hns.unfilledPlaceholders, hcount Node.placeholder fun _ => rfl]

/-- Two indexes agree on names and kinds, and the second knows no other referrers. -/
structure XrefIndex.Trims (x y : XrefIndex) : Prop where
  nameToId : y.nameToId = x.nameToId
  kindToIds : y.kindToIds = x.kindToIds
  referrers : ∀ t, (y.referrers t).Sublist (x.referrers t)

theorem XrefIndex.trims_build (h : List.Forall₂ Node.Trims ns ms) : (build ns).Trims (build ms) := by
  have hcore := core_of_trims h
  have hfold {β : Type} (f : β → Node → β) (hf : ∀ acc (n : Node), f acc n.core = f acc n) (init : β) :
      ms.foldl f init = ns.foldl f init := by
    have := congrArg (List.foldl f init) hcore
    rw [List.foldl_map, List.foldl_map] at this
    simp only [hf] at this
    exact this.symm
  refine ⟨hfold _ (fun _ _ => rfl) _, hfold _ (fun _ _ => rfl) _, fun t => ?_⟩
  have hlen : ms.length = ns.length := by simpa using (congrArg List.length hcore).symm
  rcases Nat.lt_or_ge t.toNat ms.length with ht | ht
  · rw [referrers_build ht, referrers_build (hlen ▸ ht)]
    refine flatMap_trims h fun n m h => ?_
    have hid : n.id = m.id := (congrArg Node.id h.core :)
    have hchildren : n.children = m.children := (congrArg Node.children h.core :)
    rw [hid, edgesTo, edgesTo, hchildren]
    exact List.replicate_sublist_replicate m.id |>.mpr (Nat.add_le_add_right (h.refs.count_le t) _)
  · rw [referrers_build_of_ge ht]
    exact List.nil_sublist _

end Tables

/-! ## Files -/

/-- The environment that the journal of a loaded container ran in. -/
def LoadedContainer.env (lc : LoadedContainer) (growth : Growth) (ownerSlot : OwnerSlot) : Env :=
  { schema := lc.schema, atoms := lc.atoms, limits := lc.limits, growth, ownerSlot }

/-- What the second of two containers keeps of the first, loaded in the given mode. -/
structure LoadedContainer.Keeps (strict : Bool) (lc lc' : LoadedContainer) : Prop where
  limits : lc'.limits = lc.limits
  atoms : lc'.atoms = lc.atoms
  schema : lc'.schema = lc.schema
  sectionMeta : lc'.sectionMeta = lc.sectionMeta
  xrefWarnings : lc'.xrefWarnings = lc.xrefWarnings
  journalRan : lc'.journalRan = lc.journalRan
  /-- Nodes, names, metadata and snapshots. -/
  same : lc.vm.Same lc'.vm
  /-- References are forgotten, but not reordered or made. -/
  quotes : lc.vm.Quotes lc'.vm
  xref : lc.xref.Trims lc'.xref
  counts : lc.report.SameCounts lc'.report
  /-- The validator finds no more, and without strict mode the same. -/
  issues : lc'.report.issues.Sublist lc.report.issues
  lenient : strict = false → lc'.report.issues = lc.report.issues

namespace SectionTable

variable {table table' : SectionTable} {data data' bytes : Bytes} {tag : SectionTag}

/-- The two files have the same known sections, the tag's apart. -/
def SameBut (table : SectionTable) (data : Bytes) (table' : SectionTable) (data' : Bytes)
    (tag : SectionTag) : Prop :=
  ∀ other ≠ .unknown, other ≠ tag → ∀ bytes, table.Holds data other bytes ↔ table'.Holds data' other bytes

/-- The decoder of a section that is there runs on its bytes. -/
theorem Accepted.withSection_holds {α : Type} (h : table.Accepted data.length) (htag : tag ≠ .unknown)
    (hb : table.Holds data tag bytes) (absent : α) (decode : Bytes → Except Fault α) :
    withSection data table tag absent decode = decode bytes := by
  rcases h.withSection_eq htag absent decode with ⟨bytes', hb', heq⟩ | ⟨hnone, -⟩
  · rw [heq, h.holds_unique htag hb' hb]
  · exact absurd hb (hnone bytes)

/-- The decoder of another section sees the same in both files. -/
theorem SameBut.withSection_eq {α : Type} (hsame : table.SameBut data table' data' tag)
    (h : table.Accepted data.length) (h' : table'.Accepted data'.length) {other : SectionTag}
    (hother : other ≠ .unknown) (hne : other ≠ tag) (absent : α) (decode : Bytes → Except Fault α) :
    withSection data' table' other absent decode = withSection data table other absent decode := by
  rcases h.withSection_eq hother absent decode with ⟨bytes, hb, heq⟩ | ⟨hnone, heq⟩
  · rw [heq, h'.withSection_holds hother ((hsame other hother hne bytes).mp hb)]
  · rcases h'.withSection_eq hother absent decode with ⟨bytes, hb, -⟩ | ⟨-, heq'⟩
    · exact absurd ((hsame other hother hne bytes).mpr hb) (hnone bytes)
    · rw [heq, heq']

end SectionTable

section Load

variable {growth : Growth} {ownerSlot : OwnerSlot} {options : LoadOptions} {data : Bytes}
  {table : SectionTable} {lc : LoadedContainer}

/-- The step of a journal section that the file has. -/
theorem replayJournal_holds {env : Env} {seeded vm : ReplayVM} {journalRan : Bool} {journal : Bytes}
    (h : table.Accepted data.length) (hrun : options.runJournal = true)
    (hj : table.Holds data .journal journal) :
    replayJournal options data env table seeded = .ok (vm, journalRan) ↔
      journalRan = true ∧ ∃ r, Machine.Ok (run env) seeded journal () vm r :=
  replayJournal_ok_iff hrun (h.withSection_holds (by decide) hj)

/-- A heap without nodes seeds nothing. -/
theorem seeded_of_noNodes {schema : Schema} {atoms : AtomPool} {seeded : ReplayVM}
    (h : table.Accepted data.length)
    (hheap : ∀ bytes, table.Holds data .heap bytes → ∃ rest, readVarintU32 bytes = .ok (0, rest))
    (hseeded : withSection data table .heap ({} : ReplayVM) (fun r =>
      orStatus ((decodeHeap growth schema atoms options.limits r).map fun heap =>
        ReplayVM.seed {} heap.1)) = .ok seeded) : seeded = {} := by
  rcases h.withSection_eq (show SectionTag.heap ≠ .unknown by decide) ({} : ReplayVM) _ with ⟨bytes, hb, heq⟩ | ⟨-, heq⟩
  · rw [heq] at hseeded
    obtain ⟨rest, hcount⟩ := hheap bytes hb
    have hdecode : decodeHeap growth schema atoms options.limits bytes = .ok (⟨Vec.empty⟩, rest) := by
      rw [decodeHeap, bind_of_ok hcount, if_neg (by simp)]
      rfl
    rw [hdecode] at hseeded
    exact (Except.ok.inj hseeded).symm
  · rw [heq] at hseeded
    exact (Except.ok.inj hseeded).symm

/-- The XREF section is reconciled with the names of the index only. -/
theorem decodeAndReconcile_trims {x y : XrefIndex} (h : x.Trims y) {atoms : AtomPool} {limits : Limits}
    {nodeCount : Nat} :
    y.decodeAndReconcile atoms limits nodeCount = x.decodeAndReconcile atoms limits nodeCount := by
  have hname : y.byName = x.byName := funext fun name => by
    rw [XrefIndex.byName, XrefIndex.byName, h.nameToId]
  rw [XrefIndex.decodeAndReconcile, XrefIndex.decodeAndReconcile, hname]

/-- **A file whose journal was compacted**, when the compacted journal runs to the same end. -/
theorem load_keeps {data' : Bytes} {table' : SectionTable} {journal journal' r' : Bytes} {vm' : ReplayVM}
    (hlimits : options.limits = {}) (hrun : options.runJournal = true)
    (hload : loadSections growth ownerSlot options data table = .ok lc)
    (h : table.Accepted data.length) (h' : table'.Accepted data'.length)
    (hheap : ∀ bytes, table.Holds data .heap bytes → ∃ rest, readVarintU32 bytes = .ok (0, rest))
    (hjournal : table.Holds data .journal journal) (hjournal' : table'.Holds data' .journal journal')
    (hothers : table.SameBut data table' data' .journal)
    (hok' : Machine.Ok (run (lc.env growth ownerSlot)) {} journal' () vm' r')
    (halike : lc.vm.Alike vm') (hsame : lc.vm.Same vm') (hquotes : lc.vm.Quotes vm') :
    ∃ lc', loadSections growth ownerSlot options data' table' = .ok lc' ∧
      lc.Keeps options.strictValidation lc' := by
  obtain ⟨atoms, schema, seeded, vm, journalRan, w, m, ha, hs, hh, hj, hx, hm, rfl⟩ :=
    loadSections_ok_iff.mp hload
  obtain rfl := seeded_of_noNodes h hheap hh
  obtain ⟨rfl, r, hok⟩ := (replayJournal_holds h hrun hjournal).mp hj
  have hsound : vm.Sound := by
    obtain ⟨k, hstate⟩ := stateAt_of_run hok
    exact sound_of_fresh (show options.limits.IdsFit from hlimits ▸ idsFit_default) hstate
  have hsize : vm.nodes.size ≤ 2 ^ 32 := Nat.le_of_lt (Nat.lt_of_le_of_lt vm.size_le_weight hsound.room)
  have htrims := trims_of_same halike hsame hquotes hsize
  have htable := core_of_trims htrims
  have hxref := XrefIndex.trims_build htrims
  refine ⟨{ limits := options.limits, atoms, schema, sections := table', vm := vm'
            xref := XrefIndex.build vm'.nodes.data
            report := validateGraph vm'.nodes.data atoms options.strictValidation schema
            sectionMeta := m, xrefWarnings := w, journalRan := true },
    loadSections_ok_iff.mpr ⟨atoms, schema, {}, vm', true, w, m, ?_, ?_, ?_, ?_, ?_, ?_, rfl⟩,
    ⟨rfl, rfl, rfl, rfl, rfl, rfl, hsame, hquotes, hxref, sameCounts_of_trims htrims, ?_, ?_⟩⟩
  · rw [hothers.withSection_eq h h' (by decide) (by decide)]
    exact ha
  · rw [hothers.withSection_eq h h' (by decide) (by decide)]
    exact hs
  · rw [hothers.withSection_eq h h' (by decide) (by decide)]
    exact hh
  · exact (replayJournal_holds h' hrun hjournal').mpr ⟨rfl, r', hok'⟩
  · rw [hothers.withSection_eq h h' (by decide) (by decide), decodeAndReconcile_trims hxref, ← hsame.size]
    exact hx
  · rw [hothers.withSection_eq h h' (by decide) (by decide)]
    exact hm
  · rw [issues_validateGraph, issues_validateGraph]
    exact flatMap_trims htrims fun n m h => (h.nodeIssues htable).1
  · intro hlenient
    rw [issues_validateGraph, issues_validateGraph]
    exact flatMap_eq_of_trims htrims fun n m h => (h.nodeIssues htable).2 hlenient

end Load

/-- **Compacting the journal of a file**: it loads alike iff the groups of the journal fit. -/
theorem load_compacted (growth : Growth) (options : LoadOptions) (data journal : Bytes) (lc : LoadedContainer)
    (hlimits : options.limits = {}) (hrun : options.runJournal = true)
    (hload : load growth .cached options data = .ok lc)
    (hheap : ∀ bytes, lc.sections.Holds data .heap bytes → ∃ rest, readVarintU32 bytes = .ok (0, rest))
    (hjournal : lc.sections.Holds data .journal journal)
    (hquiet : Quiet (lc.env growth .cached) {} journal) :
    ∃ ops res, RunsOver (lc.env growth .cached) {} journal ops ∧ compact lc.schema journal = .ok res ∧
      ∀ (data' rest : Bytes) (table' : SectionTable),
        SectionTable.decode data'.length {} {} data' = (.ok ((), rest), table') →
        lc.sections.SameBut data table' data' .journal → table'.Holds data' .journal res.journalBytes →
          ((∃ lc', load growth .cached options data' = .ok lc' ∧ lc.Keeps options.strictValidation lc') ↔
            GroupsFit growth 0 [] ops) := by
  obtain ⟨r, table, hdecode, hsections⟩ := decode_of_load hload
  have h := SectionTable.accepted_of_decode hdecode
  have hloaded := hsections
  obtain ⟨atoms, schema, seeded, vm, journalRan, w, m, -, -, hh, hj, -, -, rfl⟩ :=
    loadSections_ok_iff.mp hsections
  obtain rfl := seeded_of_noNodes h hheap hh
  obtain ⟨-, r, hok⟩ := (replayJournal_holds h hrun hjournal).mp hj
  obtain ⟨count, body, ops, hcount, hle, hlen, hrep, hframes⟩ := run_ok_iff.mp hok
  have hover : RunsOver { schema, atoms, limits := options.limits, growth, ownerSlot := .cached } {}
      journal ops := ⟨count, body, vm, r, hcount, hlen, hrep⟩
  obtain ⟨res, hres, hkept, hfits⟩ := compact_run hlimits rfl hok hquiet hover
  refine ⟨ops, res, hover, hres, fun data' rest table' hdecode' hothers hjournal' => ?_⟩
  rw [← hlimits] at hdecode'
  have h' := SectionTable.accepted_of_decode hdecode'
  rw [load_of_decode hdecode']
  constructor
  · rintro ⟨lc', hload', hkeeps⟩
    obtain ⟨atoms', schema', seeded', vm', _, _, _, -, -, hh', hj', -, -, rfl⟩ :=
      loadSections_ok_iff.mp hload'
    obtain rfl : atoms' = atoms := hkeeps.atoms
    obtain rfl : schema' = schema := hkeeps.schema
    have hheap' : ∀ bytes, table'.Holds data' .heap bytes → ∃ rest, readVarintU32 bytes = .ok (0, rest) :=
      fun bytes hb => hheap bytes ((hothers .heap (by decide) (by decide) bytes).mpr hb)
    obtain rfl := seeded_of_noNodes h' hheap' hh'
    obtain ⟨-, r', hok'⟩ := (replayJournal_holds h' hrun hjournal').mp hj'
    exact hfits ⟨vm', r', hok', hkeeps.same⟩
  · intro hroom
    obtain ⟨vm', r', hok', halike, hsame, hquotes⟩ := hkept hroom
    exact load_keeps hlimits hrun hloaded h h' hheap hjournal hjournal' hothers hok' halike hsame hquotes

/-- A file with a kind of one reference field, and a journal. -/
def journalFile (journal : Bytes) : Bytes :=
  kMagic ++ [1, 0, 0, 0, 3, 0, 0, 0] ++
    (u32 SectionTag.atom.raw ++ [0, 0, 0, 0, 64, 0, 0, 0, 3, 0, 0, 0]) ++
    (u32 SectionTag.schema.raw ++ [0, 0, 0, 0, 67, 0, 0, 0, 6, 0, 0, 0]) ++
    (u32 SectionTag.journal.raw ++ [0, 0, 0, 0, 73, 0, 0, 0] ++ u32 (UInt32.ofNat journal.length)) ++
    ([1, 1, 0x61] ++ [1, 0, 1, 0, 3, 0] ++ journal)

/-- A field set twice, and a group. -/
def setTwice : List Op :=
  [.newNode 0 0, .setField 0 0 (.ref 0), .nop, .setField 0 0 (.ref 0), .beginGroup 0 4, .addChild 0,
    .endGroup]

/-- What the compactor leaves of it. -/
def setOnce : List Op :=
  [.newNode 0 0, .setField 0 0 (.ref 0), .beginGroup 0 0, .addChild 0, .endGroup]

theorem load_compacted_setTwice :
    ∃ lc, load Growth.doubling .cached {} (journalFile (journalOf setTwice)) = .ok lc ∧ ∃ ops,
      RunsOver (lc.env Growth.doubling .cached) {} (journalOf setTwice) ops ∧
      ((∃ lc', load Growth.doubling .cached {} (journalFile (journalOf setOnce)) = .ok lc' ∧
        lc.Keeps false lc') ↔ GroupsFit Growth.doubling 0 [] ops) := by
  refine ⟨_, rfl, ?_⟩
  obtain ⟨ops, res, hover, hres, h⟩ := load_compacted Growth.doubling {} (journalFile (journalOf setTwice))
    (journalOf setTwice) _ rfl rfl rfl
    (by
      rintro bytes ⟨e, he, htag, -⟩
      rcases List.mem_cons.mp he with rfl | he
      · cases htag
      rcases List.mem_cons.mp he with rfl | he
      · cases htag
      rcases List.mem_singleton.mp he with rfl
      cases htag)
    ⟨_, List.mem_cons_of_mem _ (List.mem_cons_of_mem _ List.mem_cons_self), rfl, rfl⟩
    (quiet_of_executed rfl (by decide))
  refine ⟨ops, hover, h (journalFile (journalOf setOnce)) _ _ rfl ?_ ?_⟩
  · refine fun other _ hne bytes => ⟨?_, ?_⟩ <;> rintro ⟨e, he, htag, hb⟩
    all_goals
      rcases List.mem_cons.mp he with rfl | he
      · exact ⟨_, List.mem_cons_self, htag, hb⟩
      rcases List.mem_cons.mp he with rfl | he
      · exact ⟨_, List.mem_cons_of_mem _ List.mem_cons_self, htag, hb⟩
      rcases List.mem_singleton.mp he with rfl
      exact absurd (SectionTag.raw_inj htag.symm) hne
  · obtain rfl := Except.ok.inj (hres.symm.trans rfl)
    exact ⟨_, List.mem_cons_of_mem _ (List.mem_cons_of_mem _ List.mem_cons_self), rfl, rfl⟩

end Stratavm
