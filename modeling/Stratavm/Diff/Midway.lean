import Stratavm.Diff.Fits

/-!
# Running the journal of a diff

`diff_to_journal` writes the changes of the names of the after-table in the order they are visited, and
then drops what is gone. `Midway` is where the machine is after some of the names: those written so far
match the after-table, the others have their nodes of before, and the nodes made since are
placeholders or the first nodes of new names.

* **`Midway.visit`**: one name more, whichever way the machine got through its opcodes.
* `Midway.performs`: the machine does get through them.
* **`Midway.run`**: under `PatchFits` the whole patch is performed, and what it leaves matches the
  after-table under every name.

The steps ask for `VisitFits` of one name only, so that what a patch relies on can also be read off a
run, name by name (`Diff/Necessary.lean`).

Out of scope: changes of a diff that was decoded and not computed.
-/

namespace Stratavm

open Lib

/-! ## Names visited -/

/-- A name that was visited and is new. -/
def NewIn (S : ReplayVM) (visited : List (AtomId × Node)) (c : AtomId) : Prop :=
  c ∈ visited.map Prod.fst ∧ (byName S.nodes.data).lookup c = none

section Names

variable {S S' : ReplayVM} {visited : List (AtomId × Node)} {name c : AtomId} {a : Node}

/-- A name that the index has is that of an alive node. -/
theorem ReplayVM.Sound.byName_of_found (h : S.Sound) (hfound : S.findNamed c ≠ kInvalidNode) :
    (byName S.nodes.data).lookup c ≠ none := by
  obtain ⟨hproper, n, hn, hname, halive⟩ := h.index _ _ (ReplayVM.lookup_of_findNamed hfound)
  intro hnone
  have hmem : n ∈ namesakes S.nodes.data c :=
    mem_namesakes.mpr ⟨List.mem_of_getElem? hn, halive, hname⟩
  rw [(byName_lookup_eq_none hproper).mp hnone] at hmem
  cases hmem

theorem mem_unindexed : c ∈ unindexed S S' visited ↔
    (∃ entry ∈ visited, c ∈ gainedNames S S' entry.1 entry.2) ∧ S.findNamed c = kInvalidNode ∧
      (byName S.nodes.data).lookup c ≠ none := by
  unfold unindexed
  rw [Finset.mem_filter, List.mem_toFinset, List.mem_flatMap]

theorem mem_unindexed_append : c ∈ unindexed S S' (visited ++ [(name, a)]) ↔
    c ∈ unindexed S S' visited ∨ c ∈ gainedNames S S' name a ∧ S.findNamed c = kInvalidNode ∧
      (byName S.nodes.data).lookup c ≠ none := by
  rw [mem_unindexed, mem_unindexed, ← or_and_right]
  refine and_congr_left fun _ => ?_
  simp [or_and_right, exists_or]

theorem newIn_append : NewIn S (visited ++ [(name, a)]) c ↔
    NewIn S visited c ∨ c = name ∧ (byName S.nodes.data).lookup c = none := by
  unfold NewIn
  rw [← or_and_right, List.map_append, List.mem_append, List.map_cons, List.map_nil,
    List.mem_singleton]

theorem newNames_append : newNames S (visited ++ [(name, a)]) =
    newNames S visited + if (byName S.nodes.data).lookup name = none then 1 else 0 := by
  unfold newNames
  rw [List.countP_append, List.countP_singleton]
  simp

/-- The names of children are proper, and names of nodes. -/
theorem exists_of_mem_childNames {nodes : List Node} {children : List NodeId}
    (h : c ∈ childNames nodes children) : c ≠ kInvalidAtom ∧ ∃ n ∈ nodes, n.name = c := by
  obtain ⟨t, -, ht⟩ := List.mem_filterMap.mp h
  cases hn : nodes[t.toNat]? with
  | none =>
    rw [hn] at ht
    cases ht
  | some n =>
    rw [hn] at ht
    by_cases hproper : n.name = kInvalidAtom
    · simp [hproper] at ht
    · obtain rfl : n.name = c := by simpa [hproper] using ht
      exact ⟨hproper, n, List.mem_of_getElem? hn, rfl⟩

end Names

/-! ## The opcodes of a name -/

/-- The `NEW_NODE` of a name that is new. -/
def makeOps (S : ReplayVM) (name : AtomId) (a : Node) : List Op :=
  if (byName S.nodes.data).lookup name = none then [.newNode a.kind name] else []

/-- A change makes its node, sets its fields and adds its children, where there is something to do. -/
theorem ops_changeAfter (order : IterationOrder) (S S' : ReplayVM) (name : AtomId) (a : Node) :
    (changeAfter order S.nodes.data S'.nodes.data (name, a)).ops = makeOps S name a ++
      ((changeAfter order S.nodes.data S'.nodes.data (name, a)).fieldOps ++
        (changeAfter order S.nodes.data S'.nodes.data (name, a)).childOps) := by
  unfold makeOps changeAfter
  cases (byName S.nodes.data).lookup name with
  | none => rfl
  | some b =>
    dsimp only
    rw [if_neg nofun, List.nil_append]
    rcases compared_change order S.nodes.data S'.nodes.data name b a with hchange | hchange
    · unfold NodeChange.ops
      rw [hchange]
    · have hmatches := comparedChange_unchanged_iff.mp hchange
      have hfields : fieldDifferences order name b a = [] :=
        fieldDifferences_eq_nil_iff.mpr ⟨hmatches.set, hmatches.unset⟩
      have hadded : (comparedChange order S.nodes.data S'.nodes.data name b a).childrenAdded = [] := by
        refine List.eq_nil_iff_forall_not_mem.mpr fun c hc => ?_
        obtain ⟨hafter, hbefore⟩ := mem_childrenAdded.mp hc
        exact hbefore ((hmatches.children c).mpr hafter)
      unfold NodeChange.ops NodeChange.fieldOps NodeChange.childOps
      rw [hchange, NodeChange.sets_eq_nil hfields, if_pos hadded]
      rfl

/-! ## Midway -/

/-- Where the machine is after some names of a patch: the nodes of `visited` are made, and those of
`edited` have their fields and children. -/
structure Midway (S S' : ReplayVM) (visited edited : List (AtomId × Node)) (vm : ReplayVM) :
    Prop where
  sound : vm.Sound
  frames : vm.frames = []
  names : S.names <+: vm.names
  size : vm.nodes.size = S.nodes.size + newNames S visited + (unindexed S S' edited).card
  /-- The names of before, those of the new nodes and those of placeholders. -/
  found : ∀ c, vm.findNamed c ≠ kInvalidNode ↔
    S.findNamed c ≠ kInvalidNode ∨ NewIn S visited c ∨ c ∈ unindexed S S' edited
  kept : ∀ c, S.findNamed c ≠ kInvalidNode → vm.findNamed c = S.findNamed c
  /-- Placeholders are for names of the after-table. -/
  after : ∀ c ∈ unindexed S S' edited, (byName S'.nodes.data).lookup c ≠ none
  /-- A name that is still to come has at most placeholders more, behind its own nodes. -/
  pending : ∀ c, c ∉ visited.map Prod.fst → ∃ more,
    namesakes vm.bodies c = namesakes S.bodies c ++ more ∧ (more ≠ [] → c ∈ unindexed S S' edited)
  matched : ∀ entry ∈ edited, Matched vm.bodies S'.nodes.data entry.1
  /-- Nodes made since are placeholders, or the first nodes of new names, by their ids. -/
  made : ∀ i (n : Node), vm.bodies[i]? = some n → S.nodes.size ≤ i → n.kind = kInvalidKind ∨
    ∃ a, (n.name, a) ∈ visited ∧ (byName S.nodes.data).lookup n.name = none ∧
      (namesakes vm.bodies n.name).head? = some n ∧ (a.fields ≠ ∅ → a.id.toNat = i)

/-- A new name that is still to come has no nodes. -/
theorem Midway.no_namesakes {S S' vm : ReplayVM} {visited edited : List (AtomId × Node)} {c : AtomId}
    (h : Midway S S' visited edited vm) (hproper : c ≠ kInvalidAtom) (hc : c ∉ visited.map Prod.fst)
    (hnew : (byName S.nodes.data).lookup c = none) : namesakes vm.bodies c = [] := by
  obtain ⟨more, hmore, hin⟩ := h.pending c hc
  have hnone : more = [] := by
    by_contra hne
    exact (mem_unindexed.mp (hin hne)).2.2 hnew
  rw [hmore, hnone, ReplayVM.namesakes_bodies, (byName_lookup_eq_none hproper).mp hnew]
  rfl

theorem midway_start {S S' : ReplayVM} (hsound : S.Sound) (hframes : S.frames = []) :
    Midway S S' [] [] S where
  sound := hsound
  frames := hframes
  names := List.prefix_rfl
  size := rfl
  found c := (or_iff_left (by simp [NewIn, unindexed])).symm
  kept _ _ := rfl
  after c hc := by simp [unindexed] at hc
  pending c _ := ⟨[], (List.append_nil _).symm, fun h => absurd rfl h⟩
  matched _ hmem := by cases hmem
  made i n hn hi := by
    have hlt := (List.getElem?_eq_some_iff.mp hn).1
    rw [ReplayVM.length_bodies] at hlt
    omega

/-! ## The node of a name -/

/-- Children are in range. -/
theorem ReplayVM.Sound.children_bodies {vm : ReplayVM} (h : vm.Sound) :
    ∀ n ∈ vm.bodies, ∀ t ∈ n.children, t.toNat < vm.bodies.length := by
  intro b hb t ht
  obtain ⟨n, hn, rfl⟩ := List.mem_map.mp hb
  rw [ReplayVM.length_bodies]
  exact h.edges n hn t (.inl ht)

/-- What a name finds once a node is made. -/
theorem ReplayVM.findNamed_createNode (env : Env) (vm : ReplayVM) (kind : KindId) {name : AtomId}
    (hproper : name ≠ kInvalidAtom) (c : AtomId) :
    (vm.createNode env kind name).findNamed c =
      if c = name then UInt32.ofNat vm.nodes.size else vm.findNamed c := by
  unfold findNamed createNode
  rw [lookup_registerName]
  by_cases hc : c = name
  · simp [hc, hproper]
  · simp [hc]

/-- What making the node `n` does. -/
structure Creates (vm vm' : ReplayVM) (n : Node) : Prop where
  frames : vm'.frames = vm.frames
  bodies : vm'.bodies = vm.bodies ++ [n]
  position : n.id.toNat = vm.nodes.size
  alive : n.alive = true
  bare : n.fields = ∅ ∧ n.children = []
  found : ∀ c, vm'.findNamed c = if c = n.name then n.id else vm.findNamed c

theorem creates_of_newNode {env : Env} {vm vm' : ReplayVM} {kind : KindId} {name : AtomId}
    (hproper : name ≠ kInvalidAtom) (hsize : vm.nodes.size < 2 ^ 32)
    (h : ReplayVM.Effect env vm (.newNode kind name) vm') :
    ∃ n, Creates vm vm'.tick n ∧ n.kind = kind ∧ n.name = name := by
  cases h
  exact ⟨{ id := UInt32.ofNat vm.nodes.size, kind, name, alive := true },
    ⟨rfl, ReplayVM.bodies_createNode, toNat_ofNat_of_lt hsize, rfl, ⟨rfl, rfl⟩,
      ReplayVM.findNamed_createNode env vm kind hproper⟩, rfl, rfl⟩

namespace Creates

variable {vm vm' : ReplayVM} {n : Node} {c : AtomId}

theorem size (h : Creates vm vm' n) : vm'.nodes.size = vm.nodes.size + 1 := by
  rw [← ReplayVM.length_bodies, h.bodies, List.length_append, ReplayVM.length_bodies]
  rfl

theorem self (h : Creates vm vm' n) (hnone : namesakes vm.bodies n.name = []) :
    namesakes vm'.bodies n.name = [n] := by
  rw [h.bodies, namesakes_append, hnone]
  simp [namesakes, h.alive]

theorem others (h : Creates vm vm' n) (hc : c ≠ n.name) :
    namesakes vm'.bodies c = namesakes vm.bodies c := by
  have hnone : namesakes [n] c = [] := by simp [namesakes, Ne.symm hc]
  rw [h.bodies, namesakes_append, hnone, List.append_nil]

/-- The nodes of the table are those of before, and the new one behind them. -/
theorem cases_getElem? (h : Creates vm vm' n) {i : Nat} {m : Node} (hm : vm'.bodies[i]? = some m) :
    vm.bodies[i]? = some m ∨ i = vm.nodes.size ∧ m = n := by
  rw [h.bodies] at hm
  rcases Nat.lt_or_ge i vm.bodies.length with hlt | hge
  · rw [List.getElem?_append_left hlt] at hm
    exact .inl hm
  · rw [List.getElem?_append_right hge] at hm
    obtain ⟨hlt, hm⟩ := List.getElem?_eq_some_iff.mp hm
    rw [List.length_singleton] at hlt
    have hlength : vm.bodies.length = vm.nodes.size := ReplayVM.length_bodies
    refine .inr ⟨by omega, ?_⟩
    simpa using hm.symm

end Creates

/-- The machine with the nodes of `visited` and `name`, where what follows of the change `nc` of `name`
reaches its first node `m`, and says how that one differs from the node `a` of the after-table. -/
structure Begun (S S' : ReplayVM) (visited : List (AtomId × Node)) (name : AtomId) (a : Node)
    (nc : NodeChange) (mid : ReplayVM) (m : Node) : Prop where
  midway : Midway S S' (visited ++ [(name, a)]) visited mid
  first : (namesakes mid.bodies name).head? = some m
  describes : nc.Describes S.nodes.data S'.nodes.data m a
  inRange : ∀ t ∈ m.children, t.toNat < S.nodes.size
  numbered : nc.sets ≠ [] → nc.afterId = m.id
  owner : nc.childrenAdded ≠ [] → mid.findNamed name = m.id

section Steps

variable {env : Env} {order : IterationOrder} {S S' vm vm' mid : ReplayVM}
  {visited rest : List (AtomId × Node)} {name : AtomId} {a b m : Node} {nc : NodeChange}

theorem changeAfter_new (hnew : (byName S.nodes.data).lookup name = none) :
    changeAfter order S.nodes.data S'.nodes.data (name, a) =
      addedChange order S'.nodes.data name a := by
  unfold changeAfter
  rw [hnew]

theorem changeAfter_old (hold : (byName S.nodes.data).lookup name = some b) :
    changeAfter order S.nodes.data S'.nodes.data (name, a) =
      comparedChange order S.nodes.data S'.nodes.data name b a := by
  unfold changeAfter
  rw [hold]

/-- What is visited is the first node of its name. -/
theorem visited_cons
    (hentries : order.entries .afterByName (byName S'.nodes.data) = visited ++ (name, a) :: rest) :
    name ≠ kInvalidAtom ∧ ∃ as, namesakes S'.nodes.data name = a :: as :=
  mem_entries_byName.mp (hentries ▸ List.mem_append_right _ List.mem_cons_self)

/-- What is visited has a change. -/
theorem changeAfter_mem
    (hentries : order.entries .afterByName (byName S'.nodes.data) = visited ++ (name, a) :: rest) :
    changeAfter order S.nodes.data S'.nodes.data (name, a) ∈
      (diffNodeGraphs order S.nodes.data S'.nodes.data).changes := by
  rw [changes_diffNodeGraphs, hentries]
  exact List.mem_append_left _ (List.mem_map_of_mem (List.mem_append_right _ List.mem_cons_self))

/-- A name is visited once. -/
theorem not_visited
    (hentries : order.entries .afterByName (byName S'.nodes.data) = visited ++ (name, a) :: rest) :
    name ∉ visited.map Prod.fst := by
  have hnodup : ((order.entries .afterByName (byName S'.nodes.data)).map Prod.fst).Nodup :=
    order.nodup ..
  rw [hentries, List.map_append, List.map_cons, List.nodup_append] at hnodup
  exact fun hmem => hnodup.2.2 _ hmem _ List.mem_cons_self rfl

/-- What is visited is in the after-table. -/
theorem lookup_of_visited {c : AtomId}
    (hentries : order.entries .afterByName (byName S'.nodes.data) = visited ++ (name, a) :: rest)
    (hc : c ∈ (visited ++ [(name, a)]).map Prod.fst) : (byName S'.nodes.data).lookup c ≠ none := by
  obtain ⟨⟨c, a'⟩, hmem, rfl⟩ := List.mem_map.mp hc
  have hmem' : (c, a') ∈ order.entries .afterByName (byName S'.nodes.data) := by
    rw [hentries, List.append_cons]
    exact List.mem_append_left _ hmem
  rw [(order.mem_iff ..).mp hmem']
  exact nofun

/-- A node that is made for a new name. -/
theorem Midway.create (hS : S.Sound) (h : Midway S S' visited visited vm) (hsound : vm'.Sound)
    (hnames : vm.names <+: vm'.names) (hcreates : Creates vm vm' m)
    (hproper : m.name ≠ kInvalidAtom) (hname : m.name ∉ visited.map Prod.fst)
    (hnew : (byName S.nodes.data).lookup m.name = none)
    (hnumbered : a.fields ≠ ∅ → a.id.toNat = nextId S S' visited) :
    Midway S S' (visited ++ [(m.name, a)]) visited vm' := by
  have hsize : vm.nodes.size = nextId S S' visited := h.size
  have hnone := h.no_namesakes hproper hname hnew
  refine ⟨hsound, hcreates.frames.trans h.frames, h.names.trans hnames, ?_, fun c => ?_, fun c hc => ?_,
    h.after, fun c hc => ?_, fun entry hentry => ?_, fun i n hn hi => ?_⟩
  · rw [hcreates.size, hsize, nextId, newNames_append, if_pos hnew]
    omega
  · rw [hcreates.found, newIn_append]
    by_cases hc : c = m.name
    · have hlt : m.id.toNat < vm'.nodes.size := by
        rw [hcreates.size, hcreates.position]
        exact Nat.lt_succ_self _
      rw [if_pos hc]
      exact iff_of_true (hsound.ne_invalid hlt) (.inr (.inl (.inr ⟨hc, hc ▸ hnew⟩)))
    · have hnot : ¬ (c = m.name ∧ (byName S.nodes.data).lookup c = none) := fun h => hc h.1
      rw [if_neg hc, h.found c, or_iff_left hnot]
  · have hne : c ≠ m.name := fun heq => hS.byName_of_found hc (heq ▸ hnew)
    rw [hcreates.found, if_neg hne]
    exact h.kept c hc
  · rw [List.map_append, List.mem_append] at hc
    push Not at hc
    rw [hcreates.others fun heq => hc.2 (heq ▸ List.mem_cons_self)]
    exact h.pending c hc.1
  · have hne : entry.1 ≠ m.name := fun heq => hname (heq ▸ List.mem_map_of_mem hentry)
    refine (h.matched entry hentry).mono (by rw [hcreates.others hne]) ?_ h.sound.children_bodies
    rw [ReplayVM.names_bodies, ReplayVM.names_bodies]
    exact hnames
  · rcases hcreates.cases_getElem? hn with hn | ⟨rfl, rfl⟩
    · refine (h.made i n hn hi).imp id ?_
      rintro ⟨a', hmem, hnew', hhead, hid⟩
      have hne : n.name ≠ m.name := fun heq =>
        hname (heq ▸ List.mem_map_of_mem (f := Prod.fst) hmem)
      exact ⟨a', List.mem_append_left _ hmem, hnew', by rw [hcreates.others hne, hhead], hid⟩
    · refine .inr ⟨a, List.mem_append_right _ List.mem_cons_self, hnew, ?_, fun hne => ?_⟩
      · rw [hcreates.self hnone]
        rfl
      · rw [hnumbered hne, hsize]

/-- Where `NEW_NODE` makes the node of a new name. -/
theorem Midway.begin_new (hlater : S.Follows env S') (h : Midway S S' visited visited vm)
    (hproper : name ≠ kInvalidAtom) (hname : name ∉ visited.map Prod.fst)
    (hnew : (byName S.nodes.data).lookup name = none) (ha : a ∈ namesakes S'.nodes.data name)
    (hnumbered : a.fields ≠ ∅ → a.id.toNat = nextId S S' visited)
    (hroom : vm.weight + 1 < 2 ^ 32)
    (heff : ReplayVM.Effect env vm (.newNode a.kind name) vm') :
    ∃ m, Begun S S' visited name a (changeAfter order S.nodes.data S'.nodes.data (name, a))
      vm'.tick m := by
  have hlt : vm.nodes.size < 2 ^ 32 := Nat.lt_of_le_of_lt ReplayVM.size_le_weight h.sound.room
  have hnames : vm.names <+: vm'.tick.names := heff.names_prefix
  obtain ⟨m, hcreates, hkind, rfl⟩ := creates_of_newNode hproper hlt heff
  obtain ⟨hfields, hchildren⟩ := hcreates.bare
  have hamem : a ∈ S'.nodes.data := (mem_namesakes.mp ha).1
  rw [changeAfter_new hnew]
  refine ⟨m, h.create hlater.sound (heff.sound h.sound hroom) hnames hcreates hproper hname hnew
    hnumbered, ?_, ?_, fun t ht => ?_, fun hsets => ?_, fun _ => ?_⟩
  · rw [hcreates.self (h.no_namesakes hproper hname hnew)]
    rfl
  · exact describes_added (hlater.sound'.id_ne_invalid hamem)
      (fun f v hv => ((hlater.writable_of_mem hamem).fields f v hv).2.1) hkind hfields hchildren
  · rw [hchildren] at ht
    cases ht
  · have hsize : vm.nodes.size = nextId S S' visited := h.size
    refine UInt32.toNat_inj.mp (Eq.trans (hnumbered fun hnone => hsets ?_)
      (hsize.symm.trans hcreates.position.symm))
    refine NodeChange.sets_eq_nil ?_
    unfold addedChange
    rw [entries_empty hnone]
    rfl
  · rw [hcreates.found, if_pos rfl]

/-- Fields that are not removed are set to values of the tables, and these are valid. -/
theorem valid_of_fieldDifferences (hlater : S.Follows env S') (hb : b ∈ S.nodes.data)
    (ha : a ∈ S'.nodes.data) (hkeep : ∀ fc ∈ fieldDifferences order name b a,
      fc.after.type = .invalid → fc.before.type = .invalid) :
    ∀ fc ∈ fieldDifferences order name b a, fc.after.type ≠ .invalid := by
  intro fc hfc hinvalid
  have hvalid := hkeep fc hfc hinvalid
  have hbefore := hlater.writable.nodes _ b (hlater.sound.node?_of_mem hb)
  have hafter := hlater.writable_of_mem ha
  rcases mem_fieldDifferences.mp hfc with
    ⟨f, v, hv, ⟨-, rfl⟩ | ⟨w, -, -, rfl⟩⟩ | ⟨f, w, hw, -, rfl⟩
  · exact (hafter.fields f v hv).2.1 hinvalid
  · exact (hafter.fields f v hv).2.1 hinvalid
  · exact (hbefore.fields f w hw).2.1 hvalid

/-- Where the name had a node before, which is still its first. -/
theorem Midway.begin_old (hlater : S.Follows env S') (h : Midway S S' visited visited vm)
    (hname : name ∉ visited.map Prod.fst)
    (hold : (byName S.nodes.data).lookup name = some b) (ha : a ∈ namesakes S'.nodes.data name)
    (hnc : nc = comparedChange order S.nodes.data S'.nodes.data name b a)
    (hremoved : nc.childrenRemoved = [])
    (hkeep : ∀ fc ∈ nc.fieldChanges, fc.after.type = .invalid → fc.before.type = .invalid)
    (hv : NodeFits env S S' visited name a) :
    ∃ m, Begun S S' visited name a nc vm m := by
  subst hnc
  obtain ⟨-, bs, hb⟩ := cons_of_byName hold
  have hbmem : b ∈ S.nodes.data := (mem_namesakes.mp (hb ▸ List.mem_cons_self)).1
  have hamem : a ∈ S'.nodes.data := (mem_namesakes.mp ha).1
  have hnot : (byName S.nodes.data).lookup name ≠ none := by
    rw [hold]
    exact nofun
  have hvalid := valid_of_fieldDifferences hlater hbmem hamem hkeep
  have hdesc := describes_compared (hv.kind b hold) (hlater.sound'.id_ne_invalid hamem)
    (fun f v hv => ((hlater.writable_of_mem hamem).fields f v hv).2.1) hremoved hvalid
  obtain ⟨more, hmore, -⟩ := h.pending name hname
  have hnew : ∀ c, ¬ (c = name ∧ (byName S.nodes.data).lookup c = none) := fun c hc =>
    hnot (hc.1 ▸ hc.2)
  refine ⟨b.body, ⟨h.sound, h.frames, h.names, ?_, fun c => ?_, h.kept, h.after, fun c hc => ?_, h.matched,
    fun i n hn hi => (h.made i n hn hi).imp id ?_⟩, ?_, ?_, fun t ht => ?_, fun hsets => ?_,
    fun hadded => ?_⟩
  · rw [h.size, newNames_append, if_neg hnot]
    rfl
  · rw [newIn_append, or_iff_left (hnew c)]
    exact h.found c
  · rw [List.map_append, List.mem_append] at hc
    exact h.pending c fun hmem => hc (.inl hmem)
  · rintro ⟨a', hmem, hrest⟩
    exact ⟨a', List.mem_append_left _ hmem, hrest⟩
  · rw [hmore, ReplayVM.namesakes_bodies, hb]
    rfl
  · exact ⟨hdesc.kind, hdesc.sets, hdesc.covers, hdesc.unset, hdesc.children⟩
  · exact hlater.sound.edges b hbmem t (.inl ht)
  · refine (hv.same b hold).resolve_right fun hsame => hsets ?_
    exact NodeChange.sets_eq_nil (hsame.differences name)
  · have hfound : S.findNamed name = b.id := by
      refine (hv.owner b hold).resolve_right fun hnone => hadded ?_
      refine List.eq_nil_iff_forall_not_mem.mpr fun c hc => ?_
      rw [← changeAfter_old hold, mem_childrenAdded_changeAfter, hnone] at hc
      cases hc
    refine (h.kept name ?_).trans hfound
    rw [hfound]
    exact hlater.sound.id_ne_invalid hbmem

/-- **The node of a name is there** once its `NEW_NODE`, if it has one, is performed. -/
theorem Midway.begin (hlater : S.Follows env S') (h : Midway S S' visited visited vm)
    (hnc : nc = changeAfter order S.nodes.data S'.nodes.data (name, a))
    (hentries : order.entries .afterByName (byName S'.nodes.data) = visited ++ (name, a) :: rest)
    (hremoved : nc.childrenRemoved = [])
    (hkeep : ∀ fc ∈ nc.fieldChanges, fc.after.type = .invalid → fc.before.type = .invalid)
    (hv : NodeFits env S S' visited name a) (hroom : vm.weight + (makeOps S name a).length < 2 ^ 32)
    (hperf : Performs env (makeOps S name a) vm mid) :
    ∃ m, Begun S S' visited name a nc mid m := by
  subst hnc
  obtain ⟨hproper, as, ha⟩ := visited_cons hentries
  have hname : name ∉ visited.map Prod.fst := not_visited hentries
  have hamem : a ∈ namesakes S'.nodes.data name := ha ▸ List.mem_cons_self
  unfold makeOps at hroom hperf
  cases hold : (byName S.nodes.data).lookup name with
  | none =>
    rw [if_pos hold] at hroom hperf
    cases hperf with
    | cons _ heff hnil =>
      cases hnil
      exact h.begin_new hlater hproper hname hold hamem (hv.numbered hold) hroom heff
  | some b =>
    rw [hold, if_neg nofun] at hperf
    cases hperf
    rw [changeAfter_old hold] at hremoved hkeep ⊢
    exact h.begin_old hlater hname hold hamem rfl hremoved hkeep hv

/-- An edit keeps what a node is. -/
theorem NodeChange.editAt_same (nc : NodeChange) (owner : NodeId) (children : List NodeId) (n : Node) :
    (nc.editAt owner children n).kind = n.kind ∧ (nc.editAt owner children n).name = n.name ∧
      (nc.editAt owner children n).alive = n.alive := by
  obtain ⟨-, hkind, hname, halive, -⟩ := setFields_other (if n.id = nc.afterId then nc.sets else []) n
  exact ⟨hkind, hname, halive⟩

/-- The table that the rest of a change leaves: nodes of other names are as they were, but for the
placeholders `made`. -/
structure Edited (name : AtomId) (nc : NodeChange) (m : Node) (made : List Node) (mid vm' : ReplayVM) :
    Prop where
  frames : vm'.frames = []
  placed : mid.Placed vm' nc.childrenAdded made
  others : ∀ c ≠ name, namesakes vm'.bodies c = namesakes mid.bodies c ++ namesakes made c
  first : (namesakes vm'.bodies name).head? = some (nc.edit (nc.childrenAdded.map vm'.findNamed) m)
  edits : ∃ g : Node → Node, (∀ n, (g n).kind = n.kind ∧ (g n).name = n.name ∧ (g n).alive = n.alive) ∧
    vm'.bodies = (mid.bodies ++ made).map g

/-- **What the rest of a change does.** -/
theorem Begun.table (h : Begun S S' visited name a nc mid m)
    (hnc : nc = changeAfter order S.nodes.data S'.nodes.data (name, a))
    (hroom : mid.weight + (nc.fieldOps ++ nc.childOps).length < 2 ^ 32)
    (hperf : Performs env (nc.fieldOps ++ nc.childOps) mid vm') :
    ∃ made, Edited name nc m made mid vm' := by
  have hname : nc.name = name := hnc ▸ name_changeAfter (name, a)
  have hproper : ∀ c ∈ nc.childrenAdded, c ≠ kInvalidAtom := by
    intro c hc
    rw [hnc, mem_childrenAdded_changeAfter, mem_gainedNames] at hc
    exact (exists_of_mem_childNames hc.1).1
  obtain ⟨made, hframes, hplaced, hbodies⟩ :=
    ReplayVM.edited_of_performs h.midway.sound h.midway.frames hproper hroom hperf
  let children := nc.childrenAdded.map vm'.findNamed
  let g := nc.editAt (mid.findNamed nc.name) children
  have hg : ∀ n, (g n).kind = n.kind ∧ (g n).name = n.name ∧ (g n).alive = n.alive :=
    nc.editAt_same _ _
  have hsakes : ∀ c, namesakes vm'.bodies c =
      (namesakes mid.bodies c ++ namesakes made c).map g := fun c => by
    rw [hbodies, ← namesakes_append]
    exact namesakes_map (fun n => ⟨(hg n).2.2, (hg n).2.1⟩) _ _
  have hfirst : m ∈ namesakes mid.bodies name := List.mem_of_head? h.first
  have howner : children ≠ [] → mid.findNamed nc.name = m.id := fun hne =>
    hname ▸ h.owner fun hnil => hne (List.map_eq_nil_iff.mpr hnil)
  have hself : g m = nc.edit children m := ReplayVM.editAt_self h.numbered howner
  -- the opcodes reach the first node of the name only
  have hfixed : ∀ n : Node, n.id ≠ m.id → g n = n := fun n hne =>
    ReplayVM.editAt_other (fun hsets heq => hne (heq.symm.trans (h.numbered hsets)))
      fun hchildren heq => hne (heq.symm.trans (howner hchildren))
  have hmlt : m.id.toNat < mid.nodes.size := by
    obtain ⟨n, hn, -⟩ := h.midway.sound.node_of_namesake hfirst
    exact ReplayVM.lt_size_of_node? hn
  refine ⟨made, hframes, hplaced, fun c hc => ?_, ?_, g, hg, hbodies⟩
  · rw [hsakes]
    refine (List.map_congr_left fun n hn => hfixed n fun hid => ?_).trans (List.map_id' _)
    rcases List.mem_append.mp hn with hn | hn
    · obtain ⟨hmem, -, hnname⟩ := mem_namesakes.mp hn
      obtain ⟨hmem', -, hmname⟩ := mem_namesakes.mp hfirst
      rw [h.midway.sound.eq_of_body_id hmem hmem' hid] at hnname
      exact hc (hnname.symm.trans hmname)
    · have hge := (hplaced.plain n (mem_namesakes.mp hn).1).2.2
      rw [hid] at hge
      omega
  · obtain ⟨ms, hms⟩ := List.head?_eq_some_iff.mp h.first
    rw [hsakes, hms, List.cons_append, List.map_cons, hself]
    rfl

/-- The placeholders of a change are for the names the index has lost. -/
theorem Begun.placeholder_iff (h : Begun S S' visited name a nc mid m)
    (hnc : nc = changeAfter order S.nodes.data S'.nodes.data (name, a))
    (hdefined : ∀ c ∈ gainedNames S S' name a, S.findNamed c ≠ kInvalidNode ∨
      c ∈ (visited ++ [(name, a)]).map Prod.fst ∨
        (byName S.nodes.data).lookup c ≠ none ∧ (byName S'.nodes.data).lookup c ≠ none)
    (c : AtomId) : c ∈ nc.childrenAdded ∧ mid.findNamed c = kInvalidNode ↔
      c ∈ unindexed S S' (visited ++ [(name, a)]) ∧ c ∉ unindexed S S' visited := by
  rw [hnc, mem_childrenAdded_changeAfter, mem_unindexed_append]
  have hfound := h.midway.found c
  constructor
  · rintro ⟨hc, hnone⟩
    have hnot : ¬ (_ ∨ _) := fun hsome => hfound.mpr hsome hnone
    push Not at hnot
    obtain ⟨hindex, hnew, hunindexed⟩ := hnot
    have hold : (byName S.nodes.data).lookup c ≠ none := by
      rcases hdefined c hc with hsome | hvisited | hboth
      · exact absurd hindex hsome
      · exact fun hnone => hnew ⟨hvisited, hnone⟩
      · exact hboth.1
    exact ⟨.inr ⟨hc, hindex, hold⟩, hunindexed⟩
  · rintro ⟨hc | ⟨hc, hindex, hold⟩, hunindexed⟩
    · exact absurd hc hunindexed
    · refine ⟨hc, ?_⟩
      by_contra hsome
      rcases hfound.mp hsome with hsome | hnew | hmem
      · exact hsome hindex
      · exact hold hnew.2
      · exact hunindexed hmem

theorem unindexed_subset :
    unindexed S S' visited ⊆ unindexed S S' (visited ++ [(name, a)]) := fun _ hc =>
  mem_unindexed_append.mpr (.inl hc)

/-- As many placeholders are made as there are names of this kind more. -/
theorem Edited.card {made : List Node} (hedited : Edited name nc m made mid vm')
    (hmade : ∀ c, c ∈ nc.childrenAdded ∧ mid.findNamed c = kInvalidNode ↔
      c ∈ unindexed S S' (visited ++ [(name, a)]) ∧ c ∉ unindexed S S' visited) :
    (unindexed S S' (visited ++ [(name, a)])).card =
      made.length + (unindexed S S' visited).card := by
  have hdiff : unindexed S S' (visited ++ [(name, a)]) \ unindexed S S' visited =
      (made.map Node.name).toFinset := by
    ext c
    rw [Finset.mem_sdiff, List.mem_toFinset, hedited.placed.lacking, hmade]
  rw [← Finset.card_sdiff_add_card_eq_card unindexed_subset, hdiff,
    List.toFinset_card_of_nodup hedited.placed.once, List.length_map]

/-- A name is found if it was, or a placeholder is made for it. -/
theorem Edited.found {made : List Node} (hedited : Edited name nc m made mid vm')
    (h : Midway S S' (visited ++ [(name, a)]) visited mid)
    (hmade : ∀ c, c ∈ nc.childrenAdded ∧ mid.findNamed c = kInvalidNode ↔
      c ∈ unindexed S S' (visited ++ [(name, a)]) ∧ c ∉ unindexed S S' visited) (c : AtomId) :
    vm'.findNamed c ≠ kInvalidNode ↔ S.findNamed c ≠ kInvalidNode ∨
      NewIn S (visited ++ [(name, a)]) c ∨ c ∈ unindexed S S' (visited ++ [(name, a)]) := by
  have hiff : vm'.findNamed c ≠ kInvalidNode ↔
      mid.findNamed c ≠ kInvalidNode ∨ c ∈ nc.childrenAdded := by
    by_cases hc : c ∈ nc.childrenAdded
    · exact iff_of_true (hedited.placed.found c hc) (.inr hc)
    · rw [hedited.placed.others c hc, or_iff_left hc]
  have hbefore : mid.findNamed c ≠ kInvalidNode → S.findNamed c ≠ kInvalidNode ∨
      NewIn S (visited ++ [(name, a)]) c ∨ c ∈ unindexed S S' (visited ++ [(name, a)]) := fun hsome =>
    ((h.found c).mp hsome).imp_right (Or.imp_right fun hc => unindexed_subset hc)
  rw [hiff]
  constructor
  · rintro (hsome | hc)
    · exact hbefore hsome
    · by_cases hsome : mid.findNamed c = kInvalidNode
      · exact .inr (.inr ((hmade c).mp ⟨hc, hsome⟩).1)
      · exact hbefore hsome
  · rintro (hsome | hnew | hc)
    · exact .inl ((h.found c).mpr (.inl hsome))
    · exact .inl ((h.found c).mpr (.inr (.inl hnew)))
    · by_cases hold : c ∈ unindexed S S' visited
      · exact .inl ((h.found c).mpr (.inr (.inr hold)))
      · exact .inr ((hmade c).mpr ⟨hc, hold⟩).1

/-- The name matches. -/
theorem Edited.matched {made as : List Node} (hedited : Edited name nc m made mid vm')
    (h : Begun S S' visited name a nc mid m) (hsound : vm'.Sound) (hnames : mid.names <+: vm'.names)
    (ha : namesakes S'.nodes.data name = a :: as) (hself : a.Comparable) :
    Matched vm'.bodies S'.nodes.data name := by
  obtain ⟨ms, hms⟩ := List.head?_eq_some_iff.mp hedited.first
  refine .present hms ha (h.describes.matches_edit hself ?_ ?_)
  · refine childNames_of_names ?_ h.inRange
    rw [ReplayVM.names_bodies]
    exact h.midway.names.trans hnames
  · refine childNames_found fun c hc => ?_
    obtain ⟨hproper, -, hget⟩ := hsound.name_findNamed (hedited.placed.found c hc)
    rw [ReplayVM.names_bodies]
    exact ⟨hproper, hget⟩

/-- What matched before still does: a placeholder is behind the first node of its name. -/
theorem Edited.matched_before {made : List Node} {entry : AtomId × Node}
    (hedited : Edited name nc m made mid vm')
    (h : Midway S S' (visited ++ [(name, a)]) visited mid) (hnames : mid.names <+: vm'.names)
    (hentries : order.entries .afterByName (byName S'.nodes.data) = visited ++ (name, a) :: rest)
    (hentry : entry ∈ visited) : Matched vm'.bodies S'.nodes.data entry.1 := by
  have hmatched := h.matched entry hentry
  have hne : entry.1 ≠ name := fun heq => not_visited hentries (heq ▸ List.mem_map_of_mem hentry)
  refine hmatched.mono ?_ ?_ h.sound.children_bodies
  · rw [hedited.others _ hne]
    cases hmatched with
    | absent _ hafter =>
      obtain ⟨-, others, hothers⟩ := mem_entries_byName.mp (hentries ▸ List.mem_append_left _ hentry)
      cases hafter.symm.trans hothers
    | present hb _ _ =>
      rw [hb]
      rfl
  · rw [ReplayVM.names_bodies, ReplayVM.names_bodies]
    exact hnames

/-- A node made since is a placeholder, or was there before the edit. -/
theorem Edited.made {made : List Node} (hedited : Edited name nc m made mid vm')
    (h : Midway S S' (visited ++ [(name, a)]) visited mid) {i : Nat} {n : Node}
    (hn : vm'.bodies[i]? = some n) (hi : S.nodes.size ≤ i) : n.kind = kInvalidKind ∨
      ∃ a', (n.name, a') ∈ visited ++ [(name, a)] ∧ (byName S.nodes.data).lookup n.name = none ∧
        (namesakes vm'.bodies n.name).head? = some n ∧ (a'.fields ≠ ∅ → a'.id.toNat = i) := by
  obtain ⟨g, hg, hbodies⟩ := hedited.edits
  rw [hbodies, List.getElem?_map] at hn
  obtain ⟨n0, hn0, rfl⟩ := Option.map_eq_some_iff.mp hn
  rw [(hg n0).1, (hg n0).2.1]
  rcases Nat.lt_or_ge i mid.bodies.length with hlt | hge
  · rw [List.getElem?_append_left hlt] at hn0
    refine (h.made i n0 hn0 hi).imp id ?_
    rintro ⟨a', hmem, hnew, hhead, hid⟩
    refine ⟨a', hmem, hnew, ?_, hid⟩
    rw [hbodies, namesakes_map (fun n => ⟨(hg n).2.2, (hg n).2.1⟩), namesakes_append, List.head?_map]
    obtain ⟨ns, hns⟩ := List.head?_eq_some_iff.mp hhead
    rw [hns]
    rfl
  · rw [List.getElem?_append_right hge] at hn0
    exact .inl (hedited.placed.plain n0 (List.mem_of_getElem? hn0)).2.1

/-- **The rest of a change**: its name matches, and the others stay as they are. -/
theorem Begun.edited (h : Begun S S' visited name a nc mid m)
    (hnc : nc = changeAfter order S.nodes.data S'.nodes.data (name, a))
    (hentries : order.entries .afterByName (byName S'.nodes.data) = visited ++ (name, a) :: rest)
    (hself : a.Comparable)
    (hdefined : ∀ c ∈ gainedNames S S' name a, S.findNamed c ≠ kInvalidNode ∨
      c ∈ (visited ++ [(name, a)]).map Prod.fst ∨
        (byName S.nodes.data).lookup c ≠ none ∧ (byName S'.nodes.data).lookup c ≠ none)
    (hroom : mid.weight + (nc.fieldOps ++ nc.childOps).length < 2 ^ 32)
    (hperf : Performs env (nc.fieldOps ++ nc.childOps) mid vm') :
    Midway S S' (visited ++ [(name, a)]) (visited ++ [(name, a)]) vm' := by
  obtain ⟨made, hedited⟩ := h.table hnc hroom hperf
  have hmid := h.midway
  have hplaced := hedited.placed
  have hplaceholder := h.placeholder_iff hnc hdefined
  have hsound : vm'.Sound := (hperf.sound hmid.sound hroom).1
  have hnames : mid.names <+: vm'.names := hperf.names_prefix
  obtain ⟨-, as, ha⟩ := visited_cons hentries
  refine ⟨hsound, hedited.frames, hmid.names.trans hnames, ?_, hedited.found hmid hplaceholder,
    fun c hc => ?_, fun c hc => ?_, fun c hc => ?_, fun entry hentry => ?_,
    fun i n hn hi => hedited.made hmid hn hi⟩
  · obtain ⟨g, -, hbodies⟩ := hedited.edits
    rw [← ReplayVM.length_bodies, hbodies, List.length_map, List.length_append,
      ReplayVM.length_bodies, hmid.size, hedited.card hplaceholder]
    omega
  · have hkept := hmid.kept c hc
    exact (hplaced.kept c (hkept ▸ hc)).trans hkept
  · rcases mem_unindexed_append.mp hc with hc | ⟨hc, hindex, hold⟩
    · exact hmid.after c hc
    · rcases hdefined c hc with hsome | hvisited | hboth
      · exact absurd hindex hsome
      · exact lookup_of_visited hentries hvisited
      · exact hboth.2
  · obtain ⟨more, hmore, hin⟩ := hmid.pending c hc
    have hne : c ≠ name := fun heq =>
      hc (heq ▸ List.mem_map_of_mem (List.mem_append_right _ List.mem_cons_self))
    refine ⟨more ++ namesakes made c, ?_, fun hsome => ?_⟩
    · rw [hedited.others c hne, hmore, List.append_assoc]
    · by_cases hnone : more = []
      · rw [hnone, List.nil_append] at hsome
        obtain ⟨p, ps, hp⟩ := List.exists_cons_of_ne_nil hsome
        obtain ⟨hpmem, -, rfl⟩ := mem_namesakes.mp (hp ▸ List.mem_cons_self (a := p))
        exact ((hplaceholder _).mp ((hplaced.lacking _).mp (List.mem_map_of_mem hpmem))).1
      · exact unindexed_subset (hin hnone)
  · rcases List.mem_append.mp hentry with hentry | hentry
    · exact hedited.matched_before hmid hnames hentries hentry
    · obtain rfl := List.mem_singleton.mp hentry
      exact hedited.matched h hsound hnames ha hself

/-- **The rest of a change can be performed.** -/
theorem Begun.performs (hlater : S.Follows env S') (h : Begun S S' visited name a nc mid m)
    (hnc : nc = changeAfter order S.nodes.data S'.nodes.data (name, a)) (ha : a ∈ S'.nodes.data)
    (hroom : mid.weight + (nc.fieldOps ++ nc.childOps).length < 2 ^ 32) :
    ∃ vm', Performs env (nc.fieldOps ++ nc.childOps) mid vm' := by
  have hname : nc.name = name := hnc ▸ name_changeAfter (name, a)
  have hwritable := hlater.writable_of_mem ha
  obtain ⟨n, hnode, hbody, halive, -⟩ := h.midway.sound.node_of_namesake (List.mem_of_head? h.first)
  have hkind : n.kind = a.kind := (congrArg Node.kind hbody).trans h.describes.kind
  rw [List.length_append] at hroom
  obtain ⟨full, hfields⟩ : ∃ full, Performs env nc.fieldOps mid full := by
    by_cases hnone : nc.sets = []
    · refine ⟨mid, ?_⟩
      rw [NodeChange.fieldOps, hnone]
      exact .nil
    · rw [NodeChange.fieldOps, h.numbered hnone]
      refine ReplayVM.performs_setFields hnode halive fun p hp => ?_
      rw [hkind]
      exact hwritable.fields p.1 p.2 (h.describes.sets p hp)
  obtain ⟨hframes, hindex, -⟩ := ReplayVM.performed_setFields hfields
  obtain ⟨hfull, hweight⟩ := hfields.sound h.midway.sound (by omega)
  by_cases hnone : nc.childrenAdded = []
  · refine ⟨full, ?_⟩
    rw [NodeChange.childOps, if_pos hnone, List.append_nil]
    exact hfields
  · have hadded : ∀ c ∈ nc.childrenAdded, c ∈ childNames S'.nodes.data a.children := fun c hc =>
      (h.describes.children c).mp (.inr hc)
    have hdepth : 0 < env.limits.maxGroupDepth.toNat := hwritable.grouped fun hnil => by
      obtain ⟨c, cs, hcs⟩ := List.exists_cons_of_ne_nil hnone
      have hc := hadded c (hcs ▸ List.mem_cons_self)
      rw [hnil] at hc
      cases hc
    have hfound : full.findNamed nc.name ≠ kInvalidNode := by
      rw [ReplayVM.findNamed, hindex, hname]
      rw [show (mid.nameIndex.lookup name).getD kInvalidNode = m.id from h.owner hnone]
      exact h.midway.sound.ne_invalid (ReplayVM.lt_size_of_node? hnode)
    obtain ⟨-, owner, howner, -, howned⟩ := hfull.index _ _ (ReplayVM.lookup_of_findNamed hfound)
    have hchildOps : nc.childOps = ReplayVM.groupOps nc.name nc.childrenAdded := by
      rw [NodeChange.childOps, if_neg hnone]
    have hlength : nc.childrenAdded.length < 2 ^ 32 := by
      rw [NodeChange.length_childOps] at hroom
      omega
    have hnames : ∀ c ∈ nc.childrenAdded, ¬ BadName env c := by
      intro c hc
      obtain ⟨-, n', hn', rfl⟩ := exists_of_mem_childNames (hadded c hc)
      exact (hlater.writable_of_mem hn').name
    obtain ⟨vm', hgroup⟩ := ReplayVM.performs_group (hframes.trans h.midway.frames) hdepth
      (by rw [ReplayVM.foundNode?, if_neg hfound]; exact howner) howned
      (fun _ _ hi => hfull.lt_of_index hi) hlength hnames
    rw [hchildOps]
    exact ⟨vm', hfields.append hgroup⟩

/-- **One name more**, however the machine got through its opcodes. -/
theorem Midway.visit (hlater : S.Follows env S') (h : Midway S S' visited visited vm)
    (hnc : nc = changeAfter order S.nodes.data S'.nodes.data (name, a))
    (hentries : order.entries .afterByName (byName S'.nodes.data) = visited ++ (name, a) :: rest)
    (hremoved : nc.childrenRemoved = [])
    (hkeep : ∀ fc ∈ nc.fieldChanges, fc.after.type = .invalid → fc.before.type = .invalid)
    (hv : VisitFits env S S' visited name a) (hroom : vm.weight + nc.ops.length < 2 ^ 32)
    (hperf : Performs env nc.ops vm vm') :
    Midway S S' (visited ++ [(name, a)]) (visited ++ [(name, a)]) vm' := by
  rw [hnc, ops_changeAfter, ← hnc] at hperf hroom
  rw [List.length_append] at hroom
  obtain ⟨mid, hmake, hrest⟩ := hperf.of_append
  obtain ⟨-, hweight⟩ := hmake.sound h.sound (by omega)
  obtain ⟨m, hm⟩ := h.begin hlater hnc hentries hremoved hkeep hv.toNodeFits (by omega) hmake
  exact hm.edited hnc hentries hv.comparable hv.defined (by omega) hrest

/-- **The opcodes of one name more can be performed.** -/
theorem Midway.performs (hlater : S.Follows env S') (h : Midway S S' visited visited vm)
    (hnc : nc = changeAfter order S.nodes.data S'.nodes.data (name, a))
    (hentries : order.entries .afterByName (byName S'.nodes.data) = visited ++ (name, a) :: rest)
    (hremoved : nc.childrenRemoved = [])
    (hkeep : ∀ fc ∈ nc.fieldChanges, fc.after.type = .invalid → fc.before.type = .invalid)
    (hv : VisitFits env S S' visited name a) (hroom : vm.weight + nc.ops.length < 2 ^ 32) :
    ∃ vm', Performs env nc.ops vm vm' := by
  obtain ⟨hproper, as, ha⟩ := visited_cons hentries
  obtain ⟨hamem, -, haname⟩ := mem_namesakes.mp (ha ▸ List.mem_cons_self)
  have hwritable := hlater.writable_of_mem hamem
  rw [hnc, ops_changeAfter, ← hnc] at hroom ⊢
  rw [List.length_append] at hroom
  obtain ⟨mid, hmake⟩ : ∃ mid, Performs env (makeOps S name a) vm mid := by
    unfold makeOps
    by_cases hnew : (byName S.nodes.data).lookup name = none
    · rw [if_pos hnew]
      refine ⟨_, .single trivial (.newNode (hwritable.made.resolve_left (hv.declared hnew)).1
        (haname ▸ hwritable.name) ?_)⟩
      rw [h.size]
      exact hv.room hnew
    · rw [if_neg hnew]
      exact ⟨vm, .nil⟩
  obtain ⟨-, hweight⟩ := hmake.sound h.sound (by omega)
  obtain ⟨m, hm⟩ := h.begin hlater hnc hentries hremoved hkeep hv.toNodeFits (by omega) hmake
  obtain ⟨vm', hrest⟩ := hm.performs hlater hnc hamem (by omega)
  exact ⟨vm', hmake.append hrest⟩

end Steps

/-! ## What is gone -/

section Drops

variable {env : Env} {vm vm' : ReplayVM}

/-- Nodes in range can be dropped. -/
theorem performs_drops {ids : List NodeId} (hids : ∀ i ∈ ids, i.toNat < vm.nodes.size) :
    ∃ vm', Performs env (ids.map .dropNode) vm vm' := by
  induction ids generalizing vm with
  | nil => exact ⟨vm, .nil⟩
  | cons i ids ih =>
    obtain ⟨n, hnode⟩ : ∃ n, vm.node? i = some n :=
      ⟨_, List.getElem?_eq_getElem (hids i List.mem_cons_self)⟩
    obtain ⟨vm1, heff, hsize⟩ : ∃ vm1, ReplayVM.Effect env vm (.dropNode i) vm1 ∧
        vm1.nodes.size = vm.nodes.size := by
      cases halive : n.alive with
      | false => exact ⟨vm, .dropDead hnode halive, rfl⟩
      | true => exact ⟨_, .drop hnode halive, ReplayVM.size_drop⟩
    obtain ⟨vm', hperf⟩ := @ih vm1.tick fun j hj => by
      show j.toNat < vm1.nodes.size
      rw [hsize]
      exact hids j (List.mem_cons_of_mem _ hj)
    exact ⟨vm', .cons trivial heff hperf⟩

/-- Dropped nodes are no longer among their namesakes. -/
theorem performed_drops {ids : List NodeId} (hsound : vm.Sound)
    (hroom : vm.weight + ids.length < 2 ^ 32) (h : Performs env (ids.map .dropNode) vm vm')
    (c : AtomId) : namesakes vm'.bodies c = (namesakes vm.bodies c).filter fun n => n.id ∉ ids := by
  induction ids generalizing vm with
  | nil =>
    cases h
    exact (List.filter_eq_self.mpr fun _ _ => rfl).symm
  | cons i ids ih =>
    rw [List.length_cons] at hroom
    cases h with
    | @cons _ _ _ vm1 _ _ heff hrest =>
      have hweight : vm1.tick.weight ≤ _ := heff.weight_le
      have hnext : vm1.tick.Sound := heff.sound hsound (by omega)
      have hone : namesakes vm1.tick.bodies c = (namesakes vm.bodies c).filter fun n => n.id ≠ i := by
        rw [ReplayVM.bodies_tick]
        cases heff with
        | dropDead hnode hdead =>
          refine (List.filter_eq_self.mpr fun n hn => ?_).symm
          have hne : n.id ≠ i := by
            rintro rfl
            obtain ⟨n', hn', -, halive, -⟩ := hsound.node_of_namesake hn
            rw [hn'] at hnode
            rw [← Option.some.inj hnode, halive] at hdead
            cases hdead
          simpa using hne
        | drop hnode _ =>
          rw [ReplayVM.namesakes_bodies, hsound.namesakes_drop, ReplayVM.namesakes_bodies,
            List.filter_map]
          rfl
      rw [ih hnext (by omega) hrest, hone, List.filter_filter]
      refine List.filter_congr fun n _ => ?_
      by_cases hid : n.id = i <;> simp [hid]

end Drops

/-! ## The whole patch -/

/-- The nodes that are gone, by their ids. -/
def goneIds (order : IterationOrder) (S S' : ReplayVM) : List NodeId :=
  ((order.entries .beforeByName (byName S.nodes.data)).filter fun entry =>
    (byName S'.nodes.data).lookup entry.1 = none).map fun entry => entry.2.id

section Patch

variable {env : Env} {order : IterationOrder} {S S' vm vm' : ReplayVM} {changes : List NodeChange}
  {visited rest : List (AtomId × Node)} {nc : NodeChange} {name : AtomId} {i : NodeId}

theorem mem_goneIds : i ∈ goneIds order S S' ↔ ∃ name b, (byName S.nodes.data).lookup name = some b ∧
    (byName S'.nodes.data).lookup name = none ∧ b.id = i := by
  unfold goneIds
  rw [List.mem_map, Prod.exists]
  refine exists_congr fun name => exists_congr fun b => ?_
  rw [List.mem_filter, order.mem_iff, and_assoc]
  exact and_congr_right fun _ => and_congr_left fun _ => decide_eq_true_iff

/-- **A patch** edits the names of the after-table one by one, and drops what is gone. -/
theorem patchOps_diff (hS : S.Sound) :
    patchOps (diffNodeGraphs order S.nodes.data S'.nodes.data).changes =
      patchOps ((order.entries .afterByName (byName S'.nodes.data)).map
        (changeAfter order S.nodes.data S'.nodes.data)) ++
        (goneIds order S S').map .dropNode := by
  have hgone : ∀ entries : List (AtomId × Node),
      (∀ entry ∈ entries, entry.2.id ≠ kInvalidNode) →
        (entries.map fun entry => removedChange entry.1 entry.2).flatMap NodeChange.ops =
          (entries.map fun entry => entry.2.id).map .dropNode := by
    intro entries hvalid
    induction entries with
    | nil => rfl
    | cons entry entries ih =>
      have hops : (removedChange entry.1 entry.2).ops = [.dropNode entry.2.id] :=
        if_pos (hvalid entry List.mem_cons_self)
      rw [List.map_cons, List.flatMap_cons, hops,
        ih fun entry hentry => hvalid entry (List.mem_cons_of_mem _ hentry)]
      rfl
  rw [changes_diffNodeGraphs, patchOps, List.flatMap_append]
  refine congrArg (_ ++ ·) (hgone _ fun entry hentry => ?_)
  obtain ⟨-, bs, hb⟩ := mem_entries_byName.mp (List.mem_filter.mp hentry).1
  exact hS.id_ne_invalid (mem_namesakes.mp (hb ▸ List.mem_cons_self)).1

/-- The opcodes of a change close the group they open. -/
theorem frames_of_rest (h : Performs env (nc.fieldOps ++ nc.childOps) vm vm') :
    vm'.frames = vm.frames := by
  obtain ⟨mid, hfields, hchildren⟩ := h.of_append
  have hframes := (ReplayVM.performed_setFields hfields).1
  rw [← hframes]
  by_cases hnone : nc.childrenAdded = []
  · rw [NodeChange.childOps, if_pos hnone] at hchildren
    cases hchildren
    rfl
  · rw [NodeChange.childOps, if_neg hnone] at hchildren
    obtain ⟨full, closed, -, -, -, -, hr, rfl⟩ := ReplayVM.performed_group hchildren
    exact (ReplayVM.resolve_size hr).1

theorem frames_of_ops (h : Performs env nc.ops vm vm') : vm'.frames = vm.frames := by
  unfold NodeChange.ops at h
  split at h
  · split at h
    · cases h with
      | cons _ heff hnil =>
        cases hnil
        cases heff <;> rfl
    · cases h
      rfl
  · cases h with
    | cons _ heff hrest =>
      cases heff
      have hframes := frames_of_rest hrest
      exact hframes
  · exact frames_of_rest h
  · cases h
    rfl
  · cases h
    rfl

/-- **A patch leaves the open groups as they are.** -/
theorem frames_of_patch (h : Performs env (patchOps changes) vm vm') : vm'.frames = vm.frames := by
  induction changes generalizing vm with
  | nil =>
    cases h
    rfl
  | cons nc changes ih =>
    rw [patchOps, List.flatMap_cons] at h
    obtain ⟨mid, hops, hrest⟩ := h.of_append
    exact (ih hrest).trans (frames_of_ops hops)

/-- **The names that are left**, one by one. -/
theorem Midway.run (hlater : S.Follows env S') (hfits : PatchFits env order S S')
    (hkeep : (diffNodeGraphs order S.nodes.data S'.nodes.data).RemovesNothing)
    (hentries : order.entries .afterByName (byName S'.nodes.data) = visited ++ rest)
    (h : Midway S S' visited visited vm)
    (hroom : vm.weight + (patchOps (rest.map (changeAfter order S.nodes.data S'.nodes.data))).length <
      2 ^ 32) :
    ∃ vm', Performs env (patchOps (rest.map (changeAfter order S.nodes.data S'.nodes.data))) vm vm' ∧
      Midway S S' (visited ++ rest) (visited ++ rest) vm' := by
  induction rest generalizing visited vm with
  | nil =>
    rw [List.append_nil]
    exact ⟨vm, .nil, h⟩
  | cons entry rest ih =>
    obtain ⟨name, a⟩ := entry
    rw [List.map_cons, patchOps, List.flatMap_cons, List.length_append] at hroom
    obtain ⟨hremoved, hvalid⟩ := hkeep _ (changeAfter_mem hentries)
    have hv := hfits.visits visited name a rest hentries
    obtain ⟨mid, hops⟩ := h.performs hlater rfl hentries hremoved hvalid hv (by omega)
    have hmid := h.visit hlater rfl hentries hremoved hvalid hv (by omega) hops
    obtain ⟨-, hweight⟩ := hops.sound h.sound (by omega)
    obtain ⟨vm', hrest, hvm'⟩ := ih (by rw [hentries, List.append_assoc]; rfl) hmid (by
      rw [patchOps]
      omega)
    rw [List.append_assoc] at hvm'
    exact ⟨vm', hops.append hrest, hvm'⟩

/-- Dropping what is gone leaves the names of the after-table alone. -/
theorem Midway.namesakes_kept {E : List (AtomId × Node)} (hS : S.Sound) (h : Midway S S' E E vm)
    {a : Node} (ha : (byName S'.nodes.data).lookup name = some a) :
    ((namesakes vm.bodies name).filter fun n => n.id ∉ goneIds order S S') =
      namesakes vm.bodies name := by
  refine List.filter_eq_self.mpr fun n hn => decide_eq_true fun hid => ?_
  obtain ⟨gone, b, hb, hnone, hbid⟩ := mem_goneIds.mp hid
  obtain ⟨hbmem, -, hbname⟩ := mem_namesakes.mp (namesake_of_byName hb)
  obtain ⟨hnmem, -, hnname⟩ := mem_namesakes.mp hn
  have hbget : S.bodies[n.id.toNat]? = some b.body := hbid ▸ hS.body?_of_mem hbmem
  have hnget : vm.bodies[n.id.toNat]? = some n := h.sound.bodies_id hnmem
  have hsame : n.name = b.body.name := ReplayVM.name_eq h.names hbget hnget
  rw [← hbname, ← show n.name = b.name from hsame, hnname, ha] at hnone
  cases hnone

/-- **What fits can be performed**, and what it leaves matches under every name. -/
theorem PatchFits.performed (hlater : S.Follows env S') (hfits : PatchFits env order S S')
    (hkeep : (diffNodeGraphs order S.nodes.data S'.nodes.data).RemovesNothing) :
    ∃ R, Performs env (patchOps (diffNodeGraphs order S.nodes.data S'.nodes.data).changes) S R ∧
      ∀ name ≠ kInvalidAtom, Matched R.nodes.data S'.nodes.data name := by
  have hlength := patch_length_le hfits hlater
  have hroom := hlater.room
  rw [patchOps_diff hlater.sound] at hlength ⊢
  rw [List.length_append, List.length_map] at hlength
  obtain ⟨vm, hvisits, hvm⟩ := (midway_start hlater.sound hfits.closed).run hlater hfits hkeep
    (List.nil_append _).symm (by omega)
  rw [List.nil_append] at hvm
  obtain ⟨-, hweight⟩ := hvisits.sound hlater.sound (by omega)
  have hrange : ∀ i ∈ goneIds order S S', i.toNat < vm.nodes.size := by
    intro i hi
    obtain ⟨gone, b, hb, -, rfl⟩ := mem_goneIds.mp hi
    have hlt := ReplayVM.lt_size_of_node?
      (hlater.sound.node?_of_mem (mem_namesakes.mp (namesake_of_byName hb)).1)
    have hsize := hvm.size
    omega
  obtain ⟨R, hdrops⟩ := performs_drops hrange
  refine ⟨R, hvisits.append hdrops, fun name hname => ReplayVM.matched_of_bodies ?_⟩
  have hsakes := performed_drops hvm.sound (by omega) hdrops name
  cases ha : (byName S'.nodes.data).lookup name with
  | some a =>
    rw [hvm.namesakes_kept hlater.sound ha] at hsakes
    have hmem : (name, a) ∈ order.entries .afterByName (byName S'.nodes.data) :=
      (order.mem_iff ..).mpr ha
    refine (hvm.matched _ hmem).mono (by rw [hsakes]) ?_ hvm.sound.children_bodies
    rw [ReplayVM.names_bodies, ReplayVM.names_bodies]
    exact hdrops.names_prefix
  | none =>
    refine .absent ?_ ((byName_lookup_eq_none hname).mp ha)
    -- what was to come and never came is as it was before
    obtain ⟨more, hmore, hin⟩ := hvm.pending name fun hmem => by
      obtain ⟨⟨name, a⟩, hentry, rfl⟩ := List.mem_map.mp hmem
      rw [(order.mem_iff ..).mp hentry] at ha
      cases ha
    have hnone : more = [] := by
      by_contra hne
      exact hvm.after name (hin hne) ha
    rw [hsakes, hmore, hnone, List.append_nil, ReplayVM.namesakes_bodies]
    cases hb : (byName S.nodes.data).lookup name with
    | none =>
      rw [(byName_lookup_eq_none hname).mp hb]
      rfl
    | some b =>
      rw [hfits.only name b hb ha]
      have hgone : b.id ∈ goneIds order S S' := mem_goneIds.mpr ⟨name, b, hb, ha, rfl⟩
      exact List.filter_eq_nil_iff.mpr fun n hn hid => by
        obtain rfl := List.mem_singleton.mp hn
        exact of_decide_eq_true hid hgone

end Patch

end Stratavm
