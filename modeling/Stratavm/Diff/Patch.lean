import Stratavm.Diff.Names
import Stratavm.ReplayVm.Linking
import Stratavm.ReplayVm.Perform
import Stratavm.ReplayVm.Slots
import Stratavm.ReplayVm.Writable

/-!
# The journal of a diff

`diff_to_journal` folds over the changes and writes bytes. `patchOps` is what it means: the opcodes of each
change, one after the other. A removed node is dropped by its id in the before-table; an added one is made,
then its fields are set by its id in the after-table; children are added by name, in one group. A compared
node gets the last two.

* **`diffToJournal_eq`**: what is written is the journal of `patchOps`, as long as the opcode count fits its
  32 bits.
* `placed_of_group`: what a group does. A child that no name is there for gets a placeholder.
* **`edited_of_performs`**: what the opcodes after a `NEW_NODE` do, whichever nodes the id and the name
  reach: these are edited (`NodeChange.editAt`), placeholders are appended, and no other node changes.
* **`NodeChange.Describes.matches_edit`**: a node edited as a change says matches the node of the after-table,
  if that one holds no NaN.

`namesakes` and `childNames`, the parts of a table that a diff reads, are followed through one edit
(`namesakes_map`, `childNames_found`).

Out of scope: changes that carry no valid id. No diff of two tables has one (`Diff/Malformed.lean`).
-/

namespace Stratavm

open Lib

/-! ## The opcodes of a patch -/

namespace NodeChange

/-- The fields that a change sets, with their values. -/
def sets (nc : NodeChange) : List (FieldId × Value) :=
  if nc.afterId = kInvalidNode then []
  else (nc.fieldChanges.filter fun fc => fc.after.type ≠ .invalid).map fun fc =>
    (fc.fieldIdx, fc.after)

/-- The `SET_FIELD`s of a change. -/
def fieldOps (nc : NodeChange) : List Op := nc.sets.map fun p => .setField nc.afterId p.1 p.2

/-- The group of the children a change adds. -/
def childOps (nc : NodeChange) : List Op :=
  if nc.childrenAdded = [] then [] else ReplayVM.groupOps nc.name nc.childrenAdded

/-- The opcodes of a change. -/
def ops (nc : NodeChange) : List Op :=
  match nc.change with
  | .removed => if nc.beforeId ≠ kInvalidNode then [.dropNode nc.beforeId] else []
  | .added => .newNode nc.kind nc.name :: (nc.fieldOps ++ nc.childOps)
  | .modified => nc.fieldOps ++ nc.childOps
  | .unchanged | .other _ _ => []

end NodeChange

/-- The opcodes that `diff_to_journal` writes. -/
def patchOps (changes : List NodeChange) : List Op := changes.flatMap NodeChange.ops

namespace JournalPatch

/-- More opcodes written. -/
def extend (patch : JournalPatch) (ops : List Op) : JournalPatch where
  body := patch.body ++ ops.flatMap Op.encode
  opCount := patch.opCount + UInt32.ofNat ops.length

variable {patch : JournalPatch} {nc : NodeChange}

theorem extend_nil : patch.extend [] = patch := by simp [extend]

theorem extend_extend (ops ops' : List Op) :
    (patch.extend ops).extend ops' = patch.extend (ops ++ ops') := by
  simp [extend, UInt32.ofNat_add, UInt32.add_assoc]

theorem emit_eq (patch : JournalPatch) (op : Op) : patch.emit op.code op.operands = patch.extend [op] := by
  simp [emit, extend, Op.encode]

theorem emitFields_eq : patch.emitFields nc = patch.extend nc.fieldOps := by
  unfold emitFields NodeChange.fieldOps NodeChange.sets
  generalize nc.fieldChanges = changes
  induction changes generalizing patch with
  | nil => split <;> exact extend_nil.symm
  | cons fc changes ih =>
    rw [List.foldl_cons, ih]
    by_cases hinvalid : fc.after.type = .invalid
    · simp [hinvalid]
    · by_cases hid : nc.afterId = kInvalidNode
      · simp [hid]
      · rw [if_neg hinvalid, if_neg hid, if_neg hid, if_neg hid,
          List.filter_cons_of_pos (by simpa using hinvalid), emitValuePayload_eq]
        exact (congrArg (extend · _) (emit_eq _ (.setField nc.afterId fc.fieldIdx fc.after))).trans
          (extend_extend _ _)

theorem emitChildren_eq (hlen : nc.childOps.length < 2 ^ 32) :
    patch.emitChildren nc = patch.extend nc.childOps := by
  unfold emitChildren
  unfold NodeChange.childOps at hlen ⊢
  by_cases hnone : nc.childrenAdded = []
  · rw [hnone]
    exact extend_nil.symm
  · rw [if_neg hnone, ReplayVM.groupOps] at hlen ⊢
    rw [if_neg (by simpa using hnone)]
    have hcount : UInt64.ofNat nc.childrenAdded.length =
        (UInt32.ofNat nc.childrenAdded.length).toUInt64 := by
      simp only [List.length_cons, List.length_append, List.length_map] at hlen
      exact ofNat_count32 (by omega)
    have hfill : ∀ (children : List AtomId) (patch : JournalPatch),
        children.foldl (fun patch childName => patch.emit .addChild (varint childName.toUInt64))
          patch = patch.extend (children.map .addChild) := by
      intro children
      induction children with
      | nil => exact fun patch => extend_nil.symm
      | cons child children ih =>
        intro patch
        rw [List.foldl_cons, ih]
        exact (congrArg (extend · _) (emit_eq _ (.addChild child))).trans (extend_extend _ _)
    have hopen := emit_eq patch
      (.beginGroup nc.name (UInt32.ofNat nc.childrenAdded.length))
    dsimp only
    rw [hcount, hfill]
    refine Eq.trans (emit_eq _ .endGroup) ?_
    refine Eq.trans (congrArg (fun patch => extend (extend patch _) _) hopen) ?_
    rw [extend_extend, extend_extend]
    rfl

theorem emitChange_eq (hlen : nc.ops.length < 2 ^ 32) :
    patch.emitChange nc = patch.extend nc.ops := by
  have hgroup : ∀ pre : List Op, (pre ++ nc.childOps).length < 2 ^ 32 →
      nc.childOps.length < 2 ^ 32 := by
    intro pre h
    rw [List.length_append] at h
    omega
  unfold emitChange
  unfold NodeChange.ops at hlen ⊢
  cases hchange : nc.change with
  | removed =>
    dsimp only
    split
    · exact emit_eq _ (.dropNode nc.beforeId)
    · exact extend_nil.symm
  | added =>
    rw [hchange] at hlen
    have hnew := emit_eq patch (.newNode nc.kind nc.name)
    dsimp only
    rw [emitChildren_eq (hgroup (.newNode nc.kind nc.name :: nc.fieldOps) hlen), emitFields_eq]
    refine Eq.trans (congrArg (fun patch => extend (extend patch _) _) hnew) ?_
    rw [extend_extend, extend_extend]
    rfl
  | modified =>
    rw [hchange] at hlen
    dsimp only
    rw [emitChildren_eq (hgroup nc.fieldOps hlen), emitFields_eq, extend_extend]
  | unchanged | other => exact extend_nil.symm

theorem foldl_emitChange {changes : List NodeChange} (hlen : (patchOps changes).length < 2 ^ 32) :
    changes.foldl emitChange patch = patch.extend (patchOps changes) := by
  induction changes generalizing patch with
  | nil => exact extend_nil.symm
  | cons nc changes ih =>
    rw [patchOps, List.flatMap_cons, List.length_append] at hlen
    have hrest : (patchOps changes).length < 2 ^ 32 := by
      rw [patchOps]
      omega
    rw [List.foldl_cons, emitChange_eq (by omega), ih hrest, extend_extend]
    rfl

end JournalPatch

/-- **What `diff_to_journal` writes** is the journal of the patch. -/
theorem diffToJournal_eq {diff : GraphDiff} (hlen : (patchOps diff.changes).length < 2 ^ 32) :
    diffToJournal diff = .ok (journalOf (patchOps diff.changes)) := by
  unfold diffToJournal
  rw [JournalPatch.foldl_emitChange hlen]
  simp [JournalPatch.extend, journalOf, ofNat_count32 hlen]

/-! ## Tables -/

section Tables

variable {before before' after : List Node} {name : AtomId}

theorem namesakes_map {f : Node → Node} (hf : ∀ n, (f n).alive = n.alive ∧ (f n).name = n.name)
    (nodes : List Node) (c : AtomId) : namesakes (nodes.map f) c = (namesakes nodes c).map f := by
  unfold namesakes
  rw [List.filter_map]
  congr 2
  funext n
  simp [Function.comp, hf n]

theorem namesakes_append (nodes nodes' : List Node) (c : AtomId) :
    namesakes (nodes ++ nodes') c = namesakes nodes c ++ namesakes nodes' c :=
  List.filter_append ..

/-- The names of children depend on the names of the nodes alone. -/
theorem childNames_eq (nodes : List Node) (children : List NodeId) :
    childNames nodes children = children.filterMap fun c =>
      (nodes.map Node.name)[c.toNat]?.bind fun a => if a ≠ kInvalidAtom then some a else none := by
  unfold childNames
  congr 1
  funext c
  rw [List.getElem?_map]
  cases nodes[c.toNat]? <;> rfl

theorem childNames_append (nodes : List Node) (children children' : List NodeId) :
    childNames nodes (children ++ children') =
      childNames nodes children ++ childNames nodes children' := List.filterMap_append ..

/-- They stay as they are when nodes are appended. -/
theorem childNames_of_names {children : List NodeId}
    (hnames : before.map Node.name <+: before'.map Node.name)
    (hrange : ∀ t ∈ children, t.toNat < before.length) :
    childNames before' children = childNames before children := by
  obtain ⟨more, hmore⟩ := hnames
  rw [childNames_eq, childNames_eq, ← hmore]
  refine List.filterMap_congr fun t ht => ?_
  rw [List.getElem?_append_left (by rw [List.length_map]; exact hrange t ht)]

/-- Ids that are found by name have the names they are found by. -/
theorem childNames_found {find : AtomId → NodeId} {names : List AtomId}
    (hfind : ∀ c ∈ names, c ≠ kInvalidAtom ∧ (before.map Node.name)[(find c).toNat]? = some c) :
    childNames before (names.map find) = names := by
  rw [childNames_eq, List.filterMap_map]
  induction names with
  | nil => rfl
  | cons c names ih =>
    obtain ⟨hproper, hc⟩ := hfind c List.mem_cons_self
    rw [List.filterMap_cons, Function.comp, hc, Option.bind_some, if_pos hproper,
      ih fun c hc => hfind c (List.mem_cons_of_mem _ hc)]

/-- A match stays one when nodes of other names change, or are appended. -/
theorem Matched.mono (h : Matched before after name)
    (hsakes : (namesakes before' name).head? = (namesakes before name).head?)
    (hnames : before.map Node.name <+: before'.map Node.name)
    (hrange : ∀ n ∈ before, ∀ t ∈ n.children, t.toNat < before.length) :
    Matched before' after name := by
  cases h with
  | absent hb ha => exact .absent (List.head?_eq_none_iff.mp (hsakes.trans (by rw [hb]; rfl))) ha
  | @present b a bs as hb ha hmatch =>
    have hmem : b ∈ before := (mem_namesakes.mp (hb ▸ List.mem_cons_self)).1
    obtain ⟨bs', hb'⟩ := List.head?_eq_some_iff.mp (hsakes.trans (by rw [hb]; rfl))
    refine .present hb' ha ⟨hmatch.kind, hmatch.set, hmatch.unset, fun c => ?_⟩
    rw [childNames_of_names hnames (hrange b hmem)]
    exact hmatch.children c

end Tables

/-! ## The table of a machine -/

namespace ReplayVM

variable {env : Env} {vm vm' : ReplayVM} {after : List Node} {c c' : AtomId}

theorem namesakes_bodies (vm : ReplayVM) (c : AtomId) :
    namesakes vm.bodies c = (namesakes vm.nodes.data c).map Node.body := by
  refine namesakes_map ?_ _ _
  exact fun _ => ⟨rfl, rfl⟩

theorem names_bodies (vm : ReplayVM) : vm.bodies.map Node.name = vm.names := List.map_map ..

theorem childNames_bodies (vm : ReplayVM) (children : List NodeId) :
    childNames vm.bodies children = childNames vm.nodes.data children := by
  rw [childNames_eq, childNames_eq, names_bodies]
  rfl

/-- References are not compared. -/
theorem matches_body_iff {n a : Node} :
    Node.Matches vm.bodies after n.body a ↔ Node.Matches vm.nodes.data after n a := by
  constructor
  · rintro ⟨hkind, hset, hunset, hchildren⟩
    exact ⟨hkind, hset, hunset, fun c => childNames_bodies vm n.children ▸ hchildren c⟩
  · rintro ⟨hkind, hset, hunset, hchildren⟩
    refine ⟨hkind, hset, hunset, fun c => ?_⟩
    rw [show n.body.children = n.children from rfl, childNames_bodies]
    exact hchildren c

theorem matched_of_bodies (h : Matched vm.bodies after c) : Matched vm.nodes.data after c := by
  cases h with
  | absent hb ha =>
    rw [namesakes_bodies] at hb
    exact .absent (List.map_eq_nil_iff.mp hb) ha
  | present hb ha hmatch =>
    rw [namesakes_bodies] at hb
    obtain ⟨n, ns, hsakes, rfl, -⟩ := List.map_eq_cons_iff.mp hb
    exact .present hsakes ha (matches_body_iff.mp hmatch)

theorem matched_bodies (h : Matched vm.nodes.data after c) : Matched vm.bodies after c := by
  cases h with
  | absent hb ha =>
    refine .absent ?_ ha
    rw [namesakes_bodies, hb]
    rfl
  | present hb ha hmatch =>
    have hbodies := namesakes_bodies vm c
    rw [hb, List.map_cons] at hbodies
    exact .present hbodies ha (matches_body_iff.mpr hmatch)

namespace Sound

theorem ids_bodies (h : vm.Sound) : ∀ j (n : Node), vm.bodies[j]? = some n → n.id.toNat = j := by
  intro j n hn
  rw [bodies, List.getElem?_map] at hn
  obtain ⟨m, hm, rfl⟩ := Option.map_eq_some_iff.mp hn
  exact h.ids j m hm

/-- A node is in the table under its id. -/
theorem bodies_id (h : vm.Sound) {n : Node} (hn : n ∈ vm.bodies) :
    vm.bodies[n.id.toNat]? = some n := by
  obtain ⟨j, hj⟩ := List.mem_iff_getElem?.mp hn
  rw [h.ids_bodies j n hj]
  exact hj

/-- Ids are distinct. -/
theorem eq_of_body_id (h : vm.Sound) {n m : Node} (hn : n ∈ vm.bodies) (hm : m ∈ vm.bodies)
    (hid : n.id = m.id) : n = m := by
  obtain ⟨j, hj⟩ := List.mem_iff_getElem?.mp hn
  obtain ⟨k, hk⟩ := List.mem_iff_getElem?.mp hm
  have hjk : j = k := by rw [← h.ids_bodies j n hj, ← h.ids_bodies k m hk, hid]
  exact Option.some.inj (hj.symm.trans (hjk ▸ hk))

/-- A node of a name is in the table under its id. -/
theorem node_of_namesake (h : vm.Sound) {b : Node} (hb : b ∈ namesakes vm.bodies c) :
    ∃ n, vm.node? b.id = some n ∧ n.body = b ∧ n.alive = true ∧ n.name = c := by
  obtain ⟨hmem, halive, hname⟩ := mem_namesakes.mp hb
  obtain ⟨j, hj⟩ := List.mem_iff_getElem?.mp hmem
  have hid := h.ids_bodies j b hj
  rw [← hid, bodies_getElem?] at hj
  obtain ⟨n, hn, rfl⟩ := Option.map_eq_some_iff.mp hj
  exact ⟨n, hn, rfl, halive, hname⟩

/-- What a name finds has that name, and is in range. -/
theorem name_findNamed (h : vm.Sound) (hfound : vm.findNamed c ≠ kInvalidNode) :
    c ≠ kInvalidAtom ∧ (vm.findNamed c).toNat < vm.nodes.size ∧
      vm.names[(vm.findNamed c).toNat]? = some c := by
  obtain ⟨hproper, n, hn, hname, -⟩ := h.index _ _ (lookup_of_findNamed hfound)
  refine ⟨hproper, h.findNamed_lt hfound, ?_⟩
  rw [names, List.getElem?_map, hn, Option.map_some, hname]

end Sound

end ReplayVM

/-! ## Editing one node -/

/-- The value of a field after several are set. -/
theorem field_setFields {fields : List (FieldId × Value)} {f : FieldId} {v : Value}
    (hunique : ∀ p ∈ fields, p.1 = f → p.2 = v) (n : Node) :
    (ReplayVM.setFields fields n).field f =
      if f ∈ fields.map Prod.fst then some v else n.field f := by
  induction fields generalizing n with
  | nil => rfl
  | cons p fields ih =>
    have hstep : ReplayVM.setFields (p :: fields) n =
        ReplayVM.setFields fields (n.setField p.1 p.2) := rfl
    rw [hstep, ih fun p hp => hunique p (List.mem_cons_of_mem _ hp), List.map_cons,
      Node.field_setField]
    by_cases hmem : f ∈ fields.map Prod.fst
    · rw [if_pos hmem, if_pos (List.mem_cons_of_mem _ hmem)]
    · rw [if_neg hmem]
      by_cases hf : f = p.1
      · rw [if_pos hf, if_pos (hf ▸ List.mem_cons_self), hunique p List.mem_cons_self hf.symm]
      · rw [if_neg hf, if_neg fun h => (List.mem_cons.mp h).elim hf hmem]

theorem setFields_other (fields : List (FieldId × Value)) (n : Node) :
    (ReplayVM.setFields fields n).id = n.id ∧ (ReplayVM.setFields fields n).kind = n.kind ∧
      (ReplayVM.setFields fields n).name = n.name ∧ (ReplayVM.setFields fields n).alive = n.alive ∧
      (ReplayVM.setFields fields n).children = n.children := by
  induction fields generalizing n with
  | nil => exact ⟨rfl, rfl, rfl, rfl, rfl⟩
  | cons p fields ih => exact ih (n.setField p.1 p.2)

/-- A node with the fields that a change sets and these children added. -/
def NodeChange.edit (nc : NodeChange) (children : List NodeId) (n : Node) : Node :=
  { ReplayVM.setFields nc.sets n with children := n.children ++ children }

/-- A node of a table where fields are set by id and children added to `owner`. -/
def NodeChange.editAt (nc : NodeChange) (owner : NodeId) (children : List NodeId) (n : Node) : Node :=
  { ReplayVM.setFields (if n.id = nc.afterId then nc.sets else []) n with
    children := n.children ++ if n.id = owner then children else [] }

namespace ReplayVM

variable {env : Env} {vm vm' : ReplayVM} {nc : NodeChange}

theorem Sound.ne_invalid (h : vm.Sound) {i : NodeId} (hi : i.toNat < vm.nodes.size) :
    i ≠ kInvalidNode := by
  rintro rfl
  have hroom := Nat.lt_of_le_of_lt size_le_weight h.room
  have hinv : kInvalidNode.toNat = 2 ^ 32 - 1 := rfl
  omega

/-- What naming children leaves of the name index, and the placeholders `made` for those that no name
was there for. -/
structure Placed (vm vm' : ReplayVM) (children : List AtomId) (made : List Node) : Prop where
  kept : ∀ c, vm.findNamed c ≠ kInvalidNode → vm'.findNamed c = vm.findNamed c
  found : ∀ c ∈ children, vm'.findNamed c ≠ kInvalidNode
  others : ∀ c, c ∉ children → vm'.findNamed c = vm.findNamed c
  plain : ∀ n ∈ made, n.alive = true ∧ n.kind = kInvalidKind ∧ vm.nodes.size ≤ n.id.toNat
  once : (made.map Node.name).Nodup
  lacking : ∀ c, c ∈ made.map Node.name ↔ c ∈ children ∧ vm.findNamed c = kInvalidNode

/-- **What a performed group does.** -/
theorem placed_of_group {name : AtomId} {children : List AtomId} (hsound : vm.Sound)
    (hframes : vm.frames = []) (hproper : ∀ c ∈ children, c ≠ kInvalidAtom)
    (hroom : vm.weight + (groupOps name children).length < 2 ^ 32)
    (h : Performs env (groupOps name children) vm vm') :
    ∃ made, vm'.frames = [] ∧ vm.Placed vm' children made ∧ vm'.bodies = (vm.bodies ++ made).map
      fun n => { n with
        children := n.children ++ if n.id = vm.findNamed name then children.map vm'.findNamed else [] } := by
  have hlength : (groupOps name children).length = children.length + 2 := by
    simp [groupOps]
  obtain ⟨full, closed, hfirst, hfull, hindex, hbodies, hr, rfl⟩ := performed_group h
  have hfullSound : full.Sound := by
    refine (hfirst.sound hsound ?_).1
    rw [List.length_cons, List.length_map]
    omega
  have hsize : full.nodes.size = vm.nodes.size := by
    rw [← length_bodies, hbodies, length_bodies]
  have hfind : full.findNamed = vm.findNamed := by
    funext c
    rw [findNamed, hindex, findNamed]
  have hclose : Effect env full .endGroup closed := .endGroup hfull hr
  obtain ⟨frame, frames, fresh, targets, hf, hclosedFrames, hclosed⟩ := hfullSound.groupClosed hclose
  obtain ⟨rfl, rfl⟩ := List.cons.inj (hf.symm.trans hfull)
  have hnone : ∀ c, full.findNamed c = kInvalidNode ↔ full.nameIndex.lookup c = none := by
    intro c
    have hlt := Nat.lt_of_le_of_lt size_le_weight hfullSound.room
    exact (hfullSound.toIntegrity.properIndex hlt).findIn_eq_iff
  have hclosedFind : ∀ c, closed.tick.findNamed c = (closed.nameIndex.lookup c).getD kInvalidNode :=
    fun _ => rfl
  have hcount : ∀ c, fresh.count c = if c ∈ children ∧ vm.findNamed c = kInvalidNode then 1 else 0 := by
    intro c
    by_cases hc : c = kInvalidAtom
    · have hnot : c ∉ children := fun hmem => hproper c hmem hc
      rw [if_neg fun h => hnot h.1, hc, hclosed.anonymous]
      exact List.count_eq_zero.mpr (hc ▸ hnot)
    · refine (hclosed.undefined c hc).trans (if_congr (and_congr_right fun _ => ?_) rfl rfl)
      rw [← hnone, hfind]
  have htargets : targets = children.map closed.tick.findNamed := by
    refine List.ext_getElem? fun j => ?_
    rw [List.getElem?_map]
    cases hj : children[j]? with
    | none =>
      have hle := List.getElem?_eq_none_iff.mp hj
      exact List.getElem?_eq_none (hclosed.length.trans_le hle)
    | some c =>
      exact hclosed.named j c hj (hproper c (List.mem_of_getElem? hj))
  have hgrown : closed.nodes.size = full.nodes.size + fresh.length := by
    have hfresh : (placeholdersFrom full.nodes.size fresh).length = fresh.length := by
      rw [← List.length_map (f := Node.name), names_placeholdersFrom]
    have hlen := congrArg List.length hclosed.table
    rw [List.length_map, List.length_append, hfresh] at hlen
    exact hlen
  have hclosedRoom : closed.nodes.size < 2 ^ 32 := by
    have hweight : closed.tick.weight < 2 ^ 32 := (h.sound hsound hroom).1.room
    have hle : closed.tick.nodes.size ≤ closed.tick.weight := size_le_weight
    exact Nat.lt_of_le_of_lt hle hweight
  refine ⟨placeholdersFrom full.nodes.size fresh, hclosedFrames.trans hframes, ?_, ?_⟩
  · refine ⟨fun c hc => ?_, fun c hc => ?_, fun c hc => ?_, fun n hn => ?_, ?_, fun c => ?_⟩
    · rw [hclosedFind, hclosed.kept c _ (hindex ▸ lookup_of_findNamed hc)]
      rfl
    · exact hclosed.proper _ (htargets ▸ List.mem_map_of_mem hc)
    · rw [hclosedFind, hclosed.others c hc, hindex, findNamed]
    · obtain ⟨halive, hkind, -⟩ := plain_placeholdersFrom hn
      obtain ⟨j, hle, hlt, hid⟩ := mem_placeholdersFrom hn
      refine ⟨halive, hkind, ?_⟩
      rw [hid, toNat_ofNat_of_lt (by omega), ← hsize]
      exact hle
    · rw [names_placeholdersFrom, List.nodup_iff_count_le_one]
      intro c
      rw [hcount]
      split
      · exact Nat.le_refl 1
      · exact Nat.zero_le 1
    · rw [names_placeholdersFrom, ← List.count_pos_iff, hcount]
      by_cases hc : c ∈ children ∧ vm.findNamed c = kInvalidNode
      · rw [if_pos hc]
        exact iff_of_true Nat.one_pos hc
      · rw [if_neg hc]
        exact iff_of_false (Nat.lt_irrefl 0) hc
  · have hmade : (placeholdersFrom full.nodes.size fresh).map Node.body =
        placeholdersFrom full.nodes.size fresh := by
      refine (List.map_congr_left fun n hn => ?_).trans (List.map_id _)
      exact congrArg (fun refs => { n with refs }) (plain_placeholdersFrom hn).2.2.symm
    have hlinked : ∀ n : Node, (n.linked (vm.findNamed name) targets).body =
        { n.body with children := n.body.children ++
            if n.body.id = vm.findNamed name then children.map closed.tick.findNamed else [] } := by
      intro n
      rw [htargets]
      rfl
    have hclosedBodies : closed.tick.bodies = _ := congrArg (List.map Node.body) hclosed.table
    rw [hclosedBodies, ← hbodies]
    conv_rhs => rw [← hmade, bodies, ← List.map_append, List.map_map]
    rw [List.map_map]
    exact List.map_congr_left fun n _ => hlinked n

theorem editAt_self {owner : NodeId} {children : List NodeId} {n : Node}
    (hid : nc.sets ≠ [] → nc.afterId = n.id) (howner : children ≠ [] → owner = n.id) :
    nc.editAt owner children n = nc.edit children n := by
  unfold NodeChange.editAt NodeChange.edit
  have hsets : (if n.id = nc.afterId then nc.sets else []) = nc.sets := by
    by_cases h : nc.sets = []
    · rw [h, ite_self]
    · rw [if_pos (hid h).symm]
  have hchildren : (if n.id = owner then children else []) = children := by
    by_cases h : children = []
    · rw [h, ite_self]
    · rw [if_pos (howner h).symm]
  rw [hsets, hchildren]

theorem editAt_other {owner : NodeId} {children : List NodeId} {n : Node}
    (hid : nc.sets ≠ [] → nc.afterId ≠ n.id) (howner : children ≠ [] → owner ≠ n.id) :
    nc.editAt owner children n = n := by
  unfold NodeChange.editAt
  have hsets : (if n.id = nc.afterId then nc.sets else []) = [] := by
    by_cases h : nc.sets = []
    · rw [h, ite_self]
    · rw [if_neg (hid h).symm]
  have hchildren : (if n.id = owner then children else []) = [] := by
    by_cases h : children = []
    · rw [h, ite_self]
    · rw [if_neg (howner h).symm]
  rw [hsets, hchildren, List.append_nil]
  rfl

/-- **What the opcodes after a `NEW_NODE` do**, whichever nodes they reach. -/
theorem edited_of_performs (hsound : vm.Sound) (hframes : vm.frames = [])
    (hproper : ∀ c ∈ nc.childrenAdded, c ≠ kInvalidAtom)
    (hroom : vm.weight + (nc.fieldOps ++ nc.childOps).length < 2 ^ 32)
    (h : Performs env (nc.fieldOps ++ nc.childOps) vm vm') :
    ∃ made, vm'.frames = [] ∧ vm.Placed vm' nc.childrenAdded made ∧ vm'.bodies =
      (vm.bodies ++ made).map (nc.editAt (vm.findNamed nc.name) (nc.childrenAdded.map vm'.findNamed)) := by
  rw [List.length_append] at hroom
  obtain ⟨mid, hfields, hchildren⟩ := h.of_append
  obtain ⟨hmid, hweight⟩ := hfields.sound hsound (by omega)
  obtain ⟨hmidFrames, hindex, hmidBodies⟩ := performed_setFields hfields
  have hfind : mid.findNamed = vm.findNamed := by
    funext c
    rw [findNamed, hindex, findNamed]
  let set : Node → Node := fun n => setFields (if n.id = nc.afterId then nc.sets else []) n
  have hset : mid.bodies = vm.bodies.map set := by
    rw [hmidBodies, modify_eq_map hsound.ids_bodies]
    refine List.map_congr_left fun n _ => ?_
    show _ = setFields (if n.id = nc.afterId then nc.sets else []) n
    split <;> rfl
  have hedit : ∀ (owner : NodeId) (children : List NodeId) (n : Node), nc.editAt owner children n =
      { set n with children := (set n).children ++ if (set n).id = owner then children else [] } := by
    intro owner children n
    rw [(setFields_other _ n).1, (setFields_other _ n).2.2.2.2]
    rfl
  have hsize : mid.nodes.size = vm.nodes.size := by
    rw [← length_bodies, hset, List.length_map, length_bodies]
  by_cases hnone : nc.childrenAdded = []
  · rw [NodeChange.childOps, if_pos hnone] at hchildren
    cases hchildren
    refine ⟨[], hmidFrames.trans hframes, ?_, ?_⟩
    · rw [hnone]
      exact ⟨fun c _ => congrFun hfind c, fun _ hc => absurd hc List.not_mem_nil,
        fun c _ => congrFun hfind c, fun _ hn => absurd hn List.not_mem_nil, .nil,
        fun _ => ⟨fun hc => absurd hc List.not_mem_nil, fun h => h.1⟩⟩
    · rw [hset, List.append_nil]
      refine List.map_congr_left fun n _ => ?_
      rw [hedit, hnone, List.map_nil, ite_self, List.append_nil]
  · rw [NodeChange.childOps, if_neg hnone] at hchildren hroom
    obtain ⟨made, hframes', hplaced, hbodies⟩ :=
      placed_of_group hmid (hmidFrames.trans hframes) hproper (by omega) hchildren
    -- no field is set on a placeholder that is made later
    have hmade : made.map set = made := by
      refine (List.map_congr_left fun n hn => ?_).trans (List.map_id' made)
      have hsets : (if n.id = nc.afterId then nc.sets else []) = [] := by
        by_cases hid : n.id = nc.afterId
        · rw [if_pos hid]
          refine List.eq_nil_iff_forall_not_mem.mpr fun p hp => ?_
          obtain ⟨m, hm, -⟩ := performed_setFields_node hfields hp
          have hlt := lt_size_of_node? hm
          have hge := (hplaced.plain n hn).2.2
          rw [hid] at hge
          omega
        · exact if_neg hid
      show setFields (if n.id = nc.afterId then nc.sets else []) n = n
      rw [hsets]
      rfl
    refine ⟨made, hframes', ?_, ?_⟩
    · exact ⟨fun c hc => (hplaced.kept c (hfind ▸ hc)).trans (congrFun hfind c), hplaced.found,
        fun c hc => (hplaced.others c hc).trans (congrFun hfind c), hsize ▸ hplaced.plain, hplaced.once,
        hfind ▸ hplaced.lacking⟩
    · rw [hbodies, hset, hfind, ← hmade, ← List.map_append, List.map_map, hmade]
      exact List.map_congr_left fun n _ => (hedit _ _ n).symm

end ReplayVM

/-! ## What a change says -/

theorem NodeChange.mem_sets {nc : NodeChange} {p : FieldId × Value} : p ∈ nc.sets ↔
    nc.afterId ≠ kInvalidNode ∧
      ∃ fc ∈ nc.fieldChanges, fc.after.type ≠ .invalid ∧ p = (fc.fieldIdx, fc.after) := by
  unfold NodeChange.sets
  by_cases hid : nc.afterId = kInvalidNode
  · simp [hid]
  · rw [if_neg hid, List.mem_map]
    constructor
    · rintro ⟨fc, hfc, rfl⟩
      obtain ⟨hmem, hafter⟩ := List.mem_filter.mp hfc
      exact ⟨hid, fc, hmem, of_decide_eq_true hafter, rfl⟩
    · rintro ⟨-, fc, hmem, hafter, rfl⟩
      exact ⟨fc, List.mem_filter.mpr ⟨hmem, decide_eq_true hafter⟩, rfl⟩

/-- The change makes a node of `before` match one of `after`. -/
structure NodeChange.Describes (nc : NodeChange) (before after : List Node) (b a : Node) : Prop where
  kind : b.kind = a.kind
  sets : ∀ p ∈ nc.sets, a.field p.1 = some p.2
  covers : ∀ f v, a.field f = some v →
    f ∈ nc.sets.map Prod.fst ∨ ∃ w, b.field f = some w ∧ valuesEqual w v = true
  unset : ∀ f, a.field f = none → b.field f = none
  children : ∀ c, c ∈ childNames before b.children ∨ c ∈ nc.childrenAdded ↔
    c ∈ childNames after a.children

/-- No field holds a NaN. -/
def Node.Comparable (n : Node) : Prop := ∀ f v, n.field f = some v → valuesEqual v v = true

section Describes

variable {order : IterationOrder} {before before' after : List Node} {name : AtomId} {b a : Node}
  {nc : NodeChange}

/-- **A node edited as the change says matches.** -/
theorem NodeChange.Describes.matches_edit (h : nc.Describes before after b a) (hself : a.Comparable)
    {children : List NodeId} (hkept : childNames before' b.children = childNames before b.children)
    (hadded : childNames before' children = nc.childrenAdded) :
    Node.Matches before' after (nc.edit children b) a where
  kind := (setFields_other nc.sets b).2.1.trans h.kind
  set f v hv := by
    have hunique : ∀ p ∈ nc.sets, p.1 = f → p.2 = v := by
      rintro p hp rfl
      exact Option.some.inj ((h.sets p hp).symm.trans hv)
    show ∃ w, (ReplayVM.setFields nc.sets b).field f = some w ∧ _
    rw [field_setFields hunique]
    split
    · exact ⟨v, rfl, hself f v hv⟩
    · rename_i hnot
      exact (h.covers f v hv).resolve_left hnot
  unset f hf := by
    have hnot : f ∉ nc.sets.map Prod.fst := by
      intro hmem
      obtain ⟨p, hp, rfl⟩ := List.mem_map.mp hmem
      rw [h.sets p hp] at hf
      cases hf
    show (ReplayVM.setFields nc.sets b).field f = none
    rw [field_setFields (v := .invalid) (fun p hp hpf => absurd (List.mem_map.mpr ⟨p, hp, hpf⟩) hnot),
      if_neg hnot]
    exact h.unset f hf
  children c := by
    show c ∈ childNames before' (b.children ++ children) ↔ _
    rw [childNames_append, List.mem_append, hkept, hadded]
    exact h.children c

/-- A compared change sets what the second node has and the first has otherwise. -/
theorem mem_sets_compared {p : FieldId × Value}
    (hp : p ∈ (comparedChange order before after name b a).sets) : a.field p.1 = some p.2 ∧
      (b.field p.1 = none ∨ ∃ w, b.field p.1 = some w ∧ valuesEqual w p.2 = false) := by
  obtain ⟨-, fc, hfc, hafter, rfl⟩ := NodeChange.mem_sets.mp hp
  rcases mem_fieldDifferences.mp hfc with
    ⟨f, v, hv, ⟨hb, rfl⟩ | ⟨w, hw, hne, rfl⟩⟩ | ⟨f, w, -, -, rfl⟩
  · exact ⟨hv, .inl hb⟩
  · exact ⟨hv, .inr ⟨w, hw, hne⟩⟩
  · exact absurd rfl hafter

/-- A change of a new node sets what the node has. -/
theorem mem_sets_added {p : FieldId × Value} (hp : p ∈ (addedChange order after name a).sets) :
    a.field p.1 = some p.2 := by
  obtain ⟨-, fc, hfc, -, rfl⟩ := NodeChange.mem_sets.mp hp
  obtain ⟨⟨f, v⟩, hmem, rfl⟩ := List.mem_map.mp hfc
  exact (order.mem_iff ..).mp hmem

/-- A compared change that removes nothing describes its nodes. -/
theorem describes_compared (hkind : b.kind = a.kind) (hid : a.id ≠ kInvalidNode)
    (hvalid : ∀ f v, a.field f = some v → v.type ≠ .invalid)
    (hremoved : (comparedChange order before after name b a).childrenRemoved = [])
    (hkept : ∀ fc ∈ (comparedChange order before after name b a).fieldChanges,
      fc.after.type ≠ .invalid) :
    (comparedChange order before after name b a).Describes before after b a where
  kind := hkind
  sets _ hp := (mem_sets_compared hp).1
  covers f v hv := by
    by_cases hb : ∃ w, b.field f = some w ∧ valuesEqual w v = true
    · exact .inr hb
    · left
      have hfc : ∃ w, (⟨f, w, v⟩ : FieldChange) ∈ fieldDifferences order name b a := by
        cases hbf : b.field f with
        | none => exact ⟨.invalid, mem_fieldDifferences.mpr (.inl ⟨f, v, hv, .inl ⟨hbf, rfl⟩⟩)⟩
        | some w =>
          have hne : valuesEqual w v = false := Bool.eq_false_iff.mpr fun h => hb ⟨w, hbf, h⟩
          exact ⟨w, mem_fieldDifferences.mpr (.inl ⟨f, v, hv, .inr ⟨w, hbf, hne, rfl⟩⟩)⟩
      obtain ⟨w, hfc⟩ := hfc
      exact List.mem_map.mpr
        ⟨(f, v), NodeChange.mem_sets.mpr ⟨hid, ⟨f, w, v⟩, hfc, hvalid f v hv, rfl⟩, rfl⟩
  unset f hf := by
    cases hbf : b.field f with
    | none => rfl
    | some w =>
      have hfc : (⟨f, w, .invalid⟩ : FieldChange) ∈ fieldDifferences order name b a :=
        mem_fieldDifferences.mpr (.inr ⟨f, w, hbf, hf, rfl⟩)
      exact absurd rfl (hkept _ hfc)
  children c := by
    rw [mem_childrenAdded]
    constructor
    · rintro (hb | ⟨ha, -⟩)
      · by_contra ha
        have hmem : c ∈ (comparedChange order before after name b a).childrenRemoved :=
          mem_childrenRemoved.mpr ⟨hb, ha⟩
        rw [hremoved] at hmem
        cases hmem
      · exact ha
    · intro ha
      by_cases hb : c ∈ childNames before b.children
      · exact .inl hb
      · exact .inr ⟨ha, hb⟩

/-- A change of a new node describes it, from a node as `NEW_NODE` makes it. -/
theorem describes_added (hid : a.id ≠ kInvalidNode)
    (hvalid : ∀ f v, a.field f = some v → v.type ≠ .invalid) (hkind : b.kind = a.kind)
    (hfields : b.fields = ∅) (hchildren : b.children = []) :
    (addedChange order after name a).Describes before after b a where
  kind := hkind
  sets _ hp := mem_sets_added hp
  covers f v hv := by
    left
    have hfc : (⟨f, .invalid, v⟩ : FieldChange) ∈ (addedChange order after name a).fieldChanges :=
      List.mem_map.mpr ⟨(f, v), (order.mem_iff ..).mpr hv, rfl⟩
    exact List.mem_map.mpr
      ⟨(f, v), NodeChange.mem_sets.mpr ⟨hid, ⟨f, .invalid, v⟩, hfc, hvalid f v hv, rfl⟩, rfl⟩
  unset f _ := by
    rw [Node.field, hfields]
    exact Finmap.lookup_empty _
  children c := by
    rw [hchildren]
    show c ∈ [] ∨ _ ↔ _
    rw [or_iff_right List.not_mem_nil]
    rfl

end Describes

end Stratavm
