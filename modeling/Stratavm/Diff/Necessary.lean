import Stratavm.Diff.Midway

/-!
# What a patch that works relied on

The converse of `Diff/Midway.lean`: where the opcodes of a patch are performed and what they leave
matches the after-table under every name, `PatchFits` holds. A name keeps its first node as long as the
patch does not drop it (`Performs.first_kept`), and that node has to match in the end:

* its kind is the one it was made with, its fields are written by `SET_FIELD`s of its own id, and its
  children are added by groups that find it by its name;
* a node with an id that is off by some either is a placeholder, on which no field can be set, or
  belongs to a name visited before, which then has a field too many;
* a placeholder for a name that is still to come is the first node of it, and of no kind.

So a name that was reached fits, and the next one is looked at with `Midway.visit`.

* **`patchFits_of_performed`**: `PatchFits`, read off a patch that works.

Out of scope: patches whose bytes are read as other opcodes than those written. A `SET_FIELD` that
reaches a wrong node is decoded by the type of a field of that node.
-/

namespace Stratavm

open Lib

/-! ## First nodes -/

section First

variable {env : Env} {vm R : ReplayVM} {ops : List Op} {c : AtomId} {n : Node}

theorem ReplayVM.Sound.pairwise_bodies (h : vm.Sound) :
    vm.bodies.Pairwise fun n m => n.id.toNat < m.id.toNat :=
  List.pairwise_map.mpr h.pairwise_ids

/-- The first node of a name is the one with the least id. -/
theorem ReplayVM.Sound.first_iff (h : vm.Sound) : (namesakes vm.bodies c).head? = some n ↔
    n ∈ namesakes vm.bodies c ∧ ∀ m ∈ namesakes vm.bodies c, n.id.toNat ≤ m.id.toNat := by
  have hpair : (namesakes vm.bodies c).Pairwise fun n m => n.id.toNat < m.id.toNat :=
    h.pairwise_bodies.filter _
  cases hs : namesakes vm.bodies c with
  | nil => exact iff_of_false nofun fun hn => absurd hn.1 List.not_mem_nil
  | cons first others =>
    rw [hs] at hpair
    have hleast := (List.pairwise_cons.mp hpair).1
    constructor
    · intro hfirst
      obtain rfl := Option.some.inj hfirst
      refine ⟨List.mem_cons_self, fun m hm => ?_⟩
      rcases List.mem_cons.mp hm with rfl | hm
      · exact Nat.le_refl _
      · exact Nat.le_of_lt (hleast m hm)
    · rintro ⟨hn, hall⟩
      rcases List.mem_cons.mp hn with rfl | hn
      · rfl
      · have hlt := hleast n hn
        have hle := hall first List.mem_cons_self
        omega

/-- A node that is not dropped is there after. -/
theorem Performs.namesake_kept (h : Performs env ops vm R) (hsound : vm.Sound)
    (hn : n ∈ namesakes vm.bodies c) (hdrop : .dropNode n.id ∉ ops) :
    ∃ n' ∈ namesakes R.bodies c, R.bodies[n.id.toNat]? = some n' ∧ BodyKept ops n.id n n' := by
  obtain ⟨hmem, halive, hname⟩ := mem_namesakes.mp hn
  obtain ⟨n', hn', hkept⟩ := h.body_kept hsound.slots (hsound.bodies_id hmem)
  exact ⟨n', mem_namesakes.mpr ⟨List.mem_of_getElem? hn', (hkept.alive hdrop).trans halive,
    hkept.label.2.trans hname⟩, hn', hkept⟩

/-- **A name keeps its first node** as long as that is not dropped. -/
theorem Performs.first_kept (h : Performs env ops vm R) (hsound : vm.Sound)
    (hroom : vm.weight + ops.length < 2 ^ 32) (hn : (namesakes vm.bodies c).head? = some n)
    (hdrop : .dropNode n.id ∉ ops) : ∃ n', R.bodies[n.id.toNat]? = some n' ∧
      BodyKept ops n.id n n' ∧ (namesakes R.bodies c).head? = some n' := by
  obtain ⟨hmem, hleast⟩ := hsound.first_iff.mp hn
  obtain ⟨n', hmem', hn', hkept⟩ := h.namesake_kept hsound hmem hdrop
  have hR : R.Sound := (h.sound hsound hroom).1
  refine ⟨n', hn', hkept, hR.first_iff.mpr ⟨hmem', fun m hm => ?_⟩⟩
  rw [hR.ids_bodies _ n' hn']
  by_contra hlt
  -- a node before it was there before, alive and of that name
  obtain ⟨hmmem, hmalive, hmname⟩ := mem_namesakes.mp hm
  have hmget := hR.bodies_id hmmem
  have hnlt := (List.getElem?_eq_some_iff.mp (hsound.bodies_id (mem_namesakes.mp hmem).1)).1
  obtain ⟨m0, hm0⟩ : ∃ m0, vm.bodies[m.id.toNat]? = some m0 :=
    ⟨_, List.getElem?_eq_getElem (Nat.lt_trans (Nat.not_le.mp hlt) hnlt)⟩
  obtain ⟨m', hm', hmkept⟩ := h.body_kept hsound.slots hm0
  obtain rfl := Option.some.inj (hm'.symm.trans hmget)
  have hle := hleast m0 (mem_namesakes.mpr
    ⟨List.mem_of_getElem? hm0, hmkept.dead hmalive, hmkept.label.2.symm.trans hmname⟩)
  rw [hsound.ids_bodies _ m0 hm0] at hle
  exact hlt hle

/-- The first node of a name that matches. -/
theorem Matched.of_first {before after : List Node} {name : AtomId} {b a : Node}
    (h : Matched before after name) (hb : (namesakes before name).head? = some b)
    (ha : (byName after).lookup name = some a) : Node.Matches before after b a := by
  obtain ⟨-, as, has⟩ := cons_of_byName ha
  cases h with
  | absent hnone =>
    rw [hnone] at hb
    cases hb
  | present hb' ha' hmatches =>
    rw [hb'] at hb
    obtain rfl := Option.some.inj hb
    obtain ⟨rfl, -⟩ := List.cons.inj (has.symm.trans ha')
    exact hmatches

/-- A matching name is in the one table iff it is in the other. -/
theorem Matched.absent_before {before after : List Node} {name : AtomId}
    (h : Matched before after name) (ha : namesakes after name = []) : namesakes before name = [] := by
  cases h with
  | absent hb _ => exact hb
  | present _ ha' _ => cases ha.symm.trans ha'

end First

/-! ## The opcodes of a patch -/

section Ops

variable {order : IterationOrder} {S S' : ReplayVM} {op : Op} {i : NodeId} {name : AtomId} {a : Node}

/-- The opcodes of a name make its node, set fields by its id, and open a group. -/
theorem mem_ops_changeAfter
    (hop : op ∈ (changeAfter order S.nodes.data S'.nodes.data (name, a)).ops) :
    op.code ≠ .linkRef ∧ op.code ≠ .dropNode ∧ ∀ i f v, op = .setField i f v → i = a.id := by
  have hid : (changeAfter order S.nodes.data S'.nodes.data (name, a)).afterId = a.id := by
    unfold changeAfter
    dsimp only
    cases (byName S.nodes.data).lookup name <;> rfl
  rw [ops_changeAfter] at hop
  rcases List.mem_append.mp hop with hop | hop
  · unfold makeOps at hop
    split at hop
    · obtain rfl := List.mem_singleton.mp hop
      exact ⟨nofun, nofun, nofun⟩
    · cases hop
  rcases List.mem_append.mp hop with hop | hop
  · obtain ⟨p, -, rfl⟩ := List.mem_map.mp hop
    refine ⟨nofun, nofun, fun i f v heq => ?_⟩
    cases heq
    exact hid
  · unfold NodeChange.childOps at hop
    split at hop
    · cases hop
    · rcases List.mem_cons.mp hop with rfl | hop
      · exact ⟨nofun, nofun, nofun⟩
      · rcases List.mem_append.mp hop with hop | hop
        · obtain ⟨c, -, rfl⟩ := List.mem_map.mp hop
          exact ⟨nofun, nofun, nofun⟩
        · obtain rfl := List.mem_singleton.mp hop
          exact ⟨nofun, nofun, nofun⟩

/-- **The opcodes of a patch**: no `LINK_REF`, `DROP_NODE`s of what is gone, and `SET_FIELD`s by the ids
of first nodes of the after-table. -/
theorem mem_patchOps (hS : S.Sound)
    (hop : op ∈ patchOps (diffNodeGraphs order S.nodes.data S'.nodes.data).changes) :
    op.code ≠ .linkRef ∧ (∀ i, op = .dropNode i → i ∈ goneIds order S S') ∧
      ∀ i f v, op = .setField i f v → ∃ name a, (byName S'.nodes.data).lookup name = some a ∧
        a.id = i := by
  rw [patchOps_diff hS] at hop
  rcases List.mem_append.mp hop with hop | hop
  · obtain ⟨nc, hnc, hop⟩ := List.mem_flatMap.mp hop
    obtain ⟨⟨name, a⟩, hentry, rfl⟩ := List.mem_map.mp hnc
    obtain ⟨hlink, hdrop, hset⟩ := mem_ops_changeAfter hop
    refine ⟨hlink, fun i heq => absurd (by rw [heq]; rfl) hdrop, fun i f v heq => ?_⟩
    exact ⟨name, a, (order.mem_iff ..).mp hentry, (hset i f v heq).symm⟩
  · obtain ⟨i, hi, rfl⟩ := List.mem_map.mp hop
    refine ⟨nofun, fun j heq => ?_, nofun⟩
    cases heq
    exact hi

/-- Values that equal another equal themselves. -/
theorem valuesEqual_self {w v : Value} (h : valuesEqual w v = true) : valuesEqual v v = true := by
  cases v with
  | float b =>
    cases w with
    | float a =>
      have hab : doubleEq a b = true := h
      have hbb : isNaN b = false := by
        unfold doubleEq at hab
        simp only [Bool.and_eq_true, Bool.not_eq_true'] at hab
        exact hab.1.2
      show doubleEq b b = true
      rw [doubleEq, hbb, beq_self_eq_true]
      rfl
    | _ => cases h
  | int b | atom b | ref b | list b => exact beq_self_eq_true b
  | invalid => rfl

/-- A field that is set once is there. -/
theorem field_setFields_ne_none {fields : List (FieldId × Value)} {f : FieldId}
    (hf : f ∈ fields.map Prod.fst) (n : Node) : (ReplayVM.setFields fields n).field f ≠ none := by
  induction fields generalizing n with
  | nil => cases hf
  | cons p fields ih =>
    have hstep : ReplayVM.setFields (p :: fields) n =
        ReplayVM.setFields fields (n.setField p.1 p.2) := rfl
    rw [hstep]
    by_cases hmem : f ∈ fields.map Prod.fst
    · exact ih hmem _
    · have hunique : ∀ q ∈ fields, q.1 = f → q.2 = p.2 := fun q hq hqf =>
        absurd (List.mem_map.mpr ⟨q, hq, hqf⟩) hmem
      rw [field_setFields hunique, if_neg hmem, Node.field_setField,
        if_pos ((List.mem_cons.mp hf).resolve_right hmem)]
      exact Option.some_ne_none _

/-- A field that a change sets is there in the end. -/
theorem Performs.field_kept {env : Env} {vm R : ReplayVM} {nc : NodeChange} {later : List Op}
    {f : FieldId} {n : Node} (hperf : Performs env (nc.fieldOps ++ later) vm R)
    (hslots : vm.SlotsAgree) (hn : vm.bodies[nc.afterId.toNat]? = some n)
    (hf : f ∈ nc.sets.map Prod.fst) :
    ∃ n', R.bodies[nc.afterId.toNat]? = some n' ∧ n'.field f ≠ none := by
  obtain ⟨full, hsets, hlater⟩ := hperf.of_append
  obtain ⟨-, -, hbodies⟩ := ReplayVM.performed_setFields hsets
  have hfull : full.bodies[nc.afterId.toNat]? = some (ReplayVM.setFields nc.sets n) := by
    rw [hbodies, List.getElem?_modify_eq, hn]
    rfl
  obtain ⟨n', hn', hkept⟩ := hlater.body_kept (hsets.slotsAgree hslots) hfull
  exact ⟨n', hn', hkept.field f (field_setFields_ne_none hf n)⟩

/-- What is gone had another name than what is there. -/
theorem not_mem_goneIds (hS : S.Sound) {b : Node} (hb : b ∈ namesakes S.nodes.data name)
    (hafter : (byName S'.nodes.data).lookup name ≠ none) : b.id ∉ goneIds order S S' := by
  intro hid
  obtain ⟨gone, b', hb', hnone, heq⟩ := mem_goneIds.mp hid
  obtain ⟨hmem, -, hname⟩ := mem_namesakes.mp hb
  obtain ⟨hmem', -, hname'⟩ := mem_namesakes.mp (namesake_of_byName hb')
  obtain rfl : b' = b := hS.eq_of_id (hS.node?_of_mem hmem) hmem' heq
  rw [← hname', hname] at hnone
  exact hafter hnone

end Ops

/-! ## A name by itself -/

/-- A patch that was performed from `S`, and left `R`, which matches the table of `S'`. -/
structure PatchWorks (env : Env) (order : IterationOrder) (S S' R : ReplayVM) : Prop where
  later : S.Follows env S'
  keeps : (diffNodeGraphs order S.nodes.data S'.nodes.data).RemovesNothing
  performs : Performs env (patchOps (diffNodeGraphs order S.nodes.data S'.nodes.data).changes) S R
  room : S.weight + (patchOps (diffNodeGraphs order S.nodes.data S'.nodes.data).changes).length <
    2 ^ 32
  matched : ∀ name ≠ kInvalidAtom, Matched R.bodies S'.nodes.data name

namespace PatchWorks

variable {env : Env} {order : IterationOrder} {S S' R : ReplayVM} {name : AtomId} {a b : Node}

/-- The first node of a name that both tables have: it has what the patch left of it. -/
theorem first (h : PatchWorks env order S S' R) (hb : (byName S.nodes.data).lookup name = some b)
    (ha : (byName S'.nodes.data).lookup name = some a) : ∃ n', R.bodies[b.id.toNat]? = some n' ∧
      BodyKept (patchOps (diffNodeGraphs order S.nodes.data S'.nodes.data).changes) b.id b.body n' ∧
      Node.Matches R.bodies S'.nodes.data n' a := by
  obtain ⟨hproper, bs, hbs⟩ := cons_of_byName hb
  have hfirst : (namesakes S.bodies name).head? = some b.body := by
    rw [ReplayVM.namesakes_bodies, hbs]
    rfl
  have hdrop : .dropNode b.body.id ∉
      patchOps (diffNodeGraphs order S.nodes.data S'.nodes.data).changes := by
    intro hop
    have hgone : b.id ∈ goneIds order S S' := (mem_patchOps h.later.sound hop).2.1 _ rfl
    refine not_mem_goneIds h.later.sound (namesake_of_byName hb) ?_ hgone
    rw [ha]
    exact nofun
  obtain ⟨n', hn', hkept, hfirst'⟩ := h.performs.first_kept h.later.sound h.room hfirst hdrop
  exact ⟨n', hn', hkept, (h.matched name hproper).of_first hfirst' ha⟩

/-- A node that compares equal to another holds no NaN. -/
theorem comparable (h : PatchWorks env order S S' R)
    (ha : (byName S'.nodes.data).lookup name = some a) : a.Comparable := by
  intro f v hv
  obtain ⟨hproper, as, has⟩ := cons_of_byName ha
  cases h.matched name hproper with
  | absent _ hnone => cases has.symm.trans hnone
  | present _ ha' hmatches =>
    obtain ⟨rfl, -⟩ := List.cons.inj (has.symm.trans ha')
    obtain ⟨w, -, heq⟩ := hmatches.set f v hv
    exact valuesEqual_self heq

theorem kind (h : PatchWorks env order S S' R) (hb : (byName S.nodes.data).lookup name = some b)
    (ha : (byName S'.nodes.data).lookup name = some a) : b.kind = a.kind := by
  obtain ⟨n', -, hkept, hmatches⟩ := h.first hb ha
  exact hkept.label.1.symm.trans hmatches.kind

/-- Fields that no `SET_FIELD` of the patch changes are as they were. -/
theorem same (h : PatchWorks env order S S' R) (hb : (byName S.nodes.data).lookup name = some b)
    (ha : (byName S'.nodes.data).lookup name = some a) : a.id = b.id ∨ b.SameFields a := by
  by_cases hid : a.id = b.id
  · exact .inl hid
  right
  obtain ⟨n', -, hkept, hmatches⟩ := h.first hb ha
  obtain ⟨hbmem, -, hbname⟩ := mem_namesakes.mp (namesake_of_byName hb)
  have hfields : n'.fields = b.fields := by
    refine hkept.fields fun op hop => ?_
    obtain ⟨hlink, -, hset⟩ := mem_patchOps h.later.sound hop
    refine ⟨hlink, fun f v heq => hid ?_⟩
    -- it would be that of another name, whose node is this one
    obtain ⟨other, a', ha', hid'⟩ := hset _ f v heq
    obtain ⟨hamem, -, haname⟩ := mem_namesakes.mp (namesake_of_byName ha')
    have hsame : a'.body.name = b.body.name := ReplayVM.name_eq h.later.names
      (h.later.sound.body?_of_mem hbmem) (hid' ▸ h.later.sound'.body?_of_mem hamem)
    have hother : other = name := haname.symm.trans (hsame.trans hbname)
    rw [hother, ha] at ha'
    rw [Option.some.inj ha', hid']
  have hfield : ∀ f, n'.field f = b.field f := fun f => by
    rw [Node.field, hfields, Node.field]
  exact ⟨fun f v hv => hfield f ▸ hmatches.set f v hv, fun f hf => hfield f ▸ hmatches.unset f hf⟩

/-- Children are gained by the node that the name finds only. -/
theorem owner (h : PatchWorks env order S S' R) (hframes : S.frames = [])
    (hb : (byName S.nodes.data).lookup name = some b)
    (ha : (byName S'.nodes.data).lookup name = some a) :
    S.findNamed name = b.id ∨ gainedNames S S' name a = [] := by
  by_cases hfound : S.findNamed name = b.id
  · exact .inl hfound
  right
  obtain ⟨n', hn', -, hmatches⟩ := h.first hb ha
  obtain ⟨hbmem, -, hbname⟩ := mem_namesakes.mp (namesake_of_byName hb)
  have hsound := h.later.sound
  have hunreached : S.Unreached b.id := by
    refine ⟨ReplayVM.lt_size_of_node? (hsound.node?_of_mem hbmem), fun c hc => hfound ?_, ?_⟩
    · obtain ⟨-, n, hn, hname, -⟩ := hsound.index c b.id hc
      obtain rfl : b = n := Option.some.inj ((hsound.node?_of_mem hbmem).symm.trans hn)
      rw [ReplayVM.findNamed, ← hbname, hname, hc]
      rfl
    · rw [hframes]
      exact fun _ hframe => absurd hframe List.not_mem_nil
  obtain ⟨n'', hn'', hchildren⟩ :=
    h.performs.children_kept hsound h.room hunreached (hsound.body?_of_mem hbmem)
  obtain rfl := Option.some.inj (hn'.symm.trans hn'')
  have hkept : childNames R.bodies n'.children = childNames S.nodes.data b.children := by
    rw [hchildren]
    refine childNames_of_names ?_ fun t ht => hsound.edges b hbmem t (.inl ht)
    rw [ReplayVM.names_bodies]
    exact h.performs.names_prefix
  refine List.eq_nil_iff_forall_not_mem.mpr fun c hc => ?_
  obtain ⟨hafter, hbefore⟩ := mem_gainedNames.mp hc
  refine hbefore b hb ?_
  rw [← hkept]
  exact (hmatches.children c).mpr hafter

/-- What is removed was the only node of its name: the others are not dropped. -/
theorem only (h : PatchWorks env order S S' R) (hb : (byName S.nodes.data).lookup name = some b)
    (ha : (byName S'.nodes.data).lookup name = none) : namesakes S.nodes.data name = [b] := by
  obtain ⟨hproper, bs, hbs⟩ := cons_of_byName hb
  have hsound := h.later.sound
  have hgone : namesakes R.bodies name = [] :=
    (h.matched name hproper).absent_before ((byName_lookup_eq_none hproper).mp ha)
  have hall : ∀ n ∈ namesakes S.nodes.data name, n = b := by
    intro n hn
    obtain ⟨hmem, -, hname⟩ := mem_namesakes.mp hn
    by_contra hne
    have hbody : n.body ∈ namesakes S.bodies name := by
      rw [ReplayVM.namesakes_bodies]
      exact List.mem_map_of_mem hn
    obtain ⟨n', hn', -⟩ := h.performs.namesake_kept hsound hbody fun hop => by
      obtain ⟨gone, b', hb', -, hid⟩ := mem_goneIds.mp ((mem_patchOps hsound hop).2.1 _ rfl)
      obtain ⟨hmem', -, hname'⟩ := mem_namesakes.mp (namesake_of_byName hb')
      obtain rfl : b' = n := hsound.eq_of_id (hsound.node?_of_mem hmem) hmem' hid
      rw [← hname', hname, hb] at hb'
      exact hne (Option.some.inj hb').symm
    rw [hgone] at hn'
    cases hn'
  have hnodup : (namesakes S.nodes.data name).Nodup :=
    (hsound.pairwise_ids.imp fun {n m} hlt heq => by
      rw [heq] at hlt
      exact Nat.lt_irrefl _ hlt).filter _
  rw [hbs] at hall hnodup ⊢
  cases bs with
  | nil => rfl
  | cons n bs =>
    rw [hall n (List.mem_cons_of_mem _ List.mem_cons_self)] at hnodup
    exact absurd List.mem_cons_self (List.nodup_cons.mp hnodup).1

/-- A new node was made under its kind. -/
theorem declared (h : PatchWorks env order S S' R) (hnone : env.schema.kind kInvalidKind = none)
    (hnew : (byName S.nodes.data).lookup name = none)
    (ha : (byName S'.nodes.data).lookup name = some a) : a.kind ≠ kInvalidKind := by
  have hmake : .newNode a.kind name ∈
      patchOps (diffNodeGraphs order S.nodes.data S'.nodes.data).changes := by
    rw [patchOps_diff h.later.sound]
    refine List.mem_append_left _ (List.mem_flatMap.mpr
      ⟨_, List.mem_map_of_mem ((order.mem_iff .afterByName _ name a).mpr ha), ?_⟩)
    rw [ops_changeAfter, makeOps, if_pos hnew]
    exact List.mem_append_left _ List.mem_cons_self
  obtain ⟨vm, vm', heff⟩ := h.performs.effect_of_mem hmake
  intro hkind
  cases heff with
  | newNode hk =>
    rw [hkind] at hk
    exact hk hnone

/-! ## A name after others -/

/-- What is gone was in the table before. -/
theorem lt_of_goneIds (hS : S.Sound) {i : NodeId} (hi : i ∈ goneIds order S S') :
    i.toNat < S.nodes.size := by
  obtain ⟨gone, b, hb, -, rfl⟩ := mem_goneIds.mp hi
  exact ReplayVM.lt_size_of_node? (hS.node?_of_mem (mem_namesakes.mp (namesake_of_byName hb)).1)

/-- A node made by the patch is not dropped by it. -/
theorem not_dropped (h : PatchWorks env order S S' R) {i : NodeId} (hi : S.nodes.size ≤ i.toNat) :
    .dropNode i ∉ patchOps (diffNodeGraphs order S.nodes.data S'.nodes.data).changes := fun hop =>
  Nat.not_le.mpr (lt_of_goneIds h.later.sound ((mem_patchOps h.later.sound hop).2.1 i rfl)) hi

variable {visited rest : List (AtomId × Node)} {vm vm' mid : ReplayVM} {ops later : List Op} {c : AtomId}
  {m : Node} {nc : NodeChange}

/-- A node made by the patch that is the first of its name still is so in the end. -/
theorem first_made (h : PatchWorks env order S S' R) (hvm : vm.Sound)
    (hperf : Performs env ops vm R) (hroom : vm.weight + ops.length < 2 ^ 32)
    (hops : ops ⊆ patchOps (diffNodeGraphs order S.nodes.data S'.nodes.data).changes)
    (hfirst : (namesakes vm.bodies c).head? = some m) (hm : S.nodes.size ≤ m.id.toNat)
    (ha : (byName S'.nodes.data).lookup c = some a) :
    ∃ n', R.bodies[m.id.toNat]? = some n' ∧ n'.kind = m.kind ∧
      Node.Matches R.bodies S'.nodes.data n' a := by
  obtain ⟨n', hn', hkept, hfirst'⟩ :=
    hperf.first_kept hvm hroom hfirst fun hop => h.not_dropped hm (hops hop)
  exact ⟨n', hn', hkept.label.1, (h.matched c (cons_of_byName ha).1).of_first hfirst' ha⟩

/-- No field can be set on a node that the patch has made before: it is a placeholder, or the node of a
name visited before, which has the id of its own fields or may have none. -/
theorem not_set_before (h : PatchWorks env order S S' R) (hnone : env.schema.kind kInvalidKind = none)
    (hvm : Midway S S' visited visited vm)
    (hentries : order.entries .afterByName (byName S'.nodes.data) = visited ++ (name, a) :: rest)
    (hperf : Performs env ops vm R) (hroom : vm.weight + ops.length < 2 ^ 32)
    (hops : ops ⊆ patchOps (diffNodeGraphs order S.nodes.data S'.nodes.data).changes) {n n' : Node}
    {f : FieldId} (hn : vm.bodies[a.id.toNat]? = some n) (hge : S.nodes.size ≤ a.id.toNat)
    (htype : env.schema.fieldType n.kind f ≠ .invalid) (hn' : R.bodies[a.id.toNat]? = some n') :
    n'.field f = none := by
  obtain ⟨-, as, has⟩ := visited_cons hentries
  obtain ⟨hamem, -, haname⟩ := mem_namesakes.mp (has ▸ List.mem_cons_self (a := a))
  rcases hvm.made _ _ hn hge with hkind | ⟨a', hmem, -, hfirst, hid⟩
  · rw [Schema.fieldType, hkind, hnone] at htype
    exact absurd rfl htype
  · have ha' : (byName S'.nodes.data).lookup n.name = some a' :=
      (order.mem_iff ..).mp (hentries ▸ List.mem_append_left _ hmem)
    by_cases hempty : a'.fields = ∅
    · have hnid : n.id.toNat = a.id.toNat := hvm.sound.ids_bodies _ _ hn
      obtain ⟨n'', hn'', -, hmatches⟩ :=
        h.first_made hvm.sound hperf hroom hops hfirst (hnid ▸ hge) ha'
      rw [hnid] at hn''
      obtain rfl := Option.some.inj (hn'.symm.trans hn'')
      refine hmatches.unset f ?_
      rw [Node.field, hempty]
      exact Finmap.lookup_empty _
    · obtain ⟨hamem', -, haname'⟩ := mem_namesakes.mp (namesake_of_byName ha')
      obtain rfl : a' = a := h.later.sound'.eq_of_id (h.later.sound'.node?_of_mem hamem) hamem'
        (UInt32.toNat_inj.mp (hid hempty))
      have hvisited : n.name ∈ visited.map Prod.fst := List.mem_map_of_mem (f := Prod.fst) hmem
      rw [← haname', haname] at hvisited
      exact absurd hvisited (not_visited hentries)

/-- **A new node with fields gets the id it has in the after-table.** -/
theorem numbered (h : PatchWorks env order S S' R) (hnone : env.schema.kind kInvalidKind = none)
    (hvm : Midway S S' visited visited vm)
    (hentries : order.entries .afterByName (byName S'.nodes.data) = visited ++ (name, a) :: rest)
    (hnew : (byName S.nodes.data).lookup name = none)
    (hperf : Performs env ((changeAfter order S.nodes.data S'.nodes.data (name, a)).ops ++ later) vm R)
    (hroom : vm.weight +
      ((changeAfter order S.nodes.data S'.nodes.data (name, a)).ops ++ later).length < 2 ^ 32)
    (hops : (changeAfter order S.nodes.data S'.nodes.data (name, a)).ops ++ later ⊆
      patchOps (diffNodeGraphs order S.nodes.data S'.nodes.data).changes)
    (hfields : a.fields ≠ ∅) : a.id.toNat = nextId S S' visited := by
  obtain ⟨hproper, as, has⟩ := visited_cons hentries
  have ha : a ∈ namesakes S'.nodes.data name := has ▸ List.mem_cons_self
  have hamem := (mem_namesakes.mp ha).1
  have hsize : vm.nodes.size = nextId S S' visited := hvm.size
  obtain ⟨f, v, hv⟩ : ∃ f v, a.field f = some v := by
    by_contra hall
    push Not at hall
    refine hfields (Finmap.ext_lookup fun f => ?_)
    rw [Finmap.lookup_empty]
    exact Option.eq_none_iff_forall_ne_some.mpr fun v => hall f v
  rw [changeAfter_new hnew] at hperf hroom hops
  have hset : (f, v) ∈ (addedChange order S'.nodes.data name a).sets := by
    refine NodeChange.mem_sets.mpr ⟨h.later.sound'.id_ne_invalid hamem, ⟨f, .invalid, v⟩, ?_, ?_, rfl⟩
    · exact List.mem_map.mpr ⟨(f, v), (order.mem_iff ..).mpr hv, rfl⟩
    · exact ((h.later.writable_of_mem hamem).fields f v hv).2.1
  have hsplit : (addedChange order S'.nodes.data name a).ops ++ later =
      .newNode a.kind name :: ((addedChange order S'.nodes.data name a).fieldOps ++
        ((addedChange order S'.nodes.data name a).childOps ++ later)) := by
    rw [← List.append_assoc]
    rfl
  have hall := hperf
  rw [hsplit] at hperf
  cases hperf with
  | @cons _ _ _ made _ _ heff hrest =>
    obtain ⟨full, hsets, -⟩ := hrest.of_append
    obtain ⟨n, hn, -, htype, hvalid⟩ := ReplayVM.performed_setFields_node hsets hset
    have hslots : made.SlotsAgree := heff.slotsAgree hvm.sound.slots
    have hfit : vm.nodes.size < 2 ^ 32 := Nat.lt_of_le_of_lt ReplayVM.size_le_weight hvm.sound.room
    obtain ⟨fresh, hcreates, -, -⟩ := creates_of_newNode hproper hfit heff
    have hnget : made.tick.bodies[a.id.toNat]? = some n.body := ReplayVM.body?_of_node? hn
    by_contra hid
    have hbefore : vm.bodies[a.id.toNat]? = some n.body :=
      (hcreates.cases_getElem? hnget).resolve_right fun hlast => hid (hlast.1.trans hsize)
    have hge : S.nodes.size ≤ a.id.toNat :=
      h.later.size_le_id ((byName_lookup_eq_none hproper).mp hnew) ha
    have htyped : env.schema.fieldType n.body.kind f ≠ .invalid := fun heq => hvalid (htype.symm.trans heq)
    obtain ⟨n', hn', hfield⟩ :=
      hrest.field_kept hslots hnget (List.mem_map_of_mem (f := Prod.fst) hset)
    exact hfield (h.not_set_before hnone hvm hentries hall hroom hops hbefore hge htyped hn')

/-- **The node of a name is reached** by its opcodes, once the names before it fit. -/
theorem nodeFits (h : PatchWorks env order S S' R) (hnone : env.schema.kind kInvalidKind = none)
    (hvm : Midway S S' visited visited vm)
    (hentries : order.entries .afterByName (byName S'.nodes.data) = visited ++ (name, a) :: rest)
    (hperf : Performs env ((changeAfter order S.nodes.data S'.nodes.data (name, a)).ops ++ later) vm R)
    (hroom : vm.weight +
      ((changeAfter order S.nodes.data S'.nodes.data (name, a)).ops ++ later).length < 2 ^ 32)
    (hops : (changeAfter order S.nodes.data S'.nodes.data (name, a)).ops ++ later ⊆
      patchOps (diffNodeGraphs order S.nodes.data S'.nodes.data).changes)
    (hframes : S.frames = []) : NodeFits env S S' visited name a := by
  have ha : (byName S'.nodes.data).lookup name = some a :=
    (order.mem_iff ..).mp (hentries ▸ List.mem_append_right _ List.mem_cons_self)
  refine ⟨h.comparable ha, fun hnew => h.declared hnone hnew ha, fun hnew => ?_,
    fun hnew => h.numbered hnone hvm hentries hnew hperf hroom hops, fun b hb => h.kind hb ha,
    fun b hb => h.same hb ha, fun b hb => h.owner hframes hb ha⟩
  rw [ops_changeAfter, makeOps, if_pos hnew] at hperf
  have hsize : vm.nodes.size = nextId S S' visited := hvm.size
  cases hperf with
  | cons _ heff _ =>
    cases heff with
    | newNode _ _ hlt => exact hsize ▸ hlt

/-- **A child is found by its name**, or the placeholder made for it does no harm. -/
theorem defined (h : PatchWorks env order S S' R) (hnone : env.schema.kind kInvalidKind = none)
    (hvm : Midway S S' visited visited vm)
    (hentries : order.entries .afterByName (byName S'.nodes.data) = visited ++ (name, a) :: rest)
    (hnc : nc = changeAfter order S.nodes.data S'.nodes.data (name, a))
    (hperf : Performs env nc.ops vm vm') (hlater : Performs env later vm' R)
    (hroom : vm.weight + (nc.ops ++ later).length < 2 ^ 32)
    (hops : later ⊆ patchOps (diffNodeGraphs order S.nodes.data S'.nodes.data).changes)
    (hfits : NodeFits env S S' visited name a) (hc : c ∈ gainedNames S S' name a) :
    S.findNamed c ≠ kInvalidNode ∨ c ∈ (visited ++ [(name, a)]).map Prod.fst ∨
      (byName S.nodes.data).lookup c ≠ none ∧ (byName S'.nodes.data).lookup c ≠ none := by
  by_contra hnot
  push Not at hnot
  obtain ⟨hindex, hvisited, hboth⟩ := hnot
  have hproper : c ≠ kInvalidAtom := (exists_of_mem_childNames (mem_gainedNames.mp hc).1).1
  obtain ⟨hremoved, hkeep⟩ := h.keeps nc (hnc ▸ changeAfter_mem hentries)
  rw [List.length_append] at hroom
  obtain ⟨hvm', hweight⟩ := hperf.sound hvm.sound (by omega)
  have hsplit : nc.ops = makeOps S name a ++ (nc.fieldOps ++ nc.childOps) := hnc ▸ ops_changeAfter ..
  have hlength := congrArg List.length hsplit
  rw [List.length_append] at hlength
  rw [hsplit] at hperf
  obtain ⟨mid, hmake, hrest⟩ := hperf.of_append
  obtain ⟨-, hweight'⟩ := hmake.sound hvm.sound (by omega)
  obtain ⟨m, hbegun⟩ := hvm.begin h.later hnc hentries hremoved hkeep hfits (by omega) hmake
  obtain ⟨made, hedited⟩ := hbegun.table hnc (by omega) hrest
  -- no name was there for it, so that a placeholder is made
  have hlacking : mid.findNamed c = kInvalidNode := by
    by_contra hsome
    rcases (hbegun.midway.found c).mp hsome with hsome | hnew | hunindexed
    · exact hsome hindex
    · exact hvisited hnew.1
    · exact hvm.after c hunindexed (hboth (mem_unindexed.mp hunindexed).2.2)
  have hadded : c ∈ nc.childrenAdded := by
    rw [hnc]
    exact mem_childrenAdded_changeAfter.mpr hc
  have hsakes : namesakes vm'.bodies c = namesakes mid.bodies c ++ namesakes made c := by
    refine hedited.others c fun heq => hvisited ?_
    rw [heq]
    exact List.mem_map_of_mem (List.mem_append_right _ List.mem_cons_self)
  have hmade : ∀ p ∈ made, S.nodes.size ≤ p.id.toNat := by
    intro p hp
    have hsize := hbegun.midway.size
    have hge := (hedited.placed.plain p hp).2.2
    omega
  obtain ⟨p, hp, hpname⟩ := List.mem_map.mp ((hedited.placed.lacking c).mpr ⟨hadded, hlacking⟩)
  have hpsake : p ∈ namesakes made c :=
    mem_namesakes.mpr ⟨hp, (hedited.placed.plain p hp).1, hpname⟩
  cases ha : (byName S'.nodes.data).lookup c with
  | none =>
    -- it is there in the end, where the after-table has nothing
    have hgone := (h.matched c hproper).absent_before ((byName_lookup_eq_none hproper).mp ha)
    have hpmem : p ∈ namesakes vm'.bodies c := hsakes ▸ List.mem_append_right _ hpsake
    obtain ⟨p', hp', -⟩ :=
      hlater.namesake_kept hvm' hpmem fun hop => h.not_dropped (hmade p hp) (hops hop)
    rw [hgone] at hp'
    cases hp'
  | some a' =>
    -- it is the first node of a name that is still to come
    have hnew : (byName S.nodes.data).lookup c = none := by
      by_contra hold
      rw [hboth hold] at ha
      cases ha
    rw [hbegun.midway.no_namesakes hproper hvisited hnew, List.nil_append] at hsakes
    obtain ⟨q, qs, hq⟩ := List.exists_cons_of_ne_nil (List.ne_nil_of_mem hpsake)
    have hqmem : q ∈ made := (mem_namesakes.mp (hq ▸ List.mem_cons_self (a := q))).1
    have hfirst : (namesakes vm'.bodies c).head? = some q := by
      rw [hsakes, hq]
      rfl
    obtain ⟨n', -, hkind, hmatches⟩ :=
      h.first_made hvm' hlater (by omega) hops hfirst (hmade q hqmem) ha
    refine h.declared hnone hnew ha ?_
    rw [← hmatches.kind, hkind]
    exact (hedited.placed.plain q hqmem).2.1

/-- **The names that are left fit**, one by one. -/
theorem visits (h : PatchWorks env order S S' R) (hnone : env.schema.kind kInvalidKind = none)
    (hframes : S.frames = []) (hvm : Midway S S' visited visited vm)
    (hentries : order.entries .afterByName (byName S'.nodes.data) = visited ++ rest)
    (hperf : Performs env (patchOps (rest.map (changeAfter order S.nodes.data S'.nodes.data)) ++ later)
      vm R)
    (hroom : vm.weight + (patchOps (rest.map (changeAfter order S.nodes.data S'.nodes.data)) ++
      later).length < 2 ^ 32)
    (hops : patchOps (rest.map (changeAfter order S.nodes.data S'.nodes.data)) ++ later ⊆
      patchOps (diffNodeGraphs order S.nodes.data S'.nodes.data).changes) :
    ∀ between name a left, rest = between ++ (name, a) :: left →
      VisitFits env S S' (visited ++ between) name a := by
  induction rest generalizing visited vm with
  | nil =>
    intro between name a left hsplit
    simp at hsplit
  | cons entry rest ih =>
    obtain ⟨name, a⟩ := entry
    rw [List.map_cons, patchOps, List.flatMap_cons, List.append_assoc] at hperf hroom hops
    obtain ⟨vm', hfirst, hrest⟩ := hperf.of_append
    obtain ⟨hremoved, hkeep⟩ := h.keeps _ (changeAfter_mem hentries)
    have hnode := h.nodeFits hnone hvm hentries hperf hroom hops hframes
    have hrestOps := (List.append_subset.mp hops).2
    have hv : VisitFits env S S' visited name a :=
      ⟨hnode, fun c hc => h.defined hnone hvm hentries rfl hfirst hrest hroom hrestOps hnode hc⟩
    rw [List.length_append] at hroom
    have hnext := hvm.visit h.later rfl hentries hremoved hkeep hv (by omega) hfirst
    obtain ⟨-, hweight⟩ := hfirst.sound hvm.sound (by omega)
    rintro (_ | ⟨entry, between⟩) name' a' left hsplit
    · obtain ⟨hentry, -⟩ := List.cons.inj hsplit
      obtain ⟨rfl, rfl⟩ := Prod.mk.inj hentry
      rw [List.append_nil]
      exact hv
    · obtain ⟨rfl, hleft⟩ := List.cons.inj hsplit
      rw [List.append_cons]
      exact ih hnext (by rw [hentries, List.append_assoc]; rfl) hrest (by rw [patchOps]; omega) hrestOps
        between name' a' left hleft

end PatchWorks

/-- **What a patch that works relied on.** -/
theorem patchFits_of_performed {env : Env} {order : IterationOrder} {S S' R : ReplayVM}
    (h : PatchWorks env order S S' R) (hnone : env.schema.kind kInvalidKind = none)
    (hframes : S.frames = []) : PatchFits env order S S' := by
  have hsplit : patchOps (diffNodeGraphs order S.nodes.data S'.nodes.data).changes = _ :=
    patchOps_diff h.later.sound
  refine ⟨hframes, fun visited name a rest hentries => ?_, fun name b hb ha => h.only hb ha⟩
  have hperf := h.performs
  have hroom := h.room
  rw [hsplit] at hperf hroom
  have hfits := h.visits hnone hframes (midway_start h.later.sound hframes) (List.nil_append _).symm
    hperf hroom (hsplit ▸ List.Subset.refl _) visited name a rest hentries
  rw [List.nil_append] at hfits
  exact hfits

end Stratavm
