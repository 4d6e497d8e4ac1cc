import Stratavm.Diff.Patch
import Stratavm.Lib.Tally
import Stratavm.ReplayVm.Frozen

/-!
# A patch is no longer than the journal before it

`Node.cost` counts the opcodes it takes to make a node of what was in its slot in an earlier table:
a node to make or to drop, fields to set, children to add in one group. An opcode raises the cost of
the whole table, with that of the open groups, by at most one (`Effect.budget`); so the cost of a
later table is at most the number of opcodes in between (`cost_of_replays`).

Out of scope: the cost of opcodes that leave no trace in the table, such as a field that is set twice.
They make a journal longer than its cost.
-/

namespace Stratavm

open Lib

/-! ## What a node costs -/

namespace Node

/-- The fields that differ from those of the node that was in the slot. -/
def changedFields (old : Option Node) (n : Node) : Finset FieldId :=
  n.fields.keys.filter fun f => (old.bind fun m => m.field f) ≠ n.field f

/-- How many children the node has gained. -/
def gained (old : Option Node) (n : Node) : Nat :=
  n.children.length - old.elim 0 fun m => m.children.length

/-- The opcodes it takes to make `n` of what was in its slot. -/
def cost (old : Option Node) (n : Node) : Nat :=
  (if old.isNone ∧ n.kind ≠ kInvalidKind then 1 else 0) +
    (if old.any Node.alive ∧ n.alive = false then 1 else 0) + (n.changedFields old).card +
    (n.gained old + if n.gained old = 0 then 0 else 2)

variable {old : Option Node} {n : Node}

theorem mem_changedFields {f : FieldId} : f ∈ n.changedFields old ↔
    n.field f ≠ none ∧ (old.bind fun m => m.field f) ≠ n.field f := by
  unfold changedFields
  rw [Finset.mem_filter, Finmap.mem_keys, ← Finmap.lookup_isSome, Option.isSome_iff_ne_none]
  rfl

/-- A node costs nothing where it is. -/
theorem cost_self (n : Node) : n.cost (some n) = 0 := by
  have hfields : n.changedFields (some n) = ∅ :=
    Finset.eq_empty_of_forall_notMem fun f hf => (mem_changedFields.mp hf).2 rfl
  have hgained : n.gained (some n) = 0 := Nat.sub_self _
  rw [cost, hfields, hgained]
  cases h : n.alive <;> simp [h]

/-- A placeholder costs nothing. -/
theorem cost_placeholder (hkind : n.kind = kInvalidKind) (hfields : n.fields = ∅)
    (hchildren : n.children = []) : n.cost none = 0 := by
  have hchanged : n.changedFields none = ∅ := by
    refine Finset.eq_empty_of_forall_notMem fun f hf => (mem_changedFields.mp hf).1 ?_
    rw [field, hfields, Finmap.lookup_empty]
  simp [cost, hchanged, gained, hkind, hchildren]

/-- A node as `NEW_NODE` makes it costs one opcode at most. -/
theorem cost_fresh (hfields : n.fields = ∅) (hchildren : n.children = []) : n.cost none ≤ 1 := by
  have hchanged : n.changedFields none = ∅ := by
    refine Finset.eq_empty_of_forall_notMem fun f hf => (mem_changedFields.mp hf).1 ?_
    rw [field, hfields, Finmap.lookup_empty]
  simp only [cost, hchanged, gained, hchildren, Option.isNone_none, Option.any_none,
    List.length_nil, Nat.zero_sub, Finset.card_empty]
  split <;> simp

theorem cost_setField {f : FieldId} {v : Value} : (n.setField f v).cost old ≤ n.cost old + 1 := by
  have hsub : (n.setField f v).changedFields old ⊆ insert f (n.changedFields old) := by
    intro g hg
    rw [Finset.mem_insert]
    rw [mem_changedFields, field_setField] at hg
    by_cases hgf : g = f
    · exact .inl hgf
    · rw [if_neg hgf] at hg
      exact .inr (mem_changedFields.mpr hg)
  have hcard := Nat.le_trans (Finset.card_le_card hsub) (Finset.card_insert_le _ _)
  have hgained : (n.setField f v).gained old = n.gained old := rfl
  have hkind : (n.setField f v).kind = n.kind := rfl
  have halive : (n.setField f v).alive = n.alive := rfl
  unfold cost
  rw [hgained, hkind, halive]
  omega

theorem cost_drop : ({ n with alive := false, generation := n.generation + 1 } : Node).cost old ≤
    n.cost old + 1 := by
  have hchanged : ({ n with alive := false, generation := n.generation + 1 } : Node).changedFields
      old = n.changedFields old := rfl
  have hgained : ({ n with alive := false, generation := n.generation + 1 } : Node).gained old =
      n.gained old := rfl
  unfold cost
  rw [hchanged, hgained]
  dsimp only
  split <;> split <;> split <;> omega

/-- Children that are linked cost one opcode each, and the two of their group. -/
theorem cost_children (linked : List NodeId) :
    ({ n with children := n.children ++ linked } : Node).cost old ≤ n.cost old + linked.length + 2 := by
  have hchanged : ({ n with children := n.children ++ linked } : Node).changedFields old =
      n.changedFields old := rfl
  have hgained : ({ n with children := n.children ++ linked } : Node).gained old ≤
      n.gained old + linked.length := by
    unfold gained
    rw [List.length_append]
    omega
  unfold cost
  rw [hchanged]
  dsimp only
  split <;> split <;> split <;> split <;> omega

end Node

/-! ## What a table costs -/

namespace ReplayVM

variable {env : Env} {base : List Node} {vm vm' : ReplayVM}

/-- The opcodes it takes to make the table of `base`. -/
def tableCost (base : List Node) (vm : ReplayVM) : Nat :=
  tally (fun i n => n.cost base[i]?) vm.bodies

/-- The opcodes that are not in the table yet: those of the open groups. -/
def openCost (vm : ReplayVM) : Nat :=
  (vm.frames.map fun f => f.deferredChildren.length + 1).sum

/-- **An opcode costs one at most.** -/
theorem Effect.budget {op : Op} (h : Effect env vm op vm') (hslots : vm.SlotsAgree)
    (hbase : base.length ≤ vm.nodes.size) :
    tableCost base vm' + vm'.openCost ≤ tableCost base vm + vm.openCost + 1 := by
  have hnew : ∀ i, vm.bodies.length ≤ i → base[i]? = none := by
    intro i hi
    rw [length_bodies] at hi
    exact List.getElem?_eq_none (Nat.le_trans hbase hi)
  have hmodify : ∀ {i : Nat} {f : Node → Node} {vm' : ReplayVM},
      vm'.bodies = vm.bodies.modify i f → vm'.frames = vm.frames →
      (∀ n, (f n).cost base[i]? ≤ n.cost base[i]? + 1) →
        tableCost base vm' + vm'.openCost ≤ tableCost base vm + vm.openCost + 1 := by
    intro i f vm' hbodies hframes hf
    have hle : tally (fun i (n : Node) => n.cost base[i]?) (vm.bodies.modify i f) ≤
        tally (fun i n => n.cost base[i]?) vm.bodies + 1 := tally_modify_le fun n _ => hf n
    unfold tableCost openCost
    rw [hbodies, hframes]
    omega
  cases h with
  | @newNode kind name =>
    let fresh : Node := { id := UInt32.ofNat vm.nodes.size, kind, name, alive := true }
    have hfresh : fresh.cost none ≤ 1 := Node.cost_fresh rfl rfl
    have hcost : tableCost base (vm.createNode env kind name) = tableCost base vm + fresh.cost none := by
      unfold tableCost
      rw [bodies_createNode, tally_append_singleton, hnew _ (Nat.le_refl _)]
    have hopen : (vm.createNode env kind name).openCost = vm.openCost := rfl
    omega
  | setField => exact hmodify bodies_storeField rfl fun _ => Node.cost_setField
  | linkRef => exact hmodify bodies_storeRef rfl fun _ => Node.cost_setField
  | drop => exact hmodify bodies_drop rfl fun _ => Node.cost_drop
  | @beginGroup name hint =>
    have hopen : (vm.openGroup env (vm.findNamed name) name hint).openCost = vm.openCost + 1 := by
      unfold openCost openGroup
      rw [List.map_cons, List.sum_cons]
      exact Nat.add_comm _ _
    unfold tableCost
    rw [bodies_openGroup, hopen]
    exact Nat.le_refl _
  | @addChild child frame frames hf =>
    have hqueue : (vm.queueChild frame frames child).openCost = vm.openCost + 1 := by
      unfold openCost queueChild
      rw [hf, List.map_cons, List.sum_cons, List.map_cons, List.sum_cons, List.length_append]
      simp only [List.length_singleton]
      omega
    rw [hqueue]
    exact Nat.le_refl _
  | @endGroup frame frames vm' hf hr =>
    have hframe := hslots frame (hf ▸ List.mem_cons_self)
    obtain ⟨made, linked, hplain, hlength, hbodies⟩ := bodies_resolve hframe hr
    have hpop : ({ vm with frames } : ReplayVM).bodies = vm.bodies := rfl
    rw [hpop] at hbodies
    have hmade : tally (fun i n => n.cost base[i]?) (vm.bodies ++ made) = tableCost base vm := by
      refine tally_append_eq fun n hn i hi => ?_
      obtain ⟨hkind, hfields, hchildren⟩ := hplain n hn
      rw [hnew i hi]
      exact Node.cost_placeholder hkind hfields hchildren
    have hle : tally (fun i (n : Node) => n.cost base[i]?) vm'.bodies ≤
        tally (fun i n => n.cost base[i]?) (vm.bodies ++ made) + (linked.length + 2) := by
      rw [hbodies]
      exact tally_modify_le fun n _ => Node.cost_children linked
    have hframes : vm'.frames = frames := (resolve_size hr).1
    unfold openCost
    rw [hframes, hf, List.map_cons, List.sum_cons]
    rw [hmade] at hle
    unfold tableCost at hle ⊢
    omega
  | _ => exact Nat.le_succ _

/-- The table it started from costs nothing. -/
theorem tableCost_self (vm : ReplayVM) : tableCost vm.bodies vm = 0 := by
  unfold tableCost
  rw [tally_eq_sum]
  refine Finset.sum_eq_zero fun i _ => ?_
  rw [List.getElem?_eq_getElem i.isLt]
  exact Node.cost_self _

/-! ### Children and names -/

/-- **A node keeps its children.** -/
theorem Effect.keeps_children {op : Op} (h : Effect env vm op vm') (hslots : vm.SlotsAgree) {i : Nat}
    {n : Node} (hn : vm.bodies[i]? = some n) :
    ∃ n', vm'.bodies[i]? = some n' ∧ n.children <+: n'.children := by
  have hmodify : ∀ {j : Nat} {f : Node → Node}, vm'.bodies = vm.bodies.modify j f →
      (∀ n, n.children <+: (f n).children) →
        ∃ n', vm'.bodies[i]? = some n' ∧ n.children <+: n'.children := by
    intro j f hbodies hf
    rw [hbodies, List.getElem?_modify, hn]
    by_cases hij : j = i
    · exact ⟨f n, by simp [hij], hf n⟩
    · exact ⟨n, by simp [hij], List.prefix_rfl⟩
  have hsame : ∀ {f : Node → Node} {j : Nat}, vm'.bodies = vm.bodies.modify j f →
      (∀ n, (f n).children = n.children) →
        ∃ n', vm'.bodies[i]? = some n' ∧ n.children <+: n'.children := fun hbodies hf =>
    hmodify hbodies fun n => by rw [hf]
  cases h with
  | newNode =>
    rw [bodies_createNode, List.getElem?_append_left (List.getElem?_eq_some_iff.mp hn).1]
    exact ⟨n, hn, List.prefix_rfl⟩
  | setField => exact hsame bodies_storeField fun _ => rfl
  | linkRef => exact hsame bodies_storeRef fun _ => rfl
  | drop => exact hsame bodies_drop fun _ => rfl
  | beginGroup =>
    rw [bodies_openGroup]
    exact ⟨n, hn, List.prefix_rfl⟩
  | @endGroup frame frames vm' hf hr =>
    obtain ⟨made, linked, -, -, hbodies⟩ := bodies_resolve (hslots frame (hf ▸ List.mem_cons_self)) hr
    have hn' : (vm.bodies ++ made)[i]? = some n := by
      rw [List.getElem?_append_left (List.getElem?_eq_some_iff.mp hn).1]
      exact hn
    rw [hbodies, List.getElem?_modify]
    refine ⟨_, congrArg _ hn', ?_⟩
    split
    · exact List.prefix_append _ _
    · exact List.prefix_rfl
  | _ => exact ⟨n, hn, List.prefix_rfl⟩

/-- The index maps a name to the last alive node that has it. -/
def NamesLast (vm : ReplayVM) : Prop :=
  ∀ a i, vm.nameIndex.lookup a = some i → ∀ j (n : Node), vm.bodies[j]? = some n →
    n.alive = true → n.name = a → j ≤ i.toNat

/-- A node is appended and takes its name over. -/
theorem NamesLast.push (h : vm.NamesLast) (hint : vm.Integrity) (hsize : vm.nodes.size < 2 ^ 32)
    {n : Node} (hbodies : vm'.bodies = vm.bodies ++ [n])
    (hindex : vm'.nameIndex = registerName vm.nameIndex n.name (UInt32.ofNat vm.nodes.size)) :
    vm'.NamesLast := by
  intro a i hi j m hm halive hname
  rw [hindex, lookup_registerName] at hi
  rw [hbodies] at hm
  have hj : j ≤ vm.nodes.size := by
    have hlt := (List.getElem?_eq_some_iff.mp hm).1
    rw [List.length_append, length_bodies] at hlt
    exact Nat.le_of_lt_succ hlt
  split at hi
  · obtain rfl := Option.some.inj hi
    rwa [toNat_ofNat_of_lt hsize]
  · rename_i hne
    rcases Nat.lt_or_eq_of_le hj with hlt | heq
    · rw [List.getElem?_append_left (by rw [length_bodies]; exact hlt)] at hm
      exact h a i hi j m hm halive hname
    · -- the new node has the name, which is then no proper one
      rw [heq, ← length_bodies, List.getElem?_append_right (Nat.le_refl _), Nat.sub_self] at hm
      obtain rfl := Option.some.inj hm
      exact absurd ⟨hname ▸ (hint.index a i hi).1, hname.symm⟩ hne

/-- A node is changed, and keeps its name. -/
theorem NamesLast.modify (h : vm.NamesLast) {i : Nat} {f : Node → Node}
    (hbodies : vm'.bodies = vm.bodies.modify i f)
    (hindex : ∀ a j, vm'.nameIndex.lookup a = some j → vm.nameIndex.lookup a = some j)
    (hf : ∀ n, (f n).name = n.name ∧ ((f n).alive = true → n.alive = true)) : vm'.NamesLast := by
  intro a k hk j m hm halive hname
  rw [hbodies, List.getElem?_modify] at hm
  obtain ⟨n, hn, rfl⟩ := Option.map_eq_some_iff.mp hm
  refine h a k (hindex a k hk) j n hn ?_ ?_
  · split at halive
    · exact (hf n).2 halive
    · exact halive
  · split at hname
    · rwa [(hf n).1] at hname
    · exact hname

theorem Effect.namesLast {op : Op} (h : Effect env vm op vm') (hsound : vm.Sound)
    (h0 : vm.NamesLast) : vm'.NamesLast := by
  have hroom := hsound.room
  have hweight : vm.nodes.size ≤ vm.weight := size_le_weight
  cases h with
  | newNode => exact h0.push hsound.toIntegrity (by omega) bodies_createNode rfl
  | setField => exact h0.modify bodies_storeField (fun _ _ h => h) fun _ => ⟨rfl, id⟩
  | linkRef => exact h0.modify bodies_storeRef (fun _ _ h => h) fun _ => ⟨rfl, id⟩
  | @drop _ node =>
    refine h0.modify bodies_drop (fun a j h => ?_) fun _ => ⟨rfl, nofun⟩
    unfold ReplayVM.drop at h
    dsimp only at h
    split at h
    · by_cases ha : a = node.name
      · rw [ha, Finmap.lookup_erase] at h
        cases h
      · rwa [Finmap.lookup_erase_ne ha] at h
    · exact h
  | beginGroup =>
    unfold NamesLast
    rw [bodies_openGroup]
    exact h0
  | @endGroup frame frames vm' hf hr =>
    obtain ⟨hint, hsize, hslot, -⟩ := hsound.pop hf
    refine hint.resolve_induction (P := NamesLast) hslot hsize ?_ h0 hr
    intro mid child hmid hmidSize _ hlast
    refine NamesLast.modify ?_ (bodies_attach ..) (fun _ _ h => h) fun _ => ⟨rfl, id⟩
    rcases target_eq env mid child with ⟨-, heq⟩ | ⟨-, heq⟩
    · rw [heq]
      exact hlast.push hmid (by omega) bodies_materialize rfl
    · rw [heq]
      exact hlast
  | _ => exact h0

end ReplayVM

/-! ## Along a run -/

section Runs

variable {env : Env} {vm vm' : ReplayVM} {ops : List Op} {r r' : Bytes}

/-- **A table costs no more than the opcodes since the one it is compared with.** -/
theorem cost_of_replays (h : Replays env ops vm r vm' r') {base : List Node}
    (hslots : vm.SlotsAgree) (hbase : base.length ≤ vm.nodes.size) :
    vm'.tableCost base + vm'.openCost ≤ vm.tableCost base + vm.openCost + ops.length := by
  induction h with
  | nil => exact Nat.le_refl _
  | @cons _ ops vm _ vm1 _ vm' _ _ heff _ ih =>
    have hstep := heff.budget hslots hbase
    have hslots' : vm1.SlotsAgree := heff.slotsAgree hslots
    have hrest := ih hslots' (Nat.le_trans hbase heff.size_mono)
    have htick : vm1.tick.tableCost base + vm1.tick.openCost = vm1.tableCost base + vm1.openCost := rfl
    rw [List.length_cons]
    omega

theorem children_of_replays (h : Replays env ops vm r vm' r') (hslots : vm.SlotsAgree) {i : Nat}
    {n : Node} (hn : vm.bodies[i]? = some n) :
    ∃ n', vm'.bodies[i]? = some n' ∧ n.children <+: n'.children := by
  induction h generalizing n with
  | nil => exact ⟨n, hn, List.prefix_rfl⟩
  | @cons _ _ _ _ vm1 _ _ _ _ heff _ ih =>
    have hslots' : vm1.SlotsAgree := heff.slotsAgree hslots
    obtain ⟨n1, hn1, hprefix⟩ := heff.keeps_children hslots hn
    obtain ⟨n', hn', hprefix'⟩ := ih hslots' hn1
    exact ⟨n', hn', hprefix.trans hprefix'⟩

/-- Ids are positions, so they increase. -/
theorem ReplayVM.Sound.pairwise_ids (h : vm.Sound) :
    vm.nodes.data.Pairwise fun n m => n.id.toNat < m.id.toNat := by
  refine List.pairwise_iff_getElem.mpr fun i j hi hj hij => ?_
  rw [h.ids i _ (List.getElem?_eq_getElem hi), h.ids j _ (List.getElem?_eq_getElem hj)]
  exact hij

/-- A derived index has the last node of each name. -/
theorem ReplayVM.NamesDerived.last (h : vm.NamesDerived) (hsound : vm.Sound) : vm.NamesLast := by
  intro a i hi j b hb halive hname
  rw [ReplayVM.bodies, List.getElem?_map] at hb
  obtain ⟨n, hn, rfl⟩ := Option.map_eq_some_iff.mp hb
  rw [h, XrefIndex.lookup_nameToId] at hi
  split at hi
  · cases hi
  · obtain ⟨m, hm, rfl⟩ := Option.map_eq_some_iff.mp hi
    have hmem : n ∈ namesakes vm.nodes.data a :=
      mem_namesakes.mpr ⟨List.mem_of_getElem? hn, halive, hname⟩
    obtain ⟨front, hfront⟩ := List.getLast?_eq_some_iff.mp hm
    have hpair : (namesakes vm.nodes.data a).Pairwise fun n m => n.id.toNat < m.id.toNat :=
      hsound.pairwise_ids.filter _
    rw [hfront] at hmem hpair
    rw [← hsound.ids j n hn]
    rcases List.mem_append.mp hmem with hmem | hmem
    · exact Nat.le_of_lt ((List.pairwise_append.mp hpair).2.2 n hmem m List.mem_cons_self)
    · rw [List.mem_singleton.mp hmem]

/-- In every state of a run from a decoded heap a name is mapped to the last node that has it. -/
theorem namesLast_of_stateAt (hids : env.limits.IdsFit) {bytes rest journal : Bytes}
    {heap : HeapImage}
    (hheap : decodeHeap env.growth env.schema env.atoms env.limits bytes = .ok (heap, rest))
    {k : Nat} (h : StateAt env (ReplayVM.seed {} heap) journal k vm r) : vm.NamesLast := by
  refine h.induction (P := fun _ vm => vm.NamesLast) ?_ ?_
  · exact (namesDerived_seed hheap).last (ReplayVM.sound_seed hids hheap)
  · intro k vm op vm' hexec hlast
    obtain ⟨_, hbefore⟩ := hexec.before
    exact hexec.effect.namesLast (sound_of_stateAt hids hheap hbefore) hlast

theorem sound_of_replays (h : Replays env ops vm r vm' r') (h0 : vm.Sound)
    (hroom : vm.weight + ops.length < 2 ^ 32) : vm'.Sound := by
  induction h with
  | nil => exact h0
  | @cons _ ops _ _ vm1 _ _ _ _ heff _ ih =>
    rw [List.length_cons] at hroom
    have hweight : vm1.tick.weight ≤ _ := heff.weight_le
    exact ih (heff.sound h0 (by omega)) (by omega)

end Runs

end Stratavm
