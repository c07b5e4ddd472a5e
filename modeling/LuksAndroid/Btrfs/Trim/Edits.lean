import LuksAndroid.Btrfs.Trim.Plan

/-!
# The edits of a plan

The deletions, then the truncations, then the insertions, each a run of tree steps. Together they leave of
every planned item what its plan leaves of it, and of the others all.
-/

namespace LuksAndroid.Btrfs

open Keyed

def delete_steps (generation owner : Nat) (keys : List Key) : List TreeStep :=
  keys.map fun key => ⟨owner, generation, .delete key⟩

def mutate_steps (generation owner : Nat) (items : List LeafItem) : List TreeStep :=
  items.map fun it => ⟨owner, generation, .mutate it.key fun _ => .ok it.data⟩

def insert_steps (generation owner : Nat) (items : List LeafItem) : List TreeStep :=
  items.map fun it => ⟨owner, generation, .insert it.key it.data⟩

/-- The edits of some plans, in the order in which they are made. -/
def edit_steps (generation owner : Nat) (plans : List ItemDiff) : List TreeStep :=
  delete_steps generation owner (plans.flatMap (·.to_delete)) ++
    (mutate_steps generation owner (plans.flatMap (·.to_mutate)) ++
      insert_steps generation owner (plans.flatMap (·.to_insert)))

variable {generation owner : Nat} {items items' : List LeafItem}

/-! ## What the edits make of the items -/

theorem mem_alter {key : Key} {f : LeafItem → List LeafItem} {a : LeafItem} :
    a ∈ alter LeafItem.key key f items ↔ (a ∈ items ∧ a.key ≠ key) ∨ ∃ b ∈ items, b.key = key ∧ a ∈ f b := by
  rw [alter, List.mem_flatMap]
  constructor
  · rintro ⟨b, hb, ha⟩
    by_cases hk : b.key = key
    · rw [if_pos hk] at ha
      exact .inr ⟨b, hb, hk, ha⟩
    · rw [if_neg hk] at ha
      obtain rfl := List.mem_singleton.mp ha
      exact .inl ⟨hb, hk⟩
  · rintro (⟨ha, hk⟩ | ⟨b, hb, hk, ha⟩)
    · exact ⟨a, ha, by rw [if_neg hk]; exact List.mem_singleton.mpr rfl⟩
    · exact ⟨b, hb, by rwa [if_pos hk]⟩

theorem specSteps_cons {t : TreeStep} {ts : List TreeStep} :
    specSteps items (t :: ts) = (t.op.spec items).bind fun m => specSteps m ts := rfl

theorem specSteps_append {ts us : List TreeStep} :
    specSteps items (ts ++ us) = (specSteps items ts).bind fun m => specSteps m us :=
  List.foldlM_append

theorem mem_deleted {keys : List Key} (h : specSteps items (delete_steps generation owner keys) = some items')
    (a : LeafItem) : a ∈ items' ↔ a ∈ items ∧ a.key ∉ keys := by
  induction keys generalizing items with
  | nil =>
    cases h
    simp
  | cons key keys ih =>
    rw [delete_steps, List.map_cons, specSteps_cons] at h
    obtain ⟨m, hm, h⟩ := Option.bind_eq_some_iff.mp h
    simp only [TreeOp.spec] at hm
    split at hm
    · cases hm
      rw [ih h, mem_alter, List.mem_cons, not_or]
      simp only [List.not_mem_nil, and_false, exists_false, or_false, ne_eq, and_assoc]
    · cases hm

theorem mem_mutated {ms : List LeafItem} (hms : Sorted LeafItem.key ms)
    (h : specSteps items (mutate_steps generation owner ms) = some items') (a : LeafItem) :
    a ∈ items' ↔ (a ∈ items ∧ a.key ∉ ms.map (·.key)) ∨ a ∈ ms := by
  induction ms generalizing items with
  | nil =>
    cases h
    simp
  | cons it ms ih =>
    obtain ⟨habove, hrest⟩ := sorted_cons.mp hms
    rw [mutate_steps, List.map_cons, specSteps_cons] at h
    obtain ⟨m, hm, h⟩ := Option.bind_eq_some_iff.mp h
    simp only [TreeOp.spec] at hm
    split at hm
    · rename_i hkey
      cases hm
      obtain ⟨b, hb, hbk⟩ := any_key.mp hkey
      have hedited : a ∈ alter LeafItem.key it.key (edited fun _ => .ok it.data) items ↔
          (a ∈ items ∧ a.key ≠ it.key) ∨ a = it := by
        rw [mem_alter]
        refine or_congr_right ?_
        constructor
        · rintro ⟨c, -, hck, ha⟩
          rw [List.mem_singleton.mp ha, hck]
        · rintro rfl
          exact ⟨b, hb, hbk, List.mem_singleton.mpr (by rw [hbk])⟩
      rw [ih hrest h, hedited, List.map_cons, List.mem_cons, List.mem_cons, not_or]
      have hit : a = it → a.key ∉ ms.map (·.key) := by
        rintro rfl hmem
        obtain ⟨c, hc, hck⟩ := List.mem_map.mp hmem
        exact absurd hck (habove c hc).ne'
      tauto
    · cases hm

theorem mem_inserted {is : List LeafItem}
    (h : specSteps items (insert_steps generation owner is) = some items') (a : LeafItem) :
    a ∈ items' ↔ a ∈ items ∨ a ∈ is := by
  induction is generalizing items with
  | nil =>
    cases h
    simp
  | cons it is ih =>
    rw [insert_steps, List.map_cons, specSteps_cons] at h
    obtain ⟨m, hm, h⟩ := Option.bind_eq_some_iff.mp h
    simp only [TreeOp.spec] at hm
    split at hm
    · cases hm
    · cases hm
      rw [ih h, mem_insert, List.mem_cons]
      tauto

section Planned

variable {planned : List LeafItem} {plan : LeafItem → ItemDiff} {left : LeafItem → List LeafItem}

theorem mutated_sorted (hplanned : Sorted LeafItem.key planned)
    (hplan : ∀ it ∈ planned, Leaves it (left it) (plan it)) :
    Sorted LeafItem.key ((planned.map plan).flatMap (·.to_mutate)) := by
  rw [List.flatMap_map, Sorted, List.pairwise_flatMap]
  refine ⟨fun it hit => ?_, hplanned.imp_of_mem fun {x y} hx hy hxy a ha b hb => ?_⟩
  · have hlen := (hplan it hit).single
    rcases hm : (plan it).to_mutate with _ | ⟨a, _ | ⟨b, l⟩⟩
    · exact .nil
    · exact List.pairwise_singleton _ _
    · rw [hm] at hlen
      simp at hlen
  · rw [(hplan x hx).mutate a ha, (hplan y hy).mutate b hb]
    exact hxy

/-- After all edits the planned items are replaced by what is left of them. -/
theorem mem_planned (hitems : Sorted LeafItem.key items) (hplanned : Sorted LeafItem.key planned)
    (hsub : ∀ it ∈ planned, it ∈ items) (hplan : ∀ it ∈ planned, Leaves it (left it) (plan it))
    (h : specSteps items (edit_steps generation owner (planned.map plan)) = some items') (a : LeafItem) :
    a ∈ items' ↔ (a ∈ items ∧ a ∉ planned) ∨ ∃ it ∈ planned, a ∈ left it := by
  rw [edit_steps, specSteps_append] at h
  obtain ⟨m, hdel, h⟩ := Option.bind_eq_some_iff.mp h
  rw [specSteps_append] at h
  obtain ⟨m', hmut, hins⟩ := Option.bind_eq_some_iff.mp h
  rw [mem_inserted hins, mem_mutated (mutated_sorted hplanned hplan) hmut, mem_deleted hdel]
  simp only [List.flatMap_map, List.mem_flatMap, List.mem_map, not_exists, not_and]
  -- A key names one item.
  have hunique : ∀ it ∈ planned, ∀ b ∈ items, b.key = it.key → b = it := fun it hit b hb hk =>
    hitems.eq_of_key hb (hsub it hit) hk
  constructor
  · rintro ((⟨⟨ha, hd⟩, hm⟩ | ⟨it, hit, ha⟩) | ⟨it, hit, ha⟩)
    · by_cases hp : a ∈ planned
      · refine .inr ⟨a, hp, ((hplan a hp).mem a).mpr (.inl ⟨rfl, ?_, ?_⟩)⟩
        · rw [List.eq_nil_iff_forall_not_mem]
          intro k hk
          have hka := (hplan a hp).delete k hk
          exact hd a hp (hka ▸ hk)
        · rw [List.eq_nil_iff_forall_not_mem]
          intro b hb
          exact hm b ⟨a, hp, hb⟩ ((hplan a hp).mutate b hb)
      · exact .inl ⟨ha, hp⟩
    · exact .inr ⟨it, hit, ((hplan it hit).mem a).mpr (.inr (.inl ha))⟩
    · exact .inr ⟨it, hit, ((hplan it hit).mem a).mpr (.inr (.inr ha))⟩
  · rintro (⟨ha, hp⟩ | ⟨it, hit, ha⟩)
    · refine .inl (.inl ⟨⟨ha, fun it hit hd => ?_⟩, fun b ⟨it, hit, hb⟩ hk => ?_⟩)
      · have hak := (hplan it hit).delete _ hd
        exact hp (hunique it hit a ha hak ▸ hit)
      · have hak := (hplan it hit).mutate b hb
        exact hp (hunique it hit a ha (hk.symm.trans hak) ▸ hit)
    · rcases ((hplan it hit).mem a).mp ha with ⟨rfl, hd, hm⟩ | hm | hi
      · refine .inl (.inl ⟨⟨hsub a hit, fun b hb hd' => ?_⟩, fun b ⟨c, hc, hb⟩ hk => ?_⟩)
        · have hab := hunique b hb a (hsub a hit) ((hplan b hb).delete _ hd')
          rw [hab] at hd
          rw [hd] at hd'
          cases hd'
        · have hac := hunique c hc a (hsub a hit) (hk.symm.trans ((hplan c hc).mutate b hb))
          rw [hac] at hm
          rw [hm] at hb
          cases hb
      · exact .inl (.inr ⟨it, hit, hm⟩)
      · exact .inr ⟨it, hit, hi⟩

end Planned

/-! ## The edits as tree steps -/

theorem edit_or_ok {missing : String} {key : Key} {f : Bytes → Except LuksError Bytes} {l l' : Leaf}
    (h : edit_or missing key f l = .ok l') : edit_item key f l = .ok l' := by
  unfold edit_or at h
  unfold edit_item
  cases hfind : l.find_item key with
  | none =>
    rw [hfind] at h
    cases h
  | some idx =>
    rw [hfind] at h
    cases hit : l.items[idx]? with
    | none =>
      simp only [hit] at h
      cases h
    | some it =>
      simp only [hit] at h ⊢
      exact h

theorem cow_descend_mono {fs : BtrfsView} {pending : Pending} {key : Key}
    {f g : Leaf → Except LuksError Leaf} (hfg : ∀ l l', f l = .ok l' → g l = .ok l') (level : Nat) {b : Nat}
    {is_root : Bool} {s s' : CowState} {res : MutateResult}
    (h : cow_descend fs pending owner key generation f level b is_root s = .ok res s') :
    cow_descend fs pending owner key generation g level b is_root s = .ok res s' := by
  induction level generalizing b is_root res s' with
  | zero =>
    rw [cow_descend] at h ⊢
    obtain ⟨node, hnode, h⟩ := CowM.bind_lift_ok.mp h
    refine CowM.bind_lift_ok.mpr ⟨node, hnode, ?_⟩
    unfold mutate_leaf at h ⊢
    obtain ⟨leaf, hleaf, h⟩ := CowM.bind_lift_ok.mp h
    obtain ⟨leaf', hleaf', h⟩ := CowM.bind_lift_ok.mp h
    exact CowM.bind_lift_ok.mpr ⟨leaf, hleaf, CowM.bind_lift_ok.mpr ⟨leaf', hfg _ _ hleaf', h⟩⟩
  | succ level ih =>
    rw [cow_descend] at h ⊢
    obtain ⟨node, hnode, h⟩ := CowM.bind_lift_ok.mp h
    obtain ⟨interior, hinterior, h⟩ := CowM.bind_lift_ok.mp h
    obtain ⟨idx, hidx, h⟩ := CowM.bind_lift_ok.mp h
    refine CowM.bind_lift_ok.mpr ⟨node, hnode, CowM.bind_lift_ok.mpr ⟨interior, hinterior,
      CowM.bind_lift_ok.mpr ⟨idx, hidx, ?_⟩⟩⟩
    cases hentry : interior.entries[idx]? with
    | none =>
      rw [hentry] at h
      exact absurd h Run.throw_ok
    | some e =>
      rw [hentry] at h
      obtain ⟨child, s₁, hchild, h⟩ := Run.bind_ok.mp h
      exact Run.bind_ok.mpr ⟨child, s₁, ih hchild, h⟩

theorem tree_edit_run {fs : BtrfsView} {missing : String} {key : Key} {f : Bytes → Except LuksError Bytes}
    {root root' : Root} {r r' : Recording}
    (h : tree_edit fs generation owner root missing key f r = .ok root' r') :
    TreeStep.run fs ⟨owner, generation, .mutate key f⟩ ⟨r, root.1, root.2⟩ = .ok ⟨r', root'.1, root'.2⟩ := by
  unfold tree_edit tree_mutate tree_mutate_settling at h
  simp only [id] at h
  cases hcow : cow_tree_mutate fs r.pending_blocks root.1 root.2 owner key generation (edit_or missing key f)
      r.allocator with
  | error e m =>
    rw [hcow] at h
    cases h
  | ok res m =>
    rw [hcow] at h
    cases h
    have hcow' : cow_tree_mutate fs r.pending_blocks root.1 root.2 owner key generation (edit_item key f)
        r.allocator = .ok res m := by
      obtain ⟨⟨⟨root_res, emitted⟩, allocated, freed⟩, m', hrun, hrest⟩ := Run.bind_ok.mp hcow
      have hrun' := CowM.run_ok.mpr (cow_descend_mono (fun _ _ => edit_or_ok) _ (CowM.run_ok.mp hrun))
      exact Run.bind_ok.mpr ⟨_, m', hrun', hrest⟩
    simp only [TreeStep.run, TreeStep.cow, hcow']

theorem tree_delete_run {fs : BtrfsView} {key : Key} {root root' : Root} {r r' : Recording}
    (h : tree_delete fs generation owner root key r = .ok root' r') :
    TreeStep.run fs ⟨owner, generation, .delete key⟩ ⟨r, root.1, root.2⟩ = .ok ⟨r', root'.1, root'.2⟩ := by
  unfold tree_delete tree_mutate tree_mutate_settling at h
  simp only [id] at h
  cases hcow : cow_tree_mutate fs r.pending_blocks root.1 root.2 owner key generation
      (fun l => l.delete_item key) r.allocator with
  | error e m =>
    rw [hcow] at h
    cases h
  | ok res m =>
    rw [hcow] at h
    cases h
    simp only [TreeStep.run, TreeStep.cow, hcow]

theorem tree_insert_run {fs : BtrfsView} {key : Key} {data : Bytes} {root root' : Root} {r r' : Recording}
    (h : tree_insert fs generation owner root key data r = .ok root' r') :
    TreeStep.run fs ⟨owner, generation, .insert key data⟩ ⟨r, root.1, root.2⟩ = .ok ⟨r', root'.1, root'.2⟩ := by
  unfold tree_insert at h
  cases hcow : cow_tree_insert fs r.pending_blocks root.1 root.2 owner key data generation r.allocator with
  | error e m =>
    rw [hcow] at h
    cases h
  | ok res m =>
    rw [hcow] at h
    cases h
    simp only [TreeStep.run, TreeStep.cow, hcow]

theorem runSteps_append {fs : BtrfsView} {ts us : List TreeStep} {st st' : TreeState} :
    runSteps fs (ts ++ us) st = .ok st' ↔ ∃ m, runSteps fs ts st = .ok m ∧ runSteps fs us m = .ok st' := by
  induction ts generalizing st with
  | nil =>
    constructor
    · exact fun h => ⟨st, rfl, h⟩
    · rintro ⟨m, hm, h⟩
      cases hm
      exact h
  | cons t ts ih =>
    rw [List.cons_append, runSteps, runSteps, Run.except_bind_ok]
    simp only [Run.except_bind_ok, ih]
    constructor
    · rintro ⟨a, ha, m, hm, h⟩
      exact ⟨m, ⟨a, ha, hm⟩, h⟩
    · rintro ⟨m, ⟨a, ha, hm⟩, h⟩
      exact ⟨a, ha, m, hm, h⟩

theorem delete_items_run {fs : BtrfsView} {keys : List Key} {root root' : Root} {r r' : Recording}
    (h : delete_items fs generation owner keys root r = .ok root' r') :
    runSteps fs (delete_steps generation owner keys) ⟨r, root.1, root.2⟩ = .ok ⟨r', root'.1, root'.2⟩ := by
  induction keys generalizing root r with
  | nil =>
    obtain ⟨rfl, rfl⟩ := Run.pure_ok.mp h
    rfl
  | cons key keys ih =>
    obtain ⟨root₁, r₁, hstep, h⟩ := Run.bind_ok.mp h
    exact Run.except_bind_ok.mpr ⟨_, tree_delete_run hstep, ih h⟩

theorem mutate_items_run {fs : BtrfsView} {missing : String} {ms : List LeafItem} {root root' : Root}
    {r r' : Recording} (h : mutate_items fs generation owner missing ms root r = .ok root' r') :
    runSteps fs (mutate_steps generation owner ms) ⟨r, root.1, root.2⟩ = .ok ⟨r', root'.1, root'.2⟩ := by
  induction ms generalizing root r with
  | nil =>
    obtain ⟨rfl, rfl⟩ := Run.pure_ok.mp h
    rfl
  | cons it ms ih =>
    obtain ⟨root₁, r₁, hstep, h⟩ := Run.bind_ok.mp h
    exact Run.except_bind_ok.mpr ⟨_, tree_edit_run hstep, ih h⟩

theorem insert_items_run {fs : BtrfsView} {is : List LeafItem} {root root' : Root} {r r' : Recording}
    (h : insert_items fs generation owner is root r = .ok root' r') :
    runSteps fs (insert_steps generation owner is) ⟨r, root.1, root.2⟩ = .ok ⟨r', root'.1, root'.2⟩ := by
  induction is generalizing root r with
  | nil =>
    obtain ⟨rfl, rfl⟩ := Run.pure_ok.mp h
    rfl
  | cons it is ih =>
    obtain ⟨root₁, r₁, hstep, h⟩ := Run.bind_ok.mp h
    exact Run.except_bind_ok.mpr ⟨_, tree_insert_run hstep, ih h⟩

end LuksAndroid.Btrfs
