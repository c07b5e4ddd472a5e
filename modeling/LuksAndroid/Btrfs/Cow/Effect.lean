import LuksAndroid.Lib.Run
import LuksAndroid.Btrfs.Alloc.Carve
import LuksAndroid.Btrfs.Cow.Search

/-!
# What a descent touches

A descent takes fresh blocks from the allocator, rewrites blocks that are already
new, and frees the others on its path. `Effect` keeps account of these three, so
that the memory after the descent is known wherever the old tree was not touched.
-/

namespace LuksAndroid.Btrfs

open Word Spans Keyed

/-! ## Fresh addresses -/

namespace FreeSpaceMap

/-- The addresses that the map may still hand out. -/
def freeCells (m : FreeSpaceMap) : Set Nat := {x | ∃ bg ∈ m.block_groups, x ∈ covers bg.free_ranges}

/-- The map can hand out blocks of `node_size` bytes. The last two blocks below `2 ^ 64` belong to
no group. -/
structure Serves (m : FreeSpaceMap) (node_size : Nat) : Prop where
  block_size : AllocState.BlockSize node_size
  groups : GroupsApart m.items
  ordered : ∀ bg ∈ m.block_groups, Ordered bg.free_ranges
  within : ∀ bg ∈ m.block_groups, Within bg.block_group.start bg.block_group.stop bg.free_ranges
  room : ∀ bg ∈ m.block_groups, bg.block_group.stop + 2 * node_size ≤ size

theorem Serves.freeOrdered {m : FreeSpaceMap} {n : Nat} (h : m.Serves n) : m.FreeOrdered where
  ordered := h.ordered
  stop := fun bg hbg r hr =>
    lt_of_le_of_lt (h.within bg hbg r hr).2 (h.groups.fits _ (List.mem_map_of_mem hbg))

end FreeSpaceMap

theorem Carved.freeCells_eq {m m' : FreeSpaceMap} {b n : Nat} (hapart : GroupsApart m.items)
    (hin : ∀ bg ∈ m.block_groups, Within bg.block_group.start bg.block_group.stop bg.free_ranges)
    (h : Carved m m' b n) : m'.freeCells = m.freeCells \ Set.Ico b (b + n) := by
  obtain ⟨pre, bg, post, free, hm, rfl, ht⟩ := h
  have hbg : bg ∈ m.block_groups := by simp [hm]
  -- Another group cannot hold any of the window.
  have hother : ∀ o ∈ pre ++ post, ∀ x ∈ covers o.free_ranges, x ∉ Set.Ico b (b + n) := by
    intro o ho x hx hw
    have ho' : o ∈ m.block_groups := by
      rw [hm]; simp only [List.mem_append, List.mem_cons] at ho ⊢; tauto
    have hd := hapart.disjoint
    simp only [FreeSpaceMap.items, hm, List.map_append, List.map_cons] at hd
    obtain ⟨-, hpost, hcross⟩ := List.pairwise_append.mp hd
    have hxo := (hin o ho').covers_subset hx
    have hxb := (hin bg hbg).covers_subset (ht.window hw)
    rcases List.mem_append.mp ho with ho | ho
    · exact Set.disjoint_left.mp (hcross _ (List.mem_map_of_mem ho) _ (by simp)) hxo hxb
    · exact Set.disjoint_left.mp ((List.pairwise_cons.mp hpost).1 _ (List.mem_map_of_mem ho)) hxb hxo
  ext x
  simp only [FreeSpaceMap.freeCells, hm, Set.mem_sdiff, Set.mem_ofPred_eq, List.mem_append,
    List.mem_cons]
  constructor
  · rintro ⟨o, ho, hx⟩
    by_cases heq : o = count_allocated bg free n
    · have hx' : x ∈ covers free := by rw [heq] at hx; exact hx
      rw [ht.covers_eq] at hx'
      exact ⟨⟨bg, Or.inr (Or.inl rfl), hx'.1⟩, hx'.2⟩
    · have ho' : o ∈ pre ++ post := by rw [List.mem_append]; tauto
      exact ⟨⟨o, by tauto, hx⟩, hother o ho' x hx⟩
  · rintro ⟨⟨o, ho, hx⟩, hw⟩
    by_cases heq : o = bg
    · refine ⟨count_allocated bg free n, Or.inr (Or.inl rfl), ?_⟩
      change x ∈ covers free
      rw [ht.covers_eq]
      exact ⟨heq ▸ hx, hw⟩
    · exact ⟨o, by tauto, hx⟩

theorem Carved.serves {m m' : FreeSpaceMap} {b n k : Nat} (h : m.Serves n) (hc : Carved m m' b k) :
    m'.Serves n := by
  obtain ⟨pre, bg, post, free, hm, rfl, ht⟩ := hc
  have hbg : bg ∈ m.block_groups := by simp [hm]
  have hmem : ∀ o ∈ pre ++ count_allocated bg free k :: post,
      o = count_allocated bg free k ∨ o ∈ m.block_groups := by
    intro o ho
    rw [hm]
    simp only [List.mem_append, List.mem_cons] at ho ⊢
    tauto
  have hsub : covers free ⊆ Set.Ico bg.block_group.start bg.block_group.stop := by
    rw [ht.covers_eq]
    exact Set.sdiff_subset.trans (h.within bg hbg).covers_subset
  refine ⟨h.block_size, h.groups.congr ?_, ?_, ?_, ?_⟩
  · simp [FreeSpaceMap.items, hm, count_allocated]
  · intro o ho
    rcases hmem o ho with rfl | ho
    · exact ht.ordered
    · exact h.ordered o ho
  · intro o ho
    rcases hmem o ho with rfl | ho
    · exact ht.ordered.within_of_covers hsub
    · exact h.within o ho
  · intro o ho
    rcases hmem o ho with rfl | ho
    · exact h.room bg hbg
    · exact h.room o ho

theorem allocate_metadata_fresh {m m' : FreeSpaceMap} {n owner b : Nat} (h : m.Serves n)
    (hrun : allocate_metadata_for_owner n owner m = .ok b m') :
    m'.Serves n ∧ b ∈ m.freeCells ∧ b ∉ m'.freeCells ∧ m'.freeCells ⊆ m.freeCells := by
  obtain ⟨k, hk, rfl⟩ := h.block_size
  have hpos : 0 < 2 ^ k := Nat.two_pow_pos k
  have hfit : ∀ bg ∈ m.block_groups, ∀ r ∈ bg.free_ranges, r.start + 2 ^ k - 1 + 2 ^ k < size := by
    intro bg hbg r hr
    have h1 := (h.within bg hbg r hr).2
    have h2 := h.room bg hbg
    have h3 : r.stop = r.start + r.length := rfl
    omega
  unfold allocate_metadata_for_owner at hrun
  rcases allocate_with_spec h.freeOrdered (metadata_match owner) (by omega) hfit with
    ⟨b', m'', hrun', hc, -⟩ | hrun'
  · rw [hrun'] at hrun
    cases hrun
    have hcells := hc.freeCells_eq h.groups h.within
    have hb : b ∈ Set.Ico b (b + 2 ^ k) := by simp
    refine ⟨hc.serves h, ?_, ?_, ?_⟩
    · obtain ⟨pre, bg, post, free, hm, -, ht⟩ := hc
      exact ⟨bg, by simp [hm], ht.window hb⟩
    · rw [hcells]
      exact fun hx => hx.2 hb
    · rw [hcells]
      exact Set.sdiff_subset
  · rw [hrun'] at hrun
    cases hrun

/-! ## The steps of a descent -/

theorem CowM.lift_ok {α : Type} {x : Except LuksError α} {s s' : CowState} {a : α} :
    CowM.lift x s = .ok a s' ↔ x = .ok a ∧ s' = s := by
  cases x with
  | ok b =>
    simp only [CowM.lift, Run.pure_ok, Except.ok.injEq]
    exact and_congr_right fun _ => eq_comm
  | error e =>
    simp only [CowM.lift, reduceCtorEq, false_and, iff_false]
    exact Run.throw_ok

theorem CowM.bind_lift_ok {α β : Type} {x : Except LuksError α} {f : α → CowM β} {s s' : CowState}
    {b : β} : (CowM.lift x >>= f) s = .ok b s' ↔ ∃ a, x = .ok a ∧ f a s = .ok b s' := by
  rw [Run.bind_ok]
  constructor
  · rintro ⟨a, t, hx, hf⟩
    obtain ⟨hxa, rfl⟩ := CowM.lift_ok.mp hx
    exact ⟨a, hxa, hf⟩
  · rintro ⟨a, hx, hf⟩
    exact ⟨a, s, CowM.lift_ok.mpr ⟨hx, rfl⟩, hf⟩

/-- The free space that is left, and the blocks freed so far. -/
structure Moved (n : Nat) (s s' : CowState) (gone : List Nat) : Prop where
  serves : s'.allocator.Serves n
  shrink : s'.allocator.freeCells ⊆ s.allocator.freeCells
  freed : s'.freed.map Prod.fst = s.freed.map Prod.fst ++ gone

theorem Moved.refl {n : Nat} {s : CowState} (h : s.allocator.Serves n) : Moved n s s [] :=
  ⟨h, fun _ => id, by simp⟩

theorem Moved.trans {n : Nat} {s t u : CowState} {g g' : List Nat} (h : Moved n s t g)
    (h' : Moved n t u g') : Moved n s u (g ++ g') :=
  ⟨h'.serves, h'.shrink.trans h.shrink, by rw [h'.freed, h.freed, List.append_assoc]⟩

theorem alloc_block_spec {fs : BtrfsView} {owner level b : Nat} {s s' : CowState}
    (h : s.allocator.Serves fs.node_size) (hrun : alloc_block fs owner level s = .ok b s') :
    Moved fs.node_size s s' [] ∧ b ∈ s.allocator.freeCells ∧ b ∉ s'.allocator.freeCells := by
  unfold alloc_block at hrun
  cases hal : allocate_metadata_for_owner fs.node_size owner s.allocator with
  | error e m => rw [hal] at hrun; cases hrun
  | ok b' m =>
    rw [hal] at hrun
    cases hrun
    obtain ⟨h1, h2, h3, h4⟩ := allocate_metadata_fresh h hal
    exact ⟨⟨h1, h4, by simp⟩, h2, h3⟩

theorem free_block_spec {n b level : Nat} {u : Unit} {s s' : CowState}
    (h : s.allocator.Serves n) (hrun : free_block b level s = .ok u s') :
    Moved n s s' [b] ∧ s'.allocator = s.allocator := by
  rw [free_block, Run.modify_ok] at hrun
  subst hrun
  exact ⟨⟨h, fun _ => id, by simp⟩, rfl⟩

/-- The copy goes to the block itself, or to a fresh one while the block is freed. -/
theorem target_block_spec {fs : BtrfsView} {owner bytenr level t : Nat} {new : Bool}
    {s s' : CowState} (h : s.allocator.Serves fs.node_size)
    (hrun : target_block fs owner bytenr level new s = .ok t s') :
    (new = true ∧ t = bytenr ∧ s' = s) ∨
    (new = false ∧ Moved fs.node_size s s' [bytenr] ∧ t ∈ s.allocator.freeCells ∧
      t ∉ s'.allocator.freeCells) := by
  unfold target_block at hrun
  cases new with
  | true =>
    simp only [if_true, Run.pure_ok] at hrun
    exact Or.inl ⟨rfl, hrun.1.symm, hrun.2.symm⟩
  | false =>
    simp only [Bool.false_eq_true, if_false] at hrun
    obtain ⟨b, s₁, halloc, hrun⟩ := Run.bind_ok.mp hrun
    obtain ⟨u, s₂, hfree, hrun⟩ := Run.bind_ok.mp hrun
    obtain ⟨rfl, rfl⟩ := Run.pure_ok.mp hrun
    obtain ⟨hmoved, hb, hb'⟩ := alloc_block_spec h halloc
    obtain ⟨hmoved', hsame⟩ := free_block_spec hmoved.serves hfree
    refine Or.inr ⟨rfl, by simpa using hmoved.trans hmoved', hb, ?_⟩
    rw [hsame]
    exact hb'

/-! ## The whole effect -/

/-- What a descent over the blocks `blocks` did between `s` and `s'`. -/
structure Effect (fs : BtrfsView) (pending : Pending) (generation : Nat) (blocks : List Nat)
    (s s' : CowState) (gone : List Nat) (emitted : List (Nat × Node)) : Prop where
  moved : Moved fs.node_size s s' gone
  gone_in : ∀ x ∈ gone, x ∈ blocks
  nodup : (emitted.map Prod.fst).Nodup
  source : ∀ x ∈ emitted.map Prod.fst,
    (x ∈ blocks ∧ (pending.get x).isSome) ∨ x ∈ s.allocator.freeCells
  taken : ∀ x ∈ emitted.map Prod.fst, x ∉ s'.allocator.freeCells
  stamped : ∀ e ∈ emitted, e.2.bytenr = e.1 ∧ e.2.metadata_uuid = fs.metadata_uuid ∧
    e.2.generation = generation

/-- The memory `M` holds what was emitted, and the old tree where it was not touched. -/
structure Holds (mem M : Memory) (blocks gone : List Nat) (emitted : List (Nat × Node)) : Prop where
  new : ∀ e ∈ emitted, M e.1 = some e.2
  old : ∀ x ∈ blocks, x ∉ gone → x ∉ emitted.map Prod.fst → M x = mem x

namespace Effect

variable {fs : BtrfsView} {pending : Pending} {generation : Nat} {blocks : List Nat}
  {s s' s'' : CowState} {gone : List Nat} {emitted : List (Nat × Node)}

theorem refl (h : s.allocator.Serves fs.node_size) :
    Effect fs pending generation blocks s s [] [] :=
  ⟨.refl h, by simp, by simp, by simp, by simp, by simp⟩

theorem widen {blocks' : List Nat} (h : Effect fs pending generation blocks s s' gone emitted)
    (hsub : ∀ x ∈ blocks, x ∈ blocks') : Effect fs pending generation blocks' s s' gone emitted :=
  ⟨h.moved, fun x hx => hsub x (h.gone_in x hx), h.nodup,
    fun x hx => (h.source x hx).imp (fun h => ⟨hsub x h.1, h.2⟩) id, h.taken, h.stamped⟩

theorem snoc_fresh (h : Effect fs pending generation blocks s s' gone emitted) {t : Nat} {n : Node}
    {g : List Nat} (hm : Moved fs.node_size s' s'' g) (hg : ∀ x ∈ g, x ∈ blocks)
    (ht : t ∈ s'.allocator.freeCells) (ht' : t ∉ s''.allocator.freeCells)
    (hn : n.bytenr = t ∧ n.metadata_uuid = fs.metadata_uuid ∧ n.generation = generation) :
    Effect fs pending generation blocks s s'' (gone ++ g) (emitted ++ [(t, n)]) := by
  refine ⟨h.moved.trans hm, ?_, ?_, ?_, ?_, ?_⟩
  · intro x hx
    rcases List.mem_append.mp hx with hx | hx
    · exact h.gone_in x hx
    · exact hg x hx
  · rw [List.map_append, List.nodup_append']
    refine ⟨h.nodup, by simp, ?_⟩
    intro x hx hx'
    simp only [List.map_cons, List.map_nil, List.mem_singleton] at hx'
    subst hx'
    exact h.taken x hx ht
  · intro x hx
    simp only [List.map_append, List.map_cons, List.map_nil, List.mem_append,
      List.mem_singleton] at hx
    rcases hx with hx | rfl
    · exact h.source x hx
    · exact Or.inr (h.moved.shrink ht)
  · intro x hx
    simp only [List.map_append, List.map_cons, List.map_nil, List.mem_append,
      List.mem_singleton] at hx
    rcases hx with hx | rfl
    · exact fun hf => h.taken x hx (hm.shrink hf)
    · exact ht'
  · intro e he
    rcases List.mem_append.mp he with he | he
    · exact h.stamped e he
    · rw [List.mem_singleton] at he
      subst he
      exact hn

theorem snoc_reused (h : Effect fs pending generation blocks s s' gone emitted) {b : Nat} {n : Node}
    (hb : b ∈ blocks) (hnew : (pending.get b).isSome) (hfree : b ∉ s.allocator.freeCells)
    (hout : b ∉ emitted.map Prod.fst)
    (hn : n.bytenr = b ∧ n.metadata_uuid = fs.metadata_uuid ∧ n.generation = generation) :
    Effect fs pending generation blocks s s' gone (emitted ++ [(b, n)]) := by
  refine ⟨h.moved, h.gone_in, ?_, ?_, ?_, ?_⟩
  · rw [List.map_append, List.nodup_append']
    refine ⟨h.nodup, by simp, ?_⟩
    intro x hx hx'
    simp only [List.map_cons, List.map_nil, List.mem_singleton] at hx'
    subst hx'
    exact hout hx
  · intro x hx
    simp only [List.map_append, List.map_cons, List.map_nil, List.mem_append,
      List.mem_singleton] at hx
    rcases hx with hx | rfl
    · exact h.source x hx
    · exact Or.inl ⟨hb, hnew⟩
  · intro x hx
    simp only [List.map_append, List.map_cons, List.map_nil, List.mem_append,
      List.mem_singleton] at hx
    rcases hx with hx | rfl
    · exact h.taken x hx
    · exact fun hf => hfree (h.moved.shrink hf)
  · intro e he
    rcases List.mem_append.mp he with he | he
    · exact h.stamped e he
    · rw [List.mem_singleton] at he
      subst he
      exact hn

theorem snoc_target (h : Effect fs pending generation blocks s s' gone emitted)
    {owner b level t : Nat} {new : Bool} {n : Node} (hb : b ∈ blocks)
    (hnew : new = true → (pending.get b).isSome) (hfree : b ∉ s.allocator.freeCells)
    (hout : b ∉ emitted.map Prod.fst) (hrun : target_block fs owner b level new s' = .ok t s'')
    (hn : n.bytenr = t ∧ n.metadata_uuid = fs.metadata_uuid ∧ n.generation = generation) :
    ∃ g, Effect fs pending generation blocks s s'' (gone ++ g) (emitted ++ [(t, n)]) ∧
      ((g = [] ∧ t = b) ∨ (g = [b] ∧ t ∈ s'.allocator.freeCells)) := by
  rcases target_block_spec h.moved.serves hrun with ⟨hnew', rfl, rfl⟩ | ⟨-, hm, ht, ht'⟩
  · refine ⟨[], ?_, Or.inl ⟨rfl, rfl⟩⟩
    rw [List.append_nil]
    exact h.snoc_reused hb (hnew hnew') hfree hout hn
  · exact ⟨[b], h.snoc_fresh hm (by simpa using hb) ht ht' hn, Or.inr ⟨rfl, ht⟩⟩

theorem snoc_free (h : Effect fs pending generation blocks s s' gone emitted) {b level : Nat} {u : Unit}
    (hb : b ∈ blocks) (hrun : free_block b level s' = .ok u s'') :
    Effect fs pending generation blocks s s'' (gone ++ [b]) emitted := by
  obtain ⟨hm, -⟩ := free_block_spec h.moved.serves hrun
  refine ⟨h.moved.trans hm, ?_, h.nodup, h.source, fun x hx hf => h.taken x hx (hm.shrink hf),
    h.stamped⟩
  intro x hx
  rcases List.mem_append.mp hx with hx | hx
  · exact h.gone_in x hx
  · rw [List.mem_singleton.mp hx]
    exact hb

theorem perm {emitted' : List (Nat × Node)}
    (h : Effect fs pending generation blocks s s' gone emitted) (hp : emitted.Perm emitted') :
    Effect fs pending generation blocks s s' gone emitted' := by
  have hmap := hp.map Prod.fst
  exact ⟨h.moved, h.gone_in, hmap.nodup_iff.mp h.nodup, fun x hx => h.source x (hmap.mem_iff.mpr hx),
    fun x hx => h.taken x (hmap.mem_iff.mpr hx), fun e he => h.stamped e (hp.mem_iff.mpr he)⟩

theorem not_mem_emitted (h : Effect fs pending generation blocks s s' gone emitted) {x : Nat}
    (hx : x ∉ blocks) (hfree : x ∉ s.allocator.freeCells) : x ∉ emitted.map Prod.fst :=
  fun he => (h.source x he).elim (fun h => hx h.1) hfree

end Effect

/-! ## The memory afterwards -/

/-- The old memory with the emitted blocks over it. -/
def overlay (mem : Memory) (emitted : List (Nat × Node)) : Memory := fun x =>
  match emitted.find? (fun e => e.1 = x) with
  | some e => some e.2
  | none => mem x

theorem holds_overlay {mem : Memory} {blocks gone : List Nat} {emitted : List (Nat × Node)}
    (hnodup : (emitted.map Prod.fst).Nodup) : Holds mem (overlay mem emitted) blocks gone emitted where
  new := by
    intro e he
    have hfind : emitted.find? (fun a => a.1 = e.1) = some e := by
      induction emitted with
      | nil => simp at he
      | cons c l ih =>
        rw [List.map_cons, List.nodup_cons] at hnodup
        rcases List.mem_cons.mp he with rfl | he
        · simp
        · have hne : c.1 ≠ e.1 := fun heq => hnodup.1 (heq ▸ List.mem_map_of_mem he)
          rw [List.find?_cons_of_neg (by simpa using hne)]
          exact ih hnodup.2 he
    simp only [overlay, hfind]
  old := by
    intro x _ _ hx
    have hfind : emitted.find? (fun a => a.1 = x) = none := by
      rw [List.find?_eq_none]
      intro e he heq
      exact hx (by simp only [decide_eq_true_eq] at heq; exact heq ▸ List.mem_map_of_mem he)
    simp only [overlay, hfind]

/-- An interior node, its child on the way to a key, and the children around that one. -/
structure OnPath (fs : BtrfsView) (pending : Pending) (level b : Nat) (n : InteriorNode) (key : Key)
    (es : List InteriorEntry) (e : InteriorEntry) (es' : List InteriorEntry) (ps : List Part) (q : Part)
    (ps' : List Part) (s : CowState) : Prop where
  node : view fs pending b = some (.interior n)
  level_eq : n.level = level + 1
  fits : HEADER_SIZE + n.entries.length * KEY_PTR_SIZE ≤ fs.node_size
  entries : n.entries = es ++ e :: es'
  left : Children (view fs pending) fs.node_size level es ps
  child : Tree (view fs pending) fs.node_size level e.blockptr q
  child_key : lowestKey q.1 = some e.key
  right : Children (view fs pending) fs.node_size level es' ps'
  sorted : Sorted LeafItem.key (itemsOf (ps ++ q :: ps'))
  below : ∀ a ∈ itemsOf ps, a.key < key
  above : ∀ a ∈ itemsOf ps', key < a.key
  nodup : (b :: blocksOf (ps ++ q :: ps')).Nodup
  free : ∀ x ∈ b :: blocksOf (ps ++ q :: ps'), x ∉ s.allocator.freeCells

/-- Every interior node of a well-formed tree has such a child, and `child_for` finds it. -/
theorem Tree.onPath {fs : BtrfsView} {pending : Pending} {level b : Nat} {p : Part} {s : CowState}
    (h : Tree (view fs pending) fs.node_size (level + 1) b p) (hs : Sorted LeafItem.key p.1)
    (hfree : ∀ x ∈ p.2, x ∉ s.allocator.freeCells) (key : Key) :
    ∃ n es e es' ps q ps', OnPath fs pending level b n key es e es' ps q ps' s ∧
      (Node.interior n).child_for key = .ok es.length ∧
      p = (itemsOf (ps ++ q :: ps'), b :: blocksOf (ps ++ q :: ps')) := by
  have hnodup := h.nodup hs
  obtain ⟨n, parts, hn, hlevel, hfit, hne, hch, rfl⟩ := h
  obtain ⟨i, es, e, es', ps, q, ps', hrun, rfl, hentries, rfl, hl, ht, hk, hr, hlt, hgt⟩ :=
    route key hch hne hs
  exact ⟨n, es, e, es', ps, q, ps',
    ⟨hn, hlevel, hfit, hentries, hl, ht, hk, hr, hs, hlt, hgt, hnodup, hfree⟩, hrun, rfl⟩

theorem Holds.split {M : Memory} {fs : BtrfsView} {pending : Pending} {generation level b : Nat}
    {n : InteriorNode} {key : Key} {es es' : List InteriorEntry} {e : InteriorEntry}
    {ps ps' : List Part} {q : Part} {s s' : CowState} {gone g : List Nat}
    {emitted em : List (Nat × Node)} (hpath : OnPath fs pending level b n key es e es' ps q ps' s)
    (he : Effect fs pending generation q.2 s s' gone emitted)
    (hg : ∀ x ∈ g, x = b) (hem : ∀ x ∈ em.map Prod.fst, x = b ∨ x ∈ s.allocator.freeCells)
    (h : Holds (view fs pending) M (b :: blocksOf (ps ++ q :: ps')) (gone ++ g) (emitted ++ em)) :
    Holds (view fs pending) M q.2 gone emitted ∧ Children M fs.node_size level es ps ∧
      Children M fs.node_size level es' ps' := by
  have hnodup := hpath.nodup
  have hfree := hpath.free
  simp only [blocksOf_append, blocksOf_cons] at hnodup hfree h
  obtain ⟨hb, hnodup⟩ := List.nodup_cons.mp hnodup
  rw [List.nodup_append', List.nodup_append'] at hnodup
  obtain ⟨-, ⟨-, -, hqr⟩, hlq⟩ := hnodup
  -- Below the node, only the child's own part of the lists matters.
  have hkeep : ∀ x ∈ blocksOf ps ++ (q.2 ++ blocksOf ps'), x ∉ gone → x ∉ emitted.map Prod.fst →
      M x = view fs pending x := by
    intro x hx hxg hxe
    have hne : x ≠ b := fun heq => hb (heq ▸ hx)
    refine h.old x (List.mem_cons_of_mem _ hx) ?_ ?_
    · rw [List.mem_append, not_or]
      exact ⟨hxg, fun hx' => hne (hg x hx')⟩
    · rw [List.map_append, List.mem_append, not_or]
      refine ⟨hxe, fun hx' => ?_⟩
      rcases hem x hx' with heq | hf
      · exact hne heq
      · exact hfree x (List.mem_cons_of_mem _ hx) hf
  have hother : ∀ x ∈ blocksOf ps ++ (q.2 ++ blocksOf ps'), x ∉ q.2 → M x = view fs pending x := by
    intro x hx hxq
    exact hkeep x hx (fun hxg => hxq (he.gone_in x hxg))
      (he.not_mem_emitted hxq (hfree x (List.mem_cons_of_mem _ hx)))
  refine ⟨⟨fun e hemit => h.new e (by simp [hemit]), fun x hx => hkeep x (by simp [hx])⟩, ?_, ?_⟩
  · exact hpath.left.frame fun x hx => hother x (by simp [hx]) fun hxq => hlq hx (by simp [hxq])
  · exact hpath.right.frame fun x hx => hother x (by simp [hx]) fun hxq => hqr hxq hx

end LuksAndroid.Btrfs
