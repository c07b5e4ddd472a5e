import LuksAndroid.Btrfs.Cow.Replace

/-!
# Insertion

What `cow_descend_insert` hands to its parent is a list of entries whose subtrees
hold the old items and the new one. The leaf case has three shapes of split, the
interior case keeps the node, grows it or splits it.
-/

namespace LuksAndroid.Btrfs

open Keyed

/-- The entries that the parent gets in place of the old one. -/
def InsertResult.entries (res : InsertResult) (generation : Nat) : List InteriorEntry :=
  ⟨res.first_key, res.bytenr, generation⟩ ::
    res.extra_siblings.map fun (k, b) => ⟨k, b, generation⟩

/-- The entries lead to the old items and the new one. -/
structure Inserted (fs : BtrfsView) (pending : Pending) (generation level : Nat) (p : Part)
    (item : LeafItem) (s s' : CowState) (gone : List Nat) (res : InsertResult) : Prop where
  absent : ∀ a ∈ p.1, a.key ≠ item.key
  replaced : Replaced fs pending generation level p (insert LeafItem.key item p.1) s s' gone
    (res.entries generation) res.emitted

/-! ## Leaves -/

theorem plan_leaf_split_spec (items : List LeafItem) (pos : Nat) (new_item : LeafItem)
    (node_size : Nat) :
    (plan_leaf_split items pos new_item node_size).2.flatten =
        items.take pos ++ new_item :: items.drop pos ∧
      ∀ g ∈ (plan_leaf_split items pos new_item node_size).2, g ≠ [] := by
  have hflat : ∀ l : List (List LeafItem), (l.filter (! ·.isEmpty)).flatten = l.flatten := by
    intro l
    induction l with
    | nil => rfl
    | cons g l ih =>
      cases g with
      | nil => simpa using ih
      | cons a g => simp [ih]
  have hne : ∀ (l : List (List LeafItem)), ∀ g ∈ l.filter (! ·.isEmpty), g ≠ [] := by
    intro l g hg
    simpa using (List.mem_filter.mp hg).2
  unfold plan_leaf_split
  simp only
  split
  · exact ⟨by rw [hflat]; simp, hne _⟩
  · split
    · exact ⟨by rw [hflat]; simp, hne _⟩
    · exact ⟨by rw [hflat]; simp, hne _⟩

theorem emit_siblings_spec {fs : BtrfsView} {pending : Pending} {owner generation : Nat} {key : Key}
    {leaf : Leaf} (huuid : leaf.metadata_uuid = fs.metadata_uuid) {blocks gone : List Nat}
    {s₀ : CowState} (groups : List (List LeafItem)) (hne : ∀ g ∈ groups, g ≠ [])
    {s s' : CowState} {emitted : List (Nat × Node)}
    (he : Effect fs pending generation blocks s₀ s gone emitted)
    {extra : List (Key × Nat)} {em : List (Nat × Node)}
    (hrun : emit_siblings fs owner generation key leaf groups s = .ok (extra, em) s') :
    Effect fs pending generation blocks s₀ s' gone (emitted ++ em) ∧
      ∀ M : Memory, (∀ e ∈ em, M e.1 = some e.2) →
        ∃ parts, Children M fs.node_size 0 (extra.map fun (k, b) => ⟨k, b, generation⟩) parts ∧
          itemsOf parts = groups.flatten ∧ ∀ x ∈ blocksOf parts, x ∈ em.map Prod.fst := by
  induction groups generalizing s emitted extra em with
  | nil =>
    simp only [emit_siblings, Run.pure_ok, Prod.mk.injEq] at hrun
    obtain ⟨⟨rfl, rfl⟩, rfl⟩ := hrun
    exact ⟨by simpa using he, fun M _ => ⟨[], .nil, rfl, by simp⟩⟩
  | cons group rest ih =>
    rw [emit_siblings] at hrun
    obtain ⟨b, s₁, halloc, hrun⟩ := Run.bind_ok.mp hrun
    obtain ⟨raw, hemit, hrun⟩ := CowM.bind_lift_ok.mp hrun
    obtain ⟨⟨extra', em'⟩, s₂, hrest, hrun⟩ := Run.bind_ok.mp hrun
    simp only [Run.pure_ok, Prod.mk.injEq] at hrun
    obtain ⟨⟨rfl, rfl⟩, rfl⟩ := hrun
    obtain ⟨rfl, hfit⟩ := Leaf.emit_ok hemit
    obtain ⟨hm, hb, hb'⟩ := alloc_block_spec he.moved.serves halloc
    have he' := he.snoc_fresh hm (by simp) hb hb'
      (n := .leaf { leaf with bytenr := b, generation, owner, items := group }) ⟨rfl, huuid, rfl⟩
    rw [List.append_nil] at he'
    obtain ⟨he'', htree⟩ := ih (fun g hg => hne g (by simp [hg])) he' hrest
    refine ⟨by simpa using he'', ?_⟩
    intro M hM
    obtain ⟨parts, hch, hitems, hblocks⟩ := htree M fun e he => hM e (by simp [he])
    have hleaf := hM _ List.mem_cons_self
    refine ⟨(group, [b]) :: parts, ?_, by simp [hitems], ?_⟩
    · exact .cons (tree_of_leaf hleaf hfit) (lowestKey_first_key_or (hne group (by simp)) key) hch
    · intro x hx
      simp only [blocksOf_cons, List.mem_append, List.mem_singleton] at hx
      rcases hx with rfl | hx
      · simp
      · simpa using Or.inr (by simpa using hblocks x hx)

theorem insert_in_leaf_spec {fs : BtrfsView} {pending : Pending} {owner generation : Nat} {key : Key}
    {data : Bytes} {l : Leaf} {b : Nat} {s s' : CowState} {res : InsertResult}
    (hmem : view fs pending b = some (.leaf l)) (hsorted : Sorted LeafItem.key l.items)
    (hserves : s.allocator.Serves fs.node_size) (hfree : b ∉ s.allocator.freeCells)
    (hrun : insert_in_leaf fs owner generation key data (.leaf l) b
      (is_already_new pending (.leaf l) generation b) s = .ok res s') :
    ∃ gone, Inserted fs pending generation 0 (l.items, [b]) ⟨key, data⟩ s s' gone res := by
  obtain ⟨-, -, huuid⟩ := view_eq_some hmem
  have hstart : Effect fs pending generation [b] s s [] [] := .refl hserves
  simp only [insert_in_leaf] at hrun
  split at hrun
  · -- There is room.
    obtain ⟨l', hins, hrun⟩ := CowM.bind_lift_ok.mp hrun
    obtain ⟨t, s₁, htarget, hrun⟩ := Run.bind_ok.mp hrun
    obtain ⟨raw, hemit, hrun⟩ := CowM.bind_lift_ok.mp hrun
    obtain ⟨rfl, rfl⟩ := Run.pure_ok.mp hrun
    obtain ⟨rfl, hfit⟩ := Leaf.emit_ok hemit
    unfold Leaf.insert_item at hins
    simp only at hins
    split at hins
    · cases hins
    split at hins
    · cases hins
    split at hins
    · cases hins
    rename_i pos hpos
    cases hins
    obtain ⟨-, habsent, -⟩ := binary_search_error hsorted hpos
    have hitems := insert_at_error (a := (⟨key, data⟩ : LeafItem)) hsorted hpos
    simp only [hitems] at hfit ⊢
    obtain ⟨g, he, -⟩ := hstart.snoc_target (n := .leaf { l with
        bytenr := t, generation, owner, items := insert LeafItem.key ⟨key, data⟩ l.items })
      (by simp) is_already_new_some hfree (by simp) htarget ⟨rfl, huuid, rfl⟩
    refine ⟨g, habsent, by simpa using he, ?_⟩
    intro M hM
    have hleaf := hM.new _ (List.mem_singleton.mpr rfl)
    have hne : insert LeafItem.key ⟨key, data⟩ l.items ≠ [] := by simp [Keyed.insert]
    refine ⟨[(insert LeafItem.key ⟨key, data⟩ l.items, [t])],
      .cons (tree_of_leaf hleaf hfit) (lowestKey_first_key_or hne key) .nil, by simp, ?_⟩
    simp
  · -- The leaf is full.
    split at hrun
    · exact absurd hrun Run.throw_ok
    split at hrun
    · exact absurd hrun Run.throw_ok
    rename_i pos hpos
    obtain ⟨-, habsent, -⟩ := binary_search_error hsorted hpos
    have hitems := insert_at_error (a := (⟨key, data⟩ : LeafItem)) hsorted hpos
    obtain ⟨hflat, hne⟩ := plan_leaf_split_spec l.items pos ⟨key, data⟩ fs.node_size
    rw [hitems] at hflat
    split at hrun
    · rename_i hnil
      rw [hnil] at hflat
      simp [Keyed.insert] at hflat
    rename_i group rest hgroups
    rw [hgroups] at hflat hne
    obtain ⟨t, s₁, htarget, hrun⟩ := Run.bind_ok.mp hrun
    obtain ⟨raw, hemit, hrun⟩ := CowM.bind_lift_ok.mp hrun
    obtain ⟨⟨extra, em⟩, s₂, hsib, hrun⟩ := Run.bind_ok.mp hrun
    obtain ⟨rfl, rfl⟩ := Run.pure_ok.mp hrun
    obtain ⟨rfl, hfit⟩ := Leaf.emit_ok hemit
    obtain ⟨g, he, -⟩ := hstart.snoc_target
      (n := .leaf { l with bytenr := t, generation, owner, items := group })
      (by simp) is_already_new_some hfree (by simp) htarget ⟨rfl, huuid, rfl⟩
    obtain ⟨he', htree⟩ := emit_siblings_spec huuid rest (fun g hg => hne g (by simp [hg])) he hsib
    refine ⟨g, habsent, by simpa using he', ?_⟩
    intro M hM
    have hleaf := hM.new _ List.mem_cons_self
    obtain ⟨parts, hch, hparts, hblocks⟩ := htree M fun e he => hM.new e (List.mem_cons_of_mem _ he)
    refine ⟨(group, [t]) :: parts, .cons (tree_of_leaf hleaf hfit)
      (lowestKey_first_key_or (hne group (by simp)) key) hch, ?_, ?_⟩
    · rw [itemsOf_cons, hparts, ← hflat, List.flatten_cons]
    · intro x hx
      simp only [blocksOf_cons, List.mem_append, List.mem_singleton] at hx
      rcases hx with rfl | hx
      · exact Or.inl (by simp)
      · exact Or.inl (List.mem_cons_of_mem _ (hblocks x hx))

/-! ## Interior nodes -/

section

variable {fs : BtrfsView} {pending : Pending} {owner generation level b : Nat} {n : InteriorNode}
  {key : Key} {data : Bytes} {es es' : List InteriorEntry} {e : InteriorEntry} {ps ps' : List Part}
  {q : Part} {s s₁ s' : CowState} {gone : List Nat} {child res : InsertResult}

theorem OnPath.absent (hpath : OnPath fs pending level b n key es e es' ps q ps' s)
    (hq : ∀ a ∈ q.1, a.key ≠ key) : ∀ a ∈ itemsOf (ps ++ q :: ps'), a.key ≠ key := by
  intro a ha
  simp only [itemsOf_append, itemsOf_cons, List.mem_append] at ha
  rcases ha with ha | ha | ha
  · exact (hpath.below a ha).ne
  · exact hq a ha
  · exact (hpath.above a ha).ne'

theorem OnPath.insert_items (hpath : OnPath fs pending level b n key es e es' ps q ps' s) :
    itemsOf ps ++ insert LeafItem.key ⟨key, data⟩ q.1 ++ itemsOf ps' =
      insert LeafItem.key ⟨key, data⟩ (itemsOf (ps ++ q :: ps')) := by
  have hsorted := hpath.sorted
  rw [itemsOf_append, itemsOf_cons] at hsorted ⊢
  rw [← List.append_assoc]
  exact (insert_between (sorted_append.mp (sorted_append.mp hsorted).2.1).1 hpath.below
    fun a ha => (hpath.above a ha).le).symm

/-- Pushing the siblings at the end and sorting puts them right after the child. -/
theorem Inserted.sort_entries (hpath : OnPath fs pending level b n key es e es' ps q ps' s)
    (hchild : Inserted fs pending generation level q ⟨key, data⟩ s s₁ gone child) :
    (set_entry n.entries es.length child.first_key child.bytenr generation ++
        child.extra_siblings.map fun (k, b) => (⟨k, b, generation⟩ : InteriorEntry)).insertionSort
      (fun a b => a.key ≤ b.key) = es ++ child.entries generation ++ es' := by
  have hset : set_entry n.entries es.length child.first_key child.bytenr generation =
      es ++ ⟨child.first_key, child.bytenr, generation⟩ :: es' := by
    rw [set_entry, hpath.entries]
    simp
  have hM : Holds (view fs pending) (overlay (view fs pending) child.emitted)
      (b :: blocksOf (ps ++ q :: ps')) (gone ++ []) (child.emitted ++ []) := by
    rw [List.append_nil, List.append_nil]
    exact holds_overlay hchild.replaced.effect.nodup
  obtain ⟨parts, hch, hitems, -⟩ := hchild.replaced.children hpath (by simp) (by simp) hM
  refine insertionSort_eq ?_ (hch.sorted_keys ?_)
  · rw [hset, InsertResult.entries]
    simp only [List.append_assoc, List.cons_append]
    exact (List.Perm.append_left es (List.Perm.cons _ List.perm_append_comm))
  · rw [hitems, hpath.insert_items]
    exact Sorted.insert hpath.sorted (hpath.absent hchild.absent)

theorem newEntries_ne_nil : es ++ child.entries generation ++ es' ≠ [] := by
  simp [InsertResult.entries]

theorem emit_interior_spec (hpath : OnPath fs pending level b n key es e es' ps q ps' s)
    (hchild : Inserted fs pending generation level q ⟨key, data⟩ s s₁ gone child)
    (hrun : emit_interior fs owner generation key
      { n with entries := es ++ child.entries generation ++ es' } b (level + 1)
      (is_already_new pending (.interior n) generation b) child.emitted s₁ = .ok res s') :
    ∃ gone', Inserted fs pending generation (level + 1)
      (itemsOf (ps ++ q :: ps'), b :: blocksOf (ps ++ q :: ps')) ⟨key, data⟩ s s' gone' res := by
  unfold emit_interior at hrun
  obtain ⟨t, s₂, htarget, hrun⟩ := Run.bind_ok.mp hrun
  obtain ⟨raw, hemit, hrun⟩ := CowM.bind_lift_ok.mp hrun
  obtain ⟨rfl, rfl⟩ := Run.pure_ok.mp hrun
  obtain ⟨rfl, hfit⟩ := InteriorNode.emit_ok hemit
  obtain ⟨gone', hrep⟩ := hchild.replaced.emit_node hpath htarget hfit newEntries_ne_nil key
  rw [hpath.insert_items] at hrep
  exact ⟨gone', hpath.absent hchild.absent, hrep⟩

theorem InteriorNode.split_ok {i left right : InteriorNode} {r : Nat} {pivot : Key}
    (h : i.split r = .ok (left, right, pivot)) :
    ∃ ls m rs, i.entries = ls ++ m :: rs ∧ ls ≠ [] ∧ pivot = m.key ∧
      left = { i with entries := ls } ∧ right = { i with bytenr := r, entries := m :: rs } := by
  unfold InteriorNode.split at h
  split at h
  · cases h
  rename_i hlen
  simp only at h
  split at h
  · cases h
  rename_i m rs hdrop
  cases h
  refine ⟨i.entries.take (i.entries.length / 2), m, rs, ?_, ?_, rfl, rfl, by rw [hdrop]⟩
  · rw [← hdrop, List.take_append_drop]
  · intro hnil
    have := congrArg List.length hnil
    simp only [List.length_take, List.length_nil] at this
    omega

/-- The node is emitted as two blocks. The right one is always fresh. -/
theorem split_interior_spec (hpath : OnPath fs pending level b n key es e es' ps q ps' s)
    (hchild : Inserted fs pending generation level q ⟨key, data⟩ s s₁ gone child)
    (hrun : split_interior fs owner generation key
      { n with entries := es ++ child.entries generation ++ es' } b (level + 1)
      (is_already_new pending (.interior n) generation b) child.emitted s₁ = .ok res s') :
    ∃ gone', Inserted fs pending generation (level + 1)
      (itemsOf (ps ++ q :: ps'), b :: blocksOf (ps ++ q :: ps')) ⟨key, data⟩ s s' gone' res := by
  obtain ⟨-, -, huuid⟩ := view_eq_some hpath.node
  have hbfree := hpath.free b (by simp)
  unfold split_interior at hrun
  obtain ⟨r, s₂, halloc, hrun⟩ := Run.bind_ok.mp hrun
  obtain ⟨⟨left, right, pivot⟩, hsplit, hrun⟩ := CowM.bind_lift_ok.mp hrun
  obtain ⟨t, s₃, htarget, hrun⟩ := Run.bind_ok.mp hrun
  obtain ⟨lraw, hlemit, hrun⟩ := CowM.bind_lift_ok.mp hrun
  obtain ⟨rraw, hremit, hrun⟩ := CowM.bind_lift_ok.mp hrun
  obtain ⟨rfl, rfl⟩ := Run.pure_ok.mp hrun
  obtain ⟨ls, m, rs, hentries, hls, rfl, rfl, rfl⟩ := InteriorNode.split_ok hsplit
  obtain ⟨rfl, hlfit⟩ := InteriorNode.emit_ok hlemit
  obtain ⟨rfl, hrfit⟩ := InteriorNode.emit_ok hremit
  -- First the right half on a fresh block, then the left half in place of the node.
  obtain ⟨hm, hr, hr'⟩ := alloc_block_spec hchild.replaced.effect.moved.serves halloc
  have hrfree := hchild.replaced.effect.moved.shrink hr
  have heright := (hchild.replaced.effect.widen hpath.child_blocks).snoc_fresh hm (by simp) hr hr'
    (n := .interior { n with bytenr := r, generation, owner, entries := m :: rs }) ⟨rfl, huuid, rfl⟩
  rw [List.append_nil] at heright
  have hbout : b ∉ (child.emitted ++ [(r, Node.interior
      { n with bytenr := r, generation, owner, entries := m :: rs })]).map Prod.fst := by
    simp only [List.map_append, List.map_cons, List.map_nil, List.mem_append, List.mem_singleton,
      not_or]
    exact ⟨hpath.not_mem_emitted hchild.replaced.effect, fun heq => hbfree (heq ▸ hrfree)⟩
  obtain ⟨g, he, hg⟩ := heright.snoc_target
    (n := .interior { n with bytenr := t, generation, owner, entries := ls })
    (by simp) is_already_new_some hbfree hbout htarget ⟨rfl, huuid, rfl⟩
  have hgb : ∀ x ∈ g, x = b := by rcases hg with ⟨rfl, -⟩ | ⟨rfl, -⟩ <;> simp
  have ht : t = b ∨ t ∈ s.allocator.freeCells :=
    hg.imp (fun h => h.2) fun h => heright.moved.shrink h.2
  refine ⟨gone ++ g, hpath.absent hchild.absent, he.perm ?_, ?_⟩
  · rw [List.append_assoc]
    exact List.Perm.append_left _ (List.Perm.swap _ _ _)
  intro M hM
  obtain ⟨parts, hch, hitems, hblocks⟩ := hchild.replaced.children hpath hgb
    (by simp only [List.map_cons, List.map_nil, List.mem_cons, List.not_mem_nil, or_false]
        rintro x (rfl | rfl)
        · exact ht
        · exact Or.inr hrfree) hM
  have hlnode := hM.new (t, _) (List.mem_append_right _ List.mem_cons_self)
  have hrnode := hM.new (r, _)
    (List.mem_append_right _ (List.mem_cons_of_mem _ List.mem_cons_self))
  simp only at hentries
  rw [hentries] at hch
  obtain ⟨lps, rps, rfl, hl, hrt⟩ := hch.of_append
  refine ⟨[(itemsOf lps, t :: blocksOf lps), (itemsOf rps, r :: blocksOf rps)],
    .cons (tree_of_interior hlnode hpath.level_eq hlfit hls hl) (hl.lowestKey_or hls key)
      (.cons (tree_of_interior hrnode hpath.level_eq hrfit (by simp) hrt) hrt.lowestKey_eq .nil),
    by simpa [hpath.insert_items] using hitems, ?_⟩
  intro x hx
  simp only [blocksOf_cons, blocksOf_nil, List.append_nil, List.mem_append, List.mem_cons] at hx
  have hnew : x = t ∨ x = r ∨ x ∈ blocksOf (lps ++ rps) := by
    rw [blocksOf_append, List.mem_append]
    rcases hx with (hx | hx) | hx | hx
    · exact Or.inl hx
    · exact Or.inr (Or.inr (Or.inl hx))
    · exact Or.inr (Or.inl hx)
    · exact Or.inr (Or.inr (Or.inr hx))
  rcases hnew with rfl | rfl | hx
  · exact Or.inl (by simp)
  · exact Or.inl (by simp)
  · rcases hblocks x hx with hx | ⟨hx, hxg⟩
    · exact Or.inl (by simpa using Or.inl (by simpa using hx))
    · exact Or.inr ⟨List.mem_cons_of_mem _ hx, hxg⟩

theorem insert_in_interior_spec (hpath : OnPath fs pending level b n key es e es' ps q ps' s)
    (hchild : Inserted fs pending generation level q ⟨key, data⟩ s s₁ gone child)
    (hrun : insert_in_interior fs owner generation key n es.length b (level + 1)
      (is_already_new pending (.interior n) generation b) child s₁ = .ok res s') :
    ∃ gone', Inserted fs pending generation (level + 1)
      (itemsOf (ps ++ q :: ps'), b :: blocksOf (ps ++ q :: ps')) ⟨key, data⟩ s s' gone' res := by
  have hsort := hchild.sort_entries hpath
  unfold insert_in_interior at hrun
  cases hextra : child.extra_siblings with
  | nil =>
    -- The child did not split: its entry is replaced in place.
    have hset : set_entry n.entries es.length child.first_key child.bytenr generation =
        es ++ child.entries generation ++ es' := by
      rw [set_entry, hpath.entries, InsertResult.entries, hextra]
      simp
    simp only [hextra, hset] at hrun
    exact emit_interior_spec hpath hchild hrun
  | cons x xs =>
    rw [hextra] at hsort
    simp only [hextra, hsort] at hrun
    split at hrun
    · exact emit_interior_spec hpath hchild hrun
    · exact split_interior_spec hpath hchild hrun

end

/-! ## The descent -/

theorem cow_descend_insert_spec {fs : BtrfsView} {pending : Pending} {owner generation : Nat}
    {key : Key} {data : Bytes} (level : Nat) {b : Nat} {p : Part} {s s' : CowState}
    {res : InsertResult} (htree : Tree (view fs pending) fs.node_size level b p)
    (hsorted : Sorted LeafItem.key p.1) (hserves : s.allocator.Serves fs.node_size)
    (hfree : ∀ x ∈ p.2, x ∉ s.allocator.freeCells)
    (hrun : cow_descend_insert fs pending owner key data generation level b s = .ok res s') :
    ∃ gone, Inserted fs pending generation level p ⟨key, data⟩ s s' gone res := by
  induction level generalizing b p s' res with
  | zero =>
    obtain ⟨l, hl, -, rfl⟩ := htree
    obtain ⟨hread, -, -⟩ := view_eq_some hl
    rw [cow_descend_insert, hread] at hrun
    obtain ⟨node, hnode, hrun⟩ := CowM.bind_lift_ok.mp hrun
    cases hnode
    exact insert_in_leaf_spec hl hsorted hserves (hfree b (by simp)) hrun
  | succ level ih =>
    obtain ⟨n, es, e, es', ps, q, ps', hpath, hroute, rfl⟩ := htree.onPath hsorted hfree key
    obtain ⟨hread, -, -⟩ := view_eq_some hpath.node
    rw [cow_descend_insert, hread] at hrun
    obtain ⟨node, hnode, hrun⟩ := CowM.bind_lift_ok.mp hrun
    cases hnode
    have hne : ¬ (Node.interior n).nr_items = 0 := by
      simp [Node.nr_items, Node.keys, hpath.entries]
    simp only [hne, if_false] at hrun
    obtain ⟨i, hi, hrun⟩ := CowM.bind_lift_ok.mp hrun
    cases hi
    obtain ⟨idx, hidx, hrun⟩ := CowM.bind_lift_ok.mp hrun
    rw [hroute] at hidx
    cases hidx
    have hget : n.entries[es.length]? = some e := by rw [hpath.entries]; simp
    simp only [hget] at hrun
    obtain ⟨child, s₁, hchild, hrun⟩ := Run.bind_ok.mp hrun
    have hsorted' := hpath.sorted
    rw [itemsOf_append, itemsOf_cons] at hsorted'
    obtain ⟨gone, hins⟩ := ih hpath.child (sorted_append.mp (sorted_append.mp hsorted').2.1).1
      (fun x hx => hfree x (hpath.child_blocks x hx)) hchild
    exact insert_in_interior_spec hpath hins hrun

theorem insert_root_spec {fs : BtrfsView} {pending : Pending} {owner generation : Nat}
    {key : Key} {data : Bytes} {level b root' level' : Nat} {p : Part} {s s' : CowState}
    {emitted : List (Nat × Node)} (htree : Tree (view fs pending) fs.node_size level b p)
    (hsorted : Sorted LeafItem.key p.1) (hserves : s.allocator.Serves fs.node_size)
    (hfree : ∀ x ∈ p.2, x ∉ s.allocator.freeCells) (hlevel : level < 255)
    (hrun : insert_root fs pending b level owner key data generation s =
      .ok (root', level', emitted) s') :
    (∀ a ∈ p.1, a.key ≠ key) ∧ ∃ gone, Rewritten fs pending generation level' root'
      (insert LeafItem.key ⟨key, data⟩ p.1) p s s' gone emitted := by
  unfold insert_root at hrun
  obtain ⟨res, s₁, hdesc, hrun⟩ := Run.bind_ok.mp hrun
  obtain ⟨gone, hins⟩ := cow_descend_insert_spec level htree hsorted hserves hfree hdesc
  obtain ⟨root_node, hroot, hrun⟩ := CowM.bind_lift_ok.mp hrun
  -- Only a root leaf has no items, and it is at level 0 already.
  have hlev : root_node.nr_items = 0 → level = 0 := fun h => by
    cases level with
    | zero => rfl
    | succ level =>
      obtain ⟨n, parts, hn, -, -, hne, -, -⟩ := htree
      rw [(view_eq_some hn).1] at hroot
      cases hroot
      exact absurd h (by simpa [Node.nr_items, Node.keys] using hne)
  refine ⟨hins.absent, ?_⟩
  cases hextra : res.extra_siblings with
  | nil =>
    have hl : (if root_node.nr_items = 0 then 0 else level) = level := by
      split
      · rename_i h
        exact (hlev h).symm
      · rfl
    simp only [hextra, hl, Run.pure_ok, Prod.mk.injEq] at hrun
    obtain ⟨⟨rfl, rfl, rfl⟩, rfl⟩ := hrun
    have hrep := hins.replaced
    rw [InsertResult.entries, hextra, List.map_nil] at hrep
    exact ⟨gone, hrep.rewritten⟩
  | cons x xs =>
    have hl : (if root_node.nr_items = 0 then 1 else (level + 1) % 256) = level + 1 := by
      split
      · rename_i h
        rw [hlev h]
      · exact Nat.mod_eq_of_lt (by omega)
    simp only [hextra, hl] at hrun
    obtain ⟨r, s₂, halloc, hrun⟩ := Run.bind_ok.mp hrun
    obtain ⟨raw, hemit, hrun⟩ := CowM.bind_lift_ok.mp hrun
    simp only [Run.pure_ok, Prod.mk.injEq] at hrun
    obtain ⟨⟨rfl, rfl, rfl⟩, rfl⟩ := hrun
    obtain ⟨rfl, hfit⟩ := InteriorNode.emit_ok hemit
    obtain ⟨hm, hr, hr'⟩ := alloc_block_spec hins.replaced.effect.moved.serves halloc
    have he := hins.replaced.effect.snoc_fresh hm (by simp) hr hr' (n := .interior ⟨r, generation, owner,
      level + 1, root_node.flags, fs.metadata_uuid, root_node.chunk_tree_uuid,
      res.entries generation⟩) ⟨rfl, rfl, rfl⟩
    rw [List.append_nil] at he
    rw [InsertResult.entries, hextra] at he
    refine ⟨gone, he, ?_⟩
    intro M hM
    obtain ⟨parts, hch, hitems, hblocks⟩ := hins.replaced.tree M
      ⟨fun e he => hM.new e (List.mem_append_left _ he), fun y hy hyg hye => hM.old y hy hyg (by
        simp only [List.map_append, List.map_cons, List.map_nil, List.mem_append,
          List.mem_singleton, not_or]
        exact ⟨hye, fun heq => hfree y hy (heq ▸ hins.replaced.effect.moved.shrink hr)⟩)⟩
    rw [InsertResult.entries, hextra] at hch
    have hnode := hM.new _ (List.mem_append_right _ (List.mem_singleton.mpr rfl))
    refine ⟨r :: blocksOf parts, ?_, ?_⟩
    · rw [← hitems]
      exact tree_of_interior hnode rfl hfit (by simp) hch
    · intro y hy
      rcases List.mem_cons.mp hy with rfl | hy
      · exact Or.inl (by simp)
      · exact (hblocks y hy).imp (fun h => by simpa using Or.inl (by simpa using h)) id

end LuksAndroid.Btrfs
