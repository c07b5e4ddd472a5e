import LuksAndroid.Btrfs.Cow.Replace

/-!
# Mutation

`cow_descend` changes one leaf and copies the way back up. A leaf that loses its
last item is gone from its parent, and so is a node that loses its last entry. A
root gives way to its only child, or becomes an empty leaf.
-/

namespace LuksAndroid.Btrfs

open Keyed

/-- The closure changes the item with the key by `f` and nothing else. It accepts the item only when
`ok` holds of it. -/
structure Alters (key : Key) (mutate_fn : Leaf → Except LuksError Leaf) (ok : LeafItem → Prop)
    (f : LeafItem → List LeafItem) : Prop where
  run : ∀ l l', Sorted LeafItem.key l.items → mutate_fn l = .ok l' →
    (∃ a ∈ l.items, a.key = key ∧ ok a) ∧ l' = { l with items := alter LeafItem.key key f l.items }
  length : ∀ a, (f a).length ≤ 1
  keeps : ∀ a, ∀ b ∈ f a, b.key = a.key

theorem Leaf.find_item_some {l : Leaf} {key : Key} {i : Nat} (h : l.find_item key = some i) :
    Keyed.binary_search LeafItem.key key l.items = .ok i := by
  unfold Leaf.find_item Leaf.binary_search at h
  cases hs : Keyed.binary_search LeafItem.key key l.items with
  | error e => rw [hs] at h; cases h
  | ok j => rw [hs] at h; cases h; rfl

theorem delete_item_alters (key : Key) :
    Alters key (fun l => l.delete_item key) (fun _ => True) fun _ => [] := by
  refine ⟨?_, by simp, by simp⟩
  intro l l' hl hrun
  unfold Leaf.delete_item at hrun
  split at hrun
  · cases hrun
  rename_i i hfind
  cases hrun
  obtain ⟨a, hget, hk, halter⟩ := alter_at_ok (f := fun _ => []) hl (Leaf.find_item_some hfind)
  refine ⟨⟨a, List.mem_of_getElem? hget, hk, trivial⟩, ?_⟩
  rw [halter, List.append_nil, List.eraseIdx_eq_take_drop_succ]

/-- What `edit_item` makes of the item it finds. -/
def edited (f : Bytes → Except LuksError Bytes) (a : LeafItem) : List LeafItem :=
  match f a.data with
  | .ok data => [{ a with data }]
  | .error _ => [a]

theorem edit_item_alters (key : Key) (f : Bytes → Except LuksError Bytes) :
    Alters key (edit_item key f) (fun a => ∃ data, f a.data = .ok data) (edited f) := by
  refine ⟨?_, ?_, ?_⟩
  · intro l l' hl hrun
    unfold edit_item at hrun
    split at hrun
    · cases hrun
    rename_i i hfind
    obtain ⟨a, hget, hk, halter⟩ := alter_at_ok (f := edited f) hl (Leaf.find_item_some hfind)
    simp only [hget] at hrun
    cases hf : f a.data with
    | error e => rw [hf] at hrun; cases hrun
    | ok data =>
      rw [hf] at hrun
      cases hrun
      refine ⟨⟨a, List.mem_of_getElem? hget, hk, data, hf⟩, ?_⟩
      have hi := (List.getElem?_eq_some_iff.mp hget).1
      rw [halter, edited, hf, List.set_eq_take_append_cons_drop, if_pos hi]
      simp
  · intro a
    unfold edited
    split <;> simp
  · intro a b hb
    unfold edited at hb
    split at hb
    · rw [List.mem_singleton.mp hb]
    · rw [List.mem_singleton.mp hb]

/-- The closure found its item, accepted it, and did not make it longer. -/
def Found (key : Key) (ok : LeafItem → Prop) (f : LeafItem → List LeafItem) (items : List LeafItem) :
    Prop :=
  ∃ a ∈ items, a.key = key ∧ ok a ∧ leaf_payload_bytes (f a) ≤ leaf_payload_bytes [a]

theorem Found.mono {key : Key} {ok : LeafItem → Prop} {f : LeafItem → List LeafItem}
    {items items' : List LeafItem} (h : Found key ok f items) (hsub : ∀ a ∈ items, a ∈ items') :
    Found key ok f items' := by
  obtain ⟨a, ha, hrest⟩ := h
  exact ⟨a, hsub a ha, hrest⟩

theorem leaf_payload_bytes_append (l m : List LeafItem) :
    leaf_payload_bytes (l ++ m) + HEADER_SIZE = leaf_payload_bytes l + leaf_payload_bytes m := by
  simp only [leaf_payload_bytes, List.length_append, List.map_append, List.sum_append]
  ring

theorem leaf_payload_bytes_alter {key : Key} {f : LeafItem → List LeafItem} {items : List LeafItem}
    {a : LeafItem} (hs : Sorted LeafItem.key items) (ha : a ∈ items) (hk : a.key = key) :
    leaf_payload_bytes (alter LeafItem.key key f items) + leaf_payload_bytes [a] =
      leaf_payload_bytes items + leaf_payload_bytes (f a) := by
  obtain ⟨pre, post, rfl⟩ := List.append_of_mem ha
  obtain ⟨-, hs2, hcross⟩ := sorted_append.mp hs
  have hpre : ∀ b ∈ pre, b.key ≠ key := fun b hb => hk ▸ (hcross b hb a (by simp)).ne
  have hpost : ∀ b ∈ post, b.key ≠ key := fun b hb => hk ▸ ((sorted_cons.mp hs2).1 b hb).ne'
  have halter : alter LeafItem.key key f (pre ++ a :: post) = pre ++ (f a ++ post) := by
    rw [show pre ++ a :: post = pre ++ [a] ++ post by simp, alter_between hpre hpost]
    simp [alter, hk]
  rw [halter]
  have h1 := leaf_payload_bytes_append pre (f a ++ post)
  have h2 := leaf_payload_bytes_append (f a) post
  have h3 := leaf_payload_bytes_append pre (a :: post)
  have h4 := leaf_payload_bytes_append [a] post
  rw [List.singleton_append] at h4
  omega

/-- The entries that the parent gets in place of the old one. -/
def resultEntries (generation : Nat) (res : MutateResult) : List InteriorEntry :=
  match res.1 with
  | some (b, k, _) => [⟨k, b, generation⟩]
  | none => []

theorem resultEntries_generation {generation : Nat} {res : MutateResult} {e : InteriorEntry}
    (h : e ∈ resultEntries generation res) : e.generation = generation := by
  unfold resultEntries at h
  split at h
  · rw [List.mem_singleton.mp h]
  · simp at h

/-! ## Leaves -/

section

variable {fs : BtrfsView} {pending : Pending} {owner generation : Nat} {key : Key}
  {mutate_fn : Leaf → Except LuksError Leaf} {ok : LeafItem → Prop} {f : LeafItem → List LeafItem}
  {is_root : Bool} {l : Leaf}
  {b : Nat} {s s' : CowState} {res : MutateResult}

theorem mutate_leaf_spec (hmem : view fs pending b = some (.leaf l))
    (hsorted : Sorted LeafItem.key l.items) (hserves : s.allocator.Serves fs.node_size)
    (hfree : b ∉ s.allocator.freeCells) (hf : Alters key mutate_fn ok f)
    (hrun : mutate_leaf fs owner key generation mutate_fn is_root (.leaf l) b
      (is_already_new pending (.leaf l) generation b) s = .ok res s') :
    Found key ok f l.items ∧ ∃ gone,
      (is_root = false → Replaced fs pending generation 0 (l.items, [b])
        (alter LeafItem.key key f l.items) s s' gone (resultEntries generation res) res.2) ∧
      (is_root = true → ∃ t k j, res.1 = some (t, k, j) ∧ Rewritten fs pending generation j t
        (alter LeafItem.key key f l.items) (l.items, [b]) s s' gone res.2) := by
  obtain ⟨-, -, huuid⟩ := view_eq_some hmem
  have hstart : Effect fs pending generation [b] s s [] [] := .refl hserves
  unfold mutate_leaf at hrun
  obtain ⟨l₀, hl₀, hrun⟩ := CowM.bind_lift_ok.mp hrun
  cases hl₀
  obtain ⟨l', hmut, hrun⟩ := CowM.bind_lift_ok.mp hrun
  obtain ⟨⟨a, ha, hak, hok⟩, rfl⟩ := hf.run l l' hsorted hmut
  simp only at hrun
  split at hrun
  · exact absurd hrun Run.throw_bind_ok
  rename_i hgrown
  have hsize := leaf_payload_bytes_alter (f := f) hsorted ha hak
  refine ⟨⟨a, ha, hak, hok, by omega⟩, ?_⟩
  split at hrun
  · -- A leaf below the root lost its last item.
    rename_i hempty
    obtain ⟨u, s₁, hfreed, hrun⟩ := Run.bind_ok.mp hrun
    obtain ⟨rfl, rfl⟩ := Run.pure_ok.mp hrun
    have hnil : alter LeafItem.key key f l.items = [] := List.isEmpty_iff.mp hempty.1
    have he := hstart.snoc_free (List.mem_singleton.mpr rfl) hfreed
    refine ⟨[b], fun _ => ⟨he, ?_⟩, fun hroot => absurd hroot hempty.2⟩
    intro M hM
    exact ⟨[], .nil, by simp [hnil], by simp⟩
  · -- The leaf stays.
    rename_i hkeep
    obtain ⟨t, s₁, htarget, hrun⟩ := Run.bind_ok.mp hrun
    obtain ⟨raw, hemit, hrun⟩ := CowM.bind_lift_ok.mp hrun
    obtain ⟨rfl, rfl⟩ := Run.pure_ok.mp hrun
    obtain ⟨rfl, hfit⟩ := Leaf.emit_ok hemit
    obtain ⟨g, he, -⟩ := hstart.snoc_target (n := .leaf { l with
        bytenr := t, generation, owner, items := alter LeafItem.key key f l.items })
      (by simp) is_already_new_some hfree (by simp) htarget ⟨rfl, huuid, rfl⟩
    rw [List.nil_append, List.nil_append] at he
    refine ⟨g, fun hroot => ⟨he, ?_⟩, fun _ => ⟨t, _, 0, rfl, he, ?_⟩⟩
    · intro M hM
      have hleaf := hM.new _ (List.mem_singleton.mpr rfl)
      have hne : alter LeafItem.key key f l.items ≠ [] := by
        intro hnil
        exact hkeep (by simp [hnil, hroot])
      exact ⟨[(alter LeafItem.key key f l.items, [t])],
        .cons (tree_of_leaf hleaf hfit) (lowestKey_first_key_or hne key) .nil, by simp, by simp⟩
    · intro M hM
      have hleaf := hM.new _ (List.mem_singleton.mpr rfl)
      exact ⟨[t], tree_of_leaf hleaf hfit, by simp⟩

end

/-! ## Interior nodes -/

section

variable {fs : BtrfsView} {pending : Pending} {owner generation level b : Nat} {n : InteriorNode}
  {key : Key} {es es' : List InteriorEntry} {e : InteriorEntry} {ps ps' : List Part}
  {q : Part} {s s₁ s' : CowState} {gone : List Nat} {items : List LeafItem} {child res : MutateResult}

theorem Replaced.items_nil {mid : List InteriorEntry} {emitted : List (Nat × Node)}
    (hpath : OnPath fs pending level b n key es e es' ps q ps' s)
    (hchild : Replaced fs pending generation level q items s s₁ gone mid emitted)
    (hnil : es ++ mid ++ es' = []) : itemsOf ps ++ items ++ itemsOf ps' = [] := by
  have hM : Holds (view fs pending) (overlay (view fs pending) emitted)
      (b :: blocksOf (ps ++ q :: ps')) (gone ++ []) (emitted ++ []) := by
    rw [List.append_nil, List.append_nil]
    exact holds_overlay hchild.effect.nodup
  obtain ⟨parts, hch, hitems, -⟩ := hchild.children hpath (by simp) (by simp) hM
  rw [hnil] at hch
  cases hch
  exact hitems.symm

theorem Replaced.eq_nil {mid : List InteriorEntry} {emitted : List (Nat × Node)}
    (hchild : Replaced fs pending generation level q items s s₁ gone mid emitted) (hmid : mid = []) :
    items = [] := by
  obtain ⟨parts, hch, hitems, -⟩ := hchild.tree _ (holds_overlay hchild.effect.nodup)
  rw [hmid] at hch
  cases hch
  exact hitems.symm

theorem empty_root_spec (hpath : OnPath fs pending level b n key es e es' ps q ps' s)
    (hchild : Replaced fs pending generation level q items s s₁ gone (resultEntries generation child)
      child.2) (hrun : empty_root fs owner key generation (.interior n) b (level + 1) child.2 s₁ =
      .ok res s') :
    ∃ gone' t k, res.1 = some (t, k, 0) ∧ Rewritten fs pending generation 0 t []
      (itemsOf (ps ++ q :: ps'), b :: blocksOf (ps ++ q :: ps')) s s' gone' res.2 := by
  obtain ⟨-, -, huuid⟩ := view_eq_some hpath.node
  unfold empty_root at hrun
  obtain ⟨t, s₂, halloc, hrun⟩ := Run.bind_ok.mp hrun
  obtain ⟨u, s₃, hfreed, hrun⟩ := Run.bind_ok.mp hrun
  obtain ⟨raw, hemit, hrun⟩ := CowM.bind_lift_ok.mp hrun
  obtain ⟨rfl, rfl⟩ := Run.pure_ok.mp hrun
  obtain ⟨rfl, hfit⟩ := Leaf.emit_ok hemit
  obtain ⟨hm, ht, ht'⟩ := alloc_block_spec hchild.effect.moved.serves halloc
  have he := (hchild.effect.widen hpath.child_blocks).snoc_fresh hm (by simp) ht ht'
    (n := .leaf ⟨t, generation, owner, HEADER_FLAG_WRITTEN, n.metadata_uuid, n.chunk_tree_uuid, []⟩)
    ⟨rfl, huuid, rfl⟩
  have he' := he.snoc_free (by simp) hfreed
  refine ⟨_, t, key, rfl, he', ?_⟩
  intro M hM
  have hleaf := hM.new (t, _) (List.mem_append_right _ (List.mem_singleton.mpr rfl))
  exact ⟨[t], tree_of_leaf hleaf hfit, by simp⟩

/-- A subtree copied to another address: its root is new, the blocks below are the old ones. -/
theorem restamp_spec {mem : Memory} {c t : Nat} {p : Part} {nd : Node} {k : Key}
    (htree : Tree mem fs.node_size level c p) (hsorted : Sorted LeafItem.key p.1)
    (hnd : mem c = some nd) (hrun : restamp fs owner generation level t k nd child.2 s = .ok res s') :
    s' = s ∧ ∃ k' raw, res = (some (t, k', level), child.2 ++ [(t, raw)]) ∧
      (raw.bytenr = t ∧ raw.metadata_uuid = nd.metadata_uuid ∧ raw.generation = generation) ∧
      ∀ M : Memory, M t = some raw → (∀ x ∈ p.2, x ≠ c → M x = mem x) →
        ∃ blocks, Tree M fs.node_size level t (p.1, blocks) ∧ ∀ x ∈ blocks, x = t ∨ (x ∈ p.2 ∧ x ≠ c) := by
  have hnodup := htree.nodup hsorted
  unfold restamp at hrun
  cases level with
  | zero =>
    obtain ⟨l, hl, -, rfl⟩ := htree
    rw [hl] at hnd
    cases hnd
    simp only [if_true] at hrun
    obtain ⟨l₀, hl₀, hrun⟩ := CowM.bind_lift_ok.mp hrun
    cases hl₀
    obtain ⟨raw, hemit, hrun⟩ := CowM.bind_lift_ok.mp hrun
    obtain ⟨rfl, rfl⟩ := Run.pure_ok.mp hrun
    obtain ⟨rfl, hfit⟩ := Leaf.emit_ok hemit
    refine ⟨rfl, _, _, rfl, ⟨rfl, rfl, rfl⟩, ?_⟩
    intro M hM _
    have hleaf := tree_of_leaf hM hfit
    exact ⟨[t], hleaf, by simp⟩
  | succ level =>
    obtain ⟨n, parts, hn, hlevel, -, hne, hch, rfl⟩ := htree
    rw [hn] at hnd
    cases hnd
    simp only [Nat.add_one_ne_zero, if_false] at hrun
    obtain ⟨i, hi, hrun⟩ := CowM.bind_lift_ok.mp hrun
    cases hi
    obtain ⟨raw, hemit, hrun⟩ := CowM.bind_lift_ok.mp hrun
    obtain ⟨rfl, rfl⟩ := Run.pure_ok.mp hrun
    obtain ⟨rfl, hfit⟩ := InteriorNode.emit_ok hemit
    refine ⟨rfl, _, _, rfl, ⟨rfl, rfl, rfl⟩, ?_⟩
    intro M hM hold
    have hc := (List.nodup_cons.mp hnodup).1
    have hbelow : ∀ x ∈ blocksOf parts, x ≠ c := fun x hx heq => hc (heq ▸ hx)
    have hch' : Children M fs.node_size level n.entries parts :=
      Children.frame hch fun x hx => hold x (List.mem_cons_of_mem _ hx) (hbelow x hx)
    refine ⟨t :: blocksOf parts, tree_of_interior hM hlevel hfit hne hch', ?_⟩
    intro x hx
    rcases List.mem_cons.mp hx with rfl | hx
    · exact Or.inl rfl
    · exact Or.inr ⟨List.mem_cons_of_mem _ hx, hbelow x hx⟩

theorem collapse_root_spec {c : InteriorEntry}
    (hpath : OnPath fs pending level b n key es e es' ps q ps' s)
    (hchild : Replaced fs pending generation level q items s s₁ gone (resultEntries generation child)
      child.2) (hone : es ++ resultEntries generation child ++ es' = [c])
    (hrun : collapse_root fs pending owner generation b (level + 1) c child.2 s₁ = .ok res s') :
    ∃ gone' t k j, res.1 = some (t, k, j) ∧ Rewritten fs pending generation j t
      (itemsOf ps ++ items ++ itemsOf ps')
      (itemsOf (ps ++ q :: ps'), b :: blocksOf (ps ++ q :: ps')) s s' gone' res.2 := by
  unfold collapse_root at hrun
  obtain ⟨u, s₂, hfreed, hrun⟩ := Run.bind_ok.mp hrun
  have he := (hchild.effect.widen hpath.child_blocks).snoc_free (by simp) hfreed
  simp only [Nat.add_sub_cancel] at hrun
  split at hrun
  · -- The child is of this generation already.
    obtain ⟨rfl, rfl⟩ := Run.pure_ok.mp hrun
    refine ⟨_, c.blockptr, c.key, level, rfl, he, ?_⟩
    intro M hM
    rw [← List.append_nil child.2] at hM
    obtain ⟨parts, hch, hitems, hblocks⟩ := hchild.children hpath (by simp) (by simp) hM
    rw [hone] at hch
    obtain ⟨p, qs, rfl, ht, -, hnil⟩ := hch.of_cons
    cases hnil
    simp only [itemsOf_cons, itemsOf_nil, List.append_nil] at hitems
    refine ⟨p.2, hitems ▸ ht, ?_⟩
    intro x hx
    exact (hblocks x (by simpa using hx)).imp id fun h => ⟨List.mem_cons_of_mem _ h.1, h.2⟩
  · -- It is a sibling of the subtree that is gone, and is copied.
    rename_i hgen
    obtain ⟨hmid, hsib⟩ : resultEntries generation child = [] ∧ es ++ es' = [c] := by
      cases hmid : resultEntries generation child with
      | nil => exact ⟨rfl, by simpa [hmid] using hone⟩
      | cons a l =>
        have ha : a ∈ es ++ resultEntries generation child ++ es' := by simp [hmid]
        rw [hone, List.mem_singleton] at ha
        subst ha
        exact absurd (resultEntries_generation (by rw [hmid]; simp)) hgen
    obtain ⟨pc, pcs, hparts, htree, -, hnil⟩ :=
      Children.of_cons (hsib ▸ hpath.left.append hpath.right)
    cases hnil
    have hitems : itemsOf ps ++ items ++ itemsOf ps' = pc.1 := by
      rw [hchild.eq_nil hmid, List.append_nil, ← itemsOf_append, hparts]
      simp
    obtain ⟨node, hread, hrun⟩ := CowM.bind_lift_ok.mp hrun
    obtain ⟨t, s₃, halloc, hrun⟩ := Run.bind_ok.mp hrun
    obtain ⟨u', s₄, hfreed', hrun⟩ := Run.bind_ok.mp hrun
    have hnode : view fs pending c.blockptr = some node := by rw [view, hread]; rfl
    obtain ⟨-, -, huuid⟩ := view_eq_some hnode
    have hsub : ∀ x ∈ pc.2, x ∈ blocksOf ps ∨ x ∈ blocksOf ps' := by
      intro x hx
      rw [← List.mem_append, ← blocksOf_append, hparts]
      simpa using hx
    have hsorted : Sorted LeafItem.key pc.1 := by
      have h := hpath.sorted
      rw [itemsOf_append, itemsOf_cons] at h
      have h' : Sorted LeafItem.key (itemsOf ps ++ itemsOf ps') :=
        h.sublist (List.Sublist.append_left (List.sublist_append_right _ _) _)
      rwa [← itemsOf_append, hparts, itemsOf_cons, itemsOf_nil, List.append_nil] at h'
    obtain ⟨rfl, k', raw, rfl, hraw, hcopy⟩ := restamp_spec htree hsorted hnode hrun
    rw [huuid] at hraw
    obtain ⟨hm, ht, ht'⟩ := alloc_block_spec he.moved.serves halloc
    have hc : c.blockptr ∈ b :: blocksOf (ps ++ q :: ps') := by
      obtain ⟨-, -, -, hmem⟩ := htree.mem_root
      exact (hpath.beside (hsub _ hmem)).1
    have he' := (he.snoc_fresh hm (by simp) ht ht' hraw).snoc_free hc hfreed'
    have htfree := he.moved.shrink ht
    refine ⟨_, t, k', level, rfl, he', ?_⟩
    intro M hM
    have hnew := hM.new (t, raw) (List.mem_append_right _ (List.mem_singleton.mpr rfl))
    -- Below the copied root nothing was freed or written.
    have hkeep : ∀ x ∈ pc.2, x ≠ c.blockptr → x ∈ b :: blocksOf (ps ++ q :: ps') ∧
        x ∉ gone ++ [b] ++ [] ++ [c.blockptr] ∧ x ∉ (child.2 ++ [(t, raw)]).map Prod.fst := by
      intro x hx hne
      obtain ⟨hmem, hxb, hxq, hxfree⟩ := hpath.beside (hsub x hx)
      refine ⟨hmem, ?_, ?_⟩
      · simp only [List.append_nil, List.mem_append, List.mem_singleton, not_or]
        exact ⟨⟨fun hxg => hxq (hchild.effect.gone_in x hxg), hxb⟩, hne⟩
      · simp only [List.map_append, List.map_cons, List.map_nil, List.mem_append,
          List.mem_singleton, not_or]
        exact ⟨hchild.effect.not_mem_emitted hxq hxfree, fun heq => hxfree (heq ▸ htfree)⟩
    obtain ⟨blocks, htree', hblocks⟩ := hcopy M hnew fun x hx hne =>
      hM.old x (hkeep x hx hne).1 (hkeep x hx hne).2.1 (hkeep x hx hne).2.2
    rw [hitems]
    refine ⟨blocks, htree', ?_⟩
    intro x hx
    rcases hblocks x hx with rfl | ⟨hx, hne⟩
    · exact Or.inl (by simp)
    · exact Or.inr ⟨(hkeep x hx hne).1, (hkeep x hx hne).2.1⟩

theorem replace_child_eq (hentries : n.entries = es ++ e :: es') :
    replace_child n.entries es.length generation child =
      es ++ resultEntries generation child ++ es' := by
  cases hres : child.1 with
  | none =>
    simp only [replace_child, resultEntries, hres, hentries]
    rw [List.eraseIdx_append_of_length_le le_rfl]
    simp
  | some c => simp [replace_child, resultEntries, hres, hentries, set_entry]

theorem mutate_interior_spec {is_root : Bool}
    (hpath : OnPath fs pending level b n key es e es' ps q ps' s)
    (hchild : Replaced fs pending generation level q items s s₁ gone (resultEntries generation child)
      child.2)
    (hrun : mutate_interior fs pending owner key generation is_root (.interior n) n es.length b
      (level + 1) (is_already_new pending (.interior n) generation b) child s₁ = .ok res s') :
    ∃ gone',
      (is_root = false → Replaced fs pending generation (level + 1)
        (itemsOf (ps ++ q :: ps'), b :: blocksOf (ps ++ q :: ps'))
        (itemsOf ps ++ items ++ itemsOf ps') s s' gone' (resultEntries generation res) res.2) ∧
      (is_root = true → ∃ t k j, res.1 = some (t, k, j) ∧ Rewritten fs pending generation j t
        (itemsOf ps ++ items ++ itemsOf ps')
        (itemsOf (ps ++ q :: ps'), b :: blocksOf (ps ++ q :: ps')) s s' gone' res.2) := by
  unfold mutate_interior at hrun
  rw [replace_child_eq hpath.entries] at hrun
  cases hnew : es ++ resultEntries generation child ++ es' with
  | nil =>
    -- The node lost its last entry.
    rw [hnew] at hrun
    simp only at hrun
    have hitems := hchild.items_nil hpath hnew
    split at hrun
    · rename_i hroot
      obtain ⟨u, s₂, hfreed, hrun⟩ := Run.bind_ok.mp hrun
      obtain ⟨rfl, rfl⟩ := Run.pure_ok.mp hrun
      have he := (hchild.effect.widen hpath.child_blocks).snoc_free (by simp) hfreed
      refine ⟨_, fun _ => ⟨he, ?_⟩, fun h => absurd h hroot⟩
      intro M hM
      exact ⟨[], .nil, by simp [hitems], by simp⟩
    · rename_i hroot
      obtain ⟨gone', t, k, hres, hrw⟩ := empty_root_spec hpath hchild hrun
      rw [hitems]
      exact ⟨gone', fun h => absurd (by simp [h]) hroot, fun _ => ⟨t, k, 0, hres, hrw⟩⟩
  | cons c rest =>
    rw [hnew] at hrun
    simp only at hrun
    split at hrun
    · rename_i hroot
      rw [List.isEmpty_iff.mp hroot.2] at hnew
      obtain ⟨gone', hres⟩ := collapse_root_spec hpath hchild hnew hrun
      exact ⟨gone', fun h => absurd hroot.1 (by simp [h]), fun _ => hres⟩
    · obtain ⟨t, s₂, htarget, hrun⟩ := Run.bind_ok.mp hrun
      obtain ⟨raw, hemit, hrun⟩ := CowM.bind_lift_ok.mp hrun
      obtain ⟨rfl, rfl⟩ := Run.pure_ok.mp hrun
      obtain ⟨rfl, hfit⟩ := InteriorNode.emit_ok hemit
      simp only [← hnew] at hfit ⊢
      obtain ⟨gone', hrep⟩ := hchild.emit_node hpath htarget hfit (by simp [hnew]) c.key
      have hkey : first_entry_key_or (es ++ resultEntries generation child ++ es') c.key = c.key := by
        rw [hnew]; rfl
      rw [hkey] at hrep
      exact ⟨gone', fun _ => hrep, fun _ => ⟨t, c.key, level + 1, rfl, hrep.rewritten⟩⟩

end

/-! ## The descent -/

section

variable {fs : BtrfsView} {pending : Pending} {owner generation : Nat} {key : Key}
  {mutate_fn : Leaf → Except LuksError Leaf} {ok : LeafItem → Prop} {f : LeafItem → List LeafItem}

theorem OnPath.alter_items {level b : Nat} {n : InteriorNode} {es es' : List InteriorEntry}
    {e : InteriorEntry} {ps ps' : List Part} {q : Part} {s : CowState}
    (hpath : OnPath fs pending level b n key es e es' ps q ps' s) :
    itemsOf ps ++ alter LeafItem.key key f q.1 ++ itemsOf ps' =
      alter LeafItem.key key f (itemsOf (ps ++ q :: ps')) := by
  rw [itemsOf_append, itemsOf_cons, ← List.append_assoc]
  exact (alter_between (fun a ha => (hpath.below a ha).ne) fun a ha => (hpath.above a ha).ne').symm

theorem cow_descend_spec (hf : Alters key mutate_fn ok f) (level : Nat) {b : Nat} {p : Part}
    {s s' : CowState} {is_root : Bool} {res : MutateResult}
    (htree : Tree (view fs pending) fs.node_size level b p)
    (hsorted : Sorted LeafItem.key p.1) (hserves : s.allocator.Serves fs.node_size)
    (hfree : ∀ x ∈ p.2, x ∉ s.allocator.freeCells)
    (hrun : cow_descend fs pending owner key generation mutate_fn level b is_root s = .ok res s') :
    Found key ok f p.1 ∧ ∃ gone,
      (is_root = false → Replaced fs pending generation level p
        (alter LeafItem.key key f p.1) s s' gone (resultEntries generation res) res.2) ∧
      (is_root = true → ∃ t k j, res.1 = some (t, k, j) ∧ Rewritten fs pending generation j t
        (alter LeafItem.key key f p.1) p s s' gone res.2) := by
  induction level generalizing b p s' is_root res with
  | zero =>
    obtain ⟨l, hl, -, rfl⟩ := htree
    obtain ⟨hread, -, -⟩ := view_eq_some hl
    rw [cow_descend, hread] at hrun
    obtain ⟨node, hnode, hrun⟩ := CowM.bind_lift_ok.mp hrun
    cases hnode
    exact mutate_leaf_spec hl hsorted hserves (hfree b (by simp)) hf hrun
  | succ level ih =>
    obtain ⟨n, es, e, es', ps, q, ps', hpath, hroute, rfl⟩ := htree.onPath hsorted hfree key
    obtain ⟨hread, -, -⟩ := view_eq_some hpath.node
    rw [cow_descend, hread] at hrun
    obtain ⟨node, hnode, hrun⟩ := CowM.bind_lift_ok.mp hrun
    cases hnode
    obtain ⟨i, hi, hrun⟩ := CowM.bind_lift_ok.mp hrun
    cases hi
    obtain ⟨idx, hidx, hrun⟩ := CowM.bind_lift_ok.mp hrun
    rw [hroute] at hidx
    cases hidx
    have hget : n.entries[es.length]? = some e := by rw [hpath.entries]; simp
    simp only [hget] at hrun
    obtain ⟨child, s₁, hchild, hrun⟩ := Run.bind_ok.mp hrun
    have hsorted' := hpath.sorted
    rw [itemsOf_append, itemsOf_cons] at hsorted'
    obtain ⟨hfound, gone, hrep, -⟩ := ih hpath.child
      (sorted_append.mp (sorted_append.mp hsorted').2.1).1
      (fun x hx => hfree x (hpath.child_blocks x hx)) hchild
    refine ⟨hfound.mono fun a ha => by simp [ha], ?_⟩
    rw [← hpath.alter_items]
    exact mutate_interior_spec hpath (hrep rfl) hrun

end

end LuksAndroid.Btrfs
