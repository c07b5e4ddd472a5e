import LuksAndroid.Btrfs.Cow.Effect

/-!
# One subtree replaced by others

Both descents give the parent some entries in place of the one they came through:
one entry, several after a split, none when the subtree is gone. `Replaced` says
what these entries lead to, and how a parent of the path takes them in.
-/

namespace LuksAndroid.Btrfs

open Keyed

/-! ## Reading and emitting -/

theorem view_eq_some {fs : BtrfsView} {pending : Pending} {b : Nat} {n : Node}
    (h : view fs pending b = some n) :
    read_node fs pending b = .ok n ∧ n.bytenr = b ∧ n.metadata_uuid = fs.metadata_uuid := by
  unfold view at h
  cases hr : read_node fs pending b with
  | error e => rw [hr] at h; cases h
  | ok m =>
    rw [hr] at h
    cases h
    have hparse : ∀ r : Node, r.parse b fs.metadata_uuid = .ok n →
        n.bytenr = b ∧ n.metadata_uuid = fs.metadata_uuid := by
      intro r hp
      unfold Node.parse at hp
      split at hp
      · cases hp
      · split at hp
        · cases hp
        · cases hp
          exact ⟨by tauto, by tauto⟩
    refine ⟨rfl, ?_⟩
    unfold read_node at hr
    split at hr
    · exact hparse _ hr
    · unfold BtrfsView.read_node at hr
      cases hd : fs.device b with
      | error e => rw [hd] at hr; cases hr
      | ok r =>
        rw [hd] at hr
        exact hparse r hr

theorem Leaf.emit_ok {l : Leaf} {node_size : Nat} {n : Node} (h : l.emit node_size = .ok n) :
    n = .leaf l ∧ leaf_payload_bytes l.items ≤ node_size := by
  unfold Leaf.emit at h
  split at h
  · cases h
  · rename_i hle
    cases h
    exact ⟨rfl, not_lt.mp hle⟩

theorem InteriorNode.emit_ok {i : InteriorNode} {node_size : Nat} {n : Node}
    (h : i.emit node_size = .ok n) :
    n = .interior i ∧ HEADER_SIZE + i.entries.length * KEY_PTR_SIZE ≤ node_size := by
  unfold InteriorNode.emit at h
  split at h
  · cases h
  · rename_i hle
    cases h
    exact ⟨rfl, not_lt.mp hle⟩

theorem lowestKey_first_key_or {items : List LeafItem} (h : items ≠ []) (key : Key) :
    lowestKey items = some (first_key_or items key) := by
  cases items with
  | nil => exact absurd rfl h
  | cons a rest => rfl

theorem tree_of_leaf {M : Memory} {node_size b : Nat} {l : Leaf} (h : M b = some (.leaf l))
    (hfit : leaf_payload_bytes l.items ≤ node_size) : Tree M node_size 0 b (l.items, [b]) :=
  ⟨l, h, hfit, rfl⟩

theorem tree_of_interior {M : Memory} {node_size level b : Nat} {n : InteriorNode}
    {parts : List Part} (h : M b = some (.interior n)) (hlevel : n.level = level + 1)
    (hfit : HEADER_SIZE + n.entries.length * KEY_PTR_SIZE ≤ node_size) (hne : n.entries ≠ [])
    (hch : Children M node_size level n.entries parts) :
    Tree M node_size (level + 1) b (itemsOf parts, b :: blocksOf parts) :=
  ⟨n, parts, h, hlevel, hfit, hne, hch, rfl⟩

theorem Children.lowestKey_or {M : Memory} {node_size level : Nat} {es : List InteriorEntry}
    {parts : List Part} (h : Children M node_size level es parts) (hne : es ≠ []) (key : Key) :
    lowestKey (itemsOf parts) = some (first_entry_key_or es key) := by
  cases es with
  | nil => exact absurd rfl hne
  | cons e es => exact h.lowestKey_eq

theorem is_already_new_some {pending : Pending} {node : Node} {generation b : Nat}
    (h : is_already_new pending node generation b = true) : (pending.get b).isSome := by
  simp only [is_already_new, decide_eq_true_eq] at h
  exact h.2

/-! ## Replacing below a node -/

/-- The entries stand for `items` in place of the subtree `p`, in every memory that holds the result. -/
structure Replaced (fs : BtrfsView) (pending : Pending) (generation level : Nat) (p : Part)
    (items : List LeafItem) (s s' : CowState) (gone : List Nat) (entries : List InteriorEntry)
    (emitted : List (Nat × Node)) : Prop where
  effect : Effect fs pending generation p.2 s s' gone emitted
  tree : ∀ M, Holds (view fs pending) M p.2 gone emitted →
    ∃ parts, Children M fs.node_size level entries parts ∧ itemsOf parts = items ∧
      ∀ x ∈ blocksOf parts, x ∈ emitted.map Prod.fst ∨ (x ∈ p.2 ∧ x ∉ gone)

/-- The same for a whole tree: the tree at the new root holds `items`. -/
structure Rewritten (fs : BtrfsView) (pending : Pending) (generation level root : Nat)
    (items : List LeafItem) (p : Part) (s s' : CowState) (gone : List Nat)
    (emitted : List (Nat × Node)) : Prop where
  effect : Effect fs pending generation p.2 s s' gone emitted
  tree : ∀ M, Holds (view fs pending) M p.2 gone emitted →
    ∃ blocks, Tree M fs.node_size level root (items, blocks) ∧
      ∀ x ∈ blocks, x ∈ emitted.map Prod.fst ∨ (x ∈ p.2 ∧ x ∉ gone)

theorem Replaced.rewritten {fs : BtrfsView} {pending : Pending} {generation level : Nat} {p : Part}
    {items : List LeafItem} {s s' : CowState} {gone : List Nat} {e : InteriorEntry}
    {emitted : List (Nat × Node)}
    (h : Replaced fs pending generation level p items s s' gone [e] emitted) :
    Rewritten fs pending generation level e.blockptr items p s s' gone emitted := by
  refine ⟨h.effect, ?_⟩
  intro M hM
  obtain ⟨parts, hch, hitems, hblocks⟩ := h.tree M hM
  obtain ⟨q, qs, rfl, ht, -, hnil⟩ := hch.of_cons
  cases hnil
  simp only [itemsOf_cons, itemsOf_nil, List.append_nil] at hitems
  refine ⟨q.2, ?_, fun x hx => hblocks x (by simpa using hx)⟩
  rw [← hitems]
  exact ht

section

variable {fs : BtrfsView} {pending : Pending} {owner generation level b : Nat} {n : InteriorNode}
  {key : Key} {es es' mid : List InteriorEntry} {e : InteriorEntry} {ps ps' : List Part}
  {q : Part} {s s₁ s' : CowState} {gone : List Nat} {items : List LeafItem}
  {emitted : List (Nat × Node)}

theorem OnPath.child_blocks (_ : OnPath fs pending level b n key es e es' ps q ps' s) :
    ∀ x ∈ q.2, x ∈ b :: blocksOf (ps ++ q :: ps') :=
  fun x hx => by simp [hx]

theorem OnPath.not_mem_emitted (hpath : OnPath fs pending level b n key es e es' ps q ps' s)
    {emitted : List (Nat × Node)} (he : Effect fs pending generation q.2 s s₁ gone emitted) :
    b ∉ emitted.map Prod.fst :=
  he.not_mem_emitted (fun hx => (List.nodup_cons.mp hpath.nodup).1 (by simp [hx]))
    (hpath.free b (by simp))

theorem OnPath.beside (hpath : OnPath fs pending level b n key es e es' ps q ps' s) {x : Nat}
    (hx : x ∈ blocksOf ps ∨ x ∈ blocksOf ps') :
    x ∈ b :: blocksOf (ps ++ q :: ps') ∧ x ≠ b ∧ x ∉ q.2 ∧ x ∉ s.allocator.freeCells := by
  have hnodup := hpath.nodup
  have hmem : x ∈ blocksOf (ps ++ q :: ps') := by
    simp only [blocksOf_append, blocksOf_cons, List.mem_append]
    exact hx.imp id Or.inr
  obtain ⟨hb, hnodup⟩ := List.nodup_cons.mp hnodup
  simp only [blocksOf_append, blocksOf_cons] at hnodup
  rw [List.nodup_append', List.nodup_append'] at hnodup
  obtain ⟨-, ⟨-, -, hqr⟩, hlq⟩ := hnodup
  refine ⟨List.mem_cons_of_mem _ hmem, fun heq => hb (heq ▸ hmem), ?_,
    hpath.free x (List.mem_cons_of_mem _ hmem)⟩
  intro hxq
  rcases hx with hx | hx
  · exact hlq hx (by simp [hxq])
  · exact hqr hxq hx

theorem Replaced.children (hpath : OnPath fs pending level b n key es e es' ps q ps' s)
    (hchild : Replaced fs pending generation level q items s s₁ gone mid emitted)
    {M : Memory} {g : List Nat} {em : List (Nat × Node)} (hg : ∀ x ∈ g, x = b)
    (hem : ∀ x ∈ em.map Prod.fst, x = b ∨ x ∈ s.allocator.freeCells)
    (hM : Holds (view fs pending) M (b :: blocksOf (ps ++ q :: ps')) (gone ++ g) (emitted ++ em)) :
    ∃ parts, Children M fs.node_size level (es ++ mid ++ es') parts ∧
      itemsOf parts = itemsOf ps ++ items ++ itemsOf ps' ∧
      ∀ x ∈ blocksOf parts, x ∈ emitted.map Prod.fst ∨
        (x ∈ blocksOf (ps ++ q :: ps') ∧ x ∉ gone ++ g) := by
  obtain ⟨hq, hl, hr⟩ := hM.split hpath hchild.effect hg hem
  obtain ⟨parts, hch, hitems, hblocks⟩ := hchild.tree M hq
  have hbq : b ∉ q.2 := fun hx => (List.nodup_cons.mp hpath.nodup).1 (by simp [hx])
  -- A block beside the child is not freed: the child frees only its own.
  have hbeside : ∀ x, x ∈ blocksOf ps ∨ x ∈ blocksOf ps' → x ∉ gone ++ g := by
    intro x hx
    obtain ⟨-, hne, hxq, -⟩ := hpath.beside hx
    rw [List.mem_append, not_or]
    exact ⟨fun hxg => hxq (hchild.effect.gone_in x hxg), fun hxg => hne (hg x hxg)⟩
  refine ⟨ps ++ parts ++ ps', (hl.append hch).append hr, by simp [hitems], ?_⟩
  intro x hx
  simp only [blocksOf_append, List.mem_append] at hx
  rcases hx with (hx | hx) | hx
  · exact Or.inr ⟨by simp [hx], hbeside x (Or.inl hx)⟩
  · rcases hblocks x hx with hx | ⟨hx, hxg⟩
    · exact Or.inl hx
    · refine Or.inr ⟨by simp [hx], ?_⟩
      rw [List.mem_append, not_or]
      exact ⟨hxg, fun hx' => hbq (hg x hx' ▸ hx)⟩
  · exact Or.inr ⟨by simp [hx], hbeside x (Or.inr hx)⟩

theorem Replaced.emit_node (hpath : OnPath fs pending level b n key es e es' ps q ps' s)
    (hchild : Replaced fs pending generation level q items s s₁ gone mid emitted) {t : Nat}
    (htarget : target_block fs owner b (level + 1)
      (is_already_new pending (.interior n) generation b) s₁ = .ok t s')
    (hfit : HEADER_SIZE + (es ++ mid ++ es').length * KEY_PTR_SIZE ≤ fs.node_size)
    (hne : es ++ mid ++ es' ≠ []) (k : Key) :
    ∃ gone', Replaced fs pending generation (level + 1)
      (itemsOf (ps ++ q :: ps'), b :: blocksOf (ps ++ q :: ps')) (itemsOf ps ++ items ++ itemsOf ps')
      s s' gone' [⟨first_entry_key_or (es ++ mid ++ es') k, t, generation⟩] (emitted ++ [(t, .interior
        { n with bytenr := t, generation, owner, entries := es ++ mid ++ es' })]) := by
  obtain ⟨-, -, huuid⟩ := view_eq_some hpath.node
  have hbfree := hpath.free b (by simp)
  obtain ⟨g, he, hg⟩ := (hchild.effect.widen hpath.child_blocks).snoc_target
    (n := .interior { n with bytenr := t, generation, owner, entries := es ++ mid ++ es' })
    (by simp) is_already_new_some hbfree (hpath.not_mem_emitted hchild.effect) htarget
    ⟨rfl, huuid, rfl⟩
  have hgb : ∀ x ∈ g, x = b := by rcases hg with ⟨rfl, -⟩ | ⟨rfl, -⟩ <;> simp
  have ht : t = b ∨ t ∈ s.allocator.freeCells :=
    hg.imp (fun h => h.2) fun h => hchild.effect.moved.shrink h.2
  refine ⟨gone ++ g, he, ?_⟩
  intro M hM
  obtain ⟨parts, hch, hitems, hblocks⟩ := hchild.children hpath hgb (by simpa using ht) hM
  have hnode := hM.new (t, _) (List.mem_append_right _ (List.mem_singleton.mpr rfl))
  refine ⟨[(itemsOf parts, t :: blocksOf parts)],
    .cons (tree_of_interior hnode hpath.level_eq hfit hne hch) (hch.lowestKey_or hne k) .nil,
    by simpa using hitems, ?_⟩
  intro x hx
  simp only [blocksOf_cons, blocksOf_nil, List.append_nil, List.mem_cons] at hx
  rcases hx with rfl | hx
  · exact Or.inl (by simp)
  · rcases hblocks x hx with hx | ⟨hx, hxg⟩
    · exact Or.inl (by simpa using Or.inl (by simpa using hx))
    · exact Or.inr ⟨List.mem_cons_of_mem _ hx, hxg⟩

end

end LuksAndroid.Btrfs
