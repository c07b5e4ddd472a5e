import LuksAndroid.Btrfs.Cursor.Proofs

/-!
# Where the operations of a cursor lead

Seen from outside, a cursor shows an item or nothing. What it shows after each operation is said in
terms of the items of the tree, in key order.
-/

namespace LuksAndroid.Btrfs

open Keyed

namespace Cursor

variable {read : Reader} {node_size root level : Nat} {items : List LeafItem}

theorem search_le_spec (h : WellFormed (seen read) node_size level root items) (key : Key) :
    ∃ c, search_le read root key = .ok c ∧
      ((∃ before x after, At (seen read) node_size items c before (x :: after) ∧ x.key ≤ key ∧
          ∀ a ∈ after, key < a.key) ∨
        c.valid = false ∧ ∀ a ∈ items, key < a.key) := by
  obtain ⟨c, before, after, hrun, hat, hlow, hhigh⟩ := search_spec h key
  have hsorted := h.sorted
  rw [hat.items_eq] at hsorted
  by_cases hexact : ∃ x rest, after = x :: rest ∧ x.key = key
  · obtain ⟨x, rest, rfl, hx⟩ := hexact
    have hvalid := hat.valid_iff.mpr (by simp)
    refine ⟨c, ?_, .inl ⟨before, x, rest, hat, hx.le, ?_⟩⟩
    · simp [search_le, hrun, bind, Except.bind, hvalid, hat.reads.1, hx, pure, Except.pure]
    · rw [← hx]
      exact (sorted_cons.mp (sorted_append.mp hsorted).2.1).1
  · have hback : search_le read root key = c.retreat read := by
      simp only [search_le, hrun, bind, Except.bind]
      cases after with
      | nil =>
        have hvalid : c.valid = false := by simpa using hat.valid_iff
        simp [hvalid]
      | cons x rest =>
        have hvalid := hat.valid_iff.mpr (by simp)
        have hx : x.key ≠ key := fun hx => hexact ⟨x, rest, rfl, hx⟩
        simp [hvalid, hat.reads.1, hx]
    -- an item with the key itself would stand right under the cursor
    have habove : ∀ a ∈ after, key < a.key := by
      intro a ha
      refine lt_of_le_of_ne (hhigh a ha) ?_
      rintro rfl
      obtain ⟨x, rest, rfl⟩ := List.exists_cons_of_ne_nil (List.ne_nil_of_mem ha)
      rcases List.mem_cons.mp ha with rfl | ha
      · exact hexact ⟨a, rest, rfl, rfl⟩
      · exact absurd ((sorted_cons.mp (sorted_append.mp hsorted).2.1).1 a ha) (not_lt.mpr (hhigh x (by simp)))
    rw [hback]
    rcases List.eq_nil_or_concat' before with rfl | ⟨before, x, rfl⟩
    · obtain ⟨c', hc', hinvalid⟩ := retreat_start hat
      refine ⟨c', hc', .inr ⟨hinvalid, ?_⟩⟩
      rw [hat.items_eq, List.nil_append]
      exact habove
    · obtain ⟨c', hc', hat'⟩ := retreat_spec hat
      exact ⟨c', hc', .inl ⟨before, x, after, hat', (hlow x (by simp)).le, habove⟩⟩

/-! ## What a cursor shows -/

/-- The item under the cursor, or nothing. -/
def Shows (c : Cursor) : Option LeafItem → Prop
  | none => c.valid = false
  | some x => c.valid = true ∧ c.key = .ok x.key ∧ c.data = .ok x.data

theorem Shows.eq {c : Cursor} {x y : LeafItem} (hx : c.Shows (some x)) (hy : c.Shows (some y)) : x = y := by
  obtain ⟨-, hkey, hdata⟩ := hx
  obtain ⟨-, hkey', hdata'⟩ := hy
  rw [hkey, Except.ok.injEq] at hkey'
  rw [hdata, Except.ok.injEq] at hdata'
  cases x
  cases y
  simp_all

/-- The cursors that a tree gives. -/
inductive Made (read : Reader) (root : Nat) : Cursor → Prop where
  | search {key : Key} {c : Cursor} (h : search read root key = .ok c) : Made read root c
  | search_le {key : Key} {c : Cursor} (h : search_le read root key = .ok c) : Made read root c
  | advance {c c' : Cursor} (hmade : Made read root c) (hvalid : c.valid = true) (h : c.advance read = .ok c') :
    Made read root c'
  | retreat {c c' : Cursor} (hmade : Made read root c) (hvalid : c.valid = true) (h : c.retreat read = .ok c') :
    Made read root c'

theorem At.shows {c : Cursor} {before after : List LeafItem} (h : At (seen read) node_size items c before after) :
    c.Shows after.head? := by
  cases after with
  | nil => simpa [Shows] using h.valid_iff
  | cons x after => exact ⟨h.valid_iff.mpr (by simp), h.reads⟩

theorem At.retreats {c : Cursor} {before after : List LeafItem} (h : At (seen read) node_size items c before after) :
    ∃ c', c.retreat read = .ok c' ∧ c'.Shows before.getLast? ∧
      (c'.valid = true → ∃ before' after', At (seen read) node_size items c' before' after') := by
  rcases List.eq_nil_or_concat' before with rfl | ⟨before, x, rfl⟩
  · obtain ⟨c', hc', hinvalid⟩ := retreat_start h
    refine ⟨c', hc', hinvalid, ?_⟩
    rw [hinvalid]
    intro hvalid
    cases hvalid
  · obtain ⟨c', hc', hat⟩ := retreat_spec h
    refine ⟨c', hc', ?_, fun _ => ⟨before, x :: after, hat⟩⟩
    rw [List.getLast?_concat]
    exact hat.shows

theorem Made.at {c : Cursor} (hmade : Made read root c) (h : WellFormed (seen read) node_size level root items)
    (hvalid : c.valid = true) : ∃ before x after, At (seen read) node_size items c before (x :: after) := by
  suffices hat : ∃ before after, At (seen read) node_size items c before after by
    obtain ⟨before, after, hat⟩ := hat
    obtain ⟨x, rest, rfl⟩ := List.exists_cons_of_ne_nil (hat.valid_iff.mp hvalid)
    exact ⟨before, x, rest, hat⟩
  induction hmade with
  | @search key c hrun =>
    obtain ⟨c', before, after, hrun', hat, -⟩ := search_spec h key
    rw [hrun] at hrun'
    cases hrun'
    exact ⟨before, after, hat⟩
  | @search_le key c hrun =>
    obtain ⟨c', hrun', ⟨before, x, after, hat, -⟩ | ⟨hinvalid, -⟩⟩ := search_le_spec h key
    · rw [hrun] at hrun'
      cases hrun'
      exact ⟨before, x :: after, hat⟩
    · rw [hrun] at hrun'
      cases hrun'
      rw [hvalid] at hinvalid
      cases hinvalid
  | @advance c c' hmade hvalid₀ hrun ih =>
    obtain ⟨before, after, hat⟩ := ih hvalid₀
    obtain ⟨x, rest, rfl⟩ := List.exists_cons_of_ne_nil (hat.valid_iff.mp hvalid₀)
    obtain ⟨c'', hrun', hat'⟩ := advance_spec hat
    rw [hrun] at hrun'
    cases hrun'
    exact ⟨_, _, hat'⟩
  | @retreat c c' hmade hvalid₀ hrun ih =>
    obtain ⟨before, after, hat⟩ := ih hvalid₀
    obtain ⟨c'', hrun', -, hplaced⟩ := hat.retreats
    rw [hrun] at hrun'
    cases hrun'
    exact hplaced hvalid

theorem search_shows (h : WellFormed (seen read) node_size level root items) (key : Key) :
    ∃ c, search read root key = .ok c ∧ c.Shows (items.find? fun a => key ≤ a.key) := by
  obtain ⟨c, before, after, hrun, hat, hlow, hhigh⟩ := search_spec h key
  refine ⟨c, hrun, ?_⟩
  rw [hat.items_eq, List.find?_append, List.find?_eq_none.mpr, Option.none_or]
  · have hfirst : after.find? (fun a => key ≤ a.key) = after.head? := by
      cases after with
      | nil => rfl
      | cons x after => exact List.find?_cons_of_pos (by simpa using hhigh x (by simp))
    rw [hfirst]
    exact hat.shows
  · intro a ha
    simpa using hlow a ha

theorem search_le_shows (h : WellFormed (seen read) node_size level root items) (key : Key) :
    ∃ c, search_le read root key = .ok c ∧ c.Shows (items.reverse.find? fun a => a.key ≤ key) := by
  obtain ⟨c, hrun, ⟨before, x, after, hat, hle, habove⟩ | ⟨hinvalid, habove⟩⟩ := search_le_spec h key
  · refine ⟨c, hrun, ?_⟩
    rw [hat.items_eq, List.reverse_append, List.reverse_cons, List.find?_append, List.find?_append,
      List.find?_eq_none.mpr, Option.none_or, List.find?_cons_of_pos (by simpa using hle), Option.some_or]
    · exact hat.shows
    · intro a ha
      simpa using habove a (List.mem_reverse.mp ha)
  · refine ⟨c, hrun, ?_⟩
    rw [List.find?_eq_none.mpr]
    · exact hinvalid
    · intro a ha
      simpa using habove a (List.mem_reverse.mp ha)

/-- A search leads to the first item from a key on, or to the last one up to it, a step to the neighbour, and a
scan over the items of one type in order. -/
theorem walks_in_order (h : WellFormed (seen read) node_size level root items) :
    (∀ key, ∃ c, search read root key = .ok c ∧ c.Shows (items.find? fun a => key ≤ a.key)) ∧
    (∀ key, ∃ c, search_le read root key = .ok c ∧ c.Shows (items.reverse.find? fun a => a.key ≤ key)) ∧
    (∀ c, Made read root c → c.valid = true → ∃ before x after, items = before ++ x :: after ∧ c.Shows (some x) ∧
      (∃ c', c.advance read = .ok c' ∧ c'.Shows after.head?) ∧
      ∃ c', c.retreat read = .ok c' ∧ c'.Shows before.getLast?) ∧
    ∀ (σ : Type) (objectid item_type : Nat) (visit : σ → Key → Bytes → Except LuksError (σ × Bool)) (s : σ),
      for_each_item read root objectid item_type visit s =
        visitAll (fun s x => visit s x.key x.data) s (itemsFor objectid item_type items) := by
  refine ⟨search_shows h, search_le_shows h, ?_, fun σ => for_each_item_spec h⟩
  intro c hmade hvalid
  obtain ⟨before, x, after, hat⟩ := hmade.at h hvalid
  obtain ⟨c₁, hadvance, hat₁⟩ := advance_spec hat
  obtain ⟨c₂, hretreat, hshows₂, -⟩ := hat.retreats
  exact ⟨before, x, after, hat.items_eq, hat.shows, ⟨c₁, hadvance, hat₁.shows⟩, c₂, hretreat, hshows₂⟩

end Cursor

def pairItem (objectid : Nat) : LeafItem := ⟨⟨objectid, INODE_ITEM_KEY, 0⟩, [7]⟩

def pairLeaf (bytenr : Nat) : Node := .leaf ⟨bytenr, 1, FS_TREE_OBJECTID, 1, [], [], [pairItem bytenr]⟩

-- A root over the leaves at 256 and 257.
def pairRead : Reader := fun b =>
  if b = 1 then
    .ok (.interior ⟨1, 1, FS_TREE_OBJECTID, 1, 1, [], [],
      [⟨(pairItem 256).key, 256, 1⟩, ⟨(pairItem 257).key, 257, 1⟩]⟩)
  else .ok (pairLeaf b)

theorem pair_tree (b : Nat) (h : b ≠ 1) : Tree (seen pairRead) 4096 0 b ([pairItem b], [b]) := by
  refine ⟨⟨b, 1, FS_TREE_OBJECTID, 1, [], [], [pairItem b]⟩, ?_, ?_, rfl⟩
  · simp [seen, pairRead, h, pairLeaf, Except.toOption]
  · simp [leaf_payload_bytes, pairItem, HEADER_SIZE, ITEM_SIZE]

theorem pair_wellFormed : WellFormed (seen pairRead) 4096 1 1 [pairItem 256, pairItem 257] where
  sorted := by
    refine List.Pairwise.cons ?_ (List.pairwise_singleton _ _)
    intro a ha
    rw [List.mem_singleton.mp ha]
    exact Key.lt_iff.mpr (by simp [pairItem])
  tree := by
    refine ⟨[1, 256, 257], _, [([pairItem 256], [256]), ([pairItem 257], [257])], rfl, rfl, ?_, by simp, ?_, rfl⟩
    · simp [HEADER_SIZE, KEY_PTR_SIZE]
    · exact .cons ⟨pair_tree 256 (by omega), rfl⟩ (.cons ⟨pair_tree 257 (by omega), rfl⟩ .nil)

theorem pair_split {before after : List LeafItem} {x : LeafItem}
    (h : [pairItem 256, pairItem 257] = before ++ x :: after) :
    before = [] ∧ x = pairItem 256 ∧ after = [pairItem 257] ∨ before = [pairItem 256] ∧ x = pairItem 257 ∧
    after = [] := by
  match before with
  | [] => simp_all
  | [_] => simp_all
  | _ :: _ :: before => simp at h

/-- Across the two leaves: both searches, a step each way from where they lead, and a scan. -/
theorem walks_pair_in_order :
    (∃ c, Cursor.search pairRead 1 ⟨256, INODE_ITEM_KEY, 1⟩ = .ok c ∧ c.Shows (some (pairItem 257)) ∧
      ∃ c', c.retreat pairRead = .ok c' ∧ c'.Shows (some (pairItem 256))) ∧
    (∃ c, Cursor.search_le pairRead 1 ⟨256, INODE_ITEM_KEY, 1⟩ = .ok c ∧ c.Shows (some (pairItem 256)) ∧
      ∃ c', c.advance pairRead = .ok c' ∧ c'.Shows (some (pairItem 257))) ∧
    for_each_item pairRead 1 257 INODE_ITEM_KEY (fun n _ data => .ok (n + data.length, true)) 0 = .ok 1 := by
  obtain ⟨hsearch, hsearch_le, hwalk, hscan⟩ := Cursor.walks_in_order pair_wellFormed
  have hne : pairItem 256 ≠ pairItem 257 := by simp [pairItem]
  refine ⟨?_, ?_, ?_⟩
  · obtain ⟨c, hc, hshows⟩ := hsearch ⟨256, INODE_ITEM_KEY, 1⟩
    change c.Shows (some (pairItem 257)) at hshows
    obtain ⟨before, x, after, hsplit, hx, -, hretreat⟩ := hwalk c (.search hc) hshows.1
    rcases pair_split hsplit with ⟨-, rfl, -⟩ | ⟨rfl, -, -⟩
    · exact absurd (hx.eq hshows) hne
    · exact ⟨c, hc, hshows, hretreat⟩
  · obtain ⟨c, hc, hshows⟩ := hsearch_le ⟨256, INODE_ITEM_KEY, 1⟩
    change c.Shows (some (pairItem 256)) at hshows
    obtain ⟨before, x, after, hsplit, hx, hadvance, -⟩ := hwalk c (.search_le hc) hshows.1
    rcases pair_split hsplit with ⟨-, -, rfl⟩ | ⟨-, rfl, -⟩
    · exact ⟨c, hc, hshows, hadvance⟩
    · exact absurd (hshows.eq hx) hne
  · rw [hscan]
    decide

end LuksAndroid.Btrfs
