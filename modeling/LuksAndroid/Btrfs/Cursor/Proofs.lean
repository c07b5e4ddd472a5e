import LuksAndroid.Btrfs.Cow.Search
import LuksAndroid.Btrfs.Cursor.Code

/-!
# Where a cursor stands

In a well-formed tree a cursor splits the items in two: those before it and those
from it on. Searching splits at a key, and stepping moves one item across.
-/

namespace LuksAndroid.Btrfs

open Keyed

/-- The memory as a reader sees it. -/
def seen (read : Reader) : Memory := fun b => (read b).toOption

theorem seen_eq_some {read : Reader} {b : Nat} {n : Node} (h : seen read b = some n) :
    read b = .ok n := by
  unfold seen at h
  cases hr : read b with
  | error e => rw [hr] at h; cases h
  | ok m => rw [hr] at h; cases h; rfl

namespace Cursor

/-- The frames above a subtree that holds `hole`: the items before and after it. -/
inductive Above (mem : Memory) (node_size : Nat) (items : List LeafItem) :
    List Frame → Nat → List LeafItem → List LeafItem → List LeafItem → Prop
  | root (level : Nat) : Above mem node_size items [] level items [] []
  | step {path : List Frame} {level : Nat} {n : InteriorNode} {es es' : List InteriorEntry}
      {e : InteriorEntry} {ps ps' : List Part} {q : Part} {before after : List LeafItem}
      (hlevel : n.level = level + 1) (hentries : n.entries = es ++ e :: es')
      (hleft : Children mem node_size level es ps) (hmid : Tree mem node_size level e.blockptr q)
      (hkey : lowestKey q.1 = some e.key) (hright : Children mem node_size level es' ps')
      (habove : Above mem node_size items path (level + 1) (itemsOf (ps ++ q :: ps')) before after) :
      Above mem node_size items ((.interior n, es.length) :: path) level q.1 (before ++ itemsOf ps)
        (itemsOf ps' ++ after)

/-- The cursor stands between `before` and `after`. It is past the end of its leaf only when nothing
comes after. -/
structure At (mem : Memory) (node_size : Nat) (items : List LeafItem) (c : Cursor)
    (before after : List LeafItem) : Prop where
  split : ∃ l i b a, c.leaf = (.leaf l, i) ∧ i ≤ l.items.length ∧
    Above mem node_size items c.path 0 l.items b a ∧ before = b ++ l.items.take i ∧
    after = l.items.drop i ++ a ∧ (after ≠ [] → i < l.items.length)

variable {mem : Memory} {node_size : Nat} {items : List LeafItem}

theorem Above.items_eq {path : List Frame} {level : Nat} {hole before after : List LeafItem}
    (h : Above mem node_size items path level hole before after) :
    items = before ++ hole ++ after := by
  induction h with
  | root => simp
  | step hlevel hentries hleft hmid hkey hright habove ih => rw [ih]; simp

theorem At.items_eq {c : Cursor} {before after : List LeafItem}
    (h : At mem node_size items c before after) : items = before ++ after := by
  obtain ⟨l, i, b, a, -, -, habove, rfl, rfl, -⟩ := h.split
  rw [habove.items_eq]
  simp only [List.append_assoc]
  rw [← List.append_assoc (l.items.take i), List.take_append_drop]

theorem At.valid_iff {c : Cursor} {before after : List LeafItem}
    (h : At mem node_size items c before after) : c.valid = true ↔ after ≠ [] := by
  obtain ⟨l, i, b, a, hleaf, -, -, -, rfl, hsettled⟩ := h.split
  simp only [valid, hleaf, Node.nr_items, Node.keys, List.length_map, decide_eq_true_eq]
  constructor
  · intro hi hnil
    have := (List.append_eq_nil_iff.mp hnil).1
    rw [List.drop_eq_nil_iff] at this
    omega
  · exact hsettled

theorem At.reads {c : Cursor} {before after : List LeafItem} {x : LeafItem}
    (h : At mem node_size items c before (x :: after)) :
    c.key = .ok x.key ∧ c.data = .ok x.data := by
  obtain ⟨l, i, b, a, hleaf, -, -, -, hafter, hsettled⟩ := h.split
  have hi := hsettled (by simp)
  rw [List.drop_eq_getElem_cons hi, List.cons_append, List.cons.injEq] at hafter
  obtain ⟨rfl, -⟩ := hafter
  constructor
  · simp [key, hleaf, Node.key, Node.keys, hi]
  · simp [data, hleaf, Node.item_data, hi]

/-! ## Forward -/

variable {read : Reader}

theorem key_ptr_append {n : InteriorNode} {es es' : List InteriorEntry} {e : InteriorEntry}
    (h : n.entries = es ++ e :: es') : (Node.interior n).key_ptr es.length = .ok e := by
  simp [Node.key_ptr, h]

theorem descend_leftmost_spec (level : Nat) {ptr : Nat} {path : List Frame} {q : Part}
    {before after : List LeafItem} (htree : Tree (seen read) node_size level ptr q)
    (hne : q.1 ≠ []) (habove : Above (seen read) node_size items path level q.1 before after) :
    ∃ c, descend_leftmost read (level + 1) ptr path = .ok c ∧
      At (seen read) node_size items c before (q.1 ++ after) := by
  induction level generalizing ptr path q before after with
  | zero =>
    obtain ⟨l, hl, -, rfl⟩ := htree
    refine ⟨⟨(.leaf l, 0), path⟩, ?_, ⟨l, 0, before, after, rfl, by omega, habove, by simp, by simp, ?_⟩⟩
    · simp [descend_leftmost, seen_eq_some hl, bind, Except.bind, Node.level, pure, Except.pure]
    · intro _
      exact List.length_pos_of_ne_nil hne
  | succ level ih =>
    obtain ⟨n, parts, hn, hlevel, -, hentries, hch, rfl⟩ := htree
    obtain ⟨e, es, he⟩ := List.exists_cons_of_ne_nil hentries
    rw [he] at hch
    obtain ⟨p, ps, rfl, htp, hkp, hps⟩ := Children.of_cons hch
    have he' : n.entries = [] ++ e :: es := he
    have hstep := Above.step hlevel he' .nil htp hkp hps habove
    have hpne : p.1 ≠ [] := by
      obtain ⟨a, rest, hp, -⟩ := lowestKey_eq_some hkp
      rw [hp]
      exact List.cons_ne_nil _ _
    obtain ⟨c, hrun, hat⟩ := ih htp hpne hstep
    refine ⟨c, ?_, ?_⟩
    · rw [descend_leftmost, seen_eq_some hn]
      simp only [bind, Except.bind, Node.level, hlevel, ne_eq, not_true_eq_false, if_false,
        Nat.add_eq_zero_iff, one_ne_zero, and_false, pure, Except.pure]
      rw [show (Node.interior n).key_ptr 0 = .ok e from key_ptr_append he']
      exact hrun
    · simpa using hat

/-- Past the subtree, the cursor stands at the first item after it, or does not move. -/
theorem advance_leaf_from_spec {path : List Frame} {level : Nat} {hole before after : List LeafItem}
    (habove : Above (seen read) node_size items path level hole before after) (c : Cursor) :
    (after = [] → advance_leaf_from read c path = .ok c) ∧
    (after ≠ [] → ∃ c', advance_leaf_from read c path = .ok c' ∧
      At (seen read) node_size items c' (before ++ hole) after) := by
  induction habove with
  | root => exact ⟨fun _ => rfl, fun h => absurd rfl h⟩
  | @step path level n es es' e ps ps' q before after hlevel hentries hleft hmid hkey hright habove ih =>
    rw [advance_leaf_from]
    cases es' with
    | nil =>
      -- The child taken was the last one.
      cases hright
      rw [if_neg (by simp [Node.nr_items, Node.keys, hentries])]
      simpa using ih
    | cons e' es' =>
      obtain ⟨q', ps', rfl, hmid', hkey', hright'⟩ := hright.of_cons
      have hne : q'.1 ≠ [] := by
        obtain ⟨a, rest, hp, -⟩ := lowestKey_eq_some hkey'
        rw [hp]
        exact List.cons_ne_nil _ _
      rw [if_pos (by simp [Node.nr_items, Node.keys, hentries])]
      have hentries' : n.entries = (es ++ [e]) ++ e' :: es' := by simp [hentries]
      have hptr := key_ptr_append hentries'
      have hstep := Above.step hlevel hentries' (hleft.append (.cons hmid hkey .nil)) hmid' hkey' hright'
        (by simpa using habove)
      rw [List.length_append, List.length_singleton] at hptr hstep
      obtain ⟨c', hrun, hat⟩ := descend_leftmost_spec level hmid' hne hstep
      refine ⟨fun hnil => absurd hnil (by simp [hne]), fun _ => ⟨c', ?_, ?_⟩⟩
      · rw [hptr]
        simpa [bind, Except.bind, Node.level, hlevel] using hrun
      · simpa using hat

theorem advance_spec {c : Cursor} {before after : List LeafItem} {x : LeafItem}
    (h : At (seen read) node_size items c before (x :: after)) :
    ∃ c', c.advance read = .ok c' ∧ At (seen read) node_size items c' (before ++ [x]) after := by
  have hvalid := h.valid_iff.mpr (by simp)
  obtain ⟨l, i, b, a, hleaf, hle, habove, rfl, hafter, hsettled⟩ := h.split
  have hi := hsettled (by simp)
  rw [List.drop_eq_getElem_cons hi, List.cons_append, List.cons.injEq] at hafter
  obtain ⟨rfl, rfl⟩ := hafter
  have hbefore : b ++ l.items.take i ++ [l.items[i]] = b ++ l.items.take (i + 1) := by
    rw [List.append_assoc, List.take_append_getElem]
  rw [hbefore, advance, if_pos hvalid]
  rcases Nat.lt_or_ge (i + 1) l.items.length with hlt | hge
  · refine ⟨_, if_pos (by simpa [valid, hleaf, Node.nr_items, Node.keys] using hlt), ?_⟩
    exact ⟨l, i + 1, b, a, by simp [hleaf], hlt.le, habove, rfl, rfl, fun _ => hlt⟩
  · -- The leaf is used up.
    rw [if_neg (by simpa [valid, hleaf, Node.nr_items, Node.keys] using hge), advance_leaf]
    have hdrop : l.items.drop (i + 1) = [] := List.drop_eq_nil_iff.mpr hge
    have htake : l.items.take (i + 1) = l.items := List.take_of_length_le hge
    obtain ⟨hstay, hmove⟩ := advance_leaf_from_spec habove { c with leaf := (c.leaf.1, c.leaf.2 + 1) }
    rw [hdrop, htake, List.nil_append]
    by_cases ha : a = []
    · subst ha
      refine ⟨_, hstay rfl, l, i + 1, b, [], by simp [hleaf], by omega, habove, by rw [htake], ?_, ?_⟩
      · rw [hdrop, List.append_nil]
      · exact fun h => absurd rfl h
    · exact hmove ha

/-! ## Search -/

theorem descend_to_spec (key : Key) (level : Nat) {b : Nat} {node : Node} {path : List Frame} {q : Part}
    {before after : List LeafItem} (hread : seen read b = some node)
    (htree : Tree (seen read) node_size level b q) (hsorted : Sorted LeafItem.key q.1)
    (habove : Above (seen read) node_size items path level q.1 before after)
    (hlow : ∀ a ∈ before, a.key < key) (hhigh : ∀ a ∈ after, key ≤ a.key) :
    ∃ c l i b' a', descend_to read key level node path = .ok c ∧ c.leaf = (.leaf l, i) ∧
      i ≤ l.items.length ∧ Above (seen read) node_size items c.path 0 l.items b' a' ∧
      (∀ a ∈ b' ++ l.items.take i, a.key < key) ∧ ∀ a ∈ l.items.drop i ++ a', key ≤ a.key := by
  induction level generalizing b node path q before after with
  | zero =>
    obtain ⟨l, hl, -, rfl⟩ := htree
    rw [hread] at hl
    cases hl
    obtain ⟨i, hrun, hinv⟩ := lower_bound_spec (n := .leaf l) key (List.pairwise_map.mpr hsorted)
    have hle : i ≤ l.items.length := by simpa [Node.keys] using hinv.hi_le
    refine ⟨⟨(.leaf l, i), path⟩, l, i, before, after, ?_, rfl, hle, habove, ?_, ?_⟩
    · simp [descend_to, hrun, bind, Except.bind, pure, Except.pure]
    · intro a ha
      rcases List.mem_append.mp ha with ha | ha
      · exact hlow a ha
      · obtain ⟨j, hj, rfl⟩ := List.mem_iff_getElem.mp ha
        rw [List.length_take] at hj
        exact hinv.small j _ (by omega) (by
          simp only [Node.keys, List.getElem?_map, List.getElem_take]
          rw [List.getElem?_eq_getElem (by omega)]
          rfl)
    · intro a ha
      rcases List.mem_append.mp ha with ha | ha
      · obtain ⟨j, hj, rfl⟩ := List.mem_iff_getElem.mp ha
        rw [List.length_drop] at hj
        exact hinv.large (i + j) _ (by omega) (by
          simp only [Node.keys, List.getElem?_map, List.getElem_drop]
          rw [List.getElem?_eq_getElem (by omega)]
          rfl)
      · exact hhigh a ha
  | succ level ih =>
    obtain ⟨n, parts, hn, hlevel, -, hne, hch, rfl⟩ := htree
    rw [hread] at hn
    cases hn
    obtain ⟨i, es, e, es', ps, p, ps', hrun, rfl, hentries, rfl, hps, htp, hkp, hps', hl, hr⟩ :=
      route key hch hne hsorted
    have hsorted' := hsorted
    rw [itemsOf_append, itemsOf_cons] at hsorted'
    have hp := (sorted_append.mp (sorted_append.mp hsorted').2.1).1
    have hstep := Above.step hlevel hentries hps htp hkp hps' habove
    obtain ⟨child, hchild, hclevel, -⟩ := htp.mem_root
    obtain ⟨c, l, i, b', a', hdown, hrest⟩ := ih hchild htp hp hstep
      (fun a ha => (List.mem_append.mp ha).elim (hlow a) (hl a))
      (fun a ha => (List.mem_append.mp ha).elim (fun h => (hr a h).le) (hhigh a))
    refine ⟨c, l, i, b', a', ?_, hrest⟩
    rw [descend_to, if_neg (by simpa [Node.nr_items, Node.keys] using hne)]
    simp only [hrun, bind, Except.bind, key_ptr_append hentries, seen_eq_some hchild, hclevel, ne_eq,
      not_true_eq_false, if_false]
    exact hdown

theorem search_spec {root level : Nat} (h : WellFormed (seen read) node_size level root items) (key : Key) :
    ∃ c before after, search read root key = .ok c ∧ At (seen read) node_size items c before after ∧
      (∀ a ∈ before, a.key < key) ∧ ∀ a ∈ after, key ≤ a.key := by
  obtain ⟨blocks, htree⟩ := h.tree
  obtain ⟨node, hnode, hlevel, -⟩ := htree.mem_root
  obtain ⟨c, l, i, b, a, hdown, hleaf, hle, habove, hlow, hhigh⟩ := descend_to_spec key level hnode htree
    h.sorted (.root level) (by simp) (by simp)
  have hrun : search read root key = if c.valid then .ok c else c.advance_leaf read := by
    simp only [search, seen_eq_some hnode, bind, Except.bind, hlevel, hdown]
    rfl
  rw [hrun]
  rcases Nat.lt_or_ge i l.items.length with hlt | hge
  · refine ⟨c, _, _, if_pos (by simpa [valid, hleaf, Node.nr_items, Node.keys] using hlt), ?_, hlow, hhigh⟩
    exact ⟨l, i, b, a, hleaf, hle, habove, rfl, rfl, fun _ => hlt⟩
  · rw [if_neg (by simpa [valid, hleaf, Node.nr_items, Node.keys] using hge), advance_leaf]
    have hdrop : l.items.drop i = [] := List.drop_eq_nil_iff.mpr hge
    have htake : l.items.take i = l.items := List.take_of_length_le hge
    obtain ⟨hstay, hmove⟩ := advance_leaf_from_spec habove c
    rw [hdrop, List.nil_append] at hhigh
    rw [htake] at hlow
    by_cases ha : a = []
    · subst ha
      refine ⟨c, b ++ l.items, [], hstay rfl, ⟨l, i, b, [], hleaf, hle, habove, by rw [htake], ?_, ?_⟩,
        hlow, hhigh⟩
      · rw [hdrop, List.append_nil]
      · exact fun h => absurd rfl h
    · obtain ⟨c', hc', hat⟩ := hmove ha
      exact ⟨c', _, _, hc', hat, hlow, hhigh⟩

/-! ## Loops -/

theorem Children.sum_size {es : List InteriorEntry} {parts : List Part} {level : Nat}
    (hsize : ∀ b q, Tree (seen read) node_size level b q → size read level b = q.1.length)
    (h : Children (seen read) node_size level es parts) :
    (es.map fun e => size read level e.blockptr).sum = (itemsOf parts).length := by
  induction es generalizing parts with
  | nil => cases h; rfl
  | cons e es ih =>
    obtain ⟨p, ps, rfl, ht, -, hs⟩ := Btrfs.Children.of_cons h
    simp [ih hs, hsize _ _ ht]

theorem size_eq (level : Nat) {b : Nat} {q : Part} (h : Tree (seen read) node_size level b q) :
    size read level b = q.1.length := by
  induction level generalizing b q with
  | zero =>
    obtain ⟨l, hl, -, rfl⟩ := h
    simp [size, seen_eq_some hl, Except.toOption, Node.nr_items, Node.keys]
  | succ level ih =>
    obtain ⟨n, parts, hn, -, -, -, hch, rfl⟩ := h
    rw [size, seen_eq_some hn]
    exact Children.sum_size (fun _ _ => ih) hch

theorem Above.sum_remaining {path : List Frame} {level : Nat} {hole before after : List LeafItem}
    (h : Above (seen read) node_size items path level hole before after) :
    (path.map (frame_remaining read)).sum = after.length := by
  induction h with
  | root => rfl
  | @step path level n es es' e ps ps' q before after hlevel hentries hleft hmid hkey hright habove ih =>
    have hdrop : n.entries.drop (es.length + 1) = es' := by simp [hentries]
    rw [List.map_cons, List.sum_cons, ih, frame_remaining, hdrop, hlevel, Nat.add_sub_cancel,
      Children.sum_size (fun _ _ => size_eq level) hright, List.length_append]

theorem At.remaining_eq {c : Cursor} {before after : List LeafItem}
    (h : At (seen read) node_size items c before after) : c.remaining read = after.length := by
  obtain ⟨l, i, b, a, hleaf, -, habove, -, rfl, -⟩ := h.split
  simp [remaining, hleaf, habove.sum_remaining, Node.nr_items, Node.keys]

/-- Visit items in order until the visitor stops. -/
def visitAll {σ : Type} (f : σ → LeafItem → Except LuksError (σ × Bool)) :
    σ → List LeafItem → Except LuksError σ
  | s, [] => return s
  | s, x :: rest => do
    let (s, go_on) ← f s x
    if go_on then visitAll f s rest else return s

theorem scan_spec {σ : Type} {body : σ → Key → Cursor → Except LuksError (σ × Bool)}
    {f : σ → LeafItem → Except LuksError (σ × Bool)}
    (hbody : ∀ s c before x after, At (seen read) node_size items c before (x :: after) →
      body s x.key c = f s x) (s : σ) {c : Cursor} {before after : List LeafItem}
    (h : At (seen read) node_size items c before after) :
    c.scan_from read body s = visitAll f s after := by
  rw [scan_from, h.remaining_eq]
  induction after generalizing s c before with
  | nil => rfl
  | cons x after ih =>
    obtain ⟨hkey, -⟩ := h.reads
    have hvalid := h.valid_iff.mpr (by simp)
    obtain ⟨c', hstep, hat⟩ := advance_spec h
    simp only [List.length_cons, scan, visitAll, hvalid, not_true_eq_false, if_false, hkey, bind,
      Except.bind, hbody s c before x after h]
    cases f s x with
    | error e => rfl
    | ok r =>
      obtain ⟨s', go_on⟩ := r
      cases go_on with
      | false => rfl
      | true => simpa [hstep] using ih s' hat

theorem visitAll_append_stop {σ : Type} {f : σ → LeafItem → Except LuksError (σ × Bool)}
    (own : LeafItem → Bool) (hstop : ∀ s x, own x = false → f s x = .ok (s, false)) (s : σ)
    {run rest : List LeafItem} (hrest : ∀ x, rest.head? = some x → own x = false) :
    visitAll f s (run ++ rest) = visitAll f s run := by
  induction run generalizing s with
  | nil =>
    cases rest with
    | nil => rfl
    | cons x rest => simp [visitAll, hstop s x (hrest x rfl), bind, Except.bind]
  | cons x run ih =>
    simp only [List.cons_append, visitAll, ih]

/-! ## Backward -/

theorem descend_rightmost_spec (level : Nat) {ptr : Nat} {path : List Frame} {q : Part}
    {before after pre : List LeafItem} {x : LeafItem}
    (htree : Tree (seen read) node_size level ptr q) (hq : q.1 = pre ++ [x])
    (habove : Above (seen read) node_size items path level q.1 before after) :
    ∃ c, descend_rightmost read (level + 1) ptr path = .ok c ∧
      At (seen read) node_size items c (before ++ pre) (x :: after) := by
  induction level generalizing ptr path q before after pre with
  | zero =>
    obtain ⟨l, hl, -, rfl⟩ := htree
    have hitems : l.items = pre ++ [x] := hq
    refine ⟨⟨(.leaf l, pre.length), path⟩, ?_, ⟨l, pre.length, before, after, rfl, by simp [hitems],
      habove, by simp [hitems], by simp [hitems], by simp [hitems]⟩⟩
    simp [descend_rightmost, seen_eq_some hl, bind, Except.bind, Node.level, pure, Except.pure,
      Node.nr_items, Node.keys, hitems]
  | succ level ih =>
    obtain ⟨n, parts, hn, hlevel, -, hentries, hch, rfl⟩ := htree
    obtain ⟨es, e, he⟩ := (List.eq_nil_or_concat' n.entries).resolve_left hentries
    rw [he] at hch
    obtain ⟨ps, qs, rfl, hps, hqs⟩ := Children.of_append hch
    obtain ⟨p, qs, rfl, htp, hkp, hnil⟩ := hqs.of_cons
    cases hnil
    have hstep := Above.step hlevel he hps htp hkp .nil habove
    -- The last item is the last one of the last child.
    have hpne : p.1 ≠ [] := by
      obtain ⟨a, rest, hp, -⟩ := lowestKey_eq_some hkp
      rw [hp]
      exact List.cons_ne_nil _ _
    obtain ⟨pre', y, hp⟩ := (List.eq_nil_or_concat' p.1).resolve_left hpne
    have hparts : itemsOf (ps ++ [p]) = itemsOf ps ++ pre' ++ [y] := by simp [hp]
    rw [hparts] at hq
    obtain ⟨rfl, hxy⟩ := List.append_inj' hq (by simp)
    cases hxy
    obtain ⟨c, hrun, hat⟩ := ih htp hp hstep
    refine ⟨c, ?_, by simpa using hat⟩
    have hlast : n.entries.length - 1 = es.length := by simp [he]
    rw [descend_rightmost, seen_eq_some hn]
    simp only [bind, Except.bind, Node.level, hlevel, ne_eq, not_true_eq_false, if_false, Node.nr_items,
      Node.keys, List.length_map, List.length_eq_zero_iff, hentries, Nat.add_eq_zero_iff, one_ne_zero,
      and_false, pure, Except.pure, hlast, key_ptr_append he]
    exact hrun

theorem retreat_leaf_spec {path : List Frame} {level : Nat} {hole before after : List LeafItem}
    (habove : Above (seen read) node_size items path level hole before after) (f : Frame) :
    (before = [] → ∃ c, retreat_leaf read f path = .ok c ∧ c.valid = false) ∧
    ∀ pre x, before = pre ++ [x] → ∃ c, retreat_leaf read f path = .ok c ∧
      At (seen read) node_size items c pre (x :: (hole ++ after)) := by
  induction habove generalizing f with
  | root =>
    refine ⟨fun _ => ⟨⟨(f.1, f.1.nr_items), []⟩, rfl, by simp [valid]⟩, ?_⟩
    intro pre x h
    simp at h
  | @step path level n es es' e ps ps' q before after hlevel hentries hleft hmid hkey hright habove ih =>
    rw [retreat_leaf]
    rcases List.eq_nil_or_concat' es with rfl | ⟨es, e₀, rfl⟩
    · -- The child taken was the first one.
      cases hleft
      simpa using ih (.interior n, 0)
    · obtain ⟨ps, qs, rfl, hps, hqs⟩ := hleft.of_append
      obtain ⟨q₀, qs, rfl, hmid₀, hkey₀, hnil⟩ := hqs.of_cons
      cases hnil
      have hne : q₀.1 ≠ [] := by
        obtain ⟨a, rest, hp, -⟩ := lowestKey_eq_some hkey₀
        rw [hp]
        exact List.cons_ne_nil _ _
      obtain ⟨pre₀, y, hq₀⟩ := (List.eq_nil_or_concat' q₀.1).resolve_left hne
      have hentries₀ : n.entries = es ++ e₀ :: e :: es' := by simp [hentries]
      have hstep := Above.step hlevel hentries₀ hps hmid₀ hkey₀ (.cons hmid hkey hright)
        (by simpa using habove)
      obtain ⟨c, hrun, hat⟩ := descend_rightmost_spec level hmid₀ hq₀ hstep
      have hbefore : before ++ itemsOf (ps ++ [q₀]) = before ++ itemsOf ps ++ pre₀ ++ [y] := by
        simp [hq₀]
      rw [if_neg (by simp), List.length_append, List.length_singleton, Nat.add_sub_cancel,
        key_ptr_append hentries₀, hbefore]
      constructor
      · intro hnil
        simp at hnil
      · intro pre x hpre
        obtain ⟨rfl, hxy⟩ := List.append_inj' hpre (by simp)
        cases hxy
        refine ⟨c, ?_, by simpa using hat⟩
        simpa [bind, Except.bind, Node.level, hlevel] using hrun

theorem retreat_spec {c : Cursor} {before after : List LeafItem} {x : LeafItem}
    (h : At (seen read) node_size items c (before ++ [x]) after) :
    ∃ c', c.retreat read = .ok c' ∧ At (seen read) node_size items c' before (x :: after) := by
  obtain ⟨l, i, b, a, hleaf, hle, habove, hbefore, rfl, -⟩ := h.split
  rw [retreat, hleaf]
  rcases Nat.eq_zero_or_pos i with rfl | hpos
  · rw [if_neg (by simp)]
    rw [List.take_zero, List.append_nil] at hbefore
    obtain ⟨c', hrun, hat⟩ := (retreat_leaf_spec habove (.leaf l, 0)).2 before x hbefore.symm
    exact ⟨c', hrun, by simpa using hat⟩
  · rw [if_pos hpos]
    have hlt : i - 1 < l.items.length := by omega
    have htake : l.items.take i = l.items.take (i - 1) ++ [l.items[i - 1]] := by
      rw [List.take_append_getElem, Nat.sub_add_cancel hpos]
    rw [htake, ← List.append_assoc] at hbefore
    obtain ⟨rfl, hx⟩ := List.append_inj' hbefore (by simp)
    cases hx
    refine ⟨_, rfl, l, i - 1, b, a, rfl, by omega, habove, rfl, ?_, fun _ => hlt⟩
    rw [List.drop_eq_getElem_cons hlt, Nat.sub_add_cancel hpos, List.cons_append]

theorem retreat_start {c : Cursor} {after : List LeafItem}
    (h : At (seen read) node_size items c [] after) :
    ∃ c', c.retreat read = .ok c' ∧ c'.valid = false := by
  obtain ⟨l, i, b, a, hleaf, hle, habove, hbefore, rfl, hsettled⟩ := h.split
  obtain ⟨rfl, htake⟩ := List.append_eq_nil_iff.mp hbefore.symm
  rw [retreat, hleaf]
  rcases Nat.eq_zero_or_pos i with rfl | hpos
  · rw [if_neg (by simp)]
    exact (retreat_leaf_spec habove (.leaf l, 0)).1 rfl
  · -- A cursor past the start of its leaf has items before it.
    rw [List.take_eq_nil_iff] at htake
    have hnil := htake.resolve_left (by omega)
    rw [hnil, List.length_nil] at hle
    omega

end Cursor

/-! ## The operations of a mounted filesystem -/

section Operations

variable {read : Reader} {node_size root level : Nat} {items : List LeafItem}

/-- The items of one type that belong to `objectid`. -/
def itemsFor (objectid item_type : Nat) (items : List LeafItem) : List LeafItem :=
  items.filter fun a => a.key.objectid = objectid ∧ a.key.item_type = item_type

theorem itemsFor_eq_takeWhile {objectid item_type : Nat} {items : List LeafItem}
    (hs : Sorted LeafItem.key items) (hge : ∀ a ∈ items, (⟨objectid, item_type, 0⟩ : Key) ≤ a.key) :
    itemsFor objectid item_type items =
      items.takeWhile fun a => a.key.objectid = objectid ∧ a.key.item_type = item_type := by
  induction items with
  | nil => rfl
  | cons x items ih =>
    obtain ⟨hlt, hs⟩ := sorted_cons.mp hs
    rw [itemsFor, List.filter_cons, List.takeWhile_cons]
    by_cases hx : x.key.objectid = objectid ∧ x.key.item_type = item_type
    · simp only [hx, and_self, decide_true, if_true, List.cons.injEq, true_and]
      exact ih hs fun a ha => hge a (List.mem_cons_of_mem _ ha)
    · simp only [hx, decide_false, Bool.false_eq_true, if_false, List.filter_eq_nil_iff]
      intro a ha
      have h1 := hge x (by simp)
      have h2 := hlt a ha
      rw [← not_lt, Key.lt_iff] at h1
      rw [Key.lt_iff] at h2
      dsimp only at h1
      simp only [decide_eq_true_eq]
      omega

theorem visitAll_congr {σ : Type} {f g : σ → LeafItem → Except LuksError (σ × Bool)}
    {items : List LeafItem} (h : ∀ s, ∀ x ∈ items, f s x = g s x) (s : σ) :
    Cursor.visitAll f s items = Cursor.visitAll g s items := by
  induction items generalizing s with
  | nil => rfl
  | cons x items ih =>
    simp only [Cursor.visitAll, h s x (by simp)]
    simp only [ih fun s y hy => h s y (List.mem_cons_of_mem _ hy)]

theorem for_each_item_spec {σ : Type} (h : WellFormed (seen read) node_size level root items)
    (objectid item_type : Nat) (visit : σ → Key → Bytes → Except LuksError (σ × Bool)) (s : σ) :
    for_each_item read root objectid item_type visit s =
      Cursor.visitAll (fun s x => visit s x.key x.data) s (itemsFor objectid item_type items) := by
  obtain ⟨c, before, after, hrun, hat, hlow, hhigh⟩ := Cursor.search_spec h ⟨objectid, item_type, 0⟩
  let own : LeafItem → Bool := fun a => a.key.objectid = objectid ∧ a.key.item_type = item_type
  have hsorted := h.sorted
  rw [hat.items_eq] at hsorted
  have hrunItems : itemsFor objectid item_type items = after.takeWhile own := by
    rw [← itemsFor_eq_takeWhile (sorted_append.mp hsorted).2.1 hhigh, hat.items_eq, itemsFor,
      List.filter_append, List.filter_eq_nil_iff.mpr, List.nil_append, itemsFor]
    intro a ha
    have hlt := Key.lt_iff.mp (hlow a ha)
    dsimp only at hlt
    simp only [decide_eq_true_eq]
    omega
  rw [for_each_item, hrun, hrunItems]
  change Cursor.scan_from read _ s c = _
  rw [Cursor.scan_spec (f := fun s x => if own x then visit s x.key x.data else .ok (s, false)) ?_ s hat]
  · rw [← List.takeWhile_append_dropWhile (p := own) (l := after)]
    rw [Cursor.visitAll_append_stop own (fun s x hx => by simp [hx]), List.takeWhile_append_dropWhile]
    · refine visitAll_congr (fun s x hx => ?_) s
      rw [if_pos (List.mem_takeWhile_imp hx)]
    · intro x hx
      simpa using List.head?_dropWhile_not own after |> fun h => by rw [hx] at h; simpa using h
  · intro s c before x after hat
    obtain ⟨-, hdata⟩ := hat.reads
    by_cases hx : x.key.objectid = objectid ∧ x.key.item_type = item_type
    · simp [own, hx, hdata, bind, Except.bind]
    · have hx' : x.key.objectid ≠ objectid ∨ x.key.item_type ≠ item_type := by
        rw [ne_eq, ne_eq, ← not_and_or]
        exact hx
      simp [own, hx, hx', pure, Except.pure]

end Operations

end LuksAndroid.Btrfs
