import LuksAndroid.Btrfs.Cow.Code

/-!
# What a tree of blocks holds

A tree is what the reader finds from a root address and a level: the items in
order, and the blocks on the way. The items say everything about the map that the
tree stands for. The blocks say which memory it depends on.
-/

namespace LuksAndroid.Btrfs

open Keyed

/-- Blocks by address, as some reader sees them. -/
abbrev Memory := Nat → Option Node

/-- Pending blocks first, then the device. -/
def view (fs : BtrfsView) (pending : Pending) : Memory := fun b => (read_node fs pending b).toOption

/-- The items below one entry of a node, and the blocks that hold them. -/
abbrev Part := List LeafItem × List Nat

def itemsOf (parts : List Part) : List LeafItem := (parts.map Prod.fst).flatten

def blocksOf (parts : List Part) : List Nat := (parts.map Prod.snd).flatten

def lowestKey (items : List LeafItem) : Option Key := items.head?.map (·.key)

/-- The tree at address `b` and level `level` of the memory. Every node fits, a child is one level
below its parent, an entry's key is the lowest key of its child, and only a root leaf is empty. -/
def Tree (mem : Memory) (node_size : Nat) : Nat → Nat → Part → Prop
  | 0, b, p => ∃ l, mem b = some (.leaf l) ∧ leaf_payload_bytes l.items ≤ node_size ∧
      p = (l.items, [b])
  | level + 1, b, p => ∃ n parts, mem b = some (.interior n) ∧ n.level = level + 1 ∧
      HEADER_SIZE + n.entries.length * KEY_PTR_SIZE ≤ node_size ∧ n.entries ≠ [] ∧
      List.Forall₂ (fun e q => Tree mem node_size level e.blockptr q ∧ lowestKey q.1 = some e.key)
        n.entries parts ∧
      p = (itemsOf parts, b :: blocksOf parts)

/-- The subtrees of the entries of a node. -/
def Children (mem : Memory) (node_size level : Nat) (entries : List InteriorEntry)
    (parts : List Part) : Prop :=
  List.Forall₂ (fun e q => Tree mem node_size level e.blockptr q ∧ lowestKey q.1 = some e.key)
    entries parts

/-- A well-formed tree whose items are `items`, in strict key order. -/
structure WellFormed (mem : Memory) (node_size level root : Nat) (items : List LeafItem) : Prop where
  sorted : Sorted LeafItem.key items
  tree : ∃ blocks, Tree mem node_size level root (items, blocks)

/-! ## Small facts -/

@[simp] theorem itemsOf_nil : itemsOf [] = [] := rfl

@[simp] theorem itemsOf_cons (p : Part) (l : List Part) : itemsOf (p :: l) = p.1 ++ itemsOf l := rfl

@[simp] theorem itemsOf_append (l m : List Part) : itemsOf (l ++ m) = itemsOf l ++ itemsOf m := by
  simp [itemsOf]

@[simp] theorem blocksOf_nil : blocksOf [] = [] := rfl

@[simp] theorem blocksOf_cons (p : Part) (l : List Part) :
    blocksOf (p :: l) = p.2 ++ blocksOf l := rfl

@[simp] theorem blocksOf_append (l m : List Part) :
    blocksOf (l ++ m) = blocksOf l ++ blocksOf m := by
  simp [blocksOf]

theorem mem_itemsOf {parts : List Part} {a : LeafItem} :
    a ∈ itemsOf parts ↔ ∃ p ∈ parts, a ∈ p.1 := by
  simp [itemsOf]

theorem mem_blocksOf {parts : List Part} {x : Nat} :
    x ∈ blocksOf parts ↔ ∃ p ∈ parts, x ∈ p.2 := by
  rw [blocksOf, List.mem_flatten]
  constructor
  · rintro ⟨l, hl, hx⟩
    obtain ⟨p, hp, rfl⟩ := List.mem_map.mp hl
    exact ⟨p, hp, hx⟩
  · rintro ⟨p, hp, hx⟩
    exact ⟨p.2, List.mem_map_of_mem hp, hx⟩

theorem lowestKey_eq_some {items : List LeafItem} {k : Key} (h : lowestKey items = some k) :
    ∃ a rest, items = a :: rest ∧ a.key = k := by
  cases items with
  | nil => simp [lowestKey] at h
  | cons a rest => exact ⟨a, rest, rfl, by simpa [lowestKey] using h⟩

theorem lowestKey_append {l m : List LeafItem} {k : Key} (h : lowestKey l = some k) :
    lowestKey (l ++ m) = some k := by
  obtain ⟨a, rest, rfl, rfl⟩ := lowestKey_eq_some h
  rfl

namespace Children

variable {mem : Memory} {node_size level : Nat}

theorem append {e₁ e₂ : List InteriorEntry} {p₁ p₂ : List Part}
    (h₁ : Children mem node_size level e₁ p₁) (h₂ : Children mem node_size level e₂ p₂) :
    Children mem node_size level (e₁ ++ e₂) (p₁ ++ p₂) :=
  List.rel_append h₁ h₂

theorem of_append {e₁ e₂ : List InteriorEntry} {parts : List Part}
    (h : Children mem node_size level (e₁ ++ e₂) parts) :
    ∃ p₁ p₂, parts = p₁ ++ p₂ ∧ Children mem node_size level e₁ p₁ ∧
      Children mem node_size level e₂ p₂ := by
  induction e₁ generalizing parts with
  | nil => exact ⟨[], parts, rfl, List.Forall₂.nil, h⟩
  | cons e e₁ ih =>
    cases h with
    | cons hc hs =>
      obtain ⟨p₁, p₂, rfl, h₁, h₂⟩ := ih hs
      exact ⟨_ :: p₁, p₂, rfl, List.Forall₂.cons hc h₁, h₂⟩

theorem of_cons {e : InteriorEntry} {es : List InteriorEntry} {parts : List Part}
    (h : Children mem node_size level (e :: es) parts) :
    ∃ p ps, parts = p :: ps ∧ Tree mem node_size level e.blockptr p ∧
      lowestKey p.1 = some e.key ∧ Children mem node_size level es ps := by
  cases h with
  | cons h hs => exact ⟨_, _, rfl, h.1, h.2, hs⟩

theorem cons {e : InteriorEntry} {es : List InteriorEntry} {p : Part} {ps : List Part}
    (h : Tree mem node_size level e.blockptr p) (hk : lowestKey p.1 = some e.key)
    (hs : Children mem node_size level es ps) :
    Children mem node_size level (e :: es) (p :: ps) :=
  List.Forall₂.cons ⟨h, hk⟩ hs

theorem nil : Children mem node_size level [] [] := List.Forall₂.nil

theorem lowestKey_eq {e : InteriorEntry} {es : List InteriorEntry} {parts : List Part}
    (h : Children mem node_size level (e :: es) parts) : lowestKey (itemsOf parts) = some e.key := by
  obtain ⟨p, ps, rfl, -, hk, -⟩ := h.of_cons
  exact lowestKey_append hk

end Children

/-! ## The tree depends on its blocks only -/

theorem Tree.frame {mem mem' : Memory} {node_size level b : Nat} {p : Part}
    (h : Tree mem node_size level b p) (heq : ∀ x ∈ p.2, mem' x = mem x) :
    Tree mem' node_size level b p := by
  induction level generalizing b p with
  | zero =>
    obtain ⟨l, hl, hfit, rfl⟩ := h
    exact ⟨l, by rw [heq b (by simp), hl], hfit, rfl⟩
  | succ level ih =>
    obtain ⟨n, parts, hn, hlevel, hfit, hne, hch, rfl⟩ := h
    refine ⟨n, parts, by rw [heq b (by simp), hn], hlevel, hfit, hne, ?_, rfl⟩
    rw [List.forall₂_iff_get] at hch ⊢
    refine ⟨hch.1, fun i hi hi' => ⟨ih (hch.2 i hi hi').1 fun x hx => heq x ?_, (hch.2 i hi hi').2⟩⟩
    exact List.mem_cons_of_mem _ (mem_blocksOf.mpr ⟨_, List.get_mem _ _, hx⟩)

theorem Children.frame {mem mem' : Memory} {node_size level : Nat} {es : List InteriorEntry}
    {parts : List Part} (h : Children mem node_size level es parts)
    (heq : ∀ x ∈ blocksOf parts, mem' x = mem x) : Children mem' node_size level es parts := by
  induction es generalizing parts with
  | nil => cases h; exact .nil
  | cons e es ih =>
    obtain ⟨p, ps, rfl, ht, hk, hs⟩ := h.of_cons
    exact .cons (ht.frame fun x hx => heq x (by simp [hx])) hk
      (ih hs fun x hx => heq x (by simp [hx]))

/-! ## No block occurs twice -/

theorem Tree.mem_root {mem : Memory} {node_size level b : Nat} {p : Part}
    (h : Tree mem node_size level b p) : ∃ n, mem b = some n ∧ n.level = level ∧ b ∈ p.2 := by
  cases level with
  | zero =>
    obtain ⟨l, hl, -, rfl⟩ := h
    exact ⟨_, hl, rfl, by simp⟩
  | succ level =>
    obtain ⟨n, parts, hn, hlevel, -, -, -, rfl⟩ := h
    exact ⟨_, hn, hlevel, by simp⟩

theorem Tree.unique {mem : Memory} {node_size level b : Nat} {p q : Part}
    (h : Tree mem node_size level b p) (h' : Tree mem node_size level b q) : p = q := by
  induction level generalizing b p q with
  | zero =>
    obtain ⟨l, hl, -, rfl⟩ := h
    obtain ⟨l', hl', -, rfl⟩ := h'
    rw [hl] at hl'
    cases hl'
    rfl
  | succ level ih =>
    obtain ⟨n, parts, hn, -, -, -, hch, rfl⟩ := h
    obtain ⟨n', parts', hn', -, -, -, hch', rfl⟩ := h'
    rw [hn] at hn'
    cases hn'
    have hparts : parts = parts' := by
      clear hn
      generalize n.entries = es at hch hch'
      induction hch generalizing parts' with
      | nil => cases hch'; rfl
      | cons hc _ ihc =>
        cases hch' with
        | cons hc' hs' => rw [ih hc.1 hc'.1, ihc _ hs']
    rw [hparts]

/-- Every block of a tree is the root of a subtree whose items are among the tree's, and which is
not empty unless the tree is. -/
theorem Tree.subtree {mem : Memory} {node_size level b : Nat} {p : Part}
    (h : Tree mem node_size level b p) {x : Nat} (hx : x ∈ p.2) :
    ∃ l ≤ level, ∃ q, Tree mem node_size l x q ∧ (∀ a ∈ q.1, a ∈ p.1) ∧ (q.1 = [] → p.1 = []) := by
  induction level generalizing b p with
  | zero =>
    obtain ⟨l, hl, hfit, rfl⟩ := h
    rw [List.mem_singleton] at hx
    subst hx
    exact ⟨0, le_refl _, _, ⟨l, hl, hfit, rfl⟩, fun a ha => ha, id⟩
  | succ level ih =>
    obtain ⟨n, parts, hn, hlevel, hfit, hne, hch, rfl⟩ := h
    rcases List.mem_cons.mp hx with rfl | hx
    · exact ⟨level + 1, le_refl _, _, ⟨n, parts, hn, hlevel, hfit, hne, hch, rfl⟩, fun a ha => ha, id⟩
    · obtain ⟨q, hq, hxq⟩ := mem_blocksOf.mp hx
      obtain ⟨i, hi, rfl⟩ := List.mem_iff_get.mp hq
      obtain ⟨hlen, hget⟩ := List.forall₂_iff_get.mp hch
      obtain ⟨htree, hkey⟩ := hget i (by rw [hlen]; exact i.2) i.2
      obtain ⟨l, hl, q, hq', hsub, hempty⟩ := ih htree hxq
      obtain ⟨a, rest, heq, -⟩ := lowestKey_eq_some hkey
      refine ⟨l, by omega, q, hq', fun a ha => mem_itemsOf.mpr ⟨_, hq, hsub a ha⟩, ?_⟩
      intro hnil
      have := hempty hnil
      rw [heq] at this
      cases this

/-- Disjoint items mean disjoint blocks: a shared block would hold the same items twice. -/
theorem Tree.disjoint_blocks {mem : Memory} {node_size l₁ l₂ b₁ b₂ : Nat} {p q : Part}
    (h₁ : Tree mem node_size l₁ b₁ p) (h₂ : Tree mem node_size l₂ b₂ q) (hne : p.1 ≠ [])
    (hdisj : ∀ a ∈ p.1, a ∉ q.1) : ∀ x ∈ p.2, x ∉ q.2 := by
  intro x hx hx'
  obtain ⟨l, -, r, hr, hsub, hempty⟩ := h₁.subtree hx
  obtain ⟨l', -, r', hr', hsub', -⟩ := h₂.subtree hx'
  obtain ⟨n, hn, hl, -⟩ := hr.mem_root
  obtain ⟨n', hn', hl', -⟩ := hr'.mem_root
  rw [hn] at hn'
  cases hn'
  have hll : l = l' := hl.symm.trans hl'
  subst hll
  have hrr := hr.unique hr'
  cases hitems : r.1 with
  | nil => exact hne (hempty hitems)
  | cons a rest =>
    have ha : a ∈ r.1 := by simp [hitems]
    exact hdisj a (hsub a ha) (hsub' a (hrr ▸ ha))

theorem Children.nodup {mem : Memory} {node_size level : Nat} {es : List InteriorEntry}
    {parts : List Part} (h : Children mem node_size level es parts)
    (hs : Sorted LeafItem.key (itemsOf parts))
    (htree : ∀ e p, Tree mem node_size level e p → Sorted LeafItem.key p.1 → p.2.Nodup) :
    (blocksOf parts).Nodup := by
  induction es generalizing parts with
  | nil => cases h; exact List.nodup_nil
  | cons e es ih =>
    obtain ⟨p, ps, rfl, ht, hk, hch⟩ := h.of_cons
    obtain ⟨h1, h2, h3⟩ := sorted_append.mp hs
    rw [blocksOf_cons, List.nodup_append']
    refine ⟨htree _ _ ht h1, ih hch h2, ?_⟩
    obtain ⟨a, rest, hp, -⟩ := lowestKey_eq_some hk
    intro x hx hx'
    obtain ⟨q, hq, hxq⟩ := mem_blocksOf.mp hx'
    obtain ⟨i, hi, rfl⟩ := List.mem_iff_get.mp hq
    obtain ⟨hlen, hget⟩ := List.forall₂_iff_get.mp hch
    have htq := (hget i (by rw [hlen]; exact i.2) i.2).1
    refine ht.disjoint_blocks htq (by simp [hp]) ?_ x hx hxq
    intro c hc hc'
    exact lt_irrefl _ (h3 c hc c (mem_itemsOf.mpr ⟨_, hq, hc'⟩))

theorem Tree.nodup {mem : Memory} {node_size level b : Nat} {p : Part}
    (h : Tree mem node_size level b p) (hs : Sorted LeafItem.key p.1) : p.2.Nodup := by
  induction level generalizing b p with
  | zero =>
    obtain ⟨l, -, -, rfl⟩ := h
    exact List.nodup_singleton b
  | succ level ih =>
    obtain ⟨n, parts, hn, hlevel, hfit, hne, hch, rfl⟩ := h
    refine List.nodup_cons.mpr ⟨?_, Children.nodup hch hs fun _ _ ht hst => ih ht hst⟩
    intro hb
    -- The root is one level above every block below it.
    obtain ⟨q, hq, hbq⟩ := mem_blocksOf.mp hb
    obtain ⟨i, hi, rfl⟩ := List.mem_iff_get.mp hq
    obtain ⟨hlen, hget⟩ := List.forall₂_iff_get.mp hch
    obtain ⟨l, hl, r, hr, -, -⟩ := (hget i (by rw [hlen]; exact i.2) i.2).1.subtree hbq
    obtain ⟨n', hn', hl', -⟩ := hr.mem_root
    rw [hn] at hn'
    cases hn'
    have : n.level = l := hl'
    omega

end LuksAndroid.Btrfs
