import LuksAndroid.Ext4.Descent
import LuksAndroid.Ext4.Quiet
import LuksAndroid.Lib.Stretches

/-!
# Extent trees

What an extent tree says: a list of extents in order, of which every index entry names the
first block of its part. `map_run_extents` finds the run that begins at a block, as long as
the first key of the root is not above that block.
-/

namespace LuksAndroid.Ext4

open Word

variable {cap : Nat} {known : Bool} {sb : Superblock} {m : Disk} {node : Bytes} {l : Nat}

/-! ## What a node says -/

def leaf_stretch (node : Bytes) (i : Nat) : Stretch where
  block := node.get (12 + i * 12) 4
  len := (extent_len (node.get (12 + i * 12 + 4) 2)).1
  start :=
    if (extent_len (node.get (12 + i * 12 + 4) 2)).2 then
      some (node.get (12 + i * 12 + 8) 4 + node.get (12 + i * 12 + 6) 2 * 2 ^ 32)
    else none

def leaf_stretches (node : Bytes) : List Stretch := (List.range (node.get 2 2)).map (leaf_stretch node)

def index_key (node : Bytes) (i : Nat) : Nat := node.get (12 + i * 12) 4

def index_ptr (node : Bytes) (i : Nat) : Nat :=
  node.get (12 + i * 12 + 4) 4 + node.get (12 + i * 12 + 8) 2 * 2 ^ 32

structure Header (node : Bytes) (depth : Nat) : Prop where
  magic : node.get 0 2 = EXTENT_MAGIC
  entries : 12 + node.get 2 2 * 12 ≤ node.length
  depth : node.get 6 2 = depth

/-- The tree of this depth below `node` says `exts`. -/
def TreeAt (sb : Superblock) (cap : Nat) (m : Disk) : Nat → Bytes → List Stretch → Prop
  | 0, node, exts => Header node 0 ∧ exts = leaf_stretches node
  | depth + 1, node, exts => Header node (depth + 1) ∧ ∃ parts : List (List Stretch),
      exts = parts.flatten ∧ parts.length = node.get 2 2 ∧ parts ≠ [] ∧
      ∀ i part, parts[i]? = some part →
        (∃ e ∈ part.head?, e.block = index_key node i) ∧
        ∃ child, block_bytes sb cap m (index_ptr node i) = some child ∧ TreeAt sb cap m depth child part

theorem leaf_stretch_stop_le (node : Bytes) (i : Nat) : (leaf_stretch node i).stop ≤ 2 ^ 33 := by
  have hblock := Bytes.get_lt node (12 + i * 12) 4
  have hlen := Bytes.get_lt node (12 + i * 12 + 4) 2
  unfold Stretch.stop leaf_stretch extent_len
  simp only
  split <;> simp only <;> omega

theorem TreeAt.stop_le {depth : Nat} {exts : List Stretch} (h : TreeAt sb cap m depth node exts) :
    ∀ e ∈ exts, e.stop ≤ 2 ^ 33 := by
  induction depth generalizing node exts with
  | zero =>
    obtain ⟨-, rfl⟩ := h
    intro e he
    obtain ⟨i, -, rfl⟩ := List.mem_map.mp he
    exact leaf_stretch_stop_le node i
  | succ depth ih =>
    obtain ⟨-, parts, rfl, -, -, hparts⟩ := h
    intro e he
    obtain ⟨part, hpart, he⟩ := List.mem_flatten.mp he
    obtain ⟨i, hi⟩ := List.mem_iff_getElem?.mp hpart
    obtain ⟨-, child, -, htree⟩ := hparts i part hi
    exact ih htree e he

theorem TreeAt.first_key {depth : Nat} {exts : List Stretch} (h : TreeAt sb cap m (depth + 1) node exts) :
    ∃ e ∈ exts.head?, e.block = index_key node 0 := by
  obtain ⟨-, parts, rfl, -, hparts, htree⟩ := h
  cases parts with
  | nil => exact absurd rfl hparts
  | cons part rest =>
    obtain ⟨⟨e, he, hkey⟩, -⟩ := htree 0 part rfl
    refine ⟨e, ?_, hkey⟩
    cases part with
    | nil => cases he
    | cons x xs => exact he

/-! ## Leaves -/

theorem leaf_run_runAt (is : List Nat) (hord : Stretches.Ordered (is.map (leaf_stretch node))) :
    Stretches.RunAt (is.map (leaf_stretch node)) l (leaf_run node l is).1 (leaf_run node l is).2 := by
  induction is with
  | nil => exact .nil l
  | cons i rest ih =>
    have hrest := ih (List.pairwise_cons.mp hord).2
    have hlen : (leaf_stretch node i).len = (extent_len (node.get (12 + i * 12 + 4) 2)).1 := rfl
    have hblock : (leaf_stretch node i).block = node.get (12 + i * 12) 4 := rfl
    have hstop : (leaf_stretch node i).stop = (leaf_stretch node i).block + (leaf_stretch node i).len := rfl
    rw [List.map_cons, leaf_run]
    simp only
    rw [← hlen, ← hblock]
    by_cases hempty : (leaf_stretch node i).len = 0
    · rw [if_pos hempty]
      exact hrest.cons_empty hempty
    rw [if_neg hempty]
    split
    case isTrue hcovers =>
      have hrest_len : (leaf_stretch node i).stop - l =
          (leaf_stretch node i).len - (l - (leaf_stretch node i).block) := by omega
      have hrun := @Stretches.RunAt.of_covers _ (rest.map (leaf_stretch node)) _
        (decide_eq_true (hstop ▸ hcovers))
      rw [hrest_len] at hrun
      by_cases hinit : (extent_len (node.get (12 + i * 12 + 4) 2)).2 = true
      · have hstart : (leaf_stretch node i).start = some _ := if_pos hinit
        rw [if_neg (not_not_intro hinit)]
        rw [hstart] at hrun
        exact hrun
      · have hstart : (leaf_stretch node i).start = none := if_neg hinit
        rw [if_pos hinit]
        rw [hstart] at hrun
        exact hrun
    case isFalse hmiss =>
      split
      case isTrue hlt => exact .of_lt hord hlt
      case isFalse hge =>
        apply hrest.cons
        omega

/-! ## Index nodes -/

theorem index_child_cons (i : Nat) (rest : List Nat) (next : Option Nat) :
    index_child node l (i :: rest) next =
      if index_key node i ≤ l then index_child node l rest (some (index_ptr node i)) else next := rfl

theorem index_child_append (pre post : List Nat) (i : Nat) (next : Option Nat)
    (hpre : ∀ j ∈ pre, index_key node j ≤ l) (hi : index_key node i ≤ l)
    (hpost : ∀ j ∈ post.head?, l < index_key node j) :
    index_child node l (pre ++ i :: post) next = some (index_ptr node i) := by
  induction pre generalizing next with
  | nil =>
    rw [List.nil_append, index_child_cons, if_pos hi]
    cases post with
    | nil => rfl
    | cons j rest =>
      have hj : l < index_key node j := hpost j rfl
      rw [index_child_cons, if_neg (Nat.not_le_of_lt hj)]
  | cons j rest ih =>
    rw [List.cons_append, index_child_cons, if_pos (hpre j List.mem_cons_self)]
    exact ih _ fun k hk => hpre k (List.mem_cons_of_mem j hk)

theorem index_child_none {n : Nat} (h : l < index_key node 0) :
    index_child node l (List.range (n + 1)) none = none := by
  rw [List.range_succ_eq_map, index_child_cons, if_neg (Nat.not_le_of_lt h)]

theorem exists_last_le {n : Nat} {key : Nat → Nat} (hgrow : ∀ i j, i < j → j < n → key i ≤ key j)
    (hn : 0 < n) (h0 : key 0 ≤ l) :
    ∃ i < n, (∀ j ≤ i, key j ≤ l) ∧ ∀ j, i < j → j < n → l < key j := by
  have hle := Nat.findGreatest_le (P := fun i => key i ≤ l) (n - 1)
  have hspec : key (Nat.findGreatest (fun i => key i ≤ l) (n - 1)) ≤ l :=
    Nat.findGreatest_spec (P := fun i => key i ≤ l) (Nat.zero_le (n - 1)) h0
  refine ⟨Nat.findGreatest (fun i => key i ≤ l) (n - 1), by omega, ?_, ?_⟩
  · intro j hj
    rcases Nat.lt_or_eq_of_le hj with hj | rfl
    · exact (hgrow j _ hj (by omega)).trans hspec
    · exact hspec
  · intro j hj hjn
    have hmax := Nat.findGreatest_is_greatest (P := fun i => key i ≤ l) hj (by omega)
    omega

theorem range_split {i n : Nat} (h : i < n) :
    ∃ post, List.range n = List.range i ++ i :: post ∧ ∀ j ∈ post, i < j ∧ j < n := by
  refine ⟨(List.range (n - i - 1)).map (i + 1 + ·), ?_, ?_⟩
  · have hn : n = (i + 1) + (n - i - 1) := by omega
    conv_lhs => rw [hn, List.range_add, List.range_succ, List.append_assoc, List.singleton_append]
  · intro j hj
    obtain ⟨k, hk, rfl⟩ := List.mem_map.mp hj
    have hlt := List.mem_range.mp hk
    omega

/-! ## The parts of a tree -/

section

variable {parts : List (List Stretch)} {i : Nat} {part : List Stretch}

theorem flatten_split (hi : parts[i]? = some part) :
    parts.flatten = (parts.take i).flatten ++ part ++ (parts.drop (i + 1)).flatten := by
  obtain ⟨hlt, rfl⟩ := List.getElem?_eq_some_iff.mp hi
  conv_lhs => rw [← List.take_append_drop i parts, List.drop_eq_getElem_cons hlt]
  rw [List.flatten_append, List.flatten_cons, List.append_assoc]

theorem part_key_le (hord : Stretches.Ordered parts.flatten) {j : Nat} {part' : List Stretch} {e e' : Stretch}
    (hij : i < j) (hi : parts[i]? = some part) (hj : parts[j]? = some part') (he : e ∈ part)
    (he' : e' ∈ part') : e.stop ≤ e'.block := by
  rw [flatten_split hj, Stretches.Ordered, List.append_assoc] at hord
  obtain ⟨-, -, hcross⟩ := List.pairwise_append.mp hord
  apply hcross e _ e' (List.mem_append_left _ he')
  apply List.mem_flatten.mpr
  refine ⟨part, ?_, he⟩
  rw [List.mem_iff_getElem?]
  exact ⟨i, by rw [List.getElem?_take_of_lt hij, hi]⟩

end

/-- The run that begins at a block, provided that the tree does not begin behind it. -/
theorem map_run_extents_runAt (depth : Nat) :
    ∀ (fuel : Nat) (fs : Mount Disk) (node : Bytes) (exts : List Stretch),
    TreeAt fs.sb cap fs.io.state depth node exts → Stretches.Ordered exts →
    (depth = 0 ∨ ∃ e ∈ exts.head?, e.block ≤ l) → depth < fuel →
    ∃ phys run fs', map_run_extents (memory cap known) l fuel node fs = .ok (phys, run) fs' ∧ fs.Same fs' ∧
      Stretches.RunAt exts l phys run := by
  induction depth with
  | zero =>
    rintro (_ | fuel) fs node exts ⟨hheader, rfl⟩ hord - hfuel
    · omega
    refine ⟨_, _, fs, ?_, ⟨rfl, rfl, rfl⟩, leaf_run_runAt (List.range (node.get 2 2)) hord⟩
    rw [map_run_extents, if_neg (not_not_intro hheader.magic), if_neg (Nat.not_lt.mpr hheader.entries),
      if_pos hheader.depth]
    rfl
  | succ depth ih =>
    rintro (_ | fuel) fs node exts ⟨hheader, parts, rfl, hlength, hparts, htree⟩ hord hstart hfuel
    · omega
    have hpart (i : Nat) (hi : i < node.get 2 2) : ∃ part, parts[i]? = some part ∧
        ∃ e ∈ part.head?, e.block = index_key node i := by
      have hget := List.getElem?_eq_getElem (hlength ▸ hi : i < parts.length)
      exact ⟨_, hget, (htree i _ hget).1⟩
    have hpos : 0 < node.get 2 2 := by
      rw [← hlength]
      exact List.length_pos_of_ne_nil hparts
    have hgrow (i j : Nat) (hij : i < j) (hj : j < node.get 2 2) : index_key node i ≤ index_key node j := by
      obtain ⟨part, hi, e, he, hkey⟩ := hpart i (hij.trans hj)
      obtain ⟨part', hj, e', he', hkey'⟩ := hpart j hj
      have hle := part_key_le hord hij hi hj (List.mem_of_mem_head? he) (List.mem_of_mem_head? he')
      unfold Stretch.stop at hle
      omega
    have hfirst : index_key node 0 ≤ l := by
      obtain ⟨e, he, hkey⟩ := TreeAt.first_key ⟨hheader, parts, rfl, hlength, hparts, htree⟩
      obtain ⟨e', he', hle⟩ := hstart.resolve_left (Nat.succ_ne_zero depth)
      obtain rfl : e = e' := Option.some.inj (he.symm.trans he')
      omega
    obtain ⟨i, hin, hbefore, hbehind⟩ := exists_last_le hgrow hpos hfirst
    obtain ⟨part, hi, e, he, hkey⟩ := hpart i hin
    obtain ⟨-, child, hchild, hsub⟩ := htree i part hi
    obtain ⟨post, hrange, hpost⟩ := range_split hin
    have hnext : index_child node l (List.range (node.get 2 2)) none = some (index_ptr node i) := by
      rw [hrange]
      apply index_child_append _ _ _ _ ?_ (hbefore i (Nat.le_refl i)) ?_
      · intro j hj
        exact hbefore j (Nat.le_of_lt (List.mem_range.mp hj))
      · intro j hj
        have hj' := hpost j (List.mem_of_mem_head? hj)
        exact hbehind j hj'.1 hj'.2
    have hleads : LeadsTo fs.sb cap fs.io.state l node child := by
      unfold LeadsTo next_block
      rw [if_neg, hnext, Option.bind_some, hchild]
      have hmagic := hheader.magic
      have hentries := hheader.entries
      have hdepth := hheader.depth
      omega
    rcases @map_run_extents_step cap known l fs node with
      ⟨hstops, -⟩ | ⟨child', fs', hleads', hsame, hgoes⟩
    · exact absurd hleads (hstops child)
    obtain rfl := hleads.unique hleads'
    have hflat := flatten_split hi
    have hord' := hord
    rw [hflat, Stretches.Ordered] at hord'
    obtain ⟨hleft, -, hright⟩ := List.pairwise_append.mp hord'
    obtain ⟨-, hsubord, hcross⟩ := List.pairwise_append.mp hleft
    obtain ⟨phys, run, fs'', hrun, hsame', hrunAt⟩ := ih fuel fs' child' part
      (by rw [hsame.sb, hsame.state]; exact hsub) hsubord
      (.inr ⟨e, he, hkey ▸ hbefore i (Nat.le_refl i)⟩) (by omega)
    refine ⟨phys, run, fs'', ?_, hsame.trans hsame', ?_⟩
    · rw [hgoes, hrun]
    rw [hflat]
    have hmem := List.mem_of_mem_head? he
    apply hrunAt.append
    · intro x hx
      have hle := hcross x hx e hmem
      have hkey' := hbefore i (Nat.le_refl i)
      omega
    · intro f hf
      obtain ⟨part', hpart', hf⟩ := List.mem_flatten.mp hf
      obtain ⟨k, hk⟩ := List.mem_iff_getElem?.mp hpart'
      rw [List.getElem?_drop] at hk
      have hlt := (List.getElem?_eq_some_iff.mp hk).1
      obtain ⟨⟨e', he', hkey'⟩, -⟩ := htree (i + 1 + k) part' hk
      have hord' := (List.pairwise_flatten.mp hord).1 part' (List.mem_of_getElem? hk)
      have hle := Stretches.Ordered.head_le hord' he' hf
      have hbeyond := hbehind (i + 1 + k) (by omega) (by omega)
      omega
    · intro x hx f hf
      exact hright x (List.mem_append_right _ hx) f hf

theorem map_run_extents_in_front {depth : Nat} {exts : List Stretch} (h : TreeAt sb cap m (depth + 1) node exts)
    (hl : l < index_key node 0) (fuel : Nat) (fs : Mount Disk) (r : Option Nat × Nat) (s : Mount Disk) :
    map_run_extents (memory cap known) l fuel node fs ≠ .ok r s := by
  obtain ⟨hheader, parts, -, hlength, hparts, -⟩ := h
  have hpos : 0 < node.get 2 2 := by
    rw [← hlength]
    exact List.length_pos_of_ne_nil hparts
  obtain ⟨n, hn⟩ := Nat.exists_eq_add_one.mpr hpos
  have hdepth : node.get 6 2 ≠ 0 := by
    rw [hheader.depth]
    exact Nat.succ_ne_zero depth
  cases fuel with
  | zero =>
    intro hrun
    cases hrun
  | succ fuel =>
    rw [map_run_extents, if_neg (not_not_intro hheader.magic), if_neg (Nat.not_lt.mpr hheader.entries),
      if_neg hdepth, hn, index_child_none hl]
    intro hrun
    cases hrun

end LuksAndroid.Ext4
