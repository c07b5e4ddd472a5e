import LuksAndroid.Btrfs.Trim.Edits

/-!
# Freeing extents frees their checksums and no others

The items that reach into a freed range are found by one scan for each range, whatever the ranges and the
items look like. With the plans for them carried out, every sector that is not freed keeps its checksum, no
freed sector has one, and the checksum items are again apart from each other.
-/

namespace LuksAndroid.Btrfs

open Keyed Word IntervalSet

/-- The item reaches into the range. -/
def hit (width sector : Nat) (f : Nat × Nat) (it : LeafItem) : Bool :=
  is_csum_key it.key ∧ it.key.offset < f.2 ∧ f.1 < csumEnd width sector it

/-- What the scan for a range does with an item. -/
def collectItem (width sector : Nat) (f : Nat × Nat) (found : List LeafItem) (it : LeafItem) :
    Except LuksError (List LeafItem × Bool) :=
  if ¬ is_csum_key it.key then .ok (found, decide (it.key < csum_key 0))
  else if it.key.offset ≥ f.2 then .ok (found, false)
  else if csumEnd width sector it > f.1 then .ok (put_item it found, true)
  else .ok (found, true)

section Scan

variable {read : Reader} {node_size root level width sector : Nat} {items : List LeafItem} {f : Nat × Nat}

theorem hit_iff {it : LeafItem} : hit width sector f it = true ↔
    is_csum_key it.key = true ∧ it.key.offset < f.2 ∧ f.1 < csumEnd width sector it := by
  simp [hit]

theorem not_hit_behind {x y : LeafItem} (hlt : x.key < y.key)
    (hx : if is_csum_key x.key then f.2 ≤ x.key.offset else ¬ x.key < csum_key 0) :
    hit width sector f y = false := by
  rw [← Bool.not_eq_true, hit_iff]
  rintro ⟨hcsum, hoff, -⟩
  have hlt' := Key.lt_iff.mp hlt
  obtain ⟨ho, ht⟩ := is_csum_key_iff.mp hcsum
  by_cases hxc : is_csum_key x.key = true
  · rw [if_pos hxc] at hx
    obtain ⟨hxo, hxt⟩ := is_csum_key_iff.mp hxc
    omega
  · rw [if_neg hxc, Key.lt_iff] at hx
    rw [is_csum_key_iff] at hxc
    simp only [csum_key] at hx
    omega

theorem visit_collects {after : List LeafItem} (hsorted : Sorted LeafItem.key after) (found : List LeafItem) :
    Cursor.visitAll (collectItem width sector f) found after =
      .ok ((after.filter (hit width sector f)).foldl (fun l x => put_item x l) found) := by
  induction after generalizing found with
  | nil => rfl
  | cons x after ih =>
    obtain ⟨habove, hrest⟩ := sorted_cons.mp hsorted
    have hstop (hx : if is_csum_key x.key then f.2 ≤ x.key.offset else ¬ x.key < csum_key 0) :
        after.filter (hit width sector f) = [] := by
      rw [List.filter_eq_nil_iff]
      intro y hy
      rw [not_hit_behind (habove y hy) hx]
      exact Bool.false_ne_true
    rw [Cursor.visitAll, collectItem]
    by_cases hcsum : is_csum_key x.key = true
    · rw [if_neg (not_not.mpr hcsum)]
      by_cases hoff : x.key.offset ≥ f.2
      · have hnot : hit width sector f x = false := by
          rw [← Bool.not_eq_true, hit_iff]
          rintro ⟨-, hlt, -⟩
          omega
        rw [if_pos hoff, List.filter_cons_of_neg (by simp [hnot]), hstop (by rwa [if_pos hcsum])]
        rfl
      · rw [if_neg hoff]
        by_cases hend : csumEnd width sector x > f.1
        · have hhit : hit width sector f x = true := hit_iff.mpr ⟨hcsum, not_le.mp hoff, hend⟩
          rw [if_pos hend, List.filter_cons_of_pos hhit, List.foldl_cons, ← ih hrest]
          rfl
        · have hnot : hit width sector f x = false := by
            rw [← Bool.not_eq_true, hit_iff]
            rintro ⟨-, -, hlt⟩
            exact hend hlt
          rw [if_neg hend, List.filter_cons_of_neg (by simp [hnot]), ← ih hrest]
          rfl
    · have hnot : hit width sector f x = false := by
        rw [← Bool.not_eq_true, hit_iff]
        exact fun h => hcsum h.1
      rw [if_pos hcsum, List.filter_cons_of_neg (by simp [hnot])]
      by_cases hbefore : x.key < csum_key 0
      · rw [decide_eq_true hbefore, ← ih hrest]
        rfl
      · rw [decide_eq_false hbefore, hstop (by rwa [if_neg hcsum])]
        rfl

theorem collect_csum_item_eq (hends : ∀ it ∈ items, is_csum_key it.key → csumEnd width sector it < size)
    (found : List LeafItem) (c : Cursor) (before : List LeafItem) (x : LeafItem) (after : List LeafItem)
    (hat : Cursor.At (seen read) node_size items c before (x :: after)) :
    collect_csum_item sector width f.1 f.2 found x.key c = collectItem width sector f found x := by
  obtain ⟨-, hdata⟩ := hat.reads
  have hnot : (x.key.objectid ≠ EXTENT_CSUM_OBJECTID ∨ x.key.item_type ≠ EXTENT_CSUM_KEY) ↔
      ¬ is_csum_key x.key = true := by
    rw [is_csum_key_iff, not_and_or]
  simp only [collect_csum_item, collectItem, hnot, hdata, bind, Except.bind, pure, Except.pure]
  by_cases hcsum : is_csum_key x.key = true
  · have hx : x ∈ items := by rw [hat.items_eq]; simp
    have hend : csum_item_end sector width x.key x.data = csumEnd width sector x :=
      saturating_add_of_lt (hends x hx hcsum)
    simp [hcsum, hend]
  · rw [if_pos hcsum, if_pos hcsum]
    rfl

/-- The scan for a range starts behind items that do not reach into it. -/
theorem csum_scan_start_spec (h : WellFormed (seen read) node_size level root items)
    (hapart : CsumsApart width sector (csumItems items)) (f : Nat × Nat) :
    ∃ c before after, csum_scan_start read root sector width f.1 = .ok c ∧
      Cursor.At (seen read) node_size items c before after ∧ ∀ it ∈ before, hit width sector f it = false := by
  have hsorted := h.sorted
  obtain ⟨c, hrun, ⟨before, x, after, hat, hle, -⟩ | ⟨hinvalid, habove⟩⟩ := Cursor.search_le_spec h (csum_key f.1)
  · rw [csum_key] at hrun
    have hvalid := hat.valid_iff.mpr (by simp)
    obtain ⟨hkey, hdata⟩ := hat.reads
    obtain ⟨c', hstep, hat'⟩ := Cursor.advance_spec hat
    rw [hat.items_eq] at hsorted
    have hbelow : ∀ it ∈ before, it.key < x.key := fun it hit => (sorted_append.mp hsorted).2.2 it hit x (by simp)
    have hle' := mt Key.lt_iff.mpr (not_lt.mpr hle)
    have hx : x ∈ items := by rw [hat.items_eq]; simp
    have hbefore : ∀ it ∈ before, hit width sector f it = false := by
      intro it hit
      rw [← Bool.not_eq_true, hit_iff]
      rintro ⟨hcsum, -, hlt⟩
      have hlt' := Key.lt_iff.mp (hbelow it hit)
      obtain ⟨ho, ht⟩ := is_csum_key_iff.mp hcsum
      -- Between two checksum keys there are only checksum keys.
      have hxc : is_csum_key x.key = true := by
        rw [is_csum_key_iff]
        simp only [csum_key] at hle'
        omega
      obtain ⟨hxo, hxt⟩ := is_csum_key_iff.mp hxc
      have hmem : it ∈ items := by rw [hat.items_eq]; simp [hit]
      have hor := hapart.apart it (mem_csumItems.mpr ⟨hmem, hcsum⟩) x (mem_csumItems.mpr ⟨hx, hxc⟩)
        (by rintro rfl; exact lt_irrefl _ (hbelow _ hit))
      simp only [csum_key] at hle'
      unfold csumEnd at hor hlt
      omega
    by_cases hxc : is_csum_key x.key = true
    · have hend : csum_item_end sector width x.key x.data = csumEnd width sector x :=
        saturating_add_of_lt (hapart.addresses x (mem_csumItems.mpr ⟨hx, hxc⟩))
      by_cases hpast : csumEnd width sector x ≤ f.1
      · refine ⟨c', before ++ [x], after, ?_, hat', ?_⟩
        · simp only [csum_scan_start, hrun, hvalid, hkey, hdata, bind, Except.bind, not_true_eq_false,
            if_false, is_csum_key_iff.mp hxc, and_self, if_true, hend, hpast, hstep]
        · intro it hit
          rcases List.mem_append.mp hit with hit | hit
          · exact hbefore it hit
          · rw [List.mem_singleton.mp hit, ← Bool.not_eq_true, hit_iff]
            rintro ⟨-, -, hlt⟩
            omega
      · refine ⟨c, before, x :: after, ?_, hat, hbefore⟩
        simp only [csum_scan_start, hrun, hvalid, hkey, hdata, bind, Except.bind, not_true_eq_false,
          if_false, is_csum_key_iff.mp hxc, and_self, if_true, hend, hpast, pure, Except.pure]
    · refine ⟨c', before ++ [x], after, ?_, hat', ?_⟩
      · have hnot := mt is_csum_key_iff.mpr hxc
        simp only [csum_scan_start, hrun, hvalid, hkey, bind, Except.bind, not_true_eq_false, if_false,
          hnot, hstep]
      · intro it hit
        rcases List.mem_append.mp hit with hit | hit
        · exact hbefore it hit
        · rw [List.mem_singleton.mp hit, ← Bool.not_eq_true, hit_iff]
          exact fun hx => hxc hx.1
  · obtain ⟨c', before, after, hsearch, hat, hlow, -⟩ := Cursor.search_spec h (csum_key f.1)
    rw [csum_key] at hrun hsearch
    refine ⟨c', before, after, ?_, hat, ?_⟩
    · simp only [csum_scan_start, hrun, hinvalid, bind, Except.bind, Bool.false_eq_true, not_false_eq_true,
        if_true, hsearch, pure, Except.pure]
    · intro it hit
      have hmem : it ∈ items := by rw [hat.items_eq]; exact List.mem_append_left _ hit
      exact absurd (hlow it hit) (not_lt.mpr (habove it hmem).le)

/-! ## All scans -/

theorem put_items_spec (hitems : Sorted LeafItem.key items) {xs found : List LeafItem}
    (hfound : Sorted LeafItem.key found) (hsub : ∀ a ∈ found, a ∈ items) (hxs : ∀ a ∈ xs, a ∈ items) :
    Sorted LeafItem.key (xs.foldl (fun l x => put_item x l) found) ∧
      ∀ a, a ∈ xs.foldl (fun l x => put_item x l) found ↔ a ∈ found ∨ a ∈ xs := by
  induction xs generalizing found with
  | nil => exact ⟨hfound, by simp⟩
  | cons x xs ih =>
    have hx : x ∈ items := hxs x (by simp)
    have hmem (a : LeafItem) : a ∈ put_item x found ↔ a = x ∨ a ∈ found := by
      rw [put_item, mem_insert, List.mem_filter]
      refine ⟨fun h => h.imp_right And.left, ?_⟩
      rintro (h | h)
      · exact .inl h
      · by_cases hk : a.key = x.key
        · exact .inl (hitems.eq_of_key (hsub a h) hx hk)
        · exact .inr ⟨h, by simpa using hk⟩
    have hput : Sorted LeafItem.key (put_item x found) := by
      refine Sorted.insert (hfound.filter _) fun b hb => ?_
      simpa using (List.mem_filter.mp hb).2
    obtain ⟨hs, hm⟩ := ih hput (fun a ha => ((hmem a).mp ha).elim (fun h => h ▸ hx) (hsub a))
      fun a ha => hxs a (List.mem_cons_of_mem _ ha)
    refine ⟨hs, fun a => ?_⟩
    rw [List.foldl_cons, hm, hmem, List.mem_cons]
    tauto

theorem collect_csum_items_mem (h : WellFormed (seen read) node_size level root items)
    (hapart : CsumsApart width sector (csumItems items)) (ranges : List (Nat × Nat)) {found : List LeafItem}
    (hfound : Sorted LeafItem.key found) (hsub : ∀ a ∈ found, a ∈ items) :
    ∃ l, collect_csum_items read root sector width ranges found = .ok l ∧ Sorted LeafItem.key l ∧
      ∀ a, a ∈ l ↔ a ∈ found ∨ a ∈ items ∧ ∃ f ∈ ranges, hit width sector f a = true := by
  induction ranges generalizing found with
  | nil => exact ⟨found, rfl, hfound, by simp⟩
  | cons f ranges ih =>
    have hends : ∀ it ∈ items, is_csum_key it.key → csumEnd width sector it < size := fun it hit hcsum =>
      hapart.addresses it (mem_csumItems.mpr ⟨hit, hcsum⟩)
    obtain ⟨c, before, after, hstart, hat, hbefore⟩ := csum_scan_start_spec h hapart f
    have hsorted := h.sorted
    rw [hat.items_eq] at hsorted
    have hscan : c.scan_from read (collect_csum_item sector width f.1 f.2) found =
        .ok ((after.filter (hit width sector f)).foldl (fun l x => put_item x l) found) :=
      (Cursor.scan_spec (collect_csum_item_eq hends) found hat).trans
        (visit_collects (sorted_append.mp hsorted).2.1 found)
    have hafter : ∀ a ∈ after.filter (hit width sector f), a ∈ items := by
      intro a ha
      rw [hat.items_eq]
      exact List.mem_append_right _ (List.mem_filter.mp ha).1
    obtain ⟨hs, hm⟩ := put_items_spec h.sorted hfound hsub hafter
    obtain ⟨l, hrun, hl, hmem⟩ := ih hs fun a ha => ((hm a).mp ha).elim (hsub a) (hafter a)
    refine ⟨l, ?_, hl, fun a => ?_⟩
    · exact Run.except_bind_ok.mpr ⟨c, hstart, Run.except_bind_ok.mpr ⟨_, hscan, hrun⟩⟩
    · have hhit : a ∈ after.filter (hit width sector f) ↔ a ∈ items ∧ hit width sector f a = true := by
        rw [List.mem_filter, hat.items_eq, List.mem_append]
        constructor
        · exact fun ⟨ha, hh⟩ => ⟨.inr ha, hh⟩
        · rintro ⟨ha | ha, hh⟩
          · rw [hbefore a ha] at hh
            cases hh
          · exact ⟨ha, hh⟩
      rw [hmem, hm, hhit]
      simp only [List.mem_cons, exists_eq_or_imp]
      tauto

/-- The items that the scans find, in order and each once. -/
def planned (width sector : Nat) (ranges : List (Nat × Nat)) (items : List LeafItem) : List LeafItem :=
  items.filter fun it => ranges.any fun f => hit width sector f it

theorem collect_csum_items_spec (h : WellFormed (seen read) node_size level root items)
    (hapart : CsumsApart width sector (csumItems items)) (ranges : List (Nat × Nat)) :
    collect_csum_items read root sector width ranges [] = .ok (planned width sector ranges items) := by
  obtain ⟨l, hrun, hl, hmem⟩ := collect_csum_items_mem h hapart ranges List.Pairwise.nil (by simp)
  have hirrefl : Std.Irrefl fun a b : LeafItem => a.key < b.key := ⟨fun a => lt_irrefl a.key⟩
  have hantisymm : Std.Antisymm fun a b : LeafItem => a.key < b.key :=
    ⟨fun a b hab hba => absurd hab (lt_asymm hba)⟩
  have heq : l = planned width sector ranges items := by
    refine List.Pairwise.eq_of_mem_iff hl (h.sorted.filter _) fun a => ?_
    rw [hmem, planned, List.mem_filter, List.any_eq_true]
    simp
  rw [hrun, heq]

end Scan

/-! ## The whole tree -/

/-- The ranges that some extents take up, those without bytes apart. -/
def freed_ranges (data_extents_to_free : List (Nat × Nat)) : List (Nat × Nat) :=
  (data_extents_to_free.filter fun e => e.2 > 0).map fun e => (e.1, saturating_add e.1 e.2)

/-- The plans that `delete_extent_csums` makes for the items of a checksum tree. -/
def csum_plans (fs : Mount) (data_extents_to_free : List (Nat × Nat)) (items : List LeafItem) : List ItemDiff :=
  let freed := merge_freed (freed_ranges data_extents_to_free)
  (planned fs.sb.csum_type.size fs.sb.sector_size freed items).map
    (plan_csum_item fs.sb.sector_size fs.sb.csum_type.size freed)

/-- The sector at `t` has the checksum `v`. -/
def Summed (width sector : Nat) (items : List LeafItem) (t : Nat) (v : Bytes) : Prop :=
  ∃ it ∈ csumItems items, covers width sector t it ∧ storedCsum width sector t it = v

/-- A checksum tree of whole sectors, and extents of whole sectors to free. -/
structure Trims (fs : Mount) (csum_root : Root) (data_extents_to_free : List (Nat × Nat)) (r : Recording)
    (items : List LeafItem) : Prop where
  tree : ∃ level, WellFormed (seen fs.read_node) fs.sb.node_size level csum_root.1 items
  ready : Ready fs.view ⟨r, csum_root.1, csum_root.2⟩ items
  apart : CsumsApart fs.sb.csum_type.size fs.sb.sector_size (csumItems items)
  sectors : ∀ it ∈ csumItems items, fs.sb.sector_size ∣ it.key.offset
  extents : ∀ e ∈ data_extents_to_free, e.1 + e.2 < size ∧ fs.sb.sector_size ∣ e.1 ∧ fs.sb.sector_size ∣ e.2

theorem TxnM.lift_ok {α : Type} {x : Except LuksError α} {a : α} {r r' : Recording} :
    TxnM.lift x r = .ok a r' ↔ x = .ok a ∧ r = r' := by
  cases x with
  | ok b => simp only [TxnM.lift, Run.pure_ok, Except.ok.injEq]
  | error e =>
    simp only [TxnM.lift, reduceCtorEq, false_and, iff_false]
    exact Run.throw_ok

section Whole

variable {fs : Mount} {csum_root : Root} {extents : List (Nat × Nat)} {generation : Nat} {r r' : Recording}
  {items items' : List LeafItem}

theorem Trims.freed (h : Trims fs csum_root extents r items) :
    freed_ranges extents = (extents.filter fun e => e.2 > 0).map fun e => (e.1, e.1 + e.2) := by
  refine List.map_congr_left fun e he => ?_
  rw [saturating_add_of_lt (h.extents e (List.mem_filter.mp he).1).1]

theorem Trims.mem_freed (h : Trims fs csum_root extents r items) (t : Nat) :
    t ∈ cells (merge_freed (freed_ranges extents)) ↔ ∃ e ∈ extents, e.1 ≤ t ∧ t < e.1 + e.2 := by
  rw [cells_merge_freed, h.freed]
  constructor
  · rintro ⟨i, hi, hin⟩
    obtain ⟨e, he, rfl⟩ := List.mem_map.mp hi
    exact ⟨e, (List.mem_filter.mp he).1, hin⟩
  · rintro ⟨e, he, hin⟩
    refine ⟨_, List.mem_map.mpr ⟨e, List.mem_filter.mpr ⟨he, ?_⟩, rfl⟩, hin⟩
    simp only [gt_iff_lt, decide_eq_true_eq]
    omega

theorem Trims.whole (h : Trims fs csum_root extents r items) :
    OnSectors fs.sb.sector_size (merge_freed (freed_ranges extents)) := by
  apply OnSectors.merge_freed
  rw [h.freed]
  intro f hf
  obtain ⟨e, he, rfl⟩ := List.mem_map.mp hf
  obtain ⟨-, hstart, hlen⟩ := h.extents e (List.mem_filter.mp he).1
  exact ⟨hstart, hstart.add hlen⟩

theorem Trims.trimmable (h : Trims fs csum_root extents r items) (hpos : 0 < fs.sb.sector_size) {it : LeafItem}
    (hit : it ∈ csumItems items) :
    Trimmable fs.sb.csum_type.size fs.sb.sector_size (merge_freed (freed_ranges extents)) it where
  width_pos := CsumType.size_pos _
  sector_pos := hpos
  csum := (mem_csumItems.mp hit).2
  aligned := h.sectors it hit
  address := h.apart.addresses it hit
  whole := h.whole

theorem mem_planned_items {width sector : Nat} {freed : List (Nat × Nat)} {it : LeafItem} :
    it ∈ planned width sector freed items ↔ it ∈ csumItems items ∧ ∃ f ∈ freed, hit width sector f it = true := by
  rw [planned, List.mem_filter, List.any_eq_true, mem_csumItems]
  constructor
  · rintro ⟨hit, f, hf, hh⟩
    exact ⟨⟨hit, (hit_iff.mp hh).1⟩, f, hf, hh⟩
  · rintro ⟨⟨hit, -⟩, f, hf, hh⟩
    exact ⟨hit, f, hf, hh⟩

theorem Trims.runs (h : Trims fs csum_root extents r items) {out : Option Root}
    (hrun : delete_extent_csums fs csum_root extents generation r = .ok out r') :
    (0 < fs.sb.sector_size ∨ freed_ranges extents = []) ∧
    runSteps fs.view (edit_steps generation CSUM_TREE_OBJECTID (csum_plans fs extents items))
        ⟨r, csum_root.1, csum_root.2⟩ =
      .ok ⟨r', (out.getD csum_root).1, (out.getD csum_root).2⟩ := by
  obtain ⟨level, htree⟩ := h.tree
  unfold delete_extent_csums at hrun
  change (if (freed_ranges extents).isEmpty then _ else _ : TxnM (Option Root)) r = _ at hrun
  split at hrun
  · rename_i hempty
    obtain ⟨rfl, rfl⟩ := Run.pure_ok.mp hrun
    have hnil : freed_ranges extents = [] := List.isEmpty_iff.mp hempty
    have hplans : csum_plans fs extents items = [] := by simp [csum_plans, hnil, merge_freed, planned]
    refine ⟨.inr hnil, ?_⟩
    rw [hplans]
    rfl
  · simp only at hrun
    split at hrun
    · exact absurd hrun Run.throw_bind_ok
    · rename_i hsizes
      obtain ⟨hsector, hcsum⟩ := not_or.mp hsizes
      obtain ⟨found, r₁, hfound, hrun⟩ := Run.bind_ok.mp hrun
      have hspec : collect_csum_items fs.read_node csum_root.1 fs.sb.sector_size fs.sb.csum_type.size
          (merge_freed (freed_ranges extents)) [] =
          .ok (planned fs.sb.csum_type.size fs.sb.sector_size (merge_freed (freed_ranges extents)) items) :=
        collect_csum_items_spec htree h.apart _
      obtain ⟨hcollect, rfl⟩ := TxnM.lift_ok.mp hfound
      obtain rfl := Except.ok.inj (hcollect.symm.trans hspec)
      refine ⟨.inl (Nat.pos_of_ne_zero hsector), ?_⟩
      split at hrun
      · rename_i hnone
        obtain ⟨rfl, rfl⟩ := Run.pure_ok.mp hrun
        obtain ⟨hdel, hmut, hins⟩ := hnone
        have hplans : edit_steps generation CSUM_TREE_OBJECTID (csum_plans fs extents items) = [] := by
          simp only [edit_steps, delete_steps, mutate_steps, insert_steps]
          rw [show (csum_plans fs extents items).flatMap (·.to_delete) = [] from List.isEmpty_iff.mp hdel,
            show (csum_plans fs extents items).flatMap (·.to_mutate) = [] from List.isEmpty_iff.mp hmut,
            show (csum_plans fs extents items).flatMap (·.to_insert) = [] from List.isEmpty_iff.mp hins]
          rfl
        rw [hplans]
        rfl
      · obtain ⟨root₁, r₁, hdel, hrun⟩ := Run.bind_ok.mp hrun
        obtain ⟨root₂, r₂, hmut, hrun⟩ := Run.bind_ok.mp hrun
        obtain ⟨root₃, r₃, hins, hrun⟩ := Run.bind_ok.mp hrun
        obtain ⟨rfl, rfl⟩ := Run.pure_ok.mp hrun
        exact runSteps_append.mpr ⟨_, delete_items_run hdel,
          runSteps_append.mpr ⟨_, mutate_items_run hmut, insert_items_run hins⟩⟩

/-- What the edits leave of the items: those that no freed range meets, and the rest of the others. -/
theorem Trims.mem_iff (h : Trims fs csum_root extents r items)
    (hpos : 0 < fs.sb.sector_size ∨ freed_ranges extents = [])
    (hspec : specSteps items (edit_steps generation CSUM_TREE_OBJECTID (csum_plans fs extents items)) = some items')
    (a : LeafItem) :
    a ∈ items' ↔
      (a ∈ items ∧ a ∉ planned fs.sb.csum_type.size fs.sb.sector_size (merge_freed (freed_ranges extents)) items) ∨
      ∃ it ∈ planned fs.sb.csum_type.size fs.sb.sector_size (merge_freed (freed_ranges extents)) items,
        a ∈ trimmed fs.sb.csum_type.size fs.sb.sector_size (merge_freed (freed_ranges extents)) it := by
  obtain ⟨level, htree⟩ := h.tree
  refine mem_planned htree.sorted (htree.sorted.filter _) (fun it hit => (List.mem_filter.mp hit).1) ?_ hspec a
  intro it hit
  rcases hpos with hpos | hnil
  · exact (h.trimmable hpos (mem_planned_items.mp hit).1).leaves
  · rw [hnil] at hit
    obtain ⟨-, f, hf, -⟩ := mem_planned_items.mp hit
    cases hf

theorem not_freed_of_not_planned {width sector : Nat} {freed : List (Nat × Nat)} {it : LeafItem} {t : Nat}
    (hit : it ∈ csumItems items) (hnot : it ∉ planned width sector freed items) (hcov : covers width sector t it) :
    t ∉ cells freed := by
  rintro ⟨f, hf, h1, h2⟩
  simp only [covers, decide_eq_true_eq] at hcov
  refine hnot (mem_planned_items.mpr ⟨hit, f, hf, hit_iff.mpr ⟨(mem_csumItems.mp hit).2, ?_, ?_⟩⟩) <;> omega

theorem Trims.summed_iff (h : Trims fs csum_root extents r items)
    (hpos : 0 < fs.sb.sector_size ∨ freed_ranges extents = [])
    (hspec : specSteps items (edit_steps generation CSUM_TREE_OBJECTID (csum_plans fs extents items)) = some items')
    (t : Nat) (v : Bytes) :
    Summed fs.sb.csum_type.size fs.sb.sector_size items' t v ↔
      Summed fs.sb.csum_type.size fs.sb.sector_size items t v ∧ ¬ ∃ e ∈ extents, e.1 ≤ t ∧ t < e.1 + e.2 := by
  rw [← h.mem_freed]
  have hmem := h.mem_iff hpos hspec
  have hpos' : ∀ it ∈ planned fs.sb.csum_type.size fs.sb.sector_size (merge_freed (freed_ranges extents)) items,
      0 < fs.sb.sector_size := by
    intro it hit
    rcases hpos with hpos | hnil
    · exact hpos
    · rw [hnil] at hit
      obtain ⟨-, f, hf, -⟩ := mem_planned_items.mp hit
      cases hf
  constructor
  · rintro ⟨a, ha, hcov, hv⟩
    obtain ⟨ha', hcsum⟩ := mem_csumItems.mp ha
    rcases (hmem a).mp ha' with ⟨hmem', hnot⟩ | ⟨it, hit, htrim⟩
    · have hitem := mem_csumItems.mpr ⟨hmem', hcsum⟩
      exact ⟨⟨a, hitem, hcov, hv⟩, not_freed_of_not_planned hitem hnot hcov⟩
    · have hitem := (mem_planned_items.mp hit).1
      obtain ⟨hsum, hfree⟩ := (h.trimmable (hpos' it hit) hitem).covers_trimmed.mp ⟨a, htrim, hcov, hv⟩
      exact ⟨⟨it, hitem, hsum⟩, hfree⟩
  · rintro ⟨⟨it, hitem, hcov, hv⟩, hfree⟩
    by_cases hit : it ∈ planned fs.sb.csum_type.size fs.sb.sector_size (merge_freed (freed_ranges extents)) items
    · have htrim := h.trimmable (hpos' it hit) hitem
      obtain ⟨a, ha, hsum⟩ := htrim.covers_trimmed.mpr ⟨⟨hcov, hv⟩, hfree⟩
      exact ⟨a, mem_csumItems.mpr ⟨(hmem a).mpr (.inr ⟨it, hit, ha⟩), (htrim.mem_trimmed ha).1⟩, hsum⟩
    · exact ⟨it, mem_csumItems.mpr ⟨(hmem it).mpr (.inl ⟨(mem_csumItems.mp hitem).1, hit⟩),
        (mem_csumItems.mp hitem).2⟩, hcov, hv⟩

theorem Trims.apart_again (h : Trims fs csum_root extents r items)
    (hpos : 0 < fs.sb.sector_size ∨ freed_ranges extents = [])
    (hspec : specSteps items (edit_steps generation CSUM_TREE_OBJECTID (csum_plans fs extents items)) = some items') :
    CsumsApart fs.sb.csum_type.size fs.sb.sector_size (csumItems items') := by
  have hmem := h.mem_iff hpos hspec
  -- Every item lies within the item that it is left of.
  have origin : ∀ a ∈ csumItems items', ∃ it ∈ csumItems items, it.key.offset ≤ a.key.offset ∧
      csumEnd fs.sb.csum_type.size fs.sb.sector_size a ≤ csumEnd fs.sb.csum_type.size fs.sb.sector_size it ∧
      (a = it ∧ it ∉ planned fs.sb.csum_type.size fs.sb.sector_size (merge_freed (freed_ranges extents)) items ∨
        Trimmable fs.sb.csum_type.size fs.sb.sector_size (merge_freed (freed_ranges extents)) it ∧
        it ∈ planned fs.sb.csum_type.size fs.sb.sector_size (merge_freed (freed_ranges extents)) items ∧
        a ∈ trimmed fs.sb.csum_type.size fs.sb.sector_size (merge_freed (freed_ranges extents)) it) := by
    intro a ha
    obtain ⟨ha', hcsum⟩ := mem_csumItems.mp ha
    rcases (hmem a).mp ha' with ⟨hmem', hnot⟩ | ⟨it, hit, htrim⟩
    · exact ⟨a, mem_csumItems.mpr ⟨hmem', hcsum⟩, le_rfl, le_rfl, .inl ⟨rfl, hnot⟩⟩
    · have hitem := (mem_planned_items.mp hit).1
      have hpos' : 0 < fs.sb.sector_size := by
        rcases hpos with hpos | hnil
        · exact hpos
        · rw [hnil] at hit
          obtain ⟨-, f, hf, -⟩ := mem_planned_items.mp hit
          cases hf
      have htrimmable := h.trimmable hpos' hitem
      obtain ⟨-, hlow, -, hhigh⟩ := htrimmable.mem_trimmed htrim
      exact ⟨it, hitem, hlow, hhigh, .inr ⟨htrimmable, hit, htrim⟩⟩
  refine ⟨fun a ha b hb hne => ?_, fun a ha => ?_⟩
  · obtain ⟨x, hx, hxlow, hxhigh, hxa⟩ := origin a ha
    obtain ⟨y, hy, hylow, hyhigh, hyb⟩ := origin b hb
    by_cases hxy : x = y
    · subst hxy
      rcases hxa with ⟨rfl, hnot⟩ | ⟨htrim, hit, hma⟩
      · rcases hyb with ⟨rfl, -⟩ | ⟨-, hit, -⟩
        · exact absurd rfl hne
        · exact absurd hit hnot
      · rcases hyb with ⟨rfl, hnot⟩ | ⟨-, -, hmb⟩
        · exact absurd hit hnot
        · exact htrim.trimmed_apart hma hmb hne
    · rcases h.apart.apart x hx y hy hxy with hle | hle
      · exact .inl ((hxhigh.trans hle).trans hylow)
      · exact .inr ((hyhigh.trans hle).trans hxlow)
  · obtain ⟨x, hx, -, hxhigh, -⟩ := origin a ha
    exact lt_of_le_of_lt hxhigh (h.apart.addresses x hx)

/-- Freeing extents takes away the checksums of their sectors and nothing else. -/
theorem delete_extent_csums_trims (h : Trims fs csum_root extents r items)
    (hgrow : Grows fs.view (edit_steps generation CSUM_TREE_OBJECTID (csum_plans fs extents items))
      ⟨r, csum_root.1, csum_root.2⟩)
    {out : Option Root} (hrun : delete_extent_csums fs csum_root extents generation r = .ok out r') :
    ∃ items', Ready fs.view ⟨r', (out.getD csum_root).1, (out.getD csum_root).2⟩ items' ∧
      CsumsApart fs.sb.csum_type.size fs.sb.sector_size (csumItems items') ∧
      (∀ it, ¬ is_csum_key it.key → (it ∈ items' ↔ it ∈ items)) ∧
      ∀ t v, Summed fs.sb.csum_type.size fs.sb.sector_size items' t v ↔
        Summed fs.sb.csum_type.size fs.sb.sector_size items t v ∧
          ¬ ∃ e ∈ extents, e.1 ≤ t ∧ t < e.1 + e.2 := by
  obtain ⟨hpos, hsteps⟩ := h.runs hrun
  obtain ⟨items', hspec, hready⟩ := cow_run_refines _ h.ready hgrow hsteps
  refine ⟨items', hready, h.apart_again hpos hspec, fun it hit => ?_, h.summed_iff hpos hspec⟩
  have hmem := h.mem_iff hpos hspec it
  rw [hmem]
  constructor
  · rintro (⟨hold, -⟩ | ⟨x, hx, htrim⟩)
    · exact hold
    · obtain ⟨i, -, rfl⟩ := List.mem_map.mp htrim
      exact absurd rfl hit
  · exact fun hold => .inl ⟨hold, fun hp => hit (mem_csumItems.mp (mem_planned_items.mp hp).1).2⟩

end Whole

/-! ## A hole in an item -/

/-- Three sectors from 12288 have their checksums in one item. -/
def threeSums : List LeafItem := [⟨csum_key 12288, [1, 1, 1, 1, 2, 2, 2, 2, 3, 3, 3, 3]⟩]

def threeSumsLeaf : Leaf := ⟨1114112, 7, CSUM_TREE_OBJECTID, 1, [], [], threeSums⟩

def threeSumsMount : Mount where
  device _ := .ok (.leaf threeSumsLeaf)
  sb := { lateSuper with node_size := 512 }
  chunks := ⟨[]⟩
  fs_tree_root := ⟨FS_TREE_OBJECTID, 1130496, 0, 256, 7, 0⟩
  active_batch := none
  has_open_writer := false

/-- An allocator with an empty metadata group above the tree. -/
def unrecorded : Recording := ⟨[], [], Deep.space, .empty⟩

/-- The item loses what is behind its first checksum. -/
def cutFront : TreeStep := ⟨CSUM_TREE_OBJECTID, 8, .mutate (csum_key 12288) fun _ => .ok [1, 1, 1, 1]⟩

theorem threeSums_tree : Tree (view threeSumsMount.view .empty) 512 0 1114112 (threeSums, [1114112]) :=
  ⟨threeSumsLeaf, rfl, by decide, rfl⟩

theorem threeSums_trims : Trims threeSumsMount (1114112, 0) [(16384, 4096)] unrecorded threeSums where
  tree := ⟨0, by simp [Sorted, threeSums], [1114112], threeSumsLeaf, rfl, by decide, rfl⟩
  ready := by
    refine ⟨⟨by simp [Sorted, threeSums], [1114112], threeSums_tree⟩, Deep.space_serves, ?_⟩
    intro p hp x hx hfree
    rw [hp.unique threeSums_tree, List.mem_singleton] at hx
    obtain ⟨bg, hbg, r, hr, hge, -⟩ := hfree
    rw [List.mem_singleton.mp hbg, List.mem_singleton] at hr
    rw [hr, hx] at hge
    exact absurd hge (by decide)
  apart := .singleton (by decide +kernel)
  sectors := by
    intro it hit
    obtain ⟨hit, -⟩ := mem_csumItems.mp hit
    rw [List.mem_singleton.mp hit]
    exact (by decide : 4096 ∣ 12288)
  extents := by
    intro e he
    rw [List.mem_singleton.mp he]
    exact ⟨by decide +kernel, (by decide : 4096 ∣ 16384), (by decide : 4096 ∣ 4096)⟩

theorem threeSums_grows : Grows threeSumsMount.view
    (edit_steps 8 CSUM_TREE_OBJECTID (csum_plans threeSumsMount [(16384, 4096)] threeSums))
    ⟨unrecorded, 1114112, 0⟩ := by
  have hdelete : (csum_plans threeSumsMount [(16384, 4096)] threeSums).flatMap (·.to_delete) = [] := by
    decide +kernel
  have hmutate : (csum_plans threeSumsMount [(16384, 4096)] threeSums).flatMap (·.to_mutate) =
      [⟨csum_key 12288, [1, 1, 1, 1]⟩] := by
    decide +kernel
  have hinsert : (csum_plans threeSumsMount [(16384, 4096)] threeSums).flatMap (·.to_insert) =
      [⟨csum_key 20480, [3, 3, 3, 3]⟩] := by
    decide +kernel
  rw [edit_steps, hdelete, hmutate, hinsert]
  refine ⟨trivial, fun st₁ hrun => ⟨?_, fun _ _ => trivial⟩⟩
  have hcut : cutFront.run threeSumsMount.view ⟨unrecorded, 1114112, 0⟩ = .ok st₁ := hrun
  have hlevel : (cutFront.run threeSumsMount.view ⟨unrecorded, 1114112, 0⟩).toOption.all
      (fun st => decide (st.level < 255)) = true := by
    decide +kernel
  rw [hcut] at hlevel
  have hgrows : st₁.level < 255 := of_decide_eq_true hlevel
  exact hgrows

/-- The middle one of three sectors is freed. -/
theorem delete_extent_csums_trims_hole :
    ∃ out r' items', delete_extent_csums threeSumsMount (1114112, 0) [(16384, 4096)] 8 unrecorded = .ok out r' ∧
      Ready threeSumsMount.view ⟨r', (out.getD (1114112, 0)).1, (out.getD (1114112, 0)).2⟩ items' ∧
      Summed 4 4096 items' 12288 [1, 1, 1, 1] ∧ (∀ v, ¬ Summed 4 4096 items' 16384 v) ∧
      Summed 4 4096 items' 20480 [3, 3, 3, 3] := by
  have hok : ((delete_extent_csums threeSumsMount (1114112, 0) [(16384, 4096)] 8).run' unrecorded).isSome = true := by
    decide +kernel
  cases hrun : delete_extent_csums threeSumsMount (1114112, 0) [(16384, 4096)] 8 unrecorded with
  | error e s =>
    rw [EStateM.run', EStateM.run, hrun] at hok
    cases hok
  | ok out r' =>
    obtain ⟨items', hready, -, -, hsummed⟩ := delete_extent_csums_trims threeSums_trims threeSums_grows hrun
    refine ⟨out, r', items', rfl, hready, (hsummed _ _).mpr ⟨?_, ?_⟩, fun v hv => ?_, (hsummed _ _).mpr ⟨?_, ?_⟩⟩
    · exact ⟨_, List.mem_singleton.mpr rfl, by decide, by decide⟩
    · rintro ⟨e, he, hle, -⟩
      rw [List.mem_singleton.mp he] at hle
      exact absurd hle (by decide)
    · exact ((hsummed _ _).mp hv).2 ⟨_, List.mem_singleton.mpr rfl, by decide, by decide⟩
    · exact ⟨_, List.mem_singleton.mpr rfl, by decide, by decide⟩
    · rintro ⟨e, he, -, hlt⟩
      rw [List.mem_singleton.mp he] at hlt
      exact absurd hlt (by decide)

end LuksAndroid.Btrfs
