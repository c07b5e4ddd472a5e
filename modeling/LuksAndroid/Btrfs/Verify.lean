import LuksAndroid.Btrfs.Cursor.Walk
import LuksAndroid.Btrfs.Super.Code

/-!
# Verifying file data

`core/src/fs/btrfs/csum.rs`. One cursor walks forward through the checksum tree while
the sectors of the range are checked in order. What it should find is said per sector:
the item that covers it, wherever that item stands in the tree.
-/

namespace LuksAndroid.Btrfs

open Keyed Word

inductive Verified where
  | All
  | Partial (unchecked_sectors : Nat)
  | NoChecksumTree
deriving DecidableEq, Repr

/-- The key under which checksums are filed, for a disk address. -/
def csum_key (offset : Nat) : Key := ⟨EXTENT_CSUM_OBJECTID, EXTENT_CSUM_KEY, offset⟩

def is_csum_key (key : Key) : Bool :=
  key.objectid = EXTENT_CSUM_OBJECTID ∧ key.item_type = EXTENT_CSUM_KEY

/-- The inner loop: step forward until the item under the cursor could cover `target`. -/
def seek_csum (read : Reader) (width sector target : Nat) : Nat → Cursor → Except LuksError Cursor
  | 0, c => return c
  | rounds + 1, c => do
    if ¬ c.valid then return c
    let key ← c.key
    if ¬ is_csum_key key then
      -- Before the run the cursor steps in, after it there is nothing more to find.
      if key < csum_key 0 then return ← seek_csum read width sector target rounds (← c.advance read)
      return c
    let covered := (← c.data).length / width * sector
    if wrapping_add key.offset covered ≤ target then
      return ← seek_csum read width sector target rounds (← c.advance read)
    return c

def csum_at (c : Cursor) (target width sector : Nat) : Except LuksError (Option Bytes) := do
  if ¬ c.valid then return none
  let key ← c.key
  if ¬ is_csum_key key ∨ key.offset > target then return none
  let data ← c.data
  let index := (target - key.offset) / sector
  if index * width + width > data.length then return none
  return some (data.slice (index * width) width)

variable (sha256 : Digest)

/-- The outer loop, over the sectors from the `i`-th on. -/
def verify_sectors (read : Reader) (csum_type : CsumType) (sector logical : Nat) :
    List Bytes → Nat → Cursor → Nat → Except LuksError Nat
  | [], _, _, unchecked => return unchecked
  | chunk :: rest, i, c, unchecked => do
    let target := wrapping_add logical (i * sector)
    let c ← seek_csum read csum_type.size sector target (c.remaining read) c
    match ← csum_at c target csum_type.size sector with
    | none => verify_sectors read csum_type sector logical rest (i + 1) c (unchecked + 1)
    | some stored =>
      if ¬ csum_type.verify sha256 stored chunk then throw (.FsChecksumMismatch "btrfs file data")
      verify_sectors read csum_type sector logical rest (i + 1) c unchecked

def chunk_at (sector : Nat) (data : Bytes) (i : Nat) : Bytes := data.slice (i * sector) sector

/-- `data.chunks_exact(sector)`. -/
def chunks_exact (sector : Nat) (data : Bytes) : List Bytes :=
  (List.range (data.length / sector)).map (chunk_at sector data)

def verify_data (fs : Mount) (csum_tree : Option TreeRoot) (logical : Nat) (data : Bytes) :
    Except LuksError Verified :=
  match csum_tree with
  | none => return .NoChecksumTree
  | some csum_root => do
    let sector := fs.sb.sector_size
    if sector = 0 ∨ logical % sector ≠ 0 ∨ data.length % sector ≠ 0 then
      throw (.CorruptFs "btrfs data checksum asked for a range that is not whole sectors")
    let cursor ← Cursor.search_le fs.read_node csum_root.bytenr (csum_key logical)
    let unchecked ← verify_sectors sha256 fs.read_node fs.sb.csum_type sector logical
      (chunks_exact sector data) 0 cursor 0
    return if unchecked = 0 then .All else .Partial unchecked

/-! ## Sector by sector -/

/-- The checksum items of a tree. -/
def csumItems (items : List LeafItem) : List LeafItem :=
  itemsFor EXTENT_CSUM_OBJECTID EXTENT_CSUM_KEY items

/-- The first address behind the sectors that an item has checksums for. -/
def csumEnd (width sector : Nat) (it : LeafItem) : Nat :=
  it.key.offset + it.data.length / width * sector

/-- The item has a checksum for the sector at `target`. -/
def covers (width sector target : Nat) (it : LeafItem) : Bool :=
  it.key.offset ≤ target ∧ target < csumEnd width sector it

/-- The checksum of the sector at `target`. -/
def storedCsum (width sector target : Nat) (it : LeafItem) : Bytes :=
  it.data.slice ((target - it.key.offset) / sector * width) width

/-- Ranges of 64-bit addresses of which no two overlap. -/
structure CsumsApart (width sector : Nat) (csums : List LeafItem) : Prop where
  apart : ∀ a ∈ csums, ∀ b ∈ csums, a ≠ b →
    csumEnd width sector a ≤ b.key.offset ∨ csumEnd width sector b ≤ a.key.offset
  addresses : ∀ it ∈ csums, csumEnd width sector it < size

/-- A request for the whole sectors of `data` at `logical`, against the checksums of a tree. -/
structure Request where
  csum_type : CsumType
  sector : Nat
  logical : Nat
  data : Bytes
  csums : List LeafItem

namespace Request

variable (r : Request)

def sectors : Nat := r.data.length / r.sector

def target (i : Nat) : Nat := r.logical + i * r.sector

/-- Some item covers the `i`-th sector. -/
def Covered (i : Nat) : Prop := ∃ it ∈ r.csums, covers r.csum_type.size r.sector (r.target i) it

/-- Some item covers the `i`-th sector and holds another checksum than that of its data. -/
def Differs (i : Nat) : Prop :=
  ∃ it ∈ r.csums, covers r.csum_type.size r.sector (r.target i) it ∧
    ¬ r.csum_type.verify sha256 (storedCsum r.csum_type.size r.sector (r.target i) it)
      (chunk_at r.sector r.data i)

instance (i : Nat) : Decidable (r.Covered i) := inferInstanceAs (Decidable (∃ it ∈ r.csums, _))

instance (i : Nat) : Decidable (r.Differs sha256 i) := inferInstanceAs (Decidable (∃ it ∈ r.csums, _))

/-- How many sectors no item covers. -/
def uncovered : Nat := (List.range r.sectors).countP fun i => ¬ r.Covered i

/-- What the answer says about the sectors. -/
structure Answered (answer : Except LuksError Verified) : Prop where
  error_iff : (∃ e, answer = .error e) ↔ ∃ i < r.sectors, r.Differs sha256 i
  all_iff : answer = .ok .All ↔ ∀ i < r.sectors, r.Covered i ∧ ¬ r.Differs sha256 i
  rest : (∀ i < r.sectors, ¬ r.Differs sha256 i) → (∃ i < r.sectors, ¬ r.Covered i) →
    answer = .ok (.Partial r.uncovered)

end Request

/-! ## The inner loop -/

section Walk

variable {read : Reader} {node_size root level : Nat} {items : List LeafItem}

theorem is_csum_key_iff {key : Key} :
    is_csum_key key = true ↔ key.objectid = EXTENT_CSUM_OBJECTID ∧ key.item_type = EXTENT_CSUM_KEY := by
  simp [is_csum_key]

theorem mem_csumItems {it : LeafItem} : it ∈ csumItems items ↔ it ∈ items ∧ is_csum_key it.key := by
  simp [csumItems, itemsFor, is_csum_key]

theorem CsumsApart.singleton {width sector : Nat} {it : LeafItem} (h : csumEnd width sector it < size) :
    CsumsApart width sector (csumItems [it]) := by
  have heq {a : LeafItem} (ha : a ∈ csumItems [it]) : a = it := List.mem_singleton.mp (mem_csumItems.mp ha).1
  refine ⟨fun a ha b hb hne => absurd ((heq ha).trans (heq hb).symm) hne, fun a ha => ?_⟩
  rw [heq ha]
  exact h

/-- The items that the inner loop steps over. -/
def skips (width sector target : Nat) (it : LeafItem) : Bool :=
  if is_csum_key it.key then csumEnd width sector it ≤ target else it.key < csum_key 0

theorem seek_csum_spec {width sector : Nat} (target : Nat) {c : Cursor} {before after : List LeafItem}
    (hat : Cursor.At (seen read) node_size items c before after)
    (hends : ∀ it ∈ after, is_csum_key it.key → csumEnd width sector it < size) :
    ∃ c', seek_csum read width sector target (c.remaining read) c = .ok c' ∧
      Cursor.At (seen read) node_size items c' (before ++ after.takeWhile (skips width sector target))
        (after.dropWhile (skips width sector target)) := by
  rw [hat.remaining_eq]
  induction after generalizing c before with
  | nil => exact ⟨c, rfl, by simpa using hat⟩
  | cons x after ih =>
    have hvalid := hat.valid_iff.mpr (by simp)
    obtain ⟨hkey, hdata⟩ := hat.reads
    obtain ⟨c₁, hstep, hat₁⟩ := Cursor.advance_spec hat
    obtain ⟨c', hrun, hat'⟩ := ih hat₁ fun it hit => hends it (List.mem_cons_of_mem _ hit)
    have hseek : seek_csum read width sector target (x :: after).length c =
        if skips width sector target x then seek_csum read width sector target after.length c₁
        else .ok c := by
      rw [List.length_cons, seek_csum]
      simp only [hvalid, not_true_eq_false, if_false, hkey, hdata, hstep, bind, Except.bind, pure, Except.pure]
      by_cases hcsum : is_csum_key x.key = true
      · have hlt := hends x (by simp) hcsum
        unfold csumEnd at hlt
        by_cases hend : x.key.offset + x.data.length / width * sector ≤ target
        · simp [hcsum, wrapping_add_of_lt hlt, skips, csumEnd, hend, hrun]
        · simp [hcsum, wrapping_add_of_lt hlt, skips, csumEnd, hend]
      · by_cases hbefore : x.key < csum_key 0
        · simp [hcsum, skips, hbefore, hrun]
        · simp [hcsum, skips, hbefore]
    rw [hseek]
    by_cases hskip : skips width sector target x = true
    · simp only [hskip, if_true]
      refine ⟨c', hrun, ?_⟩
      simpa [List.takeWhile_cons, List.dropWhile_cons, hskip] using hat'
    · refine ⟨c, if_neg hskip, ?_⟩
      simpa [List.takeWhile_cons, List.dropWhile_cons, hskip] using hat

theorem csum_at_spec {width sector target : Nat} (hwidth : 0 < width) (hsector : 0 < sector) {c : Cursor}
    {before after : List LeafItem} (hat : Cursor.At (seen read) node_size items c before after) :
    csum_at c target width sector =
      .ok ((after.head?.filter fun x => is_csum_key x.key ∧ covers width sector target x).map
        (storedCsum width sector target)) := by
  cases after with
  | nil =>
    have hvalid : c.valid = false := by simpa using hat.valid_iff
    simp [csum_at, hvalid, pure, Except.pure]
  | cons x after =>
    have hvalid := hat.valid_iff.mpr (by simp)
    obtain ⟨hkey, hdata⟩ := hat.reads
    have hroom : (target - x.key.offset) / sector * width + width ≤ x.data.length ↔
        target - x.key.offset < x.data.length / width * sector := by
      rw [← Nat.div_lt_iff_lt_mul hsector, ← Nat.succ_mul, ← Nat.le_div_iff_mul_le hwidth,
        Nat.succ_le_iff]
    have hcovers : covers width sector target x = true ↔ x.key.offset ≤ target ∧
        (target - x.key.offset) / sector * width + width ≤ x.data.length := by
      unfold covers csumEnd
      rw [hroom, decide_eq_true_eq]
      omega
    by_cases hcsum : is_csum_key x.key = true
    · by_cases hle : x.key.offset ≤ target
      · by_cases hfits : (target - x.key.offset) / sector * width + width ≤ x.data.length
        · have hc := hcovers.mpr ⟨hle, hfits⟩
          simp [csum_at, hvalid, hkey, hdata, bind, Except.bind, hcsum, not_lt.mpr hle, not_lt.mpr hfits, hc,
            storedCsum, pure, Except.pure]
        · have hc : covers width sector target x = false := by
            rw [← Bool.not_eq_true, hcovers]
            exact fun h => hfits h.2
          simp [csum_at, hvalid, hkey, hdata, bind, Except.bind, hcsum, not_lt.mpr hle, not_le.mp hfits, hc,
            pure, Except.pure]
      · have hc : covers width sector target x = false := by
          rw [← Bool.not_eq_true, hcovers]
          exact fun h => hle h.1
        simp [csum_at, hvalid, hkey, bind, Except.bind, hcsum, not_le.mp hle, hc, pure, Except.pure]
    · simp [csum_at, hvalid, hkey, bind, Except.bind, hcsum, pure, Except.pure]

/-! ## One sector -/

/-- No item before the cursor reaches the address. -/
def Passed (width sector target : Nat) (before : List LeafItem) : Prop :=
  ∀ it ∈ before, is_csum_key it.key → csumEnd width sector it ≤ target

theorem Passed.mono {width sector target target' : Nat} {before : List LeafItem}
    (h : Passed width sector target before) (hle : target ≤ target') : Passed width sector target' before := by
  intro it hit hcsum
  exact le_trans (h it hit hcsum) hle

theorem Passed.seek {width sector target : Nat} {before after : List LeafItem}
    (h : Passed width sector target before) :
    Passed width sector target (before ++ after.takeWhile (skips width sector target)) := by
  intro it hit hcsum
  rcases List.mem_append.mp hit with hit | hit
  · exact h it hit hcsum
  · have hskip := List.mem_takeWhile_imp hit
    simpa [skips, hcsum] using hskip

/-- Where the inner loop stops is the only place where an item that covers the address can be. -/
theorem covering_at_stop {width sector target : Nat} {before after : List LeafItem}
    (hapart : CsumsApart width sector (csumItems (before ++ after)))
    (hsorted : Sorted LeafItem.key (before ++ after)) (hpassed : Passed width sector target before)
    (hstop : ∀ x, after.head? = some x → skips width sector target x = false) {it : LeafItem}
    (hit : it ∈ csumItems (before ++ after)) (hcovers : covers width sector target it) :
    after.head? = some it := by
  obtain ⟨hmem, hcsum⟩ := mem_csumItems.mp hit
  simp only [covers, decide_eq_true_eq] at hcovers
  rcases List.mem_append.mp hmem with hmem | hmem
  · have := hpassed it hmem hcsum
    omega
  · obtain ⟨x, rest, rfl⟩ := List.exists_cons_of_ne_nil (List.ne_nil_of_mem hmem)
    rcases List.mem_cons.mp hmem with rfl | hrest
    · rfl
    · -- The item stands behind the one under the cursor, which is not skipped: too far.
      exfalso
      have hlt := Key.lt_iff.mp ((sorted_cons.mp (sorted_append.mp hsorted).2.1).1 it hrest)
      have hx := hstop x rfl
      have hxmem : x ∈ before ++ x :: rest := by simp
      rw [is_csum_key_iff] at hcsum
      by_cases hxc : is_csum_key x.key = true
      · simp only [skips, hxc, if_true, decide_eq_false_iff_not, not_le] at hx
        have hxit : x ≠ it := by
          rintro rfl
          omega
        have hor := hapart.apart x (mem_csumItems.mpr ⟨hxmem, hxc⟩) it hit hxit
        unfold csumEnd at hor hx hcovers
        rw [is_csum_key_iff] at hxc
        omega
      · simp only [skips, hxc, Bool.false_eq_true, if_false, decide_eq_false_iff_not, Key.lt_iff, csum_key] at hx
        rw [is_csum_key_iff] at hxc
        omega

/-- The sectors of a request, checked against the checksums of a well-formed tree. -/
structure Request.Fits (r : Request) (items : List LeafItem) : Prop where
  csums : r.csums = csumItems items
  sorted : Sorted LeafItem.key items
  apart : CsumsApart r.csum_type.size r.sector r.csums
  sector_pos : 0 < r.sector
  addresses : r.target r.sectors ≤ size

theorem CsumType.size_pos (t : CsumType) : 0 < t.size := by
  cases t <;> simp [CsumType.size]

namespace Request.Fits

variable {r : Request}

theorem target_lt (h : r.Fits items) {i : Nat} (hi : i < r.sectors) :
    wrapping_add r.logical (i * r.sector) = r.target i := by
  have hmul : (i + 1) * r.sector ≤ r.sectors * r.sector := Nat.mul_le_mul_right _ hi
  have hpos := h.sector_pos
  have haddr := h.addresses
  unfold Request.target at haddr
  rw [Nat.succ_mul] at hmul
  exact wrapping_add_of_lt (by omega)

theorem look (h : r.Fits items) {c : Cursor} {before after : List LeafItem} {i : Nat}
    (hat : Cursor.At (seen read) node_size items c before after)
    (hpassed : Passed r.csum_type.size r.sector (r.target i) before) :
    ∃ c' before' after' found,
      seek_csum read r.csum_type.size r.sector (r.target i) (c.remaining read) c = .ok c' ∧
      Cursor.At (seen read) node_size items c' before' after' ∧
      Passed r.csum_type.size r.sector (r.target i) before' ∧
      csum_at c' (r.target i) r.csum_type.size r.sector =
        .ok (found.map (storedCsum r.csum_type.size r.sector (r.target i))) ∧
      ∀ it, it ∈ r.csums ∧ covers r.csum_type.size r.sector (r.target i) it ↔ found = some it := by
  have hends : ∀ it ∈ after, is_csum_key it.key → csumEnd r.csum_type.size r.sector it < size := by
    intro it hit hcsum
    apply h.apart.addresses
    rw [h.csums, mem_csumItems, hat.items_eq]
    exact ⟨List.mem_append_right _ hit, hcsum⟩
  obtain ⟨c', hrun, hat'⟩ := seek_csum_spec (r.target i) hat hends
  refine ⟨c', _, _, _, hrun, hat', hpassed.seek, csum_at_spec (CsumType.size_pos _) h.sector_pos hat', ?_⟩
  have hsorted := h.sorted
  have hapart := h.apart
  rw [h.csums] at hapart
  rw [hat'.items_eq] at hsorted hapart
  intro it
  rw [Option.filter_eq_some_iff, h.csums, hat'.items_eq]
  constructor
  · rintro ⟨hmem, hcovers⟩
    refine ⟨covering_at_stop hapart hsorted hpassed.seek ?_ hmem hcovers, ?_⟩
    · intro x hx
      have hnot := List.head?_dropWhile_not (skips r.csum_type.size r.sector (r.target i)) after
      rw [hx] at hnot
      simpa using hnot
    · simpa [hcovers] using (mem_csumItems.mp hmem).2
  · rintro ⟨hhead, hit⟩
    simp only [Bool.decide_and, Bool.decide_eq_true, Bool.and_eq_true] at hit
    refine ⟨mem_csumItems.mpr ⟨?_, hit.1⟩, hit.2⟩
    exact List.mem_append_right _ (List.mem_of_mem_head? hhead)

theorem verify_sectors_spec (h : r.Fits items) (n i unchecked : Nat) {c : Cursor}
    {before after : List LeafItem} (hn : i + n ≤ r.sectors)
    (hat : Cursor.At (seen read) node_size items c before after)
    (hpassed : Passed r.csum_type.size r.sector (r.target i) before) :
    verify_sectors sha256 read r.csum_type r.sector r.logical
        ((List.range' i n).map (chunk_at r.sector r.data)) i c unchecked =
      if ∃ j ∈ List.range' i n, r.Differs sha256 j then .error (.FsChecksumMismatch "btrfs file data")
      else .ok (unchecked + (List.range' i n).countP fun j => ¬ r.Covered j) := by
  induction n generalizing c before after i unchecked with
  | zero => simp [verify_sectors, pure, Except.pure]
  | succ n ih =>
    obtain ⟨c', before', after', found, hseek, hat', hpassed', hlook, hfound⟩ := h.look hat hpassed
    have hnext : Passed r.csum_type.size r.sector (r.target (i + 1)) before' :=
      hpassed'.mono (by unfold Request.target; rw [Nat.succ_mul]; omega)
    rw [List.range'_succ, List.map_cons, verify_sectors]
    simp only [h.target_lt (by omega : i < r.sectors), hseek, hlook, bind, Except.bind]
    cases found with
    | none =>
      have hcov : ¬ r.Covered i := by
        rintro ⟨it, hit⟩
        cases (hfound it).mp hit
      have hdiff : ¬ r.Differs sha256 i := by
        rintro ⟨it, hit, hcovers, -⟩
        exact hcov ⟨it, hit, hcovers⟩
      rw [Option.map_none]
      simp only [ih (i + 1) (unchecked + 1) (by omega) hat' hnext, List.mem_cons, exists_eq_or_imp, hdiff, false_or,
        List.countP_cons,
        hcov, not_false_eq_true, decide_true, if_true]
      split_ifs
      · rfl
      · rw [Nat.add_assoc, Nat.add_comm 1]
    | some it =>
      obtain ⟨hit, hcovers⟩ := (hfound it).mpr rfl
      have hcov : r.Covered i := ⟨it, hit, hcovers⟩
      have hdiff : r.Differs sha256 i ↔
          ¬ r.csum_type.verify sha256 (storedCsum r.csum_type.size r.sector (r.target i) it)
            (chunk_at r.sector r.data i) := by
        constructor
        · rintro ⟨other, hmem, hother, hne⟩
          cases (hfound other).mp ⟨hmem, hother⟩
          exact hne
        · intro hne
          exact ⟨it, hit, hcovers, hne⟩
      rw [Option.map_some]
      by_cases hd : r.Differs sha256 i
      · simp [hdiff.mp hd, hd, throw, throwThe, MonadExceptOf.throw]
      · have hok := not_not.mp (mt hdiff.mpr hd)
        simp only [hok, not_true_eq_false, if_false, ih (i + 1) unchecked (by omega) hat' hnext, List.mem_cons,
          exists_eq_or_imp, hd, false_or, List.countP_cons, hcov, decide_false, Bool.false_eq_true, Nat.add_zero]

end Request.Fits

theorem verify_sectors_parked (csum_type : CsumType) (sector logical : Nat) {c : Cursor}
    (hc : c.valid = false) (chunks : List Bytes) (i unchecked : Nat) :
    verify_sectors sha256 read csum_type sector logical chunks i c unchecked =
      .ok (unchecked + chunks.length) := by
  induction chunks generalizing i unchecked with
  | nil => rfl
  | cons chunk rest ih =>
    have hseek (target rounds : Nat) : seek_csum read csum_type.size sector target rounds c = .ok c := by
      cases rounds <;> simp [seek_csum, hc, pure, Except.pure]
    have hlook (target : Nat) : csum_at c target csum_type.size sector = .ok none := by
      simp [csum_at, hc, pure, Except.pure]
    rw [verify_sectors]
    simp only [hseek, hlook, bind, Except.bind, ih, List.length_cons]
    rw [Nat.add_assoc, Nat.add_comm 1]

end Walk

/-! ## The whole request -/

/-- A request for the sectors of `data` at `logical`, as a mounted filesystem serves it. -/
def Mount.request (fs : Mount) (items : List LeafItem) (logical : Nat) (data : Bytes) : Request where
  csum_type := fs.sb.csum_type
  sector := fs.sb.sector_size
  logical := logical
  data := data
  csums := csumItems items

/-- A checksum tree with the given items, none of which overlap, and whole sectors to verify. -/
structure Verifies (fs : Mount) (csum_root : TreeRoot) (items : List LeafItem) (logical : Nat)
    (data : Bytes) : Prop where
  tree : ∃ level, WellFormed (seen fs.read_node) fs.sb.node_size level csum_root.bytenr items
  apart : CsumsApart fs.sb.csum_type.size fs.sb.sector_size (csumItems items)
  sector_pos : 0 < fs.sb.sector_size
  aligned : logical % fs.sb.sector_size = 0
  whole : data.length % fs.sb.sector_size = 0
  addresses : logical + data.length ≤ size

section Whole

variable {fs : Mount} {csum_root : TreeRoot} {items : List LeafItem} {logical : Nat} {data : Bytes}

theorem Verifies.fits (h : Verifies fs csum_root items logical data) :
    (fs.request items logical data).Fits items where
  csums := rfl
  sorted := h.tree.choose_spec.sorted
  apart := h.apart
  sector_pos := h.sector_pos
  addresses := by
    have hdiv := Nat.div_mul_cancel (Nat.dvd_of_mod_eq_zero h.whole)
    change logical + data.length / fs.sb.sector_size * fs.sb.sector_size ≤ size
    rw [hdiv]
    exact h.addresses

/-- The answer that goes with a number of unchecked sectors. -/
def answer (unchecked : Nat) : Verified := if unchecked = 0 then .All else .Partial unchecked

theorem Verifies.verify_data_eq (h : Verifies fs csum_root items logical data) {c : Cursor}
    (hc : Cursor.search_le fs.read_node csum_root.bytenr (csum_key logical) = .ok c) :
    verify_data sha256 fs (some csum_root) logical data =
      (verify_sectors sha256 fs.read_node fs.sb.csum_type fs.sb.sector_size logical
        (chunks_exact fs.sb.sector_size data) 0 c 0).map answer := by
  have hwhole : ¬ (fs.sb.sector_size = 0 ∨ logical % fs.sb.sector_size ≠ 0 ∨
      data.length % fs.sb.sector_size ≠ 0) := by
    simp [h.sector_pos.ne', h.aligned, h.whole]
  simp only [verify_data, if_neg hwhole, hc, bind, Except.bind, pure, Except.pure]
  cases verify_sectors sha256 fs.read_node fs.sb.csum_type fs.sb.sector_size logical
    (chunks_exact fs.sb.sector_size data) 0 c 0 <;> rfl

theorem Verifies.verify_data_above (h : Verifies fs csum_root items logical data)
    (habove : ∀ it ∈ items, csum_key logical < it.key) :
    verify_data sha256 fs (some csum_root) logical data =
      .ok (answer (fs.request items logical data).sectors) := by
  obtain ⟨level, htree⟩ := h.tree
  obtain ⟨c, hrun, ⟨before, x, after, hat, hle, -⟩ | ⟨hinvalid, -⟩⟩ := Cursor.search_le_spec htree (csum_key logical)
  · have hx : x ∈ items := by rw [hat.items_eq]; simp
    exact absurd hle (not_le.mpr (habove x hx))
  · rw [h.verify_data_eq sha256 hrun, verify_sectors_parked sha256 _ _ _ hinvalid]
    simp [Except.map, chunks_exact, Request.sectors, Mount.request]

theorem Verifies.verify_data_reached (h : Verifies fs csum_root items logical data)
    (hreached : ∃ it ∈ items, it.key ≤ csum_key logical) :
    verify_data sha256 fs (some csum_root) logical data =
      if ∃ i < (fs.request items logical data).sectors, (fs.request items logical data).Differs sha256 i then
        .error (.FsChecksumMismatch "btrfs file data")
      else .ok (answer (fs.request items logical data).uncovered) := by
  obtain ⟨level, htree⟩ := h.tree
  obtain ⟨c, hrun, ⟨before, x, after, hat, hle, -⟩ | ⟨-, habove⟩⟩ := Cursor.search_le_spec htree (csum_key logical)
  · have hpassed : Passed fs.sb.csum_type.size fs.sb.sector_size logical before := by
      intro it hit hcsum
      have hsorted := htree.sorted
      rw [hat.items_eq] at hsorted
      have hlt := (sorted_append.mp hsorted).2.2 it hit x (by simp)
      -- A key between two checksum keys is a checksum key.
      have hx : is_csum_key x.key = true := by
        rw [is_csum_key_iff] at hcsum ⊢
        have hlt' := Key.lt_iff.mp hlt
        have hle' := mt Key.lt_iff.mpr (not_lt.mpr hle)
        simp only [csum_key] at hle'
        omega
      have hmem (a : LeafItem) (ha : a ∈ before ++ x :: after) (hcsum : is_csum_key a.key) :
          a ∈ csumItems items := by
        rw [mem_csumItems, hat.items_eq]
        exact ⟨ha, hcsum⟩
      have hor := h.apart.apart it (hmem it (by simp [hit]) hcsum) x (hmem x (by simp) hx)
        (by rintro rfl; exact lt_irrefl _ hlt)
      rw [is_csum_key_iff] at hcsum hx
      have hlt' := Key.lt_iff.mp hlt
      have hle' := mt Key.lt_iff.mpr (not_lt.mpr hle)
      simp only [csum_key] at hle'
      unfold csumEnd at hor ⊢
      omega
    have hloop := h.fits.verify_sectors_spec sha256 (fs.request items logical data).sectors 0 0 (by omega) hat
      (by simpa [Request.target, Mount.request] using hpassed)
    rw [← List.range_eq_range', Nat.zero_add] at hloop
    rw [h.verify_data_eq sha256 hrun]
    refine (congrArg (Except.map answer) hloop).trans ?_
    simp only [List.mem_range]
    split_ifs <;> rfl
  · obtain ⟨it, hit, hle⟩ := hreached
    exact absurd hle (not_le.mpr (habove it hit))

end Whole

/-! ## What the answer says -/

namespace Request

variable {r : Request}

theorem Differs.covered {sha256 : Digest} {i : Nat} (h : r.Differs sha256 i) : r.Covered i := by
  obtain ⟨it, hit, hcovers, -⟩ := h
  exact ⟨it, hit, hcovers⟩

theorem answer_eq_all {n : Nat} : answer n = .All ↔ n = 0 := by
  unfold answer
  split_ifs with h <;> simp [h]

theorem answer_of_pos {n : Nat} (h : n ≠ 0) : answer n = .Partial n := if_neg h

theorem uncovered_eq_zero : r.uncovered = 0 ↔ ∀ i < r.sectors, r.Covered i := by
  unfold uncovered
  rw [List.countP_eq_zero]
  simp

theorem uncovered_eq_sectors : r.uncovered = r.sectors ↔ ∀ i < r.sectors, ¬ r.Covered i := by
  have hlen := List.length_range (n := r.sectors)
  unfold uncovered
  nth_rewrite 2 [← hlen]
  rw [List.countP_eq_length]
  simp

theorem answered_of_sectors (r : Request) :
    r.Answered sha256 (if ∃ i < r.sectors, r.Differs sha256 i then
      .error (.FsChecksumMismatch "btrfs file data") else .ok (answer r.uncovered)) := by
  by_cases hdiff : ∃ i < r.sectors, r.Differs sha256 i
  · rw [if_pos hdiff]
    refine ⟨by simp [hdiff], ?_, ?_⟩
    · simp only [reduceCtorEq, false_iff]
      intro hall
      obtain ⟨i, hi, hd⟩ := hdiff
      exact (hall i hi).2 hd
    · intro hnone
      obtain ⟨i, hi, hd⟩ := hdiff
      exact absurd hd (hnone i hi)
  · rw [if_neg hdiff]
    refine ⟨by simp [hdiff], ?_, ?_⟩
    · rw [Except.ok.injEq, answer_eq_all, uncovered_eq_zero]
      constructor
      · intro hall i hi
        exact ⟨hall i hi, fun hd => hdiff ⟨i, hi, hd⟩⟩
      · intro hall i hi
        exact (hall i hi).1
    · rintro - ⟨i, hi, hcov⟩
      rw [answer_of_pos]
      intro hzero
      exact hcov (uncovered_eq_zero.mp hzero i hi)

/-- Counting every sector as unchecked is right exactly when no item covers one. -/
theorem answered_unchecked_iff :
    r.Answered sha256 (.ok (answer r.sectors)) ↔ ∀ i < r.sectors, ¬ r.Covered i := by
  constructor
  · intro h i hi hcov
    have hnone : ∀ j < r.sectors, ¬ r.Differs sha256 j := by
      intro j hj hd
      obtain ⟨e, he⟩ := h.error_iff.mpr ⟨j, hj, hd⟩
      cases he
    have hpos : r.sectors ≠ 0 := by omega
    by_cases hall : ∀ j < r.sectors, r.Covered j
    · have hanswer := h.all_iff.mpr fun j hj => ⟨hall j hj, hnone j hj⟩
      rw [Except.ok.injEq, answer_eq_all] at hanswer
      exact hpos hanswer
    · push Not at hall
      have hanswer := h.rest hnone hall
      rw [answer_of_pos hpos, Except.ok.injEq, Verified.Partial.injEq] at hanswer
      exact uncovered_eq_sectors.mp hanswer.symm i hi hcov
  · intro hnone
    have hdiff : ¬ ∃ i < r.sectors, r.Differs sha256 i := by
      rintro ⟨i, hi, hd⟩
      exact hnone i hi hd.covered
    have hanswered := answered_of_sectors sha256 r
    rwa [if_neg hdiff, uncovered_eq_sectors.mpr hnone] at hanswered

end Request

/-- The answer is right unless the walk starts before every key of the tree and some item covers a
sector of the range. -/
theorem verify_data_answered_iff {fs : Mount} {csum_root : TreeRoot} {items : List LeafItem} {logical : Nat}
    {data : Bytes} (h : Verifies fs csum_root items logical data) :
    (fs.request items logical data).Answered sha256 (verify_data sha256 fs (some csum_root) logical data) ↔
      (∃ it ∈ items, it.key ≤ csum_key logical) ∨
        ∀ i < (fs.request items logical data).sectors, ¬ (fs.request items logical data).Covered i := by
  by_cases hreached : ∃ it ∈ items, it.key ≤ csum_key logical
  · rw [h.verify_data_reached sha256 hreached]
    simp [hreached, Request.answered_of_sectors]
  · have habove : ∀ it ∈ items, csum_key logical < it.key := by
      intro it hit
      exact not_le.mp fun hle => hreached ⟨it, hit, hle⟩
    rw [h.verify_data_above sha256 habove, Request.answered_unchecked_iff]
    simp [hreached]

/-! ## A tree with one checksum -/

def lateSuper : Superblock where
  fsid := []
  bytenr := 65536
  generation := 7
  root := 1048576
  chunk_root := 2097152
  chunk_root_generation := 1
  log_root := 0
  total_bytes := 1073741824
  bytes_used := 1048576
  root_dir_objectid := 6
  num_devices := 1
  dev_id := 1
  sector_size := 4096
  node_size := 16384
  stripe_size := 65536
  incompat_flags := INCOMPAT_SKINNY_METADATA
  compat_ro_flags := 0
  csum_type := .Crc32c
  root_level := 0
  chunk_root_level := 0
  label := ""
  metadata_uuid := []
  sys_chunk_array := []

/-- The sector at 12288 has a checksum, and no other. -/
def lateItems : List LeafItem := [⟨csum_key 12288, [0xDE, 0xAD, 0xBE, 0xEF]⟩]

/-- So have two sectors from 20480 on. The one between has none. -/
def gapItems : List LeafItem :=
  lateItems ++ [⟨csum_key 20480, [0xDE, 0xAD, 0xBE, 0xEF, 0xFE, 0xED, 0xFA, 0xCE]⟩]

def lateRoot : TreeRoot := ⟨CSUM_TREE_OBJECTID, 1114112, 0, 0, 7, 0⟩

/-- A filesystem with these checksums. -/
def lateMount (items : List LeafItem) : Mount where
  device _ := .ok (.leaf ⟨1114112, 7, CSUM_TREE_OBJECTID, 1, [], [], items⟩)
  sb := lateSuper
  chunks := ⟨[]⟩
  fs_tree_root := ⟨FS_TREE_OBJECTID, 1130496, 0, 256, 7, 0⟩
  active_batch := none
  has_open_writer := false

theorem late_verifies {items : List LeafItem} (hsorted : Sorted LeafItem.key items)
    (hfits : leaf_payload_bytes items ≤ 16384)
    (hapart : CsumsApart 4 4096 (csumItems items)) {logical n : Nat} (hlogical : logical % 4096 = 0)
    (hn : logical + n * 4096 ≤ size) :
    Verifies (lateMount items) lateRoot items logical (List.replicate (n * 4096) 0) where
  tree := ⟨0, hsorted, [1114112], ⟨1114112, 7, CSUM_TREE_OBJECTID, 1, [], [], items⟩, rfl, hfits, rfl⟩
  apart := hapart
  sector_pos := (by decide : 0 < 4096)
  aligned := hlogical
  whole := by
    rw [List.length_replicate]
    exact Nat.mul_mod_left n 4096
  addresses := by
    rw [List.length_replicate]
    exact hn

theorem late_sectors (logical n : Nat) :
    ((lateMount lateItems).request lateItems logical (List.replicate (n * 4096) 0)).sectors = n := by
  unfold Request.sectors
  rw [show ((lateMount lateItems).request lateItems logical (List.replicate (n * 4096) 0)).data.length = n * 4096 from
    List.length_replicate]
  exact Nat.mul_div_cancel n (by decide : 0 < 4096)

/-- Asked from the first checksum on, the answer is right, across the gap too. -/
theorem verify_data_answered_from_csum :
    ∃ sha256, ((lateMount gapItems).request gapItems 12288 (List.replicate (4 * 4096) 0)).Answered sha256
      (verify_data sha256 (lateMount gapItems) (some lateRoot) 12288 (List.replicate (4 * 4096) 0)) := by
  have hverifies : Verifies (lateMount gapItems) lateRoot gapItems 12288 (List.replicate (4 * 4096) 0) :=
    late_verifies (by simp [Sorted, gapItems, lateItems, Key.lt_iff, csum_key]) (by decide)
      ⟨by decide +kernel, by decide +kernel⟩ (by decide) (by decide +kernel)
  refine ⟨⟨fun _ => List.replicate 32 0, fun _ => by simp⟩, ?_⟩
  refine (verify_data_answered_iff _ hverifies).mpr (.inl ?_)
  exact ⟨_, List.mem_cons_self, le_rfl⟩

/-- Asked one sector earlier, the checksum is not looked at. -/
theorem verify_data_misses_late_csum :
    ∃ sha256, Verifies (lateMount lateItems) lateRoot lateItems 8192 (List.replicate (2 * 4096) 0) ∧
      ¬ ((lateMount lateItems).request lateItems 8192 (List.replicate (2 * 4096) 0)).Answered sha256
        (verify_data sha256 (lateMount lateItems) (some lateRoot) 8192 (List.replicate (2 * 4096) 0)) := by
  have hlate : Verifies (lateMount lateItems) lateRoot lateItems 8192 (List.replicate (2 * 4096) 0) :=
    late_verifies (by simp [Sorted]) (by decide) (.singleton (by decide +kernel)) (by decide)
      (by decide +kernel)
  have habove : ∀ it ∈ lateItems, csum_key 8192 < it.key := by
    intro it hit
    rw [List.mem_singleton.mp hit, Key.lt_iff]
    simp [csum_key]
  have hsectors := late_sectors 8192 2
  refine ⟨⟨fun _ => List.replicate 32 0, fun _ => by simp⟩, hlate, ?_⟩
  rw [hlate.verify_data_above _ habove, Request.answered_unchecked_iff]
  intro hnone
  refine hnone 1 (by rw [hsectors]; decide) ⟨_, mem_csumItems.mpr ⟨List.mem_singleton.mpr rfl, rfl⟩, ?_⟩
  decide

end LuksAndroid.Btrfs
