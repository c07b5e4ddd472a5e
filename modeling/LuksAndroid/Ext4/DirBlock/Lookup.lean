import LuksAndroid.Ext4.DirBlock.Proofs

/-!
# Names in a directory block

A walk over a sound block finds the entries that its records hold. After a removal the name is
gone, after an insertion it is there, and every other name stands for what it stood for.
-/

namespace LuksAndroid.Ext4

open Word

/-- The inode of the first live record of the name. -/
def find (block name : Bytes) : Option Nat := find_in_block block name block.length block.length 0

/-- The records tile the block up to its checksum, which is in a record of its own that is not in use. -/
structure Sound (usable : Nat) (block : Bytes) (recs : List Rec) : Prop where
  tiled : Tiled block usable recs
  tail : usable = block.length ∨
    usable + DIR_TAIL_SIZE = block.length ∧ block.get usable 4 = 0 ∧ block.get (usable + 4) 2 = DIR_TAIL_SIZE
  nodup : ((entries recs).map (·.name)).Nodup

section

variable {block block' name : Bytes} {usable : Nat} {recs : List Rec}

theorem find_in_block_tail (h : Sound usable block recs) (fuel : Nat) :
    find_in_block block name block.length fuel usable = none := by
  rcases fuel with - | fuel
  · rfl
  rw [find_in_block]
  rcases h.tail with hend | ⟨hend, hino, hlen⟩
  · rw [if_neg (by unfold DIRENT_HEADER; omega)]
  · unfold DIR_TAIL_SIZE at hend hlen
    have hentry : is_entry block name block.length usable = false := by
      unfold is_entry
      simp [hino]
    rw [if_pos (by unfold DIRENT_HEADER; omega), hlen, hentry]
    simp only [Bool.false_eq_true, if_false, hend]
    split
    · rfl
    · rcases fuel with - | fuel
      · rfl
      · rw [find_in_block, if_neg (by unfold DIRENT_HEADER; omega)]

theorem find_in_block_eq (h : Sound usable block recs) (l : List Rec) : ∀ (fuel p : Nat), l.length ≤ fuel →
    Tiles (RecordAt block) Rec.len p l usable →
    find_in_block block name block.length fuel p = ((entries l).find? (·.name = name)).map (·.ino) := by
  induction l with
  | nil =>
    intro fuel p _ htiles
    obtain rfl : p = usable := htiles
    exact find_in_block_tail h fuel
  | cons r rest ih =>
    rintro (_ | fuel) p hfuel ⟨hrec, htiles⟩
    · cases hfuel
    have husable := h.tiled.usable_le
    have hend := htiles.le.trans husable
    have hheader := hrec.header
    rw [find_in_block, if_pos (by omega)]
    simp only [hrec.len, hrec.step_ok hend, not_true_eq_false, if_false]
    rw [ih fuel (p + r.len) (by simpa using hfuel) htiles, entries_cons, List.find?_append]
    by_cases hentry : is_entry block name block.length p = true
    · obtain ⟨e, he, hname⟩ := (hrec.is_entry_iff hend).mp hentry
      obtain ⟨-, rfl⟩ := hrec.live_eq he
      have hname' : block.slice (p + DIRENT_HEADER) (block.get (p + 6) 1) = name := hname
      rw [if_pos hentry, he]
      simp [hname']
    · rw [if_neg hentry]
      have hnone : r.live.toList.find? (·.name = name) = none := by
        rw [List.find?_eq_none]
        intro e he hname
        exact hentry ((hrec.is_entry_iff hend).mpr ⟨e, Option.mem_toList.mp he, of_decide_eq_true hname⟩)
      rw [hnone, Option.none_or]

theorem find_eq (h : Sound usable block recs) (name : Bytes) :
    find block name = ((entries recs).find? (·.name = name)).map (·.ino) :=
  find_in_block_eq h recs block.length 0 h.tiled.length_le_block h.tiled.tiles

theorem find_eq_none_iff (h : Sound usable block recs) :
    find block name = none ↔ ∀ e ∈ entries recs, e.name ≠ name := by
  rw [find_eq h, Option.map_eq_none_iff, List.find?_eq_none]
  simp

theorem step_ok_of_broken (h : block.get 4 2 = 0) (limit : Nat) : step_ok block limit 0 = false := by
  unfold step_ok
  simp [h, DIRENT_HEADER]

/-- A block whose first record has no length holds nothing. -/
theorem find_of_broken (h : block.get 4 2 = 0) : find block name = none := by
  unfold find
  rcases block.length with - | fuel
  · rfl
  rw [find_in_block, step_ok_of_broken h]
  simp

/-! ## The checksum -/

theorem signed_eq (seed : Seed) (dir_ino generation : Nat) (block : Bytes) :
    signed_dir_block seed dir_ino generation block = block ∨ seed.enabled = true ∧ DIR_TAIL_SIZE ≤ block.length ∧
      ∃ v, v.length = 4 ∧ signed_dir_block seed dir_ino generation block = block.put (block.length - 4) v := by
  unfold signed_dir_block Seed.dir_block
  by_cases hdisabled : ¬ seed.enabled ∨ block.length < DIR_TAIL_SIZE
  · left
    rw [if_pos hdisabled]
  · right
    rw [if_neg hdisabled]
    rw [not_or, not_not, Nat.not_lt] at hdisabled
    exact ⟨hdisabled.1, hdisabled.2, _, Bytes.length_le _ _, rfl⟩

theorem signed_within (seed : Seed) (dir_ino generation : Nat) (block : Bytes) :
    OnlyWithin (block.length - 4) block.length block (signed_dir_block seed dir_ino generation block) := by
  rcases signed_eq seed dir_ino generation block with heq | ⟨-, hlength, v, hv, heq⟩
  · rw [heq]
    exact ⟨rfl, fun _ _ _ => rfl⟩
  · rw [heq]
    unfold DIR_TAIL_SIZE at hlength
    exact onlyWithin_put (Nat.le_refl _) (Nat.le_refl _) (by omega)

theorem Sound.signed {seed : Seed} (h : Sound usable block recs) (dir_ino generation : Nat)
    (hseed : seed.enabled = true → usable + DIR_TAIL_SIZE = block.length) :
    Sound usable (signed_dir_block seed dir_ino generation block) recs := by
  rcases signed_eq seed dir_ino generation block with heq | ⟨henabled, -⟩
  · rwa [heq]
  have hlength := hseed henabled
  have hwithin := signed_within seed dir_ino generation block
  unfold DIR_TAIL_SIZE at hlength
  have hget (o w : Nat) (ho : o + w ≤ block.length - 4) :
      (signed_dir_block seed dir_ino generation block).get o w = block.get o w :=
    congrArg Bytes.unle (hwithin.2 o w (.inl ho))
  refine ⟨⟨frame_tiles h.tiled.tiles hwithin (.inl (by omega)), ?_, ?_⟩, ?_, h.nodup⟩
  · rw [hwithin.1]
    exact h.tiled.usable_le
  · rw [hwithin.1]
    exact h.tiled.length_le
  · rw [hwithin.1, hget usable 4 (by omega), hget (usable + 4) 2 (by omega)]
    exact h.tail

/-! ## Blocks that can be read -/

theorem removed_of_broken (h : block.get 4 2 = 0) : removed block usable name = none := by
  unfold removed
  rcases block.length with - | fuel
  · rfl
  rw [remove_from_block, step_ok_of_broken h]
  simp

theorem inserted_of_broken (h : block.get 4 2 = 0) (ino : Nat) (file_type : FileType) :
    inserted block usable name ino file_type = none := by
  unfold inserted
  rcases block.length with - | fuel
  · rfl
  rw [insert_into_block, step_ok_of_broken h]
  simp

/-- The records are sound, or the first one has lost its length, and all walks end there. -/
def Readable (usable : Nat) (block : Bytes) : Prop := (∃ recs, Sound usable block recs) ∨ block.get 4 2 = 0

theorem removed_eq (h : Sound usable block recs) (name : Bytes) :
    (removed block usable name).map (·.1) = find block name := by
  rcases removed_spec h.tiled name with ⟨hnone, hrun⟩ |
    ⟨before, old, post, m, q, e, b, rfl, -, -, hold, hother, hname, -, -, hrun, -⟩
  · rw [hrun, (find_eq_none_iff h).mpr hnone]
    rfl
  · rw [hrun, find_eq h, entries_append, entries_append, hold, List.append_assoc, List.singleton_append,
      ← List.append_assoc, List.find?_append, List.find?_eq_none.mpr, Option.none_or,
      List.find?_cons_of_pos (by simpa using hname)]
    · rfl
    · intro x hx
      simpa using hother x hx

theorem Readable.removed_eq (h : Readable usable block) (name : Bytes) :
    (removed block usable name).map (·.1) = find block name := by
  rcases h with ⟨recs, h⟩ | hbroken
  · exact Ext4.removed_eq h name
  · rw [removed_of_broken hbroken, find_of_broken hbroken]
    rfl

/-- The checksum is seen by no walk. -/
theorem Readable.signed {seed : Seed} (h : Readable usable block) (dir_ino generation : Nat)
    (hseed : seed.enabled = true → usable + DIR_TAIL_SIZE = block.length) (hlength : 12 ≤ block.length) :
    Readable usable (signed_dir_block seed dir_ino generation block) ∧
      (∀ name, find (signed_dir_block seed dir_ino generation block) name = find block name) ∧
      ∀ name ino file_type, inserted (signed_dir_block seed dir_ino generation block) usable name ino file_type = none ↔
        inserted block usable name ino file_type = none := by
  rcases h with ⟨recs, h⟩ | hbroken
  · have hsigned := h.signed dir_ino generation hseed
    refine ⟨.inl ⟨recs, hsigned⟩, fun name => ?_, fun name ino file_type => ?_⟩
    · rw [find_eq hsigned, find_eq h]
    · rw [inserted_eq_none_iff hsigned.tiled, inserted_eq_none_iff h.tiled]
  · have hsigned : (signed_dir_block seed dir_ino generation block).get 4 2 = 0 := by
      rw [← hbroken]
      exact congrArg Bytes.unle ((signed_within seed dir_ino generation block).2 4 2 (.inl (by omega)))
    refine ⟨.inr hsigned, fun name => ?_, fun name ino file_type => ?_⟩
    · rw [find_of_broken hsigned, find_of_broken hbroken]
    · rw [inserted_of_broken hsigned, inserted_of_broken hbroken]

theorem Sound.replaced {recs' : List Rec} (h : Sound usable block recs) (htail : SameTail usable block block')
    (htiled : Tiled block' usable recs') (hnodup : ((entries recs').map (·.name)).Nodup) :
    Sound usable block' recs' := by
  have hget (o w : Nat) : block'.get (usable + o) w = block.get (usable + o) w := by
    unfold Bytes.get Bytes.slice
    rw [← List.drop_drop, ← List.drop_drop, htail.1]
  refine ⟨htiled, ?_, hnodup⟩
  rw [htail.2]
  rcases h.tail with hend | ⟨hend, hino, hlen⟩
  · exact .inl hend
  · exact .inr ⟨hend, (hget 0 4).trans hino, (hget 4 2).trans hlen⟩

/-! ## Removal -/

theorem Sound.removed {ino : Nat} (h : Sound usable block recs) (hfits : ¬ Wraps block usable name)
    (hrun : removed block usable name = some (ino, block')) :
    ∃ recs', Sound usable block' recs' ∧ entries recs' = (entries recs).eraseP (·.name = name) := by
  obtain ⟨htail, -, recs', htiled, hentries⟩ := ((remove_correct_iff h.tiled).mpr hfits).takes ino block' hrun
  refine ⟨recs', h.replaced htail htiled ?_, hentries⟩
  rw [hentries]
  exact h.nodup.sublist ((List.eraseP_sublist).map _)

theorem find_erased {recs' : List Rec} (h : Sound usable block recs) (h' : Sound usable block' recs')
    (hentries : entries recs' = (entries recs).eraseP (·.name = name)) :
    find block' name = none ∧ ∀ other, other ≠ name → find block' other = find block other := by
  have hnodup := h.nodup
  rcases List.exists_or_eq_self_of_eraseP (fun e : Live => decide (e.name = name)) (entries recs) with
    hsame | ⟨e, before, behind, hbefore, hname, hsplit, herased⟩
  · rw [hsame] at hentries
    have hnone : ∀ e ∈ entries recs, e.name ≠ name := by
      have := List.eraseP_eq_self_iff.mp hsame
      simpa using this
    refine ⟨(find_eq_none_iff h').mpr (by rwa [hentries]), fun other _ => ?_⟩
    rw [find_eq h', find_eq h, hentries]
  · rw [herased] at hentries
    rw [hsplit, List.map_append, List.map_cons] at hnodup
    obtain rfl := of_decide_eq_true hname
    constructor
    · rw [find_eq_none_iff h', hentries]
      intro x hx hx_name
      rcases List.mem_append.mp hx with hx | hx
      · exact hbefore x hx (decide_eq_true hx_name)
      · have hnot := (List.nodup_cons.mp (List.nodup_append.mp hnodup).2.1).1
        apply hnot
        rw [← hx_name]
        exact List.mem_map_of_mem hx
    · intro other hne
      rw [find_eq h', find_eq h, hentries, hsplit, List.find?_append, List.find?_append,
        List.find?_cons_of_neg (by simpa using Ne.symm hne)]

/-- A removal takes no room away. -/
theorem inserted_of_removed {ino ino' : Nat} {name' : Bytes} {file_type : FileType} (h : Tiled block usable recs)
    (hfits : ¬ Wraps block usable name) (hrun : removed block usable name = some (ino, block'))
    (hroom : inserted block usable name' ino' file_type ≠ none) :
    inserted block' usable name' ino' file_type ≠ none := by
  rcases removed_spec h name with ⟨-, hnone⟩ |
    ⟨before, old, post, m, q, e, b, rfl, hpre, hpost, -, -, -, -, hslack, hsome, hdone⟩
  · cases hnone.symm.trans hrun
  obtain ⟨-, rfl⟩ := Prod.mk.inj (Option.some.inj (hsome.symm.trans hrun))
  obtain ⟨hwithin, hm⟩ := hdone.resolve_right hfits
  obtain ⟨-, htiled⟩ := h.replace hpre hpost hwithin (show Tiles (RecordAt b) Rec.len q [m] (q + m.len) from ⟨hm, rfl⟩)
  rw [Ne, inserted_eq_none_iff htiled]
  rw [Ne, inserted_eq_none_iff h] at hroom
  intro hall
  apply hroom
  intro r hr
  rcases List.mem_append.mp hr with hr | hr
  · exact hall r (List.mem_append_left _ hr)
  rcases List.mem_append.mp hr with hr | hr
  · exact (hslack r hr).trans_lt (hall m (by simp))
  · exact hall r (by simp [hr])

/-- What a removal leaves of a block. Below 64 KiB it takes the name only, and leaves room for one as long. -/
structure Unnamed (usable : Nat) (block name block' : Bytes) : Prop where
  length : block'.length = block.length
  readable : Readable usable block'
  gone : find block' name = none
  fades : ∀ other, find block' other = none ∨ find block' other = find block other
  keeps : usable < 65536 → ∀ other, other ≠ name → find block' other = find block other
  room : usable < 65536 → ∀ name' : Bytes, name'.length = name.length → ∀ ino file_type,
    inserted block' usable name' ino file_type ≠ none
  roomy : usable < 65536 → ∀ name' ino file_type, inserted block usable name' ino file_type ≠ none →
    inserted block' usable name' ino file_type ≠ none

theorem Readable.removed {ino : Nat} (h : Readable usable block)
    (hrun : removed block usable name = some (ino, block')) : Unnamed usable block name block' := by
  rcases h with ⟨recs, h⟩ | hbroken
  · by_cases hwraps : Wraps block usable name
    · obtain ⟨ino', b', hrun', hlength, hbroken, hlong⟩ := removed_of_wraps h.tiled hwraps
      cases hrun.symm.trans hrun'
      exact ⟨hlength, .inr hbroken, find_of_broken hbroken, fun _ => .inl (find_of_broken hbroken),
        fun hlt => absurd hlong (Nat.not_le.mpr hlt), fun hlt => absurd hlong (Nat.not_le.mpr hlt),
        fun hlt => absurd hlong (Nat.not_le.mpr hlt)⟩
    · obtain ⟨recs', h', hentries⟩ := h.removed hwraps hrun
      obtain ⟨hgone, hkeeps⟩ := find_erased h h' hentries
      have hok := (remove_correct_iff h.tiled).mpr hwraps
      refine ⟨(hok.takes ino block' hrun).1.2, .inl ⟨recs', h'⟩, hgone, fun other => ?_, fun _ => hkeeps,
        fun _ => hok.room ino block' hrun, fun _ _ _ _ => inserted_of_removed h.tiled hwraps hrun⟩
      by_cases hother : other = name
      · rw [hother]
        exact .inl hgone
      · exact .inr (hkeeps other hother)
  · cases hrun.symm.trans (removed_of_broken hbroken)

theorem Unnamed.signed {seed : Seed} (h : Unnamed usable block name block') (dir_ino generation : Nat)
    (hseed : seed.enabled = true → usable + DIR_TAIL_SIZE = block.length) (hlength : 12 ≤ block.length) :
    Unnamed usable block name (signed_dir_block seed dir_ino generation block') := by
  have hlen := h.length
  obtain ⟨hreadable, hfind, hinserted⟩ := h.readable.signed dir_ino generation (by rwa [hlen]) (by rwa [hlen])
  refine ⟨(signed_within seed dir_ino generation block').1.trans hlen, hreadable, ?_, ?_, ?_, ?_, ?_⟩
  · rw [hfind]
    exact h.gone
  · intro other
    rw [hfind]
    exact h.fades other
  · intro hlt other hne
    rw [hfind]
    exact h.keeps hlt other hne
  · intro hlt name' hname' ino file_type
    rw [Ne, hinserted]
    exact h.room hlt name' hname' ino file_type
  · intro hlt name' ino file_type hroom
    rw [Ne, hinserted]
    exact h.roomy hlt name' ino file_type hroom

/-! ## Insertion -/

theorem find_in_block_bounds {bs ino : Nat} : ∀ fuel pos : Nat, find_in_block block name bs fuel pos = some ino →
    0 < ino ∧ ino < 2 ^ 32 := by
  intro fuel
  induction fuel with
  | zero => exact fun _ h => by cases h
  | succ fuel ih =>
    intro pos h
    rw [find_in_block] at h
    split at h
    · split at h
      · cases h
      · split at h
        · rename_i hentry
          cases h
          exact ⟨Nat.pos_of_ne_zero (of_decide_eq_true hentry).1, (Bytes.get_lt block pos 4).trans_eq (by norm_num)⟩
        · exact ih _ h
    · cases h

theorem find_bounds {ino : Nat} (h : find block name = some ino) : 0 < ino ∧ ino < 2 ^ 32 :=
  find_in_block_bounds _ _ h

/-- What an insertion makes of a block. -/
structure Renamed (usable : Nat) (block name : Bytes) (ino : Nat) (block' : Bytes) : Prop where
  length : block'.length = block.length
  readable : Readable usable block'
  named : find block' name = some ino
  keeps : ∀ other, other ≠ name → find block' other = find block other

theorem Readable.inserted {ino : Nat} {file_type : FileType} (h : Readable usable block)
    (hname : validate_name name = .ok ()) (hino : 0 < ino ∧ ino < 2 ^ 32) (hnone : find block name = none)
    (hrun : inserted block usable name ino file_type = some block') : Renamed usable block name ino block' := by
  rcases h with ⟨recs, h⟩ | hbroken
  · have hok : InsertOk usable block name ino file_type recs := insert_correct h.tiled hname hino.1 hino.2
    obtain ⟨htail, recs', htiled, before, behind, pos, hold, hnew⟩ := hok.adds block' hrun
    have hfresh := (find_eq_none_iff h).mp hnone
    rw [hold] at hfresh
    have hnodup : ((entries recs').map (·.name)).Nodup := by
      have hold_nodup := h.nodup
      rw [hold, List.map_append] at hold_nodup
      rw [hnew, List.map_append, List.map_cons, List.nodup_middle, ← List.map_append, List.nodup_cons]
      refine ⟨?_, by rwa [List.map_append]⟩
      rintro hmem
      obtain ⟨e, he, hname⟩ := List.mem_map.mp hmem
      exact hfresh e he hname
    have h' := h.replaced htail htiled hnodup
    refine ⟨htail.2, .inl ⟨recs', h'⟩, ?_, fun other hne => ?_⟩
    · rw [find_eq h', hnew, List.find?_append, List.find?_eq_none.mpr, Option.none_or,
        List.find?_cons_of_pos (by simp)]
      · rfl
      · intro e he
        simpa using hfresh e (List.mem_append_left _ he)
    · rw [find_eq h', find_eq h, hnew, hold, List.find?_append, List.find?_append,
        List.find?_cons_of_neg (by simpa using Ne.symm hne)]
  · cases hrun.symm.trans (inserted_of_broken hbroken ino file_type)

theorem Renamed.signed {ino : Nat} {seed : Seed} (h : Renamed usable block name ino block') (dir_ino generation : Nat)
    (hseed : seed.enabled = true → usable + DIR_TAIL_SIZE = block.length) (hlength : 12 ≤ block.length) :
    Renamed usable block name ino (signed_dir_block seed dir_ino generation block') := by
  have hlen := h.length
  obtain ⟨hreadable, hfind, -⟩ := h.readable.signed dir_ino generation (by rwa [hlen]) (by rwa [hlen])
  refine ⟨(signed_within seed dir_ino generation block').1.trans hlen, hreadable, ?_, fun other hne => ?_⟩
  · rw [hfind]
    exact h.named
  · rw [hfind]
    exact h.keeps other hne

end

end LuksAndroid.Ext4
