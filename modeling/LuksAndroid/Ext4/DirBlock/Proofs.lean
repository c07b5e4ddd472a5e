import LuksAndroid.Ext4.DirBlock.Spec

/-!
# The operations on a directory block

An insertion splits one record, a removal merges one into its predecessor, and all other
records stay where they are. Runs of both keep the block tiled unless a removal merges two
records to a length of 65536.
-/

namespace LuksAndroid.Ext4

open Word

/-! ## Lengths -/

theorem le_record_len (n : Nat) : DIRENT_HEADER + n ≤ record_len n := by
  unfold record_len div_ceil DIRENT_HEADER
  split <;> omega

theorem record_len_mod (n : Nat) : record_len n % 4 = 0 := by
  unfold record_len
  omega

theorem length_record {ino len : Nat} {name : Bytes} {file_type : FileType} (h : DIRENT_HEADER + name.length ≤ len) :
    (record ino len name file_type).length = len := by
  simp only [record, List.length_append, Bytes.length_le, List.length_cons, List.length_nil,
    List.length_replicate]
  unfold DIRENT_HEADER at h ⊢
  omega

/-! ## One record -/

section

variable {block block' : Bytes} {p usable : Nat} {r : Rec} {e : Live} {name : Bytes}

theorem in_use_of_ne (h : block.get p 4 ≠ 0) : in_use block p = record_len (block.get (p + 6) 1) := if_neg h

namespace RecordAt

theorem name_le (h : RecordAt block p r) (hlive : block.get p 4 ≠ 0) :
    DIRENT_HEADER + block.get (p + 6) 1 ≤ r.len := by
  have hfits := h.fits
  rw [in_use_of_ne hlive] at hfits
  exact (le_record_len _).trans hfits

theorem live_eq (h : RecordAt block p r) (he : r.live = some e) :
    block.get p 4 ≠ 0 ∧ e = ⟨p, block.get p 4, block.slice (p + DIRENT_HEADER) (block.get (p + 6) 1),
      block.get (p + 7) 1⟩ := by
  have hlive := h.live.trans he
  unfold live_at at hlive
  split at hlive
  case isTrue => cases hlive
  case isFalse hne => exact ⟨hne, (Option.some.inj hlive).symm⟩

theorem length_name (h : RecordAt block p r) (hend : p + r.len ≤ block.length) (he : r.live = some e) :
    e.name.length = block.get (p + 6) 1 := by
  obtain ⟨hne, rfl⟩ := h.live_eq he
  have hle := h.name_le hne
  simp only [Bytes.slice, List.length_take, List.length_drop]
  omega

theorem used_eq (h : RecordAt block p r) (hend : p + r.len ≤ block.length) : in_use block p = r.used := by
  have hlive := h.live
  unfold Rec.used
  cases he : r.live with
  | none =>
    rw [he] at hlive
    unfold live_at at hlive
    split at hlive
    case isTrue hzero => exact if_pos hzero
    case isFalse => cases hlive
  | some e =>
    rw [Option.map_some, Option.getD_some, h.length_name hend he]
    exact in_use_of_ne (h.live_eq he).1

theorem is_entry_iff (h : RecordAt block p r) (hend : p + r.len ≤ usable) :
    is_entry block name usable p = true ↔ ∃ e, r.live = some e ∧ e.name = name := by
  unfold is_entry
  simp only [decide_eq_true_eq]
  constructor
  · rintro ⟨hne, -, hname⟩
    refine ⟨⟨p, block.get p 4, block.slice (p + DIRENT_HEADER) (block.get (p + 6) 1), block.get (p + 7) 1⟩, ?_,
      hname⟩
    rw [← h.live]
    exact if_neg hne
  · rintro ⟨e, he, rfl⟩
    obtain ⟨hne, rfl⟩ := h.live_eq he
    have hle := h.name_le hne
    exact ⟨hne, by omega, rfl⟩

theorem step_ok (h : RecordAt block p r) (hend : p + r.len ≤ usable) : step_ok block usable p = true := by
  have hheader := h.header
  have haligned := h.aligned
  unfold Ext4.step_ok
  rw [h.len]
  exact decide_eq_true ⟨hheader, haligned, hend⟩

theorem frame (h : RecordAt block p r)
    (hsame : ∀ o w, p ≤ o → o + w ≤ p + r.len → block'.slice o w = block.slice o w) : RecordAt block' p r := by
  have hheader := h.header
  unfold DIRENT_HEADER at hheader
  have hget (o w : Nat) (hp : p ≤ o) (hend : o + w ≤ p + r.len) : block'.get o w = block.get o w :=
    congrArg Bytes.unle (hsame o w hp hend)
  have hino := hget p 4 (by omega) (by omega)
  have hlen := hget (p + 4) 2 (by omega) (by omega)
  have hname := hget (p + 6) 1 (by omega) (by omega)
  have htype := hget (p + 7) 1 (by omega) (by omega)
  refine ⟨hlen.trans h.len, h.header, h.aligned, ?_, ?_⟩
  · rw [← h.live]
    unfold live_at
    rw [hino, hname, htype]
    by_cases hzero : block.get p 4 = 0
    · rw [if_pos hzero, if_pos hzero]
    · have hle := h.name_le hzero
      rw [if_neg hzero, if_neg hzero, hsame (p + DIRENT_HEADER) _ (by omega) (by omega)]
  · have hfits := h.fits
    unfold in_use at hfits ⊢
    rwa [hino, hname]

end RecordAt

end

/-! ## Looking for a place -/

section

variable {block name : Bytes} {usable ino needed : Nat} {file_type : FileType}

/-- The walk stops at the first record with room. -/
theorem insert_into_block_spec (hlength : usable ≤ block.length) (recs : List Rec) : ∀ (fuel p : Nat),
    recs.length ≤ fuel → Tiles (RecordAt block) Rec.len p recs usable →
    (∀ r ∈ recs, r.len - r.used < needed) ∧
        insert_into_block block usable name ino file_type needed fuel p = none ∨
      ∃ pre r post q, recs = pre ++ r :: post ∧ Tiles (RecordAt block) Rec.len p pre q ∧ RecordAt block q r ∧
        Tiles (RecordAt block) Rec.len (q + r.len) post usable ∧ needed ≤ r.len - r.used ∧
        insert_into_block block usable name ino file_type needed fuel p =
          some (split_record block q ino name file_type) := by
  induction recs with
  | nil =>
    intro fuel p _ htiles
    left
    refine ⟨by simp, ?_⟩
    cases fuel with
    | zero => rfl
    | succ fuel =>
      have hp : p = usable := htiles
      rw [insert_into_block, if_neg (by unfold DIRENT_HEADER; omega)]
  | cons r rest ih =>
    rintro (_ | fuel) p hfuel ⟨hrec, htiles⟩
    · cases hfuel
    have hend := htiles.le
    have hheader := hrec.header
    have hused := hrec.used_eq (by omega)
    have hfits := hrec.fits
    rw [insert_into_block, if_pos (by omega)]
    simp only [hrec.len, hrec.step_ok hend, hused, not_true_eq_false, false_or]
    rw [if_neg (by omega)]
    by_cases hroom : r.len - r.used ≥ needed
    · right
      rw [if_pos hroom]
      exact ⟨[], r, rest, p, rfl, rfl, hrec, htiles, hroom, rfl⟩
    · rw [if_neg hroom]
      rcases ih fuel (p + r.len) (by simpa using hfuel) htiles with
        ⟨hnone, hrun⟩ | ⟨pre, r', post, q, rfl, hpre, hrec', hpost, hroom', hrun⟩
      · left
        refine ⟨?_, hrun⟩
        intro x hx
        rcases List.mem_cons.mp hx with rfl | hx
        · omega
        · exact hnone x hx
      · right
        exact ⟨r :: pre, r', post, q, rfl, ⟨hrec, hpre⟩, hrec', hpost, hroom', hrun⟩

/-- Where the last of these records begins. -/
def last_start : List Rec → Nat → Option Nat → Option Nat
  | [], _, prev => prev
  | r :: rest, p, _ => last_start rest (p + r.len) (some p)

/-- What a removal does to the bytes. -/
def take_away (block : Bytes) (q len : Nat) : Option Nat → Bytes
  | some prev => block.put (prev + 4) (Bytes.le 2 (block.get (prev + 4) 2 + len))
  | none => block.put q (Bytes.le 4 0)

theorem entries_cons (r : Rec) (rest : List Rec) : entries (r :: rest) = r.live.toList ++ entries rest := by
  unfold entries
  rw [List.filterMap_cons]
  cases r.live <;> rfl

theorem entries_append (pre post : List Rec) : entries (pre ++ post) = entries pre ++ entries post :=
  List.filterMap_append

/-- The walk stops at the first live record of the name, and remembers the record before it. -/
theorem remove_from_block_spec (recs : List Rec) : ∀ (fuel p : Nat) (prev : Option Nat), recs.length ≤ fuel →
    Tiles (RecordAt block) Rec.len p recs usable →
    (∀ e ∈ entries recs, e.name ≠ name) ∧ remove_from_block block usable name fuel p prev = none ∨
      ∃ pre r post q e, recs = pre ++ r :: post ∧ Tiles (RecordAt block) Rec.len p pre q ∧ RecordAt block q r ∧
        Tiles (RecordAt block) Rec.len (q + r.len) post usable ∧ (∀ e ∈ entries pre, e.name ≠ name) ∧
        r.live = some e ∧ e.name = name ∧
        remove_from_block block usable name fuel p prev =
          some (e.ino, take_away block q r.len (last_start pre p prev)) := by
  induction recs with
  | nil =>
    intro fuel p prev _ htiles
    left
    refine ⟨by simp [entries], ?_⟩
    cases fuel with
    | zero => rfl
    | succ fuel =>
      have hp : p = usable := htiles
      rw [remove_from_block, if_neg (by unfold DIRENT_HEADER; omega)]
  | cons r rest ih =>
    rintro (_ | fuel) p prev hfuel ⟨hrec, htiles⟩
    · cases hfuel
    have hend := htiles.le
    have hheader := hrec.header
    rw [remove_from_block, if_pos (by omega)]
    simp only [hrec.len, hrec.step_ok hend, not_true_eq_false, if_false]
    by_cases hentry : is_entry block name usable p = true
    · right
      obtain ⟨e, he, hname⟩ := (hrec.is_entry_iff hend).mp hentry
      refine ⟨[], r, rest, p, e, rfl, rfl, hrec, htiles, by simp [entries], he, hname, ?_⟩
      obtain ⟨-, rfl⟩ := hrec.live_eq he
      rw [if_pos hentry]
      cases prev with
      | none => rfl
      | some prev => rfl
    · rw [if_neg hentry]
      have hhead : ∀ e ∈ r.live.toList, e.name ≠ name := by
        intro e he hname
        exact hentry ((hrec.is_entry_iff hend).mpr ⟨e, Option.mem_toList.mp he, hname⟩)
      rcases ih fuel (p + r.len) (some p) (by simpa using hfuel) htiles with
        ⟨hnone, hrun⟩ | ⟨pre, r', post, q, e, rfl, hpre, hrec', hpost, hbefore, he, hname, hrun⟩
      · left
        refine ⟨?_, hrun⟩
        rw [entries_cons]
        intro e he
        exact (List.mem_append.mp he).elim (hhead e) (hnone e)
      · right
        refine ⟨r :: pre, r', post, q, e, rfl, ⟨hrec, hpre⟩, hrec', hpost, ?_, he, hname, hrun⟩
        rw [entries_cons]
        intro e he
        exact (List.mem_append.mp he).elim (hhead e) (hbefore e)

end

/-! ## What a put leaves -/

section

variable {block v : Bytes} {q : Nat}

theorem slice_put_within (h : q + v.length ≤ block.length) {o w : Nat} (hw : o + w ≤ v.length) :
    (block.put q v).slice (q + o) w = v.slice o w := by
  apply List.ext_getElem?
  intro i
  rw [Bytes.getElem?_slice, Bytes.getElem?_slice]
  split
  · rw [Bytes.getElem?_put h, if_pos (by omega)]
    congr 1
    omega
  · rfl

theorem get_put_within (h : q + v.length ≤ block.length) {o w : Nat} (hw : o + w ≤ v.length) :
    (block.put q v).get (q + o) w = v.get o w := congrArg Bytes.unle (slice_put_within h hw)

theorem slice_append_middle (a b c : Bytes) : (a ++ (b ++ c)).slice a.length b.length = b := by
  simp [Bytes.slice]

/-! The fields of a new record. -/

section

variable {ino len : Nat} {name : Bytes} {file_type : FileType}

theorem record_ino (h : ino < 2 ^ 32) : (record ino len name file_type).get 0 4 = ino := by
  have hfield := slice_append_middle [] (Bytes.le 4 ino) (Bytes.le 2 len ++
    [UInt8.ofNat name.length, type_code file_type] ++ name ++
    List.replicate (len - DIRENT_HEADER - name.length) 0)
  simp only [Bytes.length_le, List.nil_append, List.length_nil, ← List.append_assoc] at hfield
  rw [Bytes.get, record, hfield, Bytes.unle_le_of_lt h]

theorem record_rec_len (h : len < 65536) : (record ino len name file_type).get 4 2 = len := by
  have hfield := slice_append_middle (Bytes.le 4 ino) (Bytes.le 2 len)
    ([UInt8.ofNat name.length, type_code file_type] ++ name ++
    List.replicate (len - DIRENT_HEADER - name.length) 0)
  simp only [Bytes.length_le, ← List.append_assoc] at hfield
  rw [Bytes.get, record, hfield, Bytes.unle_le_of_lt h]

theorem record_name_len (h : name.length ≤ 255) : (record ino len name file_type).get 6 1 = name.length := by
  have hfield := slice_append_middle (Bytes.le 4 ino ++ Bytes.le 2 len) [UInt8.ofNat name.length]
    ([type_code file_type] ++ name ++ List.replicate (len - DIRENT_HEADER - name.length) 0)
  have hrecord : record ino len name file_type = Bytes.le 4 ino ++ Bytes.le 2 len ++
      ([UInt8.ofNat name.length] ++ ([type_code file_type] ++ name ++
        List.replicate (len - DIRENT_HEADER - name.length) 0)) := by
    simp [record]
  rw [← hrecord] at hfield
  simp only [List.length_append, Bytes.length_le, List.length_singleton] at hfield
  rw [Bytes.get, hfield]
  simp [Bytes.unle, Nat.mod_eq_of_lt (Nat.lt_succ_of_le h)]

theorem record_type : (record ino len name file_type).get 7 1 = (type_code file_type).toNat := by
  have hfield := slice_append_middle (Bytes.le 4 ino ++ Bytes.le 2 len ++ [UInt8.ofNat name.length])
    [type_code file_type] (name ++ List.replicate (len - DIRENT_HEADER - name.length) 0)
  have hrecord : record ino len name file_type =
      Bytes.le 4 ino ++ Bytes.le 2 len ++ [UInt8.ofNat name.length] ++ ([type_code file_type] ++
        (name ++ List.replicate (len - DIRENT_HEADER - name.length) 0)) := by
    simp [record]
  rw [← hrecord] at hfield
  simp only [List.length_append, Bytes.length_le, List.length_singleton] at hfield
  rw [Bytes.get, hfield]
  simp [Bytes.unle]

theorem record_name : (record ino len name file_type).slice DIRENT_HEADER name.length = name := by
  have hfield := slice_append_middle (Bytes.le 4 ino ++ Bytes.le 2 len ++
    [UInt8.ofNat name.length, type_code file_type]) name
    (List.replicate (len - DIRENT_HEADER - name.length) 0)
  simp only [List.length_append, Bytes.length_le, List.length_cons, List.length_nil, ← List.append_assoc] at hfield
  exact hfield

theorem recordAt_put (hend : q + len ≤ block.length) (hlen : len < 65536) (haligned : len % 4 = 0)
    (hfits : record_len name.length ≤ len) (hname : name.length ≤ 255) (hpos : 0 < ino) (hino : ino < 2 ^ 32) :
    RecordAt (block.put q (record ino len name file_type)) q
      ⟨len, some ⟨q, ino, name, (type_code file_type).toNat⟩⟩ := by
  have hle := (le_record_len name.length).trans hfits
  have hlength : (record ino len name file_type).length = len := length_record hle
  have hput : q + (record ino len name file_type).length ≤ block.length := by rwa [hlength]
  have hheader : DIRENT_HEADER ≤ len := by omega
  have hheader' : 8 ≤ len := hheader
  have hget_ino := (get_put_within hput (o := 0) (w := 4) (by omega)).trans (record_ino hino)
  have hget_len := (get_put_within hput (o := 4) (w := 2) (by omega)).trans (record_rec_len hlen)
  have hget_name := (get_put_within hput (o := 6) (w := 1) (by omega)).trans (record_name_len hname)
  have hget_type := (get_put_within hput (o := 7) (w := 1) (by omega)).trans record_type
  have hslice := (slice_put_within hput (o := DIRENT_HEADER) (w := name.length) (by omega)).trans record_name
  rw [Nat.add_zero] at hget_ino
  refine ⟨hget_len, hheader, haligned, ?_, ?_⟩
  · unfold live_at
    rw [hget_ino, hget_name, hget_type, hslice, if_neg (Nat.ne_of_gt hpos)]
  · unfold in_use
    rw [hget_ino, hget_name, if_neg (Nat.ne_of_gt hpos)]
    exact hfits

end

end

/-! ## Splitting and merging -/

section

variable {block name : Bytes} {p : Nat} {r : Rec}

theorem RecordAt.len_lt (h : RecordAt block p r) : r.len < 65536 := by
  have hlt := Bytes.get_lt block (p + 4) 2
  rw [h.len] at hlt
  exact hlt

theorem Rec.used_mod (r : Rec) : r.used % 4 = 0 := by
  unfold Rec.used
  cases r.live with
  | none => rfl
  | some e => exact record_len_mod _

theorem Rec.used_of_live {e : Live} (h : r.live = some e) : DIRENT_HEADER ≤ r.used := by
  unfold Rec.used
  rw [h]
  exact (Nat.le_add_right _ _).trans (le_record_len e.name.length)

theorem Rec.used_of_dead (h : r.live = none) : r.used = 0 := by
  unfold Rec.used
  rw [h]
  rfl

theorem RecordAt.set_len (h : RecordAt block p r) {n : Nat} (hend : p + DIRENT_HEADER ≤ block.length)
    (hheader : DIRENT_HEADER ≤ n) (haligned : n % 4 = 0) (hn : n < 65536) (hfits : in_use block p ≤ n) :
    RecordAt (block.put (p + 4) (Bytes.le 2 n)) p ⟨n, r.live⟩ := by
  unfold DIRENT_HEADER at hend
  have hput : p + 4 + (Bytes.le 2 n).length ≤ block.length := by
    rw [Bytes.length_le]
    omega
  have hapart (o w : Nat) (ho : o + w ≤ p + 4 ∨ p + 6 ≤ o) :
      (block.put (p + 4) (Bytes.le 2 n)).slice o w = block.slice o w := by
    apply Bytes.slice_put_of_apart hput
    unfold Bytes.Apart
    rw [Bytes.length_le]
    simp only
    omega
  have hget (o w : Nat) (ho : o + w ≤ p + 4 ∨ p + 6 ≤ o) :
      (block.put (p + 4) (Bytes.le 2 n)).get o w = block.get o w := congrArg Bytes.unle (hapart o w ho)
  have hself := Bytes.slice_put_self hput
  rw [Bytes.length_le] at hself
  have hino := hget p 4 (by omega)
  have hname := hget (p + 6) 1 (by omega)
  have htype := hget (p + 7) 1 (by omega)
  refine ⟨?_, hheader, haligned, ?_, ?_⟩
  · rw [Bytes.get, hself, Bytes.unle_le_of_lt hn]
  · unfold live_at
    rw [hino, hname, htype, hapart (p + DIRENT_HEADER) _ (by unfold DIRENT_HEADER; omega)]
    exact h.live
  · unfold in_use at hfits ⊢
    rwa [hino, hname]

/-- Two puts within a range leave the rest alone. -/
def OnlyWithin (lo hi : Nat) (block block' : Bytes) : Prop := block'.length = block.length ∧
  ∀ o w, o + w ≤ lo ∨ hi ≤ o → block'.slice o w = block.slice o w

theorem onlyWithin_put {lo hi q : Nat} {v : Bytes} (hend : hi ≤ block.length) (hlo : lo ≤ q)
    (hhi : q + v.length ≤ hi) : OnlyWithin lo hi block (block.put q v) := by
  refine ⟨Bytes.length_put (hhi.trans hend), fun o w ho => ?_⟩
  apply Bytes.slice_put_of_apart (hhi.trans hend)
  unfold Bytes.Apart
  simp only
  omega

theorem OnlyWithin.mono {lo lo' hi : Nat} {b : Bytes} (h : OnlyWithin lo hi block b) (hle : lo' ≤ lo) :
    OnlyWithin lo' hi block b :=
  ⟨h.1, fun o w ho => h.2 o w (by omega)⟩

theorem OnlyWithin.trans {lo hi : Nat} {a b c : Bytes} (h : OnlyWithin lo hi a b) (h' : OnlyWithin lo hi b c) :
    OnlyWithin lo hi a c :=
  ⟨h'.1.trans h.1, fun o w ho => (h'.2 o w ho).trans (h.2 o w ho)⟩

theorem split_record_spec {ino : Nat} {file_type : FileType} (h : RecordAt block p r)
    (hend : p + r.len ≤ block.length) (hroom : record_len name.length ≤ r.len - r.used)
    (hname : name.length ≤ 255) (hpos : 0 < ino) (hino : ino < 2 ^ 32) :
    OnlyWithin p (p + r.len) block (split_record block p ino name file_type) ∧
    ∃ recs', Tiles (RecordAt (split_record block p ino name file_type)) Rec.len p recs' (p + r.len) ∧
      entries recs' = r.live.toList ++ [⟨p + r.used, ino, name, (type_code file_type).toNat⟩] := by
  have hlen := h.len_lt
  have hheader := h.header
  have haligned := h.aligned
  have hused := h.used_eq hend
  have hfits := h.fits
  rw [hused] at hfits
  have hmod := r.used_mod
  have hle := le_record_len name.length
  have hrecord (len : Nat) (hlen : record_len name.length ≤ len) :
      (record ino len name file_type).length = len := length_record (hle.trans hlen)
  unfold split_record
  simp only [hused, h.len]
  cases hlive : r.live with
  | none =>
    rw [if_pos (Rec.used_of_dead hlive), Rec.used_of_dead hlive, Nat.add_zero, Nat.sub_zero]
    rw [Rec.used_of_dead hlive, Nat.sub_zero] at hroom
    refine ⟨onlyWithin_put hend (Nat.le_refl p) (by rw [hrecord _ hroom]), [⟨r.len, some _⟩], ?_, rfl⟩
    exact ⟨recordAt_put hend hlen haligned hroom hname hpos hino, rfl⟩
  | some e =>
    have hlow := Rec.used_of_live hlive
    rw [if_neg (by unfold DIRENT_HEADER at hlow; omega)]
    have hfirst := h.set_len (n := r.used) (by omega) hlow hmod (by omega) (Nat.le_of_eq hused)
    have hlength : (block.put (p + 4) (Bytes.le 2 r.used)).length = block.length :=
      Bytes.length_put (by rw [Bytes.length_le]; unfold DIRENT_HEADER at hheader; omega)
    have hput : OnlyWithin p (p + r.len) block (block.put (p + 4) (Bytes.le 2 r.used)) :=
      onlyWithin_put hend (by omega) (by rw [Bytes.length_le]; unfold DIRENT_HEADER at hheader; omega)
    have hput' : OnlyWithin (p + r.used) (p + r.len) (block.put (p + 4) (Bytes.le 2 r.used))
        ((block.put (p + 4) (Bytes.le 2 r.used)).put (p + r.used)
          (record ino (r.len - r.used) name file_type)) :=
      onlyWithin_put (by rwa [hlength]) (Nat.le_refl _) (by rw [hrecord _ hroom]; omega)
    have hsecond : RecordAt ((block.put (p + 4) (Bytes.le 2 r.used)).put (p + r.used)
        (record ino (r.len - r.used) name file_type)) (p + r.used)
        ⟨r.len - r.used, some ⟨p + r.used, ino, name, (type_code file_type).toNat⟩⟩ :=
      recordAt_put (by rw [hlength]; omega) (by omega) (by omega) hroom hname hpos hino
    refine ⟨hput.trans (hput'.mono (by omega)), [⟨r.used, r.live⟩, ⟨r.len - r.used, some _⟩], ⟨?_, hsecond, ?_⟩,
      ?_⟩
    · exact hfirst.frame fun o w _ hw => hput'.2 o w (.inl hw)
    · change p + r.used + (r.len - r.used) = p + r.len
      omega
    · rw [hlive]
      rfl

end

/-! ## Insertion -/

section

variable {block name : Bytes} {usable : Nat} {recs : List Rec}

theorem Tiled.length_le_block (h : Tiled block usable recs) : recs.length ≤ block.length := by
  have hle := h.tiles.length_mul_le fun p r hr => hr.header
  have husable := h.usable_le
  unfold DIRENT_HEADER at hle
  omega

theorem frame_tiles {lo hi p q : Nat} {block' : Bytes} {l : List Rec} (h : Tiles (RecordAt block) Rec.len p l q)
    (hwithin : OnlyWithin lo hi block block') (hapart : q ≤ lo ∨ hi ≤ p) :
    Tiles (RecordAt block') Rec.len p l q := by
  apply h.frame
  intro o r hp hq hr
  apply hr.frame
  intro o' w ho hw
  exact hwithin.2 o' w (by omega)

theorem sameTail_of_within {lo hi : Nat} {block' : Bytes} (h : OnlyWithin lo hi block block') (hhi : hi ≤ usable) :
    SameTail usable block block' := by
  refine ⟨?_, h.1⟩
  have hslice := h.2 usable (block.length - usable) (.inr hhi)
  unfold Bytes.slice at hslice
  rw [List.take_of_length_le (by rw [List.length_drop, h.1]), List.take_of_length_le (by rw [List.length_drop])]
    at hslice
  exact hslice

theorem Tiled.replace {pre post mid : List Rec} {q hi : Nat} {block' : Bytes} (h : Tiled block usable recs)
    (hpre : Tiles (RecordAt block) Rec.len 0 pre q) (hpost : Tiles (RecordAt block) Rec.len hi post usable)
    (hwithin : OnlyWithin q hi block block') (hmid : Tiles (RecordAt block') Rec.len q mid hi) :
    SameTail usable block block' ∧ Tiled block' usable (pre ++ (mid ++ post)) := by
  refine ⟨sameTail_of_within hwithin hpost.le, ?_, ?_, ?_⟩
  · rw [Tiles.append]
    refine ⟨q, frame_tiles hpre hwithin (.inl (Nat.le_refl q)), ?_⟩
    rw [Tiles.append]
    exact ⟨hi, hmid, frame_tiles hpost hwithin (.inr (Nat.le_refl hi))⟩
  · rw [hwithin.1]
    exact h.usable_le
  · rw [hwithin.1]
    exact h.length_le

theorem inserted_eq_none_iff (h : Tiled block usable recs) (name : Bytes) (ino : Nat) (file_type : FileType) :
    inserted block usable name ino file_type = none ↔ ∀ r ∈ recs, r.len - r.used < record_len name.length := by
  have hspec := @insert_into_block_spec block name usable ino (record_len name.length) file_type h.usable_le recs
    block.length 0 h.length_le_block h.tiles
  rcases hspec with
    ⟨hnone, hrun⟩ | ⟨pre, r, post, q, rfl, -, -, -, hroom, hrun⟩
  · exact iff_of_true hrun hnone
  · refine iff_of_false ?_ ?_
    · rw [inserted, hrun]
      exact Option.some_ne_none _
    · intro hall
      have hlt := hall r (by simp)
      omega

theorem validate_name_length (h : validate_name name = .ok ()) : name.length ≤ 255 := by
  unfold validate_name at h
  obtain ⟨hlength, -⟩ := Run.guard_bind_ok.mp h
  omega

theorem insert_correct (h : Tiled block usable recs) {ino : Nat} {file_type : FileType}
    (hname : validate_name name = .ok ()) (hpos : 0 < ino) (hino : ino < 2 ^ 32) :
    InsertOk usable block name ino file_type recs := by
  refine ⟨inserted_eq_none_iff h name ino file_type, fun block' hrun => ?_⟩
  have hspec := @insert_into_block_spec block name usable ino (record_len name.length) file_type h.usable_le recs
    block.length 0 h.length_le_block h.tiles
  rcases hspec with
    ⟨-, hrun'⟩ | ⟨pre, r, post, q, rfl, hpre, hrec, hpost, hroom, hrun'⟩
  · cases hrun.symm.trans hrun'
  obtain rfl := Option.some.inj (hrun'.symm.trans hrun)
  have hend := hpost.le.trans h.usable_le
  have hsplit := @split_record_spec block name q r ino file_type hrec hend hroom (validate_name_length hname) hpos
    hino
  obtain ⟨hwithin, mid, hmid, hentries⟩ := hsplit
  obtain ⟨htail, htiled⟩ := h.replace hpre hpost hwithin hmid
  refine ⟨htail, _, htiled, entries pre ++ r.live.toList, entries post, q + r.used, ?_, ?_⟩
  · rw [entries_append, entries_cons, List.append_assoc]
  · rw [entries_append, entries_append, hentries]
    simp

/-! ## Removal -/

theorem last_start_spec (pre : List Rec) : ∀ {p q : Nat} (prev : Option Nat),
    Tiles (RecordAt block) Rec.len p pre q →
    pre = [] ∧ p = q ∧ last_start pre p prev = prev ∨
      ∃ before s o, pre = before ++ [s] ∧ Tiles (RecordAt block) Rec.len p before o ∧ RecordAt block o s ∧
        q = o + s.len ∧ last_start pre p prev = some o := by
  induction pre with
  | nil =>
    intro p q prev htiles
    exact .inl ⟨rfl, htiles, rfl⟩
  | cons r rest ih =>
    rintro p q prev ⟨hrec, htiles⟩
    right
    rcases ih (some p) htiles with ⟨rfl, rfl, hlast⟩ | ⟨before, s, o, rfl, hbefore, hs, hq, hlast⟩
    · exact ⟨[], r, p, rfl, rfl, hrec, rfl, hlast⟩
    · exact ⟨r :: before, s, o, rfl, ⟨hrec, hbefore⟩, hs, hq, hlast⟩

theorem free_spec {q : Nat} {r : Rec} (h : RecordAt block q r) (hend : q + r.len ≤ block.length) :
    OnlyWithin q (q + r.len) block (block.put q (Bytes.le 4 0)) ∧
      RecordAt (block.put q (Bytes.le 4 0)) q ⟨r.len, none⟩ := by
  have hheader := h.header
  unfold DIRENT_HEADER at hheader
  have hput : q + (Bytes.le 4 0).length ≤ block.length := by
    rw [Bytes.length_le]
    omega
  have hino : (block.put q (Bytes.le 4 0)).get q 4 = 0 := by
    have hself := Bytes.slice_put_self hput
    rw [Bytes.length_le] at hself
    rw [Bytes.get, hself, Bytes.unle_le_of_lt (by decide)]
  have hlen : (block.put q (Bytes.le 4 0)).get (q + 4) 2 = block.get (q + 4) 2 := by
    refine congrArg Bytes.unle (Bytes.slice_put_of_apart hput ?_)
    unfold Bytes.Apart
    rw [Bytes.length_le]
    simp only
    omega
  refine ⟨onlyWithin_put hend (Nat.le_refl q) (by rw [Bytes.length_le]; omega), hlen.trans h.len, h.header,
    h.aligned, ?_, ?_⟩
  · unfold live_at
    rw [if_pos hino]
  · unfold in_use
    rw [if_pos hino]
    exact Nat.zero_le _

theorem merge_spec {o : Nat} {s r : Rec} (hs : RecordAt block o s) (hr : RecordAt block (o + s.len) r)
    (hend : o + s.len + r.len ≤ block.length) (hlen : s.len + r.len < 65536) :
    OnlyWithin o (o + (s.len + r.len)) block (block.put (o + 4) (Bytes.le 2 (s.len + r.len))) ∧
      RecordAt (block.put (o + 4) (Bytes.le 2 (s.len + r.len))) o ⟨s.len + r.len, s.live⟩ := by
  have hheader := hs.header
  have hs_aligned := hs.aligned
  have hr_aligned := hr.aligned
  have hfits := hs.fits
  refine ⟨onlyWithin_put (by omega) (by omega) ?_, hs.set_len (by omega) (by omega) (by omega) hlen (by omega)⟩
  rw [Bytes.length_le]
  unfold DIRENT_HEADER at hheader
  omega

theorem wraps_of_long {o : Nat} {s r : Rec} {e : Live} (h : Tiled block usable recs) (hs : RecordAt block o s)
    (hr : RecordAt block (o + s.len) r) (hend : o + s.len + r.len ≤ usable) (hlong : 65536 ≤ s.len + r.len)
    (hother : ∀ x, s.live = some x → x.name ≠ name) (he : r.live = some e) (hname : e.name = name) :
    Wraps block usable name := by
  have husable := h.usable_le
  have hlength := h.length_le
  obtain rfl : o = 0 := by omega
  rw [Nat.zero_add] at hr hend
  have hs_len : block.get 4 2 = s.len := by simpa using hs.len
  unfold Wraps
  rw [hs_len, hr.len]
  refine ⟨?_, (hr.is_entry_iff hend).mpr ⟨e, he, hname⟩, by omega⟩
  rw [Bool.eq_false_iff]
  intro hfirst
  obtain ⟨x, hx, hx_name⟩ := (hs.is_entry_iff (by omega)).mp hfirst
  exact hother x hx hx_name

/-- One or two records become one, without the entry, unless they are too long for that. -/
theorem removed_spec (h : Tiled block usable recs) (name : Bytes) :
    (∀ e ∈ entries recs, e.name ≠ name) ∧ removed block usable name = none ∨
      ∃ before old post m q e block', recs = before ++ (old ++ post) ∧
        Tiles (RecordAt block) Rec.len 0 before q ∧ Tiles (RecordAt block) Rec.len (q + m.len) post usable ∧
        entries old = m.live.toList ++ [e] ∧ (∀ x ∈ entries before ++ m.live.toList, x.name ≠ name) ∧
        e.name = name ∧ record_len name.length ≤ m.len - m.used ∧ (∀ x ∈ old, x.len - x.used ≤ m.len - m.used) ∧
        removed block usable name = some (e.ino, block') ∧
        (OnlyWithin q (q + m.len) block block' ∧ RecordAt block' q m ∨ Wraps block usable name) := by
  have hspec := @remove_from_block_spec block name usable recs block.length 0 none h.length_le_block h.tiles
  rcases hspec with
    hnone | ⟨pre, r, post, q, e, rfl, hpre, hr, hpost, hbefore, he, hname, hrun⟩
  · exact .inl hnone
  right
  have hend := hpost.le
  have husable := h.usable_le
  have hr_used := hr.used_eq (by omega)
  have hr_fits := hr.fits
  have hneed : record_len name.length = r.used := by
    unfold Rec.used
    rw [he, Option.map_some, Option.getD_some, hname]
  rcases last_start_spec pre none hpre with ⟨rfl, rfl, hlast⟩ | ⟨before, s, o, rfl, hpre', hs, rfl, hlast⟩
  · rw [hlast] at hrun
    have hfree := free_spec hr (by omega)
    refine ⟨[], [r], post, ⟨r.len, none⟩, 0, e, _, rfl, rfl, hpost, ?_, by simp [entries], hname, ?_, ?_, hrun,
      .inl hfree⟩
    · rw [entries_cons, he]
      rfl
    · rw [Rec.used_of_dead rfl]
      change record_len name.length ≤ r.len - 0
      omega
    · rintro x hx
      obtain rfl := List.mem_singleton.mp hx
      exact Nat.sub_le _ _
  · rw [hlast] at hrun
    rw [entries_append, entries_cons] at hbefore
    have hs_used := hs.used_eq (by omega)
    have hs_fits := hs.fits
    refine ⟨before, [s, r], post, ⟨s.len + r.len, s.live⟩, o, e, _, by simp, hpre', ?_, ?_, ?_, hname, ?_, ?_, hrun,
      ?_⟩
    · rwa [← Nat.add_assoc]
    · rw [entries_cons, entries_cons, he]
      rfl
    · simpa [entries] using hbefore
    · change record_len name.length ≤ s.len + r.len - s.used
      omega
    · intro x hx
      change x.len - x.used ≤ s.len + r.len - s.used
      rcases List.mem_pair.mp hx with rfl | rfl
      · omega
      · omega
    · by_cases hlen : s.len + r.len < 65536
      · left
        simp only [take_away, hs.len]
        exact merge_spec hs hr (by omega) hlen
      · right
        apply wraps_of_long h hs hr hend (Nat.le_of_not_lt hlen) _ he hname
        intro x hx
        apply hbefore x
        simp [hx]

/-- Where a removal wraps, the first record is left without a length. -/
theorem removed_of_wraps (h : Tiled block usable recs) (hwraps : Wraps block usable name) :
    ∃ ino block', removed block usable name = some (ino, block') ∧ block'.length = block.length ∧
      block'.get 4 2 = 0 ∧ 65536 ≤ usable := by
  obtain ⟨hfirst, hsecond, hsum⟩ := hwraps
  have hsecond_end := (of_decide_eq_true hsecond).2.1
  unfold DIRENT_HEADER at hsecond_end
  have htiles := h.tiles
  rcases recs with - | ⟨s, - | ⟨r, rest⟩⟩
  · have husable : 0 = usable := htiles
    omega
  · obtain ⟨hs, husable⟩ := htiles
    have hs_len : block.get 4 2 = s.len := by simpa using hs.len
    change 0 + s.len = usable at husable
    omega
  obtain ⟨hs, hr, hrest⟩ := htiles
  have hs_len : block.get 4 2 = s.len := by simpa using hs.len
  rw [Nat.zero_add] at hr hrest
  rw [hs_len] at hsecond
  have hend := hrest.le
  rw [hs_len, hr.len] at hsum
  have hlength := h.length_le_block
  have hput : 4 + (Bytes.le 2 65536).length ≤ block.length := by
    have husable := h.usable_le
    rw [Bytes.length_le]
    omega
  refine ⟨block.get s.len 4, block.put 4 (Bytes.le 2 65536), ?_, Bytes.length_put hput, ?_, by omega⟩
  · obtain ⟨fuel, hfuel⟩ : ∃ fuel, block.length = fuel + 2 := ⟨block.length - 2, by omega⟩
    have hs_header := hs.header
    have hr_header := hr.header
    unfold DIRENT_HEADER at hs_header hr_header
    rw [removed, hfuel, remove_from_block, if_pos (by unfold DIRENT_HEADER; omega)]
    simp only [hs.len, hs.step_ok (show 0 + s.len ≤ usable by omega), not_true_eq_false, if_false, hfirst,
      Bool.false_eq_true]
    rw [remove_from_block, if_pos (by unfold DIRENT_HEADER; omega), Nat.zero_add]
    simp only [hr.len, hr.step_ok hend, not_true_eq_false, if_false, if_true, hsecond, hs_len, Nat.zero_add, hsum]
  · have hself := Bytes.slice_put_self hput
    rw [Bytes.length_le] at hself
    rw [Bytes.get, hself]
    decide

theorem remove_correct_iff (h : Tiled block usable recs) :
    RemoveOk usable block name recs ↔ ¬ Wraps block usable name := by
  constructor
  · intro hok hwraps
    obtain ⟨ino, block', hrun, -, hlen, husable⟩ := removed_of_wraps h hwraps
    obtain ⟨-, -, recs', htiled, -⟩ := hok.takes ino block' hrun
    have htiles := htiled.tiles
    rcases recs' with - | ⟨s, rest⟩
    · have hzero : 0 = usable := htiles
      omega
    · obtain ⟨hs, -⟩ := htiles
      have hs_len : block'.get 4 2 = s.len := by simpa using hs.len
      have hheader := hs.header
      unfold DIRENT_HEADER at hheader
      omega
  · intro hfits
    rcases removed_spec h name with ⟨hnone, hrun⟩ |
      ⟨before, old, post, m, q, e, block', rfl, hpre, hpost, hold, hother, hname, hroom, -, hrun, hdone⟩
    · refine ⟨iff_of_true hrun hnone, ?_, ?_⟩
      · intro ino block' hrun'
        cases hrun.symm.trans hrun'
      · intro ino block' hrun'
        cases hrun.symm.trans hrun'
    obtain ⟨hwithin, hm⟩ := hdone.resolve_right hfits
    have hmid : Tiles (RecordAt block') Rec.len q [m] (q + m.len) := ⟨hm, rfl⟩
    obtain ⟨htail, htiled⟩ := h.replace hpre hpost hwithin hmid
    have hentries : entries (before ++ (old ++ post)) =
        (entries before ++ m.live.toList) ++ e :: entries post := by
      rw [entries_append, entries_append, hold]
      simp
    refine ⟨?_, ?_, ?_⟩
    · refine iff_of_false ?_ ?_
      · rw [hrun]
        exact Option.some_ne_none _
      · intro hall
        apply hall e _ hname
        rw [hentries]
        simp
    · intro ino block'' hrun'
      obtain ⟨rfl, rfl⟩ := Prod.mk.inj (Option.some.inj (hrun.symm.trans hrun'))
      refine ⟨htail, ?_, _, htiled, ?_⟩
      · rw [hentries, List.find?_append, List.find?_eq_none.mpr, Option.none_or,
          List.find?_cons_of_pos (by simpa using hname)]
        · rfl
        · intro x hx
          simpa using hother x hx
      · rw [hentries, List.eraseP_append_right _ (by simpa using hother),
          List.eraseP_cons_of_pos (by simpa using hname), entries_append, entries_append, entries_cons]
        simp [entries]
    · intro ino block'' hrun' name' hname' ino' file_type
      obtain ⟨-, rfl⟩ := Prod.mk.inj (Option.some.inj (hrun.symm.trans hrun'))
      rw [Ne, inserted_eq_none_iff htiled]
      intro hall
      have hlt := hall m (by simp)
      rw [hname'] at hlt
      omega

/-! ## Runs -/

theorem op_correct_iff (h : Tiled block usable recs) {op : Op} (hvalid : op.Valid) :
    op.Correct usable block recs ↔ Fits usable block op := by
  cases op with
  | insert name ino file_type =>
    obtain ⟨hname, hpos, hino⟩ := hvalid
    exact iff_of_true (insert_correct h hname hpos hino) trivial
  | remove name => exact remove_correct_iff h

theorem Op.Correct.tiled {op : Op} (hcorrect : op.Correct usable block recs) (h : Tiled block usable recs) :
    ∃ recs', Tiled (op.apply usable block) usable recs' := by
  cases op with
  | insert name ino file_type =>
    simp only [Op.apply]
    rcases hrun : inserted block usable name ino file_type with - | block'
    · exact ⟨recs, h⟩
    · obtain ⟨-, recs', htiled, -⟩ := hcorrect.adds block' hrun
      exact ⟨recs', htiled⟩
  | remove name =>
    simp only [Op.apply]
    rcases hrun : removed block usable name with - | ⟨ino, block'⟩
    · exact ⟨recs, h⟩
    · obtain ⟨-, -, recs', htiled, -⟩ := hcorrect.takes ino block' hrun
      exact ⟨recs', htiled⟩

theorem AllCorrect.tiled {ops : List Op} (h : AllCorrect usable block ops) : ∃ recs, Tiled block usable recs := by
  cases ops with
  | nil => exact h
  | cons op rest =>
    obtain ⟨⟨recs, htiled, -⟩, -⟩ := h
    exact ⟨recs, htiled⟩

/-- A run of insertions and removals keeps a directory block as it should be exactly when no removal merges
two records that fill 65536 bytes. -/
theorem directory_block_runs (h : Tiled block usable recs) (ops : List Op) (hvalid : ∀ op ∈ ops, op.Valid) :
    AllCorrect usable block ops ↔
      Machine.Meets (fun block op => some (op.apply usable block)) (Fits usable) block ops := by
  induction ops generalizing block recs with
  | nil => exact iff_of_true ⟨recs, h⟩ trivial
  | cons op rest ih =>
    have hop := hvalid op (by simp)
    have hrest : ∀ op ∈ rest, op.Valid := fun op hmem => hvalid op (List.mem_cons_of_mem _ hmem)
    constructor
    · rintro ⟨⟨recs', htiled, hcorrect⟩, hafter⟩
      obtain ⟨recs'', htiled'⟩ := hafter.tiled
      refine ⟨(op_correct_iff htiled hop).mp hcorrect, ?_⟩
      intro block' hstep
      cases hstep
      exact (ih htiled' hrest).mp hafter
    · rintro ⟨hfits, hmeets⟩
      have hcorrect := (op_correct_iff h hop).mpr hfits
      obtain ⟨recs', htiled'⟩ := hcorrect.tiled h
      exact ⟨⟨recs, h, hcorrect⟩, (ih htiled' hrest).mpr (hmeets _ rfl)⟩

end

/-- A block whose first record is `"."`. -/
def dot_block (len : Nat) : Bytes := Bytes.put (List.replicate len 0) 0 (record 2 12 [46] .Directory)

/-- A block of two records, the second up to its end. -/
def two_records (len : Nat) : Bytes := (dot_block len).put 12 (record 12 (len - 12) [97] .Regular)

theorem length_dot_block {len : Nat} (hlow : 24 ≤ len) : (dot_block len).length = len := by
  rw [dot_block, Bytes.length_put, List.length_replicate]
  rw [List.length_replicate, length_record (by decide)]
  omega

theorem two_records_within {len : Nat} (hlow : 24 ≤ len) : OnlyWithin 12 len (dot_block len) (two_records len) := by
  have hrecord : (record 12 (len - 12) [97] .Regular).length = len - 12 :=
    length_record (by change 8 + 1 ≤ len - 12; omega)
  exact onlyWithin_put (by rw [length_dot_block hlow]) (Nat.le_refl 12) (by rw [hrecord]; omega)

theorem length_two_records {len : Nat} (hlow : 24 ≤ len) : (two_records len).length = len :=
  (two_records_within hlow).1.trans (length_dot_block hlow)

theorem two_records_tiled {len : Nat} (hlow : 24 ≤ len) (haligned : len % 4 = 0) (hhigh : len ≤ 65536) :
    Tiled (two_records len) len [⟨12, some ⟨0, 2, [46], 2⟩⟩, ⟨len - 12, some ⟨12, 12, [97], 1⟩⟩] := by
  have hlength := length_dot_block hlow
  have hneed : record_len ([97] : Bytes).length = 12 := by decide
  have hfirst : RecordAt (dot_block len) 0 ⟨12, some ⟨0, 2, [46], 2⟩⟩ :=
    recordAt_put (by rw [List.length_replicate]; omega) (by decide) (by decide) (by decide) (by decide) (by decide)
      (by decide)
  have hsecond : RecordAt (two_records len) 12 ⟨len - 12, some ⟨12, 12, [97], 1⟩⟩ :=
    recordAt_put (by rw [hlength]; omega) (by omega) (by omega) (by rw [hneed]; omega) (by decide) (by decide)
      (by decide)
  have hput := two_records_within hlow
  refine ⟨⟨hfirst.frame fun o w _ hw => hput.2 o w (.inl hw), hsecond, ?_⟩, ?_, ?_⟩
  · change 0 + 12 + (len - 12) = len
    omega
  · rw [length_two_records hlow]
  · rw [length_two_records hlow]
    exact hhigh

/-- A short block stays as it should be when a name is taken out of it and put back. -/
theorem directory_block_runs_short :
    AllCorrect 24 (two_records 24) [.remove [97], .insert [98] 13 .Regular] :=
  (directory_block_runs (two_records_tiled (by decide) (by decide) (by decide))
    [.remove [97], .insert [98] 13 .Regular]
    (by
      intro op hop
      rcases List.mem_cons.mp hop with rfl | hop
      · exact trivial
      · obtain rfl := List.mem_singleton.mp hop
        exact ⟨by decide, by decide, by decide⟩)).mpr
    ⟨(by decide : ¬ Wraps (two_records 24) 24 [97]), fun _ _ => ⟨trivial, fun _ _ => trivial⟩⟩

/-- In a 64 KiB block without a checksum, removing the only name behind the first record leaves a record of
length 0. -/
theorem directory_block_wraps : Tiled (two_records 65536) 65536
      [⟨12, some ⟨0, 2, [46], 2⟩⟩, ⟨65524, some ⟨12, 12, [97], 1⟩⟩] ∧
    ¬ AllCorrect 65536 (two_records 65536) [.remove [97]] := by
  have htiled : Tiled (two_records 65536) 65536 [⟨12, some ⟨0, 2, [46], 2⟩⟩, ⟨65524, some ⟨12, 12, [97], 1⟩⟩] :=
    two_records_tiled (by decide) (by decide) (by decide)
  refine ⟨htiled, ?_⟩
  rintro ⟨⟨recs, htiled', hcorrect⟩, -⟩
  obtain ⟨hs, hr, -⟩ := htiled.tiles
  apply (remove_correct_iff htiled').mp hcorrect
  apply wraps_of_long htiled hs hr (by decide) (by decide) _ rfl rfl
  rintro x ⟨⟩
  decide

end LuksAndroid.Ext4
