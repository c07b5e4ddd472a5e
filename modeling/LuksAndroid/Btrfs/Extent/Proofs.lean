import LuksAndroid.Btrfs.Extent.Code

/-!
# What a file holds, and what a read of it returns

The content of a file is said byte by byte, from its items alone: zero where no item
covers the byte, or else the byte that the item has for it. The read walks a cursor over the
items, and it returns the content as long as the addresses it adds up are 64-bit numbers.
-/

namespace LuksAndroid.Btrfs

open Keyed Word

/-! ## The content of a file -/

/-- The extents of an inode, in the order of the tree. -/
def fileExtents (objectid : Nat) (items : List LeafItem) : List FileExtent :=
  (itemsFor objectid EXTENT_DATA_KEY items).filterMap fun it => (FileExtent.parse it.key.offset it.data).toOption

namespace FileExtent

/-- The item covers the byte `p` of the file. -/
def covers (e : FileExtent) (p : Nat) : Bool := e.file_offset ≤ p ∧ p < e.file_offset + e.num_bytes

variable (codecs : Codecs) (m : ChunkMap) (bytes : Nat → UInt8) (sector : Nat)

/-- The bytes of the extent before decompression. -/
def raw (e : FileExtent) : Option Bytes :=
  match e.inline with
  | some payload => some payload
  | none => (List.range e.disk_num_bytes).mapM fun i => m.byteAt bytes (e.disk_bytenr + i)

def plain (e : FileExtent) : Option Bytes :=
  (e.raw m bytes).bind fun raw => (decompress codecs e.compression raw e.ram_bytes sector).toOption

/-- The byte at `i` of what the extent holds. -/
def stored (e : FileExtent) (i : Nat) : Option UInt8 :=
  if e.compression ≠ 0 then (e.plain codecs m bytes sector).bind (·[i]?)
  else
    match e.inline with
    | some payload => payload[i]?
    | none => if i < e.disk_num_bytes then m.byteAt bytes (e.disk_bytenr + i) else none

/-- The byte at `within` of the range that the item covers. A regular extent without an address is a hole, and
what is only reserved reads as zeros too. The item shows its extent from `offset` on. -/
def byteAt (e : FileExtent) (within : Nat) : Option UInt8 :=
  match e.kind with
  | .Prealloc => some 0
  | .Regular => if e.disk_bytenr = 0 then some 0 else e.stored codecs m bytes sector (e.offset + within)
  | .Inline => e.stored codecs m bytes sector (e.offset + within)

/-- The place that the read adds up for the byte at `within` is a 64-bit number. -/
def Addressed (e : FileExtent) (within : Nat) : Prop :=
  e.is_zeros = false →
    if e.is_compressed ∨ e.inline.isSome then e.offset + within < size else e.disk_bytenr + e.offset + within < size

variable {codecs m bytes sector} {e : FileExtent} {within : Nat}

theorem is_zeros_iff : e.is_zeros = true ↔ (e.kind = .Regular ∧ e.disk_bytenr = 0) ∨ e.kind = .Prealloc := by
  simp [is_zeros]

theorem byteAt_zeros (h : e.is_zeros = true) : e.byteAt codecs m bytes sector within = some 0 := by
  unfold byteAt
  rcases is_zeros_iff.mp h with ⟨hkind, haddr⟩ | hkind
  · simp only [hkind, haddr, if_true]
  · simp only [hkind]

theorem byteAt_stored (h : e.is_zeros = false) :
    e.byteAt codecs m bytes sector within = e.stored codecs m bytes sector (e.offset + within) := by
  have hnot := mt is_zeros_iff.mpr (Bool.eq_false_iff.mp h)
  unfold byteAt
  cases hkind : e.kind with
  | Inline => rfl
  | Regular => simp only [if_neg fun haddr => hnot (.inl ⟨hkind, haddr⟩)]
  | Prealloc => exact absurd (.inr hkind) hnot

end FileExtent

/-- The byte `p` of the file. -/
def content (codecs : Codecs) (m : ChunkMap) (bytes : Nat → UInt8) (sector : Nat) (extents : List FileExtent)
    (p : Nat) :
    Option UInt8 :=
  (extents.find? (·.covers p)).elim (some 0) fun e => e.byteAt codecs m bytes sector (p - e.file_offset)

theorem content_gap {codecs : Codecs} {m : ChunkMap} {bytes : Nat → UInt8} {sector p : Nat} {extents : List FileExtent}
    (h : ∀ e ∈ extents, e.covers p = false) : content codecs m bytes sector extents p = some 0 := by
  have hnone : extents.find? (·.covers p) = none := List.find?_eq_none.mpr fun e he => by simp [h e he]
  rw [content, hnone]
  rfl

theorem content_extent {codecs : Codecs} {m : ChunkMap} {bytes : Nat → UInt8} {sector p : Nat}
    {pre post : List FileExtent} {e : FileExtent} (hpre : ∀ x ∈ pre, x.covers p = false) (he : e.covers p = true) :
    content codecs m bytes sector (pre ++ e :: post) p = e.byteAt codecs m bytes sector (p - e.file_offset) := by
  have hsome : (pre ++ e :: post).find? (·.covers p) = some e := by
    rw [List.find?_append, List.find?_eq_none.mpr fun x hx => by simp [hpre x hx], Option.none_or]
    exact List.find?_cons_of_pos he
  rw [content, hsome]
  rfl

/-! ## Items as they are parsed -/

theorem get_eight_lt (b : Bytes) (offset : Nat) : b.get offset 8 < size := by
  have h := Bytes.get_lt b offset 8
  unfold size
  omega

/-- What the parser leaves: 64-bit fields, and a payload for every inline extent. -/
structure FileExtent.Parsed (e : FileExtent) : Prop where
  num_bytes : e.num_bytes < size
  offset : e.offset < size
  disk_bytenr : e.disk_bytenr < size
  payload : e.inline = none → e.kind ≠ .Inline

theorem FileExtent.parse_ok {file_offset : Nat} {data : Bytes} {e : FileExtent}
    (h : FileExtent.parse file_offset data = .ok e) : e.file_offset = file_offset ∧ e.Parsed := by
  have hpos : 0 < size := by simp [size]
  unfold FileExtent.parse at h
  obtain ⟨-, h⟩ := Run.guard_bind_ok.mp h
  obtain ⟨kind, -, h⟩ := Run.except_bind_ok.mp h
  obtain ⟨-, h⟩ := Run.guard_bind_ok.mp h
  split at h
  · cases h
    exact ⟨rfl, get_eight_lt _ _, hpos, hpos, by simp⟩
  · rename_i hkind
    obtain ⟨-, h⟩ := Run.guard_bind_ok.mp h
    cases h
    exact ⟨rfl, get_eight_lt _ _, get_eight_lt _ _, get_eight_lt _ _, fun _ => hkind⟩

theorem FileExtent.payload_le {file_offset : Nat} {data : Bytes} {e : FileExtent}
    (h : FileExtent.parse file_offset data = .ok e) : ∀ payload ∈ e.inline, payload.length ≤ data.length := by
  unfold FileExtent.parse at h
  obtain ⟨-, h⟩ := Run.guard_bind_ok.mp h
  obtain ⟨kind, -, h⟩ := Run.except_bind_ok.mp h
  obtain ⟨-, h⟩ := Run.guard_bind_ok.mp h
  split at h
  · cases h
    intro payload hpayload
    cases hpayload
    simp
  · obtain ⟨-, h⟩ := Run.guard_bind_ok.mp h
    cases h
    intro payload hpayload
    cases hpayload

theorem FileExtent.Parsed.address_pos {e : FileExtent} (h : e.Parsed) (hzeros : e.is_zeros = false)
    (hinline : e.inline = none) : 0 < e.disk_bytenr := by
  have hkind := h.payload hinline
  simp only [FileExtent.is_zeros, decide_eq_false_iff_not, not_or, not_and] at hzeros
  cases hk : e.kind with
  | Inline => exact absurd hk hkind
  | Regular => exact Nat.pos_of_ne_zero (hzeros.1 hk)
  | Prealloc => exact absurd hk hzeros.2

/-! ## One extent -/

theorem copy_from_ok {source : Bytes} {start take : Nat} {message : String} {out : Bytes}
    (h : copy_from source start take message = .ok out) :
    out.length = take ∧ ∀ i < take, source[start + i]? = some (out.getD i 0) := by
  unfold copy_from at h
  cases hadd : checked_add start take with
  | none => rw [hadd] at h; cases h
  | some stop =>
    rw [hadd] at h
    obtain ⟨rfl, -⟩ := checked_add_eq_some hadd
    simp only at h
    split at h
    · rename_i hle
      cases h
      refine ⟨by simp [Bytes.slice]; omega, fun i hi => ?_⟩
      rw [List.getD_eq_getElem?_getD, Bytes.getElem?_slice, if_pos hi, List.getElem?_eq_getElem (by omega)]
      rfl
    · cases h

section

variable {σ : Type} {sha256 : Digest} {codecs : Codecs} {d : ReadAt σ} {view : σ → Nat → UInt8} {fs : Mount}
  {csum_tree : Option TreeRoot}

theorem read_data_ok (hd : d.Shows view) (hm : fs.chunks.Apart) {logical n : Nat} (hword : logical < size)
    {out : Bytes × Verified} {io io' : Io σ} (h : read_data sha256 d fs csum_tree logical n io = .ok out io') :
    out.1.length = n ∧ view io'.state = view io.state ∧
      ∀ i < n, fs.chunks.byteAt (view io.state) (logical + i) = some (out.1.getD i 0) := by
  unfold read_data at h
  simp only at h
  split at h
  · obtain ⟨buf, io₁, hread, h⟩ := Run.bind_ok.mp h
    obtain ⟨outcome, io₂, hlift, h⟩ := Run.bind_ok.mp h
    obtain ⟨-, rfl⟩ := IoM.lift_ok.mp hlift
    obtain ⟨rfl, rfl⟩ := Run.pure_ok.mp h
    exact read_logical_ok hd hm hword hread
  · generalize hstart : logical - logical % fs.sb.sector_size = start at h
    obtain ⟨whole, io₁, hread, h⟩ := Run.bind_ok.mp h
    obtain ⟨outcome, io₂, hlift, h⟩ := Run.bind_ok.mp h
    obtain ⟨-, rfl⟩ := IoM.lift_ok.mp hlift
    split at h
    · exact absurd h Run.throw_bind_ok
    rename_i hroom
    obtain ⟨rfl, rfl⟩ := Run.pure_ok.mp h
    obtain ⟨hlen, hview, hbytes⟩ := read_logical_ok hd hm (by omega) hread
    refine ⟨by simp [Bytes.slice]; omega, hview, fun i hi => ?_⟩
    have hbyte := hbytes (logical - start + i) (by omega)
    rw [show start + (logical - start + i) = logical + i by omega] at hbyte
    rw [hbyte]
    simp only [List.getD_eq_getElem?_getD]
    rw [Bytes.getElem?_slice, if_pos hi]

theorem mapM_range_some {f : Nat → Option UInt8} {out : Bytes} (h : ∀ i < out.length, f i = some (out.getD i 0)) :
    (List.range out.length).mapM f = some out := by
  have hmap : (List.range out.length).mapM f = some ((List.range out.length).map fun i => out.getD i 0) := by
    have hrange : ∀ i ∈ List.range out.length, f i = some (out.getD i 0) := fun i hi => h i (List.mem_range.mp hi)
    generalize List.range out.length = l at hrange
    induction l with
    | nil => rfl
    | cons i l ih =>
      rw [List.mapM_cons, hrange i (by simp), ih fun j hj => hrange j (by simp [hj])]
      rfl
  rw [hmap]
  congr 1
  apply List.ext_getElem
  · simp
  · intro i h1 h2
    simp [List.getD_eq_getElem?_getD, List.getElem?_eq_getElem h2]

theorem decompress_extent_ok (hd : d.Shows view) (hm : fs.chunks.Apart) {e : FileExtent} (hword : e.disk_bytenr < size)
    {out : Bytes} {io io' : Io σ} (h : decompress_extent sha256 codecs d fs csum_tree e io = .ok out io') :
    view io'.state = view io.state ∧ e.plain codecs fs.chunks (view io.state) fs.sb.sector_size = some out := by
  unfold decompress_extent at h
  cases hinline : e.inline with
  | some payload =>
    rw [hinline] at h
    obtain ⟨hplain, rfl⟩ := IoM.lift_ok.mp h
    refine ⟨rfl, ?_⟩
    simp only [FileExtent.plain, FileExtent.raw, hinline, Option.bind_some, hplain]
    rfl
  | none =>
    rw [hinline] at h
    obtain ⟨raw, io₁, hread, h⟩ := Run.bind_ok.mp h
    obtain ⟨hplain, rfl⟩ := IoM.lift_ok.mp h
    obtain ⟨hlen, hview, hbytes⟩ := read_data_ok hd hm hword hread
    have hraw : e.raw fs.chunks (view io.state) = some raw.1 := by
      rw [← hlen] at hbytes
      have hmap := mapM_range_some hbytes
      rw [hlen] at hmap
      simp only [FileExtent.raw, hinline]
      exact hmap
    refine ⟨hview, ?_⟩
    simp only [FileExtent.plain, hraw, Option.bind_some, hplain]
    rfl

theorem read_extent_ok (hd : d.Shows view) (hm : fs.chunks.Apart) {e : FileExtent} (hparsed : e.Parsed)
    {within take : Nat} (htake : 0 < take) (haddr : ∀ i < take, e.Addressed (within + i)) {out : Bytes} {io io' : Io σ}
    (h : read_extent sha256 codecs d fs csum_tree e within take io = .ok out io') :
    out.length = take ∧ view io'.state = view io.state ∧
      ∀ i < take, e.byteAt codecs fs.chunks (view io.state) fs.sb.sector_size (within + i) = some (out.getD i 0) := by
  unfold read_extent at h
  by_cases hzeros : e.is_zeros = true
  · simp only [hzeros, if_true] at h
    obtain ⟨rfl, rfl⟩ := Run.pure_ok.mp h
    refine ⟨by simp, rfl, fun i hi => ?_⟩
    simp [FileExtent.byteAt_zeros hzeros, List.getD_eq_getElem?_getD, hi]
  have hnotzeros : e.is_zeros = false := by simpa using hzeros
  have hfirst := haddr 0 htake hnotzeros
  have hlast := haddr (take - 1) (by omega) hnotzeros
  simp only [hnotzeros, Bool.false_eq_true, if_false] at h
  by_cases hcompressed : e.is_compressed = true
  · rw [if_pos (Or.inl hcompressed)] at hfirst
    simp only [hcompressed, if_true, wrapping_add_of_lt (show e.offset + within < size from hfirst)] at h
    obtain ⟨plain, io₁, hdecompress, h⟩ := Run.bind_ok.mp h
    obtain ⟨hcopy, rfl⟩ := IoM.lift_ok.mp h
    obtain ⟨hview, hplain⟩ := decompress_extent_ok hd hm hparsed.disk_bytenr hdecompress
    obtain ⟨hlen, hbytes⟩ := copy_from_ok hcopy
    refine ⟨hlen, hview, fun i hi => ?_⟩
    have hcompression : e.compression ≠ 0 := by simpa [FileExtent.is_compressed] using hcompressed
    rw [FileExtent.byteAt_stored hnotzeros, FileExtent.stored, if_pos hcompression, hplain, Option.bind_some,
      ← Nat.add_assoc]
    exact hbytes i hi
  have hcompression : ¬ e.compression ≠ 0 := by simpa [FileExtent.is_compressed] using hcompressed
  simp only [hcompressed, Bool.false_eq_true, if_false] at h
  cases hinline : e.inline with
  | some inline =>
    rw [if_pos (Or.inr (by simp [hinline]))] at hfirst
    simp only [hinline, wrapping_add_of_lt (show e.offset + within < size from hfirst)] at h
    obtain ⟨hcopy, rfl⟩ := IoM.lift_ok.mp h
    obtain ⟨hlen, hbytes⟩ := copy_from_ok hcopy
    refine ⟨hlen, rfl, fun i hi => ?_⟩
    rw [FileExtent.byteAt_stored hnotzeros, FileExtent.stored, if_neg hcompression]
    simp only [hinline]
    rw [← Nat.add_assoc]
    exact hbytes i hi
  | none =>
    rw [if_neg (by simp [hcompressed, hinline])] at hfirst hlast
    have hpos := hparsed.address_pos hnotzeros hinline
    simp only [hinline, wrapping_add_of_lt (show e.offset + within < size by omega),
      wrapping_add_of_lt (show e.offset + within + take < size by omega)] at h
    split at h
    · exact absurd h Run.throw_ok
    rename_i hroom
    obtain ⟨buf, io₁, hread, h⟩ := Run.bind_ok.mp h
    obtain ⟨rfl, rfl⟩ := Run.pure_ok.mp h
    rw [wrapping_add_of_lt (by omega)] at hread
    obtain ⟨hlen, hview, hbytes⟩ := read_data_ok hd hm (by omega) hread
    refine ⟨hlen, hview, fun i hi => ?_⟩
    have hbyte := hbytes i hi
    rw [FileExtent.byteAt_stored hnotzeros, FileExtent.stored, if_neg hcompression]
    simp only [hinline]
    rw [if_pos (by omega), ← hbyte]
    congr 1
    omega

end

/-! ## One round -/

theorem fileExtents_append (objectid : Nat) (a b : List LeafItem) :
    fileExtents objectid (a ++ b) = fileExtents objectid a ++ fileExtents objectid b := by
  simp [fileExtents, itemsFor]

theorem fileExtents_cons_extent {objectid : Nat} {x : LeafItem} {e : FileExtent} (hkey : is_extent_key objectid x.key)
    (hparse : FileExtent.parse x.key.offset x.data = .ok e) (rest : List LeafItem) :
    fileExtents objectid (x :: rest) = e :: fileExtents objectid rest := by
  simp only [is_extent_key, decide_eq_true_eq] at hkey
  simp [fileExtents, itemsFor, hkey, hparse, Except.toOption]

theorem fileExtents_cons_other {objectid : Nat} {x : LeafItem} (hkey : ¬ is_extent_key objectid x.key)
    (rest : List LeafItem) : fileExtents objectid (x :: rest) = fileExtents objectid rest := by
  simp only [is_extent_key, decide_eq_true_eq] at hkey
  rw [fileExtents, itemsFor, List.filter_cons_of_neg (by simpa using hkey)]
  rfl

theorem mem_fileExtents {objectid : Nat} {items : List LeafItem} {e : FileExtent} (h : e ∈ fileExtents objectid items) :
    ∃ x ∈ items, is_extent_key objectid x.key ∧ x.key.offset = e.file_offset := by
  obtain ⟨x, hx, hparse⟩ := List.mem_filterMap.mp h
  obtain ⟨hx, hkey⟩ := List.mem_filter.mp hx
  refine ⟨x, hx, hkey, ?_⟩
  cases hp : FileExtent.parse x.key.offset x.data with
  | error err => rw [hp] at hparse; cases hparse
  | ok f =>
    rw [hp] at hparse
    cases hparse
    exact (FileExtent.parse_ok hp).1.symm

section

variable {read : Reader} {node_size objectid : Nat} {items before after : List LeafItem} {c : Cursor}

/-- Behind an item of the file its extents start later, and behind one of a later key there are none. -/
theorem later_extents {x : LeafItem} {rest : List LeafItem} (hsorted : Sorted LeafItem.key (x :: rest)) {e : FileExtent}
    (he : e ∈ fileExtents objectid rest) :
    x.key < extent_key objectid 0 ∨ is_extent_key objectid x.key ∧ x.key.offset < e.file_offset := by
  obtain ⟨y, hy, hkey, hoffset⟩ := mem_fileExtents he
  have hlt := Key.lt_iff.mp ((sorted_cons.mp hsorted).1 y hy)
  rw [Key.lt_iff]
  simp only [is_extent_key, decide_eq_true_eq, extent_key] at hkey ⊢
  omega

/-- What a round finds at the cursor. -/
inductive StepFound (objectid pos left : Nat) (after : List LeafItem) : ReadStep → Prop where
  | gap {n : Nat} (hpos : 0 < n) (hle : n ≤ left)
    (hnone : ∀ p, pos ≤ p → p < pos + n → ∀ e ∈ fileExtents objectid after, e.covers p = false) :
    StepFound objectid pos left after (.gap n)
  | advance {x : LeafItem} {rest : List LeafItem} (hafter : after = x :: rest)
    (hpassed : ∀ e ∈ fileExtents objectid [x], e.file_offset + e.num_bytes ≤ pos) :
    StepFound objectid pos left after .advance
  | extent {x : LeafItem} {rest : List LeafItem} {e : FileExtent} (hafter : after = x :: rest)
    (hfile : fileExtents objectid [x] = [e]) (hparsed : e.Parsed) (hlo : e.file_offset ≤ pos)
    (hhi : pos < e.file_offset + e.num_bytes) : StepFound objectid pos left after (.extent e)

theorem read_step_ok (hat : Cursor.At (seen read) node_size items c before after)
    (hsorted : Sorted LeafItem.key items) {pos left : Nat} (hleft : 0 < left) (hpos : pos < size - 1) {r : ReadStep}
    (h : read_step objectid pos left c = .ok r) : StepFound objectid pos left after r := by
  rw [hat.items_eq] at hsorted
  have hsorted := (sorted_append.mp hsorted).2.1
  unfold read_step at h
  cases after with
  | nil =>
    have hvalid : c.valid = false := by simpa using hat.valid_iff
    simp only [hvalid, Bool.false_eq_true, not_false_eq_true, if_true] at h
    cases h
    exact .gap hleft le_rfl (by simp [fileExtents, itemsFor])
  | cons x rest =>
    have hvalid := hat.valid_iff.mpr (by simp)
    obtain ⟨hkey, hdata⟩ := hat.reads
    simp only [hvalid, not_true_eq_false, if_false, hkey, hdata, bind, Except.bind] at h
    by_cases hextent : is_extent_key objectid x.key = true
    · simp only [hextent, not_true_eq_false, if_false] at h
      cases hparse : FileExtent.parse x.key.offset x.data with
      | error err => rw [hparse] at h; cases h
      | ok e =>
        rw [hparse] at h
        obtain ⟨hoffset, hparsed⟩ := FileExtent.parse_ok hparse
        have hfile : fileExtents objectid [x] = [e] := fileExtents_cons_extent hextent hparse []
        simp only at h
        split at h
        · cases h
          refine .gap (by omega) (min_le_right _ _) ?_
          intro p hlo hhi f hf
          rw [fileExtents_cons_extent hextent hparse] at hf
          have hstart : e.file_offset ≤ f.file_offset := by
            rcases List.mem_cons.mp hf with rfl | hf
            · exact le_rfl
            · rcases later_extents hsorted hf with hlt | hlt
              · rw [Key.lt_iff] at hlt
                simp only [is_extent_key, decide_eq_true_eq, extent_key] at hextent hlt
                omega
              · omega
          simp only [FileExtent.covers, decide_eq_false_iff_not]
          omega
        · cases h
          unfold FileExtent.stop saturating_add
          split
          · refine .advance rfl ?_
            rw [hfile]
            intro f hf
            rw [List.mem_singleton.mp hf]
            omega
          · exact .extent rfl hfile hparsed (by omega) (by omega)
    · simp only [hextent] at h
      cases h
      split
      · refine .advance rfl ?_
        rw [fileExtents_cons_other hextent]
        simp [fileExtents, itemsFor]
      · rename_i hlate
        refine .gap hleft le_rfl ?_
        intro p _ _ f hf
        rw [fileExtents_cons_other hextent] at hf
        rcases later_extents hsorted hf with hlt | hlt
        · exact absurd hlt hlate
        · exact absurd hlt.1 hextent

end

/-! ## The loop -/

/-- Where a read can end well: the bytes from `offset` up to `limit` are found at 64-bit places. -/
def AllAddressed (extents : List FileExtent) (offset limit : Nat) : Prop :=
  ∀ p, offset ≤ p → p < limit → ∀ e ∈ extents, e.covers p = true → e.Addressed (p - e.file_offset)

section

variable {σ : Type} {sha256 : Digest} {codecs : Codecs} {d : ReadAt σ} {view : σ → Nat → UInt8} {fs : Mount}
  {csum_tree : Option TreeRoot} {node_size objectid offset want : Nat} {items : List LeafItem}

theorem content_append {n k done : Nat} {content : Nat → Option UInt8} {out rest : Bytes} (hlen : out.length = n)
    (hout : ∀ i < n, content (offset + (done + i)) = some (out.getD i 0)) (hrest : rest.length = k)
    (hbytes : ∀ i < k, content (offset + (done + n + i)) = some (rest.getD i 0)) :
    (out ++ rest).length = n + k ∧ ∀ i < n + k, content (offset + (done + i)) = some ((out ++ rest).getD i 0) := by
  refine ⟨by rw [List.length_append, hlen, hrest], fun i hi => ?_⟩
  rw [List.getD_eq_getElem?_getD]
  by_cases hin : i < n
  · rw [List.getElem?_append_left (by omega), ← List.getD_eq_getElem?_getD]
    exact hout i hin
  · rw [List.getElem?_append_right (by omega), ← List.getD_eq_getElem?_getD, hlen, ← hbytes (i - n) (by omega)]
    congr 2
    omega

theorem read_extents_ok (hd : d.Shows view) (hm : fs.chunks.Apart) (hsorted : Sorted LeafItem.key items)
    (hend : offset + want < size) (haddr : AllAddressed (fileExtents objectid items) offset (offset + want))
    {rounds done : Nat}
    {c : Cursor} {before after : List LeafItem} (hat : Cursor.At (seen fs.read_node) node_size items c before after)
    (hdone : done ≤ want)
    (hpassed : done < want → ∀ e ∈ fileExtents objectid before, e.file_offset + e.num_bytes ≤ offset + done)
    (hrounds : want - done + after.length ≤ rounds) {out : Bytes} {io io' : Io σ}
    (h : read_extents sha256 codecs d fs csum_tree objectid offset want rounds c done io = .ok out io') :
    view io'.state = view io.state ∧ out.length = want - done ∧ ∀ i < want - done,
      content codecs fs.chunks (view io.state) fs.sb.sector_size (fileExtents objectid items) (offset + (done + i)) =
        some (out.getD i 0) := by
  induction rounds generalizing done c before after out io with
  | zero =>
    obtain ⟨rfl, rfl⟩ := Run.pure_ok.mp h
    exact ⟨rfl, by simp; omega, fun i hi => by omega⟩
  | succ rounds ih =>
    rw [read_extents] at h
    split at h
    · rename_i hmore
      have hbefore := hpassed hmore
      have hfile : fileExtents objectid items = fileExtents objectid before ++ fileExtents objectid after := by
        rw [hat.items_eq, fileExtents_append]
      simp only [wrapping_add_of_lt (show offset + done < size by omega)] at h
      obtain ⟨r, io₁, hlift, h⟩ := Run.bind_ok.mp h
      obtain ⟨hstep, rfl⟩ := IoM.lift_ok.mp hlift
      have hfound := read_step_ok hat hsorted (by omega) (by omega) hstep
      -- No extent before the cursor reaches a byte from here on.
      have hnotbefore : ∀ p, offset + done ≤ p → ∀ e ∈ fileExtents objectid before, e.covers p = false := by
        intro p hp e he
        have := hbefore e he
        simp only [FileExtent.covers, decide_eq_false_iff_not]
        omega
      cases hfound with
      | @gap n hpos hle hnone =>
        obtain ⟨rest, io₂, hrest, h⟩ := Run.bind_ok.mp h
        obtain ⟨rfl, rfl⟩ := Run.pure_ok.mp h
        obtain ⟨hview, hlen, hbytes⟩ := ih hat (by omega)
          (fun _ e he => (hbefore e he).trans (by omega)) (by omega) hrest
        have hzero : ∀ i < n, content codecs fs.chunks (view io.state) fs.sb.sector_size (fileExtents objectid items)
            (offset + (done + i)) = some ((List.replicate n (0 : UInt8)).getD i 0) := by
          intro i hi
          rw [content_gap]
          · simp [List.getD_eq_getElem?_getD, hi]
          · intro e he
            rw [hfile] at he
            rcases List.mem_append.mp he with he | he
            · exact hnotbefore _ (by omega) e he
            · exact hnone _ (by omega) (by omega) e he
        have happend := content_append (List.length_replicate) hzero hlen hbytes
        rw [show n + (want - (done + n)) = want - done by omega] at happend
        exact ⟨hview, happend⟩
      | @advance x rest hafter hx =>
        subst hafter
        obtain ⟨c', io₂, hlift, h⟩ := Run.bind_ok.mp h
        obtain ⟨hadvance, rfl⟩ := IoM.lift_ok.mp hlift
        obtain ⟨c'', hadvance', hat'⟩ := Cursor.advance_spec hat
        obtain rfl : c' = c'' := by rw [hadvance] at hadvance'; cases hadvance'; rfl
        refine ih hat' hdone ?_ (by rw [List.length_cons] at hrounds; omega) h
        intro _ e he
        rw [fileExtents_append] at he
        rcases List.mem_append.mp he with he | he
        · exact hbefore e he
        · exact hx e he
      | @extent x rest e hafter hx hparsed hlo hhi =>
        subst hafter
        have hwords := hparsed.num_bytes
        simp only [wrapping_sub_of_le (show offset + done - e.file_offset ≤ e.num_bytes by omega) hwords] at h
        generalize htake : min (e.num_bytes - (offset + done - e.file_offset)) (want - done) = take at h
        obtain ⟨piece, io₂, hread, h⟩ := Run.bind_ok.mp h
        obtain ⟨c', io₃, hmove, h⟩ := Run.bind_ok.mp h
        obtain ⟨tail, io₄, htail, h⟩ := Run.bind_ok.mp h
        obtain ⟨rfl, rfl⟩ := Run.pure_ok.mp h
        have hcover : ∀ i < take, e.covers (offset + (done + i)) = true := by
          intro i hi
          simp only [FileExtent.covers, decide_eq_true_eq]
          omega
        have hsplit : fileExtents objectid items =
            fileExtents objectid before ++ e :: fileExtents objectid rest := by
          rw [hfile, ← List.singleton_append (l := rest), fileExtents_append objectid [x], hx, List.singleton_append]
        have hmem : e ∈ fileExtents objectid items := by rw [hsplit]; simp
        obtain ⟨hlen, hview, hbytes⟩ := read_extent_ok hd hm hparsed (by omega) (fun i hi => by
          have := haddr (offset + (done + i)) (by omega) (by omega) e hmem (hcover i hi)
          rwa [show offset + (done + i) - e.file_offset = offset + done - e.file_offset + i by omega] at this) hread
        have hpiece : ∀ i < take, content codecs fs.chunks (view io.state) fs.sb.sector_size
            (fileExtents objectid items) (offset + (done + i)) = some (piece.getD i 0) := by
          intro i hi
          rw [hsplit, content_extent (hnotbefore _ (by omega)) (hcover i hi), ← hbytes i hi]
          congr 1
          omega
        rw [wrapping_add_of_lt (by omega)] at hmove
        obtain ⟨hnext, rfl⟩ := IoM.lift_ok.mp hmove
        obtain ⟨before', after', hat', hlong, hpassed'⟩ : ∃ before' after',
            Cursor.At (seen fs.read_node) node_size items c' before' after' ∧ after'.length ≤ rest.length + 1 ∧
            (done + take < want → ∀ f ∈ fileExtents objectid before', f.file_offset + f.num_bytes ≤
              offset + (done + take)) := by
          unfold FileExtent.stop saturating_add at hnext
          split at hnext
          · obtain ⟨c'', hadvance', hat'⟩ := Cursor.advance_spec hat
            obtain rfl : c' = c'' := by rw [hnext] at hadvance'; cases hadvance'; rfl
            refine ⟨_, _, hat', by omega, ?_⟩
            intro hless f hf
            rw [fileExtents_append, hx] at hf
            rcases List.mem_append.mp hf with hf | hf
            · exact (hbefore f hf).trans (by omega)
            · rw [List.mem_singleton.mp hf]
              omega
          · cases hnext
            exact ⟨_, _, hat, by simp, fun hless => by omega⟩
        obtain ⟨hview', hlen', hbytes'⟩ := ih hat' (by omega) hpassed'
          (by rw [List.length_cons] at hrounds; omega) htail
        rw [hview] at hbytes'
        have happend := content_append hlen hpiece hlen' hbytes'
        rw [show take + (want - (done + take)) = want - done by omega] at happend
        exact ⟨hview'.trans hview, happend⟩
    · obtain ⟨rfl, rfl⟩ := Run.pure_ok.mp h
      exact ⟨rfl, by simp; omega, fun i hi => by omega⟩

end

/-! ## The whole read -/

/-- An inode of a tree, as the callers have it. Its extents come one after the other, and the length of an item
is a 32-bit field. -/
structure ReadableFile (fs : Mount) (tree : Nat) (inode : Inode) (items : List LeafItem) : Prop where
  chunks : fs.chunks.Apart
  tree : ∃ level, WellFormed (seen fs.read_node) fs.sb.node_size level tree items
  inode_item : ∃ it ∈ items, it.key = ⟨inode.objectid, INODE_ITEM_KEY, 0⟩
  apart : (fileExtents inode.objectid items).Pairwise fun a b => a.file_offset + a.num_bytes ≤ b.file_offset
  size_lt : inode.size < size
  lengths : ∀ it ∈ items, it.data.length < 2 ^ 32

/-- The bytes that reads one after the other return, for a file with the given content. -/
structure ReturnsContent (size offset : Nat) (lens : List Nat) (content : Nat → Option UInt8) (out : Bytes) : Prop where
  length : out.length = min lens.sum (size - offset)
  bytes : ∀ i < out.length, content (offset + i) = some (out.getD i 0)

section

variable {σ : Type} {sha256 : Digest} {codecs : Codecs} {d : ReadAt σ} {view : σ → Nat → UInt8} {fs : Mount}
  {csum_tree : Option TreeRoot} {tree : Nat} {inode : Inode} {items : List LeafItem}

/-- The extents before the item that the search finds end before the place it looked for. -/
theorem ReadableFile.passed (hf : ReadableFile fs tree inode items) {before after : List LeafItem} {x : LeafItem}
    (hitems : items = before ++ x :: after) {offset : Nat} (hx : x.key ≤ extent_key inode.objectid offset)
    (hparse : is_extent_key inode.objectid x.key → ∃ e, FileExtent.parse x.key.offset x.data = .ok e) :
    ∀ e ∈ fileExtents inode.objectid before, e.file_offset + e.num_bytes ≤ offset := by
  intro e he
  obtain ⟨level, hwf⟩ := hf.tree
  have hsorted := hwf.sorted
  have hapart := hf.apart
  rw [hitems] at hsorted hapart
  obtain ⟨y, hy, hykey, -⟩ := mem_fileExtents he
  have hlt := Key.lt_iff.mp ((sorted_append.mp hsorted).2.2 y hy x (by simp))
  have hle := mt Key.lt_iff.mpr (not_lt.mpr hx)
  simp only [is_extent_key, decide_eq_true_eq, extent_key] at hykey hle
  -- A key between two keys of extents of the file is one as well.
  have hxkey : is_extent_key inode.objectid x.key = true := by
    simp only [is_extent_key, decide_eq_true_eq]
    omega
  obtain ⟨f, hf'⟩ := hparse hxkey
  rw [fileExtents_append, fileExtents_cons_extent hxkey hf', List.pairwise_append] at hapart
  have hend := hapart.2.2 e he f (by simp)
  have hoffset := (FileExtent.parse_ok hf').1
  simp only [is_extent_key, decide_eq_true_eq] at hxkey
  omega

theorem read_inode_data_ok (hd : d.Shows view) (hf : ReadableFile fs tree inode items) {offset len : Nat}
    (haddr : AllAddressed (fileExtents inode.objectid items) offset (offset + min len (inode.size - offset)))
    {out : Bytes} {io io' : Io σ}
    (h : read_inode_data sha256 codecs d fs csum_tree tree inode offset len io = .ok out io') :
    view io'.state = view io.state ∧ ReturnsContent inode.size offset [len]
      (content codecs fs.chunks (view io.state) fs.sb.sector_size (fileExtents inode.objectid items)) out := by
  have hsize := hf.size_lt
  unfold read_inode_data at h
  split at h
  · obtain ⟨rfl, rfl⟩ := Run.pure_ok.mp h
    exact ⟨rfl, by simp; omega, by simp⟩
  rename_i hlow
  simp only at h
  generalize hwant : min len (inode.size - offset) = want at h
  split at h
  · obtain ⟨rfl, rfl⟩ := Run.pure_ok.mp h
    exact ⟨rfl, by simp; omega, by simp⟩
  rename_i hpos
  obtain ⟨c, io₁, hlift, h⟩ := Run.bind_ok.mp h
  obtain ⟨hsearch, rfl⟩ := IoM.lift_ok.mp hlift
  obtain ⟨level, hwf⟩ := hf.tree
  obtain ⟨c', hrun, hfound⟩ := Cursor.search_le_spec hwf (extent_key inode.objectid offset)
  obtain rfl : c = c' := by rw [hsearch] at hrun; cases hrun; rfl
  rcases hfound with ⟨before, x, after, hat, hx, -⟩ | ⟨-, habove⟩
  · have hparse : is_extent_key inode.objectid x.key → ∃ e, FileExtent.parse x.key.offset x.data = .ok e := by
      intro hxkey
      -- The first round parses it.
      obtain ⟨n, hn⟩ : ∃ n, want + c.remaining fs.read_node = n + 1 := ⟨want + c.remaining fs.read_node - 1, by omega⟩
      rw [hn, read_extents, if_pos (by omega)] at h
      obtain ⟨r, io₂, hstep, -⟩ := Run.bind_ok.mp h
      obtain ⟨hstep, -⟩ := IoM.lift_ok.mp hstep
      have hvalid := hat.valid_iff.mpr (by simp)
      obtain ⟨hkey, hdata⟩ := hat.reads
      simp only [read_step, hvalid, not_true_eq_false, if_false, hkey, hdata, hxkey, bind, Except.bind] at hstep
      cases hp : FileExtent.parse x.key.offset x.data with
      | error e => rw [hp] at hstep; cases hstep
      | ok e => exact ⟨e, rfl⟩
    have hpassed := hf.passed hat.items_eq hx hparse
    rw [hwant] at haddr
    obtain ⟨hview, hlen, hbytes⟩ := read_extents_ok hd hf.chunks hwf.sorted (by omega) haddr hat (Nat.zero_le _)
      (fun _ => hpassed) (by rw [hat.remaining_eq]; omega) h
    refine ⟨hview, ⟨by simp; omega, fun i hi => ?_⟩⟩
    have hbyte := hbytes i (by omega)
    rwa [Nat.zero_add] at hbyte
  · obtain ⟨it, hit, hkey⟩ := hf.inode_item
    have hlt := Key.lt_iff.mp (habove it hit)
    rw [hkey] at hlt
    simp only [extent_key, INODE_ITEM_KEY, EXTENT_DATA_KEY] at hlt
    omega

end

theorem decompress_length {codecs : Codecs} {algorithm expected sector : Nat} {input out : Bytes}
    (h : decompress codecs algorithm input expected sector = .ok out) : out.length < size := by
  unfold decompress at h
  obtain ⟨hexpected, h⟩ := Run.guard_bind_ok.mp h
  simp only [MAX_UNCOMPRESSED] at hexpected
  have hpadded (plain : Bytes) : (plain.take expected ++ List.replicate (expected - plain.length) 0).length < size := by
    simp only [List.length_append, List.length_take, List.length_replicate, size]
    omega
  simp only at h
  split_ifs at h
  · obtain ⟨plain, -, h⟩ := Run.except_bind_ok.mp h
    cases h
    exact hpadded plain
  · obtain ⟨plain, -, h⟩ := Run.except_bind_ok.mp h
    cases h
    exact hpadded plain
  · obtain ⟨plain, -, h⟩ := Run.except_bind_ok.mp h
    cases h
    exact hpadded plain
  · cases h

theorem ChunkMap.Apart.byteAt_lt {m : ChunkMap} (hm : m.Apart) {bytes : Nat → UInt8} {logical : Nat} {byte : UInt8}
    (h : m.byteAt bytes logical = some byte) : logical < size := by
  unfold ChunkMap.byteAt at h
  cases hmap : m.map logical with
  | error e => rw [hmap] at h; cases h
  | ok found =>
    obtain ⟨c, hc, -, hlt, -⟩ := ChunkMap.map_ok hmap
    exact hlt.trans (hm.addresses c hc)

theorem FileExtent.addressed_of_byteAt {codecs : Codecs} {m : ChunkMap} (hm : m.Apart) {bytes : Nat → UInt8}
    {sector within : Nat} {e : FileExtent} (hinline : ∀ payload ∈ e.inline, payload.length < size) {byte : UInt8}
    (h : e.byteAt codecs m bytes sector within = some byte) : e.Addressed within := by
  intro hzeros
  rw [byteAt_stored hzeros, stored] at h
  by_cases hcompression : e.compression ≠ 0
  · rw [if_pos (.inl (by simpa [is_compressed] using hcompression))]
    rw [if_pos hcompression, plain] at h
    obtain ⟨plain, hplain, hbyte⟩ := Option.bind_eq_some_iff.mp h
    obtain ⟨raw, -, hout⟩ := Option.bind_eq_some_iff.mp hplain
    cases hdecompress : decompress codecs e.compression raw e.ram_bytes sector with
    | error err => rw [hdecompress] at hout; cases hout
    | ok out =>
      rw [hdecompress] at hout
      cases hout
      exact (List.getElem?_eq_some_iff.mp hbyte).1.trans (decompress_length hdecompress)
  · rw [if_neg hcompression] at h
    cases hpayload : e.inline with
    | some payload =>
      rw [hpayload] at h
      rw [if_pos (.inr rfl)]
      exact (List.getElem?_eq_some_iff.mp h).1.trans (hinline payload hpayload)
    | none =>
      rw [hpayload] at h
      rw [if_neg (by simpa [is_compressed] using hcompression)]
      simp only [Option.ite_none_right_eq_some] at h
      rw [Nat.add_assoc]
      exact hm.byteAt_lt h.2

section

variable {σ : Type} {sha256 : Digest} {codecs : Codecs} {d : ReadAt σ} {view : σ → Nat → UInt8} {fs : Mount}
  {csum_tree : Option TreeRoot} {tree : Nat} {inode : Inode} {items : List LeafItem} {offset : Nat} {lens : List Nat}
  {out : Bytes} {io io' : Io σ}

theorem ReadableFile.payload_lt (hf : ReadableFile fs tree inode items) {e : FileExtent}
    (he : e ∈ fileExtents inode.objectid items) : ∀ payload ∈ e.inline, payload.length < size := by
  obtain ⟨x, hx, hparse⟩ := List.mem_filterMap.mp he
  have hlen := hf.lengths x (List.mem_filter.mp hx).1
  cases hp : FileExtent.parse x.key.offset x.data with
  | error err => rw [hp] at hparse; cases hparse
  | ok f =>
    rw [hp] at hparse
    cases hparse
    intro payload hpayload
    have hle := FileExtent.payload_le hp payload hpayload
    unfold size
    omega

theorem ReadableFile.content_eq (hf : ReadableFile fs tree inode items) {e : FileExtent}
    (he : e ∈ fileExtents inode.objectid items) {p : Nat} (hcovers : e.covers p = true) (bytes : Nat → UInt8) :
    content codecs fs.chunks bytes fs.sb.sector_size (fileExtents inode.objectid items) p =
      e.byteAt codecs fs.chunks bytes fs.sb.sector_size (p - e.file_offset) := by
  obtain ⟨pre, post, hsplit⟩ := List.append_of_mem he
  have hapart := hf.apart
  rw [hsplit, List.pairwise_append] at hapart
  rw [hsplit]
  refine content_extent (fun x hx => ?_) hcovers
  have hend := hapart.2.2 x hx e (by simp)
  simp only [FileExtent.covers, decide_eq_true_eq, decide_eq_false_iff_not] at hcovers ⊢
  omega

theorem ReadableFile.addressed (hf : ReadableFile fs tree inode items) {bytes : Nat → UInt8}
    (hret : ReturnsContent inode.size offset lens
      (content codecs fs.chunks bytes fs.sb.sector_size (fileExtents inode.objectid items)) out) :
    AllAddressed (fileExtents inode.objectid items) offset (offset + min lens.sum (inode.size - offset)) := by
  intro p hlo hhi e he hcovers
  have hbyte := hret.bytes (p - offset) (by rw [hret.length]; omega)
  rw [Nat.add_sub_cancel' hlo, hf.content_eq he hcovers] at hbyte
  exact FileExtent.addressed_of_byteAt hf.chunks (hf.payload_lt he) hbyte

theorem reads_ok (hd : d.Shows view) (hf : ReadableFile fs tree inode items)
    (haddr : AllAddressed (fileExtents inode.objectid items) offset (offset + min lens.sum (inode.size - offset)))
    (h : read_in_pieces sha256 codecs d fs csum_tree tree inode lens offset io = .ok out io') :
    ReturnsContent inode.size offset lens
      (content codecs fs.chunks (view io.state) fs.sb.sector_size (fileExtents inode.objectid items)) out := by
  induction lens generalizing offset out io with
  | nil =>
    obtain ⟨rfl, rfl⟩ := Run.pure_ok.mp h
    exact ⟨by simp, by simp⟩
  | cons len lens ih =>
    obtain ⟨piece, io₁, hread, h⟩ := Run.bind_ok.mp h
    obtain ⟨rest, io₂, hrest, h⟩ := Run.bind_ok.mp h
    obtain ⟨rfl, rfl⟩ := Run.pure_ok.mp h
    rw [List.sum_cons] at haddr
    obtain ⟨hview, hpiece⟩ := read_inode_data_ok hd hf (fun p hlo hhi => haddr p hlo (by omega)) hread
    have hlen := hpiece.length
    rw [List.sum_singleton] at hlen
    have htail := ih (fun p hlo hhi => haddr p (by omega) (by omega)) hrest
    rw [hview] at htail
    have hlen' := htail.length
    refine ⟨by rw [List.length_append, List.sum_cons]; omega, ?_⟩
    have happend := @content_append offset piece.length rest.length 0 _ _ _ rfl
      (fun i hi => by rw [Nat.zero_add]; exact hpiece.bytes i hi) rfl
      (fun i hi => by rw [Nat.zero_add, ← Nat.add_assoc]; exact htail.bytes i hi)
    intro i hi
    have hbyte := happend.2 i (by rw [List.length_append] at hi; exact hi)
    rwa [Nat.zero_add] at hbyte

end

/-- Reads one after the other that all come back return the content of the file, however long each of them is,
exactly when no place inside an extent that they read is past the 64 bits. -/
theorem reads_return_content_iff {σ : Type} (sha256 : Digest) (codecs : Codecs) (d : ReadAt σ)
    (view : σ → Nat → UInt8) (hd : d.Shows view) (fs : Mount) (csum_tree : Option TreeRoot) (tree : Nat)
    (inode : Inode) (items : List LeafItem) (hf : ReadableFile fs tree inode items) (offset : Nat) (lens : List Nat)
    (out : Bytes) (io io' : Io σ)
    (h : read_in_pieces sha256 codecs d fs csum_tree tree inode lens offset io = .ok out io') :
    ReturnsContent inode.size offset lens
        (content codecs fs.chunks (view io.state) fs.sb.sector_size (fileExtents inode.objectid items)) out ↔
      AllAddressed (fileExtents inode.objectid items) offset (offset + min lens.sum (inode.size - offset)) :=
  ⟨hf.addressed, fun haddr => reads_ok hd hf haddr h⟩

/-! ## A file of one sector -/

/-- A regular extent over the second sector of a chunk, whose item starts at `offset` of it. -/
def sectorExtent (offset : Nat) : LeafItem where
  key := extent_key 257 0
  data := Bytes.patch (List.replicate 53 0) [(8, Bytes.le 8 4096), (20, [1]), (21, Bytes.le 8 1052672),
    (29, Bytes.le 8 4096), (37, Bytes.le 8 offset), (45, Bytes.le 8 4096)]

def sectorItems (offset : Nat) : List LeafItem := [⟨⟨257, INODE_ITEM_KEY, 0⟩, []⟩, sectorExtent offset]

def sectorChunks : ChunkMap := ⟨[⟨1048576, 1048576, BLOCK_GROUP_DATA, [⟨1, 0⟩]⟩]⟩

theorem sectorChunks_apart : sectorChunks.Apart := ⟨by decide, by decide +kernel, by decide +kernel⟩

def sectorMount (offset : Nat) : Mount where
  device _ := .ok (.leaf ⟨1130496, 7, FS_TREE_OBJECTID, 1, [], [], sectorItems offset⟩)
  sb := lateSuper
  chunks := sectorChunks
  fs_tree_root := ⟨FS_TREE_OBJECTID, 1130496, 0, 256, 7, 0⟩
  active_batch := none
  has_open_writer := false

def sectorInode : Inode := ⟨257, 4096, 4096, 1, 0, 0, 0o100644⟩

def noDigest : Digest := ⟨fun _ => List.replicate 32 0, fun _ => by simp⟩

def noCodecs : Codecs := ⟨fun _ _ => none, fun _ => false, fun _ _ => none, fun _ _ => none⟩

def sectorIo : Io (Nat → UInt8) := ⟨fun _ => 7, [], false⟩

/-- The extent that the item of `sectorExtent` gives. -/
def sectorFile (offset : Nat) : FileExtent := ⟨0, .Regular, 4096, 0, 1052672, 4096, offset, 4096, none⟩

theorem sector_readable {offset : Nat} (hlen : (sectorExtent offset).data.length = 53)
    (hfile : fileExtents 257 (sectorItems offset) = [sectorFile offset]) :
    ReadableFile (sectorMount offset) 1130496 sectorInode (sectorItems offset) where
  chunks := sectorChunks_apart
  tree := by
    refine ⟨0, ?_, [1130496], ⟨1130496, 7, FS_TREE_OBJECTID, 1, [], [], sectorItems offset⟩, rfl, ?_, rfl⟩
    · refine List.Pairwise.cons ?_ (List.pairwise_singleton _ _)
      intro a ha
      rw [List.mem_singleton.mp ha]
      exact Key.lt_iff.mpr (by simp [sectorExtent, extent_key, INODE_ITEM_KEY, EXTENT_DATA_KEY])
    · simp [leaf_payload_bytes, sectorItems, hlen, sectorMount, lateSuper, HEADER_SIZE, ITEM_SIZE]
  inode_item := ⟨⟨⟨257, INODE_ITEM_KEY, 0⟩, []⟩, by simp [sectorItems], rfl⟩
  apart := by
    rw [show sectorInode.objectid = 257 from rfl, hfile]
    exact List.pairwise_singleton _ _
  size_lt := by simp [sectorInode, size]
  lengths := by
    intro it hit
    simp only [sectorItems, List.mem_cons, List.not_mem_nil, or_false] at hit
    rcases hit with rfl | rfl
    · simp
    · rw [hlen]
      decide

theorem ok_of_run' {ε σ α : Type} {x : EStateM ε σ α} {s : σ} (h : (x.run' s).isSome = true) :
    ∃ a s', x s = .ok a s' := by
  unfold EStateM.run' EStateM.run at h
  cases hx : x s with
  | ok a s' => exact ⟨a, s', rfl⟩
  | error e s' => rw [hx] at h; cases h

/-- The file in two reads, the second of which asks for more than there is. -/
theorem reads_return_sector : ∃ out io',
    read_in_pieces noDigest noCodecs (memory 1048576 true).toReadAt (sectorMount 0) none 1130496 sectorInode [5, 8192] 0
      sectorIo = .ok out io' ∧
    ReturnsContent 4096 0 [5, 8192]
      (content noCodecs (sectorMount 0).chunks sectorIo.state 4096 [sectorFile 0]) out := by
  have hfile : fileExtents 257 (sectorItems 0) = [sectorFile 0] := by decide
  obtain ⟨out, io', hrun⟩ := ok_of_run' (x := read_in_pieces noDigest noCodecs (memory 1048576 true).toReadAt
    (sectorMount 0) none 1130496 sectorInode [5, 8192] 0) (s := sectorIo) (by decide +kernel)
  have haddr : AllAddressed (fileExtents 257 (sectorItems 0)) 0 4096 := by
    rw [hfile]
    intro p _ hp e he _ _
    rw [List.mem_singleton.mp he]
    simp [sectorFile, FileExtent.is_compressed, size]
    omega
  have hread := (reads_return_content_iff noDigest noCodecs _ _ (memory_shows 1048576 true) (sectorMount 0) none 1130496
    sectorInode (sectorItems 0) (sector_readable (by decide) hfile) 0 [5, 8192] out sectorIo io' hrun).mpr haddr
  rw [show sectorInode.objectid = 257 from rfl, hfile] at hread
  exact ⟨out, io', hrun, hread⟩

/-- The item starts 4096 bytes before the end of the 64 bits: the bounds check wraps, and the sector in front of the
extent is returned. -/
theorem sector_before_extent_read :
    ¬ ∀ (sha256 : Digest) (codecs : Codecs) (d : ReadAt (Nat → UInt8)), d.Shows (fun s => s) →
    ∀ (fs : Mount) (csum_tree : Option TreeRoot) (tree : Nat) (inode : Inode) (items : List LeafItem),
    ReadableFile fs tree inode items → ∀ offset lens out io io',
    read_in_pieces sha256 codecs d fs csum_tree tree inode lens offset io = .ok out io' →
    ReturnsContent inode.size offset lens
      (content codecs fs.chunks io.state fs.sb.sector_size (fileExtents inode.objectid items)) out := by
  intro h
  have hfile : fileExtents 257 (sectorItems (2 ^ 64 - 4096)) = [sectorFile (2 ^ 64 - 4096)] := by decide
  obtain ⟨out, io', hrun⟩ := ok_of_run' (x := read_in_pieces noDigest noCodecs (memory 1048576 true).toReadAt
    (sectorMount (2 ^ 64 - 4096)) none 1130496 sectorInode [4096] 0) (s := sectorIo) (by decide +kernel)
  have hread := h noDigest noCodecs _ (memory_shows 1048576 true) _ none 1130496 sectorInode _
    (sector_readable (by decide) hfile) 0 [4096] out sectorIo io' hrun
  rw [show sectorInode.objectid = 257 from rfl, hfile] at hread
  have hfirst := hread.bytes 0 (by rw [hread.length]; decide)
  have hnone : content noCodecs (sectorMount (2 ^ 64 - 4096)).chunks sectorIo.state 4096
      [sectorFile (2 ^ 64 - 4096)] (0 + 0) = none := by decide
  rw [show (sectorMount (2 ^ 64 - 4096)).sb.sector_size = 4096 from rfl, hnone] at hfirst
  cases hfirst

end LuksAndroid.Btrfs
