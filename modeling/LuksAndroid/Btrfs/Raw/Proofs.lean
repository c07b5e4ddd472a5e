import LuksAndroid.Btrfs.Raw.Code
import LuksAndroid.Btrfs.Super.Copy

/-!
# A node reads back as it was written

The fields of a node lie apart from each other, so the block keeps every one of them. What
remains is arithmetic: the descriptors end where the payloads begin, or before.
-/

namespace LuksAndroid.Btrfs.Raw

open Word Bytes Superblock

variable (sha256 : Digest)

/-! ## A block of fields -/

/-- The fields lie behind the checksum, inside the block and apart from each other. -/
structure Layout (size : Nat) (fields : List (Nat × Bytes)) : Prop where
  inside : ∀ s ∈ fields.map span, 32 ≤ s.1 ∧ s.1 + s.2 ≤ size
  apart : (fields.map span).Pairwise Apart

section

variable (t : CsumType) {size : Nat} {fields : List (Nat × Bytes)}

theorem Layout.length_patch (h : Layout size fields) :
    (patch (List.replicate size 0) fields).length = size := by
  rw [Bytes.length_patch fields (fun s hs => by simpa using (h.inside s hs).2), List.length_replicate]

theorem length_write_out (h : Layout size fields) (hsize : 32 ≤ size) :
    (write_out sha256 t size fields).length = size := by
  unfold write_out
  rw [length_put (by rw [length_calculate, h.length_patch]; omega), h.length_patch]

theorem slice_write_out (h : Layout size fields) (hsize : 32 ≤ size) {f : Nat × Bytes} (hf : f ∈ fields) :
    slice (write_out sha256 t size fields) f.1 f.2.length = f.2 := by
  unfold write_out
  rw [slice_put_of_apart (by rw [length_calculate, h.length_patch]; omega)]
  · exact slice_patch_mem fields hf (fun s hs => by simpa using (h.inside s hs).2) h.apart
  · have hinside := h.inside (span f) (List.mem_map_of_mem hf)
    rw [length_calculate]
    exact Or.inl hinside.1

theorem get_write_out (h : Layout size fields) (hsize : 32 ≤ size) {pos w v : Nat}
    (hf : (pos, le w v) ∈ fields) (hv : v < 256 ^ w) : get (write_out sha256 t size fields) pos w = v := by
  have hslice := slice_write_out sha256 t h hsize hf
  rw [length_le] at hslice
  rw [Bytes.get, hslice, unle_le_of_lt hv]

theorem verify_write_out (h : Layout size fields) :
    t.verify sha256 ((write_out sha256 t size fields).take 32) ((write_out sha256 t size fields).drop 32) = true := by
  have hlen := h.length_patch
  have hsum := @length_calculate sha256 t ((patch (List.replicate size 0) fields).drop 32)
  unfold write_out
  simp only [put, List.take_zero, List.nil_append, hsum, Nat.zero_add]
  rw [List.take_left' hsum, List.drop_left' hsum]
  exact verify_calculate _ _

end

/-! ## The header -/

/-- The fields of a header are of their types. -/
structure Header.Words (h : Header) : Prop where
  metadata_uuid : h.metadata_uuid.length = 16
  chunk_tree_uuid : h.chunk_tree_uuid.length = 16
  bytenr : h.bytenr < 2 ^ 64
  flags : h.flags < 2 ^ 64
  generation : h.generation < 2 ^ 64
  owner : h.owner < 2 ^ 64
  level : h.level < 2 ^ 8

section

variable {h : Header} {size : Nat} {rest : List (Nat × Bytes)}

theorem Header.spans (hw : h.Words) : h.fields.map span =
    [(32, 16), (48, 8), (56, 8), (64, 16), (80, 8), (88, 8), (96, 4), (100, 1)] := by
  simp [Header.fields, span, hw.metadata_uuid, hw.chunk_tree_uuid]

theorem Header.layout (hw : h.Words) (hsize : HEADER_SIZE ≤ size)
    (hrest : ∀ s ∈ rest.map span, HEADER_SIZE ≤ s.1 ∧ s.1 + s.2 ≤ size)
    (happ : (rest.map span).Pairwise Apart) : Layout size (h.fields ++ rest) := by
  have hspans : ∀ s ∈ h.fields.map span, 32 ≤ s.1 ∧ s.1 + s.2 ≤ HEADER_SIZE := by
    rw [Header.spans hw]
    decide
  constructor
  · intro s hs
    rw [List.map_append, List.mem_append] at hs
    rcases hs with hs | hs
    · have := hspans s hs
      omega
    · have := hrest s hs
      unfold HEADER_SIZE at this
      omega
  · rw [List.map_append, List.pairwise_append]
    refine ⟨by rw [Header.spans hw]; decide, happ, fun a ha b hb => ?_⟩
    have h1 := hspans a ha
    have h2 := hrest b hb
    exact Or.inl (by omega)

/-- What the reader makes of the block: the checks of the address and of the filesystem are left. -/
theorem parse_write_out (t : CsumType) (hw : h.Words) (hl : Layout size (h.fields ++ rest))
    (hword : h.nr_items < 2 ^ 32)
    (hcount : HEADER_SIZE + h.nr_items * (if h.level = 0 then ITEM_SIZE else KEY_PTR_SIZE) ≤ size)
    (bytenr : Nat) (metadata_uuid : Bytes) :
    Node.parse sha256 (write_out sha256 t size (h.fields ++ rest)) bytenr t metadata_uuid =
      if h.bytenr ≠ bytenr then
        .error (.CorruptFs "btrfs tree node is not at the address that pointed to it")
      else if h.metadata_uuid ≠ metadata_uuid then
        .error (.CorruptFs "btrfs tree node belongs to a different filesystem")
      else .ok ⟨write_out sha256 t size (h.fields ++ rest), h.level, h.nr_items, h.owner, h.generation⟩ := by
  have hsize : HEADER_SIZE ≤ size := by omega
  have h32 : 32 ≤ size := by unfold HEADER_SIZE at hsize; omega
  have hget : ∀ {pos w v : Nat}, (pos, le w v) ∈ h.fields → v < 256 ^ w →
      (write_out sha256 t size (h.fields ++ rest)).get pos w = v :=
    fun hf hv => get_write_out sha256 t hl h32 (List.mem_append_left _ hf) hv
  have huuid := slice_write_out sha256 t hl h32
    (f := (32, h.metadata_uuid)) (List.mem_append_left _ (by simp [Header.fields]))
  rw [hw.metadata_uuid] at huuid
  unfold Node.parse
  rw [length_write_out sha256 t hl h32, if_neg (by omega), verify_write_out sha256 t hl, if_neg (by simp),
    hget (v := h.bytenr) (by simp [Header.fields]) hw.bytenr, huuid,
    hget (v := h.nr_items) (by simp [Header.fields]) hword,
    hget (v := h.level) (by simp [Header.fields]) hw.level,
    hget (v := h.owner) (by simp [Header.fields]) hw.owner,
    hget (v := h.generation) (by simp [Header.fields]) hw.generation]
  simp only [gt_iff_lt, if_neg (Nat.not_lt.mpr hcount)]

theorem node_header (t : CsumType) (hw : h.Words) (hl : Layout size (h.fields ++ rest)) (h32 : 32 ≤ size)
    {node : Node} (hraw : node.raw = write_out sha256 t size (h.fields ++ rest)) :
    node.bytenr = h.bytenr ∧ node.flags = h.flags ∧ node.metadata_uuid = h.metadata_uuid ∧
      node.chunk_tree_uuid = h.chunk_tree_uuid := by
  have huuid := slice_write_out sha256 t hl h32 (f := (32, h.metadata_uuid))
    (List.mem_append_left _ (by simp [Header.fields]))
  have hchunk := slice_write_out sha256 t hl h32 (f := (64, h.chunk_tree_uuid))
    (List.mem_append_left _ (by simp [Header.fields]))
  rw [hw.metadata_uuid] at huuid
  rw [hw.chunk_tree_uuid] at hchunk
  unfold Node.bytenr Node.flags Node.metadata_uuid Node.chunk_tree_uuid
  rw [hraw]
  refine ⟨get_write_out sha256 t hl h32 (List.mem_append_left _ ?_) hw.bytenr,
    get_write_out sha256 t hl h32 (List.mem_append_left _ ?_) hw.flags, huuid, hchunk⟩
  · simp [Header.fields]
  · simp [Header.fields]

end

/-! ## Descriptors and payloads -/

/-- A key of the widths of its fields. -/
structure KeyWords (k : Key) : Prop where
  objectid : k.objectid < 2 ^ 64
  item_type : k.item_type < 2 ^ 8
  offset : k.offset < 2 ^ 64

def payload (items : List LeafItem) : Nat := (items.map (·.data.length)).sum

@[simp] theorem payload_nil : payload [] = 0 := rfl

@[simp] theorem payload_cons (item : LeafItem) (items : List LeafItem) :
    payload (item :: items) = item.data.length + payload items := by
  simp [payload]

theorem item_spans (i data_offset : Nat) (item : LeafItem) :
    (Leaf.item_fields i data_offset item).map span =
      [(101 + i * 25, 8), (101 + i * 25 + 8, 1), (101 + i * 25 + 9, 8), (101 + i * 25 + 17, 4),
        (101 + i * 25 + 21, 4), (101 + data_offset, item.data.length)] := by
  simp [Leaf.item_fields, span, HEADER_SIZE, ITEM_SIZE]

theorem items_spans {s : Nat × Nat} (items : List LeafItem) (i data_offset : Nat) (hfit : payload items ≤ data_offset)
    (hs : s ∈ (Leaf.items_fields i data_offset items).map span) :
    (101 + i * 25 ≤ s.1 ∧ s.1 + s.2 ≤ 101 + (i + items.length) * 25) ∨
      (101 + (data_offset - payload items) ≤ s.1 ∧ s.1 + s.2 ≤ 101 + data_offset) := by
  induction items generalizing i data_offset with
  | nil => simp [Leaf.items_fields] at hs
  | cons item items ih =>
    simp only [payload_cons] at hfit ⊢
    rw [Leaf.items_fields, List.map_append, List.mem_append, item_spans] at hs
    rcases hs with hs | hs
    · simp only [List.mem_cons, List.not_mem_nil, or_false] at hs
      rcases hs with rfl | rfl | rfl | rfl | rfl | rfl <;> simp only [List.length_cons] <;> omega
    · have := ih (i + 1) (data_offset - item.data.length) (by omega) hs
      simp only [List.length_cons]
      omega

theorem items_apart (items : List LeafItem) (i data_offset : Nat)
    (hfit : (i + items.length) * 25 + payload items ≤ data_offset) :
    ((Leaf.items_fields i data_offset items).map span).Pairwise Apart := by
  induction items generalizing i data_offset with
  | nil => simp [Leaf.items_fields]
  | cons item items ih =>
    simp only [payload_cons, List.length_cons] at hfit
    rw [Leaf.items_fields, List.map_append, List.pairwise_append, item_spans]
    refine ⟨?_, ih (i + 1) (data_offset - item.data.length) (by omega), ?_⟩
    · simp only [List.pairwise_cons, List.mem_cons, forall_eq_or_imp, List.not_mem_nil, false_implies,
        implies_true, and_true, List.Pairwise.nil, Apart]
      omega
    · intro a ha b hb
      have hb := items_spans items (i + 1) (data_offset - item.data.length) (by omega) hb
      simp only [List.mem_cons, List.not_mem_nil, or_false] at ha
      rcases ha with rfl | rfl | rfl | rfl | rfl | rfl <;> simp only [Apart] <;> omega

theorem item_fields_subset (items : List LeafItem) (i data_offset j : Nat) (item : LeafItem)
    (hj : items[j]? = some item) : ∃ o, o + item.data.length ≤ max data_offset item.data.length ∧
      Leaf.item_fields (i + j) o item ⊆ Leaf.items_fields i data_offset items := by
  induction items generalizing i data_offset j with
  | nil => simp at hj
  | cons first items ih =>
    rw [Leaf.items_fields]
    cases j with
    | zero =>
      simp only [List.getElem?_cons_zero, Option.some.injEq] at hj
      subst hj
      exact ⟨data_offset - first.data.length, by omega, List.subset_append_left _ _⟩
    | succ j =>
      obtain ⟨o, ho, hsub⟩ := ih (i + 1) (data_offset - first.data.length) j hj
      refine ⟨o, by omega, ?_⟩
      rw [show i + (j + 1) = i + 1 + j by omega]
      exact List.Subset.trans hsub (List.subset_append_right _ _)

theorem entry_spans (i : Nat) (entry : InteriorEntry) :
    (InteriorNode.entry_fields i entry).map span =
      [(101 + i * 33, 8), (101 + i * 33 + 8, 1), (101 + i * 33 + 9, 8), (101 + i * 33 + 17, 8),
        (101 + i * 33 + 25, 8)] := by
  simp [InteriorNode.entry_fields, span, HEADER_SIZE, KEY_PTR_SIZE]

theorem entries_spans {s : Nat × Nat} (entries : List InteriorEntry) (i : Nat)
    (hs : s ∈ (InteriorNode.entries_fields i entries).map span) :
    101 + i * 33 ≤ s.1 ∧ s.1 + s.2 ≤ 101 + (i + entries.length) * 33 := by
  induction entries generalizing i with
  | nil => simp [InteriorNode.entries_fields] at hs
  | cons entry entries ih =>
    rw [InteriorNode.entries_fields, List.map_append, List.mem_append, entry_spans] at hs
    rcases hs with hs | hs
    · simp only [List.mem_cons, List.not_mem_nil, or_false] at hs
      rcases hs with rfl | rfl | rfl | rfl | rfl <;> simp only [List.length_cons] <;> omega
    · have := ih (i + 1) hs
      simp only [List.length_cons]
      omega

theorem entries_apart (entries : List InteriorEntry) (i : Nat) :
    ((InteriorNode.entries_fields i entries).map span).Pairwise Apart := by
  induction entries generalizing i with
  | nil => simp [InteriorNode.entries_fields]
  | cons entry entries ih =>
    rw [InteriorNode.entries_fields, List.map_append, List.pairwise_append, entry_spans]
    refine ⟨?_, ih (i + 1), ?_⟩
    · simp only [List.pairwise_cons, List.mem_cons, forall_eq_or_imp, List.not_mem_nil, false_implies,
        implies_true, and_true, List.Pairwise.nil, Apart]
      omega
    · intro a ha b hb
      have hb := entries_spans entries (i + 1) hb
      simp only [List.mem_cons, List.not_mem_nil, or_false] at ha
      rcases ha with rfl | rfl | rfl | rfl | rfl <;> simp only [Apart] <;> omega

theorem entry_fields_subset (entries : List InteriorEntry) (i j : Nat) (entry : InteriorEntry)
    (hj : entries[j]? = some entry) :
    InteriorNode.entry_fields (i + j) entry ⊆ InteriorNode.entries_fields i entries := by
  induction entries generalizing i j with
  | nil => simp at hj
  | cons first entries ih =>
    rw [InteriorNode.entries_fields]
    cases j with
    | zero =>
      simp only [List.getElem?_cons_zero, Option.some.injEq] at hj
      subst hj
      exact List.subset_append_left _ _
    | succ j =>
      rw [show i + (j + 1) = i + 1 + j by omega]
      exact List.Subset.trans (ih (i + 1) j hj) (List.subset_append_right _ _)

/-! ## Reading back -/

theorem parse_checks {α : Type} (n : Btrfs.Node) (bytenr : Nat) (metadata_uuid : Bytes) (x : α) :
    (if n.bytenr ≠ bytenr then .error (.CorruptFs "btrfs tree node is not at the address that pointed to it")
      else if n.metadata_uuid ≠ metadata_uuid then
        .error (.CorruptFs "btrfs tree node belongs to a different filesystem")
      else .ok x) = (Btrfs.Node.parse n bytenr metadata_uuid).map fun _ => x := by
  unfold Btrfs.Node.parse
  split
  · rfl
  · split <;> rfl

theorem mapM_range_eq_ok {ε α : Type} {f : Nat → Except ε α} (l : List α)
    (h : ∀ i x, l[i]? = some x → f i = .ok x) : (List.range l.length).mapM f = .ok l := by
  induction l generalizing f with
  | nil => rfl
  | cons x l ih =>
    have hrest : (List.range l.length).mapM (f ∘ Nat.succ) = .ok l :=
      ih fun i y hy => h (i + 1) y (by simpa using hy)
    rw [List.length_cons, List.range_succ_eq_map, List.mapM_cons, List.mapM_map, h 0 x rfl, hrest]
    rfl

section

variable {fields : List (Nat × Bytes)} {t : CsumType} {size : Nat} {k : Key}

theorem parse_key_write_out (pos : Nat) (hl : Layout size fields) (h32 : 32 ≤ size) (hk : KeyWords k)
    (hobjectid : (pos, le 8 k.objectid) ∈ fields) (htype : (pos + 8, le 1 k.item_type) ∈ fields)
    (hoffset : (pos + 9, le 8 k.offset) ∈ fields) : parse_key (write_out sha256 t size fields) pos = k := by
  unfold parse_key
  rw [get_write_out sha256 t hl h32 hobjectid hk.objectid, get_write_out sha256 t hl h32 htype hk.item_type,
    get_write_out sha256 t hl h32 hoffset hk.offset]

end

/-- The fields of a leaf are of their types. -/
structure Leaf.Words (l : Leaf) : Prop where
  header : l.header.Words
  keys : ∀ item ∈ l.items, KeyWords item.key

/-- The fields of an interior node are of their types, and its level is not that of a leaf. -/
structure InteriorNode.Words (n : InteriorNode) : Prop where
  header : n.header.Words
  level : 0 < n.level
  keys : ∀ entry ∈ n.entries, KeyWords entry.key
  blockptrs : ∀ entry ∈ n.entries, entry.blockptr < 2 ^ 64
  generations : ∀ entry ∈ n.entries, entry.generation < 2 ^ 64

theorem Leaf.layout {l : Leaf} (hw : l.Words) {node_size : Nat}
    (hfit : HEADER_SIZE + l.items.length * ITEM_SIZE + l.total_data_bytes ≤ node_size) :
    Layout node_size (l.header.fields ++ Leaf.items_fields 0 (node_size - HEADER_SIZE) l.items) := by
  have hpayload : l.total_data_bytes = payload l.items := rfl
  simp only [HEADER_SIZE, ITEM_SIZE] at hfit ⊢
  apply Header.layout hw.header
  · simp only [HEADER_SIZE]
    omega
  · intro s hs
    have := items_spans l.items 0 (node_size - 101) (by omega) hs
    simp only [HEADER_SIZE]
    omega
  · exact items_apart l.items 0 (node_size - 101) (by omega)

theorem Leaf.read_item {l : Leaf} (hw : l.Words) {node_size : Nat} (hsize : node_size < 2 ^ 32)
    (hfit : HEADER_SIZE + l.items.length * ITEM_SIZE + l.total_data_bytes ≤ node_size) {node : Node}
    (hraw : node.raw = write_out sha256 l.csum_type node_size
      (l.header.fields ++ Leaf.items_fields 0 (node_size - HEADER_SIZE) l.items))
    (hlevel : node.level = 0) (hcount : node.nr_items = l.items.length) {i : Nat} {item : LeafItem}
    (hi : l.items[i]? = some item) : node.key i = .ok item.key ∧ node.item_data i = .ok item.data := by
  have hl := Leaf.layout hw hfit
  have hlt : i < l.items.length := (List.getElem?_eq_some_iff.mp hi).1
  have hmem : item ∈ l.items := List.mem_of_getElem? hi
  have hpayload : item.data.length ≤ l.total_data_bytes := List.le_sum_of_mem (List.mem_map_of_mem hmem)
  have h32 : 32 ≤ node_size := by simp only [HEADER_SIZE] at hfit; omega
  obtain ⟨o, ho, hsub⟩ := item_fields_subset l.items 0 (node_size - HEADER_SIZE) i item hi
  rw [Nat.zero_add] at hsub
  have hin : ∀ f ∈ Leaf.item_fields i o item,
      f ∈ l.header.fields ++ Leaf.items_fields 0 (node_size - HEADER_SIZE) l.items :=
    fun f hf => List.mem_append_right _ (hsub hf)
  have hend : HEADER_SIZE + o + item.data.length ≤ node_size := by
    simp only [HEADER_SIZE] at hfit ho ⊢
    omega
  have hleaf : node.is_leaf = true := by simp [Node.is_leaf, hlevel]
  constructor
  · unfold Node.key
    rw [if_neg (by omega), if_pos hleaf, hraw]
    simp only
    rw [parse_key_write_out sha256 (HEADER_SIZE + i * ITEM_SIZE) hl h32 (hw.keys item hmem)
      (hin _ (by simp [Leaf.item_fields])) (hin _ (by simp [Leaf.item_fields]))
      (hin _ (by simp [Leaf.item_fields]))]
  · have hoffset : (write_out sha256 l.csum_type node_size (l.header.fields ++
        Leaf.items_fields 0 (node_size - HEADER_SIZE) l.items)).get (HEADER_SIZE + i * ITEM_SIZE + KEY_SIZE) 4 = o :=
      get_write_out sha256 l.csum_type hl h32 (hin _ (by simp [Leaf.item_fields, KEY_SIZE])) (by omega)
    have hlen : (write_out sha256 l.csum_type node_size (l.header.fields ++
        Leaf.items_fields 0 (node_size - HEADER_SIZE) l.items)).get (HEADER_SIZE + i * ITEM_SIZE + KEY_SIZE + 4) 4 =
        item.data.length :=
      get_write_out sha256 l.csum_type hl h32 (hin _ (by simp [Leaf.item_fields, KEY_SIZE])) (by omega)
    have hdata := slice_write_out sha256 l.csum_type hl h32
      (hin (HEADER_SIZE + o, item.data) (by simp [Leaf.item_fields]))
    have hword : 2 ^ 32 < size := by simp [size]
    have hstart : checked_add HEADER_SIZE o = some (HEADER_SIZE + o) := if_pos (by omega)
    have hstop : checked_add (HEADER_SIZE + o) item.data.length = some (HEADER_SIZE + o + item.data.length) :=
      if_pos (by omega)
    unfold Node.item_data
    rw [if_neg (by simp [hleaf]), if_neg (by omega), hraw]
    simp only [hoffset, hlen, hstart, hstop, length_write_out sha256 l.csum_type hl h32]
    rw [if_neg (by omega), hdata]

theorem Leaf.from_written {l : Leaf} (hw : l.Words) {node_size : Nat} (hsize : node_size < 2 ^ 32)
    (hfit : HEADER_SIZE + l.items.length * ITEM_SIZE + l.total_data_bytes ≤ node_size) {node : Node}
    (hraw : node.raw = write_out sha256 l.csum_type node_size
      (l.header.fields ++ Leaf.items_fields 0 (node_size - HEADER_SIZE) l.items))
    (hlevel : node.level = 0) (hcount : node.nr_items = l.items.length) (howner : node.owner = l.owner)
    (hgeneration : node.generation = l.generation) : Leaf.from_node node l.csum_type = .ok l := by
  have h32 : 32 ≤ node_size := by simp only [HEADER_SIZE] at hfit; omega
  obtain ⟨hbytenr, hflags, huuid, hchunk⟩ :=
    node_header sha256 l.csum_type hw.header (Leaf.layout hw hfit) h32 hraw
  have hitem : ∀ i item, l.items[i]? = some item →
      (do
        let key ← node.key i
        let data ← node.item_data i
        return (⟨key, data⟩ : LeafItem)) = .ok item := by
    intro i item hi
    obtain ⟨hkey, hdata⟩ := Leaf.read_item sha256 hw hsize hfit hraw hlevel hcount hi
    rw [hkey, hdata]
    rfl
  have hitems := mapM_range_eq_ok l.items hitem
  unfold Leaf.from_node
  rw [if_neg (by simp [Node.is_leaf, hlevel]), hcount, hitems, hbytenr, hflags, huuid, hchunk, howner, hgeneration]
  rfl

theorem Leaf.reads_back {l : Leaf} (hw : l.Words) {node_size : Nat} (hsize : node_size < 2 ^ 32)
    (hfit : HEADER_SIZE + l.items.length * ITEM_SIZE + l.total_data_bytes ≤ node_size) :
    ∃ raw node, l.emit sha256 node_size = .ok raw ∧ Leaf.from_node node l.csum_type = .ok l ∧
      ∀ bytenr metadata_uuid, Node.parse sha256 raw bytenr l.csum_type metadata_uuid =
        (Btrfs.Node.parse (.leaf l.toLeaf) bytenr metadata_uuid).map fun _ => node := by
  have hcount : l.header.nr_items < 2 ^ 32 := by
    change l.items.length < 2 ^ 32
    simp only [ITEM_SIZE] at hfit
    omega
  obtain ⟨raw, hraw⟩ : ∃ raw, raw = write_out sha256 l.csum_type node_size
      (l.header.fields ++ Leaf.items_fields 0 (node_size - HEADER_SIZE) l.items) := ⟨_, rfl⟩
  refine ⟨raw, ⟨raw, 0, l.items.length, l.owner, l.generation⟩, ?_, ?_, fun bytenr uuid => ?_⟩
  · unfold Leaf.emit
    rw [if_neg (by omega), hraw]
  · exact Leaf.from_written sha256 hw hsize hfit hraw rfl rfl rfl rfl
  · rw [hraw, parse_write_out sha256 l.csum_type hw.header (Leaf.layout hw hfit) hcount
      (by change HEADER_SIZE + l.items.length * ITEM_SIZE ≤ node_size; omega)]
    exact parse_checks (.leaf l.toLeaf) bytenr uuid _

/-! ## Interior nodes -/

theorem InteriorNode.layout {n : InteriorNode} (hw : n.Words) {node_size : Nat}
    (hfit : HEADER_SIZE + n.entries.length * KEY_PTR_SIZE ≤ node_size) :
    Layout node_size (n.header.fields ++ InteriorNode.entries_fields 0 n.entries) := by
  simp only [HEADER_SIZE, KEY_PTR_SIZE] at hfit
  apply Header.layout hw.header
  · simp only [HEADER_SIZE]
    omega
  · intro s hs
    have := entries_spans n.entries 0 hs
    simp only [HEADER_SIZE]
    omega
  · exact entries_apart n.entries 0

theorem InteriorNode.read_entry {n : InteriorNode} (hw : n.Words) {node_size : Nat}
    (hfit : HEADER_SIZE + n.entries.length * KEY_PTR_SIZE ≤ node_size) {node : Node}
    (hraw : node.raw = write_out sha256 n.csum_type node_size
      (n.header.fields ++ InteriorNode.entries_fields 0 n.entries))
    (hlevel : node.level = n.level) (hcount : node.nr_items = n.entries.length) {i : Nat} {entry : InteriorEntry}
    (hi : n.entries[i]? = some entry) : node.key_ptr i = .ok entry := by
  have hl := InteriorNode.layout hw hfit
  have hlt : i < n.entries.length := (List.getElem?_eq_some_iff.mp hi).1
  have hmem : entry ∈ n.entries := List.mem_of_getElem? hi
  have h32 : 32 ≤ node_size := by simp only [HEADER_SIZE] at hfit; omega
  have hsub := entry_fields_subset n.entries 0 i entry hi
  rw [Nat.zero_add] at hsub
  have hin : ∀ f ∈ InteriorNode.entry_fields i entry,
      f ∈ n.header.fields ++ InteriorNode.entries_fields 0 n.entries :=
    fun f hf => List.mem_append_right _ (hsub hf)
  have hleaf : node.is_leaf = false := by
    have := hw.level
    simp [Node.is_leaf, hlevel]
    omega
  have hkey : node.key i = .ok entry.key := by
    unfold Node.key
    rw [if_neg (by omega), if_neg (by simp [hleaf]), hraw]
    simp only
    rw [parse_key_write_out sha256 (HEADER_SIZE + i * KEY_PTR_SIZE) hl h32 (hw.keys entry hmem)
      (hin _ (by simp [InteriorNode.entry_fields])) (hin _ (by simp [InteriorNode.entry_fields]))
      (hin _ (by simp [InteriorNode.entry_fields]))]
  have hblockptr : node.raw.get (HEADER_SIZE + i * KEY_PTR_SIZE + KEY_SIZE) 8 = entry.blockptr := by
    rw [hraw]
    exact get_write_out sha256 n.csum_type hl h32 (hin _ (by simp [InteriorNode.entry_fields, KEY_SIZE]))
      (hw.blockptrs entry hmem)
  have hgeneration : node.raw.get (HEADER_SIZE + i * KEY_PTR_SIZE + KEY_SIZE + 8) 8 = entry.generation := by
    rw [hraw]
    exact get_write_out sha256 n.csum_type hl h32 (hin _ (by simp [InteriorNode.entry_fields, KEY_SIZE]))
      (hw.generations entry hmem)
  unfold Node.key_ptr
  rw [if_neg (by simp [hleaf]), hkey]
  simp only [hblockptr, hgeneration]
  rfl

theorem InteriorNode.from_written {n : InteriorNode} (hw : n.Words) {node_size : Nat}
    (hfit : HEADER_SIZE + n.entries.length * KEY_PTR_SIZE ≤ node_size) {node : Node}
    (hraw : node.raw = write_out sha256 n.csum_type node_size
      (n.header.fields ++ InteriorNode.entries_fields 0 n.entries))
    (hlevel : node.level = n.level) (hcount : node.nr_items = n.entries.length) (howner : node.owner = n.owner)
    (hgeneration : node.generation = n.generation) : InteriorNode.from_node node n.csum_type = .ok n := by
  have h32 : 32 ≤ node_size := by simp only [HEADER_SIZE] at hfit; omega
  obtain ⟨hbytenr, hflags, huuid, hchunk⟩ :=
    node_header sha256 n.csum_type hw.header (InteriorNode.layout hw hfit) h32 hraw
  have hentries := mapM_range_eq_ok n.entries fun i entry hi =>
    InteriorNode.read_entry sha256 hw hfit hraw hlevel hcount hi
  have hpos := hw.level
  unfold InteriorNode.from_node
  rw [if_neg (by simp [Node.is_leaf, hlevel]; omega), hcount, hentries, hbytenr, hflags, huuid, hchunk, howner,
    hgeneration, hlevel]
  rfl

theorem InteriorNode.reads_back {n : InteriorNode} (hw : n.Words) {node_size : Nat} (hsize : node_size < 2 ^ 32)
    (hfit : HEADER_SIZE + n.entries.length * KEY_PTR_SIZE ≤ node_size) :
    ∃ raw node, n.emit sha256 node_size = .ok raw ∧ InteriorNode.from_node node n.csum_type = .ok n ∧
      ∀ bytenr metadata_uuid, Node.parse sha256 raw bytenr n.csum_type metadata_uuid =
        (Btrfs.Node.parse (.interior n.toInteriorNode) bytenr metadata_uuid).map fun _ => node := by
  have hcount : n.header.nr_items < 2 ^ 32 := by
    change n.entries.length < 2 ^ 32
    simp only [KEY_PTR_SIZE] at hfit
    omega
  have hstride : (if n.header.level = 0 then ITEM_SIZE else KEY_PTR_SIZE) = KEY_PTR_SIZE :=
    if_neg (Nat.ne_of_gt hw.level)
  obtain ⟨raw, hraw⟩ : ∃ raw, raw = write_out sha256 n.csum_type node_size
      (n.header.fields ++ InteriorNode.entries_fields 0 n.entries) := ⟨_, rfl⟩
  refine ⟨raw, ⟨raw, n.level, n.entries.length, n.owner, n.generation⟩, ?_, ?_, fun bytenr uuid => ?_⟩
  · unfold InteriorNode.emit
    rw [if_neg (by omega), hraw]
  · exact InteriorNode.from_written sha256 hw hfit hraw rfl rfl rfl rfl
  · rw [hraw, parse_write_out sha256 n.csum_type hw.header (InteriorNode.layout hw hfit) hcount
      (by rw [hstride]; exact hfit)]
    exact parse_checks (.interior n.toInteriorNode) bytenr uuid _

/-! ## The bytes stand for the fields -/

/-- The model of the fields is right about the bytes: what it writes out is written out, and what it reads back at an
address is read back there, with the same error otherwise. -/
theorem Leaf.refines {l : Leaf} (hw : l.Words) {node_size : Nat} (hsize : node_size < 2 ^ 32) {n : Btrfs.Node}
    (h : l.toLeaf.emit node_size = .ok n) :
    ∃ raw, l.emit sha256 node_size = .ok raw ∧ ∀ bytenr metadata_uuid,
      ((Node.parse sha256 raw bytenr l.csum_type metadata_uuid).bind (Leaf.from_node · l.csum_type)).map
        (fun l => .leaf l.toLeaf) = Btrfs.Node.parse n bytenr metadata_uuid := by
  unfold Btrfs.Leaf.emit at h
  split at h
  · cases h
  · obtain ⟨raw, node, hemit, hnode, hparse⟩ := Leaf.reads_back sha256 hw hsize (by omega)
    cases h
    refine ⟨raw, hemit, fun bytenr uuid => ?_⟩
    rw [hparse]
    unfold Btrfs.Node.parse
    split
    · rfl
    · split
      · rfl
      · simp [Except.map, Except.bind, hnode]

theorem InteriorNode.refines {n : InteriorNode} (hw : n.Words) {node_size : Nat} (hsize : node_size < 2 ^ 32)
    {m : Btrfs.Node} (h : n.toInteriorNode.emit node_size = .ok m) :
    ∃ raw, n.emit sha256 node_size = .ok raw ∧ ∀ bytenr metadata_uuid,
      ((Node.parse sha256 raw bytenr n.csum_type metadata_uuid).bind (InteriorNode.from_node · n.csum_type)).map
        (fun n => .interior n.toInteriorNode) = Btrfs.Node.parse m bytenr metadata_uuid := by
  unfold Btrfs.InteriorNode.emit at h
  split at h
  · cases h
  · obtain ⟨raw, node, hemit, hnode, hparse⟩ := InteriorNode.reads_back sha256 hw hsize (by omega)
    cases h
    refine ⟨raw, hemit, fun bytenr uuid => ?_⟩
    rw [hparse]
    unfold Btrfs.Node.parse
    split
    · rfl
    · split
      · rfl
      · simp [Except.map, Except.bind, hnode]

/-- A node that fits is written out and read back as it was. One that does not fit is refused. -/
theorem nodes_read_back (node_size : Nat) (hsize : node_size < 2 ^ 32) :
    (∀ l : Leaf, l.Words →
      (HEADER_SIZE + l.items.length * ITEM_SIZE + l.total_data_bytes ≤ node_size →
        ∃ raw node, l.emit sha256 node_size = .ok raw ∧
          Node.parse sha256 raw l.bytenr l.csum_type l.metadata_uuid = .ok node ∧
          Leaf.from_node node l.csum_type = .ok l) ∧
      ((∃ e, l.emit sha256 node_size = .error e) ↔
        node_size < HEADER_SIZE + l.items.length * ITEM_SIZE + l.total_data_bytes)) ∧
    (∀ n : InteriorNode, n.Words →
      (HEADER_SIZE + n.entries.length * KEY_PTR_SIZE ≤ node_size →
        ∃ raw node, n.emit sha256 node_size = .ok raw ∧
          Node.parse sha256 raw n.bytenr n.csum_type n.metadata_uuid = .ok node ∧
          InteriorNode.from_node node n.csum_type = .ok n) ∧
      ((∃ e, n.emit sha256 node_size = .error e) ↔
        node_size < HEADER_SIZE + n.entries.length * KEY_PTR_SIZE)) := by
  refine ⟨fun l hw => ⟨fun hfit => ?_, ?_⟩, fun n hw => ⟨fun hfit => ?_, ?_⟩⟩
  · obtain ⟨raw, node, hemit, hnode, hparse⟩ := Leaf.reads_back sha256 hw hsize hfit
    exact ⟨raw, node, hemit, by rw [hparse]; simp [Btrfs.Node.parse, Btrfs.Node.bytenr, Btrfs.Node.metadata_uuid,
      Except.map], hnode⟩
  · unfold Leaf.emit
    simp only
    split <;> simp <;> omega
  · obtain ⟨raw, node, hemit, hnode, hparse⟩ := InteriorNode.reads_back sha256 hw hsize hfit
    exact ⟨raw, node, hemit, by rw [hparse]; simp [Btrfs.Node.parse, Btrfs.Node.bytenr, Btrfs.Node.metadata_uuid,
      Except.map], hnode⟩
  · unfold InteriorNode.emit
    simp only
    split <;> simp <;> omega

def someHeader : Btrfs.Leaf :=
  ⟨65536, 7, FS_TREE_OBJECTID, HEADER_FLAG_WRITTEN, List.replicate 16 1, List.replicate 16 2, []⟩

/-- Two items, the second without a payload, in a block with no byte to spare. -/
def fullLeaf : Leaf where
  toLeaf := { someHeader with items := [⟨⟨256, INODE_ITEM_KEY, 0⟩, [1, 2, 3]⟩, ⟨⟨256, DIR_ITEM_KEY, 2 ^ 64 - 1⟩, []⟩] }
  csum_type := .Crc32c

def fullInterior : InteriorNode where
  bytenr := 65536
  generation := 7
  owner := FS_TREE_OBJECTID
  level := 1
  flags := HEADER_FLAG_WRITTEN
  metadata_uuid := List.replicate 16 1
  chunk_tree_uuid := List.replicate 16 2
  entries := [⟨⟨256, INODE_ITEM_KEY, 0⟩, 81920, 7⟩]
  csum_type := .Crc32c

theorem fullLeaf_words : fullLeaf.Words where
  header := ⟨rfl, rfl, by decide, by decide, by decide, by decide, by decide⟩
  keys := by
    intro item hitem
    simp only [fullLeaf, List.mem_cons, List.not_mem_nil, or_false] at hitem
    rcases hitem with rfl | rfl <;> exact ⟨by decide, by decide, by decide⟩

theorem fullInterior_words : fullInterior.Words where
  header := ⟨rfl, rfl, by decide, by decide, by decide, by decide, by decide⟩
  level := by decide
  keys := by
    intro entry hentry
    simp only [fullInterior, List.mem_cons, List.not_mem_nil, or_false] at hentry
    rw [hentry]
    exact ⟨by decide, by decide, by decide⟩
  blockptrs := by simp [fullInterior]
  generations := by simp [fullInterior]

theorem full_nodes_read_back :
    let sha256 : Digest := ⟨fun _ => List.replicate 32 0, fun _ => rfl⟩
    (∃ raw node, fullLeaf.emit sha256 154 = .ok raw ∧
      Node.parse sha256 raw fullLeaf.bytenr .Crc32c fullLeaf.metadata_uuid = .ok node ∧
      Leaf.from_node node .Crc32c = .ok fullLeaf) ∧
    (∃ e, fullLeaf.emit sha256 153 = .error e) ∧
    ∃ raw node, fullInterior.emit sha256 134 = .ok raw ∧
      Node.parse sha256 raw fullInterior.bytenr .Crc32c fullInterior.metadata_uuid = .ok node ∧
      InteriorNode.from_node node .Crc32c = .ok fullInterior := by
  intro sha256
  refine ⟨((nodes_read_back sha256 154 (by decide)).1 fullLeaf fullLeaf_words).1 (by decide),
    ((nodes_read_back sha256 153 (by decide)).1 fullLeaf fullLeaf_words).2.mpr (by decide),
    ((nodes_read_back sha256 134 (by decide)).2 fullInterior fullInterior_words).1 (by decide)⟩

end LuksAndroid.Btrfs.Raw
