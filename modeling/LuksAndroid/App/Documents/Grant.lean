import LuksAndroid.Btrfs.Dir.Code
import LuksAndroid.Ext4.Path
import LuksAndroid.Lib.Run

/-!
# Tree grants

`isChildDocument` of `documents/LuksDocumentsProvider.kt` compares strings, and the framework lets a client
with a tree grant have every document for which it returns true. The filesystems walk the
same strings: btrfs as in `core/src/fs/btrfs/dir.rs`, ext4 as in `core/src/fs/ext4/mod.rs`, here with
what the inodes, listings and links of the volume read as given. An id is the bytes of its
text.
-/

namespace LuksAndroid.App

open Ext4 (SLASH join rsplit_once MAX_SYMLINK_DEPTH ROOT_INODE)

def isChildDocument (parentDocumentId documentId : Bytes) : Bool :=
  if parentDocumentId = documentId then false
  else if parentDocumentId = [SLASH] then documentId.head? = some SLASH ∧ documentId.length > 1
  else parentDocumentId ++ [SLASH] <+: documentId ∧ documentId.length > parentDocumentId.length + 1

/-- What the id has after the id of the parent and a slash. -/
def below (parentDocumentId documentId : Bytes) : Bytes :=
  documentId.drop (if parentDocumentId = [SLASH] then 1 else parentDocumentId.length + 1)

def DOTDOT : Bytes := [0x2E, 0x2E]

/-! ## The names on the way -/

theorem components_append (parent rest : Bytes) :
    Ext4.components (parent ++ SLASH :: rest) = Ext4.components parent ++ Ext4.components rest := by
  unfold Ext4.components
  rw [List.splitOn_append_cons_of_beq _ _ (by decide), List.filter_append]

theorem components_of_child {parent doc : Bytes} (h : isChildDocument parent doc = true) :
    Ext4.components doc = Ext4.components parent ++ Ext4.components (below parent doc) := by
  unfold isChildDocument at h
  unfold below
  split at h
  · cases h
  split at h
  · rename_i hroot
    subst hroot
    simp only [gt_iff_lt, Bool.decide_and, Bool.and_eq_true, decide_eq_true_eq] at h
    obtain ⟨rest, rfl⟩ : ∃ rest, doc = SLASH :: rest := by
      cases doc with
      | nil => simp at h
      | cons b rest => exact ⟨rest, by simpa using h.1⟩
    have hslash : Ext4.components [SLASH] = [] := by decide
    have hempty : Ext4.components [] = [] := by decide
    rw [hslash, if_pos rfl]
    simpa [hempty] using components_append [] rest
  · rename_i hroot
    simp only [gt_iff_lt, Bool.decide_and, Bool.and_eq_true, decide_eq_true_eq] at h
    obtain ⟨⟨rest, rfl⟩, -⟩ := h
    rw [if_neg hroot, List.append_assoc]
    have hdrop : (parent ++ ([SLASH] ++ rest)).drop (parent.length + 1) = rest := by
      rw [← List.append_assoc]
      exact List.drop_left' (by simp)
    rw [hdrop]
    exact components_append parent rest

/-! ## btrfs -/

namespace Grant

open Btrfs (Mount Located TreeRoot resolve_components)
open Run (except_bind_ok guard_bind_ok)

variable {fs : Mount}

/-- What a directory entry leads to. -/
def Leads (fs : Mount) (tree : TreeRoot) (entry : Btrfs.DirEntryItem) (next : TreeRoot) (objectid : Nat) : Prop :=
  if entry.is_subvolume then fs.tree_root entry.location.objectid = .ok next ∧ objectid = next.root_dirid
  else entry.location.item_type = Btrfs.INODE_ITEM_KEY ∧ next = tree ∧ objectid = entry.location.objectid

/-- `d` has a name in the directory `p`. -/
def Child (fs : Mount) (p d : Located) : Prop :=
  p.inode.file_type.is_dir = true ∧ ∃ name entry objectid,
    fs.lookup p.tree.bytenr p.inode.objectid name = .ok (some entry) ∧ Leads fs p.tree entry d.tree objectid ∧
      fs.read_inode d.tree.bytenr objectid = .ok d.inode

theorem read_inode_objectid {tree objectid : Nat} {inode : Btrfs.Inode} (h : fs.read_inode tree objectid = .ok inode) :
    inode.objectid = objectid := by
  unfold Mount.read_inode at h
  obtain ⟨item, -, h⟩ := except_bind_ok.mp h
  cases item with
  | none => cases h
  | some data =>
    simp only [Btrfs.Inode.parse] at h
    split at h
    · cases h
    · cases h
      rfl

theorem resolve_cons {path component : Bytes} {rest : List Bytes} {tree : TreeRoot} {current : Nat} {d : Located}
    (h : resolve_components fs path (component :: rest) tree current = .ok d) :
    ∃ p entry next objectid, fs.read_inode tree.bytenr current = .ok p ∧ p.file_type.is_dir = true ∧
      fs.lookup tree.bytenr current component = .ok (some entry) ∧ Leads fs tree entry next objectid ∧
      resolve_components fs path rest next objectid = .ok d := by
  rw [resolve_components] at h
  obtain ⟨-, h⟩ := guard_bind_ok.mp h
  obtain ⟨p, hp, h⟩ := except_bind_ok.mp h
  obtain ⟨hdir, h⟩ := guard_bind_ok.mp h
  obtain ⟨found, hfound, h⟩ := except_bind_ok.mp h
  cases found with
  | none => cases h
  | some entry =>
    simp only at h
    unfold Leads
    split at h
    · rename_i hsubvolume
      obtain ⟨next, hnext, h⟩ := except_bind_ok.mp h
      exact ⟨p, entry, next, next.root_dirid, hp, by simpa using hdir, hfound, by simp [hsubvolume, hnext], h⟩
    · rename_i hsubvolume
      split at h
      · cases h
      · rename_i hinode
        exact ⟨p, entry, tree, entry.location.objectid, hp, by simpa using hdir, hfound,
          by simpa [hsubvolume] using hinode, h⟩

theorem resolve_append {path : Bytes} {names rest : List Bytes} {tree : TreeRoot} {current : Nat} {p d : Located}
    {path' : Bytes} (hp : resolve_components fs path' names tree current = .ok p)
    (hd : resolve_components fs path (names ++ rest) tree current = .ok d) :
    ∃ objectid, fs.read_inode p.tree.bytenr objectid = .ok p.inode ∧
      resolve_components fs path rest p.tree objectid = .ok d := by
  induction names generalizing tree current with
  | nil =>
    rw [resolve_components] at hp
    obtain ⟨inode, hinode, hp⟩ := except_bind_ok.mp hp
    cases hp
    exact ⟨current, hinode, hd⟩
  | cons component names ih =>
    obtain ⟨_, entry, next, objectid, -, -, hfound, hleads, hp⟩ := resolve_cons hp
    obtain ⟨_, entry', next', objectid', -, -, hfound', hleads', hd⟩ := resolve_cons hd
    cases hfound.symm.trans hfound'
    -- the same entry leads to the same place
    have hsame : next' = next ∧ objectid' = objectid := by
      unfold Leads at hleads hleads'
      split at hleads
      · rename_i hsubvolume
        rw [if_pos hsubvolume] at hleads'
        cases hleads.1.symm.trans hleads'.1
        exact ⟨rfl, hleads'.2.trans hleads.2.symm⟩
      · rename_i hsubvolume
        rw [if_neg hsubvolume] at hleads'
        exact ⟨hleads'.2.1.trans hleads.2.1.symm, hleads'.2.2.trans hleads.2.2.symm⟩
    obtain ⟨rfl, rfl⟩ := hsame
    exact ih hp hd

theorem descends {path : Bytes} {names : List Bytes} (hnames : names ≠ []) {p d : Located} {objectid : Nat}
    (hp : fs.read_inode p.tree.bytenr objectid = .ok p.inode)
    (hd : resolve_components fs path names p.tree objectid = .ok d) : Relation.TransGen (Child fs) p d := by
  induction names generalizing p objectid with
  | nil => exact absurd rfl hnames
  | cons component names ih =>
    obtain ⟨inode, entry, next, child, hinode, hdir, hfound, hleads, hd⟩ := resolve_cons hd
    cases hp.symm.trans hinode
    rw [← read_inode_objectid hp] at hfound
    have hchild {q : Located} (htree : q.tree = next) (hq : fs.read_inode next.bytenr child = .ok q.inode) :
        Child fs p q := by
      subst htree
      exact ⟨hdir, component, entry, child, hfound, hleads, hq⟩
    cases names with
    | nil =>
      rw [resolve_components] at hd
      obtain ⟨inode', hinode', hd⟩ := except_bind_ok.mp hd
      cases hd
      exact .single (hchild rfl hinode')
    | cons component' names =>
      obtain ⟨inode', _, _, _, hinode', -⟩ := resolve_cons hd
      exact .head (hchild (q := ⟨next, inode'⟩) rfl hinode') (ih (by simp) (p := ⟨next, inode'⟩) hinode' hd)

end Grant

/-! ## ext4 -/

/-- What reads as the inodes, directories and links of an ext4 volume. -/
structure Graph where
  file_type : Nat → Option FileType
  list_inode : Nat → Option (List Ext4.DirEntry)
  link_target : Nat → Option Bytes

namespace Graph

variable (g : Graph)

/-- The loop over links in the middle of a path. `again` resolves another path. -/
def follow (again : Bytes → Option Nat) : Nat → Nat → List Bytes → Option (Nat × List Bytes)
  | n, current, walked => do
    let file_type ← g.file_type current
    if file_type ≠ .Symlink then return (current, walked)
    else
      match n with
      | 0 => none
      | n + 1 =>
        let target ← g.link_target current
        let next := if target.head? = some SLASH then target
          else SLASH :: join walked.dropLast ++ SLASH :: target
        let current ← again next
        follow again n current (Ext4.components next)

/-- The entry with this name, and its inode if that reads. -/
def lookup (current : Nat) (component : Bytes) : Option Nat := do
  let file_type ← g.file_type current
  if ¬ file_type.is_dir then none
  else
    let entries ← g.list_inode current
    let found ← entries.find? (·.name = component)
    let _ ← g.file_type found.inode
    return found.inode

def walk (again : Bytes → Option Nat) : List Bytes → Nat → List Bytes → Option Nat
  | [], current, _ => some current
  | component :: rest, current, walked =>
    if component = DOTDOT then do
      let current ← again (SLASH :: join walked.dropLast)
      walk again rest current walked.dropLast
    else do
      let current ← g.lookup current component
      if rest = [] then return current
      else
        let (current, walked) ← g.follow again MAX_SYMLINK_DEPTH current (walked ++ [component])
        walk again rest current walked

/-- Nothing bounds how often a path leads to another, so this takes a depth. -/
def resolve_no_follow : Nat → Bytes → Option Nat
  | 0, _ => none
  | depth + 1, path => do
    let _ ← g.file_type ROOT_INODE
    g.walk (resolve_no_follow depth) (Ext4.components path) ROOT_INODE []

def resolve (depth : Nat) (path : Bytes) : Option Nat := do
  let inode ← g.resolve_no_follow depth path
  let file_type ← g.file_type inode
  if file_type ≠ .Symlink then return inode
  else
    let target ← g.link_target inode
    g.resolve_no_follow depth (if target.head? = some SLASH then target
      else ((rsplit_once path).map (·.1)).getD [] ++ SLASH :: target)

def Child (d o : Nat) : Prop := ∃ name, g.lookup d name = some o

/-- No name from here on is that of a link. -/
def Unlinked : Nat → List Bytes → Prop
  | _, [] => True
  | current, component :: rest => ∀ child, g.lookup current component = some child →
    g.file_type child ≠ some .Symlink ∧ Unlinked child rest

variable {g}

/-! More depth changes nothing once there is enough. -/

theorem follow_mono {again again' : Bytes → Option Nat} (h : ∀ path o, again path = some o → again' path = some o)
    {n current : Nat} {walked : List Bytes} {r : Nat × List Bytes} (hr : g.follow again n current walked = some r) :
    g.follow again' n current walked = some r := by
  induction n generalizing current walked with
  | zero =>
    unfold follow at hr ⊢
    exact hr
  | succ n ih =>
    unfold follow at hr ⊢
    obtain ⟨file_type, htype, hr⟩ := Option.bind_eq_some_iff.mp hr
    refine Option.bind_eq_some_iff.mpr ⟨file_type, htype, ?_⟩
    split at hr
    · rename_i hlink
      rw [if_pos hlink]
      exact hr
    · rename_i hlink
      rw [if_neg hlink]
      obtain ⟨target, htarget, hr⟩ := Option.bind_eq_some_iff.mp hr
      refine Option.bind_eq_some_iff.mpr ⟨target, htarget, ?_⟩
      obtain ⟨next, hnext, hr⟩ := Option.bind_eq_some_iff.mp hr
      exact Option.bind_eq_some_iff.mpr ⟨next, h _ _ hnext, ih hr⟩

theorem walk_mono {again again' : Bytes → Option Nat} (h : ∀ path o, again path = some o → again' path = some o)
    {names : List Bytes} {current : Nat} {walked : List Bytes} {o : Nat}
    (ho : g.walk again names current walked = some o) : g.walk again' names current walked = some o := by
  induction names generalizing current walked with
  | nil => exact ho
  | cons component rest ih =>
    unfold walk at ho ⊢
    split at ho
    · rename_i hup
      rw [if_pos hup]
      obtain ⟨next, hnext, ho⟩ := Option.bind_eq_some_iff.mp ho
      exact Option.bind_eq_some_iff.mpr ⟨next, h _ _ hnext, ih ho⟩
    · rename_i hup
      rw [if_neg hup]
      obtain ⟨child, hchild, ho⟩ := Option.bind_eq_some_iff.mp ho
      refine Option.bind_eq_some_iff.mpr ⟨child, hchild, ?_⟩
      split at ho
      · rename_i hlast
        rw [if_pos hlast]
        exact ho
      · rename_i hlast
        rw [if_neg hlast]
        obtain ⟨r, hr, ho⟩ := Option.bind_eq_some_iff.mp ho
        exact Option.bind_eq_some_iff.mpr ⟨r, follow_mono h hr, ih ho⟩

theorem resolve_no_follow_mono {depth : Nat} {path : Bytes} {o : Nat} (h : g.resolve_no_follow depth path = some o) :
    ∀ more, g.resolve_no_follow (depth + more) path = some o := by
  induction depth generalizing path o with
  | zero => cases h
  | succ depth ih =>
    intro more
    rw [Nat.succ_add]
    unfold resolve_no_follow at h ⊢
    obtain ⟨root, hroot, h⟩ := Option.bind_eq_some_iff.mp h
    exact Option.bind_eq_some_iff.mpr ⟨root, hroot, walk_mono (fun path o ho => ih ho more) h⟩

/-! ### Down from the parent -/

theorem follow_of_unlinked {again : Bytes → Option Nat} {n current : Nat} {walked : List Bytes} {r : Nat × List Bytes}
    (hlink : g.file_type current ≠ some .Symlink) (hr : g.follow again n current walked = some r) :
    r = (current, walked) := by
  unfold follow at hr
  obtain ⟨file_type, htype, hr⟩ := Option.bind_eq_some_iff.mp hr
  rw [htype, ne_eq, Option.some.injEq] at hlink
  rw [if_pos hlink] at hr
  cases hr
  rfl

theorem walk_append {again : Bytes → Option Nat} {names rest : List Bytes} (hrest : rest ≠ []) {current : Nat}
    {walked : List Bytes} {p o : Nat} (hp : g.walk again names current walked = some p)
    (hlink : g.file_type p ≠ some .Symlink) (ho : g.walk again (names ++ rest) current walked = some o) :
    ∃ walked', g.walk again rest p walked' = some o := by
  induction names generalizing current walked with
  | nil =>
    cases hp
    exact ⟨walked, ho⟩
  | cons component names ih =>
    rw [List.cons_append] at ho
    unfold walk at hp ho
    split at hp
    · rename_i hup
      rw [if_pos hup] at ho
      obtain ⟨next, hnext, hp⟩ := Option.bind_eq_some_iff.mp hp
      obtain ⟨next', hnext', ho⟩ := Option.bind_eq_some_iff.mp ho
      cases hnext.symm.trans hnext'
      exact ih hp ho
    · rename_i hup
      rw [if_neg hup] at ho
      obtain ⟨child, hchild, hp⟩ := Option.bind_eq_some_iff.mp hp
      obtain ⟨child', hchild', ho⟩ := Option.bind_eq_some_iff.mp ho
      cases hchild.symm.trans hchild'
      rw [if_neg (by simp [hrest])] at ho
      obtain ⟨⟨next, walked'⟩, hfollow, ho⟩ := Option.bind_eq_some_iff.mp ho
      split at hp
      · rename_i hlast
        cases hp
        cases follow_of_unlinked hlink hfollow
        rw [hlast] at ho
        exact ⟨_, ho⟩
      · obtain ⟨r, hfollow', hp⟩ := Option.bind_eq_some_iff.mp hp
        cases hfollow.symm.trans hfollow'
        exact ih hp ho

theorem descends {again : Bytes → Option Nat} {names : List Bytes} (hnames : names ≠ []) (hup : DOTDOT ∉ names)
    {p o : Nat} {walked : List Bytes} (hlinks : g.Unlinked p names) (ho : g.walk again names p walked = some o) :
    Relation.TransGen g.Child p o ∧ g.file_type o ≠ some .Symlink := by
  induction names generalizing p walked with
  | nil => exact absurd rfl hnames
  | cons component names ih =>
    simp only [List.mem_cons, not_or] at hup
    unfold walk at ho
    rw [if_neg (Ne.symm hup.1)] at ho
    obtain ⟨child, hchild, ho⟩ := Option.bind_eq_some_iff.mp ho
    obtain ⟨hlink, hlinks⟩ := hlinks child hchild
    split at ho
    · cases ho
      exact ⟨.single ⟨component, hchild⟩, hlink⟩
    · rename_i hmore
      obtain ⟨r, hfollow, ho⟩ := Option.bind_eq_some_iff.mp ho
      cases follow_of_unlinked hlink hfollow
      obtain ⟨hbelow, hend⟩ := ih hmore hup.2 hlinks ho
      exact ⟨.head ⟨component, hchild⟩ hbelow, hend⟩

theorem child_descends {parent doc : Bytes} (hchild : isChildDocument parent doc = true)
    (hnames : Ext4.components (below parent doc) ≠ []) (hup : DOTDOT ∉ Ext4.components (below parent doc))
    {depth depth' p o : Nat} (hp : g.resolve_no_follow depth parent = some p) (hdir : g.file_type p ≠ some .Symlink)
    (hlinks : g.Unlinked p (Ext4.components (below parent doc))) (ho : g.resolve_no_follow depth' doc = some o) :
    Relation.TransGen g.Child p o ∧ g.file_type o ≠ some .Symlink := by
  have hp := resolve_no_follow_mono hp (depth' + 1)
  have ho := resolve_no_follow_mono ho (depth + 1)
  rw [show depth' + (depth + 1) = depth + (depth' + 1) by omega] at ho
  rw [← Nat.add_assoc] at hp ho
  unfold resolve_no_follow at hp ho
  obtain ⟨_, -, hp⟩ := Option.bind_eq_some_iff.mp hp
  obtain ⟨_, -, ho⟩ := Option.bind_eq_some_iff.mp ho
  rw [components_of_child hchild] at ho
  obtain ⟨walked, ho⟩ := walk_append hnames hp hdir ho
  exact descends hnames hup hlinks ho

theorem resolve_eq {depth : Nat} {path : Bytes} {i o : Nat} (hi : g.resolve_no_follow depth path = some i)
    (hlink : g.file_type i ≠ some .Symlink) (ho : g.resolve depth path = some o) : o = i := by
  unfold resolve at ho
  obtain ⟨inode, hinode, ho⟩ := Option.bind_eq_some_iff.mp ho
  cases hi.symm.trans hinode
  obtain ⟨file_type, htype, ho⟩ := Option.bind_eq_some_iff.mp ho
  rw [htype, ne_eq, Option.some.injEq] at hlink
  rw [if_pos hlink] at ho
  cases ho
  rfl

end Graph

/-- A document that passes for a child leads down from its parent, if it has a name of its own below it, and on ext4
if none of these names goes up or is a link. -/
theorem child_confined (parent doc : Bytes) (hchild : isChildDocument parent doc = true)
    (hnames : Ext4.components (below parent doc) ≠ []) :
    (∀ fs start p d, Btrfs.resolve_no_follow fs start parent = .ok p → Btrfs.resolve_no_follow fs start doc = .ok d →
      Relation.TransGen (Grant.Child fs) p d) ∧
    ∀ (g : Graph) depth depth' p o, DOTDOT ∉ Ext4.components (below parent doc) →
      g.resolve_no_follow depth parent = some p → g.file_type p ≠ some .Symlink →
      g.Unlinked p (Ext4.components (below parent doc)) →
      g.resolve depth' doc = some o ∨ g.resolve_no_follow depth' doc = some o → Relation.TransGen g.Child p o := by
  constructor
  · intro fs start p d hp hd
    unfold Btrfs.resolve_no_follow at hp hd
    have hcomponents : Btrfs.components doc = Btrfs.components parent ++ Ext4.components (below parent doc) :=
      components_of_child hchild
    rw [hcomponents] at hd
    obtain ⟨objectid, hinode, hd⟩ := Grant.resolve_append hp hd
    exact Grant.descends hnames hinode hd
  · intro g depth depth' p o hup hp hdir hlinks ho
    rcases ho with ho | ho
    · obtain ⟨i, hi, -⟩ := Option.bind_eq_some_iff.mp ho
      obtain ⟨hdescends, hlink⟩ := Graph.child_descends hchild hnames hup hp hdir hlinks hi
      rw [Graph.resolve_eq hi hlink ho]
      exact hdescends
    · exact (Graph.child_descends hchild hnames hup hp hdir hlinks ho).1

-- "/a" with "x" in it, and "/b", all empty directories but for that.
def twoDirs : Graph where
  file_type i := if 2 ≤ i ∧ i ≤ 5 then some .Directory else none
  list_inode i := match i with
    | 2 => some [⟨[0x61], 3⟩, ⟨[0x62], 4⟩]
    | 3 => some [⟨[0x78], 5⟩]
    | _ => some []
  link_target _ := none

/-- The inode of a directory. -/
def directoryItem (objectid : Nat) : Btrfs.LeafItem :=
  ⟨⟨objectid, Btrfs.INODE_ITEM_KEY, 0⟩, Btrfs.build_empty_inode_item 7 0x41ED 0 0 1 0 0⟩

/-- The entry of a directory in its parent. -/
def entryItem (parent child : Nat) (name : Bytes) : Btrfs.LeafItem :=
  ⟨⟨parent, Btrfs.DIR_ITEM_KEY, Btrfs.name_hash name⟩, Btrfs.build_dir_item child 7 2 name⟩

-- The same "/a" with "x" in it, in one leaf.
def oneLeaf : Btrfs.Mount where
  device _ := .ok (.leaf ⟨0x4000, 7, Btrfs.FS_TREE_OBJECTID, 1, [], [],
    [directoryItem 256, entryItem 256 257 [0x61], directoryItem 257, entryItem 257 258 [0x78], directoryItem 258]⟩)
  sb := {
    fsid := []
    bytenr := 0x10000
    generation := 7
    root := 0x8000
    chunk_root := 0x20000
    chunk_root_generation := 1
    log_root := 0
    total_bytes := 0x8000000
    bytes_used := 0x40000
    root_dir_objectid := 6
    num_devices := 1
    dev_id := 1
    sector_size := 4096
    node_size := 4096
    stripe_size := 4096
    incompat_flags := Btrfs.INCOMPAT_SKINNY_METADATA
    compat_ro_flags := 0
    csum_type := .Crc32c
    root_level := 0
    chunk_root_level := 0
    label := ""
    metadata_uuid := []
    sys_chunk_array := [] }
  chunks := ⟨[]⟩
  fs_tree_root := ⟨Btrfs.FS_TREE_OBJECTID, 0x4000, 0, 256, 7, 0⟩
  active_batch := none
  has_open_writer := false

-- "/a" and "/a/x", on both
theorem plain_child_confined :
    isChildDocument [0x2F, 0x61] [0x2F, 0x61, 0x2F, 0x78] = true ∧
      (∃ p d, Btrfs.resolve_no_follow oneLeaf oneLeaf.fs_tree_root [0x2F, 0x61] = .ok p ∧
        Btrfs.resolve_no_follow oneLeaf oneLeaf.fs_tree_root [0x2F, 0x61, 0x2F, 0x78] = .ok d ∧
        Relation.TransGen (Grant.Child oneLeaf) p d) ∧
      twoDirs.resolve 2 [0x2F, 0x61, 0x2F, 0x78] = some 5 ∧ Relation.TransGen twoDirs.Child 3 5 := by
  have hbelow : Ext4.components (below [0x2F, 0x61] [0x2F, 0x61, 0x2F, 0x78]) = [[0x78]] := by decide
  obtain ⟨hbtrfs, hext4⟩ := child_confined [0x2F, 0x61] [0x2F, 0x61, 0x2F, 0x78] (by decide) (by decide)
  refine ⟨by decide, ?_, ?_⟩
  · have hexists {x : Except LuksError Btrfs.Located} (h : x.isOk = true) : ∃ d, x = .ok d := by
      cases x with
      | error e => cases h
      | ok d => exact ⟨d, rfl⟩
    obtain ⟨p, hp⟩ : ∃ p, Btrfs.resolve_no_follow oneLeaf oneLeaf.fs_tree_root [0x2F, 0x61] = .ok p :=
      hexists (by decide +kernel)
    obtain ⟨d, hd⟩ : ∃ d, Btrfs.resolve_no_follow oneLeaf oneLeaf.fs_tree_root [0x2F, 0x61, 0x2F, 0x78] = .ok d :=
      hexists (by decide +kernel)
    exact ⟨p, d, hp, hd, hbtrfs oneLeaf oneLeaf.fs_tree_root p d hp hd⟩
  · have hresolve : twoDirs.resolve 2 [0x2F, 0x61, 0x2F, 0x78] = some 5 := by decide
    refine ⟨hresolve, hext4 twoDirs 2 2 3 5 (by decide) (by decide) (by decide) ?_ (.inl hresolve)⟩
    rw [hbelow]
    intro child hchild
    have hfive : twoDirs.lookup 3 [0x78] = some 5 := by decide
    cases hfive.symm.trans hchild
    exact ⟨by decide, trivial⟩

/-- "/a/../b" passes for a child of "/a", and is "/b". -/
theorem dotdot_not_confined :
    ¬ ∀ (g : Graph) depth parent doc p o, isChildDocument parent doc = true → g.resolve depth parent = some p →
      g.resolve depth doc = some o → Relation.TransGen g.Child p o := by
  intro h
  have hescape := h twoDirs 2 [0x2F, 0x61] [0x2F, 0x61, 0x2F, 0x2E, 0x2E, 0x2F, 0x62] 3 4 (by decide) (by decide)
    (by decide)
  obtain ⟨child, ⟨name, hchild⟩, hmore⟩ := Relation.TransGen.head'_iff.mp hescape
  -- there is nothing below "/a" but "x", and nothing below that
  have hx : child = 5 := by
    simp [Graph.lookup, twoDirs, FileType.is_dir, List.find?_cons] at hchild
    split at hchild
    · simpa using hchild.symm
    · cases hchild
  subst hx
  rcases hmore.cases_head with heq | ⟨next, ⟨name', hnext⟩, -⟩
  · cases heq
  · simp [Graph.lookup, twoDirs, FileType.is_dir] at hnext

end LuksAndroid.App
