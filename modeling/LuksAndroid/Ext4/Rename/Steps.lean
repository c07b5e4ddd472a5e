import LuksAndroid.Ext4.Rename.Release

/-!
# The steps of a rename

A rename that is not refused finds the two names, takes the new one from the file that has it and
gives that file back, and then moves the name. What the device has been through, and what the
names stand for, is known after each of these steps.
-/

namespace LuksAndroid.Ext4

open Word

variable {cap : Nat} {known : Bool} {fuel : Nat} {fs s t : Mount Disk} {dir_ino : Nat} {dir : Inode}
  {blocks : List Nat} {old_name new_name : Bytes}

/-! ## The record only grows -/

/-- Everything is allowed. -/
def free (cap : Nat) : Rules where
  cap := cap
  asks _ := True
  halts _ := True
  inv _ := True
  read _ _ := trivial
  flush := trivial
  orderly _ := trivial
  quiet _ _ _ _ := trivial

namespace Tame

theorem grows {α : Type} {x : FsM Disk α} {Q : α → Mount Disk → Prop} (h : Tame (free cap) x fs Q) :
    Through cap (fun _ => True) fs (after (x fs)) :=
  h.through (fun _ _ _ _ => trivial) trivial

theorem edit_in_blocks {α : Type} (edit : Superblock → Bytes → Option (α × Bytes)) (e : LuksError)
    (lblocks : List Nat) : ∀ fs : Mount Disk,
    Tame (free cap) (edit_in_blocks (memory cap known) fuel dir edit e lblocks) fs fun _ _ => True := by
  induction lblocks with
  | nil => exact fun fs => .fail trivial _
  | cons lblock rest ih =>
    intro fs
    refine ((Quiet.map_block (R := free cap) trivial fuel dir lblock).tame trivial).bind fun phys s _ _ => ?_
    cases phys with
    | none => exact ih s
    | some b =>
      refine .get_bind (.check_bind trivial fun offset _ => ?_)
      refine (Tame.read (R := free cap) known trivial _ _).bind fun block s' _ _ => ?_
      rcases edit s.sb block with - | ⟨a, changed⟩
      · exact ih s'
      · exact (Tame.write (R := free cap) known trivial trivial fun _ => trivial).bind fun _ _ _ _ =>
          .pure trivial trivial

theorem unlink_file (name : Bytes) (fs : Mount Disk) :
    Tame (free cap) (unlink_file (memory cap known) fuel dir_ino name) fs fun _ _ => True := by
  refine .get_bind (.check_bind trivial fun seed _ => .check_bind trivial fun _ _ => ?_)
  refine ((Quiet.open_dir (R := free cap) dir_ino _).tame trivial).bind fun dir s _ _ => .get_bind ?_
  rw [unlink_in_blocks_eq]
  exact edit_in_blocks _ _ _ s

theorem link_file (name : Bytes) (ino : Nat) (file_type : FileType) (fs : Mount Disk) :
    Tame (free cap) (link_file (memory cap known) fuel dir_ino name ino file_type) fs fun _ _ => True := by
  refine .get_bind (.check_bind trivial fun seed _ => .check_bind trivial fun _ _ => ?_)
  refine ((Quiet.open_dir (R := free cap) dir_ino _).tame trivial).bind fun dir s _ _ => ?_
  refine ((Quiet.find_entry (R := free cap) trivial fuel dir name).tame trivial).bind fun found s' _ _ => ?_
  refine .guard (fun _ => .fail trivial _) fun _ => .get_bind ?_
  rw [link_in_blocks_eq]
  exact edit_in_blocks _ _ _ s'

end Tame

/-! ## The last part -/

/-- The calls of a rename, from where nothing has the new name. -/
def move_name {σ : Type} (d : WriteAt σ) (fuel dir_ino : Nat) (old_name new_name : Bytes) (old_ino : Nat) :
    FsM σ Unit := do
  let removed_ino ← unlink_file d fuel dir_ino old_name
  if removed_ino ≠ old_ino then fail (.CorruptFs "unlinked old inode number mismatch")
  or_undo (link_file d fuel dir_ino new_name old_ino .Regular) do
    ignore (link_file d fuel dir_ino old_name old_ino .Regular)
    ignore (flush d)
  flush d

theorem Tame.move_name (old_ino : Nat) (fs : Mount Disk) : Tame (free cap)
    (move_name (memory cap known) fuel dir_ino old_name new_name old_ino) fs fun _ _ => True := by
  refine (Tame.unlink_file old_name fs).bind fun ino s _ _ => .guard (fun _ => .fail trivial _) fun _ => ?_
  refine (Tame.or_undo (Tame.link_file new_name old_ino .Regular s) fun s _ => ?_).bind fun _ s _ _ => ?_
  · exact (Tame.link_file old_name old_ino .Regular s).ignore.bind fun _ s' _ _ =>
      (Tame.flush (R := free cap) known trivial).ignore
  · exact (Tame.flush (R := free cap) known trivial).weaken fun _ _ _ _ => trivial

/-- What the last part comes to: the file is moved, or there was no room and it has its old name again. -/
structure Moved (cap : Nat) (known : Bool) (fuel dir_ino : Nat) (dir : Inode) (blocks : List Nat)
    (old_name new_name : Bytes) (ino : Nat) (fs u : Mount Disk) : Prop where
  unlinked : Unlinked cap blocks old_name fs u
  neither : u.named blocks new_name = none
  rest : Through cap (fun _ => True) u
    (after (move_name (memory cap known) fuel dir_ino old_name new_name ino fs))
  ends : (∃ v w, move_name (memory cap known) fuel dir_ino old_name new_name ino fs = .ok () w ∧ v.Same w ∧
      Linked blocks new_name ino u v) ∨
    (∀ b ∈ blocks, inserted (u.block b) (usable fs.sb (Seed.of fs.sb)) new_name ino .Regular = none) ∧
      ∃ e w, move_name (memory cap known) fuel dir_ino old_name new_name ino fs = .error (.err e) w ∧
        (usable fs.sb (Seed.of fs.sb) < 65536 → ∃ v, v.Same w ∧ Linked blocks old_name ino u v)

namespace Directory

theorem for_writing_of (h : s.shape = fs.shape) {seed : Seed} (hseed : Seed.for_writing fs.sb = .ok seed) :
    Seed.for_writing s.sb = .ok seed :=
  (shape_sb Seed.for_writing (fun _ => rfl) h).trans hseed

theorem usable_of (h : s.shape = fs.shape) : usable s.sb (Seed.of s.sb) = usable fs.sb (Seed.of fs.sb) :=
  shape_sb (fun sb => usable sb (Seed.of sb)) (fun _ => rfl) h

theorem move_name (h : Directory cap known fuel fs dir_ino dir blocks) {seed : Seed}
    (hseed : Seed.for_writing fs.sb = .ok seed) (hold : validate_name old_name = .ok ())
    (hnew : validate_name new_name = .ok ()) {ino : Nat} (hino : fs.named blocks old_name = some ino)
    (hnone : fs.named blocks new_name = none) :
    ∃ u, Moved cap known fuel dir_ino dir blocks old_name new_name ino fs u := by
  have hbounds := h.named_bounds hino
  obtain ⟨u, hunlink, hu, hunlinked⟩ := h.unlink hseed hold hino
  have hshape := hunlinked.only_blocks.shape
  have hseed' := for_writing_of hshape hseed
  have husable := usable_of hshape
  have hgone : u.named blocks new_name = none := by
    rcases hunlinked.fades new_name with hgone | hsame
    · exact hgone
    · rw [hsame, hnone]
  have hrun : Ext4.move_name (memory cap known) fuel dir_ino old_name new_name ino fs = (do
      or_undo (link_file (memory cap known) fuel dir_ino new_name ino .Regular) do
        ignore (link_file (memory cap known) fuel dir_ino old_name ino .Regular)
        ignore (flush (memory cap known))
      flush (memory cap known)) u := by
    rw [Ext4.move_name, Run.bind_eq_of_ok hunlink, if_neg (by simp)]
  refine ⟨u, hunlinked, hgone, ?_, ?_⟩
  · rw [hrun]
    apply Tame.grows (Q := fun _ _ => True)
    refine (Tame.or_undo (Tame.link_file new_name ino .Regular u) fun s _ => ?_).bind fun _ s _ _ => ?_
    · exact (Tame.link_file old_name ino .Regular s).ignore.bind fun _ s' _ _ =>
        (Tame.flush (R := free cap) known trivial).ignore
    · exact (Tame.flush (R := free cap) known trivial).weaken fun _ _ _ _ => trivial
  rw [hrun]
  rcases hu.link hseed' hnew hbounds hgone .Regular with ⟨v, hlink, -, hlinked⟩ | ⟨hfull, e, v, hlink, hv⟩
  · refine .inl ⟨v, v.logged .flush, ?_, v.same_logged _, hlinked⟩
    rw [Run.bind_eq_of_ok (or_undo_of_ok hlink _)]
    rfl
  · rw [husable] at hfull
    refine .inr ⟨hfull, ?_⟩
    rcases (hu.same hv).link (for_writing_of hv.shape hseed') hold hbounds ((hv.named old_name).trans hunlinked.gone)
        .Regular with ⟨w, hlink', -, hlinked⟩ | ⟨hfull', e', w, hlink', hw⟩
    · refine ⟨e, w.logged .flush, ?_, fun _ => ⟨w, w.same_logged _, hlinked.of_same hv⟩⟩
      have hundo := (Run.bind_eq_of_ok (ignore_of_ok hlink') fun _ => ignore (flush (memory cap known))).trans
        (ignore_of_ok (flush_eq known w))
      exact Run.bind_eq_of_error (or_undo_of_err hlink hundo) _
    · refine ⟨e, w.logged .flush, ?_, fun hlt => ?_⟩
      · have hundo := (Run.bind_eq_of_ok (ignore_of_err hlink') fun _ => ignore (flush (memory cap known))).trans
          (ignore_of_ok (flush_eq known w))
        exact Run.bind_eq_of_error (or_undo_of_err hlink hundo) _
      · obtain ⟨b, hb, hroom⟩ := hunlinked.room hlt old_name rfl ino .Regular
        have hnone' := hfull' b hb
        rw [hv.block, usable_of hv.shape, husable] at hnone'
        exact absurd hnone' hroom

end Directory

/-! ## Renames that go through -/

theorem validate_name_slash {name : Bytes} (h : validate_name name = .ok ()) : name.contains SLASH = false := by
  unfold validate_name at h
  obtain ⟨-, hchars⟩ := Run.guard_bind_ok.mp h
  obtain ⟨hslash, -⟩ := Run.guard_bind_ok.mp hchars
  rw [not_or] at hslash
  exact Bool.eq_false_iff.mpr hslash.1

/-- What a rename that is not refused has found, and how it goes on from there. -/
structure Begun (cap : Nat) (known : Bool) (fuel dir_ino : Nat) (blocks : List Nat) (old_name new_name : Bytes)
    (seed : Seed) (ino : Nat) (fs s : Mount Disk) : Prop where
  seed : Seed.for_writing fs.sb = .ok seed
  valid : validate_name old_name = .ok () ∧ validate_name new_name = .ok ()
  named : fs.named blocks old_name = some ino
  same : fs.Same s
  through : Through cap (· = fs.io.state) fs s
  fresh : fs.named blocks new_name = none →
    rename_file (memory cap known) fuel dir_ino old_name new_name fs =
      move_name (memory cap known) fuel dir_ino old_name new_name ino s ∧
    ∃ e, make_way (memory cap known) fuel dir_ino old_name new_name fs = .error e s
  taken : ∀ dest, fs.named blocks new_name = some dest →
    rename_file (memory cap known) fuel dir_ino old_name new_name fs =
      (replace_file (memory cap known) fuel dir_ino new_name dest >>= fun _ =>
        move_name (memory cap known) fuel dir_ino old_name new_name ino) s ∧
    make_way (memory cap known) fuel dir_ino old_name new_name fs =
      take_name (memory cap known) fuel dir_ino new_name dest s

theorem rename_begins (h : Directory cap known fuel fs dir_ino dir blocks) (hne : old_name ≠ new_name)
    (hgo : ¬ Refused cap known fs blocks old_name new_name) :
    ∃ seed ino s, Begun cap known fuel dir_ino blocks old_name new_name seed ino fs s := by
  unfold Refused at hgo
  simp only [not_or, not_forall, not_not] at hgo
  obtain ⟨⟨seed, hseed⟩, hold_valid, hnew_valid, hmovable, -⟩ := hgo
  unfold NotMovable at hmovable
  simp only [not_forall, Bool.not_eq_false] at hmovable
  obtain ⟨ino, hino, inode, s₀, hread, hfile⟩ := hmovable
  obtain ⟨s₁, hinode, hs₁⟩ := h.read_inode
  obtain ⟨s₂, hfind, hs₂⟩ := (h.same hs₁).find_entry old_name
  have hs₂ := hs₁.trans hs₂
  obtain ⟨s₃, hread, hs₃⟩ := Blind.read_inode ino fs s₂ inode s₀ hs₂ hread
  have hs₃ := hs₂.trans hs₃
  obtain ⟨s₄, hfind', hs₄⟩ := (h.same hs₃).find_entry new_name
  have hs₄ := hs₃.trans hs₄
  rw [hs₁.named, hino] at hfind
  rw [hs₃.named] at hfind'
  have hisdir : inode.file_type.is_dir = false := by
    rw [of_decide_eq_true hfile]
    rfl
  have hfirst := Through.of_quiet (Quiet.read_inode dir_ino) hinode (@Through.refl cap fs _ rfl)
  have hsecond := hfirst.of_quiet (Quiet.find_entry trivial fuel dir old_name) hfind
  have hthird := hsecond.of_quiet (Quiet.read_inode ino) hread
  have hfourth := hthird.of_quiet (Quiet.find_entry trivial fuel dir new_name) hfind'
  obtain ⟨next, hstart, hnext_none, hnext⟩ : ∃ next : Option Nat → FsM Disk Unit,
      rename_file (memory cap known) fuel dir_ino old_name new_name fs =
        (find_entry (memory cap known) fuel dir new_name >>= next) s₃ ∧
      next none = move_name (memory cap known) fuel dir_ino old_name new_name ino ∧
      ∀ dest, next (some dest) = replace_file (memory cap known) fuel dir_ino new_name dest >>= fun _ =>
        move_name (memory cap known) fuel dir_ino old_name new_name ino := by
    apply Exists.intro
    constructor
    · rw [rename_file]
      have hget : (get : FsM Disk (Mount Disk)) fs = .ok fs fs := rfl
      rw [Run.bind_eq_of_ok hget, Run.bind_eq_of_ok (check_eq hseed fs)]
      rw [if_neg (by rw [validate_name_slash hold_valid, validate_name_slash hnew_valid]; simp)]
      beta_reduce
      rw [Run.bind_eq_of_ok (check_eq hold_valid fs), Run.bind_eq_of_ok (check_eq hnew_valid fs),
        Run.bind_eq_of_ok hinode, if_neg hne, if_neg (by simp [h.is_dir])]
      beta_reduce
      rw [Run.bind_eq_of_ok hfind]
      dsimp only
      rw [Run.bind_eq_of_ok hread, if_neg (by simp [hisdir]), if_neg (by simp [hfile])]
    · exact ⟨rfl, fun _ => rfl⟩
  obtain ⟨way, hway, hway_none, hway_some⟩ : ∃ way : Option Nat → FsM Disk (Nat × List Extent × List Extent),
      make_way (memory cap known) fuel dir_ino old_name new_name fs =
        (find_entry (memory cap known) fuel dir new_name >>= way) s₃ ∧
      way none = fail (.NotFound (Utf8.text new_name)) ∧
      ∀ dest, way (some dest) = take_name (memory cap known) fuel dir_ino new_name dest := by
    apply Exists.intro
    constructor
    · rw [make_way, Run.bind_eq_of_ok hinode, Run.bind_eq_of_ok hfind]
      dsimp only
      rw [Run.bind_eq_of_ok hread]
    · exact ⟨rfl, fun _ => rfl⟩
  refine ⟨seed, ino, s₄, hseed, ⟨hold_valid, hnew_valid⟩, hino, hs₄, hfourth, fun hnone => ?_, fun dest hdest => ?_⟩
  · rw [hnone] at hfind'
    rw [hstart, hway, Run.bind_eq_of_ok hfind', Run.bind_eq_of_ok hfind', hnext_none, hway_none]
    exact ⟨rfl, _, rfl⟩
  · rw [hdest] at hfind'
    rw [hstart, hway, Run.bind_eq_of_ok hfind', Run.bind_eq_of_ok hfind', hnext, hway_some]
    exact ⟨rfl, rfl⟩

/-- The file that is replaced has lost its name, and is about to be given back. -/
structure Taken (cap : Nat) (known : Bool) (fuel dir_ino : Nat) (dir : Inode) (blocks : List Nat)
    (old_name new_name : Bytes) (ino dest : Nat) (data index : List Extent) (fs t : Mount Disk) : Prop where
  way : make_way (memory cap known) fuel dir_ino old_name new_name fs = .ok (dest, data, index) t
  run : rename_file (memory cap known) fuel dir_ino old_name new_name fs =
    (release (memory cap known) dest false data index >>= fun _ =>
      move_name (memory cap known) fuel dir_ino old_name new_name ino) t
  directory : Directory cap known fuel t dir_ino dir blocks
  unlinked : Unlinked cap blocks new_name fs t
  other : dest ≠ dir_ino
  bounds : 0 < dest ∧ dest < 2 ^ 32
  extents : ∀ inode u data' index' u', read_inode (memory cap known) dest fs = .ok inode u →
    collect_extents (memory cap known) inode fs = .ok (data', index') u' → data' = data ∧ index' = index

theorem Begun.takes (h : Directory cap known fuel fs dir_ino dir blocks) {seed : Seed} {ino dest : Nat}
    (hb : Begun cap known fuel dir_ino blocks old_name new_name seed ino fs s)
    (hdest : fs.named blocks new_name = some dest) (hreplace : ¬ NotReplaceable cap known fs blocks new_name) :
    ∃ data index t, Taken cap known fuel dir_ino dir blocks old_name new_name ino dest data index fs t := by
  unfold NotReplaceable at hreplace
  simp only [not_exists, not_and, not_forall, not_or, not_not] at hreplace
  obtain ⟨inode, u₀, hread, hdir, hlinks, ⟨data, index⟩, v₀, hcollect⟩ := hreplace dest hdest
  obtain ⟨u, hread_s, hu⟩ := Blind.read_inode dest fs s inode u₀ hb.same hread
  have hfs_u := hb.same.trans hu
  obtain ⟨v, hcollect_u, hv⟩ := Blind.collect_extents inode fs u _ v₀ hfs_u hcollect
  have hfs_v := hfs_u.trans hv
  have hthrough := hb.through.of_quiet (Quiet.read_inode dest) hread_s
  have hthrough := hthrough.of_quiet (Quiet.collect_extents inode) hcollect_u
  obtain ⟨t, hunlink, ht, hunlinked⟩ := (h.same hfs_v).unlink (Directory.for_writing_of hfs_v.shape hb.seed) hb.valid.2
    ((hfs_v.named new_name).trans hdest)
  obtain ⟨hrun, hway⟩ := hb.taken dest hdest
  refine ⟨data, index, t, ?_, ?_, ht, hunlinked.of_same hfs_v hthrough, ?_, h.named_bounds hdest, ?_⟩
  · rw [hway, take_name, Run.bind_eq_of_ok hread_s, Run.bind_eq_of_ok hcollect_u]
    dsimp only
    rw [Run.bind_eq_of_ok hunlink]
    rfl
  · have hreplaced : replace_file (memory cap known) fuel dir_ino new_name dest s =
        release (memory cap known) dest false data index t := by
      rw [replace_file, Run.bind_eq_of_ok hread_s, if_neg hdir, if_neg hlinks]
      beta_reduce
      rw [Run.bind_eq_of_ok hcollect_u]
      dsimp only
      rw [Run.bind_eq_of_ok hunlink, if_neg (by simp)]
    rw [hrun]
    simp only [Bind.bind, EStateM.bind, hreplaced]
  · rintro rfl
    obtain ⟨w, hread', -⟩ := h.read_inode
    rw [hread'] at hread
    cases hread
    exact hdir h.is_dir
  · intro inode' u' data' index' v' hread' hcollect'
    obtain rfl := (Blind.read_inode dest).eq (.refl fs) hread' hread
    exact Prod.mk.inj ((Blind.collect_extents inode').eq (.refl fs) hcollect' hcollect)

/-! ## Giving it back -/

namespace Directory

variable {α : Type} {x : FsM Disk α} {Q : α → Mount Disk → Prop}

/-- No block of the directory is touched. -/
theorem through_cells (h : Directory cap known fuel fs dir_ino dir blocks)
    (hx : Tame (cells cap fs.shape dir_ino) x fs Q) :
    Through cap (fun m => ∀ b ∈ blocks, load m (b * fs.sb.block_size) fs.sb.block_size = fs.block b) fs
      (after (x fs)) := by
  refine hx.through (R := cells cap fs.shape dir_ino) (fun m a ha hm => ?_) fun b _ => rfl
  cases a with
  | read offset n => exact hm
  | flush => exact hm
  | write offset data =>
    obtain ⟨c, hc, hne, hrange⟩ := ha
    intro b hb
    have hapart := h.apart b hb c hc hne
    rw [hrange] at hapart
    rw [← hm b hb]
    rcases applied_write (cells cap fs.shape dir_ino).cap m offset data with heq | heq
    · rw [heq]
      exact load_store_of_apart m hapart
    · rw [heq]

theorem beside_cells (hx : Tame (cells cap fs.shape dir_ino) x fs Q) (hs : Survives (x fs)) :
    fs.Beside dir_ino blocks (after (x fs)) where
  shape := hx.inv hs
  state := by
    refine Through.last (hx.through (R := cells cap fs.shape dir_ino)
      (P := fun m => ∀ i, ¬ fs.shape.Busy dir_ino blocks i → m i = fs.io.state i) (fun m a ha hm => ?_)
      fun i _ => rfl)
    cases a with
    | read offset n => exact hm
    | flush => exact hm
    | write offset data =>
      obtain ⟨c, hc, hne, hrange⟩ := ha
      intro i hi
      rw [← hm i hi]
      rcases applied_write (cells cap fs.shape dir_ino).cap m offset data with heq | heq
      · rw [heq]
        apply store_of_not_mem
        by_contra hin
        refine hi (.inr ⟨c, hc, hne, ?_⟩)
        rw [hrange]
        omega
      · rw [heq]

theorem after_cells (h : Directory cap known fuel fs dir_ino dir blocks)
    (hx : Tame (cells cap fs.shape dir_ino) x fs Q) (hs : Survives (x fs)) :
    Directory cap known fuel (after (x fs)) dir_ino dir blocks ∧
      (∀ b ∈ blocks, (after (x fs)).block b = fs.block b) ∧
      ∀ name, (after (x fs)).named blocks name = fs.named blocks name := by
  have hbeside : fs.Beside dir_ino blocks (after (x fs)) := beside_cells hx hs
  have hbs : (after (x fs)).sb.block_size = fs.sb.block_size :=
    shape_sb Superblock.block_size (fun _ => rfl) hbeside.shape
  have hblocks : ∀ b ∈ blocks, (after (x fs)).block b = fs.block b := by
    intro b hb
    rw [Mount.block, hbs]
    exact (h.through_cells hx).last b hb
  have hdir := h.of_same_blocks hbeside hblocks
  refine ⟨hdir, hblocks, fun name => h.named_congr hdir fun b hb => ?_⟩
  rw [hblocks b hb]

end Directory

/-! ## What the device shows -/

theorem holds_of_through {ino : Nat} (hino : fs.named blocks old_name = some ino)
    (h : Through cap (fun m => lookup fs.sb.block_size m blocks old_name = some ino) fs
      (after (rename_file (memory cap known) fuel dir_ino old_name new_name fs))) :
    Holds cap known fuel fs dir_ino blocks old_name new_name := by
  intro log hlog ino' hino' k
  obtain rfl := Option.some.inj (hino.symm.trans hino')
  obtain ⟨new, hacc, -, hall⟩ := h
  obtain rfl := List.append_cancel_left (hlog.symm.trans hacc)
  exact .inl (hall k)

theorem not_holds {ino : Nat} {P Q : Disk → Prop} (hino : fs.named blocks old_name = some ino)
    (h : Through cap P fs t) (hrest : Through cap Q t
      (after (rename_file (memory cap known) fuel dir_ino old_name new_name fs)))
    (hbs : t.sb.block_size = fs.sb.block_size) (hold : t.named blocks old_name = none)
    (hnew : t.named blocks new_name = none) : ¬ Holds cap known fuel fs dir_ino blocks old_name new_name := by
  intro hholds
  obtain ⟨new, hacc, hstate, -⟩ := h
  obtain ⟨more, hacc', -⟩ := hrest
  rw [hacc, List.append_assoc] at hacc'
  have hlook := hholds (new ++ more) hacc' ino hino new.length
  rw [List.take_left, ← hstate, ← hbs] at hlook
  rcases hlook with hlook | hlook
  · cases hold.symm.trans hlook
  · cases hnew.symm.trans hlook

/-! ## The names in the end -/

theorem OnlyBlocks.bitmapOf (h : Directory cap known fuel fs dir_ino dir blocks) (ht : OnlyBlocks blocks fs t)
    {which : Bitmap} {group : Nat} (hmeta : fs.shape.Meta (.bitmap which group)) :
    t.bitmapOf which group = fs.bitmapOf which group := by
  refine bitmapOf_congr rfl ht.shape (meta_bitmap_lt hmeta) (fun g g' hg hg' => ?_) ?_
  · rw [ht.groups, hg] at hg'
    cases hg'
    rfl
  · apply load_congr
    intro i hin
    apply ht.elsewhere
    intro b hb
    rcases h.apart b hb _ hmeta Cell.noConfusion with hbefore | hbehind
    · left
      exact (Nat.add_lt_add_left hin _).trans_le hbefore
    · right
      exact hbehind.trans (Nat.le_add_right _ _)

/-- What a move that succeeds leaves. -/
structure Done (blocks : List Nat) (old_name new_name : Bytes) (ino : Nat) (fs t : Mount Disk) : Prop where
  only_blocks : OnlyBlocks blocks fs t
  moved : t.named blocks new_name = some ino
  gone : t.named blocks old_name = none
  keeps : usable fs.sb (Seed.of fs.sb) < 65536 → ∀ name, name ≠ old_name → name ≠ new_name →
    t.named blocks name = fs.named blocks name

theorem Moved.done {ino : Nat} {u w : Mount Disk} (hne : old_name ≠ new_name)
    (hu : Moved cap known fuel dir_ino dir blocks old_name new_name ino fs u)
    (hrun : move_name (memory cap known) fuel dir_ino old_name new_name ino fs = .ok () w) :
    Done blocks old_name new_name ino fs w := by
  rcases hu.ends with ⟨v, w', hok, hvw, hlinked⟩ | ⟨-, e, w', herr, -⟩
  · cases hok.symm.trans hrun
    have hblocks := hu.unlinked.only_blocks.trans (hlinked.only_blocks.trans (.of_same hvw))
    refine ⟨hblocks, ?_, ?_, fun hlt name hold hnew => ?_⟩
    · exact (hvw.named _).trans hlinked.named
    · exact (hvw.named _).trans ((hlinked.keeps _ hne).trans hu.unlinked.gone)
    · exact (hvw.named _).trans ((hlinked.keeps _ hnew).trans (hu.unlinked.keeps hlt _ hold))
  · cases herr.symm.trans hrun

/-! ## Nothing has the new name -/

section

variable (h : Directory cap known fuel fs dir_ino dir blocks)
include h

theorem Begun.moved {seed : Seed} {ino : Nat} (hb : Begun cap known fuel dir_ino blocks old_name new_name seed ino fs s)
    (hnone : fs.named blocks new_name = none) :
    ∃ u, Moved cap known fuel dir_ino dir blocks old_name new_name ino s u :=
  (h.same hb.same).move_name (Directory.for_writing_of hb.same.shape hb.seed) hb.valid.1 hb.valid.2
    ((hb.same.named old_name).trans hb.named) ((hb.same.named new_name).trans hnone)

theorem Begun.not_holds {seed : Seed} {ino : Nat}
    (hb : Begun cap known fuel dir_ino blocks old_name new_name seed ino fs s)
    (hnone : fs.named blocks new_name = none) : ¬ Holds cap known fuel fs dir_ino blocks old_name new_name := by
  obtain ⟨u, hu⟩ := hb.moved h hnone
  have hsb : u.sb = fs.sb := hu.unlinked.only_blocks.sb.trans hb.same.sb
  have hthrough : Through cap (fun _ => True) fs u :=
    (hb.through.mono fun _ _ => trivial).trans (hu.unlinked.through.mono fun _ _ => trivial)
  refine Ext4.not_holds hb.named hthrough (Q := fun _ => True) ?_ (congrArg Superblock.block_size hsb)
    hu.unlinked.gone hu.neither
  rw [(hb.fresh hnone).1]
  exact hu.rest

end

/-! ## A file has the new name -/

namespace Taken

variable {ino dest : Nat} {data index : List Extent}

section

variable (T : Taken cap known fuel dir_ino dir blocks old_name new_name ino dest data index fs t)
include T

theorem shape : t.shape = fs.shape := T.unlinked.only_blocks.shape

theorem block_size : t.sb.block_size = fs.sb.block_size := congrArg Superblock.block_size T.unlinked.only_blocks.sb

theorem usable : Ext4.usable t.sb (Seed.of t.sb) = Ext4.usable fs.sb (Seed.of fs.sb) := Directory.usable_of T.shape

variable (A : fs.shape.CellsApart)
include A

theorem tame : Tame (cells cap t.shape dir_ino) (release (memory cap known) dest false data index) t fun _ s =>
    t.shape.FreeInode s dest ∧ ∀ e ∈ data ++ index, ∀ b ∈ e.blocks, t.shape.FreeBlock s b :=
  tame_release (by rw [T.shape]; exact A) rfl T.other T.bounds false data index

theorem rest : Through cap (fun _ => True) t
    (after (rename_file (memory cap known) fuel dir_ino old_name new_name fs)) := by
  rw [T.run]
  apply Tame.grows (Q := fun _ _ => True)
  have hfree : Tame (free cap) (release (memory cap known) dest false data index) t _ :=
    (T.tame A).mono rfl (fun _ _ => trivial) (fun _ _ => trivial) fun _ _ => trivial
  exact hfree.bind fun _ s _ _ => Tame.move_name ino s

theorem not_holds_of_lost (hino : fs.named blocks old_name = some ino) (hlost : t.named blocks old_name = none) :
    ¬ Holds cap known fuel fs dir_ino blocks old_name new_name :=
  Ext4.not_holds hino T.unlinked.through (T.rest A) T.block_size hlost T.unlinked.gone

/-- What giving it back leaves of the directory. -/
theorem released {u : Mount Disk} (hs : Survives (release (memory cap known) dest false data index t))
    (hu : after (release (memory cap known) dest false data index t) = u) :
    u.shape = t.shape ∧ Directory cap known fuel u dir_ino dir blocks ∧ (∀ b ∈ blocks, u.block b = t.block b) ∧
      ∀ name, u.named blocks name = t.named blocks name := by
  rw [← hu]
  have hbeside : t.Beside dir_ino blocks _ := Directory.beside_cells (T.tame A) hs
  exact ⟨hbeside.shape, T.directory.after_cells (T.tame A) hs⟩

/-- Once the file is given back, the old name goes as it does where nothing has the new one. -/
theorem moved {seed : Seed} (hseed : Seed.for_writing fs.sb = .ok seed) (hold : validate_name old_name = .ok ())
    (hnew : validate_name new_name = .ok ()) (hino : t.named blocks old_name = some ino) {u : Mount Disk}
    (hrun : release (memory cap known) dest false data index t = .ok () u) :
    ∃ v, Moved cap known fuel dir_ino dir blocks old_name new_name ino u v := by
  obtain ⟨hshape, hdir, -, hnamed⟩ := T.released A (u := u) (by rw [hrun]; trivial) (by rw [hrun]; rfl)
  exact hdir.move_name (Directory.for_writing_of (hshape.trans T.shape) hseed) hold hnew
    ((hnamed old_name).trans hino) ((hnamed new_name).trans T.unlinked.gone)

theorem not_holds_of_released {seed : Seed} (hseed : Seed.for_writing fs.sb = .ok seed)
    (hold : validate_name old_name = .ok ()) (hnew : validate_name new_name = .ok ())
    (hino : fs.named blocks old_name = some ino) {u : Mount Disk}
    (hrun : release (memory cap known) dest false data index t = .ok () u) :
    ¬ Holds cap known fuel fs dir_ino blocks old_name new_name := by
  rcases T.unlinked.fades old_name with hlost | hkept
  · exact T.not_holds_of_lost A hino hlost
  obtain ⟨hshape, -⟩ := T.released A (u := u) (by rw [hrun]; trivial) (by rw [hrun]; rfl)
  obtain ⟨v, hv⟩ := T.moved A hseed hold hnew (hkept.trans hino) hrun
  have hrelease : Through cap (fun _ => True) t u := by
    have hthrough := (T.directory.through_cells (T.tame A)).mono (Q := fun _ => True) fun _ _ => trivial
    rwa [hrun] at hthrough
  have hthrough : Through cap (fun _ => True) fs v :=
    ((T.unlinked.through.mono fun _ _ => trivial).trans hrelease).trans (hv.unlinked.through.mono fun _ _ => trivial)
  refine Ext4.not_holds hino hthrough (Q := fun _ => True) ?_ ?_ hv.unlinked.gone hv.neither
  · rw [T.run, Run.bind_eq_of_ok hrun]
    exact hv.rest
  · rw [hv.unlinked.only_blocks.sb]
    exact (shape_sb Superblock.block_size (fun _ => rfl) hshape).trans T.block_size

/-- Where giving it back stops, the old name is still there. -/
theorem holds_of_error (hino : fs.named blocks old_name = some ino) (hlost : t.named blocks old_name ≠ none)
    {e : Halt} {u : Mount Disk} (hrun : release (memory cap known) dest false data index t = .error e u) :
    Holds cap known fuel fs dir_ino blocks old_name new_name := by
  have hkept : t.named blocks old_name = some ino := ((T.unlinked.fades old_name).resolve_left hlost).trans hino
  have hbs := T.block_size
  apply holds_of_through hino
  rw [T.run, Run.bind_eq_of_error hrun]
  refine (T.unlinked.through.mono fun m hm => ?_).trans ?_
  · rcases hm with rfl | rfl
    · exact hino
    · rw [← hbs]
      exact hkept
  · have hthrough := T.directory.through_cells (T.tame A)
    rw [hrun] at hthrough
    refine hthrough.mono fun m hm => ?_
    rw [← hbs, ← hkept]
    exact lookup_congr hm old_name

theorem not_keeps {e : LuksError} {u : Mount Disk} (hdest : fs.named blocks new_name = some dest)
    (hrun : release (memory cap known) dest false data index t = .error (.err e) u) (hfailed : u.io.failed = false) :
    ¬ Keeps cap known fuel fs dir_ino blocks old_name new_name := by
  intro hkeeps
  have herr : rename_file (memory cap known) fuel dir_ino old_name new_name fs = .error (.err e) u := by
    rw [T.run, Run.bind_eq_of_error hrun]
  obtain ⟨-, -, -, hnamed⟩ := T.released A (u := u) (by rw [hrun]; trivial) (by rw [hrun]; rfl)
  have hsame := hkeeps e u herr hfailed new_name
  rw [hnamed, T.unlinked.gone, hdest] at hsame
  cases hsame

end

end Taken

end LuksAndroid.Ext4
