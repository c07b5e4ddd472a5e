import LuksAndroid.Ext4.Rename.Spec
import LuksAndroid.Store

/-!
# Unlinking and linking

Both walk over the blocks of the directory and write the first one that they can change. One name is
taken away or added, and what the others stand for stays.
-/

namespace LuksAndroid.Ext4

open Word

variable {cap : Nat} {known : Bool} {fuel : Nat} {fs s t u : Mount Disk} {dir_ino : Nat} {dir : Inode}
  {blocks : List Nat} {name : Bytes}

/-! ## What the device goes through -/

/-- The record grew, and all that was on the device meanwhile had the property. -/
def Through (cap : Nat) (P : Disk → Prop) (fs s : Mount Disk) : Prop :=
  ∃ new, s.io.accesses = fs.io.accesses ++ new ∧ s.io.state = persist cap fs.io.state new ∧
    ∀ k, P (persist cap fs.io.state (new.take k))

section

variable {P Q : Disk → Prop}

theorem Through.refl (h : P fs.io.state) : Through cap P fs fs := by
  refine ⟨[], (List.append_nil _).symm, rfl, fun k => ?_⟩
  rw [List.take_nil]
  exact h

theorem Through.last (h : Through cap P fs s) : P s.io.state := by
  obtain ⟨new, -, hstate, hall⟩ := h
  have hlast := hall new.length
  rwa [List.take_length, ← hstate] at hlast

theorem Through.mono (h : Through cap P fs s) (hpq : ∀ m, P m → Q m) : Through cap Q fs s := by
  obtain ⟨new, hacc, hstate, hall⟩ := h
  exact ⟨new, hacc, hstate, fun k => hpq _ (hall k)⟩

theorem Through.trans (h : Through cap P fs s) (h' : Through cap P s t) : Through cap P fs t := by
  obtain ⟨new, hacc, hstate, hall⟩ := h
  obtain ⟨new', hacc', hstate', hall'⟩ := h'
  refine ⟨new ++ new', by rw [hacc', hacc, List.append_assoc], by rw [hstate', hstate, persist_append],
    fun k => ?_⟩
  rw [List.take_append, persist_append]
  by_cases hk : k ≤ new.length
  · rw [Nat.sub_eq_zero_of_le hk, List.take_zero]
    exact hall k
  · rw [List.take_of_length_le (by omega), ← hstate]
    exact hall' _

theorem Through.read {a : Access} (h : a.isWrite = false) :
    Through cap (· = fs.io.state) fs (fs.logged a) := by
  have hstep : applied cap fs.io.state a = fs.io.state := by
    cases a with
    | write offset data => cases h
    | read offset n => rfl
    | flush => rfl
  refine ⟨[a], rfl, hstep.symm, fun k => ?_⟩
  rcases k with - | k
  · rfl
  · rw [List.take_of_length_le (by simp)]
    exact hstep

theorem persist_keeps {asks : Access → Prop} (hstep : ∀ m a, asks a → P m → P (applied cap m a)) {log : List Access}
    (hlog : ∀ a ∈ log, asks a) {m : Disk} (h : P m) : P (persist cap m log) := by
  induction log generalizing m with
  | nil => exact h
  | cons a rest ih =>
    exact ih (fun a' ha' => hlog a' (List.mem_cons_of_mem a ha')) (hstep m a (hlog a List.mem_cons_self) h)

theorem Tame.through {R : Rules} {α : Type} {x : FsM Disk α} {post : α → Mount Disk → Prop} (h : Tame R x fs post)
    (hstep : ∀ m a, R.asks a → P m → P (applied R.cap m a)) (hfs : P fs.io.state) :
    Through R.cap P fs (after (x fs)) := by
  obtain ⟨new, hacc, hstate, hnew⟩ := h.log
  exact ⟨new, hacc, hstate, fun k => persist_keeps hstep (fun a ha => hnew a (List.mem_of_mem_take ha)) hfs⟩

end

/-- Nothing is written. -/
def still (cap : Nat) (fs : Mount Disk) : Rules where
  cap := cap
  asks a := a.isWrite = false
  halts _ := True
  inv s := fs.Same s
  read _ _ := rfl
  flush := rfl
  orderly _ := trivial
  quiet _ _ h hs := h.trans hs

theorem applied_write (cap : Nat) (m : Disk) (offset : Nat) (data : Bytes) :
    applied cap m (.write offset data) = store m offset data ∨ applied cap m (.write offset data) = m :=
  ite_eq_or_eq _ _ _

theorem applied_of_read {m : Disk} {a : Access} (h : a.isWrite = false) : applied cap m a = m := by
  cases a with
  | write offset data => cases h
  | read offset n => rfl
  | flush => rfl

theorem Quiet.through {α : Type} {x : FsM Disk α} (h : Quiet (still cap fs) x) (hs : fs.Same s) {a : α}
    (hrun : x s = .ok a t) : Through cap (· = s.io.state) s t := by
  have hthrough := (h.tame hs).through (P := (· = s.io.state)) (fun m a ha hm => (applied_of_read ha).trans hm) rfl
  rwa [hrun] at hthrough

theorem Through.of_quiet {α : Type} {x : FsM Disk α} (h : Quiet (still cap s) x) {a : α} (hrun : x s = .ok a t)
    (hthrough : Through cap (· = fs.io.state) fs s) : Through cap (· = fs.io.state) fs t := by
  have hstate : s.io.state = fs.io.state := hthrough.last
  have hstep : Through cap (· = s.io.state) s t := h.through (.refl s) hrun
  rw [hstate] at hstep
  exact hthrough.trans hstep

/-! ## The same directory on another mount -/

theorem shape_sb {α : Type} (f : Superblock → α) (hf : ∀ sb, f sb.shape = f sb) (h : s.shape = fs.shape) :
    f s.sb = f fs.sb := by
  rw [← hf s.sb, ← hf fs.sb]
  exact congrArg (fun S : Shape => f S.sb) h

theorem Mount.Same.shape (h : fs.Same s) : s.shape = fs.shape := by rw [Mount.shape, Mount.shape, h.sb, h.groups]

theorem Mount.Same.block (h : fs.Same s) (b : Nat) : s.block b = fs.block b := by
  rw [Mount.block, Mount.block, h.sb, h.state]

theorem Mount.Same.symm (h : fs.Same s) : s.Same fs := ⟨h.sb.symm, h.groups.symm, h.state.symm⟩

theorem Mount.Same.named (h : fs.Same s) (name : Bytes) : s.named blocks name = fs.named blocks name := by
  rw [Mount.named, Mount.named, h.sb, h.state]

namespace Mount.Beside

theorem trans (h : fs.Beside dir_ino blocks s) (h' : s.Beside dir_ino blocks t) : fs.Beside dir_ino blocks t where
  shape := h'.shape.trans h.shape
  state i hi := (h'.state i (by rwa [h.shape])).trans (h.state i hi)

theorem of_same (h : fs.Same s) : fs.Beside dir_ino blocks s := ⟨h.shape, fun i _ => congrFun h.state i⟩

end Mount.Beside

namespace Directory

theorem beside (h : Directory cap known fuel fs dir_ino dir blocks) (hs : fs.Beside dir_ino blocks s)
    (hreadable : ∀ b ∈ blocks, Readable (usable fs.sb (Seed.of fs.sb)) (s.block b))
    (hunique : ∀ b ∈ blocks, ∀ b' ∈ blocks, ∀ name, find (s.block b) name ≠ none → find (s.block b') name ≠ none →
      b = b') : Directory cap known fuel s dir_ino dir blocks := by
  have hbs : s.sb.block_size = fs.sb.block_size := shape_sb Superblock.block_size (fun _ => rfl) hs.shape
  have hdir : dir_blocks s.sb dir = dir_blocks fs.sb dir := shape_sb (dir_blocks · dir) (fun _ => rfl) hs.shape
  have husable : usable s.sb (Seed.of s.sb) = usable fs.sb (Seed.of fs.sb) :=
    shape_sb (fun sb => usable sb (Seed.of sb)) (fun _ => rfl) hs.shape
  refine ⟨h.is_dir, h.plain, fun t ht => ?_, ?_, fun b hb => ⟨?_, ?_⟩, ?_, ?_, hunique⟩
  · rw [hdir]
    exact h.reads t (hs.trans ht)
  · rw [hbs]
    exact h.block_size
  · rw [hbs, ← (h.placed b hb).offset]
    exact shape_sb (fun sb => sb.metadata_block_offset b) (fun _ => rfl) hs.shape
  · rw [hbs]
    exact (h.placed b hb).inside
  · rw [hs.shape, hbs]
    exact h.apart
  · rw [husable]
    exact hreadable

theorem of_same_blocks (h : Directory cap known fuel fs dir_ino dir blocks) (hs : fs.Beside dir_ino blocks s)
    (hblocks : ∀ b ∈ blocks, s.block b = fs.block b) : Directory cap known fuel s dir_ino dir blocks := by
  apply h.beside hs
  · intro b hb
    rw [hblocks b hb]
    exact h.readable b hb
  · intro b hb b' hb' name
    rw [hblocks b hb, hblocks b' hb']
    exact h.unique b hb b' hb' name

theorem same (h : Directory cap known fuel fs dir_ino dir blocks) (hs : fs.Same s) :
    Directory cap known fuel s dir_ino dir blocks :=
  h.of_same_blocks (.of_same hs) fun b _ => hs.block b

theorem named_eq_none_iff : fs.named blocks name = none ↔ ∀ b ∈ blocks, find (fs.block b) name = none :=
  lookup_eq_none_iff

theorem named_eq_some_iff (h : Directory cap known fuel fs dir_ino dir blocks) {ino : Nat} :
    fs.named blocks name = some ino ↔ ∃ b ∈ blocks, find (fs.block b) name = some ino := by
  constructor
  · intro hnamed
    exact List.exists_of_findSome?_eq_some hnamed
  · rintro ⟨b, hb, hfind⟩
    rcases hnamed : fs.named blocks name with - | ino'
    · cases hfind.symm.trans (named_eq_none_iff.mp hnamed b hb)
    · obtain ⟨b', hb', hfind'⟩ := List.exists_of_findSome?_eq_some hnamed
      obtain rfl : b = b' := h.unique b hb b' hb' name (by rw [hfind]; simp) (by
        change find (load fs.io.state (b' * fs.sb.block_size) fs.sb.block_size) name ≠ none
        rw [hfind']
        simp)
      exact hfind'.symm.trans hfind

theorem find_entry (h : Directory cap known fuel fs dir_ino dir blocks) (name : Bytes) :
    ∃ t, find_entry (memory cap known) fuel dir name fs = .ok (fs.named blocks name) t ∧ fs.Same t := by
  obtain ⟨-, places, u, hmap, hplaces⟩ := h.reads fs (.of_same (.refl fs))
  have hplaced := h.placed
  rw [← hplaces] at hplaced
  obtain ⟨t, hrun, hsame⟩ := @find_in_blocks_eq cap known fuel dir name _ _ _ _ hmap hplaced
  rw [hplaces] at hrun
  exact ⟨t, hrun, hsame⟩

theorem read_inode (h : Directory cap known fuel fs dir_ino dir blocks) :
    ∃ t, read_inode (memory cap known) dir_ino fs = .ok dir t ∧ fs.Same t := by
  obtain ⟨⟨t, hread⟩, -⟩ := h.reads fs (.of_same (.refl fs))
  exact Blind.read_inode dir_ino fs fs dir t (.refl fs) hread

theorem open_dir (h : Directory cap known fuel fs dir_ino dir blocks) (what : String) :
    ∃ t, open_dir (memory cap known) dir_ino what fs = .ok dir t ∧ fs.Same t := by
  obtain ⟨t, hread, hsame⟩ := h.read_inode
  refine ⟨t, ?_, hsame⟩
  rw [Ext4.open_dir, Run.bind_eq_of_ok hread, if_neg (by simp [h.is_dir]), if_neg (by simp [h.plain.1]),
    if_neg (by simp [h.plain.2])]
  rfl

end Directory

/-! ## Changing one block -/

/-- Write the first block that can be changed: both walks of the code are this one. -/
def edit_in_blocks {σ α : Type} (d : WriteAt σ) (fuel : Nat) (dir : Inode)
    (edit : Superblock → Bytes → Option (α × Bytes)) (e : LuksError) : List Nat → FsM σ α
  | [] => fail e
  | lblock :: rest => do
    match ← map_block d fuel dir lblock with
    | none => edit_in_blocks d fuel dir edit e rest
    | some phys => do
      let sb := (← get).sb
      let offset ← check (sb.metadata_block_offset phys)
      let block ← read_at d offset sb.block_size
      match edit sb block with
      | none => edit_in_blocks d fuel dir edit e rest
      | some (a, block) => do
        write_at d offset block
        return a

def unlink_edit (seed : Seed) (dir_ino generation : Nat) (name : Bytes) (sb : Superblock) (block : Bytes) :
    Option (Nat × Bytes) :=
  (remove_from_block block (usable sb seed) name sb.block_size 0 none).map fun p =>
    (p.1, signed_dir_block seed dir_ino generation p.2)

def link_edit (seed : Seed) (dir_ino generation : Nat) (name : Bytes) (ino : Nat) (file_type : FileType)
    (sb : Superblock) (block : Bytes) : Option (Unit × Bytes) :=
  (insert_into_block block (usable sb seed) name ino file_type (record_len name.length) sb.block_size 0).map fun b =>
    ((), signed_dir_block seed dir_ino generation b)

theorem unlink_in_blocks_eq {σ : Type} (d : WriteAt σ) (seed : Seed) (lblocks : List Nat) :
    unlink_in_blocks d fuel seed dir dir_ino name lblocks =
      edit_in_blocks d fuel dir (unlink_edit seed dir_ino dir.generation name) (.NotFound (Utf8.text name))
        lblocks := by
  induction lblocks with
  | nil => rfl
  | cons lblock rest ih =>
    rw [unlink_in_blocks, edit_in_blocks, ih]
    congr 1
    funext phys
    cases phys with
    | none => rfl
    | some phys =>
      dsimp only
      congr 1
      funext fs
      congr 1
      funext offset
      congr 1
      funext block
      unfold unlink_edit
      cases remove_from_block block (usable fs.sb seed) name fs.sb.block_size 0 none with
      | none => rfl
      | some removed => rfl

theorem link_in_blocks_eq {σ : Type} (d : WriteAt σ) (seed : Seed) (ino : Nat) (file_type : FileType)
    (lblocks : List Nat) :
    link_in_blocks d fuel seed dir dir_ino name ino file_type lblocks =
      edit_in_blocks d fuel dir (link_edit seed dir_ino dir.generation name ino file_type)
        (.UnsupportedFsFeature "directory is full and extending a directory is not implemented") lblocks := by
  induction lblocks with
  | nil => rfl
  | cons lblock rest ih =>
    rw [link_in_blocks, edit_in_blocks, ih]
    congr 1
    funext phys
    cases phys with
    | none => rfl
    | some phys =>
      dsimp only
      congr 1
      funext fs
      congr 1
      funext offset
      congr 1
      funext block
      unfold link_edit
      cases insert_into_block block (usable fs.sb seed) name ino file_type (record_len name.length)
          fs.sb.block_size 0 with
      | none => rfl
      | some inserted => exact (bind_pure_unit (x := write_at d offset _)).symm

/-- The block `b` was written, and nothing before it. -/
structure Edited (cap : Nat) (b : Nat) (block : Bytes) (s t : Mount Disk) : Prop where
  sb : t.sb = s.sb
  groups : t.groups = s.groups
  state : t.io.state = store s.io.state (b * s.sb.block_size) block
  through : Through cap (fun m => m = s.io.state ∨ m = t.io.state) s t

theorem Edited.of_read {b : Nat} {block : Bytes} (hsame : s.Same u) (hread : Through cap (· = s.io.state) s u)
    (h : Edited cap b block u t) : Edited cap b block s t where
  sb := h.sb.trans hsame.sb
  groups := h.groups.trans hsame.groups
  state := by rw [h.state, hsame.state, hsame.sb]
  through := (hread.mono fun m hm => .inl hm).trans (by
    have hthrough := h.through
    rwa [hsame.state] at hthrough)

theorem edit_in_blocks_spec {α : Type} (edit : Superblock → Bytes → Option (α × Bytes)) (e : LuksError)
    (lblocks : List Nat) : ∀ {places : List (Option Nat)} {s t : Mount Disk},
    map_blocks (memory cap known) fuel dir lblocks s = .ok places t →
    (∀ b ∈ places.reduceOption, Placed cap s.sb b) →
    (∀ b ∈ places.reduceOption, ∀ a block, edit s.sb (s.block b) = some (a, block) →
      block.length = s.sb.block_size) →
    (∃ b ∈ places.reduceOption, ∃ a block t', edit s.sb (s.block b) = some (a, block) ∧
      edit_in_blocks (memory cap known) fuel dir edit e lblocks s = .ok a t' ∧ Edited cap b block s t') ∨
    (∀ b ∈ places.reduceOption, edit s.sb (s.block b) = none) ∧
      ∃ t', edit_in_blocks (memory cap known) fuel dir edit e lblocks s = .error (.err e) t' ∧ s.Same t' := by
  induction lblocks with
  | nil =>
    intro places s t hmap _ _
    obtain ⟨rfl, -⟩ := Run.pure_ok.mp hmap
    exact .inr ⟨by simp, s, rfl, .refl s⟩
  | cons lblock rest ih =>
    intro places s t hmap hplaced hlength
    obtain ⟨phys, more, u, rfl, hfirst, hu, t', hrest⟩ := map_blocks_cons hmap
    have hread : Through cap (· = s.io.state) s u :=
      (Quiet.map_block (R := still cap s) trivial fuel dir lblock).through (.refl s) hfirst
    rw [edit_in_blocks, Run.bind_eq_of_ok hfirst]
    cases phys with
    | none =>
      rw [List.reduceOption_cons_of_none] at hplaced hlength ⊢
      have hlength' : ∀ b ∈ more.reduceOption, ∀ a block, edit u.sb (u.block b) = some (a, block) →
          block.length = u.sb.block_size := by
        intro b hb
        rw [hu.block, hu.sb]
        exact hlength b hb
      rcases ih hrest (placed_of_same hplaced hu) hlength' with
        ⟨b, hb, a, block, v, hedit, hrun, hv⟩ | ⟨hnone, v, hrun, hv⟩
      · rw [hu.block, hu.sb] at hedit
        exact .inl ⟨b, hb, a, block, v, hedit, hrun, hv.of_read hu hread⟩
      · refine .inr ⟨fun b hb => ?_, v, hrun, hu.trans hv⟩
        rw [← hu.block, ← hu.sb]
        exact hnone b hb
    | some b =>
      rw [List.reduceOption_cons_of_some] at hplaced hlength ⊢
      have hb : Placed cap u.sb b := placed_of_same hplaced hu b List.mem_cons_self
      have hlogged := u.same_logged (.read (b * u.sb.block_size) u.sb.block_size)
      have hv := hu.trans hlogged
      have hread' : Through cap (· = s.io.state) s (u.logged (.read (b * u.sb.block_size) u.sb.block_size)) := by
        have hstep := @Through.read cap u (.read (b * u.sb.block_size) u.sb.block_size) rfl
        rw [hu.state] at hstep
        exact hread.trans hstep
      dsimp only
      rw [read_placed hb]
      change (∃ b' ∈ b :: more.reduceOption, _) ∨ _
      have hedit_eq : edit u.sb (load u.io.state (b * u.sb.block_size) u.sb.block_size) = edit s.sb (s.block b) := by
        rw [Mount.block, hu.sb, hu.state]
      rw [hedit_eq]
      rcases hedit : edit s.sb (s.block b) with - | ⟨a, block⟩
      · obtain ⟨t'', hrest', -⟩ := Blind.map_blocks rest u _ more t' hlogged hrest
        have hmore := fun b' hb' => hplaced b' (List.mem_cons_of_mem b hb')
        have hlength' : ∀ b' ∈ more.reduceOption, ∀ a block,
            edit (u.logged (.read (b * u.sb.block_size) u.sb.block_size)).sb
              ((u.logged (.read (b * u.sb.block_size) u.sb.block_size)).block b') = some (a, block) →
            block.length = (u.logged (.read (b * u.sb.block_size) u.sb.block_size)).sb.block_size := by
          intro b' hb'
          rw [hv.block, hv.sb]
          exact hlength b' (List.mem_cons_of_mem b hb')
        rcases ih hrest' (placed_of_same hmore hv) hlength' with
          ⟨b', hb', a', block', w, hedit', hrun, hw⟩ | ⟨hnone, w, hrun, hw⟩
        · rw [hv.block, hv.sb] at hedit'
          exact .inl ⟨b', List.mem_cons_of_mem b hb', a', block', w, hedit', hrun, hw.of_read hv hread'⟩
        · refine .inr ⟨fun b' hb' => ?_, w, hrun, hv.trans hw⟩
          rcases List.mem_cons.mp hb' with rfl | hb'
          · exact hedit
          · rw [← hv.block, ← hv.sb]
            exact hnone b' hb'
      · left
        have hlen : block.length = u.sb.block_size := by
          rw [hu.sb]
          exact hlength b List.mem_cons_self a block hedit
        have hinside : b * u.sb.block_size + block.length ≤ cap := by
          rw [hlen]
          exact hb.inside
        refine ⟨b, List.mem_cons_self, a, block, (u.logged (.read (b * u.sb.block_size) u.sb.block_size)).stored
          (b * u.sb.block_size) block, hedit, ?_, ?_⟩
        · dsimp only
          rw [Run.bind_eq_of_ok (write_at_of_le known _ hinside)]
          rfl
        · refine Edited.of_read hv hread' ⟨rfl, rfl, rfl, ?_⟩
          have hstep : applied cap u.io.state (.write (b * u.sb.block_size) block) =
              store u.io.state (b * u.sb.block_size) block := if_pos hinside
          refine ⟨[.write (b * u.sb.block_size) block], rfl, hstep.symm, fun k => ?_⟩
          rcases k with - | k
          · exact .inl rfl
          · right
            rw [List.take_of_length_le (by simp)]
            exact hstep

/-! ## The names after a change -/

/-- Only blocks of the directory were written. -/
structure OnlyBlocks (blocks : List Nat) (fs t : Mount Disk) : Prop where
  sb : t.sb = fs.sb
  groups : t.groups = fs.groups
  elsewhere : ∀ i, (∀ b ∈ blocks, i < b * fs.sb.block_size ∨ b * fs.sb.block_size + fs.sb.block_size ≤ i) →
    t.io.state i = fs.io.state i

theorem OnlyBlocks.of_same (h : fs.Same s) : OnlyBlocks blocks fs s := ⟨h.sb, h.groups, fun i _ => congrFun h.state i⟩

theorem OnlyBlocks.trans (h : OnlyBlocks blocks fs s) (h' : OnlyBlocks blocks s t) : OnlyBlocks blocks fs t where
  sb := h'.sb.trans h.sb
  groups := h'.groups.trans h.groups
  elsewhere i hi := (h'.elsewhere i (by rwa [h.sb])).trans (h.elsewhere i hi)

theorem OnlyBlocks.shape (h : OnlyBlocks blocks fs t) : t.shape = fs.shape := by
  rw [Mount.shape, Mount.shape, h.sb, h.groups]

theorem OnlyBlocks.beside (h : OnlyBlocks blocks fs t) : fs.Beside dir_ino blocks t where
  shape := h.shape
  state i hi := by
    apply h.elsewhere
    intro b hb
    by_contra hin
    rw [not_or, Nat.not_lt, Nat.not_le] at hin
    exact hi (.inl ⟨b, hb, hin⟩)

theorem blocks_apart {bs b b' : Nat} (h : b ≠ b') : Bytes.Apart (b * bs, bs) (b' * bs, bs) := by
  rcases Nat.lt_or_gt_of_ne h with hlt | hlt
  · have hmul := Nat.mul_le_mul_right bs hlt
    rw [Nat.succ_mul] at hmul
    exact .inl hmul
  · have hmul := Nat.mul_le_mul_right bs hlt
    rw [Nat.succ_mul] at hmul
    exact .inr hmul

namespace Edited

variable {b : Nat} {block : Bytes}

theorem only_blocks (h : Edited cap b block fs t) (hb : b ∈ blocks) (hlen : block.length = fs.sb.block_size) :
    OnlyBlocks blocks fs t where
  sb := h.sb
  groups := h.groups
  elsewhere i hi := by
    rw [h.state]
    apply store_of_not_mem
    rw [hlen]
    exact hi b hb

theorem block_self (h : Edited cap b block fs t) (hlen : block.length = fs.sb.block_size) : t.block b = block := by
  have hself := load_store_self fs.io.state (b * fs.sb.block_size) block
  rw [hlen] at hself
  rw [Mount.block, h.sb, h.state]
  exact hself

theorem block_other (h : Edited cap b block fs t) (hlen : block.length = fs.sb.block_size) {b' : Nat} (hne : b' ≠ b) :
    t.block b' = fs.block b' := by
  rw [Mount.block, Mount.block, h.sb, h.state]
  apply load_store_of_apart
  rw [hlen]
  exact blocks_apart (Ne.symm hne)

end Edited

theorem for_writing_seed {sb : Superblock} {seed : Seed} (h : Seed.for_writing sb = .ok seed) : seed = Seed.of sb := by
  unfold Seed.for_writing at h
  obtain ⟨-, h₁⟩ := Run.guard_bind_ok.mp h
  obtain ⟨-, h₂⟩ := Run.guard_bind_ok.mp h₁
  obtain ⟨-, h₃⟩ := Run.guard_bind_ok.mp h₂
  obtain ⟨-, h₄⟩ := Run.guard_bind_ok.mp h₃
  obtain ⟨-, h₅⟩ := Run.guard_bind_ok.mp h₄
  obtain ⟨-, h₆⟩ := Run.guard_bind_ok.mp h₅
  obtain ⟨-, h₇⟩ := Run.guard_bind_ok.mp h₆
  obtain ⟨-, h₈⟩ := Run.guard_bind_ok.mp h₇
  exact (Except.ok.inj h₈).symm

theorem length_block (fs : Mount Disk) (b : Nat) : (fs.block b).length = fs.sb.block_size := length_load _ _ _

theorem unlink_edit_eq (fs : Mount Disk) (seed : Seed) (generation b : Nat) :
    unlink_edit seed dir_ino generation name fs.sb (fs.block b) =
      (removed (fs.block b) (usable fs.sb seed) name).map fun p =>
        (p.1, signed_dir_block seed dir_ino generation p.2) := by
  rw [removed, length_block]
  rfl

theorem link_edit_eq (fs : Mount Disk) (seed : Seed) (generation ino b : Nat) (file_type : FileType) :
    link_edit seed dir_ino generation name ino file_type fs.sb (fs.block b) =
      (inserted (fs.block b) (usable fs.sb seed) name ino file_type).map fun block =>
        ((), signed_dir_block seed dir_ino generation block) := by
  rw [inserted, length_block]
  rfl

namespace Directory

variable {b ino : Nat} {block : Bytes}

theorem signable (h : Directory cap known fuel fs dir_ino dir blocks) (b : Nat) :
    ((Seed.of fs.sb).enabled = true → usable fs.sb (Seed.of fs.sb) + DIR_TAIL_SIZE = (fs.block b).length) ∧
      12 ≤ (fs.block b).length := by
  have hbs := h.block_size
  rw [length_block]
  refine ⟨fun henabled => ?_, by omega⟩
  rw [usable, if_pos henabled]
  unfold DIR_TAIL_SIZE
  omega

theorem edited (h : Directory cap known fuel fs dir_ino dir blocks) (hb : b ∈ blocks)
    (hlen : block.length = fs.sb.block_size) (ht : Edited cap b block fs t)
    (hreadable : Readable (usable fs.sb (Seed.of fs.sb)) block)
    (hnew : ∀ name, find block name ≠ none → find (fs.block b) name ≠ none ∨ fs.named blocks name = none) :
    Directory cap known fuel t dir_ino dir blocks := by
  have hself := ht.block_self hlen
  have hone : ∀ name, find block name ≠ none → ∀ b' ∈ blocks, b' ≠ b → find (fs.block b') name = none := by
    intro name hfind b' hb' hne
    rcases hnew name hfind with hold | hnone
    · by_contra hsome
      exact hne (h.unique b' hb' b hb name hsome hold)
    · exact named_eq_none_iff.mp hnone b' hb'
  apply h.beside (ht.only_blocks hb hlen).beside
  · intro b' hb'
    by_cases hne : b' = b
    · rw [hne, hself]
      exact hreadable
    · rw [ht.block_other hlen hne]
      exact h.readable b' hb'
  · intro b₁ hb₁ b₂ hb₂ name hfind₁ hfind₂
    by_cases hne₁ : b₁ = b
    · by_cases hne₂ : b₂ = b
      · rw [hne₁, hne₂]
      · rw [hne₁, hself] at hfind₁
        rw [ht.block_other hlen hne₂] at hfind₂
        exact absurd (hone name hfind₁ b₂ hb₂ hne₂) hfind₂
    · rw [ht.block_other hlen hne₁] at hfind₁
      by_cases hne₂ : b₂ = b
      · rw [hne₂, hself] at hfind₂
        exact absurd (hone name hfind₂ b₁ hb₁ hne₁) hfind₁
      · rw [ht.block_other hlen hne₂] at hfind₂
        exact h.unique b₁ hb₁ b₂ hb₂ name hfind₁ hfind₂

theorem named_congr (h : Directory cap known fuel fs dir_ino dir blocks)
    (h' : Directory cap known fuel t dir_ino dir blocks)
    (hall : ∀ b ∈ blocks, find (t.block b) name = find (fs.block b) name) :
    t.named blocks name = fs.named blocks name := by
  apply Option.ext
  intro ino
  rw [h'.named_eq_some_iff, h.named_eq_some_iff]
  constructor
  · rintro ⟨b, hb, hfind⟩
    exact ⟨b, hb, (hall b hb).symm.trans hfind⟩
  · rintro ⟨b, hb, hfind⟩
    exact ⟨b, hb, (hall b hb).trans hfind⟩

theorem named_bounds (h : Directory cap known fuel fs dir_ino dir blocks) (hnamed : fs.named blocks name = some ino) :
    0 < ino ∧ ino < 2 ^ 32 := by
  obtain ⟨b, -, hfind⟩ := h.named_eq_some_iff.mp hnamed
  exact find_bounds hfind

end Directory

/-! ## Unlinking -/

/-- The name is gone. Below 64 KiB no other one is, and there is room for one as long. -/
structure Unlinked (cap : Nat) (blocks : List Nat) (name : Bytes) (fs t : Mount Disk) : Prop where
  only_blocks : OnlyBlocks blocks fs t
  through : Through cap (fun m => m = fs.io.state ∨ m = t.io.state) fs t
  gone : t.named blocks name = none
  fades : ∀ other, t.named blocks other = none ∨ t.named blocks other = fs.named blocks other
  keeps : usable fs.sb (Seed.of fs.sb) < 65536 → ∀ other, other ≠ name →
    t.named blocks other = fs.named blocks other
  room : usable fs.sb (Seed.of fs.sb) < 65536 → ∀ name' : Bytes, name'.length = name.length → ∀ ino file_type,
    ∃ b ∈ blocks, inserted (t.block b) (usable fs.sb (Seed.of fs.sb)) name' ino file_type ≠ none
  roomy : usable fs.sb (Seed.of fs.sb) < 65536 → ∀ name' ino file_type, ∀ b ∈ blocks,
    inserted (fs.block b) (usable fs.sb (Seed.of fs.sb)) name' ino file_type ≠ none →
      inserted (t.block b) (usable fs.sb (Seed.of fs.sb)) name' ino file_type ≠ none

theorem Unlinked.of_same {name : Bytes} (hs : fs.Same s) (hread : Through cap (· = fs.io.state) fs s)
    (h : Unlinked cap blocks name s t) : Unlinked cap blocks name fs t := by
  have hsb := hs.sb
  refine ⟨(OnlyBlocks.of_same hs).trans h.only_blocks, ?_, h.gone, fun other => ?_, ?_, ?_, ?_⟩
  · refine (hread.mono fun m hm => .inl hm).trans (h.through.mono fun m hm => ?_)
    rwa [hs.state] at hm
  · rw [← hs.named]
    exact h.fades other
  · rw [← hsb]
    intro hlt other hne
    rw [← hs.named]
    exact h.keeps hlt other hne
  · rw [← hsb]
    exact h.room
  · rw [← hsb]
    intro hlt name' ino file_type b hb
    rw [← hs.block]
    exact h.roomy hlt name' ino file_type b hb

namespace Directory

variable {b ino : Nat} {block : Bytes}

theorem unlinked (h : Directory cap known fuel fs dir_ino dir blocks) (hb : b ∈ blocks)
    (hremoved : removed (fs.block b) (usable fs.sb (Seed.of fs.sb)) name = some (ino, block))
    (ht : Edited cap b (signed_dir_block (Seed.of fs.sb) dir_ino dir.generation block) fs t) :
    Directory cap known fuel t dir_ino dir blocks ∧ Unlinked cap blocks name fs t := by
  have hblock := ((h.readable b hb).removed hremoved).signed dir_ino dir.generation (h.signable b).1
    (h.signable b).2
  have hlen := hblock.length.trans (length_block fs b)
  have hfound := (h.readable b hb).removed_eq name
  rw [hremoved, Option.map_some] at hfound
  have hself := ht.block_self hlen
  have hdir : Directory cap known fuel t dir_ino dir blocks := by
    refine h.edited hb hlen ht hblock.readable fun other hfind => .inl ?_
    rwa [← (hblock.fades other).resolve_left hfind]
  refine ⟨hdir, ht.only_blocks hb hlen, ht.through, ?_, fun other => ?_, fun hlt other hne => ?_,
    fun hlt name' hname' ino' file_type => ⟨b, hb, ?_⟩, fun hlt name' ino' file_type b' hb' hroom => ?_⟩
  · rw [named_eq_none_iff]
    intro b' hb'
    by_cases hne : b' = b
    · rw [hne, hself]
      exact hblock.gone
    · rw [ht.block_other hlen hne]
      by_contra hsome
      exact hne (h.unique b' hb' b hb name hsome (by rw [← hfound]; simp))
  · rcases hnamed : t.named blocks other with - | ino'
    · exact .inl rfl
    · right
      obtain ⟨b', hb', hfind⟩ := hdir.named_eq_some_iff.mp hnamed
      refine (h.named_eq_some_iff.mpr ⟨b', hb', ?_⟩).symm
      by_cases hne : b' = b
      · rw [hne, hself] at hfind
        rw [hne, ← (hblock.fades other).resolve_left (by rw [hfind]; simp), hfind]
      · rwa [ht.block_other hlen hne] at hfind
  · refine h.named_congr hdir fun b' hb' => ?_
    by_cases hne' : b' = b
    · rw [hne', hself]
      exact hblock.keeps hlt other hne
    · rw [ht.block_other hlen hne']
  · rw [hself]
    exact hblock.room hlt name' hname' ino' file_type
  · by_cases hne : b' = b
    · rw [hne] at hroom ⊢
      rw [hself]
      exact hblock.roomy hlt name' ino' file_type hroom
    · rwa [ht.block_other hlen hne]

/-- What `unlink_file` comes to in a directory that can be changed. -/
theorem unlink_run (h : Directory cap known fuel fs dir_ino dir blocks) {seed : Seed}
    (hseed : Seed.for_writing fs.sb = .ok seed) (hname : validate_name name = .ok ()) :
    (∃ ino t, unlink_file (memory cap known) fuel dir_ino name fs = .ok ino t ∧ fs.named blocks name = some ino ∧
      Directory cap known fuel t dir_ino dir blocks ∧ Unlinked cap blocks name fs t) ∨
    fs.named blocks name = none ∧ ∃ e t, unlink_file (memory cap known) fuel dir_ino name fs = .error (.err e) t := by
  obtain rfl := for_writing_seed hseed
  obtain ⟨u, hopen, hu⟩ := h.open_dir "modifying"
  have hread : Through cap (· = fs.io.state) fs u :=
    (Quiet.open_dir (R := still cap fs) dir_ino "modifying").through (.refl fs) hopen
  obtain ⟨-, places, v, hmap, hplaces⟩ := (h.same hu).reads u (.of_same (.refl u))
  have hrun : unlink_file (memory cap known) fuel dir_ino name fs = edit_in_blocks (memory cap known) fuel dir
      (unlink_edit (Seed.of fs.sb) dir_ino dir.generation name) (.NotFound (Utf8.text name))
      (dir_blocks u.sb dir) u := by
    rw [unlink_file]
    have hget : (get : FsM Disk (Mount Disk)) fs = .ok fs fs := rfl
    rw [Run.bind_eq_of_ok hget, Run.bind_eq_of_ok (check_eq hseed fs), Run.bind_eq_of_ok (check_eq hname fs),
      Run.bind_eq_of_ok hopen]
    have hget' : (get : FsM Disk (Mount Disk)) u = .ok u u := rfl
    rw [Run.bind_eq_of_ok hget', unlink_in_blocks_eq]
  have hedit : ∀ b ∈ blocks, unlink_edit (Seed.of fs.sb) dir_ino dir.generation name u.sb (u.block b) =
      (removed (fs.block b) (usable fs.sb (Seed.of fs.sb)) name).map fun p =>
        (p.1, signed_dir_block (Seed.of fs.sb) dir_ino dir.generation p.2) := by
    intro b _
    rw [hu.block, hu.sb, unlink_edit_eq]
  have hspec := edit_in_blocks_spec (unlink_edit (Seed.of fs.sb) dir_ino dir.generation name)
    (.NotFound (Utf8.text name)) _ hmap
  rw [hplaces] at hspec
  have hlength : ∀ b ∈ blocks, ∀ a block,
      unlink_edit (Seed.of fs.sb) dir_ino dir.generation name u.sb (u.block b) = some (a, block) →
      block.length = u.sb.block_size := by
    intro b hb a block hsome
    rw [hedit b hb, Option.map_eq_some_iff] at hsome
    obtain ⟨⟨ino', block'⟩, hremoved, heq⟩ := hsome
    obtain ⟨-, rfl⟩ := Prod.mk.inj heq
    rw [(signed_within _ _ _ _).1, ((h.readable b hb).removed hremoved).length, length_block, hu.sb]
  rcases hspec (h.same hu).placed hlength with ⟨b, hb, ino, block, t, hsome, hok, ht⟩ | ⟨hnone, t, herr, -⟩
  · rw [hedit b hb, Option.map_eq_some_iff] at hsome
    obtain ⟨⟨ino', block'⟩, hremoved, heq⟩ := hsome
    obtain ⟨rfl, rfl⟩ := Prod.mk.inj heq
    obtain ⟨hdir, hunlinked⟩ := h.unlinked hb hremoved (ht.of_read hu hread)
    have hfound := (h.readable b hb).removed_eq name
    rw [hremoved, Option.map_some] at hfound
    exact .inl ⟨ino', t, hrun.trans hok, h.named_eq_some_iff.mpr ⟨b, hb, hfound.symm⟩, hdir, hunlinked⟩
  · refine .inr ⟨named_eq_none_iff.mpr fun b hb => ?_, _, t, hrun.trans herr⟩
    have hremoved := hnone b hb
    rw [hedit b hb, Option.map_eq_none_iff] at hremoved
    rw [← (h.readable b hb).removed_eq name, hremoved]
    rfl

theorem unlink (h : Directory cap known fuel fs dir_ino dir blocks) {seed : Seed}
    (hseed : Seed.for_writing fs.sb = .ok seed) (hname : validate_name name = .ok ())
    (hnamed : fs.named blocks name = some ino) :
    ∃ t, unlink_file (memory cap known) fuel dir_ino name fs = .ok ino t ∧
      Directory cap known fuel t dir_ino dir blocks ∧ Unlinked cap blocks name fs t := by
  rcases h.unlink_run hseed hname with ⟨ino', t, hrun, hnamed', hdir, hunlinked⟩ | ⟨hnone, -⟩
  · obtain rfl := Option.some.inj (hnamed.symm.trans hnamed')
    exact ⟨t, hrun, hdir, hunlinked⟩
  · cases hnamed.symm.trans hnone

end Directory

/-! ## Linking -/

/-- The name is there, and all others stand for what they stood for. -/
structure Linked (blocks : List Nat) (name : Bytes) (ino : Nat) (fs t : Mount Disk) : Prop where
  only_blocks : OnlyBlocks blocks fs t
  named : t.named blocks name = some ino
  keeps : ∀ other, other ≠ name → t.named blocks other = fs.named blocks other

theorem Linked.of_same {name : Bytes} {ino : Nat} (hs : fs.Same s) (h : Linked blocks name ino s t) :
    Linked blocks name ino fs t where
  only_blocks := (OnlyBlocks.of_same hs).trans h.only_blocks
  named := h.named
  keeps other hne := (h.keeps other hne).trans (hs.named other)

namespace Directory

variable {b ino : Nat} {block : Bytes} {file_type : FileType}

theorem linked (h : Directory cap known fuel fs dir_ino dir blocks) (hb : b ∈ blocks)
    (hname : validate_name name = .ok ()) (hino : 0 < ino ∧ ino < 2 ^ 32) (hnone : fs.named blocks name = none)
    (hinserted : inserted (fs.block b) (usable fs.sb (Seed.of fs.sb)) name ino file_type = some block)
    (ht : Edited cap b (signed_dir_block (Seed.of fs.sb) dir_ino dir.generation block) fs t) :
    Directory cap known fuel t dir_ino dir blocks ∧ Linked blocks name ino fs t := by
  have hfresh := named_eq_none_iff.mp hnone
  have hblock := ((h.readable b hb).inserted hname hino (hfresh b hb) hinserted).signed dir_ino
    dir.generation (h.signable b).1 (h.signable b).2
  have hlen := hblock.length.trans (length_block fs b)
  have hself := ht.block_self hlen
  have hdir : Directory cap known fuel t dir_ino dir blocks := by
    refine h.edited hb hlen ht hblock.readable fun other hfind => ?_
    by_cases hother : other = name
    · rw [hother]
      exact .inr hnone
    · left
      rwa [← hblock.keeps other hother]
  refine ⟨hdir, ht.only_blocks hb hlen, ?_, fun other hne => ?_⟩
  · rw [hdir.named_eq_some_iff]
    exact ⟨b, hb, by rw [hself, hblock.named]⟩
  · refine h.named_congr hdir fun b' hb' => ?_
    by_cases hne' : b' = b
    · rw [hne', hself]
      exact hblock.keeps other hne
    · rw [ht.block_other hlen hne']

/-- It fails only where no block has the room, and changes nothing then. -/
theorem link (h : Directory cap known fuel fs dir_ino dir blocks) {seed : Seed}
    (hseed : Seed.for_writing fs.sb = .ok seed) (hname : validate_name name = .ok ())
    (hino : 0 < ino ∧ ino < 2 ^ 32) (hnone : fs.named blocks name = none) (file_type : FileType) :
    (∃ t, link_file (memory cap known) fuel dir_ino name ino file_type fs = .ok () t ∧
      Directory cap known fuel t dir_ino dir blocks ∧ Linked blocks name ino fs t) ∨
    (∀ b ∈ blocks, inserted (fs.block b) (usable fs.sb (Seed.of fs.sb)) name ino file_type = none) ∧
      ∃ e t, link_file (memory cap known) fuel dir_ino name ino file_type fs = .error (.err e) t ∧ fs.Same t := by
  obtain rfl := for_writing_seed hseed
  obtain ⟨u₀, hopen, hu₀⟩ := h.open_dir "writing into"
  have hread₀ : Through cap (· = fs.io.state) fs u₀ :=
    (Quiet.open_dir (R := still cap fs) dir_ino "writing into").through (.refl fs) hopen
  obtain ⟨u, hfind, hu'⟩ := (h.same hu₀).find_entry name
  rw [hu₀.named, hnone] at hfind
  have hu := hu₀.trans hu'
  have hread : Through cap (· = fs.io.state) fs u := by
    have hread' : Through cap (· = u₀.io.state) u₀ u :=
      (Quiet.find_entry (R := still cap u₀) trivial fuel dir name).through (.refl u₀) hfind
    rw [hu₀.state] at hread'
    exact hread₀.trans hread'
  obtain ⟨-, places, v, hmap, hplaces⟩ := (h.same hu).reads u (.of_same (.refl u))
  have hrun : link_file (memory cap known) fuel dir_ino name ino file_type fs = edit_in_blocks (memory cap known) fuel
      dir (link_edit (Seed.of fs.sb) dir_ino dir.generation name ino file_type)
        (.UnsupportedFsFeature "directory is full and extending a directory is not implemented")
        (dir_blocks u.sb dir) u := by
    rw [link_file]
    have hget : (get : FsM Disk (Mount Disk)) fs = .ok fs fs := rfl
    rw [Run.bind_eq_of_ok hget, Run.bind_eq_of_ok (check_eq hseed fs), Run.bind_eq_of_ok (check_eq hname fs),
      Run.bind_eq_of_ok hopen, Run.bind_eq_of_ok hfind, if_neg (by simp)]
    beta_reduce
    have hget' : (get : FsM Disk (Mount Disk)) u = .ok u u := rfl
    rw [Run.bind_eq_of_ok hget', link_in_blocks_eq]
  have hedit : ∀ b ∈ blocks, link_edit (Seed.of fs.sb) dir_ino dir.generation name ino file_type u.sb (u.block b) =
      (inserted (fs.block b) (usable fs.sb (Seed.of fs.sb)) name ino file_type).map fun block =>
        ((), signed_dir_block (Seed.of fs.sb) dir_ino dir.generation block) := by
    intro b _
    rw [hu.block, hu.sb, link_edit_eq]
  have hspec := edit_in_blocks_spec (link_edit (Seed.of fs.sb) dir_ino dir.generation name ino file_type)
    (.UnsupportedFsFeature "directory is full and extending a directory is not implemented") _ hmap
  rw [hplaces] at hspec
  have hlength : ∀ b ∈ blocks, ∀ a block,
      link_edit (Seed.of fs.sb) dir_ino dir.generation name ino file_type u.sb (u.block b) = some (a, block) →
      block.length = u.sb.block_size := by
    intro b hb a block hsome
    rw [hedit b hb, Option.map_eq_some_iff] at hsome
    obtain ⟨block', hinserted, heq⟩ := hsome
    obtain ⟨-, rfl⟩ := Prod.mk.inj heq
    have hold := named_eq_none_iff.mp hnone b hb
    rw [(signed_within _ _ _ _).1, ((h.readable b hb).inserted hname hino hold hinserted).length, length_block, hu.sb]
  rcases hspec (h.same hu).placed hlength with ⟨b, hb, ⟨⟩, block, t, hsome, hok, ht⟩ | ⟨hfull, t, herr, ht⟩
  · rw [hedit b hb, Option.map_eq_some_iff] at hsome
    obtain ⟨block', hinserted, heq⟩ := hsome
    obtain ⟨-, rfl⟩ := Prod.mk.inj heq
    exact .inl ⟨t, hrun.trans hok, h.linked hb hname hino hnone hinserted (ht.of_read hu hread)⟩
  · refine .inr ⟨fun b hb => ?_, _, t, hrun.trans herr, hu.trans ht⟩
    have hnone' := hfull b hb
    rwa [hedit b hb, Option.map_eq_none_iff] at hnone'

end Directory

end LuksAndroid.Ext4
