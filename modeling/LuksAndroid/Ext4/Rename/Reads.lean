import LuksAndroid.Ext4.DirBlock.Lookup
import LuksAndroid.Ext4.Quiet

/-!
# Looking a name up

What a lookup finds is in the bytes of the directory's blocks. Where these are is found by
reading too, and reading again finds the same.
-/

namespace LuksAndroid.Ext4

open Word

/-! ## Reading again -/

/-- A call that reads, and does not see what was asked before. -/
def Blind {α : Type} (x : FsM Disk α) : Prop :=
  ∀ fs s a t, fs.Same s → x fs = .ok a t → ∃ t', x s = .ok a t' ∧ s.Same t'

namespace Blind

variable {α β : Type} {x : FsM Disk α}

theorem pure (a : α) : Blind (pure a) := by
  intro fs s b t _ hrun
  obtain ⟨rfl, -⟩ := Run.pure_ok.mp hrun
  exact ⟨s, rfl, .refl s⟩

theorem fail (e : LuksError) : Blind (fail e : FsM Disk α) := by
  intro fs s b t _ hrun
  cases hrun

theorem check (y : Except LuksError α) : Blind (check y) := by
  cases y with
  | ok a => exact pure a
  | error e => exact fail e

theorem bind {f : α → FsM Disk β} (hx : Blind x) (hf : ∀ a, Blind (f a)) : Blind (x >>= f) := by
  intro fs s b t hsame hrun
  obtain ⟨a, u, hfirst, hrest⟩ := Run.bind_ok.mp hrun
  obtain ⟨s', hfirst', hs'⟩ := hx fs s a u hsame hfirst
  obtain ⟨u', hback, hu⟩ := hx fs fs a u (.refl fs) hfirst
  obtain rfl : u = u' := by
    rw [hfirst] at hback
    cases hback
    rfl
  have hsame' : u.Same s' :=
    ⟨(hs'.sb.trans hsame.sb).trans hu.sb.symm, (hs'.groups.trans hsame.groups).trans hu.groups.symm,
      (hs'.state.trans hsame.state).trans hu.state.symm⟩
  obtain ⟨t', hrest', ht'⟩ := hf a u s' b t hsame' hrest
  exact ⟨t', Run.bind_ok.mpr ⟨a, s', hfirst', hrest'⟩, hs'.trans ht'⟩

theorem get_bind {f : Mount Disk → FsM Disk β} (hsame : ∀ fs s, fs.Same s → f s = f fs)
    (hf : ∀ fs, Blind (f fs)) : Blind (get >>= f) := by
  intro fs s b t hs hrun
  have hrun' : f fs fs = .ok b t := hrun
  obtain ⟨t', ht', hst⟩ := hf fs fs s b t hs hrun'
  refine ⟨t', ?_, hst⟩
  change f s s = .ok b t'
  rw [hsame fs s hs]
  exact ht'

theorem ite {c : Prop} [Decidable c] {y : FsM Disk α} (hx : Blind x) (hy : Blind y) : Blind (if c then x else y) := by
  split
  · exact hx
  · exact hy

theorem guard {c : Prop} [Decidable c] {e : LuksError} {f : PUnit → FsM Disk β} {y : FsM Disk β}
    (hy : Blind y) : Blind (if c then Ext4.fail e >>= f else y) := by
  split
  · intro fs s b t _ hrun
    cases hrun
  · exact hy

section

variable {cap : Nat} {known : Bool}

theorem read_at (offset n : Nat) : Blind (read_at (memory cap known) offset n) := by
  intro fs s b t hsame hrun
  by_cases hcap : offset + n ≤ cap
  · rw [read_at_of_le known fs hcap] at hrun
    cases hrun
    refine ⟨s.logged (.read offset n), ?_, s.same_logged _⟩
    rw [read_at_of_le known s hcap, hsame.state]
  · obtain ⟨u, herr, -⟩ := read_at_of_lt known fs hcap
    rw [herr] at hrun
    cases hrun

theorem read_block (block n : Nat) : Blind (read_block (memory cap known) block n) :=
  get_bind (fun fs s hs => by rw [hs.sb]) fun _ => guard (read_at _ _)

theorem read_inode (ino : Nat) : Blind (read_inode (memory cap known) ino) :=
  bind (get_bind (fun fs s hs => by rw [hs.sb, hs.groups]) fun _ => (check _).bind fun _ => read_at _ _)
    fun _ => pure _

theorem map_run_extents (lblock fuel : Nat) (node : Bytes) :
    Blind (map_run_extents (memory cap known) lblock fuel node) := by
  induction fuel generalizing node with
  | zero =>
    intro fs s a t _ hrun
    cases hrun
  | succ fuel ih =>
    rw [Ext4.map_run_extents]
    refine guard (guard (ite (pure _) ?_))
    cases index_child node lblock (List.range (node.get 2 2)) none with
    | none => exact fail _
    | some child => exact get_bind (fun fs s hs => by rw [hs.sb]) fun _ => (read_block _ _).bind fun buf => ih buf

theorem walk_indirect (per_block level ptr idx : Nat) :
    Blind (walk_indirect (memory cap known) per_block level ptr idx) := by
  induction level generalizing ptr idx with
  | zero => exact pure _
  | succ level ih =>
    refine get_bind (fun fs s hs => by rw [hs.sb]) fun _ => (read_block _ _).bind fun buf => ?_
    cases direct buf (idx / per_block ^ level) with
    | none => exact pure _
    | some next => exact ih _ _

theorem map_slot (inode : Inode) (per_block depth slot idx : Nat) :
    Blind (map_slot (memory cap known) inode per_block depth slot idx) := by
  rw [Ext4.map_slot]
  cases direct inode.block_area slot with
  | none => exact pure _
  | some ptr => exact walk_indirect _ _ _ _

theorem map_block (fuel : Nat) (inode : Inode) (lblock : Nat) :
    Blind (map_block (memory cap known) fuel inode lblock) := by
  refine bind (ite (map_run_extents _ _ _) (bind ?_ fun _ => pure _)) fun _ => pure _
  exact get_bind (fun fs s hs => by rw [hs.sb]) fun _ => ite (pure _) (ite (map_slot _ _ _ _ _)
    (ite (map_slot _ _ _ _ _) (ite (map_slot _ _ _ _ _) (pure _))))

theorem collect_leaves (children : List Nat) : Blind (collect_leaves (memory cap known) children) := by
  induction children with
  | nil => exact pure _
  | cons child rest ih =>
    exact get_bind (fun fs s hs => by rw [hs.sb]) fun _ => (read_block _ _).bind fun _ =>
      guard (guard (guard (ih.bind fun _ => pure _)))

theorem collect_extents (inode : Inode) : Blind (collect_extents (memory cap known) inode) :=
  ite (pure _) (guard (guard (guard (ite (pure _) (ite ((collect_leaves _).bind fun _ => pure _) (fail _))))))

end

end Blind

theorem Blind.eq {α : Type} {x : FsM Disk α} (hx : Blind x) {fs s u v : Mount Disk} (hs : fs.Same s) {a b : α}
    (hrun : x fs = .ok a u) (hrun' : x s = .ok b v) : a = b := by
  obtain ⟨w, hagain, -⟩ := hx fs s a u hs hrun
  have heq := hagain.symm.trans hrun'
  cases heq
  rfl

/-! ## The blocks of a directory -/

/-- Where the blocks of a file are. -/
def map_blocks {σ : Type} (d : WriteAt σ) (fuel : Nat) (inode : Inode) : List Nat → FsM σ (List (Option Nat))
  | [] => return []
  | lblock :: rest => do
    let phys ← map_block d fuel inode lblock
    return phys :: (← map_blocks d fuel inode rest)

/-- What the bytes of these blocks hold under a name. -/
def lookup (bs : Nat) (m : Disk) (blocks : List Nat) (name : Bytes) : Option Nat :=
  blocks.findSome? fun b => find (load m (b * bs) bs) name

theorem lookup_cons (bs : Nat) (m : Disk) (b : Nat) (rest : List Nat) (name : Bytes) :
    lookup bs m (b :: rest) name = (find (load m (b * bs) bs) name).or (lookup bs m rest name) := by
  rw [lookup, List.findSome?_cons]
  cases find (load m (b * bs) bs) name with
  | none => rfl
  | some ino => rfl

theorem lookup_eq_none_iff {bs : Nat} {m : Disk} {blocks : List Nat} {name : Bytes} :
    lookup bs m blocks name = none ↔ ∀ b ∈ blocks, find (load m (b * bs) bs) name = none :=
  List.findSome?_eq_none_iff

theorem lookup_congr {bs : Nat} {m m' : Disk} {blocks : List Nat}
    (h : ∀ b ∈ blocks, load m (b * bs) bs = load m' (b * bs) bs)
    (name : Bytes) : lookup bs m blocks name = lookup bs m' blocks name := by
  induction blocks with
  | nil => rfl
  | cons b rest ih =>
    rw [lookup_cons, lookup_cons, h b List.mem_cons_self, ih fun b' hb' => h b' (List.mem_cons_of_mem b hb')]

section

variable {cap : Nat} {known : Bool} {fuel : Nat} {dir : Inode} {name : Bytes}

theorem Blind.map_blocks (lblocks : List Nat) : Blind (map_blocks (memory cap known) fuel dir lblocks) := by
  induction lblocks with
  | nil => exact pure _
  | cons lblock rest ih => exact (map_block _ _ _).bind fun _ => ih.bind fun _ => pure _

theorem map_blocks_cons {lblock : Nat} {rest : List Nat} {places : List (Option Nat)} {s t : Mount Disk}
    (h : map_blocks (memory cap known) fuel dir (lblock :: rest) s = .ok places t) :
    ∃ phys more u, places = phys :: more ∧ map_block (memory cap known) fuel dir lblock s = .ok phys u ∧ s.Same u ∧
      ∃ t', map_blocks (memory cap known) fuel dir rest u = .ok more t' := by
  rw [map_blocks] at h
  obtain ⟨phys, u, hfirst, hrest⟩ := Run.bind_ok.mp h
  obtain ⟨more, t', hmore, hpure⟩ := Run.bind_ok.mp hrest
  obtain ⟨u', hagain, hsame⟩ := Blind.map_block fuel dir lblock s s phys u (.refl s) hfirst
  obtain rfl : u = u' := by
    rw [hfirst] at hagain
    cases hagain
    rfl
  exact ⟨phys, more, u, (Run.pure_ok.mp hpure).1.symm, hfirst, hsame, t', hmore⟩

/-- The code computes the offset of the block, and the device has it. -/
structure Placed (cap : Nat) (sb : Superblock) (b : Nat) : Prop where
  offset : sb.metadata_block_offset b = .ok (b * sb.block_size)
  inside : b * sb.block_size + sb.block_size ≤ cap

theorem check_eq {α σ : Type} {y : Except LuksError α} {a : α} (h : y = .ok a) (s : Mount σ) :
    check y s = .ok a s := by
  rw [h]
  rfl

theorem read_placed {α : Type} {s : Mount Disk} {b : Nat} (h : Placed cap s.sb b)
    (f : Mount Disk → Nat → Bytes → FsM Disk α) :
    (get >>= fun fs : Mount Disk => check (fs.sb.metadata_block_offset b) >>= fun offset =>
      read_at (memory cap known) offset fs.sb.block_size >>= fun block => f fs offset block) s =
    f s (b * s.sb.block_size) (load s.io.state (b * s.sb.block_size) s.sb.block_size)
      (s.logged (.read (b * s.sb.block_size) s.sb.block_size)) := by
  have hget : (get : FsM Disk (Mount Disk)) s = .ok s s := rfl
  rw [Run.bind_eq_of_ok hget, Run.bind_eq_of_ok (check_eq h.offset s),
    Run.bind_eq_of_ok (read_at_of_le known s h.inside)]

theorem placed_of_same {s t : Mount Disk} {blocks : List Nat} (h : ∀ b ∈ blocks, Placed cap s.sb b)
    (hsame : s.Same t) : ∀ b ∈ blocks, Placed cap t.sb b := by
  rw [hsame.sb]
  exact h

theorem find_in_blocks_eq (lblocks : List Nat) : ∀ {places : List (Option Nat)} {s t : Mount Disk},
    map_blocks (memory cap known) fuel dir lblocks s = .ok places t →
    (∀ b ∈ places.reduceOption, Placed cap s.sb b) →
    ∃ t', find_in_blocks (memory cap known) fuel dir name lblocks s =
      .ok (lookup s.sb.block_size s.io.state places.reduceOption name) t' ∧ s.Same t' := by
  induction lblocks with
  | nil =>
    intro places s t hmap _
    obtain ⟨rfl, -⟩ := Run.pure_ok.mp hmap
    exact ⟨s, rfl, .refl s⟩
  | cons lblock rest ih =>
    intro places s t hmap hplaced
    obtain ⟨phys, more, u, rfl, hfirst, hu, t', hrest⟩ := map_blocks_cons hmap
    rw [find_in_blocks, Run.bind_eq_of_ok hfirst]
    cases phys with
    | none =>
      rw [List.reduceOption_cons_of_none] at hplaced ⊢
      obtain ⟨v, hrun, hv⟩ := ih hrest (placed_of_same hplaced hu)
      rw [hu.sb, hu.state] at hrun
      exact ⟨v, hrun, hu.trans hv⟩
    | some b =>
      rw [List.reduceOption_cons_of_some] at hplaced ⊢
      have hb : Placed cap u.sb b := placed_of_same hplaced hu b List.mem_cons_self
      have hmore := fun b' hb' => hplaced b' (List.mem_cons_of_mem b hb')
      have hv := u.same_logged (.read (b * u.sb.block_size) u.sb.block_size)
      have hfind : find (load s.io.state (b * s.sb.block_size) s.sb.block_size) name =
          find_in_block (load u.io.state (b * u.sb.block_size) u.sb.block_size) name u.sb.block_size
            u.sb.block_size 0 := by
        rw [find, length_load, hu.sb, hu.state]
      dsimp only
      rw [read_placed hb, lookup_cons, hfind]
      cases find_in_block (load u.io.state (b * u.sb.block_size) u.sb.block_size) name u.sb.block_size
          u.sb.block_size 0 with
      | some ino => exact ⟨_, rfl, hu.trans hv⟩
      | none =>
        obtain ⟨t'', hrest', -⟩ := Blind.map_blocks rest u _ more t' hv hrest
        obtain ⟨w, hrun, hw⟩ := ih hrest' (placed_of_same hmore (hu.trans hv))
        rw [(hu.trans hv).state] at hrun
        refine ⟨w, hrun.trans ?_, (hu.trans hv).trans hw⟩
        change EStateM.Result.ok (lookup u.sb.block_size _ _ _) w = _
        rw [hu.sb, Option.none_or]

end

end LuksAndroid.Ext4
