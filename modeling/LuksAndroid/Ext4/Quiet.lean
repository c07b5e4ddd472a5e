import LuksAndroid.Ext4.Logic

/-!
# Reading

A call that only reads is tame under any rules that let it go on for ever, and it leaves the
mount as it was, up to the record.
-/

namespace LuksAndroid.Ext4

open Word

theorem Mount.Same.refl (fs : Mount Disk) : fs.Same fs := ⟨rfl, rfl, rfl⟩

theorem Mount.Same.trans {fs fs' fs'' : Mount Disk} (h : fs.Same fs') (h' : fs'.Same fs'') : fs.Same fs'' :=
  ⟨h'.sb.trans h.sb, h'.groups.trans h.groups, h'.state.trans h.state⟩

theorem Mount.same_logged (fs : Mount Disk) (a : Access) : fs.Same (fs.logged a) := ⟨rfl, rfl, rfl⟩

/-- The rules, and nothing may change any more. -/
def Rules.fixed (R : Rules) (fs : Mount Disk) : Rules :=
  { R with
    inv := fun s => R.inv s ∧ fs.Same s
    quiet := fun s s' h hs => ⟨R.quiet s s' h.1 hs, h.2.trans hs⟩ }

theorem Rules.fixed_self {R : Rules} {fs : Mount Disk} (h : R.inv fs) : (R.fixed fs).inv fs := ⟨h, .refl fs⟩

/-- A call that changes nothing. -/
def Quiet (R : Rules) {α : Type} (x : FsM Disk α) : Prop :=
  ∀ fs, R.inv fs → Tame (R.fixed fs) x fs fun _ _ => True

namespace Quiet

variable {R : Rules} {α β : Type} {x : FsM Disk α}

theorem tame (hx : Quiet R x) {fs : Mount Disk} (h : R.inv fs) : Tame R x fs fun _ s => fs.Same s :=
  ((hx fs h).weaken fun _ _ hi _ => hi.2).mono rfl (fun _ h => h) (fun _ h => h) fun _ h => h.1

theorem pure (a : α) : Quiet R (pure a) := fun _ h => .pure (Rules.fixed_self h) trivial

theorem fail (e : LuksError) : Quiet R (fail e : FsM Disk α) := fun _ h => .fail (Rules.fixed_self h) e

theorem spin (hspin : R.halts .spin) : Quiet R (throw .spin : FsM Disk α) :=
  fun _ h => .throw (Rules.fixed_self h) hspin

theorem check (y : Except LuksError α) : Quiet R (check y) :=
  fun _ h => .check (Rules.fixed_self h) fun _ _ => trivial

theorem bind {f : α → FsM Disk β} (hx : Quiet R x) (hf : ∀ a, Quiet R (f a)) : Quiet R (x >>= f) :=
  fun fs h => (hx fs h).bind fun a s _ hi =>
    (hf a s hi.1).mono rfl (fun _ h => h) (fun _ h => h) fun _ h' => ⟨h'.1, hi.2.trans h'.2⟩

theorem get_bind {f : Mount Disk → FsM Disk β} (hf : ∀ fs, Quiet R (f fs)) : Quiet R (get >>= f) :=
  fun fs h => .get_bind (hf fs fs h)

theorem ite {c : Prop} [Decidable c] {y : FsM Disk α} (hx : Quiet R x) (hy : Quiet R y) :
    Quiet R (if c then x else y) := by
  split
  · exact hx
  · exact hy

theorem guard {c : Prop} [Decidable c] {e : LuksError} {f : PUnit → FsM Disk β} {y : FsM Disk β}
    (hy : Quiet R y) : Quiet R (if c then Ext4.fail e >>= f else y) :=
  fun fs h => .guard (fun _ => .fail (Rules.fixed_self h) e) fun _ => hy fs h

theorem ignore (hx : Quiet R x) : Quiet R (ignore x) := fun fs h => (hx fs h).ignore

/-! ## Inodes and their blocks -/

section

variable {known : Bool}

theorem read_at (offset n : Nat) : Quiet R (read_at (memory R.cap known) offset n) :=
  fun fs h => (Tame.read (R := R.fixed fs) known (Rules.fixed_self h) offset n).weaken fun _ _ _ _ => trivial

theorem read_block (block n : Nat) : Quiet R (read_block (memory R.cap known) block n) :=
  .get_bind fun _ => .guard (read_at _ _)

theorem read_raw_inode (ino : Nat) : Quiet R (read_raw_inode (memory R.cap known) ino) :=
  .get_bind fun _ => (check _).bind fun _ => read_at _ _

theorem read_inode (ino : Nat) : Quiet R (read_inode (memory R.cap known) ino) :=
  (read_raw_inode ino).bind fun _ => pure _

theorem map_run_extents (hspin : R.halts .spin) (lblock fuel : Nat) (node : Bytes) :
    Quiet R (map_run_extents (memory R.cap known) lblock fuel node) := by
  induction fuel generalizing node with
  | zero => exact spin hspin
  | succ fuel ih =>
    rw [Ext4.map_run_extents]
    refine .guard (.guard (.ite (pure _) ?_))
    cases index_child node lblock (List.range (node.get 2 2)) none with
    | none => exact fail _
    | some child => exact .get_bind fun _ => (read_block _ _).bind fun buf => ih buf

theorem walk_indirect (per_block level ptr idx : Nat) :
    Quiet R (walk_indirect (memory R.cap known) per_block level ptr idx) := by
  induction level generalizing ptr idx with
  | zero => exact pure _
  | succ level ih =>
    refine .get_bind fun _ => (read_block _ _).bind fun buf => ?_
    cases direct buf (idx / per_block ^ level) with
    | none => exact pure _
    | some next => exact ih _ _

theorem map_slot (inode : Inode) (per_block depth slot idx : Nat) :
    Quiet R (map_slot (memory R.cap known) inode per_block depth slot idx) := by
  rw [Ext4.map_slot]
  cases direct inode.block_area slot with
  | none => exact pure _
  | some ptr => exact walk_indirect _ _ _ _

theorem map_via_indirect (inode : Inode) (lblock : Nat) :
    Quiet R (map_via_indirect (memory R.cap known) inode lblock) :=
  .get_bind fun _ => .ite (pure _) (.ite (map_slot _ _ _ _ _) (.ite (map_slot _ _ _ _ _)
    (.ite (map_slot _ _ _ _ _) (pure _))))

theorem map_run (hspin : R.halts .spin) (fuel : Nat) (inode : Inode) (lblock : Nat) :
    Quiet R (map_run (memory R.cap known) fuel inode lblock) :=
  .ite (map_run_extents hspin _ _ _) ((map_via_indirect _ _).bind fun _ => pure _)

theorem map_block (hspin : R.halts .spin) (fuel : Nat) (inode : Inode) (lblock : Nat) :
    Quiet R (map_block (memory R.cap known) fuel inode lblock) :=
  (map_run hspin _ _ _).bind fun _ => pure _

/-! ## Directories -/

theorem find_in_blocks (hspin : R.halts .spin) (fuel : Nat) (dir : Inode) (name : Bytes) (blocks : List Nat) :
    Quiet R (find_in_blocks (memory R.cap known) fuel dir name blocks) := by
  induction blocks with
  | nil => exact pure _
  | cons lblock rest ih =>
    refine (map_block hspin _ _ _).bind fun phys => ?_
    cases phys with
    | none => exact ih
    | some phys =>
      refine .get_bind fun fs => (check _).bind fun offset => (read_at _ _).bind fun block => ?_
      cases find_in_block block name fs.sb.block_size fs.sb.block_size 0 with
      | none => exact ih
      | some ino => exact pure _

theorem find_entry (hspin : R.halts .spin) (fuel : Nat) (dir : Inode) (name : Bytes) :
    Quiet R (find_entry (memory R.cap known) fuel dir name) :=
  .get_bind fun _ => find_in_blocks hspin _ _ _ _

theorem open_dir (dir_ino : Nat) (what : String) : Quiet R (open_dir (memory R.cap known) dir_ino what) :=
  (read_inode _).bind fun _ => .guard (.guard (.guard (pure _)))

theorem list_block (block : Bytes) (bs fuel pos : Nat) :
    Quiet R (list_block (memory R.cap known) block bs fuel pos) := by
  induction fuel generalizing pos with
  | zero => exact pure _
  | succ fuel ih =>
    rw [Ext4.list_block]
    refine .ite (.ite ((read_inode _).ignore.bind fun _ => ?_) ?_) (pure _)
    · exact (ih _).bind fun _ => .ite (pure _) (pure _)
    · exact (ih _).bind fun _ => .ite (pure _) (pure _)

theorem list_blocks (hspin : R.halts .spin) (fuel : Nat) (inode : Inode) (blocks : List Nat) :
    Quiet R (list_blocks (memory R.cap known) fuel inode blocks) := by
  induction blocks with
  | nil => exact pure _
  | cons lblock rest ih =>
    refine (map_block hspin _ _ _).bind fun phys => ?_
    cases phys with
    | none => exact ih
    | some phys =>
      exact .get_bind fun fs => (read_block _ _).bind fun block => (list_block _ _ _ _).bind fun _ =>
        ih.bind fun _ => pure _

theorem list_inode (hspin : R.halts .spin) (fuel : Nat) (inode : Inode) :
    Quiet R (list_inode (memory R.cap known) fuel inode) :=
  .get_bind fun _ => list_blocks hspin _ _ _

/-! ## Paths -/

theorem read_runs (hspin : R.halts .spin) (fuel : Nat) (inode : Inode) (n pos want : Nat) :
    Quiet R (read_runs (memory R.cap known) fuel inode n pos want) := by
  induction n generalizing pos want with
  | zero => exact pure _
  | succ n ih =>
    rw [Ext4.read_runs]
    refine .ite (pure _) (.get_bind fun fs => (map_run hspin _ _ _).bind fun run => ?_)
    obtain ⟨phys, run_blocks⟩ := run
    cases phys with
    | none => exact (ih _ _).bind fun _ => pure _
    | some start => exact .guard ((read_at _ _).bind fun _ => (ih _ _).bind fun _ => pure _)

theorem link_target (hspin : R.halts .spin) (fuel : Nat) (inode : Inode) :
    Quiet R (link_target (memory R.cap known) fuel inode) := by
  have hdata : ∀ n, Quiet R (read_inode_data (memory R.cap known) fuel inode n) :=
    fun n => .ite (pure _) (.ite (.guard (pure _)) (read_runs hspin _ _ _ _ _))
  exact .ite (pure _) ((hdata _).bind fun _ => pure _)

theorem follow (hspin : R.halts .spin) (fuel : Nat) {again : Bytes → FsM Disk Inode} (ha : ∀ p, Quiet R (again p))
    (path : Bytes) (n : Nat) (current : Inode) (walked : List Bytes) :
    Quiet R (follow (memory R.cap known) fuel again path n current walked) := by
  induction n generalizing current walked with
  | zero =>
    rw [Ext4.follow]
    exact .ite (pure _) (fail _)
  | succ n ih =>
    rw [Ext4.follow]
    exact .ite (pure _) ((link_target hspin _ _).bind fun _ => (ha _).bind fun _ => ih _ _)

theorem walk (hspin : R.halts .spin) (fuel : Nat) {again : Bytes → FsM Disk Inode} (ha : ∀ p, Quiet R (again p))
    (path : Bytes) (rest : List Bytes) (current : Inode) (walked : List Bytes) :
    Quiet R (walk (memory R.cap known) fuel again path rest current walked) := by
  induction rest generalizing current walked with
  | nil => exact pure _
  | cons component rest ih =>
    rw [Ext4.walk]
    refine .ite ((ha _).bind fun _ => ih _ _) (.guard ((list_inode hspin _ _).bind fun entries => ?_))
    cases entries.find? (·.name = component) with
    | none => exact fail _
    | some found =>
      exact (read_inode _).bind fun _ => .ite (pure _) ((follow hspin _ ha _ _ _ _).bind fun _ => ih _ _)

theorem resolve_no_follow (hspin : R.halts .spin) (fuel depth : Nat) (path : Bytes) :
    Quiet R (resolve_no_follow (memory R.cap known) fuel depth path) := by
  induction depth generalizing path with
  | zero => exact spin hspin
  | succ depth ih => exact (read_inode _).bind fun _ => walk hspin _ ih _ _ _ _

theorem resolve (hspin : R.halts .spin) (fuel depth : Nat) (path : Bytes) :
    Quiet R (resolve (memory R.cap known) fuel depth path) :=
  (resolve_no_follow hspin _ _ _).bind fun _ => .ite (pure _)
    ((link_target hspin _ _).bind fun _ => resolve_no_follow hspin _ _ _)

/-! ## The blocks of an inode -/

theorem collect_leaves (children : List Nat) : Quiet R (collect_leaves (memory R.cap known) children) := by
  induction children with
  | nil => exact pure _
  | cons child rest ih =>
    exact .get_bind fun _ => (read_block _ _).bind fun _ => .guard (.guard (.guard (ih.bind fun _ => pure _)))

theorem collect_extents (inode : Inode) : Quiet R (collect_extents (memory R.cap known) inode) :=
  .ite (pure _) (.guard (.guard (.guard (.ite (pure _) (.ite ((collect_leaves _).bind fun _ => pure _) (fail _))))))

end

end Quiet

end LuksAndroid.Ext4
