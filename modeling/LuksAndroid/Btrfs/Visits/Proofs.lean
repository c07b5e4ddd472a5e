import LuksAndroid.Btrfs.Visits.Code
import LuksAndroid.Lib.Acyclic
import LuksAndroid.Lib.Run

/-!
# How many nodes a traversal reads

Most traversals read a number of nodes that the size of a node bounds, whatever the nodes
point at, and come to what the plain ones come to. Only `collect_tree_items` ends exactly
if no block below the root leads back to itself.
-/

namespace LuksAndroid.Btrfs

open Metered

/-! ## Parsed nodes -/

namespace Node.Parsed

variable {node_size : Nat} {node : Node} {n : InteriorNode}

theorem level_lt (h : node.Parsed node_size) : node.level < 256 := by
  cases node with
  | leaf l => exact Nat.zero_lt_succ 255
  | interior n => exact h.2.1

theorem length_le (h : Node.Parsed node_size (.interior n)) : n.entries.length ≤ node_size := by
  have hfits := h.2.2.1
  unfold KEY_PTR_SIZE at hfits
  omega

end Node.Parsed

theorem Drive.parsed_of_read {d : Drive} {b : Nat} {n : Node} (h : d.read b = .ok n) :
    n.Parsed d.fs.node_size := d.parsed b n h

namespace Visits

theorem child_level_iff {level parent : Nat} (hlevel : level < 256) (hparent : parent + 1 < 256) :
    (level + 1) % 256 ≠ parent + 1 ↔ level ≠ parent := by
  omega

theorem visit_bind {τ α : Type} (read : Reader) (b : Nat) {f : Node → MeterM LuksError τ Nat α}
    {g : Node → EStateM LuksError τ α} {k : Nat} (h : ∀ n, read b = .ok n → Meters (f n) (g n) k) :
    Meters (visit read b >>= f) (except (read b) >>= g) (k + 1) := by
  have hstep : Meters (Metered.plain (except (read b)) >>= f) (except (read b) >>= g) (0 + k) := by
    apply (Meters.plain (except (read b))).bind
    rintro n ⟨s, t, hn⟩
    exact h n (except_ok hn)
  rw [Nat.zero_add] at hstep
  exact Meters.note_bind b hstep

theorem pure_step_bind {α β : Type} (x : Except LuksError α) {f : α → VisitM β}
    {g : α → EStateM LuksError Unit β} {k : Nat} (h : ∀ a, x = .ok a → Meters (f a) (g a) k) :
    Meters (pure_step x >>= f) (except x >>= g) k := by
  have hstep : Meters (pure_step x >>= f) (except x >>= g) (0 + k) := by
    apply (Meters.plain (except x)).bind
    rintro a ⟨s, t, ha⟩
    exact h a (except_ok ha)
  rw [Nat.zero_add] at hstep
  exact hstep

/-! ## Walking a tree -/

/-- The nodes that can be read below one of this level. -/
def below (node_size : Nat) : Nat → Nat
  | 0 => 0
  | level + 1 => node_size * (below node_size level + 1)

theorem below_le {node_size level : Nat} (h : level ≤ MAX_LEVEL) :
    below node_size level ≤ below node_size MAX_LEVEL := by
  have hstep (l : Nat) : below node_size l ≤ below node_size (l + 1) := by
    induction l with
    | zero => exact Nat.zero_le _
    | succ l ih => exact Nat.mul_le_mul_left _ (Nat.succ_le_succ ih)
  exact monotone_nat_of_le_succ hstep h

theorem walk_node_meters {σ : Type} (d : Drive) (visit_item : σ → Key → Bytes → Except LuksError σ)
    (level : Nat) : ∀ (fuel : Nat) (node : Node) (s : σ), node.Parsed d.fs.node_size →
    node.level = level → level < fuel →
    Meters (walk_node d.read visit_item fuel node s)
      (except (Btrfs.walk_node d.read visit_item level node s)) (below d.fs.node_size level) := by
  induction level with
  | zero =>
    rintro (_ | fuel) node s hparsed hlevel hfuel
    · omega
    cases node with
    | leaf l => exact Meters.plain _
    | interior n => exact absurd hlevel (Nat.ne_of_gt hparsed.1)
  | succ level ih =>
    rintro (_ | fuel) node s hparsed hlevel hfuel
    · omega
    cases node with
    | leaf l => cases hlevel
    | interior n =>
      change n.level = level + 1 at hlevel
      unfold walk_node Btrfs.walk_node below
      rw [except_foldlM]
      apply (Meters.foldlM n.entries (k := below d.fs.node_size level + 1) ?_ s).mono
      · exact Nat.mul_le_mul_right _ hparsed.length_le
      · intro e _ s
        rw [except_bind]
        apply visit_bind
        intro child hchild
        have hparsed' := d.parsed_of_read hchild
        apply Meters.except_guard
        · rw [hlevel]
          exact child_level_iff hparsed'.level_lt (hlevel ▸ hparsed.2.1)
        · intro hcheck
          rw [hlevel, child_level_iff hparsed'.level_lt (hlevel ▸ hparsed.2.1), not_not] at hcheck
          exact ih fuel child s hparsed' hcheck (by omega)

theorem walk_tree_meters {σ : Type} (d : Drive) (root : Nat)
    (visit_item : σ → Key → Bytes → Except LuksError σ) (s : σ) :
    Meters (walk_tree d.read (MAX_LEVEL + 1) root visit_item s)
      (except (Btrfs.walk_tree d.read root visit_item s)) (below d.fs.node_size MAX_LEVEL + 1) := by
  unfold walk_tree Btrfs.walk_tree
  rw [except_bind]
  apply visit_bind
  intro node hnode
  apply Meters.except_guard Iff.rfl
  intro hlevel
  have hle : node.level ≤ MAX_LEVEL := by omega
  exact (walk_node_meters d visit_item node.level _ node s (d.parsed_of_read hnode) rfl (by omega)).mono
    (below_le hle)

/-! ## Cursors -/

theorem key_ptr_ok {node : Node} {i : Nat} {e : InteriorEntry} (h : node.key_ptr i = .ok e) :
    ∃ n, node = .interior n := by
  cases node with
  | leaf l => cases h
  | interior n => exact ⟨n, rfl⟩

theorem descend_leftmost_meters (d : Drive) (level : Nat) : ∀ (fuel ptr : Nat) (path : List Frame),
    level + 1 < 256 → level < fuel →
    Meters (descend_leftmost d.read fuel (level + 1) ptr path)
      (except (Cursor.descend_leftmost d.read (level + 1) ptr path)) (level + 1) := by
  induction level with
  | zero =>
    rintro (_ | fuel) ptr path hlevel hfuel
    · omega
    unfold descend_leftmost Cursor.descend_leftmost
    rw [except_bind]
    apply visit_bind
    intro child hchild
    have hparsed := d.parsed_of_read hchild
    apply Meters.except_guard (child_level_iff hparsed.level_lt hlevel)
    intro hcheck
    rw [child_level_iff hparsed.level_lt hlevel, not_not] at hcheck
    rw [if_pos (by simp [Node.is_leaf, hcheck]), if_pos rfl]
    exact Meters.pure _
  | succ level ih =>
    rintro (_ | fuel) ptr path hlevel hfuel
    · omega
    unfold descend_leftmost Cursor.descend_leftmost
    rw [except_bind]
    apply visit_bind
    intro child hchild
    have hparsed := d.parsed_of_read hchild
    apply Meters.except_guard (child_level_iff hparsed.level_lt hlevel)
    intro hcheck
    rw [child_level_iff hparsed.level_lt hlevel, not_not] at hcheck
    rw [if_neg (by simp [Node.is_leaf, hcheck]), if_neg (Nat.succ_ne_zero level), except_bind]
    apply pure_step_bind
    intro next _
    rw [hcheck]
    exact ih fuel next.blockptr _ (by omega) (by omega)

theorem advance_leaf_from_meters (d : Drive) (c : Cursor) (path : List Frame)
    (h : ∀ f ∈ path, f.1.Parsed d.fs.node_size) :
    Meters (advance_leaf_from d.read 256 c path) (except (Cursor.advance_leaf_from d.read c path)) 255 := by
  induction path with
  | nil => exact (Meters.pure c).mono (Nat.zero_le 255)
  | cons f rest ih =>
    obtain ⟨node, i⟩ := f
    unfold advance_leaf_from Cursor.advance_leaf_from
    have hparsed := h (node, i) List.mem_cons_self
    split
    · rw [except_bind]
      apply pure_step_bind
      intro ptr hptr
      obtain ⟨n, rfl⟩ := key_ptr_ok hptr
      obtain ⟨level, hlevel⟩ := Nat.exists_eq_add_one.mpr hparsed.1
      have hlt := hparsed.2.1
      change Meters (descend_leftmost d.read 256 n.level ptr.blockptr _)
        (except (Cursor.descend_leftmost d.read n.level ptr.blockptr _)) 255
      rw [hlevel] at hlt ⊢
      exact (descend_leftmost_meters d level 256 ptr.blockptr _ hlt (by omega)).mono (by omega)
    · exact ih fun f hf => h f (List.mem_cons_of_mem _ hf)

theorem advance_meters (d : Drive) (c : Cursor) (h : ∀ f ∈ c.path, f.1.Parsed d.fs.node_size) :
    Meters (advance d.read 256 c) (except (c.advance d.read)) 255 := by
  unfold advance Cursor.advance
  extract_lets c'
  have hpath : c'.path = c.path := by
    unfold c'
    split <;> rfl
  split
  · exact (Meters.pure c').mono (Nat.zero_le 255)
  · exact advance_leaf_from_meters d c' c'.path (hpath ▸ h)

theorem descend_to_parsed (d : Drive) (key : Key) (level : Nat) :
    ∀ (node : Node) (path : List Frame) (c : Cursor), node.Parsed d.fs.node_size →
    (∀ f ∈ path, f.1.Parsed d.fs.node_size) →
    Cursor.descend_to d.read key level node path = .ok c → ∀ f ∈ c.path, f.1.Parsed d.fs.node_size := by
  induction level with
  | zero =>
    intro node path c _ hpath hrun
    unfold Cursor.descend_to at hrun
    obtain ⟨i, -, hrun⟩ := Run.except_bind_ok.mp hrun
    cases hrun
    exact hpath
  | succ level ih =>
    intro node path c hnode hpath hrun
    unfold Cursor.descend_to at hrun
    split at hrun
    · obtain ⟨i, -, hrun⟩ := Run.except_bind_ok.mp hrun
      cases hrun
      exact hpath
    · obtain ⟨i, -, hrun⟩ := Run.except_bind_ok.mp hrun
      obtain ⟨ptr, -, hrun⟩ := Run.except_bind_ok.mp hrun
      obtain ⟨child, hchild, hrun⟩ := Run.except_bind_ok.mp hrun
      obtain ⟨-, hrun⟩ := Run.guard_bind_ok.mp hrun
      apply ih child _ c (d.parsed_of_read hchild) _ hrun
      intro f hf
      rcases List.mem_cons.mp hf with rfl | hf
      · exact hnode
      · exact hpath f hf

theorem descend_to_meters (d : Drive) (key : Key) (level : Nat) :
    ∀ (fuel : Nat) (node : Node) (path : List Frame), node.Parsed d.fs.node_size → node.level = level →
    level < fuel →
    Meters (descend_to d.read key fuel node path) (except (Cursor.descend_to d.read key level node path))
      level := by
  induction level with
  | zero =>
    rintro (_ | fuel) node path _ hlevel hfuel
    · omega
    unfold descend_to Cursor.descend_to
    rw [if_pos (.inl hlevel), except_bind]
    apply pure_step_bind
    intro i _
    exact Meters.pure _
  | succ level ih =>
    rintro (_ | fuel) node path hparsed hlevel hfuel
    · omega
    unfold descend_to Cursor.descend_to
    by_cases hempty : node.nr_items = 0
    · rw [if_pos (.inr hempty), if_pos hempty, except_bind]
      apply pure_step_bind
      intro i _
      exact (Meters.pure _).mono (Nat.zero_le _)
    · rw [if_neg (by omega), if_neg hempty, except_bind]
      apply pure_step_bind
      intro i _
      rw [except_bind]
      apply pure_step_bind
      intro ptr _
      rw [except_bind]
      apply visit_bind
      intro child hchild
      have hparsed' := d.parsed_of_read hchild
      have hlt := hparsed.level_lt
      rw [hlevel] at hlt
      apply Meters.except_guard
      · rw [hlevel]
        exact child_level_iff hparsed'.level_lt hlt
      · intro hcheck
        rw [hlevel, child_level_iff hparsed'.level_lt hlt, not_not] at hcheck
        exact ih fuel child _ hparsed' hcheck (by omega)

theorem search_meters (d : Drive) (root : Nat) (key : Key) :
    Meters (search d.read 256 root key) (except (Cursor.search d.read root key)) 511 := by
  unfold search Cursor.search
  rw [except_bind]
  apply (visit_bind (k := 510) d.read root ?_)
  intro node hnode
  have hparsed := d.parsed_of_read hnode
  have hlevel := hparsed.level_lt
  rw [except_bind]
  have hdescend := descend_to_meters d key node.level 256 node [] hparsed rfl hlevel
  apply ((hdescend.mono (j := 255) (by omega)).bind (j := 255) ?_)
  rintro c ⟨s, t, hc⟩
  have hpath := descend_to_parsed d key node.level node [] c hparsed (by simp) (except_ok hc)
  split
  · exact (Meters.pure c).mono (Nat.zero_le 255)
  · exact advance_leaf_from_meters d c c.path hpath

theorem descend_rightmost_meters (d : Drive) (level : Nat) : ∀ (fuel ptr : Nat) (path : List Frame),
    level + 1 < 256 → level < fuel →
    Meters (descend_rightmost d.read fuel (level + 1) ptr path)
      (except (Cursor.descend_rightmost d.read (level + 1) ptr path)) (level + 1) := by
  induction level with
  | zero =>
    rintro (_ | fuel) ptr path hlevel hfuel
    · omega
    unfold descend_rightmost Cursor.descend_rightmost
    rw [except_bind]
    apply visit_bind
    intro child hchild
    have hparsed := d.parsed_of_read hchild
    apply Meters.except_guard (child_level_iff hparsed.level_lt hlevel)
    intro hcheck
    rw [child_level_iff hparsed.level_lt hlevel, not_not] at hcheck
    apply Meters.except_guard Iff.rfl
    intro _
    rw [if_pos (by simp [Node.is_leaf, hcheck]), if_pos rfl]
    exact Meters.pure _
  | succ level ih =>
    rintro (_ | fuel) ptr path hlevel hfuel
    · omega
    unfold descend_rightmost Cursor.descend_rightmost
    rw [except_bind]
    apply visit_bind
    intro child hchild
    have hparsed := d.parsed_of_read hchild
    apply Meters.except_guard (child_level_iff hparsed.level_lt hlevel)
    intro hcheck
    rw [child_level_iff hparsed.level_lt hlevel, not_not] at hcheck
    apply Meters.except_guard Iff.rfl
    intro _
    rw [if_neg (by simp [Node.is_leaf, hcheck]), if_neg (Nat.succ_ne_zero level), except_bind]
    apply pure_step_bind
    intro next _
    rw [hcheck]
    exact ih fuel next.blockptr _ (by omega) (by omega)

theorem retreat_leaf_meters (d : Drive) (path : List Frame) (h : ∀ f ∈ path, f.1.Parsed d.fs.node_size)
    (leaf : Frame) :
    Meters (retreat_leaf d.read 256 leaf path) (except (Cursor.retreat_leaf d.read leaf path)) 255 := by
  induction path generalizing leaf with
  | nil => exact (Meters.pure _).mono (Nat.zero_le 255)
  | cons f rest ih =>
    obtain ⟨node, i⟩ := f
    unfold retreat_leaf Cursor.retreat_leaf
    have hparsed := h (node, i) List.mem_cons_self
    split
    · exact ih (fun f hf => h f (List.mem_cons_of_mem _ hf)) (node, i)
    · rw [except_bind]
      apply pure_step_bind
      intro ptr hptr
      obtain ⟨n, rfl⟩ := key_ptr_ok hptr
      obtain ⟨level, hlevel⟩ := Nat.exists_eq_add_one.mpr hparsed.1
      have hlt := hparsed.2.1
      change Meters (descend_rightmost d.read 256 n.level ptr.blockptr _)
        (except (Cursor.descend_rightmost d.read n.level ptr.blockptr _)) 255
      rw [hlevel] at hlt ⊢
      exact (descend_rightmost_meters d level 256 ptr.blockptr _ hlt (by omega)).mono (by omega)

theorem retreat_meters (d : Drive) (c : Cursor) (h : ∀ f ∈ c.path, f.1.Parsed d.fs.node_size) :
    Meters (retreat d.read 256 c) (except (c.retreat d.read)) 255 := by
  unfold retreat Cursor.retreat
  split
  · exact (Meters.pure _).mono (Nat.zero_le 255)
  · exact retreat_leaf_meters d c.path h c.leaf

/-! ## Looking through pending blocks -/

theorem find_item_in_tree_loop_meters (d : Drive) (key : Key) (rest : Nat) : ∀ (fuel depth bytenr : Nat),
    depth + rest = 16 → rest < fuel →
    Meters (find_item_in_tree_loop d.read key fuel depth bytenr)
      (except (Btrfs.find_item_in_tree_loop d.fs d.pending key rest bytenr)) rest := by
  induction rest with
  | zero =>
    rintro (_ | fuel) depth bytenr hdepth hfuel
    · omega
    unfold find_item_in_tree_loop Btrfs.find_item_in_tree_loop
    rw [if_neg (by omega)]
    exact Meters.pure _
  | succ rest ih =>
    rintro (_ | fuel) depth bytenr hdepth hfuel
    · omega
    unfold find_item_in_tree_loop Btrfs.find_item_in_tree_loop
    rw [if_pos (by omega), except_bind]
    apply visit_bind
    intro node _
    cases node with
    | leaf l => exact (Meters.pure _).mono (Nat.zero_le _)
    | interior n =>
      simp only
      cases n.entries.reverse.find? fun e => e.key ≤ key with
      | none => exact (Meters.pure _).mono (Nat.zero_le _)
      | some e => exact ih fuel (depth + 1) e.blockptr (by omega) (by omega)

theorem find_item_in_tree_meters (d : Drive) (root : Nat) (key : Key) :
    Meters (find_item_in_tree d.read 17 root key)
      (except (Btrfs.find_item_in_tree d.fs d.pending root key)) 16 :=
  find_item_in_tree_loop_meters d key 16 17 0 root (by omega) (by omega)

/-! ## Copy-on-write descents -/

theorem lift_eq {α : Type} (x : Except LuksError α) : CowM.lift x = except x := by
  cases x with
  | ok a => rfl
  | error e => rfl

theorem plain_bind {τ α β : Type} (y : EStateM LuksError τ α) {f : α → MeterM LuksError τ Nat β}
    {g : α → EStateM LuksError τ β} {k : Nat} (h : ∀ a, Meters (f a) (g a) k) :
    Meters (Metered.plain y >>= f) (y >>= g) k := by
  have hstep : Meters (Metered.plain y >>= f) (y >>= g) (0 + k) := (Meters.plain y).bind fun a _ => h a
  rw [Nat.zero_add] at hstep
  exact hstep

theorem cow_descend_insert_meters (d : Drive) (owner : Nat) (key : Key) (data : Bytes)
    (generation level : Nat) : ∀ bytenr, Meters (cow_descend_insert d owner key data generation level bytenr)
      (Btrfs.cow_descend_insert d.fs d.pending owner key data generation level bytenr) (level + 1) := by
  induction level with
  | zero =>
    intro bytenr
    unfold cow_descend_insert Btrfs.cow_descend_insert
    rw [lift_eq]
    apply visit_bind
    intro node _
    exact Meters.plain _
  | succ level ih =>
    intro bytenr
    unfold cow_descend_insert Btrfs.cow_descend_insert
    rw [lift_eq]
    apply visit_bind
    intro node _
    apply Meters.ite
    · intro _
      exact (Meters.plain _).mono (Nat.zero_le _)
    · intro _
      apply plain_bind
      intro interior
      apply plain_bind
      intro child_idx
      cases interior.entries[child_idx]? with
      | none => exact (Meters.throw _).mono (Nat.zero_le _)
      | some child_ptr =>
        apply (ih child_ptr.blockptr).bind (j := 0)
        intro child _
        exact Meters.plain _

theorem insert_root_meters (d : Drive) (root_bytenr root_level owner : Nat) (key : Key) (data : Bytes)
    (generation : Nat) :
    Meters (insert_root d root_bytenr root_level owner key data generation)
      (Btrfs.insert_root d.fs d.pending root_bytenr root_level owner key data generation)
      (root_level + 2) := by
  unfold insert_root Btrfs.insert_root
  apply (cow_descend_insert_meters d owner key data generation root_level root_bytenr).bind (j := 1)
  intro res _
  rw [lift_eq]
  apply visit_bind (k := 0)
  intro root_node _
  exact Meters.plain _

theorem mutate_interior_meters (d : Drive) (owner : Nat) (key : Key) (generation : Nat) (is_root : Bool)
    (node : Node) (interior : InteriorNode) (child_idx bytenr level : Nat) (already_new : Bool)
    (child : MutateResult) :
    Meters
      (mutate_interior d owner key generation is_root node interior child_idx bytenr level already_new child)
      (Btrfs.mutate_interior d.fs d.pending owner key generation is_root node interior child_idx bytenr level
        already_new child) (if is_root then 1 else 0) := by
  unfold mutate_interior Btrfs.mutate_interior
  cases replace_child interior.entries child_idx generation child with
  | nil => exact (Meters.plain _).mono (Nat.zero_le _)
  | cons e rest =>
    apply Meters.ite
    · rintro ⟨hroot, -⟩
      rw [if_pos hroot]
      unfold collapse_root Btrfs.collapse_root
      apply plain_bind
      intro _
      apply Meters.ite
      · intro _
        exact (Meters.pure _).mono (Nat.zero_le _)
      · intro _
        rw [lift_eq]
        apply visit_bind (k := 0)
        intro child_node _
        exact Meters.plain _
    · intro _
      exact (Meters.plain _).mono (Nat.zero_le _)

theorem cow_descend_meters (d : Drive) (owner : Nat) (key : Key) (generation : Nat)
    (mutate_fn : Leaf → Except LuksError Leaf) (level : Nat) : ∀ (bytenr : Nat) (is_root : Bool),
    Meters (cow_descend d owner key generation mutate_fn level bytenr is_root)
      (Btrfs.cow_descend d.fs d.pending owner key generation mutate_fn level bytenr is_root)
      (level + 1 + if is_root then 1 else 0) := by
  induction level with
  | zero =>
    intro bytenr is_root
    unfold cow_descend Btrfs.cow_descend
    rw [lift_eq]
    apply (visit_bind (k := 0) d.read bytenr ?_).mono (by omega)
    intro node _
    exact Meters.plain _
  | succ level ih =>
    intro bytenr is_root
    unfold cow_descend Btrfs.cow_descend
    rw [lift_eq]
    apply (visit_bind (k := level + 1 + if is_root then 1 else 0) d.read bytenr ?_).mono (by omega)
    intro node _
    apply plain_bind
    intro interior
    apply plain_bind
    intro child_idx
    cases interior.entries[child_idx]? with
    | none => exact (Meters.throw _).mono (Nat.zero_le _)
    | some child_ptr =>
      apply (ih child_ptr.blockptr false).bind
      intro child _
      exact mutate_interior_meters d owner key generation is_root node interior child_idx bytenr (level + 1)
        _ child

/-! ## Collecting the items of a tree -/

/-- The collection at the first block asks for that at the second. -/
def Child (read : Reader) (b c : Nat) : Prop :=
  b ≠ 0 ∧ ∃ n, read b = .ok (.interior n) ∧ ∃ e ∈ n.entries, e.blockptr = c

/-- Every block below the root can be read, and its node passes. -/
def AllRead (read : Reader) (root : Nat) : Prop :=
  ∀ b, Relation.ReflTransGen (Child read) root b → b = 0 ∨ ∃ n, read b = .ok n

theorem AllRead.next {read : Reader} {b c : Nat} (h : AllRead read b) (hc : Child read b c) :
    AllRead read c := fun x hx => h x (hx.head hc)

theorem visit_ok {τ : Type} {read : Reader} {b : Nat} {n : Node} {s t : τ × List Nat}
    (h : visit read b s = .ok n t) : read b = .ok n := by
  obtain ⟨u, s', hnote, hrun⟩ := Run.bind_ok.mp h
  unfold Metered.plain at hrun
  cases hread : read b with
  | ok m =>
    rw [hread] at hrun
    cases hrun
    rfl
  | error e =>
    rw [hread] at hrun
    cases hrun

theorem collect_tree_items_acyclic (d : Drive) (fuel : Nat) : ∀ {b : Nat} {items : List LeafItem}
    {s t : Unit × List Nat}, collect_tree_items d.read fuel b s = .ok items t →
    Acyclic (Child d.read) b := by
  induction fuel with
  | zero =>
    intro b items s t hrun
    cases hrun
  | succ fuel ih =>
    intro b items s t hrun
    apply Acyclic.of_next
    rintro c ⟨hb, n, hn, e, he, rfl⟩
    unfold collect_tree_items at hrun
    rw [if_neg hb] at hrun
    obtain ⟨node, u, hnode, hrun⟩ := Run.bind_ok.mp hrun
    obtain rfl : Node.interior n = node := Except.ok.inj (hn.symm.trans (visit_ok hnode))
    obtain ⟨parts, u', hparts, -⟩ := Run.bind_ok.mp hrun
    obtain ⟨part, s', t', hpart⟩ := mapM_ok n.entries hparts e he
    exact ih hpart

/-- A collection that meets no unreadable block returns, or runs out of fuel. -/
theorem collect_tree_items_never_err (d : Drive) (e : LuksError) (fuel : Nat) : ∀ b, AllRead d.read b →
    Never (.err e) (collect_tree_items d.read fuel b) := by
  induction fuel with
  | zero =>
    intro b _ s t hrun
    cases hrun
  | succ fuel ih =>
    intro b hread
    unfold collect_tree_items
    by_cases hb : b = 0
    · rw [if_pos hb]
      exact Never.pure []
    rw [if_neg hb]
    obtain ⟨node, hnode⟩ := (hread b .refl).resolve_left hb
    apply Never.bind
    · apply Never.bind (Never.note b)
      intro _ _ _ _ s t hrun
      unfold Metered.plain at hrun
      rw [hnode] at hrun
      cases hrun
    · intro node' s t hvisit
      obtain rfl : node = node' := Except.ok.inj (hnode.symm.trans (visit_ok hvisit))
      cases node with
      | leaf l => exact Never.pure l.items
      | interior n =>
        apply Never.bind
        · apply Never.mapM
          intro entry hentry
          exact ih entry.blockptr (hread.next ⟨hb, n, hnode, entry, hentry, rfl⟩)
        · intro parts _ _ _
          exact Never.pure parts.flatten

/-- The blocks ahead are fewer with every step. -/
theorem collect_tree_items_never_spin (d : Drive) (fuel : Nat) : ∀ b, Acyclic (Child d.read) b →
    (Acyclic.ahead (Child d.read) (Finset.range (2 ^ 64)) b).card < fuel →
    Never .spin (collect_tree_items d.read fuel b) := by
  induction fuel with
  | zero =>
    intro b _ hcard
    omega
  | succ fuel ih =>
    intro b hacyclic hcard
    unfold collect_tree_items
    by_cases hb : b = 0
    · rw [if_pos hb]
      exact Never.pure []
    rw [if_neg hb]
    apply Never.bind
    · apply Never.bind (Never.note b)
      intro _ _ _ _
      exact Never.plain_spin _
    · intro node s t hvisit
      have hnode := visit_ok hvisit
      cases node with
      | leaf l => exact Never.pure l.items
      | interior n =>
        apply Never.bind
        · apply Never.mapM
          intro entry hentry
          have hchild : Child d.read b entry.blockptr := ⟨hb, n, hnode, entry, hentry, rfl⟩
          have hptr := (d.parsed_of_read hnode).2.2.2 entry hentry
          have hless := Acyclic.card_ahead_lt hacyclic hchild (Finset.mem_range.mpr hptr)
          exact ih entry.blockptr (hacyclic.next hchild) (by omega)
        · intro parts _ _ _
          exact Never.pure parts.flatten

theorem acyclic_of_within {d : Drive} {root fuel n : Nat} (hread : AllRead d.read root)
    (h : Within (collect_tree_items d.read fuel root) n) : Acyclic (Child d.read) root := by
  obtain ⟨t, log, -, ⟨items, hrun⟩ | ⟨e, hrun⟩⟩ := h ()
  · exact collect_tree_items_acyclic d fuel hrun
  · exact absurd hrun (collect_tree_items_never_err d e fuel root hread _ _)

/-- As long as the recursion is no deeper than its model allows, this is what the model returns. -/
theorem collect_tree_items_loop_ok (d : Drive) (fuel : Nat) : ∀ {b : Nat} {items : List LeafItem}
    {s t : Unit × List Nat}, collect_tree_items d.read fuel b s = .ok items t →
    collect_tree_items_loop d.fs d.pending fuel b = .ok items := by
  induction fuel with
  | zero =>
    intro b items s t hrun
    cases hrun
  | succ fuel ih =>
    intro b items s t hrun
    unfold collect_tree_items at hrun
    unfold collect_tree_items_loop
    by_cases hb : b = 0
    · rw [if_pos hb] at hrun ⊢
      cases hrun
      rfl
    rw [if_neg hb] at hrun ⊢
    obtain ⟨node, u, hvisit, hrun⟩ := Run.bind_ok.mp hrun
    have hnode : Btrfs.read_node d.fs d.pending b = .ok node := visit_ok hvisit
    rw [hnode]
    cases node with
    | leaf l =>
      cases hrun
      rfl
    | interior n =>
      obtain ⟨parts, u', hparts, hrun⟩ := Run.bind_ok.mp hrun
      cases hrun
      have hmap := except_mapM_ok (fun entry _ _ _ hentry => ih hentry) hparts
      simp only [bind, Except.bind]
      rw [hmap]
      rfl

/-! ## All traversals -/

/-- Every traversal that starts at `root`, and every step of a cursor, reads a bounded number of nodes. -/
structure Bounded (d : Drive) (root : Nat) : Prop where
  walk_tree : ∀ {σ : Type} (visit_item : σ → Key → Bytes → Except LuksError σ) (s : σ), ∃ fuel,
    Within (walk_tree d.read fuel root visit_item s) (below d.fs.node_size MAX_LEVEL + 1)
  search : ∀ key, ∃ fuel, Within (search d.read fuel root key) 511
  advance : ∀ c : Cursor, (∀ f ∈ c.path, f.1.Parsed d.fs.node_size) → ∃ fuel,
    Within (advance d.read fuel c) 255
  retreat : ∀ c : Cursor, (∀ f ∈ c.path, f.1.Parsed d.fs.node_size) → ∃ fuel,
    Within (retreat d.read fuel c) 255
  find_item_in_tree : ∀ key, ∃ fuel, Within (find_item_in_tree d.read fuel root key) 16
  collect_tree_items : ∃ n fuel, Within (collect_tree_items d.read fuel root) n
  cow_tree_insert : ∀ root_level < 256, ∀ owner key data generation,
    Within (insert_root d root root_level owner key data generation) 257
  cow_tree_mutate : ∀ root_level < 256, ∀ owner key generation mutate_fn,
    Within (cow_descend d owner key generation mutate_fn root_level root true) 257

/-- On a drive whose nodes below the root all pass, the traversals are bounded if and only if none of
these blocks leads back to itself: `collect_tree_items` alone has no measure. -/
theorem traversals_bounded (d : Drive) (root : Nat) (h : AllRead d.read root) :
    Bounded d root ↔ Acyclic (Child d.read) root := by
  constructor
  · intro hbounded
    obtain ⟨n, fuel, hwithin⟩ := hbounded.collect_tree_items
    exact acyclic_of_within h hwithin
  · intro hacyclic
    constructor
    case walk_tree => exact fun visit_item s => ⟨_, (walk_tree_meters d root visit_item s).within⟩
    case search => exact fun key => ⟨256, (search_meters d root key).within⟩
    case advance => exact fun c hc => ⟨256, (advance_meters d c hc).within⟩
    case retreat => exact fun c hc => ⟨256, (retreat_meters d c hc).within⟩
    case find_item_in_tree => exact fun key => ⟨17, (find_item_in_tree_meters d root key).within⟩
    case collect_tree_items =>
      obtain ⟨n, hn⟩ := (collect_tree_items_never_spin d _ root hacyclic (Nat.lt_succ_self _)).within
      exact ⟨n, _, hn⟩
    case cow_tree_insert =>
      intro root_level hlevel owner key data generation
      exact (insert_root_meters d root root_level owner key data generation).within.mono (by omega)
    case cow_tree_mutate =>
      intro root_level hlevel owner key generation mutate_fn
      apply (cow_descend_meters d owner key generation mutate_fn root_level root true).within.mono
      rw [if_pos rfl]
      omega

/-- A root over a leaf and one more child. -/
def pair_root (child : Nat) : Node :=
  .interior ⟨65536, 1, 5, 1, HEADER_FLAG_WRITTEN, [], [], [⟨⟨256, 1, 0⟩, 69632, 1⟩, ⟨⟨257, 1, 0⟩, child, 1⟩]⟩

def pair_leaf (bytenr objectid : Nat) : Node :=
  .leaf ⟨bytenr, 1, 5, HEADER_FLAG_WRITTEN, [], [], [⟨⟨objectid, INODE_ITEM_KEY, 0⟩, [7]⟩]⟩

/-- A filesystem of two levels. -/
def pair_fs (child : Nat) : BtrfsView where
  node_size := 4096
  metadata_uuid := []
  device b :=
    if b = 65536 then .ok (pair_root child)
    else if b = 69632 then .ok (pair_leaf b 256)
    else if b = 73728 then .ok (pair_leaf b 257)
    else .error .OutOfBounds

theorem pair_fs_read {child b : Nat} {n : Node} (h : read_node (pair_fs child) .empty b = .ok n) :
    b = 65536 ∧ n = pair_root child ∨ b = 69632 ∧ n = pair_leaf b 256 ∨ b = 73728 ∧ n = pair_leaf b 257 := by
  change (pair_fs child).read_node b = .ok n at h
  by_cases hroot : b = 65536
  · subst hroot
    cases h
    exact .inl ⟨rfl, rfl⟩
  by_cases hfirst : b = 69632
  · subst hfirst
    cases h
    exact .inr (.inl ⟨rfl, rfl⟩)
  by_cases hsecond : b = 73728
  · subst hsecond
    cases h
    exact .inr (.inr ⟨rfl, rfl⟩)
  have hnone : (pair_fs child).device b = .error .OutOfBounds := by
    simp only [pair_fs, if_neg hroot, if_neg hfirst, if_neg hsecond]
  rw [BtrfsView.read_node, hnone] at h
  cases h

def pair_drive (child : Nat) (h : child < 2 ^ 64) : Drive where
  fs := pair_fs child
  pending := .empty
  parsed b n hn := by
    rcases pair_fs_read hn with ⟨-, rfl⟩ | ⟨-, rfl⟩ | ⟨-, rfl⟩
    · simpa [pair_root, Node.Parsed, HEADER_SIZE, KEY_PTR_SIZE, pair_fs] using h
    · simp [pair_leaf, Node.Parsed, HEADER_SIZE, ITEM_SIZE, pair_fs]
    · simp [pair_leaf, Node.Parsed, HEADER_SIZE, ITEM_SIZE, pair_fs]

theorem pair_child {child b c : Nat} {h : child < 2 ^ 64} (hc : Child (pair_drive child h).read b c) :
    b = 65536 ∧ (c = 69632 ∨ c = child) := by
  obtain ⟨-, n, hn, e, he, rfl⟩ := hc
  rcases pair_fs_read hn with ⟨hb, hnode⟩ | ⟨-, hnode⟩ | ⟨-, hnode⟩
  · cases hnode
    simp only [List.mem_cons, List.not_mem_nil, or_false] at he
    rcases he with rfl | rfl
    · exact ⟨hb, .inl rfl⟩
    · exact ⟨hb, .inr rfl⟩
  · cases hnode
  · cases hnode

theorem pair_allRead (child : Nat) (h : child < 2 ^ 64) (hchild : child = 73728 ∨ child = 65536) :
    AllRead (pair_drive child h).read 65536 := by
  intro b hb
  rcases hb.cases_tail with rfl | ⟨c, -, hc⟩
  · exact .inr ⟨pair_root child, rfl⟩
  rcases pair_child hc with ⟨-, rfl | rfl⟩
  · exact .inr ⟨pair_leaf 69632 256, rfl⟩
  rcases hchild with rfl | rfl
  · exact .inr ⟨pair_leaf 73728 257, rfl⟩
  · exact .inr ⟨pair_root 65536, rfl⟩

/-- Over two leaves every traversal ends. -/
theorem traversals_bounded_pair : Bounded (pair_drive 73728 (by decide)) 65536 := by
  refine (traversals_bounded (pair_drive 73728 (by decide)) 65536 (pair_allRead 73728 (by decide) (.inl rfl))).mpr ?_
  refine Acyclic.of_next fun b hb => Acyclic.of_next fun c hc => ?_
  -- only the root has children, and no child is the root
  obtain ⟨rfl, -⟩ := pair_child hc
  exact absurd (pair_child hb).2 (by decide)

/-- The second child of the root is the root. All its reads pass, and the collection never ends. -/
theorem collect_tree_items_loops :
    AllRead (pair_drive 65536 (by decide)).read 65536 ∧ ¬ Bounded (pair_drive 65536 (by decide)) 65536 := by
  refine ⟨pair_allRead 65536 (by decide) (.inr rfl), fun hbounded => ?_⟩
  obtain ⟨n, fuel, hwithin⟩ := hbounded.collect_tree_items
  have hself : Child (pair_drive 65536 (by decide)).read 65536 65536 :=
    ⟨by decide, _, rfl, _, .tail _ (.head _), rfl⟩
  have hacyclic := acyclic_of_within (pair_allRead 65536 (by decide) (.inr rfl)) hwithin
  exact hacyclic 65536 .refl (.single hself)

end Visits

end LuksAndroid.Btrfs
