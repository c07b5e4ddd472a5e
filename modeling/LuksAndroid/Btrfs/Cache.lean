import LuksAndroid.Btrfs.Raw.Code
import LuksAndroid.Lib.Machine

/-!
# The node caches

`core/src/fs/btrfs/cache.rs`, and `read_node` of `core/src/fs/btrfs/mod.rs` with both of its caches: the one of
the mount and the one of the batch that is open. Readers run at once, everything else has the mount to itself.
-/

namespace LuksAndroid.Btrfs

/-! ## The cache of the mount -/

def BUDGET_BYTES : Nat := 2 * 1024 * 1024

def MIN_ENTRIES : Nat := 16

structure NodeCache where
  nodes : Nat → Option Raw.Node
  /-- Insertion order, for eviction. -/
  order : List Nat
  hits : Nat
  misses : Nat
  capacity : Nat

namespace NodeCache

def new (node_size : Nat) : NodeCache where
  nodes := fun _ => none
  order := []
  hits := 0
  misses := 0
  capacity := max (BUDGET_BYTES / max node_size 1) MIN_ENTRIES

def get (c : NodeCache) (bytenr : Nat) : Option Raw.Node × NodeCache :=
  match c.nodes bytenr with
  | some node => (some node, { c with hits := c.hits + 1 })
  | none => (none, { c with misses := c.misses + 1 })

/-- The loop that makes room for one more. -/
def evict (capacity : Nat) : List Nat → (Nat → Option Raw.Node) → List Nat × (Nat → Option Raw.Node)
  | [], nodes => ([], nodes)
  | old :: rest, nodes =>
    if rest.length + 1 ≥ capacity then evict capacity rest (Function.update nodes old none) else (old :: rest, nodes)

def insert (c : NodeCache) (bytenr : Nat) (node : Raw.Node) : NodeCache :=
  if (c.nodes bytenr).isSome then c
  else
    let (order, nodes) := evict c.capacity c.order c.nodes
    { c with order := order ++ [bytenr], nodes := Function.update nodes bytenr (some node) }

def clear (c : NodeCache) : NodeCache := { c with nodes := fun _ => none, order := [] }

/-- The nodes that are held are those in the queue, each once, and no more than there is room for. -/
structure Sound (c : NodeCache) : Prop where
  nodup : c.order.Nodup
  keys : ∀ b, c.nodes b ≠ none ↔ b ∈ c.order
  room : c.order.length ≤ c.capacity
  some_room : 0 < c.capacity

theorem new_sound (node_size : Nat) : (new node_size).Sound where
  nodup := List.nodup_nil
  keys := fun b => ⟨fun h => absurd rfl h, fun h => absurd h List.not_mem_nil⟩
  room := Nat.zero_le _
  some_room := Nat.lt_of_lt_of_le (by decide) (Nat.le_max_right _ MIN_ENTRIES)

/-- What is evicted comes off the front of the queue. -/
theorem evict_spec {capacity : Nat} (hcap : 0 < capacity) (order : List Nat) (nodes : Nat → Option Raw.Node)
    (hnodup : order.Nodup) (hkeys : ∀ b, nodes b ≠ none ↔ b ∈ order) :
    (evict capacity order nodes).1 <:+ order ∧ (evict capacity order nodes).1.length < capacity ∧
      (∀ b, (evict capacity order nodes).2 b ≠ none ↔ b ∈ (evict capacity order nodes).1) ∧
      ∀ b n, (evict capacity order nodes).2 b = some n → nodes b = some n := by
  induction order generalizing nodes with
  | nil => exact ⟨List.suffix_rfl, hcap, hkeys, fun _ _ h => h⟩
  | cons old rest ih =>
    obtain ⟨hold, hrest⟩ := List.nodup_cons.mp hnodup
    rw [evict]
    split
    · have hkeys' : ∀ b, Function.update nodes old none b ≠ none ↔ b ∈ rest := by
        intro b
        by_cases hb : b = old
        · subst hb
          rw [Function.update_self]
          exact ⟨fun h => absurd rfl h, fun h => absurd h hold⟩
        · rw [Function.update_of_ne hb, hkeys, List.mem_cons]
          exact or_iff_right hb
      obtain ⟨hsuffix, hroom, hheld, hsame⟩ := ih _ hrest hkeys'
      refine ⟨hsuffix.trans (List.suffix_cons old rest), hroom, hheld, fun b n hb => ?_⟩
      have hnode := hsame b n hb
      by_cases hbo : b = old
      · subst hbo
        rw [Function.update_self] at hnode
        cases hnode
      · rwa [Function.update_of_ne hbo] at hnode
    · exact ⟨List.suffix_rfl, not_le.mp ‹_›, hkeys, fun _ _ h => h⟩

theorem insert_held {c : NodeCache} {bytenr b : Nat} {node n : Raw.Node} (h : c.Sound)
    (hn : (c.insert bytenr node).nodes b = some n) : c.nodes b = some n ∨ b = bytenr ∧ n = node := by
  unfold insert at hn
  split at hn
  · exact .inl hn
  · obtain ⟨-, -, -, hsame⟩ := evict_spec h.some_room c.order c.nodes h.nodup h.keys
    simp only at hn
    by_cases hb : b = bytenr
    · subst hb
      rw [Function.update_self] at hn
      cases hn
      exact .inr ⟨rfl, rfl⟩
    · rw [Function.update_of_ne hb] at hn
      exact .inl (hsame b n hn)

theorem Sound.insert {c : NodeCache} (h : c.Sound) (bytenr : Nat) (node : Raw.Node) : (c.insert bytenr node).Sound := by
  unfold NodeCache.insert
  split
  · exact h
  · rename_i hnew
    rw [Option.not_isSome_iff_eq_none] at hnew
    obtain ⟨hsuffix, hroom, hheld, hsame⟩ := evict_spec h.some_room c.order c.nodes h.nodup h.keys
    have hfresh : bytenr ∉ (evict c.capacity c.order c.nodes).1 := by
      intro hmem
      exact (h.keys bytenr).mpr (hsuffix.subset hmem) hnew
    refine ⟨?_, fun b => ?_, ?_, h.some_room⟩
    · exact List.nodup_append.mpr ⟨h.nodup.sublist hsuffix.sublist, List.nodup_singleton _, fun a ha b hb hab => by
        rw [List.mem_singleton] at hb
        exact hfresh (hb ▸ hab ▸ ha)⟩
    · simp only [List.mem_append, List.mem_singleton]
      by_cases hb : b = bytenr
      · subst hb
        rw [Function.update_self]
        exact ⟨fun _ => .inr rfl, fun _ => Option.some_ne_none _⟩
      · rw [Function.update_of_ne hb, hheld]
        exact ⟨.inl, fun h => h.resolve_right hb⟩
    · simp only [List.length_append, List.length_singleton]
      omega

theorem Sound.clear {c : NodeCache} (h : c.Sound) : c.clear.Sound where
  nodup := List.nodup_nil
  keys := fun _ => ⟨fun h => absurd rfl h, fun h => absurd h List.not_mem_nil⟩
  room := Nat.zero_le _
  some_room := h.some_room

theorem Sound.get {c : NodeCache} (h : c.Sound) (b : Nat) : (c.get b).2.Sound := by
  unfold NodeCache.get
  split
  · exact ⟨h.nodup, h.keys, h.room, h.some_room⟩
  · exact ⟨h.nodup, h.keys, h.room, h.some_room⟩

end NodeCache

/-! ## The cache of a batch -/

/-- The blocks that a batch has yet to write, and the nodes that were parsed from them, each with the
checksum that its block had. -/
structure PendingBlocks where
  pending_blocks : Nat → Option Bytes
  pending_nodes : Nat → Option (Nat × Raw.Node)

namespace PendingBlocks

def empty : PendingBlocks := ⟨fun _ => none, fun _ => none⟩

def csum (raw : Bytes) : Nat := if raw.length ≥ 4 then raw.get 0 4 else 0

/-- The part of `read_node` that answers from the batch. -/
def read (parse : Bytes → Nat → Except LuksError Raw.Node) (p : PendingBlocks) (logical : Nat) (raw : Bytes) :
    Except LuksError Raw.Node × PendingBlocks :=
  let reparse : Except LuksError Raw.Node × PendingBlocks :=
    match parse raw logical with
    | .ok node =>
      (.ok node, { p with pending_nodes := Function.update p.pending_nodes logical (some (csum raw, node)) })
    | .error e => (.error e, p)
  match p.pending_nodes logical with
  | some (cached_csum, node) => if cached_csum = csum raw then (.ok node, p) else reparse
  | none => reparse

end PendingBlocks

/-! ## Reads of a mount -/

/-- An answer of `read_node`, and what a read without any cache would have answered. -/
structure NodeAnswer where
  logical : Nat
  result : Except LuksError Raw.Node
  plain : Except LuksError Raw.Node

structure NodeReads (ι : Type) where
  /-- What reading the bytes of a node from the device gives. -/
  device : Nat → Except LuksError Bytes
  cache : NodeCache
  batch : Option PendingBlocks
  /-- The readers between a miss and the end of their read. -/
  reading : List (ι × Nat)
  answers : List NodeAnswer

namespace NodeReads

variable {ι : Type} [DecidableEq ι] (parse : Bytes → Nat → Except LuksError Raw.Node)

inductive Action (ι : Type) where
  /-- A reader asks for a node, and either has it or goes to the device. -/
  | look (t : ι) (logical : Nat)
  | fill (t : ι)
  /-- The batch: a block is put in, or taken out again, or all go back to a mark. -/
  | stage (logical : Nat) (raw : Bytes)
  | unstage (logical : Nat)
  | rollback (blocks : Nat → Option Bytes)
  | open_batch
  | discard
  /-- The data of a file goes to the device. -/
  | write (device : Nat → Except LuksError Bytes)
  /-- The device after a commit, with the batch armed anew or dropped. -/
  | commit (device : Nat → Except LuksError Bytes) (rearm : Bool)

/-- What there is to read under the address, without any cache. -/
def plain (s : NodeReads ι) (logical : Nat) : Except LuksError Raw.Node :=
  match s.batch.bind fun p => p.pending_blocks logical with
  | some raw => parse raw logical
  | none => (s.device logical).bind fun raw => parse raw logical

def answer (s : NodeReads ι) (logical : Nat) (result : Except LuksError Raw.Node) : List NodeAnswer :=
  s.answers ++ [⟨logical, result, s.plain parse logical⟩]

def look (s : NodeReads ι) (t : ι) (logical : Nat) : NodeReads ι :=
  match s.batch with
  | some p =>
    match p.pending_blocks logical with
    | some raw =>
      { s with
        batch := some (p.read parse logical raw).2
        answers := s.answer parse logical (p.read parse logical raw).1 }
    | none => from_cache s
  | none => from_cache s
where
  from_cache (s : NodeReads ι) : NodeReads ι :=
    match s.cache.get logical with
    | (some node, cache) => { s with cache := cache, answers := s.answer parse logical (.ok node) }
    | (none, cache) => { s with cache := cache, reading := (t, logical) :: s.reading }

def fill (s : NodeReads ι) (t : ι) (logical : Nat) : NodeReads ι :=
  let reading := s.reading.filter fun r => r.1 ≠ t
  match (s.device logical).bind fun raw => parse raw logical with
  | .ok node =>
    { s with cache := s.cache.insert logical node, reading := reading, answers := s.answer parse logical (.ok node) }
  | .error e => { s with reading := reading, answers := s.answer parse logical (.error e) }

/-- What only runs while nobody reads. -/
def alone (s s' : NodeReads ι) : Option (NodeReads ι) := if s.reading.isEmpty then some s' else none

def step (s : NodeReads ι) : Action ι → Option (NodeReads ι)
  | .look t logical => if s.reading.any fun r => r.1 = t then none else some (s.look parse t logical)
  | .fill t => (s.reading.find? fun r => r.1 = t).map fun r => s.fill parse t r.2
  | .stage logical raw => s.batch.bind fun p => s.alone { s with
      batch := some { p with pending_blocks := Function.update p.pending_blocks logical (some raw) } }
  | .unstage logical => s.batch.bind fun p => s.alone { s with
      batch := some { p with pending_blocks := Function.update p.pending_blocks logical none } }
  | .rollback blocks => s.batch.bind fun _ => s.alone { s with batch := some ⟨blocks, fun _ => none⟩ }
  | .open_batch => s.alone { s with batch := some (s.batch.getD .empty) }
  | .discard => s.alone { s with batch := none }
  | .write device => s.alone { s with device := device }
  | .commit device rearm => s.alone { s with
      device := device
      cache := s.cache.clear
      batch := if rearm then s.batch.map fun p => { p with pending_blocks := fun _ => none } else none }

def mount (device : Nat → Except LuksError Bytes) (node_size : Nat) : NodeReads ι :=
  ⟨device, .new node_size, none, [], []⟩

/-- File data does not go over the blocks of nodes that are held, and no block is put in the place of
another with another content but its checksum. -/
def Careful (s : NodeReads ι) : Action ι → Prop
  | .write device => ∀ logical, s.cache.nodes logical ≠ none → device logical = s.device logical
  | .stage logical raw => ∀ p node, s.batch = some p →
      p.pending_nodes logical = some (PendingBlocks.csum raw, node) → parse raw logical = .ok node
  | _ => True

/-- Every node that a cache holds is the one that a read without it gives. -/
structure Coherent (s : NodeReads ι) : Prop where
  sound : s.cache.Sound
  held : ∀ logical node, s.cache.nodes logical = some node →
    ((s.device logical).bind fun raw => parse raw logical) = .ok node
  parsed : ∀ p, s.batch = some p → ∀ logical raw node, p.pending_blocks logical = some raw →
    p.pending_nodes logical = some (PendingBlocks.csum raw, node) → parse raw logical = .ok node
  reading : ∀ r ∈ s.reading, (s.batch.bind fun p => p.pending_blocks r.2) = none
  answers : ∀ a ∈ s.answers, a.result = a.plain

variable {parse} {s s' : NodeReads ι}

omit [DecidableEq ι] in
theorem mount_coherent (device : Nat → Except LuksError Bytes) (node_size : Nat) :
    Coherent parse (mount device node_size : NodeReads ι) where
  sound := NodeCache.new_sound node_size
  held := fun _ _ h => by cases h
  parsed := fun _ h => by cases h
  reading := fun _ h => absurd h List.not_mem_nil
  answers := fun _ h => absurd h List.not_mem_nil

omit [DecidableEq ι] in
theorem mem_answer {logical : Nat} {result : Except LuksError Raw.Node} (h : Coherent parse s)
    (hresult : result = s.plain parse logical) : ∀ a ∈ s.answer parse logical result, a.result = a.plain := by
  intro a ha
  unfold answer at ha
  rw [List.mem_append, List.mem_singleton] at ha
  rcases ha with ha | rfl
  · exact h.answers a ha
  · exact hresult

theorem read_batch {p : PendingBlocks} {logical : Nat} {raw : Bytes}
    (hparsed : ∀ node, p.pending_nodes logical = some (PendingBlocks.csum raw, node) → parse raw logical = .ok node) :
    (p.read parse logical raw).1 = parse raw logical ∧
      (p.read parse logical raw).2.pending_blocks = p.pending_blocks ∧
      ∀ b c node, (p.read parse logical raw).2.pending_nodes b = some (c, node) →
        p.pending_nodes b = some (c, node) ∨
          b = logical ∧ c = PendingBlocks.csum raw ∧ parse raw logical = .ok node := by
  have hreparse : ∀ q : Except LuksError Raw.Node × PendingBlocks,
      q = (match parse raw logical with
        | .ok node => (.ok node, { p with
            pending_nodes := Function.update p.pending_nodes logical (some (PendingBlocks.csum raw, node)) })
        | .error e => (.error e, p)) →
      q.1 = parse raw logical ∧ q.2.pending_blocks = p.pending_blocks ∧
      ∀ b c node, q.2.pending_nodes b = some (c, node) →
        p.pending_nodes b = some (c, node) ∨
          b = logical ∧ c = PendingBlocks.csum raw ∧ parse raw logical = .ok node := by
    rintro q rfl
    cases hparse : parse raw logical with
    | error e => exact ⟨rfl, rfl, fun _ _ _ h => .inl h⟩
    | ok node =>
      refine ⟨rfl, rfl, fun b c n hb => ?_⟩
      simp only at hb
      by_cases hbl : b = logical
      · subst hbl
        rw [Function.update_self] at hb
        cases hb
        exact .inr ⟨rfl, rfl, rfl⟩
      · rw [Function.update_of_ne hbl] at hb
        exact .inl hb
  unfold PendingBlocks.read
  simp only
  cases hnode : p.pending_nodes logical with
  | none => exact hreparse _ rfl
  | some cached =>
    obtain ⟨c, node⟩ := cached
    simp only
    split
    · rename_i hc
      subst hc
      exact ⟨(hparsed node hnode).symm, rfl, fun _ _ _ h => .inl h⟩
    · exact hreparse _ rfl

omit [DecidableEq ι] in
theorem Coherent.from_cache {t : ι} {logical : Nat} (h : Coherent parse s)
    (hnone : (s.batch.bind fun p => p.pending_blocks logical) = none) :
    Coherent parse (look.from_cache parse t logical s) := by
  have hplain : s.plain parse logical = (s.device logical).bind fun raw => parse raw logical := by
    unfold plain
    rw [hnone]
  have hsound := h.sound.get logical
  unfold look.from_cache NodeCache.get at *
  cases hnode : s.cache.nodes logical with
  | some node =>
    rw [hnode] at hsound
    exact ⟨hsound, h.held, h.parsed, h.reading, mem_answer h (by rw [hplain, h.held logical node hnode])⟩
  | none =>
    rw [hnode] at hsound
    refine ⟨hsound, h.held, h.parsed, fun r hr => ?_, h.answers⟩
    rcases List.mem_cons.mp hr with rfl | hr
    · exact hnone
    · exact h.reading r hr

omit [DecidableEq ι] in
theorem Coherent.look {t : ι} {logical : Nat} (h : Coherent parse s) : Coherent parse (s.look parse t logical) := by
  unfold NodeReads.look
  split
  · rename_i p hp
    split
    · rename_i raw hraw
      have hone := h.parsed p hp logical raw
      obtain ⟨hresult, hblocks, hnodes⟩ := read_batch fun node hnode => hone node hraw hnode
      refine ⟨h.sound, h.held, ?_, fun r hr => ?_, mem_answer h ?_⟩
      · rintro q hq b raw' node hblock hnode
        cases hq
        rw [hblocks] at hblock
        rcases hnodes b _ node hnode with hold | ⟨rfl, -, hparse⟩
        · exact h.parsed p hp b raw' node hblock hold
        · rw [hraw] at hblock
          cases hblock
          exact hparse
      · have hreading := h.reading r hr
        rw [hp, Option.bind_some] at hreading
        rw [Option.bind_some, hblocks]
        exact hreading
      · rw [hresult]
        unfold plain
        rw [hp, Option.bind_some, hraw]
    · rename_i hraw
      exact h.from_cache (by rw [hp, Option.bind_some, hraw])
  · rename_i hp
    exact h.from_cache (by rw [hp, Option.bind_none])

theorem Coherent.fill {t : ι} {logical : Nat} (h : Coherent parse s)
    (hnone : (s.batch.bind fun p => p.pending_blocks logical) = none) : Coherent parse (s.fill parse t logical) := by
  have hplain : s.plain parse logical = (s.device logical).bind fun raw => parse raw logical := by
    unfold plain
    rw [hnone]
  have hreading : ∀ r ∈ s.reading.filter fun r => r.1 ≠ t, (s.batch.bind fun p => p.pending_blocks r.2) = none :=
    fun r hr => h.reading r (List.mem_of_mem_filter hr)
  unfold NodeReads.fill
  simp only
  split
  · rename_i node hnode
    refine ⟨h.sound.insert logical node, fun b n hb => ?_, h.parsed, hreading, mem_answer h (by rw [hplain, hnode])⟩
    rcases NodeCache.insert_held h.sound hb with hb | ⟨rfl, rfl⟩
    · exact h.held b n hb
    · exact hnode
  · rename_i e he
    exact ⟨h.sound, h.held, h.parsed, hreading, mem_answer h (by rw [hplain, he])⟩

omit [DecidableEq ι] in
theorem alone_ok {t : NodeReads ι} (hstep : s.alone t = some s') : t = s' ∧ s.reading = [] := by
  unfold alone at hstep
  split at hstep
  · exact ⟨Option.some.inj hstep, List.isEmpty_iff.mp ‹_›⟩
  · cases hstep

omit [DecidableEq ι] in
theorem Coherent.set_batch (h : Coherent parse s) (hreading : s.reading = []) (batch : Option PendingBlocks)
    (hparsed : ∀ p, batch = some p → ∀ logical raw node, p.pending_blocks logical = some raw →
      p.pending_nodes logical = some (PendingBlocks.csum raw, node) → parse raw logical = .ok node) :
    Coherent parse { s with batch := batch } where
  sound := h.sound
  held := h.held
  parsed := hparsed
  reading := fun r hr => by rw [hreading] at hr; exact absurd hr List.not_mem_nil
  answers := h.answers

theorem Coherent.step {a : Action ι} (h : Coherent parse s) (hcareful : Careful parse s a)
    (hstep : NodeReads.step parse s a = some s') : Coherent parse s' := by
  cases a with
  | look t logical =>
    rw [NodeReads.step] at hstep
    split at hstep
    · cases hstep
    · cases hstep
      exact h.look
  | fill t =>
    obtain ⟨r, hr, rfl⟩ := Option.map_eq_some_iff.mp hstep
    exact h.fill (h.reading r (List.mem_of_find?_eq_some hr))
  | stage logical raw =>
    obtain ⟨p, hp, hstep⟩ := Option.bind_eq_some_iff.mp hstep
    obtain ⟨rfl, hreading⟩ := alone_ok hstep
    refine h.set_batch hreading _ fun q hq b raw' node hblock hnode => ?_
    cases hq
    simp only at hblock hnode
    by_cases hb : b = logical
    · subst hb
      rw [Function.update_self] at hblock
      cases hblock
      exact hcareful p node hp hnode
    · rw [Function.update_of_ne hb] at hblock
      exact h.parsed p hp b raw' node hblock hnode
  | unstage logical =>
    obtain ⟨p, hp, hstep⟩ := Option.bind_eq_some_iff.mp hstep
    obtain ⟨rfl, hreading⟩ := alone_ok hstep
    refine h.set_batch hreading _ fun q hq b raw' node hblock hnode => ?_
    cases hq
    simp only at hblock hnode
    by_cases hb : b = logical
    · subst hb
      rw [Function.update_self] at hblock
      cases hblock
    · rw [Function.update_of_ne hb] at hblock
      exact h.parsed p hp b raw' node hblock hnode
  | rollback blocks =>
    obtain ⟨p, hp, hstep⟩ := Option.bind_eq_some_iff.mp hstep
    obtain ⟨rfl, hreading⟩ := alone_ok hstep
    refine h.set_batch hreading _ fun q hq b raw' node hblock hnode => ?_
    cases hq
    cases hnode
  | open_batch =>
    obtain ⟨rfl, hreading⟩ := alone_ok hstep
    refine h.set_batch hreading _ fun q hq b raw' node hblock hnode => ?_
    cases hbatch : s.batch with
    | none =>
      rw [hbatch] at hq
      cases hq
      cases hblock
    | some p =>
      rw [hbatch] at hq
      cases hq
      exact h.parsed p hbatch b raw' node hblock hnode
  | discard =>
    obtain ⟨rfl, hreading⟩ := alone_ok hstep
    exact h.set_batch hreading none fun q hq => by cases hq
  | write device =>
    obtain ⟨rfl, -⟩ := alone_ok hstep
    refine ⟨h.sound, fun b node hb => ?_, h.parsed, h.reading, h.answers⟩
    have hkept : s.cache.nodes b ≠ none := fun hnone => Option.some_ne_none node (hb.symm.trans hnone)
    show ((device b).bind fun raw => parse raw b) = .ok node
    rw [hcareful b hkept]
    exact h.held b node hb
  | commit device rearm =>
    obtain ⟨rfl, hreading⟩ := alone_ok hstep
    refine ⟨h.sound.clear, fun b node hb => ?_, fun q hq b raw node hblock hnode => ?_, fun r hr => ?_, h.answers⟩
    · cases hb
    · simp only at hq
      split at hq
      · obtain ⟨p, -, rfl⟩ := Option.map_eq_some_iff.mp hq
        cases hblock
      · cases hq
    · rw [hreading] at hr
      exact absurd hr List.not_mem_nil

/-- However readers interleave with each other and take turns with a batch, file data and commits: every
read is answered as without the caches, and the cache of the mount keeps to its capacity. -/
theorem node_reads_transparent (device : Nat → Except LuksError Bytes) (node_size : Nat) (acts : List (Action ι))
    (hcareful : Machine.Meets (NodeReads.step parse) (Careful parse) (mount device node_size) acts)
    (hrun : Machine.run (NodeReads.step parse) (mount device node_size) acts = some s) :
    (∀ a ∈ s.answers, a.result = a.plain) ∧
    s.cache.order.length ≤ s.cache.capacity ∧ ∀ b, s.cache.nodes b ≠ none ↔ b ∈ s.cache.order := by
  have h := Machine.run_keeps (Coherent parse) (fun s a s' h hc hstep => h.step hc hstep) acts
    (mount_coherent device node_size) hcareful hrun
  exact ⟨h.answers, h.sound.room, h.sound.keys⟩

def zeroDigest : Digest := ⟨fun _ => Bytes.le 32 0, fun _ => Bytes.length_le 32 0⟩

/-- A leaf without items. -/
def bareLeaf (generation : Nat) : Bytes :=
  let body := List.replicate 16 7 ++ Bytes.le 8 65536 ++ List.replicate 24 0 ++ Bytes.le 8 generation ++
    List.replicate 13 0
  CsumType.calculate zeroDigest .Crc32c body ++ body

def bareParse : Bytes → Nat → Except LuksError Raw.Node := fun raw bytenr =>
  Raw.Node.parse zeroDigest raw bytenr .Crc32c (List.replicate 16 7)

/-- The checksum of a block is another one than that of the node which is held for it. -/
def replaces (s : NodeReads ι) : Action ι → Bool
  | .write _ => false
  | .stage logical raw => ((s.batch.bind fun p => p.pending_nodes logical).map Prod.fst).all
    (· ≠ PendingBlocks.csum raw)
  | _ => true

omit [DecidableEq ι] in
theorem careful_of_replaces {a : Action ι} (h : replaces s a = true) : Careful parse s a := by
  cases a with
  | stage logical raw =>
    intro p node hp hnode
    simp [replaces, hp, hnode] at h
  | write => cases h
  | look | fill | unstage | rollback | open_batch | discard | commit => trivial

/-- Two readers miss at once and both fill, a third read hits, and a commit changes the node. Then a batch has the
node, has another one in its place, and is rolled back. -/
def twoReaders : List (Action Bool) :=
  [.look true 65536, .look false 65536, .fill true, .fill false, .look true 65536,
    .commit (fun _ => .ok (bareLeaf 2)) false, .look true 65536, .fill true,
    .open_batch, .stage 65536 (bareLeaf 3), .look true 65536, .look false 65536, .stage 65536 (bareLeaf 4),
    .look true 65536, .rollback (fun _ => none), .look true 65536, .discard, .look false 65536]

theorem node_reads_transparent_twoReaders :
    ∃ s, Machine.run (NodeReads.step bareParse) (mount (fun _ => .ok (bareLeaf 1)) 16384) twoReaders = some s ∧
      s.answers.map (fun a => (a.result.toOption.map Raw.Node.generation)) =
        [some 1, some 1, some 1, some 2, some 3, some 3, some 4, some 2, some 2] ∧
      ∀ a ∈ s.answers, a.result = a.plain := by
  have hanswers : (Machine.run (Machine.guarded (NodeReads.step bareParse) replaces)
      (mount (fun _ => .ok (bareLeaf 1)) 16384) twoReaders).map
        (fun s => s.answers.map fun a => a.result.toOption.map Raw.Node.generation) =
      some [some 1, some 1, some 1, some 2, some 3, some 3, some 4, some 2, some 2] := by
    decide +kernel
  obtain ⟨s, hguarded, hanswers⟩ := Option.map_eq_some_iff.mp hanswers
  obtain ⟨hrun, hreplaces⟩ := Machine.run_guarded hguarded
  have hcareful := hreplaces.mono fun _ _ h => @careful_of_replaces _ bareParse _ _ h
  exact ⟨s, hrun, hanswers, (node_reads_transparent _ _ _ hcareful hrun).1⟩

end NodeReads

end LuksAndroid.Btrfs
