import LuksAndroid.Btrfs.Super.Code

/-!
# Logical addresses on the device

`ChunkMap::map`, the read of `core/src/fs/btrfs/mod.rs` and the write that
`core/src/fs/btrfs/write/file.rs` has three times. Both go from chunk to chunk. A
byte that is written goes to every stripe, a byte that is read comes from the first.
-/

namespace LuksAndroid

variable {σ : Type}

/-! ## What a device holds -/

/-- The device keeps what is written to it. -/
structure WriteAt.Keeps (d : WriteAt σ) (view : σ → Nat → UInt8) : Prop where
  write : ∀ offset data s u s', d.write_at offset data s = .ok u s' → view s' = store (view s) offset data

/-- A read that comes back shows what the device holds. -/
structure ReadAt.Shows (d : ReadAt σ) (view : σ → Nat → UInt8) : Prop where
  read : ∀ offset n s b s', d.read_at offset n s = .ok b s' → b.1 = load (view s) offset n ∧ view s' = view s

theorem memory_keeps (cap : Nat) (known : Bool) : (memory cap known).Keeps fun s => s where
  write := by
    intro offset data s u s' h
    simp only [memory] at h
    split at h
    · cases h
      rfl
    · cases h

theorem memory_shows (cap : Nat) (known : Bool) : (memory cap known).toReadAt.Shows fun s => s where
  read := by
    intro offset n s b s' h
    simp only [memory] at h
    split at h
    · cases h
      exact ⟨rfl, rfl⟩
    · cases h

theorem WriteAt.Keeps.write_ok {d : WriteAt σ} {view : σ → Nat → UInt8} (hd : d.Keeps view) {offset : Nat}
    {data : Bytes} {u : Unit} {io io' : Io σ} (h : d.write offset data io = .ok u io') :
    view io'.state = store (view io.state) offset data := by
  unfold WriteAt.write IoM.ask at h
  cases hw : d.write_at offset data io.state with
  | error e s => rw [hw] at h; cases h
  | ok v s =>
    rw [hw] at h
    cases h
    exact hd.write _ _ _ _ _ hw

theorem ReadAt.Shows.read_ok {d : ReadAt σ} {view : σ → Nat → UInt8} (hd : d.Shows view) {offset n : Nat} {b : Bytes}
    {io io' : Io σ} (h : d.read offset n io = .ok b io') :
    b = load (view io.state) offset n ∧ view io'.state = view io.state := by
  unfold ReadAt.read IoM.ask at h
  simp only [bind, EStateM.bind] at h
  cases hr : d.read_at offset n io.state with
  | error e s => rw [hr] at h; cases h
  | ok v s =>
    rw [hr] at h
    cases h
    exact hd.read _ _ _ _ _ hr

namespace Btrfs

open Word

/-! ## Reading and writing -/

/-- The physical address on the first stripe, and how many bytes from there are in one piece. -/
def ChunkMap.map (m : ChunkMap) (logical : Nat) : Except LuksError (Nat × Nat) :=
  match m.chunk_at logical with
  | none => .error (.CorruptFs "btrfs logical address below the first chunk")
  | some chunk =>
    let within := logical - chunk.logical
    if within ≥ chunk.length then
      .error (.CorruptFs "btrfs logical address falls in an unmapped gap")
    else
      -- The parser turns down a chunk without stripes, so the index is never out of range.
      match chunk.stripes.head? with
      | none => .error (.CorruptFs "btrfs chunk has no stripes")
      | some stripe =>
        match checked_add stripe.offset within with
        | none => .error (.CorruptFs "btrfs physical address overflows")
        | some physical => .ok (physical, chunk.length - within)

/-- The loop of `read_logical`. Each round reads at least one byte. -/
def read_logical_from (d : ReadAt σ) (m : ChunkMap) (logical n : Nat) : Nat → Nat → IoM σ Bytes
  | 0, _ => return []
  | fuel + 1, done =>
    if done < n then do
      let (physical, run) ← IoM.lift (m.map (wrapping_add logical done))
      let take := min (n - done) run
      let piece ← d.read physical take
      let rest ← read_logical_from d m logical n fuel (done + take)
      return piece ++ rest
    else return []

def read_logical (d : ReadAt σ) (m : ChunkMap) (logical n : Nat) : IoM σ Bytes :=
  read_logical_from d m logical n n 0

/-- The loop of every write. Each round writes at least one byte. -/
def write_logical_from (d : WriteAt σ) (m : ChunkMap) (logical : Nat) (data : Bytes) : Nat → Nat → IoM σ Unit
  | 0, _ => return ()
  | fuel + 1, done =>
    if done < data.length then do
      let logical_cur := wrapping_add logical done
      let (_, run) ← IoM.lift (m.map logical_cur)
      let take_stripe := min (data.length - done) run
      let stripes ← IoM.lift (m.map_all_stripes logical_cur)
      write_stripes d (data.slice done take_stripe) stripes
      write_logical_from d m logical data fuel (done + take_stripe)
    else return ()

def write_logical (d : WriteAt σ) (m : ChunkMap) (logical : Nat) (data : Bytes) : IoM σ Unit :=
  write_logical_from d m logical data data.length 0

/-! ## Chunks and their stripes -/

/-- Chunks as a filesystem has them: no two share an address, and their stripes lie at 64-bit addresses too. -/
structure ChunkMap.Apart (m : ChunkMap) : Prop where
  apart : m.chunks.Pairwise fun a b => a.logical + a.length ≤ b.logical
  addresses : ∀ c ∈ m.chunks, c.logical + c.length < size
  physicals : ∀ c ∈ m.chunks, ∀ s ∈ c.stripes, s.offset + c.length < size

/-- No two stripes share a byte either. -/
structure ChunkMap.Placed (m : ChunkMap) : Prop extends m.Apart where
  mirrored : ∀ c ∈ m.chunks, c.stripes ≠ []
  stripes : ∀ c ∈ m.chunks, ∀ s ∈ c.stripes, ∀ c' ∈ m.chunks, ∀ s' ∈ c'.stripes,
    (c, s) = (c', s') ∨ s.offset + c.length ≤ s'.offset ∨ s'.offset + c'.length ≤ s.offset

/-- The physical bytes that hold the byte at `logical`. -/
def ChunkMap.copies (m : ChunkMap) (logical : Nat) : Set Nat :=
  {phys | ∃ physicals, m.map_all_stripes logical = .ok physicals ∧ phys ∈ physicals}

theorem mapM_except_eq {ε α β : Type} {f : α → Except ε β} {g : α → β} {l : List α} (h : ∀ a ∈ l, f a = .ok (g a)) :
    l.mapM f = .ok (l.map g) := by
  induction l with
  | nil => rfl
  | cons a l ih =>
    rw [List.mapM_cons, h a (by simp), ih fun b hb => h b (by simp [hb])]
    rfl

/-- The byte at `logical`, as a read finds it. -/
def ChunkMap.byteAt (m : ChunkMap) (bytes : Nat → UInt8) (logical : Nat) : Option UInt8 :=
  (m.map logical).toOption.map fun p => bytes p.1

namespace ChunkMap

variable {m : ChunkMap}

theorem chunk_at_mem {x : Nat} {c : Chunk} (h : m.chunk_at x = some c) : c ∈ m.chunks ∧ c.logical ≤ x := by
  have hmem : c ∈ m.chunks.takeWhile fun c => c.logical ≤ x := List.mem_of_getLast? h
  exact ⟨(List.takeWhile_sublist _).subset hmem, by simpa using List.mem_takeWhile_imp hmem⟩

theorem Apart.chunk_at_eq (hm : m.Apart) {c : Chunk} (hc : c ∈ m.chunks) {x : Nat} (hlo : c.logical ≤ x)
    (hhi : x < c.logical + c.length) : m.chunk_at x = some c := by
  obtain ⟨pre, post, hsplit⟩ := List.append_of_mem hc
  have hapart := hm.apart
  rw [hsplit, List.pairwise_append, List.pairwise_cons] at hapart
  obtain ⟨-, ⟨hpost, -⟩, hpre⟩ := hapart
  have htake : m.chunks.takeWhile (fun c => c.logical ≤ x) = pre ++ [c] := by
    rw [hsplit, List.takeWhile_append_of_pos]
    · rw [List.takeWhile_cons_of_pos (by simpa using hlo)]
      cases post with
      | nil => rfl
      | cons p post =>
        have := hpost p (by simp)
        rw [List.takeWhile_cons_of_neg (by simp only [decide_eq_true_eq]; omega)]
    · intro p hp
      have := hpre p hp c (by simp)
      simp only [decide_eq_true_eq]
      omega
  rw [chunk_at, htake]
  simp

theorem Apart.map_all_stripes_eq (hm : m.Apart) {c : Chunk} (hc : c ∈ m.chunks) {x : Nat} (hlo : c.logical ≤ x)
    (hhi : x < c.logical + c.length) :
    m.map_all_stripes x = .ok (c.stripes.map fun s => s.offset + (x - c.logical)) := by
  rw [map_all_stripes, hm.chunk_at_eq hc hlo hhi]
  simp only
  rw [if_neg (by omega)]
  apply mapM_except_eq
  intro s hs
  have hword := hm.physicals c hc s hs
  have hadd : checked_add s.offset (x - c.logical) = some (s.offset + (x - c.logical)) := if_pos (by omega)
  rw [hadd]

theorem Apart.mem_copies (hm : m.Apart) {c : Chunk} (hc : c ∈ m.chunks) {x phys : Nat} (hlo : c.logical ≤ x)
    (hhi : x < c.logical + c.length) : phys ∈ m.copies x ↔ ∃ s ∈ c.stripes, phys = s.offset + (x - c.logical) := by
  simp only [copies, hm.map_all_stripes_eq hc hlo hhi, Set.mem_ofPred_eq, Except.ok.injEq, exists_eq_left']
  simp [eq_comm]

theorem Placed.chunk_of_copy {x phys : Nat} (h : phys ∈ m.copies x) :
    ∃ c ∈ m.chunks, c.logical ≤ x ∧ x < c.logical + c.length := by
  obtain ⟨physicals, hmap, -⟩ := h
  unfold map_all_stripes at hmap
  cases hat : m.chunk_at x with
  | none => rw [hat] at hmap; cases hmap
  | some c =>
    rw [hat] at hmap
    obtain ⟨hc, hle⟩ := chunk_at_mem hat
    simp only at hmap
    split at hmap
    · cases hmap
    · exact ⟨c, hc, hle, by omega⟩

theorem Placed.copies_inj (hm : m.Placed) {x y phys : Nat} (hx : phys ∈ m.copies x) (hy : phys ∈ m.copies y) :
    x = y := by
  obtain ⟨c, hc, hlo, hhi⟩ := chunk_of_copy hx
  obtain ⟨c', hc', hlo', hhi'⟩ := chunk_of_copy hy
  obtain ⟨s, hs, hsx⟩ := (hm.mem_copies hc hlo hhi).mp hx
  obtain ⟨s', hs', hsy⟩ := (hm.mem_copies hc' hlo' hhi').mp hy
  rcases hm.stripes c hc s hs c' hc' s' hs' with heq | hapart | hapart
  · cases heq
    omega
  · omega
  · omega

theorem map_ok {x physical run : Nat} (h : m.map x = .ok (physical, run)) :
    ∃ c ∈ m.chunks, c.logical ≤ x ∧ x < c.logical + c.length ∧ run = c.logical + c.length - x ∧
      ∃ s, c.stripes.head? = some s ∧ physical = s.offset + (x - c.logical) := by
  unfold map at h
  cases hat : m.chunk_at x with
  | none => rw [hat] at h; cases h
  | some c =>
    rw [hat] at h
    obtain ⟨hc, hle⟩ := chunk_at_mem hat
    simp only at h
    split at h
    · cases h
    cases hstripe : c.stripes.head? with
    | none => rw [hstripe] at h; cases h
    | some s =>
      rw [hstripe] at h
      cases hadd : checked_add s.offset (x - c.logical) with
      | none => simp only [hadd] at h; cases h
      | some phys =>
        simp only [hadd] at h
        cases h
        exact ⟨c, hc, hle, by omega, by omega, s, hstripe, (checked_add_eq_some hadd).1⟩

theorem Apart.map_eq (hm : m.Apart) {c : Chunk} (hc : c ∈ m.chunks) {s : Stripe} (hs : c.stripes.head? = some s)
    {x : Nat} (hlo : c.logical ≤ x) (hhi : x < c.logical + c.length) :
    m.map x = .ok (s.offset + (x - c.logical), c.length - (x - c.logical)) := by
  have hword := hm.physicals c hc s (List.mem_of_mem_head? hs)
  have hadd : checked_add s.offset (x - c.logical) = some (s.offset + (x - c.logical)) := if_pos (by omega)
  rw [map, hm.chunk_at_eq hc hlo hhi]
  simp only
  rw [if_neg (by omega)]
  simp only [hs, hadd]

end ChunkMap

/-! ## What a write leaves -/

variable {d : WriteAt σ} {view : σ → Nat → UInt8} {m : ChunkMap}

theorem store_eq {f : Nat → UInt8} {offset q : Nat} {data : Bytes} {v : UInt8}
    (hin : offset ≤ q → q < offset + data.length → data.getD (q - offset) 0 = v)
    (hout : (offset ≤ q ∧ q < offset + data.length) ∨ f q = v) : store f offset data q = v := by
  unfold store
  split
  · rename_i hq
    exact hin hq.1 hq.2
  · rename_i hq
    exact hout.resolve_left hq

/-- A byte ends up as `v` when every write that touches it puts `v` there, and one does or it was `v` before. -/
theorem write_stripes_ok (hd : d.Keeps view) {data : Bytes} {l : List Nat} {u : Unit} {io io' : Io σ}
    (h : write_stripes d data l io = .ok u io') {q : Nat} {v : UInt8}
    (hin : ∀ p ∈ l, p ≤ q → q < p + data.length → data.getD (q - p) 0 = v)
    (hout : (∃ p ∈ l, p ≤ q ∧ q < p + data.length) ∨ view io.state q = v) : view io'.state q = v := by
  induction l generalizing io with
  | nil =>
    obtain ⟨-, rfl⟩ := Run.pure_ok.mp h
    simpa using hout
  | cons p l ih =>
    obtain ⟨_, io₁, hw, hrest⟩ := Run.bind_ok.mp h
    apply ih hrest fun p' hp' => hin p' (by simp [hp'])
    rw [hd.write_ok hw]
    by_cases hlater : ∃ p' ∈ l, p' ≤ q ∧ q < p' + data.length
    · exact Or.inl hlater
    · right
      apply store_eq (hin p (by simp))
      rcases hout with ⟨p', hp', hq⟩ | hv
      · rcases List.mem_cons.mp hp' with rfl | hp'
        · exact Or.inl hq
        · exact absurd ⟨p', hp', hq⟩ hlater
      · exact Or.inr hv

theorem write_round_ok (hd : d.Keeps view) (hm : m.Placed) {logical done take : Nat} {data : Bytes} {c : Chunk}
    (hc : c ∈ m.chunks) (hlo : c.logical ≤ logical + done) (hhi : logical + done + take ≤ c.logical + c.length)
    (hpos : 0 < take) (htake : done + take ≤ data.length) {stripes : List Nat}
    (hstripes : m.map_all_stripes (logical + done) = .ok stripes) {u : Unit} {io io' : Io σ}
    (h : write_stripes d (data.slice done take) stripes io = .ok u io') {q : Nat} {v : UInt8}
    (hin : ∀ j, done ≤ j → j < done + take → q ∈ m.copies (logical + j) → data.getD j 0 = v)
    (hout : (∃ j, done ≤ j ∧ j < done + take ∧ q ∈ m.copies (logical + j)) ∨ view io.state q = v) :
    view io'.state q = v := by
  have hlen : (data.slice done take).length = take := by simp [Bytes.slice]; omega
  rw [hm.map_all_stripes_eq hc hlo (by omega)] at hstripes
  cases hstripes
  have hcopy : ∀ j, done ≤ j → j < done + take → (q ∈ m.copies (logical + j) ↔
      ∃ s ∈ c.stripes, q = s.offset + (logical + j - c.logical)) :=
    fun j h1 h2 => hm.mem_copies hc (by omega) (by omega)
  apply write_stripes_ok hd h
  · intro p hp hlow hhigh
    obtain ⟨s, hs, rfl⟩ := List.mem_map.mp hp
    rw [hlen] at hhigh
    have hj := hin (done + (q - (s.offset + (logical + done - c.logical)))) (by omega) (by omega)
      ((hcopy _ (by omega) (by omega)).mpr ⟨s, hs, by omega⟩)
    rw [List.getD_eq_getElem?_getD] at hj ⊢
    rw [Bytes.getElem?_slice, if_pos (by omega)]
    exact hj
  · rcases hout with ⟨j, h1, h2, hq⟩ | hv
    · obtain ⟨s, hs, rfl⟩ := (hcopy j h1 h2).mp hq
      exact Or.inl ⟨_, List.mem_map.mpr ⟨s, hs, rfl⟩, by omega, by rw [hlen]; omega⟩
    · exact Or.inr hv

theorem write_logical_from_ok (hd : d.Keeps view) (hm : m.Placed) {logical : Nat} {data : Bytes}
    (hword : logical + data.length ≤ size) {fuel done : Nat} (hfuel : data.length ≤ done + fuel) {u : Unit}
    {io io' : Io σ} (h : write_logical_from d m logical data fuel done io = .ok u io') :
    (∀ j, done ≤ j → j < data.length → (m.copies (logical + j)).Nonempty) ∧
    ∀ q v, (∀ j, done ≤ j → j < data.length → q ∈ m.copies (logical + j) → data.getD j 0 = v) →
      (∃ j, done ≤ j ∧ j < data.length ∧ q ∈ m.copies (logical + j)) ∨ view io.state q = v →
      view io'.state q = v := by
  induction fuel generalizing done io with
  | zero =>
    obtain ⟨-, rfl⟩ := Run.pure_ok.mp h
    refine ⟨fun j h1 h2 => by omega, fun q v _ hout => ?_⟩
    rcases hout with ⟨j, h1, h2, -⟩ | hv
    · omega
    · exact hv
  | succ fuel ih =>
    rw [write_logical_from] at h
    split at h
    · rename_i hmore
      simp only [wrapping_add_of_lt (show logical + done < size by omega)] at h
      obtain ⟨⟨physical, run⟩, io₁, hlift, h⟩ := Run.bind_ok.mp h
      obtain ⟨hmap, rfl⟩ := IoM.lift_ok.mp hlift
      obtain ⟨stripes, io₂, hlift, h⟩ := Run.bind_ok.mp h
      obtain ⟨hstripes, rfl⟩ := IoM.lift_ok.mp hlift
      obtain ⟨_, io₃, hw, h⟩ := Run.bind_ok.mp h
      obtain ⟨c, hc, hlo, hhi, rfl, -⟩ := ChunkMap.map_ok hmap
      simp only at hw h
      generalize htake : min (data.length - done) (c.logical + c.length - (logical + done)) = take at hw h
      obtain ⟨hall, hlast⟩ := ih (by omega) h
      refine ⟨?_, ?_⟩
      · intro j h1 h2
        by_cases hj : j < done + take
        · obtain ⟨s, hs⟩ := List.exists_mem_of_ne_nil _ (hm.mirrored c hc)
          exact ⟨_, (hm.mem_copies hc (by omega) (by omega)).mpr ⟨s, hs, rfl⟩⟩
        · exact hall j (by omega) h2
      · intro q v hin hout
        apply hlast q v fun j h1 h2 => hin j (by omega) h2
        by_cases hlater : ∃ j, done + take ≤ j ∧ j < data.length ∧ q ∈ m.copies (logical + j)
        · exact Or.inl hlater
        · right
          apply write_round_ok hd hm hc hlo (by omega) (by omega) (by omega) hstripes hw
            fun j h1 h2 => hin j h1 (by omega)
          rcases hout with ⟨j, h1, h2, hq⟩ | hv
          · by_cases hj : j < done + take
            · exact Or.inl ⟨j, h1, hj, hq⟩
            · exact absurd ⟨j, by omega, h2, hq⟩ hlater
          · exact Or.inr hv
    · obtain ⟨-, rfl⟩ := Run.pure_ok.mp h
      refine ⟨fun j h1 h2 => by omega, fun q v _ hout => ?_⟩
      rcases hout with ⟨j, h1, h2, -⟩ | hv
      · omega
      · exact hv

/-- Every copy of every address of the range holds the byte that was written for it, and nothing else changes. -/
theorem write_logical_ok (hd : d.Keeps view) (hm : m.Placed) {logical : Nat} {data : Bytes}
    (hword : logical + data.length ≤ size) {u : Unit} {io io' : Io σ}
    (h : write_logical d m logical data io = .ok u io') :
    (∀ j < data.length, (m.copies (logical + j)).Nonempty ∧
      ∀ q ∈ m.copies (logical + j), view io'.state q = data.getD j 0) ∧
    ∀ q, (∀ j < data.length, q ∉ m.copies (logical + j)) → view io'.state q = view io.state q := by
  obtain ⟨hmapped, hbytes⟩ := write_logical_from_ok hd hm hword (Nat.le_add_left _ _) h
  refine ⟨fun j hj => ⟨hmapped j (Nat.zero_le _) hj, fun q hq => ?_⟩, fun q hq => ?_⟩
  · apply hbytes q
    · intro i _ _ hqi
      have := hm.copies_inj hq hqi
      rw [show i = j by omega]
    · exact Or.inl ⟨j, Nat.zero_le _, hj, hq⟩
  · apply hbytes q
    · exact fun j _ hj hqj => absurd hqj (hq j hj)
    · exact Or.inr rfl

/-! ## What a read shows -/

theorem read_logical_from_ok {d : ReadAt σ} (hd : d.Shows view) (hm : m.Apart) {logical n : Nat} {fuel done : Nat}
    (hword : logical + done < size) (hfuel : n ≤ done + fuel) {out : Bytes} {io io' : Io σ}
    (h : read_logical_from d m logical n fuel done io = .ok out io') :
    out.length = n - done ∧ view io'.state = view io.state ∧
      ∀ i < n - done, m.byteAt (view io.state) (logical + (done + i)) = some (out.getD i 0) := by
  induction fuel generalizing done out io with
  | zero =>
    obtain ⟨rfl, rfl⟩ := Run.pure_ok.mp h
    exact ⟨by simp; omega, rfl, fun i hi => by omega⟩
  | succ fuel ih =>
    rw [read_logical_from] at h
    split at h
    · simp only [wrapping_add_of_lt hword] at h
      obtain ⟨⟨physical, run⟩, io₁, hlift, h⟩ := Run.bind_ok.mp h
      obtain ⟨hmap, rfl⟩ := IoM.lift_ok.mp hlift
      obtain ⟨c, hc, hlo, hhi, rfl, s, hs, rfl⟩ := ChunkMap.map_ok hmap
      simp only at h
      generalize htake : min (n - done) (c.logical + c.length - (logical + done)) = take at h
      obtain ⟨piece, io₂, hread, h⟩ := Run.bind_ok.mp h
      obtain ⟨rfl, hview⟩ := hd.read_ok hread
      obtain ⟨rest, io₃, hrest, h⟩ := Run.bind_ok.mp h
      obtain ⟨rfl, rfl⟩ := Run.pure_ok.mp h
      have haddr := hm.addresses c hc
      obtain ⟨hlen, hview', hbytes⟩ := ih (by omega) (by omega) hrest
      refine ⟨by rw [List.length_append, length_load, hlen]; omega, hview'.trans hview, ?_⟩
      intro i hi
      rw [List.getD_eq_getElem?_getD]
      by_cases hin : i < take
      · rw [List.getElem?_append_left (by rw [length_load]; exact hin), ChunkMap.byteAt,
          hm.map_eq hc hs (by omega) (by omega)]
        simp only [Except.toOption, Option.map_some, load, List.getElem?_map, List.getElem?_range hin,
          Option.getD_some]
        congr 2
        omega
      · rw [List.getElem?_append_right (by rw [length_load]; omega), length_load, ← List.getD_eq_getElem?_getD]
        have hbyte := hbytes (i - take) (by omega)
        rw [hview, show logical + (done + take + (i - take)) = logical + (done + i) by omega] at hbyte
        exact hbyte
    · obtain ⟨rfl, rfl⟩ := Run.pure_ok.mp h
      exact ⟨by simp; omega, rfl, fun i hi => by omega⟩

theorem read_logical_ok {d : ReadAt σ} (hd : d.Shows view) (hm : m.Apart) {logical n : Nat} (hword : logical < size)
    {out : Bytes} {io io' : Io σ} (h : read_logical d m logical n io = .ok out io') :
    out.length = n ∧ view io'.state = view io.state ∧
      ∀ i < n, m.byteAt (view io.state) (logical + i) = some (out.getD i 0) := by
  obtain ⟨hlen, hview, hbytes⟩ := read_logical_from_ok hd hm (by omega) (Nat.le_add_left _ _) h
  refine ⟨by omega, hview, fun i hi => ?_⟩
  have hbyte := hbytes i (by omega)
  rwa [Nat.zero_add] at hbyte

end Btrfs

end LuksAndroid
