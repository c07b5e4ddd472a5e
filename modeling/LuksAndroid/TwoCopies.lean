import LuksAndroid.Partition
import LuksAndroid.Steady

/-!
# The two copies of the partition table

What a scan makes of a device that carries a GPT twice and was damaged in the first copy, which
numbers of a listed partition are exact, and the indexes of the parsers.
-/

namespace LuksAndroid

open Word

/-! ## What a scan reads -/

section

variable (hash : Bytes → Nat) (cap ss : Nat) (m : Nat → UInt8)

def primaryHeader : Option Gpt.Header :=
  (seek cap m ss ss).bind fun buf => (Gpt.parse_header hash buf).toOption

def headerAt (lba : Nat) : Option Gpt.Header :=
  (seek cap m (wrapping_mul lba ss) ss).bind fun buf => (Gpt.parse_header hash buf).toOption

/-- The entries that a header leads to, once their checksum is right. -/
def entriesOf (h : Gpt.Header) : Option (List Partition) :=
  (seek cap m (wrapping_mul h.entry_lba ss) (h.num_entries * h.entry_size)).bind fun raw =>
    if hash raw ≠ h.entries_crc then none
    else (Gpt.read_entry_list ss h.entry_size raw (List.range h.num_entries)).toOption

def entriesAt (lba : Nat) : Option (List Partition) := (headerAt hash cap ss m lba).bind (entriesOf hash cap ss m)

def lastLba : Nat := wrapping_sub (cap / ss) 1

/-- The entries of the first copy, or of the copy that its header names. -/
def fromPrimary (h : Gpt.Header) : Option (List Partition) :=
  (entriesOf hash cap ss m h).or (entriesAt hash cap ss m h.backup_lba)

def gptEntries : Option (List Partition) :=
  ((primaryHeader hash cap ss m).bind (fromPrimary hash cap ss m)).or (entriesAt hash cap ss m (lastLba cap ss))

def probeAt (offset : Nat) : Option Nat := (seek cap m offset 8).bind fun head => (detect_version head).toOption

def marked (p : Partition) : Option Nat → Partition
  | some version => { p with is_luks := true, luks_version := some version }
  | none => p

def probed (p : Partition) : Partition := marked p (probeAt cap m p.offset_bytes)

end

section

variable {hash : Bytes → Nat} {cap ss : Nat} {m : Nat → UInt8}

theorem read_entries_yields (h : Gpt.Header) :
    Yields m (Gpt.read_entries hash (memory cap true).toReadAt h ss) (entriesOf hash cap ss m h) := by
  refine .bind (.read _ _ _) fun raw _ => ?_
  split
  · exact .throw _
  · exact .lift _

theorem parse_at_yields (lba : Nat) :
    Yields m (Gpt.parse_at hash (memory cap true).toReadAt ss lba)
      ((entriesAt hash cap ss m lba).map (PartitionTable.mk .Gpt)) := by
  have h : Yields m (Gpt.parse_at hash (memory cap true).toReadAt ss lba)
      ((seek cap m (wrapping_mul lba ss) ss).bind fun buf => (Gpt.parse_header hash buf).toOption.bind fun header =>
        (entriesOf hash cap ss m header).bind fun ps => some ⟨.Gpt, ps⟩) := by
    refine .bind (.read _ _ _) fun buf _ => .bind (.lift _) fun header _ => .bind (read_entries_yields header) ?_
    exact fun ps _ => .pure _
  unfold entriesAt headerAt
  rw [Option.map_bind, Option.bind_assoc]
  simpa only [Function.comp_def, Option.map_eq_bind] using h

theorem primary_header_yields :
    Yields m (Gpt.primary_header hash (memory cap true).toReadAt ss) (some (primaryHeader hash cap ss m)) := by
  unfold Gpt.primary_header primaryHeader
  show Yields m _ ((some (seek cap m ss ss)).bind fun buf =>
    some (buf.bind fun b => (Gpt.parse_header hash b).toOption))
  refine .bind (Yields.read cap ss ss).ok ?_
  exact fun buf _ => .pure _

theorem parse_last_yields :
    Yields m (Gpt.parse_last hash (memory cap true).toReadAt ss)
      ((entriesAt hash cap ss m (lastLba cap ss)).map (PartitionTable.mk .Gpt)) := by
  unfold Gpt.parse_last lastLba
  rw [show (memory cap true).len = some cap from rfl]
  exact parse_at_yields _

theorem parse_yields :
    Yields m (Gpt.parse hash (memory cap true).toReadAt ss)
      ((gptEntries hash cap ss m).map (PartitionTable.mk .Gpt)) := by
  unfold Gpt.parse gptEntries
  show Yields m _ ((some (primaryHeader hash cap ss m)).bind fun header =>
    ((header.bind (fromPrimary hash cap ss m)).or (entriesAt hash cap ss m (lastLba cap ss))).map
      (PartitionTable.mk .Gpt))
  refine .bind primary_header_yields ?_
  intro header hheader
  cases header with
  | none =>
    rw [Option.bind_none, Option.none_or]
    exact parse_last_yields
  | some header =>
    rw [Option.bind_some]
    unfold fromPrimary
    rw [Option.map_or, Option.map_or]
    show Yields m _ ((some (entriesOf hash cap ss m header)).bind fun parts =>
      ((parts.map (PartitionTable.mk .Gpt)).or
        ((entriesAt hash cap ss m header.backup_lba).map (PartitionTable.mk .Gpt))).or
          ((entriesAt hash cap ss m (lastLba cap ss)).map (PartitionTable.mk .Gpt)))
    refine .bind (read_entries_yields header).ok ?_
    intro parts hparts
    cases parts with
    | some parts =>
      rw [Option.map_some, Option.some_or, Option.some_or]
      exact .pure _
    | none =>
      rw [Option.map_none, Option.none_or]
      show Yields m _ ((some ((entriesAt hash cap ss m header.backup_lba).map (PartitionTable.mk .Gpt))).bind
        fun table =>
        table.or ((entriesAt hash cap ss m (lastLba cap ss)).map (PartitionTable.mk .Gpt)))
      refine .bind (parse_at_yields header.backup_lba).ok ?_
      intro table htable
      cases table with
      | some table =>
        rw [Option.some_or]
        exact .pure _
      | none =>
        rw [Option.none_or]
        exact parse_last_yields

/-! ## The probes -/

theorem probe_luks_yields (offset : Nat) :
    Yields m (probe_luks (memory cap true).toReadAt offset) (some (probeAt cap m offset)) := by
  unfold probe_luks probeAt
  show Yields m _ ((some (seek cap m offset 8)).bind fun head =>
    some (head.bind fun b => (detect_version b).toOption))
  refine .bind (Yields.read cap offset 8).ok ?_
  exact fun head _ => .pure _

theorem probe_partition_yields (p : Partition) :
    Yields m (probe_partition (memory cap true).toReadAt p) (some (probed cap m p)) := by
  unfold probe_partition probed
  generalize hprobe : probeAt cap m p.offset_bytes = version
  have hyields := @probe_luks_yields cap m p.offset_bytes
  rw [hprobe] at hyields
  show Yields m _ ((some version).bind fun version => some (marked p version))
  refine .bind hyields ?_
  intro version _
  cases version with
  | some version => exact .pure _
  | none => exact .pure _

theorem probe_partitions_yields (ps : List Partition) :
    Yields m (probe_partitions (memory cap true).toReadAt ps) (some (ps.map (probed cap m))) := by
  induction ps with
  | nil => exact .pure _
  | cons p ps ih =>
    unfold probe_partitions
    show Yields m _ ((some (probed cap m p)).bind fun p => (some (ps.map (probed cap m))).bind fun rest =>
      some (p :: rest))
    refine .bind (probe_partition_yields p) fun p _ => .bind ih ?_
    exact fun rest _ => .pure _

theorem scan_yields {ps : List Partition} (h : gptEntries hash cap ss m = some ps) :
    Yields m (scan hash (memory cap true).toReadAt ss) (some ⟨.Gpt, ps.map (probed cap m)⟩) := by
  have hparse := @parse_yields hash cap ss m
  rw [h, Option.map_some] at hparse
  have hfind : Yields m (find_table hash (memory cap true).toReadAt ss) (some ⟨.Gpt, ps⟩) := by
    unfold find_table
    show Yields m _ ((some (some (PartitionTable.mk .Gpt ps))).bind fun table => table)
    refine .bind hparse.ok ?_
    intro table htable
    cases htable
    exact .pure _
  unfold scan
  show Yields m _ ((some (PartitionTable.mk .Gpt ps)).bind fun table =>
    (some (ps.map (probed cap m))).bind fun partitions => some { table with partitions := partitions })
  refine .bind hfind ?_
  intro table htable
  cases htable
  refine .bind (probe_partitions_yields ps) ?_
  exact fun partitions _ => .pure _

/-! ## Damage to the first copy -/

/-- Bytes from `a.1` on, `a.2` of them. -/
def Within (a : Nat × Nat) (i : Nat) : Prop := a.1 ≤ i ∧ i < a.1 + a.2

def headerArea (ss lba : Nat) : Nat × Nat := (wrapping_mul lba ss, ss)

def entryArea (ss : Nat) (h : Gpt.Header) : Nat × Nat := (wrapping_mul h.entry_lba ss, h.num_entries * h.entry_size)

/-- A valid GPT in LBA 1 and another in the last LBA, for the same entries and apart from each other. -/
structure TwoCopies (hash : Bytes → Nat) (cap ss : Nat) (m : Nat → UInt8) (h₁ h₂ : Gpt.Header) (ps : List Partition) :
    Prop where
  primary : primaryHeader hash cap ss m = some h₁
  primary_entries : entriesOf hash cap ss m h₁ = some ps
  backup : headerAt hash cap ss m (lastLba cap ss) = some h₂
  backup_entries : entriesOf hash cap ss m h₂ = some ps
  apart : ∀ a ∈ [(ss, ss), entryArea ss h₁], ∀ b ∈ [headerArea ss (lastLba cap ss), entryArea ss h₂], Bytes.Apart a b

/-- All that differs lies in the header or in the entry array of the first copy. -/
def Damaged (ss : Nat) (h₁ : Gpt.Header) (m m' : Nat → UInt8) : Prop :=
  ∀ i, m' i ≠ m i → Within (ss, ss) i ∨ Within (entryArea ss h₁) i

theorem load_eq_of_within {m m' : Nat → UInt8} {offset n : Nat} (h : ∀ i, Within (offset, n) i → m' i = m i) :
    load m' offset n = load m offset n := by
  unfold load
  apply List.map_congr_left
  intro i hi
  have := List.mem_range.mp hi
  exact h (offset + i) ⟨by simp, by simp only; omega⟩

theorem seek_eq_of_within {m m' : Nat → UInt8} {offset n : Nat} (h : ∀ i, Within (offset, n) i → m' i = m i) :
    seek cap m' offset n = seek cap m offset n := by
  unfold seek
  rw [load_eq_of_within h]

theorem TwoCopies.backup_intact {h₁ h₂ : Gpt.Header} {ps : List Partition} {m' : Nat → UInt8}
    (h : TwoCopies hash cap ss m h₁ h₂ ps) (hdamage : Damaged ss h₁ m m') :
    entriesAt hash cap ss m' (lastLba cap ss) = some ps := by
  have hsame : ∀ b ∈ [headerArea ss (lastLba cap ss), entryArea ss h₂], ∀ i, Within b i → m' i = m i := by
    intro b hb i hi
    by_contra hne
    have hout : ∀ a ∈ [(ss, ss), entryArea ss h₁], ¬ Within a i := by
      intro a ha hin
      unfold Within at hi hin
      rcases h.apart a ha b hb with hlt | hlt <;> omega
    rcases hdamage i hne with hin | hin
    · exact hout _ (by simp) hin
    · exact hout _ (by simp) hin
  have hheader : headerAt hash cap ss m' (lastLba cap ss) = some h₂ := by
    rw [← h.backup]
    unfold headerAt
    rw [seek_eq_of_within (hsame (headerArea ss (lastLba cap ss)) (by simp))]
  unfold entriesAt
  rw [hheader, Option.bind_some, ← h.backup_entries]
  unfold entriesOf
  rw [seek_eq_of_within (hsame (entryArea ss h₂) (by simp))]

/-- An entry as it is read says nothing about a LUKS header. -/
theorem entriesOf_fresh {h : Gpt.Header} {ps : List Partition} (hps : entriesOf hash cap ss m h = some ps) :
    ∀ p ∈ ps, p.is_luks = false ∧ p.luks_version = none := by
  obtain ⟨raw, -, hps⟩ := Option.bind_eq_some_iff.mp hps
  split at hps
  · cases hps
  · rcases hlist : Gpt.read_entry_list ss h.entry_size raw (List.range h.num_entries) with e | qs
    · rw [hlist] at hps
      cases hps
    · rw [hlist] at hps
      cases hps
      refine @Gpt.read_entry_list_all (fun p => p.is_luks = false ∧ p.luks_version = none) ss ?_ _ _ _ _ hlist
      intro i e p hp
      unfold Gpt.read_entry at hp
      simp only at hp
      split at hp
      · cases hp
      · split at hp
        · cases hp
        · cases hp
          exact ⟨rfl, rfl⟩

theorem fromPrimary_fresh {h : Gpt.Header} {ps : List Partition} (hps : fromPrimary hash cap ss m h = some ps) :
    ∀ p ∈ ps, p.is_luks = false ∧ p.luks_version = none := by
  unfold fromPrimary at hps
  rcases Option.or_eq_some_iff.mp hps with hps | ⟨-, hps⟩
  · exact entriesOf_fresh hps
  · obtain ⟨h', -, hps⟩ := Option.bind_eq_some_iff.mp hps
    exact entriesOf_fresh hps

theorem marked_injective {p q : Partition} {v w : Option Nat} (hp : p.is_luks = false ∧ p.luks_version = none)
    (hq : q.is_luks = false ∧ q.luks_version = none) (h : marked p v = marked q w) : p = q ∧ v = w := by
  cases p
  cases q
  cases v <;> cases w <;> simp_all [marked]

theorem probed_map_iff {m m' : Nat → UInt8} {ps qs : List Partition}
    (hps : ∀ p ∈ ps, p.is_luks = false ∧ p.luks_version = none)
    (hqs : ∀ p ∈ qs, p.is_luks = false ∧ p.luks_version = none) :
    qs.map (probed cap m') = ps.map (probed cap m) ↔
      qs = ps ∧ ∀ p ∈ ps, probeAt cap m' p.offset_bytes = probeAt cap m p.offset_bytes := by
  constructor
  · intro h
    induction ps generalizing qs with
    | nil => exact ⟨List.map_eq_nil_iff.mp h, by simp⟩
    | cons p ps ih =>
      cases qs with
      | nil => cases h
      | cons q qs =>
        rw [List.map_cons, List.map_cons, List.cons.injEq] at h
        obtain ⟨rfl, hprobe⟩ := marked_injective (hqs q (by simp)) (hps p (by simp)) h.1
        obtain ⟨rfl, hrest⟩ := ih (fun x hx => hps x (by simp [hx])) (fun x hx => hqs x (by simp [hx])) h.2
        refine ⟨rfl, ?_⟩
        intro x hx
        rcases List.mem_cons.mp hx with rfl | hx
        · exact hprobe
        · exact hrest x hx
  · rintro ⟨rfl, hprobe⟩
    apply List.map_congr_left
    intro p hp
    unfold probed
    rw [hprobe p hp]

/-- Whatever state of the two stores the scans start from, they list the same. -/
def Recovers (hash : Bytes → Nat) (cap ss : Nat) (m m' : Nat → UInt8) : Prop :=
  ∀ io io' : Io (Nat → UInt8), io.state = m → io'.state = m' → ∃ t t' io₁ io₁',
    scan hash (memory cap true).toReadAt ss io = .ok t io₁ ∧
    scan hash (memory cap true).toReadAt ss io' = .ok t' io₁' ∧ t' = t

/-- What still verifies in the first copy, or in the copy that its header names, lists the same entries,
and no partition looks different where it starts. -/
def Detected (hash : Bytes → Nat) (cap ss : Nat) (m m' : Nat → UInt8) (ps : List Partition) : Prop :=
  (∀ h, primaryHeader hash cap ss m' = some h → ∀ qs, fromPrimary hash cap ss m' h = some qs → qs = ps) ∧
  ∀ p ∈ ps, probeAt cap m' p.offset_bytes = probeAt cap m p.offset_bytes

theorem TwoCopies.recovers_iff {h₁ h₂ : Gpt.Header} {ps : List Partition} {m' : Nat → UInt8}
    (h : TwoCopies hash cap ss m h₁ h₂ ps) (hdamage : Damaged ss h₁ m m') :
    Recovers hash cap ss m m' ↔ Detected hash cap ss m m' ps := by
  have hbackup := h.backup_intact hdamage
  have hhealthy : gptEntries hash cap ss m = some ps := by
    unfold gptEntries fromPrimary
    rw [h.primary, Option.bind_some, h.primary_entries, Option.some_or, Option.some_or]
  have hpsfresh := entriesOf_fresh h.primary_entries
  -- What the damaged device lists is what its first copy makes of itself, or else the backup.
  obtain ⟨qs, hqs, hqsfresh, hfirst⟩ : ∃ qs, gptEntries hash cap ss m' = some qs ∧
      (∀ q ∈ qs, q.is_luks = false ∧ q.luks_version = none) ∧
      (qs = ps ↔ ∀ h', primaryHeader hash cap ss m' = some h' → ∀ qs, fromPrimary hash cap ss m' h' = some qs →
        qs = ps) := by
    unfold gptEntries
    rw [hbackup]
    rcases hv : (primaryHeader hash cap ss m').bind (fromPrimary hash cap ss m') with _ | qs
    · refine ⟨ps, rfl, hpsfresh, fun _ h' hh' qs hqs => ?_, fun _ => rfl⟩
      rw [hh', Option.bind_some, hqs] at hv
      cases hv
    · obtain ⟨h', hh', hqs⟩ := Option.bind_eq_some_iff.mp hv
      refine ⟨qs, rfl, fromPrimary_fresh hqs, fun heq h'' hh'' qs' hqs' => ?_, fun hall => hall h' hh' qs hqs⟩
      rw [hh'] at hh''
      cases hh''
      rw [hqs] at hqs'
      cases hqs'
      exact heq
  unfold Detected
  rw [← hfirst, ← probed_map_iff hpsfresh hqsfresh]
  constructor
  · intro hrecovers
    obtain ⟨t, t', io₁, io₁', hscan, hscan', heq⟩ := hrecovers ⟨m, [], false⟩ ⟨m', [], false⟩ rfl rfl
    have ht := (scan_yields hhealthy).returns rfl hscan
    have ht' := (scan_yields hqs).returns rfl hscan'
    rw [ht, ht'] at heq
    exact congrArg PartitionTable.partitions heq
  · intro hsame io io' hio hio'
    obtain ⟨io₁, hscan⟩ := (scan_yields hhealthy).run io hio
    obtain ⟨io₁', hscan'⟩ := (scan_yields hqs).run io' hio'
    exact ⟨_, _, io₁, io₁', hscan, hscan', by rw [hsame]⟩

/-- Each part of the first copy is as it was or fails its checksum. -/
structure Caught (hash : Bytes → Nat) (cap ss : Nat) (m m' : Nat → UInt8) (h₁ : Gpt.Header) : Prop where
  header : load m' ss ss = load m ss ss ∨ primaryHeader hash cap ss m' = none
  entries : load m' (entryArea ss h₁).1 (entryArea ss h₁).2 = load m (entryArea ss h₁).1 (entryArea ss h₁).2 ∨
    hash (load m' (entryArea ss h₁).1 (entryArea ss h₁).2) ≠ h₁.entries_crc

theorem TwoCopies.recovers {h₁ h₂ : Gpt.Header} {ps : List Partition} {m' : Nat → UInt8}
    (h : TwoCopies hash cap ss m h₁ h₂ ps) (hdamage : Damaged ss h₁ m m') (hcaught : Caught hash cap ss m m' h₁)
    (hnamed : h₁.backup_lba = lastLba cap ss)
    (hprobe : ∀ p ∈ ps, probeAt cap m' p.offset_bytes = probeAt cap m p.offset_bytes) :
    Recovers hash cap ss m m' := by
  refine (h.recovers_iff hdamage).mpr ⟨?_, hprobe⟩
  intro header hheader qs hqs
  obtain rfl : header = h₁ := by
    rcases hcaught.header with hsame | hnone
    · have hprimary := h.primary
      unfold primaryHeader seek at hprimary hheader
      rw [hsame, hprimary] at hheader
      exact (Option.some.inj hheader).symm
    · rw [hnone] at hheader
      cases hheader
  unfold fromPrimary at hqs
  rw [hnamed, h.backup_intact hdamage] at hqs
  rcases hcaught.entries with hsame | hcrc
  · have hentries := h.primary_entries
    unfold entriesOf seek at hentries hqs
    unfold entryArea at hsame
    rw [hsame, hentries, Option.some_or] at hqs
    exact (Option.some.inj hqs).symm
  · -- The entries fail, and the copy that the header names is the backup.
    have hnone : entriesOf hash cap ss m' header = none := by
      unfold entriesOf
      rw [Option.bind_eq_none_iff]
      intro raw hraw
      unfold seek at hraw
      split at hraw
      · cases hraw
        exact if_pos hcrc
      · cases hraw
    rw [hnone, Option.none_or] at hqs
    exact (Option.some.inj hqs).symm

end

/-! ## Exact numbers -/

/-- Offset and size are what they would be without a limit on words. -/
structure Partition.Exact (p : Partition) : Prop where
  offset : p.offset_bytes = p.start_lba * p.sector_size
  past : wrapping_add p.end_lba 1 = p.end_lba + 1
  size : p.size_bytes = (p.end_lba + 1 - p.start_lba) * p.sector_size

def Partition.Fits (p : Partition) : Prop :=
  p.start_lba * p.sector_size < size ∧ p.end_lba + 1 < size ∧ (p.end_lba + 1 - p.start_lba) * p.sector_size < size

theorem mod_size_eq_iff {a : Nat} : a % size = a ↔ a < size :=
  Nat.mod_eq_iff_lt (by unfold size; omega)

theorem wrapping_add_eq_iff {a b : Nat} : wrapping_add a b = a + b ↔ a + b < size := by
  unfold wrapping_add
  exact mod_size_eq_iff

theorem wrapping_mul_eq_iff {a b : Nat} : wrapping_mul a b = a * b ↔ a * b < size := by
  unfold wrapping_mul
  exact mod_size_eq_iff

theorem Partition.exact_iff {p : Partition} (h : p.Ordered) : p.Exact ↔ p.Fits := by
  have hle := h.le
  have hsize : wrapping_add p.end_lba 1 = p.end_lba + 1 →
      (p.size_bytes = (p.end_lba + 1 - p.start_lba) * p.sector_size ↔
        (p.end_lba + 1 - p.start_lba) * p.sector_size < size) := by
    intro hpast
    have hlt : p.end_lba + 1 < size := wrapping_add_eq_iff.mp hpast
    unfold Partition.size_bytes
    rw [hpast, wrapping_sub_of_le (by omega) hlt]
    exact wrapping_mul_eq_iff
  constructor
  · rintro ⟨hoffset, hpast, hbytes⟩
    exact ⟨wrapping_mul_eq_iff.mp hoffset, wrapping_add_eq_iff.mp hpast, (hsize hpast).mp hbytes⟩
  · rintro ⟨hoffset, hpast, hbytes⟩
    have hpast := wrapping_add_eq_iff.mpr hpast
    exact ⟨wrapping_mul_eq_iff.mpr hoffset, hpast, (hsize hpast).mpr hbytes⟩

section

variable {σ : Type} {hash : Bytes → Nat} {ss : Nat}

theorem Gpt.parse_at_kind {d : ReadAt σ} {lba : Nat} {io io' : Io σ} {table : PartitionTable}
    (h : Gpt.parse_at hash d ss lba io = .ok table io') : table.kind = .Gpt := by
  obtain ⟨buf, io₁, -, h⟩ := Run.bind_ok.mp h
  obtain ⟨header, io₂, -, h⟩ := Run.bind_ok.mp h
  obtain ⟨ps, io₃, -, h⟩ := Run.bind_ok.mp h
  obtain ⟨rfl, -⟩ := Run.pure_ok.mp h
  rfl

theorem Gpt.parse_last_kind {d : ReadAt σ} {io io' : Io σ} {table : PartitionTable}
    (h : Gpt.parse_last hash d ss io = .ok table io') : table.kind = .Gpt := by
  unfold Gpt.parse_last at h
  cases hlen : d.len with
  | none =>
    rw [hlen] at h
    exact absurd h Run.throw_ok
  | some n =>
    rw [hlen] at h
    exact Gpt.parse_at_kind h

theorem Gpt.parse_kind {d : ReadAt σ} {io io' : Io σ} {table : PartitionTable}
    (h : Gpt.parse hash d ss io = .ok table io') : table.kind = .Gpt := by
  obtain ⟨header, io₁, -, h⟩ := Run.bind_ok.mp h
  cases header with
  | none => exact Gpt.parse_last_kind h
  | some header =>
    obtain ⟨parts, io₂, -, h⟩ := Run.bind_ok.mp h
    cases parts with
    | some parts =>
      obtain ⟨rfl, -⟩ := Run.pure_ok.mp h
      rfl
    | none =>
      obtain ⟨backup, io₃, hbackup, h⟩ := Run.bind_ok.mp h
      cases backup with
      | some backup =>
        obtain ⟨rfl, -⟩ := Run.pure_ok.mp h
        exact Gpt.parse_at_kind (IoM.ok_some.mp hbackup)
      | none => exact Gpt.parse_last_kind h

/-- The numbers of a boot record have 32 bits. -/
structure Partition.Small (ss : Nat) (p : Partition) : Prop where
  start : p.start_lba < 2 ^ 32
  past : p.end_lba < 2 ^ 33
  count : p.end_lba + 1 - p.start_lba < 2 ^ 32
  sector : p.sector_size = ss

theorem Mbr.read_entry_small {i : Nat} {e : Bytes} {p : Partition} (h : Mbr.read_entry ss i e = .ok (some p)) :
    p.Small ss := by
  have hstart : e.get 8 4 < 2 ^ 32 := Bytes.get_lt e 8 4
  have hsectors : e.get 12 4 < 2 ^ 32 := Bytes.get_lt e 12 4
  unfold Mbr.read_entry at h
  simp only at h
  split at h
  · cases h
  · split at h
    · cases h
    · cases h
      exact ⟨hstart, by simp only; omega, by simp only; omega, rfl⟩

theorem Partition.Small.fits (hss : ss < 2 ^ 32) {p : Partition} (h : p.Small ss) : p.Fits := by
  obtain ⟨hstart, hpast, hcount, hsector⟩ := h
  have hoffset : p.start_lba * p.sector_size ≤ 2 ^ 32 * (2 ^ 32 - 1) := Nat.mul_le_mul (by omega) (by omega)
  have hbytes : (p.end_lba + 1 - p.start_lba) * p.sector_size ≤ 2 ^ 32 * (2 ^ 32 - 1) :=
    Nat.mul_le_mul (by omega) (by omega)
  unfold Partition.Fits size
  exact ⟨by omega, by omega, by omega⟩

theorem scan_mbr_fits (hss : ss < 2 ^ 32) {d : ReadAt σ} {io io' : Io σ} {table : PartitionTable}
    (h : scan hash d ss io = .ok table io') (hkind : table.kind = .Mbr) : ∀ p ∈ table.partitions, p.Fits := by
  obtain ⟨found, io₁, hfound, h⟩ := Run.bind_ok.mp h
  obtain ⟨ps, io₂, hps, h⟩ := Run.bind_ok.mp h
  obtain ⟨rfl, -⟩ := Run.pure_ok.mp h
  obtain ⟨gpt, io₃, hgpt, hfound⟩ := Run.bind_ok.mp hfound
  cases gpt with
  | some t =>
    obtain ⟨rfl, -⟩ := Run.pure_ok.mp hfound
    have := Gpt.parse_kind (IoM.ok_some.mp hgpt)
    rw [this] at hkind
    cases hkind
  | none =>
    have hsmall : ∀ p ∈ found.partitions, p.Small ss :=
      @Mbr.parse_all σ (Partition.Small ss) ss (fun _ _ _ => Mbr.read_entry_small) d _ _ _ hfound
    intro p hp
    refine Partition.Small.fits hss ?_
    exact @probe_partitions_all σ (Partition.Small ss) d (fun _ _ hq => ⟨hq.start, hq.past, hq.count, hq.sector⟩)
      found.partitions _ _ _ hsmall hps p hp

/-- The numbers are exact unless an entry of a GPT goes beyond a word. -/
theorem scan_exact_iff (hss : ss < 2 ^ 32) {d : ReadAt σ} {io io' : Io σ} {table : PartitionTable}
    (h : scan hash d ss io = .ok table io') :
    (∀ p ∈ table.partitions, p.Exact) ↔ (table.kind = .Gpt → ∀ p ∈ table.partitions, p.Fits) := by
  have hordered := scan_ordered h
  constructor
  · intro hexact _ p hp
    exact (Partition.exact_iff (hordered p hp).1).mp (hexact p hp)
  · intro hfits p hp
    apply (Partition.exact_iff (hordered p hp).1).mpr
    cases hkind : table.kind with
    | Gpt => exact hfits hkind p hp
    | Mbr => exact scan_mbr_fits hss h hkind p hp

end

/-! ## Every index checked -/

/-- `&b[offset..][..n]`: none where that would panic. -/
def index (b : Bytes) (offset n : Nat) : Option Bytes :=
  if offset + n ≤ b.length then some (b.slice offset n) else none

def Gpt.parse_header_checked (hash : Bytes → Nat) (raw : Bytes) : Option (Except LuksError Gpt.Header) :=
  if raw.length < MIN_HEADER_SIZE then some (.error (.BadGpt "header too short"))
  else do
    let signature ← index raw 0 8
    if signature ≠ SIGNATURE then return .error (.BadGpt "bad signature")
    let header_size := Bytes.unle (← index raw 12 4)
    if header_size < MIN_HEADER_SIZE ∨ header_size > raw.length then
      return .error (.BadGpt "implausible header size")
    let stored_crc := Bytes.unle (← index raw 16 4)
    let header ← index raw 0 header_size
    let _ ← index header 16 4
    if hash (header.put 16 [0, 0, 0, 0]) ≠ stored_crc then return .error (.BadGpt "header CRC mismatch")
    let num_entries := Bytes.unle (← index raw 80 4)
    let entry_size := Bytes.unle (← index raw 84 4)
    if num_entries = 0 ∨ num_entries > MAX_ENTRIES then return .error (.BadGpt "implausible entry count")
    if entry_size < 128 ∨ entry_size > MAX_ENTRY_SIZE ∨ entry_size % 8 ≠ 0 then
      return .error (.BadGpt "implausible entry size")
    let backup_lba := Bytes.unle (← index raw 32 8)
    let entry_lba := Bytes.unle (← index raw 72 8)
    let entries_crc := Bytes.unle (← index raw 88 4)
    return .ok ⟨header_size, backup_lba, entry_lba, num_entries, entry_size, entries_crc⟩

theorem index_of_le {b : Bytes} {offset n : Nat} (h : offset + n ≤ b.length) :
    index b offset n = some (b.slice offset n) :=
  if_pos h

theorem Gpt.parse_header_in_range (hash : Bytes → Nat) (raw : Bytes) :
    Gpt.parse_header_checked hash raw = some (Gpt.parse_header hash raw) := by
  unfold Gpt.parse_header_checked Gpt.parse_header
  by_cases hlen : raw.length < MIN_HEADER_SIZE
  · simp only [if_pos hlen]
    rfl
  · have h92 : 92 ≤ raw.length := by
      unfold MIN_HEADER_SIZE at hlen
      omega
    have hindex : ∀ {offset n}, offset + n ≤ 92 → index raw offset n = some (raw.slice offset n) :=
      fun h => index_of_le (by omega)
    simp only [if_neg hlen, hindex (show 0 + 8 ≤ 92 by omega), hindex (show 12 + 4 ≤ 92 by omega),
      hindex (show 16 + 4 ≤ 92 by omega), hindex (show 80 + 4 ≤ 92 by omega), hindex (show 84 + 4 ≤ 92 by omega),
      hindex (show 32 + 8 ≤ 92 by omega), hindex (show 72 + 8 ≤ 92 by omega), hindex (show 88 + 4 ≤ 92 by omega)]
    by_cases hsignature : raw.slice 0 8 ≠ SIGNATURE
    · simp only [Option.bind_eq_bind, Option.bind_some, if_pos hsignature]
      rfl
    by_cases hsize : raw.get 12 4 < MIN_HEADER_SIZE ∨ raw.get 12 4 > raw.length
    · simp only [Option.bind_eq_bind, Option.bind_some, if_neg hsignature]
      rw [if_pos hsize]
      exact if_pos hsize
    -- The header is a prefix of at least 92 bytes, so its checksum lies within.
    have hprefix : index raw 0 (raw.get 12 4) = some (raw.take (raw.get 12 4)) := by
      rw [index_of_le (by omega)]
      rfl
    have hcrc : index (raw.take (raw.get 12 4)) 16 4 = some (Bytes.slice (raw.take (raw.get 12 4)) 16 4) := by
      apply index_of_le
      unfold MIN_HEADER_SIZE at hsize
      rw [List.length_take]
      omega
    have hget : ∀ offset n, (raw.slice offset n).unle = raw.get offset n := fun _ _ => rfl
    simp only [Option.bind_eq_bind, Option.bind_some, hget, hprefix, hcrc, if_neg hsignature, if_neg hsize]
    by_cases hstored : hash (Bytes.put (raw.take (raw.get 12 4)) 16 [0, 0, 0, 0]) ≠ raw.get 16 4
    · simp only [if_pos hstored]
      rfl
    simp only [if_neg hstored]
    by_cases hcount : raw.get 80 4 = 0 ∨ raw.get 80 4 > MAX_ENTRIES
    · simp only [if_pos hcount]
      rfl
    simp only [if_neg hcount]
    split
    · rfl
    · rfl

/-- One slot after the other, as far as the first error. -/
def collect (f : Nat → Option (Except LuksError (Option Partition))) :
    List Nat → Option (Except LuksError (List Partition))
  | [] => some (.ok [])
  | i :: rest => do
    match ← f i with
    | .error e => return .error e
    | .ok p =>
      match ← collect f rest with
      | .error e => return .error e
      | .ok ps => return .ok (p.toList ++ ps)

def Gpt.read_entry_checked (sector_size i : Nat) (e : Bytes) : Option (Except LuksError (Option Partition)) := do
  let type_guid ← index e 0 16
  if type_guid = List.replicate 16 0 then return .ok none
  let start_lba := Bytes.unle (← index e 32 8)
  let end_lba := Bytes.unle (← index e 40 8)
  if end_lba < start_lba then return .error (.BadGpt "entry ends before it starts")
  let _ ← index e 56 72
  return .ok (some ⟨i + 1, start_lba, end_lba, sector_size, some type_guid, none,
    from_utf16_lossy (name_units e), false, none⟩)

def Gpt.read_entry_list_checked (sector_size entry_size : Nat) (raw : Bytes) :
    List Nat → Option (Except LuksError (List Partition)) :=
  collect fun i => do Gpt.read_entry_checked sector_size i (← index raw (i * entry_size) entry_size)

def Mbr.read_entry_checked (sector_size i : Nat) (e : Bytes) : Option (Except LuksError (Option Partition)) := do
  let part_type := Bytes.unle (← index e 4 1)
  let start_lba := Bytes.unle (← index e 8 4)
  let sectors := Bytes.unle (← index e 12 4)
  if part_type = 0 ∨ sectors = 0 then return .ok none
  if part_type = TYPE_PROTECTIVE_GPT then
    return .error (.BadGpt "protective MBR present but GPT unreadable")
  return .ok (some ⟨i + 1, start_lba, start_lba + sectors - 1, sector_size, none, some part_type, [], false, none⟩)

def Mbr.read_entry_list_checked (sector_size : Nat) (sector : Bytes) :
    List Nat → Option (Except LuksError (List Partition)) :=
  collect fun i => do Mbr.read_entry_checked sector_size i (← index sector (TABLE_OFFSET + i * ENTRY_SIZE) ENTRY_SIZE)

def detect_version_checked (data : Bytes) : Option (Except LuksError Nat) :=
  if data.length < 8 then some (.error (.Truncated 8 data.length))
  else do
    let magic ← index data 0 6
    if magic ≠ MAGIC_PRIMARY then return .error (.BadMagic magic)
    let major ← data[6]?
    let minor ← data[7]?
    let version := major.toNat * 256 + minor.toNat
    if version = 1 ∨ version = 2 then return .ok version
    return .error (.UnsupportedVersion version)

theorem Gpt.read_entry_in_range (ss i : Nat) {e : Bytes} (he : 128 ≤ e.length) :
    Gpt.read_entry_checked ss i e = some (Gpt.read_entry ss i e) := by
  unfold Gpt.read_entry_checked Gpt.read_entry
  rw [index_of_le (by omega), index_of_le (by omega), index_of_le (by omega), index_of_le (by omega)]
  simp only [Option.bind_eq_bind, Option.bind_some]
  split
  · rfl
  · show (if e.get 40 8 < e.get 32 8 then _ else _) = some (if e.get 40 8 < e.get 32 8 then _ else _)
    split
    · rfl
    · rfl

theorem Mbr.read_entry_in_range (ss i : Nat) {e : Bytes} (he : 16 ≤ e.length) :
    Mbr.read_entry_checked ss i e = some (Mbr.read_entry ss i e) := by
  unfold Mbr.read_entry_checked Mbr.read_entry
  rw [index_of_le (by omega), index_of_le (by omega), index_of_le (by omega)]
  simp only [Option.bind_eq_bind, Option.bind_some]
  show (if e.get 4 1 = 0 ∨ e.get 12 4 = 0 then _ else _) = some (if e.get 4 1 = 0 ∨ e.get 12 4 = 0 then _ else _)
  split
  · rfl
  · show (if e.get 4 1 = TYPE_PROTECTIVE_GPT then _ else _) = some (if e.get 4 1 = TYPE_PROTECTIVE_GPT then _ else _)
    split
    · rfl
    · rfl

theorem detect_version_in_range (data : Bytes) : detect_version_checked data = some (detect_version data) := by
  unfold detect_version_checked detect_version
  by_cases hlen : data.length < 8
  · simp only [if_pos hlen]
    rfl
  · have hmajor : data[6]? = some (data.getD 6 0) := by
      rw [List.getElem?_eq_getElem (by omega), List.getD_eq_getElem _ _ (by omega)]
    have hminor : data[7]? = some (data.getD 7 0) := by
      rw [List.getElem?_eq_getElem (by omega), List.getD_eq_getElem _ _ (by omega)]
    rw [index_of_le (by omega), hmajor, hminor]
    simp only [if_neg hlen, Option.bind_eq_bind, Option.bind_some]
    by_cases hmagic : data.slice 0 6 ≠ MAGIC_PRIMARY
    · simp only [if_pos hmagic]
      rfl
    · simp only [if_neg hmagic]
      split
      · rfl
      · rfl

theorem slice_length_eq {b : Bytes} {offset n : Nat} (h : offset + n ≤ b.length) : (b.slice offset n).length = n := by
  unfold Bytes.slice
  rw [List.length_take, List.length_drop]
  omega

theorem collect_cons {f : Nat → Option (Except LuksError (Option Partition))} {i : Nat} {is : List Nat}
    {x : Except LuksError (Option Partition)} {xs : Except LuksError (List Partition)} (hx : f i = some x)
    (hxs : collect f is = some xs) :
    collect f (i :: is) = some (x >>= fun p => xs >>= fun ps => pure (p.toList ++ ps)) := by
  unfold collect
  rw [hx]
  simp only [Option.bind_eq_bind, Option.bind_some]
  cases x with
  | error e => rfl
  | ok p =>
    simp only [hxs, Option.bind_some]
    cases xs with
    | error e => rfl
    | ok ps => rfl

theorem Gpt.read_entry_list_in_range (ss : Nat) {entry_size n : Nat} {raw : Bytes} (hsize : 128 ≤ entry_size)
    (hraw : n * entry_size ≤ raw.length) (is : List Nat) (his : ∀ i ∈ is, i < n) :
    Gpt.read_entry_list_checked ss entry_size raw is = some (Gpt.read_entry_list ss entry_size raw is) := by
  induction is with
  | nil => rfl
  | cons i is ih =>
    have hslot : i * entry_size + entry_size ≤ raw.length := by
      have : (i + 1) * entry_size ≤ n * entry_size := Nat.mul_le_mul_right _ (his i (by simp))
      rw [Nat.succ_mul] at this
      omega
    refine collect_cons ?_ (ih fun j hj => his j (by simp [hj]))
    rw [index_of_le hslot]
    exact Gpt.read_entry_in_range ss i (hsize.trans (slice_length_eq hslot).ge)

theorem Mbr.read_entry_list_in_range (ss : Nat) {sector : Bytes} (hsector : sector.length = 512) (is : List Nat)
    (his : ∀ i ∈ is, i < 4) :
    Mbr.read_entry_list_checked ss sector is = some (Mbr.read_entry_list ss sector is) := by
  induction is with
  | nil => rfl
  | cons i is ih =>
    have hslot : TABLE_OFFSET + i * ENTRY_SIZE + ENTRY_SIZE ≤ sector.length := by
      have := his i (by simp)
      unfold TABLE_OFFSET ENTRY_SIZE
      omega
    refine collect_cons ?_ (ih fun j hj => his j (by simp [hj]))
    rw [index_of_le hslot]
    exact Mbr.read_entry_in_range ss i (slice_length_eq hslot).ge

theorem Gpt.parse_header_size {hash : Bytes → Nat} {buf : Bytes} {header : Gpt.Header}
    (h : Gpt.parse_header hash buf = .ok header) : 128 ≤ header.entry_size := by
  unfold Gpt.parse_header at h
  obtain ⟨-, h⟩ := Run.guard_bind_ok.mp h
  obtain ⟨-, h⟩ := Run.guard_bind_ok.mp h
  obtain ⟨-, h⟩ := Run.guard_bind_ok.mp h
  obtain ⟨-, h⟩ := Run.guard_bind_ok.mp h
  obtain ⟨-, h⟩ := Run.guard_bind_ok.mp h
  obtain ⟨hsize, h⟩ := Run.guard_bind_ok.mp h
  cases h
  simp only
  omega

/-! ## The scan of a damaged device -/

/-- The CRC-32 of the `crc32fast` crate, one bit at a time. -/
def crc32_bit (r : Nat) : Nat := if r % 2 = 1 then r / 2 ^^^ 0xEDB88320 else r / 2

def crc32 (data : Bytes) : Nat :=
  data.foldl (fun r b => crc32_bit^[8] (r ^^^ b.toNat)) 0xFFFFFFFF ^^^ 0xFFFFFFFF

def place : List (Nat × Bytes) → Nat → UInt8
  | [], _ => 0
  | (offset, v) :: rest, i => if offset ≤ i ∧ i < offset + v.length then v.getD (i - offset) 0 else place rest i

def gpt_header (crc my_lba backup_lba entry_lba entries_crc : Nat) : Bytes :=
  Gpt.SIGNATURE ++ Bytes.le 4 0x10000 ++ Bytes.le 4 92 ++ Bytes.le 4 crc ++ Bytes.le 4 0 ++ Bytes.le 8 my_lba ++
    Bytes.le 8 backup_lba ++ Bytes.le 8 3 ++ Bytes.le 8 3 ++ List.replicate 16 9 ++ Bytes.le 8 entry_lba ++
    Bytes.le 4 1 ++ Bytes.le 4 128 ++ Bytes.le 4 entries_crc

def gpt_entry (start_lba end_lba : Nat) : Bytes :=
  List.replicate 16 7 ++ List.replicate 16 8 ++ Bytes.le 8 start_lba ++ Bytes.le 8 end_lba ++ List.replicate 80 0

/-- Six sectors, with one partition in sector 3. -/
def healthy : Nat → UInt8 :=
  place [(512, gpt_header 1347262577 1 5 2 258208933), (1024, gpt_entry 3 3), (2048, gpt_entry 3 3),
    (2560, gpt_header 105207251 5 1 4 258208933)]

/-- The same without the header of the first copy. -/
def wiped (i : Nat) : UInt8 := if 512 ≤ i ∧ i < 1024 then 0 else healthy i

/-- The same with another first copy, whose checksums are right. -/
def forged : Nat → UInt8 :=
  place [(512, gpt_header 3687806842 1 5 2 1755829391), (1024, gpt_entry (2 ^ 63) (2 ^ 63)), (2048, gpt_entry 3 3),
    (2560, gpt_header 105207251 5 1 4 258208933)]

def thePartition (lba : Nat) : Partition :=
  ⟨1, lba, lba, 512, some (List.replicate 16 7), none, [], false, none⟩

theorem length_gpt_header (crc my_lba backup_lba entry_lba entries_crc : Nat) :
    (gpt_header crc my_lba backup_lba entry_lba entries_crc).length = 92 := by
  simp [gpt_header, Gpt.SIGNATURE]

theorem length_gpt_entry (start_lba end_lba : Nat) : (gpt_entry start_lba end_lba).length = 128 := by
  simp [gpt_entry]

deriving instance DecidableEq for Gpt.Header

def healthyHeader (copy : Nat) : Gpt.Header :=
  if copy = 1 then ⟨92, 5, 2, 1, 128, 258208933⟩ else ⟨92, 1, 4, 1, 128, 258208933⟩

theorem healthy_two_copies :
    TwoCopies crc32 3072 512 healthy (healthyHeader 1) (healthyHeader 2) [thePartition 3] where
  primary := by decide +kernel
  primary_entries := by decide +kernel
  backup := by decide +kernel
  backup_entries := by decide +kernel
  apart := by decide +kernel

theorem wiped_damaged : Damaged 512 (healthyHeader 1) healthy wiped := by
  intro i hi
  unfold wiped at hi
  split at hi
  · left
    assumption
  · exact absurd rfl hi

theorem wiped_detected : Detected crc32 3072 512 healthy wiped [thePartition 3] := by
  have hnone : primaryHeader crc32 3072 512 wiped = none := by decide +kernel
  constructor
  · intro h hh
    rw [hnone] at hh
    cases hh
  · decide +kernel

theorem forged_damaged : Damaged 512 (healthyHeader 1) healthy forged := by
  intro i hi
  have hentries : entryArea 512 (healthyHeader 1) = (1024, 128) := by decide +kernel
  rw [hentries]
  unfold Within
  by_contra hout
  apply hi
  have h₁ : ¬ (512 ≤ i ∧ i < 512 + 92) := by omega
  have h₂ : ¬ (1024 ≤ i ∧ i < 1024 + 128) := by omega
  simp only [forged, healthy, place, length_gpt_header, length_gpt_entry, if_neg h₁, if_neg h₂]

theorem scan_healthy : ∃ t io', scan crc32 (memory 3072 true).toReadAt 512 ⟨healthy, [], false⟩ = .ok t io' ∧
    t.partitions = [thePartition 3] := by
  have hentries : gptEntries crc32 3072 512 healthy = some [thePartition 3] := by decide +kernel
  have hprobed : [thePartition 3].map (probed 3072 healthy) = [thePartition 3] := by decide +kernel
  obtain ⟨io', hscan⟩ := (scan_yields hentries).run ⟨healthy, [], false⟩ rfl
  exact ⟨_, io', hscan, hprobed⟩

theorem scan_forged : ∃ t io', scan crc32 (memory 3072 true).toReadAt 512 ⟨forged, [], false⟩ = .ok t io' ∧
    t.partitions = [thePartition (2 ^ 63)] := by
  have hentries : gptEntries crc32 3072 512 forged = some [thePartition (2 ^ 63)] := by decide +kernel
  have hprobed : [thePartition (2 ^ 63)].map (probed 3072 forged) = [thePartition (2 ^ 63)] := by decide +kernel
  obtain ⟨io', hscan⟩ := (scan_yields hentries).run ⟨forged, [], false⟩ rfl
  exact ⟨_, io', hscan, hprobed⟩

/-- The first copy decides while it verifies, and no limit is put on the numbers of an entry. -/
theorem gpt_recovers_and_exact (hash : Bytes → Nat) :
    (∀ cap ss m m' h₁ h₂ ps, TwoCopies hash cap ss m h₁ h₂ ps → Damaged ss h₁ m m' →
      (Recovers hash cap ss m m' ↔ Detected hash cap ss m m' ps)) ∧
    (∀ cap ss m m' h₁ h₂ ps, TwoCopies hash cap ss m h₁ h₂ ps → Damaged ss h₁ m m' → Caught hash cap ss m m' h₁ →
      h₁.backup_lba = lastLba cap ss → (∀ p ∈ ps, probeAt cap m' p.offset_bytes = probeAt cap m p.offset_bytes) →
      Recovers hash cap ss m m') ∧
    (∀ (σ : Type) (d : ReadAt σ) ss io io' table, ss < 2 ^ 32 → scan hash d ss io = .ok table io' →
      ((∀ p ∈ table.partitions, p.Exact) ↔ (table.kind = .Gpt → ∀ p ∈ table.partitions, p.Fits))) ∧
    (∀ buf, Gpt.parse_header_checked hash buf = some (Gpt.parse_header hash buf)) ∧
    (∀ buf header ss raw, Gpt.parse_header hash buf = .ok header →
      raw.length = header.num_entries * header.entry_size →
      Gpt.read_entry_list_checked ss header.entry_size raw (List.range header.num_entries) =
        some (Gpt.read_entry_list ss header.entry_size raw (List.range header.num_entries))) ∧
    (∀ ss sector, sector.length = 512 →
      Mbr.read_entry_list_checked ss sector [0, 1, 2, 3] = some (Mbr.read_entry_list ss sector [0, 1, 2, 3])) ∧
    ∀ head, detect_version_checked head = some (detect_version head) := by
  refine ⟨?_, ?_, ?_, Gpt.parse_header_in_range hash, ?_, ?_, detect_version_in_range⟩
  · intro cap ss m m' h₁ h₂ ps h hdamage
    exact h.recovers_iff hdamage
  · intro cap ss m m' h₁ h₂ ps h hdamage hcaught hnamed hprobe
    exact h.recovers hdamage hcaught hnamed hprobe
  · intro σ d ss io io' table hss h
    exact scan_exact_iff hss h
  · intro buf header ss raw hheader hraw
    refine Gpt.read_entry_list_in_range ss (Gpt.parse_header_size hheader) hraw.ge _ ?_
    intro i hi
    exact List.mem_range.mp hi
  · intro ss sector hsector
    refine Mbr.read_entry_list_in_range ss hsector _ ?_
    decide

theorem gpt_recovers_wiped :
    (Recovers crc32 3072 512 healthy wiped ∧
      ∃ t io', scan crc32 (memory 3072 true).toReadAt 512 ⟨healthy, [], false⟩ = .ok t io' ∧
        ∀ p ∈ t.partitions, p.Exact) ∧
    Recovers crc32 3072 512 healthy wiped ∧
    Gpt.read_entry_list_checked 512 128 (gpt_entry 3 3) [0] = some (Gpt.read_entry_list 512 128 (gpt_entry 3 3) [0]) ∧
    Mbr.read_entry_list_checked 512 (List.replicate 512 0) [0, 1, 2, 3] =
      some (Mbr.read_entry_list 512 (List.replicate 512 0) [0, 1, 2, 3]) := by
  obtain ⟨hrecovers, hcaught, hexact, -, hlist, hboot, -⟩ := gpt_recovers_and_exact crc32
  refine ⟨⟨?_, ?_⟩, ?_, ?_, ?_⟩
  · exact (hrecovers 3072 512 healthy wiped _ _ _ healthy_two_copies wiped_damaged).mpr wiped_detected
  · obtain ⟨t, io', hscan, ht⟩ := scan_healthy
    refine ⟨t, io', hscan, ?_⟩
    apply (hexact _ _ 512 _ _ _ (by decide) hscan).mpr
    intro _
    rw [ht]
    unfold Partition.Fits
    decide +kernel
  · refine hcaught 3072 512 healthy wiped _ _ _ healthy_two_copies wiped_damaged ⟨?_, ?_⟩ ?_ wiped_detected.2
    · right
      decide +kernel
    · left
      decide +kernel
    · decide +kernel
  · exact hlist (load healthy 512 512) (healthyHeader 1) 512 (gpt_entry 3 3) (by decide +kernel) (by decide +kernel)
  · exact hboot 512 (List.replicate 512 0) (by decide +kernel)

/-- A first copy written over with right checksums is believed, and its numbers wrap. -/
theorem forged_believed :
    TwoCopies crc32 3072 512 healthy (healthyHeader 1) (healthyHeader 2) [thePartition 3] ∧
    Damaged 512 (healthyHeader 1) healthy forged ∧ ¬ Recovers crc32 3072 512 healthy forged ∧
    ∃ t io', scan crc32 (memory 3072 true).toReadAt 512 ⟨forged, [], false⟩ = .ok t io' ∧
      ∃ p ∈ t.partitions, ¬ p.Exact := by
  obtain ⟨t, io', hscan, ht⟩ := scan_forged
  refine ⟨healthy_two_copies, forged_damaged, ?_, t, io', hscan, thePartition (2 ^ 63), by simp [ht], ?_⟩
  · intro hrecovers
    obtain ⟨t₀, io₀, hscan₀, ht₀⟩ := scan_healthy
    obtain ⟨t₁, t₁', io₁, io₁', h₁, h₁', heq⟩ := hrecovers ⟨healthy, [], false⟩ ⟨forged, [], false⟩ rfl rfl
    rw [hscan₀] at h₁
    rw [hscan] at h₁'
    cases h₁
    cases h₁'
    rw [heq, ht₀] at ht
    revert ht
    decide
  · intro hexact
    have hoffset := hexact.offset
    revert hoffset
    decide +kernel

end LuksAndroid
