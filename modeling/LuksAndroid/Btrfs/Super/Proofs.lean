import LuksAndroid.Btrfs.Super.Copy

/-!
# What a commit leaves on the device

A commit writes its fields over the first copy on the device. So a later reader
gets the superblock of the mount back exactly when the other fields of that copy
are those of the mount.
-/

namespace LuksAndroid.Btrfs

open Word

/-! ## Superblocks of a mount -/

/-- The numbers of a transaction are as wide as in the source. -/
structure Transaction.Typed (txn : Transaction) : Prop where
  new_generation : txn.new_generation < 2 ^ 64
  final_root : txn.final_root.1 < 2 ^ 64 ∧ txn.final_root.2 < 256
  final_chunk_root : ∀ root, txn.final_chunk_root = some root → root.1 < 2 ^ 64 ∧ root.2 < 256
  final_bytes_used : txn.final_bytes_used < 2 ^ 64

namespace Superblock

variable {sha256 : Digest} {from_utf8_lossy : Bytes → String}

/-- A mount holds a copy that it parsed, brought forward by the transactions it committed. -/
inductive Held (sha256 : Digest) (from_utf8_lossy : Bytes → String) : Superblock → Prop where
  | parsed {raw : Bytes} {offset : Nat} {sb : Superblock} (hlen : raw.length = SUPER_SIZE)
    (hparse : parse sha256 from_utf8_lossy raw offset = .ok sb) : Held sha256 from_utf8_lossy sb
  | advanced {sb : Superblock} {txn : Transaction} (h : Held sha256 from_utf8_lossy sb)
    (htyped : txn.Typed) : Held sha256 from_utf8_lossy (sb.advance txn)

theorem Admitted.advance {sb : Superblock} (h : sb.Admitted) {txn : Transaction} (ht : txn.Typed) :
    (sb.advance txn).Admitted := by
  obtain ⟨hgen, hroot, hchunk, hused⟩ := ht
  unfold Superblock.advance
  cases hc : txn.final_chunk_root with
  | none =>
    exact { h with
      generation := hgen, root := hroot.1, root_level := hroot.2, bytes_used := hused }
  | some root =>
    obtain ⟨hb, hl⟩ := hchunk root hc
    exact { h with
      generation := hgen, root := hroot.1, root_level := hroot.2, bytes_used := hused
      chunk_root := hb, chunk_root_level := hl, chunk_root_generation := hgen }

theorem Held.admitted {sb : Superblock} (h : Held sha256 from_utf8_lossy sb) : sb.Admitted := by
  induction h with
  | parsed hlen hparse =>
    obtain ⟨ct, hacc, rfl⟩ := (parse_iff hlen).mp hparse
    exact hacc.admitted
  | advanced h htyped ih => exact ih.advance htyped

/-! ## The search for the newest copy -/

variable {cap : Nat} {known : Bool} {m : Nat → UInt8}

/-- The device holds the superblock `sb` at `offset`. -/
def CopyAt (sha256 : Digest) (from_utf8_lossy : Bytes → String) (cap : Nat) (m : Nat → UInt8)
    (offset : Nat) (sb : Superblock) : Prop :=
  offset + SUPER_SIZE ≤ cap ∧ parse sha256 from_utf8_lossy (load m offset SUPER_SIZE) offset = .ok sb

theorem not_copyAt_of_not_exists {offset : Nat} (h : ¬ copy_exists (memory cap known).len offset = true)
    (sb : Superblock) : ¬ CopyAt sha256 from_utf8_lossy cap m offset sb := by
  rintro ⟨hcap, -⟩
  apply h
  cases known with
  | true => simpa [copy_exists, memory] using hcap
  | false => rfl

/-- What the loop has found so far stays found, and what it returns is the newest copy it saw. -/
structure Newest (sha256 : Digest) (from_utf8_lossy : Bytes → String) (cap : Nat) (m : Nat → UInt8)
    (offsets : List Nat) (best best' : Option Superblock) : Prop where
  source : ∀ sb, best' = some sb →
    best = some sb ∨ ∃ o ∈ offsets, CopyAt sha256 from_utf8_lossy cap m o sb
  keeps : ∀ sb, best = some sb → ∃ sb', best' = some sb' ∧ sb.generation ≤ sb'.generation
  finds : ∀ o ∈ offsets, ∀ sb, CopyAt sha256 from_utf8_lossy cap m o sb →
    ∃ sb', best' = some sb' ∧ sb.generation ≤ sb'.generation

theorem Newest.nil (best : Option Superblock) : Newest sha256 from_utf8_lossy cap m [] best best :=
  ⟨fun _ h => Or.inl h, fun sb h => ⟨sb, h, le_refl _⟩, by simp⟩

theorem Newest.skip {o : Nat} {offsets : List Nat} {best best' : Option Superblock}
    (h : Newest sha256 from_utf8_lossy cap m offsets best best')
    (hno : ∀ sb, ¬ CopyAt sha256 from_utf8_lossy cap m o sb) :
    Newest sha256 from_utf8_lossy cap m (o :: offsets) best best' := by
  refine ⟨?_, h.keeps, ?_⟩
  · intro sb hsb
    rcases h.source sb hsb with hb | ⟨o', ho', hc⟩
    · exact Or.inl hb
    · exact Or.inr ⟨o', List.mem_cons_of_mem _ ho', hc⟩
  · intro o' ho' sb hc
    rcases List.mem_cons.mp ho' with rfl | ho'
    · exact absurd hc (hno sb)
    · exact h.finds o' ho' sb hc

theorem Newest.older {o : Nat} {offsets : List Nat} {best best' : Option Superblock} {sb₀ b₀ : Superblock}
    (h : Newest sha256 from_utf8_lossy cap m offsets best best') (hb : best = some b₀)
    (hat : CopyAt sha256 from_utf8_lossy cap m o sb₀) (hle : sb₀.generation ≤ b₀.generation) :
    Newest sha256 from_utf8_lossy cap m (o :: offsets) best best' := by
  refine ⟨?_, h.keeps, ?_⟩
  · intro sb hsb
    rcases h.source sb hsb with hb | ⟨o', ho', hc⟩
    · exact Or.inl hb
    · exact Or.inr ⟨o', List.mem_cons_of_mem _ ho', hc⟩
  · intro o' ho' sb hc
    rcases List.mem_cons.mp ho' with rfl | ho'
    · obtain ⟨sb', hsb', hle'⟩ := h.keeps b₀ hb
      have : sb = sb₀ := Except.ok.inj (hc.2.symm.trans hat.2)
      exact ⟨sb', hsb', this ▸ hle.trans hle'⟩
    · exact h.finds o' ho' sb hc

theorem Newest.newer {o : Nat} {offsets : List Nat} {best best' : Option Superblock} {sb₀ : Superblock}
    (h : Newest sha256 from_utf8_lossy cap m offsets (some sb₀) best')
    (hat : CopyAt sha256 from_utf8_lossy cap m o sb₀)
    (hlt : ∀ b, best = some b → b.generation < sb₀.generation) :
    Newest sha256 from_utf8_lossy cap m (o :: offsets) best best' := by
  obtain ⟨sb₁, hsb₁, hle₁⟩ := h.keeps sb₀ rfl
  refine ⟨?_, ?_, ?_⟩
  · intro sb hsb
    rcases h.source sb hsb with hb | ⟨o', ho', hc⟩
    · cases hb
      exact Or.inr ⟨o, List.mem_cons_self, hat⟩
    · exact Or.inr ⟨o', List.mem_cons_of_mem _ ho', hc⟩
  · intro b hb
    exact ⟨sb₁, hsb₁, (hlt b hb).le.trans hle₁⟩
  · intro o' ho' sb hc
    rcases List.mem_cons.mp ho' with rfl | ho'
    · have : sb = sb₀ := Except.ok.inj (hc.2.symm.trans hat.2)
      exact ⟨sb₁, hsb₁, this ▸ hle₁⟩
    · exact h.finds o' ho' sb hc

theorem find_loop_newest (sha256 : Digest) (from_utf8_lossy : Bytes → String) (cap : Nat) (known : Bool)
    (offsets : List Nat) (best : Option Superblock) (first_error : Option LuksError)
    (io : Io (Nat → UInt8)) :
    ∃ best' first_error' io',
      find_loop sha256 from_utf8_lossy (memory cap known).toReadAt offsets best first_error io =
        .ok (best', first_error') io' ∧
      io'.state = io.state ∧ Newest sha256 from_utf8_lossy cap io.state offsets best best' := by
  induction offsets generalizing best first_error io with
  | nil => exact ⟨best, first_error, io, rfl, rfl, .nil best⟩
  | cons o offsets ih =>
    rw [find_loop]
    by_cases hex : copy_exists (memory cap known).len o
    · rw [if_neg (not_not.mpr hex)]
      by_cases hcap : o + SUPER_SIZE ≤ cap
      · -- the copy can be read
        have hread : ((memory cap known).toReadAt.read o SUPER_SIZE).ok io =
            .ok (some (load io.state o SUPER_SIZE))
              { io with accesses := io.accesses ++ [.read o SUPER_SIZE] } := by
          rw [IoM.ok_some, memory_read_eq, if_pos hcap]
        rw [Run.bind_eq_of_ok hread]
        simp only
        cases hparse : parse sha256 from_utf8_lossy (load io.state o SUPER_SIZE) o with
        | error e =>
          simp only
          obtain ⟨b', fe', io', hrun, hst, hn⟩ :=
            ih best (first_error.or (some e)) { io with accesses := io.accesses ++ [.read o SUPER_SIZE] }
          refine ⟨b', fe', io', hrun, hst, hn.skip ?_⟩
          rintro sb ⟨-, hsb⟩
          rw [hparse] at hsb
          cases hsb
        | ok sb =>
          simp only
          split
          · rename_i hnew
            obtain ⟨b', fe', io', hrun, hst, hn⟩ :=
              ih (some sb) first_error { io with accesses := io.accesses ++ [.read o SUPER_SIZE] }
            refine ⟨b', fe', io', hrun, hst, hn.newer ⟨hcap, hparse⟩ ?_⟩
            rintro b rfl
            simpa using hnew
          · rename_i hold
            obtain ⟨b', fe', io', hrun, hst, hn⟩ :=
              ih best first_error { io with accesses := io.accesses ++ [.read o SUPER_SIZE] }
            cases best with
            | none => simp at hold
            | some b =>
              refine ⟨b', fe', io', hrun, hst, hn.older rfl ⟨hcap, hparse⟩ ?_⟩
              simpa using hold
      · -- a short device of unknown length
        have hread : ((memory cap known).toReadAt.read o SUPER_SIZE).ok io =
            .ok none { io with accesses := io.accesses ++ [.read o SUPER_SIZE], failed := true } := by
          rw [IoM.ok, memory_read_eq, if_neg hcap]
        rw [Run.bind_eq_of_ok hread]
        simp only
        obtain ⟨b', fe', io', hrun, hst, hn⟩ := ih best first_error
          { io with accesses := io.accesses ++ [.read o SUPER_SIZE], failed := true }
        exact ⟨b', fe', io', hrun, hst, hn.skip fun sb hc => hcap hc.1⟩
    · rw [if_pos hex]
      obtain ⟨b', fe', io', hrun, hst, hn⟩ := ih best first_error io
      exact ⟨b', fe', io', hrun, hst, hn.skip (not_copyAt_of_not_exists hex)⟩

/-- The search returns one of the copies, and none of them is newer. -/
theorem find_ok {sb : Superblock} {io io' : Io (Nat → UInt8)}
    (h : find sha256 from_utf8_lossy (memory cap known).toReadAt io = .ok sb io') :
    (∃ o ∈ SUPER_OFFSETS, CopyAt sha256 from_utf8_lossy cap io.state o sb) ∧
      ∀ o ∈ SUPER_OFFSETS, ∀ sb', CopyAt sha256 from_utf8_lossy cap io.state o sb' →
        sb'.generation ≤ sb.generation := by
  obtain ⟨best, fe, io₁, hrun, -, hn⟩ := 
    find_loop_newest sha256 from_utf8_lossy cap known SUPER_OFFSETS none none io
  rw [find, Run.bind_eq_of_ok hrun] at h
  cases best with
  | none => exact absurd h Run.throw_ok
  | some b =>
    obtain ⟨rfl, -⟩ := Run.pure_ok.mp h
    refine ⟨?_, ?_⟩
    · rcases hn.source b rfl with hb | hb
      · cases hb
      · exact hb
    · intro o ho sb' hc
      obtain ⟨b', hb', hle⟩ := hn.finds o ho sb' hc
      cases hb'
      exact hle

theorem find_exists (known : Bool) (io : Io (Nat → UInt8)) {o : Nat} (ho : o ∈ SUPER_OFFSETS) {sb : Superblock}
    (hat : CopyAt sha256 from_utf8_lossy cap io.state o sb) :
    ∃ sb' io', find sha256 from_utf8_lossy (memory cap known).toReadAt io = .ok sb' io' := by
  obtain ⟨best, fe, io₁, hrun, -, hn⟩ := 
    find_loop_newest sha256 from_utf8_lossy cap known SUPER_OFFSETS none none io
  obtain ⟨b, hb, -⟩ := hn.finds o ho sb hat
  subst hb
  exact ⟨b, io₁, by rw [find, Run.bind_eq_of_ok hrun]; rfl⟩

end Superblock

/-! ## What a commit leaves -/

open Superblock

variable {sha256 : Digest} {from_utf8_lossy : Bytes → String} {cap : Nat} {known : Bool}

theorem write_copies_frame {sb : Superblock} {template : Bytes} (ht : template.length = SUPER_SIZE)
    {offsets : List Nat} {io io' : Io (Nat → UInt8)} {u : Unit} {o : Nat}
    (hapart : ∀ p ∈ offsets, Bytes.Apart (p, SUPER_SIZE) (o, SUPER_SIZE))
    (h : write_copies sha256 (memory cap known) sb template offsets io = .ok u io') :
    load io'.state o SUPER_SIZE = load io.state o SUPER_SIZE := by
  induction offsets generalizing io with
  | nil =>
    obtain ⟨-, rfl⟩ := Run.pure_ok.mp h
    rfl
  | cons p offsets ih =>
    have hrest := fun q hq => hapart q (List.mem_cons_of_mem _ hq)
    rw [write_copies] at h
    split at h
    · exact ih hrest h
    · obtain ⟨u₁, io₁, hw, h⟩ := Run.bind_ok.mp h
      obtain ⟨-, hst⟩ := memory_write_ok hw
      rw [ih hrest h, hst]
      apply load_store_of_apart
      rw [length_emit_copy ht]
      exact hapart p List.mem_cons_self

theorem write_copies_ok {sb : Superblock} {template : Bytes} (ht : template.length = SUPER_SIZE)
    {offsets : List Nat} (hapart : offsets.Pairwise fun p o => Bytes.Apart (p, SUPER_SIZE) (o, SUPER_SIZE))
    {io io' : Io (Nat → UInt8)} {u : Unit}
    (h : write_copies sha256 (memory cap known) sb template offsets io = .ok u io') :
    ∀ o ∈ offsets, o + SUPER_SIZE ≤ cap →
      load io'.state o SUPER_SIZE = sb.emit_copy sha256 template o := by
  induction offsets generalizing io with
  | nil => simp
  | cons p offsets ih =>
    rw [List.pairwise_cons] at hapart
    intro o ho hcap
    rw [write_copies] at h
    split at h
    · rename_i hno
      rcases List.mem_cons.mp ho with rfl | ho
      · exfalso
        apply hno
        cases known with
        | true => simpa [copy_exists, memory] using hcap
        | false => rfl
      · exact ih hapart.2 h o ho hcap
    · obtain ⟨u₁, io₁, hw, hrest⟩ := Run.bind_ok.mp h
      rcases List.mem_cons.mp ho with rfl | ho
      · obtain ⟨-, hst⟩ := memory_write_ok hw
        have hframe := write_copies_frame ht (o := o) (fun q hq => (hapart.1 q hq).symm) hrest
        have hself := load_store_self io.state o (sb.emit_copy sha256 template o)
        rw [length_emit_copy ht] at hself
        rw [hframe, hst, hself]
      · exact ih hapart.2 hrest o ho hcap

theorem super_offsets_apart :
    SUPER_OFFSETS.Pairwise fun p o => Bytes.Apart (p, SUPER_SIZE) (o, SUPER_SIZE) := by decide

theorem super_offsets_lt : ∀ o ∈ SUPER_OFFSETS, o < 2 ^ 64 := by decide

/-- A commit emits the new superblock over the first copy that was there before. -/
theorem commit_transaction_ok {encode : Node → Bytes} {fs fs' : Mount} {txn : Transaction}
    {io io' : Io (Nat → UInt8)}
    (h : commit_transaction sha256 from_utf8_lossy encode fs (memory cap known) txn io = .ok fs' io') :
    fs'.sb = fs.sb.advance txn ∧
      (∃ old, CopyAt sha256 from_utf8_lossy cap io.state 0x10000 old) ∧
      ∀ o ∈ SUPER_OFFSETS, o + SUPER_SIZE ≤ cap →
        load io'.state o SUPER_SIZE =
          fs'.sb.emit_copy sha256 (load io.state 0x10000 SUPER_SIZE) o := by
  obtain ⟨template, io₁, hread, h⟩ := Run.bind_ok.mp h
  obtain ⟨old, io₂, hparse, h⟩ := Run.bind_ok.mp h
  obtain ⟨-, io₃, -, h⟩ := Run.bind_ok.mp h
  obtain ⟨-, io₄, -, h⟩ := Run.bind_ok.mp h
  obtain ⟨-, io₅, -, h⟩ := Run.bind_ok.mp h
  obtain ⟨u, io₆, hwrite, h⟩ := Run.bind_ok.mp h
  obtain ⟨u', io₇, hsync, h⟩ := Run.bind_ok.mp h
  obtain ⟨rfl, rfl⟩ := Run.pure_ok.mp h
  rw [memory_read_eq] at hread
  split at hread
  · rename_i hcap
    simp only [EStateM.Result.ok.injEq] at hread
    obtain ⟨rfl, rfl⟩ := hread
    refine ⟨rfl, ⟨old, hcap, (IoM.lift_ok.mp hparse).1⟩, ?_⟩
    rw [memory_sync_ok hsync]
    exact write_copies_ok (length_load _ _ _) super_offsets_apart hwrite
  · cases hread

/-- The fields that a commit takes from the first copy are those of the mount. -/
structure Carries (from_utf8_lossy : Bytes → String) (template : Bytes) (sb : Superblock) : Prop where
  fsid : template.slice 0x20 16 = sb.fsid
  csum_type : CsumType.from_raw (template.get 0xc4 2) = .ok sb.csum_type
  dev_id : template.get 0xc9 8 = sb.dev_id
  label : from_utf8_lossy (label_bytes template) = sb.label
  metadata_uuid : uuid_of sb.incompat_flags template = sb.metadata_uuid
  sys_chunk_array : template.slice SYS_CHUNK_ARRAY_OFFSET (template.get 0xa0 4) = sb.sys_chunk_array

theorem Carries.merged_eq {template : Bytes} {sb : Superblock} (h : Carries from_utf8_lossy template sb)
    (bytenr : Nat) :
    sb.merged from_utf8_lossy template bytenr sb.csum_type = { sb with bytenr } := by
  rw [merged, h.fsid, h.dev_id, h.label, h.metadata_uuid, h.sys_chunk_array]

theorem carries_of_parse {template : Bytes} (ht : template.length = SUPER_SIZE) {sb : Superblock} {offset : Nat}
    (h : parse sha256 from_utf8_lossy template offset = .ok sb) : Carries from_utf8_lossy template sb := by
  obtain ⟨ct, hacc, rfl⟩ := (parse_iff ht).mp h
  exact ⟨rfl, hacc.csum, rfl, rfl, rfl, rfl⟩

theorem carries_of_merged {template : Bytes} {sb : Superblock} {bytenr bytenr' : Nat} {csum_type : CsumType}
    (hcsum : CsumType.from_raw (template.get 0xc4 2) = .ok csum_type)
    (h : sb.merged from_utf8_lossy template bytenr csum_type = { sb with bytenr := bytenr' }) :
    Carries from_utf8_lossy template sb := by
  rw [merged] at h
  simp only [Superblock.mk.injEq] at h
  obtain ⟨hfsid, -, -, -, -, -, -, -, -, -, -, hdev, -, -, -, -, -, hct, -, -, hlabel, huuid, harray⟩ := h
  exact ⟨hfsid, hct ▸ hcsum, hdev, hlabel, huuid, harray⟩

theorem carries_advance {template : Bytes} {sb : Superblock} (txn : Transaction) :
    Carries from_utf8_lossy template (sb.advance txn) ↔ Carries from_utf8_lossy template sb := by
  have hsame : ∀ {x y : Superblock}, x.fsid = y.fsid → x.csum_type = y.csum_type → x.dev_id = y.dev_id →
      x.label = y.label → x.incompat_flags = y.incompat_flags → x.metadata_uuid = y.metadata_uuid →
      x.sys_chunk_array = y.sys_chunk_array → Carries from_utf8_lossy template x →
      Carries from_utf8_lossy template y := by
    intro x y h1 h2 h3 h4 h5 h6 h7 h
    exact ⟨h1 ▸ h.fsid, h2 ▸ h.csum_type, h3 ▸ h.dev_id, h4 ▸ h.label, h5 ▸ h6 ▸ h.metadata_uuid,
      h7 ▸ h.sys_chunk_array⟩
  unfold Superblock.advance
  cases txn.final_chunk_root with
  | none => exact ⟨hsame rfl rfl rfl rfl rfl rfl rfl, hsame rfl rfl rfl rfl rfl rfl rfl⟩
  | some root => exact ⟨hsame rfl rfl rfl rfl rfl rfl rfl, hsame rfl rfl rfl rfl rfl rfl rfl⟩

section Commit

variable {encode : Node → Bytes} {fs fs' : Mount} {txn : Transaction} {io io' : Io (Nat → UInt8)}

/-- Every copy that can be read after a commit has the mount's fields over the old first copy. -/
theorem copyAt_after_commit (hheld : Held sha256 from_utf8_lossy fs.sb) (htyped : txn.Typed)
    (h : commit_transaction sha256 from_utf8_lossy encode fs (memory cap known) txn io = .ok fs' io')
    {ct : CsumType} (hct : CsumType.from_raw ((load io.state 0x10000 SUPER_SIZE).get 0xc4 2) = .ok ct)
    {o : Nat} (ho : o ∈ SUPER_OFFSETS) {sb : Superblock}
    (hat : CopyAt sha256 from_utf8_lossy cap io'.state o sb) :
    sb = fs'.sb.merged from_utf8_lossy (load io.state 0x10000 SUPER_SIZE) o ct := by
  obtain ⟨hsb, -, hcopies⟩ := commit_transaction_ok h
  obtain ⟨hfit, hparse⟩ := hat
  have ht : (load io.state 0x10000 SUPER_SIZE).length = SUPER_SIZE := length_load _ _ _
  have hadm : fs'.sb.Admitted := hsb ▸ hheld.admitted.advance htyped
  rw [hcopies o ho hfit] at hparse
  obtain ⟨ct', hacc', rfl⟩ := (parse_iff (length_emit_copy ht _ _)).mp hparse
  have hsame : ct' = ct := by
    have hcsum := hacc'.csum
    rw [csum_emit_copy ht, hct] at hcsum
    exact (Except.ok.inj hcsum).symm
  rw [hsame]
  exact fields_of_emit_copy ht hadm (super_offsets_lt o ho) ct

/-- A search that finds the mount's superblock proves that the first copy carried its fields. -/
theorem carries_of_find (hheld : Held sha256 from_utf8_lossy fs.sb) (htyped : txn.Typed)
    (h : commit_transaction sha256 from_utf8_lossy encode fs (memory cap known) txn io = .ok fs' io')
    {sb : Superblock} {io'' : Io (Nat → UInt8)}
    (hfind : find sha256 from_utf8_lossy (memory cap known).toReadAt io' = .ok sb io'')
    (heq : sb = { fs'.sb with bytenr := sb.bytenr }) :
    Carries from_utf8_lossy (load io.state 0x10000 SUPER_SIZE) fs.sb := by
  obtain ⟨hsb, ⟨old, -, hold⟩, -⟩ := commit_transaction_ok h
  obtain ⟨ct, hacc, -⟩ := (parse_iff (length_load _ _ _)).mp hold
  obtain ⟨⟨o, ho, hat⟩, -⟩ := find_ok hfind
  rw [copyAt_after_commit hheld htyped h hacc.csum ho hat] at heq
  have hcar := carries_of_merged hacc.csum heq
  rw [hsb] at hcar
  exact (carries_advance txn).mp hcar

theorem find_of_carries (hheld : Held sha256 from_utf8_lossy fs.sb) (htyped : txn.Typed)
    (h : commit_transaction sha256 from_utf8_lossy encode fs (memory cap known) txn io = .ok fs' io')
    (hcar : Carries from_utf8_lossy (load io.state 0x10000 SUPER_SIZE) fs.sb) :
    ∃ sb io'', find sha256 from_utf8_lossy (memory cap known).toReadAt io' = .ok sb io'' ∧
      sb = { fs'.sb with bytenr := sb.bytenr } := by
  obtain ⟨hsb, ⟨old, hcap, hold⟩, hcopies⟩ := commit_transaction_ok h
  have ht : (load io.state 0x10000 SUPER_SIZE).length = SUPER_SIZE := length_load _ _ _
  have hadm : fs'.sb.Admitted := hsb ▸ hheld.admitted.advance htyped
  obtain ⟨ct, hacc, -⟩ := (parse_iff ht).mp hold
  rw [← carries_advance txn, ← hsb] at hcar
  -- the first copy is accepted again, so the search does not come back empty
  have hfirst : CopyAt sha256 from_utf8_lossy cap io'.state 0x10000
      (fields_of from_utf8_lossy (fs'.sb.emit_copy sha256 (load io.state 0x10000 SUPER_SIZE) 0x10000)
        fs'.sb.csum_type) := by
    refine ⟨hcap, ?_⟩
    rw [hcopies 0x10000 (by decide) hcap]
    refine (parse_iff (length_emit_copy ht _ _)).mpr ⟨_, ?_, rfl⟩
    exact accepted_emit_copy ht hadm (by decide) hacc.sys_array hcar.csum_type
  obtain ⟨sb, io'', hfind⟩ := find_exists known io' (by decide) hfirst
  obtain ⟨⟨o, ho, hat⟩, -⟩ := find_ok hfind
  refine ⟨sb, io'', hfind, ?_⟩
  rw [copyAt_after_commit hheld htyped h hcar.csum_type ho hat, hcar.merged_eq]

/-- After a commit a search finds the superblock of the mount, up to its place, exactly when the first
copy carried the other fields of the mount before. -/
theorem find_after_commit_iff (hheld : Held sha256 from_utf8_lossy fs.sb) (htyped : txn.Typed)
    (h : commit_transaction sha256 from_utf8_lossy encode fs (memory cap known) txn io = .ok fs' io') :
    (∃ sb io'', find sha256 from_utf8_lossy (memory cap known).toReadAt io' = .ok sb io'' ∧
      sb = { fs'.sb with bytenr := sb.bytenr }) ↔
      Carries from_utf8_lossy (load io.state 0x10000 SUPER_SIZE) fs.sb := by
  constructor
  · rintro ⟨sb, io'', hfind, heq⟩
    exact carries_of_find hheld htyped h hfind heq
  · exact find_of_carries hheld htyped h

end Commit

/-! ## A stale first copy -/

/-- The superblock of a small filesystem without a label. -/
def plain : Superblock where
  fsid := List.replicate 16 0
  bytenr := 0x10000
  generation := 5
  root := 0x500000
  chunk_root := 0x20000
  chunk_root_generation := 5
  log_root := 0
  total_bytes := 0x8000000
  bytes_used := 0x40000
  root_dir_objectid := 6
  num_devices := 1
  dev_id := 0
  sector_size := 4096
  node_size := 16384
  stripe_size := 4096
  incompat_flags := INCOMPAT_SKINNY_METADATA
  compat_ro_flags := 0
  csum_type := .Crc32c
  root_level := 0
  chunk_root_level := 0
  label := ""
  metadata_uuid := List.replicate 16 0
  sys_chunk_array := []

theorem plain_admitted : plain.Admitted where
  generation := by decide
  root := by decide
  chunk_root := by decide
  chunk_root_generation := by decide
  log_root := by decide
  total_bytes := by decide
  bytes_used := by decide
  root_dir_objectid := by decide
  num_devices := rfl
  stripe_size := by decide
  incompat_lt := by decide
  compat_ro_flags := by decide
  root_level := by decide
  chunk_root_level := by decide
  sector_size := by decide
  node_size := by decide
  incompat := by decide +kernel
  uuid := fun _ => rfl

/-- A transaction that only counts the generation up. -/
def renewal : Transaction where
  new_generation := 7
  final_root := (0x500000, 0)
  final_chunk_root := none
  final_bytes_used := 0x40000
  new_fs_tree := ⟨FS_TREE_OBJECTID, 0x504000, 0, 256, 7, 0⟩
  pending_blocks := .empty
  pending_data := []
  final_allocator := ⟨[]⟩

theorem renewal_typed : renewal.Typed :=
  ⟨by decide, ⟨by decide, by decide⟩, (by rintro _ ⟨⟩), by decide⟩

/-- Nothing but zeros. -/
def blank : Bytes := List.replicate SUPER_SIZE 0

/-- A blank copy with the label `n`. -/
def labelled : Bytes := blank.put LABEL_OFFSET [110]

theorem slice_blank (offset n : Nat) : blank.slice offset n = List.replicate (min n (SUPER_SIZE - offset)) 0 := by
  rw [blank, Bytes.slice, List.drop_replicate, List.take_replicate]

theorem slice_labelled {offset n : Nat} (h : Bytes.Apart (LABEL_OFFSET, 1) (offset, n)) :
    labelled.slice offset n = blank.slice offset n := by
  refine Bytes.slice_put_of_apart ?_ h
  rw [blank, List.length_replicate]
  decide

theorem label_blank : label_bytes blank = [] := by
  rw [label_bytes, slice_blank]
  decide

theorem label_labelled : label_bytes labelled = [110] := by
  have hput : labelled = List.replicate LABEL_OFFSET 0 ++ ([110] ++ List.replicate (SUPER_SIZE - 300) 0) := by
    rw [labelled, Bytes.put, blank, List.take_replicate, List.drop_replicate, List.append_assoc]
    rfl
  rw [label_bytes, hput, Bytes.slice, List.drop_left' (by simp)]
  rfl

/-- The text of ASCII bytes. -/
def ascii (b : Bytes) : String := String.ofList (b.map fun c => Char.ofNat c.toNat)

theorem length_blank : blank.length = SUPER_SIZE := List.length_replicate ..

theorem length_labelled : labelled.length = SUPER_SIZE := by
  rw [labelled, Bytes.length_put, length_blank]
  rw [length_blank]
  decide

theorem get_blank (offset w : Nat) (hw : w ≤ SUPER_SIZE - offset) : blank.get offset w = 0 := by
  rw [Bytes.get, slice_blank, Nat.min_eq_left hw]
  clear hw
  induction w with
  | zero => rfl
  | succ w ih => rw [List.replicate_succ, Bytes.unle, ih]; rfl

theorem get_labelled {offset w : Nat} (h : Bytes.Apart (LABEL_OFFSET, 1) (offset, w))
    (hw : w ≤ SUPER_SIZE - offset) : labelled.get offset w = 0 := by
  rw [Bytes.get, slice_labelled h, ← Bytes.get, get_blank _ _ hw]

theorem parse_emitted {template : Bytes} (ht : template.length = SUPER_SIZE) {sb : Superblock}
    (h : sb.Admitted) (hcsum : sb.csum_type = .Crc32c) (hget : template.get 0xc4 2 = 0)
    (hsys : template.get 0xa0 4 = 0) {o : Nat} (ho : o < 2 ^ 64) :
    parse sha256 from_utf8_lossy (sb.emit_copy sha256 template o) o =
      .ok (sb.merged from_utf8_lossy template o .Crc32c) := by
  refine (parse_iff (length_emit_copy ht _ _)).mpr ⟨.Crc32c, ?_, (fields_of_emit_copy ht h ho _).symm⟩
  have hacc : Accepted sha256 (sb.emit_copy sha256 template o) o sb.csum_type :=
    accepted_emit_copy ht h ho (by rw [hsys]; decide) (by rw [hget, hcsum]; rfl)
  rwa [hcsum] at hacc

theorem write_copies_run (sha256 : Digest) (cap : Nat) (sb : Superblock) {template : Bytes}
    (ht : template.length = SUPER_SIZE)
    (offsets : List Nat) (io : Io (Nat → UInt8)) :
    ∃ io', write_copies sha256 (memory cap true) sb template offsets io = .ok () io' := by
  induction offsets generalizing io with
  | nil => exact ⟨io, rfl⟩
  | cons o offsets ih =>
    rw [write_copies]
    split
    · exact ih io
    · rename_i hex
      have hcap : o + (sb.emit_copy sha256 template o).length ≤ cap := by
        rw [length_emit_copy ht]
        simpa [copy_exists, memory] using hex
      obtain ⟨io₁, hw⟩ := memory_write_run true hcap io
      obtain ⟨io', hrest⟩ := ih io₁
      exact ⟨io', Run.bind_ok.mpr ⟨(), io₁, hw, hrest⟩⟩

theorem commit_renewal (encode : Node → Bytes) (fs : Mount) (io : Io (Nat → UInt8))
    {old : Superblock} (hold : CopyAt sha256 from_utf8_lossy cap io.state 0x10000 old) :
    ∃ fs' io', commit_transaction sha256 from_utf8_lossy encode fs (memory cap true) renewal io =
      .ok fs' io' := by
  obtain ⟨hcap, hparse⟩ := hold
  have hread : (memory cap true).toReadAt.read 0x10000 SUPER_SIZE io = .ok (load io.state 0x10000 SUPER_SIZE)
      { io with accesses := io.accesses ++ [.read 0x10000 SUPER_SIZE] } := by
    rw [memory_read_eq, if_pos hcap]
  obtain ⟨io₁, hsync⟩ := memory_sync_run cap true
    { io with accesses := io.accesses ++ [.read 0x10000 SUPER_SIZE] }
  obtain ⟨io₂, hwrite⟩ := write_copies_run sha256 cap (fs.sb.advance renewal)
    (length_load io.state 0x10000 SUPER_SIZE) SUPER_OFFSETS io₁
  obtain ⟨io₃, hsync'⟩ := memory_sync_run cap true io₂
  refine ⟨fs.update_mount_state (fs.sb.advance renewal) renewal, io₃, ?_⟩
  rw [commit_transaction, Run.bind_eq_of_ok hread, hparse]
  refine Run.bind_ok.mpr ⟨old, _, rfl, Run.bind_ok.mpr ⟨(), _, rfl, Run.bind_ok.mpr ⟨(), _, rfl, ?_⟩⟩⟩
  rw [Run.bind_eq_of_ok hsync]
  exact Run.bind_ok.mpr ⟨(), io₂, hwrite, Run.bind_ok.mpr ⟨(), io₃, hsync', rfl⟩⟩

/-- A mount of a superblock. Its trees play no part here. -/
def mounted (sb : Superblock) : Mount where
  device _ := .error .OutOfBounds
  sb := sb
  chunks := ⟨[]⟩
  fs_tree_root := ⟨FS_TREE_OBJECTID, 0x504000, 0, 256, 5, 0⟩
  active_batch := none
  has_open_writer := false

theorem parse_plain_copy (sha256 : Digest) :
    parse sha256 ascii (plain.emit_copy sha256 blank 0x10000) 0x10000 =
      .ok (plain.merged ascii blank 0x10000 .Crc32c) :=
  parse_emitted length_blank plain_admitted rfl (get_blank _ _ (by decide)) (get_blank _ _ (by decide))
    (by decide)

/-- The second copy is one generation ahead. -/
def ahead : Superblock := plain.advance { renewal with new_generation := 6 }

theorem ahead_admitted : ahead.Admitted :=
  plain_admitted.advance { renewal_typed with new_generation := by decide }

/-- A device with the old first copy, and the new second one over this template. -/
def halfWritten (sha256 : Digest) (template : Bytes) : Nat → UInt8 :=
  store (store (fun _ => 0) 0x10000 (plain.emit_copy sha256 blank 0x10000)) 0x4000000
    (ahead.emit_copy sha256 template 0x4000000)

theorem parse_ahead_copy (sha256 : Digest) {template : Bytes} (ht : template.length = SUPER_SIZE)
    (hget : template.get 0xc4 2 = 0) (hsys : template.get 0xa0 4 = 0) :
    parse sha256 ascii (ahead.emit_copy sha256 template 0x4000000) 0x4000000 =
      .ok (ahead.merged ascii template 0x4000000 .Crc32c) :=
  parse_emitted ht ahead_admitted rfl hget hsys (by decide)

theorem halfWritten_first (sha256 : Digest) {template : Bytes} (ht : template.length = SUPER_SIZE) :
    load (halfWritten sha256 template) 0x10000 SUPER_SIZE = plain.emit_copy sha256 blank 0x10000 := by
  have hself := load_store_self (fun _ => 0) 0x10000 (plain.emit_copy sha256 blank 0x10000)
  rw [length_emit_copy length_blank] at hself
  rw [halfWritten, load_store_of_apart, hself]
  rw [length_emit_copy ht]
  decide

theorem halfWritten_second (sha256 : Digest) {template : Bytes} (ht : template.length = SUPER_SIZE) :
    load (halfWritten sha256 template) 0x4000000 SUPER_SIZE = ahead.emit_copy sha256 template 0x4000000 := by
  have hself := load_store_self (store (fun _ => 0) 0x10000 (plain.emit_copy sha256 blank 0x10000)) 0x4000000
    (ahead.emit_copy sha256 template 0x4000000)
  rw [length_emit_copy ht] at hself
  exact hself

theorem copyAt_halfWritten_first (sha256 : Digest) {template : Bytes} (ht : template.length = SUPER_SIZE) :
    CopyAt sha256 ascii 0x4001000 (halfWritten sha256 template) 0x10000
      (plain.merged ascii blank 0x10000 .Crc32c) := by
  refine ⟨by decide, ?_⟩
  rw [halfWritten_first sha256 ht]
  exact parse_plain_copy sha256

theorem find_halfWritten (sha256 : Digest) {template : Bytes} (ht : template.length = SUPER_SIZE)
    (hget : template.get 0xc4 2 = 0) (hsys : template.get 0xa0 4 = 0) :
    ∃ io', find sha256 ascii (memory 0x4001000 true).toReadAt ⟨halfWritten sha256 template, [], false⟩ =
      .ok (ahead.merged ascii template 0x4000000 .Crc32c) io' := by
  have hfirst := copyAt_halfWritten_first sha256 ht
  have hsecond : CopyAt sha256 ascii 0x4001000 (halfWritten sha256 template) 0x4000000
      (ahead.merged ascii template 0x4000000 .Crc32c) := by
    refine ⟨by decide, ?_⟩
    rw [halfWritten_second sha256 ht]
    exact parse_ahead_copy sha256 ht hget hsys
  obtain ⟨sb, io', hfind⟩ := find_exists true ⟨halfWritten sha256 template, [], false⟩ (by decide) hfirst
  obtain ⟨⟨o, ho, hat⟩, hnewest⟩ := find_ok hfind
  have hgen : 6 ≤ sb.generation := hnewest 0x4000000 (by decide) _ hsecond
  suffices hsb : sb = ahead.merged ascii template 0x4000000 .Crc32c from ⟨io', hsb ▸ hfind⟩
  simp only [SUPER_OFFSETS, List.mem_cons, List.not_mem_nil, or_false] at ho
  rcases ho with rfl | rfl | rfl
  · -- the first copy is too old
    have hsb := Except.ok.inj (hat.2.symm.trans hfirst.2)
    rw [hsb] at hgen
    exact absurd hgen (by decide)
  · exact Except.ok.inj (hat.2.symm.trans hsecond.2)
  · exact absurd hat.1 (by decide)

/-- The first copy is a generation behind, but has the same label. -/
theorem find_after_commit_of_stale_copy :
    ∃ (sha256 : Digest) (io io₁ io' : Io (Nat → UInt8)) (fs fs' : Mount),
      find sha256 ascii (memory 0x4001000 true).toReadAt io = .ok fs.sb io₁ ∧
      commit_transaction sha256 ascii (fun _ => []) fs (memory 0x4001000 true) renewal io = .ok fs' io' ∧
      ∃ sb io'', find sha256 ascii (memory 0x4001000 true).toReadAt io' = .ok sb io'' ∧
        sb = { fs'.sb with bytenr := sb.bytenr } := by
  let sha256 : Digest := ⟨fun _ => List.replicate 32 0, fun _ => rfl⟩
  have hget : blank.get 0xc4 2 = 0 := get_blank _ _ (by decide)
  have hsys : blank.get 0xa0 4 = 0 := get_blank _ _ (by decide)
  obtain ⟨io₁, hfind⟩ := find_halfWritten sha256 length_blank hget hsys
  let fs := mounted (ahead.merged ascii blank 0x4000000 .Crc32c)
  have hfirst := copyAt_halfWritten_first sha256 length_blank
  obtain ⟨fs', io', hcommit⟩ := commit_renewal (fun _ => []) fs ⟨halfWritten sha256 blank, [], false⟩ hfirst
  have hcar := carries_of_parse (length_load _ _ _) hfirst.2
  refine ⟨sha256, ⟨halfWritten sha256 blank, [], false⟩, io₁, io', fs, fs', hfind, hcommit, ?_⟩
  exact (find_after_commit_iff
      (.parsed (length_emit_copy length_blank _ _) (parse_ahead_copy sha256 length_blank hget hsys))
      renewal_typed hcommit).mpr
    ⟨hcar.fsid, hcar.csum_type, hcar.dev_id, hcar.label, hcar.metadata_uuid, hcar.sys_chunk_array⟩

/-- Between the two copies of a half-written device, a commit loses the label of the newer one. -/
theorem commit_over_stale_copy :
    ∃ (sha256 : Digest) (io io₁ io' : Io (Nat → UInt8)) (fs fs' : Mount),
      find sha256 ascii (memory 0x4001000 true).toReadAt io = .ok fs.sb io₁ ∧ renewal.Typed ∧
      commit_transaction sha256 ascii (fun _ => []) fs (memory 0x4001000 true) renewal io = .ok fs' io' ∧
      ¬ ∃ sb io'', find sha256 ascii (memory 0x4001000 true).toReadAt io' = .ok sb io'' ∧
        sb = { fs'.sb with bytenr := sb.bytenr } := by
  let sha256 : Digest := ⟨fun _ => List.replicate 32 0, fun _ => rfl⟩
  have hget : labelled.get 0xc4 2 = 0 := get_labelled (by decide) (by decide)
  have hsys : labelled.get 0xa0 4 = 0 := get_labelled (by decide) (by decide)
  obtain ⟨io₁, hfind⟩ := find_halfWritten sha256 length_labelled hget hsys
  let fs := mounted (ahead.merged ascii labelled 0x4000000 .Crc32c)
  obtain ⟨fs', io', hcommit⟩ := commit_renewal (fun _ => []) fs ⟨halfWritten sha256 labelled, [], false⟩
    (copyAt_halfWritten_first sha256 length_labelled)
  refine ⟨sha256, ⟨halfWritten sha256 labelled, [], false⟩, io₁, io', fs, fs', hfind, renewal_typed, hcommit, ?_⟩
  rintro ⟨sb, io'', hfound, heq⟩
  have hheld : Held sha256 ascii fs.sb := 
    .parsed (length_emit_copy length_labelled _ _) (parse_ahead_copy sha256 length_labelled hget hsys)
  have hlabel := (carries_of_find hheld renewal_typed hcommit hfound heq).label
  -- the label on the device is the old one
  have hold : ascii (label_bytes (plain.emit_copy sha256 blank 0x10000)) = ascii [] := by
    rw [label_bytes, slice_kept length_blank _ _ (by decide) (by decide), ← label_bytes, label_blank]
  have hnew : fs.sb.label = ascii [110] := by
    rw [← label_labelled]
    rfl
  rw [halfWritten_first sha256 length_labelled, hold, hnew] at hlabel
  exact absurd hlabel (by decide)

end LuksAndroid.Btrfs
