import LuksAndroid.Luks.Stripes
import LuksAndroid.Luks.Refine
import LuksAndroid.Steady

/-!
# Unlocking

Which key `unlock` returns, and when that is a key of a keyslot, verified by a digest for that
keyslot and for the data segment.
-/

namespace LuksAndroid.Luks

open Word

section

variable (c : Crypto) (cap : Nat) (m : Nat → UInt8) (partition_offset : Nat) (md : Metadata) (password : Bytes)

/-! ## What the slots are worth -/

/-- What a slot derives, unwraps and merges to. `none` is an error. -/
def candidateOf (slot : Keyslot) : Option Bytes :=
  value m (derive_candidate c (memory cap true).toReadAt partition_offset slot password)

/-- The key of a slot when a digest takes it, `none` inside when all digests refuse it. -/
def attempt (slot : Keyslot) : Option (Option Bytes) :=
  (candidateOf c cap m partition_offset password slot).bind fun k =>
    (verify_digests c k md.digests).toOption.map fun ok => if ok then some k else none

/-- The whole sectors that have `n` bytes of the slot's area. -/
def stored (slot : Keyslot) (n : Nat) : Option Bytes :=
  seek cap m (wrapping_add partition_offset slot.area.offset)
    (wrapping_mul (div_ceil n KEYSLOT_SECTOR_SIZE) KEYSLOT_SECTOR_SIZE)

/-- Unsealed with what the password derives, the area of the slot starts with the stripes of this key. -/
def Holds (slot : Keyslot) (k : Bytes) : Prop :=
  ∃ af derived sealed area, slot.af = some af ∧ derive_key c slot.kdf password slot.area.key_size = .ok derived ∧
    slot.key_size * af.stripes < size ∧ slot.key_size * af.stripes ≤ slot.area.size ∧
    stored cap m partition_offset slot (slot.key_size * af.stripes) = some sealed ∧
    slot.area.encryption = "aes-xts-plain64" ∧ xts_decrypt c.cipher derived sealed KEYSLOT_SECTOR_SIZE 0 1 = .ok area ∧
    k.length = slot.key_size ∧ Split c af.hash af.stripes area k

/-- The digest is that of the key. -/
def Takes (digest : Digest) (k : Bytes) : Prop :=
  digest.kind = "pbkdf2" ∧ ∃ h, HashName.of digest.hash = some h ∧
    c.pbkdf2 h k digest.salt digest.iterations digest.digest.length = .ok digest.digest

/-- The digest is that of another key. -/
def Refuses (digest : Digest) (k : Bytes) : Prop :=
  digest.kind = "pbkdf2" ∧ ∃ h out, HashName.of digest.hash = some h ∧
    c.pbkdf2 h k digest.salt digest.iterations digest.digest.length = .ok out ∧ out ≠ digest.digest

/-- A LUKS2 keyslot that the password opens, with a digest for it and for the data segment, which is the first one. -/
structure Opens (k : Bytes) (slot : String × Keyslot) : Prop where
  listed : slot ∈ md.keyslots
  luks2 : slot.2.kind = "luks2"
  holds : Holds c cap m partition_offset password slot.2 k
  bound : ∃ digest ∈ md.digests, slot.1 ∈ digest.2.keyslots ∧ (∃ seg ∈ md.segments.head?, seg.1 ∈ digest.2.segments) ∧
    Takes c digest.2 k

/-- The slot holds a key that is of no digest. -/
def Refused (slot : Keyslot) : Prop :=
  ∃ k, Holds c cap m partition_offset password slot k ∧ ∀ digest ∈ md.digests, Refuses c digest.2 k

/-- The slot holds a key that a digest takes, whatever it is for, and those before it refuse. -/
def Taken (slot : Keyslot) (k : Bytes) : Prop :=
  Holds c cap m partition_offset password slot k ∧
    ∃ pre digest post, md.digests = pre ++ digest :: post ∧ (∀ d ∈ pre, Refuses c d.2 k) ∧ Takes c digest.2 k

/-- Of the first LUKS2 slot that is not refused: a key that is taken opens a slot, and where there is none, with a part
of the slot or a digest that the code cannot work with, nothing opens. -/
def Orderly : Prop :=
  ∀ pre slot post, md.keyslots = pre ++ slot :: post → slot.2.kind = "luks2" →
    (∀ s ∈ pre, s.2.kind = "luks2" → Refused c cap m partition_offset md password s.2) →
    ¬ Refused c cap m partition_offset md password slot.2 →
    (∀ k, Taken c cap m partition_offset md password slot.2 k →
      ∃ good, Opens c cap m partition_offset md password k good) ∧
    ((∀ k, ¬ Taken c cap m partition_offset md password slot.2 k) →
      ∀ k good, ¬ Opens c cap m partition_offset md password k good)

/-- `unlock` returns a key that opens a slot, whenever there is one. -/
def Right : Prop :=
  ∀ io : Io (Nat → UInt8), io.state = m →
    (∀ k io', unlock c (memory cap true).toReadAt partition_offset md password io = .ok k io' →
      ∃ good, Opens c cap m partition_offset md password k good) ∧
    ((∃ k good, Opens c cap m partition_offset md password k good) →
      ∃ k io', unlock c (memory cap true).toReadAt partition_offset md password io = .ok k io')

end

section

variable {c : Crypto} {cap : Nat} {m : Nat → UInt8} {partition_offset : Nat} {md : Metadata} {password : Bytes}

theorem derive_candidate_reads (slot : Keyslot) :
    ReadsOnly (derive_candidate c (memory cap true).toReadAt partition_offset slot password) := by
  unfold derive_candidate
  refine .bind (.lift _) fun derived => .bind (.lift _) fun material => .bind (.read _ _ _) fun area => ?_
  exact .bind (.lift _) fun area => .lift _

theorem try_keyslot_yields (slot : Keyslot) :
    Yields m (try_keyslot c (memory cap true).toReadAt partition_offset md slot password)
      (attempt c cap m partition_offset md password slot) := by
  unfold attempt
  refine (derive_candidate_reads slot).yields.bind fun k _ => ?_
  rw [Option.map_eq_bind]
  refine (Yields.lift _).bind fun ok _ => ?_
  cases ok with
  | true => exact .pure _
  | false => exact .pure _

/-- What the loop over some slots comes to. -/
def firstKey (c : Crypto) (cap : Nat) (m : Nat → UInt8) (partition_offset : Nat) (md : Metadata) (password : Bytes) :
    List (String × Keyslot) → Option Bytes
  | [] => none
  | (_, slot) :: rest =>
    if slot.kind ≠ "luks2" then firstKey c cap m partition_offset md password rest
    else (attempt c cap m partition_offset md password slot).bind fun key =>
      key.or (firstKey c cap m partition_offset md password rest)

theorem unlock_slots_yields (slots : List (String × Keyslot)) :
    Yields m (unlock_slots c (memory cap true).toReadAt partition_offset md password slots)
      (firstKey c cap m partition_offset md password slots) := by
  induction slots with
  | nil => exact .throw _
  | cons slot slots ih =>
    obtain ⟨name, slot⟩ := slot
    unfold unlock_slots firstKey
    split
    · exact ih
    · refine (try_keyslot_yields slot).bind fun key _ => ?_
      cases key with
      | some k => exact .pure _
      | none => exact ih

theorem unlock_yields :
    Yields m (unlock c (memory cap true).toReadAt partition_offset md password)
      (firstKey c cap m partition_offset md password md.keyslots) := by
  unfold unlock
  split
  · rename_i hempty
    rw [List.isEmpty_iff.mp hempty]
    exact .throw _
  · exact unlock_slots_yields md.keyslots

/-! ## Slots and digests -/

theorem toOption_eq_some {ε α : Type} {x : Except ε α} {a : α} : x.toOption = some a ↔ x = .ok a := by
  cases x <;> simp [Except.toOption]

theorem material_len_ok_iff {slot : Keyslot} {af : AntiForensic} {n : Nat} :
    material_len slot = .ok (af, n) ↔ slot.af = some af ∧ n = slot.key_size * af.stripes ∧
      slot.key_size * af.stripes < size ∧ slot.key_size * af.stripes ≤ slot.area.size := by
  unfold material_len
  cases slot.af with
  | none => simp
  | some af' =>
    simp only [Option.some.injEq]
    cases hmul : checked_mul slot.key_size af'.stripes with
    | none =>
      simp only [reduceCtorEq, false_iff]
      rintro ⟨rfl, -, hsize, -⟩
      rw [checked_mul, if_pos hsize] at hmul
      cases hmul
    | some len =>
      obtain ⟨rfl, hsize⟩ := checked_mul_eq_some hmul
      simp only
      split
      · rename_i hlong
        simp only [reduceCtorEq, false_iff]
        rintro ⟨rfl, -, -, hfits⟩
        omega
      · rename_i hfits
        simp only [Except.ok.injEq, Prod.mk.injEq]
        constructor
        · rintro ⟨rfl, rfl⟩
          exact ⟨rfl, rfl, hsize, not_lt.mp hfits⟩
        · rintro ⟨rfl, rfl, -⟩
          exact ⟨rfl, rfl⟩

theorem derive_candidate_value (slot : Keyslot) :
    candidateOf c cap m partition_offset password slot =
      (derive_key c slot.kdf password slot.area.key_size).toOption.bind fun derived =>
        (material_len slot).toOption.bind fun material =>
          (stored cap m partition_offset slot material.2).bind fun sealed =>
          (decrypt_keyslot_area c slot.area.encryption derived sealed).toOption.bind fun area =>
            (af_merge c area slot.key_size material.1.stripes material.1.hash).toOption := by
  unfold candidateOf derive_candidate
  refine Yields.value_eq ((Yields.lift _).bind fun derived _ => (Yields.lift _).bind fun material _ => ?_)
  exact (Yields.read cap _ _).bind fun sealed _ => (Yields.lift _).bind fun area _ => .lift _

theorem candidate_iff {slot : Keyslot} {k : Bytes} :
    candidateOf c cap m partition_offset password slot = some k ↔ Holds c cap m partition_offset password slot k := by
  rw [derive_candidate_value]
  simp only [Option.bind_eq_some_iff, toOption_eq_some, af_merge_ok_iff, decrypt_keyslot_area, Prod.exists]
  constructor
  · rintro ⟨derived, hderived, af, n, hmaterial, sealed, hsealed, area, harea, hlen, hsize, hsplit⟩
    obtain ⟨haf, rfl, -, hfits⟩ := material_len_ok_iff.mp hmaterial
    split at harea
    · cases harea
    · rename_i hencryption
      exact ⟨af, derived, sealed, area, haf, hderived, hsize, hfits, hsealed, not_not.mp hencryption, harea, hlen,
        hsplit⟩
  · rintro ⟨af, derived, sealed, area, haf, hderived, hsize, hfits, hsealed, hencryption, harea, hlen, hsplit⟩
    refine ⟨derived, hderived, af, _, material_len_ok_iff.mpr ⟨haf, rfl, hsize, hfits⟩, sealed, hsealed, area, ?_, hlen,
      hsize, hsplit⟩
    rw [if_neg (not_not.mpr hencryption)]
    exact harea

theorem pbkdf2_into_ok_iff {hash : String} {password salt out : Bytes} {rounds n : Nat} :
    pbkdf2_into c hash password salt rounds n = .ok out ↔
      ∃ h, HashName.of hash = some h ∧ c.pbkdf2 h password salt rounds n = .ok out := by
  unfold pbkdf2_into
  cases HashName.of hash with
  | none => simp
  | some h =>
    simp only [Option.some.injEq, exists_eq_left']
    cases c.pbkdf2 h password salt rounds n <;> simp [Except.mapError]

theorem verify_digest_ok_iff {digest : Digest} {k : Bytes} {ok : Bool} :
    verify_digest c digest k = .ok ok ↔ if ok then Takes c digest k else Refuses c digest k := by
  have hverify : verify_digest c digest k = .ok ok ↔ digest.kind = "pbkdf2" ∧ ∃ out,
      pbkdf2_into c digest.hash k digest.salt digest.iterations digest.digest.length = .ok out ∧
        decide (out = digest.digest) = ok := by
    unfold verify_digest
    rw [Run.guard_bind_ok, not_not, Run.except_bind_ok]
    simp only [pure, Except.pure, Except.ok.injEq]
  rw [hverify]
  simp only [pbkdf2_into_ok_iff]
  cases ok with
  | true =>
    simp only [decide_eq_true_eq, if_true, Takes]
    constructor
    · rintro ⟨hkind, out, ⟨h, hname, hout⟩, rfl⟩
      exact ⟨hkind, h, hname, hout⟩
    · rintro ⟨hkind, h, hname, hout⟩
      exact ⟨hkind, _, ⟨h, hname, hout⟩, rfl⟩
  | false =>
    simp only [decide_eq_false_iff_not, Bool.false_eq_true, if_false, Refuses]
    constructor
    · rintro ⟨hkind, out, ⟨h, hname, hout⟩, hne⟩
      exact ⟨hkind, h, out, hname, hout, hne⟩
    · rintro ⟨hkind, h, out, hname, hout, hne⟩
      exact ⟨hkind, out, ⟨h, hname, hout⟩, hne⟩

theorem verify_digests_true {k : Bytes} (digests : List (String × Digest)) :
    verify_digests c k digests = .ok true ↔
      ∃ pre digest post, digests = pre ++ digest :: post ∧ (∀ d ∈ pre, Refuses c d.2 k) ∧ Takes c digest.2 k := by
  induction digests with
  | nil => simp [verify_digests, pure, Except.pure]
  | cons d digests ih =>
    rw [verify_digests, Run.except_bind_ok]
    constructor
    · rintro ⟨ok, hverify, h⟩
      cases ok with
      | true => exact ⟨[], d, digests, rfl, by simp, verify_digest_ok_iff.mp hverify⟩
      | false =>
        obtain ⟨pre, digest, post, rfl, hpre, htakes⟩ := ih.mp h
        exact ⟨d :: pre, digest, post, rfl, List.forall_mem_cons.mpr ⟨verify_digest_ok_iff.mp hverify, hpre⟩, htakes⟩
    · rintro ⟨pre, digest, post, heq, hpre, htakes⟩
      cases pre with
      | nil =>
        cases heq
        exact ⟨true, verify_digest_ok_iff.mpr htakes, rfl⟩
      | cons e pre =>
        cases heq
        obtain ⟨hfirst, hpre⟩ := List.forall_mem_cons.mp hpre
        exact ⟨false, verify_digest_ok_iff.mpr hfirst, ih.mpr ⟨pre, digest, post, rfl, hpre, htakes⟩⟩

theorem verify_digests_false {k : Bytes} (digests : List (String × Digest)) :
    verify_digests c k digests = .ok false ↔ ∀ d ∈ digests, Refuses c d.2 k := by
  induction digests with
  | nil => simp [verify_digests, pure, Except.pure]
  | cons d digests ih =>
    rw [verify_digests, Run.except_bind_ok, List.forall_mem_cons]
    constructor
    · rintro ⟨ok, hverify, h⟩
      cases ok with
      | true => cases h
      | false => exact ⟨verify_digest_ok_iff.mp hverify, ih.mp h⟩
    · rintro ⟨hfirst, hrest⟩
      exact ⟨false, verify_digest_ok_iff.mpr hfirst, ih.mpr hrest⟩

theorem attempt_taken_iff {slot : Keyslot} {k : Bytes} :
    attempt c cap m partition_offset md password slot = some (some k) ↔
      Taken c cap m partition_offset md password slot k := by
  unfold attempt Taken
  rw [← verify_digests_true]
  simp only [Option.bind_eq_some_iff, Option.map_eq_some_iff, toOption_eq_some, candidate_iff]
  constructor
  · rintro ⟨k', hholds, ok, hverified, htaken⟩
    cases ok with
    | true =>
      cases htaken
      exact ⟨hholds, hverified⟩
    | false => cases htaken
  · rintro ⟨hholds, hverified⟩
    exact ⟨k, hholds, true, hverified, rfl⟩

theorem attempt_refused_iff {slot : Keyslot} :
    attempt c cap m partition_offset md password slot = some none ↔
      Refused c cap m partition_offset md password slot := by
  unfold attempt Refused
  simp only [Option.bind_eq_some_iff, Option.map_eq_some_iff, toOption_eq_some, candidate_iff, ← verify_digests_false]
  constructor
  · rintro ⟨k, hholds, ok, hverified, hrefused⟩
    cases ok with
    | true => cases hrefused
    | false => exact ⟨k, hholds, hverified⟩
  · rintro ⟨k, hholds, hverified⟩
    exact ⟨k, hholds, false, hverified, rfl⟩

/-! ## The loop -/

/-- The first slot that is not refused decides. -/
theorem firstKey_at {pre : List (String × Keyslot)} {slot : String × Keyslot} (post : List (String × Keyslot))
    (hpre : ∀ s ∈ pre, s.2.kind = "luks2" → Refused c cap m partition_offset md password s.2)
    (hkind : slot.2.kind = "luks2") (hslot : ¬ Refused c cap m partition_offset md password slot.2) :
    firstKey c cap m partition_offset md password (pre ++ slot :: post) =
      (attempt c cap m partition_offset md password slot.2).join := by
  induction pre with
  | nil =>
    rw [List.nil_append, firstKey, if_neg (not_not.mpr hkind)]
    rcases hattempt : attempt c cap m partition_offset md password slot.2 with _ | _ | k
    · rfl
    · exact absurd (attempt_refused_iff.mp hattempt) hslot
    · rfl
  | cons s pre ih =>
    obtain ⟨hfirst, hrest⟩ := List.forall_mem_cons.mp hpre
    rw [List.cons_append, firstKey]
    split
    · exact ih hrest
    · rename_i hluks2
      rw [attempt_refused_iff.mpr (hfirst (not_not.mp hluks2)), Option.bind_some, Option.none_or]
      exact ih hrest

theorem firstKey_refused (slots : List (String × Keyslot))
    (hall : ∀ s ∈ slots, s.2.kind = "luks2" → Refused c cap m partition_offset md password s.2) :
    firstKey c cap m partition_offset md password slots = none := by
  induction slots with
  | nil => rfl
  | cons s slots ih =>
    obtain ⟨hfirst, hrest⟩ := List.forall_mem_cons.mp hall
    rw [firstKey]
    split
    · exact ih hrest
    · rename_i hluks2
      rw [attempt_refused_iff.mpr (hfirst (not_not.mp hluks2)), Option.bind_some, Option.none_or]
      exact ih hrest

theorem first_or_refused (slots : List (String × Keyslot)) :
    (∀ s ∈ slots, s.2.kind = "luks2" → Refused c cap m partition_offset md password s.2) ∨
      ∃ pre slot post, slots = pre ++ slot :: post ∧ slot.2.kind = "luks2" ∧
        (∀ s ∈ pre, s.2.kind = "luks2" → Refused c cap m partition_offset md password s.2) ∧
        ¬ Refused c cap m partition_offset md password slot.2 := by
  induction slots with
  | nil => exact .inl (by simp)
  | cons s slots ih =>
    by_cases hs : s.2.kind = "luks2" → Refused c cap m partition_offset md password s.2
    · rcases ih with hall | ⟨pre, slot, post, rfl, hkind, hpre, hslot⟩
      · exact .inl (List.forall_mem_cons.mpr ⟨hs, hall⟩)
      · exact .inr ⟨s :: pre, slot, post, rfl, hkind, List.forall_mem_cons.mpr ⟨hs, hpre⟩, hslot⟩
    · obtain ⟨hkind, hslot⟩ := Classical.not_imp.mp hs
      exact .inr ⟨[], s, slots, rfl, hkind, by simp, hslot⟩

theorem Opens.not_refused {k : Bytes} {slot : String × Keyslot}
    (h : Opens c cap m partition_offset md password k slot) :
    ¬ Refused c cap m partition_offset md password slot.2 := by
  rintro ⟨k', hholds, hrefuses⟩
  have hsame : some k = some k' := (candidate_iff.mpr h.holds).symm.trans (candidate_iff.mpr hholds)
  cases hsame
  obtain ⟨digest, hmem, -, -, htakes⟩ := h.bound
  have htrue : verify_digest c digest.2 k = .ok true := verify_digest_ok_iff.mpr htakes
  have hfalse : verify_digest c digest.2 k = .ok false := verify_digest_ok_iff.mpr (hrefuses digest hmem)
  cases htrue.symm.trans hfalse

theorem right_iff_firstKey :
    Right c cap m partition_offset md password ↔
      (∀ k, firstKey c cap m partition_offset md password md.keyslots = some k →
        ∃ good, Opens c cap m partition_offset md password k good) ∧
      ((∃ k good, Opens c cap m partition_offset md password k good) →
        ∃ k, firstKey c cap m partition_offset md password md.keyslots = some k) := by
  have hyields := @unlock_yields c cap m partition_offset md password
  constructor
  · intro h
    obtain ⟨hsound, hfinds⟩ := h ⟨m, [], false⟩ rfl
    constructor
    · intro k hk
      rw [hk] at hyields
      obtain ⟨io', hrun⟩ := hyields.run ⟨m, [], false⟩ rfl
      exact hsound k io' hrun
    · intro hex
      obtain ⟨k, io', hrun⟩ := hfinds hex
      obtain ⟨io₁, -, ⟨a, ha, -⟩ | ⟨-, e, herr⟩⟩ := hyields ⟨m, [], false⟩ rfl
      · exact ⟨a, ha⟩
      · rw [hrun] at herr
        cases herr
  · rintro ⟨hsound, hfinds⟩ io hio
    constructor
    · intro k io' hrun
      obtain ⟨io₁, -, ⟨a, ha, hrun'⟩ | ⟨-, e, herr⟩⟩ := hyields io hio
      · rw [hrun] at hrun'
        cases hrun'
        exact hsound k ha
      · rw [hrun] at herr
        cases herr
    · intro hex
      obtain ⟨k, hk⟩ := hfinds hex
      rw [hk] at hyields
      obtain ⟨io', hrun⟩ := hyields.run io hio
      exact ⟨k, io', hrun⟩

theorem orderly_of_right (h : Right c cap m partition_offset md password) :
    Orderly c cap m partition_offset md password := by
  obtain ⟨hsound, hfinds⟩ := right_iff_firstKey.mp h
  intro pre slot post hslots hkind hpre hslot
  rw [hslots, firstKey_at post hpre hkind hslot] at hsound hfinds
  constructor
  · intro k htaken
    apply hsound
    rw [attempt_taken_iff.mpr htaken]
    rfl
  · intro hnone k good hopens
    obtain ⟨k', hk'⟩ := hfinds ⟨k, good, hopens⟩
    exact hnone k' (attempt_taken_iff.mp (Option.join_eq_some_iff.mp hk'))

theorem right_of_orderly (h : Orderly c cap m partition_offset md password) :
    Right c cap m partition_offset md password := by
  rw [right_iff_firstKey]
  rcases @first_or_refused c cap m partition_offset md password md.keyslots
    with hall | ⟨pre, slot, post, hslots, hkind, hpre, hslot⟩
  · rw [firstKey_refused md.keyslots hall]
    refine ⟨fun k hk => (nomatch hk), ?_⟩
    rintro ⟨k, good, hopens⟩
    exact absurd (hall good hopens.listed hopens.luks2) hopens.not_refused
  · obtain ⟨htaken, hnone⟩ := h pre slot post hslots hkind hpre hslot
    rw [hslots, firstKey_at post hpre hkind hslot]
    constructor
    · intro k hk
      exact htaken k (attempt_taken_iff.mp (Option.join_eq_some_iff.mp hk))
    · rintro ⟨k, good, hopens⟩
      by_contra hlocked
      refine hnone ?_ k good hopens
      intro k' htaken'
      exact hlocked ⟨k', Option.join_eq_some_iff.mpr (attempt_taken_iff.mpr htaken')⟩

/-- The first slot that cannot be worked with, or whose key a digest takes, decides, whatever that digest is for. -/
theorem unlock_right_iff (c : Crypto) (cap : Nat) (m : Nat → UInt8) (partition_offset : Nat) (md : Metadata)
    (password : Bytes) :
    Right c cap m partition_offset md password ↔ Orderly c cap m partition_offset md password :=
  ⟨orderly_of_right, right_of_orderly⟩

end

/-! ## Two slots -/

/-- PBKDF2 of `pw` with one round. -/
def unwrapping : Bytes := Bytes.le 32 0xcd59aa7228a9b4fbde3594579209bc19375ae8eb27fb94d5741a639f2201cc33

def masterKey : Bytes := (List.range 32).map UInt8.ofNat

/-- PBKDF2 of the master key with one round. -/
def keyDigest : Bytes := Bytes.le 32 0x460dd653a758c181719b5940c37a8b4251a841103c7fb1e914c1d592a1b532d2

def stripe : Bytes := List.replicate 32 0xC3

/-- SHA-256 of the stripe behind its index. -/
def diffused : Bytes := Bytes.le 32 0x0e727ab453f37cac8144c6c88945bd208f3d78f8d3a7fb52b87e730f1884ef32

/-- The master key in two stripes. -/
def openArea : Bytes := stripe ++ xor diffused masterKey ++ List.replicate 448 0

/-- Words of 32 bytes, as one number. -/
def ofWords (words : List Nat) : Nat := words.foldr (fun v n => v + 2 ^ 256 * n) 0

/-- The area under AES-XTS. -/
def sealedNumber : Nat := ofWords
  [0x5052c75d7b765fdd3f5b85a1274c83601bf6b4e4b8e93a280206edcddd7303ab,
    0xbe6a6b02188c17bacf89aeb07e92853c915d843c5e0e1031dd893f4fbab1c8f1,
    0xb3d834ee4988bebc9b4c68264b8d91e5d78a7486d52b32e4d9b5bfe71b310742,
    0x023a5f5cf579d9fcc3c386ec057a28bac59a73b834e2418ddbcab4dd63d22c22,
    0xe5ee3bf7daca4d6a13570ae72ab0e6db0fc88b76949c14222a7d58132661142c,
    0x95a595ea3d36f205cae10da8894ac7e096e8420ffe73b93f6d312f698abcb031,
    0x2172f5a6325e1c11dd676c5727cd395ac4eeccc2bdea813f9aaaf52a72a0d7f8,
    0x38ea6b34b4b76c545846f657b77ec392c3ba161d5f44b74d8889f61646935a81,
    0x3dffba6e6c25e8c206d103d868e2a0b1e9c535f528dc4e38cec5a329153498e2,
    0x8c8807da210c4b9c477ea3a8a98bb1a2e32719832ed1dd9ae01d7a98adc47eaa,
    0xfceb1119c28a1aa9138b1b8d2b94d7b7d468c42cb57671f27eda6e84a9fe848f,
    0x033d12bc16ae8a07d680da0e181632ed0cc7732607ea8cdfe077333c05d2488c,
    0x4e787003818972a763ad768ab400f179419f0790c761a2b1476e6c80475eabf5,
    0x03c0d329b3e41e803fec8b548084d906883bdd8ab3502d2751ab037e71514194,
    0x18eb25b5f778b9cfef9f783934d9a31d976c763112876a6896d71309f964ccf7,
    0x361d5936f06c02c5f92a3006f11f96cb512cc37626ad7e59c1d42438adc5b3f1]

def sealedArea : Bytes := Bytes.le 512 sealedNumber

/-- PBKDF2 of `pw` with another salt. -/
def otherUnwrapping : Bytes := Bytes.le 32 0x28515b6bfd794063c7973e564fe0449421796ec095c007fc7a3dceb98ef440c1

def blankArea : Bytes := List.replicate 512 0

/-- What AES-XTS makes of zeros under that key. -/
def strangeArea : Bytes := Bytes.le 512 (ofWords
  [0x3825be995ccab8c6ee586f647e4f7b330a137ae508fa9e43aef39106c21f8b14,
    0x542bb1968f5272ec219b63661b1d96dde2d6e45d456c90d0ec956d5849524349,
    0xeda84e183b2f3feeec2ca2b5972e6b27c3c38f6a9e03915ff700fe2b38804244,
    0xce6afbc0d560536ddaad9ef2dbadef57eb907e44b93097ae5ba526b58fd008b4,
    0x54ef4743740df7ff336c2a299cfc56ce835ad3288fb50f9b09a413ef378b614f,
    0xd254e29a3d7ad8127049bb7b03e647fdf6744aa45faeeae2d4459eb17a1bf8ad,
    0x62ff572c36a257b1960b9df58ac915ff99c762ebc0131db91556475dee780639,
    0xc05489728f9fd2bb120a89aebfe92f878bf7c353baa8dba03a2f168aed5e69ed,
    0x281e181aa276372da63c7e21a3688ea9997b80e02e811c3a76ad49b307080706,
    0xfb8441a3b868f0bd059fc21fee1bcf031bb9f376a08b63da29abafd483deb064,
    0x98aa14bb79c3d27e69f552583fd9cb7ff53e15bc4bffaa9b14516d0357ad3d5c,
    0x43d9ef40091138aee34274a5450c2fc684a33edcf990d72ba11899252a774e9d,
    0xb92211b093c775d6742505e50ebc73088645ae8385ccc714e5d8db79e7ddc89f,
    0x072343a91787a2675120840b37f5d4de2f060c65b16f31c55ce81cb4e1c2e35b,
    0xfb06d8753a2983528fee9d70da4a55643b110ebd23cd7bff6b106b9115bef104,
    0x19ef14e85619e8b92ecb42f84838a35271ce24b3586360e1ad7dd3ea5f2ec690])

/-- SHA-256 of its first stripe behind the index. -/
def strangeDiffused : Bytes := Bytes.le 32 0xb58494ef36b14fd34f08ca7c9b77c8b2b2b2983435f0ccc2704b988dedcfac33

def strangeKey : Bytes := xor strangeDiffused (strangeArea.slice 32 32)

/-- PBKDF2 of the strange key with one round. -/
def strangeDigest : Bytes := Bytes.le 32 0xb875a7de91fe43e3e403f0b651040ebf0b21828fbfbbcb59eca4f5ce099d20cf

def swap (a b x : Bytes) : Bytes := if x = a then b else if x = b then a else x

theorem length_swap {a b : Bytes} (h : a.length = b.length) (x : Bytes) : (swap a b x).length = x.length := by
  unfold swap
  split
  · rename_i hx
    rw [hx, h]
  · split
    · rename_i hx
      rw [hx, h]
    · rfl

/-- The cipher on these areas. -/
def swapped (key : Bytes) (tweak : Nat) (b : Bytes) : Bytes :=
  if tweak ≠ 0 then b
  else if key = unwrapping then swap sealedArea openArea b
  else if key = otherUnwrapping then swap blankArea strangeArea b
  else b

theorem length_swapped (key : Bytes) (tweak : Nat) (b : Bytes) : (swapped key tweak b).length = b.length := by
  have hopen : sealedArea.length = openArea.length := by decide +kernel
  have hstrange : blankArea.length = strangeArea.length := by decide +kernel
  unfold swapped
  split_ifs
  · rfl
  · exact length_swap hopen b
  · exact length_swap hstrange b
  · rfl

/-- PBKDF2 with one round on the passwords and salts that are asked for. -/
def derivations : List ((Bytes × Bytes) × Bytes) :=
  [(([0x70, 0x77], [1, 2, 3, 4]), unwrapping), (([0x70, 0x77], [9, 9, 9, 9]), otherUnwrapping),
    ((masterKey, [5, 6, 7, 8]), keyDigest), ((strangeKey, [5, 6, 7, 8]), strangeDigest)]

/-- The crates on the inputs that the slots ask for. -/
def recorded : Crypto where
  argon2 _ _ _ _ := .error "not recorded"
  pbkdf2 h password salt rounds out_len :=
    if h = .sha256 ∧ rounds = 1 ∧ out_len = 32 then
      ((derivations.lookup (password, salt)).elim (.error "not recorded") .ok)
    else .error "not recorded"
  hash h b :=
    if h = .sha256 ∧ b = [0, 0, 0, 0] ++ stripe then Bytes.le h.digest_size (Bytes.unle diffused)
    else if h = .sha256 ∧ b = [0, 0, 0, 0] ++ strangeArea.take 32 then
      Bytes.le h.digest_size (Bytes.unle strangeDiffused)
    else List.replicate h.digest_size 0
  cipher := ⟨swapped, swapped, length_swapped, length_swapped⟩
  length_hash h b := by
    split_ifs
    · exact Bytes.length_le _ _
    · exact Bytes.length_le _ _
    · exact List.length_replicate

def areaStore (i : Nat) : UInt8 := UInt8.ofNat (sealedNumber / 256 ^ i)

def slotWith (hash : String) : Keyslot where
  kind := "luks2"
  key_size := 32
  kdf := .Pbkdf2 [1, 2, 3, 4] hash 1
  area := ⟨"raw", 0, 512, "aes-xts-plain64", 32⟩
  af := some ⟨"luks1", 2, "sha256"⟩
  priority := none

def metadataWith (keyslots : List (String × Keyslot)) : Metadata where
  keyslots
  segments := [("0", ⟨512, .Dynamic, 0, "aes-xts-plain64", 512, []⟩)]
  digests := [("0", ⟨"pbkdf2", ["1"], ["0"], "sha256", 1, [5, 6, 7, 8], keyDigest⟩)]

/-- The slot behind one with a hash that the code does not know would open. -/
theorem odd_slot_locks_out :
    ¬ Right recorded 512 areaStore 0 (metadataWith [("0", slotWith "whirlpool"), ("1", slotWith "sha256")])
      [0x70, 0x77] := by
  intro hright
  obtain ⟨-, hfinds⟩ := hright ⟨areaStore, [], false⟩ rfl
  have hyields := @unlock_yields recorded 512 areaStore 0
    (metadataWith [("0", slotWith "whirlpool"), ("1", slotWith "sha256")]) [0x70, 0x77]
  have hnone : firstKey recorded 512 areaStore 0
      (metadataWith [("0", slotWith "whirlpool"), ("1", slotWith "sha256")]) [0x70, 0x77]
      [("0", slotWith "whirlpool"), ("1", slotWith "sha256")] = none := by decide
  rw [show (metadataWith [("0", slotWith "whirlpool"), ("1", slotWith "sha256")]).keyslots =
    [("0", slotWith "whirlpool"), ("1", slotWith "sha256")] from rfl, hnone] at hyields
  have hverify : verify_digest recorded ⟨"pbkdf2", ["1"], ["0"], "sha256", 1, [5, 6, 7, 8], keyDigest⟩ masterKey =
      .ok true := by decide
  obtain ⟨k, io', hrun⟩ := hfinds ⟨masterKey, ("1", slotWith "sha256"), by simp [metadataWith], rfl,
    candidate_iff.mp (by decide +kernel), _, List.mem_singleton_self _, by simp, ⟨_, rfl, by simp⟩,
    verify_digest_ok_iff.mp hverify⟩
  obtain ⟨io₁, -, ⟨a, ha, -⟩ | ⟨-, e, herr⟩⟩ := hyields ⟨areaStore, [], false⟩ rfl
  · cases ha
  · rw [hrun] at herr
    cases herr

end LuksAndroid.Luks
