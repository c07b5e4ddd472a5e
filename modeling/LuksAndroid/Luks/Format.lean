import LuksAndroid.Luks.Unlock

/-!
# Slots as they are written

A slot that was written for a password gives the key back, and the whole unlock does so when no slot
errs and the digests know only that key.
-/

namespace LuksAndroid.Luks

open Word

variable {c : Crypto} {cap : Nat} {m : Nat → UInt8} {partition_offset : Nat} {md : Metadata} {password : Bytes}

/-! ## Decryption undoes encryption -/

theorem xts_sectors_undo {enc dec : Nat → Bytes → Bytes} {ss : Nat} (henc : ∀ t b, (enc t b).length = b.length)
    (hinv : ∀ t b, b.length = ss → dec t (enc t b) = b) (step k tweak : Nat) {p : Bytes} (hlen : p.length = k * ss) :
    xts_sectors dec ss step k tweak (xts_sectors enc ss step k tweak p) = p := by
  induction k generalizing tweak p with
  | zero =>
    rw [Nat.zero_mul, List.length_eq_zero_iff] at hlen
    subst hlen
    rfl
  | succ k ih =>
    rw [Nat.succ_mul] at hlen
    have htake : (p.take ss).length = ss := by
      rw [List.length_take]
      omega
    have hdrop : (p.drop ss).length = k * ss := by
      rw [List.length_drop]
      omega
    have hfirst : (enc tweak (p.take ss)).length = ss := (henc _ _).trans htake
    rw [xts_sectors, xts_sectors, List.take_left' hfirst, List.drop_left' hfirst, ih _ hdrop, hinv _ _ htake]
    exact List.take_append_drop ss p

theorem xts_decrypt_encrypt {cipher : SectorCipher} (hcipher : cipher.Inverse KEYSLOT_SECTOR_SIZE)
    {key plain area : Bytes} (h : xts_encrypt cipher key plain KEYSLOT_SECTOR_SIZE 0 1 = .ok area) :
    xts_decrypt cipher key area KEYSLOT_SECTOR_SIZE 0 1 = .ok plain := by
  have hlen := LuksVolume.length_xts (cipher.length_encrypt key) h
  unfold xts_encrypt xts at h
  unfold xts_decrypt xts
  rw [hlen]
  split at h
  · cases h
  · rename_i hwhole
    rw [if_neg hwhole]
    split at h
    · rename_i hkey
      cases h
      rw [if_pos hkey]
      refine congrArg Except.ok (xts_sectors_undo (cipher.length_encrypt key)
        (fun t b hb => hcipher.decrypt_encrypt key t b hb) 1 _ 0 ?_)
      rw [not_or, not_not] at hwhole
      exact (Nat.div_mul_cancel (Nat.dvd_of_mod_eq_zero hwhole.2)).symm
    · cases h

/-! ## A written slot -/

/-- The area holds the stripes of the key, encrypted under what the password derives. -/
structure Written (c : Crypto) (cap : Nat) (m : Nat → UInt8) (partition_offset : Nat) (password key : Bytes)
    (slot : Keyslot) : Prop where
  luks2 : slot.kind = "luks2"
  encryption : slot.area.encryption = "aes-xts-plain64"
  key_size : slot.key_size = key.length
  area : ∃ (af : AntiForensic) (derived : Bytes) (stripes : List Bytes) (split padding : Bytes),
    slot.af = some af ∧ af.stripes = stripes.length + 1 ∧ (∀ s ∈ stripes, s.length = key.length) ∧
    derive_key c slot.kdf password slot.area.key_size = .ok derived ∧
    af_split c af.hash stripes key = .ok split ∧
    (split ++ padding).length = div_ceil (key.length * (stripes.length + 1)) KEYSLOT_SECTOR_SIZE * KEYSLOT_SECTOR_SIZE ∧
    key.length * (stripes.length + 1) ≤ slot.area.size ∧
    partition_offset + slot.area.offset + (split ++ padding).length ≤ cap ∧
    xts_encrypt c.cipher derived (split ++ padding) KEYSLOT_SECTOR_SIZE 0 1 =
      .ok (load m (partition_offset + slot.area.offset) (split ++ padding).length)

theorem Written.candidate {key : Bytes} {slot : Keyslot} (h : Written c cap m partition_offset password key slot)
    (hcipher : c.cipher.Inverse KEYSLOT_SECTOR_SIZE) (hcap : cap < size) (hsize : slot.area.size < size) :
    candidateOf c cap m partition_offset password slot = some key := by
  obtain ⟨af, derived, stripes, split, padding, haf, hstripes, hlen, hderived, hsplit, hread, hfits, hplace, hstored⟩ :=
    h.area
  have hmul : checked_mul key.length (stripes.length + 1) = some (key.length * (stripes.length + 1)) :=
    if_pos (by omega)
  have hmaterial : material_len slot = .ok (af, key.length * (stripes.length + 1)) := by
    unfold material_len
    rw [haf, h.key_size]
    simp only
    rw [hstripes, hmul]
    exact if_neg (by omega)
  have hlength : wrapping_mul (div_ceil (key.length * (stripes.length + 1)) KEYSLOT_SECTOR_SIZE) KEYSLOT_SECTOR_SIZE =
      (split ++ padding).length := by
    rw [hread]
    exact wrapping_mul_of_lt (by omega)
  have hoffset : wrapping_add partition_offset slot.area.offset = partition_offset + slot.area.offset :=
    wrapping_add_of_lt (by omega)
  have hseek : seek cap m (partition_offset + slot.area.offset) (split ++ padding).length =
      some (load m (partition_offset + slot.area.offset) (split ++ padding).length) := if_pos hplace
  have hdecrypt : decrypt_keyslot_area c slot.area.encryption derived
      (load m (partition_offset + slot.area.offset) (split ++ padding).length) = .ok (split ++ padding) := by
    unfold decrypt_keyslot_area
    rw [if_neg (not_not.mpr h.encryption)]
    exact xts_decrypt_encrypt hcipher hstored
  have hmerge := af_merge_split hlen (by omega) hsplit padding
  have hyields : Yields m (derive_candidate c (memory cap true).toReadAt partition_offset slot password)
      (some key) := by
    unfold derive_candidate
    rw [hderived, hmaterial]
    show Yields m _ ((some derived).bind fun _ => (some (af, key.length * (stripes.length + 1))).bind fun _ =>
      (some (load m (partition_offset + slot.area.offset) (split ++ padding).length)).bind fun _ =>
        (some (split ++ padding)).bind fun _ => some key)
    refine (Yields.lift (.ok derived)).bind fun d hd => ?_
    cases hd
    refine (Yields.lift (.ok (af, key.length * (stripes.length + 1)))).bind fun material hm => ?_
    cases hm
    simp only
    rw [hlength, hoffset, ← hseek]
    refine (Yields.read cap _ _).bind fun area harea => ?_
    rw [hseek] at harea
    cases harea
    rw [hdecrypt]
    refine (Yields.lift (.ok (split ++ padding))).bind fun area harea => ?_
    cases harea
    rw [h.key_size, hstripes, hmerge]
    exact .lift (.ok key)
  exact hyields.value_eq

/-! ## The whole header -/

theorem firstKey_of_only {key : Bytes} (slots : List (String × Keyslot))
    (herrs : ∀ slot ∈ slots, slot.2.kind = "luks2" → attempt c cap m partition_offset md password slot.2 ≠ none)
    (honly : ∀ k, verify_digests c k md.digests = .ok true → k = key) {good : String × Keyslot} (hgood : good ∈ slots)
    (hkind : good.2.kind = "luks2")
    (hattempt : attempt c cap m partition_offset md password good.2 = some (some key)) :
    firstKey c cap m partition_offset md password slots = some key := by
  induction slots with
  | nil => cases hgood
  | cons slot slots ih =>
    obtain ⟨name, slot⟩ := slot
    have hrest := fun hmem => ih (fun s hs => herrs s (by simp [hs])) hmem
    unfold firstKey
    split
    · rename_i hne
      rcases List.mem_cons.mp hgood with rfl | hmem
      · exact absurd hkind hne
      · exact hrest hmem
    · rename_i hluks2
      rw [not_not] at hluks2
      rcases hslot : attempt c cap m partition_offset md password slot with _ | _ | k
      · exact absurd hslot (herrs (name, slot) (by simp) hluks2)
      · rw [Option.bind_some, Option.none_or]
        rcases List.mem_cons.mp hgood with rfl | hmem
        · rw [hslot] at hattempt
          cases hattempt
        · exact hrest hmem
      · -- An earlier slot whose candidate is taken holds the same key.
        rw [Option.bind_some, Option.some_or]
        unfold attempt at hslot
        obtain ⟨candidate, -, hverified⟩ := Option.bind_eq_some_iff.mp hslot
        obtain ⟨ok, hok, htaken⟩ := Option.map_eq_some_iff.mp hverified
        cases ok with
        | false => cases htaken
        | true =>
          cases htaken
          rcases hdigests : verify_digests c k md.digests with e | ok
          · rw [hdigests] at hok
            cases hok
          · rw [hdigests] at hok
            cases hok
            rw [honly _ hdigests]

/-- Where no slot errs and the digests take only the master key, every password that a slot was written
for unlocks the volume. -/
theorem written_unlocks {key : Bytes} {good : String × Keyslot} (hcipher : c.cipher.Inverse KEYSLOT_SECTOR_SIZE)
    (hcap : cap < size) (hgood : good ∈ md.keyslots) (hsize : good.2.area.size < size)
    (hwritten : Written c cap m partition_offset password key good.2)
    (htaken : verify_digests c key md.digests = .ok true)
    (honly : ∀ k, verify_digests c k md.digests = .ok true → k = key)
    (herrs : ∀ slot ∈ md.keyslots, slot.2.kind = "luks2" →
      attempt c cap m partition_offset md password slot.2 ≠ none)
    (io : Io (Nat → UInt8)) (hio : io.state = m) :
    ∃ io', unlock c (memory cap true).toReadAt partition_offset md password io = .ok key io' := by
  have hattempt : attempt c cap m partition_offset md password good.2 = some (some key) := by
    unfold attempt
    rw [hwritten.candidate hcipher hcap hsize, Option.bind_some, htaken]
    rfl
  have hyields := @unlock_yields c cap m partition_offset md password
  rw [firstKey_of_only md.keyslots herrs honly hgood hwritten.luks2 hattempt] at hyields
  exact hyields.run io hio

theorem swap_swap {a b : Bytes} (hne : b ≠ a) (x : Bytes) : swap a b (swap a b x) = x := by
  unfold swap
  by_cases ha : x = a
  · rw [if_pos ha, if_neg hne, if_pos rfl, ha]
  · rw [if_neg ha]
    by_cases hb : x = b
    · rw [if_pos hb, if_pos rfl, hb]
    · rw [if_neg hb, if_neg ha, if_neg hb]

theorem swapped_swapped (key : Bytes) (tweak : Nat) (b : Bytes) : swapped key tweak (swapped key tweak b) = b := by
  have hopen : openArea ≠ sealedArea := by decide
  have hstrange : strangeArea ≠ blankArea := by decide
  unfold swapped
  split_ifs
  · rfl
  · exact swap_swap hopen b
  · exact swap_swap hstrange b
  · rfl

-- A slot that was written for another password. Its area is in the second sector, which is blank.
def otherSlot : Keyslot :=
  { slotWith "sha256" with
    kdf := .Pbkdf2 [9, 9, 9, 9] "sha256" 1
    area := ⟨"raw", 512, 512, "aes-xts-plain64", 32⟩ }

def twoSlots : Metadata := metadataWith [("0", otherSlot), ("1", slotWith "sha256")]

theorem recorded_only {k : Bytes} (h : verify_digests recorded k twoSlots.digests = .ok true) : k = masterKey := by
  obtain ⟨pre, digest, post, hdigests, -, -, name, hname, hvalue⟩ := (verify_digests_true _).mp h
  obtain rfl : digest = ("0", ⟨"pbkdf2", ["1"], ["0"], "sha256", 1, [5, 6, 7, 8], keyDigest⟩) := by
    apply List.mem_singleton.mp
    show digest ∈ twoSlots.digests
    rw [hdigests]
    simp
  cases hname
  -- of the recorded values only that of the master key is the digest
  by_contra hother
  have hlookup : derivations.lookup (k, [5, 6, 7, 8]) = if k = strangeKey then some strangeDigest else none := by
    simp [derivations, List.lookup, hother, beq_eq_decide]
    split <;> simp_all
  have hstrange : strangeDigest ≠ keyDigest := by decide
  have hlen : keyDigest.length = 32 := Bytes.length_le _ _
  simp only [recorded, hlookup, hlen, and_self, if_true] at hvalue
  split at hvalue
  · exact hstrange (Except.ok.inj hvalue)
  · cases hvalue

theorem slotWith_written : Written recorded 1024 areaStore 0 [0x70, 0x77] masterKey (slotWith "sha256") where
  luks2 := rfl
  encryption := rfl
  key_size := by decide
  area := ⟨⟨"luks1", 2, "sha256"⟩, unwrapping, [stripe], stripe ++ xor diffused masterKey, List.replicate 448 0, rfl,
    rfl,
    by simp [stripe, masterKey], by decide +kernel, by decide +kernel, by decide +kernel, by decide +kernel,
    by decide +kernel, by decide +kernel⟩

/-- The password opens the second slot. -/
theorem written_unlocks_recorded :
    ∃ io', unlock recorded (memory 1024 true).toReadAt 0 twoSlots [0x70, 0x77] ⟨areaStore, [], false⟩ =
      .ok masterKey io' := by
  have hgood : ("1", slotWith "sha256") ∈ twoSlots.keyslots := by simp [twoSlots, metadataWith]
  refine written_unlocks
    ⟨fun key tweak b _ => swapped_swapped key tweak b, fun key tweak b _ => swapped_swapped key tweak b⟩
    (by decide +kernel) hgood (by decide +kernel)
    slotWith_written (by decide) (fun k hk => recorded_only hk) ?_ _ rfl
  intro slot hslot _
  simp only [twoSlots, metadataWith, List.mem_cons, List.not_mem_nil, or_false] at hslot
  rcases hslot with rfl | rfl
  · decide +kernel
  · decide +kernel

end LuksAndroid.Luks
