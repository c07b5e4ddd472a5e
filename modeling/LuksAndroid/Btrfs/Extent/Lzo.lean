import LuksAndroid.Btrfs.Extent.Code

/-!
# The LZO framing, undone

`lzo_extent` once more with each index checked, and the layout it reads: a total, then segments
whose headers never straddle a sector. The decoder is a parameter, a function of one segment that
fills at most the buffer it is given.
-/

namespace LuksAndroid.Btrfs

open Word

/-! ## Every index checked -/

/-- How a call ends. -/
inductive Ending where
  | returns (r : Except LuksError Bytes)
  | out_of_range
  | unfinished
deriving DecidableEq

/-- `&b[start..stop]`. -/
def subslice (b : Bytes) (start stop : Nat) : Option Bytes :=
  if start ≤ stop ∧ stop ≤ b.length then some (b.slice start (stop - start)) else none

section

variable (codecs : Codecs) (input : Bytes) (expected sector total : Nat)

/-- The loop of `lzo_extent` with the sums of a 64-bit `usize`. -/
def lzo_loop : Nat → Nat → Bytes → Ending
  | 0, _, _ => .unfinished
  | fuel + 1, pos, out =>
    if pos < total ∧ out.length < expected then
      let room := sector - pos % sector
      if room < LZO_LEN then lzo_loop fuel (wrapping_add pos room) out
      else if wrapping_add pos LZO_LEN > total then .returns (.ok out)
      else
        match subslice input pos (pos + 4) with
        | none => .out_of_range
        | some header =>
          let seg_len := Bytes.unle header
          let pos := wrapping_add pos LZO_LEN
          if seg_len = 0 ∨ wrapping_add pos seg_len > input.length then
            .returns (.error (.CorruptFs "btrfs lzo segment overruns the extent"))
          else
            match subslice input pos (wrapping_add pos seg_len) with
            | none => .out_of_range
            | some segment =>
              match codecs.lzo segment sector with
              | none => .returns (.error (.CorruptFs "btrfs lzo segment failed to decompress"))
              | some chunk =>
                -- `chunk[..produced]`, of a buffer of one sector.
                if chunk.length > sector then .out_of_range
                else lzo_loop fuel (wrapping_add pos seg_len) (out ++ chunk)
    else .returns (.ok out)

def lzo_call (fuel : Nat) : Ending :=
  if sector = 0 then .returns (.error (.CorruptFs "btrfs sector size is zero"))
  else if input.length < LZO_LEN then .returns (.error (.CorruptFs "btrfs lzo extent is truncated"))
  else
    match subslice input 0 4 with
    | none => .out_of_range
    | some header =>
      let total := Bytes.unle header
      if total > input.length then
        .returns (.error (.CorruptFs "btrfs lzo extent claims more data than it has"))
      else
        match lzo_loop codecs input expected sector total fuel LZO_LEN [] with
        | .returns r => .returns (r.map (List.take expected))
        | e => e

/-- The decoder fills no more than its buffer. -/
def Codecs.LzoFills : Prop := ∀ s n chunk, codecs.lzo s n = some chunk → chunk.length ≤ n

variable {codecs input expected sector total}

theorem subslice_of_le {b : Bytes} {start n : Nat} (h : start + n ≤ b.length) :
    subslice b start (start + n) = some (b.slice start n) := by
  unfold subslice
  rw [if_pos ⟨by omega, h⟩, Nat.add_sub_cancel_left]

/-- A round of the loop moves on, so as many rounds as there are bytes left are enough. -/
theorem lzo_loop_eq (hfills : codecs.LzoFills) (hlen : input.length < 2 ^ 63)
    (htotal : total ≤ input.length) (hsector : 0 < sector) (fuel rounds pos : Nat) (out : Bytes)
    (hfuel : total - pos < fuel) (hrounds : total - pos ≤ rounds) :
    lzo_loop codecs input expected sector total fuel pos out =
      .returns (lzo_segments codecs input expected sector total rounds pos out) := by
  induction fuel generalizing rounds pos out with
  | zero => omega
  | succ fuel ih =>
    have hroom : 0 < sector - pos % sector := by
      have := Nat.mod_lt pos hsector
      omega
    have hwrap : ∀ n, pos ≤ input.length → n ≤ 2 ^ 33 → wrapping_add pos n = pos + n := by
      intro n hp hn
      apply wrapping_add_of_lt
      unfold size
      omega
    unfold lzo_loop
    by_cases hgo : pos < total ∧ out.length < expected
    · obtain ⟨rounds, rfl⟩ : ∃ k, rounds = k + 1 := ⟨rounds - 1, by omega⟩
      have hpos : pos ≤ input.length := by omega
      rw [lzo_segments, if_pos hgo, if_pos hgo]
      simp only
      split
      · rename_i hpad
        rw [hwrap _ hpos (by unfold LZO_LEN at hpad; omega)]
        exact ih _ _ _ (by omega) (by omega)
      · rw [hwrap LZO_LEN hpos (by decide)]
        split
        · rfl
        · rename_i hin
          unfold LZO_LEN at hin ⊢
          rw [subslice_of_le (n := 4) (by omega)]
          have hfour : Bytes.unle (input.slice pos 4) = input.get pos 4 := rfl
          have hlt : input.get pos 4 < 2 ^ 32 := Bytes.get_lt input pos 4
          simp only [hfour]
          rw [wrapping_add_of_lt (a := pos + 4) (by unfold size; omega)]
          split
          · rfl
          · rename_i hseg
            rw [subslice_of_le (by omega)]
            simp only
            rcases hdec : codecs.lzo (input.slice (pos + 4) (input.get pos 4)) sector with _ | chunk
            · rfl
            · have hchunk := hfills _ _ _ hdec
              simp only
              rw [if_neg (by omega)]
              exact ih _ _ _ (by omega) (by omega)
    · rw [if_neg hgo]
      cases rounds with
      | zero => rfl
      | succ rounds => rw [lzo_segments, if_neg hgo]

/-- No call runs for ever or reads outside its input, and what it returns is `lzo_extent`'s. -/
theorem lzo_call_eq (hfills : codecs.LzoFills) (hlen : input.length < 2 ^ 63) (fuel : Nat)
    (hfuel : input.length < fuel) :
    lzo_call codecs input expected sector fuel = .returns (lzo_extent codecs input expected sector) := by
  unfold lzo_call lzo_extent
  split
  · rfl
  · rename_i hsector
    split
    · rfl
    · rename_i hshort
      unfold LZO_LEN at hshort
      have hfour : Bytes.unle (input.slice 0 4) = input.get 0 4 := rfl
      rw [show (4 : Nat) = 0 + 4 from rfl, subslice_of_le (by omega)]
      simp only [hfour, Nat.zero_add]
      split
      · rfl
      · rw [lzo_loop_eq hfills hlen (by omega) (by omega) fuel (input.get 0 4) LZO_LEN []
          (by omega) (by omega)]
        simp only
        rcases lzo_segments codecs input expected sector (input.get 0 4) (input.get 0 4) LZO_LEN []
          with e | out <;> rfl

end

/-! ## The layout -/

/-- The segments laid out from `pos` on: padding wherever no header fits in the sector, which may
also close the stream. What the padding holds is left open. -/
inductive Framed (sector : Nat) : Nat → List Bytes → Bytes → Prop where
  | done (pos : Nat) : Framed sector pos [] []
  | closed (pos : Nat) (pad : Bytes) (hroom : sector - pos % sector < LZO_LEN)
      (hpad : pad.length = sector - pos % sector) : Framed sector pos [] pad
  | padded (pos : Nat) (pad : Bytes) (s : Bytes) (rest : List Bytes) (b : Bytes)
      (hroom : sector - pos % sector < LZO_LEN) (hpad : pad.length = sector - pos % sector)
      (hrest : Framed sector (pos + pad.length) (s :: rest) b) :
      Framed sector pos (s :: rest) (pad ++ b)
  | segment (pos : Nat) (s : Bytes) (rest : List Bytes) (b : Bytes)
      (hroom : LZO_LEN ≤ sector - pos % sector) (hs : s ≠ [])
      (hrest : Framed sector (pos + LZO_LEN + s.length) rest b) :
      Framed sector pos (s :: rest) (Bytes.le 4 s.length ++ s ++ b)

/-- A whole extent: the total counts its own header, and anything may follow it. -/
structure FramedExtent (sector : Nat) (segments : List Bytes) (input : Bytes) : Prop where
  split : ∃ body rest, input = Bytes.le 4 (LZO_LEN + body.length) ++ body ++ rest ∧
    LZO_LEN + body.length < 2 ^ 32 ∧ Framed sector LZO_LEN segments body

/-- The decoder's output, segment by segment. -/
def Expands (codecs : Codecs) (sector : Nat) (segments chunks : List Bytes) : Prop :=
  List.Forall₂ (fun s chunk => codecs.lzo s sector = some chunk ∧ chunk.length ≤ sector) segments chunks

/-- The writer: zeros for padding, none at the end. -/
def frame (sector : Nat) : Nat → List Bytes → Bytes
  | _, [] => []
  | pos, s :: rest =>
    let room := sector - pos % sector
    let pad := if room < LZO_LEN then room else 0
    List.replicate pad 0 ++ (Bytes.le 4 s.length ++ s ++ frame sector (pos + pad + LZO_LEN + s.length) rest)

theorem framed_frame {sector : Nat} (hsector : 4 ≤ sector) (segments : List Bytes)
    (hs : ∀ s ∈ segments, s ≠ []) (pos : Nat) : Framed sector pos segments (frame sector pos segments) := by
  induction segments generalizing pos with
  | nil => exact .done pos
  | cons s rest ih =>
    have hne := hs s (by simp)
    have hrest := ih fun t ht => hs t (by simp [ht])
    unfold frame
    by_cases hroom : sector - pos % sector < LZO_LEN
    · have hmod : (pos + (sector - pos % sector)) % sector = 0 := by
        have hlt := Nat.mod_lt pos (show 0 < sector by omega)
        have hdiv := Nat.div_add_mod pos sector
        rw [show pos + (sector - pos % sector) = sector * (pos / sector + 1) by
          rw [Nat.mul_add]; omega]
        exact Nat.mul_mod_right _ _
      simp only [if_pos hroom]
      refine .padded pos _ s rest _ hroom (by simp) ?_
      rw [List.length_replicate]
      refine .segment _ s rest _ ?_ hne (hrest _)
      rw [hmod]
      unfold LZO_LEN
      omega
    · simp only [if_neg hroom, List.replicate_zero, List.nil_append, Nat.add_zero]
      exact .segment pos s rest _ (by omega) hne (hrest _)

section

variable {codecs : Codecs} {expected sector : Nat}

theorem get_append (before after : Bytes) {field : Bytes} {n : Nat} (h : field.length = n) :
    Bytes.get (before ++ field ++ after) before.length n = Bytes.unle field := by
  unfold Bytes.get Bytes.slice
  rw [List.append_assoc, List.drop_left, List.take_left' h]

/-- From any boundary of the layout on, the loop finds the segments that were laid out. -/
theorem lzo_segments_framed {segments : List Bytes} {b : Bytes} {pos : Nat} (hsector : 4 ≤ sector)
    (h : Framed sector pos segments b) (before rest out : Bytes) (chunks : List Bytes) (rounds : Nat)
    (hbefore : before.length = pos) (hexp : Expands codecs sector segments chunks)
    (hsize : pos + b.length < 2 ^ 32) (hrounds : b.length ≤ rounds) :
    ∃ r, lzo_segments codecs (before ++ b ++ rest) expected sector (pos + b.length) rounds pos out = .ok r ∧
      r.take expected = (out ++ chunks.flatten).take expected := by
  induction h generalizing before out chunks rounds with
  | done pos =>
    cases hexp
    refine ⟨out, ?_, by simp⟩
    cases rounds with
    | zero => rfl
    | succ rounds => simp [lzo_segments]
  | closed pos pad hroom hpad =>
    cases hexp
    have hpos : 0 < pad.length := by
      have := Nat.mod_lt pos (show 0 < sector by omega)
      omega
    obtain ⟨rounds, rfl⟩ : ∃ k, rounds = k + 1 := ⟨rounds - 1, by omega⟩
    refine ⟨out, ?_, by simp⟩
    rw [lzo_segments]
    split
    · simp only
      rw [if_pos hroom, ← hpad]
      cases rounds with
      | zero => rfl
      | succ rounds => simp [lzo_segments]
    · rfl
  | padded pos pad s segs b hroom hpad hrest ih =>
    have hpos : 0 < pad.length := by
      have := Nat.mod_lt pos (show 0 < sector by omega)
      omega
    rw [List.length_append] at hsize hrounds
    obtain ⟨rounds, rfl⟩ : ∃ k, rounds = k + 1 := ⟨rounds - 1, by omega⟩
    rw [lzo_segments]
    split
    · simp only
      rw [if_pos hroom, ← hpad]
      have := ih (before ++ pad) out chunks rounds (by simp [hbefore]) hexp (by omega) (by omega)
      rw [List.length_append, ← Nat.add_assoc, ← List.append_assoc]
      exact this
    · rename_i hfull
      refine ⟨out, rfl, ?_⟩
      rw [List.length_append] at hfull
      rw [List.take_append_of_le_length (by omega)]
  | segment pos s segs b hroom hs hrest ih =>
    rcases hexp with _ | ⟨⟨hdec, -⟩, hexp⟩
    rename_i chunk chunks
    have hlen : 0 < s.length := List.length_pos_iff.mpr hs
    have hall : (Bytes.le 4 s.length ++ s ++ b).length = LZO_LEN + s.length + b.length := by
      simp [LZO_LEN, Nat.add_assoc]
    rw [hall] at hsize hrounds ⊢
    unfold LZO_LEN at hroom hsize hrounds ih ⊢
    obtain ⟨rounds, rfl⟩ : ∃ k, rounds = k + 1 := ⟨rounds - 1, by omega⟩
    have hheader : (before ++ (Bytes.le 4 s.length ++ s ++ b) ++ rest).get pos 4 = s.length := by
      have := get_append before (s ++ b ++ rest) (Bytes.length_le 4 s.length)
      rw [hbefore, Bytes.unle_le_of_lt (by omega)] at this
      simpa only [List.append_assoc] using this
    have hsegment : (before ++ (Bytes.le 4 s.length ++ s ++ b) ++ rest).slice (pos + 4) s.length = s := by
      unfold Bytes.slice
      rw [show before ++ (Bytes.le 4 s.length ++ s ++ b) ++ rest =
        before ++ Bytes.le 4 s.length ++ (s ++ (b ++ rest)) by simp only [List.append_assoc]]
      rw [List.drop_left' (by simp [hbefore]), List.take_left]
    rw [lzo_segments]
    split
    · simp only
      unfold LZO_LEN
      rw [if_neg (by omega), if_neg (by omega), hheader, hsegment, hdec, if_neg]
      · have := ih (before ++ (Bytes.le 4 s.length ++ s)) (out ++ chunk) chunks rounds
          (by simp [hbefore, Nat.add_assoc]) hexp (by omega) (by omega)
        rw [List.flatten_cons, ← List.append_assoc out]
        rw [show before ++ (Bytes.le 4 s.length ++ s ++ b) ++ rest =
          before ++ (Bytes.le 4 s.length ++ s) ++ b ++ rest by simp only [List.append_assoc]]
        rw [show pos + (4 + s.length + b.length) = pos + 4 + s.length + b.length by omega]
        exact this
      · rintro (h | h)
        · omega
        · simp [hbefore] at h
          omega
    · rename_i hfull
      refine ⟨out, rfl, ?_⟩
      rw [List.take_append_of_le_length (by omega)]

theorem decompress_framed {segments chunks : List Bytes} {input : Bytes} (hsector : 4 ≤ sector)
    (hexpected : expected ≤ MAX_UNCOMPRESSED) (hframed : FramedExtent sector segments input)
    (hexp : Expands codecs sector segments chunks) :
    decompress codecs COMPRESS_LZO input expected sector =
      .ok (chunks.flatten.take expected ++ List.replicate (expected - chunks.flatten.length) 0) := by
  obtain ⟨body, rest, rfl, hsize, hbody⟩ := hframed.split
  unfold LZO_LEN at hsize
  have hheader : (Bytes.le 4 (LZO_LEN + body.length) ++ body ++ rest).get 0 4 = LZO_LEN + body.length := by
    have := get_append [] (body ++ rest) (Bytes.length_le 4 (LZO_LEN + body.length))
    rw [Bytes.unle_le_of_lt (by unfold LZO_LEN; omega)] at this
    simpa only [List.append_assoc, List.nil_append, List.length_nil] using this
  have hlen : (Bytes.le 4 (LZO_LEN + body.length) ++ body ++ rest).length = 4 + body.length + rest.length := by
    simp [Nat.add_assoc]
  obtain ⟨r, hr, htake⟩ := @lzo_segments_framed codecs expected sector _ _ _ hsector hbody
    (Bytes.le 4 (LZO_LEN + body.length)) rest [] chunks (LZO_LEN + body.length) (by simp [LZO_LEN]) hexp
    hsize (by unfold LZO_LEN; omega)
  have hextent : lzo_extent codecs (Bytes.le 4 (LZO_LEN + body.length) ++ body ++ rest) expected sector =
      .ok (chunks.flatten.take expected) := by
    unfold lzo_extent
    rw [if_neg (by omega), if_neg (by rw [hlen]; unfold LZO_LEN; omega)]
    simp only [hheader]
    rw [if_neg (by rw [hlen]; unfold LZO_LEN; omega), hr]
    exact congrArg Except.ok htake
  unfold decompress
  rw [if_neg (by omega), if_neg (by decide), if_pos rfl, hextent]
  show Except.ok _ = _
  rw [List.take_take, Nat.min_self, List.length_take]
  congr 3
  omega

/-! ## The whole framing -/

/-- An LZO stream of one run of literals: its length and 17, the literals, the end marker. Nothing
else is expanded. -/
def literal_run : Bytes → Nat → Option Bytes
  | [], _ => none
  | t :: rest, n =>
    let run := rest.take (t.toNat - 17)
    if 21 ≤ t.toNat ∧ run.length ≤ n ∧ rest = run ++ [17, 0, 0] then some run else none

def literal_codecs : Codecs := ⟨fun _ _ => none, fun _ => false, fun _ _ => none, literal_run⟩

theorem literal_codecs_fills : literal_codecs.LzoFills := by
  intro s n chunk h
  cases s with
  | nil => cases h
  | cons t rest =>
    change literal_run (t :: rest) n = some chunk at h
    unfold literal_run at h
    simp only at h
    split at h
    · rename_i hok
      cases h
      exact hok.2.1
    · cases h

/-- An extent laid out the way the writer lays it out comes back as its expanded segments, cut or
filled up to the length asked for, and a call on any input at all comes to an end with every index
in range. -/
theorem lzo_framing_undone (hfills : codecs.LzoFills) :
    (∀ sector expected segments chunks input, 4 ≤ sector → expected ≤ MAX_UNCOMPRESSED →
      FramedExtent sector segments input → Expands codecs sector segments chunks →
      decompress codecs COMPRESS_LZO input expected sector =
        .ok (chunks.flatten.take expected ++ List.replicate (expected - chunks.flatten.length) 0)) ∧
    ∀ (input : Bytes) (expected sector fuel : Nat), input.length < 2 ^ 63 → input.length < fuel →
      lzo_call codecs input expected sector fuel =
        .returns (lzo_extent codecs input expected sector) := by
  refine ⟨?_, ?_⟩
  · intro sector expected segments chunks input hsector hexpected hframed hexp
    exact decompress_framed hsector hexpected hframed hexp
  · intro input expected sector fuel hlen hfuel
    exact lzo_call_eq hfills hlen fuel hfuel

/-- Three segments over sectors of 16 bytes, with padding before the third. -/
theorem lzo_framing_undone_padded :
    let segments : List Bytes := [[21, 1, 2, 3, 4, 17, 0, 0], [22, 5, 6, 7, 8, 9, 17, 0, 0],
      [21, 10, 11, 12, 13, 17, 0, 0]]
    let body := frame 16 LZO_LEN segments
    let input := Bytes.le 4 (LZO_LEN + body.length) ++ body ++ [99]
    decompress literal_codecs COMPRESS_LZO input 16 16 =
      .ok [1, 2, 3, 4, 5, 6, 7, 8, 9, 10, 11, 12, 13, 0, 0, 0] ∧
    lzo_call literal_codecs input 16 16 50 = .returns (lzo_extent literal_codecs input 16 16) := by
  intro segments body input
  have h := lzo_framing_undone literal_codecs_fills
  have hbody : Framed 16 LZO_LEN segments body := framed_frame (by decide) segments (by decide) _
  have hexp : Expands literal_codecs 16 segments [[1, 2, 3, 4], [5, 6, 7, 8, 9], [10, 11, 12, 13]] :=
    .cons ⟨rfl, by decide⟩ (.cons ⟨rfl, by decide⟩ (.cons ⟨rfl, by decide⟩ .nil))
  have hlen : input.length = 45 := by decide
  refine ⟨?_, ?_⟩
  · exact h.1 16 16 segments _ input (by decide) (by decide)
      ⟨body, [99], rfl, by decide, hbody⟩ hexp
  · exact h.2 input 16 16 50 (by rw [hlen]; decide) (by rw [hlen]; decide)

end

end LuksAndroid.Btrfs
