import LuksAndroid.Lib.Bytes

/-!
# UTF-8

Texts as bytes: which ones are well formed, and what a lossy decoder makes of the others.
-/

namespace LuksAndroid.Utf8

/-- A byte that continues a character. -/
def Cont (b : UInt8) : Prop := 0x80 ≤ b.toNat ∧ b.toNat < 0xC0

instance (b : UInt8) : Decidable (Cont b) := inferInstanceAs (Decidable (_ ∧ _))

theorem not_cont_of_le {b : UInt8} (h : 0xC0 ≤ b.toNat) : ¬ Cont b := by
  unfold Cont
  omega

/-- How long the first piece of a text is, and whether that is a whole character. Where it is not, it
is as much of one as there is. -/
def first_piece : Bytes → Nat × Bool
  | [] => (0, true)
  | a :: rest =>
    let b := rest.getD 0 0
    let c := rest.getD 1 0
    let d := rest.getD 2 0
    let lead := a.toNat
    if lead < 0x80 then (1, true)
    else if 0xC2 ≤ lead ∧ lead < 0xE0 then if Cont b then (2, true) else (1, false)
    else if 0xE0 ≤ lead ∧ lead < 0xF0 then
      if Cont b ∧ (lead = 0xE0 → 0xA0 ≤ b.toNat) ∧ (lead = 0xED → b.toNat < 0xA0) then
        if Cont c then (3, true) else (2, false)
      else (1, false)
    else if 0xF0 ≤ lead ∧ lead < 0xF5 then
      if Cont b ∧ (lead = 0xF0 → 0x90 ≤ b.toNat) ∧ (lead = 0xF4 → b.toNat < 0x90) then
        if Cont c then if Cont d then (4, true) else (3, false) else (2, false)
      else (1, false)
    else (1, false)

/-- The pieces of a text, as far as `fuel` of them. -/
def pieces : Nat → Bytes → List (Bytes × Bool)
  | 0, _ => []
  | _, [] => []
  | fuel + 1, b => (b.take (first_piece b).1, (first_piece b).2) :: pieces fuel (b.drop (first_piece b).1)

theorem pieces_cons (fuel : Nat) (a : UInt8) (rest : Bytes) :
    pieces (fuel + 1) (a :: rest) = ((a :: rest).take (first_piece (a :: rest)).1, (first_piece (a :: rest)).2) ::
      pieces fuel ((a :: rest).drop (first_piece (a :: rest)).1) := rfl

/-- `std::str::from_utf8` takes the text. -/
def valid (b : Bytes) : Bool := (pieces b.length b).all Prod.snd

/-- `String::from_utf8_lossy`: every piece that is no character becomes a replacement character. -/
def lossy (b : Bytes) : Bytes :=
  (pieces b.length b).flatMap fun p => if p.2 then p.1 else [0xEF, 0xBF, 0xBD]

/-- A text for a message: empty where the bytes are none. -/
def text (b : Bytes) : String := (String.fromUTF8? ⟨b.toArray⟩).getD ""

theorem first_piece_whole {a : UInt8} {rest : Bytes} (h : (first_piece (a :: rest)).2 = true) :
    (first_piece (a :: rest)).1 = 1 ∧ a.toNat < 0x80 ∨
      0x80 ≤ a.toNat ∧ ¬ Cont a ∧ 2 ≤ (first_piece (a :: rest)).1 ∧
        ∀ i, i + 1 < (first_piece (a :: rest)).1 → Cont (rest.getD i 0) := by
  unfold first_piece at h ⊢
  simp only at h ⊢
  split at h
  · rename_i hlt
    rw [if_pos hlt]
    exact .inl ⟨rfl, hlt⟩
  · rename_i hlt
    refine .inr ⟨by omega, ?_⟩
    rw [if_neg hlt]
    split at h
    · rename_i htwo
      rw [if_pos htwo]
      split at h
      · rename_i hb
        refine ⟨not_cont_of_le (by omega), by simp only [if_pos hb, le_refl], ?_⟩
        intro i hi
        simp only [if_pos hb] at hi
        obtain rfl : i = 0 := by omega
        exact hb
      · cases h
    · rename_i htwo
      rw [if_neg htwo]
      split at h
      · rename_i hthree
        rw [if_pos hthree]
        split at h
        · rename_i hb
          rw [if_pos hb]
          split at h
          · rename_i hc
            refine ⟨not_cont_of_le (by omega), by simp only [if_pos hc, Nat.reduceLeDiff], ?_⟩
            intro i hi
            simp only [if_pos hc] at hi
            obtain rfl | rfl : i = 0 ∨ i = 1 := by omega
            · exact hb.1
            · exact hc
          · cases h
        · cases h
      · rename_i hthree
        rw [if_neg hthree]
        split at h
        · rename_i hfour
          rw [if_pos hfour]
          split at h
          · rename_i hb
            rw [if_pos hb]
            split at h
            · rename_i hc
              rw [if_pos hc]
              split at h
              · rename_i hd
                refine ⟨not_cont_of_le (by omega), by simp only [if_pos hd, Nat.reduceLeDiff], ?_⟩
                intro i hi
                simp only [if_pos hd] at hi
                obtain rfl | rfl | rfl : i = 0 ∨ i = 1 ∨ i = 2 := by omega
                · exact hb.1
                · exact hc
                · exact hd
              · cases h
            · cases h
          · cases h
        · cases h

theorem not_cont_of_ascii {b : Bytes} (h : valid b = true) {i : Nat} (hi : i + 1 < b.length)
    (hascii : (b.getD i 0).toNat < 0x80) : ¬ Cont (b.getD (i + 1) 0) := by
  unfold valid at h
  generalize hfuel : b.length = fuel at h
  replace hfuel := hfuel.le
  induction fuel generalizing b i with
  | zero => omega
  | succ fuel ih =>
    cases b with
    | nil => simp at hi
    | cons a rest =>
      rw [pieces_cons, List.all_cons, Bool.and_eq_true] at h
      obtain ⟨hwhole, hrest⟩ := h
      intro hcont
      rw [List.length_cons] at hi hfuel
      rcases first_piece_whole hwhole with ⟨hone, -⟩ | ⟨hlead, -, htwo, hconts⟩
      · -- The character is one byte long, and the next one starts behind it.
        rw [hone, List.drop_succ_cons, List.drop_zero] at hrest
        cases i with
        | zero =>
          cases rest with
          | nil => simp at hi
          | cons x rest =>
            cases fuel with
            | zero => simp at hfuel
            | succ fuel =>
              rw [pieces_cons, List.all_cons, Bool.and_eq_true] at hrest
              have hx : Cont x := hcont
              rcases first_piece_whole hrest.1 with ⟨-, hlt⟩ | ⟨-, hnot, -⟩
              · unfold Cont at hx
                omega
              · exact hnot hx
        | succ i => exact @ih rest i (by omega) hascii hrest (by omega) hcont
      · cases i with
        | zero =>
          rw [List.getD_cons_zero] at hascii
          omega
        | succ i =>
          rw [List.getD_cons_succ] at hascii hcont
          by_cases hin : i + 1 < (first_piece (a :: rest)).1
          · have := hconts i hin
            unfold Cont at this
            omega
          · have hk : (first_piece (a :: rest)).1 ≤ i + 1 := by omega
            obtain ⟨k, hk'⟩ : ∃ k, (first_piece (a :: rest)).1 = k + 1 := ⟨(first_piece (a :: rest)).1 - 1, by omega⟩
            rw [hk', List.drop_succ_cons] at hrest
            have hget : ∀ j, (rest.drop k).getD j 0 = rest.getD (k + j) 0 := by
              intro j
              rw [List.getD_eq_getElem?_getD, List.getD_eq_getElem?_getD, List.getElem?_drop]
            refine @ih (rest.drop k) (i - k) ?_ ?_ hrest ?_ ?_
            · rw [List.length_drop]
              omega
            · rw [hget, show k + (i - k) = i by omega]
              exact hascii
            · rw [List.length_drop]
              omega
            · rw [hget, show k + (i - k + 1) = i + 1 by omega]
              exact hcont

end LuksAndroid.Utf8
