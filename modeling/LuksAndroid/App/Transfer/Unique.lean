import LuksAndroid.App.Documents.Names
import Mathlib

/-!
# Names that do not collide

`uniqueName` of `transfer/TransferExecution.kt`, and what a name that it makes has to be: free,
short enough to be stored, and as well formed as the name that was wanted.
-/

namespace LuksAndroid.App.Text

/-! ## Characters -/

def isSurrogate (c : UInt16) : Bool := isHigh c ∨ isLow c

/-- A text cut into its characters: a pair of surrogates is one, any other unit is one of its own. -/
def chars : Text → List Text
  | [] => []
  | [c] => [[c]]
  | c :: d :: rest => if isHigh c ∧ isLow d then [c, d] :: chars rest else [c] :: chars (d :: rest)

def charSize : Text → Nat
  | [c] => if isHigh c ∨ isLow c then 1 else if c < 0x80 then 1 else if c < 0x800 then 2 else 3
  | _ => 4

/-- The surrogates of a text that are in no pair. -/
def unpaired (t : Text) : Text :=
  (chars t).flatMap fun c => if c.length = 1 then c.filter isSurrogate else []

theorem utf8Size_eq (t : Text) : utf8Size t = ((chars t).map charSize).sum := by
  induction t using chars.induct with
  | case1 => rfl
  | case2 c => simp [utf8Size, chars, charSize]
  | case3 c d rest h ih =>
    rw [utf8Size, chars, if_pos h, if_pos h, List.map_cons, List.sum_cons, ih]
    rfl
  | case4 c d rest h ih =>
    rw [utf8Size, chars, if_neg h, if_neg h, List.map_cons, List.sum_cons, ih]
    rfl

theorem chars_append {a b : Text}
    (h : ∀ x y, a.getLast? = some x → b.head? = some y → ¬ (isHigh x ∧ isLow y)) :
    chars (a ++ b) = chars a ++ chars b := by
  induction a using chars.induct with
  | case1 => rfl
  | case2 c =>
    cases b with
    | nil => rfl
    | cons y b =>
      have hcut := h c y rfl rfl
      simp [chars, hcut]
  | case3 c d rest hpair ih =>
    rw [chars, if_pos hpair, List.cons_append, List.cons_append, chars, if_pos hpair, List.cons_append, ih]
    intro x y hx hy
    apply h x y _ hy
    simp [List.getLast?_cons, hx]
  | case4 c d rest hpair ih =>
    rw [chars, if_neg hpair, List.cons_append, List.cons_append, chars, if_neg hpair, List.cons_append,
      ← List.cons_append, ih]
    intro x y hx hy
    apply h x y _ hy
    rw [List.getLast?_cons_cons]
    exact hx

theorem not_isLow_of_isHigh {c : UInt16} (h : isHigh c) : ¬ isLow c := by
  intro hlow
  simp only [isHigh, isLow, decide_eq_true_eq, Bool.decide_and, Bool.and_eq_true] at h hlow
  exact UInt16.not_lt.mpr hlow.1 h.2

theorem chars_high {p : Text} {u : UInt16} (hu : isHigh u) : chars (p ++ [u]) = chars p ++ [[u]] := by
  apply chars_append
  rintro x y - hy ⟨-, hlow⟩
  cases hy
  exact not_isLow_of_isHigh hu hlow

theorem chars_pair {p rest : Text} {u v : UInt16} (hu : isHigh u) (hv : isLow v) :
    chars (p ++ u :: v :: rest) = chars p ++ [u, v] :: chars rest := by
  rw [chars_append, chars, if_pos ⟨hu, hv⟩]
  rintro x y - hy ⟨-, hlow⟩
  cases hy
  exact not_isLow_of_isHigh hu hlow

theorem utf8Size_append {a b : Text}
    (h : ∀ x y, a.getLast? = some x → b.head? = some y → ¬ (isHigh x ∧ isLow y)) :
    utf8Size (a ++ b) = utf8Size a + utf8Size b := by
  rw [utf8Size_eq, utf8Size_eq, utf8Size_eq, chars_append h, List.map_append, List.sum_append]

theorem utf8Size_high {p : Text} {u : UInt16} (hu : isHigh u) : utf8Size (p ++ [u]) = utf8Size p + 1 := by
  rw [utf8Size_eq, utf8Size_eq, chars_high hu]
  simp [charSize, hu]

theorem utf8Size_pair {p rest : Text} {u v : UInt16} (hu : isHigh u) (hv : isLow v) :
    utf8Size (p ++ u :: v :: rest) = utf8Size p + 4 + utf8Size rest := by
  rw [utf8Size_eq, utf8Size_eq, utf8Size_eq, chars_pair hu hv, List.map_append, List.sum_append,
    List.map_cons, List.sum_cons]
  simp only [charSize]
  omega

theorem cut_cases (a b : Text) :
    (∀ x y, a.getLast? = some x → b.head? = some y → ¬ (isHigh x ∧ isLow y)) ∨
    ∃ p u v rest, a = p ++ [u] ∧ b = v :: rest ∧ isHigh u ∧ isLow v := by
  by_cases h : ∀ x y, a.getLast? = some x → b.head? = some y → ¬ (isHigh x ∧ isLow y)
  · exact .inl h
  · right
    simp only [not_forall, not_not] at h
    obtain ⟨x, y, hx, hy, hhigh, hlow⟩ := h
    obtain ⟨p, rfl⟩ := List.getLast?_eq_some_iff.mp hx
    obtain ⟨rest, rfl⟩ := List.head?_eq_some_iff.mp hy
    exact ⟨p, x, y, rest, rfl, rfl, hhigh, hlow⟩

theorem utf8Size_le_append (a b : Text) : utf8Size a ≤ utf8Size (a ++ b) := by
  rcases cut_cases a b with h | ⟨p, u, v, rest, rfl, rfl, hu, hv⟩
  · rw [utf8Size_append h]
    omega
  · rw [List.append_assoc, List.singleton_append, utf8Size_pair hu hv, utf8Size_high hu]
    omega

/-! ## Cutting the stem -/

/-- The cut is the longest leading part of the stem with which the name fits, or nothing is left. -/
theorem fit_spec (tail stem : Text) : ∃ cut rest, stem = cut ++ rest ∧ fit tail stem = cut ++ tail ∧
    (utf8Size (cut ++ tail) ≤ maxBytes ∨ cut = []) ∧
    ∀ c rest', rest = c :: rest' → maxBytes < utf8Size (cut ++ [c] ++ tail) := by
  induction stem using fit.induct tail with
  | case1 stem hlong ih =>
    obtain ⟨cut, rest, hstem, hfit, hsize, hnext⟩ := ih
    rw [fit, if_pos hlong]
    have hlast := List.dropLast_append_getLast hlong.2
    rw [hstem, List.append_assoc] at hlast
    refine ⟨cut, rest ++ [stem.getLast hlong.2], hlast.symm, hfit, hsize, ?_⟩
    intro c rest' hrest
    cases rest with
    | nil =>
      rw [List.nil_append, List.cons.injEq] at hrest
      rw [List.nil_append, hrest.1] at hlast
      rw [hlast]
      exact hlong.1
    | cons r rest =>
      rw [List.cons_append, List.cons.injEq] at hrest
      exact hnext c rest (by rw [hrest.1])
  | case2 stem hfits =>
    rw [fit, if_neg hfits]
    refine ⟨stem, [], by simp, rfl, ?_, by simp⟩
    simp only [not_and, not_not] at hfits
    by_cases hsize : maxBytes < utf8Size (stem ++ tail)
    · exact .inr (hfits hsize)
    · exact .inl (by omega)

/-- The longest part that fits parts a pair exactly where the first half fits and the pair does not. -/
theorem cut_parts_pair {tail stem cut rest p r : Text} {u v : UInt16} (hstem : stem = cut ++ rest)
    (hfits : utf8Size (cut ++ tail) ≤ maxBytes ∨ cut = [])
    (hnext : ∀ c rest', rest = c :: rest' → maxBytes < utf8Size (cut ++ [c] ++ tail))
    (htail : ∀ t, utf8Size (t ++ tail) = utf8Size t + utf8Size tail)
    (hp : stem = p ++ u :: v :: r) (hu : isHigh u) (hv : isLow v)
    (hhalf : utf8Size p + 1 + utf8Size tail ≤ maxBytes) (hpair : maxBytes < utf8Size p + 4 + utf8Size tail) :
    cut = p ++ [u] := by
  have hlow : ¬ (p.length + 2 ≤ cut.length) := by
    intro hle
    have hprefix : p ++ [u, v] <+: cut := by
      apply @List.prefix_of_prefix_length_le _ _ _ stem
      · exact ⟨r, by simp [hp]⟩
      · exact ⟨rest, hstem.symm⟩
      · simpa using hle
    obtain ⟨more, rfl⟩ := hprefix
    rcases hfits with hfits | hfits
    · have := utf8Size_le_append (p ++ [u, v]) more
      rw [utf8Size_pair hu hv] at this
      rw [htail] at hfits
      omega
    · simp at hfits
  have hhigh : ¬ (cut.length < p.length + 1) := by
    intro hlt
    obtain ⟨c, rest', rfl⟩ : ∃ c rest', rest = c :: rest' := by
      cases rest with
      | nil =>
        have := congrArg List.length (hstem.symm.trans hp)
        simp at this
        omega
      | cons c rest' => exact ⟨c, rest', rfl⟩
    have hprefix : cut ++ [c] <+: p ++ [u] := by
      apply @List.prefix_of_prefix_length_le _ _ _ stem
      · exact ⟨rest', by simp [hstem]⟩
      · exact ⟨v :: r, by simp [hp]⟩
      · simp
        omega
    obtain ⟨more, hmore⟩ := hprefix
    have hle := utf8Size_le_append (cut ++ [c]) more
    rw [hmore, utf8Size_high hu] at hle
    have hlong := hnext c rest' rfl
    rw [htail] at hlong
    omega
  have hcut : cut <+: p ++ [u] := by
    apply @List.prefix_of_prefix_length_le _ _ _ stem
    · exact ⟨rest, hstem.symm⟩
    · exact ⟨v :: r, by simp [hp]⟩
    · simp
      omega
  exact hcut.eq_of_length (by simp; omega)

/-! ## A whole name -/

theorem stemExt_append (name : Text) : (stemExt name).1 ++ (stemExt name).2 = name := by
  unfold stemExt
  split
  · split
    · simp
    · simp
  · simp

theorem getElem?_lastIndexOf {c : UInt16} {t : Text} {i : Nat} (h : lastIndexOf c t = some i) : t[i]? = some c := by
  unfold lastIndexOf at h
  obtain ⟨j, hj, rfl⟩ := Option.map_eq_some_iff.mp h
  obtain ⟨hlt, heq, -⟩ := List.idxOf?_eq_some_iff.mp hj
  rw [List.getElem_reverse] at heq
  rw [List.length_reverse] at hlt
  rw [List.getElem?_eq_getElem (by omega), heq]

theorem stemExt_ext {name : Text} {c : UInt16} (h : (stemExt name).2.head? = some c) : c = dot := by
  unfold stemExt at h
  split at h
  · rename_i i hi
    split at h
    · rw [List.head?_drop, getElem?_lastIndexOf hi] at h
      exact (Option.some.inj h).symm
    · simp at h
  · simp at h

/-- Neither a number nor an extension starts in the middle of a character. -/
theorem numbered_tail (name : Text) (n : Nat) (t : Text) (x y : UInt16) (_ : t.getLast? = some x)
    (hy : (suffix n ++ (stemExt name).2).head? = some y) : ¬ (isHigh x ∧ isLow y) := by
  cases hy
  rintro ⟨-, hlow⟩
  revert hlow
  decide

theorem not_isSurrogate_suffix (n : Nat) : ∀ c ∈ suffix n, ¬ isSurrogate c := by
  have hdigits : ∀ c ∈ decimal n, ¬ isSurrogate c := by
    intro c hc
    unfold decimal at hc
    split at hc
    · simp only [List.mem_singleton] at hc
      rw [hc]
      decide
    · obtain ⟨d, hd, rfl⟩ := List.mem_map.mp hc
      have hlt := Nat.digits_lt_base (by omega) (List.mem_reverse.mp hd)
      interval_cases d <;> decide
  intro c hc
  unfold suffix at hc
  simp only [List.mem_append, List.mem_cons, List.not_mem_nil, or_false] at hc
  rcases hc with ((rfl | rfl) | hc) | rfl
  · decide
  · decide
  · exact hdigits c hc
  · decide

theorem unpaired_append {a b : Text}
    (h : ∀ x y, a.getLast? = some x → b.head? = some y → ¬ (isHigh x ∧ isLow y)) :
    unpaired (a ++ b) = unpaired a ++ unpaired b := by
  unfold unpaired
  rw [chars_append h, List.flatMap_append]

theorem unpaired_eq_nil {t : Text} (h : ∀ c ∈ t, ¬ isSurrogate c) : unpaired t = [] := by
  induction t using chars.induct with
  | case1 => rfl
  | case2 c => simpa [unpaired, chars] using h
  | case3 c d rest hpair ih =>
    have hc := h c (by simp)
    simp [isSurrogate, hpair.1] at hc
  | case4 c d rest hpair ih =>
    have hrest := ih fun x hx => h x (List.mem_cons_of_mem c hx)
    unfold unpaired at hrest ⊢
    rw [chars, if_neg hpair, List.flatMap_cons, hrest]
    simpa using h c (by simp)

/-- What is left of the stem, and how the pairs of the name fare in the cut. -/
theorem unpaired_numbered (name : Text) (n : Nat) (cut : Text) :
    unpaired (cut ++ (suffix n ++ (stemExt name).2)) = unpaired cut ++ unpaired (stemExt name).2 := by
  rw [unpaired_append (numbered_tail name n cut), unpaired_append, unpaired_eq_nil (not_isSurrogate_suffix n),
    List.nil_append]
  rintro x y hx - ⟨hhigh, -⟩
  have hmem := List.mem_of_getLast? hx
  exact not_isSurrogate_suffix n x hmem (by simp [isSurrogate, hhigh])

theorem unpaired_name (name : Text) : unpaired name = unpaired (stemExt name).1 ++ unpaired (stemExt name).2 := by
  have h := @unpaired_append (stemExt name).1 (stemExt name).2
  rw [stemExt_append] at h
  apply h
  rintro x y - hy ⟨-, hlow⟩
  rw [stemExt_ext hy] at hlow
  revert hlow
  decide

/-- What a name made for `desiredName` has to be. -/
structure NameRight (existingNames : List Text) (desiredName result : Text) : Prop where
  nonempty : result ≠ []
  fresh : result ∉ existingNames
  fits : utf8Size result ≤ maxBytes
  whole : ∀ u ∈ unpaired result, u ∈ unpaired desiredName
  extension : (stemExt desiredName).2 <:+ result
  same : desiredName ∉ existingNames → utf8Size desiredName ≤ maxBytes → result = desiredName

/-- No pair of the stem stands where its first half still fits in front of `tail` and the pair does
not, unless that half also stands alone in the name. -/
def KeepsPairs (desiredName tail : Text) : Prop :=
  ∀ p u v rest, (stemExt desiredName).1 = p ++ u :: v :: rest → isHigh u → isLow v →
    utf8Size p + 1 + utf8Size tail ≤ maxBytes →
    utf8Size p + 4 + utf8Size tail ≤ maxBytes ∨ u ∈ unpaired desiredName

theorem nameRight_numbered_iff {existingNames : List Text} {desiredName : Text} {n : Nat}
    (hmem : desiredName ∈ existingNames) (hfresh : candidate desiredName (n + 1) ∉ existingNames) :
    NameRight existingNames desiredName (candidate desiredName (n + 1)) ↔
      utf8Size (suffix (n + 1) ++ (stemExt desiredName).2) ≤ maxBytes ∧
      KeepsPairs desiredName (suffix (n + 1) ++ (stemExt desiredName).2) := by
  have htail : ∀ t, utf8Size (t ++ (suffix (n + 1) ++ (stemExt desiredName).2)) =
      utf8Size t + utf8Size (suffix (n + 1) ++ (stemExt desiredName).2) :=
    fun t => utf8Size_append (numbered_tail desiredName (n + 1) t)
  obtain ⟨cut, rest, hstem, hfit, hsize, hnext⟩ :=
    fit_spec (suffix (n + 1) ++ (stemExt desiredName).2) (stemExt desiredName).1
  have hcandidate : candidate desiredName (n + 1) = cut ++ (suffix (n + 1) ++ (stemExt desiredName).2) := hfit
  rw [hcandidate] at hfresh ⊢
  constructor
  · intro h
    have hfits := h.fits
    rw [htail] at hfits
    refine ⟨by omega, ?_⟩
    intro p u v r hp hu hv hhalf
    by_cases hpair : utf8Size p + 4 + utf8Size (suffix (n + 1) ++ (stemExt desiredName).2) ≤ maxBytes
    · exact .inl hpair
    · right
      have hcut := cut_parts_pair hstem hsize hnext htail hp hu hv hhalf (by omega)
      apply h.whole
      rw [unpaired_numbered, hcut]
      unfold unpaired
      rw [chars_high hu]
      simp [isSurrogate, hu]
  · rintro ⟨hroom, hpairs⟩
    have hfits : utf8Size (cut ++ (suffix (n + 1) ++ (stemExt desiredName).2)) ≤ maxBytes := by
      rcases hsize with hsize | rfl
      · exact hsize
      · exact hroom
    refine ⟨by simp [suffix], hfresh, hfits, ?_, ?_, fun hnot => absurd hmem hnot⟩
    · intro w hw
      rw [unpaired_numbered] at hw
      rw [unpaired_name, List.mem_append]
      rcases List.mem_append.mp hw with hw | hw
      · rcases cut_cases cut rest with hcut | ⟨p, u, v, r, rfl, rfl, hu, hv⟩
        · left
          rw [hstem, unpaired_append hcut]
          exact List.mem_append_left _ hw
        · -- The cut went through a pair, and only its first half can be new.
          have hlong := hnext v r rfl
          rw [htail, List.append_assoc, List.singleton_append, utf8Size_pair hu hv] at hlong
          rw [htail, utf8Size_high hu] at hfits
          rw [List.append_assoc, List.singleton_append] at hstem
          have hlone := (hpairs p u v r hstem hu hv hfits).resolve_left
            (by simp [utf8Size] at hlong; omega)
          have hsplit : unpaired (p ++ [u]) = unpaired p ++ [u] := by
            unfold unpaired
            rw [chars_high hu]
            simp [isSurrogate, hu]
          rw [hsplit] at hw
          rcases List.mem_append.mp hw with hw | hw
          · left
            rw [hstem]
            unfold unpaired at hw ⊢
            rw [chars_pair hu hv, List.flatMap_append]
            exact List.mem_append_left _ hw
          · rw [List.mem_singleton] at hw
            rw [hw, ← List.mem_append, ← unpaired_name]
            exact hlone
      · exact .inr hw
    · exact (List.suffix_append (suffix (n + 1)) _).trans (List.suffix_append cut _)

/-! ## The search -/

theorem lawfulBEq : LawfulBEq Text := inferInstance

attribute [local instance] lawfulBEq

/-- The loop over the numbers, for so many rounds. -/
def tryNumbers (existingNames : List Text) (desiredName : Text) : Nat → Nat → Option Text
  | 0, _ => none
  | fuel + 1, n =>
    if candidate desiredName n ∉ existingNames then some (candidate desiredName n)
    else tryNumbers existingNames desiredName fuel (n + 1)

/-- The body of `uniqueName`. -/
def uniqueNameCall (existingNames : List Text) (desiredName : Text) (fuel : Nat) : Option Text :=
  if desiredName ∉ existingNames then some desiredName
  else tryNumbers existingNames desiredName fuel 1

/-- `n` is the first number, with no number at all in front, whose name is free. -/
def FirstFree (existingNames : List Text) (desiredName : Text) (n : Nat) : Prop :=
  candidate desiredName n ∉ existingNames ∧ ∀ m < n, candidate desiredName m ∈ existingNames

theorem firstFree_find (existingNames : List Text) (desiredName : Text) :
    FirstFree existingNames desiredName (Nat.find (exists_candidate existingNames desiredName)) := by
  refine ⟨Nat.find_spec (exists_candidate existingNames desiredName), ?_⟩
  intro m hm
  exact not_not.mp (Nat.find_min (exists_candidate existingNames desiredName) hm)

theorem FirstFree.uniqueName_eq {existingNames : List Text} {desiredName : Text} {n : Nat}
    (h : FirstFree existingNames desiredName n) :
    uniqueName existingNames desiredName = candidate desiredName n := by
  have hfind : Nat.find (exists_candidate existingNames desiredName) = n :=
    (Nat.find_eq_iff _).mpr ⟨h.1, fun m hm => not_not.mpr (h.2 m hm)⟩
  unfold uniqueName
  rw [hfind]

/-- The numbered names differ, so one more than there are names is enough. -/
theorem FirstFree.le_length {existingNames : List Text} {desiredName : Text} {n : Nat}
    (h : FirstFree existingNames desiredName (n + 1)) : n ≤ existingNames.length := by
  have hnodup : ((List.range n).map fun m => candidate desiredName (m + 1)).Nodup := by
    apply List.Nodup.map _ List.nodup_range
    intro a b hab
    exact candidate_injective hab
  have hsub : ((List.range n).map fun m => candidate desiredName (m + 1)) ⊆ existingNames := by
    intro t ht
    obtain ⟨m, hm, rfl⟩ := List.mem_map.mp ht
    have := List.mem_range.mp hm
    exact h.2 (m + 1) (by omega)
  have := (List.subperm_of_subset hnodup hsub).length_le
  simpa using this

theorem tryNumbers_eq {existingNames : List Text} {desiredName : Text} {n : Nat}
    (h : FirstFree existingNames desiredName n) (fuel m : Nat) (hm : m ≤ n) (hfuel : n < m + fuel) :
    tryNumbers existingNames desiredName fuel m = some (candidate desiredName n) := by
  induction fuel generalizing m with
  | zero => omega
  | succ fuel ih =>
    unfold tryNumbers
    rcases Nat.eq_or_lt_of_le hm with rfl | hlt
    · rw [if_pos h.1]
    · rw [if_neg (not_not.mpr (h.2 m hlt))]
      exact ih (m + 1) hlt (by omega)

/-- A desired name that is free is returned as it is, so it has to be a good name itself. Where it is
taken, the number and the extension have to fit, and the cut must not part a pair. -/
def NamingFine (existingNames : List Text) (desiredName : Text) : Prop :=
  (desiredName ∉ existingNames → desiredName ≠ [] ∧ utf8Size desiredName ≤ maxBytes) ∧
  ∀ n, FirstFree existingNames desiredName (n + 1) →
    utf8Size (suffix (n + 1) ++ (stemExt desiredName).2) ≤ maxBytes ∧
    KeepsPairs desiredName (suffix (n + 1) ++ (stemExt desiredName).2)

theorem nameRight_free_iff {existingNames : List Text} {desiredName : Text} (h : desiredName ∉ existingNames) :
    NameRight existingNames desiredName desiredName ↔ desiredName ≠ [] ∧ utf8Size desiredName ≤ maxBytes := by
  constructor
  · intro hright
    exact ⟨hright.nonempty, hright.fits⟩
  · rintro ⟨hne, hfits⟩
    refine ⟨hne, h, hfits, fun u hu => hu, ?_, fun _ _ => rfl⟩
    exact ⟨(stemExt desiredName).1, stemExt_append desiredName⟩

/-- The search always ends, and the name it ends with is right in exactly these cases. -/
theorem uniqueName_right_iff (existingNames : List Text) (desiredName : Text) :
    (∀ fuel, existingNames.length < fuel →
      uniqueNameCall existingNames desiredName fuel = some (uniqueName existingNames desiredName)) ∧
    (NameRight existingNames desiredName (uniqueName existingNames desiredName) ↔
      NamingFine existingNames desiredName) := by
  have hfirst := firstFree_find existingNames desiredName
  generalize Nat.find (exists_candidate existingNames desiredName) = n at hfirst
  rw [hfirst.uniqueName_eq]
  have hunique : ∀ m, FirstFree existingNames desiredName m → m = n := by
    intro m hm
    rcases Nat.lt_trichotomy m n with hlt | heq | hlt
    · exact absurd (hfirst.2 m hlt) hm.1
    · exact heq
    · exact absurd (hm.2 n hlt) hfirst.1
  cases n with
  | zero =>
    have hfree : desiredName ∉ existingNames := hfirst.1
    refine ⟨fun fuel _ => by unfold uniqueNameCall; rw [if_pos hfree]; rfl, ?_⟩
    refine (nameRight_free_iff hfree).trans ⟨fun h => ⟨fun _ => h, ?_⟩, fun h => h.1 hfree⟩
    intro m hm
    have := hunique _ hm
    omega
  | succ n =>
    have htaken : desiredName ∈ existingNames := hfirst.2 0 (by omega)
    refine ⟨?_, ?_⟩
    · intro fuel hfuel
      unfold uniqueNameCall
      rw [if_neg (not_not.mpr htaken)]
      have := hfirst.le_length
      exact tryNumbers_eq hfirst fuel 1 (by omega) (by omega)
    · refine (nameRight_numbered_iff htaken hfirst.1).trans ⟨fun h => ⟨?_, ?_⟩, fun h => h.2 n hfirst⟩
      · exact fun hnot => absurd htaken hnot
      · intro m hm
        have : m = n := by
          have := hunique _ hm
          omega
        rw [this]
        exact h

/-- 248 letters and a smiling face. -/
def smiling : Text := List.replicate 248 97 ++ [0xD83D, 0xDE00]

/-- A copy of a file named so loses the second half of the face. -/
theorem smiling_parted : ¬ NameRight [smiling] smiling (uniqueName [smiling] smiling) := by
  have hstem : stemExt smiling = (smiling, []) := by decide +kernel
  have hnew : candidate smiling 1 ∉ [smiling] := by
    intro hmem
    obtain ⟨cut, hcut⟩ := fit_eq (suffix 1 ++ (stemExt smiling).2) (stemExt smiling).1
    have hcandidate : candidate smiling 1 = cut ++ (suffix 1 ++ (stemExt smiling).2) := hcut
    have hlast := congrArg List.getLast? (hcandidate.symm.trans (List.mem_singleton.mp hmem))
    have hbracket : (suffix 1).getLast? = some 41 := by decide
    rw [hstem, List.append_nil, List.getLast?_append, hbracket, Option.some_or] at hlast
    revert hlast
    decide
  have hfirst : FirstFree [smiling] smiling 1 := by
    refine ⟨hnew, ?_⟩
    intro m hm
    obtain rfl : m = 0 := by omega
    exact List.mem_singleton.mpr rfl
  rw [hfirst.uniqueName_eq, nameRight_numbered_iff (List.mem_singleton.mpr rfl) hnew, hstem]
  rintro ⟨-, hpairs⟩
  have hparted := hpairs (List.replicate 248 97) 0xD83D 0xDE00 [] (by rw [hstem]; rfl) (by decide) (by decide)
    (by decide +kernel)
  revert hparted
  decide +kernel

end LuksAndroid.App.Text
