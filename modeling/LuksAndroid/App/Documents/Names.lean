import Mathlib

/-!
# Names of documents

The strings of `documents/LuksDocumentsProvider.kt`: the id of a document in a directory, and
the names that `uniqueDocumentName` tries in turn.
-/

namespace LuksAndroid.App

/-- A string of Kotlin, in UTF-16 units. -/
abbrev Text := List UInt16

namespace Text

def slash : UInt16 := 47

def dot : UInt16 := 46

def root : Text := [slash]

-- `Char.isWhitespace`
def isWhitespace (c : UInt16) : Bool :=
  (9 ≤ c ∧ c ≤ 13) ∨ (28 ≤ c ∧ c ≤ 32) ∨ c = 0xA0 ∨ c = 0x1680 ∨ (0x2000 ≤ c ∧ c ≤ 0x200A) ∨ c = 0x2028 ∨
    c = 0x2029 ∨ c = 0x202F ∨ c = 0x205F ∨ c = 0x3000

def isBlank (t : Text) : Bool := t.all isWhitespace

/-- The display names that `createDocument` and `renameDocument` take. -/
def validName (name : Text) : Bool :=
  ¬ isBlank name ∧ slash ∉ name ∧ name ≠ [dot] ∧ name ≠ [dot, dot]

def isHigh (c : UInt16) : Bool := 0xD800 ≤ c ∧ c < 0xDC00

def isLow (c : UInt16) : Bool := 0xDC00 ≤ c ∧ c < 0xE000

-- `toByteArray(UTF_8).size`. Half of a pair alone is encoded as a question mark.
def utf8Size : Text → Nat
  | [] => 0
  | [c] => if isHigh c ∨ isLow c then 1 else if c < 0x80 then 1 else if c < 0x800 then 2 else 3
  | c :: d :: rest =>
    if isHigh c ∧ isLow d then 4 + utf8Size rest
    else (if isHigh c ∨ isLow c then 1 else if c < 0x80 then 1 else if c < 0x800 then 2 else 3) +
      utf8Size (d :: rest)

/-- The id of the document `name` in the directory `parentPath`. -/
def documentId (parentPath name : Text) : Text :=
  if parentPath = root then slash :: name else parentPath ++ slash :: name

def lastIndexOf (c : UInt16) (t : Text) : Option Nat :=
  (t.reverse.idxOf? c).map fun i => t.length - 1 - i

/-- The stem and the extension, with its dot. A name that starts with its only dot is all stem. -/
def stemExt (name : Text) : Text × Text :=
  match lastIndexOf dot name with
  | some i => if 0 < i then (name.take i, name.drop i) else (name, [])
  | none => (name, [])

def maxBytes : Nat := 255

/-- The inner loop of `uniqueDocumentName`: the stem is cut until the name fits. -/
def fit (tail stem : Text) : Text :=
  if maxBytes < utf8Size (stem ++ tail) ∧ stem ≠ [] then fit tail stem.dropLast else stem ++ tail
termination_by stem.length
decreasing_by
  rename_i h
  have hpos := List.length_pos_of_ne_nil h.2
  rw [List.length_dropLast]
  omega

def decimal (n : Nat) : Text :=
  if n = 0 then [48] else (Nat.digits 10 n).reverse.map fun d => UInt16.ofNat (48 + d)

-- " (n)"
def suffix (n : Nat) : Text := [32, 40] ++ decimal n ++ [41]

/-- The names that `uniqueDocumentName` tries. -/
def candidate (desiredName : Text) : Nat → Text
  | 0 => desiredName
  | n + 1 => fit (suffix (n + 1) ++ (stemExt desiredName).2) (stemExt desiredName).1

/-! ## The search ends -/

theorem fit_eq (tail stem : Text) : ∃ cut, fit tail stem = cut ++ tail := by
  induction stem using fit.induct tail with
  | case1 stem hlong ih =>
    rw [fit, if_pos hlong]
    exact ih
  | case2 stem hfits =>
    rw [fit, if_neg hfits]
    exact ⟨stem, rfl⟩

theorem digit_injective {d e : Nat} (hd : d < 10) (he : e < 10) (h : UInt16.ofNat (48 + d) = UInt16.ofNat (48 + e)) :
    d = e := by
  have hnat := congrArg UInt16.toNat h
  simp only [UInt16.toNat_ofNat'] at hnat
  omega

theorem digits_injective {n m : Nat} (h : ((Nat.digits 10 n).reverse.map fun d => UInt16.ofNat (48 + d)) =
    (Nat.digits 10 m).reverse.map fun d => UInt16.ofNat (48 + d)) : n = m := by
  have hmap : (Nat.digits 10 n).map (fun d => UInt16.ofNat (48 + d)) =
      (Nat.digits 10 m).map fun d => UInt16.ofNat (48 + d) := by
    have hreverse := congrArg List.reverse h
    simpa using hreverse
  apply Nat.digits_inj_iff.mp
  apply List.ext_getElem
  · simpa using congrArg List.length hmap
  · intro i hi hj
    have hget : ((Nat.digits 10 n).map fun d => UInt16.ofNat (48 + d))[i]? =
        ((Nat.digits 10 m).map fun d => UInt16.ofNat (48 + d))[i]? := by rw [hmap]
    simp only [List.getElem?_map, List.getElem?_eq_getElem hi, List.getElem?_eq_getElem hj, Option.map_some,
      Option.some.injEq] at hget
    exact digit_injective (Nat.digits_lt_base (by omega) (List.getElem_mem hi))
      (Nat.digits_lt_base (by omega) (List.getElem_mem hj)) hget

-- No digit is an opening bracket.
theorem bracket_not_mem_decimal (n : Nat) : (40 : UInt16) ∉ decimal n := by
  unfold decimal
  split
  · decide
  intro hmem
  obtain ⟨d, hd, heq⟩ := List.mem_map.mp hmem
  have hlt := Nat.digits_lt_base (by omega) (List.mem_reverse.mp hd)
  have hnat := congrArg UInt16.toNat heq
  simp only [UInt16.toNat_ofNat'] at hnat
  have hbracket : (40 : UInt16).toNat = 40 := rfl
  omega

theorem takeWhile_bracket {digits rest : Text} (h : (40 : UInt16) ∉ digits) :
    (digits ++ 40 :: rest).takeWhile (fun c => c ≠ 40) = digits := by
  induction digits with
  | nil => simp
  | cons c digits ih =>
    have hc : c ≠ 40 := fun heq => h (by simp [heq])
    rw [List.cons_append, List.takeWhile_cons_of_pos (by simpa using hc), ih fun hmem =>
      h (List.mem_cons_of_mem c hmem)]

theorem suffix_injective {n m : Nat} {cut cut' ext : Text} (hn : n ≠ 0) (hm : m ≠ 0)
    (h : cut ++ (suffix n ++ ext) = cut' ++ (suffix m ++ ext)) :
    n = m := by
  have hstem : cut ++ ([32, 40] ++ decimal n) = cut' ++ ([32, 40] ++ decimal m) := by
    have hcut : (cut ++ ([32, 40] ++ decimal n)) ++ ([41] ++ ext) = (cut' ++ ([32, 40] ++ decimal m)) ++
        ([41] ++ ext) := by
      simpa [suffix] using h
    exact List.append_cancel_right hcut
  have hreverse := congrArg List.reverse hstem
  simp only [List.reverse_append, List.reverse_cons, List.nil_append, List.append_assoc,
    List.cons_append] at hreverse
  have htake := congrArg (List.takeWhile fun c => c ≠ (40 : UInt16)) hreverse
  rw [takeWhile_bracket (by simpa using bracket_not_mem_decimal n),
    takeWhile_bracket (by simpa using bracket_not_mem_decimal m)] at htake
  have hdecimal := List.reverse_injective htake
  unfold decimal at hdecimal
  rw [if_neg hn, if_neg hm] at hdecimal
  exact digits_injective hdecimal

theorem candidate_injective {desiredName : Text} {n m : Nat}
    (h : candidate desiredName (n + 1) = candidate desiredName (m + 1)) : n = m := by
  obtain ⟨cut, hn⟩ := fit_eq (suffix (n + 1) ++ (stemExt desiredName).2) (stemExt desiredName).1
  obtain ⟨cut', hm⟩ := fit_eq (suffix (m + 1) ++ (stemExt desiredName).2) (stemExt desiredName).1
  simp only [candidate, hn, hm] at h
  have := suffix_injective (by omega) (by omega) h
  omega

theorem exists_candidate (names : List Text) (desiredName : Text) : ∃ n, candidate desiredName n ∉ names := by
  by_contra hall
  simp only [not_exists, not_not] at hall
  have hinjective : Function.Injective fun n => candidate desiredName (n + 1) := fun _ _ h => candidate_injective h
  apply Set.infinite_range_of_injective hinjective
  apply Set.Finite.subset (List.finite_toSet names)
  rintro _ ⟨n, rfl⟩
  exact hall (n + 1)

/-- `uniqueName`. -/
def uniqueName (existingNames : List Text) (desiredName : Text) : Text :=
  candidate desiredName (Nat.find (exists_candidate existingNames desiredName))

theorem uniqueName_not_mem (existingNames : List Text) (desiredName : Text) :
    uniqueName existingNames desiredName ∉ existingNames :=
  Nat.find_spec (exists_candidate existingNames desiredName)

end Text

end LuksAndroid.App
