import LuksAndroid.Lib.Bytes
import LuksAndroid.Lib.Word

/-!
# The device that is a file

`FileDevice` of `core/src/device.rs` on Unix: the plain path, and the widened one of a node that
takes whole blocks only. Every call of the system is recorded. Interrupted calls are retried and
left out, and no other call fails, an offset no file has apart.
-/

namespace LuksAndroid

open Word

/-- What one call of the system moves at most, and the largest buffer it has memory for. -/
structure Kernel where
  most : Nat
  capacity : Nat
  most_pos : 0 < most
  capacity_lt : capacity < 2 ^ 63

inductive ErrorKind where
  | InvalidInput
  | UnexpectedEof
  | PermissionDenied
deriving DecidableEq, Repr

inductive FileError where
  | Io (path : String) (source : ErrorKind)
  | OutOfBounds
deriving DecidableEq, Repr

inductive Call where
  | pread (offset n : Nat)
  | pwrite (offset n : Nat)
deriving DecidableEq, Repr

/-- How a call ends. A panic is the buffer that cannot be had. -/
inductive Outcome (α : Type) where
  | ok (a : α)
  | err (e : FileError)
  | panic
deriving DecidableEq, Repr

/-- A call in blocks of `a` bytes. -/
def Call.Aligned (a : Nat) : Call → Prop
  | .pread offset n => a ∣ offset ∧ a ∣ n
  | .pwrite offset n => a ∣ offset ∧ a ∣ n

def Outcome.bind {α β : Type} (x : Outcome α) (f : α → Outcome β) : Outcome β :=
  match x with
  | .ok a => f a
  | .err e => .err e
  | .panic => .panic

@[simp] theorem Outcome.bind_ok {α β : Type} (a : α) (f : α → Outcome β) : (Outcome.ok a).bind f = f a := rfl

@[simp] theorem Outcome.bind_err {α β : Type} (e : FileError) (f : α → Outcome β) :
    (Outcome.err e).bind f = .err e := rfl

/-- What is made of the result of some calls. -/
def follow {α β : Type} (r : Outcome α × List Call) (f : α → Outcome β) : Outcome β × List Call :=
  (r.1.bind f, r.2)

theorem follow_fst {α β : Type} (r : Outcome α × List Call) (f : α → Outcome β) :
    (follow r f).1 = r.1.bind f := rfl

theorem follow_snd {α β : Type} (r : Outcome α × List Call) (f : α → Outcome β) : (follow r f).2 = r.2 := rfl

/-- A write that takes what some calls brought. -/
def followWrite {α : Type} (r : Outcome α × List Call) (content : Bytes) (f : α → Outcome Unit × Bytes × List Call) :
    Outcome Unit × Bytes × List Call :=
  match r.1 with
  | .ok a => ((f a).1, (f a).2.1, r.2 ++ (f a).2.2)
  | .err e => (.err e, content, r.2)
  | .panic => (.panic, content, r.2)

theorem followWrite_ok {α β : Type} {r : Outcome α × List Call} {g : α → Outcome β} {content : Bytes}
    {f : β → Outcome Unit × Bytes × List Call} {b : β} (h : (follow r g).1 = .ok b) :
    (followWrite (follow r g) content f).1 = (f b).1 ∧ (followWrite (follow r g) content f).2.1 = (f b).2.1 ∧
    (followWrite (follow r g) content f).2.2 = r.2 ++ (f b).2.2 := by
  unfold followWrite
  rw [h]
  exact ⟨rfl, rfl, rfl⟩

theorem followWrite_err {α β : Type} {r : Outcome α × List Call} {g : α → Outcome β} {content : Bytes}
    {f : β → Outcome Unit × Bytes × List Call} {e : FileError} (h : (follow r g).1 = .err e) :
    (followWrite (follow r g) content f).1 = .err e ∧ (followWrite (follow r g) content f).2.1 = content ∧
    (followWrite (follow r g) content f).2.2 = r.2 := by
  unfold followWrite
  rw [h]
  exact ⟨rfl, rfl, rfl⟩

/-- A file that was opened for writing has the length its opening confirmed. -/
structure FileDevice where
  path : String
  content : Bytes
  len : Option Nat
  align : Nat
  writable : Bool
  content_lt : content.length < 2 ^ 63
  writable_len : writable = true → len = some content.length

namespace FileDevice

variable (sys : Kernel) (f : FileDevice)

/-! ## Reading -/

/-- The bytes that arrive, up to the end of the file. -/
def pread (offset n : Nat) : Outcome Bytes × List Call :=
  if n = 0 then (.ok [], [])
  else if 2 ^ 63 ≤ offset then (.err (.Io f.path .InvalidInput), [.pread offset n])
  else
    let got := f.content.slice offset (min n sys.most)
    if got = [] then (.ok [], [.pread offset n])
    else
      let rest := follow (pread (offset + got.length) (n - got.length)) fun more => .ok (got ++ more)
      (rest.1, .pread offset n :: rest.2)
termination_by n
decreasing_by
  rename_i hn _ hgot
  exact Nat.sub_lt (Nat.pos_of_ne_zero hn) (List.length_pos_iff.mpr hgot)

def check (got needed : Nat) : Outcome Unit :=
  if got < needed then .err (.Io f.path .UnexpectedEof) else .ok ()

theorem check_ok {f : FileDevice} {got needed : Nat} (h : needed ≤ got) : f.check got needed = .ok () := by
  unfold check
  exact if_neg (by omega)

theorem check_err {f : FileDevice} {got needed : Nat} (h : got < needed) :
    f.check got needed = .err (.Io f.path .UnexpectedEof) := by
  unfold check
  exact if_pos h

def read_exact_at (offset n : Nat) : Outcome Bytes × List Call :=
  follow (f.pread sys offset n) fun got => (f.check got.length n).bind fun _ => .ok got

/-- The first block of the range, and how many bytes the blocks of the range have. -/
def start (offset : Nat) : Nat := offset / f.align * f.align

def window (offset n : Nat) : Nat :=
  wrapping_sub (wrapping_mul (div_ceil (offset + n) f.align) f.align) (f.start offset)

def read_widened (offset n : Nat) : Outcome Bytes × List Call :=
  match checked_add offset n with
  | none => (.err .OutOfBounds, [])
  | some _ =>
    let skip := offset - f.start offset
    if skip = 0 ∧ n % f.align = 0 then f.read_exact_at sys offset n
    else if sys.capacity < f.window offset n then (.panic, [])
    else
      follow (f.pread sys (f.start offset) (f.window offset n)) fun got =>
        (f.check got.length (skip + n)).bind fun _ => .ok (got.slice skip n)

def read_at (offset n : Nat) : Outcome Bytes × List Call :=
  if f.align = 0 then f.read_exact_at sys offset n else f.read_widened sys offset n

/-! ## Writing -/

/-- The file's bytes afterwards as well. -/
def pwrite_all (content : Bytes) (offset : Nat) (buf : Bytes) : Outcome Unit × Bytes × List Call :=
  if buf = [] then (.ok (), content, [])
  else if 2 ^ 63 ≤ offset then (.err (.Io f.path .InvalidInput), content, [.pwrite offset buf.length])
  else
    let n := min buf.length sys.most
    let rest := pwrite_all (content.put offset (buf.take n)) (offset + n) (buf.drop n)
    (rest.1, rest.2.1, .pwrite offset buf.length :: rest.2.2)
termination_by buf.length
decreasing_by
  rename_i hbuf _
  have hpos := List.length_pos_iff.mpr hbuf
  have hmost := sys.most_pos
  rw [List.length_drop]
  omega

def write_widened (offset : Nat) (buf : Bytes) : Outcome Unit × Bytes × List Call :=
  match checked_add offset buf.length with
  | none => (.err .OutOfBounds, f.content, [])
  | some _ =>
    let skip := offset - f.start offset
    if skip = 0 ∧ buf.length % f.align = 0 then f.pwrite_all sys f.content offset buf
    else if sys.capacity < f.window offset buf.length then (.panic, f.content, [])
    else
      followWrite
        (follow (f.pread sys (f.start offset) (f.window offset buf.length)) fun scratch =>
          (f.check scratch.length (f.window offset buf.length)).bind fun _ => .ok scratch)
        f.content fun scratch => f.pwrite_all sys f.content (f.start offset) (scratch.put skip buf)

/-- Whether a write lands inside the device, where its length is known. -/
def lands (offset n : Nat) : Outcome Unit :=
  match f.len with
  | none => .ok ()
  | some len =>
    match checked_add offset n with
    | none => .err .OutOfBounds
    | some stop => if stop > len then .err .OutOfBounds else .ok ()

def write_at (offset : Nat) (buf : Bytes) : Outcome Unit × Bytes × List Call :=
  if ¬ f.writable then (.err (.Io f.path .PermissionDenied), f.content, [])
  else if buf = [] then (.ok (), f.content, [])
  else
    match f.lands offset buf.length with
    | .panic => (.panic, f.content, [])
    | .err e => (.err e, f.content, [])
    | .ok () =>
      if f.align = 0 then f.pwrite_all sys f.content offset buf else f.write_widened sys offset buf

variable {sys : Kernel} {f : FileDevice}

/-! ## What a loop of reads brings -/

theorem slice_split {b : Bytes} {offset m n : Nat} (hm : m ≤ n) :
    b.slice offset n = b.slice offset m ++
      b.slice (offset + (b.slice offset m).length) (n - (b.slice offset m).length) := by
  unfold Bytes.slice
  rw [← List.drop_drop]
  generalize b.drop offset = d
  have hcut : d.take m = d.take (min m d.length) := List.take_eq_take_min
  rw [List.length_take, hcut, ← List.take_add, Nat.add_sub_cancel' (by omega)]

theorem slice_eq_nil {b : Bytes} {offset n : Nat} (hn : n ≠ 0) : b.slice offset n = [] ↔ b.length ≤ offset := by
  unfold Bytes.slice
  rw [List.take_eq_nil_iff, List.drop_eq_nil_iff]
  simp [hn]

theorem length_slice (b : Bytes) (offset n : Nat) : (b.slice offset n).length = min n (b.length - offset) := by
  simp [Bytes.slice]

theorem pread_eq {offset n : Nat} (h : n ≠ 0 → offset < 2 ^ 63) :
    (f.pread sys offset n).1 = .ok (f.content.slice offset n) := by
  induction n using Nat.strong_induction_on generalizing offset with
  | _ n ih =>
    have hmost := sys.most_pos
    unfold pread
    by_cases hn : n = 0
    · rw [if_pos hn, hn]
      simp [Bytes.slice]
    · have hoffset := h hn
      rw [if_neg hn, if_neg (by omega)]
      simp only
      split
      · rename_i hgot
        rw [slice_eq_nil (by omega)] at hgot
        exact congrArg Outcome.ok ((slice_eq_nil hn).mpr hgot).symm
      · rename_i hgot
        rw [slice_eq_nil (by omega)] at hgot
        have hlen := length_slice f.content offset (min n sys.most)
        have hcontent := f.content_lt
        rw [follow_fst, ih _ (by omega) (by omega), Outcome.bind_ok, slice_split (Nat.min_le_left n sys.most)]

theorem pread_err {offset n : Nat} (hn : n ≠ 0) (h : 2 ^ 63 ≤ offset) :
    ∃ e, (f.pread sys offset n).1 = .err e := by
  unfold pread
  rw [if_neg hn, if_pos h]
  exact ⟨_, rfl⟩

theorem read_exact_at_ok {offset n : Nat} (h : n = 0 ∨ offset + n ≤ f.content.length) :
    (f.read_exact_at sys offset n).1 = .ok (f.content.slice offset n) := by
  have hcontent := f.content_lt
  unfold read_exact_at
  rw [follow_fst, pread_eq fun hn => by omega, Outcome.bind_ok, check_ok, Outcome.bind_ok]
  rw [length_slice]
  omega

theorem read_exact_at_err {offset n : Nat} (hn : n ≠ 0) (h : f.content.length < offset + n) :
    ∃ e, (f.read_exact_at sys offset n).1 = .err e := by
  unfold read_exact_at
  rw [follow_fst]
  by_cases hoffset : offset < 2 ^ 63
  · rw [pread_eq fun _ => hoffset, Outcome.bind_ok, check_err, Outcome.bind_err]
    · exact ⟨_, rfl⟩
    · rw [length_slice]
      omega
  · obtain ⟨e, he⟩ := @pread_err sys f offset n hn (by omega)
    rw [he, Outcome.bind_err]
    exact ⟨e, rfl⟩

/-! ## Calls of whole blocks -/

/-- What there is of the range goes in one call, or in calls of whole blocks, and the file does not
end inside one of its blocks. -/
def WholeBlocks (sys : Kernel) (f : FileDevice) (start n : Nat) : Prop :=
  (min n (f.content.length - start) ≤ sys.most ∨ f.align ∣ sys.most) ∧
  (start < f.content.length → f.content.length < start + n → f.align ∣ f.content.length)

instance (start n : Nat) : Decidable (WholeBlocks sys f start n) := inferInstanceAs (Decidable ((_ ∨ _) ∧ (_ → _ → _)))

theorem mem_pread {offset n : Nat} (hn : n ≠ 0) : Call.pread offset n ∈ (f.pread sys offset n).2 := by
  unfold pread
  rw [if_neg hn]
  split
  · simp
  · simp only
    split <;> simp

theorem pread_aligned {offset n : Nat} (hoffset : f.align ∣ offset) (hn : f.align ∣ n) :
    (∀ c ∈ (f.pread sys offset n).2, c.Aligned f.align) ↔ f.WholeBlocks sys offset n := by
  induction n using Nat.strong_induction_on generalizing offset with
  | _ n ih =>
    have hmost := sys.most_pos
    have hcontent := f.content_lt
    have hfirst : (Call.pread offset n).Aligned f.align := ⟨hoffset, hn⟩
    unfold pread
    by_cases hzero : n = 0
    · rw [if_pos hzero]
      unfold WholeBlocks
      simp only [List.not_mem_nil, false_implies, implies_true, true_iff]
      exact ⟨.inl (by omega), by omega⟩
    rw [if_neg hzero]
    by_cases hfar : 2 ^ 63 ≤ offset
    · rw [if_pos hfar]
      unfold WholeBlocks
      simp only [List.mem_singleton, forall_eq, hfirst, true_iff]
      exact ⟨.inl (by omega), by omega⟩
    rw [if_neg hfar]
    simp only
    split
    · rename_i hgot
      rw [slice_eq_nil (by omega)] at hgot
      unfold WholeBlocks
      simp only [List.mem_singleton, forall_eq, hfirst, true_iff]
      exact ⟨.inl (by omega), by omega⟩
    · rename_i hgot
      rw [slice_eq_nil (by omega)] at hgot
      have hlen := length_slice f.content offset (min n sys.most)
      generalize (f.content.slice offset (min n sys.most)).length = got at hlen ⊢
      simp only [follow_snd, List.mem_cons, forall_eq_or_imp, hfirst, true_and]
      by_cases hdvd : f.align ∣ got
      · rw [ih _ (by omega) ((Nat.dvd_add_right hoffset).mpr hdvd) (Nat.dvd_sub hn hdvd)]
        unfold WholeBlocks
        constructor
        · rintro ⟨hpiece, hend⟩
          refine ⟨?_, ?_⟩
          · by_cases hall : got = sys.most
            · exact .inr (hall ▸ hdvd)
            · exact .inl (by omega)
          · intro hlow hhigh
            by_cases hall : f.content.length - offset = got
            · rw [show f.content.length = offset + got by omega]
              exact (Nat.dvd_add_right hoffset).mpr hdvd
            · exact hend (by omega) (by omega)
        · rintro ⟨hpiece, hend⟩
          refine ⟨?_, fun hlow hhigh => hend (by omega) (by omega)⟩
          rcases hpiece with hpiece | hpiece
          · exact .inl (by omega)
          · exact .inr hpiece
      · -- The next call starts inside a block.
        have hmore : n - got ≠ 0 := by
          intro hall
          exact hdvd (by rwa [show got = n by omega])
        constructor
        · intro hall
          have hnext := (hall _ (mem_pread hmore)).1
          exact absurd ((Nat.dvd_add_right hoffset).mp hnext) hdvd
        · rintro ⟨hpiece, hend⟩
          exfalso
          by_cases hshort : f.content.length - offset = got
          · have hlength := hend (by omega) (by omega)
            rw [show f.content.length = offset + got by omega] at hlength
            exact hdvd ((Nat.dvd_add_right hoffset).mp hlength)
          · rcases hpiece with hpiece | hpiece
            · omega
            · exact hdvd (by rwa [show got = sys.most by omega])

/-! ## The range in whole blocks -/

section

variable {offset n k : Nat}

theorem start_le : f.start offset ≤ offset := by
  unfold start
  exact Nat.div_mul_le_self offset f.align

theorem align_dvd_start : f.align ∣ f.start offset := by
  unfold start
  exact Nat.dvd_mul_left _ _

theorem skip_eq : offset - f.start offset = offset % f.align := by
  unfold start
  rw [Nat.mod_eq_sub_div_mul]

theorem aligned_iff :
    (offset - f.start offset = 0 ∧ n % f.align = 0) ↔ f.align ∣ offset ∧ f.align ∣ n := by
  rw [skip_eq, Nat.dvd_iff_mod_eq_zero, Nat.dvd_iff_mod_eq_zero]

theorem div_ceil_mul_bounds {x a : Nat} (ha : 0 < a) : x ≤ div_ceil x a * a ∧ div_ceil x a * a < x + a := by
  refine ⟨?_, ?_⟩
  · have := mt (lt_div_ceil (a := x) (g := div_ceil x a) ha).mpr (lt_irrefl _)
    omega
  · rcases Nat.eq_zero_or_pos (div_ceil x a) with hzero | hpos
    · rw [hzero]
      omega
    · have hlt := (lt_div_ceil (a := x) (g := div_ceil x a - 1) ha).mp (by omega)
      have hmul : (div_ceil x a - 1) * a = div_ceil x a * a - a := by rw [Nat.sub_mul, Nat.one_mul]
      omega

theorem align_dvd_size (halign : f.align = 2 ^ k) (hk : k < 64) : f.align ∣ size := by
  rw [halign]
  unfold size
  exact pow_dvd_pow 2 (Nat.le_of_lt hk)

theorem stop_le_size (halign : f.align = 2 ^ k) (hk : k < 64) (hsum : offset + n < size) :
    div_ceil (offset + n) f.align * f.align ≤ size := by
  have hpos : 0 < f.align := by rw [halign]; exact Nat.two_pow_pos k
  obtain ⟨q, hq⟩ := align_dvd_size halign hk
  have hbound := (div_ceil_mul_bounds (x := offset + n) hpos).2
  rw [hq, Nat.mul_comm f.align q] at hsum ⊢
  apply Nat.mul_le_mul_right
  have hlt : div_ceil (offset + n) f.align * f.align < (q + 1) * f.align := by
    rw [Nat.add_mul, Nat.one_mul]
    omega
  have := Nat.lt_of_mul_lt_mul_right hlt
  omega

/-- The window covers the range, unless the blocks are those of the whole word. -/
theorem window_cases (halign : f.align = 2 ^ k) (hk : k < 64) (hsum : offset + n < size) :
    f.align ∣ f.window offset n ∧ (offset - f.start offset + n ≤ f.window offset n ∨
      f.window offset n = 0 ∧ 2 ^ 63 ≤ offset + n) := by
  have hpos : 0 < f.align := by rw [halign]; exact Nat.two_pow_pos k
  have hstop := stop_le_size halign hk hsum
  obtain ⟨hlow, hhigh⟩ := div_ceil_mul_bounds (x := offset + n) hpos
  have hdvd : f.align ∣ div_ceil (offset + n) f.align * f.align := Nat.dvd_mul_left _ _
  have hstart := @start_le f offset
  have hstartdvd := @align_dvd_start f offset
  have hword := align_dvd_size halign hk
  unfold window
  generalize div_ceil (offset + n) f.align = blocks at hstop hlow hhigh hdvd ⊢
  rcases Nat.eq_or_lt_of_le hstop with heq | hlt
  · have hhalf : f.align ≤ 2 ^ 63 := by
      rw [halign]
      exact Nat.pow_le_pow_right (by omega) (by omega)
    have hzero : wrapping_mul blocks f.align = 0 := by
      unfold wrapping_mul
      rw [heq, Nat.mod_self]
    rw [hzero]
    unfold wrapping_sub
    rw [Nat.zero_add]
    rcases Nat.eq_zero_or_pos (f.start offset) with hfirst | hfirst
    · rw [hfirst, Nat.sub_zero, Nat.mod_self]
      refine ⟨Nat.dvd_zero _, .inr ⟨rfl, ?_⟩⟩
      unfold size at heq
      omega
    · have hless : size - f.start offset < size := Nat.sub_lt (by unfold size; omega) hfirst
      rw [Nat.mod_eq_of_lt hless]
      exact ⟨Nat.dvd_sub hword hstartdvd, .inl (by omega)⟩
  · rw [wrapping_mul_of_lt hlt, wrapping_sub_of_le (by omega) hlt]
    exact ⟨Nat.dvd_sub hdvd hstartdvd, .inl (by omega)⟩

theorem window_aligned (halign : f.align = 2 ^ k) (hsum : offset + n < size) (hoffset : f.align ∣ offset)
    (hn : f.align ∣ n) : f.start offset = offset ∧ f.window offset n = n := by
  have hpos : 0 < f.align := by rw [halign]; exact Nat.two_pow_pos k
  have hstart : f.start offset = offset := by
    unfold start
    exact Nat.div_mul_cancel hoffset
  obtain ⟨hlow, hhigh⟩ := div_ceil_mul_bounds (x := offset + n) hpos
  have hstop : div_ceil (offset + n) f.align * f.align = offset + n := by
    obtain ⟨q, hq⟩ := (Nat.dvd_add_right hoffset).mpr hn
    rw [hq, Nat.mul_comm f.align q] at hlow hhigh ⊢
    have hle := Nat.le_of_mul_le_mul_right hlow hpos
    have hlt : div_ceil (q * f.align) f.align < q + 1 := by
      apply Nat.lt_of_mul_lt_mul_right (a := f.align)
      rw [Nat.add_mul, Nat.one_mul]
      exact hhigh
    rw [show div_ceil (q * f.align) f.align = q by omega]
  refine ⟨hstart, ?_⟩
  unfold window
  rw [hstart, wrapping_mul, hstop, Nat.mod_eq_of_lt hsum, wrapping_sub_of_le (by omega) hsum]
  omega

end

/-! ## Reads -/

/-- The same device with nothing widened. -/
def unaligned (f : FileDevice) : FileDevice := { f with align := 0 }

/-- The bytes of the plain read, or an error where it gives one. -/
def Agrees (widened plain : Outcome Bytes) : Prop :=
  (∃ b, plain = .ok b ∧ widened = .ok b) ∨ ∃ e e', plain = .err e ∧ widened = .err e'

def ReadRight (sys : Kernel) (f : FileDevice) (offset n : Nat) : Prop :=
  Agrees (f.read_at sys offset n).1 (f.unaligned.read_at sys offset n).1 ∧
  ∀ c ∈ (f.read_at sys offset n).2, c.Aligned f.align

/-- A range of whole blocks, or one whose blocks there is memory for, and an empty one not past the
end. -/
def ReadFine (sys : Kernel) (f : FileDevice) (offset n : Nat) : Prop :=
  size ≤ offset + n ∨
  (f.align ∣ offset ∧ f.align ∣ n ∨
    f.window offset n ≤ sys.capacity ∧ (n ≠ 0 ∨ offset ≤ f.content.length)) ∧
  f.WholeBlocks sys (f.start offset) (f.window offset n)

instance (offset n : Nat) : Decidable (ReadFine sys f offset n) := inferInstanceAs (Decidable (_ ∨ _ ∧ _))

section

variable {offset n k : Nat}

theorem unaligned_read_at : f.unaligned.read_at sys offset n = f.unaligned.read_exact_at sys offset n := by
  unfold read_at
  exact if_pos rfl

theorem widened_read_at (h : f.align ≠ 0) : f.read_at sys offset n = f.read_widened sys offset n := by
  unfold read_at
  exact if_neg h

theorem unaligned_read_at_ok (h : n = 0 ∨ offset + n ≤ f.content.length) :
    (f.unaligned.read_at sys offset n).1 = .ok (f.content.slice offset n) := by
  rw [unaligned_read_at]
  exact read_exact_at_ok h

theorem unaligned_read_at_err (hn : n ≠ 0) (h : f.content.length < offset + n) :
    ∃ e, (f.unaligned.read_at sys offset n).1 = .err e := by
  rw [unaligned_read_at]
  exact read_exact_at_err hn h

theorem slice_slice {b : Bytes} {start w skip n : Nat} (h : skip + n ≤ w) :
    (b.slice start w).slice skip n = b.slice (start + skip) n := by
  unfold Bytes.slice
  rw [List.drop_take, List.take_take, List.drop_drop, Nat.min_eq_left (by omega)]

theorem bounce_read (halign : f.align = 2 ^ k) (hk : k < 64) (hsum : offset + n < size)
    (hpart : ¬ (offset - f.start offset = 0 ∧ n % f.align = 0)) :
    (offset + n ≤ f.content.length →
      ((f.pread sys (f.start offset) (f.window offset n)).1.bind fun got =>
        (f.check got.length (offset - f.start offset + n)).bind fun _ =>
          .ok (got.slice (offset - f.start offset) n)) = .ok (f.content.slice offset n)) ∧
    (f.content.length < offset + n → ∃ e,
      ((f.pread sys (f.start offset) (f.window offset n)).1.bind fun got =>
        (f.check got.length (offset - f.start offset + n)).bind fun _ =>
          .ok (got.slice (offset - f.start offset) n)) = .err e) := by
  have hcontent := f.content_lt
  have hstart := @start_le f offset
  obtain ⟨-, hwindow⟩ := window_cases halign hk hsum
  have hwanted : 0 < offset - f.start offset + n := by
    rcases Nat.eq_zero_or_pos n with rfl | hn
    · rw [Nat.zero_mod] at hpart
      omega
    · omega
  generalize f.window offset n = w at hwindow ⊢
  refine ⟨fun hin => ?_, fun hout => ?_⟩
  · rw [pread_eq fun _ => by omega, Outcome.bind_ok, check_ok, Outcome.bind_ok, slice_slice (by omega),
      Nat.add_sub_cancel' hstart]
    rw [length_slice]
    omega
  · by_cases hreach : w ≠ 0 → f.start offset < 2 ^ 63
    · rw [pread_eq hreach, Outcome.bind_ok, check_err, Outcome.bind_err]
      · exact ⟨_, rfl⟩
      · rw [length_slice]
        omega
    · simp only [ne_eq, Classical.not_imp, not_lt] at hreach
      obtain ⟨e, he⟩ := @pread_err sys f _ _ hreach.1 hreach.2
      rw [he, Outcome.bind_err]
      exact ⟨e, rfl⟩

theorem read_widened_eq (hsum : offset + n < size) :
    f.read_widened sys offset n =
      if offset - f.start offset = 0 ∧ n % f.align = 0 then f.read_exact_at sys offset n
      else if sys.capacity < f.window offset n then (.panic, [])
      else
        follow (f.pread sys (f.start offset) (f.window offset n)) fun got =>
          (f.check got.length (offset - f.start offset + n)).bind fun _ =>
            .ok (got.slice (offset - f.start offset) n) := by
  unfold read_widened
  rw [checked_add, if_pos hsum]

theorem read_widened_overflow (hsum : ¬ offset + n < size) :
    f.read_widened sys offset n = (.err .OutOfBounds, []) := by
  unfold read_widened
  rw [checked_add, if_neg hsum]

theorem read_exact_at_calls : (f.read_exact_at sys offset n).2 = (f.pread sys offset n).2 := rfl

theorem whole_read_right_iff (halign : f.align = 2 ^ k) (hsum : offset + n < size)
    (hwhole : offset - f.start offset = 0 ∧ n % f.align = 0) :
    (Agrees (f.read_exact_at sys offset n).1 (f.unaligned.read_at sys offset n).1 ∧
      ∀ c ∈ (f.read_exact_at sys offset n).2, c.Aligned f.align) ↔
    f.WholeBlocks sys (f.start offset) (f.window offset n) := by
  obtain ⟨hoffset, hn⟩ := aligned_iff.mp hwhole
  obtain ⟨hstart, hwindow⟩ := window_aligned halign hsum hoffset hn
  have hagree : Agrees (f.read_exact_at sys offset n).1 (f.unaligned.read_at sys offset n).1 := by
    by_cases hin : n = 0 ∨ offset + n ≤ f.content.length
    · exact .inl ⟨_, unaligned_read_at_ok hin, read_exact_at_ok hin⟩
    · simp only [not_or, not_le] at hin
      obtain ⟨e, he⟩ := @unaligned_read_at_err sys f _ _ hin.1 hin.2
      obtain ⟨e', he'⟩ := @read_exact_at_err sys f _ _ hin.1 hin.2
      exact .inr ⟨e, e', he, he'⟩
  rw [read_exact_at_calls, pread_aligned hoffset hn, hstart, hwindow]
  exact and_iff_right hagree

/-- A range read through the blocks around it goes wrong only where it is empty and past the end, or
where its blocks are not read whole. -/
theorem bounce_read_right_iff (halign : f.align = 2 ^ k) (hk : k < 64) (hsum : offset + n < size)
    (hpart : ¬ (offset - f.start offset = 0 ∧ n % f.align = 0)) :
    (Agrees ((f.pread sys (f.start offset) (f.window offset n)).1.bind fun got =>
        (f.check got.length (offset - f.start offset + n)).bind fun _ =>
          .ok (got.slice (offset - f.start offset) n)) (f.unaligned.read_at sys offset n).1 ∧
      ∀ c ∈ (f.pread sys (f.start offset) (f.window offset n)).2, c.Aligned f.align) ↔
    (n ≠ 0 ∨ offset ≤ f.content.length) ∧ f.WholeBlocks sys (f.start offset) (f.window offset n) := by
  obtain ⟨hin, hout⟩ := @bounce_read sys f offset n k halign hk hsum hpart
  rw [pread_aligned align_dvd_start (window_cases halign hk hsum).1]
  apply and_congr_left'
  by_cases hend : offset + n ≤ f.content.length
  · rw [hin hend, unaligned_read_at_ok (.inr hend)]
    exact ⟨fun _ => .inr (by omega), fun _ => .inl ⟨_, rfl, rfl⟩⟩
  · obtain ⟨e, he⟩ := hout (by omega)
    rw [he]
    by_cases hn : n = 0
    · rw [unaligned_read_at_ok (.inl hn)]
      refine ⟨?_, fun h => absurd h (by omega)⟩
      rintro (⟨b, -, h⟩ | ⟨e, e', h, -⟩) <;> cases h
    · obtain ⟨e', he'⟩ := @unaligned_read_at_err sys f _ _ hn (Nat.lt_of_not_le hend)
      rw [he']
      exact ⟨fun _ => .inl hn, fun _ => .inr ⟨e', e, rfl, rfl⟩⟩

theorem read_right_iff (halign : f.align = 2 ^ k) (hk : k < 64) (hoffset : offset < size) :
    f.ReadRight sys offset n ↔ f.ReadFine sys offset n := by
  have hcontent := f.content_lt
  have hzero : f.align ≠ 0 := by rw [halign]; exact (Nat.two_pow_pos k).ne'
  unfold ReadRight ReadFine
  rw [widened_read_at hzero]
  by_cases hsum : offset + n < size
  · rw [read_widened_eq hsum, or_iff_right (by omega)]
    by_cases hwhole : offset - f.start offset = 0 ∧ n % f.align = 0
    · rw [if_pos hwhole, whole_read_right_iff halign hsum hwhole]
      exact (and_iff_right (.inl (aligned_iff.mp hwhole))).symm
    · rw [if_neg hwhole, or_iff_right (mt aligned_iff.mpr hwhole)]
      by_cases hroom : sys.capacity < f.window offset n
      · rw [if_pos hroom]
        refine ⟨?_, fun h => absurd h.1.1 (Nat.not_le_of_lt hroom)⟩
        rintro ⟨⟨b, -, h⟩ | ⟨e, e', -, h⟩, -⟩ <;> cases h
      · rw [if_neg hroom, and_iff_right (Nat.le_of_not_lt hroom), follow_fst, follow_snd]
        exact bounce_read_right_iff halign hk hsum hwhole
  · rw [read_widened_overflow hsum]
    refine ⟨fun _ => .inl (by omega), fun _ => ⟨.inr ?_, fun c hc => absurd hc List.not_mem_nil⟩⟩
    obtain ⟨e, he⟩ := @unaligned_read_at_err sys f offset n (by omega) (by unfold size at hsum; omega)
    exact ⟨e, _, he, rfl⟩

end

/-! ## What a loop of writes leaves -/

theorem put_put {b v : Bytes} {offset n : Nat} (hn : n ≤ v.length) (h : offset + v.length ≤ b.length) :
    (b.put offset (v.take n)).put (offset + n) (v.drop n) = b.put offset v := by
  have hfirst : offset + (v.take n).length ≤ b.length := by
    rw [List.length_take]
    omega
  apply List.ext_getElem?
  intro i
  rw [Bytes.getElem?_put h, Bytes.getElem?_put, Bytes.getElem?_put hfirst, List.length_drop, List.length_take,
    List.getElem?_drop, List.getElem?_take]
  · split
    · rw [if_pos (by omega), show n + (i - (offset + n)) = i - offset by omega]
    · split
      · rw [if_pos (by omega), if_pos (by omega)]
      · rw [if_neg (by omega)]
  · rw [Bytes.length_put hfirst, List.length_drop]
    omega

theorem put_slice {b v : Bytes} {start w skip : Nat} (hv : skip + v.length ≤ w) (hw : start + w ≤ b.length) :
    b.put start ((b.slice start w).put skip v) = b.put (start + skip) v := by
  have hlen : (b.slice start w).length = w := by
    rw [length_slice]
    omega
  have hput : ((b.slice start w).put skip v).length = w := by
    rw [Bytes.length_put (by omega), hlen]
  apply List.ext_getElem?
  intro i
  rw [Bytes.getElem?_put (by omega), Bytes.getElem?_put (by omega), Bytes.getElem?_put (by omega),
    Bytes.getElem?_slice, hput]
  split
  · split
    · rw [if_pos (by omega), show i - start - skip = i - (start + skip) by omega]
    · rw [if_pos (by omega), if_neg (by omega), show start + (i - start) = i by omega]
  · rw [if_neg (by omega)]

theorem pwrite_all_eq {content buf : Bytes} {offset : Nat} (h : offset + buf.length ≤ content.length)
    (hcontent : content.length < 2 ^ 63) :
    (f.pwrite_all sys content offset buf).1 = .ok () ∧
    (f.pwrite_all sys content offset buf).2.1 = content.put offset buf := by
  induction hlen : buf.length using Nat.strong_induction_on generalizing content buf offset with
  | _ len ih =>
    have hmost := sys.most_pos
    unfold pwrite_all
    by_cases hbuf : buf = []
    · rw [if_pos hbuf, hbuf]
      exact ⟨rfl, by simp [Bytes.put]⟩
    · have hpos := List.length_pos_iff.mpr hbuf
      rw [if_neg hbuf, if_neg (by omega)]
      have hput := put_put (Nat.min_le_left buf.length sys.most) h
      have hsize : (content.put offset (buf.take (min buf.length sys.most))).length = content.length := by
        apply Bytes.length_put
        rw [List.length_take]
        omega
      have hdrop : (buf.drop (min buf.length sys.most)).length = buf.length - min buf.length sys.most :=
        List.length_drop
      have hrest := @ih _ (by omega) (content.put offset (buf.take (min buf.length sys.most)))
        (buf.drop (min buf.length sys.most)) (offset + min buf.length sys.most) (by omega) (by omega) rfl
      rw [hput] at hrest
      exact hrest

theorem mem_pwrite_all {content buf : Bytes} {offset : Nat} (hbuf : buf ≠ []) :
    Call.pwrite offset buf.length ∈ (f.pwrite_all sys content offset buf).2.2 := by
  unfold pwrite_all
  rw [if_neg hbuf]
  split
  · simp
  · simp

theorem pwrite_all_aligned {content buf : Bytes} {offset : Nat} (h : offset + buf.length ≤ content.length)
    (hcontent : content.length < 2 ^ 63) (hoffset : f.align ∣ offset) (hbuf : f.align ∣ buf.length) :
    (∀ c ∈ (f.pwrite_all sys content offset buf).2.2, c.Aligned f.align) ↔
      buf.length ≤ sys.most ∨ f.align ∣ sys.most := by
  induction hlen : buf.length using Nat.strong_induction_on generalizing content buf offset with
  | _ len ih =>
    have hmost := sys.most_pos
    have hfirst : (Call.pwrite offset buf.length).Aligned f.align := ⟨hoffset, hbuf⟩
    unfold pwrite_all
    by_cases hnil : buf = []
    · rw [if_pos hnil]
      simp only [List.not_mem_nil, false_implies, implies_true, true_iff]
      rw [hnil, List.length_nil] at hlen
      exact .inl (by omega)
    have hpos := List.length_pos_iff.mpr hnil
    rw [if_neg hnil, if_neg (by omega)]
    simp only [List.mem_cons, forall_eq_or_imp, hfirst, true_and]
    have hsize : (content.put offset (buf.take (min buf.length sys.most))).length = content.length := by
      apply Bytes.length_put
      rw [List.length_take]
      omega
    have hdrop : (buf.drop (min buf.length sys.most)).length = buf.length - min buf.length sys.most :=
      List.length_drop
    by_cases hdvd : f.align ∣ min buf.length sys.most
    · rw [@ih _ (by omega) (content.put offset (buf.take (min buf.length sys.most)))
        (buf.drop (min buf.length sys.most)) (offset + min buf.length sys.most) (by omega) (by omega)
        ((Nat.dvd_add_right hoffset).mpr hdvd) (by rw [hdrop]; exact Nat.dvd_sub hbuf hdvd) rfl]
      rw [hdrop]
      by_cases hone : buf.length ≤ sys.most
      · exact ⟨fun _ => .inl (by omega), fun _ => .inl (by omega)⟩
      · rw [Nat.min_eq_right (by omega)] at hdvd
        exact ⟨fun _ => .inr hdvd, fun _ => .inr hdvd⟩
    · have hmore : ¬ buf.length ≤ sys.most := by
        intro hall
        rw [Nat.min_eq_left hall] at hdvd
        exact hdvd hbuf
      rw [Nat.min_eq_right (by omega)] at hdvd
      constructor
      · intro hall
        have hnext := (hall _ (mem_pwrite_all (List.ne_nil_of_length_pos (by omega)))).1
        rw [Nat.min_eq_right (by omega)] at hnext
        exact absurd ((Nat.dvd_add_right hoffset).mp hnext) hdvd
      · rintro (hone | hone)
        · omega
        · exact absurd hone hdvd

/-! ## Writes -/

/-- The range and nothing else, or an error and nothing. -/
def Wrote (f : FileDevice) (offset : Nat) (buf : Bytes) (r : Outcome Unit × Bytes × List Call) : Prop :=
  (r.1 = .ok () ∧ r.2.1.length = f.content.length ∧ r.2.1.slice offset buf.length = buf ∧
    ∀ i, i < offset ∨ offset + buf.length ≤ i → r.2.1[i]? = f.content[i]?) ∨
  ∃ e, r.1 = .err e ∧ r.2.1 = f.content

def WriteRight (sys : Kernel) (f : FileDevice) (offset : Nat) (buf : Bytes) : Prop :=
  f.Wrote offset buf (f.write_at sys offset buf) ∧ ∀ c ∈ (f.write_at sys offset buf).2.2, c.Aligned f.align

def WriteFine (sys : Kernel) (f : FileDevice) (offset : Nat) (buf : Bytes) : Prop :=
  f.writable = false ∨ buf = [] ∨ f.content.length < offset + buf.length ∨
  (f.align ∣ offset ∧ f.align ∣ buf.length ∨ f.window offset buf.length ≤ sys.capacity) ∧
    f.WholeBlocks sys (f.start offset) (f.window offset buf.length)

instance (offset : Nat) (buf : Bytes) : Decidable (WriteFine sys f offset buf) :=
  inferInstanceAs (Decidable (_ ∨ _ ∨ _ ∨ _ ∧ _))

section

variable {offset k : Nat} {buf : Bytes}

theorem wrote_put {r : Outcome Unit × Bytes × List Call} (h : offset + buf.length ≤ f.content.length)
    (hr : r.1 = .ok ()) (hput : r.2.1 = f.content.put offset buf) : f.Wrote offset buf r := by
  refine .inl ⟨hr, ?_, ?_, ?_⟩
  · rw [hput, Bytes.length_put h]
  · rw [hput, Bytes.slice_put_self h]
  · intro i hi
    rw [hput, Bytes.getElem?_put h, if_neg (by omega)]

theorem wholeBlocks_inside {start n : Nat} (h : start + n ≤ f.content.length) :
    f.WholeBlocks sys start n ↔ n ≤ sys.most ∨ f.align ∣ sys.most := by
  unfold WholeBlocks
  rw [Nat.min_eq_left (by omega)]
  exact and_iff_left (by omega)

theorem write_at_eq (hzero : f.align ≠ 0) (hwritable : f.writable = true) (hbuf : buf ≠ [])
    (hin : offset + buf.length ≤ f.content.length) :
    f.write_at sys offset buf = f.write_widened sys offset buf := by
  have hcontent := f.content_lt
  have hlands : f.lands offset buf.length = .ok () := by
    unfold lands
    rw [f.writable_len hwritable, checked_add, if_pos (by unfold size; omega)]
    exact if_neg (by omega)
  unfold write_at
  rw [if_neg (not_not.mpr hwritable), if_neg hbuf, hlands]
  exact if_neg hzero

theorem write_widened_eq (hsum : offset + buf.length < size) :
    f.write_widened sys offset buf =
      if offset - f.start offset = 0 ∧ buf.length % f.align = 0 then f.pwrite_all sys f.content offset buf
      else if sys.capacity < f.window offset buf.length then (.panic, f.content, [])
      else
        followWrite
          (follow (f.pread sys (f.start offset) (f.window offset buf.length)) fun scratch =>
            (f.check scratch.length (f.window offset buf.length)).bind fun _ => .ok scratch)
          f.content fun scratch =>
            f.pwrite_all sys f.content (f.start offset) (scratch.put (offset - f.start offset) buf) := by
  unfold write_widened
  rw [checked_add, if_pos hsum]

theorem write_refused (h : f.writable = false ∨ buf ≠ [] ∧ f.content.length < offset + buf.length) :
    ∃ e, f.write_at sys offset buf = (.err e, f.content, []) := by
  unfold write_at
  cases hwritable : f.writable with
  | false => exact ⟨_, if_pos (by simp)⟩
  | true =>
    rw [hwritable] at h
    obtain ⟨hbuf, hout⟩ := h.resolve_left (by simp)
    have hlands : f.lands offset buf.length = .err .OutOfBounds := by
      unfold lands
      rw [f.writable_len hwritable]
      by_cases hsum : offset + buf.length < size
      · rw [checked_add, if_pos hsum]
        exact if_pos hout
      · rw [checked_add, if_neg hsum]
    rw [if_neg (by simp), if_neg hbuf, hlands]
    exact ⟨_, rfl⟩

/-- The blocks around the range are read, changed and written, or refused where the file ends in them. -/
theorem bounce_write_right_iff (halign : f.align = 2 ^ k) (hk : k < 64)
    (hin : offset + buf.length ≤ f.content.length) {r : Outcome Unit × Bytes × List Call}
    (hr : r = followWrite
      (follow (f.pread sys (f.start offset) (f.window offset buf.length)) fun scratch =>
        (f.check scratch.length (f.window offset buf.length)).bind fun _ => .ok scratch)
      f.content fun scratch =>
        f.pwrite_all sys f.content (f.start offset) (scratch.put (offset - f.start offset) buf)) :
    (f.Wrote offset buf r ∧ ∀ c ∈ r.2.2, c.Aligned f.align) ↔
      f.WholeBlocks sys (f.start offset) (f.window offset buf.length) := by
  have hcontent := f.content_lt
  have hstart := @start_le f offset
  obtain ⟨hdvd, hwindow⟩ := @window_cases f offset buf.length k halign hk (by unfold size; omega)
  generalize f.window offset buf.length = w at hr hdvd hwindow ⊢
  have hcover : offset - f.start offset + buf.length ≤ w := by omega
  have hread : (f.pread sys (f.start offset) w).1 = .ok (f.content.slice (f.start offset) w) :=
    pread_eq fun _ => by omega
  by_cases hend : f.start offset + w ≤ f.content.length
  · have hlen : (f.content.slice (f.start offset) w).length = w := by
      rw [length_slice]
      omega
    have hput : ((f.content.slice (f.start offset) w).put (offset - f.start offset) buf).length = w := by
      rw [Bytes.length_put (by omega), hlen]
    have hscratch : (follow (f.pread sys (f.start offset) w) fun scratch =>
        (f.check scratch.length w).bind fun _ => .ok scratch).1 = .ok (f.content.slice (f.start offset) w) := by
      rw [follow_fst, hread, Outcome.bind_ok, check_ok (by omega), Outcome.bind_ok]
    obtain ⟨hfst, hcontents, hcalls⟩ := @followWrite_ok _ _ _ _ f.content (fun scratch =>
      f.pwrite_all sys f.content (f.start offset) (scratch.put (offset - f.start offset) buf)) _ hscratch
    rw [← hr] at hfst hcontents hcalls
    obtain ⟨hok, hall⟩ := @pwrite_all_eq sys f f.content
      ((f.content.slice (f.start offset) w).put (offset - f.start offset) buf) (f.start offset)
      (by omega) hcontent
    have hwrote : f.Wrote offset buf r := by
      apply wrote_put hin (hfst.trans hok)
      rw [hcontents, hall, put_slice hcover hend, Nat.add_sub_cancel' hstart]
    rw [hcalls, and_iff_right hwrote]
    have hwrites := @pwrite_all_aligned sys f f.content
      ((f.content.slice (f.start offset) w).put (offset - f.start offset) buf) (f.start offset)
      (by omega) hcontent align_dvd_start (by rwa [hput])
    rw [hput, ← wholeBlocks_inside hend] at hwrites
    simp only [List.mem_append, or_imp, forall_and]
    rw [hwrites, pread_aligned align_dvd_start hdvd, and_self]
  · have hscratch : (follow (f.pread sys (f.start offset) w) fun scratch =>
        (f.check scratch.length w).bind fun _ => .ok scratch).1 = .err (.Io f.path .UnexpectedEof) := by
      rw [follow_fst, hread, Outcome.bind_ok, check_err, Outcome.bind_err]
      rw [length_slice]
      omega
    obtain ⟨hfst, hcontents, hcalls⟩ := @followWrite_err _ _ _ _ f.content (fun scratch =>
      f.pwrite_all sys f.content (f.start offset) (scratch.put (offset - f.start offset) buf)) _ hscratch
    rw [← hr] at hfst hcontents hcalls
    have hwrote : f.Wrote offset buf r := .inr ⟨_, hfst, hcontents⟩
    rw [hcalls, and_iff_right hwrote]
    exact pread_aligned align_dvd_start hdvd

theorem write_right_iff (halign : f.align = 2 ^ k) (hk : k < 64) :
    f.WriteRight sys offset buf ↔ f.WriteFine sys offset buf := by
  have hcontent := f.content_lt
  have hzero : f.align ≠ 0 := by rw [halign]; exact (Nat.two_pow_pos k).ne'
  unfold WriteRight WriteFine
  by_cases hrefused : f.writable = false ∨ buf ≠ [] ∧ f.content.length < offset + buf.length
  · obtain ⟨e, he⟩ := @write_refused sys f offset buf hrefused
    rw [he]
    refine ⟨fun _ => ?_, fun _ => ⟨.inr ⟨e, rfl, rfl⟩, fun c hc => absurd hc List.not_mem_nil⟩⟩
    rcases hrefused with h | h
    · exact .inl h
    · exact .inr (.inr (.inl h.2))
  simp only [not_or, Bool.not_eq_false, not_and, Nat.not_lt] at hrefused
  obtain ⟨hwritable, hin⟩ := hrefused
  rw [or_iff_right (by rw [hwritable]; exact Bool.noConfusion)]
  by_cases hbuf : buf = []
  · have hnothing : f.write_at sys offset buf = (.ok (), f.content, []) := by
      unfold write_at
      rw [if_neg (not_not.mpr hwritable), if_pos hbuf]
    rw [hnothing]
    refine ⟨fun _ => .inl hbuf, fun _ => ⟨.inl ⟨rfl, rfl, ?_, fun _ _ => rfl⟩, ?_⟩⟩
    · rw [hbuf]
      simp [Bytes.slice]
    · exact fun c hc => absurd hc List.not_mem_nil
  have hinside := hin hbuf
  rw [or_iff_right hbuf, or_iff_right (by omega), write_at_eq hzero hwritable hbuf hinside,
    write_widened_eq (by unfold size; omega)]
  by_cases hwhole : offset - f.start offset = 0 ∧ buf.length % f.align = 0
  · obtain ⟨hoffset, hn⟩ := aligned_iff.mp hwhole
    obtain ⟨hstart, hwindow⟩ := @window_aligned f offset buf.length k halign (by unfold size; omega) hoffset hn
    obtain ⟨hok, hall⟩ := @pwrite_all_eq sys f f.content buf offset hinside hcontent
    rw [if_pos hwhole, and_iff_right (wrote_put hinside hok hall), hstart, hwindow,
      and_iff_right (.inl ⟨hoffset, hn⟩), wholeBlocks_inside hinside]
    exact pwrite_all_aligned hinside hcontent hoffset hn
  · rw [if_neg hwhole, or_iff_right (mt aligned_iff.mpr hwhole)]
    by_cases hroom : sys.capacity < f.window offset buf.length
    · rw [if_pos hroom]
      refine ⟨?_, fun h => absurd h.1 (Nat.not_le_of_lt hroom)⟩
      rintro ⟨⟨h, -⟩ | ⟨e, h, -⟩, -⟩ <;> cases h
    · rw [if_neg hroom, and_iff_right (Nat.le_of_not_lt hroom)]
      exact bounce_write_right_iff halign hk hinside rfl

/-- The widened device reads what the plain one reads and writes exactly its range, in whole blocks, in
exactly these cases. -/
theorem widened_right_iff (sys : Kernel) (f : FileDevice) (k : Nat) (hk : k < 64) (halign : f.align = 2 ^ k) :
    (∀ offset n, offset < size → (f.ReadRight sys offset n ↔ f.ReadFine sys offset n)) ∧
    ∀ offset buf, f.WriteRight sys offset buf ↔ f.WriteFine sys offset buf :=
  ⟨fun _ _ hoffset => read_right_iff halign hk hoffset, fun _ _ => write_right_iff halign hk⟩

/-- What Linux moves in one call, and a tebibyte of memory. -/
def linux : Kernel := ⟨0x7ffff000, 2 ^ 40, by decide, by decide⟩

/-- Two blocks of four bytes. -/
def eight : FileDevice := ⟨"eight", [1, 2, 3, 4, 5, 6, 7, 8], some 8, 4, true, by decide, fun _ => rfl⟩

theorem widened_right_eight : eight.ReadRight linux 2 3 ∧ eight.WriteRight linux 3 [9, 9] := by
  have h := widened_right_iff linux eight 2 (by decide) rfl
  exact ⟨(h.1 2 3 (by decide +kernel)).mpr (by decide +kernel), (h.2 3 [9, 9]).mpr (by decide +kernel)⟩

/-- The second block is cut short. -/
def five : FileDevice := ⟨"five", [1, 2, 3, 4, 5], some 5, 4, false, by decide, by simp⟩

/-- The loop asks once more from where the file ends, in the middle of a block. -/
theorem five_asked_unaligned : ¬ five.ReadRight linux 2 3 := by
  rw [@read_right_iff linux five 2 3 2 rfl (by decide) (by decide +kernel)]
  decide +kernel

end

end FileDevice

end LuksAndroid
