import LuksAndroid.Luks.Refine
import LuksAndroid.Usb.Block

/-!
# The block device is a byte array

On a drive that executes reads and writes of blocks, requests at any offset and of any
length are reads and writes of one byte array, however they are cut into commands.
-/

namespace LuksAndroid.Usb

open Word
open Bytes (be unbe)

namespace Model

variable (M : Model)

/-- The capacity that `open` finds. -/
def capacity : Capacity := ⟨M.blocks, M.block_size⟩

/-- The most that one command may move. -/
def limit : Nat := max M.block_size (min M.max_transfer MAX_SCSI_TRANSFER)

/-- A command on the bus moves blocks of the drive, as many as it says, and uses the short form only when
the whole range fits. -/
def Proper (e : Event) : Prop :=
  ∀ data n, e = .wrote .Command data n → ∃ cbw x, parse_cbw data = some cbw ∧ Transfer.decode cbw.cdb = some x ∧
    0 < x.count ∧ x.lba + x.count ≤ M.blocks ∧ cbw.data_transfer_length.toNat = x.count * M.block_size ∧
    x.count * M.block_size ≤ M.limit ∧
    (cbw.cdb.length = 10 → x.lba + x.count ≤ READ10_MAX_LBA + 1 ∧ x.count ≤ READ10_MAX_BLOCKS)

end Model

/-- The record grows by such events only. -/
def Grows {σ : Type} (P : Event → Prop) (b b' : Bus σ) : Prop := ∃ new, b'.log = b.log ++ new ∧ ∀ e ∈ new, P e

theorem Grows.refl {σ : Type} {P : Event → Prop} (b : Bus σ) : Grows P b b :=
  ⟨[], (List.append_nil _).symm, fun _ he => absurd he List.not_mem_nil⟩

theorem Grows.trans {σ : Type} {P : Event → Prop} {b b' b'' : Bus σ} (h : Grows P b b') (h' : Grows P b' b'') :
    Grows P b b'' := by
  obtain ⟨new, hlog, hnew⟩ := h
  obtain ⟨new', hlog', hnew'⟩ := h'
  refine ⟨new ++ new', by rw [hlog', hlog, List.append_assoc], fun e he => ?_⟩
  rcases List.mem_append.mp he with he | he
  · exact hnew e he
  · exact hnew' e he

/-- On a drive with these bytes that waits for a command, the computation ends with a value and leaves the drive
waiting, with other bytes perhaps. -/
def Does {α : Type} (P : Event → Prop) (x : BusM (Link (Nat → UInt8)) α) (m : Nat → UInt8) (a : α) (m' : Nat → UInt8) :
    Prop :=
  ∀ b, b.state = ⟨m, .idle⟩ → ∃ b', x b = .ok a b' ∧ b'.state = ⟨m', .idle⟩ ∧ Grows P b b'

section

variable {P : Event → Prop} {α β : Type} {m m' m'' : Nat → UInt8} {a : α}

theorem Does.pure (a : α) (m : Nat → UInt8) : Does P (pure a) m a m :=
  fun b hb => ⟨b, rfl, hb, .refl b⟩

theorem Does.bind {x : BusM (Link (Nat → UInt8)) α} {f : α → BusM (Link (Nat → UInt8)) β} {c : β}
    (hx : Does P x m a m') (hf : Does P (f a) m' c m'') : Does P (x >>= f) m c m'' := by
  intro b hb
  obtain ⟨b₁, hrun, hb₁, hgrows⟩ := hx b hb
  obtain ⟨b₂, hrun₂, hb₂, hgrows₂⟩ := hf b₁ hb₁
  exact ⟨b₂, (Run.bind_eq_of_ok hrun f).trans hrun₂, hb₂, hgrows.trans hgrows₂⟩

end

/-! ## Commands that move blocks -/

section

variable {M : Model} {b b' : Bus (Link (Nat → UInt8))} {m m' : Nat → UInt8} {lba count : Nat}

/-- Some blocks of the drive, no more than one command may move. -/
structure Model.Span (M : Model) (lba count : Nat) : Prop where
  pos : 0 < count
  size_pos : 0 < M.block_size
  inside : lba + count ≤ M.blocks
  small : count * M.block_size ≤ M.limit

theorem Model.limit_lt (M : Model) : M.limit < 2 ^ 32 := by
  have := M.size_lt
  unfold limit MAX_SCSI_TRANSFER
  omega

theorem Model.Span.bytes_lt (h : M.Span lba count) : count * M.block_size < 2 ^ 32 := lt_of_le_of_lt h.small M.limit_lt

theorem Model.Span.bytes_pos (h : M.Span lba count) : 0 < count * M.block_size := Nat.mul_pos h.pos h.size_pos

theorem Model.Span.count_lt (h : M.Span lba count) : count < 2 ^ 32 :=
  lt_of_le_of_lt (Nat.le_mul_of_pos_right count h.size_pos) h.bytes_lt

theorem Model.Span.lba_lt (h : M.Span lba count) : lba < 2 ^ 64 := by
  have := h.pos
  have := h.inside
  have := M.blocks_le
  omega

theorem Model.Span.decode (h : M.Span lba count) (writes : Bool) :
    Transfer.decode (rw_cdb (transferOps writes).1 (transferOps writes).2 lba count) = some ⟨writes, lba, count⟩ :=
  decode_rw_cdb writes h.pos h.count_lt h.lba_lt

theorem rw_cdb_pos (op_10 op_16 : UInt8) (lba count : Nat) : 0 < (rw_cdb op_10 op_16 lba count).length := by
  rcases length_rw_cdb op_10 op_16 lba count with ⟨h, -⟩ | h <;> omega

theorem rw_cdb_le (op_10 op_16 : UInt8) (lba count : Nat) : (rw_cdb op_10 op_16 lba count).length ≤ MAX_CDB_LEN := by
  unfold MAX_CDB_LEN
  rcases length_rw_cdb op_10 op_16 lba count with ⟨h, -⟩ | h <;> omega

theorem Issued.grows {direction : Direction} {data : Bytes} (h : M.Span lba count) (writes : Bool)
    (hlen : data.length = count * M.block_size)
    (hissued : Issued b (rw_cdb (transferOps writes).1 (transferOps writes).2 lba count) direction data m' b') :
    Grows M.Proper b b' := by
  obtain ⟨op, enc, new, henc, hlog, hquiet⟩ := hissued.log
  refine ⟨_, hlog, fun e he => ?_⟩
  intro bytes n hwrote
  rcases List.mem_cons.mp he with rfl | he
  · cases hwrote
  · rcases List.mem_cons.mp he with rfl | he
    · cases hwrote
      have hnat : (UInt32.ofNat data.length).toNat = count * M.block_size := by
        rw [UInt32.toNat_ofNat', hlen, Nat.mod_eq_of_lt h.bytes_lt]
      refine ⟨_, ⟨writes, lba, count⟩, parse_cbw_encode rfl henc, h.decode writes, h.pos, h.inside, hnat, h.small, ?_⟩
      intro hten
      simp only [CommandBlockWrapper.new] at hten
      rcases length_rw_cdb (transferOps writes).1 (transferOps writes).2 lba count with ⟨-, hrange⟩ | hlong
      · exact hrange
      · omega
    · exact absurd hwrote ((hquiet e he).2.2 bytes n)

theorem read_blocks_does (h : M.Span lba count) {buf : Bytes} (hbuf : buf.length = count * M.block_size) :
    Does M.Proper (read_blocks M.drive.transport M.capacity lba count buf) m
      (count * M.block_size, load m (lba * M.block_size) (count * M.block_size)) m := by
  intro b hb
  have hlt := h.bytes_lt
  have hnat : (UInt32.ofNat buf.length).toNat = count * M.block_size := by
    rw [UInt32.toNat_ofNat', hbuf, Nat.mod_eq_of_lt hlt]
  have hanswer : M.drive.answer m (seenCbw b.tag (rw_cdb OP_READ_10 OP_READ_16 lba count) .In buf) =
      M.sends (load m (lba * M.block_size) (count * M.block_size)) := by
    have hdec := h.decode false
    simp only [transferOps, Bool.false_eq_true, if_false] at hdec
    simp only [Model.drive, Model.answer, seenCbw, CommandBlockWrapper.new, hdec, hnat]
    rw [if_pos ⟨h.inside, rfl⟩, if_neg Bool.false_ne_true]
  have hfinish : M.drive.finish m (seenCbw b.tag (rw_cdb OP_READ_10 OP_READ_16 lba count) .In buf) [] = m := by
    have hdec := h.decode false
    simp only [transferOps, Bool.false_eq_true, if_false] at hdec
    simp only [Model.drive, Model.finish, seenCbw, CommandBlockWrapper.new, hdec]
    rw [if_neg]
    rintro ⟨hw, -⟩
    exact Bool.false_ne_true hw
  obtain ⟨b', hrun, hissued⟩ := exchange_in M.drive (rw_cdb_pos OP_READ_10 OP_READ_16 lba count)
    (rw_cdb_le _ _ _ _) "phase error" (sense_if M.drive.transport true) hb (hbuf ▸ hlt) (hbuf ▸ h.bytes_pos) hanswer rfl
    (by simp [Model.sends, hbuf]) rfl rfl
  refine ⟨b', ?_, ?_, Issued.grows h false hbuf hissued⟩
  · have hcommand : command M.drive.transport (rw_cdb OP_READ_10 OP_READ_16 lba count) .In
        (buf.take (count * M.block_size)) b =
          .ok (count * M.block_size, load m (lba * M.block_size) (count * M.block_size)) b' := by
      rw [← hbuf, List.take_length, command, command_inner, hrun]
      simp [Model.sends, hbuf]
    have hroom : ¬ buf.length < count * M.capacity.block_size := not_lt.mpr hbuf.ge
    unfold read_blocks
    rw [if_neg hroom]
    change (command M.drive.transport _ _ (buf.take (count * M.block_size)) >>= _) b = _
    rw [Run.bind_eq_of_ok hcommand]
    have hput : Bytes.put buf 0 (load m (lba * M.block_size) (count * M.block_size)) =
        load m (lba * M.block_size) (count * M.block_size) := by
      simp [Bytes.put, hbuf]
    change EStateM.Result.ok (count * M.block_size, Bytes.put buf 0 _) b' = _
    rw [hput]
  · rw [hissued.state, hfinish]

theorem write_blocks_does (h : M.Span lba count) {buf : Bytes} (hbuf : buf.length = count * M.block_size) :
    Does M.Proper (write_blocks M.drive.transport M.capacity lba count buf) m (count * M.block_size)
      (store m (lba * M.block_size) buf) := by
  intro b hb
  have hlt := h.bytes_lt
  have hnat : (UInt32.ofNat buf.length).toNat = count * M.block_size := by
    rw [UInt32.toNat_ofNat', hbuf, Nat.mod_eq_of_lt hlt]
  have hdec := h.decode true
  simp only [transferOps, if_true] at hdec
  have hanswer : M.drive.answer m (seenCbw b.tag (rw_cdb OP_WRITE_10 OP_WRITE_16 lba count) .Out buf) =
      M.takes (count * M.block_size) := by
    simp only [Model.drive, Model.answer, seenCbw, CommandBlockWrapper.new, hdec, hnat]
    rw [if_pos ⟨h.inside, rfl⟩]
    rfl
  have hfinish : M.drive.finish m (seenCbw b.tag (rw_cdb OP_WRITE_10 OP_WRITE_16 lba count) .Out buf) buf =
      store m (lba * M.block_size) buf := by
    simp only [Model.drive, Model.finish, seenCbw, CommandBlockWrapper.new, hdec, hnat]
    rw [if_pos ⟨trivial, ⟨h.inside, rfl⟩, hbuf⟩]
  obtain ⟨b', hrun, hissued⟩ := exchange_out M.drive (rw_cdb_pos OP_WRITE_10 OP_WRITE_16 lba count)
    (rw_cdb_le _ _ _ _) "CSW phase error" (sense_if M.drive.transport true) hb (hbuf ▸ hlt) (hbuf ▸ h.bytes_pos) hanswer
    (by simp [Model.takes, hbuf]) rfl rfl
  refine ⟨b', ?_, ?_, Issued.grows h true hbuf hissued⟩
  · have hroom : ¬ buf.length < count * M.capacity.block_size := not_lt.mpr hbuf.ge
    have htake : buf.take (count * M.capacity.block_size) = buf := List.take_of_length_le hbuf.le
    unfold write_blocks
    rw [if_neg hroom, htake, command_out, command_out_inner]
    change (exchange _ _ _ _ _ _ >>= _) b = _
    rw [Run.bind_eq_of_ok hrun, hbuf]
    rfl
  · rw [hissued.state, hfinish]

end

/-! ## What `open` finds -/

section

variable {M : Model} {m : Nat → UInt8} {cdb : Bytes}

theorem command_asks (hpos : 0 < cdb.length) (hmax : cdb.length ≤ MAX_CDB_LEN) (hdec : Transfer.decode cdb = none)
    {buf data : Bytes} (hbuf : 0 < buf.length) (hlen : buf.length < 2 ^ 32) (hdata : data.length = buf.length)
    (hother : ∀ tag, M.other (seenCbw tag cdb .In buf) = M.sends data) :
    Does (fun _ => True) (command M.drive.transport cdb .In buf) m (buf.length, data) m := by
  intro b hb
  have hanswer : M.drive.answer m (seenCbw b.tag cdb .In buf) = M.sends data := by
    rw [← hother b.tag]
    simp only [Model.drive, Model.answer, seenCbw, CommandBlockWrapper.new, hdec]
  have hfinish : M.drive.finish m (seenCbw b.tag cdb .In buf) [] = m := by
    simp only [Model.drive, Model.finish, seenCbw, CommandBlockWrapper.new, hdec]
  obtain ⟨b', hrun, hissued⟩ := exchange_in M.drive hpos hmax "phase error" (sense_if M.drive.transport true) hb hlen
    hbuf hanswer rfl hdata rfl rfl
  obtain ⟨op, enc, new, -, hlog, -⟩ := hissued.log
  exact ⟨b', hrun, by rw [hissued.state, hfinish], _, hlog, fun _ _ => trivial⟩

theorem inquiry_does : Does (fun _ => True) (inquiry M.drive.transport) m (List.replicate 36 0) m := by
  refine .bind (command_asks (by decide) (by decide) (by decide) (by simp) (by simp) rfl fun tag => ?_) (.pure _ _)
  rfl

theorem test_unit_ready_does : Does (fun _ => True) (test_unit_ready M.drive.transport) m () m := by
  refine .bind (a := (0, [])) ?_ (.pure _ _)
  intro b hb
  have hpos : 0 < [OP_TEST_UNIT_READY, 0, 0, 0, 0, 0].length := by decide
  obtain ⟨b', hrun, hissued⟩ := exchange_none M.drive (r := M.takes 0) hpos (by decide) "phase error"
    (sense_if M.drive.transport true) hb rfl rfl rfl
  obtain ⟨op, enc, new, -, hlog, -⟩ := hissued.log
  exact ⟨b', hrun, hissued.state, _, hlog, fun _ _ => trivial⟩

theorem wait_ready_does (tries : Nat) : Does (fun _ => True) (wait_ready M.drive.transport tries) m () m := by
  cases tries with
  | zero => exact .pure _ _
  | succ tries =>
    refine .bind (a := .ok ()) ?_ (.pure _ _)
    intro b hb
    obtain ⟨b', hrun, hrest⟩ := test_unit_ready_does (M := M) b hb
    refine ⟨b', ?_, hrest⟩
    rw [Run.attempt, hrun]

theorem unbe_first {w v n : Nat} (h : v < 256 ^ w) (rest : Bytes) (hn : n = w) :
    unbe (Bytes.slice (be w v ++ rest) 0 n) = v := by
  rw [hn, Bytes.slice, List.drop_zero, List.take_left' (Bytes.length_be w v), Bytes.unbe_be h]

/-- What `open` has made sure of. -/
structure Model.Sized (M : Model) : Prop where
  size_pos : 0 < M.block_size
  bytes_lt : M.blocks * M.block_size < size

theorem read_capacity_16_ok {b b' : Bus (Link (Nat → UInt8))} {cap : Capacity} (hb : b.state = ⟨m, .idle⟩)
    (hrun : read_capacity_16 M.drive.transport b = .ok cap b') :
    cap = M.capacity ∧ M.blocks * M.block_size < size ∧ b'.state = ⟨m, .idle⟩ := by
  have hblocks := M.blocks_le
  have hpos := M.pos
  have hsize := M.size_lt
  have hask : Does (fun _ => True) (command M.drive.transport (Bytes.patch (List.replicate 16 0)
      [(0, [OP_READ_CAPACITY_16]), (1, [SA_READ_CAPACITY_16]), (13, [32])]) .In (List.replicate 32 0)) m
      (32, be 8 (M.blocks - 1) ++ be 4 M.block_size ++ List.replicate 20 0) m :=
    command_asks (by decide) (by decide) (by decide) (by simp) (by simp) (by simp) fun tag => rfl
  obtain ⟨b₁, hcommand, hb₁, -⟩ := hask b hb
  unfold read_capacity_16 at hrun
  rw [Run.bind_eq_of_ok hcommand] at hrun
  have hlast : unbe (Bytes.slice (be 8 (M.blocks - 1) ++ be 4 M.block_size ++ List.replicate 20 0) 0 8) =
      M.blocks - 1 := by
    rw [List.append_assoc]
    exact unbe_first (by omega) _ rfl
  have hblock : unbe (Bytes.slice (be 8 (M.blocks - 1) ++ be 4 M.block_size ++ List.replicate 20 0) 8 4) =
      M.block_size := by
    rw [Bytes.slice, List.append_assoc, List.drop_left' (Bytes.length_be _ _)]
    exact unbe_first (by omega) _ rfl
  simp only [hlast, hblock] at hrun
  cases hadd : checked_add (M.blocks - 1) 1 with
  | none =>
    simp only [hadd] at hrun
    cases hrun
  | some blocks =>
    obtain ⟨rfl, -⟩ := checked_add_eq_some hadd
    simp only [hadd] at hrun
    cases hmul : checked_mul (M.blocks - 1 + 1) M.block_size with
    | none =>
      simp only [hmul] at hrun
      cases hrun
    | some bytes =>
      obtain ⟨-, hlt⟩ := checked_mul_eq_some hmul
      simp only [hmul] at hrun
      obtain ⟨rfl, rfl⟩ := Run.pure_ok.mp hrun
      rw [Nat.sub_add_cancel hpos] at hlt ⊢
      exact ⟨rfl, hlt, hb₁⟩

theorem read_capacity_ok {b b' : Bus (Link (Nat → UInt8))} {cap : Capacity} (hb : b.state = ⟨m, .idle⟩)
    (hrun : read_capacity M.drive.transport b = .ok cap b') :
    cap = M.capacity ∧ M.blocks * M.block_size < size ∧ b'.state = ⟨m, .idle⟩ := by
  have hpos := M.pos
  have hsize := M.size_lt
  have hask : Does (fun _ => True) (command M.drive.transport (Bytes.patch (List.replicate 10 0)
      [(0, [OP_READ_CAPACITY_10])]) .In (List.replicate 8 0)) m
      (8, be 4 (min (M.blocks - 1) (2 ^ 32 - 1)) ++ be 4 M.block_size) m :=
    command_asks (by decide) (by decide) (by decide) (by simp) (by simp) (by simp) fun tag => rfl
  obtain ⟨b₁, hcommand, hb₁, -⟩ := hask b hb
  unfold read_capacity at hrun
  rw [Run.bind_eq_of_ok hcommand] at hrun
  have hlast : unbe (Bytes.slice (be 4 (min (M.blocks - 1) (2 ^ 32 - 1)) ++ be 4 M.block_size) 0 4) =
      min (M.blocks - 1) (2 ^ 32 - 1) := unbe_first (by omega) _ rfl
  have hblock : unbe (Bytes.slice (be 4 (min (M.blocks - 1) (2 ^ 32 - 1)) ++ be 4 M.block_size) 4 4) =
      M.block_size := by
    rw [Bytes.slice, List.drop_left' (Bytes.length_be _ _), List.take_of_length_le (Bytes.length_be _ _).le]
    exact Bytes.unbe_be (by omega)
  simp only [hlast, hblock] at hrun
  split at hrun
  · exact read_capacity_16_ok hb₁ hrun
  · rename_i hshort
    obtain ⟨rfl, rfl⟩ := Run.pure_ok.mp hrun
    -- the short answer was exact, and 32 bits of blocks of 32 bits stay within a word
    have hfew : min (M.blocks - 1) (2 ^ 32 - 1) + 1 = M.blocks := by omega
    rw [hfew]
    refine ⟨rfl, ?_, hb₁⟩
    have hmul : M.blocks * M.block_size ≤ (2 ^ 32 - 1) * (2 ^ 32 - 1) := Nat.mul_le_mul (by omega) (by omega)
    have hword : (2 ^ 32 - 1) * (2 ^ 32 - 1) < size := by norm_num [size]
    exact hmul.trans_lt hword

theorem open_device_ok {b b' : Bus (Link (Nat → UInt8))} {cap : Capacity} (hb : b.state = ⟨m, .idle⟩)
    (hrun : open_device M.drive.transport b = .ok cap b') :
    cap = M.capacity ∧ M.Sized ∧ b'.state = ⟨m, .idle⟩ := by
  unfold open_device at hrun
  obtain ⟨b₁, hinquiry, hb₁, -⟩ := inquiry_does (M := M) b hb
  rw [Run.bind_eq_of_ok hinquiry, if_neg (by decide)] at hrun
  dsimp only at hrun
  obtain ⟨b₂, hready, hb₂, -⟩ := wait_ready_does (M := M) 3 b₁ hb₁
  rw [Run.bind_eq_of_ok hready] at hrun
  obtain ⟨cap', b₃, hcap, hrun⟩ := Run.bind_ok.mp hrun
  obtain ⟨rfl, hlt, hb₃⟩ := read_capacity_ok hb₂ hcap
  split at hrun
  · exact absurd hrun Run.throw_bind_ok
  · rename_i hsize
    obtain ⟨rfl, rfl⟩ := Run.pure_ok.mp hrun
    exact ⟨rfl, ⟨Nat.pos_of_ne_zero (not_or.mp hsize).1, hlt⟩, hb₃⟩

end

/-! ## Requests -/

section

variable {M : Model} {m : Nat → UInt8} {offset : Nat}

theorem Model.Sized.bytes (h : M.Sized) : M.capacity.bytes = M.blocks * M.block_size := wrapping_mul_of_lt h.bytes_lt

theorem Model.max_blocks_le (M : Model) (s : Link (Nat → UInt8)) :
    max_blocks M.drive.transport M.capacity s * M.block_size ≤ M.limit := by
  have hdiv := Nat.div_mul_le_self (min M.max_transfer MAX_SCSI_TRANSFER) M.block_size
  rcases le_total (min (min M.max_transfer MAX_SCSI_TRANSFER / M.block_size) READ10_MAX_BLOCKS) 1 with hle | hle
  · have hone : max_blocks M.drive.transport M.capacity s = 1 := max_eq_left hle
    rw [hone, Nat.one_mul]
    exact le_max_left _ _
  · have hmany : max_blocks M.drive.transport M.capacity s =
        min (min M.max_transfer MAX_SCSI_TRANSFER / M.block_size) READ10_MAX_BLOCKS := max_eq_right hle
    rw [hmany]
    calc _ ≤ min M.max_transfer MAX_SCSI_TRANSFER / M.block_size * M.block_size :=
          Nat.mul_le_mul_right _ (min_le_left _ _)
      _ ≤ min M.max_transfer MAX_SCSI_TRANSFER := hdiv
      _ ≤ M.limit := le_max_right _ _

theorem Model.Sized.next_span (h : M.Sized) (s : Link (Nat → UInt8)) (pos remaining : Nat) (hrem : 0 < remaining)
    (hend : pos + remaining ≤ M.blocks * M.block_size) :
    M.Span (pos / M.block_size)
        (next_blocks M.capacity (max_blocks M.drive.transport M.capacity s) (pos % M.block_size) remaining) ∧
      pos % M.block_size <
        next_blocks M.capacity (max_blocks M.drive.transport M.capacity s) (pos % M.block_size) remaining *
          M.block_size := by
  have hsize := h.size_pos
  have hmod := Nat.mod_lt pos hsize
  have hpos : pos / M.block_size * M.block_size + pos % M.block_size = pos := by
    rw [Nat.mul_comm]
    exact Nat.div_add_mod _ _
  obtain ⟨n, hn⟩ : ∃ n, next_blocks M.capacity (max_blocks M.drive.transport M.capacity s) (pos % M.block_size)
      remaining = n := ⟨_, rfl⟩
  have hle : n ≤ max_blocks M.drive.transport M.capacity s := hn ▸ min_le_right _ _
  have hceil : n ≤ div_ceil (pos % M.block_size + remaining) M.block_size := hn ▸ min_le_left _ _
  have hone : 0 < n := by
    have hone : 0 < max_blocks M.drive.transport M.capacity s := Nat.lt_of_lt_of_le Nat.one_pos (le_max_left _ _)
    have hsome : 0 < div_ceil (pos % M.block_size + remaining) M.block_size := by
      rw [lt_div_ceil hsize]
      omega
    rw [← hn]
    exact lt_min hsome hone
  have hinside : pos / M.block_size + n ≤ M.blocks := by
    by_contra hout
    have hlt : M.blocks - pos / M.block_size < div_ceil (pos % M.block_size + remaining) M.block_size := by omega
    rw [lt_div_ceil hsize, Nat.sub_mul] at hlt
    omega
  rw [hn]
  refine ⟨⟨hone, hsize, hinside, (Nat.mul_le_mul_right _ hle).trans (M.max_blocks_le s)⟩, ?_⟩
  exact hmod.trans_le (Nat.le_mul_of_pos_left _ hone)

theorem read_rounds_does (h : M.Sized) (s : Link (Nat → UInt8)) {len : Nat}
    (hend : offset + len ≤ M.blocks * M.block_size) (rounds : Nat) {done : Nat} (hdone : done ≤ len)
    (hrounds : len - done ≤ rounds) :
    Does M.Proper (read_rounds M.drive.transport M.capacity
    (max_blocks M.drive.transport M.capacity s) offset len rounds
      (load m offset done)) m (load m offset len) m := by
  induction rounds generalizing done with
  | zero =>
    obtain rfl : done = len := by omega
    exact .pure _ _
  | succ rounds ih =>
    unfold read_rounds
    rw [length_load]
    by_cases hmore : done < len
    · obtain ⟨hspan, hwithin⟩ := h.next_span s (offset + done) (len - done) (by omega) (by omega)
      have hpos := Nat.div_add_mod (offset + done) M.block_size
      rw [Nat.mul_comm] at hpos
      have hcap : M.capacity.block_size = M.block_size := rfl
      simp only [hmore, not_true_eq_false, if_false, hcap]
      generalize next_blocks M.capacity (max_blocks M.drive.transport M.capacity s) ((offset + done) % M.block_size)
        (len - done) = n at hspan hwithin
      rw [Nat.mod_eq_of_lt hspan.count_lt]
      refine .bind (read_blocks_does hspan List.length_replicate) ?_
      simp only [lt_self_iff_false, if_false]
      rw [slice_load _ (by omega), hpos, ← load_add]
      exact ih (by omega) (by omega)
    · obtain rfl : done = len := by omega
      simp only [hmore, not_false_eq_true, if_true]
      exact .pure _ _

/-- One command writes its part, and what shares its blocks stays. -/
theorem put_blocks_does {lba blocks within : Nat} (h : M.Span lba blocks) {data : Bytes}
    (hfit : within + data.length ≤ blocks * M.block_size) :
    Does M.Proper (put_blocks M.drive.transport M.capacity lba blocks within data) m (blocks * M.block_size)
      (store m (lba * M.block_size + within) data) := by
  have hcap : M.capacity.block_size = M.block_size := rfl
  unfold put_blocks
  simp only [hcap, Nat.mod_eq_of_lt h.count_lt]
  by_cases hpart : within ≠ 0 ∨ data.length ≠ blocks * M.block_size
  · rw [if_pos hpart]
    refine .bind (read_blocks_does h List.length_replicate) ?_
    simp only [lt_self_iff_false, if_false]
    rw [← store_put_load m hfit]
    refine write_blocks_does h ?_
    rw [Bytes.length_put (by rwa [length_load]), length_load]
  · rw [if_neg hpart]
    have hzero : within = 0 := by omega
    rw [hzero, Nat.add_zero]
    exact write_blocks_does h (by omega)

theorem write_rounds_does (h : M.Sized) (s : Link (Nat → UInt8)) {buf : Bytes}
    (hend : offset + buf.length ≤ M.blocks * M.block_size) (rounds : Nat) {done : Nat} (hdone : done ≤ buf.length)
    (hrounds : buf.length - done ≤ rounds) :
    Does M.Proper (write_rounds M.drive.transport M.capacity
    (max_blocks M.drive.transport M.capacity s) offset buf rounds done)
      (store m offset (buf.take done)) () (store m offset buf) := by
  induction rounds generalizing done with
  | zero =>
    have hall : buf.take done = buf := List.take_of_length_le (by omega)
    rw [hall]
    exact .pure _ _
  | succ rounds ih =>
    unfold write_rounds
    by_cases hmore : done < buf.length
    · obtain ⟨hspan, hwithin⟩ := h.next_span s (offset + done) (buf.length - done) (by omega)
        (by omega)
      have hpos := Nat.div_add_mod (offset + done) M.block_size
      rw [Nat.mul_comm] at hpos
      have hcap : M.capacity.block_size = M.block_size := rfl
      simp only [hmore, not_true_eq_false, if_false, hcap]
      generalize next_blocks M.capacity (max_blocks M.drive.transport M.capacity s) ((offset + done) % M.block_size)
        (buf.length - done) = n at hspan hwithin
      obtain ⟨take, htake⟩ : ∃ take, min (n * M.block_size - (offset + done) % M.block_size) (buf.length - done) =
        take :=
        ⟨_, rfl⟩
      rw [htake]
      have hlen : (Bytes.slice buf done take).length = take := by
        rw [Bytes.slice, List.length_take, List.length_drop]
        omega
      refine .bind (put_blocks_does hspan (by omega)) ?_
      simp only [lt_self_iff_false, if_false]
      have htaken : (buf.take done).length = done := List.length_take_of_le hdone
      have hstore := store_append m offset (buf.take done) (Bytes.slice buf done take)
      rw [htaken, Bytes.slice, ← List.take_add] at hstore
      rw [hpos, Bytes.slice, hstore]
      exact ih (by omega) (by omega)
    · have hall : buf.take done = buf := List.take_of_length_le (by omega)
      simp only [hmore, not_false_eq_true, if_true]
      rw [hall]
      exact .pure _ _

theorem check_range_eq (h : M.Sized) (offset len : Nat) :
    check_range M.capacity offset len =
      if offset + len ≤ M.blocks * M.block_size then .ok () else .error .OutOfBounds := by
  have hlt := h.bytes_lt
  unfold check_range checked_add
  rw [h.bytes]
  by_cases hfit : offset + len ≤ M.blocks * M.block_size
  · rw [if_pos hfit, if_pos (by omega)]
    exact if_neg (not_lt.mpr hfit)
  · rw [if_neg hfit]
    split
    · rename_i hsum
      split at hsum
      · cases hsum
      · rfl
    · rename_i stop hsum
      split at hsum
      · cases hsum
        exact if_pos (not_le.mp hfit)
      · cases hsum

/-- Every byte of the range is on the drive. -/
def Model.Holds (M : Model) (offset len : Nat) : Prop := ∀ i < len, offset + i < M.blocks * M.block_size

instance (offset len : Nat) : Decidable (M.Holds offset len) := inferInstanceAs (Decidable (∀ i < len, _))

theorem Model.holds_iff (M : Model) (offset len : Nat) :
    M.Holds offset len ↔ len = 0 ∨ offset + len ≤ M.blocks * M.block_size := by
  unfold Holds
  constructor
  · intro h
    rcases Nat.eq_zero_or_pos len with hzero | hpos
    · exact .inl hzero
    · have := h (len - 1) (by omega)
      omega
  · rintro (rfl | hend) i hi
    · omega
    · omega

theorem read_at_does (h : M.Sized) {len : Nat} (hin : M.Holds offset len) :
    Does M.Proper (read_at M.drive.transport M.capacity offset len) m (load m offset len) m := by
  unfold read_at
  by_cases hzero : len = 0
  · rw [if_pos hzero, hzero]
    exact .pure _ _
  · have hend := ((M.holds_iff _ _).mp hin).resolve_left hzero
    rw [if_neg hzero, check_range_eq h, if_pos hend]
    intro b hb
    exact read_rounds_does h b.state hend len (Nat.zero_le _) (Nat.sub_le _ _) b hb

theorem write_at_does (h : M.Sized) {buf : Bytes} (hin : M.Holds offset buf.length) :
    Does M.Proper (write_at M.drive.transport M.capacity offset buf) m () (store m offset buf) := by
  unfold write_at
  by_cases hnil : buf = []
  · subst hnil
    rw [store_nil]
    exact .pure _ _
  · have hend := ((M.holds_iff _ _).mp hin).resolve_left (mt List.length_eq_zero_iff.mp hnil)
    have hsome : ¬ buf.isEmpty = true := mt List.isEmpty_iff.mp hnil
    rw [if_neg hsome, check_range_eq h, if_pos hend]
    intro b hb
    have hrun := write_rounds_does (m := m) h b.state hend buf.length (Nat.zero_le _) (Nat.sub_le _ _)
    rw [List.take_zero, store_nil] at hrun
    exact hrun b hb

theorem read_at_outside (h : M.Sized) {len : Nat} (hout : ¬ M.Holds offset len) (b : Bus (Link (Nat → UInt8))) :
    read_at M.drive.transport M.capacity offset len b = .error .OutOfBounds b := by
  obtain ⟨hlen, hend⟩ := not_or.mp (mt (M.holds_iff _ _).mpr hout)
  unfold read_at
  rw [if_neg hlen, check_range_eq h, if_neg hend]
  rfl

theorem write_at_outside (h : M.Sized) {buf : Bytes} (hout : ¬ M.Holds offset buf.length)
    (b : Bus (Link (Nat → UInt8))) :
    write_at M.drive.transport M.capacity offset buf b = .error .OutOfBounds b := by
  obtain ⟨hlen, hend⟩ := not_or.mp (mt (M.holds_iff _ _).mpr hout)
  have hsome : ¬ buf.isEmpty = true := fun hempty => hlen (by rw [List.isEmpty_iff.mp hempty]; rfl)
  unfold write_at
  rw [if_neg hsome, check_range_eq h, if_neg hend]
  rfl

end

/-! ## The array -/

/-- One request. A write returns nothing. -/
def serve {σ : Type} (t : BulkTransport σ) (cap : Capacity) : Request → BusM σ Bytes
  | .read offset n => read_at t cap offset n
  | .write offset data => do
    write_at t cap offset data
    return []

/-- Requests one after the other. A failure does not end the run. -/
def serveAll {σ : Type} (t : BulkTransport σ) (cap : Capacity) : List Request → BusM σ (List (Except LuksError Bytes))
  | [] => return []
  | r :: rest => do
    let a ← Run.attempt (serve t cap r)
    return a :: (← serveAll t cap rest)

namespace Model

variable (M : Model)

/-- The request names bytes of the drive only. -/
def Inside : Request → Prop
  | .read offset n => M.Holds offset n
  | .write offset data => M.Holds offset data.length

instance : (r : Request) → Decidable (M.Inside r)
  | .read offset n => inferInstanceAs (Decidable (M.Holds offset n))
  | .write offset data => inferInstanceAs (Decidable (M.Holds offset data.length))

/-- What a request inside the drive does to an array of bytes. -/
def applied : Request → (Nat → UInt8) → Bytes × (Nat → UInt8)
  | .read offset n, m => (load m offset n, m)
  | .write offset data, m => ([], store m offset data)

/-- What requests do to an array of the drive's size: their answers, and the array afterwards. -/
def onArray : List Request → (Nat → UInt8) → List (Except LuksError Bytes) × (Nat → UInt8)
  | [], m => ([], m)
  | r :: rest, m =>
    if M.Inside r then (.ok (applied r m).1 :: (onArray rest (applied r m).2).1, (onArray rest (applied r m).2).2)
    else (.error .OutOfBounds :: (onArray rest m).1, (onArray rest m).2)

end Model

section

variable {M : Model} {m : Nat → UInt8} {r : Request}

theorem serve_does (h : M.Sized) (hin : M.Inside r) :
    Does M.Proper (serve M.drive.transport M.capacity r) m (Model.applied r m).1 (Model.applied r m).2 := by
  cases r with
  | read offset n => exact read_at_does h hin
  | write offset data => exact .bind (write_at_does h hin) (.pure _ _)

theorem serve_outside (h : M.Sized) (hout : ¬ M.Inside r) (b : Bus (Link (Nat → UInt8))) :
    serve M.drive.transport M.capacity r b = .error .OutOfBounds b := by
  cases r with
  | read offset n => exact read_at_outside h hout b
  | write offset data =>
    have hrun := write_at_outside h hout b
    simp only [serve, bind, EStateM.bind, hrun]

theorem serveAll_does (h : M.Sized) (reqs : List Request) :
    Does M.Proper (serveAll M.drive.transport M.capacity reqs) m (M.onArray reqs m).1 (M.onArray reqs m).2 := by
  induction reqs generalizing m with
  | nil => exact .pure _ _
  | cons r rest ih =>
    unfold serveAll Model.onArray
    by_cases hin : M.Inside r
    · rw [if_pos hin]
      refine .bind (a := .ok (Model.applied r m).1) ?_ (.bind ih (.pure _ _))
      intro b hb
      obtain ⟨b', hrun, hrest⟩ := serve_does h hin b hb
      refine ⟨b', ?_, hrest⟩
      rw [Run.attempt, hrun]
    · rw [if_neg hin]
      refine .bind (a := .error .OutOfBounds) ?_ (.bind ih (.pure _ _))
      intro b hb
      refine ⟨b, ?_, hb, .refl b⟩
      rw [Run.attempt, serve_outside h hin b]

end

/-- On a drive that `open` accepts, requests are requests to one array of bytes. Outside the drive they
fail before anything happens on the bus, and each command moves blocks of the drive and no more than it may. -/
theorem block_device_refines_array {M : Model} {m : Nat → UInt8} {cap : Capacity} {b b' : Bus (Link (Nat → UInt8))}
    (hb : b.state = ⟨m, .idle⟩) (hopen : open_device M.drive.transport b = .ok cap b') (reqs : List Request) :
    (∃ b'', serveAll M.drive.transport cap reqs b' = .ok (M.onArray reqs m).1 b'' ∧
      b''.state = ⟨(M.onArray reqs m).2, .idle⟩ ∧ Grows M.Proper b' b'') ∧
    ∀ r, ¬ M.Inside r → ∀ b₁, serve M.drive.transport cap r b₁ = .error .OutOfBounds b₁ := by
  obtain ⟨rfl, h, hb'⟩ := open_device_ok hb hopen
  exact ⟨serveAll_does h reqs b' hb', fun r hout b₁ => serve_outside h hout b₁⟩

/-- Three blocks of four bytes, one block a command. -/
def threeBlocks : Model := ⟨3, 4, 4, 31, true, by decide, by decide, by decide, by decide⟩

/-- A write across two blocks, a read around it, and a read past the end. -/
def aroundBlocks : List Request := [.write 3 [1, 2], .read 2 4, .read 11 2]

theorem block_device_refines_array_around :
    ∃ b' b'', open_device threeBlocks.drive.transport ⟨⟨fun _ => 0, .idle⟩, 1, false, []⟩ = .ok ⟨3, 4⟩ b' ∧
      serveAll threeBlocks.drive.transport ⟨3, 4⟩ aroundBlocks b' =
        .ok [.ok [], .ok [0, 1, 2, 0], .error .OutOfBounds] b'' ∧ Grows threeBlocks.Proper b' b'' := by
  have hopen : returned (open_device threeBlocks.drive.transport ⟨⟨fun _ => 0, .idle⟩, 1, false, []⟩) =
      some ⟨3, 4⟩ := by decide +kernel
  have harray : (threeBlocks.onArray aroundBlocks fun _ => 0).1 =
      [.ok [], .ok [0, 1, 2, 0], .error .OutOfBounds] := by decide +kernel
  obtain ⟨b', hok⟩ := returned_eq_some hopen
  obtain ⟨⟨b'', hrun, -, hgrows⟩, -⟩ := block_device_refines_array rfl hok aroundBlocks
  exact ⟨b', b'', hok, by rw [hrun, harray], hgrows⟩

end LuksAndroid.Usb
