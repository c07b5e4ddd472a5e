import LuksAndroid.App.Documents.Names
import LuksAndroid.App.Documents.Proxy

/-!
# Pending documents

`documents/PendingDocuments.kt`, and what `createDocument`, `openDocument`, `deleteDocument` and the
write streams do with it while the session stays unlocked. Choosing a name and registering
it are two steps. The streams share the registry, the transfer mutex and the volume, which imports
work on as well. A path leads to the same directory all the time.
-/

namespace LuksAndroid.App

/-! ## One stream -/

namespace Proxy

/-- The native writer has what was written. -/
def Sound (p : Proxy) : Prop :=
  p.native = (if p.writer then some (written p.log) else none) ∧ (p.writer = false → written p.log = [])

variable {p : Proxy} {c : WriteCall}

-- What no write changes.
def fixed (p : Proxy) : String × List (WriteCall × Except Errno Nat) × Bool := (p.mode, p.log, p.released)

theorem releaseWriteLockIfHeld_fixed (p : Proxy) : p.releaseWriteLockIfHeld.fixed = p.fixed := by
  unfold releaseWriteLockIfHeld
  split <;> rfl

theorem abandonFile_fixed (p : Proxy) (granted : Bool) : (p.abandonFile granted).fixed = p.fixed := by
  unfold abandonFile
  split <;> rfl

theorem abandonWrite_fixed (p : Proxy) (granted : Bool) : (p.abandonWrite granted).fixed = p.fixed := by
  unfold abandonWrite
  rw [releaseWriteLockIfHeld_fixed]
  split
  · exact abandonFile_fixed _ granted
  · rfl

theorem openWriter_fixed (p : Proxy) (c : WriteCall) : (p.openWriter c).2.fixed = p.fixed := by
  unfold openWriter
  split_ifs
  · rfl
  · exact releaseWriteLockIfHeld_fixed _
  · exact releaseWriteLockIfHeld_fixed _
  · rfl

theorem writeChunk_fixed (p : Proxy) (c : WriteCall) : (p.writeChunk c).2.fixed = p.fixed := by
  unfold writeChunk
  split_ifs
  · exact abandonWrite_fixed p _
  · rfl
  · exact abandonWrite_fixed p _

theorem onWrite_cases (p : Proxy) (c : WriteCall) :
    (c.data = [] ∧ p.onWrite c = (.ok 0, p)) ∨ (∃ e, p.onWrite c = (.error e, p)) ∨
      (p.writer = true ∧ p.onWrite c = p.writeChunk c) ∨
      (∃ e q, p.openWriter c = (.error e, q) ∧ p.onWrite c = (.error e, q)) ∨
      p.writer = false ∧ ∃ q, p.openWriter c = (.ok (), q) ∧ p.onWrite c = q.writeChunk c := by
  by_cases hdata : c.data = []
  · exact .inl ⟨hdata, by simp [onWrite, hdata]⟩
  cases hwritable : p.writable with
  | false => exact .inr (.inl ⟨.EROFS, by simp [onWrite, hdata, hwritable]⟩)
  | true =>
    rcases hcan : c.can_write with _ | _ | _
    · exact .inr (.inl ⟨ Errno.EIO, by simp [onWrite, hdata, hwritable, hcan]⟩)
    · exact .inr (.inl ⟨.EROFS, by simp [onWrite, hdata, hwritable, hcan]⟩)
    · cases hwriter : p.writer with
      | true => exact .inr (.inr (.inl ⟨rfl, by simp [onWrite, hdata, hwritable, hcan, hwriter]⟩))
      | false =>
        rcases hopen : p.openWriter c with ⟨e | _, q⟩
        · exact .inr (.inr (.inr (.inl ⟨e, q, rfl, by simp [onWrite, hdata, hwritable, hcan, hwriter, hopen]⟩)))
        · exact .inr (.inr (.inr (.inr ⟨rfl, q, rfl, by simp [onWrite, hdata, hwritable, hcan, hwriter, hopen]⟩)))

theorem onWrite_fixed (p : Proxy) (c : WriteCall) : (p.onWrite c).2.fixed = p.fixed := by
  have hopen := openWriter_fixed p c
  obtain ⟨-, heq⟩ | ⟨e, heq⟩ | ⟨-, heq⟩ | ⟨e, q, hq, heq⟩ | ⟨-, q, hq, heq⟩ := onWrite_cases p c <;> rw [heq]
  · exact writeChunk_fixed p c
  · rw [hq] at hopen
    exact hopen
  · rw [hq] at hopen
    exact (writeChunk_fixed q c).trans hopen

theorem Sound.writeChunk (h : p.Sound) (hwriter : p.writer = true) {n : Nat} (hok : (p.writeChunk c).1 = .ok n) :
    (p.writeChunk c).2.pending = p.pending ∧
      ({ (p.writeChunk c).2 with log := p.log ++ [(c, .ok n)] } : Proxy).Sound := by
  unfold Proxy.writeChunk at hok ⊢
  split_ifs at hok ⊢
  refine ⟨rfl, ?_, ?_⟩
  · simp [h.1, hwriter, written_snoc]
  · simp [hwriter]

theorem openWriter_ok {q : Proxy} (hok : p.openWriter c = (.ok (), q)) :
    q = { p.acquire with writer := true, native := some [], expectedNextOffset := 0 } := by
  unfold openWriter at hok
  split_ifs at hok <;> simp only [Prod.mk.injEq, reduceCtorEq, false_and, true_and] at hok
  exact hok.symm

theorem Sound.onWrite (h : p.Sound) {n : Nat} (hok : (p.onWrite c).1 = .ok n) :
    (p.onWrite c).2.pending = p.pending ∧
      ({ (p.onWrite c).2 with log := p.log ++ [(c, .ok n)] } : Proxy).Sound := by
  obtain ⟨hdata, heq⟩ | ⟨e, heq⟩ | ⟨hwriter, heq⟩ | ⟨e, q, hq, heq⟩ | ⟨hwriter, q, hq, heq⟩ := onWrite_cases p c <;>
    rw [heq] at hok ⊢
  · refine ⟨rfl, ?_, ?_⟩
    · simpa [written_snoc, hdata] using h.1
    · simpa [written_snoc, hdata] using h.2
  · cases hok
  · exact h.writeChunk hwriter hok
  · cases hok
  · cases openWriter_ok hq
    have hopened : ({ p.acquire with writer := true, native := some [], expectedNextOffset := 0 } : Proxy).Sound := by
      simp [Sound, acquire, h.2 hwriter]
    exact hopened.writeChunk rfl hok

theorem onRelease_gone (hwritable : p.writable = true) (r : ReleaseCall) : (p.onRelease r).pending = false := by
  have hrelease (q : Proxy) : q.releaseWriteLockIfHeld.pending = q.pending := by
    unfold releaseWriteLockIfHeld
    split <;> rfl
  have hfinish (q : Proxy) : (q.finishOrAbandon r).pending = false := by
    unfold finishOrAbandon
    rw [hrelease]
  unfold onRelease
  rw [if_neg (by simp [hwritable])]
  split_ifs
  · exact hfinish _
  · exact hfinish _
  · rw [hrelease]
  · rfl
  · rw [hrelease]

theorem Sound.onRelease (h : p.Sound) (hwritable : p.writable = true) (hpending : p.pending = true) {r : ReleaseCall}
    (hdone : r.finish = .done) (hfree : p.writer = false → r.acquired = true ∧ r.begins = true) :
    (p.onRelease r).finished = true ∧ (p.onRelease r).file = some (written p.log) := by
  have hfinish (q : Proxy) (hq : q.pending = true) (hnative : q.native = some (written p.log)) :
      (q.finishOrAbandon r).finished = true ∧ (q.finishOrAbandon r).file = some (written p.log) := by
    unfold finishOrAbandon releaseWriteLockIfHeld
    simp only [hq, if_true, hdone]
    split <;> exact ⟨rfl, hnative⟩
  unfold Proxy.onRelease
  simp only [hwritable, not_true_eq_false, if_false]
  cases hwriter : p.writer with
  | true =>
    simp only [if_true]
    apply hfinish
    · exact hpending
    · simp [h.1, hwriter]
  | false =>
    obtain ⟨hacquired, hbegins⟩ := hfree hwriter
    simp only [Bool.false_eq_true, if_false, hpending, hacquired, hbegins, not_true_eq_false]
    apply hfinish
    · exact hpending
    · simp [h.2 hwriter]

end Proxy

/-! ## The registry and the streams -/

structure Pending where
  parentPath : Text
  name : Text
deriving DecidableEq, Repr

inductive CreateStage where
  -- `uniqueDocumentName` has returned
  | named
  | registered
  -- a stream has ended it, or a client has deleted it
  | ended
  | deleted
deriving DecidableEq, Repr

/-- A call of `createDocument` for a file. -/
structure Create where
  parentPath : Text
  name : Text
  stage : CreateStage
deriving DecidableEq, Repr

namespace Create

def documentId (c : Create) : Text := Text.documentId c.parentPath c.name

-- It is no longer pending, if it was.
def retire (id : Text) (stage : CreateStage) (c : Create) : Create :=
  if c.stage = .registered ∧ c.documentId = id then { c with stage } else c

end Create

/-- A write stream, opened on the id that the call `document` returned. -/
structure Stream where
  document : Nat
  documentId : Text
  proxy : Proxy

inductive Holder where
  | stream (k : Nat)
  | importer
deriving DecidableEq, Repr

/-- `byId` is the registry. -/
structure Documents (Dir : Type) where
  byId : Text → Option Pending
  files : Dir → Text → Option Bytes
  creates : Nat → Option Create
  streams : Nat → Option Stream
  transferMutex : Option Holder

inductive Event (Dir : Type) where
  -- the search stops at the given candidate
  | search (call : Nat) (parentPath displayName : Text) (tries : Nat)
  | register (call : Nat)
  | openDocument (k call : Nat) (mode : String)
  | onWrite (k offset : Nat) (data : Bytes) (begins writes : Bool)
  -- `fails`: the volume fails the finish, whatever the name
  | onRelease (k : Nat) (begins fails : Bool)
  | deleteDocument (documentId : Text)
  | import_begin
  -- an import writes, replaces or renames a file
  | import_put (dir : Dir) (name : Text) (content : Option Bytes)
  | import_end

namespace Documents

section

variable {Dir : Type} (directory : Text → Option Dir) (s : Documents Dir)

def isPending (id : Text) : Bool := (s.byId id).isSome

def nameExistsAt (dir : Dir) (parentPath name : Text) : Bool :=
  s.isPending (Text.documentId parentPath name) || (s.files dir name).isSome

/-- The candidate at which the search stops. -/
def uniqueDocumentName (dir : Dir) (parentPath desiredName : Text) (tries : Nat) : Option Text :=
  if (∀ n < tries, s.nameExistsAt dir parentPath (Text.candidate desiredName n) = true) ∧
      s.nameExistsAt dir parentPath (Text.candidate desiredName tries) = false then
    some (Text.candidate desiredName tries)
  else none

def search (call : Nat) (parentPath displayName : Text) (tries : Nat) : Option (Documents Dir) :=
  if s.creates call = none ∧ Text.validName displayName = true then do
    let dir ← directory parentPath
    let name ← s.uniqueDocumentName dir parentPath displayName tries
    return { s with creates := Function.update s.creates call (some ⟨parentPath, name, .named⟩) }
  else none

-- The entry is written whether or not there is one.
def register (call : Nat) : Option (Documents Dir) := do
  let c ← s.creates call
  if c.stage = .named then
    return { s with
      byId := Function.update s.byId c.documentId (some ⟨c.parentPath, c.name⟩)
      creates := Function.update s.creates call (some { c with stage := .registered }) }
  else none

def openDocument (k call : Nat) (mode : String) : Option (Documents Dir) := do
  let c ← s.creates call
  if (mode = "w" ∨ mode = "wt") ∧ c.stage ≠ .named ∧ s.isPending c.documentId = true ∧ (s.streams k).isNone = true then
    return { s with streams := Function.update s.streams k (some ⟨call, c.documentId, Proxy.fresh mode true⟩) }
  else none

/-- `PendingDocuments.remove`. -/
def retire (id : Text) (stage : CreateStage) : Documents Dir :=
  { s with
    byId := Function.update s.byId id none
    creates := fun call => (s.creates call).map (Create.retire id stage) }

/-- The callback as it sees the registry. -/
def view (st : Stream) : Proxy := { st.proxy with pending := s.isPending st.documentId }

/-- What the callback left of the registry, the mutex and itself. -/
def leave (k : Nat) (st : Stream) (p : Proxy) : Documents Dir :=
  { (if p.pending then s else s.retire st.documentId .ended) with
    streams := Function.update s.streams k (some { st with proxy := p })
    transferMutex :=
      if p.writeLockHeld then some (.stream k)
      else if s.transferMutex = some (.stream k) then none
      else s.transferMutex }

def writeCall (offset : Nat) (data : Bytes) (begins writes : Bool) : WriteCall :=
  ⟨offset, data, some true, s.transferMutex.isNone, begins, writes, true⟩

def onWrite (k offset : Nat) (data : Bytes) (begins writes : Bool) : Option (Documents Dir) := do
  let st ← s.streams k
  if st.proxy.released then none
  else
    let c := s.writeCall offset data begins writes
    let (result, p) := (s.view st).onWrite c
    return s.leave k st { p with log := p.log ++ [(c, result)] }

/-- `finishFile` under the registered name. -/
def finish (entry : Pending) (fails : Bool) : Finish :=
  match directory entry.parentPath with
  | none => .failed
  | some dir => if (s.files dir entry.name).isSome ∨ fails = true then .failed else .done

def releaseCall (st : Stream) (begins fails : Bool) : ReleaseCall :=
  ⟨s.transferMutex.isNone, begins, (s.byId st.documentId).elim .failed (s.finish directory · fails), true⟩

end

section

variable {Dir : Type} [DecidableEq Dir] (directory : Text → Option Dir) (s : Documents Dir)

def put (dir : Dir) (name : Text) (content : Option Bytes) : Documents Dir :=
  { s with files := Function.update s.files dir (Function.update (s.files dir) name content) }

def publish (entry : Pending) (content : Option Bytes) : Documents Dir :=
  match directory entry.parentPath with
  | none => s
  | some dir => s.put dir entry.name content

def onRelease (k : Nat) (begins fails : Bool) : Option (Documents Dir) := do
  let st ← s.streams k
  if st.proxy.released then none
  else
    let p := (s.view st).onRelease (s.releaseCall directory st begins fails)
    let s' := s.leave k st { p with released := true }
    return match s.byId st.documentId with
      | some entry => if p.finished then s'.publish directory entry p.file else s'
      | none => s'

def step : Event Dir → Option (Documents Dir)
  | .search call parentPath displayName tries => s.search directory call parentPath displayName tries
  | .register call => s.register call
  | .openDocument k call mode => s.openDocument k call mode
  | .onWrite k offset data begins writes => s.onWrite k offset data begins writes
  | .onRelease k begins fails => s.onRelease directory k begins fails
  | .deleteDocument id => if s.isPending id then some (s.retire id .deleted) else none
  | .import_begin => if s.transferMutex = none then some { s with transferMutex := some .importer } else none
  | .import_put dir name content =>
    if s.transferMutex = some .importer then some (s.put dir name content) else none
  | .import_end => if s.transferMutex = some .importer then some { s with transferMutex := none } else none

end

variable {Dir : Type} (directory : Text → Option Dir) (s : Documents Dir)

def empty (files : Dir → Text → Option Bytes) : Documents Dir where
  byId _ := none
  files := files
  creates _ := none
  streams _ := none
  transferMutex := none

/-! ## What the clients are promised -/

/-- The document of the call is pending. -/
def Live (call : Nat) (c : Create) : Prop := s.creates call = some c ∧ c.stage = .registered

structure Apart : Prop where
  ids : ∀ m n c d, s.Live m c → s.Live n d → c.documentId = d.documentId → m = n
  names : ∀ m n c d, s.Live m c → s.Live n d → directory c.parentPath = directory d.parentPath → c.name = d.name →
    m = n

def Deleted (call : Nat) : Prop := ∃ c, s.creates call = some c ∧ c.stage = .deleted

/-- The release of a stream in `s` has left its bytes in `s'`, under the name of its own document. -/
def Delivers (st : Stream) (s' : Documents Dir) : Prop :=
  Proxy.AllWritten st.proxy.log → ¬ s.Deleted st.document →
    ∃ c dir, s.Live st.document c ∧ s.byId st.documentId = some ⟨c.parentPath, c.name⟩ ∧
      directory c.parentPath = some dir ∧ s'.files dir c.name = some (Proxy.written st.proxy.log)

def Open (k : Nat) (st : Stream) : Prop := s.streams k = some st ∧ st.proxy.released = false

/-- Between a search and its registration no other call registers the id or the name. A search does not stop at a name
that is pending under another spelling of the directory's path. An import leaves pending names alone, and those that a
search has found. A document is registered when no stream is open on its id, and a stream is opened on a pending
document that has no other. A release is not failed by the volume, and gets the mutex if it needs it. -/
def Clear : Event Dir → Prop
  | .search _ parentPath displayName tries => ∀ n d, s.Live n d → directory d.parentPath = directory parentPath →
    d.parentPath ≠ parentPath → d.name ≠ Text.candidate displayName tries
  | .register call => ∀ c, s.creates call = some c → (∀ k st, s.Open k st → st.documentId ≠ c.documentId) ∧
    ∀ n d, n ≠ call → s.creates n = some d → d.stage = .named →
      d.documentId ≠ c.documentId ∧ (directory d.parentPath = directory c.parentPath → d.name ≠ c.name)
  | .openDocument _ call _ => ∀ c, s.creates call = some c →
    c.stage = .registered ∧ ∀ k st, s.Open k st → st.documentId ≠ c.documentId
  | .onRelease k begins fails => fails = false ∧
    ∀ st, s.streams k = some st → st.proxy.writer = false → s.transferMutex = none ∧ begins = true
  | .import_put dir name _ => ∀ n d, s.creates n = some d → d.stage = .named ∨ d.stage = .registered →
    directory d.parentPath = some dir → d.name ≠ name
  | _ => True

/-! ## The invariant -/

/-- What a search has found is still free. -/
structure Chosen (c : Create) : Prop where
  id : s.byId c.documentId = none
  free : ∀ dir, directory c.parentPath = some dir → s.files dir c.name = none
  names : ∀ n d, s.Live n d → directory d.parentPath = directory c.parentPath → d.name ≠ c.name

/-- The registry has the pending documents, and their names are free. -/
structure Registry : Prop where
  placed : ∀ call c, s.creates call = some c → (directory c.parentPath).isSome = true
  entry : ∀ call c, s.Live call c → s.byId c.documentId = some ⟨c.parentPath, c.name⟩
  owner : ∀ id e, s.byId id = some e → ∃ call c, s.Live call c ∧ c.documentId = id
  free : ∀ call c dir, s.Live call c → directory c.parentPath = some dir → s.files dir c.name = none
  apart : s.Apart directory
  chosen : ∀ call c, s.creates call = some c → c.stage = .named → s.Chosen directory c

/-- An open stream. It works on the document that it was opened on. -/
structure Attached (st : Stream) : Prop where
  created : ∃ c, s.creates st.document = some c ∧ c.stage ≠ .named ∧ c.documentId = st.documentId
  own : ∀ call c, s.Live call c → c.documentId = st.documentId → call = st.document
  live : Proxy.AllWritten st.proxy.log → ¬ s.Deleted st.document → ∃ c, s.Live st.document c
  writable : st.proxy.writable = true
  sound : Proxy.AllWritten st.proxy.log → st.proxy.Sound

structure Kept : Prop where
  registry : s.Registry directory
  attached : ∀ k st, s.Open k st → s.Attached st
  alone : ∀ k l st st', s.Open k st → s.Open l st' → st.documentId = st'.documentId → k = l

variable {directory} {s} {s' : Documents Dir}

/-! ## The registry -/

theorem retire_creates {id : Text} {stage : CreateStage} {call : Nat} {c : Create}
    (hc : (s.retire id stage).creates call = some c) :
    ∃ d, s.creates call = some d ∧ c = d.retire id stage := by
  obtain ⟨d, hd, heq⟩ := Option.map_eq_some_iff.mp hc
  exact ⟨d, hd, heq.symm⟩

theorem retire_place (id : Text) (stage : CreateStage) (c : Create) :
    (c.retire id stage).parentPath = c.parentPath ∧ (c.retire id stage).name = c.name := by
  unfold Create.retire
  split <;> exact ⟨rfl, rfl⟩

theorem retire_documentId (id : Text) (stage : CreateStage) (c : Create) :
    (c.retire id stage).documentId = c.documentId := by
  obtain ⟨hparent, hname⟩ := retire_place id stage c
  rw [Create.documentId, hparent, hname, Create.documentId]

theorem retire_named {id : Text} {stage : CreateStage} (hnamed : stage ≠ .named) {c : Create}
    (hc : (c.retire id stage).stage = .named) : c.retire id stage = c ∧ c.stage = .named := by
  unfold Create.retire at hc ⊢
  split at hc
  · exact absurd hc hnamed
  · rename_i hnot
    exact ⟨if_neg hnot, hc⟩

theorem retire_live {id : Text} {stage : CreateStage} (hstage : stage ≠ .registered) {call : Nat} {c : Create} :
    (s.retire id stage).Live call c ↔ s.Live call c ∧ c.documentId ≠ id := by
  constructor
  · rintro ⟨hc, hregistered⟩
    obtain ⟨d, hd, rfl⟩ := retire_creates hc
    unfold Create.retire at hregistered ⊢
    split at hregistered
    · exact absurd hregistered hstage
    · rename_i hnot
      rw [if_neg hnot]
      exact ⟨⟨hd, hregistered⟩, fun hid => hnot ⟨hregistered, hid⟩⟩
  · rintro ⟨⟨hc, hregistered⟩, hid⟩
    refine ⟨?_, hregistered⟩
    simp only [retire, hc, Option.map_some, Option.some.injEq]
    unfold Create.retire
    rw [if_neg (fun h => hid h.2)]

theorem Chosen.retire {c : Create} (h : s.Chosen directory c) {stage : CreateStage} (hstage : stage ≠ .registered)
    (id : Text) : (s.retire id stage).Chosen directory c := by
  refine ⟨?_, h.free, ?_⟩
  · by_cases hid : c.documentId = id
    · subst hid
      exact Function.update_self ..
    · simp only [Documents.retire, Function.update_of_ne hid]
      exact h.id
  · intro n d hd
    exact h.names n d ((retire_live hstage).mp hd).1

theorem Registry.retire (h : s.Registry directory) {stage : CreateStage} (hstage : stage ≠ .registered)
    (hnamed : stage ≠ .named) (id : Text) : (s.retire id stage).Registry directory := by
  refine ⟨?_, ?_, ?_, ?_, ⟨?_, ?_⟩, ?_⟩
  · intro call c hc
    obtain ⟨d, hd, rfl⟩ := retire_creates hc
    rw [(retire_place id stage d).1]
    exact h.placed call d hd
  · intro call c hc
    obtain ⟨hlive, hid⟩ := (retire_live hstage).mp hc
    simp only [Documents.retire, Function.update_of_ne hid]
    exact h.entry call c hlive
  · intro id' e he
    by_cases hid : id' = id
    · subst hid
      simp [Documents.retire] at he
    · simp only [Documents.retire, Function.update_of_ne hid] at he
      obtain ⟨call, c, hlive, rfl⟩ := h.owner id' e he
      exact ⟨call, c, (retire_live hstage).mpr ⟨hlive, hid⟩, rfl⟩
  · intro call c dir hc
    exact h.free call c dir ((retire_live hstage).mp hc).1
  · intro m n c d hc hd
    exact h.apart.ids m n c d ((retire_live hstage).mp hc).1 ((retire_live hstage).mp hd).1
  · intro m n c d hc hd
    exact h.apart.names m n c d ((retire_live hstage).mp hc).1 ((retire_live hstage).mp hd).1
  · intro call c hc hstart
    obtain ⟨d, hd, rfl⟩ := retire_creates hc
    obtain ⟨hkept, hstarted⟩ := retire_named hnamed hstart
    rw [hkept]
    exact (h.chosen call d hd hstarted).retire hstage id

theorem live_update {call : Nat} {c : Create} {n : Nat} {d : Create} {byId : Text → Option Pending}
    (hd : ({ s with byId, creates := Function.update s.creates call (some c) } : Documents Dir).Live n d) :
    (n = call ∧ d = c) ∨ (n ≠ call ∧ s.Live n d) := by
  unfold Live at hd
  by_cases hn : n = call
  · subst hn
    simp only [Function.update_self, Option.some.injEq] at hd
    exact .inl ⟨rfl, hd.1.symm⟩
  · simp only [Function.update_of_ne hn] at hd
    exact .inr ⟨hn, hd⟩

theorem Registry.register (h : s.Registry directory) {call : Nat} {c : Create} (hc : s.creates call = some c)
    (hnamed : c.stage = .named) (hbetween : ∀ n d, n ≠ call → s.creates n = some d → d.stage = .named →
      d.documentId ≠ c.documentId ∧ (directory d.parentPath = directory c.parentPath → d.name ≠ c.name)) :
    Registry directory { s with
      byId := Function.update s.byId c.documentId (some ⟨c.parentPath, c.name⟩)
      creates := Function.update s.creates call (some { c with stage := .registered }) } := by
  have hchosen := h.chosen call c hc hnamed
  have hnew {n : Nat} {d : Create} (hd : s.Live n d) : d.documentId ≠ c.documentId := by
    intro hsame
    have hentry := h.entry n d hd
    rw [hsame, hchosen.id] at hentry
    cases hentry
  refine ⟨?_, ?_, ?_, ?_, ⟨?_, ?_⟩, ?_⟩
  · intro n d hd
    by_cases hn : n = call
    · subst hn
      simp only [Function.update_self, Option.some.injEq] at hd
      subst hd
      exact h.placed n c hc
    · simp only [Function.update_of_ne hn] at hd
      exact h.placed n d hd
  · intro n d hd
    obtain ⟨rfl, rfl⟩ | ⟨-, hd⟩ := live_update hd
    · exact Function.update_self ..
    · simp only [Function.update_of_ne (hnew hd)]
      exact h.entry n d hd
  · intro id e he
    by_cases hsame : id = c.documentId
    · subst hsame
      exact ⟨call, { c with stage := .registered }, ⟨Function.update_self .., rfl⟩, rfl⟩
    · simp only [Function.update_of_ne hsame] at he
      obtain ⟨n, d, hd, rfl⟩ := h.owner id e he
      refine ⟨n, d, ⟨?_, hd.2⟩, rfl⟩
      have hn : n ≠ call := by
        rintro rfl
        have hregistered := hd.2
        cases hc.symm.trans hd.1
        rw [hnamed] at hregistered
        cases hregistered
      simp only [Function.update_of_ne hn]
      exact hd.1
  · intro n d dir hd hdir
    obtain ⟨rfl, rfl⟩ | ⟨-, hd⟩ := live_update hd
    · exact hchosen.free dir hdir
    · exact h.free n d dir hd hdir
  · intro m n d e hd he hsame
    obtain ⟨rfl, rfl⟩ | ⟨-, hold⟩ := live_update hd
    · obtain ⟨rfl, rfl⟩ | ⟨-, he⟩ := live_update he
      · rfl
      · exact absurd hsame.symm (hnew he)
    · obtain ⟨rfl, rfl⟩ | ⟨-, he⟩ := live_update he
      · exact absurd hsame (hnew hold)
      · exact h.apart.ids m n d e hold he hsame
  · intro m n d e hd he hdir hsame
    obtain ⟨rfl, rfl⟩ | ⟨-, hold⟩ := live_update hd
    · obtain ⟨rfl, rfl⟩ | ⟨-, he⟩ := live_update he
      · rfl
      · exact absurd hsame.symm (hchosen.names n e he hdir.symm)
    · obtain ⟨rfl, rfl⟩ | ⟨-, he⟩ := live_update he
      · exact absurd hsame (hchosen.names m d hold hdir)
      · exact h.apart.names m n d e hold he hdir hsame
  · intro n d hd hstart
    have hn : n ≠ call := by
      rintro rfl
      simp only [Function.update_self, Option.some.injEq] at hd
      subst hd
      cases hstart
    simp only [Function.update_of_ne hn] at hd
    obtain ⟨hid, hname⟩ := hbetween n d hn hd hstart
    have hother := h.chosen n d hd hstart
    refine ⟨?_, hother.free, ?_⟩
    · simp only [Function.update_of_ne hid]
      exact hother.id
    · intro m e he hdir
      obtain ⟨rfl, rfl⟩ | ⟨-, he⟩ := live_update he
      · exact (hname hdir.symm).symm
      · exact hother.names m e he hdir

theorem Registry.congr {t : Documents Dir} (h : s.Registry directory) (hbyId : t.byId = s.byId)
    (hfiles : t.files = s.files) (hcreates : t.creates = s.creates) : t.Registry directory := by
  cases s
  cases t
  subst hbyId hfiles hcreates
  exact ⟨h.placed, h.entry, h.owner, h.free, ⟨h.apart.ids, h.apart.names⟩,
    fun call c hc hnamed => ⟨(h.chosen call c hc hnamed).id, (h.chosen call c hc hnamed).free,
      (h.chosen call c hc hnamed).names⟩⟩

/-! ## The streams -/

theorem Attached.congr {t : Documents Dir} {st : Stream} (h : s.Attached st) (hcreates : t.creates = s.creates) :
    t.Attached st := by
  cases s
  cases t
  subst hcreates
  exact ⟨h.created, h.own, h.live, h.writable, h.sound⟩

theorem retire_deleted {id : Text} {stage : CreateStage} {call : Nat} (h : s.Deleted call) :
    (s.retire id stage).Deleted call := by
  obtain ⟨c, hc, hdeleted⟩ := h
  refine ⟨c.retire id stage, by simp only [retire, hc, Option.map_some], ?_⟩
  unfold Create.retire
  rw [if_neg (fun hreg => by simp [hdeleted] at hreg)]
  exact hdeleted

theorem Attached.retire {st : Stream} (h : s.Attached st) {p : Proxy} {id : Text} {stage : CreateStage}
    (hstage : stage ≠ .registered) (hnamed : stage ≠ .named) (hwritable : p.writable = true)
    (hsound : Proxy.AllWritten p.log → p.Sound)
    (hlive : Proxy.AllWritten p.log → ¬ (s.retire id stage).Deleted st.document →
      ∃ c, (s.retire id stage).Live st.document c) :
    (s.retire id stage).Attached { st with proxy := p } := by
  obtain ⟨c, hc, hstarted, hid⟩ := h.created
  refine ⟨⟨c.retire id stage, ?_, ?_, ?_⟩, ?_, hlive, hwritable, hsound⟩
  · simp only [Documents.retire, hc, Option.map_some]
  · unfold Create.retire
    split
    · exact hnamed
    · exact hstarted
  · rw [retire_documentId, hid]
  · intro call d hd
    exact h.own call d ((retire_live hstage).mp hd).1

theorem Attached.retire_other {st : Stream} (h : s.Attached st) {id : Text} {stage : CreateStage}
    (hstage : stage ≠ .registered) (hnamed : stage ≠ .named) (hother : stage = .deleted ∨ st.documentId ≠ id) :
    (s.retire id stage).Attached st := by
  refine h.retire hstage hnamed h.writable h.sound ?_
  intro hall hundeleted
  obtain ⟨c, hc, -, hid⟩ := h.created
  obtain ⟨d, hd⟩ := h.live hall fun hdeleted => hundeleted (retire_deleted hdeleted)
  refine ⟨d, (retire_live hstage).mpr ⟨hd, ?_⟩⟩
  cases hc.symm.trans hd.1
  rw [hid]
  rcases hother with rfl | hne
  · intro hsame
    refine hundeleted ⟨c.retire id .deleted, by simp only [Documents.retire, hc, Option.map_some], ?_⟩
    unfold Create.retire
    rw [if_pos ⟨hd.2, hid.trans hsame⟩]
  · exact hne

theorem Attached.other {st : Stream} (h : s.Attached st) {call : Nat} {c : Create} {byId : Text → Option Pending}
    (hne : st.document ≠ call) (hid : c.stage = .registered → c.documentId ≠ st.documentId) :
    ({ s with byId, creates := Function.update s.creates call (some c) } : Documents Dir).Attached st := by
  obtain ⟨d, hd, hstarted⟩ := h.created
  refine ⟨⟨d, ?_, hstarted⟩, ?_, ?_, h.writable, h.sound⟩
  · simpa only [Function.update_of_ne hne] using hd
  · intro n e he hsame
    have hregistered := he.2
    obtain ⟨rfl, rfl⟩ | ⟨-, he⟩ := live_update he
    · exact absurd hsame (hid hregistered)
    · exact h.own n e he hsame
  · intro hall hundeleted
    obtain ⟨e, he, hregistered⟩ := h.live hall fun ⟨e, he, hdeleted⟩ =>
      hundeleted ⟨e, by simpa only [Function.update_of_ne hne] using he, hdeleted⟩
    exact ⟨e, by simpa only [Function.update_of_ne hne] using he, hregistered⟩

theorem Attached.document_ne {st : Stream} (h : s.Attached st) {call : Nat}
    (hcall : ∀ c, s.creates call = some c → c.stage = .named) : st.document ≠ call := by
  rintro rfl
  obtain ⟨c, hc, hstarted, -⟩ := h.created
  exact hstarted (hcall c hc)

/-- Where the search stops the name is free. -/
theorem uniqueDocumentName_free {dir : Dir} {parentPath desiredName name : Text} {tries : Nat}
    (h : s.uniqueDocumentName dir parentPath desiredName tries = some name) :
    name = Text.candidate desiredName tries ∧ s.byId (Text.documentId parentPath name) = none ∧
    s.files dir name = none := by
  unfold uniqueDocumentName at h
  split at h
  case isFalse => cases h
  rename_i hstops
  cases h
  have hfree := hstops.2
  simp only [nameExistsAt, isPending, Bool.or_eq_false_iff, Option.isSome_eq_false_iff, Option.isNone_iff_eq_none]
    at hfree
  exact ⟨rfl, hfree.1, hfree.2⟩

theorem search_eq {call : Nat} {parentPath displayName : Text} {tries : Nat}
    (hstep : s.search directory call parentPath displayName tries = some s') :
    ∃ dir name, s.creates call = none ∧ directory parentPath = some dir ∧
      s.uniqueDocumentName dir parentPath displayName tries = some name ∧
      s' = { s with creates := Function.update s.creates call (some ⟨parentPath, name, .named⟩) } := by
  unfold search at hstep
  split at hstep
  case isFalse => cases hstep
  rename_i hnew
  obtain ⟨dir, hdir, hstep⟩ := Option.bind_eq_some_iff.mp hstep
  obtain ⟨name, hname, hstep⟩ := Option.bind_eq_some_iff.mp hstep
  simp only [Option.pure_def, Option.some.injEq] at hstep
  exact ⟨dir, name, hnew.1, hdir, hname, hstep.symm⟩

theorem Kept.search (h : s.Kept directory) {call : Nat} {parentPath displayName : Text} {tries : Nat}
    (hclear : s.Clear directory (.search call parentPath displayName tries))
    (hstep : s.search directory call parentPath displayName tries = some s') : s'.Kept directory := by
  obtain ⟨dir, name, hnew, hdir, hname, rfl⟩ := search_eq hstep
  obtain ⟨hcandidate, hpending, hfile⟩ := uniqueDocumentName_free hname
  have hlive {n : Nat} {d : Create}
      (hd : ({ s with creates := Function.update s.creates call (some ⟨parentPath, name, .named⟩) } :
        Documents Dir).Live n d) : s.Live n d := by
    have hregistered := hd.2
    obtain ⟨rfl, rfl⟩ | ⟨-, hd⟩ := live_update hd
    · cases hregistered
    · exact hd
  have hkept {n : Nat} {d : Create} (hd : s.Live n d) :
      ({ s with creates := Function.update s.creates call (some ⟨parentPath, name, .named⟩) } :
        Documents Dir).Live n d := by
    have hn : n ≠ call := by
      rintro rfl
      cases hnew.symm.trans hd.1
    exact ⟨by simpa only [Function.update_of_ne hn] using hd.1, hd.2⟩
  refine ⟨⟨?_, ?_, ?_, ?_, ⟨?_, ?_⟩, ?_⟩, ?_, h.alone⟩
  · intro n d hd
    by_cases hn : n = call
    · subst hn
      simp only [Function.update_self, Option.some.injEq] at hd
      subst hd
      simp [hdir]
    · simp only [Function.update_of_ne hn] at hd
      exact h.registry.placed n d hd
  · intro n d hd
    exact h.registry.entry n d (hlive hd)
  · intro id e he
    obtain ⟨n, d, hd, hid⟩ := h.registry.owner id e he
    exact ⟨n, d, hkept hd, hid⟩
  · intro n d dir' hd
    exact h.registry.free n d dir' (hlive hd)
  · intro m n d e hd he
    exact h.registry.apart.ids m n d e (hlive hd) (hlive he)
  · intro m n d e hd he
    exact h.registry.apart.names m n d e (hlive hd) (hlive he)
  · intro n d hd hnamed
    by_cases hn : n = call
    · subst hn
      simp only [Function.update_self, Option.some.injEq] at hd
      subst hd
      refine ⟨hpending, ?_, ?_⟩
      · intro dir' hdir'
        cases hdir.symm.trans hdir'
        exact hfile
      · intro m e he hsame
        by_cases hspelled : e.parentPath = parentPath
        · -- under the same path a pending document of this name has this id
          rintro rfl
          have hentry := h.registry.entry m e (hlive he)
          rw [Create.documentId, hspelled, hpending] at hentry
          cases hentry
        · rw [hcandidate]
          exact hclear m e (hlive he) hsame hspelled
    · simp only [Function.update_of_ne hn] at hd
      have hother := h.registry.chosen n d hd hnamed
      exact ⟨hother.id, hother.free, fun m e he => hother.names m e (hlive he)⟩
  · intro k st hopen
    have hst := h.attached k st hopen
    apply hst.other
    · apply hst.document_ne
      intro c hc
      cases hnew.symm.trans hc
    · intro hregistered
      cases hregistered

theorem Kept.register (h : s.Kept directory) {call : Nat} (hclear : s.Clear directory (.register call))
    (hstep : s.register call = some s') : s'.Kept directory := by
  unfold Documents.register at hstep
  obtain ⟨c, hc, hstep⟩ := Option.bind_eq_some_iff.mp hstep
  split at hstep
  case isFalse => cases hstep
  rename_i hnamed
  simp only [Option.pure_def, Option.some.injEq] at hstep
  subst hstep
  obtain ⟨hstreams, hbetween⟩ := hclear c hc
  refine ⟨h.registry.register hc hnamed hbetween, ?_, h.alone⟩
  intro k st hopen
  have hst := h.attached k st hopen
  apply hst.other
  · apply hst.document_ne
    intro c' hc'
    cases hc.symm.trans hc'
    exact hnamed
  · intro _ hsame
    exact hstreams k st hopen hsame.symm

theorem Kept.openDocument (h : s.Kept directory) {k call : Nat} {mode : String}
    (hclear : s.Clear directory (.openDocument k call mode)) (hstep : s.openDocument k call mode = some s') :
    s'.Kept directory := by
  unfold Documents.openDocument at hstep
  obtain ⟨c, hc, hstep⟩ := Option.bind_eq_some_iff.mp hstep
  split at hstep
  case isFalse => cases hstep
  rename_i hopened
  simp only [Option.pure_def, Option.some.injEq] at hstep
  subst hstep
  obtain ⟨hregistered, hstreams⟩ := hclear c hc
  have hcases {l : Nat} {st : Stream}
      (hl : ({ s with streams := Function.update s.streams k (some ⟨call, c.documentId, Proxy.fresh mode true⟩) } :
        Documents Dir).Open l st) :
      l = k ∧ st = ⟨call, c.documentId, Proxy.fresh mode true⟩ ∨ l ≠ k ∧ s.Open l st := by
    obtain ⟨hst, hunreleased⟩ := hl
    by_cases hlk : l = k
    · subst hlk
      simp only [Function.update_self, Option.some.injEq] at hst
      exact .inl ⟨rfl, hst.symm⟩
    · simp only [Function.update_of_ne hlk] at hst
      exact .inr ⟨hlk, hst, hunreleased⟩
  refine ⟨h.registry.congr rfl rfl rfl, ?_, ?_⟩
  · intro l st hl
    obtain ⟨rfl, rfl⟩ | ⟨-, hold⟩ := hcases hl
    · have hstreaming := Proxy.fresh_streaming hopened.1 true
      refine ⟨⟨c, hc, hopened.2.1, rfl⟩, ?_, ?_, hstreaming.writable, ?_⟩
      · intro n d hd hsame
        exact h.registry.apart.ids n call d c hd ⟨hc, hregistered⟩ hsame
      · intro _ _
        exact ⟨c, hc, hregistered⟩
      · intro _
        exact ⟨rfl, fun _ => rfl⟩
    · exact (h.attached l st hold).congr rfl
  · intro l m st st' hl hm hsame
    obtain ⟨rfl, rfl⟩ | ⟨-, hold⟩ := hcases hl
    · obtain ⟨rfl, -⟩ | ⟨-, hm⟩ := hcases hm
      · rfl
      · exact absurd hsame.symm (hstreams m st' hm)
    · obtain ⟨rfl, rfl⟩ | ⟨-, hm⟩ := hcases hm
      · exact absurd hsame (hstreams l st hold)
      · exact h.alone l m st st' hold hm hsame

theorem empty_kept (files : Dir → Text → Option Bytes) : (empty files).Kept directory := by
  refine ⟨⟨?_, ?_, ?_, ?_, ⟨?_, ?_⟩, ?_⟩, ?_, ?_⟩ <;> simp [empty, Live, Open]

theorem Kept.leave (h : s.Kept directory) {k : Nat} {st : Stream} (hopen : s.Open k st) {p : Proxy}
    (hattached : p.released = false →
      (if p.pending then s else s.retire st.documentId .ended).Attached { st with proxy := p }) :
    (s.leave k st p).Kept directory := by
  have hcreates : (s.leave k st p).creates = (if p.pending then s else s.retire st.documentId .ended).creates := rfl
  have hstreams {l : Nat} {st' : Stream} (hl : (s.leave k st p).Open l st') :
      l = k ∧ st' = { st with proxy := p } ∨ l ≠ k ∧ s.Open l st' := by
    obtain ⟨hst, hreleased⟩ := hl
    simp only [Documents.leave] at hst
    by_cases hlk : l = k
    · subst hlk
      simp only [Function.update_self, Option.some.injEq] at hst
      exact .inl ⟨rfl, hst.symm⟩
    · simp only [Function.update_of_ne hlk] at hst
      exact .inr ⟨hlk, hst, hreleased⟩
  refine ⟨?_, ?_, ?_⟩
  · have hregistry : (if p.pending then s else s.retire st.documentId .ended).Registry directory := by
      split
      · exact h.registry
      · exact h.registry.retire (by simp) (by simp) _
    exact hregistry.congr rfl rfl rfl
  · intro l st' hl
    have hunreleased := hl.2
    obtain ⟨rfl, rfl⟩ | ⟨hlk, hold⟩ := hstreams hl
    · exact (hattached hunreleased).congr hcreates
    · refine Attached.congr ?_ hcreates
      have hst' := h.attached l st' hold
      split
      · exact hst'
      · refine hst'.retire_other (by simp) (by simp) (.inr ?_)
        intro hsame
        exact hlk (h.alone l k st' st hold hopen hsame)
  · intro l m st₁ st₂ hl hm hsame
    obtain ⟨rfl, rfl⟩ | ⟨hlk, hold⟩ := hstreams hl
    · obtain ⟨rfl, -⟩ | ⟨-, hm⟩ := hstreams hm
      · rfl
      · exact h.alone l m st st₂ hopen hm hsame
    · obtain ⟨rfl, rfl⟩ | ⟨-, hm⟩ := hstreams hm
      · exact h.alone l m st₁ st hold hopen hsame
      · exact h.alone l m st₁ st₂ hold hm hsame

theorem onWrite_eq {k offset : Nat} {data : Bytes} {begins writes : Bool}
    (hstep : s.onWrite k offset data begins writes = some s') :
    ∃ st c result p, s.Open k st ∧ (s.view st).onWrite c = (result, p) ∧
      s' = s.leave k st { p with log := p.log ++ [(c, result)] } := by
  unfold onWrite at hstep
  obtain ⟨st, hst, hstep⟩ := Option.bind_eq_some_iff.mp hstep
  split at hstep
  · cases hstep
  · rename_i hreleased
    simp only [Option.pure_def, Option.some.injEq] at hstep
    exact ⟨st, _, _, _, ⟨hst, by simpa using hreleased⟩, rfl, hstep.symm⟩

theorem Kept.onWrite (h : s.Kept directory) {k offset : Nat} {data : Bytes} {begins writes : Bool}
    (hstep : s.onWrite k offset data begins writes = some s') : s'.Kept directory := by
  obtain ⟨st, c, result, p, hopen, hwrite, rfl⟩ := onWrite_eq hstep
  have hst := h.attached k st hopen
  have hfixed := Proxy.onWrite_fixed (s.view st) c
  rw [hwrite] at hfixed
  simp only [Proxy.fixed, view, Prod.mk.injEq] at hfixed
  obtain ⟨hmode, hlog, -⟩ := hfixed
  have hwritable : p.writable = true := by
    have hold := hst.writable
    unfold Proxy.writable at hold ⊢
    rw [hmode]
    exact hold
  -- what a log without failures says about this write
  have hok (hall : Proxy.AllWritten (p.log ++ [(c, result)])) :
      Proxy.AllWritten st.proxy.log ∧ p.pending = s.isPending st.documentId ∧
        ({ p with log := p.log ++ [(c, result)] } : Proxy).Sound := by
    have hbefore : Proxy.AllWritten st.proxy.log := by
      intro x hx
      exact hall x (List.mem_append_left _ (hlog ▸ hx))
    obtain ⟨n, hn⟩ := hall (c, result) (by simp)
    have hn : result = .ok n := hn
    have hview : (s.view st).Sound := hst.sound hbefore
    have hsound := hview.onWrite (c := c) (n := n) (by rw [hwrite, hn])
    rw [hwrite] at hsound
    refine ⟨hbefore, hsound.1, ?_⟩
    rw [hn, hlog]
    exact hsound.2
  apply h.leave hopen
  intro _
  cases hpending : p.pending with
  | true =>
    simp only [if_true]
    refine ⟨hst.created, hst.own, ?_, hwritable, fun hall => (hok hall).2.2⟩
    intro hall
    exact hst.live (hok hall).1
  | false =>
    simp only [Bool.false_eq_true, if_false]
    refine hst.retire (by simp) (by simp) hwritable (fun hall => (hok hall).2.2) ?_
    intro hall hundeleted
    obtain ⟨hbefore, hkept, -⟩ := hok hall
    obtain ⟨d, hd⟩ := hst.live hbefore fun hdeleted => hundeleted (retire_deleted hdeleted)
    obtain ⟨c', hc', -, hid⟩ := hst.created
    cases hc'.symm.trans hd.1
    -- a successful write has not taken the registration away
    have hentry := h.registry.entry st.document d hd
    rw [hid] at hentry
    simp [hpending, isPending, hentry] at hkept

variable [DecidableEq Dir]

theorem put_self (dir : Dir) (name : Text) (content : Option Bytes) :
    (s.put dir name content).files dir name = content := by
  simp [put]

theorem put_other {dir dir' : Dir} {name name' : Text} (h : dir' = dir → name' ≠ name) (content : Option Bytes) :
    (s.put dir name content).files dir' name' = s.files dir' name' := by
  unfold put
  by_cases hdir : dir' = dir
  · subst hdir
    simp [h rfl]
  · simp [hdir]

/-- A file that no document is to become which is pending or about to be. -/
theorem Registry.put (h : s.Registry directory) {dir : Dir} {name : Text} (content : Option Bytes)
    (hother : ∀ call c, s.creates call = some c → c.stage = .named ∨ c.stage = .registered →
      directory c.parentPath = some dir → c.name ≠ name) :
    (s.put dir name content).Registry directory := by
  have hsame {call : Nat} {c : Create} {dir' : Dir} (hc : s.creates call = some c)
      (hstage : c.stage = .named ∨ c.stage = .registered) (hdir : directory c.parentPath = some dir') :
      (s.put dir name content).files dir' c.name = s.files dir' c.name := by
    apply put_other
    rintro rfl
    exact hother call c hc hstage hdir
  refine ⟨h.placed, h.entry, h.owner, ?_, ⟨h.apart.ids, h.apart.names⟩, ?_⟩
  · intro call c dir' hc hdir
    rw [hsame hc.1 (.inr hc.2) hdir]
    exact h.free call c dir' hc hdir
  · intro call c hc hnamed
    have hchosen := h.chosen call c hc hnamed
    refine ⟨hchosen.id, ?_, hchosen.names⟩
    intro dir' hdir
    rw [hsame hc (.inl hnamed) hdir]
    exact hchosen.free dir' hdir

theorem Kept.put (h : s.Kept directory) {dir : Dir} {name : Text} (content : Option Bytes)
    (hother : ∀ call c, s.creates call = some c → c.stage = .named ∨ c.stage = .registered →
      directory c.parentPath = some dir → c.name ≠ name) :
    (s.put dir name content).Kept directory := by
  refine ⟨h.registry.put content hother, ?_, h.alone⟩
  intro k st hopen
  exact (h.attached k st hopen).congr rfl

theorem onRelease_eq {k : Nat} {begins fails : Bool} (hstep : s.onRelease directory k begins fails = some s') :
    ∃ st p, s.Open k st ∧ (s.view st).onRelease (s.releaseCall directory st begins fails) = p ∧
      s' = (s.byId st.documentId).elim (s.leave k st { p with released := true }) fun entry =>
        if p.finished then (s.leave k st { p with released := true }).publish directory entry p.file
        else s.leave k st { p with released := true } := by
  unfold onRelease at hstep
  obtain ⟨st, hst, hstep⟩ := Option.bind_eq_some_iff.mp hstep
  split at hstep
  · cases hstep
  · rename_i hreleased
    simp only [Option.pure_def, Option.some.injEq] at hstep
    refine ⟨st, _, ⟨hst, by simpa using hreleased⟩, rfl, ?_⟩
    rw [← hstep]
    cases s.byId st.documentId <;> rfl

theorem Kept.onRelease (h : s.Kept directory) {k : Nat} {begins fails : Bool}
    (hstep : s.onRelease directory k begins fails = some s') : s'.Kept directory := by
  obtain ⟨st, p, hopen, hp, rfl⟩ := onRelease_eq hstep
  have hgone : p.pending = false := by
    have hwritable : (s.view st).writable = true := (h.attached k st hopen).writable
    rw [← hp]
    exact Proxy.onRelease_gone hwritable _
  have hleft : (s.leave k st { p with released := true }).Kept directory := by
    apply h.leave hopen
    intro hnot
    cases hnot
  cases hentry : s.byId st.documentId with
  | none => exact hleft
  | some entry =>
    simp only [Option.elim_some]
    split
    · unfold publish
      cases hdir : directory entry.parentPath with
      | none => exact hleft
      | some dir =>
        apply hleft.put
        -- the published name was that of the document just retired
        obtain ⟨owner, d, hd, hid⟩ := h.registry.owner _ _ hentry
        have hown := h.registry.entry owner d hd
        rw [hid, hentry] at hown
        cases hown
        intro call c hc hstage hdir' hname
        have hsame : (s.leave k st { p with released := true }).creates = (s.retire st.documentId .ended).creates := by
          simp [Documents.leave, hgone]
        rw [hsame] at hc
        rcases hstage with hnamed | hregistered
        · obtain ⟨e, he, rfl⟩ := retire_creates hc
          obtain ⟨hkept, hstarted⟩ := retire_named (by simp) hnamed
          rw [hkept] at hdir' hname
          exact (h.registry.chosen call e he hstarted).names owner d hd (hdir.trans hdir'.symm) hname.symm
        obtain ⟨hlive, hne⟩ := (retire_live (by simp)).mp ⟨hc, hregistered⟩
        have hcall := h.registry.apart.names call owner c d hlive hd (hdir'.trans hdir.symm) hname
        subst hcall
        cases hlive.1.symm.trans hd.1
        exact hne hid
    · exact hleft

theorem Kept.delivers (h : s.Kept directory) {k : Nat} {begins fails : Bool} {st : Stream}
    (hst : s.streams k = some st) (hclear : s.Clear directory (.onRelease k begins fails))
    (hstep : s.onRelease directory k begins fails = some s') : s.Delivers directory st s' := by
  obtain ⟨rfl, hfree⟩ := hclear
  obtain ⟨st', p, hopen, hp, rfl⟩ := onRelease_eq hstep
  cases hst.symm.trans hopen.1
  have hattached := h.attached k st hopen
  intro hall hundeleted
  obtain ⟨c, hc⟩ := hattached.live hall hundeleted
  obtain ⟨c', hc', -, hid⟩ := hattached.created
  cases hc'.symm.trans hc.1
  have hentry := h.registry.entry st.document c hc
  rw [hid] at hentry
  obtain ⟨dir, hdir⟩ := Option.isSome_iff_exists.mp (h.registry.placed st.document c hc.1)
  refine ⟨c, dir, hc, hentry, hdir, ?_⟩
  have hdone : (s.releaseCall directory st begins false).finish = .done := by
    simp [releaseCall, hentry, finish, hdir, h.registry.free st.document c dir hc hdir]
  have hview : (s.view st).Sound := hattached.sound hall
  have hpublished := hview.onRelease hattached.writable (by simp [view, isPending, hentry]) hdone (by
    intro hwriter
    obtain ⟨hmutex, hbegins⟩ := hfree st hst hwriter
    simp [releaseCall, hmutex, hbegins])
  rw [hp] at hpublished
  simp only [hentry, Option.elim_some, hpublished.1, if_true, publish, hdir, put_self, hpublished.2]
  rfl

/-! ## Runs -/

theorem Kept.step {a : Event Dir} (h : s.Kept directory) (hclear : s.Clear directory a)
    (hstep : s.step directory a = some s') : s'.Kept directory := by
  cases a with
  | search call parentPath displayName tries => exact h.search hclear hstep
  | register call => exact h.register hclear hstep
  | openDocument k call mode => exact h.openDocument hclear hstep
  | onWrite k offset data begins writes => exact h.onWrite hstep
  | onRelease k begins fails => exact h.onRelease hstep
  | deleteDocument id =>
    simp only [Documents.step, Option.ite_none_right_eq_some, Option.some.injEq] at hstep
    obtain ⟨-, rfl⟩ := hstep
    refine ⟨h.registry.retire (by simp) (by simp) id, ?_, h.alone⟩
    intro k st hopen
    exact (h.attached k st hopen).retire_other (by simp) (by simp) (.inl rfl)
  | import_put dir name content =>
    simp only [Documents.step, Option.ite_none_right_eq_some, Option.some.injEq] at hstep
    obtain ⟨-, rfl⟩ := hstep
    exact h.put content hclear
  | import_begin | import_end =>
    simp only [Documents.step, Option.ite_none_right_eq_some, Option.some.injEq] at hstep
    obtain ⟨-, rfl⟩ := hstep
    refine ⟨h.registry.congr rfl rfl rfl, ?_, h.alone⟩
    intro k st hopen
    exact (h.attached k st hopen).congr rfl

/-- Pending documents do not meet, and every stream is delivered, in a run whose steps are clear of each other. -/
theorem apart_of_clear (files : Dir → Text → Option Bytes) (events : List (Event Dir))
    (hclear : Machine.Meets (step directory) (Clear directory) (empty files) events)
    (hrun : Machine.run (step directory) (empty files) events = some s) :
    s.Apart directory ∧ ∀ k st begins fails s', s.streams k = some st →
      s.Clear directory (.onRelease k begins fails) → s.step directory (.onRelease k begins fails) = some s' →
        s.Delivers directory st s' := by
  have hkept : s.Kept directory :=
    Machine.run_keeps (Kept directory) (fun _ _ _ h hcond hstep => h.step hcond hstep) events (empty_kept files) hclear
      hrun
  refine ⟨hkept.registry.apart, ?_⟩
  intro k st begins fails s' hst hrelease hstep
  exact hkept.delivers hst hrelease hstep

end Documents

-- A volume with a root directory alone.
def rootOnly (path : Text) : Option Nat := if path = Text.root then some 0 else none

-- Two clients save "a" one after the other. The second search stops at "a (1)".
def savesInTurn : List (Event Nat) :=
  [.search 0 Text.root [97] 0, .register 0, .search 1 Text.root [97] 1, .register 1, .openDocument 0 0 "w",
    .onWrite 0 0 [1, 2] true true]

-- Two clients save "a", each having looked for the name before the other registered it. The second closes its stream
-- without a write while the first is writing.
def twoSaves : List (Event Nat) :=
  [.search 0 Text.root [97] 0, .search 1 Text.root [97] 0, .register 0, .register 1, .openDocument 0 0 "w",
    .openDocument 1 1 "w", .onWrite 0 0 [1, 2] true true, .onRelease 1 true false]

theorem saves_in_turn_delivered :
    ∃ s st s', Machine.run (Documents.step rootOnly) (Documents.empty fun _ _ => none) savesInTurn = some s ∧
      s.Apart rootOnly ∧ s.creates 1 = some ⟨Text.root, [97, 32, 40, 49, 41], .registered⟩ ∧ s.streams 0 = some st ∧
      s.step rootOnly (.onRelease 0 true false) = some s' ∧ s.Delivers rootOnly st s' ∧
      s'.files 0 [97] = some [1, 2] := by
  have hclear : Machine.Meets (Documents.step rootOnly) (Documents.Clear rootOnly)
      (Documents.empty fun _ _ => none) savesInTurn := by
    have hspelled {d : Create} (hdir : rootOnly d.parentPath = rootOnly Text.root) : d.parentPath = Text.root := by
      by_contra hne
      simp [rootOnly, hne] at hdir
    refine ⟨?_, fun s₁ h₁ => ?_⟩
    · rintro n d - hdir hother
      exact absurd (hspelled hdir) hother
    cases h₁
    refine ⟨?_, fun s₂ h₂ => ?_⟩
    · intro c hc
      refine ⟨?_, ?_⟩
      · rintro k st ⟨hst, -⟩
        cases hst
      · intro n d hn hd
        simp only [Function.update_of_ne hn] at hd
        cases hd
    refine ⟨?_, fun s₃ h₃ => ?_⟩
    · rintro n d - hdir hother
      exact absurd (hspelled hdir) hother
    obtain ⟨-, name, -, -, -, rfl⟩ := Documents.search_eq h₃
    cases h₂
    refine ⟨?_, fun s₄ h₄ => ?_⟩
    · intro c hc
      refine ⟨?_, ?_⟩
      · rintro k st ⟨hst, -⟩
        cases hst
      · intro n d hn hd hnamed
        simp only [Function.update_of_ne hn] at hd
        by_cases hfirst : n = 0
        · subst hfirst
          cases hd
          cases hnamed
        · simp only [Function.update_of_ne hfirst] at hd
          cases hd
    cases h₄
    refine ⟨?_, fun s₅ h₅ => ?_⟩
    · intro c hc
      cases hc
      refine ⟨rfl, ?_⟩
      rintro k st ⟨hst, -⟩
      cases hst
    exact ⟨trivial, fun _ _ => trivial⟩
  have hend : (Machine.run (Documents.step rootOnly) (Documents.empty fun _ _ => none) savesInTurn).map
      (fun s => (s.creates 1, (s.streams 0).map fun st => st.proxy.writer,
        (s.step rootOnly (.onRelease 0 true false)).map fun s' => s'.files 0 [97])) =
      some (some ⟨Text.root, [97, 32, 40, 49, 41], .registered⟩, some true, some (some [1, 2])) := by
    decide +kernel
  obtain ⟨s, hrun, hend⟩ := Option.map_eq_some_iff.mp hend
  simp only [Prod.mk.injEq, Option.map_eq_some_iff] at hend
  obtain ⟨hsecond, ⟨st, hst, hwriter⟩, s', hstep, hfile⟩ := hend
  obtain ⟨hapart, hdelivers⟩ := Documents.apart_of_clear (fun _ _ => none) savesInTurn hclear hrun
  refine ⟨s, st, s', hrun, hapart, hsecond, hst, hstep, hdelivers 0 st true false s' hst ⟨rfl, ?_⟩ hstep, hfile⟩
  intro st' hst' hwriter'
  cases hst.symm.trans hst'
  rw [hwriter] at hwriter'
  cases hwriter'

/-- The registration goes with the first of the two streams, and the bytes of the other are dropped. -/
theorem two_saves_not_delivered :
    ¬ ∀ events s, Machine.run (Documents.step rootOnly) (Documents.empty fun _ _ => none) events = some s →
      s.Apart rootOnly ∧ ∀ k st s', s.streams k = some st → s.step rootOnly (.onRelease k true false) = some s' →
        s.Delivers rootOnly st s' := by
  intro h
  obtain ⟨s, st, s', hrun, hst, hstep, hlog, hdocument, hcreate⟩ : ∃ s st s',
      Machine.run (Documents.step rootOnly) (Documents.empty fun _ _ => none) twoSaves = some s ∧
      s.streams 0 = some st ∧ s.step rootOnly (.onRelease 0 true false) = some s' ∧
      st.proxy.log = [(okWrite 0 [1, 2], .ok 2)] ∧ st.document = 0 ∧
      s.creates 0 = some ⟨Text.root, [97], .ended⟩ := ⟨_, _, _, rfl, rfl, rfl, rfl, rfl, rfl⟩
  obtain ⟨c, dir, hlive, -⟩ := (h twoSaves s hrun).2 0 st s' hst hstep (by simp [Proxy.AllWritten, hlog]) (by
    rintro ⟨c, hc, hdeleted⟩
    rw [hdocument, hcreate] at hc
    cases hc
    cases hdeleted)
  obtain ⟨hc, hregistered⟩ := hlive
  rw [hdocument, hcreate] at hc
  cases hc
  cases hregistered

end LuksAndroid.App
