import LuksAndroid.App.Documents.Names
import LuksAndroid.Lib.Bytes
import Mathlib.Data.List.AList

/-!
# A volume with a batch

What the calls of `LuksVolume` do to the names of a btrfs volume: `core/src/fs/btrfs/write/mod.rs` and
`write/file.rs`, seen from `LuksHandles.kt`. A finished file goes into the batch, which the mount
shows and the drive has not got before a commit. The device does not fail; every other way
for a call to fail is given with the call.
-/

namespace LuksAndroid.App

inductive Node where
  | file (content : Bytes)
  | dir
deriving DecidableEq, Repr

def Node.isDir : Node → Bool
  | .dir => true
  | .file _ => false

/-- A directory, from the root down. -/
abbrev Path := List Text

abbrev Listing (α : Type) := AList fun _ : Text => α

/-- What is in each directory. A path at which there is no directory has nothing in it. -/
abbrev Tree := Path → Listing Node

namespace Tree

variable (t : Tree)

def get (dir : Path) (name : Text) : Option Node := (t dir).lookup name

def hasDir (path : Path) : Bool :=
  match path.getLast? with
  | none => true
  | some name => t.get path.dropLast name = some .dir

def insert (dir : Path) (name : Text) (node : Node) : Tree := Function.update t dir ((t dir).insert name node)

def erase (dir : Path) (name : Text) : Tree := Function.update t dir ((t dir).erase name)

variable {t}

theorem get_insert_self (dir : Path) (name : Text) (node : Node) :
    (t.insert dir name node).get dir name = some node := by
  simp [get, insert]

theorem get_insert_other {dir dir' : Path} {name name' : Text} (h : dir' = dir → name' ≠ name) (node : Node) :
    (t.insert dir name node).get dir' name' = t.get dir' name' := by
  unfold get insert
  by_cases hdir : dir' = dir
  · subst hdir
    rw [Function.update_self, AList.lookup_insert_ne (h rfl)]
  · rw [Function.update_of_ne hdir]

theorem get_erase_self (dir : Path) (name : Text) : (t.erase dir name).get dir name = none := by
  simp [get, erase]

theorem get_erase_other {dir dir' : Path} {name name' : Text} (h : dir' = dir → name' ≠ name) :
    (t.erase dir name).get dir' name' = t.get dir' name' := by
  unfold get erase
  by_cases hdir : dir' = dir
  · subst hdir
    rw [Function.update_self, AList.lookup_erase_ne (h rfl)]
  · rw [Function.update_of_ne hdir]

end Tree

inductive VolumeCall where
  | createDirectory
  | rename
  | deleteFile
  | beginFile (short : Bool)
  | finishFile (landed should_commit : Bool)
  | abandonFile
  | commitActiveBatch
deriving DecidableEq, Repr

namespace VolumeCall

/-- The call commits the batch, whatever becomes of it. -/
def settles : VolumeCall → Bool
  | beginFile short => short
  | finishFile landed should_commit => !landed || should_commit
  | _ => true

/-- After every file that was finished below the thresholds came a call that commits. -/
def Settled (log : List VolumeCall) : Prop :=
  ∀ pre post, log = pre ++ finishFile true false :: post → ∃ c ∈ post, c.settles = true

variable {log : List VolumeCall}

theorem Settled.of_snoc {c : VolumeCall} (h : Settled (log ++ [c])) (hc : c.settles = false) : Settled log := by
  intro pre post heq
  obtain ⟨c', hmem, hsettles⟩ := h pre (post ++ [c]) (by rw [heq, List.append_assoc, List.cons_append])
  rcases List.mem_append.mp hmem with hpost | hlast
  · exact ⟨c', hpost, hsettles⟩
  · rw [List.mem_singleton.mp hlast, hc] at hsettles
    cases hsettles

theorem settled_snoc {c : VolumeCall} (hc : c.settles = true) : Settled (log ++ [c]) := by
  intro pre post heq
  rcases List.eq_nil_or_concat post with rfl | ⟨post, last, rfl⟩
  · obtain ⟨-, hlast⟩ := List.append_inj' heq rfl
    cases hlast
    cases hc
  · rw [List.concat_eq_append, ← List.cons_append, ← List.append_assoc] at heq
    obtain ⟨-, hlast⟩ := List.append_inj' heq rfl
    cases hlast
    exact ⟨c, by simp, hc⟩

theorem not_settled_finish : ¬ Settled (log ++ [finishFile true false]) := by
  intro h
  obtain ⟨c, hmem, -⟩ := h log [] rfl
  cases hmem

end VolumeCall

/-- `live` is what the mount shows, `disk` what a fresh mount of the drive would show, and `uncommitted` is
`Batch::has_uncommitted_files`. `log` has the calls that were made, and is not in the source. -/
structure Volume where
  live : Tree
  disk : Tree
  uncommitted : Bool
  log : List VolumeCall

/-- How a call goes that commits the batch first. -/
structure CallRun where
  commits : Bool
  fails : Bool
deriving DecidableEq, Repr

structure BeginRun where
  -- the space is short, and the batch is committed before a chunk is allocated
  short : Bool
  commits : Bool
  fails : Bool
deriving DecidableEq, Repr

structure FinishRun where
  should_commit : Bool
  commits : Bool
  fails : Bool
deriving DecidableEq, Repr

/-- One turn of a copy loop. -/
structure Chunk where
  data : Bytes
  reads : Bool
  writes : Bool
  cancelled : Bool
deriving DecidableEq, Repr

structure StreamRun where
  begins : BeginRun
  chunks : List Chunk
  -- the commit of `abandonFile`
  abandon_commits : Bool
  finish : FinishRun
deriving DecidableEq, Repr

/-- No commit of the stream fails. -/
def StreamRun.Commits (r : StreamRun) : Prop :=
  r.begins.commits = true ∧ r.abandon_commits = true ∧ r.finish.commits = true

namespace Volume

variable (v : Volume)

def called (c : VolumeCall) : Volume := { v with log := v.log ++ [c] }

/-- The commit of a batch. One that fails drops the batch. -/
def commit (succeeds : Bool) : Volume :=
  if succeeds then { v with disk := v.live, uncommitted := false }
  else { v with live := v.disk, uncommitted := false }

/-- The commit of a batch with files in it. -/
def commitIfNeeded (succeeds : Bool) : Volume := if v.uncommitted then v.commit succeeds else v

def commitActiveBatch (succeeds : Bool) : Bool × Volume :=
  if v.uncommitted then (succeeds, v.commit succeeds) else (true, v)

/-- A transaction of its own. -/
def transact (change : Tree → Tree) : Volume := { v with live := change v.live, disk := change v.disk }

def createDirectory (dir : Path) (name : Text) (r : CallRun) : Bool × Volume :=
  match (v.called .createDirectory).commitActiveBatch r.commits with
  | (false, v) => (false, v)
  | (true, v) =>
    if r.fails ∨ ¬ v.live.hasDir dir ∨ (v.live.get dir name).isSome then (false, v)
    else (true, v.transact fun t => t.insert dir name .dir)

/-- A rename of a file, over another one if there is one. -/
def rename (dir : Path) (oldName newName : Text) (r : CallRun) : Bool × Volume :=
  match (v.called .rename).commitActiveBatch r.commits with
  | (false, v) => (false, v)
  | (true, v) =>
    match v.live.get dir oldName with
    | some (.file content) =>
      if r.fails ∨ v.live.get dir newName = some .dir then (false, v)
      else (true, v.transact fun t => (t.erase dir oldName).insert dir newName (.file content))
    | _ => (false, v)

/-- Only ever a file. -/
def deleteFile (dir : Path) (name : Text) (r : CallRun) : Bool × Volume :=
  match (v.called .deleteFile).commitActiveBatch r.commits with
  | (false, v) => (false, v)
  | (true, v) =>
    match v.live.get dir name with
    | some (.file _) => if r.fails then (false, v) else (true, v.transact fun t => t.erase dir name)
    | _ => (false, v)

/-- `beginFile`, or `beginFileStreaming` when the size is not known. -/
def beginFile (sized : Bool) (r : BeginRun) : Bool × Volume :=
  let v := v.called (.beginFile (sized && r.short))
  if sized ∧ r.short then
    match v.commitActiveBatch r.commits with
    | (false, v) => (false, v)
    | (true, v) => (!r.fails, v)
  else (!r.fails, v)

def finishFile (dir : Path) (name : Text) (content : Bytes) (r : FinishRun) : Bool × Volume :=
  if r.fails ∨ ¬ v.live.hasDir dir ∨ (v.live.get dir name).isSome then
    (false, (v.called (.finishFile false r.should_commit)).commitIfNeeded r.commits)
  else
    let v := v.called (.finishFile true r.should_commit)
    let v := { v with live := v.live.insert dir name (.file content), uncommitted := true }
    if r.should_commit then (r.commits, v.commit r.commits) else (true, v)

def abandonFile (commits : Bool) : Volume := (v.called .abandonFile).commitIfNeeded commits

/-- The loop between `beginFile` and `finishFile`: all that was read, unless something was thrown. -/
def copyLoop (done : Bytes) : List Chunk → Option Bytes
  | [] => some done
  | c :: rest =>
    if c.reads ∧ c.writes ∧ ¬ c.cancelled then copyLoop (done ++ c.data) rest else none

/-- A file from its source. `cut` says that something was thrown after the loop. -/
def streamFile (dir : Path) (name : Text) (sized cut : Bool) (r : StreamRun) : Option Bytes × Volume :=
  match v.beginFile sized r.begins with
  | (false, v) => (none, v)
  | (true, v) =>
    match (if cut then none else copyLoop [] r.chunks) with
    | none => (none, v.abandonFile r.abandon_commits)
    | some content =>
      match v.finishFile dir name content r.finish with
      | (true, v) => (some content, v)
      | (false, v) => (none, v)

/-! ## What the calls do when no commit fails -/

/-- Without a batch the drive has what the mount shows. -/
def Synced : Prop := v.uncommitted = false → v.disk = v.live

variable {v} {v' : Volume}

theorem commitIfNeeded_spec (h : v.Synced) :
    (v.commitIfNeeded true).live = v.live ∧ (v.commitIfNeeded true).Synced := by
  unfold commitIfNeeded commit
  split
  · exact ⟨rfl, fun _ => rfl⟩
  · exact ⟨rfl, h⟩

theorem commitActiveBatch_spec (h : v.Synced) :
    ∃ w, v.commitActiveBatch true = (true, w) ∧ w.live = v.live ∧ w.disk = v.live := by
  unfold commitActiveBatch commit
  cases hbatch : v.uncommitted with
  | true => exact ⟨_, rfl, rfl, rfl⟩
  | false => exact ⟨v, rfl, rfl, h hbatch⟩

theorem commitActiveBatch_called (h : v.Synced) (c : VolumeCall) :
    ∃ w, (v.called c).commitActiveBatch true = (true, w) ∧ w.live = v.live ∧ w.disk = v.live :=
  commitActiveBatch_spec (v := v.called c) h

theorem abandonFile_spec (h : v.Synced) : (v.abandonFile true).live = v.live ∧ (v.abandonFile true).Synced :=
  commitIfNeeded_spec (v := v.called .abandonFile) h

theorem transact_spec (change : Tree → Tree) (h : v.disk = v.live) :
    (v.transact change).live = change v.live ∧ (v.transact change).Synced := by
  refine ⟨rfl, fun _ => ?_⟩
  simp only [transact, h]

theorem createDirectory_spec (h : v.Synced) {dir : Path} {name : Text} {r : CallRun} (hcommits : r.commits = true)
    {ok : Bool} (hcall : v.createDirectory dir name r = (ok, v')) :
    v'.Synced ∧ (ok = false ∧ v'.live = v.live ∨
      ok = true ∧ v.live.hasDir dir = true ∧ v.live.get dir name = none ∧ v'.live = v.live.insert dir name .dir) := by
  obtain ⟨w, hbatch, hlive, hdisk⟩ := commitActiveBatch_called h .createDirectory
  simp only [createDirectory, hcommits, hbatch] at hcall
  have hsynced : w.Synced := fun _ => hdisk.trans hlive.symm
  split at hcall
  · cases hcall
    exact ⟨hsynced, .inl ⟨rfl, hlive⟩⟩
  · rename_i hpasses
    simp only [hlive, not_or, not_not, Option.isSome_iff_ne_none, ne_eq] at hpasses
    cases hcall
    obtain ⟨hnew, hkept⟩ := transact_spec (fun t => t.insert dir name .dir) (hdisk.trans hlive.symm)
    refine ⟨hkept, .inr ⟨rfl, hpasses.2.1, hpasses.2.2, ?_⟩⟩
    rw [hnew, hlive]

theorem rename_spec (h : v.Synced) {dir : Path} {oldName newName : Text} {r : CallRun} (hcommits : r.commits = true)
    {content : Bytes} (hold : v.live.get dir oldName = some (.file content)) {ok : Bool}
    (hcall : v.rename dir oldName newName r = (ok, v')) :
    v'.Synced ∧ (ok = false ∧ v'.live = v.live ∨
      ok = true ∧ v'.live = (v.live.erase dir oldName).insert dir newName (.file content)) := by
  obtain ⟨w, hbatch, hlive, hdisk⟩ := commitActiveBatch_called h .rename
  simp only [rename, hcommits, hbatch, hlive, hold] at hcall
  have hsynced : w.Synced := fun _ => hdisk.trans hlive.symm
  split at hcall
  · cases hcall
    exact ⟨hsynced, .inl ⟨rfl, hlive⟩⟩
  · cases hcall
    obtain ⟨hnew, hkept⟩ := transact_spec
      (fun t => (t.erase dir oldName).insert dir newName (.file content)) (hdisk.trans hlive.symm)
    refine ⟨hkept, .inr ⟨rfl, ?_⟩⟩
    rw [hnew, hlive]

theorem deleteFile_spec (h : v.Synced) {dir : Path} {name : Text} {r : CallRun} (hcommits : r.commits = true)
    {content : Bytes} (hold : v.live.get dir name = some (.file content)) {ok : Bool}
    (hcall : v.deleteFile dir name r = (ok, v')) :
    v'.Synced ∧ (v'.live = v.live ∨ v'.live = v.live.erase dir name) := by
  obtain ⟨w, hbatch, hlive, hdisk⟩ := commitActiveBatch_called h .deleteFile
  simp only [deleteFile, hcommits, hbatch, hlive, hold] at hcall
  have hsynced : w.Synced := fun _ => hdisk.trans hlive.symm
  split at hcall
  · cases hcall
    exact ⟨hsynced, .inl hlive⟩
  · cases hcall
    obtain ⟨hnew, hkept⟩ := transact_spec (fun t => t.erase dir name) (hdisk.trans hlive.symm)
    refine ⟨hkept, .inr ?_⟩
    rw [hnew, hlive]

theorem beginFile_spec (h : v.Synced) {sized : Bool} {r : BeginRun} (hcommits : r.commits = true) {ok : Bool}
    (hcall : v.beginFile sized r = (ok, v')) : v'.Synced ∧ v'.live = v.live := by
  obtain ⟨w, hbatch, hlive, hdisk⟩ := commitActiveBatch_called h (.beginFile (sized && r.short))
  simp only [beginFile, hcommits, hbatch] at hcall
  split at hcall
  · cases hcall
    exact ⟨fun _ => hdisk.trans hlive.symm, hlive⟩
  · cases hcall
    exact ⟨h, rfl⟩

theorem finishFile_spec (h : v.Synced) {dir : Path} {name : Text} {content : Bytes} {r : FinishRun}
    (hcommits : r.commits = true) {ok : Bool} (hcall : v.finishFile dir name content r = (ok, v')) :
    v'.Synced ∧ (ok = false ∧ v'.live = v.live ∨ ok = true ∧ v.live.hasDir dir = true ∧ v.live.get dir name = none ∧
      v'.live = v.live.insert dir name (.file content)) := by
  unfold finishFile at hcall
  rw [hcommits] at hcall
  split at hcall
  · cases hcall
    obtain ⟨hlive, hkept⟩ := commitIfNeeded_spec (v := v.called (.finishFile false r.should_commit)) h
    exact ⟨hkept, .inl ⟨rfl, hlive⟩⟩
  · rename_i hpasses
    simp only [not_or, not_not, Option.isSome_iff_ne_none, ne_eq] at hpasses
    split at hcall
    · cases hcall
      exact ⟨fun _ => rfl, .inr ⟨rfl, hpasses.2.1, hpasses.2.2, rfl⟩⟩
    · cases hcall
      exact ⟨fun hno => by simp at hno, .inr ⟨rfl, hpasses.2.1, hpasses.2.2, rfl⟩⟩

theorem streamFile_spec (h : v.Synced) {dir : Path} {name : Text} {sized cut : Bool} {r : StreamRun}
    (hcommits : r.Commits) {result : Option Bytes} (hcall : v.streamFile dir name sized cut r = (result, v')) :
    v'.Synced ∧ (result = none ∧ v'.live = v.live ∨
      ∃ content, result = some content ∧ copyLoop [] r.chunks = some content ∧
        v.live.hasDir dir = true ∧ v.live.get dir name = none ∧ v'.live = v.live.insert dir name (.file content)) := by
  obtain ⟨hbegins, habandon, hfinish⟩ := hcommits
  unfold streamFile at hcall
  split at hcall
  · rename_i w hbegin
    cases hcall
    obtain ⟨hsynced, hlive⟩ := beginFile_spec h hbegins hbegin
    exact ⟨hsynced, .inl ⟨rfl, hlive⟩⟩
  · rename_i w hbegin
    obtain ⟨hsynced, hlive⟩ := beginFile_spec h hbegins hbegin
    rw [← hlive]
    split at hcall
    · cases hcall
      rw [habandon]
      obtain ⟨hlive', hkept⟩ := abandonFile_spec hsynced
      exact ⟨hkept, .inl ⟨rfl, hlive'⟩⟩
    · rename_i content hcopied
      have hloop : copyLoop [] r.chunks = some content := by
        split at hcopied
        · cases hcopied
        · exact hcopied
      split at hcall
      · rename_i u hfinished
        cases hcall
        obtain ⟨hkept, hresult⟩ := finishFile_spec hsynced hfinish hfinished
        simp only [Bool.true_eq_false, false_and, true_and, false_or] at hresult
        exact ⟨hkept, .inr ⟨content, rfl, hloop, hresult⟩⟩
      · rename_i u hfinished
        cases hcall
        obtain ⟨hkept, hresult⟩ := finishFile_spec hsynced hfinish hfinished
        simp only [Bool.false_eq_true, false_and, true_and, or_false] at hresult
        exact ⟨hkept, .inl ⟨rfl, hresult⟩⟩

/-! ## What the calls leave in the batch -/

/-- With files in the batch, the last of them was finished and nothing has committed since. -/
def Logged (v : Volume) : Prop := VolumeCall.Settled v.log → v.uncommitted = false

theorem commitIfNeeded_empties (succeeds : Bool) : (v.commitIfNeeded succeeds).uncommitted = false := by
  unfold commitIfNeeded commit
  split
  · split <;> rfl
  · simp_all

theorem commitActiveBatch_empties {succeeds ok : Bool} (hcall : v.commitActiveBatch succeeds = (ok, v')) :
    v'.uncommitted = false := by
  have hsame : v' = v.commitIfNeeded succeeds := by
    unfold commitActiveBatch at hcall
    unfold commitIfNeeded
    split at hcall <;> cases hcall <;> simp_all
  rw [hsame]
  exact commitIfNeeded_empties succeeds

theorem createDirectory_empties {dir : Path} {name : Text} {r : CallRun} {ok : Bool}
    (hcall : v.createDirectory dir name r = (ok, v')) : v'.uncommitted = false := by
  unfold createDirectory at hcall
  cases hbatch : (v.called .createDirectory).commitActiveBatch r.commits with
  | mk committed w =>
    have hempty := commitActiveBatch_empties hbatch
    rw [hbatch] at hcall
    cases committed with
    | false =>
      cases hcall
      exact hempty
    | true =>
      simp only at hcall
      split at hcall <;> cases hcall <;> exact hempty

theorem rename_empties {dir : Path} {oldName newName : Text} {r : CallRun} {ok : Bool}
    (hcall : v.rename dir oldName newName r = (ok, v')) : v'.uncommitted = false := by
  unfold rename at hcall
  cases hbatch : (v.called .rename).commitActiveBatch r.commits with
  | mk committed w =>
    have hempty := commitActiveBatch_empties hbatch
    rw [hbatch] at hcall
    cases committed with
    | false =>
      cases hcall
      exact hempty
    | true =>
      simp only at hcall
      split at hcall
      · split at hcall <;> cases hcall <;> exact hempty
      · cases hcall
        exact hempty

theorem deleteFile_empties {dir : Path} {name : Text} {r : CallRun} {ok : Bool}
    (hcall : v.deleteFile dir name r = (ok, v')) : v'.uncommitted = false := by
  unfold deleteFile at hcall
  cases hbatch : (v.called .deleteFile).commitActiveBatch r.commits with
  | mk committed w =>
    have hempty := commitActiveBatch_empties hbatch
    rw [hbatch] at hcall
    cases committed with
    | false =>
      cases hcall
      exact hempty
    | true =>
      simp only at hcall
      split at hcall
      · split at hcall <;> cases hcall <;> exact hempty
      · cases hcall
        exact hempty

theorem Logged.of_empty (h : v.uncommitted = false) : v.Logged := fun _ => h

theorem Logged.beginFile (h : v.Logged) {sized : Bool} {r : BeginRun} {ok : Bool}
    (hcall : v.beginFile sized r = (ok, v')) : v'.Logged := by
  unfold Volume.beginFile at hcall
  simp only at hcall
  split at hcall
  · rename_i hshort
    cases hbatch : (v.called (.beginFile (sized && r.short))).commitActiveBatch r.commits with
    | mk committed w =>
      have hempty := commitActiveBatch_empties hbatch
      rw [hbatch] at hcall
      cases committed <;> cases hcall <;> exact .of_empty hempty
  · rename_i hlong
    cases hcall
    intro hsettled
    refine h (hsettled.of_snoc ?_)
    simpa [VolumeCall.settles] using hlong

theorem finishFile_logged {dir : Path} {name : Text} {content : Bytes} {r : FinishRun} {ok : Bool}
    (hcall : v.finishFile dir name content r = (ok, v')) : v'.Logged := by
  unfold finishFile at hcall
  split at hcall
  · cases hcall
    exact .of_empty (commitIfNeeded_empties _)
  · simp only at hcall
    split at hcall
    · cases hcall
      refine .of_empty ?_
      unfold commit
      split <;> rfl
    · rename_i hbelow
      cases hcall
      intro hsettled
      simp only [called, hbelow] at hsettled
      exact absurd hsettled VolumeCall.not_settled_finish

theorem Logged.streamFile (h : v.Logged) {dir : Path} {name : Text} {sized cut : Bool} {r : StreamRun}
    {result : Option Bytes} (hcall : v.streamFile dir name sized cut r = (result, v')) : v'.Logged := by
  unfold Volume.streamFile at hcall
  split at hcall
  · rename_i w hbegin
    cases hcall
    exact h.beginFile hbegin
  · split at hcall
    · cases hcall
      exact .of_empty (commitIfNeeded_empties _)
    · split at hcall
      · rename_i u hfinished
        cases hcall
        exact finishFile_logged hfinished
      · rename_i u hfinished
        cases hcall
        exact finishFile_logged hfinished

end Volume

end LuksAndroid.App
