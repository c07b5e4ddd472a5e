import LuksAndroid.App.Transfer.Import
import LuksAndroid.Lib.Machine

/-!
# What is left of a session on the drive

The calls of the app that end with a file reported as done, and the close of the volume. The call
for one file is `importFileWithProgress` of `session/TransferManager.kt`, a SAF write the stream of
`documents/LuksProxyCallback.kt` from its first write to its release. They hold the transfer mutex, so
that one comes after the other.
-/

namespace LuksAndroid.App

/-- What was reported as done, and whether the volume is closed. -/
structure Mounted where
  volume : Volume
  reported : Path → Text → Option Bytes
  closed : Bool

inductive AppCall where
  | importTree (plan : List (PlanEntry × EntryRun)) (destinationRootPath : Path) (collisionMode : CollisionMode)
    (commits : Bool)
  -- `cut`: cancelled or short after the loop
  | importFile (dir : Path) (name : Text) (cut : Bool) (r : StreamRun)
  -- `cut`: the pending entry is gone
  | safWrite (dir : Path) (name : Text) (cut : Bool) (r : StreamRun)
  -- `writing`: a stream is under way, and its writer is closed first
  | close (writing commits : Bool)

namespace Mounted

variable (s : Mounted)

def report (reported : Path → Text → Option Bytes) (dir : Path) (name : Text) (content : Bytes) :
    Path → Text → Option Bytes :=
  Function.update reported dir (Function.update (reported dir) name (some content))

def reportAll (reported : Path → Text → Option Bytes) (copied : List Copied) : Path → Text → Option Bytes :=
  copied.foldl (fun reported c => report reported c.dir c.name c.content) reported

def streamed (dir : Path) (name : Text) (sized cut : Bool) (r : StreamRun) : Mounted :=
  match s.volume.streamFile dir name sized cut r with
  | (none, v) => { s with volume := v }
  | (some content, v) => { s with volume := v, reported := report s.reported dir name content }

def step (a : AppCall) : Option Mounted :=
  if s.closed then none
  else match a with
    | .importTree plan destinationRootPath collisionMode commits =>
      match Import.importTree s.volume plan destinationRootPath collisionMode commits with
      | none => some s
      | some (_, i) => some { s with volume := i.volume, reported := reportAll s.reported i.copied }
    | .importFile dir name cut r => some (s.streamed dir name true cut r)
    | .safWrite dir name cut r => some (s.streamed dir name false cut r)
    | .close writing commits =>
      some { s with volume := if writing then s.volume.abandonFile commits else s.volume, closed := true }

def mount (t : Tree) : Mounted := ⟨⟨t, t, false, []⟩, fun _ _ => none, false⟩

/-- A fresh mount has every file that was reported. -/
def Durable : Prop := ∀ dir name content, s.reported dir name = some content →
  s.volume.disk.get dir name = some (.file content)

/-- No commit fails. The volume is closed after a call that commits what was last finished below the thresholds, or with
a stream under way, whose abandon commits it. -/
def Committed : AppCall → Prop
  | .importTree plan _ _ commits => commits = true ∧ ∀ x ∈ plan, x.2.Commits
  | .importFile _ _ _ r | .safWrite _ _ _ r => r.Commits
  | .close writing commits => commits = true ∧ (VolumeCall.Settled s.volume.log ∨ writing = true)

/-! ## The invariant -/

/-- The mount shows what was reported. -/
structure Shown (v : Volume) (reported : Path → Text → Option Bytes) : Prop where
  live : ∀ dir name content, reported dir name = some content → v.live.get dir name = some (.file content)
  synced : v.Synced

variable {s} {s' : Mounted} {v v' : Volume} {reported : Path → Text → Option Bytes}

theorem report_self (dir : Path) (name : Text) (content : Bytes) :
    report reported dir name content dir name = some content := by
  simp [report]

theorem report_other {dir dir' : Path} {name name' : Text} (h : ¬ (dir' = dir ∧ name' = name)) (content : Bytes) :
    report reported dir name content dir' name' = reported dir' name' := by
  unfold report
  by_cases hdir : dir' = dir
  · subst hdir
    simp only [true_and] at h
    rw [Function.update_self, Function.update_of_ne h]
  · rw [Function.update_of_ne hdir]

theorem Shown.same (h : Shown v reported) (hsynced : v'.Synced) (hlive : v'.live = v.live) : Shown v' reported :=
  ⟨by rw [hlive]; exact h.live, hsynced⟩

theorem Shown.elsewhere (h : Shown v reported) {dir dir' : Path} {name name' : Text} {content : Bytes}
    (hfree : v.live.get dir name = none) (hreported : reported dir' name' = some content) :
    dir' = dir → name' ≠ name := by
  rintro rfl rfl
  rw [h.live dir' name' content hreported] at hfree
  cases hfree

theorem Shown.insert (h : Shown v reported) (hsynced : v'.Synced) {dir : Path} {name : Text} {node : Node}
    (hfree : v.live.get dir name = none) (hlive : v'.live = v.live.insert dir name node) : Shown v' reported := by
  refine ⟨?_, hsynced⟩
  intro dir' name' content hreported
  rw [hlive, Tree.get_insert_other (h.elsewhere hfree hreported)]
  exact h.live dir' name' content hreported

theorem Shown.write (h : Shown v reported) (hsynced : v'.Synced) {dir : Path} {name : Text} {content : Bytes}
    (hlive : v'.live = v.live.insert dir name (.file content)) :
    Shown v' (report reported dir name content) := by
  refine ⟨?_, hsynced⟩
  intro dir' name' content' hreported
  by_cases hsame : dir' = dir ∧ name' = name
  · obtain ⟨rfl, rfl⟩ := hsame
    rw [report_self] at hreported
    cases hreported
    rw [hlive, Tree.get_insert_self]
  · rw [report_other hsame] at hreported
    rw [hlive, Tree.get_insert_other (fun hdir hname => hsame ⟨hdir, hname⟩)]
    exact h.live dir' name' content' hreported

theorem Shown.temp {t : Tree} (h : Shown v reported) {dir : Path} {temp : Text} {node : Node}
    (hfree : v.live.get dir temp = none) (ht : t = (v.live.insert dir temp node).erase dir temp) :
    ∀ dir' name' content, reported dir' name' = some content → t.get dir' name' = some (.file content) := by
  intro dir' name' content hreported
  have helse := h.elsewhere hfree hreported
  rw [ht, Tree.get_erase_other helse, Tree.get_insert_other helse]
  exact h.live dir' name' content hreported

theorem reportAll_append (copied : List Copied) (c : Copied) :
    reportAll reported (copied ++ [c]) = report (reportAll reported copied) c.dir c.name c.content := by
  simp [reportAll]

theorem Shown.importEntry {i i' : Import} {destinationRootPath : Path} {mode : CollisionMode} {e : PlanEntry}
    {r : EntryRun} (h : Shown i.volume (reportAll reported i.copied)) (hcommits : r.Commits) {go : Bool}
    (hcall : i.importEntry destinationRootPath mode e r = (go, i')) :
    Shown i'.volume (reportAll reported i'.copied) := by
  obtain ⟨hsynced, ⟨-, rfl⟩ | ⟨known, i₁, hlisting, hstep⟩⟩ := Import.importEntry_step h.synced hcommits hcall
  · exact h
  obtain ⟨hvolume, hcopied₁, -⟩ := Import.listing_spec hlisting
  rw [← hvolume, ← hcopied₁] at h
  cases hstep with
  | stop hlive hcopied hcount =>
    rw [hcopied]
    exact h.same hsynced hlive
  | pass hdir hlive hchildren hcopied hcount =>
    rw [hcopied]
    exact h.same hsynced hlive
  | mkdir hhas hfree hlive hchildren hcopied hcount =>
    rw [hcopied]
    exact h.insert hsynced hfree hlive
  | stop_temp temp content hfree hlive hcopied hcount =>
    rw [hcopied]
    rcases hlive with hlive | hlive
    · exact h.insert hsynced hfree hlive
    · exact ⟨h.temp hfree hlive, hsynced⟩
  | write name content hfile hcontent hname hhas hfree hlive hchildren hcopied hcount =>
    rw [hcopied, reportAll_append]
    exact h.write hsynced hlive
  | replace temp content hfile hcontent hmode hknown htemp hhas hfree hlive hchildren hcopied hcount =>
    rw [hcopied, reportAll_append]
    have hgone : Shown { i₁.volume with
        live := (i₁.volume.live.insert _ temp (.file content)).erase _ temp
        disk := (i₁.volume.live.insert _ temp (.file content)).erase _ temp } (reportAll reported i₁.copied) :=
      ⟨h.temp hfree rfl, fun _ => rfl⟩
    exact hgone.write hsynced hlive

theorem Shown.importEntries {i i' : Import} {destinationRootPath : Path} {mode : CollisionMode}
    {plan : List (PlanEntry × EntryRun)} (h : Shown i.volume (reportAll reported i.copied))
    (hcommits : ∀ x ∈ plan, x.2.Commits) {go : Bool}
    (hcall : Import.importEntries destinationRootPath mode i plan = (go, i')) :
    Shown i'.volume (reportAll reported i'.copied) := by
  induction plan generalizing i with
  | nil =>
    cases hcall
    exact h
  | cons x rest ih =>
    obtain ⟨e, r⟩ := x
    simp only [Import.importEntries] at hcall
    have hr : r.Commits := hcommits (e, r) (by simp)
    split at hcall
    · rename_i i₁ hentry
      cases hcall
      exact h.importEntry hr hentry
    · rename_i i₁ hentry
      exact ih (h.importEntry hr hentry) (fun x hx => hcommits x (List.mem_cons_of_mem _ hx)) hcall

/-- A file that replaces another is renamed, and the one that could not be renamed is deleted. -/
theorem replaceFile_logged {i i' : Import} {e : PlanEntry} {dir : Path} {known : Listing Bool} {r : EntryRun}
    (h : i.volume.Logged) {go : Bool} (hcall : i.replaceFile e dir known r = (go, i')) : i'.volume.Logged := by
  unfold Import.replaceFile at hcall
  simp only at hcall
  split at hcall
  · rename_i v hstream
    cases hcall
    exact h.streamFile hstream
  · split at hcall
    · rename_i w hrename
      cases hcall
      exact .of_empty (Volume.deleteFile_empties (Prod.mk.eta (p := w.deleteFile ..)).symm)
    · rename_i w hrename
      cases hcall
      exact .of_empty (Volume.rename_empties hrename)

theorem writeFile_logged {i i' : Import} {e : PlanEntry} {dir : Path} {name : Text} {known : Listing Bool}
    {r : EntryRun}
    (h : i.volume.Logged) {go : Bool} (hcall : i.writeFile e dir name known r = (go, i')) : i'.volume.Logged := by
  unfold Import.writeFile at hcall
  split at hcall
  · rename_i v hstream
    cases hcall
    exact h.streamFile hstream
  · rename_i content v hstream
    cases hcall
    exact Volume.Logged.streamFile h hstream

theorem importEntry_logged {i i' : Import} {destinationRootPath : Path} {mode : CollisionMode} {e : PlanEntry}
    {r : EntryRun} (h : i.volume.Logged) {go : Bool} (hcall : i.importEntry destinationRootPath mode e r = (go, i')) :
    i'.volume.Logged := by
  unfold Import.importEntry at hcall
  split at hcall
  · cases hcall
    exact h
  simp only at hcall
  split at hcall
  · cases hcall
    exact h
  rename_i known i₁ hlisting
  rw [← (Import.listing_spec hlisting).1] at h
  split at hcall
  · split at hcall
    · cases hcall
      exact h
    · cases hcall
      exact h
    · split at hcall
      · rename_i v hmkdir
        cases hcall
        exact .of_empty (Volume.createDirectory_empties hmkdir)
      · rename_i v hmkdir
        cases hcall
        exact .of_empty (Volume.createDirectory_empties hmkdir)
  · split at hcall
    · cases hcall
      exact h
    · split at hcall
      · cases hcall
        exact h
      · exact writeFile_logged h hcall
      · exact replaceFile_logged h hcall
    · exact writeFile_logged h hcall

theorem importEntries_logged {i i' : Import} {destinationRootPath : Path} {mode : CollisionMode}
    {plan : List (PlanEntry × EntryRun)} (h : i.volume.Logged) {go : Bool}
    (hcall : Import.importEntries destinationRootPath mode i plan = (go, i')) : i'.volume.Logged := by
  induction plan generalizing i with
  | nil =>
    cases hcall
    exact h
  | cons x rest ih =>
    obtain ⟨e, r⟩ := x
    simp only [Import.importEntries] at hcall
    split at hcall
    · rename_i i₁ hentry
      cases hcall
      exact importEntry_logged h hentry
    · rename_i i₁ hentry
      exact ih (importEntry_logged h hentry) hcall

/-- A completed import leaves no batch, and a stopped one what its last calls left. -/
theorem importTree_logged {plan : List (PlanEntry × EntryRun)} {destinationRootPath : Path} {mode : CollisionMode}
    {commits ok : Bool} {i : Import} (h : v.Logged)
    (hcall : Import.importTree v plan destinationRootPath mode commits = some (ok, i)) : i.volume.Logged := by
  unfold Import.importTree at hcall
  split at hcall
  · split at hcall
    · rename_i i₁ hentries
      cases hcall
      exact importEntries_logged h hentries
    · rename_i i₁ hentries
      cases hcall
      exact .of_empty (Volume.commitActiveBatch_empties (Prod.mk.eta (p := Volume.commitActiveBatch _ _)).symm)
  · cases hcall

theorem streamed_logged {dir : Path} {name : Text} {sized cut : Bool} {r : StreamRun} (h : s.volume.Logged) :
    (s.streamed dir name sized cut r).volume.Logged := by
  unfold Mounted.streamed
  split
  · rename_i v hstream
    exact h.streamFile hstream
  · rename_i content v hstream
    exact h.streamFile hstream

theorem step_logged {a : AppCall} (h : s.volume.Logged) (hopen : ∀ writing commits, a ≠ .close writing commits)
    (hstep : s.step a = some s') : s'.volume.Logged := by
  unfold Mounted.step at hstep
  split at hstep
  · cases hstep
  cases a with
  | close writing commits => exact absurd rfl (hopen writing commits)
  | importFile dir name cut r =>
    cases hstep
    exact streamed_logged h
  | safWrite dir name cut r =>
    cases hstep
    exact streamed_logged h
  | importTree plan destinationRootPath collisionMode commits =>
    simp only at hstep
    split at hstep
    · cases hstep
      exact h
    · rename_i ok i himport
      cases hstep
      exact importTree_logged h himport

theorem Shown.streamed {dir : Path} {name : Text} {sized cut : Bool} {r : StreamRun}
    (h : Shown s.volume s.reported) (hcommits : r.Commits) :
    Shown (s.streamed dir name sized cut r).volume (s.streamed dir name sized cut r).reported := by
  unfold Mounted.streamed
  split
  · rename_i v hstream
    obtain ⟨hsynced, hresult⟩ := Volume.streamFile_spec h.synced hcommits hstream
    simp only [reduceCtorEq, false_and, exists_false, or_false, true_and] at hresult
    exact h.same hsynced hresult
  · rename_i content v hstream
    obtain ⟨hsynced, hresult⟩ := Volume.streamFile_spec h.synced hcommits hstream
    obtain ⟨hnone, -⟩ | ⟨content', hsome, -, -, -, hlive⟩ := hresult
    · cases hnone
    · cases hsome
      exact h.write hsynced hlive

theorem Shown.step {a : AppCall} (h : Shown s.volume s.reported) (hopen : ∀ writing commits, a ≠ .close writing commits)
    (hcond : s.Committed a) (hstep : s.step a = some s') : Shown s'.volume s'.reported ∧ s'.closed = false := by
  unfold Mounted.step at hstep
  split at hstep
  · cases hstep
  rename_i hclosed
  simp only [Bool.not_eq_true] at hclosed
  cases a with
  | close writing commits => exact absurd rfl (hopen writing commits)
  | importFile dir name cut r =>
    cases hstep
    refine ⟨h.streamed hcond, ?_⟩
    unfold Mounted.streamed
    split <;> exact hclosed
  | safWrite dir name cut r =>
    cases hstep
    refine ⟨h.streamed hcond, ?_⟩
    unfold Mounted.streamed
    split <;> exact hclosed
  | importTree plan destinationRootPath collisionMode commits =>
    obtain ⟨rfl, hcommits⟩ := hcond
    simp only at hstep
    split at hstep
    · cases hstep
      exact ⟨h, hclosed⟩
    · rename_i ok i himport
      cases hstep
      refine ⟨?_, hclosed⟩
      unfold Import.importTree at himport
      split at himport
      · split at himport
        · rename_i i₁ hentries
          cases himport
          exact Shown.importEntries h hcommits hentries
        · rename_i i₁ hentries
          simp only [Option.some.injEq, Prod.mk.injEq] at himport
          obtain ⟨-, rfl⟩ := himport
          have hshown : Shown i₁.volume (reportAll s.reported i₁.copied) := Shown.importEntries h hcommits hentries
          obtain ⟨w, hbatch, hlive, hdisk⟩ := Volume.commitActiveBatch_called hshown.synced .commitActiveBatch
          rw [hbatch]
          exact hshown.same (fun _ => hdisk.trans hlive.symm) hlive
      · cases himport

/-- The close, after a call that has committed the batch or with a stream under way. -/
theorem Shown.close {writing commits : Bool} (h : Shown s.volume s.reported) (hlogged : s.volume.Logged)
    (hcond : s.Committed (.close writing commits)) (hstep : s.step (.close writing commits) = some s') :
    s'.closed = true ∧ s'.Durable := by
  obtain ⟨rfl, hbatch⟩ := hcond
  unfold Mounted.step at hstep
  split at hstep
  · cases hstep
  cases hstep
  refine ⟨rfl, ?_⟩
  have hdisk : (if writing then s.volume.abandonFile true else s.volume).disk = s.volume.live := by
    cases writing with
    | true =>
      obtain ⟨hlive, hsynced⟩ := Volume.abandonFile_spec h.synced
      rw [if_pos rfl, hsynced (Volume.commitIfNeeded_empties _), hlive]
    | false =>
      simp only [Bool.false_eq_true, or_false] at hbatch
      exact h.synced (hlogged hbatch)
  intro dir name content hreported
  rw [hdisk]
  exact h.live dir name content hreported

/-- What was reported as done is on the drive once the volume is closed. -/
theorem durable_of_committed (t : Tree) (calls : List AppCall)
    (hcond : Machine.Meets step Committed (mount t) calls) (hrun : Machine.run step (mount t) calls = some s)
    (hclosed : s.closed = true) : s.Durable := by
  have hinv : s.closed = false ∧ Shown s.volume s.reported ∧ s.volume.Logged ∨ s.closed = true ∧ s.Durable := by
    refine Machine.run_keeps
      (fun s => s.closed = false ∧ Shown s.volume s.reported ∧ s.volume.Logged ∨ s.closed = true ∧ s.Durable) ?_ calls
      ?_ hcond hrun
    · rintro s a s' (⟨hopen, h, hlogged⟩ | ⟨hclosed, -⟩) hcommitted hstep
      · cases a with
        | close writing commits => exact .inr (h.close hlogged hcommitted hstep)
        | importTree | importFile | safWrite =>
          obtain ⟨hshown, hstill⟩ := h.step (by simp) hcommitted hstep
          exact .inl ⟨hstill, hshown, step_logged hlogged (by simp) hstep⟩
      · simp [step, hclosed] at hstep
    · refine .inl ⟨rfl, ⟨?_, fun _ => rfl⟩, .of_empty rfl⟩
      intro dir name content hreported
      cases hreported
  rcases hinv with ⟨hopen, -⟩ | ⟨-, hdurable⟩
  · rw [hclosed] at hopen
    cases hopen
  · exact hdurable

end Mounted

def smoothStream (data : Bytes) : StreamRun :=
  ⟨⟨false, true, false⟩, [⟨data, true, true, false⟩], true, ⟨false, true, false⟩⟩

def smoothRun (data : Bytes) : EntryRun :=
  ⟨false, true, ⟨true, false⟩, smoothStream data, 0, ⟨true, false⟩, ⟨true, false⟩⟩

-- The file "b" is imported, and then a tree with the one file "a" to its end.
def imports : List AppCall :=
  [.importFile [] [98] false (smoothStream [3]), .importTree [(⟨[[97]], false, true⟩, smoothRun [1, 2])] [] .SKIP true]

theorem imports_durable :
    ∃ s, Machine.run Mounted.step (Mounted.mount fun _ => ∅) (imports ++ [.close false true]) = some s ∧ s.Durable ∧
      s.reported [] [97] = some [1, 2] ∧ s.reported [] [98] = some [3] := by
  have hlog : (Machine.run Mounted.step (Mounted.mount fun _ => ∅) imports).map (fun s => s.volume.log) =
      some ([.beginFile false, .finishFile true false, .beginFile false, .finishFile true false] ++
        [.commitActiveBatch]) := by
    decide
  have hcond : Machine.Meets Mounted.step Mounted.Committed (Mounted.mount fun _ => ∅)
      (imports ++ [.close false true]) := by
    refine ⟨?_, fun s₁ h₁ => ⟨⟨rfl, ?_⟩, fun s₂ h₂ => ⟨⟨rfl, .inl ?_⟩, fun _ _ => trivial⟩⟩⟩
    · simp [Mounted.Committed, StreamRun.Commits, smoothStream]
    · simp [EntryRun.Commits, StreamRun.Commits, smoothRun, smoothStream]
    · rw [show Machine.run Mounted.step (Mounted.mount fun _ => ∅) imports = some s₂ from
        Machine.run_cons.mpr ⟨s₁, h₁, Machine.run_cons.mpr ⟨s₂, h₂, rfl⟩⟩] at hlog
      simp only [Option.map_some, Option.some.injEq] at hlog
      rw [hlog]
      exact VolumeCall.settled_snoc rfl
  obtain ⟨s, hrun, hclosed, hreported⟩ : ∃ s,
      Machine.run Mounted.step (Mounted.mount fun _ => ∅) (imports ++ [.close false true]) = some s ∧
      s.closed = true ∧ s.reported [] [97] = some [1, 2] ∧ s.reported [] [98] = some [3] :=
    ⟨_, rfl, rfl, rfl, rfl⟩
  exact ⟨s, hrun, Mounted.durable_of_committed (fun _ => ∅) _ hcond hrun hclosed, hreported⟩

/-- An import of one file is completed, and the volume is closed with the file in its batch. -/
theorem completed_not_durable :
    ¬ ∀ calls s, Machine.run Mounted.step (Mounted.mount fun _ => ∅) calls = some s → s.closed = true → s.Durable := by
  intro h
  obtain ⟨s, hrun, hclosed, hreported, hdisk⟩ : ∃ s, Machine.run Mounted.step (Mounted.mount fun _ => ∅)
      [.importFile [] [97] false (smoothStream [1, 2]), .close false true] = some s ∧ s.closed = true ∧
      s.reported [] [97] = some [1, 2] ∧ s.volume.disk.get [] [97] = none := ⟨_, rfl, rfl, rfl, rfl⟩
  have hdurable := h _ s hrun hclosed [] [97] [1, 2] hreported
  rw [hdisk] at hdurable
  cases hdurable

end LuksAndroid.App
