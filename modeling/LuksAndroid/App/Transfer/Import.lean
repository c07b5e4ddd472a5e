import LuksAndroid.App.Transfer.Volume

/-!
# Importing a tree

`transfer/TreeImporter.kt`. A relative path is the list of its names, which have no slash. What
can happen on the way is given with each entry of the plan. Progress and timing are left
out.
-/

namespace LuksAndroid.App

inductive CollisionMode where
  | SKIP
  | REPLACE
  | KEEP_BOTH
deriving DecidableEq, Repr

structure PlanEntry where
  relativePath : Path
  isDir : Bool
  sizeKnown : Bool
deriving DecidableEq, Repr

namespace PlanEntry

def parent (e : PlanEntry) : Path := e.relativePath.dropLast

def name (e : PlanEntry) : Text := e.relativePath.getLastD []

end PlanEntry

/-- `checkParentBeforeChild`, with the directories seen so far. -/
def parentBeforeChild (seenDirs : List Path) : List PlanEntry → Bool
  | [] => true
  | e :: rest =>
    e.parent ∈ seenDirs ∧ parentBeforeChild (if e.isDir then e.relativePath :: seenDirs else seenDirs) rest

/-- What happens while an entry is worked on. -/
structure EntryRun where
  cancelled : Bool
  lists : Bool
  mkdir : CallRun
  stream : StreamRun
  nanoTime : Nat
  rename : CallRun
  delete : CallRun
deriving DecidableEq, Repr

/-- No commit fails. -/
def EntryRun.Commits (r : EntryRun) : Prop :=
  r.mkdir.commits = true ∧ r.stream.Commits ∧ r.rename.commits = true ∧ r.delete.commits = true

/-- A file of the plan that was counted as copied. -/
structure Copied where
  entry : PlanEntry
  dir : Path
  name : Text
  content : Bytes
deriving DecidableEq, Repr

/-- The variables of `importTree`. `children` is `DestinationState`. The last two are not in the source. -/
structure Import where
  volume : Volume
  children : Path → Option (Listing Bool)
  filesCopied : Nat
  filesSkipped : Nat
  dirsCreated : Nat
  bytesCopied : Nat
  merged : Nat
  copied : List Copied

-- ".transfer-tmp-"
def tempText : Text := [46, 116, 114, 97, 110, 115, 102, 101, 114, 45, 116, 109, 112, 45]

namespace Import

variable (s : Import)

/-- The listing of a directory, as `DestinationState` sees it. -/
def isDirs (entries : Listing Node) : Listing Bool := (entries.entries.map (Sigma.map id fun _ => Node.isDir)).toAList

def listing (dir : Path) (lists : Bool) : Option (Listing Bool × Import) :=
  match s.children dir with
  | some known => some (known, s)
  | none =>
    if lists ∧ s.volume.live.hasDir dir then
      let known := isDirs (s.volume.live dir)
      some (known, { s with children := Function.update s.children dir (some known) })
    else none

def recordCreatedDirectory (dir : Path) (name : Text) (known : Listing Bool) : Import :=
  let children := Function.update s.children dir (some (known.insert name true))
  { s with children := Function.update children (dir ++ [name]) (some ((children (dir ++ [name])).getD ∅)) }

def recordCreatedFile (dir : Path) (name : Text) (known : Listing Bool) : Import :=
  { s with children := Function.update s.children dir (some (known.insert name false)) }

/-- A file has landed. -/
def counted (e : PlanEntry) (dir : Path) (name : Text) (content : Bytes) (known : Listing Bool) : Import :=
  { s.recordCreatedFile dir name known with
    filesCopied := s.filesCopied + 1
    bytesCopied := s.bytesCopied + content.length
    copied := s.copied ++ [⟨e, dir, name, content⟩] }

/-- A file for which no other has to go. -/
def writeFile (e : PlanEntry) (dir : Path) (name : Text) (known : Listing Bool) (r : EntryRun) : Bool × Import :=
  match s.volume.streamFile dir name e.sizeKnown false r.stream with
  | (none, v) => (false, { s with volume := v })
  | (some content, v) => (true, { s with volume := v }.counted e dir name content known)

def replaceFile (e : PlanEntry) (dir : Path) (known : Listing Bool) (r : EntryRun) : Bool × Import :=
  let tempName := Text.uniqueName known.keys (tempText ++ e.name ++ 45 :: Text.decimal r.nanoTime)
  match s.volume.streamFile dir tempName e.sizeKnown false r.stream with
  | (none, v) => (false, { s with volume := v })
  | (some content, v) =>
    match v.rename dir tempName e.name r.rename with
    | (false, v) => (false, { s with volume := (v.deleteFile dir tempName r.delete).2 })
    | (true, v) => (true, { s with volume := v }.counted e dir e.name content known)

/-- Whether the loop goes on, and the variables. -/
def importEntry (destinationRootPath : Path) (collisionMode : CollisionMode) (e : PlanEntry) (r : EntryRun) :
    Bool × Import :=
  if r.cancelled then (false, s)
  else
    let dir := destinationRootPath ++ e.parent
    match s.listing dir r.lists with
    | none => (false, s)
    | some (known, s) =>
      if e.isDir then
        match known.lookup e.name with
        | some true => (true, { s with merged := s.merged + 1 })
        | some false => (false, s)
        | none =>
          match s.volume.createDirectory dir e.name r.mkdir with
          | (false, v) => (false, { s with volume := v })
          | (true, v) =>
            (true, { s with volume := v, dirsCreated := s.dirsCreated + 1 }.recordCreatedDirectory dir e.name known)
      else
        match known.lookup e.name with
        | some true => (false, s)
        | some false =>
          match collisionMode with
          | .SKIP => (true, { s with filesSkipped := s.filesSkipped + 1 })
          | .KEEP_BOTH => s.writeFile e dir (Text.uniqueName known.keys e.name) known r
          | .REPLACE => s.replaceFile e dir known r
        | none => s.writeFile e dir e.name known r

def importEntries (destinationRootPath : Path) (collisionMode : CollisionMode) :
    Import → List (PlanEntry × EntryRun) → Bool × Import
  | s, [] => (true, s)
  | s, (e, r) :: rest =>
    match s.importEntry destinationRootPath collisionMode e r with
    | (false, s) => (false, s)
    | (true, s) => importEntries destinationRootPath collisionMode s rest

def start (v : Volume) : Import where
  volume := v
  children _ := none
  filesCopied := 0
  filesSkipped := 0
  dirsCreated := 0
  bytesCopied := 0
  merged := 0
  copied := []

/-- `importTree`: whether there was no failure, and the variables at the end. None when the plan is out of order. -/
def importTree (v : Volume) (plan : List (PlanEntry × EntryRun)) (destinationRootPath : Path)
    (collisionMode : CollisionMode) (commits : Bool) : Option (Bool × Import) :=
  if parentBeforeChild [[]] (plan.map Prod.fst) then
    match importEntries destinationRootPath collisionMode (start v) plan with
    | (false, s) => some (false, s)
    | (true, s) =>
      let (ok, v) := (s.volume.called .commitActiveBatch).commitActiveBatch commits
      some (ok, { s with volume := v })
  else none

/-! ## What an entry can do -/

/-- The entries that the loop has passed. -/
def count : Nat := s.filesCopied + s.filesSkipped + s.dirsCreated + s.merged

/-- From `s`, in which the directory has been listed, to `s'`, when no commit fails. -/
inductive EntryStep (mode : CollisionMode) (e : PlanEntry) (dir : Path) (known : Listing Bool) (chunks : List Chunk)
    (s s' : Import) : Bool → Prop where
  | stop (hlive : s'.volume.live = s.volume.live) (hcopied : s'.copied = s.copied) (hcount : s'.count = s.count) :
    EntryStep mode e dir known chunks s s' false
  -- the temporary file was written, and the rename failed
  | stop_temp (temp : Text) (content : Bytes) (hfree : s.volume.live.get dir temp = none)
    (hlive : s'.volume.live = s.volume.live.insert dir temp (.file content) ∨
      s'.volume.live = (s.volume.live.insert dir temp (.file content)).erase dir temp)
    (hcopied : s'.copied = s.copied) (hcount : s'.count = s.count) :
    EntryStep mode e dir known chunks s s' false
  -- a file that is skipped, or a directory that is there
  | pass (hdir : e.isDir = true → known.lookup e.name = some true) (hlive : s'.volume.live = s.volume.live)
    (hchildren : s'.children = s.children) (hcopied : s'.copied = s.copied) (hcount : s'.count = s.count + 1) :
    EntryStep mode e dir known chunks s s' true
  | mkdir (hhas : s.volume.live.hasDir dir = true) (hfree : s.volume.live.get dir e.name = none)
    (hlive : s'.volume.live = s.volume.live.insert dir e.name .dir)
    (hchildren : s'.children = (s.recordCreatedDirectory dir e.name known).children) (hcopied : s'.copied = s.copied)
    (hcount : s'.count = s.count + 1) : EntryStep mode e dir known chunks s s' true
  | write (name : Text) (content : Bytes) (hfile : e.isDir = false)
    (hcontent : Volume.copyLoop [] chunks = some content)
    (hname : mode = .REPLACE → name = e.name) (hhas : s.volume.live.hasDir dir = true)
    (hfree : s.volume.live.get dir name = none) (hlive : s'.volume.live = s.volume.live.insert dir name (.file content))
    (hchildren : s'.children = (s.recordCreatedFile dir name known).children)
    (hcopied : s'.copied = s.copied ++ [⟨e, dir, name, content⟩]) (hcount : s'.count = s.count + 1) :
    EntryStep mode e dir known chunks s s' true
  | replace (temp : Text) (content : Bytes) (hfile : e.isDir = false)
    (hcontent : Volume.copyLoop [] chunks = some content)
    (hmode : mode = .REPLACE) (hknown : known.lookup e.name = some false) (htemp : temp ≠ e.name)
    (hhas : s.volume.live.hasDir dir = true) (hfree : s.volume.live.get dir temp = none)
    (hlive : s'.volume.live =
      ((s.volume.live.insert dir temp (.file content)).erase dir temp).insert dir e.name (.file content))
    (hchildren : s'.children = (s.recordCreatedFile dir e.name known).children)
    (hcopied : s'.copied = s.copied ++ [⟨e, dir, e.name, content⟩]) (hcount : s'.count = s.count + 1) :
    EntryStep mode e dir known chunks s s' true

variable {s} {s' : Import} {mode : CollisionMode} {e : PlanEntry} {dir : Path} {known : Listing Bool} {r : EntryRun}

theorem writeFile_step (h : s.volume.Synced) (hcommits : r.Commits) (hfile : e.isDir = false) {name : Text}
    (hname : mode = .REPLACE → name = e.name) {go : Bool} (hcall : s.writeFile e dir name known r = (go, s')) :
    s'.volume.Synced ∧ EntryStep mode e dir known r.stream.chunks s s' go := by
  unfold writeFile at hcall
  split at hcall
  · rename_i v hstream
    cases hcall
    obtain ⟨hsynced, hresult⟩ := Volume.streamFile_spec h hcommits.2.1 hstream
    simp only [reduceCtorEq, false_and, exists_false, or_false, true_and] at hresult
    exact ⟨hsynced, .stop hresult rfl rfl⟩
  · rename_i content v hstream
    cases hcall
    obtain ⟨hsynced, hresult⟩ := Volume.streamFile_spec h hcommits.2.1 hstream
    obtain ⟨hnone, -⟩ | ⟨content', hsome, hloop, hhas, hfree, hlive⟩ := hresult
    · cases hnone
    · cases hsome
      refine ⟨hsynced, .write name content hfile hloop hname hhas hfree hlive rfl rfl ?_⟩
      simp only [counted, recordCreatedFile, count]
      omega

theorem replaceFile_step (h : s.volume.Synced) (hcommits : r.Commits) (hfile : e.isDir = false)
    (hmode : mode = .REPLACE)
    (hknown : known.lookup e.name = some false) {go : Bool} (hcall : s.replaceFile e dir known r = (go, s')) :
    s'.volume.Synced ∧ EntryStep mode e dir known r.stream.chunks s s' go := by
  unfold replaceFile at hcall
  have htemp := Text.uniqueName_not_mem known.keys (tempText ++ e.name ++ 45 :: Text.decimal r.nanoTime)
  generalize Text.uniqueName known.keys (tempText ++ e.name ++ 45 :: Text.decimal r.nanoTime) = temp at hcall htemp
  have hne : temp ≠ e.name := by
    rintro rfl
    rw [← AList.mem_keys, ← AList.lookup_isSome, hknown] at htemp
    exact htemp rfl
  simp only at hcall
  split at hcall
  · rename_i v hstream
    cases hcall
    obtain ⟨hsynced, hresult⟩ := Volume.streamFile_spec h hcommits.2.1 hstream
    simp only [reduceCtorEq, false_and, exists_false, or_false, true_and] at hresult
    exact ⟨hsynced, .stop hresult rfl rfl⟩
  · rename_i content v hstream
    obtain ⟨hsynced, hresult⟩ := Volume.streamFile_spec h hcommits.2.1 hstream
    obtain ⟨hnone, -⟩ | ⟨content', hsome, hloop, hhas, hfree, hlive⟩ := hresult
    · cases hnone
    · cases hsome
      have hwritten : v.live.get dir temp = some (.file content) := by
        rw [hlive, Tree.get_insert_self]
      split at hcall
      · rename_i w hrename
        cases hcall
        obtain ⟨hsynced', hresult⟩ := Volume.rename_spec hsynced hcommits.2.2.1 hwritten hrename
        simp only [Bool.false_eq_true, false_and, or_false, true_and] at hresult
        have hleft : w.live.get dir temp = some (.file content) := by
          rw [hresult, hwritten]
        obtain ⟨hdeleted, hlives⟩ := Volume.deleteFile_spec hsynced' hcommits.2.2.2 hleft
          (Prod.mk.eta (p := w.deleteFile dir temp r.delete)).symm
        refine ⟨hdeleted, .stop_temp temp content hfree ?_ rfl rfl⟩
        rw [hresult, hlive] at hlives
        exact hlives
      · rename_i w hrename
        cases hcall
        obtain ⟨hsynced', hresult⟩ := Volume.rename_spec hsynced hcommits.2.2.1 hwritten hrename
        simp only [Bool.true_eq_false, false_and, false_or, true_and] at hresult
        refine ⟨hsynced', .replace temp content hfile hloop hmode hknown hne hhas hfree ?_ rfl rfl ?_⟩
        · rw [← hlive]
          exact hresult
        · simp only [counted, recordCreatedFile, count]
          omega

theorem listing_spec {lists : Bool} {s₁ : Import} (h : s.listing dir lists = some (known, s₁)) :
    s₁.volume = s.volume ∧ s₁.copied = s.copied ∧ s₁.count = s.count ∧ s₁.children dir = some known ∧
      (s.children dir = some known ∧ s₁ = s ∨
        known = isDirs (s.volume.live dir) ∧ s₁.children = Function.update s.children dir (some known)) := by
  unfold listing at h
  split at h
  · rename_i known' hknown
    cases h
    exact ⟨rfl, rfl, rfl, hknown, .inl ⟨hknown, rfl⟩⟩
  · split at h
    · cases h
      exact ⟨rfl, rfl, rfl, Function.update_self .., .inr ⟨rfl, rfl⟩⟩
    · cases h

theorem importEntry_step {destinationRootPath : Path} (h : s.volume.Synced) (hcommits : r.Commits) {go : Bool}
    (hcall : s.importEntry destinationRootPath mode e r = (go, s')) :
    s'.volume.Synced ∧ (go = false ∧ s' = s ∨ ∃ known s₁, s.listing (destinationRootPath ++ e.parent) r.lists =
      some (known, s₁) ∧ EntryStep mode e (destinationRootPath ++ e.parent) known r.stream.chunks s₁ s' go) := by
  unfold importEntry at hcall
  split at hcall
  · cases hcall
    exact ⟨h, .inl ⟨rfl, rfl⟩⟩
  simp only at hcall
  split at hcall
  · cases hcall
    exact ⟨h, .inl ⟨rfl, rfl⟩⟩
  rename_i known s₁ hlisting
  rw [hlisting]
  have h₁ : s₁.volume.Synced := by
    rw [(listing_spec hlisting).1]
    exact h
  suffices hstep : s'.volume.Synced ∧
      EntryStep mode e (destinationRootPath ++ e.parent) known r.stream.chunks s₁ s' go from
    ⟨hstep.1, .inr ⟨known, s₁, rfl, hstep.2⟩⟩
  split at hcall
  · split at hcall
    · rename_i hknown
      cases hcall
      exact ⟨h₁, .pass (fun _ => hknown) rfl rfl rfl rfl⟩
    · cases hcall
      exact ⟨h₁, .stop rfl rfl rfl⟩
    · split at hcall
      · rename_i v hmkdir
        cases hcall
        obtain ⟨hsynced, hresult⟩ := Volume.createDirectory_spec h₁ hcommits.1 hmkdir
        simp only [Bool.false_eq_true, false_and, or_false, true_and] at hresult
        exact ⟨hsynced, .stop hresult rfl rfl⟩
      · rename_i v hmkdir
        cases hcall
        obtain ⟨hsynced, hresult⟩ := Volume.createDirectory_spec h₁ hcommits.1 hmkdir
        simp only [Bool.true_eq_false, false_and, false_or, true_and] at hresult
        obtain ⟨hhas, hfree, hlive⟩ := hresult
        refine ⟨hsynced, .mkdir hhas hfree hlive rfl rfl ?_⟩
        simp only [recordCreatedDirectory, count]
        omega
  · rename_i hdir
    have hfile : e.isDir = false := by simpa using hdir
    split at hcall
    · cases hcall
      exact ⟨h₁, .stop rfl rfl rfl⟩
    · rename_i hknown
      split at hcall
      · cases hcall
        refine ⟨h₁, .pass (fun hdir' => absurd hdir' hdir) rfl rfl rfl ?_⟩
        simp only [count]
        omega
      · exact writeFile_step h₁ hcommits hfile (fun hmode => by cases hmode) hcall
      · exact replaceFile_step h₁ hcommits hfile rfl hknown hcall
    · exact writeFile_step h₁ hcommits hfile (fun _ => rfl) hcall

end Import

end LuksAndroid.App
