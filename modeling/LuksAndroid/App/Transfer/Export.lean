import LuksAndroid.App.Transfer.Walk

/-!
# Exporting a tree

`transfer/TreeExporter.kt`. A document provider gives a document the name it likes, and tells it; it may fail
before it has done what it was asked for, or after. What can happen on the way is given with each entry of the
plan. Types, progress and timing are left out.
-/

namespace LuksAndroid.App

structure Document where
  parent : Nat
  name : Text
  isDir : Bool
  content : Bytes
deriving DecidableEq, Repr

/-- The documents below the root of the destination, by their ids. -/
structure Provider where
  root : Nat
  docs : AList fun _ : Nat => Document

structure CreatedDocument where
  id : Nat
  name : Text
deriving DecidableEq, Repr

/-- Whether a call is carried out, and if so whether it returns. -/
structure ProviderRun where
  does : Bool
  returns : Bool
deriving DecidableEq, Repr

structure OutputRun where
  opens : Bool
  chunks : List Chunk
  closes : Bool
  -- what the document has when the stream breaks off
  left : Bytes
deriving DecidableEq, Repr

def OutputRun.source (r : OutputRun) : Bytes := (r.chunks.map Chunk.data).flatten

/-- What happens while an entry is worked on. -/
structure ExportRun where
  cancelled : Bool
  lists : Bool
  -- the name that a document gets when the provider is asked for this one
  assigned : Text → Text
  create : ProviderRun
  createdId : Nat
  output : OutputRun
  nanoTime : Nat
  delete : ProviderRun
  rename : ProviderRun
  -- a document may have another id when it was renamed
  renamedId : Nat

namespace Provider

variable (p : Provider)

def get (id : Nat) : Option Document := p.docs.lookup id

def put (id : Nat) (d : Document) : Provider := { p with docs := p.docs.insert id d }

def drop (id : Nat) : Provider := { p with docs := p.docs.erase id }

def children (dirId : Nat) : List (Sigma fun _ : Nat => Document) := p.docs.entries.filter fun d => d.2.parent = dirId

/-- An id that no document has. -/
def free (id : Nat) : Bool := id ≠ p.root ∧ id ∉ p.docs

def nameFree (dirId : Nat) (name : Text) : Bool := (p.children dirId).all fun d => d.2.name ≠ name

def create (parentId : Nat) (name : Text) (isDir : Bool) (r : ExportRun) : Option CreatedDocument × Provider :=
  if r.create.does ∧ p.free r.createdId ∧ p.nameFree parentId (r.assigned name) then
    (if r.create.returns then some ⟨r.createdId, r.assigned name⟩ else none,
      p.put r.createdId ⟨parentId, r.assigned name, isDir, []⟩)
  else (none, p)

def write (docId : Nat) (content : Bytes) : Provider :=
  match p.get docId with
  | some d => p.put docId { d with content := content }
  | none => p

/-- All that was read, unless something was thrown. -/
def streamFile (docId : Nat) (r : OutputRun) : Option Bytes × Provider :=
  if r.opens then
    match (if r.closes then Volume.copyLoop [] r.chunks else none) with
    | some content => (some content, p.write docId content)
    | none => (none, p.write docId r.left)
  else (none, p)

def delete (docId : Nat) (r : ProviderRun) : Bool × Provider :=
  if r.does ∧ docId ∈ p.docs then (r.returns, p.drop docId) else (false, p)

def rename (docId : Nat) (newName : Text) (r : ExportRun) : Option CreatedDocument × Provider :=
  match p.get docId with
  | none => (none, p)
  | some d =>
    let others := p.drop docId
    if r.rename.does ∧ others.free r.renamedId ∧ others.nameFree d.parent (r.assigned newName) then
      (if r.rename.returns then some ⟨r.renamedId, r.assigned newName⟩ else none,
        others.put r.renamedId { d with name := r.assigned newName })
    else (none, p)

/-! ## What the calls do -/

variable {p} {p' : Provider} {r : ExportRun}

@[simp]
theorem get_put (id : Nat) (d : Document) (id' : Nat) :
    (p.put id d).get id' = if id' = id then some d else p.get id' := by
  unfold get put
  split
  · rename_i heq
    rw [heq, AList.lookup_insert]
  · rename_i hne
    rw [AList.lookup_insert_ne hne]

@[simp]
theorem get_drop (id id' : Nat) : (p.drop id).get id' = if id' = id then none else p.get id' := by
  unfold get drop
  split
  · rename_i heq
    rw [heq, AList.lookup_erase]
  · rename_i hne
    rw [AList.lookup_erase_ne hne]

theorem free_spec {id : Nat} (h : p.free id = true) : id ≠ p.root ∧ p.get id = none := by
  simpa [free, get, AList.lookup_eq_none] using h

/-- Nothing has gone, or changed. -/
def Keeps (p p' : Provider) : Prop := ∀ id d, p.get id = some d → p'.get id = some d

theorem Keeps.put {id : Nat} (hfree : p.get id = none) (d : Document) : p.Keeps (p.put id d) := by
  intro id' d' hget
  rw [get_put, if_neg, hget]
  rintro rfl
  rw [hfree] at hget
  cases hget

theorem create_spec {parentId : Nat} {name : Text} {isDir : Bool} {made : Option CreatedDocument}
    (h : p.create parentId name isDir r = (made, p')) :
    made = none ∧ p.Keeps p' ∨ made = some ⟨r.createdId, r.assigned name⟩ ∧ r.createdId ≠ p.root ∧
      p.get r.createdId = none ∧ p' = p.put r.createdId ⟨parentId, r.assigned name, isDir, []⟩ := by
  unfold create at h
  split at h
  · rename_i hdoes
    obtain ⟨hroot, hfree⟩ := free_spec hdoes.2.1
    cases h
    split
    · exact .inr ⟨rfl, hroot, hfree, rfl⟩
    · exact .inl ⟨rfl, Keeps.put hfree _⟩
  · cases h
    exact .inl ⟨rfl, fun _ _ hget => hget⟩

theorem streamFile_spec {id : Nat} {d : Document} {o : OutputRun} {result : Option Bytes} (hfree : p.get id = none)
    (h : (p.put id d).streamFile id o = (result, p')) :
    result = none ∧ p.Keeps p' ∨ ∃ content, result = some content ∧ Volume.copyLoop [] o.chunks = some content ∧
      p'.root = p.root ∧ ∀ id', p'.get id' = if id' = id then some { d with content := content } else p.get id' := by
  have hwrite (content : Bytes) :
      (p.put id d).write id content = (p.put id d).put id { d with content := content } := by
    simp [write]
  have hkeeps (content : Bytes) : p.Keeps ((p.put id d).write id content) := by
    intro id' d' hget
    have hne : id' ≠ id := by
      rintro rfl
      rw [hfree] at hget
      cases hget
    simp [hwrite, hne, hget]
  unfold streamFile at h
  split at h
  · split at h
    · rename_i content hcontent
      cases h
      split at hcontent
      · refine .inr ⟨content, rfl, hcontent, ?_, ?_⟩
        · rw [hwrite]
          rfl
        · intro id'
          rw [hwrite, get_put, get_put]
          split
          · rfl
          · rfl
      · cases hcontent
    · cases h
      exact .inl ⟨rfl, hkeeps _⟩
  · cases h
    exact .inl ⟨rfl, Keeps.put hfree d⟩

theorem delete_spec {id : Nat} {o : ProviderRun} {ok : Bool} (h : p.delete id o = (ok, p')) :
    ok = false ∧ p' = p ∨ p' = p.drop id ∧ (p.get id).isSome = true := by
  unfold delete at h
  split at h
  · rename_i hdoes
    cases h
    exact .inr ⟨rfl, AList.lookup_isSome.mpr hdoes.2⟩
  · cases h
    exact .inl ⟨rfl, rfl⟩

theorem rename_spec {id : Nat} {newName : Text} {d : Document} {made : Option CreatedDocument}
    (hget : p.get id = some d)
    (h : p.rename id newName r = (made, p')) :
    made = none ∧ p' = p ∨ (p.drop id).get r.renamedId = none ∧ r.renamedId ≠ p.root ∧
      p' = (p.drop id).put r.renamedId { d with name := r.assigned newName } ∧
      (made = none ∨ made = some ⟨r.renamedId, r.assigned newName⟩) := by
  unfold rename at h
  rw [hget] at h
  simp only at h
  split at h
  · rename_i hdoes
    obtain ⟨hroot, hfree⟩ := free_spec hdoes.2.1
    cases h
    refine .inr ⟨hfree, hroot, rfl, ?_⟩
    split
    · exact .inr rfl
    · exact .inl rfl
  · cases h
    exact .inl ⟨rfl, rfl⟩

end Provider

/-- A file of the plan that was counted as copied. -/
structure Exported where
  entry : PlanEntry
  parentId : Nat
  id : Nat
  content : Bytes
deriving DecidableEq, Repr

/-- The variables of `exportTree`. `dirIds` and `children` are `DestinationTree`, with `childIds` in
`children`. The last two are not in the source. -/
structure Export where
  provider : Provider
  dirIds : Path → Option Nat
  children : Nat → Option (Listing (Nat × Bool))
  filesCopied : Nat
  filesSkipped : Nat
  dirsCreated : Nat
  bytesCopied : Nat
  merged : Nat
  copied : List Exported

namespace Export

variable (s : Export)

def byName (children : List (Sigma fun _ : Nat => Document)) : Listing (Nat × Bool) :=
  children.foldl (fun known d => known.insert d.2.name (d.1, d.2.isDir)) ∅

def listing (dirId : Nat) (lists : Bool) : Option (Listing (Nat × Bool) × Export) :=
  match s.children dirId with
  | some known => some (known, s)
  | none =>
    if lists then
      let known := byName (s.provider.children dirId)
      some (known, { s with children := Function.update s.children dirId (some known) })
    else none

def recordCreatedDirectory (relativePath : Path) (parentId : Nat) (created : CreatedDocument)
    (known : Listing (Nat × Bool)) : Export :=
  let children := Function.update s.children parentId (some (known.insert created.name (created.id, true)))
  { s with
    dirIds := Function.update s.dirIds relativePath (some created.id)
    children := Function.update children created.id (some ∅) }

def recordCreatedFile (parentId : Nat) (created : CreatedDocument) (known : Listing (Nat × Bool)) : Export :=
  { s with children := Function.update s.children parentId (some (known.insert created.name (created.id, false))) }

/-- A file has landed. -/
def counted (e : PlanEntry) (parentId : Nat) (created : CreatedDocument) (content : Bytes)
    (known : Listing (Nat × Bool)) : Export :=
  { s.recordCreatedFile parentId created known with
    filesCopied := s.filesCopied + 1
    bytesCopied := s.bytesCopied + content.length
    copied := s.copied ++ [⟨e, parentId, created.id, content⟩] }

/-- A document for which no other has to go. -/
def writeDocument (e : PlanEntry) (parentId : Nat) (requestedName : Text) (known : Listing (Nat × Bool))
    (r : ExportRun) :
    Bool × Export :=
  match s.provider.create parentId requestedName false r with
  | (none, p) => (false, { s with provider := p })
  | (some created, p) =>
    match p.streamFile created.id r.output with
    | (none, p) => (false, { s with provider := p })
    | (some content, p) => (true, { s with provider := p }.counted e parentId created content known)

/-- The new bytes are written before the document `existingId` goes. -/
def replaceDocument (e : PlanEntry) (parentId existingId : Nat) (known : Listing (Nat × Bool)) (r : ExportRun) :
    Bool × Export :=
  let requestedName := Text.uniqueName known.keys (tempText ++ e.name ++ 45 :: Text.decimal r.nanoTime)
  match s.provider.create parentId requestedName false r with
  | (none, p) => (false, { s with provider := p })
  | (some created, p) =>
    match p.streamFile created.id r.output with
    | (none, p) => (false, { s with provider := p })
    | (some content, p) =>
      match p.delete existingId r.delete with
      | (false, p) => (false, { s with provider := p })
      | (true, p) =>
        let known := known.erase e.name
        match p.rename created.id e.name r with
        | (none, p) => (false, { s with provider := p, children := Function.update s.children parentId (some known) })
        | (some created, p) => (true, { s with provider := p }.counted e parentId created content known)

/-- Whether the loop goes on, and the variables. -/
def exportEntry (collisionMode : CollisionMode) (e : PlanEntry) (r : ExportRun) : Bool × Export :=
  if r.cancelled then (false, s)
  else
    match s.dirIds e.parent with
    | none => (false, s)
    | some parentId =>
      match s.listing parentId r.lists with
      | none => (false, s)
      | some (known, s) =>
        if e.isDir then
          match known.lookup e.name with
          | some (id, true) =>
            (true, { s with dirIds := Function.update s.dirIds e.relativePath (some id), merged := s.merged + 1 })
          | some (_, false) => (false, s)
          | none =>
            match s.provider.create parentId e.name true r with
            | (none, p) => (false, { s with provider := p })
            | (some created, p) =>
              (true, { s with provider := p, dirsCreated := s.dirsCreated + 1 }.recordCreatedDirectory e.relativePath
                parentId created known)
        else
          match known.lookup e.name with
          | some (_, true) => (false, s)
          | some (id, false) =>
            match collisionMode with
            | .SKIP => (true, { s with filesSkipped := s.filesSkipped + 1 })
            | .KEEP_BOTH => s.writeDocument e parentId (Text.uniqueName known.keys e.name) known r
            | .REPLACE => s.replaceDocument e parentId id known r
          | none => s.writeDocument e parentId e.name known r

def exportEntries (collisionMode : CollisionMode) : Export → List (PlanEntry × ExportRun) → Bool × Export
  | s, [] => (true, s)
  | s, (e, r) :: rest =>
    match s.exportEntry collisionMode e r with
    | (false, s) => (false, s)
    | (true, s) => exportEntries collisionMode s rest

def start (p : Provider) : Export where
  provider := p
  dirIds path := if path = [] then some p.root else none
  children _ := none
  filesCopied := 0
  filesSkipped := 0
  dirsCreated := 0
  bytesCopied := 0
  merged := 0
  copied := []

/-- `exportTree`: whether there was no failure, and the variables at the end. None when the plan is out of order. -/
def exportTree (p : Provider) (plan : List (PlanEntry × ExportRun)) (collisionMode : CollisionMode) :
    Option (Bool × Export) :=
  if parentBeforeChild [[]] (plan.map Prod.fst) then some (exportEntries collisionMode (start p) plan) else none

/-! ## What an entry can do -/

/-- The entries that the loop has passed. -/
def count : Nat := s.filesCopied + s.filesSkipped + s.dirsCreated + s.merged

/-- From `s`, in which the directory has been listed, to `s'`. -/
inductive EntryStep (mode : CollisionMode) (e : PlanEntry) (r : ExportRun) (parentId : Nat)
    (known : Listing (Nat × Bool)) (s s' : Export) : Bool → Prop where
  -- the document that was to be replaced may be gone
  | stop (hkept : ∀ id d, s.provider.get id = some d → s'.provider.get id = some d ∨
      mode = .REPLACE ∧ e.isDir = false ∧ known.lookup e.name = some (id, false))
    (hdirIds : s'.dirIds = s.dirIds) (hcopied : s'.copied = s.copied) (hcount : s'.count = s.count) :
    EntryStep mode e r parentId known s s' false
  | skip (hfile : e.isDir = false) (hprovider : s'.provider = s.provider) (hdirIds : s'.dirIds = s.dirIds)
    (hchildren : s'.children = s.children) (hcopied : s'.copied = s.copied) (hcount : s'.count = s.count + 1) :
    EntryStep mode e r parentId known s s' true
  | merge (id : Nat) (hdir : e.isDir = true) (hlookup : known.lookup e.name = some (id, true))
    (hprovider : s'.provider = s.provider) (hdirIds : s'.dirIds = Function.update s.dirIds e.relativePath (some id))
    (hchildren : s'.children = s.children) (hcopied : s'.copied = s.copied) (hcount : s'.count = s.count + 1) :
    EntryStep mode e r parentId known s s' true
  | mkdir (id : Nat) (hdir : e.isDir = true) (hroot : id ≠ s.provider.root) (hfree : s.provider.get id = none)
    (hprovider : s'.provider = s.provider.put id ⟨parentId, r.assigned e.name, true, []⟩)
    (hdirIds : s'.dirIds = Function.update s.dirIds e.relativePath (some id))
    (hchildren : s'.children =
      (s.recordCreatedDirectory e.relativePath parentId ⟨id, r.assigned e.name⟩ known).children)
    (hcopied : s'.copied = s.copied) (hcount : s'.count = s.count + 1) : EntryStep mode e r parentId known s s' true
  -- a document is `gone` when it was replaced
  | land (id : Nat) (name : Text) (content : Bytes) (gone : Option Nat) (known' : Listing (Nat × Bool))
    (hfile : e.isDir = false) (hcontent : Volume.copyLoop [] r.output.chunks = some content)
    (hname : mode = .REPLACE → name = r.assigned e.name)
    (hgone : ∀ id', gone = some id' → mode = .REPLACE ∧ known.lookup e.name = some (id', false))
    (hroot : id ≠ s.provider.root ∧ s'.provider.root = s.provider.root)
    (hfree : s.provider.get id = none ∨ gone = some id)
    (hget : ∀ id', s'.provider.get id' = if id' = id then some ⟨parentId, name, false, content⟩
      else if gone = some id' then none else s.provider.get id')
    (hknown : ∀ name' x, known'.lookup name' = some x → name' = name ∧ x = (id, false) ∨
      known.lookup name' = some x ∧ (gone ≠ none → name' ≠ e.name))
    (hdirIds : s'.dirIds = s.dirIds) (hchildren : s'.children = Function.update s.children parentId (some known'))
    (hcopied : s'.copied = s.copied ++ [⟨e, parentId, id, content⟩]) (hcount : s'.count = s.count + 1) :
    EntryStep mode e r parentId known s s' true

variable {s} {s' : Export} {mode : CollisionMode} {e : PlanEntry} {parentId : Nat} {known : Listing (Nat × Bool)}
  {r : ExportRun}

/-- The document that a listing has for a name. -/
def Sound (p : Provider) (parentId : Nat) (known : Listing (Nat × Bool)) : Prop :=
  ∀ name id isDir, known.lookup name = some (id, isDir) →
    ∃ d, p.get id = some d ∧ d.parent = parentId ∧ d.name = name ∧ d.isDir = isDir

theorem writeDocument_step {requestedName : Text} (hfile : e.isDir = false)
    (hname : mode = .REPLACE → requestedName = e.name) {go : Bool}
    (hcall : s.writeDocument e parentId requestedName known r = (go, s')) :
    EntryStep mode e r parentId known s s' go := by
  unfold writeDocument at hcall
  split at hcall
  · rename_i p hcreate
    cases hcall
    rcases Provider.create_spec hcreate with ⟨-, hkeeps⟩ | ⟨hsome, -⟩
    · exact .stop (fun id d hget => .inl (hkeeps id d hget)) rfl rfl rfl
    · cases hsome
  · rename_i created p hcreate
    rcases Provider.create_spec hcreate with ⟨hnone, -⟩ | ⟨hsome, hroot, hfree, rfl⟩
    · cases hnone
    cases hsome
    split at hcall
    · rename_i p' hstream
      cases hcall
      rcases Provider.streamFile_spec hfree hstream with ⟨-, hkeeps⟩ | ⟨content, hsome, -⟩
      · exact .stop (fun id d hget => .inl (hkeeps id d hget)) rfl rfl rfl
      · cases hsome
    · rename_i content p' hstream
      cases hcall
      rcases Provider.streamFile_spec hfree hstream with ⟨hnone, -⟩ | ⟨content', hsome, hcontent, hroot', hget⟩
      · cases hnone
      cases hsome
      refine .land r.createdId (r.assigned requestedName) content none _ hfile hcontent ?_ ?_ ⟨hroot, hroot'⟩
        (.inl hfree)
        ?_ ?_ rfl rfl rfl ?_
      · intro hmode
        rw [hname hmode]
      · intro id' hsome
        cases hsome
      · simpa [counted, recordCreatedFile] using hget
      · intro name' x hx
        by_cases heq : name' = r.assigned requestedName
        · subst heq
          rw [AList.lookup_insert] at hx
          cases hx
          exact .inl ⟨rfl, rfl⟩
        · rw [AList.lookup_insert_ne heq] at hx
          exact .inr ⟨hx, fun hne => absurd rfl hne⟩
      · simp only [counted, recordCreatedFile, count]
        omega

theorem replaced_spec {p p₁ p₂ p₃ : Provider} {temp existing : Nat} {d : Document} {name : Text}
    {made : Option CreatedDocument} (hfree : p.get temp = none) (hroot : p₁.root = p.root)
    (hget : ∀ id, p₁.get id = if id = temp then some d else p.get id) (hexisting : (p.get existing).isSome = true)
    (hdelete : p₁.delete existing r.delete = (true, p₂)) (hrename : p₂.rename temp name r = (made, p₃)) :
    (∀ id d', p.get id = some d' → p₃.get id = some d' ∨ id = existing) ∧
      (made = none ∨ made = some ⟨r.renamedId, r.assigned name⟩ ∧ r.renamedId ≠ p.root ∧ p₃.root = p.root ∧
        (p.get r.renamedId = none ∨ existing = r.renamedId) ∧
        ∀ id, p₃.get id = if id = r.renamedId then some { d with name := r.assigned name }
          else if existing = id then none else p.get id) := by
  have htemp : temp ≠ existing := by
    rintro rfl
    rw [hfree] at hexisting
    cases hexisting
  have hgone : p₂ = p₁.drop existing := by
    rcases Provider.delete_spec hdelete with ⟨hfalse, -⟩ | ⟨hgone, -⟩
    · cases hfalse
    · exact hgone
  have hget₂ : p₂.get temp = some d := by
    rw [hgone, Provider.get_drop, if_neg htemp, hget, if_pos rfl]
  have hothers (id : Nat) : (p₂.drop temp).get id = if existing = id then none else p.get id := by
    rw [Provider.get_drop, hgone, Provider.get_drop, hget]
    by_cases heq : id = temp
    · rw [if_pos heq, heq, hfree]
      split <;> rfl
    · simp [heq, eq_comm]
  rcases Provider.rename_spec hget₂ hrename with ⟨hnone, rfl⟩ | ⟨hfree', hroot', rfl, hmade⟩
  · refine ⟨?_, .inl hnone⟩
    intro id d' hd'
    by_cases hid : id = existing
    · exact .inr hid
    · have hne : id ≠ temp := by
        rintro rfl
        rw [hfree] at hd'
        cases hd'
      rw [hgone, Provider.get_drop, if_neg hid, hget, if_neg hne]
      exact .inl hd'
  · rw [hothers] at hfree'
    constructor
    · intro id d' hd'
      by_cases hid : existing = id
      · exact .inr hid.symm
      · have hne : id ≠ r.renamedId := by
          rintro rfl
          rw [if_neg hid, hd'] at hfree'
          cases hfree'
        rw [Provider.get_put, if_neg hne, hothers, if_neg hid]
        exact .inl hd'
    · rcases hmade with hnone | hsome
      · exact .inl hnone
      · refine .inr ⟨hsome, ?_, ?_, ?_, ?_⟩
        · rw [← hroot]
          rw [hgone] at hroot'
          exact hroot'
        · rw [hgone, ← hroot]
          rfl
        · by_cases hid : existing = r.renamedId
          · exact .inr hid
          · rw [if_neg hid] at hfree'
            exact .inl hfree'
        · intro id
          rw [Provider.get_put, hothers]

theorem replaceDocument_step {existingId : Nat} (hfile : e.isDir = false) (hmode : mode = .REPLACE)
    (hlookup : known.lookup e.name = some (existingId, false)) (hsound : Sound s.provider parentId known) {go : Bool}
    (hcall : s.replaceDocument e parentId existingId known r = (go, s')) :
    EntryStep mode e r parentId known s s' go := by
  obtain ⟨d, hd, -⟩ := hsound _ _ _ hlookup
  have hexisting : (s.provider.get existingId).isSome = true := by
    rw [hd]
    rfl
  unfold replaceDocument at hcall
  simp only at hcall
  split at hcall
  · rename_i p hcreate
    cases hcall
    rcases Provider.create_spec hcreate with ⟨-, hkeeps⟩ | ⟨hsome, -⟩
    · exact .stop (fun id d hget => .inl (hkeeps id d hget)) rfl rfl rfl
    · cases hsome
  rename_i created p hcreate
  rcases Provider.create_spec hcreate with ⟨hnone, -⟩ | ⟨hsome, hroot, hfree, rfl⟩
  · cases hnone
  cases hsome
  split at hcall
  · rename_i p₁ hstream
    cases hcall
    rcases Provider.streamFile_spec hfree hstream with ⟨-, hkeeps⟩ | ⟨content, hsome, -⟩
    · exact .stop (fun id d hget => .inl (hkeeps id d hget)) rfl rfl rfl
    · cases hsome
  rename_i content p₁ hstream
  rcases Provider.streamFile_spec hfree hstream with ⟨hnone, -⟩ | ⟨content', hsome, hcontent, hroot₁, hget₁⟩
  · cases hnone
  cases hsome
  split at hcall
  · rename_i p₂ hdelete
    cases hcall
    refine .stop ?_ rfl rfl rfl
    intro id d' hd'
    have hne : id ≠ r.createdId := by
      rintro rfl
      rw [hfree] at hd'
      cases hd'
    have hd₁ : p₁.get id = some d' := by
      rw [hget₁, if_neg hne, hd']
    rcases Provider.delete_spec hdelete with ⟨-, rfl⟩ | ⟨rfl, -⟩
    · exact .inl hd₁
    · by_cases hid : id = existingId
      · rw [hid]
        exact .inr ⟨hmode, hfile, hlookup⟩
      · rw [Provider.get_drop, if_neg hid]
        exact .inl hd₁
  rename_i p₂ hdelete
  split at hcall
  · rename_i p₃ hrename
    cases hcall
    obtain ⟨hkept, -⟩ := replaced_spec hfree hroot₁ hget₁ hexisting hdelete hrename
    refine .stop ?_ rfl rfl rfl
    intro id d' hd'
    rcases hkept id d' hd' with hthere | rfl
    · exact .inl hthere
    · exact .inr ⟨hmode, hfile, hlookup⟩
  · rename_i made p₃ hrename
    cases hcall
    obtain ⟨-, hnone | ⟨hsome, hroot₃, hsame, hfree₃, hget₃⟩⟩ :=
      replaced_spec hfree hroot₁ hget₁ hexisting hdelete hrename
    · cases hnone
    cases hsome
    refine .land r.renamedId (r.assigned e.name) content (some existingId) _ hfile hcontent (fun _ => rfl) ?_
      ⟨hroot₃, hsame⟩ ?_ ?_ ?_ rfl rfl rfl ?_
    · intro id' hsome
      cases hsome
      exact ⟨hmode, hlookup⟩
    · simpa using hfree₃
    · simpa [counted, recordCreatedFile] using hget₃
    · intro name' x hx
      by_cases heq : name' = r.assigned e.name
      · subst heq
        rw [AList.lookup_insert] at hx
        cases hx
        exact .inl ⟨rfl, rfl⟩
      · rw [AList.lookup_insert_ne heq] at hx
        have hne : name' ≠ e.name := by
          rintro rfl
          rw [AList.lookup_erase] at hx
          cases hx
        rw [AList.lookup_erase_ne hne] at hx
        exact .inr ⟨hx, fun _ => hne⟩
    · simp only [counted, recordCreatedFile, count]
      omega

theorem byName_lookup {children : List (Sigma fun _ : Nat => Document)} {name : Text} {id : Nat} {isDir : Bool}
    (h : (byName children).lookup name = some (id, isDir)) :
    ∃ d ∈ children, d.1 = id ∧ d.2.name = name ∧ d.2.isDir = isDir := by
  unfold byName at h
  induction children using List.reverseRecOn with
  | nil => cases h
  | append_singleton children d ih =>
    rw [List.foldl_append, List.foldl_cons, List.foldl_nil] at h
    by_cases hname : name = d.2.name
    · rw [hname, AList.lookup_insert] at h
      cases h
      exact ⟨d, by simp, rfl, hname.symm, rfl⟩
    · rw [AList.lookup_insert_ne hname] at h
      obtain ⟨d', hd', hsame⟩ := ih h
      exact ⟨d', List.mem_append_left _ hd', hsame⟩

theorem byName_sound (p : Provider) (dirId : Nat) : Sound p dirId (byName (p.children dirId)) := by
  intro name id isDir hlookup
  obtain ⟨d, hd, rfl, hname, hisDir⟩ := byName_lookup hlookup
  obtain ⟨hmem, hparent⟩ := List.mem_filter.mp hd
  exact ⟨d.2, AList.mem_lookup_iff.mpr hmem, by simpa using hparent, hname, hisDir⟩

theorem listing_spec {dirId : Nat} {lists : Bool} {s₁ : Export} (h : s.listing dirId lists = some (known, s₁)) :
    s₁.provider = s.provider ∧ s₁.dirIds = s.dirIds ∧ s₁.copied = s.copied ∧ s₁.count = s.count ∧
      s₁.filesCopied = s.filesCopied ∧ s₁.children = Function.update s.children dirId (some known) ∧
      (s.children dirId = some known ∨ known = byName (s.provider.children dirId)) := by
  unfold listing at h
  split at h
  · rename_i known' hknown
    cases h
    refine ⟨rfl, rfl, rfl, rfl, rfl, ?_, .inl hknown⟩
    rw [← hknown, Function.update_eq_self]
  · split at h
    · cases h
      exact ⟨rfl, rfl, rfl, rfl, rfl, rfl, .inr rfl⟩
    · cases h

theorem exportEntry_step {go : Bool}
    (hsound : ∀ known s₁ parentId, s.listing parentId r.lists = some (known, s₁) → Sound s₁.provider parentId known)
    (hcall : s.exportEntry mode e r = (go, s')) :
    go = false ∧ s' = s ∨ ∃ parentId known s₁, s.dirIds e.parent = some parentId ∧
      s.listing parentId r.lists = some (known, s₁) ∧ EntryStep mode e r parentId known s₁ s' go := by
  unfold exportEntry at hcall
  split at hcall
  · cases hcall
    exact .inl ⟨rfl, rfl⟩
  split at hcall
  · cases hcall
    exact .inl ⟨rfl, rfl⟩
  rename_i parentId hparent
  split at hcall
  · cases hcall
    exact .inl ⟨rfl, rfl⟩
  rename_i known s₁ hlisting
  refine .inr ⟨parentId, known, s₁, hparent, hlisting, ?_⟩
  have hknown := hsound known s₁ parentId hlisting
  split at hcall
  · rename_i hdir
    split at hcall
    · rename_i id hlookup
      cases hcall
      exact .merge id hdir hlookup rfl rfl rfl rfl rfl
    · cases hcall
      exact .stop (fun _ _ hget => .inl hget) rfl rfl rfl
    · split at hcall
      · rename_i p hcreate
        cases hcall
        rcases Provider.create_spec hcreate with ⟨-, hkeeps⟩ | ⟨hsome, -⟩
        · exact .stop (fun id d hget => .inl (hkeeps id d hget)) rfl rfl rfl
        · cases hsome
      · rename_i created p hcreate
        cases hcall
        rcases Provider.create_spec hcreate with ⟨hnone, -⟩ | ⟨hsome, hroot, hfree, rfl⟩
        · cases hnone
        cases hsome
        refine .mkdir r.createdId hdir hroot hfree rfl rfl rfl rfl ?_
        simp only [recordCreatedDirectory, count]
        omega
  · rename_i hdir
    have hfile : e.isDir = false := by simpa using hdir
    split at hcall
    · cases hcall
      exact .stop (fun _ _ hget => .inl hget) rfl rfl rfl
    · rename_i id hlookup
      split at hcall
      · cases hcall
        refine .skip hfile rfl rfl rfl rfl ?_
        simp only [count]
        omega
      · exact writeDocument_step hfile (fun hmode => by cases hmode) hcall
      · exact replaceDocument_step hfile rfl hlookup hknown hcall
    · exact writeDocument_step hfile (fun _ => rfl) hcall

end Export

end LuksAndroid.App
