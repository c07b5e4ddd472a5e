import LuksAndroid.App.Transfer.Export
import LuksAndroid.App.Transfer.Landing
import LuksAndroid.App.Transfer.Durable

/-!
# What a transfer of a tree leaves behind

A provider that gives names of its own can give a document of the plan the name of a later entry, which then
replaces it. Where it does not, the documents of the plan stay apart.
-/

namespace LuksAndroid.App

namespace Export

variable {s s' : Export} {p₀ : Provider} {mode : CollisionMode} {passed : List (PlanEntry × ExportRun)} {e : PlanEntry}
  {r : ExportRun} {parentId : Nat} {known : Listing (Nat × Bool)} {rest : List PlanEntry}

/-! ## The invariant -/

/-- What holds wherever the loop ends, with the entries that it has passed. -/
structure Landed (p₀ : Provider) (mode : CollisionMode) (passed : List (PlanEntry × ExportRun)) (s : Export) :
    Prop where
  present : ∀ c ∈ s.copied, s.dirIds c.entry.parent = some c.parentId ∧
    ∃ name, s.provider.get c.id = some ⟨c.parentId, name, false, c.content⟩
  source : (s.copied.map fun c => (c.entry, c.content)).Sublist (passed.map fun p => (p.1, p.2.output.source))
  own : (s.copied.map Exported.id).Nodup
  dirs : ∀ p ∈ passed, p.1.isDir = true →
    ∃ id d, s.dirIds p.1.relativePath = some id ∧ s.provider.get id = some d ∧ d.isDir = true
  kept : ∀ id d, p₀.get id = some d → s.provider.get id = some d ∨ mode = .REPLACE ∧ d.isDir = false
  count : s.count = passed.length

/-- What holds in the loop. -/
structure Going (p₀ : Provider) (mode : CollisionMode) (passed : List (PlanEntry × ExportRun)) (s : Export) : Prop
    extends Landed p₀ mode passed s where
  agrees : ∀ dirId known, s.children dirId = some known → Sound s.provider dirId known
  rootFree : s.provider.get s.provider.root = none
  placed : ∀ path id, s.dirIds path = some id → path = [] ∧ id = s.provider.root ∨
    (∃ p ∈ passed, p.1.relativePath = path) ∧
      ∃ d, s.provider.get id = some d ∧ d.isDir = true ∧ s.dirIds path.dropLast = some d.parent

/-- No document of the plan is in the way of an entry to come. -/
structure Ahead (rest : List PlanEntry) (s : Export) : Prop where
  injective : ∀ path path' id, s.dirIds path = some id → s.dirIds path' = some id → path = path'
  dirNames : ∀ path id d, s.dirIds path = some id → s.provider.get id = some d →
    ∀ e ∈ rest, e.isDir = true → e.parent = path.dropLast → e.name ≠ d.name
  fileNames : ∀ c ∈ s.copied, ∀ d, s.provider.get c.id = some d →
    ∀ e ∈ rest, e.isDir = false → e.parent = c.entry.parent → e.name ≠ d.name

/-- What the run has made is there still. -/
structure Preserves (mode : CollisionMode) (s s' : Export) : Prop where
  files : ∀ c ∈ s.copied, s'.provider.get c.id = s.provider.get c.id
  docs : ∀ id d, s.provider.get id = some d → s'.provider.get id = some d ∨ mode = .REPLACE ∧ d.isDir = false
  dirIds : ∀ path id, s.dirIds path = some id → s'.dirIds path = some id

theorem Preserves.dir (h : Preserves mode s s') {id : Nat} {d : Document} (hget : s.provider.get id = some d)
    (hdir : d.isDir = true) : s'.provider.get id = some d := by
  rcases h.docs id d hget with hthere | ⟨-, hfile⟩
  · exact hthere
  · rw [hdir] at hfile
    cases hfile

theorem Landed.keep (h : Landed p₀ mode passed s) (hp : Preserves mode s s') (hcopied : s'.copied = s.copied)
    {more : List (PlanEntry × ExportRun)} (hdirs : ∀ p ∈ more, p.1.isDir = true →
      ∃ id d, s'.dirIds p.1.relativePath = some id ∧ s'.provider.get id = some d ∧ d.isDir = true)
    (hcount : s'.count = s.count + more.length) : Landed p₀ mode (passed ++ more) s' where
  present c hc := by
    rw [hcopied] at hc
    obtain ⟨hparent, name, hget⟩ := h.present c hc
    refine ⟨hp.dirIds _ _ hparent, name, ?_⟩
    rw [hp.files c hc, hget]
  source := by
    rw [hcopied, List.map_append]
    exact h.source.trans (List.sublist_append_left _ _)
  own := by
    rw [hcopied]
    exact h.own
  dirs p hmem hdir := by
    rcases List.mem_append.mp hmem with hmem | hmem
    · obtain ⟨id, d, hid, hget, hisDir⟩ := h.dirs p hmem hdir
      exact ⟨id, d, hp.dirIds _ _ hid, hp.dir hget hisDir, hisDir⟩
    · exact hdirs p hmem hdir
  kept id d hget := by
    rcases h.kept id d hget with hthere | hreplaced
    · exact hp.docs id d hthere
    · exact .inr hreplaced
  count := by rw [hcount, h.count, List.length_append]

theorem Landed.land (h : Landed p₀ mode passed s) (hp : Preserves mode s s') {id : Nat} {name : Text} {content : Bytes}
    (hfile : e.isDir = false) (hcontent : Volume.copyLoop [] r.output.chunks = some content)
    (hparent : s.dirIds e.parent = some parentId) (hown : ∀ c ∈ s.copied, c.id ≠ id)
    (hget : s'.provider.get id = some ⟨parentId, name, false, content⟩)
    (hcopied : s'.copied = s.copied ++ [⟨e, parentId, id, content⟩]) (hcount : s'.count = s.count + 1) :
    Landed p₀ mode (passed ++ [(e, r)]) s' where
  present c hc := by
    rw [hcopied] at hc
    rcases List.mem_append.mp hc with hc | hc
    · obtain ⟨hthere, name', hget'⟩ := h.present c hc
      refine ⟨hp.dirIds _ _ hthere, name', ?_⟩
      rw [hp.files c hc, hget']
    · rw [List.mem_singleton.mp hc]
      exact ⟨hp.dirIds _ _ hparent, name, hget⟩
  source := by
    rw [hcopied, List.map_append, List.map_append]
    have hbytes : content = r.output.source := copyLoop_eq hcontent
    rw [hbytes]
    exact h.source.append (List.Sublist.refl _)
  own := by
    rw [hcopied, List.map_append, List.nodup_append]
    refine ⟨h.own, List.nodup_singleton _, ?_⟩
    intro a ha b hb
    obtain ⟨c, hc, rfl⟩ := List.mem_map.mp ha
    rw [List.map_singleton, List.mem_singleton] at hb
    rw [hb]
    exact hown c hc
  dirs p hmem hdir := by
    rcases List.mem_append.mp hmem with hmem | hmem
    · obtain ⟨id, d, hid, hget, hisDir⟩ := h.dirs p hmem hdir
      exact ⟨id, d, hp.dirIds _ _ hid, hp.dir hget hisDir, hisDir⟩
    · rw [List.mem_singleton.mp hmem, hfile] at hdir
      cases hdir
  kept id d hget := by
    rcases h.kept id d hget with hthere | hreplaced
    · exact hp.docs id d hthere
    · exact .inr hreplaced
  count := by rw [hcount, h.count, List.length_append, List.length_singleton]

/-! ## One entry -/

theorem Going.sound {lists : Bool} {s₁ : Export} (h : Going p₀ mode passed s)
    (hlisting : s.listing parentId lists = some (known, s₁)) : Sound s.provider parentId known := by
  rcases (listing_spec hlisting).2.2.2.2.2.2 with hknown | rfl
  · exact h.agrees _ _ hknown
  · exact byName_sound _ _

theorem Going.listing {lists : Bool} {s₁ : Export} (h : Going p₀ mode passed s)
    (hlisting : s.listing parentId lists = some (known, s₁)) : Going p₀ mode passed s₁ := by
  obtain ⟨hprovider, hdirIds, hcopied, hcount, -, hchildren, -⟩ := listing_spec hlisting
  refine ⟨⟨?_, ?_, ?_, ?_, ?_, ?_⟩, ?_, ?_, ?_⟩
  · rw [hcopied, hdirIds, hprovider]
    exact h.present
  · rw [hcopied]
    exact h.source
  · rw [hcopied]
    exact h.own
  · rw [hdirIds, hprovider]
    exact h.dirs
  · rw [hprovider]
    exact h.kept
  · rw [hcount]
    exact h.count
  · intro dirId known' hknown
    rw [hprovider]
    rw [hchildren] at hknown
    by_cases hdir : dirId = parentId
    · subst hdir
      rw [Function.update_self] at hknown
      cases hknown
      exact h.sound hlisting
    · rw [Function.update_of_ne hdir] at hknown
      exact h.agrees _ _ hknown
  · rw [hprovider]
    exact h.rootFree
  · rw [hprovider, hdirIds]
    exact h.placed

theorem Ahead.congr (h : Ahead rest s) (hprovider : s'.provider = s.provider) (hdirIds : s'.dirIds = s.dirIds)
    (hcopied : s'.copied = s.copied) : Ahead rest s' := by
  constructor
  · rw [hdirIds]
    exact h.injective
  · rw [hdirIds, hprovider]
    exact h.dirNames
  · rw [hcopied, hprovider]
    exact h.fileNames

theorem Ahead.tail (h : Ahead (e :: rest) s) : Ahead rest s where
  injective := h.injective
  dirNames path id d hid hget e' he' := h.dirNames path id d hid hget e' (List.mem_cons_of_mem e he')
  fileNames c hc d hget e' he' := h.fileNames c hc d hget e' (List.mem_cons_of_mem e he')

theorem Going.foreign (h : Going p₀ mode passed s) (ha : Ahead (e :: rest) s)
    (hparent : s.dirIds e.parent = some parentId)
    (hsound : Sound s.provider parentId known) (hfile : e.isDir = false) {id : Nat}
    (hlookup : known.lookup e.name = some (id, false)) : ∀ c ∈ s.copied, c.id ≠ id := by
  rintro c hc rfl
  obtain ⟨d, hget, hin, hname, -⟩ := hsound _ _ _ hlookup
  obtain ⟨hdir, name, hget'⟩ := h.present c hc
  have hsame : d.parent = c.parentId := by
    rw [hget] at hget'
    cases hget'
    rfl
  have hplace : e.parent = c.entry.parent := by
    apply ha.injective _ _ parentId hparent
    rw [hdir, ← hsame, hin]
  exact ha.fileNames c hc d hget e (by simp) hfile hplace hname.symm

theorem Going.preserves (h : Going p₀ mode passed s) (ha : mode = .REPLACE → Ahead (e :: rest) s)
    (hparent : s.dirIds e.parent = some parentId) (hsound : Sound s.provider parentId known)
    (hkept : ∀ id d, s.provider.get id = some d → s'.provider.get id = some d ∨
      mode = .REPLACE ∧ e.isDir = false ∧ known.lookup e.name = some (id, false))
    (hdirIds : ∀ path id, s.dirIds path = some id → s'.dirIds path = some id) : Preserves mode s s' where
  files c hc := by
    obtain ⟨-, name, hget⟩ := h.present c hc
    rcases hkept _ _ hget with hthere | ⟨hmode, hfile, hlookup⟩
    · rw [hthere, hget]
    · exact absurd rfl (h.foreign (ha hmode) hparent hsound hfile hlookup c hc)
  docs id d hget := by
    rcases hkept id d hget with hthere | ⟨hmode, -, hlookup⟩
    · exact .inl hthere
    · obtain ⟨d', hget', -, -, hisDir⟩ := hsound _ _ _ hlookup
      rw [hget] at hget'
      cases hget'
      exact .inr ⟨hmode, hisDir⟩
  dirIds := hdirIds

theorem Going.unplaced (h : Going p₀ mode passed s) (hplan : Planned (passed.map Prod.fst ++ e :: rest)) :
    s.dirIds e.relativePath = none := by
  cases hid : s.dirIds e.relativePath with
  | none => rfl
  | some id =>
    rcases h.placed _ _ hid with ⟨hempty, -⟩ | ⟨⟨p, hp, hpath⟩, -⟩
    · exact absurd hempty (hplan.named e (by simp))
    · have hnodup := hplan.nodup
      rw [List.map_append, List.nodup_append] at hnodup
      exact absurd hpath (hnodup.2.2 _ (List.mem_map_of_mem (List.mem_map_of_mem hp)) _ (by simp))

theorem dirIds_update (hnone : s.dirIds e.relativePath = none) {id : Nat}
    (hdirIds : s'.dirIds = Function.update s.dirIds e.relativePath (some id)) (path : Path) (id' : Nat)
    (hid : s.dirIds path = some id') : s'.dirIds path = some id' := by
  rw [hdirIds, Function.update_of_ne, hid]
  rintro rfl
  rw [hnone] at hid
  cases hid

theorem update_injective {dirIds : Path → Option Nat} {path : Path} {id : Nat}
    (h : ∀ path path' id, dirIds path = some id → dirIds path' = some id → path = path')
    (hnew : ∀ path, dirIds path ≠ some id) (path₁ path₂ : Path) (id' : Nat)
    (h₁ : Function.update dirIds path (some id) path₁ = some id')
    (h₂ : Function.update dirIds path (some id) path₂ = some id') : path₁ = path₂ := by
  by_cases heq₁ : path₁ = path
  · by_cases heq₂ : path₂ = path
    · rw [heq₁, heq₂]
    · rw [heq₁, Function.update_self] at h₁
      rw [Function.update_of_ne heq₂, ← h₁] at h₂
      exact absurd h₂ (hnew path₂)
  · rw [Function.update_of_ne heq₁] at h₁
    by_cases heq₂ : path₂ = path
    · rw [heq₂, Function.update_self] at h₂
      rw [← h₂] at h₁
      exact absurd h₁ (hnew path₁)
    · rw [Function.update_of_ne heq₂] at h₂
      exact h path₁ path₂ id' h₁ h₂

theorem name_ne_of_planned {plan : List PlanEntry} {e' : PlanEntry} (hplan : Planned (plan ++ e :: rest))
    (he' : e' ∈ rest)
    (hparent : e'.parent = e.parent) : e'.name ≠ e.name := by
  intro hname
  have hnodup := hplan.nodup
  rw [List.map_append, List.map_cons, List.nodup_append, List.nodup_cons] at hnodup
  apply hnodup.2.1.1
  have hsame : e.relativePath = e'.relativePath := by
    rw [hplan.path_eq (e := e) (by simp), hplan.path_eq (e := e') (by simp [he']), hname, hparent]
  rw [hsame]
  exact List.mem_map_of_mem he'

theorem Going.placed_old (h : Going p₀ mode passed s) (hp : Preserves mode s s')
    (hroot : s'.provider.root = s.provider.root) {path : Path} {id : Nat} (hid : s.dirIds path = some id)
    (x : PlanEntry × ExportRun) :
    path = [] ∧ id = s'.provider.root ∨ (∃ p ∈ passed ++ [x], p.1.relativePath = path) ∧
      ∃ d, s'.provider.get id = some d ∧ d.isDir = true ∧ s'.dirIds path.dropLast = some d.parent := by
  rcases h.placed path id hid with ⟨hempty, rfl⟩ | ⟨⟨p, hmem, hpath⟩, d, hget, hisDir, hup⟩
  · exact .inl ⟨hempty, hroot.symm⟩
  · exact .inr ⟨⟨p, List.mem_append_left _ hmem, hpath⟩, d, hp.dir hget hisDir, hisDir, hp.dirIds _ _ hup⟩

theorem Going.placed_update (h : Going p₀ mode passed s) (hp : Preserves mode s s')
    (hroot : s'.provider.root = s.provider.root) (hparent : s.dirIds e.parent = some parentId) {new : Nat}
    {d : Document}
    (hdirIds : s'.dirIds = Function.update s.dirIds e.relativePath (some new)) (hget : s'.provider.get new = some d)
    (hisDir : d.isDir = true) (hin : d.parent = parentId) (path : Path) (id : Nat) (hid : s'.dirIds path = some id) :
    path = [] ∧ id = s'.provider.root ∨ (∃ p ∈ passed ++ [(e, r)], p.1.relativePath = path) ∧
      ∃ d, s'.provider.get id = some d ∧ d.isDir = true ∧ s'.dirIds path.dropLast = some d.parent := by
  by_cases hpath : path = e.relativePath
  · subst hpath
    rw [hdirIds, Function.update_self] at hid
    cases hid
    refine .inr ⟨⟨(e, r), by simp, rfl⟩, d, hget, hisDir, ?_⟩
    rw [hin]
    exact hp.dirIds _ _ hparent
  · rw [hdirIds, Function.update_of_ne hpath] at hid
    exact h.placed_old hp hroot hid _

theorem Going.skip (h : Going p₀ mode passed s) (hfile : e.isDir = false) (hprovider : s'.provider = s.provider)
    (hdirIds : s'.dirIds = s.dirIds) (hchildren : s'.children = s.children) (hcopied : s'.copied = s.copied)
    (hcount : s'.count = s.count + 1) : Going p₀ mode (passed ++ [(e, r)]) s' := by
  have hp : Preserves mode s s' := by
    constructor
    · rw [hprovider]
      exact fun _ _ => rfl
    · rw [hprovider]
      exact fun _ _ hget => .inl hget
    · rw [hdirIds]
      exact fun _ _ hid => hid
  refine ⟨h.toLanded.keep hp hcopied ?_ hcount, ?_, ?_, ?_⟩
  · intro p hmem hdir
    rw [List.mem_singleton.mp hmem, hfile] at hdir
    cases hdir
  · rw [hchildren, hprovider]
    exact h.agrees
  · rw [hprovider]
    exact h.rootFree
  · intro path id hid
    rw [hdirIds] at hid
    exact h.placed_old hp (by rw [hprovider]) hid _

theorem Going.merge (h : Going p₀ mode passed s) (hnone : s.dirIds e.relativePath = none)
    (hparent : s.dirIds e.parent = some parentId) (hsound : Sound s.provider parentId known) {id : Nat}
    (hlookup : known.lookup e.name = some (id, true)) (hprovider : s'.provider = s.provider)
    (hdirIds : s'.dirIds = Function.update s.dirIds e.relativePath (some id)) (hchildren : s'.children = s.children)
    (hcopied : s'.copied = s.copied) (hcount : s'.count = s.count + 1) : Going p₀ mode (passed ++ [(e, r)]) s' := by
  obtain ⟨d, hget, hin, -, hisDir⟩ := hsound _ _ _ hlookup
  rw [← hprovider] at hget
  have hp : Preserves mode s s' := by
    refine ⟨?_, ?_, dirIds_update hnone hdirIds⟩
    · rw [hprovider]
      exact fun _ _ => rfl
    · rw [hprovider]
      exact fun _ _ hget => .inl hget
  refine ⟨h.toLanded.keep hp hcopied ?_ hcount, ?_, ?_,
    h.placed_update hp (by rw [hprovider]) hparent hdirIds hget hisDir hin⟩
  · intro p hmem _
    rw [List.mem_singleton.mp hmem]
    refine ⟨id, d, ?_, hget, hisDir⟩
    rw [hdirIds, Function.update_self]
  · rw [hchildren, hprovider]
    exact h.agrees
  · rw [hprovider]
    exact h.rootFree

theorem Ahead.merge (ha : Ahead (e :: rest) s) (h : Going p₀ mode passed s)
    (hplan : Planned (passed.map Prod.fst ++ e :: rest)) (hparent : s.dirIds e.parent = some parentId)
    (hsound : Sound s.provider parentId known) {id : Nat} (hdir : e.isDir = true)
    (hlookup : known.lookup e.name = some (id, true)) (hprovider : s'.provider = s.provider)
    (hdirIds : s'.dirIds = Function.update s.dirIds e.relativePath (some id)) (hcopied : s'.copied = s.copied) :
    Ahead rest s' := by
  obtain ⟨d, hget, hin, hname, -⟩ := hsound _ _ _ hlookup
  -- a directory that an earlier entry has would have the name of this one
  have hnew (path : Path) : s.dirIds path ≠ some id := by
    intro hid
    rcases h.placed path id hid with ⟨-, rfl⟩ | ⟨-, d', hget', -, hup⟩
    · rw [h.rootFree] at hget
      cases hget
    · rw [hget] at hget'
      cases hget'
      rw [hin] at hup
      have hplace := ha.injective _ _ _ hparent hup
      exact ha.dirNames path id d hid hget e (by simp) hdir hplace hname.symm
  refine ⟨?_, ?_, ?_⟩
  · rw [hdirIds]
    exact update_injective ha.injective hnew
  · intro path id' d' hid hget' e' he' hdir' hplace
    rw [hprovider] at hget'
    by_cases hpath : path = e.relativePath
    · subst hpath
      rw [hdirIds, Function.update_self] at hid
      cases hid
      rw [hget] at hget'
      cases hget'
      rw [hname]
      exact name_ne_of_planned hplan he' hplace
    · rw [hdirIds, Function.update_of_ne hpath] at hid
      exact ha.dirNames path id' d' hid hget' e' (List.mem_cons_of_mem e he') hdir' hplace
  · rw [hcopied, hprovider]
    exact ha.tail.fileNames

theorem Sound.keep {p p' : Provider} {dirId : Nat} (h : Sound p dirId known) (hkeeps : p.Keeps p') :
    Sound p' dirId known := by
  intro name id isDir hlookup
  obtain ⟨d, hget, hd⟩ := h name id isDir hlookup
  exact ⟨d, hkeeps id d hget, hd⟩

theorem Sound.insert {p : Provider} {dirId : Nat} (h : Sound p dirId known) {name : Text} {id : Nat} {isDir : Bool}
    {content : Bytes} (hget : p.get id = some ⟨dirId, name, isDir, content⟩) :
    Sound p dirId (known.insert name (id, isDir)) := by
  intro name' id' isDir' hlookup
  by_cases heq : name' = name
  · subst heq
    rw [AList.lookup_insert] at hlookup
    cases hlookup
    exact ⟨_, hget, rfl, rfl, rfl⟩
  · rw [AList.lookup_insert_ne heq] at hlookup
    exact h name' id' isDir' hlookup

theorem Going.mkdir (h : Going p₀ mode passed s)
    (hparent : s.dirIds e.parent = some parentId) (hsound : Sound s.provider parentId known) {id : Nat}
    (hroot : id ≠ s.provider.root) (hfree : s.provider.get id = none)
    (hprovider : s'.provider = s.provider.put id ⟨parentId, r.assigned e.name, true, []⟩)
    (hdirIds : s'.dirIds = Function.update s.dirIds e.relativePath (some id))
    (hchildren : s'.children =
    (s.recordCreatedDirectory e.relativePath parentId ⟨id, r.assigned e.name⟩ known).children)
    (hp : Preserves mode s s') (hcopied : s'.copied = s.copied) (hcount : s'.count = s.count + 1) :
    Going p₀ mode (passed ++ [(e, r)]) s' := by
  have hget : s'.provider.get id = some ⟨parentId, r.assigned e.name, true, []⟩ := by
    rw [hprovider, Provider.get_put, if_pos rfl]
  have hkeeps : s.provider.Keeps s'.provider := by
    rw [hprovider]
    exact Provider.Keeps.put hfree _
  have hsame : s'.provider.root = s.provider.root := by
    rw [hprovider]
    rfl
  refine ⟨h.toLanded.keep hp hcopied ?_ hcount, ?_, ?_, h.placed_update hp hsame hparent hdirIds hget rfl rfl⟩
  · intro p hmem _
    rw [List.mem_singleton.mp hmem]
    refine ⟨id, _, ?_, hget, rfl⟩
    rw [hdirIds, Function.update_self]
  · intro dirId known' hknown
    rw [hchildren] at hknown
    simp only [recordCreatedDirectory] at hknown
    by_cases hnew : dirId = id
    · subst hnew
      rw [Function.update_self] at hknown
      cases hknown
      intro name id' isDir hlookup
      cases hlookup
    · rw [Function.update_of_ne hnew] at hknown
      by_cases hdir : dirId = parentId
      · subst hdir
        rw [Function.update_self] at hknown
        cases hknown
        exact (hsound.keep hkeeps).insert hget
      · rw [Function.update_of_ne hdir] at hknown
        exact (h.agrees dirId known' hknown).keep hkeeps
  · rw [hprovider, Provider.get_put, if_neg]
    · exact h.rootFree
    · exact hroot.symm

theorem Ahead.mkdir (ha : Ahead (e :: rest) s) (h : Going p₀ mode passed s) {id : Nat} (hdir : e.isDir = true)
    (hclear : ∀ e' ∈ rest, e'.parent = e.parent → e'.isDir = e.isDir → r.assigned e.name ≠ e'.name)
    (hroot : id ≠ s.provider.root) (hfree : s.provider.get id = none)
    (hprovider : s'.provider = s.provider.put id ⟨parentId, r.assigned e.name, true, []⟩)
    (hdirIds : s'.dirIds = Function.update s.dirIds e.relativePath (some id)) (hp : Preserves mode s s')
    (hcopied : s'.copied = s.copied) : Ahead rest s' := by
  have hnew (path : Path) : s.dirIds path ≠ some id := by
    intro hid
    rcases h.placed path id hid with ⟨-, heq⟩ | ⟨-, d, hget, -⟩
    · exact hroot heq
    · rw [hfree] at hget
      cases hget
  refine ⟨?_, ?_, ?_⟩
  · rw [hdirIds]
    exact update_injective ha.injective hnew
  · intro path id' d hid hget e' he' hdir' hplace
    by_cases hpath : path = e.relativePath
    · subst hpath
      rw [hdirIds, Function.update_self] at hid
      cases hid
      rw [hprovider, Provider.get_put, if_pos rfl] at hget
      cases hget
      exact (hclear e' he' hplace (by rw [hdir, hdir'])).symm
    · rw [hdirIds, Function.update_of_ne hpath] at hid
      have hne : id' ≠ id := by
        rintro rfl
        exact hnew path hid
      rw [hprovider, Provider.get_put, if_neg hne] at hget
      exact ha.dirNames path id' d hid hget e' (List.mem_cons_of_mem e he') hdir' hplace
  · intro c hc d hget
    rw [hcopied] at hc
    rw [hp.files c hc] at hget
    exact ha.tail.fileNames c hc d hget

theorem land_kept {id : Nat} {gone : Option Nat} {d : Document} (hfree : s.provider.get id = none ∨ gone = some id)
    (hget : ∀ id', s'.provider.get id' = if id' = id then some d else if gone = some id' then none
      else s.provider.get id') (id' : Nat) (d' : Document) (hd' : s.provider.get id' = some d') :
    s'.provider.get id' = some d' ∨ gone = some id' := by
  by_cases hvictim : gone = some id'
  · exact .inr hvictim
  · have hne : id' ≠ id := by
      rintro rfl
      rcases hfree with hnone | hsome
      · rw [hnone] at hd'
        cases hd'
      · exact hvictim hsome
    rw [hget, if_neg hne, if_neg hvictim]
    exact .inl hd'

theorem Going.land (h : Going p₀ mode passed s) (hp : Preserves mode s s') (hparent : s.dirIds e.parent = some parentId)
    (hsound : Sound s.provider parentId known) {id : Nat} {name : Text} {content : Bytes} {gone : Option Nat}
    {known' : Listing (Nat × Bool)} (hfile : e.isDir = false)
    (hcontent : Volume.copyLoop [] r.output.chunks = some content)
    (hgone : ∀ id', gone = some id' → mode = .REPLACE ∧ known.lookup e.name = some (id', false))
    (hroot : id ≠ s.provider.root ∧ s'.provider.root = s.provider.root)
    (hfree : s.provider.get id = none ∨ gone = some id)
    (hget : ∀ id', s'.provider.get id' = if id' = id then some ⟨parentId, name, false, content⟩
      else if gone = some id' then none else s.provider.get id')
    (hknown : ∀ name' x, known'.lookup name' = some x → name' = name ∧ x = (id, false) ∨
      known.lookup name' = some x ∧ (gone ≠ none → name' ≠ e.name)) (hown : ∀ c ∈ s.copied, c.id ≠ id)
    (hdirIds : s'.dirIds = s.dirIds) (hchildren : s'.children = Function.update s.children parentId (some known'))
    (hcopied : s'.copied = s.copied ++ [⟨e, parentId, id, content⟩]) (hcount : s'.count = s.count + 1) :
    Going p₀ mode (passed ++ [(e, r)]) s' := by
  have hnew : s'.provider.get id = some ⟨parentId, name, false, content⟩ := by
    rw [hget, if_pos rfl]
  refine ⟨h.toLanded.land hp hfile hcontent hparent hown hnew hcopied hcount, ?_, ?_, ?_⟩
  · -- a name that is listed still is not that of the document that has gone
    have hold (dirId : Nat) (name' : Text) (id' : Nat) (isDir : Bool)
        (hd : ∃ d, s.provider.get id' = some d ∧ d.parent = dirId ∧ d.name = name' ∧ d.isDir = isDir)
        (hother : gone ≠ none → dirId = parentId → name' ≠ e.name) :
        ∃ d, s'.provider.get id' = some d ∧ d.parent = dirId ∧ d.name = name' ∧ d.isDir = isDir := by
      obtain ⟨d, hd, hin, hname, hisDir⟩ := hd
      refine ⟨d, ?_, hin, hname, hisDir⟩
      rcases land_kept hfree hget id' d hd with hthere | hvictim
      · exact hthere
      · obtain ⟨d', hd', hin', hname', -⟩ := hsound _ _ _ (hgone id' hvictim).2
        rw [hd] at hd'
        cases hd'
        refine absurd (hname.symm.trans hname') (hother ?_ (hin.symm.trans hin'))
        rw [hvictim]
        simp
    intro dirId known₁ hknown₁ name' id' isDir hlookup
    rw [hchildren] at hknown₁
    by_cases hdir : dirId = parentId
    · subst hdir
      rw [Function.update_self] at hknown₁
      cases hknown₁
      rcases hknown name' (id', isDir) hlookup with ⟨rfl, heq⟩ | ⟨hlookup', hne⟩
      · cases heq
        exact ⟨_, hnew, rfl, rfl, rfl⟩
      · exact hold _ name' id' isDir (hsound _ _ _ hlookup') fun hsome _ => hne hsome
    · rw [Function.update_of_ne hdir] at hknown₁
      exact hold dirId name' id' isDir (h.agrees dirId known₁ hknown₁ _ _ _ hlookup) fun _ heq => absurd heq hdir
  · rw [hroot.2, hget, if_neg hroot.1.symm, h.rootFree]
    split <;> rfl
  · intro path id' hid
    rw [hdirIds] at hid
    exact h.placed_old hp hroot.2 hid _

theorem Ahead.land (ha : Ahead (e :: rest) s) (h : Going p₀ mode passed s) (hp : Preserves mode s s') {id : Nat}
    {content : Bytes} (hfile : e.isDir = false)
    (hclear : ∀ e' ∈ rest, e'.parent = e.parent → e'.isDir = e.isDir → r.assigned e.name ≠ e'.name)
    (hnew : s'.provider.get id = some ⟨parentId, r.assigned e.name, false, content⟩)
    (hrootFree : s'.provider.get s.provider.root = none) (hdirIds : s'.dirIds = s.dirIds)
    (hcopied : s'.copied = s.copied ++ [⟨e, parentId, id, content⟩]) : Ahead rest s' := by
  refine ⟨?_, ?_, ?_⟩
  · rw [hdirIds]
    exact ha.injective
  · intro path id' d hid hget
    rw [hdirIds] at hid
    rcases h.placed path id' hid with ⟨-, rfl⟩ | ⟨-, d', hget', hisDir, -⟩
    · rw [hrootFree] at hget
      cases hget
    · rw [hp.dir hget' hisDir] at hget
      cases hget
      exact ha.tail.dirNames path id' d hid hget'
  · intro c hc d hget e' he' hfile' hplace
    rw [hcopied] at hc
    rcases List.mem_append.mp hc with hc | hc
    · rw [hp.files c hc] at hget
      exact ha.tail.fileNames c hc d hget e' he' hfile' hplace
    · rw [List.mem_singleton.mp hc] at hget hplace
      rw [hnew] at hget
      cases hget
      exact (hclear e' he' hplace (by rw [hfile, hfile'])).symm

theorem Going.entry (h : Going p₀ mode passed s) (ha : mode = .REPLACE → Ahead (e :: rest) s)
    (hplan : Planned (passed.map Prod.fst ++ e :: rest))
    (hclear : mode = .REPLACE → ∀ e' ∈ rest, e'.parent = e.parent → e'.isDir = e.isDir → r.assigned e.name ≠ e'.name)
    {go : Bool} (hcall : s.exportEntry mode e r = (go, s')) :
    go = false ∧ Landed p₀ mode passed s' ∨
      go = true ∧ Going p₀ mode (passed ++ [(e, r)]) s' ∧ (mode = .REPLACE → Ahead rest s') := by
  have hlisted (known : Listing (Nat × Bool)) (s₁ : Export) (parentId : Nat)
      (hlisting : s.listing parentId r.lists = some (known, s₁)) : Sound s₁.provider parentId known := by
    rw [(listing_spec hlisting).1]
    exact h.sound hlisting
  rcases exportEntry_step hlisted hcall with ⟨rfl, rfl⟩ | ⟨parentId, known, s₁, hparent, hlisting, hstep⟩
  · exact .inl ⟨rfl, h.toLanded⟩
  have hsound := hlisted known s₁ parentId hlisting
  obtain ⟨hprovider₁, hdirIds₁, hcopied₁, -⟩ := listing_spec hlisting
  replace h := h.listing hlisting
  replace ha := fun hmode => (ha hmode).congr hprovider₁ hdirIds₁ hcopied₁
  rw [← hdirIds₁] at hparent
  have hnone := h.unplaced hplan
  cases hstep with
  | stop hkept hdirIds hcopied hcount =>
    have hp : Preserves mode s₁ s' := by
      apply h.preserves ha hparent hsound hkept
      rw [hdirIds]
      exact fun _ _ hid => hid
    refine .inl ⟨rfl, ?_⟩
    rw [← List.append_nil passed]
    apply h.toLanded.keep hp hcopied
    · simp
    · exact hcount
  | skip hfile hprovider hdirIds hchildren hcopied hcount =>
    refine .inr ⟨rfl, h.skip hfile hprovider hdirIds hchildren hcopied hcount, fun hmode => ?_⟩
    exact (ha hmode).tail.congr hprovider hdirIds hcopied
  | merge id hdir hlookup hprovider hdirIds hchildren hcopied hcount =>
    refine .inr ⟨rfl, ?_, fun hmode => ?_⟩
    · exact h.merge hnone hparent hsound hlookup hprovider hdirIds hchildren hcopied hcount
    · exact (ha hmode).merge h hplan hparent hsound hdir hlookup hprovider hdirIds hcopied
  | mkdir id hdir hroot hfree hprovider hdirIds hchildren hcopied hcount =>
    have hp : Preserves mode s₁ s' := by
      refine h.preserves ha hparent hsound ?_ (dirIds_update hnone hdirIds)
      intro id' d hget
      rw [hprovider]
      exact .inl (Provider.Keeps.put hfree _ id' d hget)
    refine .inr ⟨rfl, ?_, fun hmode => ?_⟩
    · exact h.mkdir hparent hsound hroot hfree hprovider hdirIds hchildren hp hcopied hcount
    · exact (ha hmode).mkdir h hdir (hclear hmode) hroot hfree hprovider hdirIds hp hcopied
  | land id name content gone known' hfile hcontent hname hgone hroot hfree hget hknown hdirIds hchildren hcopied
      hcount =>
    have hp : Preserves mode s₁ s' := by
      apply h.preserves ha hparent hsound
      · intro id' d hd
        rcases land_kept hfree hget id' d hd with hthere | hvictim
        · exact .inl hthere
        · obtain ⟨hmode, hlookup⟩ := hgone id' hvictim
          exact .inr ⟨hmode, hfile, hlookup⟩
      · rw [hdirIds]
        exact fun _ _ hid => hid
    have hown : ∀ c ∈ s₁.copied, c.id ≠ id := by
      rcases hfree with hnone | hsome
      · rintro c hc rfl
        obtain ⟨-, name', hthere⟩ := h.present c hc
        rw [hnone] at hthere
        cases hthere
      · obtain ⟨hmode, hlookup⟩ := hgone id hsome
        exact h.foreign (ha hmode) hparent hsound hfile hlookup
    have hgoing : Going p₀ mode (passed ++ [(e, r)]) s' :=
      h.land hp hparent hsound hfile hcontent hgone hroot hfree hget hknown hown hdirIds hchildren hcopied hcount
    refine .inr ⟨rfl, hgoing, fun hmode => ?_⟩
    have hrootFree := hgoing.rootFree
    rw [hroot.2] at hrootFree
    refine (ha hmode).land h hp hfile (hclear hmode) ?_ hrootFree hdirIds hcopied
    rw [hget, if_pos rfl, hname hmode]

/-! ## The whole plan -/

/-- The name that the provider gives to the document of an entry is not that of a later entry of the same kind in
the same directory. -/
def Apart (plan : List (PlanEntry × ExportRun)) : Prop :=
  plan.Pairwise fun x y => y.1.parent = x.1.parent → y.1.isDir = x.1.isDir → x.2.assigned x.1.name ≠ y.1.name

theorem Going.entries {plan : List (PlanEntry × ExportRun)} (h : Going p₀ mode passed s)
    (ha : mode = .REPLACE → Ahead (plan.map Prod.fst) s) (hplan : Planned ((passed ++ plan).map Prod.fst))
    (hapart : mode = .REPLACE → Apart plan) {go : Bool} (hcall : exportEntries mode s plan = (go, s')) :
    ∃ done, done <+: plan ∧ (go = true → done = plan) ∧ Landed p₀ mode (passed ++ done) s' := by
  induction plan generalizing passed s with
  | nil =>
    cases hcall
    refine ⟨[], List.prefix_refl _, fun _ => rfl, ?_⟩
    rw [List.append_nil]
    exact h.toLanded
  | cons x plan ih =>
    obtain ⟨e, r⟩ := x
    have hplan' : Planned (passed.map Prod.fst ++ e :: plan.map Prod.fst) := by
      rw [List.map_append, List.map_cons] at hplan
      exact hplan
    have hclear (hmode : mode = .REPLACE) : ∀ e' ∈ plan.map Prod.fst, e'.parent = e.parent → e'.isDir = e.isDir →
        r.assigned e.name ≠ e'.name := by
      intro e' he'
      obtain ⟨y, hy, rfl⟩ := List.mem_map.mp he'
      exact (List.pairwise_cons.mp (hapart hmode)).1 y hy
    simp only [exportEntries] at hcall
    split at hcall
    · rename_i s₁ hentry
      cases hcall
      rcases h.entry ha hplan' hclear hentry with ⟨-, hlanded⟩ | ⟨htrue, -⟩
      · refine ⟨[], List.nil_prefix, fun htrue => ?_, ?_⟩
        · cases htrue
        · rw [List.append_nil]
          exact hlanded
      · cases htrue
    · rename_i s₁ hentry
      rcases h.entry ha hplan' hclear hentry with ⟨hfalse, -⟩ | ⟨-, hgoing, hahead⟩
      · cases hfalse
      rw [List.append_cons] at hplan
      obtain ⟨done, hdone, hall, hlanded⟩ :=
        ih hgoing hahead hplan (fun hmode => (List.pairwise_cons.mp (hapart hmode)).2) hcall
      refine ⟨(e, r) :: done, List.cons_prefix_cons.mpr ⟨rfl, hdone⟩, fun hgo => ?_, ?_⟩
      · rw [hall hgo]
      · rw [List.append_cons]
        exact hlanded

theorem Going.start (hroot : p₀.root ∉ p₀.docs) : Going p₀ mode [] (start p₀) where
  present c hc := by cases hc
  source := List.Sublist.refl _
  own := List.Pairwise.nil
  dirs p hp := by cases hp
  kept id d hget := .inl hget
  count := rfl
  agrees dirId known hknown := by cases hknown
  rootFree := AList.lookup_eq_none.mpr hroot
  placed path id hid := by
    simp only [Export.start] at hid
    split at hid
    · rename_i hempty
      cases hid
      exact .inl ⟨hempty, rfl⟩
    · cases hid

theorem Ahead.start (hroot : p₀.root ∉ p₀.docs) : Ahead rest (start p₀) where
  injective path path' id hid hid' := by
    simp only [Export.start] at hid hid'
    split at hid
    · split at hid'
      · simp_all
      · cases hid'
    · cases hid
  dirNames path id d hid hget := by
    simp only [Export.start] at hid
    split at hid
    · cases hid
      rw [Export.start, Provider.get, AList.lookup_eq_none.mpr hroot] at hget
      cases hget
    · cases hid
  fileNames c hc := by cases hc

/-- Every file that is counted is in the list. -/
def Tallied (s : Export) : Prop := s.filesCopied = s.copied.length

theorem Tallied.counted (h : s.Tallied) (p : Provider) (created : CreatedDocument) (content : Bytes) :
    ({ s with provider := p }.counted e parentId created content known).Tallied := by
  unfold Tallied at h ⊢
  simp [Export.counted, h]

theorem Tallied.writeDocument (h : s.Tallied) (requestedName : Text) :
    (s.writeDocument e parentId requestedName known r).2.Tallied := by
  unfold Export.writeDocument
  split
  · exact h
  · split
    · exact h
    · exact h.counted _ _ _

theorem Tallied.replaceDocument (h : s.Tallied) (existingId : Nat) :
    (s.replaceDocument e parentId existingId known r).2.Tallied := by
  unfold Export.replaceDocument
  simp only
  split
  · exact h
  split
  · exact h
  split
  · exact h
  split
  · exact h
  · exact h.counted _ _ _

theorem Tallied.entry (h : s.Tallied) : (s.exportEntry mode e r).2.Tallied := by
  unfold exportEntry
  split
  · exact h
  split
  · exact h
  split
  · exact h
  rename_i known s₁ hlisting
  have h₁ : s₁.Tallied := by
    obtain ⟨-, -, hcopied, -, hfiles, -⟩ := listing_spec hlisting
    unfold Tallied
    rw [hfiles, hcopied]
    exact h
  split
  · split
    · exact h₁
    · exact h₁
    · split <;> exact h₁
  · split
    · exact h₁
    · split
      · exact h₁
      · exact h₁.writeDocument _
      · exact h₁.replaceDocument _
    · exact h₁.writeDocument _

theorem Tallied.entries (h : s.Tallied) (plan : List (PlanEntry × ExportRun)) :
    (exportEntries mode s plan).2.Tallied := by
  induction plan generalizing s with
  | nil => exact h
  | cons x rest ih =>
    have hentry : (s.exportEntry mode x.1 x.2).2.Tallied := h.entry
    simp only [exportEntries]
    split
    · rename_i s₁ hcall
      rw [hcall] at hentry
      exact hentry
    · rename_i s₁ hcall
      rw [hcall] at hentry
      exact ih hentry

/-- However an export ends, nothing is lost. -/
def Whole (p : Provider) (mode : CollisionMode) (plan : List (PlanEntry × ExportRun)) : Prop :=
  ∃ ok s done, exportTree p plan mode = some (ok, s) ∧ done <+: plan ∧ (ok = true → done = plan) ∧
    Landed p mode done s ∧ s.Tallied

theorem exportTree_whole {p : Provider} (hroot : p.root ∉ p.docs) {plan : List (PlanEntry × ExportRun)}
    (hplan : Planned (plan.map Prod.fst)) (horder : parentBeforeChild [[]] (plan.map Prod.fst) = true)
    (hapart : mode = .REPLACE → Apart plan) : Whole p mode plan := by
  have htallied : (exportEntries mode (start p) plan).2.Tallied := by
    apply Tallied.entries
    rfl
  generalize hcall : exportEntries mode (start p) plan = result at htallied
  obtain ⟨go, s⟩ := result
  obtain ⟨done, hdone, hall, hlanded⟩ :=
    (Going.start hroot).entries (fun _ => Ahead.start hroot) hplan hapart hcall
  rw [List.nil_append] at hlanded
  refine ⟨go, s, done, ?_, hdone, hall, hlanded, htallied⟩
  unfold exportTree
  rw [if_pos horder, hcall]

end Export

theorem walk_order {maxDepth : Nat} {root : List (Text × Source)} {plan : List PlanEntry}
    (h : walk maxDepth root = some plan) : parentBeforeChild [[]] plan = true := by
  obtain ⟨entries, -, h⟩ := Option.bind_eq_some_iff.mp h
  split at h
  · rename_i horder
    cases h
    exact horder
  · cases h

/-- A tree that was walked is imported, or exported, without loss. -/
theorem nothing_lost {maxDepth : Nat} {root : List (Text × Source)} {plan : List PlanEntry}
    (hroot : Source.Distinct root) (hwalk : walk maxDepth root = some plan) (mode : CollisionMode) :
    (∀ (v : Volume) (dest : Path) (runs : List (PlanEntry × EntryRun)), runs.map Prod.fst = plan → v.Synced →
      v.live.WellFormed → (∀ x ∈ runs, x.2.Commits) → Import.Whole v dest mode runs) ∧
    ∀ (p : Provider) (runs : List (PlanEntry × ExportRun)), runs.map Prod.fst = plan → p.root ∉ p.docs →
      (mode = .REPLACE → Export.Apart runs) → Export.Whole p mode runs := by
  have hplan := walk_planned hroot hwalk
  have horder := walk_order hwalk
  constructor
  · rintro v dest runs rfl hsynced hwell hcommits
    exact Import.importTree_whole hsynced hwell hplan horder hcommits
  · rintro p runs rfl hfree hapart
    exact Export.exportTree_whole hfree hplan horder hapart

def smoothExport (id : Nat) (assigned : Text → Text) (data : Bytes) : ExportRun :=
  ⟨false, true, assigned, ⟨true, true⟩, id, ⟨true, [⟨data, true, true, false⟩], true, []⟩, 0, ⟨true, true⟩,
    ⟨true, true⟩, id⟩

-- The files "a" and "a.b".
def twoFiles : List (Text × Source) := [([97], .file true), ([97, 46, 98], .file true)]

def twoEntries : List PlanEntry := [⟨[[97]], false, true⟩, ⟨[[97, 46, 98]], false, true⟩]

theorem walk_twoFiles : walk DEFAULT_MAX_DEPTH twoFiles = some twoEntries := by
  have hsubs : (QueueItem.mk twoFiles [] 0).subs = [] := rfl
  have hentries : (QueueItem.mk twoFiles [] 0).entries = twoEntries := rfl
  unfold walk
  rw [walkFrom, if_neg (by decide), hsubs, List.nil_append, walkFrom, hentries]
  rfl

theorem twoFiles_distinct : Source.Distinct twoFiles := by
  refine ⟨by decide, by decide, ?_⟩
  intro name below hmem
  simp [twoFiles] at hmem

-- A volume with another file "a".
def oneOld : Tree := Tree.insert (fun _ => ∅) [] [97] (.file [9])

-- A provider that adds ".bin" to the name that it is asked for.
def addBin (name : Text) : Text := name ++ [46, 98, 105, 110]

/-- The two files go where there is an "a" already, on a volume and at a provider that adds to the names. -/
theorem two_files_whole :
    Import.Whole ⟨oneOld, oneOld, false, []⟩ [] .REPLACE (twoEntries.map fun e => (e, smoothRun [1])) ∧
      Export.Whole ⟨0, AList.insert 7 ⟨0, [97], false, [9]⟩ ∅⟩ .REPLACE
        [(⟨[[97]], false, true⟩, smoothExport 1 addBin [1]),
          (⟨[[97, 46, 98]], false, true⟩, smoothExport 2 addBin [2])] := by
  obtain ⟨himport, hexport⟩ := nothing_lost twoFiles_distinct walk_twoFiles .REPLACE
  constructor
  · apply himport
    · simp [Function.comp_def]
    · intro _
      rfl
    · have hempty : Tree.WellFormed fun _ => ∅ := fun _ _ => rfl
      exact hempty.insert rfl (by simp [Tree.get]) (.file [9])
    · simp [EntryRun.Commits, StreamRun.Commits, smoothRun, smoothStream]
  · apply hexport
    · rfl
    · rw [AList.mem_insert]
      simp
    · intro _
      simp [Export.Apart, smoothExport, addBin, PlanEntry.name]

/-- The document of "a" is called "a.b", and then replaced by that of "a.b". -/
theorem assigned_name_lost : Source.Distinct twoFiles ∧ walk DEFAULT_MAX_DEPTH twoFiles = some twoEntries ∧
    ∃ runs, runs.map Prod.fst = twoEntries ∧ ¬ Export.Whole ⟨0, ∅⟩ .REPLACE runs := by
  refine ⟨twoFiles_distinct, walk_twoFiles,
    [(⟨[[97]], false, true⟩, smoothExport 1 (fun _ => [97, 46, 98]) [1]),
      (⟨[[97, 46, 98]], false, true⟩, smoothExport 2 (fun _ => [98]) [2])], rfl, ?_⟩
  rintro ⟨ok, s, done, hcall, -, -, hlanded, -⟩
  cases hcall
  obtain ⟨-, name, hget⟩ := hlanded.present ⟨⟨[[97]], false, true⟩, 0, 1, [1]⟩ (by decide)
  cases hget

end LuksAndroid.App
