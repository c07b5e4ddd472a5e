import LuksAndroid.App.Transfer.Walk

/-!
# What an import leaves behind

The listings that `importTree` keeps say what is on the volume, so that no entry of the plan gets
in the way of another.
-/

namespace LuksAndroid.App

/-- What a source gave. -/
def StreamRun.source (r : StreamRun) : Bytes := (r.chunks.map Chunk.data).flatten

theorem copyLoop_eq {done content : Bytes} {chunks : List Chunk} (h : Volume.copyLoop done chunks = some content) :
    content = done ++ (chunks.map Chunk.data).flatten := by
  induction chunks generalizing done with
  | nil =>
    cases h
    simp
  | cons c rest ih =>
    unfold Volume.copyLoop at h
    split at h
    · rw [ih h]
      simp
    · cases h

theorem Planned.path_eq {plan : List PlanEntry} {e : PlanEntry} (h : Planned plan) (he : e ∈ plan) :
    e.relativePath = e.parent ++ [e.name] := by
  have hne := h.named e he
  unfold PlanEntry.parent PlanEntry.name
  rw [List.getLastD_eq_getLast?, List.getLast?_eq_getLast_of_ne_nil hne, Option.getD_some,
    List.dropLast_append_getLast hne]

theorem Planned.take {plan more : List PlanEntry} (h : Planned (plan ++ more)) : Planned plan := by
  refine ⟨?_, fun e he => h.named e (List.mem_append_left more he)⟩
  have hnodup := h.nodup
  rw [List.map_append, List.nodup_append] at hnodup
  exact hnodup.1

namespace Tree

variable {t : Tree}

theorem get_insert (dir : Path) (name : Text) (node : Node) (dir' : Path) (name' : Text) :
    (t.insert dir name node).get dir' name' = if dir' = dir ∧ name' = name then some node else t.get dir' name' := by
  split
  · rename_i hplace
    rw [hplace.1, hplace.2, get_insert_self]
  · rename_i hplace
    rw [get_insert_other fun hdir hname => hplace ⟨hdir, hname⟩]

/-- Nothing is in a directory that is not there. -/
def WellFormed (t : Tree) : Prop := ∀ path, t.hasDir path = false → t path = ∅

theorem WellFormed.change {t' : Tree} (h : t.WellFormed) {dir : Path} {name : Text} (hdir : t.hasDir dir = true)
    (hname : t.get dir name ≠ some .dir)
    (hother : ∀ dir' name', (dir' = dir → name' ≠ name) → t'.get dir' name' = t.get dir' name')
    (hsame : ∀ dir', dir' ≠ dir → t' dir' = t dir') : t'.WellFormed := by
  -- what was a directory is one still
  have hkept (path : Path) (hpath : t.hasDir path = true) : t'.hasDir path = true := by
    unfold hasDir at hpath ⊢
    split
    · rfl
    · rename_i last hlast
      rw [hlast] at hpath
      simp only [decide_eq_true_eq] at hpath ⊢
      rw [hother, hpath]
      rintro rfl rfl
      exact hname hpath
  intro path hpath
  have hmissing : t.hasDir path = false := by
    by_contra hthere
    rw [Bool.not_eq_false] at hthere
    rw [hkept path hthere] at hpath
    cases hpath
  have hne : path ≠ dir := by
    rintro rfl
    rw [hdir] at hmissing
    cases hmissing
  rw [hsame path hne]
  exact h path hmissing

theorem WellFormed.insert (h : t.WellFormed) {dir : Path} {name : Text} (hdir : t.hasDir dir = true)
    (hname : t.get dir name ≠ some .dir) (node : Node) : (t.insert dir name node).WellFormed := by
  apply h.change hdir hname
  · intro dir' name' hne
    exact get_insert_other hne node
  · intro dir' hne
    exact Function.update_of_ne hne ..

theorem WellFormed.erase (h : t.WellFormed) {dir : Path} {name : Text} (hdir : t.hasDir dir = true)
    (hname : t.get dir name ≠ some .dir) : (t.erase dir name).WellFormed := by
  apply h.change hdir hname
  · intro dir' name' hne
    exact get_erase_other hne
  · intro dir' hne
    exact Function.update_of_ne hne ..

theorem hasDir_of_same {t' : Tree} {dir : Path} (hsame : ∀ dir', dir' ≠ dir → t' dir' = t dir')
    (hdir : t.hasDir dir = true) : t'.hasDir dir = true := by
  unfold hasDir at hdir ⊢
  split
  · rfl
  · rename_i last hlast
    rw [hlast] at hdir
    have hne : dir.dropLast ≠ dir := by
      intro heq
      have hlength := congrArg List.length heq
      cases dir with
      | nil => cases hlast
      | cons => simp at hlength
    unfold get at hdir ⊢
    rw [hsame _ hne]
    exact hdir

theorem get_temp {dir : Path} {temp : Text} (hfree : t.get dir temp = none) {content : Bytes} {dir' : Path}
    {name' : Text} :
    ((t.insert dir temp (.file content)).erase dir temp).get dir' name' = t.get dir' name' := by
  by_cases hplace : dir' = dir ∧ name' = temp
  · rw [hplace.1, hplace.2, get_erase_self, hfree]
  · have hother : dir' = dir → name' ≠ temp := fun hdir hname => hplace ⟨hdir, hname⟩
    rw [get_erase_other hother, get_insert_other hother]

theorem WellFormed.temp (h : t.WellFormed) {dir : Path} {temp : Text} (hdir : t.hasDir dir = true)
    (hfree : t.get dir temp = none) (content : Bytes) :
    ((t.insert dir temp (.file content)).erase dir temp).WellFormed ∧
      ((t.insert dir temp (.file content)).erase dir temp).hasDir dir = true := by
  have hdir' : (t.insert dir temp (.file content)).hasDir dir = true := by
    apply hasDir_of_same _ hdir
    intro dir' hne
    exact Function.update_of_ne hne ..
  constructor
  · refine (h.insert hdir ?_ _).erase hdir' ?_
    · simp [hfree]
    · simp [get_insert_self]
  · apply hasDir_of_same _ hdir'
    intro dir' hne
    exact Function.update_of_ne hne ..

end Tree

namespace Import

variable {s s' : Import} {t₀ : Tree} {dest : Path} {mode : CollisionMode}

/-- The listings say what the mount shows. -/
def Agrees (s : Import) : Prop := ∀ dir known, s.children dir = some known → ∀ name,
  known.lookup name = (s.volume.live.get dir name).map Node.isDir

theorem isDirs_lookup (entries : Listing Node) (name : Text) :
    (isDirs entries).lookup name = (entries.lookup name).map Node.isDir := by
  unfold isDirs
  rw [AList.lookup_to_alist]
  exact List.dlookup_map₂ name

theorem Agrees.listing {dir : Path} {lists : Bool} {known : Listing Bool} {s₁ : Import} (h : s.Agrees)
    (hlisting : s.listing dir lists = some (known, s₁)) : s₁.Agrees := by
  obtain ⟨hvolume, -, -, -, ⟨-, rfl⟩ | ⟨rfl, hchildren⟩⟩ := listing_spec hlisting
  · exact h
  · intro dir' known' hknown name
    rw [hchildren] at hknown
    rw [hvolume]
    by_cases hdir : dir' = dir
    · subst hdir
      rw [Function.update_self] at hknown
      cases hknown
      exact isDirs_lookup _ name
    · rw [Function.update_of_ne hdir] at hknown
      exact h dir' known' hknown name

theorem Agrees.insert {dir : Path} {name : Text} {node : Node} {known : Listing Bool} (h : s.Agrees)
    (hknown : s.children dir = some known) {s' : Import}
    (hlive : ∀ dir' name', s'.volume.live.get dir' name' = if dir' = dir ∧ name' = name then some node
      else s.volume.live.get dir' name')
    (hchildren : s'.children = Function.update s.children dir (some (known.insert name node.isDir))) : s'.Agrees := by
  intro dir' known' hknown' name'
  rw [hchildren] at hknown'
  rw [hlive]
  by_cases hdir : dir' = dir
  · subst hdir
    rw [Function.update_self] at hknown'
    cases hknown'
    by_cases hname : name' = name
    · subst hname
      simp
    · rw [if_neg (fun hboth => hname hboth.2), AList.lookup_insert_ne hname]
      exact h dir' known hknown name'
  · rw [Function.update_of_ne hdir] at hknown'
    rw [if_neg (fun hboth => hdir hboth.1)]
    exact h dir' known' hknown' name'

/-! ## The invariant -/

/-- What holds wherever the loop ends, with the entries that it has passed. -/
structure Landed (t₀ : Tree) (dest : Path) (mode : CollisionMode) (passed : List (PlanEntry × EntryRun)) (s : Import) :
    Prop where
  present : ∀ c ∈ s.copied, s.volume.live.get c.dir c.name = some (.file c.content) ∧ c.dir = dest ++ c.entry.parent
  source : (s.copied.map fun c => (c.entry, c.content)).Sublist (passed.map fun p => (p.1, p.2.stream.source))
  own : s.copied.Pairwise fun c d => ¬ (c.dir = d.dir ∧ c.name = d.name)
  dirs : ∀ p ∈ passed, p.1.isDir = true → s.volume.live.get (dest ++ p.1.parent) p.1.name = some .dir
  kept : ∀ dir name node, t₀.get dir name = some node → s.volume.live.get dir name = some node ∨
    mode = .REPLACE ∧ ∃ c ∈ s.copied, c.dir = dir ∧ c.name = name
  count : s.count = passed.length

/-- What holds in the loop. -/
structure Going (t₀ : Tree) (dest : Path) (mode : CollisionMode) (passed : List (PlanEntry × EntryRun)) (s : Import) :
    Prop extends Landed t₀ dest mode passed s where
  synced : s.volume.Synced
  wellFormed : s.volume.live.WellFormed
  agrees : s.Agrees
  named : mode = .REPLACE → ∀ c ∈ s.copied, c.name = c.entry.name

variable {passed : List (PlanEntry × EntryRun)} {e : PlanEntry} {r : EntryRun} {dir : Path} {known : Listing Bool}

theorem Landed.keep (h : Landed t₀ dest mode passed s)
    (hlive : ∀ dir name node, s.volume.live.get dir name = some node → s'.volume.live.get dir name = some node)
    (hcopied : s'.copied = s.copied) {more : List (PlanEntry × EntryRun)}
    (hdirs : ∀ p ∈ more, p.1.isDir = true → s'.volume.live.get (dest ++ p.1.parent) p.1.name = some .dir)
    (hcount : s'.count = s.count + more.length) : Landed t₀ dest mode (passed ++ more) s' where
  present c hc := by
    rw [hcopied] at hc
    obtain ⟨hthere, hdir⟩ := h.present c hc
    exact ⟨hlive _ _ _ hthere, hdir⟩
  source := by
    rw [hcopied, List.map_append]
    exact h.source.trans (List.sublist_append_left _ _)
  own := by
    rw [hcopied]
    exact h.own
  dirs p hp hdir := by
    rcases List.mem_append.mp hp with hp | hp
    · exact hlive _ _ _ (h.dirs p hp hdir)
    · exact hdirs p hp hdir
  kept dir name node hnode := by
    rw [hcopied]
    rcases h.kept dir name node hnode with hthere | hreplaced
    · exact .inl (hlive _ _ _ hthere)
    · exact .inr hreplaced
  count := by rw [hcount, h.count, List.length_append]

/-- A file has landed at a name at which there was nothing, or a file that was not of the plan. -/
theorem Landed.land (h : Landed t₀ dest mode passed s) {name : Text} {content : Bytes} (hfile : e.isDir = false)
    (hcontent : Volume.copyLoop [] r.stream.chunks = some content)
    (hbefore : s.volume.live.get (dest ++ e.parent) name = none ∨
      mode = .REPLACE ∧ ∃ old, s.volume.live.get (dest ++ e.parent) name = some (.file old))
    (hown : ∀ c ∈ s.copied, ¬ (c.dir = dest ++ e.parent ∧ c.name = name))
    (hlive : ∀ dir' name', s'.volume.live.get dir' name' = if dir' = dest ++ e.parent ∧ name' = name then
      some (.file content) else s.volume.live.get dir' name')
    (hcopied : s'.copied = s.copied ++ [⟨e, dest ++ e.parent, name, content⟩]) (hcount : s'.count = s.count + 1) :
    Landed t₀ dest mode (passed ++ [(e, r)]) s' where
  present c hc := by
    rw [hcopied] at hc
    rcases List.mem_append.mp hc with hc | hc
    · rw [hlive, if_neg (hown c hc)]
      exact h.present c hc
    · rw [List.mem_singleton.mp hc, hlive]
      simp
  source := by
    rw [hcopied, List.map_append, List.map_append]
    have hbytes : content = r.stream.source := copyLoop_eq hcontent
    rw [hbytes]
    exact h.source.append (List.Sublist.refl _)
  own := by
    rw [hcopied]
    refine List.pairwise_append.mpr ⟨h.own, List.pairwise_singleton _ _, ?_⟩
    intro c hc d hd
    rw [List.mem_singleton.mp hd]
    exact hown c hc
  dirs p hp hdir := by
    rcases List.mem_append.mp hp with hp | hp
    · have hthere := h.dirs p hp hdir
      rw [hlive, if_neg]
      · exact hthere
      · rintro ⟨hparent, hname⟩
        rw [hparent, hname] at hthere
        rcases hbefore with hnone | ⟨-, old, hold⟩
        · rw [hthere] at hnone
          cases hnone
        · rw [hthere] at hold
          cases hold
    · rw [List.mem_singleton.mp hp, hfile] at hdir
      cases hdir
  kept dir' name' node hnode := by
    by_cases hplace : dir' = dest ++ e.parent ∧ name' = name
    · obtain ⟨rfl, rfl⟩ := hplace
      rcases h.kept _ _ node hnode with hthere | ⟨-, c, hc, hdir, hname⟩
      · rcases hbefore with hnone | ⟨hmode, -⟩
        · rw [hthere] at hnone
          cases hnone
        · exact .inr ⟨hmode, ⟨e, _, _, content⟩, by simp [hcopied], rfl, rfl⟩
      · exact absurd ⟨hdir, hname⟩ (hown c hc)
    · rw [hlive, if_neg hplace]
      rcases h.kept dir' name' node hnode with hthere | ⟨hmode, c, hc, hdir, hname⟩
      · exact .inl hthere
      · refine .inr ⟨hmode, c, ?_, hdir, hname⟩
        rw [hcopied]
        exact List.mem_append_left _ hc
  count := by rw [hcount, h.count, List.length_append, List.length_singleton]

/-! ## One entry -/

theorem Going.listing {lists : Bool} {s₁ : Import} (h : Going t₀ dest mode passed s)
    (hlisting : s.listing dir lists = some (known, s₁)) : Going t₀ dest mode passed s₁ := by
  obtain ⟨hvolume, hcopied, hcount, -⟩ := listing_spec hlisting
  have hlanded : Landed t₀ dest mode (passed ++ []) s₁ := by
    apply h.toLanded.keep
    · intro dir' name node hthere
      rw [hvolume]
      exact hthere
    · exact hcopied
    · simp
    · exact hcount
  rw [List.append_nil] at hlanded
  refine ⟨hlanded, ?_, ?_, h.agrees.listing hlisting, ?_⟩
  · rw [hvolume]
    exact h.synced
  · rw [hvolume]
    exact h.wellFormed
  · rw [hcopied]
    exact h.named

theorem Agrees.mkdir {name : Text} (h : s.Agrees) (hwell : s.volume.live.WellFormed)
    (hknown : s.children dir = some known) (hfree : s.volume.live.get dir name = none)
    (hlive : s'.volume.live = s.volume.live.insert dir name .dir)
    (hchildren : s'.children = (s.recordCreatedDirectory dir name known).children) : s'.Agrees := by
  have hne : dir ++ [name] ≠ dir := by simp
  have hnot (dir' : Path) (hdir : dir' ≠ dir) (name' : Text) :
      s'.volume.live.get dir' name' = s.volume.live.get dir' name' := by
    rw [hlive]
    exact Tree.get_insert_other (fun heq => absurd heq hdir) _
  intro dir' known' hknown' name'
  rw [hchildren] at hknown'
  simp only [recordCreatedDirectory] at hknown'
  by_cases hnew : dir' = dir ++ [name]
  · subst hnew
    rw [Function.update_self, Function.update_of_ne hne] at hknown'
    cases hknown'
    rw [hnot _ hne]
    cases hcached : s.children (dir ++ [name]) with
    | some cached => exact h _ cached hcached name'
    | none =>
      -- there was no directory, so that there is nothing in it
      have hempty : s.volume.live (dir ++ [name]) = ∅ := by
        apply hwell
        simp [Tree.hasDir, hfree]
      simp [Tree.get, hempty]
  · rw [Function.update_of_ne hnew] at hknown'
    by_cases hdir : dir' = dir
    · subst hdir
      rw [Function.update_self] at hknown'
      cases hknown'
      rw [hlive]
      by_cases hname : name' = name
      · subst hname
        rw [AList.lookup_insert, Tree.get_insert_self]
        rfl
      · rw [AList.lookup_insert_ne hname, Tree.get_insert_other (fun _ => hname)]
        exact h _ known hknown name'
    · rw [Function.update_of_ne hdir] at hknown'
      rw [hnot _ hdir]
      exact h dir' known' hknown' name'

theorem Going.pass (h : Going t₀ dest mode passed s) (hknown : s.children (dest ++ e.parent) = some known)
    (hdir : e.isDir = true → known.lookup e.name = some true) (hsynced : s'.volume.Synced)
    (hlive : s'.volume.live = s.volume.live) (hchildren : s'.children = s.children) (hcopied : s'.copied = s.copied)
    (hcount : s'.count = s.count + 1) : Going t₀ dest mode (passed ++ [(e, r)]) s' := by
  refine ⟨?_, hsynced, ?_, ?_, ?_⟩
  · apply h.toLanded.keep
    · rw [hlive]
      exact fun _ _ _ hthere => hthere
    · exact hcopied
    · intro p hp hpdir
      rw [List.mem_singleton.mp hp] at hpdir ⊢
      have hshown := h.agrees _ known hknown e.name
      rw [hdir hpdir] at hshown
      rw [hlive]
      obtain ⟨node, hnode, hisDir⟩ := Option.map_eq_some_iff.mp hshown.symm
      cases node with
      | dir => exact hnode
      | file content => cases hisDir
    · exact hcount
  · rw [hlive]
    exact h.wellFormed
  · unfold Agrees
    rw [hlive, hchildren]
    exact h.agrees
  · rw [hcopied]
    exact h.named

theorem Going.mkdir (h : Going t₀ dest mode passed s) (hknown : s.children (dest ++ e.parent) = some known)
    (hhas : s.volume.live.hasDir (dest ++ e.parent) = true) (hsynced : s'.volume.Synced)
    (hfree : s.volume.live.get (dest ++ e.parent) e.name = none)
    (hlive : s'.volume.live = s.volume.live.insert (dest ++ e.parent) e.name .dir)
    (hchildren : s'.children = (s.recordCreatedDirectory (dest ++ e.parent) e.name known).children)
    (hcopied : s'.copied = s.copied) (hcount : s'.count = s.count + 1) :
    Going t₀ dest mode (passed ++ [(e, r)]) s' := by
  refine ⟨?_, hsynced, ?_, h.agrees.mkdir h.wellFormed hknown hfree hlive hchildren, ?_⟩
  · apply h.toLanded.keep
    · intro dir name node hthere
      rw [hlive, Tree.get_insert_other, hthere]
      rintro rfl rfl
      rw [hfree] at hthere
      cases hthere
    · exact hcopied
    · intro p hp _
      rw [List.mem_singleton.mp hp, hlive]
      exact Tree.get_insert_self ..
    · exact hcount
  · rw [hlive]
    apply h.wellFormed.insert hhas
    simp [hfree]
  · rw [hcopied]
    exact h.named

theorem Going.land (h : Going t₀ dest mode passed s) (hknown : s.children (dest ++ e.parent) = some known)
    {name : Text} {content : Bytes} (hfile : e.isDir = false)
    (hcontent : Volume.copyLoop [] r.stream.chunks = some content) (hname : mode = .REPLACE → name = e.name)
    (hbefore : s.volume.live.get (dest ++ e.parent) name = none ∨
      mode = .REPLACE ∧ ∃ old, s.volume.live.get (dest ++ e.parent) name = some (.file old))
    (hown : ∀ c ∈ s.copied, ¬ (c.dir = dest ++ e.parent ∧ c.name = name)) (hsynced : s'.volume.Synced)
    (hwell : s'.volume.live.WellFormed)
    (hlive : ∀ dir' name', s'.volume.live.get dir' name' = if dir' = dest ++ e.parent ∧ name' = name then
      some (.file content) else s.volume.live.get dir' name')
    (hchildren : s'.children = (s.recordCreatedFile (dest ++ e.parent) name known).children)
    (hcopied : s'.copied = s.copied ++ [⟨e, dest ++ e.parent, name, content⟩]) (hcount : s'.count = s.count + 1) :
    Going t₀ dest mode (passed ++ [(e, r)]) s' := by
  refine ⟨h.toLanded.land hfile hcontent hbefore hown hlive hcopied hcount, hsynced, hwell,
    h.agrees.insert hknown hlive hchildren, ?_⟩
  intro hmode c hc
  rw [hcopied] at hc
  rcases List.mem_append.mp hc with hc | hc
  · exact h.named hmode c hc
  · rw [List.mem_singleton.mp hc]
    exact hname hmode

/-- No file of the plan that has landed has the path of another entry. -/
theorem Going.apart (h : Going t₀ dest mode passed s) (hmode : mode = .REPLACE)
    (hplan : Planned (passed.map Prod.fst ++ [e])) :
    ∀ c ∈ s.copied, ¬ (c.dir = dest ++ e.parent ∧ c.name = e.name) := by
  rintro c hc ⟨hdir, hname⟩
  rw [(h.present c hc).2] at hdir
  rw [h.named hmode c hc] at hname
  have hpassed : c.entry ∈ passed.map Prod.fst := by
    have hmem := h.source.subset (List.mem_map_of_mem hc)
    obtain ⟨p, hp, heq⟩ := List.mem_map.mp hmem
    have hentry : p.1 = c.entry := congrArg Prod.fst heq
    rw [← hentry]
    exact List.mem_map_of_mem hp
  have hsame : c.entry.relativePath = e.relativePath := by
    rw [hplan.path_eq (by simp [hpassed]), hplan.path_eq (e := e) (by simp), hname, List.append_cancel_left hdir]
  have hnodup := hplan.nodup
  rw [List.map_append, List.nodup_append] at hnodup
  exact hnodup.2.2 _ (List.mem_map_of_mem hpassed) _ (by simp) hsame

theorem Going.entry (h : Going t₀ dest mode passed s) (hcommits : r.Commits)
    (hplan : Planned (passed.map Prod.fst ++ [e])) {go : Bool} (hcall : s.importEntry dest mode e r = (go, s')) :
    go = false ∧ Landed t₀ dest mode passed s' ∨ go = true ∧ Going t₀ dest mode (passed ++ [(e, r)]) s' := by
  obtain ⟨hsynced, ⟨rfl, rfl⟩ | ⟨known, s₁, hlisting, hstep⟩⟩ := importEntry_step h.synced hcommits hcall
  · exact .inl ⟨rfl, h.toLanded⟩
  have hknown := (listing_spec hlisting).2.2.2.1
  replace h := h.listing hlisting
  cases hstep with
  | stop hlive hcopied hcount =>
    refine .inl ⟨rfl, ?_⟩
    rw [← List.append_nil passed]
    apply h.toLanded.keep
    · rw [hlive]
      exact fun _ _ _ hthere => hthere
    · exact hcopied
    · simp
    · exact hcount
  | stop_temp temp content hfree hlive hcopied hcount =>
    refine .inl ⟨rfl, ?_⟩
    rw [← List.append_nil passed]
    apply h.toLanded.keep
    · intro dir name node hthere
      have hother : dir = dest ++ e.parent → name ≠ temp := by
        rintro rfl rfl
        rw [hfree] at hthere
        cases hthere
      rcases hlive with hlive | hlive
      · rw [hlive, Tree.get_insert_other hother, hthere]
      · rw [hlive, Tree.get_temp hfree, hthere]
    · exact hcopied
    · simp
    · exact hcount
  | pass hdir hlive hchildren hcopied hcount =>
    exact .inr ⟨rfl, h.pass hknown hdir hsynced hlive hchildren hcopied hcount⟩
  | mkdir hhas hfree hlive hchildren hcopied hcount =>
    exact .inr ⟨rfl, h.mkdir hknown hhas hsynced hfree hlive hchildren hcopied hcount⟩
  | write name content hfile hcontent hname hhas hfree hlive hchildren hcopied hcount =>
    refine .inr ⟨rfl, h.land hknown hfile hcontent hname (.inl hfree) ?_ hsynced ?_ ?_ hchildren hcopied hcount⟩
    · rintro c hc ⟨hdir, hname⟩
      have hthere := (h.present c hc).1
      rw [hdir, hname, hfree] at hthere
      cases hthere
    · rw [hlive]
      apply h.wellFormed.insert hhas
      simp [hfree]
    · rw [hlive]
      exact fun _ _ => Tree.get_insert ..
  | replace temp content hfile hcontent hmode hlookup htemp hhas hfree hlive hchildren hcopied hcount =>
    have hshown := h.agrees _ known hknown e.name
    rw [hlookup] at hshown
    obtain ⟨node, hnode, hisDir⟩ := Option.map_eq_some_iff.mp hshown.symm
    refine .inr ⟨rfl, h.land hknown hfile hcontent (fun _ => rfl) (.inr ⟨hmode, ?_⟩) (h.apart hmode hplan) hsynced ?_ ?_
      hchildren hcopied hcount⟩
    · cases node with
      | dir => cases hisDir
      | file old => exact ⟨old, hnode⟩
    · rw [hlive]
      have hgone := h.wellFormed.temp hhas hfree content
      apply hgone.1.insert hgone.2
      rw [Tree.get_temp hfree, hnode]
      intro hdir
      cases hdir
      cases hisDir
    · intro dir' name'
      rw [hlive, Tree.get_insert, Tree.get_temp hfree]

/-! ## The whole plan -/

theorem Going.entries {rest : List (PlanEntry × EntryRun)} (h : Going t₀ dest mode passed s)
    (hcommits : ∀ x ∈ rest, x.2.Commits) (hplan : Planned ((passed ++ rest).map Prod.fst)) {go : Bool}
    (hcall : importEntries dest mode s rest = (go, s')) :
    ∃ done, done <+: rest ∧ (go = true → done = rest) ∧ Landed t₀ dest mode (passed ++ done) s' := by
  induction rest generalizing passed s with
  | nil =>
    cases hcall
    refine ⟨[], List.prefix_refl _, fun _ => rfl, ?_⟩
    rw [List.append_nil]
    exact h.toLanded
  | cons x rest ih =>
    obtain ⟨e, r⟩ := x
    rw [List.append_cons] at hplan
    have hnext : Planned (passed.map Prod.fst ++ [e]) := by
      rw [List.map_append] at hplan
      simpa using hplan.take
    simp only [importEntries] at hcall
    split at hcall
    · rename_i s₁ hentry
      cases hcall
      rcases h.entry (hcommits (e, r) (by simp)) hnext hentry with ⟨-, hlanded⟩ | ⟨htrue, -⟩
      · refine ⟨[], List.nil_prefix, fun htrue => ?_, ?_⟩
        · cases htrue
        · rw [List.append_nil]
          exact hlanded
      · cases htrue
    · rename_i s₁ hentry
      rcases h.entry (hcommits (e, r) (by simp)) hnext hentry with ⟨hfalse, -⟩ | ⟨-, hgoing⟩
      · cases hfalse
      · obtain ⟨done, hdone, hall, hlanded⟩ :=
          ih hgoing (fun x hx => hcommits x (List.mem_cons_of_mem _ hx)) hplan hcall
        refine ⟨(e, r) :: done, (List.cons_prefix_cons).mpr ⟨rfl, hdone⟩, fun hgo => ?_, ?_⟩
        · rw [hall hgo]
        · rw [List.append_cons]
          exact hlanded

theorem Going.start {v : Volume} (hsynced : v.Synced) (hwell : v.live.WellFormed) :
    Going v.live dest mode [] (start v) where
  present c hc := by cases hc
  source := List.Sublist.refl _
  own := List.Pairwise.nil
  dirs p hp := by cases hp
  kept dir name node hnode := .inl hnode
  count := rfl
  synced := hsynced
  wellFormed := hwell
  agrees dir known hknown := by cases hknown
  named _ c hc := by cases hc

/-- Every file that is counted is in the list. -/
def Tallied (s : Import) : Prop := s.filesCopied = s.copied.length

theorem Tallied.listing {lists : Bool} {s₁ : Import} (h : s.Tallied)
    (hlisting : s.listing dir lists = some (known, s₁)) :
    s₁.Tallied := by
  unfold Import.listing at hlisting
  split at hlisting
  · cases hlisting
    exact h
  · split at hlisting
    · cases hlisting
      exact h
    · cases hlisting

theorem Tallied.counted (h : s.Tallied) (v : Volume) (name : Text) (content : Bytes) :
    ({ s with volume := v }.counted e dir name content known).Tallied := by
  unfold Tallied at h ⊢
  simp [Import.counted, h]

theorem Tallied.writeFile (h : s.Tallied) (name : Text) : (s.writeFile e dir name known r).2.Tallied := by
  unfold Import.writeFile
  split
  · exact h
  · exact h.counted _ _ _

theorem Tallied.replaceFile (h : s.Tallied) : (s.replaceFile e dir known r).2.Tallied := by
  unfold Import.replaceFile
  simp only
  split
  · exact h
  · split
    · exact h
    · exact h.counted _ _ _

theorem Tallied.entry (h : s.Tallied) : (s.importEntry dest mode e r).2.Tallied := by
  unfold importEntry
  split
  · exact h
  simp only
  split
  · exact h
  rename_i known s₁ hlisting
  have h₁ := h.listing hlisting
  split
  · split
    · exact h₁
    · exact h₁
    · split <;> exact h₁
  · split
    · exact h₁
    · split
      · exact h₁
      · exact h₁.writeFile _
      · exact h₁.replaceFile
    · exact h₁.writeFile _

theorem Tallied.entries (h : s.Tallied) (plan : List (PlanEntry × EntryRun)) :
    (importEntries dest mode s plan).2.Tallied := by
  induction plan generalizing s with
  | nil => exact h
  | cons x rest ih =>
    have hentry : (s.importEntry dest mode x.1 x.2).2.Tallied := h.entry
    simp only [importEntries]
    split
    · rename_i s₁ hcall
      rw [hcall] at hentry
      exact hentry
    · rename_i s₁ hcall
      rw [hcall] at hentry
      exact ih hentry

/-- However an import ends, with commits that do not fail, nothing is lost. -/
def Whole (v : Volume) (dest : Path) (mode : CollisionMode) (plan : List (PlanEntry × EntryRun)) : Prop :=
  ∃ ok s done, importTree v plan dest mode true = some (ok, s) ∧ done <+: plan ∧ (ok = true → done = plan) ∧
    Landed v.live dest mode done s ∧ s.Tallied

theorem importTree_whole {v : Volume} (hsynced : v.Synced) (hwell : v.live.WellFormed)
    {plan : List (PlanEntry × EntryRun)} (hplan : Planned (plan.map Prod.fst))
    (horder : parentBeforeChild [[]] (plan.map Prod.fst) = true) (hcommits : ∀ x ∈ plan, x.2.Commits) :
    Whole v dest mode plan := by
  unfold Whole importTree
  rw [if_pos horder]
  have htallied : (importEntries dest mode (start v) plan).2.Tallied := by
    apply Tallied.entries
    rfl
  generalize hcall : importEntries dest mode (start v) plan = result at htallied
  obtain ⟨go, s⟩ := result
  obtain ⟨done, hdone, hall, hlanded⟩ := (Going.start hsynced hwell).entries hcommits hplan hcall
  rw [List.nil_append] at hlanded
  cases go with
  | false => exact ⟨false, s, done, rfl, hdone, hall, hlanded, htallied⟩
  | true =>
    generalize hw : s.volume.called .commitActiveBatch = w
    have hcalled : w.live = s.volume.live := by rw [← hw, Volume.called]
    simp only
    rw [hw]
    refine ⟨(w.commitActiveBatch true).1, { s with volume := (w.commitActiveBatch true).2 }, done, rfl, hdone,
      fun _ => hall rfl, ?_, htallied⟩
    -- the last commit makes no change to what the mount shows
    have hlive : (w.commitActiveBatch true).2.live = s.volume.live := by
      rw [← hcalled]
      unfold Volume.commitActiveBatch Volume.commit
      split <;> rfl
    rw [← List.append_nil done]
    apply hlanded.keep
    · intro dir name node hthere
      simp only [hlive]
      exact hthere
    · rfl
    · simp
    · rfl

end Import

end LuksAndroid.App
