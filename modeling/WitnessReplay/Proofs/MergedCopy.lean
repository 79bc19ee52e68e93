import WitnessReplay.Proofs.CopiedTree

/-!
# Copies over one another

The copies of several roots are laid over one another, so that a file comes from the last
root that has it. They succeed exactly if everything fits, in the roots and at the target.
-/

namespace WitnessReplay.Benchmark

open Files FileSystem List

variable {root target : Path} {roots rest : List Path} {τ t : Route} {s s' u : FileSystem}
  {node : Node} {content : ByteArray} {access : Access}

def layers (fs : FileSystem) (roots : List Path) (r : Route) : List (Option Status) :=
  roots.map fun root => fs.status? (root.route fs.home ++ r)

/-- The mode and the content of the file that a merged copy of directories has at a route:
those of the last directory with a file there. -/
def mergedFile? (fs : FileSystem) (roots : List Path) (r : Route) :
    Option (Access × ByteArray) :=
  lastFile? (layers fs roots r)

def merged? (fs : FileSystem) (roots : List Path) (r : Route) : Option ByteArray :=
  (mergedFile? fs roots r).map (·.2)

theorem map_file? (fs : FileSystem) (r : Route) :
    ((fs.status? r).bind Status.file?).map (·.2) = fs.file? r := by
  rw [FileSystem.file?, get?_eq_bind]
  cases fs.status? r with
  | none => rfl
  | some s => cases s <;> rfl

theorem merged?_cons (fs : FileSystem) (root : Path) (rest : List Path) (r : Route) :
    merged? fs (root :: rest) r =
      (merged? fs rest r).or (fs.file? (root.route fs.home ++ r)) := by
  rw [merged?, mergedFile?, layers, map_cons, lastFile?, ← map_file?]
  exact Option.map_or

theorem layers_congr (hhome : s'.home = s.home)
    (h : ∀ root ∈ roots, ∀ r, s'.status? (root.route s.home ++ r) =
      s.status? (root.route s.home ++ r)) (r : Route) :
    layers s' roots r = layers s roots r := by
  rw [layers, layers, hhome]
  exact map_congr_left fun root hroot => h root hroot r

def Holds (fs : FileSystem) (places : List Path) (t : Route) (node : Node) : Prop :=
  ∃ place ∈ places, fs.get? (place.route fs.home ++ t) = some node

theorem mergedFile?_congr (hhome : s'.home = s.home)
    (h : ∀ x, (s'.status? x).bind Status.file? = (s.status? x).bind Status.file?)
    (roots : List Path) (r : Route) : mergedFile? s' roots r = mergedFile? s roots r := by
  induction roots with
  | nil => rfl
  | cons root rest ih =>
    rw [mergedFile?, mergedFile?, layers, layers, map_cons, map_cons, lastFile?,
      lastFile?, hhome, h]
    rw [mergedFile?, mergedFile?, layers, layers, hhome] at ih
    rw [ih]

/-- Everything in the roots can be copied to the target: the paths can be followed, and at
each route the entries of the roots can be copied one over the other. -/
structure Suits (roots : List Path) (target : Path) (s : FileSystem) : Prop where
  short : ∀ root ∈ roots, ∀ t, t ≠ [] → s.status? (root.route s.home ++ t) ≠ none →
    (root.joinAll t).text.utf8ByteSize < pathLimit ∧
      (target.joinAll t).text.utf8ByteSize < pathLimit
  stackable : ∀ t, t ≠ [] → Stacks (s.status? (target.route s.home ++ t)) (layers s roots t)

/-- What has happened when roots have been copied over one another to the target. -/
structure Overlaid (roots : List Path) (τ : Route) (s s' : FileSystem) : Prop where
  home : s'.home = s.home
  outside : ∀ x, ¬τ <+: x → s'.status? x = s.status? x
  top : s'.status? τ = s.status? τ
  inside : ∀ t, t ≠ [] →
    s'.status? (τ ++ t) = (layers s roots t).foldl layOver (s.status? (τ ++ t))

theorem Overlaid.refl (τ : Route) (s : FileSystem) : Overlaid [] τ s s :=
  ⟨rfl, fun _ _ => rfl, rfl, fun _ _ => rfl⟩

theorem Overlaid.isLink (h : Overlaid roots τ s s') (x : Route) :
    s'.isLink x = s.isLink x := by
  rw [FileSystem.isLink, FileSystem.isLink]
  by_cases hin : τ <+: x
  · obtain ⟨t, rfl⟩ := hin
    by_cases ht : t = []
    · rw [ht, append_nil, h.top]
    · rw [h.inside t ht, linked_foldl]
  · rw [h.outside x hin]

theorem Overlaid.directories (h : Overlaid roots τ s s') (htarget : target.route s.home = τ)
    (hsuits : Suits roots target s) {x : Route} (hx : s.get? x = some .directory) :
    s'.get? x = some .directory := by
  rw [get?_eq_bind] at hx ⊢
  by_cases hin : τ <+: x
  · obtain ⟨t, rfl⟩ := hin
    by_cases ht : t = []
    · rw [ht, append_nil] at hx ⊢
      rw [h.top, hx]
    · obtain ⟨old, hold, hnode⟩ := Option.bind_eq_some_iff.1 hx
      obtain ⟨linked, rfl⟩ := Status.eq_directory_of_node? hnode
      have hstacks := hsuits.stackable t ht
      rw [htarget, hold] at hstacks
      rw [h.inside t ht, hold, hstacks.over_directory.1]
      rfl
  · rw [h.outside x hin, hx]

section Step

variable {k : Transfer}

theorem Transfer.Laid.others {covers : Route → Prop} (h : k.Laid covers s u)
    (hapart : ∀ other ∈ rest, Path.Apart k.home other k.target) :
    ∀ other ∈ rest, ∀ t, u.status? (other.route k.home ++ t) =
      s.status? (other.route k.home ++ t) :=
  fun other hother t => h.outside _ ((hapart other hother).not_prefix_append t)

theorem stacks_layers_iff (hhome : s.home = k.home) :
    Stacks (s.status? (k.target.route s.home ++ t)) (layers s (k.root :: rest) t) ↔
      (∀ new, s.status? (k.source ++ t) = some new →
        new.FitsOver (s.status? (k.place ++ t))) ∧
      Stacks (layOver (s.status? (k.place ++ t)) (s.status? (k.source ++ t)))
        (layers s rest t) := by
  rw [layers, layers, map_cons, hhome]
  exact Iff.rfl

theorem Suits.fits (h : Suits (k.root :: rest) k.target s) (hhome : s.home = k.home)
    (t : Route) (ht : t ≠ []) : k.Fits s t := by
  intro new hnew
  have hthere : s.status? (k.root.route s.home ++ t) ≠ none := by
    rw [hhome]
    exact Option.ne_none_iff_exists'.2 ⟨new, hnew⟩
  obtain ⟨hroot, htarget⟩ := h.short k.root mem_cons_self t ht hthere
  exact ⟨hroot, htarget, ((stacks_layers_iff hhome).1 (h.stackable t ht)).1 new hnew⟩

/-- The roots suit the target if the first one fits, and after its copy the others suit
it. -/
theorem Transfer.Laid.suits_cons_iff (h : k.Laid (· ≠ []) s u) (hhome : s.home = k.home)
    (hapart : ∀ other ∈ rest, Path.Apart k.home other k.target) :
    Suits (k.root :: rest) k.target s ↔
      (∀ t, t ≠ [] → k.Fits s t) ∧ Suits rest k.target u := by
  have hothers := h.others hapart
  have hlayers (t : Route) : layers u rest t = layers s rest t :=
    layers_congr h.home (hhome ▸ hothers) t
  have hplace (t : Route) (ht : t ≠ []) : u.status? (k.target.route u.home ++ t) =
      layOver (s.status? (k.place ++ t)) (s.status? (k.source ++ t)) := by
    rw [h.home, hhome]
    exact h.covered t ht
  constructor
  · intro hsuits
    refine ⟨hsuits.fits hhome, ?_, ?_⟩
    · intro other hother t ht hthere
      rw [h.home, hhome, hothers other hother, ← hhome] at hthere
      exact hsuits.short other (mem_cons_of_mem _ hother) t ht hthere
    · intro t ht
      rw [hplace t ht, hlayers]
      exact ((stacks_layers_iff hhome).1 (hsuits.stackable t ht)).2
  · rintro ⟨hfits, hsuits⟩
    refine ⟨forall_mem_cons.2 ⟨?_, ?_⟩, ?_⟩
    · intro t ht hthere
      rw [hhome] at hthere
      obtain ⟨new, hnew⟩ := Option.ne_none_iff_exists'.1 hthere
      obtain ⟨hroot, htarget, -⟩ := hfits t ht new hnew
      exact ⟨hroot, htarget⟩
    · intro other hother t ht hthere
      rw [hhome, ← hothers other hother, ← hhome, ← h.home] at hthere
      exact hsuits.short other hother t ht hthere
    · intro t ht
      have hrest := hsuits.stackable t ht
      rw [hplace t ht, hlayers] at hrest
      refine (stacks_layers_iff hhome).2 ⟨?_, hrest⟩
      intro new hnew
      exact (hfits t ht new hnew).2.2

theorem Overlaid.cons (h : Overlaid rest k.place u s') (hlaid : k.Laid (· ≠ []) s u)
    (hhome : s.home = k.home) (hapart : ∀ other ∈ rest, Path.Apart k.home other k.target) :
    Overlaid (k.root :: rest) k.place s s' := by
  have hlayers (t : Route) : layers u rest t = layers s rest t :=
    layers_congr hlaid.home (hhome ▸ hlaid.others hapart) t
  have htop := hlaid.kept [] (fun hne => hne rfl)
  rw [append_nil] at htop
  refine ⟨h.home.trans hlaid.home, ?_, h.top.trans htop, ?_⟩
  · intro x hx
    rw [h.outside x hx, hlaid.outside x hx]
  · intro t ht
    rw [h.inside t ht, hlayers, hlaid.covered t ht, layers, layers, map_cons, foldl_cons, hhome]
    rfl

end Step

theorem Placed.exists_transfer (hplaced : Placed target τ s)
    (hapart : Path.Apart s.home root target) (hkind : s.kindOf root = .ok .directory) :
    ∃ k : Transfer, k.home = s.home ∧ k.root = root ∧ k.target = target ∧ k.place = τ ∧
      k.Lays (· ≠ []) s (copyTree root target) := by
  let k : Transfer := ⟨s.home, root, target, hapart⟩
  have hplace : k.place = τ := hplaced.route_eq
  exact ⟨k, rfl, rfl, rfl, hplace, k.lays_tree rfl (hplace ▸ hplaced) hkind⟩

/-- Roots that have been copied to the target are there and suit it, and now they lie over
one another. -/
theorem Placed.copyAll_eq_ok (hplaced : Placed target τ s)
    (hapart : ∀ root ∈ roots, Path.Apart s.home root target)
    (h : copyAll roots target s = (.ok (), s')) :
    Suits roots target s ∧ Overlaid roots τ s s' ∧
      ∀ root ∈ roots, s'.kindOf root = .ok .directory := by
  induction roots generalizing s with
  | nil =>
    cases h
    exact ⟨⟨by simp, fun _ _ => trivial⟩, .refl τ _, by simp⟩
  | cons root rest ih =>
    obtain ⟨hroot, hrest⟩ := forall_mem_cons.1 hapart
    obtain ⟨⟨⟩, u, hfirst, hothers⟩ := exceptT_bind_eq_ok_iff.1 h
    have hkind := kindOf_of_copyTree hfirst
    obtain ⟨k, hhome, rfl, rfl, rfl, hlays⟩ := hplaced.exists_transfer hroot hkind
    obtain ⟨hfits, hlaid⟩ := hlays.laid u hfirst
    have hmono (x : Route) (hx : s.get? x = some .directory) :
        u.get? x = some .directory := hlaid.directories hfits hx
    obtain ⟨hsuits, hover, hkinds⟩ :=
      ih (hplaced.mono hlaid.home hmono) (hlaid.home.symm ▸ hrest) hothers
    rw [← hhome] at hrest
    refine ⟨(hlaid.suits_cons_iff hhome.symm hrest).2 ⟨hfits, hsuits⟩,
      hover.cons hlaid hhome.symm hrest, forall_mem_cons.2 ⟨?_, hkinds⟩⟩
    have htarget : k.target.route u.home = k.place := by rw [hlaid.home, ← hhome]; rfl
    refine kindOf_mono (hover.home.trans hlaid.home) ?_ ?_ hkind
    · intro x hx
      exact hover.directories htarget hsuits (hmono x hx)
    · intro x
      rw [hover.isLink, hlaid.isLink]

/-- Roots that suit the target can be copied to it if each is there when its turn comes. -/
theorem Placed.exists_copyAll (hplaced : Placed target τ s)
    (hapart : ∀ root ∈ roots, Path.Apart s.home root target)
    (hkinds : ∀ before root after, roots = before ++ root :: after → ∀ u,
      copyAll before target s = (.ok (), u) → u.kindOf root = .ok .directory)
    (hsuits : Suits roots target s) : ∃ s', copyAll roots target s = (.ok (), s') := by
  induction roots generalizing s with
  | nil => exact ⟨s, rfl⟩
  | cons root rest ih =>
    obtain ⟨hroot, hrest⟩ := forall_mem_cons.1 hapart
    obtain ⟨k, hhome, rfl, rfl, rfl, hlays⟩ :=
      hplaced.exists_transfer hroot (hkinds [] root rest rfl s rfl)
    obtain ⟨u, hfirst⟩ := hlays.succeeds (hsuits.fits hhome.symm)
    obtain ⟨hfits, hlaid⟩ := hlays.laid u hfirst
    have hrest' : ∀ other ∈ rest, Path.Apart k.home other k.target := hhome ▸ hrest
    obtain ⟨s', hothers⟩ := ih (hplaced.mono hlaid.home fun _ => hlaid.directories hfits)
      (hlaid.home.symm ▸ hrest)
      (fun before root after heq v hv => by
        refine hkinds (k.root :: before) root after (by rw [heq]; rfl) v ?_
        exact exceptT_bind_eq_ok_iff.2 ⟨(), u, hfirst, hv⟩)
      ((hlaid.suits_cons_iff hhome.symm hrest').1 hsuits).2
    exact ⟨s', exceptT_bind_eq_ok_iff.2 ⟨(), u, hfirst, hothers⟩⟩

/-- Copies to a target start by making it, and go on as if it had been there. -/
theorem copyAll_eq_ok_iff : copyAll (root :: rest) target s = (.ok (), s') ↔
    s.kindOf root = .ok .directory ∧
      ∃ made τ, Edit.createDirectories (target.join ⟨""⟩) s = (.ok (), made) ∧
        Placed target τ made ∧ copyAll (root :: rest) target made = (.ok (), s') := by
  constructor
  · intro h
    obtain ⟨⟨⟩, u, hfirst, hothers⟩ := exceptT_bind_eq_ok_iff.1 h
    obtain ⟨hkind, made, hmade, hcopy⟩ := copyTree_eq_ok_iff.1 hfirst
    obtain ⟨τ, hplaced⟩ := placed_of_createDirectories hmade
    exact ⟨hkind, made, τ, hmade, hplaced,
      exceptT_bind_eq_ok_iff.2 ⟨(), u, hcopy, hothers⟩⟩
  · rintro ⟨hkind, made, τ, hmade, hplaced, h⟩
    obtain ⟨⟨⟩, u, hcopy, hothers⟩ := exceptT_bind_eq_ok_iff.1 h
    have hfirst := copyTree_eq_ok_iff.2 ⟨hkind, made, hmade, hcopy⟩
    exact exceptT_bind_eq_ok_iff.2 ⟨(), u, hfirst, hothers⟩

/-- What a file system holds after a merged copy into the target: below the target the files
of the directories, where they have any, and what was there before; the same files as before
outside. The files have the modes of those they were copied from. The directories can be
walked, and have no links to directories. -/
structure MergedCopy (roots : List Path) (target : Path) (τ : Route) (fs fs' : FileSystem) :
    Prop where
  home : fs'.home = fs.home
  route : target.route fs.home = τ
  outside : ∀ x, ¬τ <+: x → fs'.file? x = fs.file? x
  inside : ∀ r, fs'.file? (τ ++ r) = (merged? fs roots r).or (fs.file? (τ ++ r))
  isLink : ∀ x, fs'.isLink x = fs.isLink x
  access : ∀ r access content, mergedFile? fs roots r = some (access, content) →
    fs'.access (τ ++ r) = access ∧ access.readable = true
  walked : ∀ root ∈ roots, fs'.kindOf root = .ok .directory ∧ fs'.CanBeWalked root
  unlinked : ∀ root ∈ roots, ∀ t, t ≠ [] →
    fs'.get? (root.route fs.home ++ t) = some .directory →
      fs'.isLink (root.route fs.home ++ t) = false
  placed : ∀ r, merged? fs roots r ≠ none → fs'.routeOf (target.joinAll r) = .ok (τ ++ r)

theorem mergedFile?_nil (h : ∀ root ∈ roots, s.get? (root.route s.home) = some .directory) :
    mergedFile? s roots [] = none := by
  refine Classical.byContradiction fun hthere => ?_
  obtain ⟨file, hfile⟩ := Option.ne_none_iff_exists'.1 hthere
  obtain ⟨new, hnew, hsame⟩ := exists_mem_of_lastFile? hfile
  obtain ⟨root, hroot, hstatus⟩ := mem_map.1 hnew
  have hdir := h root hroot
  rw [append_nil] at hstatus
  rw [get?_eq_bind, hstatus] at hdir
  obtain ⟨linked, rfl⟩ := Status.eq_directory_of_node? hdir
  cases hsame

theorem Overlaid.file (h : Overlaid roots τ s s') (htarget : target.route s.home = τ)
    (hsuits : Suits roots target s) (ht : t ≠ []) :
    (s'.status? (τ ++ t)).bind Status.file? =
      (mergedFile? s roots t).or ((s.status? (τ ++ t)).bind Status.file?) := by
  have hstacks := hsuits.stackable t ht
  rw [htarget] at hstacks
  rw [h.inside t ht, hstacks.file?_foldl]
  rfl

theorem Overlaid.roots_directories (hover : Overlaid roots τ s s') (hplaced : Placed target τ s)
    (hapart : ∀ root ∈ roots, Path.Apart s.home root target)
    (hkinds : ∀ root ∈ roots, s'.kindOf root = .ok .directory) :
    ∀ root ∈ roots, s.get? (root.route s.home) = some .directory := by
  intro root hroot
  obtain ⟨ρ, hρ, hdir, -⟩ := kindOf_eq_directory_iff.1 (hkinds root hroot)
  obtain rfl : root.route s.home = ρ := hover.home ▸ route_of_routeOf hρ
  have hout : ¬τ <+: root.route s.home := by
    have hnot := (hapart root hroot).not_prefix_append []
    rwa [append_nil, hplaced.route_eq] at hnot
  rw [get?_eq_bind, ← hover.outside _ hout, ← get?_eq_bind, hdir]

theorem Placed.mergedCopy (hplaced : Placed target τ s)
    (hapart : ∀ root ∈ roots, Path.Apart s.home root target)
    (h : copyAll roots target s = (.ok (), s')) : MergedCopy roots target τ s s' := by
  obtain ⟨hsuits, hover, hkinds⟩ := hplaced.copyAll_eq_ok hapart h
  have htarget := hplaced.route_eq
  have hroots := hover.roots_directories hplaced hapart hkinds
  have hsame (root : Path) (hroot : root ∈ roots) (t : Route) :
      s'.status? (root.route s.home ++ t) = s.status? (root.route s.home ++ t) :=
    hover.outside _ (htarget ▸ (hapart root hroot).not_prefix_append t)
  have hne {r : Route} {file : Access × ByteArray} (hr : mergedFile? s roots r = some file) :
      r ≠ [] := by
    rintro rfl
    rw [mergedFile?_nil hroots] at hr
    cases hr
  have hfile {r : Route} {file : Access × ByteArray} (hr : mergedFile? s roots r = some file) :
      ∃ linked, s'.status? (τ ++ r) = some (.file linked file.1 file.2) := by
    have hlaid := hover.file htarget hsuits (hne hr)
    rw [hr, Option.some_or] at hlaid
    obtain ⟨new, hnew, hsameFile⟩ := Option.bind_eq_some_iff.1 hlaid
    obtain ⟨linked, rfl⟩ := Status.eq_file_of_file? hsameFile
    exact ⟨linked, hnew⟩
  refine ⟨hover.home, htarget, ?_, ?_, hover.isLink, ?_, ?_, ?_, ?_⟩
  · intro x hx
    rw [← map_file?, hover.outside x hx, map_file?]
  · intro r
    rw [← map_file?, ← map_file?, merged?, ← Option.map_or]
    by_cases hr : r = []
    · rw [hr, mergedFile?_nil hroots, append_nil, hover.top, Option.none_or]
    · rw [hover.file htarget hsuits hr]
  · intro r access content hr
    obtain ⟨linked, hstatus⟩ := hfile hr
    exact ⟨(status?_eq_file_iff.1 hstatus).2.2, (hsuits.stackable r (hne hr)).readable hr⟩
  · intro root hroot
    obtain ⟨ρ, hρ, -⟩ := kindOf_eq_directory_iff.1 (hkinds root hroot)
    refine ⟨hkinds root hroot, ρ, hρ, fun t ht => ?_⟩
    by_cases hnil : t = []
    · subst hnil
      exact utf8ByteSize_lt_of_routeOf hρ
    · have hdir := ht.directory
      rw [← route_of_routeOf hρ, hover.home, get?_eq_bind, hsame root hroot] at hdir
      refine (hsuits.short root hroot t hnil fun hnone => ?_).1
      rw [hnone] at hdir
      cases hdir
  · intro root hroot t ht hdir
    rw [get?_eq_bind, hsame root hroot] at hdir
    obtain ⟨new, hnew, hnode⟩ := Option.bind_eq_some_iff.1 hdir
    obtain ⟨linked, rfl⟩ := Status.eq_directory_of_node? hnode
    have hmem : some (.directory linked) ∈ layers s roots t :=
      mem_map.2 ⟨root, hroot, hnew⟩
    rw [FileSystem.isLink, hsame root hroot, hnew]
    exact (hsuits.stackable t ht).unlinked hmem
  · intro r hr
    obtain ⟨content, hcontent⟩ := Option.ne_none_iff_exists'.1 hr
    obtain ⟨file, hmerged, -⟩ := Option.map_eq_some_iff.1 hcontent
    obtain ⟨linked, hstatus⟩ := hfile hmerged
    have hthere : s'.get? (τ ++ r) ≠ none := by
      rw [get?_eq_bind, hstatus]
      exact Option.some_ne_none _
    obtain ⟨new, hmem, -⟩ := exists_mem_of_lastFile? hmerged
    obtain ⟨root, hroot, hnew⟩ := mem_map.1 hmem
    have hshort := (hsuits.short root hroot r (hne hmerged) (by simp [hnew])).2
    have hreaches :=
      (hplaced.mono hover.home fun _ => hover.directories htarget hsuits).reaches
    exact hreaches.routeOf_joinAll (hne hmerged) hthere hshort

theorem MergedCopy.of_growsWithin {fs made fs' : FileSystem} {on : Route → Prop}
    (h : MergedCopy roots target τ made fs') (hgrows : fs.GrowsWithin on made) :
    MergedCopy roots target τ fs fs' := by
  have hsame (r : Route) : mergedFile? made roots r = mergedFile? fs roots r :=
    mergedFile?_congr hgrows.home hgrows.fileStatus roots r
  have hmerged (r : Route) : merged? made roots r = merged? fs roots r :=
    congrArg (·.map (·.2)) (hsame r)
  refine ⟨h.home.trans hgrows.home, hgrows.home ▸ h.route, ?_, ?_, ?_, ?_, h.walked,
    hgrows.home ▸ h.unlinked, ?_⟩
  · intro x hx
    rw [h.outside x hx, hgrows.file?]
  · intro r
    rw [h.inside, hmerged, hgrows.file?]
  · intro x
    rw [h.isLink, hgrows.isLink]
  · intro r access content hr
    exact h.access r access content ((hsame r).trans hr)
  · intro r hr
    exact h.placed r (hmerged r ▸ hr)

theorem exists_mergedCopy {benchmark : Path} {packages : List Path} {fs fs' : FileSystem}
    (hapart : ∀ root ∈ benchmark :: packages, Path.Apart fs.home root target)
    (h : copyAll (benchmark :: packages) target fs = (.ok (), fs')) :
    ∃ τ, MergedCopy (benchmark :: packages) target τ fs fs' := by
  obtain ⟨-, made, τ, hmade, hplaced, hcopy⟩ := copyAll_eq_ok_iff.1 h
  have hgrows := (Edit.createDirectories_along hmade).1
  rw [← hgrows.home] at hapart
  exact ⟨τ, (hplaced.mergedCopy hapart hcopy).of_growsWithin hgrows⟩

end WitnessReplay.Benchmark
