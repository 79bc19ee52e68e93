import WitnessReplay.Proofs.MergedCopy
import WitnessReplay.Proofs.ProgramFiles

/-!
# The overlay of several trees

After a copy of several roots the target is their overlay. The copy succeeds exactly if every
root is a directory when its turn comes and everything suits the target. A second copy changes
nothing; it succeeds exactly if every file that was copied can be written.

The overlay is that of the trees as they are when the target has been made. A path that goes
down and up again makes all directories on its way, so that these need not be the trees as
they were before.
-/

namespace WitnessReplay.Benchmark

open Files FileSystem Lookup

variable {target : Path} {roots : List Path} {τ : Route} {s s' : FileSystem}

/-- The overlay of the trees of the roots over what was at a route: the file of the last root
with a file there, with its mode; a directory where a root has one; and what was there before
where no root has anything. Links stay links, and all else is as it was. -/
structure IsOverlay (roots : List Path) (τ : Route) (s s' : FileSystem) : Prop where
  outside : ∀ x, ¬τ <+: x → s'.status? x = s.status? x
  file : ∀ t access content, mergedFile? s roots t = some (access, content) →
    s'.status? (τ ++ t) = some (.file (s.isLink (τ ++ t)) access content)
  directory : ∀ t, Holds s roots t .directory →
    s'.status? (τ ++ t) = some (.directory (s.isLink (τ ++ t)))
  kept : ∀ t, (∀ root ∈ roots, s.status? (root.route s.home ++ t) = none) →
    s'.status? (τ ++ t) = s.status? (τ ++ t)

/-- Each root is taken for a directory when its turn comes: when those in front of it have
been copied, its path leads to a directory, and does not end in a link to it. -/
def InTurn (roots : List Path) (target : Path) (s : FileSystem) : Prop :=
  ∀ before root after, roots = before ++ root :: after → ∀ u,
    copyAll before target s = (.ok (), u) → u.kindOf root = .ok .directory

/-- Every file that a merged copy puts somewhere can be written over. -/
def AllWritable (roots : List Path) (s : FileSystem) : Prop :=
  ∀ t access content, mergedFile? s roots t = some (access, content) →
    access.writable = true

theorem isLink_eq_of_directory {x : Route} {linked : Bool}
    (h : s.status? x = some (.directory linked)) : s.isLink x = linked := by
  rw [FileSystem.isLink, h]
  rfl

theorem Overlaid.isOverlay (h : Overlaid roots τ s s') (hplaced : Placed target τ s)
    (hsuits : Suits roots target s)
    (hroots : ∀ root ∈ roots, s.get? (root.route s.home) = some .directory) :
    IsOverlay roots τ s s' := by
  have htarget := hplaced.route_eq
  have hstacks (t : Route) (ht : t ≠ []) : Stacks (s.status? (τ ++ t)) (layers s roots t) :=
    htarget ▸ hsuits.stackable t ht
  refine ⟨h.outside, ?_, ?_, ?_⟩
  · intro t access content hfile
    have ht : t ≠ [] := by
      rintro rfl
      rw [mergedFile?_nil hroots] at hfile
      cases hfile
    have hlaid := h.file htarget hsuits ht
    rw [hfile, Option.some_or] at hlaid
    obtain ⟨new, hnew, hsame⟩ := Option.bind_eq_some_iff.1 hlaid
    obtain ⟨linked, rfl⟩ := Status.eq_file_of_file? hsame
    rw [hnew, ← h.isLink, (status?_eq_file_iff.1 hnew).2.1]
  · rintro t ⟨root, hroot, hdir⟩
    have hthere : ∃ linked, s'.status? (τ ++ t) = some (.directory linked) := by
      by_cases ht : t = []
      · subst ht
        rw [List.append_nil, h.top]
        have hplace := hplaced.directory
        rw [get?_eq_bind] at hplace
        obtain ⟨old, hold, hnode⟩ := Option.bind_eq_some_iff.1 hplace
        obtain ⟨linked, rfl⟩ := Status.eq_directory_of_node? hnode
        exact ⟨linked, hold⟩
      · rw [get?_eq_bind] at hdir
        obtain ⟨new, hnew, hnode⟩ := Option.bind_eq_some_iff.1 hdir
        obtain ⟨linked, rfl⟩ := Status.eq_directory_of_node? hnode
        rw [h.inside t ht]
        exact (hstacks t ht).directory (List.mem_map.2 ⟨root, hroot, hnew⟩)
    obtain ⟨linked, hthere⟩ := hthere
    rw [hthere, ← h.isLink, isLink_eq_of_directory hthere]
  · intro t hnone
    by_cases ht : t = []
    · rw [ht, List.append_nil, h.top]
    · rw [h.inside t ht, foldl_layOver_of_none]
      intro new hnew
      obtain ⟨root, hroot, rfl⟩ := List.mem_map.1 hnew
      exact hnone root hroot

theorem Placed.inTurn (hplaced : Placed target τ s)
    (hapart : ∀ root ∈ roots, Path.Apart s.home root target)
    (hkinds : ∀ root ∈ roots, s.kindOf root = .ok .directory) : InTurn roots target s := by
  rintro before root after rfl u hu
  obtain ⟨hsuits, hover, -⟩ :=
    hplaced.copyAll_eq_ok (fun other hother => hapart other (List.mem_append_left _ hother)) hu
  exact kindOf_mono hover.home (fun _ => hover.directories hplaced.route_eq hsuits)
    hover.isLink (hkinds root (by simp))

/-- What a copy leaves suits the target once more, unless a file cannot be written. -/
theorem Overlaid.suits_iff (hover : Overlaid roots τ s s') (hplaced : Placed target τ s)
    (hapart : ∀ root ∈ roots, Path.Apart s.home root target) (hsuits : Suits roots target s)
    (hroots : ∀ root ∈ roots, s.get? (root.route s.home) = some .directory) :
    Suits roots target s' ↔ AllWritable roots s := by
  have htarget := hplaced.route_eq
  have hsame (root : Path) (hroot : root ∈ roots) (t : Route) :
      s'.status? (root.route s.home ++ t) = s.status? (root.route s.home ++ t) :=
    hover.outside _ (htarget ▸ (hapart root hroot).not_prefix_append t)
  have hstacks (t : Route) (ht : t ≠ []) :
      Stacks (s'.status? (target.route s'.home ++ t)) (layers s' roots t) ↔
        ∀ file, mergedFile? s roots t = some file → file.1.writable = true := by
    have hbefore := hsuits.stackable t ht
    rw [htarget] at hbefore
    rw [hover.home, htarget, layers_congr hover.home hsame, hover.inside t ht]
    exact hbefore.again_iff
  constructor
  · intro h t access content hfile
    have ht : t ≠ [] := by
      rintro rfl
      rw [mergedFile?_nil hroots] at hfile
      cases hfile
    exact (hstacks t ht).1 (h.stackable t ht) _ hfile
  · intro hwritable
    refine ⟨?_, fun t ht => (hstacks t ht).2 fun file hfile => hwritable t _ _ hfile⟩
    intro root hroot t ht hthere
    rw [hover.home, hsame root hroot] at hthere
    exact hsuits.short root hroot t ht hthere

/-- A second copy finds everything in its place, and can be made if all copied files can be
written. -/
theorem Placed.copyAll_again (hplaced : Placed target τ s)
    (hapart : ∀ root ∈ roots, Path.Apart s.home root target)
    (h : copyAll roots target s = (.ok (), s')) :
    ((∃ s'', copyAll roots target s' = (.ok (), s'')) ↔ AllWritable roots s) ∧
      ∀ s'', copyAll roots target s' = (.ok (), s'') → s'' = s' := by
  obtain ⟨hsuits, hover, hkinds⟩ := hplaced.copyAll_eq_ok hapart h
  have htarget := hplaced.route_eq
  have hplaced' := hplaced.mono hover.home fun _ => hover.directories htarget hsuits
  have hapart' : ∀ root ∈ roots, Path.Apart s'.home root target := hover.home.symm ▸ hapart
  have hroots := hover.roots_directories hplaced hapart hkinds
  rw [← hover.suits_iff hplaced hapart hsuits hroots]
  refine ⟨⟨?_, ?_⟩, ?_⟩
  · rintro ⟨s'', h'⟩
    exact (hplaced'.copyAll_eq_ok hapart' h').1
  · exact hplaced'.exists_copyAll hapart' (hplaced'.inTurn hapart' hkinds)
  · intro s'' h'
    obtain ⟨-, hover', -⟩ := hplaced'.copyAll_eq_ok hapart' h'
    have hlayers (t : Route) : layers s' roots t = layers s roots t := by
      refine layers_congr hover.home (fun root hroot r => ?_) t
      exact hover.outside _ (htarget ▸ (hapart root hroot).not_prefix_append r)
    refine ext_status? hover'.home fun x => ?_
    by_cases hin : τ <+: x
    · obtain ⟨t, rfl⟩ := hin
      by_cases ht : t = []
      · rw [ht, List.append_nil, hover'.top]
      · have hstacks := hsuits.stackable t ht
        rw [htarget] at hstacks
        rw [hover'.inside t ht, hlayers, hover.inside t ht, hstacks.foldl_again]
    · rw [hover'.outside x hin]

theorem inTurn_of_copyAll (h : copyAll roots target s = (.ok (), s')) :
    InTurn roots target s := by
  rintro before root after rfl u hu
  have hsplit : copyAll (before ++ root :: after) target =
      copyAll before target >>= fun _ => copyAll (root :: after) target := List.forM_append
  rw [hsplit, exceptT_bind_of_ok hu] at h
  obtain ⟨⟨⟩, v, hroot, -⟩ := exceptT_bind_eq_ok_iff.1 h
  exact kindOf_of_copyTree hroot

def twoTrees : FileSystem :=
  ((FileSystem.empty.put ["b"] .directory).put ["b", "d"] .directory).put ["p"] .directory

theorem exists_of_isOk {ε : Type} {step : Edit ε Unit} (h : (step s).1.isOk = true) :
    ∃ s', step s = (.ok (), s') := by
  rcases hstep : step s with ⟨result, s'⟩
  rw [hstep] at h
  cases result with
  | error cause => cases h
  | ok value => exact ⟨s', rfl⟩

def linkedTree : FileSystem :=
  FileSystem.empty.place ["b"] (.directory true)

def lockedTree : FileSystem :=
  (FileSystem.empty.put ["b"] .directory).place ["b",
    "f"] (.file false { writable := false } .empty)

end WitnessReplay.Benchmark
