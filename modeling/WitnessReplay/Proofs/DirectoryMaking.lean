import WitnessReplay.Files.Edit
import WitnessReplay.Proofs.PassedRoutes
import WitnessReplay.Proofs.StackedEntries

/-!
# Making directories

Making the directories of a path puts directories where there was nothing on its way, and
leaves all else as it was. It succeeds where there is a directory in the end.
-/

namespace WitnessReplay.Files

variable {r r' : Route} {parts front : List String} {name last : String} {p : Path}

/-- Slashes that follow one another do not matter on the way to a directory. -/
theorem routeFrom_filter {d : Directory} (hr' : d.get? r' = some .directory) :
    routeFrom d r (parts.filter (· ≠ "")) = .ok r' ↔ routeFrom d r parts = .ok r' := by
  induction parts generalizing r with
  | nil => rfl
  | cons part parts ih =>
    by_cases hpart : part = ""
    · subst hpart
      rw [List.filter_cons_of_neg (by simp), ih, routeFrom_slash]
      exact ⟨fun h => ⟨isDirectory_of_routeFrom h hr', h⟩, And.right⟩
    · rw [List.filter_cons_of_pos (by simpa using hpart), routeFrom_cons_eq_ok_iff,
        routeFrom_cons_eq_ok_iff]
      simp only [ih]

namespace FileSystem

variable {fs fs' fs'' : FileSystem}

/-- Directories have been made where there was nothing, at routes with a property, and all
else is as it was. -/
structure GrowsWithin (fs : FileSystem) (on : Route → Prop) (fs' : FileSystem) : Prop where
  home : fs'.home = fs.home
  status : ∀ r, fs'.status? r = fs.status? r ∨
    on r ∧ fs.status? r = none ∧ fs'.status? r = some (.directory false)

section GrowsWithin

variable {on on' : Route → Prop}

theorem GrowsWithin.refl (fs : FileSystem) (on : Route → Prop) : fs.GrowsWithin on fs :=
  ⟨rfl, fun _ => .inl rfl⟩

theorem GrowsWithin.trans (h : fs.GrowsWithin on fs') (h' : fs'.GrowsWithin on fs'') :
    fs.GrowsWithin on fs'' := by
  refine ⟨h'.home.trans h.home, ?_⟩
  intro r
  rcases h.status r, h'.status r with
    ⟨heq | ⟨hon, hnone, hdir⟩, heq' | ⟨hon', hnone', hdir'⟩⟩
  · exact .inl (heq'.trans heq)
  · exact .inr ⟨hon', heq.symm.trans hnone', hdir'⟩
  · exact .inr ⟨hon, hnone, heq'.trans hdir⟩
  · exact .inr ⟨hon, hnone, hdir'⟩

theorem GrowsWithin.mono (h : fs.GrowsWithin on fs') (hon : ∀ r, on r → on' r) :
    fs.GrowsWithin on' fs' := by
  refine ⟨h.home, ?_⟩
  intro r
  rcases h.status r with heq | ⟨hr, hnew⟩
  · exact .inl heq
  · exact .inr ⟨hon r hr, hnew⟩

theorem GrowsWithin.status?_eq (h : fs.GrowsWithin on fs') (hthere : fs.status? r ≠ none) :
    fs'.status? r = fs.status? r := by
  rcases h.status r with heq | ⟨-, hnone, -⟩
  · exact heq
  · exact absurd hnone hthere

theorem GrowsWithin.get?_eq (h : fs.GrowsWithin on fs') (hthere : fs.get? r ≠ none) :
    fs'.get? r = fs.get? r := by
  rw [get?_eq_bind, get?_eq_bind, h.status?_eq (status?_ne_none hthere)]

theorem GrowsWithin.eq_or_new (h : fs.GrowsWithin on fs') (r : Route) :
    fs'.get? r = fs.get? r ∨ on r ∧ fs.get? r = none ∧ fs'.get? r = some .directory := by
  rcases h.status r with heq | ⟨hr, hnone, hdir⟩
  · exact .inl (by rw [get?_eq_bind, get?_eq_bind, heq])
  · exact .inr ⟨hr, by rw [get?_eq_bind, hnone]; rfl, by rw [get?_eq_bind, hdir]; rfl⟩

theorem GrowsWithin.file? (h : fs.GrowsWithin on fs') (r : Route) :
    fs'.file? r = fs.file? r := by
  rcases h.eq_or_new r with heq | ⟨-, hnone, hdir⟩
  · exact file?_of_get? heq
  · rw [file?_of_directory hdir, FileSystem.file?, hnone]

theorem GrowsWithin.fileStatus (h : fs.GrowsWithin on fs') (r : Route) :
    (fs'.status? r).bind Status.file? = (fs.status? r).bind Status.file? := by
  rcases h.status r with heq | ⟨-, hnone, hdir⟩
  · rw [heq]
  · rw [hnone, hdir]
    rfl

theorem GrowsWithin.directory (h : fs.GrowsWithin on fs') (hdir : fs.get? r = some .directory) :
    fs'.get? r = some .directory :=
  (h.get?_eq (by simp [hdir])).trans hdir

theorem GrowsWithin.isLink (h : fs.GrowsWithin on fs') (r : Route) :
    fs'.isLink r = fs.isLink r := by
  rcases h.status r with heq | ⟨-, hnone, hdir⟩
  · rw [FileSystem.isLink, FileSystem.isLink, heq]
  · rw [FileSystem.isLink, FileSystem.isLink, hnone, hdir]
    rfl

theorem GrowsWithin.access (h : fs.GrowsWithin on fs') (r : Route) :
    fs'.access r = fs.access r := by
  rcases h.status r with heq | ⟨-, hnone, hdir⟩
  · rw [FileSystem.access, FileSystem.access, heq]
  · rw [FileSystem.access, FileSystem.access, hnone, hdir]
    rfl

end GrowsWithin

theorem routeOf_mono (hhome : fs'.home = fs.home)
    (hmono : ∀ r, fs.get? r = some .directory → fs'.get? r = some .directory)
    (h : fs.routeOf p = .ok r) (hdir : fs.get? r = some .directory) : fs'.routeOf p = .ok r :=
  routeOf_kept hhome hmono h (by simp [hmono r hdir])

theorem exists_directoryAt (h : routeFrom fs.root [] parts = .ok r)
    (hdir : fs.get? r = some .directory) :
    ∃ linked inside, fs.directoryAt parts = .ok (r, inside) ∧
      fs.root.at? r = some (.directory linked inside) := by
  rw [← map_route_follow] at h
  obtain ⟨⟨trail, entry⟩, hs, rfl⟩ := map_eq_ok_iff.1 h
  have hat := at?_of_follow hs
  rw [FileSystem.get?, get?_of_at? hat] at hdir
  cases entry with
  | directory linked inside =>
    refine ⟨linked, inside, ?_, hat⟩
    rw [directoryAt, hs]
    rfl
  | file linked access content => cases hdir
  | broken fillable => cases hdir

/-- In an existing directory, a directory is made unless something is there. -/
theorem makeDirectory_eq (hsteps : usableSteps fs.home p = .ok parts)
    (hsplit : parts.filter (· ≠ "") = front ++ [last])
    (hlast : Path.component? last = some (.name name)) (hshort : isTooLong name = false)
    (hroute : routeFrom fs.root [] front = .ok r) (hdir : fs.get? r = some .directory) :
    fs.makeDirectory p =
      if fs.status? (r ++ [name]) = none then .ok (fs.put (r ++ [name]) .directory)
      else .error .alreadyExists := by
  obtain ⟨linked, inside, hinside, hat⟩ := exists_directoryAt hroute hdir
  have hstatus : fs.status? (r ++ [name]) = (inside.find? name).map Entry.status :=
    status?_child hat name
  simp only [makeDirectory, hsteps, bind, Except.bind, hsplit, List.dropLast_concat, hinside,
    List.getLast?_concat, Option.bind_some, hlast, hshort, hstatus]
  cases inside.find? name <;> rfl

theorem admits_directory (hdir : fs.get? r = some .directory) (hname : IsName name)
    (hnone : fs.status? (r ++ [name]) = none) : fs.Admits (r ++ [name]) := by
  refine ⟨⟨by simp, ?_, ?_⟩, ?_⟩
  · rw [List.dropLast_concat]
    exact hdir
  · show fs.get? (r ++ [name]) ≠ some .directory
    rw [get?_eq_bind, hnone]
    exact nofun
  · intro other hother
    rcases List.mem_append.1 hother with hother | hother
    · exact isName_of_directory hdir other hother
    · cases List.mem_singleton.1 hother
      exact hname

theorem growsWithin_put {on : Route → Prop} (hdir : fs.get? r = some .directory)
    (hname : IsName name) (hnone : fs.status? (r ++ [name]) = none) (hon : on (r ++ [name])) :
    fs.GrowsWithin on (fs.put (r ++ [name]) .directory) := by
  refine ⟨home_put fs _ _, ?_⟩
  intro x
  rw [put, status?_place (admits_directory hdir hname hnone)]
  by_cases hx : x = r ++ [name]
  · rw [if_pos hx, hx]
    exact .inr ⟨hon, hnone, rfl⟩
  · rw [if_neg hx]
    exact .inl rfl

theorem makeDirectory_eq_ok (h : fs.makeDirectory p = .ok fs') :
    fs.GrowsWithin (p.PassesThrough fs.home) fs' ∧
      ∃ r, fs'.routeOf p = .ok r ∧ fs'.get? r = some .directory := by
  unfold makeDirectory at h
  obtain ⟨steps, hsteps, h⟩ := bind_eq_ok_iff.1 h
  obtain ⟨⟨r, inside⟩, hinside, h⟩ := bind_eq_ok_iff.1 h
  obtain ⟨hroute, linked, hat⟩ := directoryAt_eq_ok hinside
  have hdir : fs.get? r = some .directory := get?_of_at? hat
  simp only [] at h
  split at h
  · rename_i name hname
    obtain ⟨last, hlast, hcomponent⟩ := Option.bind_eq_some_iff.1 hname
    obtain ⟨front, hfront⟩ := List.getLast?_eq_some_iff.1 hlast
    have hlastMem : last ∈ steps := by
      have hmem : last ∈ steps.filter (· ≠ "") := List.mem_of_getLast? hlast
      exact (List.mem_filter.1 hmem).1
    split at h
    · cases h
    · rename_i hshort
      have hshort := eq_false_of_ne_true hshort
      split at h
      · cases h
      · rename_i hfind
        cases h
        have hname := isName_of_mem_steps fs.isName_home hsteps hlastMem hcomponent hshort
        have hnone : fs.status? (r ++ [name]) = none := by
          rw [FileSystem.status?, status?_child hat]
          show (inside.find? name).map Entry.status = none
          simpa using hfind
        have hgrows : fs.GrowsWithin (· = r ++ [name]) (fs.put (r ++ [name]) .directory) :=
          growsWithin_put hdir hname hnone rfl
        have hnew : (fs.put (r ++ [name]) .directory).get? (r ++ [name]) = some .directory := by
          rw [get?_put (admits_directory hdir hname hnone), if_pos rfl]
        have hthere : (fs.put (r ++ [name]) .directory).get? (r ++ [name]) ≠ none := by
          simp [hnew]
        have hleads : (fs.put (r ++ [name]) .directory).routeOf p = .ok (r ++ [name]) := by
          rw [routeOf, home_put, hsteps]
          refine (routeFrom_filter hnew).1 ?_
          rw [hfront, List.dropLast_concat] at hroute
          rw [hfront, routeFrom_append, routeFrom_mono (fun _ => hgrows.directory) hroute hdir]
          exact routeFrom_name (hgrows.directory hdir) hcomponent hshort hthere
        refine ⟨hgrows.mono ?_, r ++ [name], hleads, hnew⟩
        rintro x rfl
        have hspelt := route_of_routeOf hleads
        rw [home_put] at hspelt
        rw [← hspelt]
        exact p.passesThrough_route fs.home
  · cases h

theorem makeDirectory_of_not_name {x : Route × Directory}
    (hsteps : usableSteps fs.home p = .ok parts)
    (hat : fs.directoryAt (parts.filter (· ≠ "")).dropLast = .ok x)
    (hlast : ∀ name,
      (parts.filter (· ≠ "")).getLast?.bind Path.component? ≠ some (.name name)) :
    fs.makeDirectory p = .error .alreadyExists := by
  simp only [makeDirectory, hsteps, bind, Except.bind, hat]
  rfl

theorem makeDirectory_of_directory (h : fs.routeOf p = .ok r)
    (hdir : fs.get? r = some .directory) : fs.makeDirectory p = .error .alreadyExists := by
  obtain ⟨hsteps, hroute⟩ := routeOf_eq_ok_iff.1 h
  rw [← routeFrom_filter hdir] at hroute
  rcases List.eq_nil_or_concat ((p.steps fs.home).filter (· ≠ "")) with
    hnil | ⟨front, last, hsplit⟩
  · have hat : fs.directoryAt [] = .ok ([], fs.root) := rfl
    refine makeDirectory_of_not_name hsteps (x := ([], fs.root)) ?_ ?_
    · rw [hnil]
      exact hat
    · rw [hnil]
      simp
  · rw [List.concat_eq_append] at hsplit
    rw [hsplit, routeFrom_append] at hroute
    obtain ⟨above, habove, hroute⟩ := bind_eq_ok_iff.1 hroute
    obtain ⟨hdirAbove, next, hstep, hroute⟩ := routeFrom_cons_eq_ok_iff.1 hroute
    obtain ⟨linked, inside, hinside, -⟩ := exists_directoryAt habove hdirAbove
    have hpoints (hlast : ∀ name, Path.component? last ≠ some (.name name)) :
        fs.makeDirectory p = .error .alreadyExists := by
      refine makeDirectory_of_not_name hsteps (x := (above, inside)) ?_ ?_
      · rw [hsplit, List.dropLast_concat]
        exact hinside
      · rw [hsplit, List.getLast?_concat]
        exact hlast
    cases hstep with
    | down hname hshort hthere =>
      rw [makeDirectory_eq hsteps hsplit hname hshort habove hdirAbove]
      exact if_neg (status?_ne_none hthere)
    | up hparent => exact hpoints (by simp [hparent])
    | stay hnone => exact hpoints (by simp [hnone])

/-- A directory is made in an existing one if its path can be followed and nothing is
there. -/
theorem makeDirectory_join (h : fs.Reaches p r) (hdir : fs.get? r = some .directory)
    (hname : IsName name) (hsteps : usableSteps fs.home (p.join ⟨name⟩) = .ok parts) :
    fs.makeDirectory (p.join ⟨name⟩) =
      if fs.status? (r ++ [name]) = none then .ok (fs.put (r ++ [name]) .directory)
      else .error .alreadyExists := by
  obtain ⟨front, hjoin, hfront⟩ := h.front hname.2.1
  have hne : name ≠ "" := hname.isPart.ne_empty
  obtain rfl := (usableSteps_eq_ok_iff.1 hsteps).2
  have hsplit : ((p.join ⟨name⟩).steps fs.home).filter (· ≠ "") =
      front.filter (· ≠ "") ++ [name] := by
    simp [hjoin, hne]
  have hroute : routeFrom fs.root [] (front.filter (· ≠ "")) = .ok r :=
    (routeFrom_filter hdir).2 hfront
  exact makeDirectory_eq hsteps hsplit hname.1 hname.2.2.2 hroute hdir

end FileSystem

namespace Edit

open FileSystem

variable {fs fs' : FileSystem} {components : List Component} {n : Nat}

theorem inspect_eq_ok_iff {ε α : Type} {f : FileSystem → Except ε α} {a : α} :
    inspect f fs = (.ok a, fs') ↔ f fs = .ok a ∧ fs' = fs := by
  rw [inspect, Prod.mk.injEq, eq_comm (a := fs)]

theorem change_eq_ok_iff {ε : Type} {f : FileSystem → Except ε FileSystem} :
    change f fs = (.ok (), fs') ↔ f fs = .ok fs' := by
  rw [change]
  cases f fs with
  | error cause => exact ⟨nofun, nofun⟩
  | ok made =>
    constructor
    · intro h
      cases h
      rfl
    · intro h
      cases h
      rfl

theorem ensureDirectory_eq_ok (h : ensureDirectory p fs = (.ok (), fs')) :
    fs.GrowsWithin (p.PassesThrough fs.home) fs' ∧
      ∃ r, fs'.routeOf p = .ok r ∧ fs'.get? r = some .directory := by
  unfold ensureDirectory at h
  split at h
  · rename_i fs'' hmade
    cases h
    exact makeDirectory_eq_ok hmade
  · split at h
    · rename_i hdir
      cases h
      exact ⟨.refl fs _, isDirectory_iff.1 hdir⟩
    · cases h

theorem ensureDirectories_succ (components : List Component) (n : Nat) (fs : FileSystem) :
    ensureDirectories components (n + 1) fs =
      let p := Path.ofComponents (components.take (n + 1))
      match fs.makeDirectory p with
      | .error .notFound => (ensureDirectories components n >>= fun _ => ensureDirectory p) fs
      | _ => ensureDirectory p fs := by
  rw [ensureDirectories]
  simp only []
  show (match fs.makeDirectory _ with | .error .notFound => _ | _ => _ : Edit FileError Unit) fs = _
  cases fs.makeDirectory (Path.ofComponents (components.take (n + 1))) with
  | ok fs' => rfl
  | error cause => cases cause <;> rfl

theorem createDirectories_eq (hp : p.text ≠ "") (fs : FileSystem) :
    createDirectories p fs =
      match fs.makeDirectory p with
      | .error .notFound =>
        (ensureDirectories p.components (p.components.length - 1) >>= fun _ => ensureDirectory p) fs
      | _ => ensureDirectory p fs := by
  rw [createDirectories, if_neg hp]
  show (match fs.makeDirectory p with | .error .notFound => _ | _ => _ : Edit FileError Unit) fs = _
  cases fs.makeDirectory p with
  | ok fs' => rfl
  | error cause => cases cause <;> rfl

theorem ensureDirectories_growsWithin {on : Route → Prop}
    (hon : ∀ n r,
      (Path.ofComponents (components.take (n + 1))).PassesThrough fs.home r → on r)
    (h : ensureDirectories components n fs = (.ok (), fs')) : fs.GrowsWithin on fs' := by
  induction n generalizing fs' with
  | zero =>
    cases h
    exact .refl fs on
  | succ n ih =>
    rw [ensureDirectories_succ] at h
    simp only [] at h
    split at h
    · obtain ⟨_, t, hfront, h⟩ := exceptT_bind_eq_ok_iff.1 h
      have hgrows := ih hfront
      have hlast := (ensureDirectory_eq_ok h).1
      rw [hgrows.home] at hlast
      exact hgrows.trans (hlast.mono (hon n))
    · exact (ensureDirectory_eq_ok h).1.mono (hon n)

/-- Where directories have been made, there is a directory, and the others are on the way to
it. -/
theorem createDirectories_eq_ok (h : createDirectories p fs = (.ok (), fs')) (hp : p.text ≠ "") :
    fs.GrowsWithin (p.PassesThrough fs.home) fs' ∧
      ∃ r, fs'.routeOf p = .ok r ∧ fs'.get? r = some .directory := by
  rw [createDirectories_eq hp] at h
  split at h
  · obtain ⟨_, t, hfront, h⟩ := exceptT_bind_eq_ok_iff.1 h
    have hfront : fs.GrowsWithin (p.PassesThrough fs.home) t := by
      by_cases hnil : p.components = []
      · rw [hnil] at hfront
        cases hfront
        exact .refl fs _
      · refine ensureDirectories_growsWithin (fun n r hr => ?_) hfront
        exact hr.of_components (by simp [hnil]) (List.take_prefix _ _)
    obtain ⟨hgrows, r, hroute, hdir⟩ := ensureDirectory_eq_ok h
    rw [hfront.home] at hgrows
    exact ⟨hfront.trans hgrows, r, hroute, hdir⟩
  · exact ensureDirectory_eq_ok h

/-- Along a path directories are made where there was nothing, and afterwards there are
directories on all of its way. -/
theorem createDirectories_along (h : createDirectories p fs = (.ok (), fs')) :
    fs.GrowsWithin (p.PassesThrough fs.home) fs' ∧
      ∀ r, p.PassesThrough fs.home r → fs'.get? r = some .directory := by
  by_cases hp : p.text = ""
  · obtain ⟨text⟩ := p
    cases hp
    cases h
    exact ⟨.refl fs _, fun r hr => get?_of_passesThrough fs.reaches_empty fs.isHome hr⟩
  · obtain ⟨hgrows, r', hroute, hdir⟩ := createDirectories_eq_ok h hp
    refine ⟨hgrows, fun r hr => get?_of_passesThrough (reaches_of_routeOf hroute) hdir ?_⟩
    rwa [hgrows.home]

theorem createDirectories_of_directory (h : fs.routeOf p = .ok r)
    (hdir : fs.get? r = some .directory) : createDirectories p fs = (.ok (), fs) := by
  have hne := ne_empty_of_routeOf h
  have hthere : fs.isDirectory p = true := isDirectory_iff.2 ⟨r, h, hdir⟩
  simp [createDirectories_eq hne, ensureDirectory, makeDirectory_of_directory h hdir, hthere]

theorem createDirectories_join (h : createDirectories (p.join ⟨name⟩) fs = (.ok (), fs'))
    (hp : fs.Reaches p r) (hdir : fs.get? r = some .directory) (hname : IsName name) :
    fs'.routeOf (p.join ⟨name⟩) = .ok (r ++ [name]) ∧
      fs'.get? (r ++ [name]) = some .directory ∧
      fs.GrowsWithin (· = r ++ [name]) fs' := by
  have hne : (p.join ⟨name⟩).text ≠ "" := by
    obtain ⟨lead, hlead⟩ := p.exists_lead
    rw [hlead _ (Path.isAbsolute_of_notMem hname.2.1)]
    intro hempty
    exact hname.isPart.ne_empty (String.append_eq_empty_iff.1 hempty).2
  obtain ⟨hgrows, r', hroute, hdir'⟩ := createDirectories_eq_ok h hne
  obtain rfl : r' = r ++ [name] := by
    have hspelt := route_of_routeOf hroute
    rw [hgrows.home, Path.route_join _ p hname.isPart] at hspelt
    rw [← hspelt, Path.route, spell_of_routeFrom hp.route]
  refine ⟨hroute, hdir', ?_⟩
  have hsteps := (routeOf_eq_ok_iff.1 hroute).1
  rw [hgrows.home] at hsteps
  have hmade := makeDirectory_join hp hdir hname hsteps
  rw [createDirectories_eq hne, ensureDirectory, hmade] at h
  by_cases hnone : fs.status? (r ++ [name]) = none
  · rw [if_pos hnone] at h
    cases h
    exact growsWithin_put hdir hname hnone rfl
  · rw [if_neg hnone] at h
    cases (Prod.mk.inj h).2
    exact .refl fs _

end Edit

end WitnessReplay.Files
