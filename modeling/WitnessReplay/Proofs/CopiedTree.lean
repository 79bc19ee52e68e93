import WitnessReplay.Benchmark.Preparation
import WitnessReplay.Proofs.DirectoryMaking

/-!
# The copy of a tree

A copy covers a part of the tree below a root. It succeeds exactly if everything there fits
over what is at its place: all paths can be followed, every file can be read and written, no
file meets a directory, and no link leads to a directory or nowhere. Then the covered part of
the root has been laid over the target, and all else is as it was.
-/

namespace WitnessReplay.Files

open List

variable {d : Directory} {name : String}

theorem Directory.mem_listing_iff (hd : d.Sorted) {k : Kind} :
    (name, k) ∈ d.listing ↔ ((d.find? name).map Entry.status).map Status.kind = some k := by
  induction d with
  | empty => exact ⟨nofun, nofun⟩
  | cons n e rest _ ih =>
    obtain ⟨hlt, -, hrest⟩ := sorted_cons.1 hd
    rw [listing_cons, mem_cons, ih hrest, find?_cons]
    split
    · rename_i hname
      subst hname
      simp [find?_eq_none_of_lt hlt, eq_comm]
    · rename_i hname
      simp [hname]

theorem Directory.map_listing (d : Directory) : d.listing.map (·.1) = d.names := by
  induction d with
  | empty => rfl
  | cons n e rest _ ih => rw [listing_cons, names_cons, map_cons, ih]

theorem Directory.nodup_names (hd : d.Sorted) : d.names.Nodup := by
  induction d with
  | empty => exact nodup_nil
  | cons n e rest _ ih =>
    obtain ⟨hlt, -, hrest⟩ := sorted_cons.1 hd
    rw [names_cons, nodup_cons]
    exact ⟨fun hmem => String.lt_irrefl n (hlt n hmem), ih hrest⟩

theorem Status.kind_eq_directory_iff {s : Status} :
    s.kind = .directory ↔ s = .directory false := by
  cases s with
  | file linked access content => cases linked <;> simp [kind, Status.linked, targetKind]
  | directory linked => cases linked <;> simp [kind, Status.linked, targetKind]
  | broken fillable => simp [kind, Status.linked]

theorem Entry.kindAt_eq_directory_iff {e : Entry} {p : Path} :
    e.kindAt p = .directory ↔
      e.node? = some .directory ∧ (p.endsInName = true → e.status.linked = false) := by
  rw [Entry.kindAt]
  cases p.endsInName <;> rcases e with ⟨_ | _, _, _⟩ | ⟨_ | _, _⟩ | _ <;>
    simp [Entry.status, Entry.node?, Status.kind, Status.linked, Status.targetKind, Status.node?]

namespace FileSystem

variable {fs fs' : FileSystem} {p source place : Path} {r a b : Route} {content : ByteArray}
  {parts : List String}

theorem list_eq_ok {items : List (String × Kind)} (h : fs.list p = .ok items) :
    ∃ r, fs.routeOf p = .ok r ∧ fs.get? r = some .directory ∧ (items.map (·.1)).Nodup ∧
      ∀ name k, (name, k) ∈ items ↔ (fs.status? (r ++ [name])).map Status.kind = some k := by
  unfold list at h
  split at h
  · cases h
  · rename_i s hs
    obtain ⟨hroute, hat⟩ := locate_eq_ok hs
    split at h
    · rename_i linked inside hinside
      cases h
      rw [hinside] at hat
      have hroot : (Entry.directory false fs.root).Sorted := fs.sorted
      have hsorted : inside.Sorted := (Entry.Sorted.at? hroot hat).inside
      refine ⟨s.route, hroute, get?_of_at? hat, ?_, ?_⟩
      · rw [Directory.map_listing]
        exact Directory.nodup_names hsorted
      · intro name k
        rw [FileSystem.status?, status?_child hat]
        exact Directory.mem_listing_iff hsorted
    · cases h

theorem exists_list (h : fs.routeOf p = .ok r) (hdir : fs.get? r = some .directory) :
    ∃ items, fs.list p = .ok items := by
  obtain ⟨s, hs, rfl⟩ := exists_locate h
  obtain ⟨-, hat⟩ := locate_eq_ok hs
  rw [FileSystem.get?, get?_of_at? hat] at hdir
  rw [list, hs]
  cases he : s.entry with
  | directory linked inside => exact ⟨inside.listing, by simp only [he]⟩
  | file linked access content =>
    rw [he] at hdir
    cases hdir
  | broken fillable =>
    rw [he] at hdir
    cases hdir

/-- A path is taken for a directory if it leads to one, and not by a link at its end. -/
theorem kindOf_eq_directory_iff : fs.kindOf p = .ok .directory ↔
    ∃ r, fs.routeOf p = .ok r ∧ fs.get? r = some .directory ∧
      (p.endsInName = true → fs.isLink r = false) := by
  have hentry {s : Standing} (hs : fs.locate p = .ok s) :
      s.entry.kindAt p = .directory ↔ fs.get? s.route = some .directory ∧
        (p.endsInName = true → fs.isLink s.route = false) := by
    obtain ⟨-, hat⟩ := locate_eq_ok hs
    rw [Entry.kindAt_eq_directory_iff, FileSystem.get?, get?_of_at? hat, isLink_of_at? hat]
  unfold kindOf
  constructor
  · intro h
    split at h
    · cases h
    · rename_i s hs
      exact ⟨s.route, (locate_eq_ok hs).1, (hentry hs).1 (Except.ok.inj h)⟩
  · rintro ⟨r, hroute, hdir⟩
    obtain ⟨s, hs, rfl⟩ := exists_locate hroute
    rw [hs]
    exact congrArg Except.ok ((hentry hs).2 hdir)

theorem kindOf_mono (hhome : fs'.home = fs.home)
    (hmono : ∀ r, fs.get? r = some .directory → fs'.get? r = some .directory)
    (hlinks : ∀ r, fs'.isLink r = fs.isLink r) (h : fs.kindOf p = .ok .directory) :
    fs'.kindOf p = .ok .directory := by
  obtain ⟨r, hroute, hdir, hlink⟩ := kindOf_eq_directory_iff.1 h
  refine kindOf_eq_directory_iff.2 ⟨r, routeOf_mono hhome hmono hroute hdir, hmono r hdir, ?_⟩
  rw [hlinks]
  exact hlink

theorem copyFile_eq_ok (h : fs.copyFile source place = .ok fs')
    (hne : source.route fs.home ≠ place.route fs.home) :
    ∃ linked access content, fs.routeOf source = .ok (source.route fs.home) ∧
      fs.status? (source.route fs.home) = some (.file linked access content) ∧
      access.readable = true ∧ fs.fileRoute place = .ok (place.route fs.home) ∧
      fs' = fs.setFile (place.route fs.home) access content := by
  unfold copyFile at h
  obtain ⟨⟨a, access, content⟩, hopened, h⟩ := bind_eq_ok_iff.1 h
  obtain ⟨b, hb, h⟩ := bind_eq_ok_iff.1 h
  obtain ⟨ha, hreadable, linked, hstatus⟩ := openFile_eq_ok_iff.1 hopened
  obtain rfl := route_of_routeOf ha
  obtain rfl := route_of_fileRoute hb
  rw [if_neg hne] at h
  cases h
  exact ⟨linked, access, content, ha, hstatus, hreadable, hb, rfl⟩

/-- In an existing directory, a file can be written unless something refuses it. -/
theorem fileRoute_of_steps {front : List String}
    (hsteps : usableSteps fs.home p = .ok (front ++ [name]))
    (hfront : routeFrom fs.root [] front = .ok r) (hdir : fs.get? r = some .directory)
    (hname : Path.component? name = some (.name name)) (hshort : isTooLong name = false)
    (hfree : fs.refusal? (r ++ [name]) = none) : fs.fileRoute p = .ok (r ++ [name]) := by
  obtain ⟨linked, inside, hinside, hat⟩ := exists_directoryAt hfront hdir
  have hentry : (inside.find? name).bind (·.status.refusal?) = none := by
    rw [refusal?, FileSystem.status?, status?_child hat, Option.bind_map] at hfree
    exact hfree
  simp only [fileRoute, hsteps, bind, Except.bind, dropLast_concat, hinside,
    getLast?_concat, Option.bind_some, hname, hshort, hentry]
  rfl

theorem fileRoute_join (h : fs.Reaches p r) (hdir : fs.get? r = some .directory)
    (hname : IsName name) (hshort : (p.join ⟨name⟩).text.utf8ByteSize < pathLimit)
    (hfree : fs.refusal? (r ++ [name]) = none) :
    fs.fileRoute (p.join ⟨name⟩) = .ok (r ++ [name]) := by
  have hsteps := usableSteps_join fs.home h.noNul hname hshort
  obtain ⟨front, hjoin, hfront⟩ := h.front hname.2.1
  rw [hjoin] at hsteps
  exact fileRoute_of_steps hsteps hfront hdir hname.1 hname.2.2.2 hfree

theorem exists_copyFile {linked : Bool} {access : Access} (hsource : fs.routeOf source = .ok a)
    (hfile : fs.status? a = some (.file linked access content))
    (hreadable : access.readable = true) (hplace : fs.fileRoute place = .ok b) :
    ∃ fs', fs.copyFile source place = .ok fs' := by
  have hopened : fs.openFile source .notARegularFile = .ok (a, access, content) :=
    openFile_eq_ok_iff.2 ⟨hsource, hreadable, linked, hfile⟩
  exact ⟨_, bind_eq_ok_iff.2 ⟨_, hopened, bind_eq_ok_iff.2 ⟨b, hplace, rfl⟩⟩⟩

end FileSystem

theorem Edit.exists_createDirectories_join {fs : FileSystem} {p : Path} {r : Route}
    (h : fs.Reaches p r) (hdir : fs.get? r = some .directory) (hname : IsName name)
    (hshort : (p.join ⟨name⟩).text.utf8ByteSize < pathLimit)
    (hfree : ∀ s, fs.status? (r ++ [name]) = some s → s.node? = some .directory) :
    ∃ fs', createDirectories (p.join ⟨name⟩) fs = (.ok (), fs') := by
  cases hthere : fs.status? (r ++ [name]) with
  | none =>
    have hsteps := usableSteps_join fs.home h.noNul hname hshort
    have hmade := FileSystem.makeDirectory_join h hdir hname hsteps
    rw [if_pos hthere] at hmade
    have hne := (usableSteps_eq_ok_iff.1 hsteps).1.2.2
    exact ⟨_, by rw [createDirectories_eq hne, ensureDirectory, hmade]⟩
  | some s =>
    have hnode : fs.get? (r ++ [name]) = some .directory := by
      rw [FileSystem.get?_eq_bind, hthere]
      exact hfree s hthere
    have hroute := h.routeOf_join (by simp [hnode]) hshort
    exact ⟨fs, createDirectories_of_directory hroute hnode⟩

end WitnessReplay.Files

namespace WitnessReplay.Benchmark

open Files FileSystem List

/-- A root whose contents are copied to a target. Neither lies in the other. -/
structure Transfer where
  home : Route
  root : Path
  target : Path
  apart : Path.Apart home root target

theorem copyEntry_eq_ok_iff {target : Path} {v : Visit} {s s' : FileSystem}
    (hne : v.relative ≠ []) (hnames : ∀ name ∈ v.relative, IsName name) :
    copyEntry target v s = (.ok (), s') ↔
      match v.kind with
      | .directory =>
        Edit.createDirectories (target.joinAll v.relative) s = (.ok (), s')
      | _ => s.copyFile v.path (target.joinAll v.relative) = .ok s' := by
  have hadapt {step : Edit FileError Unit} {g : FileError → PreparationError} :
      step.adapt g s = (.ok (), s') ↔ step s = (.ok (), s') :=
    ⟨exceptT_adapt_eq_ok, fun h => exceptT_adapt h g⟩
  simp only [copyEntry, hadapt, target.join_intercalate hne (isPart_of_isName hnames)]
  obtain ⟨relative, path, kind⟩ := v
  cases kind with
  | directory => rfl
  | file => exact Edit.change_eq_ok_iff
  | link => exact Edit.change_eq_ok_iff

namespace Transfer

variable {k : Transfer} {c c' : Route → Prop} {s s' s'' : FileSystem} {t : Route}
  {name : String} {step next : Edit PreparationError Unit}

def source (k : Transfer) : Route :=
  k.root.route k.home

def place (k : Transfer) : Route :=
  k.target.route k.home

theorem not_prefix_source (k : Transfer) (t : Route) : ¬k.place <+: k.source ++ t :=
  k.apart.not_prefix_append t

/-- The root is there, and so is a directory at a route below the target. -/
structure Ready (k : Transfer) (t : Route) (s : FileSystem) : Prop where
  home : s.home = k.home
  opened : s.routeOf k.root = .ok k.source
  root : s.get? k.source = some .directory
  place : s.Reaches (k.target.joinAll t) (k.place ++ t)
  directory : s.get? (k.place ++ t) = some .directory

theorem Ready.mono (h : k.Ready t s) (hhome : s'.home = s.home)
    (hmono : ∀ x, s.get? x = some .directory → s'.get? x = some .directory) :
    k.Ready t s' where
  home := hhome.trans h.home
  opened := routeOf_mono hhome hmono h.opened h.root
  root := hmono _ h.root
  place := h.place.mono hhome hmono h.directory
  directory := hmono _ h.directory

/-- What the root has at a route can be copied to its place: both paths can be followed, and
it fits over what is there. -/
def Fits (k : Transfer) (s : FileSystem) (t : Route) : Prop :=
  ∀ new, s.status? (k.source ++ t) = some new →
    (k.root.joinAll t).text.utf8ByteSize < pathLimit ∧
      (k.target.joinAll t).text.utf8ByteSize < pathLimit ∧
      new.FitsOver (s.status? (k.place ++ t))

/-- At the covered routes the root has been laid over what was at the target, and all else is
as it was. -/
structure Laid (k : Transfer) (covers : Route → Prop) (s s' : FileSystem) : Prop where
  home : s'.home = s.home
  outside : ∀ x, ¬k.place <+: x → s'.status? x = s.status? x
  covered : ∀ t, covers t → s'.status? (k.place ++ t) =
    layOver (s.status? (k.place ++ t)) (s.status? (k.source ++ t))
  kept : ∀ t, ¬covers t → s'.status? (k.place ++ t) = s.status? (k.place ++ t)

namespace Laid

theorem of_spot (hhome : s'.home = s.home)
    (hplace : s'.status? (k.place ++ t) =
      layOver (s.status? (k.place ++ t)) (s.status? (k.source ++ t)))
    (hothers : ∀ x, x ≠ k.place ++ t → s'.status? x = s.status? x) :
    k.Laid (· = t) s s' := by
  refine ⟨hhome, ?_, ?_, fun z hz => hothers _ (by simpa using hz)⟩
  · intro x hx
    refine hothers x ?_
    rintro rfl
    exact hx (prefix_append _ _)
  · rintro z rfl
    exact hplace

theorem source (h : k.Laid c s s') (t : Route) :
    s'.status? (k.source ++ t) = s.status? (k.source ++ t) :=
  h.outside _ (k.not_prefix_source t)

theorem isLink (h : k.Laid c s s') (x : Route) : s'.isLink x = s.isLink x := by
  rw [FileSystem.isLink, FileSystem.isLink]
  by_cases hin : k.place <+: x
  · obtain ⟨t, rfl⟩ := hin
    by_cases hc : c t
    · rw [h.covered t hc, linked_layOver]
    · rw [h.kept t hc]
  · rw [h.outside x hin]

theorem directories (h : k.Laid c s s') (hfits : ∀ t, c t → k.Fits s t) {x : Route}
    (hx : s.get? x = some .directory) : s'.get? x = some .directory := by
  rw [get?_eq_bind] at hx ⊢
  by_cases hin : k.place <+: x
  · obtain ⟨t, rfl⟩ := hin
    by_cases hc : c t
    · rw [h.covered t hc]
      obtain ⟨old, hold, hdir⟩ := Option.bind_eq_some_iff.1 hx
      obtain ⟨linked, rfl⟩ := Status.eq_directory_of_node? hdir
      have hstacks : Stacks (some (.directory linked)) [s.status? (k.source ++ t)] := by
        refine ⟨fun new hnew => ?_, trivial⟩
        exact hold ▸ (hfits t hc new hnew).2.2
      have hkept : layOver (some (.directory linked)) (s.status? (k.source ++ t)) =
          some (.directory linked) := hstacks.over_directory.1
      rw [hold, hkept]
      rfl
    · rw [h.kept t hc, hx]
  · rw [h.outside x hin, hx]

theorem fits_iff (h : k.Laid c s s') (ht : ¬c t) : k.Fits s' t ↔ k.Fits s t := by
  rw [Fits, Fits, h.source, h.kept t ht]

theorem trans (h : k.Laid c s s') (h' : k.Laid c' s' s'') (hdisjoint : ∀ t, c t → ¬c' t) :
    k.Laid (fun t => c t ∨ c' t) s s'' := by
  refine ⟨h'.home.trans h.home, ?_, ?_, ?_⟩
  · intro x hx
    rw [h'.outside x hx, h.outside x hx]
  · rintro t (hc | hc')
    · rw [h'.kept t (hdisjoint t hc), h.covered t hc]
    · have hc : ¬c t := fun hc => hdisjoint t hc hc'
      rw [h'.covered t hc', h.kept t hc, h.source]
  · intro t ht
    obtain ⟨hc, hc'⟩ := not_or.1 ht
    rw [h'.kept t hc', h.kept t hc]

end Laid

/-- A step copies what the root has at the covered routes: it succeeds exactly if all of that
fits, and then it is laid over the target. -/
structure Lays (k : Transfer) (covers : Route → Prop) (s : FileSystem)
    (step : Edit PreparationError Unit) : Prop where
  laid : ∀ s', step s = (.ok (), s') → (∀ t, covers t → k.Fits s t) ∧ k.Laid covers s s'
  succeeds : (∀ t, covers t → k.Fits s t) → ∃ s', step s = (.ok (), s')

namespace Lays

theorem bind (h : k.Lays c s step) (hdisjoint : ∀ t, c t → ¬c' t)
    (h' : ∀ u, step s = (.ok (), u) → k.Lays c' u next) :
    k.Lays (fun t => c t ∨ c' t) s (step >>= fun _ => next) := by
  have hother {t : Route} (hc' : c' t) : ¬c t := fun hc => hdisjoint t hc hc'
  refine ⟨?_, ?_⟩
  · intro s' hrun
    obtain ⟨⟨⟩, u, hstep, hnext⟩ := exceptT_bind_eq_ok_iff.1 hrun
    obtain ⟨hfits, hlaid⟩ := h.laid u hstep
    obtain ⟨hfits', hlaid'⟩ := (h' u hstep).laid s' hnext
    refine ⟨?_, hlaid.trans hlaid' hdisjoint⟩
    rintro t (hc | hc')
    · exact hfits t hc
    · exact (hlaid.fits_iff (hother hc')).1 (hfits' t hc')
  · intro hfits
    obtain ⟨u, hstep⟩ := h.succeeds fun t hc => hfits t (.inl hc)
    have hlaid := (h.laid u hstep).2
    obtain ⟨s', hnext⟩ := (h' u hstep).succeeds fun t hc' =>
      (hlaid.fits_iff (hother hc')).2 (hfits t (.inr hc'))
    exact ⟨s', exceptT_bind_eq_ok_iff.2 ⟨(), u, hstep, hnext⟩⟩

theorem widen (h : k.Lays c s step) (hc : ∀ t, c t → c' t)
    (hrest : (∀ t, c t → k.Fits s t) → ∀ t, c' t → ¬c t → s.status? (k.source ++ t) = none) :
    k.Lays c' s step := by
  refine ⟨?_, fun hfits => h.succeeds fun t ht => hfits t (hc t ht)⟩
  intro s' hstep
  obtain ⟨hfits, hlaid⟩ := h.laid s' hstep
  have hrest := hrest hfits
  refine ⟨?_, hlaid.home, hlaid.outside, ?_, fun t ht => hlaid.kept t (mt (hc t) ht)⟩
  · intro t ht new hnew
    by_cases hct : c t
    · exact hfits t hct new hnew
    · rw [hrest t ht hct] at hnew
      cases hnew
  · intro t ht
    by_cases hct : c t
    · exact hlaid.covered t hct
    · rw [hlaid.kept t hct, hrest t ht hct]
      rfl

end Lays

theorem lays_directory (hnames : ∀ m ∈ t ++ [name], IsName m) (hready : k.Ready t s)
    (hnew : s.status? (k.source ++ (t ++ [name])) = some (.directory false))
    (hshort : (k.root.joinAll (t ++ [name])).text.utf8ByteSize < pathLimit) (path : Path) :
    k.Lays (· = t ++ [name]) s (copyEntry k.target ⟨t ++ [name], path, .directory⟩) := by
  have hcopy {s' : FileSystem} :
      copyEntry k.target ⟨t ++ [name], path, .directory⟩ s = (.ok (), s') ↔
        Edit.createDirectories ((k.target.joinAll t).join ⟨name⟩) s = (.ok (), s') := by
    rw [copyEntry_eq_ok_iff (by simp) hnames, k.target.joinAll_concat]
  have hname : IsName name := hnames name (by simp)
  refine ⟨?_, ?_⟩
  · intro s' h
    obtain ⟨hroute, hdir, hgrows⟩ :=
      Edit.createDirectories_join (hcopy.1 h) hready.place hready.directory hname
    rw [append_assoc] at hroute hdir hgrows
    have hplace : s'.status? (k.place ++ (t ++ [name])) =
          layOver (s.status? (k.place ++ (t ++ [name]))) (some (.directory false)) ∧
        (Status.directory false).FitsOver (s.status? (k.place ++ (t ++ [name]))) := by
      rcases hgrows.status (k.place ++ (t ++ [name])) with hsame | ⟨-, hnone, hmade⟩
      · rw [get?_eq_bind, hsame] at hdir
        obtain ⟨old, hold, hnode⟩ := Option.bind_eq_some_iff.1 hdir
        rw [hsame, hold]
        refine ⟨rfl, rfl, ?_⟩
        rintro o ⟨⟩
        exact hnode
      · rw [hnone, hmade]
        exact ⟨rfl, rfl, nofun⟩
    have hothers (x : Route) (hx : x ≠ k.place ++ (t ++ [name])) :
        s'.status? x = s.status? x := by
      rcases hgrows.status x with hsame | ⟨heq, -⟩
      · exact hsame
      · exact absurd heq hx
    refine ⟨?_, .of_spot hgrows.home (hnew ▸ hplace.1) hothers⟩
    rintro z rfl new hz
    cases hnew.symm.trans hz
    refine ⟨hshort, ?_, hplace.2⟩
    rw [k.target.joinAll_concat]
    exact utf8ByteSize_lt_of_routeOf hroute
  · intro hfits
    obtain ⟨-, hplace, -, hfree⟩ := hfits _ rfl _ hnew
    rw [k.target.joinAll_concat] at hplace
    rw [← append_assoc] at hfree
    obtain ⟨s', hmade⟩ :=
      Edit.exists_createDirectories_join hready.place hready.directory hname hplace hfree
    exact ⟨s', hcopy.2 hmade⟩

theorem Ready.below (hready : k.Ready t s) (hlays : k.Lays (· = t ++ [name]) s step)
    (hnew : s.status? (k.source ++ (t ++ [name])) = some (.directory false))
    (h : step s = (.ok (), s')) : k.Ready (t ++ [name]) s' := by
  obtain ⟨hfits, hlaid⟩ := hlays.laid s' h
  have hlater := hready.mono hlaid.home fun _ => hlaid.directories hfits
  have hdir : s'.get? (k.place ++ (t ++ [name])) = some .directory := by
    obtain ⟨linked, hthere⟩ := layOver_directory (hfits _ rfl _ hnew).2.2
    rw [get?_eq_bind, hlaid.covered _ rfl, hnew, hthere]
    rfl
  refine ⟨hlater.home, hlater.opened, hlater.root, ?_, hdir⟩
  have hshort := (hfits _ rfl _ hnew).2.1
  rw [k.target.joinAll_concat, ← append_assoc]
  rw [k.target.joinAll_concat] at hshort
  have hthere : s'.get? (k.place ++ t ++ [name]) ≠ none := by
    rw [append_assoc, hdir]
    exact nofun
  exact reaches_of_routeOf (hlater.place.routeOf_join hthere hshort)

/-- The copy of what is not taken for a directory brings a file to its place. -/
theorem lays_file {new : Status} {kind : Kind} (hnames : ∀ m ∈ t ++ [name], IsName m)
    (hready : k.Ready t s) (hnew : s.status? (k.source ++ (t ++ [name])) = some new)
    (hkind : new.kind = kind) (hnot : kind ≠ .directory) :
    k.Lays (· = t ++ [name]) s
      (copyEntry k.target ⟨t ++ [name], k.root.joinAll (t ++ [name]), kind⟩) := by
  have hfrom : (k.root.joinAll (t ++ [name])).route s.home = k.source ++ (t ++ [name]) := by
    rw [k.root.route_joinAll _ (isPart_of_isName hnames), hready.home, source]
  have hto : (k.target.joinAll (t ++ [name])).route s.home = k.place ++ (t ++ [name]) := by
    rw [k.target.route_joinAll _ (isPart_of_isName hnames), hready.home, place]
  have hcopy {s' : FileSystem} :
      copyEntry k.target ⟨t ++ [name], k.root.joinAll (t ++ [name]), kind⟩ s = (.ok (), s') ↔
        s.copyFile (k.root.joinAll (t ++ [name])) (k.target.joinAll (t ++ [name])) =
          .ok s' := by
    rw [copyEntry_eq_ok_iff (by simp) hnames]
    cases kind with
    | directory => exact absurd rfl hnot
    | file => rfl
    | link => rfl
  refine ⟨?_, ?_⟩
  · intro s' h
    have hdiffer : (k.root.joinAll (t ++ [name])).route s.home ≠
        (k.target.joinAll (t ++ [name])).route s.home := by
      rw [hfrom, hto]
      intro heq
      exact k.not_prefix_source (t ++ [name]) (heq ▸ prefix_append k.place (t ++ [name]))
    obtain ⟨linked, access, content, hread, hfile, hreadable, hwritten, rfl⟩ :=
      copyFile_eq_ok (hcopy.1 h) hdiffer
    rw [hfrom] at hread hfile
    rw [hto] at hwritten ⊢
    have hadmits := admits_of_fileRoute hwritten
    obtain ⟨steps, -, -, -, hsteps, -, -, -, -, -, -, hfree⟩ := fileRoute_eq_ok hwritten
    refine ⟨?_, .of_spot (home_setFile _ _ _ _) ?_ ?_⟩
    · rintro z rfl other hother
      cases hfile.symm.trans hother
      refine ⟨utf8ByteSize_lt_of_routeOf hread, ?_, hreadable, hfree⟩
      exact (usableSteps_eq_ok_iff.1 hsteps).1.2.1
    · rw [status?_setFile hadmits, if_pos rfl, hfile]
      rfl
    · intro x hx
      rw [status?_setFile hadmits, if_neg hx]
  · intro hfits
    obtain ⟨hsource, hplace, hover⟩ := hfits _ rfl _ hnew
    obtain ⟨linked, access, content, rfl⟩ := hover.eq_file (hkind ▸ hnot)
    have hthere : s.get? (k.source ++ (t ++ [name])) ≠ none := by
      rw [get?_eq_bind, hnew]
      exact nofun
    have hread := routeOf_joinAll (t ++ [name]) hready.opened hthere hsource
    have hfree : s.refusal? (k.place ++ t ++ [name]) = none := by
      rw [append_assoc]
      exact hover.2
    rw [k.target.joinAll_concat] at hplace
    have hwritten :=
      fileRoute_join hready.place hready.directory (hnames name (by simp)) hplace hfree
    rw [← k.target.joinAll_concat] at hwritten
    obtain ⟨s', hs'⟩ := exists_copyFile hread hnew hover.1 hwritten
    exact ⟨s', hcopy.2 hs'⟩

/-- Below a file there is nothing, so that its copy covers all that is there. -/
theorem Lays.below_file {new : Status} (h : k.Lays (· = t) s step)
    (hnew : s.status? (k.source ++ t) = some new) (hnot : new.kind ≠ .directory) :
    k.Lays (t <+: ·) s step := by
  refine h.widen (fun z hz => hz ▸ prefix_rfl) ?_
  rintro hfits z ⟨rest, rfl⟩ hne
  obtain ⟨linked, access, content, rfl⟩ := (hfits t rfl _ hnew).2.2.eq_file hnot
  rw [← append_assoc]
  exact status?_below_file (status?_eq_file_iff.1 hnew).1 (by simpa using hne)

theorem eq_of_prefixes {m : String} {z : Route} (h : t ++ [name] <+: z)
    (h' : t ++ [m] <+: z) : name = m := by
  have hsame : t ++ [name] = t ++ [m] :=
    (prefix_of_prefix_length_le h h' (by simp)).eq_of_length (by simp)
  simpa using hsame

theorem lays_forM {items : List (String × Kind)}
    {each : String × Kind → Edit PreparationError Unit}
    (heach : ∀ item ∈ items, ∀ u, k.Ready t u →
      (u.status? (k.source ++ (t ++ [item.1]))).map Status.kind = some item.2 →
      k.Lays (t ++ [item.1] <+: ·) u (each item))
    (hready : k.Ready t s) (hnodup : (items.map (·.1)).Nodup)
    (hitems : ∀ item ∈ items,
      (s.status? (k.source ++ (t ++ [item.1]))).map Status.kind = some item.2) :
    k.Lays (fun z => ∃ item ∈ items, t ++ [item.1] <+: z) s (items.forM each) := by
  induction items generalizing s with
  | nil =>
    refine ⟨?_, fun _ => ⟨s, rfl⟩⟩
    intro s' h
    cases h
    exact ⟨by simp, rfl, fun _ _ => rfl, by simp, fun _ _ => rfl⟩
  | cons item items ih =>
    obtain ⟨hitem, hothers⟩ := forall_mem_cons.1 hitems
    obtain ⟨hnew, hnodup⟩ := nodup_cons.1 hnodup
    have hfirst := heach item mem_cons_self s hready hitem
    simp only [mem_cons, exists_eq_or_imp]
    refine hfirst.bind ?_ fun u hu => ?_
    · rintro z hz ⟨other, hother, hz'⟩
      have hsame : other.1 = item.1 := eq_of_prefixes hz' hz
      exact hnew (mem_map.2 ⟨other, hother, hsame⟩)
    · obtain ⟨hfits, hlaid⟩ := hfirst.laid u hu
      refine ih (fun other hother => heach other (mem_cons_of_mem item hother))
        (hready.mono hlaid.home fun _ => hlaid.directories hfits) hnodup ?_
      intro other hother
      rw [hlaid.source]
      exact hothers other hother

theorem lays_listing {items : List (String × Kind)}
    {each : String × Kind → Edit PreparationError Unit}
    (hnames : ∀ m ∈ t, IsName m) (hlist : s.list (k.root.joinAll t) = .ok items)
    (heach : ∀ item ∈ items, IsName item.1 → ∀ u, k.Ready t u →
      (u.status? (k.source ++ (t ++ [item.1]))).map Status.kind = some item.2 →
      k.Lays (t ++ [item.1] <+: ·) u (each item))
    (hready : k.Ready t s) : k.Lays (fun z => t <+: z ∧ z ≠ t) s (items.forM each) := by
  obtain ⟨r, hroute, hdir, hnodup, hitems⟩ := list_eq_ok hlist
  obtain rfl : k.source ++ t = r := by
    rw [← route_of_routeOf hroute, k.root.route_joinAll _ (isPart_of_isName hnames),
      hready.home, source]
  simp only [append_assoc] at hitems
  have hthere (item : String × Kind) (hitem : item ∈ items) :
      (s.status? (k.source ++ (t ++ [item.1]))).map Status.kind = some item.2 :=
    (hitems item.1 item.2).1 hitem
  have hnamed (item : String × Kind) (hitem : item ∈ items) : IsName item.1 := by
    have hstatus : s.status? (k.source ++ (t ++ [item.1])) ≠ none := by
      intro hnone
      have hkind := hthere item hitem
      rw [hnone] at hkind
      cases hkind
    exact isName_of_status? hstatus item.1 (by simp)
  refine (lays_forM (fun item hitem => heach item hitem (hnamed item hitem)) hready hnodup
    hthere).widen ?_ ?_
  · rintro z ⟨item, -, hz⟩
    refine ⟨(prefix_append t [item.1]).trans hz, ?_⟩
    rintro rfl
    have hle := hz.length_le
    rw [length_append, length_singleton] at hle
    exact absurd hle (Nat.not_succ_le_self _)
  · -- what is not below an entry is not there
    rintro - z ⟨⟨rest, rfl⟩, hne⟩ hnot
    cases rest with
    | nil => exact absurd (append_nil t) hne
    | cons m rest =>
      refine Classical.byContradiction fun hz => hnot ?_
      have hchild : s.status? (k.source ++ (t ++ [m])) ≠ none := by
        rw [append_cons, ← append_assoc] at hz
        exact status?_ne_none_of_append hz
      obtain ⟨new, hnew⟩ := Option.ne_none_iff_exists'.1 hchild
      refine ⟨(m, new.kind), (hitems m new.kind).2 ?_, by simp⟩
      rw [hnew]
      rfl

end Transfer

section Visit

variable {root target path : Path} {relative : Route} {n : Nat} {s s' : FileSystem}
  {items : List (String × Kind)}

/-- The second part of the copy of a directory: what it holds is copied. -/
def copyListed (root target : Path) (n : Nat) (relative : Route) (path : Path) :
    Edit PreparationError Unit := do
  let items ← Edit.inspect fun fs => (fs.list path).mapError (.unlisted root)
  items.forM fun (name, kind) =>
    copyVisit root target n ⟨relative ++ [name], path.join ⟨name⟩, kind⟩

theorem inspect_list_eq_ok_iff :
    (Edit.inspect fun fs => (fs.list path).mapError (PreparationError.unlisted root)) s =
      (.ok items, s') ↔ s.list path = .ok items ∧ s' = s := by
  rw [Edit.inspect_eq_ok_iff, mapError_eq_ok_iff]

theorem copyListed_of_list (h : s.list path = .ok items) :
    copyListed root target n relative path s =
      (items.forM fun item => copyVisit root target n
        ⟨relative ++ [item.1], path.join ⟨item.1⟩, item.2⟩ : Edit PreparationError Unit) s :=
  exceptT_bind_of_ok (inspect_list_eq_ok_iff.2 ⟨h, rfl⟩) _

theorem copyVisit_of_list (h : s.list path = .ok items) :
    copyVisit root target (n + 1) ⟨relative, path, .directory⟩ s =
      (copyEntry target ⟨relative, path, .directory⟩ >>= fun _ =>
        copyListed root target n relative path) s := by
  rw [copyVisit]
  exact exceptT_bind_of_ok (inspect_list_eq_ok_iff.2 ⟨h, rfl⟩) _

theorem copyVisit_of_ne_directory {kind : Kind} (hkind : kind ≠ .directory) :
    copyVisit root target (n + 1) ⟨relative, path, kind⟩ =
      copyEntry target ⟨relative, path, kind⟩ := by
  cases kind with
  | directory => exact absurd rfl hkind
  | file => rfl
  | link => rfl

theorem exists_list_of_copyVisit
    (h : copyVisit root target (n + 1) ⟨relative, path, .directory⟩ s = (.ok (), s')) :
    ∃ items, s.list path = .ok items := by
  rw [copyVisit] at h
  obtain ⟨items, u, hlist, -⟩ := exceptT_bind_eq_ok_iff.1 h
  exact ⟨items, (inspect_list_eq_ok_iff.1 hlist).1⟩

theorem copyTree_of_isDirectory {kind : Kind} (h : s.isDirectory root = true)
    (hkind : s.kindOf root = .ok kind) :
    copyTree root target s = copyVisit root target pathLimit ⟨[], root, kind⟩ s := by
  have hget : (get : Edit PreparationError FileSystem) s = (.ok s, s) := rfl
  have hinspect : (Edit.inspect fun fs =>
      (fs.kindOf root).mapError (PreparationError.unlisted root)) s = (.ok kind, s) :=
    Edit.inspect_eq_ok_iff.2 ⟨mapError_eq_ok_iff.2 hkind, rfl⟩
  rw [copyTree, exceptT_bind_of_ok hget, h]
  exact exceptT_bind_of_ok hinspect _

theorem copyTree_of_kindOf (h : s.kindOf root = .ok .directory) :
    copyTree root target s = copyVisit root target pathLimit ⟨[], root, .directory⟩ s := by
  obtain ⟨r, hroute, hdir, -⟩ := kindOf_eq_directory_iff.1 h
  exact copyTree_of_isDirectory (isDirectory_iff.2 ⟨r, hroute, hdir⟩) h

theorem isDirectory_of_copyTree (h : copyTree root target s = (.ok (), s')) :
    s.isDirectory root = true := by
  have hget : (get : Edit PreparationError FileSystem) s = (.ok s, s) := rfl
  rw [copyTree, exceptT_bind_of_ok hget] at h
  cases hdir : s.isDirectory root with
  | true => rfl
  | false =>
    rw [hdir] at h
    cases h

/-- A root that is a link is not copied, for a link is copied like a file. -/
theorem kindOf_of_copyTree (h : copyTree root target s = (.ok (), s')) :
    s.kindOf root = .ok .directory := by
  have hroot := isDirectory_of_copyTree h
  obtain ⟨r, hroute, hdir⟩ := isDirectory_iff.1 hroot
  obtain ⟨standing, hs, rfl⟩ := exists_locate hroute
  have hkind : s.kindOf root = .ok (standing.entry.kindAt root) := by
    rw [kindOf, hs]
  rw [copyTree_of_isDirectory hroot hkind] at h
  by_cases hnot : standing.entry.kindAt root = .directory
  · rw [hkind, hnot]
  · rw [pathLimit, copyVisit_of_ne_directory hnot] at h
    have hcopied : s.copyFile root (target.join ⟨"/".intercalate []⟩) = .ok s' := by
      have hcopy := exceptT_adapt_eq_ok h
      revert hcopy hnot
      cases standing.entry.kindAt root with
      | directory => exact fun hnot => absurd rfl hnot
      | file => exact fun _ => Edit.change_eq_ok_iff.1
      | link => exact fun _ => Edit.change_eq_ok_iff.1
    obtain ⟨⟨r, access, content⟩, hopened, -⟩ := bind_eq_ok_iff.1 hcopied
    obtain ⟨hroute', -, linked, hstatus⟩ := openFile_eq_ok_iff.1 hopened
    cases hroute.symm.trans hroute'
    rw [(status?_eq_file_iff.1 hstatus).1] at hdir
    cases hdir

end Visit

namespace Transfer

variable {k : Transfer} {c : Route → Prop} {s s' : FileSystem} {t : Route} {name : String}
  {n : Nat} {kind : Kind} {step other : Edit PreparationError Unit}

theorem Lays.congr (h : k.Lays c s step) (heq : other s = step s) : k.Lays c s other :=
  ⟨fun s' hs' => h.laid s' (heq ▸ hs'), fun hfits => heq ▸ h.succeeds hfits⟩

theorem lays_listed (hnames : ∀ m ∈ t, IsName m) (hready : k.Ready t s)
    (hdir : s.get? (k.source ++ t) = some .directory)
    (hshort : (k.root.joinAll t).text.utf8ByteSize < pathLimit)
    (hbelow : ∀ name kind, IsName name → ∀ u, k.Ready t u →
      (u.status? (k.source ++ (t ++ [name]))).map Status.kind = some kind →
      k.Lays (t ++ [name] <+: ·) u
        (copyVisit k.root k.target n ⟨t ++ [name], k.root.joinAll (t ++ [name]), kind⟩)) :
    k.Lays (fun z => t <+: z ∧ z ≠ t) s
      (copyListed k.root k.target n t (k.root.joinAll t)) := by
  have hroute := routeOf_joinAll t hready.opened (by simp [hdir]) hshort
  obtain ⟨items, hitems⟩ := exists_list hroute hdir
  refine Lays.congr ?_ (copyListed_of_list hitems)
  refine lays_listing hnames hitems ?_ hready
  rintro ⟨name, kind⟩ - hname u hu hthere
  simp only [← k.root.joinAll_concat]
  exact hbelow name kind hname u hu hthere

/-- The copy of an entry covers the entry and everything below it. The number is never used
up: a directory that can be opened has a path below the limit. -/
theorem lays_visit (hn : 0 < n) (hnames : ∀ m ∈ t ++ [name], IsName m)
    (hlimit : pathLimit < n + (k.root.joinAll (t ++ [name])).text.utf8ByteSize)
    (hready : k.Ready t s)
    (hkind : (s.status? (k.source ++ (t ++ [name]))).map Status.kind = some kind) :
    k.Lays (t ++ [name] <+: ·) s
      (copyVisit k.root k.target n ⟨t ++ [name], k.root.joinAll (t ++ [name]), kind⟩) := by
  -- each name makes the path longer, so that the number and the length together stay above
  -- the limit
  induction n generalizing t name kind s with
  | zero => exact absurd hn (Nat.lt_irrefl 0)
  | succ n ih =>
    obtain ⟨new, hnew, hkind⟩ := Option.map_eq_some_iff.1 hkind
    by_cases hnot : kind = .directory
    · obtain rfl := Status.kind_eq_directory_iff.1 (hkind.trans hnot)
      subst hnot
      have hdir : s.get? (k.source ++ (t ++ [name])) = some .directory := by
        rw [get?_eq_bind, hnew]
        rfl
      by_cases hshort : (k.root.joinAll (t ++ [name])).text.utf8ByteSize < pathLimit
      · have hfirst := lays_directory hnames hready hnew hshort (k.root.joinAll (t ++ [name]))
        have hroute := routeOf_joinAll _ hready.opened (by simp [hdir]) hshort
        obtain ⟨items, hitems⟩ := exists_list hroute hdir
        refine Lays.congr ?_ (copyVisit_of_list hitems)
        have hrest (u : FileSystem)
            (hu : copyEntry k.target
              ⟨t ++ [name], k.root.joinAll (t ++ [name]), .directory⟩ s = (.ok (), u)) :
            k.Lays (fun z => t ++ [name] <+: z ∧ z ≠ t ++ [name]) u
              (copyListed k.root k.target n (t ++ [name]) (k.root.joinAll (t ++ [name]))) := by
          obtain ⟨hfits, hlaid⟩ := hfirst.laid u hu
          refine lays_listed hnames (hready.below hfirst hnew hu)
            (hlaid.directories hfits hdir) hshort ?_
          intro m below hm u' hu' hthere
          have hnames' : ∀ m' ∈ (t ++ [name]) ++ [m], IsName m' := by
            simpa [or_imp, forall_and, hm] using hnames
          have hlonger := (k.root.joinAll (t ++ [name])).utf8ByteSize_lt_join hm.isPart
          rw [← k.root.joinAll_concat] at hlonger
          exact ih (by omega) hnames' (by omega) hu' hthere
        refine (hfirst.bind ?_ hrest).widen ?_ ?_
        · rintro z rfl hz
          exact hz.2 rfl
        · rintro z (rfl | hz)
          · exact prefix_rfl
          · exact hz.1
        · intro _ z hz hother
          exact absurd (Classical.or_iff_not_imp_left.2 fun hne => ⟨hz, hne⟩) hother
      · -- the directory cannot be opened
        refine ⟨fun s' h => ?_, fun hfits => ?_⟩
        · obtain ⟨items, hitems⟩ := exists_list_of_copyVisit h
          obtain ⟨r, hroute, -⟩ := list_eq_ok hitems
          exact absurd (utf8ByteSize_lt_of_routeOf hroute) hshort
        · exact absurd (hfits _ prefix_rfl _ hnew).1 hshort
    · rw [copyVisit_of_ne_directory hnot]
      exact (lays_file hnames hready hnew hkind hnot).below_file hnew (hkind ▸ hnot)

end Transfer

/-- The target of a copy is there, also with a slash behind it. -/
structure Placed (target : Path) (τ : Route) (s : FileSystem) : Prop where
  reaches : s.Reaches target τ
  slashed : target.text ≠ "" → s.routeOf (target.join ⟨""⟩) = .ok τ
  directory : s.get? τ = some .directory

section Placed

variable {root target : Path} {τ : Route} {s s' : FileSystem}

theorem Placed.mono (h : Placed target τ s) (hhome : s'.home = s.home)
    (hmono : ∀ x, s.get? x = some .directory → s'.get? x = some .directory) :
    Placed target τ s' where
  reaches := h.reaches.mono hhome hmono h.directory
  slashed := fun hne => routeOf_mono hhome hmono (h.slashed hne) h.directory
  directory := hmono _ h.directory

theorem Placed.route_eq (h : Placed target τ s) : target.route s.home = τ :=
  spell_of_routeFrom h.reaches.route

theorem Placed.createDirectories_eq (h : Placed target τ s) :
    Edit.createDirectories (target.join ⟨""⟩) s = (.ok (), s) := by
  by_cases hne : target.text = ""
  · obtain ⟨text⟩ := target
    cases hne
    rfl
  · exact Edit.createDirectories_of_directory (h.slashed hne) h.directory

theorem Placed.copyTree_eq (h : Placed target τ s) (hkind : s.kindOf root = .ok .directory) :
    copyTree root target s = copyListed root target (pathLimit - 1) [] root s := by
  obtain ⟨ρ, hρ, hρdir, -⟩ := kindOf_eq_directory_iff.1 hkind
  obtain ⟨items, hitems⟩ := exists_list hρ hρdir
  have hthere : copyEntry target ⟨[], root, .directory⟩ s = (.ok (), s) :=
    exceptT_adapt h.createDirectories_eq _
  rw [copyTree_of_kindOf hkind]
  exact (copyVisit_of_list hitems).trans (exceptT_bind_of_ok hthere _)

theorem placed_of_createDirectories
    (h : Edit.createDirectories (target.join ⟨""⟩) s = (.ok (), s')) :
    ∃ τ, Placed target τ s' := by
  by_cases hne : target.text = ""
  · obtain ⟨text⟩ := target
    cases hne
    cases h
    exact ⟨s.home, reaches_empty s, fun hne => absurd rfl hne, s.isHome⟩
  · have hslash : '/' ∉ "".toList := by simp
    have hplace : (target.join ⟨""⟩).text ≠ "" := by
      rcases target.text_join hslash with htext | ⟨htext, -⟩ <;> simp [htext, hne]
    obtain ⟨-, τ, hroute, hdir⟩ := Edit.createDirectories_eq_ok h hplace
    exact ⟨τ, reaches_of_routeOf (routeOf_of_join_empty hroute), fun _ => hroute, hdir⟩

/-- The copy of a root starts by making the target, and goes on as if the target had been
there. -/
theorem copyTree_eq_ok_iff : copyTree root target s = (.ok (), s') ↔
    s.kindOf root = .ok .directory ∧
      ∃ made, Edit.createDirectories (target.join ⟨""⟩) s = (.ok (), made) ∧
        copyTree root target made = (.ok (), s') := by
  have hmakes {made : FileSystem} :
      copyEntry target ⟨[], root, .directory⟩ s = (.ok (), made) ↔
        Edit.createDirectories (target.join ⟨""⟩) s = (.ok (), made) :=
    ⟨exceptT_adapt_eq_ok, fun h => exceptT_adapt h _⟩
  have hgoes {made : FileSystem} (hkind : s.kindOf root = .ok .directory)
      (hmade : Edit.createDirectories (target.join ⟨""⟩) s = (.ok (), made)) :
      copyTree root target s = copyTree root target made := by
    obtain ⟨ρ, hρ, hρdir, -⟩ := kindOf_eq_directory_iff.1 hkind
    obtain ⟨items, hitems⟩ := exists_list hρ hρdir
    obtain ⟨τ, hplaced⟩ := placed_of_createDirectories hmade
    have hgrows := (Edit.createDirectories_along hmade).1
    have hkind' := kindOf_mono hgrows.home (fun _ => hgrows.directory) hgrows.isLink hkind
    rw [hplaced.copyTree_eq hkind', copyTree_of_kindOf hkind]
    exact (copyVisit_of_list hitems).trans (exceptT_bind_of_ok (hmakes.2 hmade) _)
  constructor
  · intro h
    have hkind := kindOf_of_copyTree h
    obtain ⟨ρ, hρ, hρdir, -⟩ := kindOf_eq_directory_iff.1 hkind
    obtain ⟨items, hitems⟩ := exists_list hρ hρdir
    have hvisit := copyTree_of_kindOf hkind ▸ h
    rw [pathLimit, copyVisit_of_list hitems] at hvisit
    obtain ⟨⟨⟩, made, hmade, -⟩ := exceptT_bind_eq_ok_iff.1 hvisit
    exact ⟨hkind, made, hmakes.1 hmade, hgoes hkind (hmakes.1 hmade) ▸ h⟩
  · rintro ⟨hkind, made, hmade, h⟩
    exact (hgoes hkind hmade).trans h

theorem Transfer.lays_tree {k : Transfer} (hhome : s.home = k.home)
    (hplaced : Placed k.target k.place s) (hkind : s.kindOf k.root = .ok .directory) :
    k.Lays (· ≠ []) s (copyTree k.root k.target) := by
  obtain ⟨ρ, hopened, hroot, -⟩ := kindOf_eq_directory_iff.1 hkind
  obtain rfl : k.source = ρ := by
    rw [← route_of_routeOf hopened, hhome, source]
  have hready : k.Ready [] s := by
    refine ⟨hhome, hopened, hroot, ?_, ?_⟩
    · rw [append_nil]
      exact hplaced.reaches
    · rw [append_nil]
      exact hplaced.directory
  have hbelow : k.Lays (fun z => [] <+: z ∧ z ≠ []) s
      (copyListed k.root k.target (pathLimit - 1) [] k.root) := by
    have hshort : (k.root.joinAll []).text.utf8ByteSize < pathLimit :=
      utf8ByteSize_lt_of_routeOf hopened
    refine lays_listed (by simp) hready (by simpa using hroot) hshort ?_
    intro name kind hname u hu hthere
    refine lays_visit (by decide) (by simpa using hname) ?_ hu hthere
    have hpos : 0 < k.root.text.utf8ByteSize :=
      Nat.pos_of_ne_zero (mt String.utf8ByteSize_eq_zero_iff.1 (ne_empty_of_routeOf hopened))
    have hlonger : _ < (k.root.joinAll ([] ++ [name])).text.utf8ByteSize :=
      k.root.utf8ByteSize_lt_join hname.isPart
    rw [pathLimit]
    omega
  have hcopy := hbelow.congr (hplaced.copyTree_eq hkind)
  simpa using hcopy

end Placed

end WitnessReplay.Benchmark
