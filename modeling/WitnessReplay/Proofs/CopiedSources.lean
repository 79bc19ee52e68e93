import WitnessReplay.Benchmark.EntryPoint
import WitnessReplay.Proofs.MergedCopy

/-!
# The sources of a merged copy

The Kotlin files in which the entry point is looked for are found by a second walk through
the directories of the program. They are those that the copy has put into the working
directory and that some directory does not have as a link; what was there before is not among
them.
-/

namespace WitnessReplay.Benchmark

open Files FileSystem Source List

variable {fs fs' : FileSystem} {roots : List Path} {root target p : Path} {ρ τ r : Route}
  {extension : String}

def HasExtension (r : Route) (extension : String) : Prop :=
  (r.getLast?.bind fun name => Path.extension? ⟨name⟩) = some extension

instance (r : Route) (extension : String) : Decidable (HasExtension r extension) :=
  inferInstanceAs (Decidable (_ = _))

/-- Whether one of the directories has a Kotlin file at a route that is no link. -/
def IsSearched (fs : FileSystem) (roots : List Path) (r : Route) : Prop :=
  HasExtension r Language.kotlin.extension ∧ ∃ root ∈ roots,
    fs.file? (root.route fs.home ++ r) ≠ none ∧ fs.isLink (root.route fs.home ++ r) = false

theorem merged?_ne_none_iff : merged? fs roots r ≠ none ↔
    ∃ root ∈ roots, fs.file? (root.route fs.home ++ r) ≠ none := by
  induction roots with
  | nil => simp [merged?, mergedFile?, layers, lastFile?]
  | cons root rest ih =>
    simp only [mem_cons, exists_eq_or_imp]
    rw [← ih, merged?_cons, Ne, Option.or_eq_none_iff, Classical.not_and_iff_not_or_not, or_comm]

theorem IsSearched.merged?_ne_none (h : IsSearched fs roots r) : merged? fs roots r ≠ none := by
  obtain ⟨-, root, hroot, hfile, -⟩ := h
  exact merged?_ne_none_iff.2 ⟨root, hroot, hfile⟩

theorem IsSearched.isName (h : IsSearched fs roots r) : ∀ name ∈ r, IsName name := by
  obtain ⟨-, root, -, hfile, -⟩ := h
  obtain ⟨content, hcontent⟩ := Option.ne_none_iff_exists'.1 hfile
  have hget : fs.get? (root.route fs.home ++ r) ≠ none := by
    simp [file?_eq_some_iff.1 hcontent]
  intro name hname
  exact isName_of_get? hget name (mem_append_right _ hname)

theorem kind_eq_file_iff : (fs.status? r).map Status.kind = some .file ↔
    fs.file? r ≠ none ∧ fs.isLink r = false := by
  rw [← map_file?, FileSystem.isLink]
  cases fs.status? r with
  | none => simp
  | some s =>
    rcases s with ⟨_ | _, _, _⟩ | ⟨_ | _⟩ | _ <;>
      simp [Status.kind, Status.linked, Status.targetKind, Status.file?]

theorem sees_file_iff (h : ∀ t, t ≠ [] → fs.get? (ρ ++ t) = some .directory →
      fs.isLink (ρ ++ t) = false) :
    fs.Sees ρ r .file ↔ fs.file? (ρ ++ r) ≠ none ∧ fs.isLink (ρ ++ r) = false := by
  rw [← kind_eq_file_iff]
  refine ⟨Sees.kind, fun hkind => ⟨?_, hkind⟩⟩
  rintro front ⟨back, rfl⟩ hne hne'
  cases back with
  | nil => exact absurd (append_nil front).symm hne'
  | cons name back =>
    refine h front hne ?_
    have hthere : fs.status? (ρ ++ front ++ name :: back) ≠ none := by
      intro hnone
      rw [← append_assoc, hnone] at hkind
      cases hkind
    exact get?_eq_directory_of_status? hthere

/-- The routes that a walk through a directory finds are those of the files that it sees with
the extension. -/
theorem mem_relative_iff {visits : List Visit} (h : fs.sources root extension = .ok visits)
    (hroot : fs.routeOf root = .ok ρ) (hdir : fs.get? ρ = some .directory) :
    r ∈ visits.map (·.relative) ↔ HasExtension r extension ∧ fs.Sees ρ r .file := by
  obtain ⟨s, hs, rfl⟩ := sources_eq_ok h
  obtain ⟨hroute, hat⟩ := locate_eq_ok hs
  obtain rfl : s.route = ρ := Except.ok.inj (hroute.symm.trans hroot)
  have hnil : ¬fs.Sees s.route [] .file := by
    intro hsees
    obtain ⟨content, hfile⟩ := hsees.exists_file
    rw [append_nil, hdir] at hfile
    cases hfile
  have hextension (hne : r ≠ []) (hsees : fs.Sees s.route r .file) :
      (root.joinAll r).extension? = some extension ↔ HasExtension r extension := by
    obtain ⟨content, hfile⟩ := hsees.exists_file
    have hthere : fs.get? (s.route ++ r) ≠ none := by simp [hfile]
    rcases eq_nil_or_concat r with rfl | ⟨front, name, rfl⟩
    · exact absurd rfl hne
    · rw [concat_eq_append] at hthere ⊢
      have hname : IsName name := isName_of_get? hthere name (by simp)
      rw [root.joinAll_concat, Path.extension?_join _ hname.isPart, HasExtension, getLast?_concat]
      rfl
  rw [mem_map]
  constructor
  · rintro ⟨v, hv, rfl⟩
    obtain ⟨hv, hsource⟩ := mem_filter.1 hv
    simp only [Visit.isSource, Bool.and_eq_true, decide_eq_true_eq, beq_iff_eq] at hsource
    rcases (mem_visits_iff hat).1 hv with rfl | ⟨t, k, hne, hsees, rfl⟩
    · exact absurd ((sees_nil_iff hroute hat).1 hsource.1) hnil
    · obtain rfl : k = .file := hsource.1
      exact ⟨(hextension hne hsees).1 hsource.2, hsees⟩
  · rintro ⟨hext, hsees⟩
    have hne : r ≠ [] := by
      rintro rfl
      exact hnil hsees
    refine ⟨⟨r, root.joinAll r, .file⟩, mem_filter.2 ⟨?_, ?_⟩, rfl⟩
    · exact (mem_visits_iff hat).2 (.inr ⟨r, .file, hne, hsees, rfl⟩)
    · simp [Visit.isSource, (hextension hne hsees).2 hext]

theorem exists_kotlinRoutes
    (hroots : ∀ root ∈ roots, fs.kindOf root = .ok .directory ∧ fs.CanBeWalked root) :
    ∃ routes, kotlinRoutes fs roots = .ok routes ∧
      ∀ r, r ∈ routes ↔ HasExtension r Language.kotlin.extension ∧
        ∃ root ∈ roots, fs.Sees (root.route fs.home) r .file := by
  induction roots with
  | nil => exact ⟨[], rfl, by simp⟩
  | cons root rest ih =>
    obtain ⟨⟨hkind, hwalk⟩, hrest⟩ := forall_mem_cons.1 hroots
    obtain ⟨routes, hroutes, hmem⟩ := ih hrest
    obtain ⟨visits, hvisits⟩ :
        ∃ visits, fs.sources root Language.kotlin.extension = .ok visits :=
      exists_sources_iff.2 hwalk
    obtain ⟨ρ, hρ, hρdir, -⟩ := kindOf_eq_directory_iff.1 hkind
    refine ⟨visits.map (·.relative) ++ routes, ?_, ?_⟩
    · rw [kotlinRoutes, hvisits, hroutes]
      rfl
    · intro r
      rw [mem_append, mem_relative_iff hvisits hρ hρdir, hmem, ← and_or_left]
      simp [route_of_routeOf hρ]

theorem nodup_eraseDups {α : Type} [BEq α] [LawfulBEq α] (xs : List α) : xs.eraseDups.Nodup := by
  induction hn : xs.length using Nat.strongRecOn generalizing xs with
  | ind n ih =>
    cases xs with
    | nil => exact nodup_nil
    | cons x rest =>
      rw [eraseDups_cons, nodup_cons]
      constructor
      · simp [mem_eraseDups]
      · have hle := length_filter_le (fun b => !b == x) rest
        exact ih _ (by simp only [length_cons] at hn; omega) _ rfl

/-- The files that are searched are the Kotlin files that the copy has put into the working
directory, unless they are links in all directories. -/
theorem exists_copiedSources (hapart : ∀ root ∈ roots, Path.Apart fs.home root target)
    (hcopy : MergedCopy roots target τ fs fs') :
    ∃ routes : List Route, copiedSources fs' roots target = .ok (routes.map target.joinAll) ∧
      routes.Nodup ∧ ∀ r, r ∈ routes ↔ IsSearched fs roots r := by
  obtain ⟨found, hfound, hmem⟩ := exists_kotlinRoutes hcopy.walked
  have hsearched (r : Route) : r ∈ found ↔ IsSearched fs roots r := by
    rw [hmem, IsSearched]
    refine and_congr_right fun _ => exists_congr fun root => and_congr_right fun hroot => ?_
    have hsame : fs'.file? (root.route fs.home ++ r) = fs.file? (root.route fs.home ++ r) :=
      hcopy.outside _ (hcopy.route ▸ (hapart root hroot).not_prefix_append r)
    rw [hcopy.home, sees_file_iff (hcopy.unlinked root hroot), hsame, hcopy.isLink]
  let routes := found.eraseDups.mergeSort fun a b => !b.lex a
  have hroutes (r : Route) : r ∈ routes ↔ r ∈ found := by
    rw [mem_mergeSort, mem_eraseDups]
  refine ⟨routes, ?_, ?_, fun r => (hroutes r).trans (hsearched r)⟩
  · rw [copiedSources, hfound]
    refine congrArg Except.ok (map_congr_left fun r hr => ?_)
    have hr := (hsearched r).1 ((hroutes r).1 hr)
    have hne : r ≠ [] := by
      rintro rfl
      cases hr.1
    exact target.join_intercalate hne (isPart_of_isName hr.isName)
  · exact (mergeSort_perm _ _).nodup_iff.2 (nodup_eraseDups found)

/-- A Kotlin file that is searched at a route of the working directory, with its text in the
copy and its outline. -/
structure KotlinSource (fs : FileSystem) (roots : List Path) (target : Path) (r : Route)
    (source : String) (outline : Outline) : Prop where
  searched : IsSearched fs roots r
  content : merged? fs roots r = some source.toUTF8
  parsed : parse .kotlin source (target.joinAll r).text = .ok outline

/-- A top-level `main` that is the only one in the Kotlin files that are searched, and that is
in no package. -/
structure OnlyMain (fs : FileSystem) (roots : List Path) (target : Path) (r : Route)
    (source : String) (outline : Outline) (main : Function) : Prop where
  source : KotlinSource fs roots target r source outline
  only : mains outline = [main]
  package : outline.package = none
  others : ∀ r' source' outline', KotlinSource fs roots target r' source' outline' → r' ≠ r →
    mains outline' = []

def entryPointOf (path : Path) (source : String) (outline : Outline) (main : Function) :
    EntryPoint :=
  { path, source, package := outline.package, main }

theorem entryPointsIn_eq_ok_iff {found : List EntryPoint} : entryPointsIn fs p = .ok found ↔
    ∃ source outline, fs.readText p = .ok source ∧ parse .kotlin source p.text = .ok outline ∧
      found = (mains outline).map (entryPointOf p source outline) := by
  rw [entryPointsIn]
  cases fs.readText p with
  | error cause => simp
  | ok source =>
    cases hparse : parse .kotlin source p.text with
    | error e => simp [hparse]
    | ok outline =>
      simp only [hparse]
      constructor
      · intro h
        cases h
        exact ⟨source, outline, rfl, hparse, rfl⟩
      · rintro ⟨source', outline', hsource, houtline, rfl⟩
        cases hsource
        cases hparse.symm.trans houtline
        rfl

theorem entryPoints_eq_nil_iff {paths : List Path} :
    entryPoints fs paths = .ok [] ↔ ∀ p ∈ paths, entryPointsIn fs p = .ok [] := by
  induction paths with
  | nil => simp [entryPoints]
  | cons path rest ih =>
    rw [forall_mem_cons, ← ih, entryPoints]
    constructor
    · intro h
      obtain ⟨found, hfound, h⟩ := bind_eq_ok_iff.1 h
      obtain ⟨others, hothers, h⟩ := bind_eq_ok_iff.1 h
      obtain ⟨rfl, rfl⟩ := append_eq_nil_iff.1 (Except.ok.inj h)
      exact ⟨hfound, hothers⟩
    · rintro ⟨hfound, hothers⟩
      rw [hfound, hothers]
      rfl

/-- One entry point is found in files if it is the only one in one of them and the others have
none. -/
theorem entryPoints_eq_singleton_iff {paths : List Path} (hnodup : paths.Nodup) {e : EntryPoint} :
    entryPoints fs paths = .ok [e] ↔
      ∃ p ∈ paths, entryPointsIn fs p = .ok [e] ∧ ∀ q ∈ paths, q ≠ p →
        entryPointsIn fs q = .ok [] := by
  induction paths with
  | nil => simp [entryPoints]
  | cons path rest ih =>
    obtain ⟨hpath, hrest⟩ := nodup_cons.1 hnodup
    have hsplit : entryPoints fs (path :: rest) = .ok [e] ↔
        entryPointsIn fs path = .ok [e] ∧ entryPoints fs rest = .ok [] ∨
          entryPointsIn fs path = .ok [] ∧ entryPoints fs rest = .ok [e] := by
      rw [entryPoints]
      constructor
      · intro h
        obtain ⟨found, hfound, h⟩ := bind_eq_ok_iff.1 h
        obtain ⟨others, hothers, h⟩ := bind_eq_ok_iff.1 h
        rcases append_eq_singleton_iff.1 (Except.ok.inj h) with ⟨rfl, rfl⟩ | ⟨rfl, rfl⟩
        · exact .inr ⟨hfound, hothers⟩
        · exact .inl ⟨hfound, hothers⟩
      · rintro (⟨hfound, hothers⟩ | ⟨hfound, hothers⟩)
        · rw [hfound, hothers]
          rfl
        · rw [hfound, hothers]
          rfl
    rw [hsplit, ih hrest, entryPoints_eq_nil_iff]
    constructor
    · rintro (⟨hfound, hothers⟩ | ⟨hfound, p, hp, hone, hothers⟩)
      · refine ⟨path, mem_cons_self, hfound, fun q hq hne => ?_⟩
        exact hothers q ((mem_cons.1 hq).resolve_left hne)
      · refine ⟨p, mem_cons_of_mem path hp, hone, fun q hq hne => ?_⟩
        rcases mem_cons.1 hq with rfl | hq
        · exact hfound
        · exact hothers q hq hne
    · rintro ⟨p, hp, hone, hothers⟩
      rcases mem_cons.1 hp with rfl | hp
      · refine .inl ⟨hone, fun q hq => hothers q (mem_cons_of_mem p hq) ?_⟩
        rintro rfl
        exact hpath hq
      · refine .inr ⟨hothers path mem_cons_self ?_, p, hp, hone, fun q hq => ?_⟩
        · rintro rfl
          exact hpath hp
        · exact hothers q (mem_cons_of_mem path hq)

theorem entryPoint_eq_ok_iff {paths : List Path} {e : EntryPoint} :
    entryPoint fs paths = .ok e ↔ entryPoints fs paths = .ok [e] ∧ e.package = none := by
  rw [entryPoint, bind_eq_ok_iff]
  constructor
  · rintro ⟨found, hfound, h⟩
    split at h
    · split at h
      · cases h
        exact ⟨hfound, by assumption⟩
      · cases h
    · cases h
  · rintro ⟨hfound, hpackage⟩
    refine ⟨[e], hfound, ?_⟩
    simp only [hpackage]
    rfl

theorem KotlinSource.unique {source source' : String} {outline outline' : Outline}
    (h : KotlinSource fs roots target r source outline)
    (h' : KotlinSource fs roots target r source' outline') :
    source = source' ∧ outline = outline' := by
  obtain rfl : source = source' := by
    have hbytes := Option.some.inj (h.content.symm.trans h'.content)
    exact Option.some.inj
      ((fromUTF8?_eq_some_iff.2 rfl).symm.trans (fromUTF8?_eq_some_iff.2 hbytes))
  exact ⟨rfl, Except.ok.inj (h.parsed.symm.trans h'.parsed)⟩

/-- The entry points that are found at the place of a copied Kotlin file are those in its
text. -/
theorem entryPointsIn_place_iff (hcopy : MergedCopy roots target τ fs fs')
    (hr : IsSearched fs roots r) {found : List EntryPoint} :
    entryPointsIn fs' (target.joinAll r) = .ok found ↔
      ∃ source outline, KotlinSource fs roots target r source outline ∧
        found = (mains outline).map (entryPointOf (target.joinAll r) source outline) := by
  have hthere := hr.merged?_ne_none
  obtain ⟨content, hcontent⟩ := Option.ne_none_iff_exists'.1 hthere
  obtain ⟨⟨access, _⟩, hmerged, rfl⟩ := Option.map_eq_some_iff.1 hcontent
  have hfile := hcopy.inside r
  rw [hcontent, Option.some_or] at hfile
  obtain ⟨rfl, hreadable⟩ := hcopy.access r _ _ hmerged
  have hread := read_eq_ok_iff.2 ⟨τ ++ r, hcopy.placed r hthere, file?_eq_some_iff.1 hfile,
    hreadable⟩
  rw [entryPointsIn_eq_ok_iff]
  constructor
  · rintro ⟨source, outline, htext, hparse, rfl⟩
    obtain ⟨content', hread', htext⟩ := readText_eq_ok_iff.1 htext
    cases hread.symm.trans hread'
    have hbytes := fromUTF8?_eq_some_iff.1 htext
    exact ⟨source, outline, ⟨hr, hcontent.trans (congrArg some hbytes), hparse⟩, rfl⟩
  · rintro ⟨source, outline, h, rfl⟩
    have hbytes := Option.some.inj (hcontent.symm.trans h.content)
    exact ⟨source, outline, readText_eq_ok_iff.2 ⟨_, hread, fromUTF8?_eq_some_iff.2 hbytes⟩,
      h.parsed, rfl⟩

theorem joinAll_injective {r' : Route} (hr : ∀ name ∈ r, IsPart name)
    (hr' : ∀ name ∈ r', IsPart name) (h : target.joinAll r = target.joinAll r') : r = r' := by
  have hroute := congrArg (Path.route []) h
  rw [target.route_joinAll _ hr, target.route_joinAll _ hr'] at hroute
  exact append_cancel_left hroute

/-- The entry point that is found in the files of a copy is the only one there. -/
theorem entryPoint_of_mergedCopy (hcopy : MergedCopy roots target τ fs fs') {routes : List Route}
    (hnodup : routes.Nodup) (hroutes : ∀ r, r ∈ routes ↔ IsSearched fs roots r) {e : EntryPoint} :
    entryPoint fs' (routes.map target.joinAll) = .ok e ↔
      (∀ r, IsSearched fs roots r →
        ∃ source outline, KotlinSource fs roots target r source outline) ∧
      ∃ r source outline main, OnlyMain fs roots target r source outline main ∧
        e = entryPointOf (target.joinAll r) source outline main := by
  -- no two routes lead to one place, so that each file is searched once
  have hinjective {r r' : Route} (hr : r ∈ routes) (hr' : r' ∈ routes)
      (h : target.joinAll r = target.joinAll r') : r = r' :=
    joinAll_injective (isPart_of_isName ((hroutes r).1 hr).isName)
      (isPart_of_isName ((hroutes r').1 hr').isName) h
  have hfound {r : Route} (hr : r ∈ routes) {found : List EntryPoint} :
      entryPointsIn fs' (target.joinAll r) = .ok found ↔ _ :=
    entryPointsIn_place_iff hcopy ((hroutes r).1 hr)
  have hpaths : (routes.map target.joinAll).Nodup :=
    pairwise_map.2 (hnodup.imp_of_mem fun hr hr' hne heq => hne (hinjective hr hr' heq))
  rw [entryPoint_eq_ok_iff, entryPoints_eq_singleton_iff hpaths]
  constructor
  · rintro ⟨⟨p, hp, hone, hothers⟩, hpackage⟩
    obtain ⟨r, hr, rfl⟩ := mem_map.1 hp
    have hnone {r' : Route} (hr' : r' ∈ routes) (hne : r' ≠ r) :
        entryPointsIn fs' (target.joinAll r') = .ok [] :=
      hothers _ (mem_map_of_mem hr') fun heq => hne (hinjective hr' hr heq)
    obtain ⟨source, outline, hsource, hmains⟩ := (hfound hr).1 hone
    obtain ⟨main, hmain, rfl⟩ := map_eq_singleton_iff.1 hmains.symm
    refine ⟨?_, r, source, outline, main, ⟨hsource, hmain, hpackage, ?_⟩, rfl⟩
    · intro r' hsearched
      have hr' := (hroutes r').2 hsearched
      by_cases heq : r' = r
      · exact heq ▸ ⟨source, outline, hsource⟩
      · obtain ⟨source', outline', hsource', -⟩ := (hfound hr').1 (hnone hr' heq)
        exact ⟨source', outline', hsource'⟩
    · intro r' source' outline' hsource' hne
      have hr' := (hroutes r').2 hsource'.searched
      obtain ⟨source'', outline'', hsource'', hmains''⟩ := (hfound hr').1 (hnone hr' hne)
      obtain ⟨-, rfl⟩ := hsource'.unique hsource''
      exact map_eq_nil_iff.1 hmains''.symm
  · rintro ⟨hall, r, source, outline, main, honly, rfl⟩
    have hr := (hroutes r).2 honly.source.searched
    have hone := (hfound hr).2 ⟨source, outline, honly.source, rfl⟩
    rw [honly.only] at hone
    refine ⟨⟨_, mem_map_of_mem hr, hone, ?_⟩, honly.package⟩
    intro q hq hne
    obtain ⟨r', hr', rfl⟩ := mem_map.1 hq
    obtain ⟨source', outline', hsource'⟩ := hall r' ((hroutes r').1 hr')
    refine (hfound hr').2 ⟨source', outline', hsource', ?_⟩
    rw [honly.others r' source' outline' hsource' fun heq => hne (heq ▸ rfl)]
    rfl

end WitnessReplay.Benchmark
