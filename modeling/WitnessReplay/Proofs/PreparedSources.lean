import WitnessReplay.Benchmark.EntryPoint
import WitnessReplay.Proofs.ImportNames
import WitnessReplay.Proofs.MergedCopy
import WitnessReplay.Proofs.ProgramFiles

/-!
# The prepared sources of a Java program

The files in which sites are looked up lie below the directories of the program, and each has a
place in the working directory. The place holds the text that was looked at, unless a directory
that comes later has a file there too: the lookup takes the file of one directory, and the copy
that of the last one.
-/

namespace WitnessReplay.Files

open List

variable {p q root : Path} {t t' : Route}

namespace Path

theorem empty_join (q : Path) : join ⟨""⟩ q = q := by
  rw [join]
  split
  · rfl
  · rw [if_pos (.inl rfl), String.empty_append]

theorem join_ofParts (p : Path) (hne : t ≠ []) (ht : ∀ name ∈ t, IsPart name) :
    p.join (ofParts t) = p.joinAll t := by
  rw [ofParts, ← join_intercalate _ hne ht, empty_join, join_intercalate p hne ht]

def LiesBelow (p root : Path) (t : Route) : Prop :=
  p = root.joinAll t ∧ ∀ name ∈ t, IsPart name

theorem LiesBelow.trans (h : p.LiesBelow root t) (h' : q.LiesBelow p t') :
    q.LiesBelow root (t ++ t') := by
  obtain ⟨rfl, ht⟩ := h
  obtain ⟨rfl, ht'⟩ := h'
  refine ⟨(root.joinAll_append t t').symm, fun name hname => ?_⟩
  rcases mem_append.1 hname with hname | hname
  · exact ht name hname
  · exact ht' name hname

end Path

theorem FileSystem.HasSource.liesBelow {fs : FileSystem} {extension : String}
    (h : fs.HasSource root extension p) :
    ∃ t, p.LiesBelow root t := by
  obtain ⟨r, t, -, hsees, rfl, -⟩ := h
  obtain ⟨content, hfile⟩ := hsees.exists_file
  have hthere : fs.get? (r ++ t) ≠ none := by simp [hfile]
  refine ⟨t, rfl, fun name hname => ?_⟩
  exact (isName_of_get? hthere name (mem_append_right r hname)).isPart

end WitnessReplay.Files

namespace WitnessReplay.Benchmark

open Files FileSystem Source Witness List

namespace Lookup

variable {l : Lookup} {p q : Path} {i : Import} {segments : List String}

theorem isPart_append {name ending : String} (hname : IsPlainName name)
    (hending : '/' ∉ ending.toList) :
    IsPart (name ++ ending) := by
  obtain ⟨hne, hpoint, hslash⟩ := hname
  obtain ⟨c, cs, hcs⟩ := exists_cons_of_ne_nil (mt String.toList_eq_nil_iff.1 hne)
  have hhead (text : String) (htext : name ++ ending = text) : text.toList.head? = some c := by
    rw [← htext, String.toList_append, hcs]
    rfl
  have hc : c ≠ '.' := by
    rintro rfl
    exact hpoint (hcs ▸ mem_cons_self)
  refine ⟨?_, by simp [hslash, hending]⟩
  rw [Path.component?, if_neg, if_neg]
  · intro htext
    exact hc (Option.some.inj (hhead _ htext)).symm
  · rintro (htext | htext)
    · cases hhead _ htext
    · exact hc (Option.some.inj (hhead _ htext)).symm

theorem isPart_of_isPlainName {name : String} (h : IsPlainName name) : IsPart name := by
  have hpart : IsPart (name ++ "") := isPart_append h (by simp)
  rwa [String.append_empty] at hpart

def IsLocal (l : Lookup) (p : Path) : Prop :=
  ∃ root ∈ l.roots.all, ∃ t, p.LiesBelow root t

theorem isLocal_of_sourcesBelow {directory : Path} {found : List Path}
    (hdirectory : l.IsLocal directory)
    (h : l.sourcesBelow directory = .ok found) (hq : q ∈ found) : l.IsLocal q := by
  obtain ⟨s, hs, rfl⟩ := sourcesBelow_eq_ok h
  obtain ⟨t', hbelow⟩ := ((mem_sourceVisits_iff hs).1 hq).liesBelow
  obtain ⟨root, hroot, t, ht⟩ := hdirectory
  exact ⟨root, hroot, t ++ t', ht.trans hbelow⟩

theorem isLocal_of_benchmarkSources (h : q ∈ l.benchmarkSources) : l.IsLocal q := by
  obtain ⟨t, ht⟩ := (mem_benchmarkSources_iff.1 h).liesBelow
  exact ⟨l.roots.benchmark, mem_cons_self, t, ht⟩

theorem isLocal_of_typeCandidates (hsegments : ∀ segment ∈ segments, IsPlainName segment)
    (h : q ∈ l.typeCandidates l.benchmarkSources segments) : l.IsLocal q := by
  unfold typeCandidates at h
  split at h
  · cases h
  · rename_i relative hrelative
    split at h
    · obtain ⟨root, hroot, rfl⟩ := mem_map.1 (mem_filter.1 h).1
      obtain ⟨last, hlast, rfl⟩ := Option.map_eq_some_iff.1 hrelative
      have hfile : IsPart s!"{last}.{l.language.extension}" := by
        rw [show s!"{last}.{l.language.extension}" =
          last ++ ("." ++ l.language.extension) from String.append_assoc ..]
        exact isPart_append (hsegments last (mem_of_getLast? hlast))
          (by cases l.language <;> decide)
      have hparts : ∀ name ∈ segments.dropLast ++ [s!"{last}.{l.language.extension}"],
          IsPart name := by
        intro name hname
        rcases mem_append.1 hname with hname | hname
        · exact isPart_of_isPlainName (hsegments name (dropLast_subset _ hname))
        · exact mem_singleton.1 hname ▸ hfile
      refine ⟨root, mem_cons_of_mem _ hroot, _, ?_, hparts⟩
      rw [← root.join_ofParts (by simp) hparts]
      exact congrArg root.join (Path.joinAll_concat ..).symm
    · exact isLocal_of_benchmarkSources (mem_filter.1 h).1

theorem mem_foldl_addNew {paths found : List Path} (h : p ∈ paths.foldl addNew found) :
    p ∈ found ∨ p ∈ paths := by
  induction paths generalizing found with
  | nil => exact .inl h
  | cons path rest ih =>
    rcases ih h with h | h
    · rw [addNew] at h
      split at h
      · exact .inl h
      · rcases mem_append.1 h with h | h
        · exact .inl h
        · exact .inr (mem_singleton.1 h ▸ mem_cons_self)
    · exact .inr (mem_cons_of_mem path h)

theorem isLocal_of_packageCandidates (hne : segments ≠ [])
    (hsegments : ∀ segment ∈ segments, IsPlainName segment)
    (h : q ∈ l.packageCandidates segments) : l.IsLocal q := by
  rcases mem_foldl_addNew h with h | h
  · cases h
  · rcases mem_append.1 h with h | h
    · obtain ⟨root, hroot, rfl⟩ := mem_map.1 (mem_filter.1 h).1
      have hparts (segment : String) (hsegment : segment ∈ segments) :=
        isPart_of_isPlainName (hsegments segment hsegment)
      exact ⟨root, hroot, segments, root.join_ofParts hne hparts, hparts⟩
    · exact ⟨q, mem_cons_of_mem _ (mem_filter.1 h).1, [], rfl, by simp⟩

theorem isLocal_of_importedFiles (hjava : l.language = .java)
    (hsegments : ∀ segment ∈ i.segments, IsPlainName segment) {found : List Path}
    (h : l.importedFiles l.benchmarkSources p i = .ok found) (hq : q ∈ found) : l.IsLocal q := by
  unfold importedFiles at h
  split at h
  · cases h
    cases hq
  · split at h
    · unfold packageFiles at h
      split at h
      · rename_i directory hunique
        have hne : i.segments ≠ [] := by
          simpa [Import.segments, Text.split] using Text.splitAt_ne_nil _ _
        exact isLocal_of_sourcesBelow
          (isLocal_of_packageCandidates hne hsegments (mem_of_unique? hunique)) h hq
      · cases h
      · cases h
    · simp only [] at h
      split at h
      · rename_i declaration hunique
        cases h
        cases mem_singleton.1 hq
        refine isLocal_of_typeCandidates (fun segment hsegment =>
          hsegments segment ?_) (mem_of_unique? hunique)
        rw [typeSegments] at hsegment
        split at hsegment
        · exact dropLast_subset _ hsegment
        · exact hsegment
      · -- only Kotlin would look for a member of a package
        have hmembers : l.rules.importsMembers = false := by rw [rules, hjava]; rfl
        rw [hmembers] at h
        cases h
      · cases h

theorem Closure.isLocal (hjava : l.language = .java) (h : l.Closure p) : l.IsLocal p := by
  cases h with
  | source h =>
    obtain ⟨t, ht⟩ := h.liesBelow
    exact ⟨l.roots.benchmark, mem_cons_self, t, ht⟩
  | imported hp hprovider htext houtline hi hfound hq =>
    rw [hjava] at houtline
    exact isLocal_of_importedFiles hjava (Java.isPlainName_of_import houtline hi) hfound hq

theorem Finds.isProgram {log : List Path} {sites : SiteMap} (h : l.Finds log (.ok sites)) :
    ∃ parsed, l.IsProgram log parsed ∧ sites = collectSites parsed := by
  cases h with
  | all hdir hlist hs hstep =>
    obtain rfl := sourcesBelow_benchmark hlist
    exact ⟨_, isProgram_of_explored hs.explored (Exploration.pending_eq_nil_of_step hstep), rfl⟩

theorem IsProgram.exists_text {log : List Path} {parsed : List SourceFile}
    (h : l.IsProgram log parsed) (hp : p ∈ log) :
    ∃ text, l.files.readText p = .ok text := by
  have hfile := mem_map_of_mem (f := fun p =>
    (l.outline p).map (SourceFile.mk (fileIdentifier p.text))) hp
  rw [h.files] at hfile
  obtain ⟨file, -, hok⟩ := mem_map.1 hfile
  obtain ⟨outline, houtline, -⟩ := map_eq_ok_iff.1 hok.symm
  obtain ⟨text, htext, -⟩ := outline_eq_ok_iff.1 houtline
  exact ⟨text, htext⟩

end Lookup

section Prepared

variable {roots before after : List Path} {root target p : Path} {τ t : Route}
    {fs fs' files : FileSystem}

theorem merged?_append (fs : FileSystem) (before after : List Path) (r : Route) :
    merged? fs (before ++ after) r = (merged? fs after r).or (merged? fs before r) := by
  induction before with
  | nil => exact (Option.or_none).symm
  | cons root before ih =>
    rw [cons_append, merged?_cons, merged?_cons, ih, Option.or_assoc]

/-- A file below a directory of the program is copied to its place, unless a later directory
has a file there. -/
theorem file?_of_liesBelow (hapart : ∀ root ∈ roots, Path.Apart fs.home root target)
    (hcopy : MergedCopy roots target τ fs fs') (hfiles : files = fs ∨ files = fs')
    {text : String} (htext : files.readText p = .ok text)
    (hroots : roots = before ++ root :: after) (hbelow : p.LiesBelow root t) :
    fs'.file? (τ ++ t) = (merged? fs after t).or (some text.toUTF8) := by
  obtain ⟨content, hread, hutf⟩ := readText_eq_ok_iff.1 htext
  obtain rfl := fromUTF8?_eq_some_iff.1 hutf
  obtain ⟨r, hr, hfile, -⟩ := read_eq_ok_iff.1 hread
  obtain ⟨rfl, ht⟩ := hbelow
  have hroot : root ∈ roots := by simp [hroots]
  have hhome : files.home = fs.home := by
    rcases hfiles with rfl | rfl
    · rfl
    · exact hcopy.home
  obtain rfl : root.route fs.home ++ t = r := by
    rw [← route_of_routeOf hr, hhome, root.route_joinAll _ ht]
  have hsource : fs.file? (root.route fs.home ++ t) = some text.toUTF8 := by
    rcases hfiles with rfl | rfl
    · exact file?_eq_some_iff.2 hfile
    · -- the copy has left the directory as it was
      rw [← hcopy.outside _ (hcopy.route ▸ (hapart root hroot).not_prefix_append t)]
      exact file?_eq_some_iff.2 hfile
  rw [hcopy.inside, hroots, merged?_append, merged?_cons, hsource]
  cases merged? fs after t <;> rfl

theorem copyAll_of_prepare_java (h : prepare .java roots target fs = (.ok (), fs')) :
    copyAll roots target fs = (.ok (), fs') := by
  have hbind : (copyAll roots target >>= fun _ => pure ()) fs = (.ok (), fs') := h
  obtain ⟨_, copy, hcopy, hend⟩ := exceptT_bind_eq_ok_iff.1 hbind
  cases hend
  exact hcopy

end Prepared

/-- **The text that is looked at and the text that is prepared.** When a Java program has been
prepared in a working directory apart from its directories, and its sites have been found,
before or after that, the sites are those of the files that were read, and each of these lies
below a directory of the program. At its place in the working directory there is the text that
was read, unless directories that come later have files at that place; then there is the
content of the last of them. -/
theorem prepared_of_sites {roots : Roots} {target : Path} {fs fs' files : FileSystem}
    {sites : SiteMap}
    (hapart : ∀ root ∈ roots.all, Path.Apart fs.home root target)
    (hprepare : prepare .java roots.all target fs = (.ok (), fs'))
    (hfiles : files = fs ∨ files = fs') (hsites : (Lookup.mk .java roots files).sites = .ok sites) :
    (∃ log, (Lookup.mk .java roots files).Finds log (.ok sites)) ∧
    ∃ τ, target.route fs.home = τ ∧ ∀ log, (Lookup.mk .java roots files).Finds log (.ok sites) →
      (∃ parsed, (Lookup.mk .java roots files).IsProgram log parsed ∧ sites = collectSites parsed) ∧
      ∀ p ∈ log, ∃ text, files.readText p = .ok text ∧
        (∃ root ∈ roots.all, ∃ t, p.LiesBelow root t) ∧
          ∀ before root after t, roots.all = before ++ root :: after → p.LiesBelow root t →
            fs'.file? (τ ++ t) = (merged? fs after t).or (some text.toUTF8) := by
  obtain ⟨τ, hcopy⟩ := exists_mergedCopy hapart (copyAll_of_prepare_java hprepare)
  obtain ⟨log, hfinds⟩ := (Lookup.mk .java roots files).exists_finds
  refine ⟨⟨log, hsites ▸ hfinds⟩, τ, hcopy.route, ?_⟩
  intro log hfinds
  obtain ⟨parsed, hprogram, hcollected⟩ := hfinds.isProgram
  refine ⟨⟨parsed, hprogram, hcollected⟩, fun p hp => ?_⟩
  obtain ⟨text, htext⟩ := hprogram.exists_text hp
  refine ⟨text, htext, (hprogram.sound p hp).1.isLocal rfl, ?_⟩
  intro before root after t hroots hbelow
  exact file?_of_liesBelow hapart hcopy hfiles htext hroots hbelow

def emptyClass (name : String) : String := "class " ++ name ++ " \x7b\x7d\n"

def overlaid : FileSystem :=
  (((FileSystem.empty.put ["bench"] .directory).put ["bench",
    "Main.java"] (.file (emptyClass "A").toUTF8)).put
    ["pkg"] .directory).put ["pkg", "Main.java"] (.file (emptyClass "B").toUTF8)

def overlaidLookup : Lookup :=
  ⟨.java, ⟨⟨"bench"⟩, [⟨"pkg"⟩]⟩, overlaid⟩

theorem eq_of_sees_overlaid {t : Route} {k : Kind} (h : overlaid.Sees ["bench"] t k) :
    t = [] ∧ k = .directory ∨ t = ["Main.java"] ∧ k = .file := by
  have hall : overlaid.root.all = [(["bench"], .directory false),
      (["bench", "Main.java"], .file false {} (emptyClass "A").toUTF8),
      (["pkg"], .directory false),
      (["pkg", "Main.java"], .file false {} (emptyClass "B").toUTF8)] := by rfl
  obtain ⟨s, hs, rfl⟩ := Option.map_eq_some_iff.1 h.kind
  have hmem := (Directory.mem_all_iff overlaid.sorted).2 ⟨by simp, hs⟩
  rw [hall] at hmem
  have hcases : t = [] ∧ s = .directory false ∨
      t = ["Main.java"] ∧ s = .file false {} (emptyClass "A").toUTF8 := by
    simpa using hmem
  rcases hcases with ⟨ht, rfl⟩ | ⟨ht, rfl⟩
  · exact .inl ⟨ht, rfl⟩
  · exact .inr ⟨ht, rfl⟩

theorem readText_overlaid : overlaid.readText ⟨"bench/Main.java"⟩ = .ok (emptyClass "A") := by
  decide

def classTokens : List Token :=
  [.word "class" ⟨0, 5⟩ 1, .word "A" ⟨6, 7⟩ 1, .group .brace [] ⟨8, 10⟩ 1]

theorem outline?_emptyClass :
    ∃ outline, outline? .java (emptyClass "A") = some outline ∧ outline.imports = [] := by
  have houtline : outline? .java (emptyClass "A") =
      some { calls := (findings .java classTokens).calls,
             functions := (findings .java classTokens).functions } := by
    with_unfolding_all rfl
  exact ⟨_, houtline, rfl⟩

theorem eq_of_closure_overlaid {p : Path} (h : overlaidLookup.Closure p) :
    p = ⟨"bench/Main.java"⟩ := by
  induction h with
  | source h =>
    obtain ⟨r, t, hr, hsees, rfl, -⟩ := h
    have hroute : overlaid.routeOf ⟨"bench"⟩ = .ok ["bench"] := by decide
    cases hroute.symm.trans hr
    rcases eq_of_sees_overlaid hsees with ⟨-, hkind⟩ | ⟨rfl, -⟩
    · cases hkind
    · decide
  | imported hp hprovider htext houtline hi hfound hq ih =>
    obtain ⟨outline, houtline', himports⟩ := outline?_emptyClass
    cases (ih ▸ htext).symm.trans readText_overlaid
    cases houtline'.symm.trans houtline
    rw [himports] at hi
    cases hi

theorem finds_overlaid :
    ∃ log sites, overlaidLookup.sites = .ok sites ∧ overlaidLookup.Finds log (.ok sites) ∧
      ⟨"bench/Main.java"⟩ ∈ log := by
  obtain ⟨log, hfinds⟩ := overlaidLookup.exists_finds
  have hroute : overlaid.routeOf ⟨"bench"⟩ = .ok ["bench"] := by decide
  have hwalk : overlaidLookup.files.CanBeWalked overlaidLookup.roots.benchmark := by
    refine ⟨["bench"], hroute, fun t ht => ?_⟩
    rcases eq_of_sees_overlaid ht with ⟨rfl, -⟩ | ⟨-, hkind⟩
    · decide
    · cases hkind
  obtain ⟨sites, hsites⟩ := hfinds.exists_sites (by decide) hwalk fun p hp _ => by
    obtain ⟨outline, houtline, himports⟩ := outline?_emptyClass
    refine ⟨_, outline, eq_of_closure_overlaid hp ▸ readText_overlaid, houtline, ?_⟩
    simp [himports]
  rw [hsites] at hfinds
  refine ⟨log, sites, hsites, hfinds, ?_⟩
  obtain ⟨parsed, hprogram, -⟩ := hfinds.isProgram
  have hclosure : overlaidLookup.Closure ⟨"bench/Main.java"⟩ := by
    exact .source
      ⟨["bench"], ["Main.java"], hroute, sees_entry (by decide), by decide, by decide⟩
  obtain ⟨q, hq, -⟩ := Exploration.isAmong_iff.1 (hprogram.complete _ hclosure (by decide))
  exact eq_of_closure_overlaid (hprogram.sound q hq).1 ▸ hq

theorem exists_prepare_overlaid :
    ∃ fs', prepare .java overlaidLookup.roots.all ⟨"work"⟩ overlaid = (.ok (), fs') ∧
      fs'.file? ["work", "Main.java"] = some (emptyClass "B").toUTF8 := by
  have hsuccess : (prepare .java overlaidLookup.roots.all ⟨"work"⟩ overlaid).1 = .ok () := by
    decide +kernel
  have hfile : (prepare .java overlaidLookup.roots.all ⟨"work"⟩ overlaid).2.file? ["work",
      "Main.java"] =
        some (emptyClass "B").toUTF8 := by
    decide +kernel
  rcases hprepare : prepare .java overlaidLookup.roots.all ⟨"work"⟩ overlaid with ⟨result, fs'⟩
  rw [hprepare] at hsuccess hfile
  cases hsuccess
  exact ⟨fs', rfl, hfile⟩

theorem apart_overlaid :
    ∀ root ∈ overlaidLookup.roots.all, Path.Apart overlaid.home root ⟨"work"⟩ := by decide

theorem liesBelow_bench : Path.LiesBelow ⟨"bench/Main.java"⟩ ⟨"bench"⟩ ["Main.java"] :=
  ⟨by decide, forall_mem_singleton.2 ⟨by decide, by decide⟩⟩

/-- The class `A` is read for the sites, and at its place is what the later directory has there. -/
theorem file?_place_overlaid : ∃ fs' sites log,
    prepare .java overlaidLookup.roots.all ⟨"work"⟩ overlaid = (.ok (), fs') ∧
    overlaidLookup.sites = .ok sites ∧
    overlaidLookup.Finds log (.ok sites) ∧ ⟨"bench/Main.java"⟩ ∈ log ∧
    ∃ text, overlaid.readText ⟨"bench/Main.java"⟩ = .ok text ∧
      fs'.file? ["work", "Main.java"] =
        (merged? overlaid [⟨"pkg"⟩] ["Main.java"]).or (some text.toUTF8) := by
  obtain ⟨fs', hprepare, -⟩ := exists_prepare_overlaid
  obtain ⟨log, sites, hsites, hfinds, hlog⟩ := finds_overlaid
  obtain ⟨-, τ, hτ, hread⟩ := prepared_of_sites apart_overlaid hprepare (.inl rfl) hsites
  obtain rfl : ["work"] = τ := hτ
  obtain ⟨text, htext, -, hplace⟩ := (hread log hfinds).2 _ hlog
  exact ⟨fs', sites, log, hprepare, hsites, hfinds, hlog, text, htext,
    hplace [] _ _ _ rfl liesBelow_bench⟩

/-- The text that was read need not be the one that is prepared: a file of a later directory
may replace it. -/
theorem not_prepared_as_read :
    ¬∀ (roots : Roots) (target : Path) (fs fs' : FileSystem) (sites : SiteMap) (log : List Path)
    (p root : Path)
      (τ t : Route) (text : String),
      (∀ root ∈ roots.all, Path.Apart fs.home root target) → prepare .java roots.all target fs =
        (.ok (), fs') →
      (Lookup.mk .java roots fs).sites = .ok sites →
      (Lookup.mk .java roots fs).Finds log (.ok sites) → p ∈ log →
      fs.readText p = .ok text → root ∈ roots.all → p.LiesBelow root t → target.route fs.home = τ →
      fs'.file? (τ ++ t) = some text.toUTF8 := by
  intro h
  obtain ⟨fs', hprepare, hfile⟩ := exists_prepare_overlaid
  obtain ⟨log, sites, hsites, hfinds, hlog⟩ := finds_overlaid
  have hroute : Path.route overlaid.home ⟨"work"⟩ = ["work"] := by decide
  have hread := h overlaidLookup.roots ⟨"work"⟩ overlaid fs' sites log _ _ _ _ _ apart_overlaid
    hprepare hsites hfinds hlog
    readText_overlaid mem_cons_self liesBelow_bench hroute
  have hdiffer : (emptyClass "B").toUTF8 ≠ (emptyClass "A").toUTF8 := by decide
  exact hdiffer (Option.some.inj (hfile.symm.trans hread))

end WitnessReplay.Benchmark
