import WitnessReplay.Proofs.PackageOrder
import WitnessReplay.Proofs.ProgramFiles

/-!
# A package directory that is given twice

Packages are looked up in distinct directories, so that for them it does not matter how often a
directory is given. For types it does: a file in a directory that is given twice is found
twice, and an import of it is ambiguous. Up to the first such import the exploration with the
repeated directory follows the other one.
-/

namespace WitnessReplay.Benchmark

open Files Source Witness List

section Follows

variable {ε α β : Type}

/-- A result follows another one: it is the same, or it stops with an error of some kind. -/
inductive Follows (E : ε → Prop) (x : Except ε α) : Except ε α → Prop where
  | same : Follows E x x
  | stops {e : ε} (h : E e) : Follows E x (.error e)

variable {E : ε → Prop} {x y : Except ε α}

theorem Follows.bind {f g : α → Except ε β} (h : Follows E x y)
    (hfg : ∀ a, x = .ok a → Follows E (f a) (g a)) :
    Follows E (x >>= f) (y >>= g) := by
  cases h with
  | stops h => exact .stops h
  | same =>
    cases x with
    | ok a => exact hfg a rfl
    | error e => exact .same

theorem Follows.map (f : α → β) (h : Follows E x y) : Follows E (x.map f) (y.map f) := by
  cases h with
  | stops h => exact .stops h
  | same => exact .same

theorem Follows.eq_of_ok {a b : α} (h : Follows E (.ok a) (.ok b)) : a = b := by
  cases h
  rfl

end Follows

namespace Exploration

variable {l l' : Lookup} {benchmarkFiles : List Path} {E : ResolveError → Prop}

theorem follows_advance {s : Exploration l benchmarkFiles}
    (hread : ∀ p ∈ s.pending, fileIdentifier p.text ≠ provider →
      Follows E (l.readSource benchmarkFiles p) (l'.readSource benchmarkFiles p)) :
    Follows E (advance (l.readSource benchmarkFiles) s.view)
    (advance (l'.readSource benchmarkFiles) s.view) := by
  rw [view]
  cases hpending : s.pending with
  | nil => exact .same
  | cons path rest =>
    rw [advance, advance]
    by_cases hamong : path.isAmong s.visited = true
    · rw [if_pos hamong, if_pos hamong]
      exact .same
    rw [if_neg hamong, if_neg hamong]
    by_cases hprovider : fileIdentifier path.text = provider
    · rw [if_pos hprovider, if_pos hprovider]
      exact .same
    · rw [if_neg hprovider, if_neg hprovider]
      exact (hread path (hpending ▸ mem_cons_self) hprovider).map _

theorem run_of_advance_some {s : Exploration l benchmarkFiles} {v : View}
    (h : advance (l.readSource benchmarkFiles) s.view = .ok (some v)) :
    ∃ s' : Exploration l benchmarkFiles, s'.view = v ∧ s.run = s'.run := by
  rw [← map_view_step] at h
  rcases hstep : s.step with e | _ | s'
  · rw [hstep] at h
    cases h
  · rw [hstep] at h
    cases h
  · rw [hstep] at h
    exact ⟨s', Option.some.inj (Except.ok.inj h), run_of_step_some hstep⟩

theorem run_of_advance_none {s : Exploration l benchmarkFiles}
    (h : advance (l.readSource benchmarkFiles) s.view = .ok none) :
    s.run = .ok s.parsed := by
  rw [← map_view_step] at h
  rcases hstep : s.step with e | _ | s'
  · rw [hstep] at h
    cases h
  · exact run_of_step_none hstep
  · rw [hstep] at h
    cases h

/-- An exploration whose readings follow those of another one in the closure follows it to the
end. -/
theorem follows_run {log : List Path} {s : Exploration l l.benchmarkSources}
    {s' : Exploration l' l.benchmarkSources}
    (hread : ∀ p, l.Closure p → fileIdentifier p.text ≠ provider →
      Follows E (l.readSource l.benchmarkSources p) (l'.readSource l.benchmarkSources p))
    (hs : Explored l log s) (hview : s.view = s'.view) : Follows E s.run s'.run := by
  have hstep' : Follows E (s.step.map (·.map view)) (s'.step.map (·.map view)) := by
    rw [map_view_step, map_view_step, ← hview]
    exact follows_advance fun p hp => hread p (hs.sound p (.inr hp))
  induction s using run.induct generalizing log s' with
  | case1 s e hstep =>
    rw [hstep] at hstep'
    rcases hnext : s'.step with e' | next
    · rw [hnext] at hstep'
      rw [run_of_step_error hstep, run_of_step_error hnext]
      cases hstep' with
      | same => exact .same
      | stops h => exact .stops h
    · rw [hnext] at hstep'
      cases hstep'
  | case2 s hstep =>
    rw [hstep] at hstep'
    rcases hnext : s'.step with e' | _ | next
    · rw [hnext] at hstep'
      rw [run_of_step_error hnext]
      cases hstep' with
      | stops h => exact .stops h
    · have hparsed : s.parsed = s'.parsed := congrArg (fun v : View => v.2.2) hview
      rw [run_of_step_none hstep, run_of_step_none hnext, hparsed]
      exact .same
    · rw [hnext] at hstep'
      cases hstep'
  | case3 s after hstep ih =>
    rcases hnext : s'.step with e' | _ | after'
    · rw [hstep, hnext] at hstep'
      rw [run_of_step_error hnext]
      cases hstep' with
      | stops h => exact .stops h
    · rw [hstep, hnext] at hstep'
      cases hstep'
    · rw [hstep, hnext] at hstep'
      rw [run_of_step_some hstep, run_of_step_some hnext]
      have hafter : after.view = after'.view := Option.some.inj hstep'.eq_of_ok
      have hexplored := hs.step hstep
      refine ih hexplored hafter ?_
      rw [map_view_step, map_view_step, ← hafter]
      exact follows_advance fun p hp => hread p (hexplored.sound p (.inr hp))

end Exploration

namespace Lookup

variable {l : Lookup} {xs acc benchmarkFiles : List Path} {p q file : Path} {i : Import}
    {segments : List String}

theorem isAmong_foldl_addNew_of_isAmong (h : q.isAmong acc = true) (xs : List Path) :
    q.isAmong (xs.foldl addNew acc) = true := by
  induction xs generalizing acc with
  | nil => exact h
  | cons x xs ih =>
    rw [foldl_cons]
    refine ih ?_
    unfold addNew
    split
    · exact h
    · obtain ⟨r, hr, hsame⟩ := Exploration.isAmong_iff.1 h
      exact Exploration.isAmong_iff.2 ⟨r, mem_append_left _ hr, hsame⟩

theorem isAmong_foldl_addNew (h : q ∈ xs) (acc : List Path) :
    q.isAmong (xs.foldl addNew acc) = true := by
  induction xs generalizing acc with
  | nil => cases h
  | cons x xs ih =>
    rw [foldl_cons]
    rcases mem_cons.1 h with rfl | h
    · refine isAmong_foldl_addNew_of_isAmong ?_ xs
      unfold addNew
      split
      · assumption
      · exact Exploration.isAmong_of_mem (mem_append_right _ mem_cons_self)
    · exact ih h _

theorem foldl_addNew_concat (h : q ∈ xs) (acc : List Path) :
    (xs ++ [q]).foldl addNew acc = xs.foldl addNew acc := by
  rw [foldl_append, foldl_cons, foldl_nil, addNew, if_pos (isAmong_foldl_addNew h acc)]

def repeating (l : Lookup) (p : Path) : Lookup :=
  l.withPackages (l.roots.packages ++ [p])

@[simp]
theorem packages_repeating (l : Lookup) (p : Path) :
    (l.repeating p).roots.packages = l.roots.packages ++ [p] := rfl

@[simp]
theorem all_roots_repeating (l : Lookup) (p : Path) : (l.repeating p).roots.all = l.roots.all ++
    [p] := rfl

@[simp]
theorem files_repeating (l : Lookup) (p : Path) : (l.repeating p).files = l.files := rfl

@[simp]
theorem typeFile?_repeating (l : Lookup) (p : Path) : (l.repeating p).typeFile? = l.typeFile? := rfl

@[simp]
theorem sourcesBelow_repeating (l : Lookup) (p : Path) :
    (l.repeating p).sourcesBelow = l.sourcesBelow := rfl

theorem packageCandidates_repeating (hp : p ∈ l.roots.packages) (segments : List String) :
    (l.repeating p).packageCandidates segments = l.packageCandidates segments := by
  have hadd (f : Path → Path) (keep : Path → Bool) (roots acc : List Path) (hroots : p ∈ roots) :
      (((roots ++ [p]).map f).filter keep).foldl addNew acc =
        ((roots.map f).filter keep).foldl addNew acc := by
    rw [map_append, filter_append, map_singleton]
    by_cases hkeep : keep (f p) = true
    · rw [filter_cons_of_pos hkeep, filter_nil]
      exact foldl_addNew_concat (mem_filter.2 ⟨mem_map.2 ⟨p, hroots, rfl⟩, hkeep⟩) acc
    · rw [filter_cons_of_neg hkeep, filter_nil, append_nil]
  have hnested := hadd (·.join (.ofParts segments)) l.files.isDirectory l.roots.all []
    (mem_cons_of_mem _ hp)
  have hnamed (acc : List Path) := hadd id (·.endsWith (.ofParts segments)) l.roots.packages acc hp
  simp only [map_id] at hnamed
  simp only [packageCandidates, all_roots_repeating, packages_repeating, files_repeating,
    foldl_append, hnamed, hnested]

theorem packageFiles_repeating (hp : p ∈ l.roots.packages) (i : Import) (file : Path)
    (segments : List String) :
    (l.repeating p).packageFiles i file segments = l.packageFiles i file segments := by
  rw [packageFiles_eq_bind, packageFiles_eq_bind, packageCandidates_repeating hp,
    sourcesBelow_repeating]

/-- An import names a type that is not in the benchmark, and a file in a package directory
declares it. -/
structure NamesTypeIn (l : Lookup) (benchmarkFiles : List Path) (p : Path) (i : Import)
    (declaration : Path) : Prop where
  followed : l.rules.ignores i = false
  type : (i.wildcard && !i.isStatic) = false
  file : ∃ relative, l.typeFile? (typeSegments i) = some relative ∧ declaration = p.join relative ∧
    ∀ f ∈ benchmarkFiles, f.endsWith relative = false
  isFile : l.files.isFile declaration = true

theorem NamesTypeIn.typeCandidates_repeating {declaration : Path}
    (h : l.NamesTypeIn benchmarkFiles p i declaration) :
    (l.repeating p).typeCandidates benchmarkFiles (typeSegments i) =
      l.typeCandidates benchmarkFiles (typeSegments i) ++ [declaration] := by
  obtain ⟨relative, hrelative, rfl, hbenchmark⟩ := h.file
  have hnone : benchmarkFiles.filter (·.endsWith relative) = [] :=
    filter_eq_nil_iff.2 fun f hf => by simp [hbenchmark f hf]
  simp only [typeCandidates, typeFile?_repeating, hrelative, hnone, packages_repeating,
    files_repeating]
  rw [map_append, filter_append, map_singleton, filter_cons_of_pos h.isFile, filter_nil]

theorem NamesTypeIn.mem_typeCandidates {declaration : Path}
    (h : l.NamesTypeIn benchmarkFiles p i declaration) (hp : p ∈ l.roots.packages) :
    declaration ∈ l.typeCandidates benchmarkFiles (typeSegments i) := by
  obtain ⟨relative, hrelative, rfl, hbenchmark⟩ := h.file
  have hnone : benchmarkFiles.filter (·.endsWith relative) = [] :=
    filter_eq_nil_iff.2 fun f hf => by simp [hbenchmark f hf]
  simp only [typeCandidates, hrelative, hnone]
  exact mem_filter.2 ⟨mem_map.2 ⟨p, hp, rfl⟩, h.isFile⟩

theorem typeCandidates_repeating (hfollowed : l.rules.ignores i = false)
    (htype : (i.wildcard && !i.isStatic) = false)
    (hnone : ∀ declaration, ¬l.NamesTypeIn benchmarkFiles p i declaration) :
    (l.repeating p).typeCandidates benchmarkFiles (typeSegments i) =
      l.typeCandidates benchmarkFiles (typeSegments i) := by
  rw [typeCandidates, typeCandidates, typeFile?_repeating]
  cases htypeFile : l.typeFile? (typeSegments i) with
  | none => rfl
  | some relative =>
    simp only []
    cases hfound : benchmarkFiles.filter (·.endsWith relative) with
    | cons f others => rfl
    | nil =>
      have hbenchmark : ∀ f ∈ benchmarkFiles, f.endsWith relative = false :=
        fun f hf => eq_false_of_ne_true (filter_eq_nil_iff.1 hfound f hf)
      have hfile : ¬l.files.isFile (p.join relative) = true := fun hfile =>
        hnone _ ⟨hfollowed, htype, ⟨relative, htypeFile, rfl, hbenchmark⟩, hfile⟩
      simp only [packages_repeating, files_repeating]
      rw [map_append, filter_append, map_singleton, filter_cons_of_neg hfile,
        filter_nil, append_nil]

theorem unique?_of_concat {candidates : List Path} (hq : q ∈ candidates) (i : Import)
    (file : Path) :
    unique? i file (candidates ++ [q]) = .error (.ambiguous i.path file (candidates ++ [q])) := by
  match candidates, hq with
  | [first], _ => rfl
  | first :: second :: rest, _ => rfl

theorem NamesTypeIn.importedFiles_repeating {declaration : Path}
    (h : l.NamesTypeIn benchmarkFiles p i declaration) (hp : p ∈ l.roots.packages) (file : Path) :
    (l.repeating p).importedFiles benchmarkFiles file i =
      .error (.ambiguous i.path file (l.typeCandidates benchmarkFiles (typeSegments i) ++
      [declaration])) := by
  have hfollowed : ¬(l.repeating p).rules.ignores i = true := fun hignored => by
    have hfollowed := h.followed.symm.trans hignored
    cases hfollowed
  have htype : ¬(i.wildcard && !i.isStatic) = true := by simp [h.type]
  rw [importedFiles, if_neg hfollowed, if_neg htype]
  simp only [h.typeCandidates_repeating, unique?_of_concat (h.mem_typeCandidates hp)]

theorem importedFiles_repeating (hp : p ∈ l.roots.packages)
    (hnone : ∀ declaration, ¬l.NamesTypeIn benchmarkFiles p i declaration) (file : Path) :
    (l.repeating p).importedFiles benchmarkFiles file i =
      l.importedFiles benchmarkFiles file i := by
  have hrules : (l.repeating p).rules = l.rules := rfl
  rw [importedFiles, importedFiles, hrules]
  by_cases hignored : l.rules.ignores i = true
  · rw [if_pos hignored, if_pos hignored]
  rw [if_neg hignored, if_neg hignored]
  by_cases hwildcard : (i.wildcard && !i.isStatic) = true
  · rw [if_pos hwildcard, if_pos hwildcard, packageFiles_repeating hp]
  rw [if_neg hwildcard, if_neg hwildcard]
  simp only [typeCandidates_repeating (eq_false_of_ne_true hignored)
    (eq_false_of_ne_true hwildcard) hnone,
    packageFiles_repeating hp]

/-- A file of the program imports a type that is not in the benchmark, and a file in a package
directory declares it. -/
def ImportsTypeFrom (l : Lookup) (p file : Path) (i : Import) (declaration : Path) : Prop :=
  l.Closure file ∧ fileIdentifier file.text ≠ provider ∧
    (∃ outline, l.outline file = .ok outline ∧ i ∈ outline.imports) ∧
    l.NamesTypeIn l.benchmarkSources p i declaration

def IsRepeated (l : Lookup) (p : Path) (e : ResolveError) : Prop :=
  ∃ file i declaration, l.ImportsTypeFrom p file i declaration ∧
    e = .ambiguous i.path file (l.typeCandidates l.benchmarkSources (typeSegments i) ++
    [declaration])

theorem follows_readSource (hp : p ∈ l.roots.packages) (hclosure : l.Closure file)
    (hprovider : fileIdentifier file.text ≠ provider) :
    Follows (l.IsRepeated p) (l.readSource l.benchmarkSources file)
    ((l.repeating p).readSource l.benchmarkSources file) := by
  have hdependencies {outline : Outline}
      (houtline : l.outline file = .ok outline) (imports : List Import)
        (himports : ∀ i ∈ imports, i ∈ outline.imports) : Follows (l.IsRepeated p)
          (l.dependencies l.benchmarkSources file imports)
            ((l.repeating p).dependencies l.benchmarkSources file imports) := by
    induction imports with
    | nil => exact .same
    | cons i rest ih =>
      obtain ⟨hi, hrest⟩ := forall_mem_cons.1 himports
      rw [dependencies, dependencies]
      refine Follows.bind ?_ fun found _ => (ih hrest).bind fun others _ => .same
      by_cases hnames : ∃ declaration, l.NamesTypeIn l.benchmarkSources p i declaration
      · obtain ⟨declaration, hnames⟩ := hnames
        rw [hnames.importedFiles_repeating hp]
        exact .stops ⟨file, i, declaration,
          ⟨hclosure, hprovider, ⟨outline, houtline, hi⟩, hnames⟩, rfl⟩
      · rw [importedFiles_repeating hp (not_exists.1 hnames)]
        exact .same
  rw [readSource, readSource]
  have hsame : (l.repeating p).outline file = l.outline file := rfl
  rw [hsame]
  refine Follows.bind .same fun outline houtline =>
    (hdependencies houtline outline.imports fun _ hi => hi).bind fun imported _ => ?_
  exact .same

theorem follows_sites (hp : p ∈ l.roots.packages) : Follows (l.IsRepeated p) l.sites
    (l.repeating p).sites := by
  refine Follows.map collectSites ?_
  have hdirectory : (l.repeating p).files.isDirectory (l.repeating p).roots.benchmark =
      l.files.isDirectory l.roots.benchmark := rfl
  have hsources : (l.repeating p).sourcesBelow (l.repeating p).roots.benchmark =
      l.sourcesBelow l.roots.benchmark := rfl
  rw [program, program, hdirectory, hsources]
  split
  · exact .same
  · refine Follows.bind .same fun benchmarkFiles hlist => ?_
    obtain rfl := sourcesBelow_benchmark hlist
    exact Exploration.follows_run (fun file hclosure hprovider =>
      follows_readSource hp hclosure hprovider)
      (Exploration.explored_start l) rfl

theorem exists_importedFiles_of_sites {sites : SiteMap} {outline : Outline}
    (h : l.sites = .ok sites) (hclosure : l.Closure file)
    (hprovider : fileIdentifier file.text ≠ provider) (houtline : l.outline file = .ok outline)
    (hi : i ∈ outline.imports) : ∃ found, l.importedFiles l.benchmarkSources file i =
      .ok found := by
  obtain ⟨log, hfinds⟩ := l.exists_finds
  rw [h] at hfinds
  cases hfinds with
  | @all files log s hdir hlist hs hstep =>
    obtain rfl := sourcesBelow_benchmark hlist
    have hprogram := isProgram_of_explored hs.explored (Exploration.pending_eq_nil_of_step hstep)
    -- the file may have been read under another path, which has the same imports
    obtain ⟨q, hq, hsame⟩ := Exploration.isAmong_iff.1 (hprogram.complete file hclosure hprovider)
    obtain ⟨text', outline', htext', houtline', himports⟩ := readable_iff.2 (hs.explored.read hq)
    obtain ⟨text, htext, houtline⟩ := outline_eq_ok_iff.1 houtline
    obtain rfl := readText_eq_of_same hsame htext' htext
    cases houtline'.symm.trans houtline
    obtain ⟨found, hfound⟩ := himports i hi
    exact ⟨found, importedFiles_eq_ok_of hfound file⟩

/-- If the repeated directory leaves the program without an error, it leaves its files what
they are. -/
theorem closure_repeating {sites : SiteMap} (hp : p ∈ l.roots.packages)
    (h : (l.repeating p).sites = .ok sites)
    (hclosure : l.Closure file) : (l.repeating p).Closure file := by
  induction hclosure with
  | source h => exact .source h
  | @imported file q text outline i found hfile hprovider htext houtline hi hfound hq ih =>
    have houtline' : (l.repeating p).outline file = .ok outline :=
      outline_eq_ok_iff.2 ⟨text, htext, houtline⟩
    obtain ⟨found', hfound'⟩ := exists_importedFiles_of_sites h ih hprovider houtline' hi
    have hnone : ∀ declaration, ¬l.NamesTypeIn l.benchmarkSources p i declaration := by
      intro declaration hnames
      cases (hnames.importedFiles_repeating hp file).symm.trans hfound'
    exact .imported ih hprovider htext houtline hi
      ((importedFiles_repeating hp hnone file).trans hfound) hq

/-- **A package directory that is given once more** changes nothing, unless a file of the
program imports a type from it that is not in the benchmark. Then it makes such an import
ambiguous: the file that declares the type is listed once more. So where there were sites, they
stay the same exactly if there is no such import. -/
theorem sites_of_repeated_package (hp : p ∈ l.roots.packages) :
    ((l.repeating p).sites = l.sites ∨
      ∃ file i declaration, l.ImportsTypeFrom p file i declaration ∧ (l.repeating p).sites =
        .error (.ambiguous i.path file (l.typeCandidates l.benchmarkSources (typeSegments i) ++
        [declaration]))) ∧
    ∀ sites, l.sites = .ok sites →
      ((l.repeating p).sites = .ok sites ↔
        ∀ file i declaration, ¬l.ImportsTypeFrom p file i declaration) := by
  have hfollows := follows_sites hp
  refine ⟨?_, fun sites hsites =>
    ⟨fun hrepeated file i declaration himports => ?_, fun hnone => ?_⟩⟩
  · generalize (l.repeating p).sites = outcome at hfollows
    cases hfollows with
    | same => exact .inl rfl
    | stops h =>
      obtain ⟨file, i, declaration, himports, rfl⟩ := h
      exact .inr ⟨file, i, declaration, himports, rfl⟩
  · obtain ⟨hclosure, hprovider, ⟨outline, houtline, hi⟩, hnames⟩ := himports
    obtain ⟨found, hfound⟩ :=
      exists_importedFiles_of_sites hrepeated (closure_repeating hp hrepeated hclosure) hprovider
        houtline hi
    cases (hnames.importedFiles_repeating hp file).symm.trans hfound
  · generalize (l.repeating p).sites = outcome at hfollows
    cases hfollows with
    | same => exact hsites
    | stops h =>
      obtain ⟨file, i, declaration, himports, -⟩ := h
      exact absurd himports (hnone file i declaration)

/-- A benchmark that imports a type, and a package directory with a file that declares it. -/
def declaringLookup : Lookup where
  language := .java
  roots := ⟨⟨"m"⟩, [⟨"p"⟩]⟩
  files :=
    { root :=
        .directory "m" false (.file "Main.java" false {} "import B;".toUTF8 .empty)
          (.directory "p" false (.file "B.java" false {} .empty .empty) .empty)
      sorted := ⟨by decide, ⟨by decide, trivial⟩, by decide, ⟨by decide, trivial⟩, trivial⟩
      named := ⟨by decide, ⟨by decide, trivial⟩, by decide, ⟨by decide, trivial⟩, trivial⟩ }

theorem sourcesBelow_declaringLookup : declaringLookup.sourcesBelow ⟨"m"⟩ = .ok
    [⟨"m/Main.java"⟩] := by decide

theorem readSource_declaringLookup :
    (declaringLookup.readSource [⟨"m/Main.java"⟩] ⟨"m/Main.java"⟩).map (·.2) = .ok [⟨"p/B.java"⟩] ∧
      (declaringLookup.readSource [⟨"m/Main.java"⟩] ⟨"p/B.java"⟩).map (·.2) = .ok [] ∧
      ((declaringLookup.repeating ⟨"p"⟩).readSource [⟨"m/Main.java"⟩] ⟨"m/Main.java"⟩).map (·.2) =
        .error (.ambiguous "B" ⟨"m/Main.java"⟩ [⟨"p/B.java"⟩, ⟨"p/B.java"⟩]) := by
  refine ⟨?_, ?_, ?_⟩
  · with_unfolding_all rfl
  · with_unfolding_all rfl
  · with_unfolding_all rfl

theorem exists_sites_declaringLookup : ∃ sites, declaringLookup.sites = .ok sites := by
  have hsites := sites_of_sourcesBelow (by decide) sourcesBelow_declaringLookup
  obtain ⟨hmain, hother, -⟩ := readSource_declaringLookup
  obtain ⟨⟨main, imported⟩, hmain, rfl⟩ := map_eq_ok_iff.1 hmain
  obtain ⟨⟨other, imported⟩, hother, rfl⟩ := map_eq_ok_iff.1 hother
  have hfirst : Exploration.advance (declaringLookup.readSource [⟨"m/Main.java"⟩]) ([],
      [⟨"m/Main.java"⟩], []) =
        .ok (some ([⟨"m/Main.java"⟩], [⟨"p/B.java"⟩], [main])) := by
    rw [Exploration.advance, if_neg (by decide), if_neg (by decide), hmain]
    rfl
  have hsecond : Exploration.advance (declaringLookup.readSource [⟨"m/Main.java"⟩])
      ([⟨"m/Main.java"⟩], [⟨"p/B.java"⟩], [main]) =
        .ok (some ([⟨"p/B.java"⟩, ⟨"m/Main.java"⟩], [], [main, other])) := by
    rw [Exploration.advance, if_neg (by decide), if_neg (by decide), hother]
    rfl
  obtain ⟨s, hs, hrun⟩ :=
    Exploration.run_of_advance_some (s := .start declaringLookup [⟨"m/Main.java"⟩]) hfirst
  obtain ⟨t, ht, hrun'⟩ := Exploration.run_of_advance_some (hs ▸ hsecond)
  have hend : Exploration.advance (declaringLookup.readSource [⟨"m/Main.java"⟩]) t.view =
      .ok none := ht ▸ rfl
  rw [hsites, hrun, hrun', Exploration.run_of_advance_none hend]
  exact ⟨_, rfl⟩

theorem importsTypeFrom_declaringLookup :
    ∃ i, declaringLookup.ImportsTypeFrom ⟨"p"⟩ ⟨"m/Main.java"⟩ i ⟨"p/B.java"⟩ := by
  have houtline : (declaringLookup.outline ⟨"m/Main.java"⟩).map (·.imports) =
      .ok [{ path := "B", line := 1 }] := by
    with_unfolding_all rfl
  obtain ⟨outline, houtline, himports⟩ := map_eq_ok_iff.1 houtline
  have hsource : (⟨"m/Main.java"⟩ : Path) ∈ declaringLookup.benchmarkSources := by decide
  refine ⟨{ path := "B", line := 1 }, .source (mem_benchmarkSources_iff.1 hsource), by
    decide, ⟨outline, houtline, ?_⟩, ?_⟩
  · rw [himports]
    exact mem_singleton.2 rfl
  · exact ⟨by decide, by decide, ⟨⟨"B.java"⟩, by decide, by decide, by decide⟩, by decide⟩

/-- The type is found in the only package directory, and no longer if that is given twice. -/
theorem sites_of_declaringLookup :
    ⟨"p"⟩ ∈ declaringLookup.roots.packages ∧
      ∃ sites, declaringLookup.sites = .ok sites ∧
        (declaringLookup.repeating ⟨"p"⟩).sites ≠ .ok sites := by
  have hp : ⟨"p"⟩ ∈ declaringLookup.roots.packages := by decide
  obtain ⟨sites, hsites⟩ := exists_sites_declaringLookup
  obtain ⟨i, himports⟩ := importsTypeFrom_declaringLookup
  refine ⟨hp, sites, hsites, fun hrepeated => ?_⟩
  exact ((sites_of_repeated_package hp).2 sites hsites).1 hrepeated _ _ _ himports

/-- It is not so that a package directory can be given any number of times. -/
theorem not_sites_repeating :
    ¬∀ (l : Lookup) (p : Path), p ∈ l.roots.packages → (l.repeating p).sites = l.sites := by
  intro h
  obtain ⟨sites, hsites⟩ := exists_sites_declaringLookup
  have hsame := (h declaringLookup ⟨"p"⟩ (by decide)).trans hsites
  obtain ⟨-, -, hread⟩ := readSource_declaringLookup
  have hrepeated := sites_of_sourcesBelow (l := declaringLookup.repeating ⟨"p"⟩)
    (by decide) sourcesBelow_declaringLookup
  cases hfirst : (declaringLookup.repeating ⟨"p"⟩).readSource [⟨"m/Main.java"⟩] ⟨"m/Main.java"⟩ with
  | ok found =>
    rw [hfirst] at hread
    cases hread
  | error e =>
    rw [Exploration.run_start_error (by decide) hfirst] at hrepeated
    cases hrepeated.symm.trans hsame

end Lookup

end WitnessReplay.Benchmark
