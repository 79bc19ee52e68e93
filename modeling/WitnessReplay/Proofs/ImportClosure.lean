import WitnessReplay.Benchmark.Exploration
import WitnessReplay.Proofs.DirectoryWalk

/-!
# The import closure of a benchmark

The closure has the source files below the benchmark, and with a file whatever its imports
refer to. Paths with the same components count as one file, and they do hold the same text,
unless one of them is too long to be followed.
-/

namespace WitnessReplay.Benchmark

open Files Source Witness

namespace Lookup

variable {l : Lookup} {benchmarkFiles imported found : List Path} {p q : Path} {i : Import}

/-- The source files below the benchmark in the order of a walk, whether or not all directories
can be opened. -/
def benchmarkSources (l : Lookup) : List Path :=
  match l.files.locate l.roots.benchmark with
  | .ok s => ((s.entry.visits l.roots.benchmark).filter (·.isSource l.language.extension)).map
      (·.path)
  | .error _ => []

/-- A file can be read: it holds a text without syntax errors whose imports all refer to
something. -/
def Readable (l : Lookup) (p : Path) : Prop :=
  ∃ text outline, l.files.readText p = .ok text ∧ outline? l.language text = some outline ∧
    ∀ i ∈ outline.imports, ∃ found, l.importedFiles l.benchmarkSources p i = .ok found

/-- The source files below the benchmark, and what the files imply through their imports; the
provider's own file implies nothing. -/
inductive Closure (l : Lookup) : Path → Prop where
  | source {p : Path} (h : l.files.HasSource l.roots.benchmark l.language.extension p) : Closure l p
  | imported {p q : Path} {text : String} {outline : Outline} {i : Import} {found : List Path}
      (hp : Closure l p)
      (hprovider : fileIdentifier p.text ≠ provider) (htext : l.files.readText p = .ok text)
      (houtline : outline? l.language text = some outline) (hi : i ∈ outline.imports)
      (hfound : l.importedFiles l.benchmarkSources p i = .ok found) (hq : q ∈ found) : Closure l q

theorem mem_benchmarkSources_iff :
    p ∈ l.benchmarkSources ↔ l.files.HasSource l.roots.benchmark l.language.extension p := by
  unfold benchmarkSources
  cases hs : l.files.locate l.roots.benchmark with
  | ok s => exact FileSystem.mem_sourceVisits_iff hs
  | error cause =>
    constructor
    · intro hp
      cases hp
    · rintro ⟨r, t, hr, -⟩
      obtain ⟨s, hs', -⟩ := FileSystem.exists_locate hr
      rw [hs] at hs'
      cases hs'

theorem sourcesBelow_eq_ok {directory : Path} {files : List Path}
    (h : l.sourcesBelow directory = .ok files) :
    ∃ s, l.files.locate directory = .ok s ∧
      files = ((s.entry.visits directory).filter (·.isSource l.language.extension)).map
      (·.path) := by
  unfold sourcesBelow at h
  split at h
  · rename_i visits hvisits
    cases h
    obtain ⟨s, hs, rfl⟩ := FileSystem.sources_eq_ok hvisits
    exact ⟨s, hs, rfl⟩
  · cases h

theorem sourcesBelow_benchmark {files : List Path}
    (h : l.sourcesBelow l.roots.benchmark = .ok files) :
    files = l.benchmarkSources := by
  obtain ⟨s, hs, rfl⟩ := sourcesBelow_eq_ok h
  rw [benchmarkSources, hs]

theorem exists_sourcesBelow_iff {directory : Path} :
    (∃ files, l.sourcesBelow directory = .ok files) ↔ l.files.CanBeWalked directory := by
  have hsources : (∃ visits, l.files.sources directory l.language.extension = .ok visits) ↔
      l.files.CanBeWalked directory :=
    FileSystem.exists_sources_iff
  rw [← hsources]
  unfold sourcesBelow
  cases l.files.sources directory l.language.extension <;> simp

theorem exists_dependencies_iff {imports : List Import} :
    (∃ imported, l.dependencies benchmarkFiles p imports = .ok imported) ↔
      ∀ i ∈ imports, ∃ found, l.importedFiles benchmarkFiles p i = .ok found := by
  induction imports with
  | nil => simp [dependencies]
  | cons i rest ih =>
    rw [List.forall_mem_cons, ← ih]
    constructor
    · rintro ⟨imported, h⟩
      obtain ⟨found, hfound, h⟩ := bind_eq_ok_iff.1 h
      obtain ⟨others, hothers, -⟩ := bind_eq_ok_iff.1 h
      exact ⟨⟨found, hfound⟩, others, hothers⟩
    · rintro ⟨⟨found, hfound⟩, others, hothers⟩
      exact ⟨found ++ others,
        bind_eq_ok_iff.2 ⟨found, hfound, bind_eq_ok_iff.2 ⟨others, hothers, rfl⟩⟩⟩

theorem mem_dependencies_of {imports : List Import}
    (h : l.dependencies benchmarkFiles p imports = .ok imported)
    (hi : i ∈ imports) (hfound : l.importedFiles benchmarkFiles p i = .ok found)
    (hq : q ∈ found) : q ∈ imported := by
  induction imports generalizing imported with
  | nil => cases hi
  | cons i' rest ih =>
    obtain ⟨first, hfirst, h⟩ := bind_eq_ok_iff.1 h
    obtain ⟨others, hothers, h⟩ := bind_eq_ok_iff.1 h
    cases h
    rcases List.mem_cons.1 hi with rfl | hi
    · cases hfirst.symm.trans hfound
      exact List.mem_append_left _ hq
    · exact List.mem_append_right _ (ih hothers hi)

theorem outline_eq_ok_iff {outline : Outline} :
    l.outline p = .ok outline ↔ ∃ text, l.files.readText p = .ok text ∧
    outline? l.language text = some outline := by
  unfold Lookup.outline
  cases htext : l.files.readText p with
  | error cause => simp
  | ok text => cases houtline : outline? l.language text <;> simp [parse, houtline]

theorem readSource_eq_ok_iff {file : SourceFile} :
    l.readSource benchmarkFiles p = .ok (file, imported) ↔
      ∃ text outline, l.files.readText p = .ok text ∧ outline? l.language text = some outline ∧
        l.dependencies benchmarkFiles p outline.imports = .ok imported ∧
        file = ⟨fileIdentifier p.text, outline⟩ := by
  unfold readSource
  constructor
  · intro h
    obtain ⟨outline, houtline, h⟩ := bind_eq_ok_iff.1 h
    obtain ⟨imported, himported, h⟩ := bind_eq_ok_iff.1 h
    cases h
    obtain ⟨text, htext, houtline⟩ := outline_eq_ok_iff.1 houtline
    exact ⟨text, outline, htext, houtline, himported, rfl⟩
  · rintro ⟨text, outline, htext, houtline, himported, rfl⟩
    refine bind_eq_ok_iff.2 ⟨outline, outline_eq_ok_iff.2 ⟨text, htext, houtline⟩, ?_⟩
    exact bind_eq_ok_iff.2 ⟨imported, himported, rfl⟩

theorem readable_iff : l.Readable p ↔ ∃ file imported, l.readSource l.benchmarkSources p = .ok
    (file, imported) := by
  constructor
  · rintro ⟨text, outline, htext, houtline, himports⟩
    obtain ⟨imported, himported⟩ := exists_dependencies_iff.2 himports
    exact ⟨_, imported, readSource_eq_ok_iff.2 ⟨text, outline, htext, houtline, himported, rfl⟩⟩
  · rintro ⟨file, imported, h⟩
    obtain ⟨text, outline, htext, houtline, himported, -⟩ := readSource_eq_ok_iff.1 h
    exact ⟨text, outline, htext, houtline, exists_dependencies_iff.1 ⟨imported, himported⟩⟩

/-- A path leads to a file, unless it is too long, and it ends in the name of the file. -/
def LeadsToFile (l : Lookup) (p : Path) : Prop :=
  p.EndsInName ∧
    (p.text.utf8ByteSize < pathLimit → ∃ r content, l.files.routeOf p = .ok r ∧
    l.files.get? r = some (.file content))

theorem leadsToFile_of_isFile (h : l.files.isFile p = true) : l.LeadsToFile p := by
  unfold FileSystem.isFile at h
  split at h
  · rename_i content hlookup
    obtain ⟨r, hr, hfile⟩ := FileSystem.lookup_eq_ok_iff.1 hlookup
    exact ⟨FileSystem.endsInName_of_routeOf hr hfile, fun _ => ⟨r, content, hr, hfile⟩⟩
  · cases h

theorem leadsToFile_of_sourcesBelow {directory : Path} (h : l.sourcesBelow directory = .ok found)
    (hq : q ∈ found) :
    l.LeadsToFile q := by
  obtain ⟨s, hs, rfl⟩ := sourcesBelow_eq_ok h
  exact ((FileSystem.mem_sourceVisits_iff hs).1 hq).leads

theorem leadsToFile_of_packageFiles {segments : List String}
    (h : l.packageFiles i p segments = .ok found) (hq : q ∈ found) :
    l.LeadsToFile q := by
  unfold packageFiles at h
  split at h
  · exact leadsToFile_of_sourcesBelow h hq
  · cases h
  · cases h

theorem mem_of_unique? {candidates : List Path} (h : unique? i p candidates = .ok (some q)) :
    q ∈ candidates := by
  unfold unique? at h
  split at h
  · cases h
  · cases h
    exact List.mem_cons_self
  · cases h

theorem leadsToFile_of_typeCandidates {segments : List String}
    (h : q ∈ l.typeCandidates l.benchmarkSources segments) :
    l.LeadsToFile q := by
  unfold typeCandidates at h
  split at h
  · cases h
  · split at h
    · exact leadsToFile_of_isFile (List.mem_filter.1 h).2
    · have hsource := (List.mem_filter.1 h).1
      exact (mem_benchmarkSources_iff.1 hsource).leads

theorem leadsToFile_of_importedFiles (h : l.importedFiles l.benchmarkSources p i = .ok found)
    (hq : q ∈ found) :
    l.LeadsToFile q := by
  unfold importedFiles at h
  split at h
  · cases h
    cases hq
  · split at h
    · exact leadsToFile_of_packageFiles h hq
    · simp only [] at h
      split at h
      · rename_i declaration hunique
        cases h
        cases List.mem_singleton.1 hq
        exact leadsToFile_of_typeCandidates (mem_of_unique? hunique)
      · split at h
        · exact leadsToFile_of_packageFiles h hq
        · cases h
      · cases h

theorem Closure.leadsToFile (h : l.Closure p) : l.LeadsToFile p := by
  cases h with
  | source h => exact h.leads
  | imported hp hprovider htext houtline hi hfound hq =>
    exact leadsToFile_of_importedFiles hfound hq

/-- Paths with the same components hold the same text, if both can be read. -/
theorem readText_eq_of_same (hsame : p.same q) {text text' : String}
    (hp : l.files.readText p = .ok text)
    (hq : l.files.readText q = .ok text') : text = text' := by
  obtain ⟨content, hread, htext⟩ := FileSystem.readText_eq_ok_iff.1 hp
  obtain ⟨content', hread', htext'⟩ := FileSystem.readText_eq_ok_iff.1 hq
  obtain ⟨r, hr, hfile, -⟩ := FileSystem.read_eq_ok_iff.1 hread
  obtain ⟨r', hr', hfile', -⟩ := FileSystem.read_eq_ok_iff.1 hread'
  obtain rfl := FileSystem.routeOf_eq_of_same hsame hr hr'
  cases hfile.symm.trans hfile'
  exact Option.some.inj (htext.symm.trans htext')

theorem readText_of_same (hsame : p.same q) (hp : l.LeadsToFile p)
    (hshort : p.text.utf8ByteSize < pathLimit) {text : String}
    (hq : l.files.readText q = .ok text) : l.files.readText p = .ok text := by
  obtain ⟨content, hread, htext⟩ := FileSystem.readText_eq_ok_iff.1 hq
  obtain ⟨r, hr, hfile⟩ := FileSystem.read_eq_ok_iff.1 hread
  obtain ⟨r', content', hr', hfile'⟩ := hp.2 hshort
  obtain rfl := FileSystem.routeOf_eq_of_same hsame hr' hr
  have hread' := FileSystem.read_eq_ok_iff.2 ⟨r', hr', hfile⟩
  exact FileSystem.readText_eq_ok_iff.2 ⟨content, hread', htext⟩

/-- A file that can be read under one path can be read under all its paths that are not too long. -/
theorem Readable.of_same (h : l.Readable q) (hsame : p.same q) (hp : l.LeadsToFile p)
    (hshort : p.text.utf8ByteSize < pathLimit) : l.Readable p := by
  obtain ⟨text, outline, htext, houtline, himports⟩ := h
  refine ⟨text, outline, readText_of_same hsame hp hshort htext, houtline, ?_⟩
  intro i hi
  obtain ⟨found, hfound⟩ := himports i hi
  exact ⟨found, importedFiles_eq_ok_of hfound p⟩

end Lookup

end WitnessReplay.Benchmark
