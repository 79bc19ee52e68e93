import WitnessReplay.Proofs.ImportClosure

/-!
# The files of a program are its import closure

An exploration keeps an account of the closure: what it has visited and what is pending belongs
to the closure, and what the benchmark and the files it has read lead to has been visited or is
pending. At the end nothing is pending.
-/

namespace WitnessReplay.Benchmark

open Files Source Witness List

namespace Exploration

variable {l : Lookup} {benchmarkFiles : List Path} {s s' : Exploration l benchmarkFiles}
    {p q : Path}

/-- The path of the file that the next step reads, if it reads one. -/
def next? (s : Exploration l benchmarkFiles) : Option Path :=
  s.pending.head?.filter fun p => !p.isAmong s.visited && fileIdentifier p.text != provider

/-- The states that an exploration comes to, each with the paths of the files that have been
read, in their order. -/
inductive Reached (l : Lookup) (benchmarkFiles : List Path) :
    List Path → Exploration l benchmarkFiles → Prop where
  | start : Reached l benchmarkFiles [] (start l benchmarkFiles)
  | step {log : List Path} {s s' : Exploration l benchmarkFiles}
      (hs : Reached l benchmarkFiles log s)
      (h : s.step = .ok (some s')) : Reached l benchmarkFiles (log ++ s.next?.toList) s'

/-- A path has been visited, in whatever way it was written, or is pending. -/
def Covers (s : Exploration l benchmarkFiles) (p : Path) : Prop :=
  p.isAmong s.visited = true ∨ p ∈ s.pending

theorem isAmong_iff {paths : List Path} :
    p.isAmong paths = true ↔ ∃ q ∈ paths, q.same p = true := by
  simp [Path.isAmong]

theorem isAmong_of_mem {paths : List Path} (h : p ∈ paths) : p.isAmong paths = true :=
  isAmong_iff.2 ⟨p, h, by simp [Path.same]⟩

theorem isAmong_cons_of_isAmong {paths : List Path} (h : p.isAmong paths = true) (q : Path) :
    p.isAmong (q :: paths) = true := by
  obtain ⟨q', hq', hsame⟩ := isAmong_iff.1 h
  exact isAmong_iff.2 ⟨q', mem_cons_of_mem q hq', hsame⟩

theorem Covers.step (hp : s.Covers p) (h : s.step = .ok (some s')) : s'.Covers p := by
  obtain ⟨path, rest, hpending, hmove⟩ := move_of_step h
  rw [Covers, hpending] at hp
  cases hmove with
  | skip hpath hvisited hrest hparsed =>
    rw [Covers, hvisited, hrest]
    rcases hp with hp | hp
    · exact .inl hp
    · rcases mem_cons.1 hp with rfl | hp
      · exact .inl hpath
      · exact .inr hp
  | pass hpath hprovider hvisited hrest hparsed =>
    rw [Covers, hvisited, hrest]
    rcases hp with hp | hp
    · exact .inl (isAmong_cons_of_isAmong hp path)
    · rcases mem_cons.1 hp with rfl | hp
      · exact .inl (isAmong_of_mem mem_cons_self)
      · exact .inr hp
  | read file imported hpath hprovider hread hvisited hrest hparsed =>
    rw [Covers, hvisited, hrest]
    rcases hp with hp | hp
    · exact .inl (isAmong_cons_of_isAmong hp path)
    · rcases mem_cons.1 hp with rfl | hp
      · exact .inl (isAmong_of_mem mem_cons_self)
      · exact .inr (mem_append_right _ hp)

theorem next?_eq_some_iff :
    s.next? = some p ↔
      (∃ rest, s.pending = p :: rest) ∧ p.isAmong s.visited = false ∧
      fileIdentifier p.text ≠ provider := by
  unfold next?
  cases s.pending with
  | nil => simp
  | cons path rest => grind [Option.filter_eq_some_iff]

theorem visited_subset_of_step (h : s.step = .ok (some s')) : s.visited ⊆ s'.visited := by
  obtain ⟨path, rest, -, hmove⟩ := move_of_step h
  cases hmove with
  | skip hpath hvisited hrest hparsed => exact hvisited ▸ List.Subset.refl _
  | pass hpath hprovider hvisited hrest hparsed => exact hvisited ▸ subset_cons_self _ _
  | read file imported hpath hprovider hread hvisited hrest hparsed =>
    exact hvisited ▸ subset_cons_self _ _

/-- What a step visits was pending, and it is read unless it is the provider's file. -/
theorem mem_visited_of_step (h : s.step = .ok (some s')) (hp : p ∈ s'.visited) :
    p ∈ s.visited ∨ p ∈ s.pending ∧ (fileIdentifier p.text = provider ∨ s.next? = some p) := by
  obtain ⟨path, rest, hpending, hmove⟩ := move_of_step h
  cases hmove with
  | skip hpath hvisited hrest hparsed => exact .inl (hvisited ▸ hp)
  | pass hpath hprovider hvisited hrest hparsed =>
    rcases mem_cons.1 (hvisited ▸ hp) with rfl | hp
    · exact .inr ⟨hpending ▸ mem_cons_self, .inl hprovider⟩
    · exact .inl hp
  | read file imported hpath hprovider hread hvisited hrest hparsed =>
    rcases mem_cons.1 (hvisited ▸ hp) with rfl | hp
    · exact .inr ⟨hpending ▸ mem_cons_self,
        .inr (next?_eq_some_iff.2 ⟨⟨rest, hpending⟩, hpath, hprovider⟩)⟩
    · exact .inl hp

theorem mem_pending_of_step (h : s.step = .ok (some s')) (hp : p ∈ s'.pending) :
    p ∈ s.pending ∨ ∃ path file imported,
      s.next? = some path ∧ l.readSource benchmarkFiles path = .ok (file, imported) ∧
      p ∈ imported := by
  obtain ⟨path, rest, hpending, hmove⟩ := move_of_step h
  cases hmove with
  | skip hpath hvisited hrest hparsed => exact .inl (hpending ▸ mem_cons_of_mem path (hrest ▸ hp))
  | pass hpath hprovider hvisited hrest hparsed =>
    exact .inl (hpending ▸ mem_cons_of_mem path (hrest ▸ hp))
  | read file imported hpath hprovider hread hvisited hrest hparsed =>
    rcases mem_append.1 (hrest ▸ hp) with hp | hp
    · have hnext := next?_eq_some_iff.2 ⟨⟨rest, hpending⟩, hpath, hprovider⟩
      exact .inr ⟨path, file, imported, hnext, hread, (mem_filter.1 (mem_reverse.1 hp)).1⟩
    · exact .inl (hpending ▸ mem_cons_of_mem path hp)

theorem read_of_next? (h : s.step = .ok (some s')) (hnext : s.next? = some p) :
    ∃ file imported, l.readSource benchmarkFiles p = .ok (file, imported) ∧ p ∈ s'.visited ∧
      s'.parsed = s.parsed ++ [file] ∧ ∀ q ∈ imported, s'.Covers q := by
  obtain ⟨⟨rest', hpending'⟩, hnew, hother⟩ := next?_eq_some_iff.1 hnext
  obtain ⟨path, rest, hpending, hmove⟩ := move_of_step h
  cases hpending'.symm.trans hpending
  cases hmove with
  | skip hpath hvisited hrest hparsed =>
    rw [hnew] at hpath
    cases hpath
  | pass hpath hprovider hvisited hrest hparsed => exact absurd hprovider hother
  | read file imported hpath hprovider hread hvisited hrest hparsed =>
    refine ⟨file, imported, hread, hvisited ▸ mem_cons_self, hparsed, ?_⟩
    intro q hq
    rw [Covers, hvisited, hrest]
    by_cases hamong : q.isAmong (p :: s.visited) = true
    · exact .inl hamong
    · refine .inr (mem_append_left _ (mem_reverse.2 (mem_filter.2 ⟨hq, ?_⟩)))
      simp [hamong]

theorem parsed_of_next?_eq_none (h : s.step = .ok (some s')) (hnext : s.next? = none) :
    s'.parsed = s.parsed := by
  obtain ⟨path, rest, hpending, hmove⟩ := move_of_step h
  cases hmove with
  | skip hpath hvisited hrest hparsed => exact hparsed
  | pass hpath hprovider hvisited hrest hparsed => exact hparsed
  | read file imported hpath hprovider hread hvisited hrest hparsed =>
    rw [next?_eq_some_iff.2 ⟨⟨rest, hpending⟩, hpath, hprovider⟩] at hnext
    cases hnext

/-- How an exploration ends: nothing is pending, or a file cannot be read. -/
theorem run_cases {log : List Path} (hs : Reached l benchmarkFiles log s) :
    ∃ log' t, Reached l benchmarkFiles log' t ∧
      (t.step = .ok none ∧ s.run = .ok t.parsed ∨ ∃ e, t.step = .error e ∧ s.run = .error e) := by
  induction s using run.induct generalizing log with
  | case1 s e hstep => exact ⟨log, s, hs, .inr ⟨e, hstep, run_of_step_error hstep⟩⟩
  | case2 s hstep => exact ⟨log, s, hs, .inl ⟨hstep, run_of_step_none hstep⟩⟩
  | case3 s s' hstep ih =>
    obtain ⟨log', t, ht, hend⟩ := ih (.step hs hstep)
    rw [run_of_step_some hstep]
    exact ⟨log', t, ht, hend⟩

/-- The account that an exploration keeps: it stays in the closure, it has read each visited
file but the provider's once, and it covers the benchmark's files and the imports of what it
has read. -/
structure Explored (l : Lookup) (log : List Path) (s : Exploration l l.benchmarkSources) :
    Prop where
  sound : ∀ p, p ∈ s.visited ∨ p ∈ s.pending → l.Closure p
  logged : ∀ p ∈ log, p ∈ s.visited ∧ fileIdentifier p.text ≠ provider
  visited : ∀ p ∈ s.visited, fileIdentifier p.text = provider ∨ p ∈ log
  distinct : log.Pairwise fun p q => p.same q = false
  parsed : log.map (fun p => (l.readSource l.benchmarkSources p).map (·.1)) = s.parsed.map .ok
  sources : ∀ p ∈ l.benchmarkSources, s.Covers p
  imports : ∀ p ∈ log, ∀ file imported, l.readSource l.benchmarkSources p = .ok (file, imported) →
    ∀ q ∈ imported, s.Covers q

theorem explored_start (l : Lookup) : Explored l [] (start l l.benchmarkSources) where
  sound p hp := by
    rcases hp with hp | hp
    · cases hp
    · exact .source (Lookup.mem_benchmarkSources_iff.1 hp)
  logged p hp := by cases hp
  visited p hp := by cases hp
  distinct := .nil
  parsed := rfl
  sources p hp := .inr hp
  imports p hp := by cases hp

theorem closure_of_readSource {file : SourceFile} {imported : List Path} (hp : l.Closure p)
    (hprovider : fileIdentifier p.text ≠ provider)
    (hread : l.readSource l.benchmarkSources p = .ok (file, imported))
    (hq : q ∈ imported) : l.Closure q := by
  obtain ⟨text, outline, htext, houtline, himported, -⟩ := Lookup.readSource_eq_ok_iff.1 hread
  obtain ⟨i, hi, found, hfound, hq⟩ := Lookup.mem_dependencies himported hq
  exact .imported hp hprovider htext houtline hi hfound hq

theorem Explored.closure_of_next? {log : List Path} {s : Exploration l l.benchmarkSources}
    (hs : Explored l log s)
    (h : s.next? = some p) : l.Closure p ∧ fileIdentifier p.text ≠ provider := by
  obtain ⟨⟨rest, hpending⟩, -, hprovider⟩ := next?_eq_some_iff.1 h
  exact ⟨hs.sound p (.inr (hpending ▸ mem_cons_self)), hprovider⟩

/-- No path is read twice, in whatever ways it is written; this counts the last one, which may
turn out unreadable. -/
theorem Explored.pairwise_next? {log : List Path} {s : Exploration l l.benchmarkSources}
    (hs : Explored l log s) :
    (log ++ s.next?.toList).Pairwise fun p q => p.same q = false := by
  refine pairwise_append.2 ⟨hs.distinct, by cases s.next? <;> simp, ?_⟩
  intro p hp q hq
  obtain ⟨-, hnew, -⟩ := next?_eq_some_iff.1 (Option.mem_toList.1 hq)
  refine eq_false_of_ne_true fun hsame => ?_
  rw [isAmong_iff.2 ⟨p, (hs.logged p hp).1, hsame⟩] at hnew
  cases hnew

theorem Explored.step {log : List Path} {s s' : Exploration l l.benchmarkSources}
    (hs : Explored l log s)
    (h : s.step = .ok (some s')) : Explored l (log ++ s.next?.toList) s' where
  sound p hp := by
    rcases hp with hp | hp
    · rcases mem_visited_of_step h hp with hp | ⟨hp, -⟩
      · exact hs.sound p (.inl hp)
      · exact hs.sound p (.inr hp)
    · rcases mem_pending_of_step h hp with hp | ⟨path, file, imported, hnext, hread, hp⟩
      · exact hs.sound p (.inr hp)
      · obtain ⟨hclosure, hprovider⟩ := hs.closure_of_next? hnext
        exact closure_of_readSource hclosure hprovider hread hp
  logged p hp := by
    rcases mem_append.1 hp with hp | hp
    · exact ⟨visited_subset_of_step h (hs.logged p hp).1, (hs.logged p hp).2⟩
    · have hnext := Option.mem_toList.1 hp
      obtain ⟨-, -, -, hvisited, -⟩ := read_of_next? h hnext
      exact ⟨hvisited, (hs.closure_of_next? hnext).2⟩
  visited p hp := by
    rcases mem_visited_of_step h hp with hp | ⟨-, hprovider | hnext⟩
    · exact (hs.visited p hp).imp id (mem_append_left _)
    · exact .inl hprovider
    · exact .inr (mem_append_right _ (Option.mem_toList.2 hnext))
  distinct := hs.pairwise_next?
  parsed := by
    cases hnext : s.next? with
    | none =>
      rw [parsed_of_next?_eq_none h hnext, Option.toList_none, append_nil]
      exact hs.parsed
    | some path =>
      obtain ⟨file, imported, hread, -, hparsed, -⟩ := read_of_next? h hnext
      rw [Option.toList_some, map_append, hs.parsed, hparsed, map_append]
      simp [hread, Except.map]
  sources p hp := (hs.sources p hp).step h
  imports p hp file imported hread q hq := by
    rcases mem_append.1 hp with hp | hp
    · exact (hs.imports p hp file imported hread q hq).step h
    · obtain ⟨file', imported', hread', -, -, hcovers⟩ := read_of_next? h (Option.mem_toList.1 hp)
      cases hread.symm.trans hread'
      exact hcovers q hq

theorem Reached.explored {log : List Path} {s : Exploration l l.benchmarkSources}
    (hs : Reached l l.benchmarkSources log s) : Explored l log s := by
  induction hs with
  | start => exact explored_start l
  | step hs h ih => exact ih.step h

theorem Explored.read {log : List Path} {s : Exploration l l.benchmarkSources}
    (hs : Explored l log s) (hp : p ∈ log) :
    ∃ file imported, l.readSource l.benchmarkSources p = .ok (file, imported) := by
  have hmem : (l.readSource l.benchmarkSources p).map (·.1) ∈ s.parsed.map .ok := by
    rw [← hs.parsed]
    exact mem_map.2 ⟨p, hp, rfl⟩
  obtain ⟨file, -, hfile⟩ := mem_map.1 hmem
  obtain ⟨⟨file', imported⟩, hread, -⟩ := map_eq_ok_iff.1 hfile.symm
  exact ⟨file', imported, hread⟩

/-- At the end everything in the closure has been visited, in whatever way it was written. -/
theorem Explored.complete {log : List Path} {s : Exploration l l.benchmarkSources}
    (hs : Explored l log s)
    (hend : s.pending = []) (hp : l.Closure p) : p.isAmong s.visited = true := by
  have hcovers : ∀ q, s.Covers q → q.isAmong s.visited = true := by
    rintro q (hq | hq)
    · exact hq
    · rw [hend] at hq
      cases hq
  induction hp with
  | source h => exact hcovers _ (hs.sources _ (Lookup.mem_benchmarkSources_iff.2 h))
  | @imported p q text outline i found hp hprovider htext houtline hi hfound hq ih =>
    -- the file may have been visited under another path, which has the same text and therefore
    -- the same imports
    obtain ⟨p', hp', hsame⟩ := isAmong_iff.1 ih
    have hp'Closure := hs.sound p' (.inl hp')
    have hidentifier := fileIdentifier_of_same hsame hp'Closure.leadsToFile.1 hp.leadsToFile.1
    rcases hs.visited p' hp' with hprovider' | hlog
    · exact absurd (hidentifier ▸ hprovider') hprovider
    · obtain ⟨file, imported, hread⟩ := hs.read hlog
      obtain ⟨text', outline', htext', houtline', himported, -⟩ :=
        Lookup.readSource_eq_ok_iff.1 hread
      obtain rfl := Lookup.readText_eq_of_same hsame htext' htext
      cases houtline'.symm.trans houtline
      have hq := Lookup.mem_dependencies_of himported hi (Lookup.importedFiles_eq_ok_of hfound p')
        hq
      exact hcovers q (hs.imports p' hlog file imported hread q hq)

theorem pending_eq_nil_of_step (h : s.step = .ok none) : s.pending = [] := by
  unfold step at h
  split at h
  · assumption
  · simp only [] at h
    split at h
    · cases h
    · split at h
      · cases h
      · split at h <;> cases h

theorem next?_of_step_eq_error {e : ResolveError} (h : s.step = .error e) :
    ∃ path, s.next? = some path ∧ l.readSource benchmarkFiles path = .error e := by
  unfold step at h
  split at h
  · cases h
  · rename_i path rest hpending
    simp only [] at h
    split at h
    · cases h
    · rename_i hpath
      split at h
      · cases h
      · rename_i hprovider
        split at h
        · rename_i e' hread
          cases h
          exact ⟨path, next?_eq_some_iff.2 ⟨⟨rest, hpending⟩, eq_false_of_ne_true hpath,
            hprovider⟩, hread⟩
        · cases h

end Exploration

namespace Lookup

open Exploration

variable {l : Lookup} {p : Path}

/-- Paths and their files are those of the program: of the closure but for the provider's file,
each once. -/
structure IsProgram (l : Lookup) (paths : List Path) (files : List SourceFile) : Prop where
  sound : ∀ p ∈ paths, l.Closure p ∧ fileIdentifier p.text ≠ provider
  complete : ∀ p, l.Closure p → fileIdentifier p.text ≠ provider → p.isAmong paths = true
  distinct : paths.Pairwise fun p q => p.same q = false
  files : paths.map (fun p => (l.outline p).map (SourceFile.mk (fileIdentifier p.text))) =
    files.map .ok

/-- How the sites of a program are found, with the paths of the files that are read on the way,
in their order. -/
inductive Finds (l : Lookup) : List Path → Except ResolveError SiteMap → Prop where
  | noDirectory (hdir : l.files.isDirectory l.roots.benchmark = false) :
      Finds l [] (.error (.missingBenchmark l.roots.benchmark))
  | unlisted {e : ResolveError} (hdir : l.files.isDirectory l.roots.benchmark = true)
      (hlist : l.sourcesBelow l.roots.benchmark = .error e) : Finds l [] (.error e)
  | unreadable {files log : List Path} {s : Exploration l files} {e : ResolveError}
      (hdir : l.files.isDirectory l.roots.benchmark = true)
      (hlist : l.sourcesBelow l.roots.benchmark = .ok files)
      (hs : Reached l files log s)
      (hstep : s.step = .error e) : Finds l (log ++ s.next?.toList) (.error e)
  | all {files log : List Path} {s : Exploration l files}
      (hdir : l.files.isDirectory l.roots.benchmark = true)
      (hlist : l.sourcesBelow l.roots.benchmark = .ok files) (hs : Reached l files log s)
      (hstep : s.step = .ok none) :
      Finds l log (.ok (collectSites s.parsed))

theorem exists_finds (l : Lookup) : ∃ log, l.Finds log l.sites := by
  unfold sites program
  cases hdir : l.files.isDirectory l.roots.benchmark with
  | false => exact ⟨[], .noDirectory hdir⟩
  | true =>
    cases hlist : l.sourcesBelow l.roots.benchmark with
    | error e => exact ⟨[], .unlisted hdir hlist⟩
    | ok files =>
      show ∃ log, l.Finds log ((start l files).run.map collectSites)
      obtain ⟨log, s, hs, ⟨hstep, hrun⟩ | ⟨e, hstep, hrun⟩⟩ :=
        run_cases (.start : Reached l files [] (start l files))
      · rw [hrun]
        exact ⟨log, .all hdir hlist hs hstep⟩
      · rw [hrun]
        exact ⟨_, .unreadable hdir hlist hs hstep⟩

theorem Finds.pairwise {log : List Path} {outcome : Except ResolveError SiteMap}
    (h : l.Finds log outcome) :
    log.Pairwise fun p q => p.same q = false := by
  cases h with
  | noDirectory hdir => exact .nil
  | unlisted hdir hlist => exact .nil
  | unreadable hdir hlist hs hstep =>
    obtain rfl := sourcesBelow_benchmark hlist
    exact hs.explored.pairwise_next?
  | all hdir hlist hs hstep =>
    obtain rfl := sourcesBelow_benchmark hlist
    exact hs.explored.distinct

theorem isProgram_of_explored {log : List Path} {s : Exploration l l.benchmarkSources}
    (hs : Explored l log s) (hend : s.pending = []) : l.IsProgram log s.parsed where
  sound p hp := ⟨hs.sound p (.inl (hs.logged p hp).1), (hs.logged p hp).2⟩
  complete p hp hprovider := by
    obtain ⟨q, hq, hsame⟩ := isAmong_iff.1 (hs.complete hend hp)
    have hidentifier := fileIdentifier_of_same hsame (hs.sound q (.inl hq)).leadsToFile.1
      hp.leadsToFile.1
    rcases hs.visited q hq with hprovider' | hlog
    · exact absurd (hidentifier ▸ hprovider') hprovider
    · exact isAmong_iff.2 ⟨q, hlog, hsame⟩
  distinct := hs.distinct
  files := by
    rw [← hs.parsed]
    apply map_congr_left
    intro p hp
    obtain ⟨file, imported, hread⟩ := hs.read hp
    obtain ⟨text, outline, htext, houtline, -, rfl⟩ := readSource_eq_ok_iff.1 hread
    rw [hread, outline_eq_ok_iff.2 ⟨text, htext, houtline⟩]
    rfl

/-- A file of the program can be read, unless its path is too long and the file has been read
under another one. -/
theorem IsProgram.readable {paths : List Path} {files : List SourceFile}
    (h : l.IsProgram paths files) (hpaths : ∀ q ∈ paths, l.Readable q) (hp : l.Closure p)
    (hprovider : fileIdentifier p.text ≠ provider) :
    l.Readable p ∨ pathLimit ≤ p.text.utf8ByteSize ∧ ∃ q, l.Closure q ∧ q.same p = true ∧
    l.Readable q := by
  obtain ⟨q, hq, hsame⟩ := isAmong_iff.1 (h.complete p hp hprovider)
  by_cases hshort : p.text.utf8ByteSize < pathLimit
  · have hsame' : p.same q = true := by
      rw [Path.same, beq_iff_eq] at hsame ⊢
      exact hsame.symm
    exact .inl ((hpaths q hq).of_same hsame' hp.leadsToFile hshort)
  · exact .inr ⟨Nat.le_of_not_lt hshort, q, (h.sound q hq).1, hsame, hpaths q hq⟩

/-- Nothing fails if all directories can be opened and all files of the program can be read. -/
theorem Finds.exists_sites {log : List Path} {outcome : Except ResolveError SiteMap}
    (h : l.Finds log outcome) (hdir : l.files.isDirectory l.roots.benchmark = true)
    (hwalk : l.files.CanBeWalked l.roots.benchmark)
    (hreadable : ∀ p, l.Closure p → fileIdentifier p.text ≠ provider → l.Readable p) :
    ∃ sites, outcome = .ok sites := by
  cases h with
  | noDirectory hnone =>
    rw [hdir] at hnone
    cases hnone
  | unlisted hdir hlist =>
    obtain ⟨files, hfiles⟩ := exists_sourcesBelow_iff.2 hwalk
    rw [hlist] at hfiles
    cases hfiles
  | unreadable hdir hlist hs hstep =>
    obtain rfl := sourcesBelow_benchmark hlist
    obtain ⟨path, hnext, herror⟩ := next?_of_step_eq_error hstep
    obtain ⟨hclosure, hprovider⟩ := hs.explored.closure_of_next? hnext
    obtain ⟨file, imported, hread⟩ := readable_iff.1 (hreadable path hclosure hprovider)
    rw [herror] at hread
    cases hread
  | all hdir hlist hs hstep => exact ⟨_, rfl⟩

/-- **The sites of a program.** The search for sites always ends, and it reads no path twice.
On a benchmark that is a directory it succeeds if all directories below the benchmark can be
opened and all files of the import closure can be read. Conversely, if it succeeds, this is so,
apart from paths that are too long and lead to a file that has been read under another path;
the sites are then those of the files of the closure, each taken once. -/
theorem sites_of_closure (l : Lookup) :
    (∃ log, l.Finds log l.sites ∧ log.Pairwise fun p q => p.same q = false) ∧
    (l.files.isDirectory l.roots.benchmark = true →
      (l.files.CanBeWalked l.roots.benchmark →
        (∀ p, l.Closure p → fileIdentifier p.text ≠ provider → l.Readable p) →
        ∃ sites, l.sites = .ok sites) ∧
      ∀ sites, l.sites = .ok sites →
        l.files.CanBeWalked l.roots.benchmark ∧
        (∀ p, l.Closure p → fileIdentifier p.text ≠ provider →
          l.Readable p ∨ pathLimit ≤ p.text.utf8ByteSize ∧ ∃ q, l.Closure q ∧ q.same p = true ∧
          l.Readable q) ∧
        ∃ paths files, l.IsProgram paths files ∧ sites = collectSites files) := by
  obtain ⟨log, hfinds⟩ := l.exists_finds
  refine ⟨⟨log, hfinds, hfinds.pairwise⟩, fun hdir => ⟨?_, ?_⟩⟩
  · intro hwalk hreadable
    exact hfinds.exists_sites hdir hwalk hreadable
  · intro sites hsites
    rw [hsites] at hfinds
    cases hfinds with
    | @all files log s hdir hlist hs hstep =>
      obtain rfl := sourcesBelow_benchmark hlist
      have hprogram := isProgram_of_explored hs.explored (pending_eq_nil_of_step hstep)
      have hread : ∀ q ∈ log, l.Readable q := fun q hq => readable_iff.2 (hs.explored.read hq)
      refine ⟨exists_sourcesBelow_iff.1 ⟨_, hlist⟩, ?_, log, s.parsed, hprogram, rfl⟩
      intro p hp hprovider
      exact hprogram.readable hread hp hprovider

def slashed (n : Nat) : Path :=
  ⟨String.ofList ('b' :: List.replicate n '/')⟩

theorem parts_slashed (n : Nat) : (slashed n).parts = "b" :: List.replicate n "" := by
  have hslashes : Text.splitAt '/' (List.replicate n '/') = List.replicate (n + 1) [] := by
    induction n with
    | zero => rfl
    | succ n ih => rw [replicate_succ, Text.splitAt, if_pos rfl, ih, ← replicate_succ]
  have hsplit : Text.splitAt '/' ('b' :: List.replicate n '/') = ['b'] :: List.replicate n [] :=
    Text.splitAt_cons_of_ne (by decide) hslashes
  rw [Path.parts, slashed, Text.split, String.toList_ofList, hsplit, map_cons, map_replicate]

theorem utf8ByteSize_slashed (n : Nat) : (slashed n).text.utf8ByteSize = n + 1 := by
  have hslashes : (String.ofList (List.replicate n '/')).utf8ByteSize = n := by
    induction n with
    | zero => rfl
    | succ n ih =>
      rw [replicate_succ, String.ofList_cons, String.utf8ByteSize_append, ih]
      show 1 + n = n + 1
      omega
  rw [slashed, String.ofList_cons, String.utf8ByteSize_append, hslashes]
  show 1 + n = n + 1
  omega

theorem le_utf8ByteSize_join_slashed (n : Nat) :
    n + 2 ≤ ((slashed n).join ⟨"d"⟩).text.utf8ByteSize := by
  have hname : '/' ∉ "d".toList := by decide
  have hjoin := (slashed n).utf8ByteSize_le_join hname
  rw [utf8ByteSize_slashed] at hjoin
  exact hjoin

theorem routeOf_slashed {fs : FileSystem} {n : Nat} (hhome : fs.home = [])
    (hb : fs.root.get? ["b"] = some .directory) (hn : n + 1 < pathLimit) :
    fs.routeOf (slashed n) = .ok ["b"] := by
  have hslashes : routeFrom fs.root ["b"] (List.replicate n "") = .ok ["b"] := by
    clear hn
    induction n with
    | zero => rfl
    | succ n ih => exact routeFrom_slash.2 ⟨hb, ih⟩
  have hsteps : (slashed n).steps fs.home = "b" :: List.replicate n "" := by
    rw [hhome, Path.steps, parts_slashed]
    exact ite_self _
  refine FileSystem.routeOf_eq_ok_iff.2 ⟨usableSteps_eq_ok_iff.2 ⟨⟨?_, ?_, ?_⟩, rfl⟩, ?_⟩
  · simp [slashed]
  · rw [utf8ByteSize_slashed]
    exact hn
  · simp [slashed]
  · have hname : Path.component? "b" = some (.name "b") := by decide
    have hthere : fs.root.get? ([] ++ ["b"]) ≠ none := by simp [hb]
    rw [hsteps, routeFrom_cons, routeStep_name rfl hname (by decide) hthere]
    exact hslashes

/-- A benchmark without any files. The directory in it can be seen from the root, whose path is
as long as a path can be, and not be opened. -/
def closedLookup : Lookup where
  language := .java
  roots := ⟨slashed (pathLimit - 2), []⟩
  files := (FileSystem.empty.put ["b"] .directory).put ["b", "d"] .directory

theorem not_closure_closedLookup (p : Path) : ¬closedLookup.Closure p := by
  have hall : closedLookup.files.root.all =
      [(["b"], .directory false), (["b", "d"], .directory false)] := by rfl
  intro hp
  induction hp with
  | source h =>
    obtain ⟨r, t, -, hsees, -⟩ := h
    obtain ⟨content, hfile⟩ := hsees.exists_file
    by_cases hempty : r ++ t = []
    · rw [hempty] at hfile
      cases hfile
    · have hstatus := FileSystem.status?_of_file hfile
      have hmem := (Directory.mem_all_iff closedLookup.files.sorted).2 ⟨hempty, hstatus⟩
      simp [hall] at hmem
  | imported hp hprovider htext houtline hi hfound hq ih => exact ih

theorem not_canBeWalked_closedLookup :
    ¬closedLookup.files.CanBeWalked closedLookup.roots.benchmark := by
  rintro ⟨r, hr, hshort⟩
  -- the path of the directory is too long by one byte
  cases (routeOf_slashed rfl (by decide) (by decide)).symm.trans hr
  have hd := hshort ["d"] (FileSystem.sees_entry (by decide))
  rw [Path.joinAll, foldl_cons, foldl_nil] at hd
  exact absurd hd (Nat.not_lt.2 (le_utf8ByteSize_join_slashed (pathLimit - 2)))

/-- That all files of the closure can be read is not enough: a directory that cannot be opened
makes the search fail, even if there is no file at all. -/
theorem not_sites_iff_readable :
    closedLookup.files.isDirectory closedLookup.roots.benchmark = true ∧
      ¬((∃ sites, closedLookup.sites = .ok sites) ↔
        ∀ p, closedLookup.Closure p → fileIdentifier p.text ≠ provider →
          closedLookup.Readable p) := by
  constructor
  · have hroute : closedLookup.files.routeOf closedLookup.roots.benchmark = .ok ["b"] :=
      routeOf_slashed rfl (by decide) (by decide)
    exact FileSystem.isDirectory_iff.2 ⟨["b"], hroute, by decide⟩
  · intro hiff
    obtain ⟨sites, hsites⟩ := hiff.2 fun p hp => absurd hp (not_closure_closedLookup p)
    obtain ⟨log, hfinds⟩ := closedLookup.exists_finds
    rw [hsites] at hfinds
    cases hfinds with
    | all hdir hlist hs hstep =>
      exact not_canBeWalked_closedLookup (exists_sourcesBelow_iff.1 ⟨_, hlist⟩)

end Lookup

end WitnessReplay.Benchmark
