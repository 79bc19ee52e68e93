import WitnessReplay.Benchmark.Resolution
import WitnessReplay.Files.Contents

/-!
# The files of a program

The pending files are read last in first out, and what they import becomes pending. A path is
visited once, however it is written; the input provider's own file is not read.

All that can ever become pending is known beforehand: it is imported somewhere in the contents
of the files. So the files that have not been visited get fewer, or else the pending ones do.
-/

namespace WitnessReplay.Benchmark

open Files Source Witness

namespace Lookup

def readSource (l : Lookup) (benchmarkFiles : List Path) (path : Path) :
    Except ResolveError (SourceFile × List Path) := do
  let outline ← l.outline path
  let imported ← l.dependencies benchmarkFiles path outline.imports
  return (⟨fileIdentifier path.text, outline⟩, imported)

def allImports (l : Lookup) : List Import :=
  l.files.root.contents.flatMap fun content =>
    match (String.fromUTF8? content).bind (outline? l.language) with
    | some outline => outline.imports
    | none => []

/-- All that may have to be read: the benchmark's files, and whatever an import refers to. -/
def scope (l : Lookup) (benchmarkFiles : List Path) : List Path :=
  benchmarkFiles ++ l.allImports.flatMap fun i =>
    (l.importedFiles benchmarkFiles ⟨""⟩ i).toOption.getD []

variable {l : Lookup} {benchmarkFiles found : List Path} {file path : Path} {i : Import}

theorem unique?_eq_ok_of {candidates : List Path} {p : Option Path}
    (h : unique? i file candidates = .ok p) (other : Path) :
    unique? i other candidates = .ok p := by
  unfold unique? at h ⊢
  split at h
  · exact h
  · exact h
  · cases h

theorem packageFiles_eq_ok_of {segments : List String}
    (h : l.packageFiles i file segments = .ok found) (other : Path) :
    l.packageFiles i other segments = .ok found := by
  unfold packageFiles at h ⊢
  split at h
  · rename_i directory hdirectory
    rw [unique?_eq_ok_of hdirectory other]
    exact h
  · cases h
  · cases h

/-- What an import refers to does not depend on the file in which it stands. -/
theorem importedFiles_eq_ok_of (h : l.importedFiles benchmarkFiles file i = .ok found)
    (other : Path) :
    l.importedFiles benchmarkFiles other i = .ok found := by
  unfold importedFiles at h ⊢
  split at h
  · rename_i hignored
    rw [if_pos hignored]
    exact h
  · rename_i hignored
    rw [if_neg hignored]
    split at h
    · rename_i hwildcard
      rw [if_pos hwildcard]
      exact packageFiles_eq_ok_of h other
    · rename_i hwildcard
      rw [if_neg hwildcard]
      simp only [] at h ⊢
      split at h
      · rename_i declaration hdeclaration
        rw [unique?_eq_ok_of hdeclaration other]
        exact h
      · rename_i hnone
        rw [unique?_eq_ok_of hnone other]
        split at h
        · rename_i hmember
          simp only []
          rw [if_pos hmember]
          exact packageFiles_eq_ok_of h other
        · cases h
      · cases h

theorem mem_dependencies {imports : List Import}
    (h : l.dependencies benchmarkFiles file imports = .ok found) {p : Path}
    (hp : p ∈ found) : ∃ i ∈ imports, ∃ files, l.importedFiles benchmarkFiles file i = .ok files ∧
    p ∈ files := by
  induction imports generalizing found with
  | nil =>
    cases h
    cases hp
  | cons i rest ih =>
    unfold dependencies at h
    cases hi : l.importedFiles benchmarkFiles file i with
    | error e => simp [hi, bind, Except.bind] at h
    | ok files =>
      cases hrest : l.dependencies benchmarkFiles file rest with
      | error e => simp [hi, hrest, bind, Except.bind] at h
      | ok others =>
        simp only [hi, hrest, bind, Except.bind, pure, Except.pure] at h
        cases h
        rcases List.mem_append.1 hp with hp | hp
        · exact ⟨i, List.mem_cons_self, files, hi, hp⟩
        · obtain ⟨i', hi', hp⟩ := ih hrest hp
          exact ⟨i', List.mem_cons_of_mem i hi', hp⟩

theorem mem_allImports {outline : Outline} (h : l.outline path = .ok outline)
    (hi : i ∈ outline.imports) :
    i ∈ l.allImports := by
  unfold Lookup.outline at h
  split at h
  · cases h
  · rename_i source hsource
    unfold FileSystem.readText at hsource
    cases hread : l.files.read path with
    | error cause => simp [hread, bind, Except.bind] at hsource
    | ok content =>
      cases htext : String.fromUTF8? content with
      | none =>
        simp [hread, htext, bind, Except.bind, throw, throwThe, MonadExceptOf.throw] at hsource
      | some text =>
        simp only [hread, htext, bind, Except.bind, pure, Except.pure] at hsource
        cases hsource
        unfold parse at h
        cases houtline : outline? l.language source with
        | none => simp [houtline] at h
        | some found =>
          simp only [houtline] at h
          cases h
          refine List.mem_flatMap.2 ⟨content, FileSystem.mem_contents_of_read hread, ?_⟩
          simpa [htext, houtline] using hi

theorem mem_scope_of_readSource {source : SourceFile}
    (h : l.readSource benchmarkFiles path = .ok (source, found)) {p : Path}
    (hp : p ∈ found) : p ∈ l.scope benchmarkFiles := by
  unfold readSource at h
  cases houtline : l.outline path with
  | error e => simp [houtline, bind, Except.bind] at h
  | ok outline =>
    cases hfound : l.dependencies benchmarkFiles path outline.imports with
    | error e => simp [houtline, hfound, bind, Except.bind] at h
    | ok imported =>
      simp only [houtline, hfound, bind, Except.bind, pure, Except.pure] at h
      cases h
      obtain ⟨i, hi, files, hfiles, hp⟩ := mem_dependencies hfound hp
      refine List.mem_append_right _ (List.mem_flatMap.2 ⟨i, mem_allImports houtline hi, ?_⟩)
      rw [importedFiles_eq_ok_of hfiles ⟨""⟩]
      exact hp

end Lookup

/-- The state of an exploration: the visited paths, last one first, the pending ones, next one
first, and the files that have been read, in their order. -/
structure Exploration (l : Lookup) (benchmarkFiles : List Path) where
  visited : List Path
  pending : List Path
  parsed : List SourceFile
  inScope : ∀ p ∈ pending, p ∈ l.scope benchmarkFiles

namespace Exploration

variable {l : Lookup} {benchmarkFiles : List Path}

def start (l : Lookup) (benchmarkFiles : List Path) : Exploration l benchmarkFiles :=
  ⟨[], benchmarkFiles, [], fun _ hp => List.mem_append_left _ hp⟩

/-- One step: the next pending path is visited. There is none at the end. -/
def step (s : Exploration l benchmarkFiles) :
    Except ResolveError (Option (Exploration l benchmarkFiles)) :=
  match hpending : s.pending with
  | [] => .ok none
  | path :: rest =>
    have hrest : ∀ p ∈ rest, p ∈ l.scope benchmarkFiles :=
      fun p hp => s.inScope p (hpending ▸ List.mem_cons_of_mem path hp)
    if path.isAmong s.visited then .ok (some ⟨s.visited, rest, s.parsed, hrest⟩)
    else if fileIdentifier path.text = provider then
      .ok (some ⟨path :: s.visited, rest, s.parsed, hrest⟩)
    else
      match hread : l.readSource benchmarkFiles path with
      | .error e => .error e
      | .ok (file, imported) =>
        let fresh := imported.filter fun p => !p.isAmong (path :: s.visited)
        .ok (some ⟨path :: s.visited, fresh.reverse ++ rest, s.parsed ++ [file], fun p hp =>
          (List.mem_append.1 hp).elim
            (fun hp => Lookup.mem_scope_of_readSource hread
            (List.mem_filter.1 (List.mem_reverse.1 hp)).1)
            (hrest p)⟩)

/-- What a step does: it skips a path that has been visited, passes by the provider's file, or
reads a file. -/
inductive Move (s s' : Exploration l benchmarkFiles) (path : Path) (rest : List Path) : Prop where
  | skip (hpath : path.isAmong s.visited = true)
      (hvisited : s'.visited = s.visited) (hpending : s'.pending = rest)
      (hparsed : s'.parsed = s.parsed)
  | pass (hpath : path.isAmong s.visited = false) (hprovider : fileIdentifier path.text = provider)
      (hvisited : s'.visited = path :: s.visited) (hpending : s'.pending = rest)
      (hparsed : s'.parsed = s.parsed)
  | read (file : SourceFile) (imported : List Path) (hpath : path.isAmong s.visited = false)
      (hprovider : fileIdentifier path.text ≠ provider)
      (hread : l.readSource benchmarkFiles path = .ok (file, imported))
      (hvisited : s'.visited = path :: s.visited)
      (hpending : s'.pending =
        (imported.filter fun p => !p.isAmong (path :: s.visited)).reverse ++ rest)
      (hparsed : s'.parsed = s.parsed ++ [file])

theorem move_of_step {s s' : Exploration l benchmarkFiles} (h : s.step = .ok (some s')) :
    ∃ path rest, s.pending = path :: rest ∧ Move s s' path rest := by
  unfold step at h
  split at h
  · cases h
  · rename_i path rest hpending
    refine ⟨path, rest, hpending, ?_⟩
    simp only [] at h
    split at h
    · rename_i hpath
      cases h
      exact .skip hpath rfl rfl rfl
    · rename_i hpath
      have hpath := eq_false_of_ne_true hpath
      split at h
      · rename_i hprovider
        cases h
        exact .pass hpath hprovider rfl rfl rfl
      · rename_i hprovider
        split at h
        · cases h
        · rename_i file imported hread
          cases h
          exact .read file imported hpath hprovider hread rfl rfl rfl

def unvisited (s : Exploration l benchmarkFiles) : Nat :=
  ((l.scope benchmarkFiles).filter fun p => !p.isAmong s.visited).length

theorem unvisited_lt {s s' : Exploration l benchmarkFiles} {path : Path}
    (hscope : path ∈ l.scope benchmarkFiles)
    (hpath : path.isAmong s.visited = false) (hvisited : s'.visited = path :: s.visited) :
    s'.unvisited < s.unvisited := by
  have hfilter : ((l.scope benchmarkFiles).filter fun p => !p.isAmong s'.visited) =
      ((l.scope benchmarkFiles).filter fun p => !p.isAmong s.visited).filter fun p =>
      !path.same p := by
    rw [List.filter_filter]
    apply List.filter_congr
    intro p _
    simp [hvisited, Path.isAmong]
  rw [unvisited, hfilter]
  refine List.length_filter_lt_length_iff_exists.2 ⟨path,
    List.mem_filter.2 ⟨hscope, by simp [hpath]⟩, ?_⟩
  simp [Path.same]

theorem step_decreases {s s' : Exploration l benchmarkFiles} (h : s.step = .ok (some s')) :
    Prod.Lex (· < ·) (· < ·) (s'.unvisited, s'.pending.length) (s.unvisited, s.pending.length) := by
  obtain ⟨path, rest, hpending, hmove⟩ := move_of_step h
  have hscope : path ∈ l.scope benchmarkFiles := s.inScope path (hpending ▸ List.mem_cons_self)
  cases hmove with
  | skip hpath hvisited hpending' hparsed =>
    have hsame : s'.unvisited = s.unvisited := by rw [unvisited, unvisited, hvisited]
    rw [hsame, hpending', hpending]
    exact .right _ (Nat.lt_succ_self _)
  | pass hpath hprovider hvisited hpending' hparsed =>
    exact .left _ _ (unvisited_lt hscope hpath hvisited)
  | read file imported hpath hprovider hread hvisited hpending' hparsed =>
    exact .left _ _ (unvisited_lt hscope hpath hvisited)

def run (s : Exploration l benchmarkFiles) : Except ResolveError (List SourceFile) :=
  match _h : s.step with
  | .error e => .error e
  | .ok none => .ok s.parsed
  | .ok (some s') => s'.run
termination_by (s.unvisited, s.pending.length)
decreasing_by exact step_decreases _h

theorem run_of_step_error {s : Exploration l benchmarkFiles} {e : ResolveError}
    (h : s.step = .error e) : s.run = .error e := by
  rw [run]
  split <;> simp_all

theorem run_of_step_none {s : Exploration l benchmarkFiles} (h : s.step = .ok none) :
    s.run = .ok s.parsed := by
  rw [run]
  split <;> simp_all

theorem run_of_step_some {s s' : Exploration l benchmarkFiles} (h : s.step = .ok (some s')) :
    s.run = s'.run := by
  rw [run]
  split <;> simp_all

end Exploration

namespace Lookup

def program (l : Lookup) : Except ResolveError (List SourceFile) := do
  if !l.files.isDirectory l.roots.benchmark then throw (.missingBenchmark l.roots.benchmark)
  let benchmarkFiles ← l.sourcesBelow l.roots.benchmark
  (Exploration.start l benchmarkFiles).run

def sites (l : Lookup) : Except ResolveError SiteMap :=
  l.program.map collectSites

end Lookup

end WitnessReplay.Benchmark
