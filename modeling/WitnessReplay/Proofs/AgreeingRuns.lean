import WitnessReplay.Benchmark.Exploration

/-!
# Explorations that agree

What an exploration does next depends on what it has visited, what is pending and what has been
read, and on nothing else but the reading of files. Where two lookups read every file in
agreement, their explorations agree to the end.
-/

namespace WitnessReplay.Benchmark

open Files Source Witness

section Agree

variable {ε α β : Type}

/-- Two results agree: both are the same value, or both are errors, and the errors are related. -/
inductive Agree (E : ε → ε → Prop) : Except ε α → Except ε α → Prop where
  | ok (a : α) : Agree E (.ok a) (.ok a)
  | error {e e' : ε} (h : E e e') : Agree E (.error e) (.error e')

variable {E : ε → ε → Prop} {x y : Except ε α}

theorem Agree.of_eq (hE : ∀ e, E e e) (h : x = y) : Agree E x y := by
  subst h
  cases x with
  | ok a => exact .ok a
  | error e => exact .error (hE e)

theorem Agree.eq (h : Agree (· = ·) x y) : x = y := by
  cases h with
  | ok a => rfl
  | error h => rw [h]

theorem Agree.bind {f g : α → Except ε β} (h : Agree E x y)
    (hfg : ∀ a, x = .ok a → Agree E (f a) (g a)) :
    Agree E (x >>= f) (y >>= g) := by
  cases h with
  | ok a => exact hfg a rfl
  | error h => exact .error h

theorem Agree.map (f : α → β) (h : Agree E x y) : Agree E (x.map f) (y.map f) := by
  cases h with
  | ok a => exact .ok (f a)
  | error h => exact .error h

theorem Agree.eq_of_ok {a b : α} (h : Agree E (.ok a) (.ok b)) : a = b := by
  cases h
  rfl

end Agree

namespace Exploration

variable {l l' : Lookup} {benchmarkFiles : List Path} {E : ResolveError → ResolveError → Prop}

/-- What an exploration has visited, what is pending, and what has been read. -/
abbrev View := List Path × List Path × List SourceFile

def view (s : Exploration l benchmarkFiles) : View :=
  (s.visited, s.pending, s.parsed)

def advance (read : Path → Except ResolveError (SourceFile × List Path)) :
    View → Except ResolveError (Option View)
  | (_, [], _) => .ok none
  | (visited, path :: rest, parsed) =>
    if path.isAmong visited then .ok (some (visited, rest, parsed))
    else if fileIdentifier path.text = provider then .ok (some (path :: visited, rest, parsed))
    else
      (read path).map fun (file, imported) =>
        some (path :: visited, (imported.filter fun p => !p.isAmong (path :: visited)).reverse ++
          rest, parsed ++ [file])

theorem map_view_step (s : Exploration l benchmarkFiles) :
    s.step.map (·.map view) = advance (l.readSource benchmarkFiles) s.view := by
  unfold step
  split
  · rename_i hpending
    rw [view, hpending]
    rfl
  · rename_i path rest hpending
    have hview : s.view = (s.visited, path :: rest, s.parsed) := by rw [view, hpending]
    rw [hview, advance]
    simp only []
    by_cases hamong : path.isAmong s.visited = true
    · rw [if_pos hamong, if_pos hamong]
      rfl
    rw [if_neg hamong, if_neg hamong]
    by_cases hprovider : fileIdentifier path.text = provider
    · rw [if_pos hprovider, if_pos hprovider]
      rfl
    rw [if_neg hprovider, if_neg hprovider]
    split
    · rename_i e hread
      rw [hread]
      rfl
    · rename_i file imported hread
      refine Eq.trans ?_ (congrArg (Except.map _) hread).symm
      rfl

/-- The provider's file is not read, so that its reading does not matter. -/
theorem agree_advance {read read' : Path → Except ResolveError (SourceFile × List Path)}
    (hread : ∀ p, fileIdentifier p.text ≠ provider → Agree E (read p) (read' p)) (v : View) :
    Agree E (advance read v) (advance read' v) := by
  obtain ⟨visited, pending, parsed⟩ := v
  cases pending with
  | nil => exact .ok none
  | cons path rest =>
    rw [advance, advance]
    by_cases hamong : path.isAmong visited = true
    · rw [if_pos hamong, if_pos hamong]
      exact .ok _
    rw [if_neg hamong, if_neg hamong]
    by_cases hprovider : fileIdentifier path.text = provider
    · rw [if_pos hprovider, if_pos hprovider]
      exact .ok _
    · rw [if_neg hprovider, if_neg hprovider]
      exact (hread path hprovider).map _

section Lockstep

variable {s : Exploration l benchmarkFiles} {s' : Exploration l' benchmarkFiles}

theorem agree_step (hread : ∀ p, fileIdentifier p.text ≠ provider →
      Agree E (l.readSource benchmarkFiles p) (l'.readSource benchmarkFiles p)) (hview :
      s.view = s'.view) :
    Agree E (s.step.map (·.map view)) (s'.step.map (·.map view)) := by
  rw [map_view_step, map_view_step, hview]
  exact agree_advance hread s'.view

theorem agree_run (hread : ∀ p, fileIdentifier p.text ≠ provider →
      Agree E (l.readSource benchmarkFiles p) (l'.readSource benchmarkFiles p)) (hview :
      s.view = s'.view) :
    Agree E s.run s'.run := by
  induction s using run.induct generalizing s' with
  | case1 s e hstep =>
    have hagree := agree_step hread hview
    rcases hstep' : s'.step with e' | next
    · rw [hstep, hstep'] at hagree
      cases hagree with
      | error h =>
        rw [run_of_step_error hstep, run_of_step_error hstep']
        exact .error h
    · rw [hstep, hstep'] at hagree
      cases hagree
  | case2 s hstep =>
    have hagree := agree_step hread hview
    rcases hstep' : s'.step with e' | _ | next
    · rw [hstep, hstep'] at hagree
      cases hagree
    · have hparsed : s.parsed = s'.parsed := congrArg (fun v : View => v.2.2) hview
      rw [run_of_step_none hstep, run_of_step_none hstep', hparsed]
      exact .ok s'.parsed
    · rw [hstep, hstep'] at hagree
      cases hagree
  | case3 s next hstep ih =>
    have hagree := agree_step hread hview
    rcases hstep' : s'.step with e' | _ | next'
    · rw [hstep, hstep'] at hagree
      cases hagree
    · rw [hstep, hstep'] at hagree
      cases hagree
    · rw [hstep, hstep'] at hagree
      rw [run_of_step_some hstep, run_of_step_some hstep']
      exact ih (Option.some.inj hagree.eq_of_ok)

end Lockstep

end Exploration

namespace Lookup

variable {l l' : Lookup} {benchmarkFiles : List Path} {p : Path}
    {E : ResolveError → ResolveError → Prop}

theorem agree_dependencies
    (himported : ∀ i, Agree E (l.importedFiles benchmarkFiles p i)
    (l'.importedFiles benchmarkFiles p i))
    (imports : List Import) :
    Agree E (l.dependencies benchmarkFiles p imports)
    (l'.dependencies benchmarkFiles p imports) := by
  induction imports with
  | nil => exact .ok []
  | cons i rest ih =>
    rw [dependencies, dependencies]
    refine (himported i).bind fun found _ => ih.bind fun others _ => ?_
    exact .ok (found ++ others)

theorem agree_readSource (houtline : Agree E (l.outline p) (l'.outline p))
    (himported : ∀ i, Agree E (l.importedFiles benchmarkFiles p i)
    (l'.importedFiles benchmarkFiles p i)) :
    Agree E (l.readSource benchmarkFiles p) (l'.readSource benchmarkFiles p) := by
  refine houtline.bind fun outline _ =>
    (agree_dependencies himported outline.imports).bind fun imported _ => ?_
  exact .ok (SourceFile.mk (fileIdentifier p.text) outline, imported)

/-- Lookups that list the benchmark alike and read in agreement find the same sites, or fail in
agreement. -/
theorem agree_sites (hE : ∀ e, E e e) (hroot : l.roots.benchmark = l'.roots.benchmark)
    (hdir : l.files.isDirectory l.roots.benchmark = l'.files.isDirectory l.roots.benchmark)
    (hsources : l.sourcesBelow l.roots.benchmark = l'.sourcesBelow l.roots.benchmark)
    (hread : ∀ benchmarkFiles p, fileIdentifier p.text ≠ provider →
      Agree E (l.readSource benchmarkFiles p) (l'.readSource benchmarkFiles p)) :
      Agree E l.sites l'.sites := by
  refine Agree.map collectSites ?_
  rw [program, program, ← hroot, ← hdir, ← hsources]
  split
  · exact .error (hE _)
  · refine (Agree.of_eq hE rfl).bind fun benchmarkFiles _ => ?_
    exact Exploration.agree_run (hread benchmarkFiles) rfl

end Lookup

end WitnessReplay.Benchmark
