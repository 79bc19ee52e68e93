import WitnessReplay.Proofs.CopiedSources
import WitnessReplay.Proofs.PreparedSources
import WitnessReplay.Proofs.RepeatedPackages

/-!
# What an import refers to

An import has one meaning or none. A type is in the only file that may declare it, where files
of the benchmark hide those in package directories; a package is everything below the only
directory that may hold it. In Kotlin a name that is no type is a member of a package. Several
files or directories make an import ambiguous, and so does one file that is found in several
package directories, as the path of a type leads to it from all of them if it is absolute.
-/

namespace WitnessReplay.Files

open Directory List

theorem Directory.nodup_gather {α : Type} {f : Status → α} {stops : Status → Bool}
    {d : Directory} (hd : d.Sorted) : ((d.gather f stops).map (·.1)).Nodup := by
  induction d with
  | empty => exact nodup_nil
  | cons n e rest ihInside ihRest =>
    obtain ⟨hlt, he, hrest⟩ := sorted_cons.1 hd
    have hinside : ((e.inside.gather f stops).map (·.1)).Nodup := by
      cases e with
      | directory linked inside => exact ihInside linked inside rfl he
      | file linked access content => exact nodup_nil
      | broken fillable => exact nodup_nil
    have hbelow : ∀ t ∈ (e.inside.gather f stops).map (·.1), t ≠ [] := by
      intro t ht
      obtain ⟨⟨t, a⟩, hmem, rfl⟩ := mem_map.1 ht
      obtain ⟨name, t, -, rfl, -, -⟩ := (mem_gather_iff he.inside).1 hmem
      exact cons_ne_nil name t
    have hother : ∀ t, n :: t ∉ (rest.gather f stops).map (·.1) := by
      intro t ht
      obtain ⟨⟨r, a⟩, hmem, rfl⟩ := mem_map.1 ht
      obtain ⟨name, t, child, heq, hfind, -⟩ := (mem_gather_iff hrest).1 hmem
      cases heq
      rw [find?_eq_none_of_lt hlt] at hfind
      cases hfind
    have hmap : ((e.inside.gather f stops).map fun x => (n :: x.1, x.2)).map (·.1) =
        ((e.inside.gather f stops).map (·.1)).map (n :: ·) := by
      rw [map_map, map_map]
      rfl
    rw [gather_cons, map_append, map_cons]
    refine nodup_append.2 ⟨nodup_cons.2 ⟨?_, ?_⟩, ihRest hrest, ?_⟩
    · split
      · exact not_mem_nil
      · rw [hmap]
        intro hmem
        obtain ⟨t, ht, heq⟩ := mem_map.1 hmem
        cases heq
        exact hbelow [] ht rfl
    · split
      · exact nodup_nil
      · rw [hmap]
        exact hinside.map fun t t' ht => (List.cons.inj ht).2
    · rintro r hr r' hr' rfl
      rcases mem_cons.1 hr with rfl | hr
      · exact hother [] hr'
      · split at hr
        · cases hr
        · rw [hmap] at hr
          obtain ⟨t, -, rfl⟩ := mem_map.1 hr
          exact hother t hr'

namespace Path

variable {p q rel : Path}

theorem same_of_join_eq (hrel : rel.isAbsolute = false) (h : p.join rel = q.join rel) :
    p.same q = true := by
  have hempty : isAbsolute ⟨""⟩ = false := rfl
  obtain ⟨lead, hlead⟩ := p.exists_lead
  obtain ⟨lead', hlead'⟩ := q.exists_lead
  rw [hlead rel hrel, hlead' rel hrel] at h
  have htext : lead.toList ++ rel.text.toList = lead'.toList ++ rel.text.toList := by
    rw [← String.toList_append, ← String.toList_append, Path.mk.inj h]
  have hslash : p.join ⟨""⟩ = q.join ⟨""⟩ := by
    rw [hlead _ hempty, hlead' _ hempty, String.toList_inj.1 (append_cancel_right htext)]
  have hcomponents (p : Path) : (p.join ⟨""⟩).components = p.components := by
    rw [components_join p hempty (by decide)]
    exact append_nil _
  rw [same, beq_iff_eq, ← hcomponents p, ← hcomponents q, hslash]

end Path

namespace FileSystem

variable {fs : FileSystem} {p root : Path} {extension : String} {s : Standing}

theorem nodup_visits (h : fs.locate root = .ok s) :
    ((s.entry.visits root).map (·.relative)).Nodup := by
  obtain ⟨-, hat⟩ := locate_eq_ok h
  have hsorted : s.entry.inside.Sorted :=
    (Entry.Sorted.at? (e := .directory false fs.root) fs.sorted hat).inside
  have hmap : (s.entry.visits root).map (·.relative) = [] :: s.entry.inside.walked.map (·.1) := by
    rw [Entry.visits, map_cons, map_map]
    rfl
  rw [hmap, nodup_cons]
  refine ⟨?_, nodup_gather hsorted⟩
  intro hmem
  obtain ⟨⟨t, k⟩, ht, rfl⟩ := mem_map.1 hmem
  exact ((mem_walked_iff hat).1 ht).1 rfl

theorem visit_eq (h : fs.locate root = .ok s) {v : Visit} (hv : v ∈ s.entry.visits root) :
    v.path = root.joinAll v.relative ∧ ∀ name ∈ v.relative, IsPart name := by
  obtain ⟨-, hat⟩ := locate_eq_ok h
  rcases (mem_visits_iff hat).1 hv with rfl | ⟨t, k, -, hsees, rfl⟩
  · exact ⟨rfl, fun name hname => absurd hname not_mem_nil⟩
  · refine ⟨rfl, ?_⟩
    intro name hname
    have hthere : fs.status? (s.route ++ t) ≠ none := by
      intro hnone
      have hkind := hsees.kind
      rw [hnone] at hkind
      cases hkind
    exact (isName_of_status? hthere name (mem_append_right _ hname)).isPart

theorem nodup_sourceVisits (h : fs.locate root = .ok s) :
    (((s.entry.visits root).filter (·.isSource extension)).map (·.path)).Nodup := by
  have hroutes := nodup_visits h
  refine List.Nodup.map_on ?_ (hroutes.of_map.filter _)
  intro v hv v' hv' hpath
  have hv := (mem_filter.1 hv).1
  have hv' := (mem_filter.1 hv').1
  obtain ⟨hjoin, hparts⟩ := visit_eq h hv
  obtain ⟨hjoin', hparts'⟩ := visit_eq h hv'
  rw [hjoin, hjoin'] at hpath
  exact inj_on_of_nodup_map hroutes hv hv'
    (Benchmark.joinAll_injective hparts hparts' hpath)

end FileSystem

end WitnessReplay.Files

namespace WitnessReplay.Benchmark

open Files FileSystem Source Witness List

namespace Lookup

variable {l : Lookup} {d f p q file relative : Path} {i : Import} {found xs acc : List Path}
  {segments : List String}

/-! ### Types -/

/-- A source file of the benchmark whose path ends with the path of a type. -/
def IsInBenchmark (l : Lookup) (relative f : Path) : Prop :=
  l.files.HasSource l.roots.benchmark l.language.extension f ∧
    relative.components <:+ f.components

/-- A file that may declare a type, with the package directory from which it is found if it is
none of the benchmark. -/
structure Hit where
  package : Option Path
  file : Path

/-- The files of the benchmark that may declare a type, and if there are none, those at its
path from package directories. -/
inductive IsHit (l : Lookup) (relative : Path) : Hit → Prop where
  | source {f : Path} (hf : l.IsInBenchmark relative f) : IsHit l relative ⟨none, f⟩
  | package {p : Path} (hnone : ∀ f, ¬l.IsInBenchmark relative f) (hp : p ∈ l.roots.packages)
      (hfile : l.files.isFile (p.join relative) = true) :
      IsHit l relative ⟨some p, p.join relative⟩

def MayDeclare (l : Lookup) (segments : List String) (h : Hit) : Prop :=
  ∃ relative, l.typeFile? segments = some relative ∧ l.IsHit relative h

theorem mem_filter_endsWith_iff :
    f ∈ l.benchmarkSources.filter (·.endsWith relative) ↔ l.IsInBenchmark relative f := by
  rw [mem_filter, mem_benchmarkSources_iff, Path.endsWith, isSuffixOf_iff_suffix]
  rfl

theorem nodup_benchmarkSources (l : Lookup) : l.benchmarkSources.Nodup := by
  unfold benchmarkSources
  split
  · rename_i s hs
    exact nodup_sourceVisits hs
  · exact .nil

theorem isHit_iff_of_source (hf : l.IsInBenchmark relative f) (h : Hit) :
    l.IsHit relative h ↔ ∃ g, l.IsInBenchmark relative g ∧ ⟨none, g⟩ = h := by
  constructor
  · intro h
    cases h with
    | source hg => exact ⟨_, hg, rfl⟩
    | package hnone => exact absurd hf (hnone f)
  · rintro ⟨g, hg, rfl⟩
    exact .source hg

theorem isHit_iff_of_none (hnone : ∀ f, ¬l.IsInBenchmark relative f) (h : Hit) :
    l.IsHit relative h ↔ ∃ p, (p ∈ l.roots.packages ∧ l.files.isFile (p.join relative) = true) ∧
      ⟨some p, p.join relative⟩ = h := by
  constructor
  · intro h
    cases h with
    | source hf => exact absurd hf (hnone _)
    | package _ hp hfile => exact ⟨_, ⟨hp, hfile⟩, rfl⟩
  · rintro ⟨p, ⟨hp, hfile⟩, rfl⟩
    exact .package hnone hp hfile

/-- The candidates for a type are the files that may declare it, each as often as it is found,
if no package directory is given twice. -/
theorem exists_hits (hdistinct : l.roots.packages.Nodup) (segments : List String) :
    ∃ hits : List Hit, hits.Nodup ∧ (∀ h, h ∈ hits ↔ l.MayDeclare segments h) ∧
      l.typeCandidates l.benchmarkSources segments = hits.map (·.file) := by
  rw [typeCandidates]
  cases hrelative : l.typeFile? segments with
  | none => exact ⟨[], .nil, by simp [MayDeclare, hrelative], rfl⟩
  | some relative =>
    have hdeclare (h : Hit) : l.MayDeclare segments h ↔ l.IsHit relative h := by
      simp [MayDeclare, hrelative]
    simp only [hdeclare]
    cases hfound : l.benchmarkSources.filter (·.endsWith relative) with
    | nil =>
      have hnone (f : Path) : ¬l.IsInBenchmark relative f := by
        rw [← mem_filter_endsWith_iff, hfound]
        exact not_mem_nil
      refine ⟨(l.roots.packages.filter fun p => l.files.isFile (p.join relative)).map
        fun p => ⟨some p, p.join relative⟩, ?_, ?_, ?_⟩
      · refine (hdistinct.filter _).map ?_
        intro p q heq
        cases heq
        rfl
      · intro h
        simp only [mem_map, mem_filter, isHit_iff_of_none hnone]
      · rw [filter_map, map_map]
        rfl
    | cons first others =>
      have hmem (f : Path) : f ∈ first :: others ↔ l.IsInBenchmark relative f :=
        hfound ▸ mem_filter_endsWith_iff
      refine ⟨(first :: others).map fun f => ⟨none, f⟩, ?_, ?_, ?_⟩
      · rw [← hfound]
        refine ((nodup_benchmarkSources l).filter _).map ?_
        intro f g heq
        cases heq
        rfl
      · intro h
        simp only [mem_map, hmem, isHit_iff_of_source ((hmem first).1 mem_cons_self)]
      · rw [map_map]
        exact (map_id _).symm

/-- What is found twice is found from directories that are the same path in two spellings, or
at an absolute path. -/
theorem IsHit.eq_or_same {h h' : Hit} (hh : l.IsHit relative h) (hh' : l.IsHit relative h')
    (heq : h.file = h'.file) : h = h' ∨ ∃ p q, h.package = some p ∧ h'.package = some q ∧
      (p.same q = true ∨ relative.isAbsolute = true) := by
  cases hh with
  | source hf =>
    cases hh' with
    | source hg =>
      cases heq
      exact .inl rfl
    | package hnone => exact absurd hf (hnone _)
  | package hnone hp hfile =>
    cases hh' with
    | source hg => exact absurd hg (hnone _)
    | package hnone' hq hfile' =>
      refine .inr ⟨_, _, rfl, rfl, ?_⟩
      by_cases habsolute : relative.isAbsolute = true
      · exact .inr habsolute
      · exact .inl (Path.same_of_join_eq (eq_false_of_ne_true habsolute) heq)

/-! ### Packages -/

/-- A directory that may hold a package: at the path of the package below a directory, or a
package directory whose own path ends with it. -/
def MayHold (l : Lookup) (segments : List String) (d : Path) : Prop :=
  (∃ root ∈ l.roots.all, d = root.join (.ofParts segments)) ∧ l.files.isDirectory d = true ∨
    d ∈ l.roots.packages ∧ (Path.ofParts segments).components <:+ d.components

/-- Paths are those of some kind, each of them in one spelling. -/
structure EachOnce (P : Path → Prop) (paths : List Path) : Prop where
  sound : ∀ p ∈ paths, P p
  complete : ∀ p, P p → p.isAmong paths = true
  distinct : paths.Pairwise fun p q => p.same q = false

theorem pairwise_foldl_addNew (h : acc.Pairwise fun p q => p.same q = false) (xs : List Path) :
    (xs.foldl addNew acc).Pairwise fun p q => p.same q = false := by
  induction xs generalizing acc with
  | nil => exact h
  | cons x xs ih =>
    refine ih ?_
    unfold addNew
    split
    · exact h
    · rename_i hx
      refine pairwise_append.2 ⟨h, pairwise_singleton _ _, fun p hp q hq => ?_⟩
      cases mem_singleton.1 hq
      exact eq_false_of_ne_true fun hsame => hx (Exploration.isAmong_iff.2 ⟨p, hp, hsame⟩)

theorem eachOnce_packageCandidates (l : Lookup) (segments : List String) :
    EachOnce (l.MayHold segments) (l.packageCandidates segments) where
  sound d hd := by
    rcases mem_foldl_addNew hd with hd | hd
    · cases hd
    · rcases mem_append.1 hd with hd | hd
      · obtain ⟨hd, hdirectory⟩ := mem_filter.1 hd
        obtain ⟨root, hroot, rfl⟩ := mem_map.1 hd
        exact .inl ⟨⟨root, hroot, rfl⟩, hdirectory⟩
      · obtain ⟨hd, hends⟩ := mem_filter.1 hd
        exact .inr ⟨hd, isSuffixOf_iff_suffix.1 hends⟩
  complete d hd := by
    refine isAmong_foldl_addNew (mem_append.2 ?_) []
    rcases hd with ⟨⟨root, hroot, rfl⟩, hdirectory⟩ | ⟨hd, hends⟩
    · exact .inl (mem_filter.2 ⟨mem_map.2 ⟨root, hroot, rfl⟩, hdirectory⟩)
    · exact .inr (mem_filter.2 ⟨hd, isSuffixOf_iff_suffix.2 hends⟩)
  distinct := pairwise_foldl_addNew .nil _

/-- What a package is: the sources below the only directory that may hold it, each once. It can
only be listed if all directories below can be opened. -/
inductive IsPackage (l : Lookup) (i : Import) (file : Path) (segments : List String) :
    Except ResolveError (List Path) → Prop where
  | sources {d : Path} {found : List Path} (only : EachOnce (l.MayHold segments) [d])
      (hopen : l.files.CanBeWalked d) (nodup : found.Nodup)
      (all : ∀ f, f ∈ found ↔ l.files.HasSource d l.language.extension f) :
      IsPackage l i file segments (.ok found)
  | unlisted {d : Path} {cause : WalkError} (only : EachOnce (l.MayHold segments) [d])
      (hclosed : ¬l.files.CanBeWalked d) :
      IsPackage l i file segments (.error (.unlisted d cause))
  | ambiguous {ds : List Path} (several : 1 < ds.length)
      (all : EachOnce (l.MayHold segments) ds) :
      IsPackage l i file segments (.error (.ambiguous i.path file ds))
  | none (none : ∀ d, ¬l.MayHold segments d) :
      IsPackage l i file segments (.error (.noDefinition i.path file))

theorem nodup_sourcesBelow (h : l.sourcesBelow d = .ok found) : found.Nodup := by
  obtain ⟨s, hs, rfl⟩ := sourcesBelow_eq_ok h
  exact nodup_sourceVisits hs

theorem mem_sourcesBelow_iff (h : l.sourcesBelow d = .ok found) :
    f ∈ found ↔ l.files.HasSource d l.language.extension f := by
  obtain ⟨s, hs, rfl⟩ := sourcesBelow_eq_ok h
  exact mem_sourceVisits_iff hs

theorem unlisted_of_sourcesBelow {e : ResolveError} (h : l.sourcesBelow d = .error e) :
    ∃ cause, e = .unlisted d cause ∧ ¬l.files.CanBeWalked d := by
  have hclosed : ¬l.files.CanBeWalked d := by
    intro hopen
    obtain ⟨found, hfound⟩ := exists_sourcesBelow_iff.2 hopen
    cases h.symm.trans hfound
  unfold sourcesBelow at h
  split at h
  · cases h
  · cases h
    exact ⟨_, rfl, hclosed⟩

theorem isPackage_packageFiles (l : Lookup) (i : Import) (file : Path) (segments : List String) :
    l.IsPackage i file segments (l.packageFiles i file segments) := by
  have hcandidates := l.eachOnce_packageCandidates segments
  rw [packageFiles_eq_bind]
  generalize l.packageCandidates segments = ds at hcandidates
  match ds, hcandidates with
  | [], hnone => exact .none fun d hd => absurd (hnone.complete d hd) (by simp [Path.isAmong])
  | [d], honly =>
    show l.IsPackage i file segments (l.sourcesBelow d)
    cases hfound : l.sourcesBelow d with
    | ok found =>
      have hopen := exists_sourcesBelow_iff.1 ⟨found, hfound⟩
      refine .sources honly hopen (nodup_sourcesBelow hfound) ?_
      intro f
      exact mem_sourcesBelow_iff hfound
    | error e =>
      obtain ⟨cause, rfl, hclosed⟩ := unlisted_of_sourcesBelow hfound
      exact .unlisted honly hclosed
  | first :: second :: rest, hseveral => exact .ambiguous (by simp) hseveral

/-! ### Imports -/

theorem importedFiles_of_wildcard (hfollowed : l.rules.ignores i = false)
    (hwildcard : (i.wildcard && !i.isStatic) = true) :
    l.importedFiles l.benchmarkSources file i = l.packageFiles i file i.segments := by
  rw [importedFiles, hfollowed, if_neg Bool.false_ne_true, if_pos hwildcard]

theorem importedFiles_of_type (hfollowed : l.rules.ignores i = false)
    (htype : (i.wildcard && !i.isStatic) = false) :
    l.importedFiles l.benchmarkSources file i =
      (unique? i file (l.typeCandidates l.benchmarkSources (typeSegments i))).bind
        fun found => found.elim
          (if l.language = .kotlin ∧ 1 < (typeSegments i).length then
            l.packageFiles i file (typeSegments i).dropLast
          else .error (.noDefinition i.path file))
          fun f => .ok [f] := by
  have hmembers : (l.rules.importsMembers && decide (1 < (typeSegments i).length)) = true ↔
      l.language = .kotlin ∧ 1 < (typeSegments i).length := by
    rw [Bool.and_eq_true, decide_eq_true_iff, rules]
    cases l.language <;> simp [ImportRules.ofLanguage]
  rw [importedFiles, hfollowed, if_neg Bool.false_ne_true, htype, if_neg Bool.false_ne_true]
  simp only [hmembers]
  generalize unique? i file (l.typeCandidates l.benchmarkSources (typeSegments i)) = found
  rcases found with e | _ | f
  · rfl
  · rfl
  · rfl

def memberLookup : Lookup where
  language := .kotlin
  roots := ⟨⟨"m"⟩, [⟨"p"⟩, ⟨"q"⟩]⟩
  files :=
    (((FileSystem.empty.put ["m"] .directory).put ["p"] .directory).put ["p", "a"]
      .directory).put ["p", "a", "F.kt"] (.file .empty)

-- a path from the root on leads to the same file from both package directories
example : memberLookup.importedFiles memberLookup.benchmarkSources ⟨"m/M.kt"⟩
      { path := "/p/a/F" } =
    .error (.ambiguous "/p/a/F" ⟨"m/M.kt"⟩ [⟨"/p/a/F.kt"⟩, ⟨"/p/a/F.kt"⟩]) := by
  decide

theorem utf8ByteSize_join_le (p : Path) {name : String} (hname : '/' ∉ name.toList) :
    (p.join ⟨name⟩).text.utf8ByteSize ≤ p.text.utf8ByteSize + 1 + name.utf8ByteSize := by
  rcases p.text_join hname with htext | ⟨htext, -⟩
  · rw [htext, String.utf8ByteSize_append, String.utf8ByteSize_append]
    exact Nat.le_refl _
  · rw [htext, String.utf8ByteSize_append]
    omega

theorem components_slashed (n : Nat) : (slashed n).components = [.name "b"] := by
  have habsolute : (slashed n).isAbsolute = false := by simp [slashed, Path.isAbsolute]
  have hslashes : (List.replicate n "").filterMap Path.component? = [] := by
    refine filterMap_eq_nil_iff.2 fun part hpart => ?_
    rw [(mem_replicate.1 hpart).2]
    rfl
  have hhead : (slashed n).parts.head? ≠ some "." := by simp [parts_slashed]
  rw [Path.components, Path.start_eq_nil habsolute hhead, parts_slashed, nil_append,
    filterMap_cons, hslashes]
  rfl

def deepFiles : FileSystem :=
  (((FileSystem.empty.put ["b"] .directory).put ["b", "p"] .directory).put ["b", "p", "deep"]
    .directory).put ["m"] .directory

def deepLookup (n : Nat) : Lookup where
  language := .java
  roots := ⟨⟨"m"⟩, [slashed n]⟩
  files := deepFiles

def deepImport : Import := { path := "p", wildcard := true }

theorem ignores_deepImport (n : Nat) : (deepLookup n).rules.ignores deepImport = false :=
  show (ImportRules.ofLanguage .java).ignores deepImport = false by decide

section DeepLookup

variable {n : Nat}

theorem routeOf_deepFiles (hn : n + 3 < pathLimit) :
    deepFiles.routeOf (slashed n) = .ok ["b"] ∧
      deepFiles.routeOf ((slashed n).join ⟨"p"⟩) = .ok ["b", "p"] := by
  have hroot : deepFiles.routeOf (slashed n) = .ok ["b"] :=
    routeOf_slashed (by decide) (by decide) (by omega)
  refine ⟨hroot, (reaches_of_routeOf hroot).routeOf_join (by decide) ?_⟩
  have hsize := utf8ByteSize_join_le (slashed n) (show '/' ∉ "p".toList by decide)
  rw [utf8ByteSize_slashed] at hsize
  exact Nat.lt_of_le_of_lt hsize hn

theorem mayHold_deepLookup_iff (hn : n + 3 < pathLimit) :
    (deepLookup n).MayHold ["p"] d ↔ d = (slashed n).join ⟨"p"⟩ := by
  have hparts : Path.ofParts ["p"] = ⟨"p"⟩ := by decide
  rw [MayHold, hparts]
  constructor
  · rintro (⟨⟨root, hroot, rfl⟩, hdirectory⟩ | ⟨hd, hends⟩)
    · rcases mem_cons.1 hroot with rfl | hroot
      · have hnone : deepFiles.isDirectory (Path.join ⟨"m"⟩ ⟨"p"⟩) = false := by decide
        cases hnone.symm.trans hdirectory
      · rw [mem_singleton.1 hroot]
    · have hname : [Component.name "p"] <:+ [Component.name "b"] := by
        rw [← components_slashed n, ← mem_singleton.1 hd]
        exact hends
      exact absurd hname (by decide)
  · rintro rfl
    refine .inl ⟨⟨slashed n, mem_cons_of_mem _ mem_cons_self, rfl⟩, ?_⟩
    have hdirectory : deepFiles.get? ["b", "p"] = some .directory := by decide
    exact isDirectory_iff.2 ⟨["b", "p"], (routeOf_deepFiles hn).2, hdirectory⟩

theorem not_canBeWalked_deepFiles (hn : n + 3 < pathLimit) (hlong : pathLimit ≤ n + 6) :
    ¬deepFiles.CanBeWalked ((slashed n).join ⟨"p"⟩) := by
  rintro ⟨r, hr, hshort⟩
  cases (routeOf_deepFiles hn).2.symm.trans hr
  have hdeep : (((slashed n).join ⟨"p"⟩).join ⟨"deep"⟩).text.utf8ByteSize < pathLimit :=
    hshort ["deep"] (sees_entry (by decide))
  have hpackage := (slashed n).utf8ByteSize_le_join (show '/' ∉ "p".toList by decide)
  have hbelow := ((slashed n).join ⟨"p"⟩).utf8ByteSize_le_join (show '/' ∉ "deep".toList by decide)
  have hnames : "p".utf8ByteSize = 1 ∧ "deep".utf8ByteSize = 4 := by decide
  rw [utf8ByteSize_slashed] at hpackage
  omega

end DeepLookup

end Lookup

end WitnessReplay.Benchmark
