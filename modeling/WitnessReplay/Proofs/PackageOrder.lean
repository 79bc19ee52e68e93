import Mathlib.Data.List.Nodup
import WitnessReplay.Proofs.AgreeingRuns
import WitnessReplay.Proofs.LexicalRoute

/-!
# The order of the package directories

An import has to have one meaning, so that the order in which package directories are searched
cannot choose between several. It only shows in the list of candidates of an ambiguous import.

It does matter if a directory is given twice in different spellings, since the first one is
kept and paths are built from it.
-/

namespace WitnessReplay.Files.Path

open List

variable {p q rel : Path}

theorem eq_empty_of_parts (h : p.parts = [""]) : p.text = "" := by
  obtain ⟨cs, hcs⟩ : ∃ cs, p.text = String.ofList cs := ⟨p.text.toList, by simp⟩
  rw [parts, Text.split, hcs, String.toList_ofList] at h
  cases cs with
  | nil => exact hcs
  | cons c cs =>
    obtain ⟨part, rest, hrest⟩ := exists_cons_of_ne_nil (Text.splitAt_ne_nil '/' cs)
    by_cases hc : c = '/'
    · simp [Text.splitAt, hc, hrest] at h
    · simp [Text.splitAt_cons_of_ne hc hrest] at h

theorem start_eq_nil (h : p.isAbsolute = false) (hpoint : p.parts.head? ≠ some ".") :
    p.start = [] := by
  rw [start, h, if_neg Bool.false_ne_true, if_neg hpoint]

/-- A path that does not start with a point adds its components to what it is joined to. -/
theorem components_join (p : Path) (hrel : rel.isAbsolute = false)
    (hpoint : rel.parts.head? ≠ some ".") :
    (p.join rel).components = p.components ++ rel.parts.filterMap component? := by
  obtain ⟨front, hjoin, hfront⟩ := p.parts_join hrel
  have hnames : p.parts.filterMap component? = front.filterMap component? := by
    rcases hfront with hfront | hfront
    · rw [hfront]
    · rw [hfront, filterMap_append]
      exact append_nil _
  have hstart : (p.join rel).start = p.start := by
    by_cases hp : p.text = ""
    · have hempty : p = ⟨""⟩ := by rw [← hp]
      have hself : p.join rel = rel := by simp [join, hrel, hp]
      rw [hself, start_eq_nil hrel hpoint, hempty]
      rfl
    · have habsolute : (p.join rel).isAbsolute = p.isAbsolute := by
        rw [join, hrel, if_neg Bool.false_ne_true]
        split
        · exact isAbsolute_append hp rel.text
        · rw [String.append_assoc]
          exact isAbsolute_append hp _
      have hhead : (p.join rel).parts.head? = p.parts.head? := by
        cases front with
        | cons part front => rcases hfront with hfront | hfront <;> rw [hjoin, hfront] <;> rfl
        | nil =>
          -- a path that is not empty has a part or two slashes
          rcases hfront with hfront | hfront
          · exact absurd hfront p.parts_ne_nil
          · exact absurd (eq_empty_of_parts hfront) hp
      rw [start, start, habsolute, hhead]
  rw [components, components, hstart, hjoin, filterMap_append, hnames, append_assoc]

theorem notMem_text_join (hp : '.' ∉ p.text.toList) (hq : '.' ∉ q.text.toList) :
    '.' ∉ (p.join q).text.toList := by
  unfold join
  split
  · exact hq
  · split <;> simp [hp, hq]

theorem notMem_text_ofParts {parts : List String} (h : ∀ part ∈ parts, '.' ∉ part.toList) :
    '.' ∉ (ofParts parts).text.toList := by
  have hall (p : Path) (hp : '.' ∉ p.text.toList) : '.' ∉ (p.joinAll parts).text.toList := by
    induction parts generalizing p with
    | nil => exact hp
    | cons part parts ih =>
      obtain ⟨hpart, hparts⟩ := forall_mem_cons.1 h
      exact ih hparts (p.join ⟨part⟩) (notMem_text_join hp hpart)
  exact hall ⟨""⟩ (by simp)

/-- What is joined to a path without points can be told from the result, unless it does not
matter. -/
theorem join_eq_of_same (hrel : '.' ∉ rel.text.toList) (hpq : p.same q = true → p = q)
    (h : (p.join rel).same (q.join rel) = true) : p.join rel = q.join rel := by
  by_cases habsolute : rel.isAbsolute = true
  · rw [join, join, if_pos habsolute, if_pos habsolute]
  · have habsolute := eq_false_of_ne_true habsolute
    have hpoint : rel.parts.head? ≠ some "." := by
      intro hhead
      obtain ⟨part, hpart, htext⟩ := mem_map.1 (mem_of_mem_head? hhead)
      have hmem : '.' ∈ part := by
        rw [← String.toList_ofList (l := part), htext]
        decide
      exact hrel (Text.mem_of_mem_splitAt hpart hmem).1
    have hcomponents := eq_of_beq h
    rw [components_join p habsolute hpoint, components_join q habsolute hpoint] at hcomponents
    rw [hpq (beq_iff_eq.2 (append_cancel_right hcomponents))]

end WitnessReplay.Files.Path

namespace WitnessReplay.Benchmark

open Files Source Witness List

namespace Lookup

variable {xs xs' acc acc' : List Path} {p q : Path} {i : Import} {file : Path}

def SpeltOnce (paths : List Path) : Prop :=
  ∀ p ∈ paths, ∀ q ∈ paths, p.same q = true → p = q

/-- What comes of adding paths of which no two are spellings of one: those that are not yet
there, each once. -/
theorem exists_foldl_addNew (hxs : SpeltOnce xs) (acc : List Path) :
    ∃ new, xs.foldl addNew acc = acc ++ new ∧ new.Nodup ∧ ∀ p, p ∈ new ↔
      p ∈ xs ∧ p.isAmong acc = false := by
  induction xs generalizing acc with
  | nil => exact ⟨[], by simp, .nil, by simp⟩
  | cons x xs ih =>
    have hrest : SpeltOnce xs :=
      fun p hp q hq => hxs p (mem_cons_of_mem x hp) q (mem_cons_of_mem x hq)
    rw [foldl_cons]
    by_cases hx : x.isAmong acc = true
    · obtain ⟨new, hnew, hnodup, hmem⟩ := ih hrest acc
      refine ⟨new, by rw [addNew, if_pos hx, hnew], hnodup, fun p => ?_⟩
      rw [hmem, mem_cons]
      constructor
      · exact fun ⟨hp, hfree⟩ => ⟨.inr hp, hfree⟩
      · rintro ⟨rfl | hp, hfree⟩
        · rw [hx] at hfree
          cases hfree
        · exact ⟨hp, hfree⟩
    · obtain ⟨new, hnew, hnodup, hmem⟩ := ih hrest (acc ++ [x])
      have hamong (p : Path) : p.isAmong (acc ++ [x]) = (p.isAmong acc || x.same p) := by
        simp [Path.isAmong]
      have hself : x.same x = true := by simp [Path.same]
      refine ⟨x :: new, by rw [addNew, if_neg hx, hnew, append_assoc, singleton_append],
        ?_, fun p => ?_⟩
      · refine nodup_cons.2 ⟨fun h => ?_, hnodup⟩
        have hfree := ((hmem x).1 h).2
        rw [hamong, hself, Bool.or_true] at hfree
        cases hfree
      · rw [mem_cons, hmem, mem_cons, hamong, Bool.or_eq_false_iff]
        constructor
        · rintro (rfl | ⟨hp, hfree, -⟩)
          · exact ⟨.inl rfl, eq_false_of_ne_true hx⟩
          · exact ⟨.inr hp, hfree⟩
        · rintro ⟨rfl | hp, hfree⟩
          · exact .inl rfl
          · by_cases hsame : x.same p = true
            · exact .inl (hxs x mem_cons_self p (mem_cons_of_mem x hp) hsame).symm
            · exact .inr ⟨hp, hfree, eq_false_of_ne_true hsame⟩

/-- The order in which paths are added, and in which others were there before, does not matter. -/
theorem perm_foldl_addNew (hxs : SpeltOnce xs) (hperm : xs.Perm xs') (hacc : acc.Perm acc') :
    (xs.foldl addNew acc).Perm (xs'.foldl addNew acc') := by
  have hxs' : SpeltOnce xs' :=
    fun p hp q hq => hxs p (hperm.mem_iff.2 hp) q (hperm.mem_iff.2 hq)
  obtain ⟨new, hnew, hnodup, hmem⟩ := exists_foldl_addNew hxs acc
  obtain ⟨new', hnew', hnodup', hmem'⟩ := exists_foldl_addNew hxs' acc'
  have hamong (p : Path) : p.isAmong acc = p.isAmong acc' := hacc.any_eq
  rw [hnew, hnew']
  refine hacc.append ((perm_ext_iff_of_nodup hnodup hnodup').2 fun p => ?_)
  rw [hmem, hmem', hperm.mem_iff, hamong]

end Lookup

/-- Two errors are of the same kind and about the same: they are equal, or both are about one
ambiguous import, and list the same candidates in some order. -/
inductive Alike : ResolveError → ResolveError → Prop where
  | refl (e : ResolveError) : Alike e e
  | ambiguous (path : String) (file : Path) {candidates candidates' : List Path}
      (h : candidates.Perm candidates') :
      Alike (.ambiguous path file candidates) (.ambiguous path file candidates')

namespace Lookup

variable {l : Lookup} {packages benchmarkFiles : List Path} {segments : List String}

def withPackages (l : Lookup) (packages : List Path) : Lookup :=
  { l with roots := { l.roots with packages } }

theorem agree_unique? {candidates candidates' : List Path} (h : candidates.Perm candidates')
    (i : Import) (file : Path) :
    Agree Alike (unique? i file candidates) (unique? i file candidates') := by
  match candidates, candidates', h with
  | [], candidates', h =>
    rw [nil_perm.1 h]
    exact .ok none
  | [p], candidates', h =>
    rw [← singleton_perm.1 h]
    exact .ok (some p)
  | p :: q :: rest, candidates', h =>
    match candidates', h.length_eq, h with
    | p' :: q' :: rest', _, h =>
      have halike : Alike (.ambiguous i.path file (p :: q :: rest))
          (.ambiguous i.path file (p' :: q' :: rest')) :=
        .ambiguous i.path file h
      exact .error halike

theorem packageFiles_eq_bind (l : Lookup) (i : Import) (file : Path) (segments : List String) :
    l.packageFiles i file segments =
      (unique? i file (l.packageCandidates segments)).bind fun found =>
      match found with
      | some directory => l.sourcesBelow directory
      | none => .error (.noDefinition i.path file) := by
  unfold packageFiles
  generalize unique? i file (l.packageCandidates segments) = found
  rcases found with e | _ | directory
  · rfl
  · rfl
  · rfl

theorem notMem_segments (i : Import) : ∀ segment ∈ i.segments, '.' ∉ segment.toList := by
  intro segment hsegment hmem
  obtain ⟨part, hpart, rfl⟩ := mem_map.1 hsegment
  rw [String.toList_ofList] at hmem
  exact (Text.mem_of_mem_splitAt hpart hmem).2 rfl

theorem notMem_typeSegments (i : Import) : ∀ segment ∈ typeSegments i, '.' ∉ segment.toList := by
  unfold typeSegments
  split
  · exact fun segment h => notMem_segments i segment (dropLast_subset _ h)
  · exact notMem_segments i

section Permuted

variable (hperm : l.roots.packages.Perm packages)
include hperm

theorem perm_typeCandidates (benchmarkFiles : List Path) (segments : List String) :
    (l.typeCandidates benchmarkFiles segments).Perm
    ((l.withPackages packages).typeCandidates benchmarkFiles segments) := by
  have hfile : (l.withPackages packages).typeFile? segments = l.typeFile? segments := rfl
  rw [typeCandidates, typeCandidates, hfile]
  cases l.typeFile? segments with
  | none => exact .nil
  | some relative =>
    simp only []
    cases benchmarkFiles.filter (·.endsWith relative) with
    | nil => exact (hperm.map _).filter _
    | cons found others => exact .refl _

variable (hspelt : SpeltOnce l.roots.packages)
include hspelt

/-- A package is looked up in the benchmark first, and in the other directories in any order. -/
theorem perm_packageCandidates (hsegments : ∀ segment ∈ segments, '.' ∉ segment.toList) :
    (l.packageCandidates segments).Perm ((l.withPackages packages).packageCandidates segments) := by
  have hrelative := Path.notMem_text_ofParts hsegments
  have hnested : SpeltOnce
      ((l.roots.packages.map (·.join (.ofParts segments))).filter l.files.isDirectory) := by
    intro p hp q hq hsame
    obtain ⟨root, hroot, rfl⟩ := mem_map.1 (mem_filter.1 hp).1
    obtain ⟨root', hroot', rfl⟩ := mem_map.1 (mem_filter.1 hq).1
    exact Path.join_eq_of_same hrelative (hspelt root hroot root' hroot') hsame
  have hnamed : SpeltOnce (l.roots.packages.filter (·.endsWith (.ofParts segments))) :=
    fun p hp q hq => hspelt p (mem_filter.1 hp).1 q (mem_filter.1 hq).1
  simp only [packageCandidates, withPackages, Roots.all, map_cons, filter_cons, foldl_append]
  refine perm_foldl_addNew hnamed (hperm.filter _) ?_
  split
  · rw [foldl_cons, foldl_cons]
    exact perm_foldl_addNew hnested ((hperm.map _).filter _) (.refl _)
  · exact perm_foldl_addNew hnested ((hperm.map _).filter _) (.refl _)

theorem agree_packageFiles (i : Import) (file : Path)
    (hsegments : ∀ segment ∈ segments, '.' ∉ segment.toList) :
    Agree Alike (l.packageFiles i file segments)
    ((l.withPackages packages).packageFiles i file segments) := by
  rw [packageFiles_eq_bind, packageFiles_eq_bind]
  refine (agree_unique? (perm_packageCandidates hperm hspelt hsegments) i file).bind fun directory
    _ => ?_
  cases directory with
  | some directory => exact .of_eq .refl rfl
  | none => exact .error (.refl _)

theorem agree_importedFiles (benchmarkFiles : List Path) (file : Path) (i : Import) :
    Agree Alike (l.importedFiles benchmarkFiles file i)
    ((l.withPackages packages).importedFiles benchmarkFiles file i) := by
  have hrules : (l.withPackages packages).rules = l.rules := rfl
  rw [importedFiles, importedFiles, hrules]
  by_cases hignored : l.rules.ignores i = true
  · rw [if_pos hignored, if_pos hignored]
    exact .ok []
  rw [if_neg hignored, if_neg hignored]
  by_cases hwildcard : (i.wildcard && !i.isStatic) = true
  · rw [if_pos hwildcard, if_pos hwildcard]
    exact agree_packageFiles hperm hspelt i file (notMem_segments i)
  rw [if_neg hwildcard, if_neg hwildcard]
  have hunique := agree_unique? (perm_typeCandidates hperm benchmarkFiles (typeSegments i)) i file
  simp only []
  revert hunique
  generalize unique? i file (l.typeCandidates benchmarkFiles (typeSegments i)) = found
  generalize unique? i file
    ((l.withPackages packages).typeCandidates benchmarkFiles (typeSegments i)) = found'
  intro hunique
  cases hunique with
  | error h => exact .error h
  | ok declaration =>
    cases declaration with
    | some declaration => exact .ok [declaration]
    | none =>
      simp only []
      split
      · refine agree_packageFiles hperm hspelt i file fun segment hsegment => ?_
        exact notMem_typeSegments i segment (dropLast_subset _ hsegment)
      · exact .error (.refl _)

end Permuted

end Lookup

/-- The order of the package directories does not matter, if none of them is given in two
spellings: the sites are the same, or the errors are alike. -/
theorem sites_of_permuted_packages {l : Lookup} {packages : List Path}
    (hperm : l.roots.packages.Perm packages) (hspelt : Lookup.SpeltOnce l.roots.packages) :
    Agree Alike l.sites (l.withPackages packages).sites := by
  refine Lookup.agree_sites .refl rfl rfl rfl fun benchmarkFiles p _ => ?_
  refine Lookup.agree_readSource (.of_eq .refl rfl) fun i => ?_
  exact Lookup.agree_importedFiles hperm hspelt benchmarkFiles p i

/-- A benchmark that imports a package, and package directories that hold it twice under
different names. -/
def ambiguousLookup : Lookup where
  language := .java
  roots := ⟨⟨"m"⟩, [⟨"b"⟩, ⟨"c"⟩]⟩
  files :=
    { root :=
        .directory "b" false (.directory "a" false .empty .empty)
          (.directory "c" false (.directory "a" false .empty .empty)
            (.directory "m" false (.file "Main.java" false {} "import a.*;".toUTF8 .empty)
              .empty))
      sorted := ⟨by decide, ⟨by decide, trivial, trivial⟩,
      by decide, ⟨by decide, trivial, trivial⟩, by decide,
        ⟨by decide, trivial⟩, trivial⟩
      named := ⟨by decide, ⟨by decide, trivial, trivial⟩,
      by decide, ⟨by decide, trivial, trivial⟩, by decide,
        ⟨by decide, trivial⟩, trivial⟩ }

/-- An import that is ambiguous in one order is ambiguous in the other one. -/
theorem sites_of_reversed_packages :
    ambiguousLookup.roots.packages.Perm [⟨"c"⟩, ⟨"b"⟩] ∧
    Lookup.SpeltOnce ambiguousLookup.roots.packages ∧
      Agree Alike ambiguousLookup.sites (ambiguousLookup.withPackages [⟨"c"⟩, ⟨"b"⟩]).sites := by
  have hperm : ambiguousLookup.roots.packages.Perm [⟨"c"⟩, ⟨"b"⟩] := .swap _ _ _
  have hspelt : Lookup.SpeltOnce ambiguousLookup.roots.packages := by
    unfold Lookup.SpeltOnce
    decide
  exact ⟨hperm, hspelt, sites_of_permuted_packages hperm hspelt⟩

theorem Lookup.sites_of_sourcesBelow {l : Lookup} {files : List Path}
    (hdir : l.files.isDirectory l.roots.benchmark = true)
    (hsources : l.sourcesBelow l.roots.benchmark = .ok files) :
    l.sites = (Exploration.start l files).run.map collectSites := by
  rw [sites, program, hdir, hsources]
  rfl

namespace Exploration

variable {l : Lookup} {p : Path} {file : SourceFile} {e : ResolveError}

theorem run_start_error (hp : fileIdentifier p.text ≠ provider)
    (hread : l.readSource [p] p = .error e) :
    (start l [p]).run = .error e := by
  have hstep := map_view_step (start l [p])
  have hadvance : advance (l.readSource [p]) (start l [p]).view = .error e := by
    show advance _ ([], [p], []) = _
    rw [advance, if_neg (by simp [Path.isAmong]), if_neg hp, hread]
    rfl
  rw [hadvance] at hstep
  rcases hnext : (start l [p]).step with e' | next
  · rw [hnext] at hstep
    cases hstep
    exact run_of_step_error hnext
  · rw [hnext] at hstep
    cases hstep

theorem exists_run_start (hp : fileIdentifier p.text ≠ provider)
    (hread : l.readSource [p] p = .ok (file, [])) :
    ∃ files, (start l [p]).run = .ok files := by
  have hstep := map_view_step (start l [p])
  have hadvance : advance (l.readSource [p]) (start l [p]).view = .ok (some ([p], [], [file])) := by
    show advance _ ([], [p], []) = _
    rw [advance, if_neg (by simp [Path.isAmong]), if_neg hp, hread]
    rfl
  rw [hadvance] at hstep
  rcases hnext : (start l [p]).step with e' | _ | next
  · rw [hnext] at hstep
    cases hstep
  · rw [hnext] at hstep
    cases hstep
  · rw [hnext] at hstep
    have hview : next.view = ([p], [], [file]) := Option.some.inj (Except.ok.inj hstep)
    have hend := map_view_step next
    rw [hview] at hend
    rcases hlast : next.step with e' | _ | other
    · rw [hlast] at hend
      cases hend
    · exact ⟨next.parsed, (run_of_step_some hnext).trans (run_of_step_none hlast)⟩
    · rw [hlast] at hend
      cases hend

end Exploration

/-- A benchmark that imports a package, and a path that ends like it, given with and without a
slash. It leads to a file, which can be listed only without the slash. -/
def twiceSpeltLookup : Lookup where
  language := .java
  roots := ⟨⟨"m"⟩, [⟨"x/f"⟩, ⟨"x/f/"⟩]⟩
  files :=
    { root :=
        .directory "m" false (.file "Main.java" false {} "import f.*;".toUTF8 .empty)
          (.directory "x" false (.file "f" false {} .empty .empty) .empty)
      sorted := ⟨by decide, ⟨by decide, trivial⟩, by decide, ⟨by decide, trivial⟩, trivial⟩
      named := ⟨by decide, ⟨by decide, trivial⟩, by decide, ⟨by decide, trivial⟩, trivial⟩ }

/-- With two spellings of one path, the order decides whether there is a result. -/
theorem not_agree_sites_of_permuted :
    ¬∀ (l : Lookup) (packages : List Path), l.roots.packages.Perm packages →
      Agree Alike l.sites (l.withPackages packages).sites := by
  intro h
  have hagree := h twiceSpeltLookup [⟨"x/f/"⟩, ⟨"x/f"⟩] (.swap _ _ _)
  have hprovider : fileIdentifier "m/Main.java" ≠ provider := by decide
  have hdir : twiceSpeltLookup.files.isDirectory ⟨"m"⟩ = true := by decide
  have hsources : twiceSpeltLookup.sourcesBelow ⟨"m"⟩ = .ok [⟨"m/Main.java"⟩] := by decide
  have hread : (twiceSpeltLookup.readSource [⟨"m/Main.java"⟩] ⟨"m/Main.java"⟩).map (·.2) =
      .ok [] := by decide +kernel
  have hread' : ((twiceSpeltLookup.withPackages [⟨"x/f/"⟩, ⟨"x/f"⟩]).readSource
      [⟨"m/Main.java"⟩] ⟨"m/Main.java"⟩).map (·.2) =
        .error (.unlisted ⟨"x/f/"⟩ ⟨⟨"x/f/"⟩, .notADirectory⟩) := by decide +kernel
  obtain ⟨⟨file, imported⟩, hread, rfl⟩ := map_eq_ok_iff.1 hread
  obtain ⟨files, hrun⟩ := Exploration.exists_run_start hprovider hread
  have hsites := Lookup.sites_of_sourcesBelow hdir hsources
  have hsites' := Lookup.sites_of_sourcesBelow (l := twiceSpeltLookup.withPackages [⟨"x/f/"⟩,
    ⟨"x/f"⟩]) hdir hsources
  rw [hrun] at hsites
  cases hread'' : (twiceSpeltLookup.withPackages [⟨"x/f/"⟩, ⟨"x/f"⟩]).readSource
    [⟨"m/Main.java"⟩] ⟨"m/Main.java"⟩ with
  | ok found =>
    rw [hread''] at hread'
    cases hread'
  | error e =>
    rw [Exploration.run_start_error hprovider hread''] at hsites'
    rw [hsites, hsites'] at hagree
    cases hagree

end WitnessReplay.Benchmark
