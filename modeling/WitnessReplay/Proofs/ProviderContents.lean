import WitnessReplay.Proofs.AgreeingRuns
import WitnessReplay.Proofs.DirectoryMaking

/-!
# What the provider's files hold does not matter

Where paths lead and what a walk finds depends on the kinds of entries only, so that both can
be read off a file system whose files are blank. Contents and modes matter where files are
read, and the files of the provider are never read.
-/

namespace WitnessReplay.Files

open Directory

def Node.blank : Node → Node
  | file _ => file .empty
  | directory => directory

def Status.blank : Status → Status
  | file linked _ _ => file linked {} .empty
  | s => s

/-- A directory with the same entries, whose files are empty and can be read and written. -/
def Directory.blank : Directory → Directory
  | empty => empty
  | file n linked _ _ rest => file n linked {} .empty rest.blank
  | directory n linked inside rest => directory n linked inside.blank rest.blank
  | broken n fillable rest => broken n fillable rest.blank

def Entry.blank : Entry → Entry
  | file linked _ _ => file linked {} .empty
  | directory linked inside => directory linked inside.blank
  | broken fillable => broken fillable

section Status

@[simp] theorem Status.kind_blank (s : Status) : s.blank.kind = s.kind := by
  cases s <;> rfl

@[simp] theorem Status.targetKind_blank (s : Status) : s.blank.targetKind = s.targetKind := by
  cases s <;> rfl

@[simp] theorem Status.linked_blank (s : Status) : s.blank.linked = s.linked := by
  cases s <;> rfl

@[simp] theorem Entry.status_blank (e : Entry) : e.blank.status = e.status.blank := by
  cases e <;> rfl

@[simp] theorem Entry.inside_blank (e : Entry) : e.blank.inside = e.inside.blank := by
  cases e <;> rfl

end Status

namespace Directory

variable {d : Directory}

theorem blank_cons (n : String) (e : Entry) (d : Directory) :
    (cons n e d).blank = cons n e.blank d.blank := by
  cases e <;> rfl

@[simp] theorem names_blank (d : Directory) : d.blank.names = d.names := by
  induction d with
  | empty => rfl
  | cons n e rest _ ih => rw [blank_cons, names_cons, names_cons, ih]

theorem sorted_blank (h : d.Sorted) : d.blank.Sorted := by
  induction d with
  | empty => trivial
  | cons n e rest ihInside ihRest =>
    obtain ⟨hnames, he, hrest⟩ := sorted_cons.1 h
    rw [blank_cons, sorted_cons, names_blank]
    refine ⟨hnames, ?_, ihRest hrest⟩
    cases e with
    | directory linked inside => exact ihInside linked inside rfl he
    | file linked access content => trivial
    | broken fillable => trivial

theorem allNames_blank {q : String → Prop} (h : d.AllNames q) : d.blank.AllNames q := by
  induction d with
  | empty => trivial
  | cons n e rest ihInside ihRest =>
    obtain ⟨hname, he, hrest⟩ := allNames_cons.1 h
    rw [blank_cons, allNames_cons]
    refine ⟨hname, ?_, ihRest hrest⟩
    cases e with
    | directory linked inside => exact ihInside linked inside rfl he
    | file linked access content => trivial
    | broken fillable => trivial

theorem find?_blank (d : Directory) (m : String) :
    d.blank.find? m = (d.find? m).map Entry.blank := by
  induction d with
  | empty => rfl
  | cons n e rest _ ih =>
    rw [blank_cons, find?_cons, find?_cons, ih]
    split <;> rfl

/-- What a walk makes of the kinds of entries does not depend on contents and modes. -/
theorem gather_blank {α : Type} {f : Status → α} {stops : Status → Bool}
    (hf : ∀ s, f s.blank = f s) (hstops : ∀ s, stops s.blank = stops s) (d : Directory) :
    d.blank.gather f stops = d.gather f stops := by
  induction d with
  | empty => rfl
  | cons n e rest ihInside ihRest =>
    have hinside : e.inside.blank.gather f stops = e.inside.gather f stops := by
      cases e with
      | directory linked inside => exact ihInside linked inside rfl
      | file linked access content => rfl
      | broken fillable => rfl
    rw [blank_cons, gather_cons, gather_cons, ihRest, Entry.inside_blank, Entry.status_blank,
      hf, hstops, hinside]

end Directory

theorem Entry.at?_blank (e : Entry) (r : Route) : e.blank.at? r = (e.at? r).map Entry.blank := by
  induction r generalizing e with
  | nil => rfl
  | cons m r ih =>
    rw [Entry.at?_cons, Entry.at?_cons, inside_blank, find?_blank]
    cases e.inside.find? m with
    | none => rfl
    | some child => exact ih child

theorem Directory.status?_blank (d : Directory) (r : Route) :
    d.blank.status? r = (d.status? r).map Status.blank := by
  have hat : d.blank.at? r = (d.at? r).map Entry.blank :=
    Entry.at?_blank (.directory false d) r
  rw [status?, status?, hat, Option.map_map, Option.map_map]
  congr 1
  funext e
  exact e.status_blank

@[simp] theorem Entry.visits_blank (e : Entry) (root : Path) :
    e.blank.visits root = e.visits root := by
  rw [visits, visits, kindAt, kindAt, inside_blank, walked, walked,
    gather_blank Status.kind_blank Status.linked_blank, status_blank, Status.kind_blank,
    Status.targetKind_blank]

def Standing.blank (s : Standing) : Standing :=
  ⟨s.trail.map fun (name, e) => (name, e.blank), s.entry.blank⟩

@[simp] theorem Standing.route_blank (s : Standing) : s.blank.route = s.route := by
  rw [route, route, blank, List.map_map]
  rfl

theorem target?_blank (d : Directory) (name : String) :
    d.blank.target? name = (d.target? name).map Entry.blank := by
  rw [target?, target?, find?_blank]
  cases d.find? name with
  | none => rfl
  | some e => cases e <;> rfl

theorem Standing.step_blank (s : Standing) (part : String) :
    s.blank.step part = (s.step part).map Standing.blank := by
  obtain ⟨trail, entry⟩ := s
  have hdirectory : entry.blank.node? = some .directory ↔ entry.node? = some .directory := by
    cases entry <;> simp [Entry.blank, Entry.node?, Entry.status, Status.node?]
  unfold step
  show (if entry.blank.node? = some .directory then _ else _) = _
  simp only [hdirectory]
  split
  · cases Path.component? part with
    | none => rfl
    | some component =>
      cases component with
      | name name =>
        simp only [blank, Entry.inside_blank, target?_blank]
        cases isTooLong name with
        | true => rfl
        | false => cases entry.inside.target? name <;> rfl
      | root => cases trail <;> rfl
      | current => cases trail <;> rfl
      | parent => cases trail <;> rfl
  · rfl

theorem Standing.follow_blank (s : Standing) (parts : List String) :
    s.blank.follow parts = (s.follow parts).map Standing.blank := by
  induction parts generalizing s with
  | nil => rfl
  | cons part parts ih =>
    rw [follow, follow, List.foldlM_cons, List.foldlM_cons, step_blank]
    cases s.step part with
    | error cause => rfl
    | ok next => exact ih next

namespace FileSystem

variable {fs fs' : FileSystem} {p root : Path} {s s' : Standing}

/-- A file system with the same entries, whose files are empty and can be read and written. -/
def blank (fs : FileSystem) : FileSystem where
  root := fs.root.blank
  home := fs.home
  isHome := by
    have hhome := fs.isHome
    rw [Directory.get?] at hhome ⊢
    obtain ⟨s, hs, hnode⟩ := Option.bind_eq_some_iff.1 hhome
    rw [Directory.status?_blank, hs]
    cases s with
    | directory linked => rfl
    | file linked access content => cases hnode
    | broken fillable => cases hnode
  sorted := sorted_blank fs.sorted
  named := allNames_blank fs.named

theorem locate_blank (fs : FileSystem) (p : Path) :
    fs.blank.locate p = (fs.locate p).map Standing.blank := by
  rw [locate, locate, locateFrom, locateFrom]
  show usableSteps fs.home p >>= _ = (usableSteps fs.home p >>= _).map _
  cases usableSteps fs.home p with
  | error cause => rfl
  | ok steps => exact fs.start.follow_blank steps

theorem lookup_blank (fs : FileSystem) (p : Path) :
    fs.blank.lookup p = (fs.lookup p).map Node.blank := by
  rw [lookup, lookup, locate_blank]
  cases fs.locate p with
  | error cause => rfl
  | ok s =>
    obtain ⟨trail, entry⟩ := s
    cases entry <;> rfl

theorem isDirectory_blank (fs : FileSystem) (p : Path) :
    fs.blank.isDirectory p = fs.isDirectory p := by
  rw [isDirectory, isDirectory, lookup_blank]
  cases fs.lookup p with
  | error cause => rfl
  | ok n => cases n <;> rfl

theorem isFile_blank (fs : FileSystem) (p : Path) : fs.blank.isFile p = fs.isFile p := by
  rw [isFile, isFile, lookup_blank]
  cases fs.lookup p with
  | error cause => rfl
  | ok n => cases n <;> rfl

theorem walk_blank (fs : FileSystem) (root : Path) : fs.blank.walk root = fs.walk root := by
  rw [walk, walk, locate_blank]
  cases fs.locate root with
  | error cause => rfl
  | ok s =>
    have hvisits : s.blank.entry.visits root = s.entry.visits root := s.entry.visits_blank root
    simp only [Except.map, hvisits]

theorem sources_blank (fs : FileSystem) (root : Path) (extension : String) :
    fs.blank.sources root extension = fs.sources root extension := by
  rw [sources, sources, walk_blank]

theorem read_congr (hs : fs.locate p = .ok s) (hs' : fs'.locate p = .ok s')
    (hsame : s.entry.status = s'.entry.status) : fs.read p = fs'.read p := by
  rw [read, read, openFile, openFile, hs, hs']
  obtain ⟨trail, entry⟩ := s
  obtain ⟨trail', entry'⟩ := s'
  cases entry <;> cases entry' <;> cases hsame
  case file.file.refl linked access content =>
    cases hreadable : access.readable <;> simp [bind, Except.bind, hreadable, Except.map] <;> rfl
  all_goals rfl

theorem getLast?_of_routeFrom {d : Directory} {r r' : Route} {parts : List String}
    {content : ByteArray} (h : routeFrom d r parts = .ok r') (hne : parts ≠ [])
    (hfile : d.get? r' = some (.file content)) : parts.getLast? = r'.getLast? := by
  obtain ⟨name, hlast, hname⟩ := endsInName_of_routeFrom h hne hfile
  obtain ⟨front, rfl⟩ := List.getLast?_eq_some_iff.1 hlast
  rw [routeFrom_append] at h
  obtain ⟨above, -, h⟩ := bind_eq_ok_iff.1 h
  obtain ⟨-, next, hstep, h⟩ := routeFrom_cons_eq_ok_iff.1 h
  cases h
  cases hstep with
  | down hpart hshort hthere =>
    cases hname.symm.trans hpart
    rw [List.getLast?_concat, List.getLast?_concat]
  | up hpart => cases hname.symm.trans hpart
  | stay hpart => cases hname.symm.trans hpart

end FileSystem

end WitnessReplay.Files

namespace WitnessReplay.Benchmark

open Files Source Witness

/-- Two file systems with the same entries, of which only files of the provider may have
different contents and modes. -/
structure SameButProvider (fs fs' : FileSystem) : Prop where
  home : fs.home = fs'.home
  status : ∀ r, fs.status? r = fs'.status? r ∨
    ∃ name linked access access' content content', r.getLast? = some name ∧
      fileIdentifier name = provider ∧ fs.status? r = some (.file linked access content) ∧
      fs'.status? r = some (.file linked access' content')

variable {fs fs' : FileSystem} {language : Language} {roots : Roots}
  {benchmarkFiles : List Path} {p : Path}

namespace Lookup

theorem sourcesBelow_blank (directory : Path) :
    (Lookup.mk language roots fs.blank).sourcesBelow directory =
      (Lookup.mk language roots fs).sourcesBelow directory := by
  rw [sourcesBelow, sourcesBelow, FileSystem.sources_blank]

theorem importedFiles_blank (i : Import) :
    (Lookup.mk language roots fs.blank).importedFiles benchmarkFiles p i =
      (Lookup.mk language roots fs).importedFiles benchmarkFiles p i := by
  have hfile : fs.blank.isFile = fs.isFile := funext fs.isFile_blank
  have hdir : fs.blank.isDirectory = fs.isDirectory := funext fs.isDirectory_blank
  have hsources : (Lookup.mk language roots fs.blank).sourcesBelow =
      (Lookup.mk language roots fs).sourcesBelow :=
    funext sourcesBelow_blank
  unfold importedFiles packageFiles packageCandidates typeCandidates
  simp only [hfile, hdir, hsources]
  rfl

end Lookup

namespace SameButProvider

variable (h : SameButProvider fs fs')
include h

theorem blank_eq : fs.blank = fs'.blank := by
  refine FileSystem.ext_status? h.home fun r => ?_
  show fs.root.blank.status? r = fs'.root.blank.status? r
  rw [Directory.status?_blank, Directory.status?_blank]
  rcases h.status r with heq | ⟨name, linked, access, access', content, content', -, -, hfile,
    hfile'⟩
  · exact congrArg (·.map Status.blank) heq
  · show (fs.status? r).map _ = (fs'.status? r).map _
    rw [hfile, hfile']
    rfl

theorem map_blank_locate (p : Path) :
    (fs.locate p).map Standing.blank = (fs'.locate p).map Standing.blank := by
  rw [← fs.locate_blank, h.blank_eq, fs'.locate_blank]

/-- A path that leads to a file of the provider has its identifier, so that all other paths
lead to the same. -/
theorem read_eq (hp : fileIdentifier p.text ≠ provider) : fs.read p = fs'.read p := by
  have hlocate := h.map_blank_locate p
  cases hs : fs.locate p with
  | error cause =>
    rw [hs] at hlocate
    cases hs' : fs'.locate p with
    | ok s' => rw [hs'] at hlocate; cases hlocate
    | error cause' =>
      rw [hs'] at hlocate
      cases hlocate
      rw [FileSystem.read, FileSystem.read, FileSystem.openFile, FileSystem.openFile, hs, hs']
  | ok s =>
    rw [hs] at hlocate
    obtain ⟨s', hs', hblank⟩ := map_eq_ok_iff.1 hlocate.symm
    obtain ⟨hroute, hat⟩ := FileSystem.locate_eq_ok hs
    obtain ⟨-, hat'⟩ := FileSystem.locate_eq_ok hs'
    have hsame : s'.route = s.route := by
      rw [← Standing.route_blank, hblank, Standing.route_blank]
    have hstatus := FileSystem.status?_of_at? hat
    have hstatus' := FileSystem.status?_of_at? hat'
    rw [hsame] at hstatus'
    refine FileSystem.read_congr hs hs' ?_
    rcases h.status s.route with heq | ⟨name, linked, access, access', content, content', hlast,
      hprovider, hfile, -⟩
    · rw [hstatus, hstatus'] at heq
      exact Option.some.inj heq
    · have hend := FileSystem.getLast?_of_routeFrom (FileSystem.routeOf_eq_ok_iff.1 hroute).2
        (p.steps_ne_nil _) (FileSystem.status?_eq_file_iff.1 hfile).1
      rw [Path.getLast?_steps, hlast] at hend
      exact absurd ((fileIdentifier_eq hend).trans hprovider) hp

theorem outline_eq (hp : fileIdentifier p.text ≠ provider) :
    (Lookup.mk language roots fs).outline p = (Lookup.mk language roots fs').outline p := by
  have htext : fs.readText p = fs'.readText p := by
    rw [FileSystem.readText, FileSystem.readText, h.read_eq hp]
  simp only [Lookup.outline, htext]

theorem importedFiles_eq (i : Import) :
    (Lookup.mk language roots fs).importedFiles benchmarkFiles p i =
      (Lookup.mk language roots fs').importedFiles benchmarkFiles p i := by
  rw [← Lookup.importedFiles_blank, h.blank_eq, Lookup.importedFiles_blank]

end SameButProvider

/-- What the files of the provider hold does not matter for the sites of a program, nor for
the error if there is one. -/
theorem sites_of_sameButProvider (language : Language) (roots : Roots)
    (h : SameButProvider fs fs') :
    (Lookup.mk language roots fs).sites = (Lookup.mk language roots fs').sites := by
  apply Agree.eq
  refine Lookup.agree_sites (fun _ => rfl) rfl ?_ ?_ ?_
  · show fs.isDirectory _ = fs'.isDirectory _
    rw [← fs.isDirectory_blank, h.blank_eq, fs'.isDirectory_blank]
  · rw [← Lookup.sourcesBelow_blank, h.blank_eq]
    exact Lookup.sourcesBelow_blank _
  · intro benchmarkFiles p hp
    refine Lookup.agree_readSource (.of_eq (fun _ => rfl) (h.outline_eq hp)) ?_
    exact fun i => .of_eq (fun _ => rfl) (h.importedFiles_eq i)

def askingFiles : FileSystem where
  root :=
    .directory "m" false
      (.file "Main.java" false {} "class Main \x7b int x = Verifier.nondetInt(); \x7d".toUTF8
        .empty)
      .empty
  sorted := ⟨by simp [Directory.names], ⟨by simp [Directory.names], trivial⟩, trivial⟩
  named := ⟨by decide, ⟨by decide, trivial⟩, trivial⟩

/-- The provider may be empty, or hold what cannot be parsed, and may be closed to readers. -/
theorem sites_of_malformed_provider :
    SameButProvider (askingFiles.place ["m", "Verifier.java"] (.file false {} .empty))
        (askingFiles.place ["m", "Verifier.java"]
          (.file false ⟨false, true⟩ "class \x7b".toUTF8)) ∧
      (Lookup.mk .java ⟨⟨"m"⟩, []⟩
          (askingFiles.place ["m", "Verifier.java"] (.file false {} .empty))).sites =
        (Lookup.mk .java ⟨⟨"m"⟩, []⟩ (askingFiles.place ["m", "Verifier.java"]
          (.file false ⟨false, true⟩ "class \x7b".toUTF8))).sites := by
  have hadmits : askingFiles.Admits ["m", "Verifier.java"] := by
    exact ⟨⟨by decide, by decide, fun h => absurd h (by decide)⟩, by decide⟩
  have hsame : SameButProvider
      (askingFiles.place ["m", "Verifier.java"] (.file false {} .empty))
      (askingFiles.place ["m", "Verifier.java"]
        (.file false ⟨false, true⟩ "class \x7b".toUTF8)) := by
    refine ⟨by simp, fun r => ?_⟩
    rw [FileSystem.status?_place hadmits, FileSystem.status?_place hadmits]
    by_cases hr : r = ["m", "Verifier.java"]
    · rw [if_pos hr, if_pos hr, hr]
      exact .inr ⟨"Verifier.java", _, _, _, _, _, rfl, by decide, rfl, rfl⟩
    · rw [if_neg hr, if_neg hr]
      exact .inl rfl
  exact ⟨hsame, sites_of_sameButProvider .java ⟨⟨"m"⟩, []⟩ hsame⟩

end WitnessReplay.Benchmark
