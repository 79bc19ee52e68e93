import WitnessReplay.Proofs.CopiedSources
import WitnessReplay.Proofs.TokenCover

/-!
# The renamed entry point

A Kotlin program is prepared if its directories can be copied, all the Kotlin files that are
searched can be read, one top-level `main` outside of all packages is found in them, and the
copy of its file can be written. Then that file is written over the merged copy, with the name
and, if need be, the parameter list of the function replaced. In all other cases nothing is
written after the copy.
-/

namespace WitnessReplay.Benchmark

open Files FileSystem Source Text List

variable {fs fs' : FileSystem} {roots : List Path} {root target p : Path} {τ r : Route}

/-! ### The edits of the text -/

theorem splitAtByte_append (a b : List Char) : splitAtByte (byteLength a) (a ++ b) = (a, b) := by
  induction a with
  | nil => cases b <;> rfl
  | cons c a ih =>
    have hpos := c.utf8Size_pos
    obtain ⟨n, hn⟩ := Nat.exists_eq_add_of_lt
      (Nat.lt_of_lt_of_le hpos (Nat.le_add_right c.utf8Size (byteLength a)))
    have hrest : n + 1 - c.utf8Size = byteLength a := by omega
    rw [byteLength_cons, cons_append, hn, Nat.zero_add, splitAtByte, hrest, ih]

theorem replaceSpan_append (a b c : List Char) (replacement : String) :
    replaceSpan (a ++ b ++ c) ⟨byteLength a, byteLength (a ++ b)⟩ replacement =
      a ++ replacement.toList ++ c := by
  have hfront := splitAtByte_append a (b ++ c)
  rw [← append_assoc] at hfront
  rw [replaceSpan, hfront, splitAtByte_append]

/-- A text is another one with the bytes at the name of a function replaced, and also those at
its parameter list if it has no parameters. -/
def Renames (source : String) (main : Function) (text : String) : Prop :=
  ∃ before name between params after,
    source.toList = before ++ name ++ between ++ params ++ after ∧
    main.nameSpan = ⟨byteLength before, byteLength (before ++ name)⟩ ∧
    main.paramsSpan = ⟨byteLength (before ++ name ++ between),
    byteLength (before ++ name ++ between ++ params)⟩ ∧
    text.toList = before ++ "polywit_main".toList ++ between ++
      (if main.paramCount = 0 then "(args: Array<String>)".toList else params) ++ after

/-- The parameter list is behind the name, so that it can be replaced first and the name still
stands at its span. -/
theorem renames_renameMain {source : String} {main : Function} {name params : List Char}
    {line line' : Nat} (hname : Stands source.toList name main.nameSpan line)
    (hbehind : main.nameSpan.stop ≤ main.paramsSpan.start)
    (hparams : Stands source.toList params main.paramsSpan line') :
    Renames source main (renameMain source main) := by
  obtain ⟨before, rest, hsource, hspan, -⟩ := hname
  obtain ⟨front, after, hsource', hspan', -⟩ := hparams
  rw [← byteLength_append] at hspan hspan'
  have hfirst : before ++ name <+: source.toList := ⟨rest, hsource.symm⟩
  have hfront : front <+: source.toList := ⟨params ++ after, by rw [hsource', append_assoc]⟩
  rw [hspan, hspan'] at hbehind
  -- both spans lie in one text, and the one up to the end of the name is the shorter start of it
  obtain ⟨between, rfl⟩ := prefix_of_byteLength_le hfirst hfront hbehind
  refine ⟨before, name, between, params, after, hsource', hspan, hspan', ?_⟩
  have hrename (back : List Char) :
      replaceSpan (before ++ name ++ back) main.nameSpan renamedMain =
        before ++ "polywit_main".toList ++ back := by
    rw [hspan, replaceSpan_append]
    rfl
  simp only [renameMain, String.toList_ofList]
  split
  · have hreplaced : replaceSpan source.toList main.paramsSpan mainParameters =
        before ++ name ++ (between ++ "(args: Array<String>)".toList ++ after) := by
      rw [hsource', hspan', replaceSpan_append]
      simp only [append_assoc]
      rfl
    rw [hreplaced, hrename]
    simp only [append_assoc]
  · have hkept : source.toList = before ++ name ++ (between ++ params ++ after) := by
      rw [hsource']
      simp only [append_assoc]
    rw [hkept, hrename]
    simp only [append_assoc]

/-! ### The write -/

theorem fileRoute_of_file {content : ByteArray} (h : fs.routeOf p = .ok r)
    (hfile : fs.get? r = some (.file content)) (hwritable : (fs.access r).writable = true) :
    fs.fileRoute p = .ok r := by
  obtain ⟨hsteps, hroute⟩ := routeOf_eq_ok_iff.1 h
  obtain ⟨name, hlast, hname⟩ := endsInName_of_routeFrom hroute (p.steps_ne_nil _) hfile
  obtain ⟨front, hsplit⟩ := getLast?_eq_some_iff.1 hlast
  rw [hsplit] at hsteps
  rw [hsplit, routeFrom_append] at hroute
  obtain ⟨above, habove, hroute⟩ := bind_eq_ok_iff.1 hroute
  obtain ⟨hdir, next, hstep, hroute⟩ := routeFrom_cons_eq_ok_iff.1 hroute
  cases hroute
  cases hstep with
  | down hpart hshort hthere =>
    cases hname.symm.trans hpart
    refine fileRoute_of_steps hsteps habove hdir hname hshort ?_
    have hstatus := status?_of_file hfile
    rw [refusal?_eq_none_iff, hfile, hstatus]
    exact ⟨nofun, hwritable, nofun⟩
  | up hpart => cases hname.symm.trans hpart
  | stay hpart => cases hname.symm.trans hpart

theorem exists_write_iff {content : ByteArray} (h : fs.routeOf p = .ok r)
    (hfile : fs.get? r = some (.file content)) (new : ByteArray) :
    (∃ fs', fs.write p new = .ok fs') ↔ (fs.access r).writable = true := by
  simp only [write_eq_ok_iff]
  constructor
  · rintro ⟨fs', r', hr', -⟩
    obtain rfl : r' = r := (route_of_fileRoute hr').symm.trans (route_of_routeOf h)
    obtain ⟨-, -, -, -, -, -, -, -, -, -, -, hfree⟩ := fileRoute_eq_ok hr'
    exact (refusal?_eq_none_iff.1 hfree).2.1
  · intro hwritable
    exact ⟨_, r, fileRoute_of_file h hfile hwritable, rfl⟩

theorem status?_of_write {new : ByteArray} (h : fs.write p new = .ok fs')
    (hroute : fs.routeOf p = .ok r) : fs'.home = fs.home ∧ ∀ x, fs'.status? x =
      if x = r then some (.file (fs.isLink x) (fs.access x) new) else fs.status? x := by
  obtain ⟨r', hr', rfl⟩ := write_eq_ok_iff.1 h
  obtain rfl : r' = r := (route_of_fileRoute hr').symm.trans (route_of_routeOf hroute)
  refine ⟨home_setFile _ _ _ _, fun x => ?_⟩
  rw [status?_setFile (admits_of_fileRoute hr')]
  split
  · rename_i hx
    rw [hx]
  · rfl

/-! ### What can fail -/

/-- The errors of a preparation that come from the search for the entry point or from its
renaming. -/
def IsAfterCopy : PreparationError → Prop
  | .missingSource _ | .uncopied _ _ _ | .unlisted _ _ => False
  | .unchanged _ _ | .syntaxError _ | .entryPointCount _ | .packagedEntryPoint _ _ => True

def OnlyFails {ε α : Type} (P : ε → Prop) (x : Edit ε α) : Prop :=
  ∀ s e s', x s = (.error e, s') → P e

section OnlyFails

variable {ε α β : Type} {P : ε → Prop} {x : Edit ε α} {f : α → Edit ε β}

theorem OnlyFails.bind (hx : OnlyFails P x) (hf : ∀ a, OnlyFails P (f a)) :
    OnlyFails P (x >>= f) := by
  intro s e s' h
  rcases exceptT_bind_eq_error h with h | ⟨a, t, -, h⟩
  · exact hx s e s' h
  · exact hf a t e s' h

theorem onlyFails_pure (a : α) : OnlyFails P (pure a : Edit ε α) := by
  intro s e s' h
  cases h

theorem onlyFails_forM {items : List α} {f : α → Edit ε Unit} (h : ∀ a, OnlyFails P (f a)) :
    OnlyFails P (items.forM f) := by
  induction items with
  | nil => exact onlyFails_pure ()
  | cons item items ih => exact (h item).bind fun _ => ih

end OnlyFails

theorem onlyFails_copyEntry (target : Path) (v : Visit) :
    OnlyFails (¬IsAfterCopy ·) (copyEntry target v) := by
  intro s e s' h
  obtain ⟨cause, -, rfl⟩ := exceptT_adapt_eq_error h
  exact id

theorem onlyFails_inspect {α : Type} (root : Path) (f : FileSystem → Except WalkError α) :
    OnlyFails (¬IsAfterCopy ·)
      (Edit.inspect fun fs => (f fs).mapError (PreparationError.unlisted root)) := by
  intro s e s' h
  have herror : (f s).mapError (PreparationError.unlisted root) = .error e :=
    congrArg Prod.fst h
  obtain ⟨cause, -, rfl⟩ := mapError_eq_error_iff.1 herror
  exact id

theorem onlyFails_copyVisit (root target : Path) (n : Nat) (v : Visit) :
    OnlyFails (¬IsAfterCopy ·) (copyVisit root target n v) := by
  have hlist (p : Path) := onlyFails_inspect root (·.list p)
  induction n generalizing v with
  | zero => exact onlyFails_pure ()
  | succ n ih =>
    obtain ⟨relative, path, kind⟩ := v
    rw [copyVisit]
    cases kind with
    | file => exact onlyFails_copyEntry target _
    | link => exact onlyFails_copyEntry target _
    | directory =>
      refine (hlist path).bind fun _ => (onlyFails_copyEntry target _).bind fun _ =>
        (hlist path).bind fun items => ?_
      exact onlyFails_forM fun item => ih _

theorem onlyFails_copyAll (roots : List Path) (target : Path) :
    OnlyFails (¬IsAfterCopy ·) (copyAll roots target) := by
  refine onlyFails_forM fun root => ?_
  intro s e s' h
  rw [copyTree] at h
  rcases exceptT_bind_eq_error h with h | ⟨u, t, -, h⟩
  · cases h
  · split at h
    · cases h
      exact id
    · have hrest := (onlyFails_inspect root (·.kindOf root)).bind fun kind =>
        onlyFails_copyVisit root target pathLimit ⟨[], root, kind⟩
      exact hrest t e s' h

/-! ### The renaming -/

theorem renameEntryPoint_eq_ok_iff : renameEntryPoint roots target fs = (.ok (), fs') ↔
    ∃ paths e, copiedSources fs roots target = .ok paths ∧ entryPoint fs paths = .ok e ∧
      fs.write e.path (renameMain e.source e.main).toUTF8 = .ok fs' := by
  rw [renameEntryPoint]
  constructor
  · intro h
    obtain ⟨paths, u, hpaths, hrest⟩ := exceptT_bind_eq_ok_iff.1 h
    obtain ⟨hpaths, rfl⟩ := Edit.inspect_eq_ok_iff.1 hpaths
    obtain ⟨e, v, he, hwrite⟩ := exceptT_bind_eq_ok_iff.1 hrest
    obtain ⟨he, rfl⟩ := Edit.inspect_eq_ok_iff.1 he
    exact ⟨paths, e, hpaths, he, Edit.change_eq_ok_iff.1 (exceptT_adapt_eq_ok hwrite)⟩
  · rintro ⟨paths, e, hpaths, he, hwrite⟩
    refine exceptT_bind_eq_ok_iff.2 ⟨paths, fs, Edit.inspect_eq_ok_iff.2 ⟨hpaths, rfl⟩, ?_⟩
    refine exceptT_bind_eq_ok_iff.2 ⟨e, fs, Edit.inspect_eq_ok_iff.2 ⟨he, rfl⟩, ?_⟩
    exact exceptT_adapt (Edit.change_eq_ok_iff.2 hwrite) _

theorem renameEntryPoint_of_error {e : PreparationError}
    (h : renameEntryPoint roots target fs = (.error e, fs')) :
    fs' = fs := by
  rw [renameEntryPoint] at h
  rcases exceptT_bind_eq_error h with hpaths | ⟨paths, u, hpaths, hrest⟩
  · exact (congrArg Prod.snd hpaths : fs = fs').symm
  · obtain ⟨-, rfl⟩ := Edit.inspect_eq_ok_iff.1 hpaths
    rcases exceptT_bind_eq_error hrest with hfound | ⟨found, v, hfound, hwrite⟩
    · exact (congrArg Prod.snd hfound : u = fs').symm
    · obtain ⟨-, rfl⟩ := Edit.inspect_eq_ok_iff.1 hfound
      obtain ⟨cause, hwrite, -⟩ := exceptT_adapt_eq_error hwrite
      rw [Edit.change] at hwrite
      split at hwrite
      · cases hwrite
      · cases hwrite
        rfl

theorem prepare_kotlin_eq_ok_iff : prepare .kotlin roots target fs = (.ok (), fs') ↔
    ∃ copy, copyAll roots target fs = (.ok (), copy) ∧
      renameEntryPoint roots target copy = (.ok (), fs') := by
  show (copyAll roots target >>= fun _ => renameEntryPoint roots target) fs = _ ↔ _
  rw [exceptT_bind_eq_ok_iff]
  constructor
  · rintro ⟨_, copy, h⟩
    exact ⟨copy, h⟩
  · rintro ⟨copy, h⟩
    exact ⟨(), copy, h⟩

theorem prepare_kotlin_of_error {e : PreparationError}
    (h : prepare .kotlin roots target fs = (.error e, fs'))
    (hafter : IsAfterCopy e) : copyAll roots target fs = (.ok (), fs') := by
  have hbind : (copyAll roots target >>= fun _ => renameEntryPoint roots target) fs =
      (.error e, fs') := h
  rcases exceptT_bind_eq_error hbind with hcopy | ⟨_, copy, hcopy, hrename⟩
  · exact absurd hafter (onlyFails_copyAll roots target fs e fs' hcopy)
  · rw [renameEntryPoint_of_error hrename]
    exact hcopy

/-- The only entry point of a merged copy is renamed in its file, and nothing else is changed. -/
theorem renameEntryPoint_of_mergedCopy
    (hapart : ∀ root ∈ roots, Path.Apart fs.home root target) {copy : FileSystem}
    (hcopy : MergedCopy roots target τ fs copy) :
    renameEntryPoint roots target copy = (.ok (), fs') ↔
      (∀ r, IsSearched fs roots r →
        ∃ source outline, KotlinSource fs roots target r source outline) ∧
      ∃ r source outline main, OnlyMain fs roots target r source outline main ∧
        copy.write (target.joinAll r) (renameMain source main).toUTF8 = .ok fs' := by
  obtain ⟨routes, hsources, hnodup, hroutes⟩ := exists_copiedSources hapart hcopy
  rw [renameEntryPoint_eq_ok_iff, hsources]
  constructor
  · rintro ⟨paths, e, hpaths, he, hwrite⟩
    cases hpaths
    obtain ⟨hall, r, source, outline, main, honly, rfl⟩ :=
      (entryPoint_of_mergedCopy hcopy hnodup hroutes).1 he
    exact ⟨hall, r, source, outline, main, honly, hwrite⟩
  · rintro ⟨hall, r, source, outline, main, honly, hwrite⟩
    exact ⟨_, _, rfl, (entryPoint_of_mergedCopy hcopy hnodup hroutes).2 ⟨hall, r, source, outline,
      main, honly, rfl⟩, hwrite⟩

theorem OnlyMain.renames {source : String} {outline : Outline} {main : Function}
    (h : OnlyMain fs roots target r source outline main) :
    Renames source main (renameMain source main) := by
  obtain ⟨n, tokens, -, hbody, -, hfunctions⟩ := parse_eq_ok_iff.1 h.source.parsed
  have htiles := body_tiles (lawful_lexicon .kotlin) hbody
  have hmain : main ∈ mains outline := by
    rw [h.only]
    exact mem_singleton.2 rfl
  rw [mains, hfunctions] at hmain
  obtain ⟨⟨name, -, -, hname⟩, hbehind, params, line, hparams⟩ :=
    htiles.functionStands (mem_filter.1 hmain).1
  exact renames_renameMain hname hbehind hparams

/-- The mode with which a merged copy puts a file at a route allows to write it. -/
def IsWritable (fs : FileSystem) (roots : List Path) (r : Route) : Prop :=
  ∃ access content, mergedFile? fs roots r = some (access, content) ∧ access.writable = true

/-- The file of the only entry point can be written where the copy has put it, if it has been
copied from one that can. -/
theorem OnlyMain.exists_write_iff {source : String} {outline : Outline} {main : Function}
    {copy : FileSystem} (h : OnlyMain fs roots target r source outline main)
    (hcopy : MergedCopy roots target τ fs copy) (new : ByteArray) :
    (∃ fs', copy.write (target.joinAll r) new = .ok fs') ↔ IsWritable fs roots r := by
  have hthere := h.source.searched.merged?_ne_none
  have hfile := hcopy.inside r
  rw [h.source.content, Option.some_or] at hfile
  obtain ⟨⟨access, content⟩, hmerged, -⟩ := Option.map_eq_some_iff.1 h.source.content
  obtain ⟨haccess, -⟩ := hcopy.access r access content hmerged
  rw [Benchmark.exists_write_iff (hcopy.placed r hthere) (file?_eq_some_iff.1 hfile), haccess]
  refine ⟨fun hwritable => ⟨access, content, hmerged, hwritable⟩, ?_⟩
  rintro ⟨access', content', hmerged', hwritable⟩
  cases hmerged.symm.trans hmerged'
  exact hwritable

theorem exists_prepare_kotlin_iff {benchmark target : Path} {packages : List Path}
    (hapart : ∀ root ∈ benchmark :: packages, Path.Apart fs.home root target) :
    (∃ fs', prepare .kotlin (benchmark :: packages) target fs = (.ok (), fs')) ↔
      (∃ copy, copyAll (benchmark :: packages) target fs = (.ok (), copy)) ∧
      (∀ r, IsSearched fs (benchmark :: packages) r →
        ∃ source outline, KotlinSource fs (benchmark :: packages) target r source outline) ∧
      ∃ r source outline main,
        OnlyMain fs (benchmark :: packages) target r source outline main ∧
          IsWritable fs (benchmark :: packages) r := by
  constructor
  · rintro ⟨fs', h⟩
    obtain ⟨copy, hcopy, hrename⟩ := prepare_kotlin_eq_ok_iff.1 h
    obtain ⟨τ, hmerged⟩ := exists_mergedCopy hapart hcopy
    obtain ⟨hall, r, source, outline, main, honly, hwrite⟩ :=
      (renameEntryPoint_of_mergedCopy hapart hmerged).1 hrename
    exact ⟨⟨copy, hcopy⟩, hall, r, source, outline, main, honly,
      (honly.exists_write_iff hmerged _).1 ⟨fs', hwrite⟩⟩
  · rintro ⟨⟨copy, hcopy⟩, hall, r, source, outline, main, honly, hwritable⟩
    obtain ⟨τ, hmerged⟩ := exists_mergedCopy hapart hcopy
    obtain ⟨fs', hwrite⟩ :=
      (honly.exists_write_iff hmerged (renameMain source main).toUTF8).2 hwritable
    refine ⟨fs', prepare_kotlin_eq_ok_iff.2 ⟨copy, hcopy, ?_⟩⟩
    exact (renameEntryPoint_of_mergedCopy hapart hmerged).2
      ⟨hall, r, source, outline, main, honly, hwrite⟩

def mainSource : String := "fun main() \x7b\x7d\n"

def mainTokens : List Token :=
  [.word "fun" ⟨0, 3⟩ 1, .word "main" ⟨4, 8⟩ 1, .group .paren [] ⟨8, 10⟩ 1,
    .group .brace [] ⟨11, 13⟩ 1]

def mainFunction : Function := ⟨"main", 0, 1, ⟨4, 8⟩, ⟨8, 10⟩, 0, none⟩

theorem parse_mainSource (file : String) : parse .kotlin mainSource file = .ok
    { functions := [mainFunction] } := by
  have hdeclared : Kotlin.declared? 0 (mainTokens.drop 1) = some (1, mainFunction) := by decide
  have hfound : findings .kotlin mainTokens = ⟨[], [mainFunction]⟩ := by
    rw [mainTokens, drop_one, tail_cons] at hdeclared
    simp [mainTokens, findings, Kotlin.findings, Kotlin.declarations, hdeclared, Kotlin.nested,
      Kotlin.callAt?, Kotlin.keywords, Kotlin.declarators, Token.word?, Token.isGroup,
      Token.children?, Token.isWord, Token.isWordIn]
    rfl
  exact parse_of_findings (by with_unfolding_all rfl) hfound file

/-- A program of one file, and a working directory in which the driver of an earlier run is
left. -/
def leftover (status : Status) : FileSystem :=
  (((FileSystem.empty.put ["bench"] .directory).place ["bench", "A.kt"] status).put
    ["work"] .directory).put ["work", "Test.kt"] (.file mainSource.toUTF8)

theorem eq_of_isSearched {r : Route} (hhome : fs.home = [])
    (hall : ∀ entry ∈ fs.root.all, entry.1.head? = some "bench" →
      HasExtension entry.1 "kt" → entry.1 = ["bench", "A.kt"])
    (h : IsSearched fs [⟨"bench"⟩] r) : r = ["A.kt"] := by
  obtain ⟨hextension, root, hroot, hfile, -⟩ := h
  cases mem_singleton.1 hroot
  have hroute : Path.route [] ⟨"bench"⟩ = ["bench"] := by decide
  rw [hhome, hroute, ← map_file?] at hfile
  have hne : r ≠ [] := by
    rintro rfl
    cases hextension
  have hlast : HasExtension (["bench"] ++ r) "kt" := by
    obtain ⟨front, name, rfl⟩ := (eq_nil_or_concat r).resolve_left hne
    rw [concat_eq_append, HasExtension, getLast?_concat] at hextension
    rw [concat_eq_append, HasExtension, ← append_assoc, getLast?_concat]
    exact hextension
  cases hstatus : fs.status? (["bench"] ++ r) with
  | none =>
    rw [hstatus] at hfile
    exact absurd rfl hfile
  | some status =>
    have hmem := (Directory.mem_all_iff fs.sorted).2 ⟨by simp, hstatus⟩
    exact (List.cons.inj (hall _ hmem rfl hlast)).2

theorem onlyMain_of_isSearched (hsource : IsSearched fs [⟨"bench"⟩] ["A.kt"])
    (hcontent : merged? fs [⟨"bench"⟩] ["A.kt"] = some mainSource.toUTF8)
    (honly : ∀ r, IsSearched fs [⟨"bench"⟩] r → r = ["A.kt"]) :
    OnlyMain fs [⟨"bench"⟩] ⟨"work"⟩ ["A.kt"] mainSource { functions := [mainFunction] }
      mainFunction := by
  refine ⟨⟨hsource, hcontent, parse_mainSource _⟩, by decide, rfl, ?_⟩
  intro r source outline h hne
  exact absurd (honly r h.searched) hne

def plainMain : Status := .file false {} mainSource.toUTF8

theorem onlyMain_leftover :
    OnlyMain (leftover plainMain) [⟨"bench"⟩] ⟨"work"⟩ ["A.kt"] mainSource
      { functions := [mainFunction] } mainFunction := by
  refine onlyMain_of_isSearched ⟨by decide, ⟨"bench"⟩, by decide, by decide, by decide⟩
    (by decide) ?_
  intro r hr
  exact eq_of_isSearched rfl (by decide) hr

/-- A program with a file that has no name in front of its extension. -/
def unnamed : FileSystem :=
  ((FileSystem.empty.put ["bench"] .directory).put ["bench", ".kt"] (.file "\x7d".toUTF8)).put
    ["bench", "A.kt"] (.file mainSource.toUTF8)

def linkedMain : Status := .file true {} mainSource.toUTF8

def lockedMain : Status := .file false { writable := false } mainSource.toUTF8

end WitnessReplay.Benchmark
