import WitnessReplay.Benchmark.Sites
import WitnessReplay.Proofs.InsertionOrder

/-!
# The sites of a program

Sites are collected in passes over all files that fill one map. Here the result is described
without the map: a position is a site if the provider or a wrapper is called there, the last
call to a wrapper decides the type, else the last call to the provider, and the sites are
listed as they first occur.

A wrapper is a function that returns an input of the provider at once. What a function returns
that calls a wrapper is not followed further. The calls to a wrapper are all found, and they
get the type of the input that it returns unless another wrapper takes part.
-/

namespace WitnessReplay.Benchmark

open Source Witness OrderedMap

variable {files files' : List SourceFile} {p q : Position} {c : Call} {g : Function} {name : String}

/-! ### A description of the sites -/

def lastCall? (files : List SourceFile) (P : Call → Bool) (p : Position) : Option Call :=
  ((positionedCalls files).filter fun e => e.1 = p ∧ P e.2).getLast?.map (·.2)

def providedAt? (files : List SourceFile) (p : Position) : Option String :=
  (lastCall? files isProviderCall p).map (valueType ·.name)

/-- The functions without parameters that return a value at once, with the positions at which
they return it. -/
def returningFunctions (files : List SourceFile) : List (Position × Function) :=
  files.flatMap fun f => f.outline.functions.filterMap fun g =>
    if g.paramCount = 0 then g.firstReturnLine.map fun line => (⟨f.identifier, line⟩, g) else none

/-- The functions that return an input of the provider, with the positions of these inputs. -/
def wrapperFunctions (files : List SourceFile) : List (Position × Function) :=
  (returningFunctions files).filter fun e => (providedAt? files e.1).isSome

def wrapped? (files : List SourceFile) (name : String) : Option Position :=
  ((wrapperFunctions files).filter (·.2.name = name)).getLast?.map (·.1)

def callsWrapper (files : List SourceFile) (c : Call) : Bool :=
  (wrapped? files c.name).isSome

def wrappedType? (files : List SourceFile) (c : Call) : Option String :=
  (wrapped? files c.name).bind (providedAt? files)

/-- The type of a site: what the wrapper returns that is called last, else what the provider is
asked for last. -/
def siteType? (files : List SourceFile) (p : Position) : Option String :=
  match lastCall? files (callsWrapper files) p with
  | some c => wrappedType? files c
  | none => providedAt? files p

def callPositions (files : List SourceFile) (P : Call → Bool) : List Position :=
  (((positionedCalls files).filter fun e => P e.2).map (·.1)).eraseDups

/-- The sites in order: where the provider is called, and then where only wrappers are. -/
def siteOrder (files : List SourceFile) : List Position :=
  callPositions files isProviderCall ++
    (callPositions files (callsWrapper files)).filter (· ∉ callPositions files isProviderCall)

/-! ### Each pass fills a map as described -/

theorem of_lastCall? {P : Call → Bool} (h : lastCall? files P p = some c) :
    (p, c) ∈ positionedCalls files ∧ P c := by
  obtain ⟨e, he, rfl⟩ := Option.map_eq_some_iff.1 h
  obtain ⟨hmem, hcall⟩ := List.mem_filter.1 (List.mem_of_getLast? he)
  obtain ⟨rfl, hP⟩ := of_decide_eq_true hcall
  exact ⟨hmem, hP⟩

theorem isSome_lastCall?_iff {P : Call → Bool} :
    (lastCall? files P p).isSome ↔ ∃ c, (p, c) ∈ positionedCalls files ∧ P c := by
  constructor
  · intro h
    obtain ⟨c, hc⟩ := Option.isSome_iff_exists.1 h
    exact ⟨c, of_lastCall? hc⟩
  · rintro ⟨c, hmem, hP⟩
    rw [lastCall?, Option.isSome_map, List.getLast?_isSome]
    exact List.ne_nil_of_mem (List.mem_filter.2 ⟨hmem, by simpa using hP⟩)

theorem isSome_providedType? (c : Call) : (providedType? c).isSome = isProviderCall c := by
  unfold providedType?
  split <;> simp_all

theorem get?_directSites (files : List SourceFile) (p : Position) :
    (directSites files).get? p = providedAt? files p := by
  have hlast : (directSites files).get? p =
      (lastCall? files isProviderCall p).bind providedType? := by
    unfold directSites
    rw [get?_ofList]
    exact lastValue?_filterMap isSome_providedType? _ p
  rw [hlast, providedAt?]
  cases hcall : lastCall? files isProviderCall p with
  | none => rfl
  | some c =>
    show providedType? c = some (valueType c.name)
    rw [providedType?, if_pos (of_lastCall? hcall).2]

theorem keys_directSites (files : List SourceFile) :
    (directSites files).keys = callPositions files isProviderCall := by
  unfold directSites callPositions
  rw [keys_ofList]
  exact congrArg List.eraseDups (map_filterMap isSome_providedType? _)

theorem contains_directSites (files : List SourceFile) (p : Position) :
    (directSites files).contains p = (providedAt? files p).isSome := by
  rw [contains, get?_directSites]

theorem wrappers_eq (files : List SourceFile) :
    wrappers (directSites files) files = ofList ((wrapperFunctions files).map fun e =>
    (e.2.name, e.1)) := by
  unfold wrappers wrapperFunctions returningFunctions
  rw [List.filter_flatMap, List.map_flatMap]
  congr 2
  funext f
  rw [List.filter_filterMap, List.map_filterMap]
  congr 1
  funext g
  unfold wrappedSite?
  by_cases hparams : g.paramCount = 0
  · rw [if_neg (not_not.2 hparams), if_pos hparams]
    cases g.firstReturnLine with
    | none => rfl
    | some line =>
      simp only [contains_directSites, Option.map_some, Option.filter_some]
      split <;> rfl
  · rw [if_pos hparams, if_neg hparams]
    rfl

theorem get?_wrappers (files : List SourceFile) (name : String) :
    (wrappers (directSites files) files).get? name = wrapped? files name := by
  rw [wrappers_eq, get?_ofList, lastValue?, List.filter_map, List.getLast?_map, Option.map_map]
  rfl

theorem of_wrapped? (h : wrapped? files name = some q) :
    (∃ g, (q, g) ∈ wrapperFunctions files ∧ g.name = name) ∧ (providedAt? files q).isSome := by
  obtain ⟨e, he, rfl⟩ := Option.map_eq_some_iff.1 h
  obtain ⟨hmem, hname⟩ := List.mem_filter.1 (List.mem_of_getLast? he)
  exact ⟨⟨e.2, hmem, of_decide_eq_true hname⟩, (List.mem_filter.1 hmem).2⟩

theorem isSome_wrapped?_iff : (wrapped? files name).isSome ↔ ∃ q g,
    (q, g) ∈ wrapperFunctions files ∧ g.name = name := by
  constructor
  · intro h
    obtain ⟨q, hq⟩ := Option.isSome_iff_exists.1 h
    exact ⟨q, (of_wrapped? hq).1⟩
  · rintro ⟨q, g, hmem, hname⟩
    rw [wrapped?, Option.isSome_map, List.getLast?_isSome]
    exact List.ne_nil_of_mem (List.mem_filter.2 ⟨hmem, decide_eq_true hname⟩)

theorem isSome_wrappedType? (files : List SourceFile) (c : Call) :
    (wrappedType? files c).isSome = callsWrapper files c := by
  unfold wrappedType? callsWrapper
  cases h : wrapped? files c.name with
  | none => rfl
  | some q => exact (of_wrapped? h).2

theorem wrapperCalls_eq (files : List SourceFile) :
    wrapperCalls (directSites files) files =
      (positionedCalls files).filterMap fun e => (wrappedType? files e.2).map (e.1, ·) := by
  unfold wrapperCalls wrappedType?
  congr 1
  funext ⟨p, c⟩
  simp only [get?_wrappers, get?_directSites, Option.map_bind]
  rfl

theorem collectSites_eq (files : List SourceFile) :
    collectSites files = (directSites files).insertAll (wrapperCalls (directSites files) files) :=
    rfl

theorem get?_collectSites (files : List SourceFile) (p : Position) :
    (collectSites files).get? p = siteType? files p := by
  have hlast : lastValue? (wrapperCalls (directSites files) files) p =
      (lastCall? files (callsWrapper files) p).bind (wrappedType? files) := by
    rw [wrapperCalls_eq]
    exact lastValue?_filterMap (isSome_wrappedType? files) _ p
  rw [collectSites_eq, get?_insertAll, hlast, get?_directSites, siteType?]
  cases hcall : lastCall? files (callsWrapper files) p with
  | none => rfl
  | some c =>
    have hsome : (wrappedType? files c).isSome :=
      (isSome_wrappedType? files c).trans (of_lastCall? hcall).2
    exact Option.or_eq_left_of_isSome hsome

theorem keys_collectSites (files : List SourceFile) :
    (collectSites files).keys = siteOrder files := by
  rw [collectSites_eq, keys_insertAll, keys_directSites, wrapperCalls_eq,
    map_filterMap (isSome_wrappedType? files)]
  rfl

theorem nodup_keys_collectSites (files : List SourceFile) : (collectSites files).keys.Nodup := by
  have hempty : (∅ : SiteMap).keys.Nodup := List.nodup_nil
  exact nodup_keys_insertAll (nodup_keys_insertAll hempty _) _

/-! ### The set of sites -/

theorem mem_callPositions_iff {P : Call → Bool} :
    p ∈ callPositions files P ↔ ∃ c, (p, c) ∈ positionedCalls files ∧ P c := by
  simp [callPositions, List.mem_eraseDups]

/-- A position is a site exactly if the provider or a wrapper is called there. -/
theorem contains_collectSites_iff :
    (collectSites files).contains p ↔ ∃ c, (p, c) ∈ positionedCalls files ∧
    (isProviderCall c ∨ callsWrapper files c) := by
  have horder : p ∈ siteOrder files ↔
      p ∈ callPositions files isProviderCall ∨ p ∈ callPositions files (callsWrapper files) := by
    by_cases h : p ∈ callPositions files isProviderCall <;> simp [siteOrder, h]
  rw [← mem_keys_iff, keys_collectSites, horder, mem_callPositions_iff, mem_callPositions_iff]
  simp only [and_or_left, exists_or]

theorem positionedCalls_subset (h : files ⊆ files') :
    positionedCalls files ⊆ positionedCalls files' := by
  intro e he
  obtain ⟨f, hf, he⟩ := List.mem_flatMap.1 he
  exact List.mem_flatMap.2 ⟨f, h hf, he⟩

theorem isSome_providedAt?_iff : (providedAt? files p).isSome ↔ ∃ c,
    (p, c) ∈ positionedCalls files ∧ isProviderCall c := by
  rw [providedAt?, Option.isSome_map, isSome_lastCall?_iff]

theorem wrapperFunctions_subset (h : files ⊆ files') :
    wrapperFunctions files ⊆ wrapperFunctions files' := by
  intro e he
  obtain ⟨hreturns, hprovided⟩ := List.mem_filter.1 he
  obtain ⟨f, hf, hfunction⟩ := List.mem_flatMap.1 hreturns
  obtain ⟨c, hcall, hc⟩ := isSome_providedAt?_iff.1 hprovided
  exact List.mem_filter.2 ⟨List.mem_flatMap.2 ⟨f, h hf, hfunction⟩,
    isSome_providedAt?_iff.2 ⟨c, positionedCalls_subset h hcall, hc⟩⟩

theorem contains_collectSites_of_subset (h : files ⊆ files')
    (hp : (collectSites files).contains p) :
    (collectSites files').contains p := by
  obtain ⟨c, hcall, hc⟩ := contains_collectSites_iff.1 hp
  refine contains_collectSites_iff.2 ⟨c, positionedCalls_subset h hcall,
    hc.imp_right fun hwrapper => ?_⟩
  obtain ⟨q, g, hg, hname⟩ := isSome_wrapped?_iff.1 hwrapper
  exact isSome_wrapped?_iff.2 ⟨q, g, wrapperFunctions_subset h hg, hname⟩

/-- **The sites of a program.** The map has the described positions in the described order,
each with the described type, and no others. Which positions these are does not hang on the
order of the files, and more files have more sites. -/
theorem collectSites_described (files : List SourceFile) :
    (collectSites files).entries.map (fun e => (e.1, some e.2)) = (siteOrder files).map (fun p =>
    (p, siteType? files p)) ∧
      (∀ p, (collectSites files).get? p = siteType? files p) ∧
      (∀ files', files.Perm files' → ∀ p, (collectSites files).contains p =
        (collectSites files').contains p) ∧
      ∀ files', files ⊆ files' → ∀ p, (collectSites files).contains p →
        (collectSites files').contains p := by
  refine ⟨?_, get?_collectSites files, fun files' hperm p => ?_, fun files' h p =>
    contains_collectSites_of_subset h⟩
  · rw [entries_eq (nodup_keys_collectSites files), keys_collectSites]
    exact List.map_congr_left fun p _ => by rw [get?_collectSites]
  · refine Bool.eq_iff_iff.2 ⟨contains_collectSites_of_subset hperm.subset, ?_⟩
    exact contains_collectSites_of_subset hperm.symm.subset

/-- A function that returns a value in the line in which it is declared. -/
def returning (name : String) (line : Nat) : Function :=
  ⟨name, 0, line, default, default, 1, some line⟩

def importedWrapper : List SourceFile :=
  [⟨"Main", { calls := [⟨"read", some "Input", 4, default⟩] }⟩,
   ⟨"Input", { calls := [⟨"nondetShort", some "Verifier", 3, default⟩],
               functions := [returning "read" 3] }⟩]

theorem collectSites_importedWrapper :
    (collectSites importedWrapper).entries.map (fun e => (e.1, some e.2)) =
        [(⟨"Input", 3⟩, some "short"), (⟨"Main", 4⟩, some "short")] ∧
      importedWrapper.Perm importedWrapper.reverse ∧
      (collectSites importedWrapper.reverse).contains ⟨"Main", 4⟩ := by
  obtain ⟨hentries, -, hperm, -⟩ := collectSites_described importedWrapper
  have hdescribed : (siteOrder importedWrapper).map (fun p => (p, siteType? importedWrapper p)) =
      [(⟨"Input", 3⟩, some "short"), (⟨"Main", 4⟩, some "short")] := by decide
  have hcontains : (collectSites importedWrapper).contains ⟨"Main", 4⟩ := by decide
  have hreverse : importedWrapper.Perm importedWrapper.reverse := (List.reverse_perm _).symm
  exact ⟨hentries.trans hdescribed, hreverse, (hperm _ hreverse _).symm.trans hcontains⟩

/-! ### Calls to wrappers -/

theorem callsWrapper_of_mem (hg : (q, g) ∈ wrapperFunctions files) (hname : c.name = g.name) :
    callsWrapper files c :=
  isSome_wrapped?_iff.2 ⟨q, g, hg, hname.symm⟩

/-- The wrappers that are called at a position return inputs of the type. -/
def WrappersGive (files : List SourceFile) (p : Position) (type : Option String) : Prop :=
  ∀ q g c, (q, g) ∈ wrapperFunctions files → (p, c) ∈ positionedCalls files → c.name = g.name →
    providedAt? files q = type

/-- The type at a position where a wrapper is called comes from the last wrapper with the name
that is called last. -/
theorem exists_of_callsWrapper (hc : (p, c) ∈ positionedCalls files)
    (hwrapper : callsWrapper files c) :
    ∃ c' q', lastCall? files (callsWrapper files) p = some c' ∧ wrapped? files c'.name = some q' ∧
      (collectSites files).get? p = providedAt? files q' := by
  obtain ⟨c', hlast⟩ := Option.isSome_iff_exists.1 (isSome_lastCall?_iff.2 ⟨c, hc, hwrapper⟩)
  obtain ⟨q', hq'⟩ := Option.isSome_iff_exists.1 (of_lastCall? hlast).2
  refine ⟨c', q', hlast, hq', ?_⟩
  rw [get?_collectSites, siteType?, hlast]
  show wrappedType? files c' = _
  rw [wrappedType?, hq', Option.bind_some]

theorem get?_collectSites_of_wrappersGive {type : Option String} (hgive : WrappersGive files p type)
    (hc : (p, c) ∈ positionedCalls files) (hwrapper : callsWrapper files c) :
    (collectSites files).get? p = type := by
  obtain ⟨c', q', hlast, hq', htype⟩ := exists_of_callsWrapper hc hwrapper
  obtain ⟨⟨g', hg', hname⟩, -⟩ := of_wrapped? hq'
  rw [htype]
  exact hgive q' g' c' hg' (of_lastCall? hlast).1 hname.symm

/-- **Calls to wrappers.** Wherever a wrapper is called by its name, in whichever file, there
is a site. The last wrapper with the name that is called last there decides the type. So it is
the type at the position where this wrapper returns its input, if no wrapper that is called at
either position returns an input of another type. -/
theorem sites_of_wrapper (hg : (q, g) ∈ wrapperFunctions files)
    (hc : (p, c) ∈ positionedCalls files) (hname : c.name = g.name) :
    (collectSites files).contains p ∧
      (∃ c' q', lastCall? files (callsWrapper files) p = some c' ∧
      wrapped? files c'.name = some q' ∧
        (collectSites files).get? p = providedAt? files q') ∧
      (WrappersGive files p (providedAt? files q) → WrappersGive files q (providedAt? files q) →
        (collectSites files).get? p = (collectSites files).get? q) := by
  have hwrapper := callsWrapper_of_mem hg hname
  refine ⟨contains_collectSites_iff.2 ⟨c, hc, .inr hwrapper⟩, exists_of_callsWrapper hc hwrapper,
    fun hp hq => ?_⟩
  have hreturn : (collectSites files).get? q = providedAt? files q := by
    rw [get?_collectSites, siteType?]
    cases hlast : lastCall? files (callsWrapper files) q with
    | none => rfl
    | some c' =>
      obtain ⟨hc', hwrapper'⟩ := of_lastCall? hlast
      have htype := get?_collectSites_of_wrappersGive hq hc' hwrapper'
      rwa [get?_collectSites, siteType?, hlast] at htype
  rw [hreturn]
  exact get?_collectSites_of_wrappersGive hp hc hwrapper

theorem sites_of_importedWrapper :
    (⟨"Input", 3⟩, returning "read" 3) ∈ wrapperFunctions importedWrapper ∧
      (collectSites importedWrapper).contains ⟨"Main", 4⟩ ∧
      (collectSites importedWrapper).get? ⟨"Main", 4⟩ =
        (collectSites importedWrapper).get? ⟨"Input", 3⟩ := by
  have hwrappers : wrapperFunctions importedWrapper = [(⟨"Input", 3⟩, returning "read" 3)] := by
    decide
  have hg : (⟨"Input", 3⟩, returning "read" 3) ∈ wrapperFunctions importedWrapper := by
    simp [hwrappers]
  -- there is one wrapper only
  have hgive : ∀ p, WrappersGive importedWrapper p (providedAt? importedWrapper ⟨"Input", 3⟩) := by
    intro p q g c hq _ _
    rw [hwrappers, List.mem_singleton] at hq
    cases hq
    rfl
  have hcall : (⟨"Main", 4⟩, ⟨"read", some "Input", 4, default⟩) ∈
      positionedCalls importedWrapper := List.mem_cons_self
  obtain ⟨hcontains, -, htype⟩ := sites_of_wrapper hg hcall rfl
  exact ⟨hg, hcontains, htype (hgive _) (hgive _)⟩

/-- A wrapper in line 1, a function in line 2 that returns what the wrapper returns, and a call
to it in line 3. -/
def chainedWrapper : List SourceFile :=
  [⟨"Main",
    { calls := [⟨"nondetInt", some "Verifier", 1, default⟩, ⟨"f", none, 2, default⟩,
                ⟨"g", none, 3, default⟩]
      functions := [returning "f" 1, returning "g" 2] }⟩]

/-- A wrapper in line 1 that calls the wrapper of line 2 in the line of its own input, and a
call to it in line 3. -/
def overlaidWrapper : List SourceFile :=
  [⟨"Main",
    { calls := [⟨"nondetInt", some "Verifier", 1, default⟩, ⟨"h", none, 1, default⟩,
        ⟨"nondetShort", some "Verifier", 2, default⟩, ⟨"g", none, 3, default⟩]
      functions := [returning "g" 1, returning "h" 2] }⟩]

/-- Functions that return a site are not all followed to their calls, and of those that are,
the calls may have another type than the site. -/
theorem not_sites_of_returning :
    (¬ ∀ files q g p c, (q, g) ∈ returningFunctions files → (collectSites files).contains q →
        (p, c) ∈ positionedCalls files → c.name = g.name →
        (collectSites files).contains p ∧
        (collectSites files).get? p = (collectSites files).get? q) ∧
      ¬ ∀ files q g p c, (q, g) ∈ wrapperFunctions files → (p, c) ∈ positionedCalls files →
      c.name = g.name →
        (collectSites files).get? p = (collectSites files).get? q := by
  constructor
  · intro h
    have habsent : (collectSites chainedWrapper).contains ⟨"Main", 3⟩ = false := by decide
    have hreturns : (⟨"Main", 2⟩, returning "g" 2) ∈ returningFunctions chainedWrapper := by decide
    have hcall : (⟨"Main", 3⟩, ⟨"g", none, 3, default⟩) ∈ positionedCalls chainedWrapper := by
      decide
    have hpresent := (h chainedWrapper _ _ _ _ hreturns (by decide) hcall rfl).1
    exact Bool.false_ne_true (habsent.symm.trans hpresent)
  · intro h
    have hreturns : (⟨"Main", 1⟩, returning "g" 1) ∈ wrapperFunctions overlaidWrapper := by decide
    have hcall : (⟨"Main", 3⟩, ⟨"g", none, 3, default⟩) ∈ positionedCalls overlaidWrapper := by
      decide
    have hint : (collectSites overlaidWrapper).get? ⟨"Main", 3⟩ = some "int" := by decide
    have hshort : (collectSites overlaidWrapper).get? ⟨"Main", 1⟩ = some "short" := by decide
    have hsame := h overlaidWrapper _ _ _ _ hreturns hcall rfl
    rw [hint, hshort] at hsame
    exact absurd hsame (by decide)

end WitnessReplay.Benchmark
