import WitnessReplay.CommandLine.Run
import WitnessReplay.Proofs.DirectoryMaking
import WitnessReplay.Proofs.StageOutcomes
import WitnessReplay.Proofs.TextLines

/-!
# What a run prints and leaves behind

The exit code tells whether all stages succeed, and what is printed depends on how far they
come. A text has the table of inputs in front of the verdict, data is one report or nothing. A
temporary working directory is removed however the stages end.

Lines can be told apart: the lines of the table are indented, so that none of them is its
heading or a verdict.
-/

namespace WitnessReplay.Text

variable {line cs rest : List Char} {ls : List String}

theorem dropEndWhile_concat_of_pos {p : Char → Bool} {c : Char} (hc : p c = true) :
    dropEndWhile p (cs ++ [c]) = dropEndWhile p cs := by
  simp [dropEndWhile, hc]

theorem notMem_dropEndWhile_of_mem_lines (h : line ∈ lines cs) :
    '\n' ∉ dropEndWhile isWhiteSpace line := by
  have hfront := notMem_dropLast_of_mem_lines h
  rcases List.eq_nil_or_concat line with rfl | ⟨front, c, hline⟩
  · simp [dropEndWhile]
  rw [List.concat_eq_append] at hline
  subst hline
  rw [List.dropLast_concat] at hfront
  by_cases hc : c = '\n'
  · rw [hc, dropEndWhile_concat_of_pos (by decide)]
    exact fun hmem => hfront ((Harness.dropEndWhile_prefix_self _ _).subset hmem)
  · intro hmem
    have hmem := (Harness.dropEndWhile_prefix_self _ _).subset hmem
    simp [hfront, Ne.symm hc] at hmem

/-- Lines that can be read again: without line feeds, and without carriage returns at their ends. -/
def IsLine (line : String) : Prop :=
  '\n' ∉ line.toList ∧ line.toList.getLast? ≠ some '\r'

theorem lineTexts_append {line : String} (hline : IsLine line) (rest : String) :
    lineTexts (line ++ "\n" ++ rest) = line :: lineTexts rest := by
  have hlines : lines (line ++ "\n" ++ rest).toList =
      (line.toList ++ ['\n']) :: lines rest.toList := by
    simpa using lines_append_cons hline.1 rest.toList
  have htext : lineText (line.toList ++ ['\n']) = line.toList := by simp [lineText, hline.2]
  rw [lineTexts, hlines, List.map_cons, htext, String.ofList_toList, lineTexts]

theorem unlines_cons (line : String) (ls : List String) :
    unlines (line :: ls) = line ++ "\n" ++ unlines ls := by
  simp [unlines]

theorem lineTexts_unlines_append (hls : ∀ line ∈ ls, IsLine line) (rest : String) :
    lineTexts (unlines ls ++ rest) = ls ++ lineTexts rest := by
  induction ls with
  | nil => simp [unlines]
  | cons line ls ih =>
    obtain ⟨hline, hls⟩ := List.forall_mem_cons.1 hls
    rw [unlines_cons, String.append_assoc, lineTexts_append hline, ih hls, List.cons_append]

end WitnessReplay.Text

namespace WitnessReplay.CommandLine

open Files Harness Validation Witness

variable {stages : Stages} {temporary : Temporary} {o : Options} {m m' : Machine}
  {x : Extraction} {workdir : Path}

def tableLines (x : Extraction) : List String :=
  "Assumptions:" :: (Text.lines (table x.inputs).toList).map fun line =>
    "  " ++ String.ofList (Text.dropEndWhile Text.isWhiteSpace line)

def verdictLine (v : Verdict) : String :=
  "polywit: " ++ v.message

theorem assumptionsText_eq (x : Extraction) : assumptionsText x = Text.unlines (tableLines x) := by
  have hheading : "Assumptions:\n" = "Assumptions:" ++ "\n" := by decide
  rw [tableLines, Text.unlines_cons, Text.unlines, List.map_map, assumptionsText, hheading]
  rfl

theorem verdictText_eq (v : Verdict) : verdictText v = Text.unlines [verdictLine v] := by
  simp [verdictText, verdictLine, Text.unlines]
  rfl

theorem isLine_of_mem_tableLines {line : String} (h : line ∈ tableLines x) : Text.IsLine line := by
  rcases List.mem_cons.1 h with rfl | h
  · exact ⟨by decide, by decide⟩
  · obtain ⟨cs, hcs, rfl⟩ := List.mem_map.1 h
    have hfeed := Text.notMem_dropEndWhile_of_mem_lines hcs
    refine ⟨by simpa using hfeed, fun hlast => ?_⟩
    simp only [String.toList_append, String.toList_ofList, List.getLast?_append] at hlast
    cases hend : (Text.dropEndWhile Text.isWhiteSpace cs).getLast? with
    | none => simp [hend] at hlast
    | some c =>
      have hnot := Text.not_of_getLast?_dropEndWhile hend
      rw [hend, Option.some_or] at hlast
      cases hlast
      revert hnot
      decide

theorem isLine_verdictLine (v : Verdict) : Text.IsLine (verdictLine v) := by
  cases v <;> exact ⟨by decide, by decide⟩

theorem lineTexts_assumptionsText_append (x : Extraction) (rest : String) :
    Text.lineTexts (assumptionsText x ++ rest) = tableLines x ++ Text.lineTexts rest := by
  rw [assumptionsText_eq, Text.lineTexts_unlines_append fun _ => isLine_of_mem_tableLines]

theorem lineTexts_verdictText (v : Verdict) : Text.lineTexts (verdictText v) = [verdictLine v] := by
  have hlines : ∀ line ∈ [verdictLine v], Text.IsLine line := by
    intro line hline
    cases List.mem_singleton.1 hline
    exact isLine_verdictLine v
  have htexts := Text.lineTexts_unlines_append hlines ""
  rw [String.append_empty, ← verdictText_eq] at htexts
  simpa [Text.lineTexts, Text.lines] using htexts

/-- The first characters of a line of the table are not those of a verdict. -/
theorem verdictLine_notMem_tableLines (v : Verdict) : verdictLine v ∉ tableLines x := by
  intro h
  rcases List.mem_cons.1 h with heq | h
  · cases v <;> exact absurd heq (by decide)
  · obtain ⟨cs, -, heq⟩ := List.mem_map.1 h
    have hhead := congrArg (fun line : String => line.toList.head?) heq
    cases v <;> simp [verdictLine] at hhead

theorem heading_ne_verdictLine (v : Verdict) : "Assumptions:" ≠ verdictLine v := by
  cases v <;> decide

/-- The working directory and the machine with which the stages begin, if the directory can be
made. -/
def begun? (temporary : Temporary) (o : Options) (m : Machine) : Option (Path × Machine) :=
  match makeWorkdir temporary o m.files with
  | (.ok workdir, files) => some (workdir, { m with files })
  | (.error _, _) => none

/-- The stages find the inputs, whether or not they come to a verdict. -/
def Extracted (stages : Stages) (temporary : Temporary) (o : Options) (m : Machine)
    (w : LinearWitness) (x : Extraction) : Prop :=
  ∃ workdir m' t, begun? temporary o m = some (workdir, m') ∧
    (stages o.config workdir).Extracts { machine := m' } w x t

def Completed (stages : Stages) (temporary : Temporary) (o : Options) (m : Machine)
    (w : LinearWitness) (x : Extraction) (v : Verdict) : Prop :=
  ∃ workdir m' t, begun? temporary o m = some (workdir, m') ∧
    (stages o.config workdir).Completes { machine := m' } w x v t

/-- What is in front of the verdict: the table of the inputs, if it is wanted and they are
found, or else nothing. -/
def IsTable (stages : Stages) (temporary : Temporary) (o : Options) (m : Machine)
    (table : String) : Prop :=
  (∃ w x, o.showAssumptions = true ∧ Extracted stages temporary o m w x ∧
      table = assumptionsText x) ∨
    (¬∃ w x, o.showAssumptions = true ∧ Extracted stages temporary o m w x) ∧ table = ""

/-- What a result says about the stages. -/
structure Account (stages : Stages) (temporary : Temporary) (o : Options) (m : Machine)
    (r : Result) : Prop where
  exitCode_eq_zero_iff : r.exitCode = 0 ↔ ∃ w x v, Completed stages temporary o m w x v
  text_of_completed : o.format = .text → ∀ w x v, Completed stages temporary o m w x v →
    ∃ table, IsTable stages temporary o m table ∧ r.stdout = table ++ verdictText v
  text_of_failed : o.format = .text → r.exitCode ≠ 0 → IsTable stages temporary o m r.stdout
  verdict_iff : o.format = .text →
    ((∃ v, verdictLine v ∈ Text.lineTexts r.stdout) ↔ r.exitCode = 0)
  heading_iff : o.format = .text → ("Assumptions:" ∈ Text.lineTexts r.stdout ↔
    o.showAssumptions = true ∧ ∃ w x, Extracted stages temporary o m w x)
  json_of_completed : o.format = .json → ∀ w x v, Completed stages temporary o m w x v →
    r.stdout = Report.text ⟨v, o.config.language, w.producer, x.inputs⟩ ++ "\n" ∧
      x.inputs.map (·.value) = x.values
  json_of_failed : o.format = .json → r.exitCode ≠ 0 → r.stdout = ""

theorem Completed.extracted {w : LinearWitness} {v : Verdict}
    (h : Completed stages temporary o m w x v) : Extracted stages temporary o m w x := by
  obtain ⟨workdir, m', t, hbegun, s₄, s₅, hextracts, -⟩ := h
  exact ⟨workdir, m', s₄, hbegun, hextracts⟩

theorem isTable_of_extracted {w : LinearWitness} (h : Extracted stages temporary o m w x) :
    IsTable stages temporary o m
      (if o.showAssumptions = true then assumptionsText x else "") := by
  by_cases hshow : o.showAssumptions = true
  · exact .inl ⟨w, x, hshow, h, if_pos hshow⟩
  · exact .inr ⟨fun ⟨_, _, hshow', _⟩ => hshow hshow', if_neg hshow⟩

/-- A result is that of stages that end early, late or with a verdict. -/
inductive Conclusion (stages : Stages) (temporary : Temporary) (o : Options) (m : Machine)
    (r : Result) : Prop where
  | early (hnot : ∀ w x, ¬Extracted stages temporary o m w x) (hexit : r.exitCode = 1)
      (hstdout : r.stdout = "")
  | late {w : LinearWitness} {x : Extraction} (hextracted : Extracted stages temporary o m w x)
      (hnot : ∀ w x v, ¬Completed stages temporary o m w x v) (hexit : r.exitCode = 1)
      (hstdout : r.stdout = shownAssumptions o { extraction := some x })
  | verdict {w : LinearWitness} {x : Extraction} {v : Verdict}
      (hcompleted : Completed stages temporary o m w x v) (hexit : r.exitCode = 0)
      (hstdout : r.stdout = shownAssumptions o { extraction := some x } ++
        shownVerdict o ⟨.completed, some w, some x, some v⟩ v)

theorem shownAssumptions_congr {v v' : Validator} (h : v.extraction = v'.extraction) :
    shownAssumptions o v = shownAssumptions o v' := by
  rw [shownAssumptions, shownAssumptions, h]

theorem conclusion_concluded (warnings : Surroundings → List String)
    {ended : Except ValidationError Verdict × Session Surroundings}
    (hbegun : begun? temporary o m = some (workdir, m'))
    (hends : (stages o.config workdir).Ends { machine := m' } ended) :
    Conclusion stages temporary o m (concluded o warnings ended) := by
  cases hends with
  | early hnot hnone =>
    refine .early ?_ rfl ?_
    · rintro w x ⟨workdir', m'', t, hbegun', hextracts⟩
      cases hbegun.symm.trans hbegun'
      exact hnot w x t hextracts
    · simp [concluded, shownAssumptions, hnone]
  | late hextracts hnot hsome =>
    refine .late ⟨workdir, m', _, hbegun, hextracts⟩ ?_ rfl (shownAssumptions_congr hsome)
    rintro w x v ⟨workdir', m'', t, hbegun', hcompletes⟩
    cases hbegun.symm.trans hbegun'
    exact hnot w x v t hcompletes
  | verdict hcompletes hvalidator =>
    refine .verdict ⟨workdir, m', _, hbegun, hcompletes⟩ rfl ?_
    rw [concluded, hvalidator]
    rfl

theorem begun?_eq_some_iff : begun? temporary o m = some (workdir, m') ↔
    ∃ files, makeWorkdir temporary o m.files = (.ok workdir, files) ∧
      m' = { m with files } := by
  rw [begun?]
  constructor
  · intro h
    split at h
    · rename_i made files hmade
      cases h
      exact ⟨files, hmade, rfl⟩
    · cases h
  · rintro ⟨files, hmade, rfl⟩
    rw [hmade]

theorem carryOut_of_begun? (stages : Stages) (h : begun? temporary o m = some (workdir, m')) :
    carryOut stages temporary o m =
      let (result, left) := conductIn stages o workdir m'
      if o.removesWorkdir then
        (result, { left with files := temporary.remove workdir left.files })
      else (result, left) := by
  obtain ⟨files, hmade, rfl⟩ := begun?_eq_some_iff.1 h
  simp only [carryOut, hmade]

theorem carryOut_of_error (stages : Stages) {message : String} {files : FileSystem}
    (h : makeWorkdir temporary o m.files = (.error message, files)) :
    carryOut stages temporary o m = (workdirFailure message, { m with files }) := by
  simp only [carryOut, h]

theorem conclusion_carryOut (stages : Stages) (temporary : Temporary) (o : Options)
    (m : Machine) : Conclusion stages temporary o m (carryOut stages temporary o m).1 := by
  rcases hmade : makeWorkdir temporary o m.files with ⟨message | workdir, files⟩
  · rw [carryOut_of_error stages hmade]
    refine .early ?_ rfl rfl
    rintro w x ⟨workdir, m', t, hbegun, -⟩
    obtain ⟨files', hmade', -⟩ := begun?_eq_some_iff.1 hbegun
    cases hmade.symm.trans hmade'
  · have hbegun := begun?_eq_some_iff.2 ⟨files, hmade, rfl⟩
    have hfirst : (carryOut stages temporary o m).1 =
        (conductIn stages o workdir { m with files }).1 := by
      rw [carryOut_of_begun? stages hbegun]
      simp only []
      split <;> rfl
    rw [hfirst]
    exact conclusion_concluded (·.warnings.map (warningLine o.config)) hbegun
      (Operate.ends_validate (stages o.config workdir) _)

theorem shownAssumptions_text (hformat : o.format = .text) (x : Extraction) :
    shownAssumptions o { extraction := some x } =
      if o.showAssumptions = true then assumptionsText x else "" := by
  unfold shownAssumptions
  rw [hformat]
  cases o.showAssumptions <;> rfl

theorem shownAssumptions_json (hformat : o.format = .json) (v : Validator) :
    shownAssumptions o v = "" := by
  unfold shownAssumptions
  rw [hformat]

theorem lineTexts_table_append (x : Extraction) (rest : String) :
    Text.lineTexts
        ((if o.showAssumptions = true then assumptionsText x else "") ++ rest) =
      (if o.showAssumptions = true then tableLines x else []) ++ Text.lineTexts rest := by
  split
  · exact lineTexts_assumptionsText_append x rest
  · simp

theorem account_of_early {r : Result} (hnot : ∀ w x, ¬Extracted stages temporary o m w x)
    (hexit : r.exitCode = 1) (hstdout : r.stdout = "") :
    Account stages temporary o m r := by
  have hnone (w : LinearWitness) (x : Extraction) (v : Verdict) :
      ¬Completed stages temporary o m w x v :=
    fun h => hnot w x h.extracted
  have hlines : Text.lineTexts r.stdout = [] := by
    rw [hstdout]
    rfl
  constructor
  case exitCode_eq_zero_iff => simp [hexit, hnone]
  case text_of_completed => exact fun _ w x v h => absurd h (hnone w x v)
  case text_of_failed => exact fun _ _ => .inr ⟨fun ⟨w, x, _, h⟩ => hnot w x h, hstdout⟩
  case verdict_iff => simp [hlines, hexit]
  case heading_iff => simp [hlines, hnot]
  case json_of_completed => exact fun _ w x v h => absurd h (hnone w x v)
  case json_of_failed => exact fun _ _ => hstdout

theorem account_of_late {r : Result} {w : LinearWitness}
    (hextracted : Extracted stages temporary o m w x)
    (hnot : ∀ w x v, ¬Completed stages temporary o m w x v) (hexit : r.exitCode = 1)
    (hstdout : r.stdout = shownAssumptions o { extraction := some x }) :
    Account stages temporary o m r := by
  have hlines (hformat : o.format = .text) :
      Text.lineTexts r.stdout = if o.showAssumptions = true then tableLines x else [] := by
    have happend := lineTexts_table_append (o := o) x ""
    rw [String.append_empty, ← shownAssumptions_text hformat, ← hstdout] at happend
    simpa [Text.lineTexts, Text.lines] using happend
  constructor
  case exitCode_eq_zero_iff => simp [hexit, hnot]
  case text_of_completed => exact fun _ w x v h => absurd h (hnot w x v)
  case text_of_failed =>
    intro hformat _
    rw [hstdout, shownAssumptions_text hformat]
    exact isTable_of_extracted hextracted
  case verdict_iff =>
    intro hformat
    rw [hlines hformat, hexit]
    split <;> simp [verdictLine_notMem_tableLines]
  case heading_iff =>
    intro hformat
    rw [hlines hformat]
    split
    · rename_i hshow
      exact ⟨fun _ => ⟨hshow, w, x, hextracted⟩, fun _ => List.mem_cons_self⟩
    · rename_i hshow
      simp [hshow]
  case json_of_completed => exact fun _ w x v h => absurd h (hnot w x v)
  case json_of_failed => exact fun hformat _ => hstdout.trans (shownAssumptions_json hformat _)

theorem account_of_verdict {r : Result} {w : LinearWitness} {v : Verdict}
    (hcompleted : Completed stages temporary o m w x v) (hexit : r.exitCode = 0)
    (hstdout : r.stdout = shownAssumptions o { extraction := some x } ++
      shownVerdict o ⟨.completed, some w, some x, some v⟩ v) : Account stages temporary o m r := by
  have hunique {w' : LinearWitness} {x' : Extraction} {v' : Verdict}
      (h : Completed stages temporary o m w' x' v') : w = w' ∧ x = x' ∧ v = v' := by
    obtain ⟨workdir, m₁, t, hbegun, hcompletes⟩ := hcompleted
    obtain ⟨workdir', m₁', t', hbegun', hcompletes'⟩ := h
    cases hbegun.symm.trans hbegun'
    exact hcompletes.unique hcompletes'
  have htext (hformat : o.format = .text) :
      r.stdout =
        (if o.showAssumptions = true then assumptionsText x else "") ++ verdictText v := by
    rw [hstdout, shownAssumptions_text hformat, shownVerdict, hformat]
  have hlines (hformat : o.format = .text) :
      Text.lineTexts r.stdout =
        (if o.showAssumptions = true then tableLines x else []) ++ [verdictLine v] := by
    rw [htext hformat, lineTexts_table_append, lineTexts_verdictText]
  constructor
  case exitCode_eq_zero_iff => exact ⟨fun _ => ⟨w, x, v, hcompleted⟩, fun _ => hexit⟩
  case text_of_completed =>
    intro hformat w' x' v' h
    obtain ⟨rfl, rfl, rfl⟩ := hunique h
    exact ⟨_, isTable_of_extracted hcompleted.extracted, htext hformat⟩
  case text_of_failed => exact fun _ hne => absurd hexit hne
  case verdict_iff =>
    intro hformat
    rw [hlines hformat]
    exact ⟨fun _ => hexit, fun _ => ⟨v, by simp⟩⟩
  case heading_iff =>
    intro hformat
    rw [hlines hformat]
    constructor
    · intro h
      rcases List.mem_append.1 h with h | h
      · split at h
        · rename_i hshow
          exact ⟨hshow, w, x, hcompleted.extracted⟩
        · cases h
      · exact absurd (List.mem_singleton.1 h) (heading_ne_verdictLine v)
    · rintro ⟨hshow, -⟩
      simp [hshow, tableLines]
  case json_of_completed =>
    intro hformat w' x' v' h
    obtain ⟨rfl, rfl, rfl⟩ := hunique h
    obtain ⟨workdir, m₁, t, -, hextracts⟩ := hcompleted.extracted
    refine ⟨?_, hextracts.map_value_inputs⟩
    rw [hstdout, shownAssumptions_json hformat, shownVerdict, hformat, String.empty_append]
    rfl
  case json_of_failed => exact fun _ hne => absurd hexit hne

theorem account_carryOut (stages : Stages) (temporary : Temporary) (o : Options)
    (m : Machine) : Account stages temporary o m (carryOut stages temporary o m).1 := by
  cases conclusion_carryOut stages temporary o m with
  | early hnot hexit hstdout => exact account_of_early hnot hexit hstdout
  | late hextracted hnot hexit hstdout => exact account_of_late hextracted hnot hexit hstdout
  | verdict hcompleted hexit hstdout => exact account_of_verdict hcompleted hexit hstdout

/-- A temporary directory has been made at a route where there was nothing, and nothing else
has been changed. -/
structure Temporary.Creates (t : Temporary) (fs : FileSystem) (path : Path) (r : Route)
    (fs' : FileSystem) : Prop where
  made : t.create fs = (.ok path, fs')
  free : fs.status? r = none
  leads : fs'.routeOf path = .ok r
  status : ∀ x, fs'.status? x = if x = r then some (.directory false) else fs.status? x

/-- A directory is removed with all that is in it, and nothing else is. -/
def Temporary.Removes (t : Temporary) (path : Path) (r : Route) (fs : FileSystem) : Prop :=
  ∀ x, (t.remove path fs).status? x = if r <+: x then none else fs.status? x

/-- Where a run has made a temporary directory and removed it, everything is as it was before,
if nothing has been changed outside in between. -/
theorem Temporary.status?_remove {t : Temporary} {fs made left : FileSystem} {path : Path}
    {r : Route} (hcreates : t.Creates fs path r made) (hremoves : t.Removes path r left)
    (hleft : ∀ x, ¬r <+: x → left.status? x = made.status? x) (x : Route) :
    (t.remove path left).status? x = fs.status? x := by
  rw [hremoves x]
  split
  · rename_i hbelow
    obtain ⟨below, rfl⟩ := hbelow
    by_contra hthere
    exact FileSystem.status?_ne_none_of_append (Ne.symm hthere) hcreates.free
  · rename_i hbeside
    have hne : x ≠ r := by
      rintro rfl
      exact hbeside List.prefix_rfl
    rw [hleft x hbeside, hcreates.status, if_neg hne]

/-- What becomes of the working directory. A temporary one is removed after the stages,
however they have ended, unless it is to be kept: then nothing is left of it, and if the stages
have changed nothing else, everything is as it was before the run. A working directory that is
given, or that is to be kept, stays as the stages have left it. -/
structure Cleanup (stages : Stages) (temporary : Temporary) (o : Options) (m m' : Machine) :
    Prop where
  unmade : ∀ message files, makeWorkdir temporary o m.files = (.error message, files) →
    m' = { m with files }
  kept : o.workdir ≠ none ∨ o.keepWorkdir = true → ∀ workdir m₁,
    begun? temporary o m = some (workdir, m₁) → m' = (conductIn stages o workdir m₁).2
  removed : o.workdir = none → o.keepWorkdir = false → ∀ workdir m₁,
    begun? temporary o m = some (workdir, m₁) →
      let left := (conductIn stages o workdir m₁).2
      m' = { left with files := temporary.remove workdir left.files }
  nothingLeft : o.workdir = none → o.keepWorkdir = false → ∀ path r files,
    temporary.Creates m.files path r files →
      let left := (conductIn stages o path { m with files }).2
      temporary.Removes path r left.files →
        (∀ x, r <+: x → m'.files.status? x = none) ∧
        ((∀ x, ¬r <+: x → left.files.status? x = files.status? x) →
          ∀ x, m'.files.status? x = m.files.status? x)

theorem removesWorkdir_iff :
    o.removesWorkdir = true ↔ o.workdir = none ∧ o.keepWorkdir = false := by
  simp [Options.removesWorkdir]

theorem cleanup_carryOut (stages : Stages) (temporary : Temporary) (o : Options)
    (m : Machine) : Cleanup stages temporary o m (carryOut stages temporary o m).2 := by
  have hremoved (hworkdir : o.workdir = none) (hkeep : o.keepWorkdir = false)
      (workdir : Path) (m₁ : Machine) (hbegun : begun? temporary o m = some (workdir, m₁)) :
      (carryOut stages temporary o m).2 =
        let left := (conductIn stages o workdir m₁).2
        { left with files := temporary.remove workdir left.files } := by
    rw [carryOut_of_begun? stages hbegun]
    simp only [removesWorkdir_iff.2 ⟨hworkdir, hkeep⟩, if_true]
  refine ⟨?_, ?_, hremoved, ?_⟩
  · intro message files hmade
    rw [carryOut_of_error stages hmade]
  · intro hkeep workdir m₁ hbegun
    have hnot : o.removesWorkdir ≠ true := by
      rw [Ne, removesWorkdir_iff]
      rintro ⟨hworkdir, hremove⟩
      rcases hkeep with hkeep | hkeep
      · exact hkeep hworkdir
      · cases hkeep.symm.trans hremove
    rw [carryOut_of_begun? stages hbegun]
    simp only [eq_false_of_ne_true hnot, Bool.false_eq_true, if_false]
  · intro hworkdir hkeep path r files hcreates left hremoves
    have hmade : makeWorkdir temporary o m.files = (.ok path, files) := by
      rw [makeWorkdir, hworkdir]
      exact hcreates.made
    rw [hremoved hworkdir hkeep path _ (begun?_eq_some_iff.2 ⟨files, hmade, rfl⟩)]
    refine ⟨?_, ?_⟩
    · intro x hx
      exact (hremoves x).trans (if_pos hx)
    · intro hleft x
      exact Temporary.status?_remove hcreates hremoves hleft x

/-- What a run reports about its stages, whatever they do, and what becomes of its working
directory. -/
theorem runWith_reports_stages (stages : Stages) (temporary : Temporary)
    {words : List String} (hread : read m.files words = .ok o) :
    Account stages temporary o m (runWith stages temporary words m).1 ∧
      Cleanup stages temporary o m (runWith stages temporary words m).2 := by
  have hrun : runWith stages temporary words m = carryOut stages temporary o m := by
    rw [runWith, hread]
  rw [hrun]
  exact ⟨account_carryOut stages temporary o m, cleanup_carryOut stages temporary o m⟩

def smoothStages : Stages := fun _ _ =>
  { prepare := pure ()
    checkWitness := pure pointWitness
    resolveSites := pure ⟨[(⟨"Main", 3⟩, "int")]⟩
    extractAssumptions := fun _ =>
      pure [⟨⟨"Main", 3⟩, some "7"⟩, ⟨⟨"Main", 4⟩, some "8"⟩]
    buildHarness := fun values =>
      if values = [some "7"] then pure ()
      else throw (.harness (.compilationFailed "exit status: 1" ""))
    runHarness := pure .correct }

theorem completed_smoothStages (hbegun : begun? temporary o m = some (workdir, m')) :
    Completed smoothStages temporary o m pointWitness
      (.aligned ⟨[(⟨"Main", 3⟩, "int")]⟩
        [⟨⟨"Main", 3⟩, some "7"⟩, ⟨⟨"Main", 4⟩, some "8"⟩]) .correct :=
  ⟨workdir, m', _, hbegun, _, _, ⟨_, _, _, _, ⟨_, rfl, rfl⟩, rfl, rfl, rfl⟩, rfl, rfl⟩

def benchMachine : Machine where
  files :=
    { root := .directory "bench" false .empty (.directory "tmp" false .empty .empty)
      sorted := ⟨by decide, trivial, by decide, trivial, trivial⟩
      named := ⟨by decide, trivial, by decide, trivial, trivial⟩ }
  tools := .empty

/-- A temporary directory with one name, which only one run can have at a time. -/
def benchTemporary : Temporary where
  create fs := (.ok ⟨"/tmp/t"⟩, fs.put ["tmp", "t"] .directory)
  remove _ _ := benchMachine.files

section Bench

theorem creates_benchTemporary :
    benchTemporary.Creates benchMachine.files ⟨"/tmp/t"⟩ ["tmp", "t"]
      (benchMachine.files.put ["tmp", "t"] .directory) := by
  have hadmits : benchMachine.files.Admits ["tmp", "t"] := by
    exact ⟨⟨by decide, by decide, fun h => absurd h (by decide)⟩, by decide⟩
  exact ⟨rfl, rfl, by decide, FileSystem.status?_place hadmits _⟩

theorem removes_benchTemporary :
    benchTemporary.Removes ⟨"/tmp/t"⟩ ["tmp", "t"]
      (benchMachine.files.put ["tmp", "t"] .directory) := by
  intro x
  show benchMachine.files.status? x = _
  split
  · rename_i hbelow
    obtain ⟨below, rfl⟩ := hbelow
    by_contra hthere
    exact FileSystem.status?_ne_none_of_append hthere creates_benchTemporary.free
  · rename_i hbeside
    have hne : x ≠ ["tmp", "t"] := by
      rintro rfl
      exact hbeside List.prefix_rfl
    rw [creates_benchTemporary.status, if_neg hne]

def benchWords : List String :=
  ["java", "bench", "--witness", "w", "--show-assumptions"]

def benchOptions : Options :=
  { config := { language := .java, benchmark := ⟨"bench"⟩, packages := [], witness := ⟨"w"⟩ }
    showAssumptions := true }

/-- A run in which all stages succeed: it exits with 0, prints a table and a verdict, and leaves
everything as it was. -/
theorem runWith_reports_smooth_stages :
    read benchMachine.files benchWords = .ok benchOptions ∧
      ∃ r m', runWith smoothStages benchTemporary benchWords benchMachine = (r, m') ∧
        r.exitCode = 0 ∧ "Assumptions:" ∈ Text.lineTexts r.stdout ∧
        ∀ x, m'.files.status? x = benchMachine.files.status? x := by
  have hread : read benchMachine.files benchWords = .ok benchOptions := rfl
  obtain ⟨haccount, hcleanup⟩ := runWith_reports_stages smoothStages benchTemporary hread
  have hmade : makeWorkdir benchTemporary benchOptions benchMachine.files = _ :=
    creates_benchTemporary.made
  have hcompleted := completed_smoothStages (begun?_eq_some_iff.2 ⟨_, hmade, rfl⟩)
  refine ⟨hread, _, _, rfl, ?_, ?_, ?_⟩
  · exact haccount.exitCode_eq_zero_iff.2 ⟨_, _, _, hcompleted⟩
  · exact (haccount.heading_iff rfl).2 ⟨rfl, _, _, hcompleted.extracted⟩
  · have hleft := hcleanup.nothingLeft rfl rfl _ _ _ creates_benchTemporary
      removes_benchTemporary
    exact hleft.2 fun _ _ => rfl

end Bench

end WitnessReplay.CommandLine
