import WitnessReplay.Proofs.DirectoryMaking
import WitnessReplay.Proofs.InjectedValues

/-!
# What writing a harness changes

A harness is written after all of its texts are known. So where a template cannot be used
nothing is changed; and where the harness is written, nothing is changed but its two files and
the directories above them.
-/

namespace WitnessReplay.Files

variable {fs fs' : FileSystem} {p : Path} {content : ByteArray} {r : Route}

theorem FileSystem.write_eq_ok (h : fs.write p content = .ok fs') :
    ∃ r, fs'.home = fs.home ∧ fs'.routeOf p = .ok r ∧ fs.get? r ≠ some .directory ∧
      ∀ x, fs'.status? x =
        if x = r then some (.file (fs.isLink r) (fs.access r) content) else fs.status? x := by
  obtain ⟨r, hr, rfl⟩ := write_eq_ok_iff.1 h
  have hadmits := admits_of_fileRoute hr
  refine ⟨r, home_setFile fs r _ _, routeOf_setFile hr, hadmits.1.2.2, ?_⟩
  exact status?_setFile hadmits _ _

namespace Edit

/-- What has happened when a file has been written to a path: it is there, as the link and with
the mode that was there, and of all else no more has changed than that directories have been
made above it. -/
structure Written (p : Path) (content : ByteArray) (r : Route) (fs fs' : FileSystem) :
    Prop where
  home : fs'.home = fs.home
  leads : fs'.routeOf p = .ok r
  file : fs'.status? r = some (.file (fs.isLink r) (fs.access r) content)
  free : fs.get? r ≠ some .directory
  others : ∀ x, x ≠ r → fs'.status? x = fs.status? x ∨
    p.parent.PassesThrough fs.home x ∧ fs.status? x = none ∧
      fs'.status? x = some (.directory false)
  above : ∀ x, p.parent.PassesThrough fs.home x → fs'.get? x = some .directory

theorem exists_written (h : writeBelowNew p content fs = (.ok (), fs')) :
    ∃ r, Written p content r fs fs' := by
  obtain ⟨_, made, hmade, h⟩ := exceptT_bind_eq_ok_iff.1 h
  obtain ⟨hgrows, habove⟩ := createDirectories_along hmade
  obtain ⟨r, hhome, hleads, hnot, hstatus⟩ := FileSystem.write_eq_ok (change_eq_ok_iff.1 h)
  refine ⟨r, hhome.trans hgrows.home, hleads, ?_, ?_, ?_, ?_⟩
  · rw [hstatus, if_pos rfl, hgrows.isLink, hgrows.access]
  · intro hdir
    exact hnot (hgrows.directory hdir)
  · intro x hx
    rw [hstatus, if_neg hx]
    exact hgrows.status x
  · intro x hx
    have hdir := habove x hx
    have hne : x ≠ r := by
      rintro rfl
      exact hnot hdir
    rw [FileSystem.get?_eq_bind, hstatus, if_neg hne]
    exact hdir

namespace Written

variable (h : Written p content r fs fs')
include h

theorem get?_file : fs'.get? r = some (.file content) := by
  rw [FileSystem.get?_eq_bind, h.file]
  rfl

theorem get?_eq {x : Route} {n : Node} (hx : fs.get? x = some n)
    (hkept : x ≠ r ∨ n = .directory) : fs'.get? x = some n := by
  have hne : x ≠ r := by
    rcases hkept with hne | rfl
    · exact hne
    · rintro rfl
      exact h.free hx
  rcases h.others x hne with heq | ⟨-, hnone, -⟩
  · rw [FileSystem.get?_eq_bind, heq]
    exact hx
  · rw [FileSystem.get?_eq_bind, hnone] at hx
    cases hx

theorem isLink_eq (x : Route) : fs'.isLink x = fs.isLink x := by
  by_cases hx : x = r
  · subst hx
    rw [FileSystem.isLink, h.file]
    rfl
  · rcases h.others x hx with heq | ⟨-, hnone, hdir⟩
    · rw [FileSystem.isLink, FileSystem.isLink, heq]
    · rw [FileSystem.isLink, FileSystem.isLink, hnone, hdir]
      rfl

theorem access_eq (x : Route) : fs'.access x = fs.access x := by
  by_cases hx : x = r
  · subst hx
    rw [FileSystem.access, h.file]
    rfl
  · rcases h.others x hx with heq | ⟨-, hnone, hdir⟩
    · rw [FileSystem.access, FileSystem.access, heq]
    · rw [FileSystem.access, FileSystem.access, hnone, hdir]
      rfl

end Written

end Edit

end WitnessReplay.Files

namespace WitnessReplay.Harness

open Files Edit

variable {fs fs' : FileSystem} {directory : Option Path} {language : Language} {workdir : Path}
  {values : List (Option String)} {paths : HarnessPaths} {r : Route}

def oracleRoute : Language → Route
  | .java => ["org", "sosy_lab", "sv_benchmarks", "Verifier.java"]
  | .kotlin => ["org", "polywit", "benchmarks", "Verifier.kt"]

theorem isPart_oracleRoute (language : Language) :
    ∀ name ∈ oracleRoute language, IsPart name := by
  cases language <;> (simp only [oracleRoute, List.forall_mem_cons]; exact ⟨⟨by decide, by decide⟩,
    ⟨by decide, by decide⟩, ⟨by decide, by decide⟩, ⟨by decide, by decide⟩, by simp⟩)

theorem route_oracle (home : Route) (workdir : Path) (language : Language) :
    (harnessPaths workdir language).oracle.route home =
      workdir.route home ++ oracleRoute language := by
  have hpath : (oracleFile language).path = "/".intercalate (oracleRoute language) := by
    cases language <;> decide
  have hne : oracleRoute language ≠ [] := by cases language <;> simp [oracleRoute]
  rw [harnessPaths, hpath, workdir.join_intercalate hne (isPart_oracleRoute language),
    workdir.route_joinAll home (isPart_oracleRoute language)]

theorem route_driver (home : Route) (workdir : Path) (language : Language) :
    (harnessPaths workdir language).driver.route home =
      workdir.route home ++ [(driverFile language).path] := by
  have hpart : IsPart (driverFile language).path := by
    cases language <;> exact ⟨by decide, by decide⟩
  exact workdir.route_join home hpart

theorem driver_ne_oracle (home : Route) (workdir : Path) (language : Language) :
    (harnessPaths workdir language).driver.route home ≠
      (harnessPaths workdir language).oracle.route home := by
  rw [route_driver, route_oracle]
  intro heq
  have hlength := congrArg List.length (List.append_cancel_left heq)
  cases language <;> cases hlength

/-- What has happened when the two texts of a harness have been written: both are in their
files, and of all else no more has changed than that directories have been made above the
files. All modes are as they were. -/
structure HarnessWritten (texts : HarnessTexts) (paths : HarnessPaths)
    (fs fs' : FileSystem) : Prop where
  driver : fs'.lookup paths.driver = .ok (.file texts.driver.toUTF8)
  oracle : fs'.lookup paths.oracle = .ok (.file texts.oracle.toUTF8)
  modes : ∀ r, fs'.isLink r = fs.isLink r ∧ fs'.access r = fs.access r
  others : ∀ r, r ≠ paths.driver.route fs.home → r ≠ paths.oracle.route fs.home →
    fs'.status? r = fs.status? r ∨
      (paths.driver.parent.PassesThrough fs.home r ∨
        paths.oracle.parent.PassesThrough fs.home r) ∧
        fs.status? r = none ∧ fs'.status? r = some (.directory false)
  above : ∀ r, paths.driver.parent.PassesThrough fs.home r ∨
    paths.oracle.parent.PassesThrough fs.home r → fs'.get? r = some .directory

theorem harnessWritten_of_writes {texts : HarnessTexts} {mid : FileSystem}
    (hdriver : writeText (harnessPaths workdir language).driver texts.driver fs = (.ok (), mid))
    (horacle : writeText (harnessPaths workdir language).oracle texts.oracle mid =
      (.ok (), fs')) :
    HarnessWritten texts (harnessPaths workdir language) fs fs' := by
  obtain ⟨δ, hδ⟩ := exists_written (exceptT_adapt_eq_ok hdriver)
  obtain ⟨ω, hω⟩ := exists_written (exceptT_adapt_eq_ok horacle)
  have hδroute := FileSystem.route_of_routeOf hδ.leads
  have hωroute := FileSystem.route_of_routeOf hω.leads
  rw [hδ.home] at hδroute
  rw [hω.home, hδ.home] at hωroute
  have hne : δ ≠ ω := hδroute ▸ hωroute ▸ driver_ne_oracle fs.home workdir language
  have hfile : fs'.get? δ = some (.file texts.driver.toUTF8) :=
    hω.get?_eq hδ.get?_file (.inl hne)
  have hleads : fs'.routeOf (harnessPaths workdir language).driver = .ok δ := by
    refine FileSystem.routeOf_kept hω.home ?_ hδ.leads (by simp [hfile])
    intro x hx
    exact hω.get?_eq hx (.inr rfl)
  have hωothers := hω.others
  have hωabove := hω.above
  rw [hδ.home] at hωothers hωabove
  refine ⟨FileSystem.lookup_eq_ok_iff.2 ⟨δ, hleads, hfile⟩,
    FileSystem.lookup_eq_ok_iff.2 ⟨ω, hω.leads, hω.get?_file⟩, ?_, ?_, ?_⟩
  · intro r
    rw [hω.isLink_eq, hδ.isLink_eq, hω.access_eq, hδ.access_eq]
    exact ⟨rfl, rfl⟩
  · intro r hr hr'
    rw [hδroute] at hr
    rw [hωroute] at hr'
    rcases hδ.others r hr, hωothers r hr' with
      ⟨heq | ⟨hpass, hnone, hdir⟩, heq' | ⟨hpass', hnone', hdir'⟩⟩
    · exact .inl (heq'.trans heq)
    · exact .inr ⟨.inr hpass', heq.symm.trans hnone', hdir'⟩
    · exact .inr ⟨.inl hpass, hnone, heq'.trans hdir⟩
    · exact .inr ⟨.inl hpass, hnone, hdir'⟩
  · rintro r (hpass | hpass)
    · exact hω.get?_eq (hδ.above r hpass) (.inr rfl)
    · exact hωabove r hpass

/-- Whether an error is about a template: it could not be read, or it has no placeholder. -/
def HarnessError.IsAboutTemplate : HarnessError → Prop
  | .unreadTemplate _ _ => True
  | .missingPlaceholder _ _ => True
  | _ => False

/-- **What writing a harness changes.** If a template cannot be read or has no placeholder
line, everything stays as it was. If the harness is written, the driver file holds the driver's
template as it was before, the oracle file holds that of the oracle with its placeholder
replaced, and nothing else has changed but for the directories above the two files, all of
which are there now. -/
theorem synthesize_changes (fs : FileSystem) (directory : Option Path) (language : Language)
    (workdir : Path) (values : List (Option String)) :
    (∀ e fs', synthesize directory language workdir values fs = (.error e, fs') →
      e.IsAboutTemplate → fs' = fs) ∧
    ∀ paths fs', synthesize directory language workdir values fs = (.ok paths, fs') →
      paths = harnessPaths workdir language ∧
      ∃ driver original oracle, template fs directory (driverFile language) = .ok driver ∧
        template fs directory (oracleFile language) = .ok original ∧
        substitute (oracleFile language).path original (placeholder language)
          (listLine language values) = .ok oracle ∧
        HarnessWritten ⟨driver, oracle⟩ paths fs fs' := by
  constructor
  · intro e fs' h habout
    unfold synthesize at h
    rcases exceptT_bind_eq_error h with htexts | ⟨texts, fs₁, -, h⟩
    · exact (Prod.mk.inj htexts).2.symm
    · -- what fails behind the templates is a write
      have hwrite : ∃ path cause, e = .unwritten path cause := by
        rcases exceptT_bind_eq_error h with hdriver | ⟨_, fs₂, -, h⟩
        · obtain ⟨cause, -, rfl⟩ := exceptT_adapt_eq_error hdriver
          exact ⟨_, cause, rfl⟩
        · rcases exceptT_bind_eq_error h with horacle | ⟨_, fs₃, -, h⟩
          · obtain ⟨cause, -, rfl⟩ := exceptT_adapt_eq_error horacle
            exact ⟨_, cause, rfl⟩
          · cases h
      obtain ⟨path, cause, rfl⟩ := hwrite
      exact habout.elim
  · intro paths fs' h
    unfold synthesize at h
    obtain ⟨texts, fs₁, htexts, h⟩ := exceptT_bind_eq_ok_iff.1 h
    obtain ⟨⟨⟩, mid, hdriver, h⟩ := exceptT_bind_eq_ok_iff.1 h
    obtain ⟨⟨⟩, last, horacle, h⟩ := exceptT_bind_eq_ok_iff.1 h
    cases h
    obtain ⟨htexts, rfl⟩ := inspect_eq_ok_iff.1 htexts
    obtain ⟨driver, hdriverText, htexts⟩ := bind_eq_ok_iff.1 htexts
    obtain ⟨original, horiginal, htexts⟩ := bind_eq_ok_iff.1 htexts
    obtain ⟨oracle, hsubstitute, htexts⟩ := bind_eq_ok_iff.1 htexts
    cases htexts
    exact ⟨rfl, driver, original, oracle, hdriverText, horiginal, hsubstitute,
      harnessWritten_of_writes hdriver horacle⟩

/-- Templates of another directory are written to a working directory that was not there. -/
theorem synthesize_changes_shortTemplates :
    ∃ fs', synthesize (some ⟨"t"⟩) .kotlin ⟨"work"⟩ [some "$\\"] Witness.shortTemplates =
        (.ok (harnessPaths ⟨"work"⟩ .kotlin), fs') ∧
      ∃ driver original oracle,
        template Witness.shortTemplates (some ⟨"t"⟩) (driverFile .kotlin) = .ok driver ∧
        template Witness.shortTemplates (some ⟨"t"⟩) (oracleFile .kotlin) = .ok original ∧
        substitute (oracleFile .kotlin).path original (placeholder .kotlin)
          (listLine .kotlin [some "$\\"]) = .ok oracle ∧
        HarnessWritten ⟨driver, oracle⟩ (harnessPaths ⟨"work"⟩ .kotlin)
          Witness.shortTemplates fs' := by
  have hpaths := Witness.synthesize_shortTemplates
  rcases hrun : synthesize (some ⟨"t"⟩) .kotlin ⟨"work"⟩ [some "$\\"]
    Witness.shortTemplates with ⟨result, fs'⟩
  rw [hrun] at hpaths
  subst hpaths
  exact ⟨fs', rfl, ((synthesize_changes _ _ _ _ _).2 _ _ hrun).2⟩

end WitnessReplay.Harness
