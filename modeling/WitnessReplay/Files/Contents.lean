import WitnessReplay.Files.FileSystem

/-!
# The contents of files

Whatever is read from a path is the content of one of the files, of which there are
finitely many.
-/

namespace WitnessReplay.Files

def Directory.contents : Directory → List ByteArray
  | empty => []
  | file _ _ _ content rest => content :: rest.contents
  | directory _ _ inside rest => inside.contents ++ rest.contents
  | broken _ _ rest => rest.contents

def Entry.contents : Entry → List ByteArray
  | file _ _ content => [content]
  | directory _ inside => inside.contents
  | broken _ => []

theorem Directory.contents_cons (name : String) (e : Entry) (d : Directory) :
    (cons name e d).contents = e.contents ++ d.contents := by
  cases e <;> rfl

theorem Directory.contents_subset_of_find? {d : Directory} {name : String} {e : Entry}
    (h : d.find? name = some e) : e.contents ⊆ d.contents := by
  induction d with
  | empty => cases h
  | cons n first rest _ ih =>
    rw [contents_cons]
    rw [find?_cons] at h
    split at h
    · cases h
      exact List.subset_append_left _ _
    · exact List.Subset.trans (ih h) (List.subset_append_right _ _)

theorem Entry.contents_inside_subset (e : Entry) : e.inside.contents ⊆ e.contents := by
  cases e with
  | directory linked inside => exact List.Subset.refl _
  | file linked access content => exact List.nil_subset _
  | broken fillable => exact List.nil_subset _

/-- Whether everything at an entry and at those on the way to it has its content in a
list. -/
def Standing.Within (s : Standing) (contents : List ByteArray) : Prop :=
  s.entry.contents ⊆ contents ∧ ∀ passed ∈ s.trail, passed.2.contents ⊆ contents

theorem Standing.Within.step {s s' : Standing} {contents : List ByteArray}
    (hs : s.Within contents) {part : String} (h : s.step part = .ok s') :
    s'.Within contents := by
  obtain ⟨hentry, htrail⟩ := hs
  unfold Standing.step at h
  split at h
  · split at h
    · split at h
      · cases h
      · split at h
        · cases h
        · rename_i entry htarget
          cases h
          have hfind := Option.eq_some_of_filter_eq_some htarget
          have hinside := Directory.contents_subset_of_find? hfind
          refine ⟨?_, List.forall_mem_cons.2 ⟨hentry, htrail⟩⟩
          exact List.Subset.trans hinside
            (List.Subset.trans s.entry.contents_inside_subset hentry)
    · split at h
      · cases h
        exact ⟨hentry, htrail⟩
      · rename_i above trail heq
        cases h
        rw [heq] at htrail
        exact List.forall_mem_cons.1 htrail
    · cases h
      exact ⟨hentry, htrail⟩
  · cases h

theorem Standing.Within.follow {s s' : Standing} {contents : List ByteArray}
    (hs : s.Within contents) {parts : List String} (h : s.follow parts = .ok s') :
    s'.Within contents := by
  induction parts generalizing s with
  | nil =>
    cases h
    exact hs
  | cons part parts ih =>
    rw [Standing.follow, List.foldlM_cons] at h
    cases hnext : s.step part with
    | error cause =>
      rw [hnext] at h
      cases h
    | ok next =>
      rw [hnext] at h
      exact ih (hs.step hnext) h

theorem FileSystem.mem_contents_of_read {fs : FileSystem} {p : Path} {content : ByteArray}
    (h : fs.read p = .ok content) : content ∈ fs.root.contents := by
  unfold FileSystem.read FileSystem.openFile FileSystem.locate FileSystem.locateFrom at h
  cases hsteps : usableSteps fs.home p with
  | error cause =>
    rw [hsteps] at h
    cases h
  | ok steps =>
    cases hs : fs.start.follow steps with
    | error cause => simp [hsteps, hs, bind, Except.bind, Except.map] at h
    | ok s =>
      have hstart : fs.start.Within fs.root.contents := by
        refine ⟨List.Subset.refl _, ?_⟩
        intro passed hpassed
        cases hpassed
      obtain ⟨hentry, -⟩ := hstart.follow hs
      simp only [hsteps, hs, bind, Except.bind] at h
      cases he : s.entry with
      | file linked access found =>
        rw [he] at h hentry
        by_cases hreadable : access.readable
        · simp only [hreadable, if_true] at h
          cases h
          exact hentry List.mem_cons_self
        · simp only [hreadable] at h
          cases h
      | directory linked inside =>
        rw [he] at h
        cases h
      | broken fillable =>
        rw [he] at h
        cases h

end WitnessReplay.Files
