import WitnessReplay.Files.FileSystem

/-!
# Entries copied over one another

The copy of an entry replaces what is at its place: a file takes its mode along, and a link
that is there stays a link. A directory that is there stays what it is.

What the copies of several entries to one place come to is a fold. What can be seen of it (a
file, a directory, a link) is found without the fold. The same entries can be copied to the
place once more, unless a file has become one that cannot be written.
-/

namespace WitnessReplay.Files

variable {old new : Option Status} {news : List (Option Status)} {s : Status}

/-- What an entry becomes when it is copied to a place where something may be. -/
def Status.over (new : Status) (old : Option Status) : Status :=
  match new with
  | .file _ access content => .file ((old.map Status.linked).getD false) access content
  | _ => old.getD (.directory false)

/-- What is at a place after the copy of what is elsewhere, if there is anything. -/
def layOver (old new : Option Status) : Option Status :=
  match new with
  | none => old
  | some s => some (s.over old)

/-- Whether an entry can be copied to a place: a file that can be read to where a file can
be written, and a directory that is no link to where there is a directory or nothing. -/
def Status.FitsOver (new : Status) (old : Option Status) : Prop :=
  match new with
  | .file _ access _ => access.readable = true ∧ old.bind Status.refusal? = none
  | .directory linked => linked = false ∧ ∀ o, old = some o → o.node? = some .directory
  | .broken _ => False

def Stacks : Option Status → List (Option Status) → Prop
  | _, [] => True
  | old, new :: rest => (∀ s, new = some s → s.FitsOver old) ∧ Stacks (layOver old new) rest

def Status.file? : Status → Option (Access × ByteArray)
  | .file _ access content => some (access, content)
  | _ => none

def lastFile? : List (Option Status) → Option (Access × ByteArray)
  | [] => none
  | new :: rest => (lastFile? rest).or (new.bind Status.file?)

theorem Status.eq_directory_of_node? (h : s.node? = some .directory) :
    ∃ linked, s = .directory linked := by
  cases s with
  | directory linked => exact ⟨linked, rfl⟩
  | file linked access content => cases h
  | broken fillable => cases h

theorem Status.eq_file_of_file? {access : Access} {content : ByteArray}
    (h : s.file? = some (access, content)) : ∃ linked, s = .file linked access content := by
  cases s with
  | file linked access' content' =>
    cases h
    exact ⟨linked, rfl⟩
  | directory linked => cases h
  | broken fillable => cases h

theorem linked_layOver (old new : Option Status) :
    ((layOver old new).map Status.linked).getD false = (old.map Status.linked).getD false := by
  cases new with
  | none => rfl
  | some s =>
    cases s with
    | file linked access content => rfl
    | directory linked => cases old <;> rfl
    | broken fillable => cases old <;> rfl

theorem linked_foldl (old : Option Status) (news : List (Option Status)) :
    ((news.foldl layOver old).map Status.linked).getD false =
      (old.map Status.linked).getD false := by
  induction news generalizing old with
  | nil => rfl
  | cons new rest ih => rw [List.foldl_cons, ih, linked_layOver]

theorem file?_layOver (h : ∀ s, new = some s → s.FitsOver old) :
    (layOver old new).bind Status.file? =
      (new.bind Status.file?).or (old.bind Status.file?) := by
  cases new with
  | none => rfl
  | some s =>
    have hfits := h s rfl
    cases s with
    | file linked access content => rfl
    | broken fillable => exact hfits.elim
    | directory linked =>
      -- what was there is no file either
      cases old with
      | none => rfl
      | some o =>
        obtain ⟨linked', rfl⟩ := Status.eq_directory_of_node? (hfits.2 o rfl)
        rfl

theorem Stacks.file?_foldl (h : Stacks old news) :
    (news.foldl layOver old).bind Status.file? =
      (lastFile? news).or (old.bind Status.file?) := by
  induction news generalizing old with
  | nil => rfl
  | cons new rest ih =>
    rw [List.foldl_cons, ih h.2, file?_layOver h.1, lastFile?, Option.or_assoc]

theorem exists_mem_of_lastFile? {file : Access × ByteArray} (h : lastFile? news = some file) :
    ∃ s, some s ∈ news ∧ s.file? = some file := by
  induction news with
  | nil => cases h
  | cons new rest ih =>
    rw [lastFile?, Option.or_eq_some_iff] at h
    rcases h with h | ⟨-, h⟩
    · obtain ⟨s, hs, hfile⟩ := ih h
      exact ⟨s, List.mem_cons_of_mem new hs, hfile⟩
    · obtain ⟨s, rfl, hfile⟩ := Option.bind_eq_some_iff.1 h
      exact ⟨s, List.mem_cons_self, hfile⟩

theorem Stacks.exists_fitsOver (h : Stacks old news) (hmem : some s ∈ news) :
    ∃ below, s.FitsOver below := by
  induction news generalizing old with
  | nil => cases hmem
  | cons new rest ih =>
    rcases List.mem_cons.1 hmem with rfl | hmem
    · exact ⟨old, h.1 s rfl⟩
    · exact ih h.2 hmem

theorem Stacks.readable (h : Stacks old news) {file : Access × ByteArray}
    (hfile : lastFile? news = some file) : file.1.readable = true := by
  obtain ⟨s, hs, hsame⟩ := exists_mem_of_lastFile? hfile
  obtain ⟨linked, rfl⟩ := Status.eq_file_of_file? hsame
  obtain ⟨below, hfits⟩ := h.exists_fitsOver hs
  exact hfits.1

theorem Stacks.unlinked (h : Stacks old news) {linked : Bool}
    (hmem : some (.directory linked) ∈ news) : linked = false := by
  obtain ⟨below, hfits⟩ := h.exists_fitsOver hmem
  exact hfits.1

theorem foldl_layOver_of_none (h : ∀ new ∈ news, new = none) : news.foldl layOver old = old := by
  induction news with
  | nil => rfl
  | cons new rest ih =>
    obtain ⟨rfl, hrest⟩ := List.forall_mem_cons.1 h
    exact ih hrest

/-- Over a directory only directories can be copied, and it stays what it is. -/
theorem Stacks.over_directory {linked : Bool} (h : Stacks (some (.directory linked)) news) :
    news.foldl layOver (some (.directory linked)) = some (.directory linked) ∧
      lastFile? news = none := by
  induction news with
  | nil => exact ⟨rfl, rfl⟩
  | cons new rest ih =>
    obtain ⟨hfits, hrest⟩ := h
    cases new with
    | none =>
      obtain ⟨hfold, hlast⟩ := ih hrest
      exact ⟨hfold, by rw [lastFile?, hlast]; rfl⟩
    | some s =>
      have hs := hfits s rfl
      cases s with
      | file linked' access content => cases hs.2
      | broken fillable => exact hs.elim
      | directory linked' =>
        obtain ⟨hfold, hlast⟩ := ih hrest
        exact ⟨hfold, by rw [lastFile?, hlast]; rfl⟩

theorem layOver_directory {linked : Bool} (h : (Status.directory linked).FitsOver old) :
    ∃ linked', layOver old (some (.directory linked)) = some (.directory linked') := by
  cases old with
  | none => exact ⟨false, rfl⟩
  | some o =>
    obtain ⟨linked', rfl⟩ := Status.eq_directory_of_node? (h.2 o rfl)
    exact ⟨linked', rfl⟩

theorem Status.FitsOver.eq_file (h : s.FitsOver old) (hnot : s.kind ≠ .directory) :
    ∃ linked access content, s = .file linked access content := by
  cases s with
  | file linked access content => exact ⟨linked, access, content, rfl⟩
  | directory linked =>
    obtain rfl : linked = false := h.1
    exact absurd rfl hnot
  | broken fillable => exact h.elim

theorem Stacks.directory (h : Stacks old news) {linked : Bool}
    (hmem : some (.directory linked) ∈ news) :
    ∃ linked', news.foldl layOver old = some (.directory linked') := by
  induction news generalizing old with
  | nil => cases hmem
  | cons new rest ih =>
    obtain ⟨hfits, hrest⟩ := h
    rcases List.mem_cons.1 hmem with rfl | hmem
    · obtain ⟨linked', hlaid⟩ := layOver_directory (hfits _ rfl)
      rw [hlaid] at hrest
      exact ⟨linked', by rw [List.foldl_cons, hlaid, hrest.over_directory.1]⟩
    · exact ih hrest hmem

theorem Stacks.foldl_again (h : Stacks old news) :
    news.foldl layOver (news.foldl layOver old) = news.foldl layOver old := by
  induction news generalizing old with
  | nil => rfl
  | cons new rest ih =>
    obtain ⟨hfits, hrest⟩ := h
    cases new with
    | none => exact ih hrest
    | some s =>
      cases s with
      | broken fillable => exact (hfits _ rfl).elim
      | file linked access content =>
        -- the file replaces whatever is there, and the links are the same
        simp only [List.foldl_cons, layOver, Status.over]
        rw [linked_foldl]
        rfl
      | directory linked =>
        obtain ⟨linked', hlaid⟩ := layOver_directory (hfits _ rfl)
        rw [hlaid] at hrest
        have hfold := hrest.over_directory.1
        have hlast : (some (Status.directory linked) :: rest).foldl layOver old =
            some (.directory linked') := by
          rw [List.foldl_cons, hlaid, hfold]
        rw [hlast]
        exact hfold

/-- The same entries can be copied again, unless a file has become one that cannot be
written. -/
theorem Stacks.again_iff (h : Stacks old news) :
    Stacks (news.foldl layOver old) news ↔
      ∀ file, lastFile? news = some file → file.1.writable = true := by
  induction news generalizing old with
  | nil => exact ⟨nofun, fun _ => trivial⟩
  | cons new rest ih =>
    obtain ⟨hfits, hrest⟩ := h
    cases new with
    | none =>
      rw [List.foldl_cons, lastFile?, Option.bind_none, Option.or_none]
      refine Iff.trans ?_ (ih hrest)
      exact ⟨And.right, fun h => ⟨nofun, h⟩⟩
    | some s =>
      cases s with
      | broken fillable => exact (hfits _ rfl).elim
      | directory linked =>
        -- there are only directories
        obtain ⟨linked', hlaid⟩ := layOver_directory (hfits _ rfl)
        rw [hlaid] at hrest
        obtain ⟨hfold, hlast⟩ := hrest.over_directory
        rw [List.foldl_cons, hlaid, hfold, lastFile?, hlast]
        refine ⟨fun _ => nofun, fun _ => ⟨?_, hrest⟩⟩
        rintro _ ⟨⟩
        exact ⟨(hfits _ rfl).1, fun o ho => by cases ho; rfl⟩
      | file linked access content =>
        -- the first file decides, for after its copy everything is as it was
        let after := rest.foldl layOver (layOver old (some (.file linked access content)))
        have hsame : layOver after (some (.file linked access content)) =
            layOver old (some (.file linked access content)) := by
          rw [layOver, Status.over, linked_foldl]
          rfl
        have hlast : after.bind Status.file? =
            lastFile? (some (.file linked access content) :: rest) := hrest.file?_foldl
        have hthere : lastFile? (some (.file linked access content) :: rest) ≠ none := by
          rw [lastFile?, Option.bind_some, Status.file?]
          simp
        obtain ⟨⟨access', content'⟩, hfile⟩ := Option.ne_none_iff_exists'.1 hthere
        obtain ⟨s, hafter, hs⟩ := Option.bind_eq_some_iff.1 (hlast.trans hfile)
        obtain ⟨linked', rfl⟩ := Status.eq_file_of_file? hs
        show ((∀ s : Status, some (.file linked access content) = some s → s.FitsOver after) ∧
          Stacks (layOver after (some (.file linked access content))) rest) ↔ _
        rw [hsame, hfile, hafter]
        constructor
        · rintro ⟨hover, -⟩ _ ⟨⟩
          have hfree := (hover _ rfl).2
          simpa [Status.refusal?] using hfree
        · intro hwritable
          refine ⟨?_, hrest⟩
          rintro _ ⟨⟩
          have hallowed : access'.writable = true := hwritable _ rfl
          exact ⟨(hfits _ rfl).1, by simp [Status.refusal?, hallowed]⟩

end WitnessReplay.Files
