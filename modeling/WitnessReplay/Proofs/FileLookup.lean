import WitnessReplay.Proofs.PathParts

/-!
# Where paths lead

A path is followed with the entries on the way at hand. `routeFrom` follows it with nothing
but what is found at routes, and leads to the same place. What a change does to a lookup can
therefore be read off what it does to `Directory.get?`.
-/

namespace WitnessReplay.Files

open Directory

variable {root d : Directory} {e : Entry} {r r' : Route} {name : String} {parts : List String}

theorem at?_append (d : Directory) (r r' : Route) :
    d.at? (r ++ r') = (d.at? r).bind (·.at? r') :=
  Entry.at?_append _ r r'

theorem at?_child (h : d.at? r = some e) (name : String) :
    d.at? (r ++ [name]) = e.inside.find? name := by
  rw [at?_append, h]
  show (e.inside.find? name).bind (·.at? []) = _
  cases e.inside.find? name <;> rfl

theorem status?_child (h : d.at? r = some e) (name : String) :
    d.status? (r ++ [name]) = (e.inside.find? name).map Entry.status := by
  rw [status?, at?_child h]

theorem get?_of_at? (h : d.at? r = some e) : d.get? r = e.node? := by
  rw [Directory.get?, status?, h]
  rfl

theorem get?_child (h : d.at? r = some e) (name : String) :
    d.get? (r ++ [name]) = (e.inside.find? name).bind Entry.node? := by
  rw [Directory.get?, status?_child h]
  cases e.inside.find? name <;> rfl

theorem Entry.allNames_of_at? {q : String → Prop} {first : Entry} (hfirst : first.AllNames q)
    (h : first.at? r = some e) : ∀ name ∈ r, q name := by
  induction r generalizing first with
  | nil =>
    intro name hname
    cases hname
  | cons m r ih =>
    rw [Entry.at?_cons] at h
    obtain ⟨child, hchild, h⟩ := Option.bind_eq_some_iff.1 h
    have hinside : first.inside.AllNames q := by
      cases first with
      | directory linked inside => exact hfirst
      | file linked access content => trivial
      | broken fillable => trivial
    obtain ⟨hm, hbelow⟩ := allNames_of_find? hinside hchild
    exact List.forall_mem_cons.2 ⟨hm, ih hbelow h⟩

/-- A trail leads from a directory to an entry: each entry on it holds the one in front of it
under the name taken. -/
def Leads (root : Directory) : List (String × Entry) → Entry → Prop
  | [], e => e = .directory false root
  | (name, above) :: trail, e => above.inside.find? name = some e ∧ Leads root trail above

theorem Leads.at? {trail : List (String × Entry)} (h : Leads root trail e) :
    root.at? (trail.map (·.1)).reverse = some e := by
  induction trail generalizing e with
  | nil =>
    cases h
    rfl
  | cons step trail ih =>
    obtain ⟨hfind, habove⟩ := h
    rw [List.map_cons, List.reverse_cons, at?_child (ih habove)]
    exact hfind

/-- Where a part of a path leads from a route, as far as what is found on the way tells. -/
def routeStep (d : Directory) (r : Route) (part : String) : Except FileError Route :=
  if d.get? r = some .directory then
    match Path.component? part with
    | some (.name name) =>
      if isTooLong name then .error .nameTooLong
      else if d.get? (r ++ [name]) = none then .error .notFound
      else .ok (r ++ [name])
    | some _ => .ok r.dropLast
    | none => .ok r
  else .error .notADirectory

def routeFrom (d : Directory) (r : Route) (parts : List String) : Except FileError Route :=
  parts.foldlM (routeStep d) r

theorem routeFrom_cons (d : Directory) (r : Route) (part : String) (parts : List String) :
    routeFrom d r (part :: parts) = routeStep d r part >>= (routeFrom d · parts) := rfl

theorem routeFrom_append (d : Directory) (r : Route) (parts parts' : List String) :
    routeFrom d r (parts ++ parts') = routeFrom d r parts >>= (routeFrom d · parts') :=
  List.foldlM_append

theorem routeStep_name {part : String} (hdir : d.get? r = some .directory)
    (hpart : Path.component? part = some (.name name)) (hshort : isTooLong name = false)
    (hthere : d.get? (r ++ [name]) ≠ none) : routeStep d r part = .ok (r ++ [name]) := by
  rw [routeStep, if_pos hdir, hpart]
  simp only [hshort, hthere, if_false, Bool.false_eq_true]

theorem routeFrom_name {part : String} (hdir : d.get? r = some .directory)
    (hpart : Path.component? part = some (.name name)) (hshort : isTooLong name = false)
    (hthere : d.get? (r ++ [name]) ≠ none) :
    routeFrom d r (part :: parts) = routeFrom d (r ++ [name]) parts := by
  rw [routeFrom_cons, routeStep_name hdir hpart hshort hthere]
  rfl

/-- Where one part of a path leads from a directory: to an entry, to the directory above, or
nowhere else. -/
inductive Steps (d : Directory) (r : Route) (part : String) : Route → Prop where
  | down {name : String} (hpart : Path.component? part = some (.name name))
      (hshort : isTooLong name = false) (hthere : d.get? (r ++ [name]) ≠ none) :
      Steps d r part (r ++ [name])
  | up (hpart : Path.component? part = some .parent) : Steps d r part r.dropLast
  | stay (hpart : Path.component? part = none) : Steps d r part r

theorem routeStep_eq_ok_iff {part : String} :
    routeStep d r part = .ok r' ↔ d.get? r = some .directory ∧ Steps d r part r' := by
  constructor
  · intro h
    rw [routeStep] at h
    split at h
    · rename_i hdir
      refine ⟨hdir, ?_⟩
      split at h
      · rename_i name hpart
        split at h
        · cases h
        · rename_i hshort
          split at h
          · cases h
          · rename_i hthere
            cases h
            exact .down hpart (eq_false_of_ne_true hshort) hthere
      · rename_i component hnot hpart
        cases h
        rw [Path.eq_parent_of_component? hpart hnot] at hpart
        exact .up hpart
      · rename_i hpart
        cases h
        exact .stay hpart
    · cases h
  · rintro ⟨hdir, hstep⟩
    cases hstep with
    | down hpart hshort hthere => exact routeStep_name hdir hpart hshort hthere
    | up hpart => rw [routeStep, if_pos hdir, hpart]
    | stay hpart => rw [routeStep, if_pos hdir, hpart]

theorem routeFrom_cons_eq_ok_iff {part : String} : routeFrom d r (part :: parts) = .ok r' ↔
    d.get? r = some .directory ∧
      ∃ next, Steps d r part next ∧ routeFrom d next parts = .ok r' := by
  rw [routeFrom_cons, bind_eq_ok_iff]
  simp only [routeStep_eq_ok_iff]
  constructor
  · rintro ⟨next, ⟨hdir, hstep⟩, h⟩
    exact ⟨hdir, next, hstep, h⟩
  · rintro ⟨hdir, next, hstep, h⟩
    exact ⟨next, ⟨hdir, hstep⟩, h⟩

theorem routeFrom_slash : routeFrom d r ("" :: parts) = .ok r' ↔
    d.get? r = some .directory ∧ routeFrom d r parts = .ok r' := by
  have hslash : Path.component? "" = none := rfl
  rw [routeFrom_cons, routeStep, hslash]
  split
  · rename_i hdir
    exact ⟨fun h => ⟨hdir, h⟩, And.right⟩
  · rename_i hdir
    exact ⟨nofun, fun h => absurd h.1 hdir⟩

theorem target?_eq_none_iff (h : d.at? r = some e) (name : String) :
    e.inside.target? name = none ↔ d.get? (r ++ [name]) = none := by
  rw [get?_child h, Directory.target?]
  cases e.inside.find? name with
  | none => simp
  | some child => cases hnode : child.node? <;> simp [Option.filter, hnode]

/-- Going on with the entries on the way at hand leads to the same route, or fails in the same
way. -/
theorem step_eq (s : Standing) (hs : Leads root s.trail s.entry) (part : String) :
    (s.step part).map (·.route) = routeStep root s.route part ∧
      ∀ s', s.step part = .ok s' → Leads root s'.trail s'.entry := by
  obtain ⟨trail, entry⟩ := s
  have hat : root.at? (Standing.route ⟨trail, entry⟩) = some entry := hs.at?
  rw [Standing.step, routeStep, get?_of_at? hat]
  split
  · cases hpart : Path.component? part with
    | none =>
      refine ⟨rfl, ?_⟩
      rintro s' ⟨⟩
      exact hs
    | some component =>
      cases component with
      | name name =>
        have hthere := target?_eq_none_iff hat name
        simp only []
        cases hlong : isTooLong name with
        | true => exact ⟨rfl, fun s' h => by cases h⟩
        | false =>
          cases htarget : entry.inside.target? name with
          | none =>
            simp only [hthere.1 htarget, if_true]
            exact ⟨rfl, fun s' h => by cases h⟩
          | some child =>
            have hnot : root.get? (Standing.route ⟨trail, entry⟩ ++ [name]) ≠ none := by
              intro hnone
              rw [hthere.2 hnone] at htarget
              cases htarget
            simp only [hnot, if_false]
            refine ⟨by simp [Standing.route, Except.map], ?_⟩
            rintro s' ⟨⟩
            exact ⟨Option.eq_some_of_filter_eq_some htarget, hs⟩
      | root | current | parent =>
        -- only a component for the directory above comes here
        cases trail with
        | nil =>
          refine ⟨rfl, ?_⟩
          rintro s' ⟨⟩
          exact hs
        | cons step trail =>
          refine ⟨?_, ?_⟩
          · simp [Standing.route, Except.map]
          · rintro s' ⟨⟩
            exact hs.2
  · exact ⟨rfl, fun s' h => by cases h⟩

theorem follow_eq (s : Standing) (hs : Leads root s.trail s.entry) (parts : List String) :
    (s.follow parts).map (·.route) = routeFrom root s.route parts ∧
      ∀ s', s.follow parts = .ok s' → Leads root s'.trail s'.entry := by
  induction parts generalizing s with
  | nil =>
    refine ⟨rfl, ?_⟩
    rintro s' ⟨⟩
    exact hs
  | cons part parts ih =>
    obtain ⟨hroute, hleads⟩ := step_eq s hs part
    rw [Standing.follow, List.foldlM_cons, routeFrom_cons, ← hroute]
    cases hnext : s.step part with
    | error cause => exact ⟨rfl, fun s' h => by cases h⟩
    | ok next => exact ih next (hleads next hnext)

theorem get?_eq_directory_of_status? (h : d.status? (r ++ name :: r') ≠ none) :
    d.get? r = some .directory := by
  rw [status?, at?_append] at h
  cases hat : d.at? r with
  | none => simp [hat] at h
  | some e =>
    rw [get?_of_at? hat]
    cases e with
    | directory linked inside => rfl
    | file linked access content => simp [hat, Entry.at?_cons, Entry.inside, find?] at h
    | broken fillable => simp [hat, Entry.at?_cons, Entry.inside, find?] at h

theorem get?_eq_directory_of_append (h : d.get? (r ++ name :: r') ≠ none) :
    d.get? r = some .directory := by
  have hthere : d.status? (r ++ name :: r') ≠ none := by
    intro hnone
    rw [Directory.get?, hnone] at h
    exact h rfl
  exact get?_eq_directory_of_status? hthere

theorem get?_dropLast (h : d.get? r = some .directory) :
    d.get? r.dropLast = some .directory := by
  rcases List.eq_nil_or_concat r with rfl | ⟨front, last, rfl⟩
  · exact h
  · rw [List.concat_eq_append] at h
    rw [List.concat_eq_append, List.dropLast_concat]
    have hthere : d.get? (front ++ [last]) ≠ none := by simp [h]
    exact get?_eq_directory_of_append hthere

theorem isDirectory_of_routeFrom (h : routeFrom d r parts = .ok r')
    (hr' : d.get? r' = some .directory) :
    d.get? r = some .directory := by
  cases parts with
  | nil =>
    cases h
    exact hr'
  | cons part parts =>
    exact (routeFrom_cons_eq_ok_iff.1 h).1

/-- A path still leads where it led when all directories are still there, and what it led to. -/
theorem routeFrom_kept {d' : Directory}
    (hmono : ∀ r, d.get? r = some .directory → d'.get? r = some .directory)
    (h : routeFrom d r parts = .ok r')
    (hr' : d'.get? r' ≠ none) : routeFrom d' r parts = .ok r' := by
  induction parts generalizing r with
  | nil => exact h
  | cons part parts ih =>
    obtain ⟨hdir, next, hstep, h⟩ := routeFrom_cons_eq_ok_iff.1 h
    refine routeFrom_cons_eq_ok_iff.2 ⟨hmono r hdir, next, ?_, ih h⟩
    cases hstep with
    | down hpart hshort hthere =>
      refine .down hpart hshort ?_
      cases parts with
      | nil =>
        cases h
        exact hr'
      | cons other parts =>
        -- the path goes on from the child, so that the child is a directory
        have hchild := hmono _ (routeFrom_cons_eq_ok_iff.1 h).1
        simp [hchild]
    | up hpart => exact .up hpart
    | stay hpart => exact .stay hpart

theorem routeFrom_mono {d' : Directory}
    (hmono : ∀ r, d.get? r = some .directory → d'.get? r = some .directory)
    (h : routeFrom d r parts = .ok r') (hr' : d.get? r' = some .directory) :
    routeFrom d' r parts = .ok r' :=
  routeFrom_kept hmono h (by simp [hmono r' hr'])

theorem routeFrom_components (h : routeFrom d r parts = .ok r') :
    routeFrom d r ((parts.filterMap Path.component?).map Component.text) = .ok r' := by
  induction parts generalizing r with
  | nil => exact h
  | cons part parts ih =>
    obtain ⟨hdir, next, hstep, h⟩ := routeFrom_cons_eq_ok_iff.1 h
    have hcomponent {component : Component} (hpart : Path.component? part = some component) :
        routeFrom d r (((part :: parts).filterMap Path.component?).map Component.text) =
          .ok r' := by
      rw [List.filterMap_cons_some hpart, List.map_cons, Path.text_of_component? hpart]
      exact routeFrom_cons_eq_ok_iff.2 ⟨hdir, next, hstep, ih h⟩
    cases hstep with
    | down hpart hshort hthere => exact hcomponent hpart
    | up hpart => exact hcomponent hpart
    | stay hpart =>
      rw [List.filterMap_cons_none hpart]
      exact ih h

theorem endsInName_of_routeFrom {content : ByteArray} (h : routeFrom d r parts = .ok r')
    (hne : parts ≠ []) (hfile : d.get? r' = some (.file content)) :
    ∃ name, parts.getLast? = some name ∧ Path.component? name = some (.name name) := by
  obtain ⟨last, hlast⟩ := Option.isSome_iff_exists.1 (List.getLast?_isSome.2 hne)
  refine ⟨last, hlast, ?_⟩
  obtain ⟨front, rfl⟩ := List.getLast?_eq_some_iff.1 hlast
  rw [routeFrom_append] at h
  obtain ⟨above, -, h⟩ := bind_eq_ok_iff.1 h
  obtain ⟨hdir, next, hstep, h⟩ := routeFrom_cons_eq_ok_iff.1 h
  cases h
  -- what is no name leads to the directory itself or to the one above it
  cases hstep with
  | down hpart hshort hthere =>
    obtain rfl := Path.text_of_component? hpart
    exact hpart
  | up hpart =>
    rw [get?_dropLast hdir] at hfile
    cases hfile
  | stay hpart =>
    rw [hdir] at hfile
    cases hfile

namespace FileSystem

variable {fs fs' : FileSystem} {p : Path} {n : Node} {content : ByteArray}

def routeOf (fs : FileSystem) (p : Path) : Except FileError Route :=
  usableSteps fs.home p >>= routeFrom fs.root []

theorem map_route_follow (fs : FileSystem) (parts : List String) :
    (fs.start.follow parts).map (·.route) = routeFrom fs.root [] parts :=
  (follow_eq fs.start rfl parts).1

theorem at?_of_follow {s : Standing} (h : fs.start.follow parts = .ok s) :
    fs.root.at? s.route = some s.entry :=
  ((follow_eq fs.start rfl parts).2 s h).at?

theorem locate_eq_ok_iff {s : Standing} : fs.locate p = .ok s ↔
    ∃ steps, usableSteps fs.home p = .ok steps ∧ fs.start.follow steps = .ok s :=
  bind_eq_ok_iff

theorem locate_eq_ok {s : Standing} (h : fs.locate p = .ok s) :
    fs.routeOf p = .ok s.route ∧ fs.root.at? s.route = some s.entry := by
  obtain ⟨steps, hsteps, h⟩ := locate_eq_ok_iff.1 h
  refine ⟨bind_eq_ok_iff.2 ⟨steps, hsteps, ?_⟩, at?_of_follow h⟩
  rw [← map_route_follow, h]
  rfl

theorem exists_locate (h : fs.routeOf p = .ok r) : ∃ s, fs.locate p = .ok s ∧ s.route = r := by
  obtain ⟨steps, hsteps, h⟩ := bind_eq_ok_iff.1 h
  rw [← map_route_follow] at h
  obtain ⟨s, hs, hroute⟩ := map_eq_ok_iff.1 h
  exact ⟨s, locate_eq_ok_iff.2 ⟨steps, hsteps, hs⟩, hroute⟩

theorem lookup_eq_ok_iff :
    fs.lookup p = .ok n ↔ ∃ r, fs.routeOf p = .ok r ∧ fs.get? r = some n := by
  rw [lookup, bind_eq_ok_iff]
  constructor
  · rintro ⟨s, hs, h⟩
    obtain ⟨hroute, hat⟩ := locate_eq_ok hs
    refine ⟨s.route, hroute, ?_⟩
    rw [FileSystem.get?, get?_of_at? hat]
    split at h
    · rename_i hnode
      cases h
      exact hnode
    · cases h
  · rintro ⟨r, hr, hn⟩
    obtain ⟨s, hs, rfl⟩ := exists_locate hr
    rw [FileSystem.get?, get?_of_at? (locate_eq_ok hs).2] at hn
    exact ⟨s, hs, by rw [hn]; rfl⟩

theorem isDirectory_iff :
    fs.isDirectory p = true ↔ ∃ r, fs.routeOf p = .ok r ∧ fs.get? r = some .directory := by
  rw [← lookup_eq_ok_iff, isDirectory]
  split <;> simp_all

theorem status?_of_at? (h : fs.root.at? r = some e) : fs.status? r = some e.status := by
  rw [FileSystem.status?, Directory.status?, h]
  rfl

/-- The files that are opened for reading are those at the ends of paths whose modes allow
it. -/
theorem openFile_eq_ok_iff {cause : FileError} {access : Access} :
    fs.openFile p cause = .ok (r, access, content) ↔
      fs.routeOf p = .ok r ∧ access.readable = true ∧
        ∃ linked, fs.status? r = some (.file linked access content) := by
  rw [openFile, bind_eq_ok_iff]
  constructor
  · rintro ⟨s, hs, h⟩
    obtain ⟨hroute, hat⟩ := locate_eq_ok hs
    have hstatus := status?_of_at? hat
    cases he : s.entry with
    | file linked access' content' =>
      rw [he] at h hstatus
      by_cases hreadable : access'.readable = true
      · simp only [hreadable, if_true] at h
        cases h
        exact ⟨hroute, hreadable, linked, hstatus⟩
      · simp only [hreadable] at h
        cases h
    | directory linked inside =>
      rw [he] at h
      cases h
    | broken fillable =>
      rw [he] at h
      cases h
  · rintro ⟨hr, hreadable, linked, hstatus⟩
    obtain ⟨s, hs, rfl⟩ := exists_locate hr
    refine ⟨s, hs, ?_⟩
    rw [status?_of_at? (locate_eq_ok hs).2] at hstatus
    cases he : s.entry with
    | file linked' access' content' =>
      rw [he] at hstatus
      cases hstatus
      simp only [hreadable, if_true]
      rfl
    | directory linked inside =>
      rw [he] at hstatus
      cases hstatus
    | broken fillable =>
      rw [he] at hstatus
      cases hstatus

theorem status?_of_file (h : fs.get? r = some (.file content)) :
    fs.status? r = some (.file (fs.isLink r) (fs.access r) content) := by
  rw [get?_eq_bind] at h
  obtain ⟨s, hs, hnode⟩ := Option.bind_eq_some_iff.1 h
  rw [isLink, access, hs]
  cases s with
  | file linked access content' =>
    cases hnode
    rfl
  | directory linked => cases hnode
  | broken fillable => cases hnode

theorem status?_eq_file_iff {linked : Bool} {access : Access} :
    fs.status? r = some (.file linked access content) ↔
      fs.get? r = some (.file content) ∧ fs.isLink r = linked ∧ fs.access r = access := by
  constructor
  · intro h
    rw [get?_eq_bind, isLink, FileSystem.access, h]
    exact ⟨rfl, rfl, rfl⟩
  · rintro ⟨hfile, rfl, rfl⟩
    exact status?_of_file hfile

theorem read_eq_ok_iff : fs.read p = .ok content ↔
    ∃ r, fs.routeOf p = .ok r ∧ fs.get? r = some (.file content) ∧
      (fs.access r).readable = true := by
  rw [read, map_eq_ok_iff]
  constructor
  · rintro ⟨⟨r, access, found⟩, h, rfl⟩
    obtain ⟨hroute, hreadable, linked, hstatus⟩ := openFile_eq_ok_iff.1 h
    obtain ⟨hfile, -, rfl⟩ := status?_eq_file_iff.1 hstatus
    exact ⟨r, hroute, hfile, hreadable⟩
  · rintro ⟨r, hroute, hfile, hreadable⟩
    exact ⟨(r, fs.access r, content),
      openFile_eq_ok_iff.2 ⟨hroute, hreadable, _, status?_of_file hfile⟩, rfl⟩

theorem fromUTF8?_eq_some_iff {text : String} : String.fromUTF8? content = some text ↔
    content = text.toUTF8 := by
  rw [String.fromUTF8?]
  split
  · rename_i hvalid
    constructor
    · intro h
      cases h
      rfl
    · rintro rfl
      rfl
  · rename_i hvalid
    constructor
    · intro h
      cases h
    · rintro rfl
      exact absurd text.isValidUTF8 hvalid

theorem readText_eq_ok_iff {text : String} :
    fs.readText p = .ok text ↔ ∃ content, fs.read p = .ok content ∧
    String.fromUTF8? content = some text := by
  rw [readText, bind_eq_ok_iff]
  constructor
  · rintro ⟨content, hread, h⟩
    refine ⟨content, hread, ?_⟩
    split at h
    · rename_i s hs
      cases h
      exact hs
    · cases h
  · rintro ⟨content, hread, htext⟩
    refine ⟨content, hread, ?_⟩
    rw [htext]
    rfl

theorem directoryAt_eq_ok {inside : Directory} (h : fs.directoryAt parts = .ok (r, inside)) :
    routeFrom fs.root [] parts = .ok r ∧
      ∃ linked, fs.root.at? r = some (.directory linked inside) := by
  unfold directoryAt at h
  obtain ⟨s, hs, h⟩ := bind_eq_ok_iff.1 h
  have hat := at?_of_follow hs
  split at h
  · rename_i linked inside' heq
    cases h
    refine ⟨?_, linked, heq ▸ hat⟩
    rw [← map_route_follow]
    exact map_eq_ok_iff.2 ⟨s, hs, rfl⟩
  · cases h

/-- Why no file can be written at a route in place of what is there. -/
def refusal? (fs : FileSystem) (r : Route) : Option FileError :=
  (fs.status? r).bind Status.refusal?

/-- A file is written at the end of a path: what is in front of it leads to a directory, and
what is there can be replaced. -/
theorem fileRoute_eq_ok (h : fs.fileRoute p = .ok r) :
    ∃ steps r' name last, usableSteps fs.home p = .ok steps ∧
      steps = steps.dropLast ++ [last] ∧ Path.component? last = some (.name name) ∧
      isTooLong name = false ∧ r = r' ++ [name] ∧
      routeFrom fs.root [] steps.dropLast = .ok r' ∧ fs.get? r' = some .directory ∧
      fs.refusal? r = none := by
  unfold fileRoute at h
  obtain ⟨steps, hsteps, h⟩ := bind_eq_ok_iff.1 h
  obtain ⟨⟨r', inside⟩, hdir, h⟩ := bind_eq_ok_iff.1 h
  obtain ⟨hroute, linked, hat⟩ := directoryAt_eq_ok hdir
  simp only [] at h
  split at h
  · rename_i name hname
    obtain ⟨last, hlast, hcomponent⟩ := Option.bind_eq_some_iff.1 hname
    have hsplit : steps = steps.dropLast ++ [last] := by
      obtain ⟨front, rfl⟩ := List.getLast?_eq_some_iff.1 hlast
      rw [List.dropLast_concat]
    split at h
    · cases h
    · rename_i hshort
      split at h
      · cases h
      · rename_i hfree
        cases h
        refine ⟨steps, r', name, last, hsteps, hsplit, hcomponent,
          eq_false_of_ne_true hshort, rfl, hroute, get?_of_at? hat, ?_⟩
        rw [refusal?, FileSystem.status?, status?_child hat]
        show ((inside.find? name).map Entry.status).bind Status.refusal? = none
        rw [Option.bind_map]
        exact hfree
  · cases h

theorem refusal?_eq_none_iff : fs.refusal? r = none ↔
    fs.get? r ≠ some .directory ∧ (fs.access r).writable = true ∧
      fs.status? r ≠ some (.broken false) := by
  rw [refusal?, get?_eq_bind, FileSystem.access]
  cases fs.status? r with
  | none => simp
  | some s => cases s <;> simp [Status.refusal?, Status.node?, Status.access]

theorem isName_of_at? (h : fs.root.at? r = some e) : ∀ name ∈ r, IsName name := by
  have hroot : (Entry.directory false fs.root).AllNames IsName := fs.named
  exact Entry.allNames_of_at? hroot h

theorem isName_of_status? (h : fs.status? r ≠ none) : ∀ name ∈ r, IsName name := by
  obtain ⟨s, hs⟩ := Option.ne_none_iff_exists'.1 h
  obtain ⟨e, he, -⟩ := Option.map_eq_some_iff.1 hs
  exact isName_of_at? he

theorem status?_ne_none (h : fs.get? r ≠ none) : fs.status? r ≠ none := by
  intro hnone
  rw [get?_eq_bind, hnone] at h
  exact h rfl

theorem isName_of_get? (h : fs.get? r ≠ none) : ∀ name ∈ r, IsName name :=
  isName_of_status? (status?_ne_none h)

theorem isName_of_directory (h : fs.get? r = some .directory) : ∀ name ∈ r, IsName name := by
  have hthere : fs.get? r ≠ none := by simp [h]
  exact isName_of_get? hthere

theorem isName_home (fs : FileSystem) : ∀ name ∈ fs.home, IsName name :=
  isName_of_directory fs.isHome

theorem admits_of_fileRoute (h : fs.fileRoute p = .ok r) : fs.Admits r := by
  obtain ⟨steps, r', name, last, hsteps, hsplit, hcomponent, hshort, rfl, -, hdir, hfree⟩ :=
    fileRoute_eq_ok h
  refine ⟨⟨by simp, ?_, (refusal?_eq_none_iff.1 hfree).1⟩, ?_⟩
  · rw [List.dropLast_concat]
    exact hdir
  · intro other hother
    rcases List.mem_append.1 hother with hother | hother
    · exact isName_of_directory hdir other hother
    · cases List.mem_singleton.1 hother
      have hlast : last ∈ steps := by
        rw [hsplit]
        simp
      exact isName_of_mem_steps fs.isName_home hsteps hlast hcomponent hshort

theorem get?_setFile_directory (h : fs.Admits r) {access : Access} {t : Route}
    (ht : fs.get? t = some .directory) :
    (fs.setFile r access content).get? t = some .directory := by
  have hne : t ≠ r := by
    rintro rfl
    exact h.1.2.2 ht
  rw [get?_setFile h, if_neg hne, ht]

theorem routeOf_setFile {access : Access} (h : fs.fileRoute p = .ok r) :
    (fs.setFile r access content).routeOf p = .ok r := by
  have hadmits := admits_of_fileRoute h
  obtain ⟨steps, r', name, last, hsteps, hsplit, hcomponent, hshort, rfl, hroute, hdir, -⟩ :=
    fileRoute_eq_ok h
  have hkept (t : Route) (ht : fs.get? t = some .directory) :
      (fs.setFile (r' ++ [name]) access content).get? t = some .directory :=
    get?_setFile_directory hadmits ht
  have hthere : (fs.setFile (r' ++ [name]) access content).get? (r' ++ [name]) ≠ none := by
    rw [get?_setFile hadmits, if_pos rfl]
    simp
  rw [routeOf, home_setFile, hsteps, hsplit]
  show routeFrom _ [] (steps.dropLast ++ [last]) = _
  rw [routeFrom_append, routeFrom_mono hkept hroute hdir]
  exact routeFrom_name (hkept r' hdir) hcomponent hshort hthere

theorem write_eq_ok_iff : fs.write p content = .ok fs' ↔
    ∃ r, fs.fileRoute p = .ok r ∧ fs' = fs.setFile r (fs.access r) content := by
  rw [write, bind_eq_ok_iff]
  simp only [pure, Except.pure, Except.ok.injEq, eq_comm]

theorem lookup_write (h : fs.write p content = .ok fs') : fs'.lookup p = .ok (.file content) := by
  obtain ⟨r, hr, rfl⟩ := write_eq_ok_iff.1 h
  refine lookup_eq_ok_iff.2 ⟨r, routeOf_setFile hr, ?_⟩
  rw [get?_setFile (admits_of_fileRoute hr), if_pos rfl]

theorem routeOf_eq_ok_iff : fs.routeOf p = .ok r ↔
    usableSteps fs.home p = .ok (p.steps fs.home) ∧
      routeFrom fs.root [] (p.steps fs.home) = .ok r := by
  rw [routeOf, bind_eq_ok_iff]
  constructor
  · rintro ⟨steps, hsteps, h⟩
    obtain rfl := (usableSteps_eq_ok_iff.1 hsteps).2
    exact ⟨hsteps, h⟩
  · intro h
    exact ⟨p.steps fs.home, h⟩

theorem routeOf_kept (hhome : fs'.home = fs.home)
    (hmono : ∀ r, fs.get? r = some .directory → fs'.get? r = some .directory)
    (h : fs.routeOf p = .ok r) (hr : fs'.get? r ≠ none) : fs'.routeOf p = .ok r := by
  obtain ⟨hsteps, hroute⟩ := routeOf_eq_ok_iff.1 h
  rw [routeOf_eq_ok_iff, hhome]
  exact ⟨hsteps, routeFrom_kept hmono hroute hr⟩

theorem utf8ByteSize_lt_of_routeOf (h : fs.routeOf p = .ok r) :
    p.text.utf8ByteSize < pathLimit :=
  (usableSteps_eq_ok_iff.1 (routeOf_eq_ok_iff.1 h).1).1.2.1

theorem ne_empty_of_routeOf (h : fs.routeOf p = .ok r) : p.text ≠ "" :=
  (usableSteps_eq_ok_iff.1 (routeOf_eq_ok_iff.1 h).1).1.2.2

/-- Paths with the same components lead to the same place, if they lead anywhere. -/
theorem routeOf_eq_of_same {q : Path} (hsame : p.same q) (hp : fs.routeOf p = .ok r)
    (hq : fs.routeOf q = .ok r') : r = r' := by
  have hp' := routeFrom_components (routeOf_eq_ok_iff.1 hp).2
  have hq' := routeFrom_components (routeOf_eq_ok_iff.1 hq).2
  have hsteps : (p.steps fs.home).filterMap Path.component? =
      (q.steps fs.home).filterMap Path.component? := by
    rw [Path.steps, Path.steps, Path.isAbsolute_of_same hsame]
    split
    · exact Path.filterMap_parts_of_same hsame
    · rw [List.filterMap_append, List.filterMap_append, Path.filterMap_parts_of_same hsame]
  rw [hsteps, hq'] at hp'
  exact Except.ok.inj hp'.symm

theorem endsInName_of_routeOf (h : fs.routeOf p = .ok r)
    (hfile : fs.get? r = some (.file content)) : p.EndsInName := by
  have hname := endsInName_of_routeFrom (routeOf_eq_ok_iff.1 h).2 (p.steps_ne_nil _) hfile
  rwa [Path.getLast?_steps] at hname

theorem status?_ne_none_of_append {t : Route} (h : fs.status? (r ++ t) ≠ none) :
    fs.status? r ≠ none := by
  cases t with
  | nil => simpa using h
  | cons name t =>
    have hdir : fs.get? r = some .directory := get?_eq_directory_of_status? h
    exact status?_ne_none (by simp [hdir])

theorem get?_ne_none_of_append {t : Route} (h : fs.get? (r ++ t) ≠ none) :
    fs.get? r ≠ none := by
  cases t with
  | nil => simpa using h
  | cons name t =>
    rw [FileSystem.get?, get?_eq_directory_of_append h]
    simp

/-- Where the steps of a path lead, even if the path is too long or empty. -/
structure Reaches (fs : FileSystem) (p : Path) (r : Route) : Prop where
  noNul : '\x00' ∉ p.text.toList
  route : routeFrom fs.root [] (p.steps fs.home) = .ok r

theorem reaches_of_routeOf (h : fs.routeOf p = .ok r) : fs.Reaches p r := by
  obtain ⟨hsteps, hroute⟩ := routeOf_eq_ok_iff.1 h
  exact ⟨(usableSteps_eq_ok_iff.1 hsteps).1.1, hroute⟩

theorem Reaches.front (h : fs.Reaches p r) (hname : '/' ∉ name.toList) :
    ∃ front, (p.join ⟨name⟩).steps fs.home = front ++ [name] ∧
      routeFrom fs.root [] front = .ok r := by
  obtain ⟨front, hjoin, hfront⟩ := p.steps_join fs.home hname
  refine ⟨front, hjoin, ?_⟩
  have hroute := h.route
  rcases hfront with hfront | hfront
  · exact hfront ▸ hroute
  · -- the slash at the end of the path stays where it is
    rw [hfront, routeFrom_append] at hroute
    obtain ⟨above, habove, hroute⟩ := bind_eq_ok_iff.1 hroute
    cases (routeFrom_slash.1 hroute).2
    exact habove

theorem routeFrom_of_directory {t : Route} (h : fs.get? (r ++ t) = some .directory) :
    routeFrom fs.root r t = .ok (r ++ t) := by
  induction t generalizing r with
  | nil => rw [List.append_nil, routeFrom, List.foldlM_nil]; rfl
  | cons name t ih =>
    have hthere : fs.get? (r ++ name :: t) ≠ none := by simp [h]
    have hdir : fs.get? r = some .directory := get?_eq_directory_of_append hthere
    obtain ⟨hpart, -, -, hshort⟩ := isName_of_directory h name (by simp)
    rw [List.append_cons] at h hthere ⊢
    have hchild := get?_ne_none_of_append hthere
    rw [routeFrom_cons, routeStep_name hdir hpart hshort hchild]
    exact ih h

theorem reaches_empty (fs : FileSystem) : fs.Reaches ⟨""⟩ fs.home := by
  refine ⟨by simp, ?_⟩
  show routeFrom fs.root [] (fs.home ++ [""]) = _
  have hhome : routeFrom fs.root [] fs.home = .ok fs.home := routeFrom_of_directory fs.isHome
  rw [routeFrom_append, hhome]
  exact routeFrom_slash.2 ⟨fs.isHome, rfl⟩

theorem Reaches.mono (h : fs.Reaches p r) (hhome : fs'.home = fs.home)
    (hmono : ∀ r, fs.get? r = some .directory → fs'.get? r = some .directory)
    (hdir : fs.get? r = some .directory) : fs'.Reaches p r :=
  ⟨h.noNul, hhome ▸ routeFrom_mono hmono h.route hdir⟩

theorem Reaches.routeOf_join (h : fs.Reaches p r) (hthere : fs.get? (r ++ [name]) ≠ none)
    (hshort : (p.join ⟨name⟩).text.utf8ByteSize < pathLimit) :
    fs.routeOf (p.join ⟨name⟩) = .ok (r ++ [name]) := by
  have hdir : fs.get? r = some .directory := get?_eq_directory_of_append hthere
  have hname : IsName name := isName_of_get? hthere name (by simp)
  refine routeOf_eq_ok_iff.2 ⟨usableSteps_join fs.home h.noNul hname hshort, ?_⟩
  obtain ⟨front, hjoin, hfront⟩ := h.front hname.2.1
  rw [hjoin, routeFrom_append, hfront]
  exact routeFrom_name hdir hname.1 hname.2.2.2 hthere

theorem Reaches.routeOf_joinAll {t : Route} (h : fs.Reaches p r) (hne : t ≠ [])
    (hthere : fs.get? (r ++ t) ≠ none) (hshort : (p.joinAll t).text.utf8ByteSize < pathLimit) :
    fs.routeOf (p.joinAll t) = .ok (r ++ t) := by
  induction t generalizing p r with
  | nil => exact absurd rfl hne
  | cons name t ih =>
    rw [List.append_cons] at hthere ⊢
    have hnames := isName_of_get? hthere
    have hle : (p.join ⟨name⟩).text.utf8ByteSize ≤
        ((p.join ⟨name⟩).joinAll t).text.utf8ByteSize :=
      Path.utf8ByteSize_le_joinAll _ fun other hother => (hnames other (by simp [hother])).2.1
    have hchild := h.routeOf_join (get?_ne_none_of_append hthere) (Nat.lt_of_le_of_lt hle hshort)
    by_cases ht : t = []
    · simpa [ht, Path.joinAll] using hchild
    · exact ih (reaches_of_routeOf hchild) ht hthere hshort

theorem routeOf_joinAll (t : Route) (h : fs.routeOf p = .ok r) (hthere : fs.get? (r ++ t) ≠ none)
    (hshort : (p.joinAll t).text.utf8ByteSize < pathLimit) :
    fs.routeOf (p.joinAll t) = .ok (r ++ t) := by
  by_cases ht : t = []
  · simpa [ht, Path.joinAll] using h
  · exact (reaches_of_routeOf h).routeOf_joinAll ht hthere hshort

end FileSystem

end WitnessReplay.Files
