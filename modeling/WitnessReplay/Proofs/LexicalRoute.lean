import WitnessReplay.Proofs.DirectoryWalk

/-!
# The routes that paths spell

From what a link leads to, the way up leads back to where the link is. So a path can lead to
one route only, and the route can be read off its text. What is in the file system decides no
more than whether the path leads there.
-/

namespace WitnessReplay.Files

open List

variable {r r' t home : Route} {parts : List String} {name : String} {p q : Path}

/-- The route to which a component leads from a route. Above the root there is the root. -/
def climb (r : Route) : Component → Route
  | .name name => r ++ [name]
  | .parent => r.dropLast
  | _ => r

def spell (r : Route) (parts : List String) : Route :=
  (parts.filterMap Path.component?).foldl climb r

theorem spell_append (r : Route) (parts parts' : List String) :
    spell r (parts ++ parts') = spell (spell r parts) parts' := by
  rw [spell, filterMap_append, foldl_append]
  rfl

theorem spell_of_steps {d : Directory} {part : String} (h : Steps d r part r') :
    spell r (part :: parts) = spell r' parts := by
  unfold spell
  cases h with
  | down hpart hshort hthere =>
    rw [filterMap_cons_some hpart]
    rfl
  | up hpart =>
    rw [filterMap_cons_some hpart]
    rfl
  | stay hpart => rw [filterMap_cons_none hpart]

theorem spell_of_routeFrom {d : Directory} (h : routeFrom d r parts = .ok r') :
    spell r parts = r' := by
  induction parts generalizing r with
  | nil =>
    cases h
    rfl
  | cons part parts ih =>
    obtain ⟨-, next, hstep, h⟩ := routeFrom_cons_eq_ok_iff.1 h
    rw [spell_of_steps hstep, ih h]

def IsPart (name : String) : Prop :=
  Path.component? name = some (.name name) ∧ '/' ∉ name.toList

theorem IsName.isPart (h : IsName name) : IsPart name :=
  ⟨h.1, h.2.1⟩

theorem IsPart.ne_empty (h : IsPart name) : name ≠ "" := by
  rintro rfl
  cases h.1

theorem isPart_of_isName (h : ∀ name ∈ t, IsName name) : ∀ name ∈ t, IsPart name :=
  fun name hname => (h name hname).isPart

theorem spell_name (r : Route) (hname : Path.component? name = some (.name name)) :
    spell r [name] = r ++ [name] := by
  rw [spell, filterMap_cons_some hname]
  rfl

namespace Path

/-- The route that a path spells, if it starts at `home`. -/
def route (home : Route) (p : Path) : Route :=
  spell [] (p.steps home)

def Apart (home : Route) (p q : Path) : Prop :=
  ¬p.route home <+: q.route home ∧ ¬q.route home <+: p.route home

instance (home : Route) (p q : Path) : Decidable (Apart home p q) :=
  inferInstanceAs (Decidable (_ ∧ _))

/-- Nothing below a path lies in what another path leads to, if they are apart. -/
theorem Apart.not_prefix_append (h : Apart home p q) (t : Route) :
    ¬q.route home <+: p.route home ++ t := by
  intro hstarts
  rcases List.prefix_or_prefix_of_prefix hstarts (prefix_append _ t) with hle | hle
  · exact h.2 hle
  · exact h.1 hle

theorem route_join (home : Route) (p : Path) (hname : IsPart name) :
    (p.join ⟨name⟩).route home = p.route home ++ [name] := by
  obtain ⟨front, hjoin, hfront⟩ := p.steps_join home hname.2
  have hspell : p.route home = spell [] front := by
    rcases hfront with hfront | hfront
    · rw [route, hfront]
    · rw [route, hfront, spell_append]
      rfl
  rw [hspell, route, hjoin, spell_append, spell_name _ hname.1]

theorem utf8ByteSize_lt_join (p : Path) (hname : IsPart name) :
    p.text.utf8ByteSize < (p.join ⟨name⟩).text.utf8ByteSize := by
  have hle := p.utf8ByteSize_le_join hname.2
  have hpos := Nat.pos_of_ne_zero (mt String.utf8ByteSize_eq_zero_iff.1 hname.ne_empty)
  omega

theorem joinAll_concat (p : Path) (t : Route) (name : String) :
    p.joinAll (t ++ [name]) = (p.joinAll t).join ⟨name⟩ := by
  rw [joinAll, foldl_append]
  rfl

theorem joinAll_append (p : Path) (t t' : Route) : p.joinAll (t ++ t') = (p.joinAll t).joinAll t' :=
  foldl_append

theorem route_joinAll (home : Route) (p : Path) (ht : ∀ name ∈ t, IsPart name) :
    (p.joinAll t).route home = p.route home ++ t := by
  induction t generalizing p with
  | nil => simp [joinAll]
  | cons name t ih =>
    obtain ⟨hname, ht⟩ := forall_mem_cons.1 ht
    show ((p.join ⟨name⟩).joinAll t).route home = _
    rw [ih _ ht, route_join home p hname, append_assoc]
    rfl

/-- What is put in front of a path that is seen from another one does not depend on it. -/
theorem exists_lead (p : Path) :
    ∃ lead : String, ∀ q : Path, q.isAbsolute = false → p.join q = ⟨lead ++ q.text⟩ := by
  by_cases hend : p.text = "" ∨ p.text.toList.getLast? = some '/'
  · refine ⟨p.text, fun q hq => ?_⟩
    rw [join, hq, if_neg Bool.false_ne_true, if_pos hend]
  · refine ⟨p.text ++ "/", fun q hq => ?_⟩
    rw [join, hq, if_neg Bool.false_ne_true, if_neg hend]

theorem join_join (p : Path) (hname : IsPart name) (hq : q.isAbsolute = false) :
    (p.join ⟨name⟩).join q = p.join ⟨name ++ "/" ++ q.text⟩ := by
  have hne := hname.ne_empty
  have hrelative := isAbsolute_of_notMem hname.2
  have hrelative' : isAbsolute ⟨name ++ "/" ++ q.text⟩ = false := by
    rw [String.append_assoc, isAbsolute_append hne, hrelative]
  obtain ⟨lead, hlead⟩ := p.exists_lead
  have hends : ¬(lead ++ name = "" ∨ (lead ++ name).toList.getLast? = some '/') := by
    rintro (hempty | hlast)
    · exact hne (String.append_eq_empty_iff.1 hempty).2
    · have hchars := mt String.toList_eq_nil_iff.1 hne
      obtain ⟨c, hc⟩ := Option.isSome_iff_exists.1 (getLast?_isSome.2 hchars)
      rw [String.toList_append, getLast?_append, hc] at hlast
      cases hlast
      exact hname.2 (mem_of_getLast? hc)
  rw [hlead _ hrelative, hlead _ hrelative', join, hq, if_neg Bool.false_ne_true, if_neg hends]
  simp [String.append_assoc]

theorem join_intercalate (p : Path) (hne : t ≠ []) (ht : ∀ name ∈ t, IsPart name) :
    p.join ⟨"/".intercalate t⟩ = p.joinAll t := by
  induction t generalizing p with
  | nil => exact absurd rfl hne
  | cons name t ih =>
    obtain ⟨hname, ht⟩ := forall_mem_cons.1 ht
    cases t with
    | nil =>
      rw [String.intercalate_singleton]
      rfl
    | cons name' t =>
      have hname' := ht name' mem_cons_self
      have hrelative : isAbsolute ⟨"/".intercalate (name' :: t)⟩ = false := by
        rw [← String.append_empty (s := name'), String.intercalate_cons_append,
          isAbsolute_append hname'.ne_empty, isAbsolute_of_notMem hname'.2]
      rw [String.intercalate_cons_cons]
      exact (join_join p hname hrelative).symm.trans (ih (p.join ⟨name⟩) (by simp) ht)

theorem extension?_join (p : Path) (hname : IsPart name) :
    (p.join ⟨name⟩).extension? = extension? ⟨name⟩ := by
  have hfile (q : Path) (hlast : q.parts.getLast? = some name) : q.fileName? = some name := by
    obtain ⟨front, hparts⟩ := getLast?_eq_some_iff.1 hlast
    simp [fileName?, components, hparts, filterMap_append, hname.1]
  have hlast : (p.join ⟨name⟩).parts.getLast? = some name := by
    obtain ⟨front, hjoin, -⟩ := p.steps_join [] hname.2
    rw [← getLast?_steps [], hjoin, getLast?_concat]
  rw [extension?, extension?, hfile _ hlast, hfile _ (by simp [parts_of_notMem hname.2])]

end Path

namespace FileSystem

variable {fs : FileSystem} {content : ByteArray}

theorem route_of_routeOf (h : fs.routeOf p = .ok r) : p.route fs.home = r :=
  spell_of_routeFrom (routeOf_eq_ok_iff.1 h).2

theorem route_of_fileRoute (h : fs.fileRoute p = .ok r) : p.route fs.home = r := by
  obtain ⟨steps, r', name, last, hsteps, hsplit, hlast, -, rfl, hroute, -⟩ := fileRoute_eq_ok h
  obtain ⟨-, rfl⟩ := usableSteps_eq_ok_iff.1 hsteps
  obtain rfl := Path.text_of_component? hlast
  rw [Path.route, hsplit, spell_append, spell_of_routeFrom hroute]
  exact spell_name r' hlast

theorem routeOf_of_join_empty (h : fs.routeOf (p.join ⟨""⟩) = .ok r) :
    fs.routeOf p = .ok r := by
  have hslash : '/' ∉ "".toList := by simp
  obtain ⟨hsteps, hroute⟩ := routeOf_eq_ok_iff.1 h
  obtain ⟨⟨hnul, hshort, hne⟩, -⟩ := usableSteps_eq_ok_iff.1 hsteps
  have hsize := p.utf8ByteSize_le_join hslash
  have hp : p.text ≠ "" := by
    intro hp
    exact hne (by simp [Path.join, Path.isAbsolute, hp])
  have hnul' : '\x00' ∉ p.text.toList := by
    rcases p.text_join hslash with htext | ⟨htext, -⟩ <;> simp_all
  refine routeOf_eq_ok_iff.2 ⟨usableSteps_eq_ok_iff.2 ⟨⟨hnul', by omega, hp⟩, rfl⟩, ?_⟩
  obtain ⟨front, hjoin, hfront⟩ := p.steps_join fs.home hslash
  rcases hfront with hfront | hfront
  -- a slash is put behind the path, unless it ends in one
  · rw [hjoin, routeFrom_append] at hroute
    obtain ⟨above, habove, hroute⟩ := bind_eq_ok_iff.1 hroute
    cases (routeFrom_slash.1 hroute).2
    rw [hfront, habove]
  · rw [hfront, ← hjoin, hroute]

def file? (fs : FileSystem) (r : Route) : Option ByteArray :=
  match fs.get? r with
  | some (.file content) => some content
  | _ => none

theorem file?_eq_some_iff : fs.file? r = some content ↔ fs.get? r = some (.file content) := by
  unfold file?
  split
  · rename_i heq
    simp [heq]
  · rename_i hnot
    constructor
    · intro h
      cases h
    · intro h
      exact absurd h (hnot content)

theorem file?_of_get? {fs' : FileSystem} {r' : Route} (h : fs'.get? r' = fs.get? r) :
    fs'.file? r' = fs.file? r := by
  rw [file?, file?, h]

theorem file?_of_directory (h : fs.get? r = some .directory) : fs.file? r = none := by
  rw [file?, h]

theorem status?_below_file (h : fs.get? r = some (.file content)) (hne : t ≠ []) :
    fs.status? (r ++ t) = none := by
  obtain ⟨name, rest, rfl⟩ := exists_cons_of_ne_nil hne
  refine Classical.byContradiction fun hthere => ?_
  have hdir : fs.get? r = some .directory := get?_eq_directory_of_status? hthere
  rw [h] at hdir
  cases hdir

end FileSystem

end WitnessReplay.Files
