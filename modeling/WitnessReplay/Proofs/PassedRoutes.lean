import WitnessReplay.Proofs.LexicalRoute

/-!
# The routes on the way of a path

On its way a path passes through one route after the other. When it leads to a directory, there
are directories at all of them. The paths that its first components form pass through no
others.
-/

namespace WitnessReplay.Files

open List

variable {r home : Route} {parts : List String} {p q : Path}

namespace Path

/-- A path passes through the routes to which its components lead, up to each of them. -/
def PassesThrough (home : Route) (p : Path) (r : Route) : Prop :=
  ∃ front, front <+: (p.steps home).filterMap component? ∧ front.foldl climb [] = r

theorem passesThrough_route (home : Route) (p : Path) :
    p.PassesThrough home (p.route home) :=
  ⟨_, prefix_rfl, rfl⟩

theorem filterMap_parts_joinAll (p : Path) (h : ∀ part ∈ parts, '/' ∉ part.toList) :
    (p.joinAll parts).parts.filterMap component? =
      p.parts.filterMap component? ++ parts.filterMap component? := by
  induction parts generalizing p with
  | nil => simp [joinAll]
  | cons part parts ih =>
    obtain ⟨hpart, hparts⟩ := forall_mem_cons.1 h
    obtain ⟨front, hjoin, hfront⟩ := p.parts_join (isAbsolute_of_notMem hpart)
    have hp : p.parts.filterMap component? = front.filterMap component? := by
      rcases hfront with hfront | hfront
      · rw [hfront]
      · rw [hfront, filterMap_append]
        exact append_nil _
    show ((p.join ⟨part⟩).joinAll parts).parts.filterMap component? = _
    rw [ih _ hparts, hjoin, parts_of_notMem hpart, hp, filterMap_append,
      append_assoc, ← filterMap_append]
    rfl

theorem isAbsolute_joinAll (p : Path) (h : ∀ part ∈ parts, '/' ∉ part.toList) :
    (p.joinAll parts).isAbsolute = p.isAbsolute := by
  induction parts generalizing p with
  | nil => rfl
  | cons part parts ih =>
    obtain ⟨hpart, hparts⟩ := forall_mem_cons.1 h
    exact (ih (p.join ⟨part⟩) hparts).trans (p.isAbsolute_join hpart)

theorem component?_text {component : Component} (h : component ∈ p.parts.filterMap component?) :
    component? component.text = some component ∧ '/' ∉ component.text.toList := by
  obtain ⟨part, hpart, hcomponent⟩ := mem_filterMap.1 h
  rw [text_of_component? hcomponent]
  refine ⟨hcomponent, ?_⟩
  obtain ⟨chars, hchars, rfl⟩ := mem_map.1 hpart
  rw [String.toList_ofList]
  exact fun hslash => (Text.mem_of_mem_splitAt hchars hslash).2 rfl

theorem filterMap_text {components : List Component}
    (h : ∀ c ∈ components, component? c.text = some c) :
    (components.map Component.text).filterMap component? = components := by
  induction components with
  | nil => rfl
  | cons c components ih =>
    obtain ⟨hc, hrest⟩ := forall_mem_cons.1 h
    rw [map_cons, filterMap_cons_some hc, ih hrest]

theorem PassesThrough.of_components {components : List Component} (hne : components ≠ [])
    (hcomponents : components <+: p.components)
    (h : (ofComponents components).PassesThrough home r) : p.PassesThrough home r := by
  obtain ⟨front, hfront, rfl⟩ := h
  refine ⟨front, hfront.trans ?_, rfl⟩
  -- the start of a path is not one of its steps
  obtain ⟨start, rest, hsplit, hrest, hsame⟩ : ∃ (start : Path) (rest : List Component),
      ofComponents components = start.joinAll (rest.map Component.text) ∧
      rest <+: p.parts.filterMap component? ∧ start.parts.filterMap component? = [] ∧
      start.isAbsolute = p.isAbsolute := by
    rw [Path.components, Path.start] at hcomponents
    split at hcomponents
    · rename_i habsolute
      obtain ⟨rest, rfl, hrest⟩ := (prefix_cons_iff.1 hcomponents).resolve_left hne
      exact ⟨⟨"/"⟩, rest, rfl, hrest, rfl, habsolute.symm⟩
    · rename_i hrelative
      have hrelative := eq_false_of_ne_true hrelative
      split at hcomponents
      · obtain ⟨rest, rfl, hrest⟩ := (prefix_cons_iff.1 hcomponents).resolve_left hne
        exact ⟨⟨"."⟩, rest, rfl, hrest, rfl, hrelative.symm⟩
      · exact ⟨⟨""⟩, components, rfl, hcomponents, rfl, hrelative.symm⟩
  have htexts : ∀ c ∈ rest, component? c.text = some c ∧ '/' ∉ c.text.toList :=
    fun c hc => component?_text (hrest.subset hc)
  have hslashes : ∀ part ∈ rest.map Component.text, '/' ∉ part.toList := by
    intro part hpart
    obtain ⟨c, hc, rfl⟩ := mem_map.1 hpart
    exact (htexts c hc).2
  have hparts : (ofComponents components).parts.filterMap component? = rest := by
    rw [hsplit, filterMap_parts_joinAll start hslashes, hsame.1,
      filterMap_text fun c hc => (htexts c hc).1]
    rfl
  have habsolute : (ofComponents components).isAbsolute = p.isAbsolute := by
    rw [hsplit, isAbsolute_joinAll start hslashes, hsame.2]
  rw [steps, steps, habsolute]
  split
  · rwa [hparts]
  · rw [filterMap_append, filterMap_append, hparts]
    exact (prefix_append_right_inj _).2 hrest

theorem PassesThrough.of_join_empty (h : (p.join ⟨""⟩).PassesThrough home r) :
    p.PassesThrough home r := by
  obtain ⟨front, hfront, rfl⟩ := h
  have hslash : '/' ∉ "".toList := by simp
  obtain ⟨steps, hjoin, hsteps⟩ := p.steps_join home hslash
  have heq : ((p.join ⟨""⟩).steps home).filterMap component? =
      (p.steps home).filterMap component? := by
    rcases hsteps with hsteps | hsteps
    · rw [hjoin, hsteps, filterMap_append]
      exact append_nil _
    · rw [hjoin, hsteps]
  exact ⟨front, heq ▸ hfront, rfl⟩

end Path

namespace FileSystem

variable {fs : FileSystem}

theorem get?_of_passesThrough {r' : Route} (h : fs.Reaches p r')
    (hdir : fs.get? r' = some .directory) (hpass : p.PassesThrough fs.home r) :
    fs.get? r = some .directory := by
  obtain ⟨front, ⟨back, hback⟩, rfl⟩ := hpass
  have hroute := routeFrom_components h.route
  have htext : ∀ c ∈ front, Path.component? c.text = some c := by
    intro c hc
    obtain ⟨part, -, hpart⟩ := mem_filterMap.1 (hback ▸ mem_append_left back hc)
    rw [Path.text_of_component? hpart, hpart]
  rw [← hback, map_append, routeFrom_append] at hroute
  obtain ⟨above, habove, hroute⟩ := bind_eq_ok_iff.1 hroute
  have hspell := spell_of_routeFrom habove
  rw [spell, Path.filterMap_text htext] at hspell
  rw [hspell]
  exact isDirectory_of_routeFrom hroute hdir

end FileSystem

end WitnessReplay.Files
