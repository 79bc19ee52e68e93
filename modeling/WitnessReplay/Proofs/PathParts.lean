import WitnessReplay.Files.FileSystem
import WitnessReplay.Proofs.Fallible
import WitnessReplay.Witness.Position

/-!
# The parts of a path

Paths with the same components may be written in different ways: with points, with repeated
slashes, with a slash at the end. What they have in common are the parts that are components.
-/

namespace WitnessReplay.Text

open List

variable {separator c : Char} {cs part : List Char}

theorem splitAt_ne_nil (separator : Char) (cs : List Char) : splitAt separator cs ≠ [] := by
  cases cs with
  | nil => simp [splitAt]
  | cons c r =>
    rw [splitAt]
    split
    · simp
    · split <;> simp

theorem splitAt_cons_of_ne (h : c ≠ separator) {parts : List (List Char)}
    (hcs : splitAt separator cs = part :: parts) :
    splitAt separator (c :: cs) = (c :: part) :: parts := by
  rw [splitAt, if_neg h, hcs]

theorem splitAt_append (separator : Char) (a b : List Char) :
    splitAt separator (a ++ separator :: b) = splitAt separator a ++ splitAt separator b := by
  induction a with
  | nil => simp [splitAt]
  | cons c a ih =>
    by_cases hc : c = separator
    · simp [splitAt, hc, ih]
    · obtain ⟨part, parts, ha⟩ := exists_cons_of_ne_nil (splitAt_ne_nil separator a)
      rw [ha] at ih
      rw [cons_append, splitAt_cons_of_ne hc ha, splitAt_cons_of_ne hc ih]
      rfl

theorem splitAt_of_notMem (h : separator ∉ cs) : splitAt separator cs = [cs] := by
  induction cs with
  | nil => rfl
  | cons c r ih =>
    obtain ⟨hc, hr⟩ := ne_and_not_mem_of_not_mem_cons h
    exact splitAt_cons_of_ne (Ne.symm hc) (ih hr)

theorem mem_of_mem_splitAt (h : part ∈ splitAt separator cs) (hc : c ∈ part) :
    c ∈ cs ∧ c ≠ separator := by
  induction cs generalizing part with
  | nil =>
    cases mem_singleton.1 h
    cases hc
  | cons x r ih =>
    by_cases hx : x = separator
    · rw [splitAt, if_pos hx] at h
      rcases mem_cons.1 h with rfl | h
      · cases hc
      · exact ⟨mem_cons_of_mem x (ih h hc).1, (ih h hc).2⟩
    · obtain ⟨first, parts, hr⟩ := exists_cons_of_ne_nil (splitAt_ne_nil separator r)
      rw [splitAt_cons_of_ne hx hr] at h
      rw [hr] at ih
      rcases mem_cons.1 h with rfl | h
      · rcases mem_cons.1 hc with rfl | hc
        · exact ⟨mem_cons_self, hx⟩
        · have hrest := ih mem_cons_self hc
          exact ⟨mem_cons_of_mem x hrest.1, hrest.2⟩
      · have hrest := ih (mem_cons_of_mem first h) hc
        exact ⟨mem_cons_of_mem x hrest.1, hrest.2⟩

theorem eq_of_getLast?_splitAt (h : (splitAt separator cs).getLast? = some part) :
    cs = part ∨ ∃ front, cs = front ++ separator :: part := by
  by_cases hmem : separator ∈ cs
  · obtain ⟨back, front, hcs, hback⟩ := eq_append_cons_of_mem (mem_reverse.2 hmem)
    have hsplit : cs = front.reverse ++ separator :: back.reverse := by
      rw [← reverse_reverse cs, hcs]
      simp
    have hlast : splitAt separator back.reverse = [back.reverse] :=
      splitAt_of_notMem (by simpa using hback)
    rw [hsplit, splitAt_append, hlast, getLast?_concat] at h
    exact .inr ⟨front.reverse, Option.some.inj h ▸ hsplit⟩
  · rw [splitAt_of_notMem hmem] at h
    exact .inl (Option.some.inj h)

end WitnessReplay.Text

namespace WitnessReplay.Files

open Text List

variable {p q : Path} {name : String}

namespace Path

theorem parts_ne_nil (p : Path) : p.parts ≠ [] := by
  simpa [parts, split] using splitAt_ne_nil _ _

theorem parts_of_notMem (hname : '/' ∉ name.toList) : parts ⟨name⟩ = [name] := by
  simp [parts, split, splitAt_of_notMem hname]

theorem isAbsolute_append {a : String} (ha : a ≠ "") (b : String) :
    isAbsolute ⟨a ++ b⟩ = isAbsolute ⟨a⟩ := by
  obtain ⟨c, cs, hcs⟩ := exists_cons_of_ne_nil (mt String.toList_eq_nil_iff.1 ha)
  simp [isAbsolute, hcs]

theorem isAbsolute_of_notMem (hname : '/' ∉ name.toList) : isAbsolute ⟨name⟩ = false := by
  rw [isAbsolute, beq_eq_false_iff_ne]
  exact fun hhead => hname (mem_of_mem_head? hhead)

/-- A name is put behind a path with a slash between them, unless the path is empty or has a
slash at its end. -/
theorem text_join (p : Path) (hname : '/' ∉ name.toList) :
    (p.join ⟨name⟩).text = p.text ++ "/" ++ name ∨
      (p.join ⟨name⟩).text = p.text ++ name ∧
        (p.text = "" ∨ p.text.toList.getLast? = some '/') := by
  rw [join, isAbsolute_of_notMem hname, if_neg Bool.false_ne_true]
  split
  · rename_i hend
    exact .inr ⟨rfl, hend⟩
  · exact .inl rfl

theorem isAbsolute_join (p : Path) (hname : '/' ∉ name.toList) :
    (p.join ⟨name⟩).isAbsolute = p.isAbsolute := by
  have hrelative := isAbsolute_of_notMem hname
  by_cases hp : p.text = ""
  · rw [join, hrelative, if_neg Bool.false_ne_true, if_pos (.inl hp), hp,
      String.empty_append, hrelative, isAbsolute, hp]
    rfl
  · rcases p.text_join hname with htext | ⟨htext, -⟩
    · rw [isAbsolute, htext, String.append_assoc]
      exact isAbsolute_append hp _
    · rw [isAbsolute, htext]
      exact isAbsolute_append hp _

theorem parts_join (p : Path) {rel : Path} (hrel : rel.isAbsolute = false) :
    ∃ front, (p.join rel).parts = front ++ rel.parts ∧
      (p.parts = front ∨ p.parts = front ++ [""]) := by
  have hsplit (front : List Char) :
      (splitAt '/' (front ++ '/' :: rel.text.toList)).map String.ofList =
        (splitAt '/' front).map String.ofList ++ rel.parts := by
    rw [splitAt_append, map_append]
    rfl
  rw [join, hrel, if_neg Bool.false_ne_true]
  split
  · rename_i hend
    rcases hend with hend | hend
    · exact ⟨[], by simp [hend], .inr (by rw [parts, hend]; rfl)⟩
    · obtain ⟨front, hfront⟩ := getLast?_eq_some_iff.1 hend
      refine ⟨(splitAt '/' front).map String.ofList, ?_, .inr ?_⟩
      · rw [← hsplit, parts, split, String.toList_append, hfront]
        simp
      · rw [parts, split, hfront, splitAt_append, map_append]
        rfl
  · refine ⟨p.parts, ?_, .inl rfl⟩
    rw [parts, split, String.toList_append, String.toList_append]
    simpa [parts, split] using hsplit p.text.toList

theorem steps_join (home : Route) (p : Path) (hname : '/' ∉ name.toList) :
    ∃ front, (p.join ⟨name⟩).steps home = front ++ [name] ∧
      (p.steps home = front ∨ p.steps home = front ++ [""]) := by
  obtain ⟨front, hjoin, hfront⟩ := p.parts_join (isAbsolute_of_notMem hname)
  rw [parts_of_notMem hname] at hjoin
  unfold steps
  rw [p.isAbsolute_join hname, hjoin]
  split
  · exact ⟨front, rfl, hfront⟩
  · refine ⟨home ++ front, by simp, ?_⟩
    rcases hfront with hfront | hfront
    · exact .inl (by rw [hfront])
    · exact .inr (by rw [hfront, append_assoc])

theorem steps_ne_nil (home : Route) (p : Path) : p.steps home ≠ [] := by
  unfold steps
  split
  · exact p.parts_ne_nil
  · simp [p.parts_ne_nil]

theorem getLast?_steps (home : Route) (p : Path) :
    (p.steps home).getLast? = p.parts.getLast? := by
  unfold steps
  split
  · rfl
  · obtain ⟨last, hlast⟩ := Option.isSome_iff_exists.1 (getLast?_isSome.2 p.parts_ne_nil)
    rw [getLast?_append, hlast]
    rfl

theorem utf8ByteSize_le_join (p : Path) (hname : '/' ∉ name.toList) :
    p.text.utf8ByteSize + name.utf8ByteSize ≤ (p.join ⟨name⟩).text.utf8ByteSize := by
  rcases p.text_join hname with htext | ⟨htext, -⟩
  · simp [htext]
  · simp [htext]

theorem utf8ByteSize_le_joinAll (p : Path) {names : List String}
    (hnames : ∀ name ∈ names, '/' ∉ name.toList) :
    p.text.utf8ByteSize ≤ (p.joinAll names).text.utf8ByteSize := by
  induction names generalizing p with
  | nil => exact Nat.le_refl _
  | cons name names ih =>
    obtain ⟨hname, hnames⟩ := forall_mem_cons.1 hnames
    have hjoin := p.utf8ByteSize_le_join hname
    have hrest : _ ≤ (p.joinAll (name :: names)).text.utf8ByteSize := ih (p.join ⟨name⟩) hnames
    omega

theorem eq_parent_of_component? {part : String} {component : Component}
    (h : component? part = some component)
    (hnot : ∀ name, component = .name name → False) : component = .parent := by
  unfold component? at h
  split at h
  · cases h
  · split at h
    · exact (Option.some.inj h).symm
    · exact (hnot part (Option.some.inj h).symm).elim

theorem text_of_component? {part : String} {component : Component}
    (h : component? part = some component) :
    component.text = part := by
  unfold component? at h
  split at h
  · cases h
  · split at h
    · rename_i hpart
      cases h
      exact hpart.symm
    · cases h
      rfl

theorem filterMap_parts_eq (p : Path) :
    p.parts.filterMap component? = p.components.filter fun c => c ≠ .root ∧ c ≠ .current := by
  have hstart : (p.start.filter fun c => c ≠ .root ∧ c ≠ .current) = [] := by
    unfold start
    split
    · rfl
    · split <;> rfl
  rw [components, filter_append, hstart, nil_append, filter_eq_self.2]
  intro c hc
  obtain ⟨part, -, hpart⟩ := mem_filterMap.1 hc
  unfold component? at hpart
  split at hpart
  · cases hpart
  · split at hpart <;> (cases hpart; rfl)

theorem filterMap_parts_of_same (h : p.same q) :
    p.parts.filterMap component? = q.parts.filterMap component? := by
  rw [filterMap_parts_eq, filterMap_parts_eq, eq_of_beq h]

def EndsInName (p : Path) : Prop :=
  ∃ name, p.parts.getLast? = some name ∧ component? name = some (.name name)

theorem endsInName_join (p : Path) (hname : IsName name) :
    (p.join ⟨name⟩).EndsInName := by
  obtain ⟨front, hsteps, -⟩ := p.steps_join [] hname.2.1
  refine ⟨name, ?_, hname.1⟩
  rw [← getLast?_steps [], hsteps, getLast?_concat]

theorem isAbsolute_of_same (h : p.same q) : p.isAbsolute = q.isAbsolute := by
  have hroot (p : Path) : p.isAbsolute = p.components.contains .root := by
    have hparts : Component.root ∉ p.parts.filterMap component? := by
      rw [filterMap_parts_eq]
      simp
    unfold components start
    by_cases habsolute : p.isAbsolute = true
    · simp [habsolute]
    · by_cases hpoint : p.parts.head? = some "." <;> simp_all
  rw [hroot, hroot, eq_of_beq h]

end Path

variable {home : Route} {steps : List String}

theorem usableSteps_eq_ok_iff : usableSteps home p = .ok steps ↔
    ('\x00' ∉ p.text.toList ∧ p.text.utf8ByteSize < pathLimit ∧ p.text ≠ "") ∧
      p.steps home = steps := by
  unfold usableSteps
  split
  · simp_all
  · split
    · rename_i hlong
      simp [Nat.not_lt.2 hlong]
    · split
      · simp_all
      · simp_all

theorem usableSteps_join (home : Route) (hnul : '\x00' ∉ p.text.toList) (hname : IsName name)
    (hshort : (p.join ⟨name⟩).text.utf8ByteSize < pathLimit) :
    usableSteps home (p.join ⟨name⟩) = .ok ((p.join ⟨name⟩).steps home) := by
  obtain ⟨hpart, hslash, hnul', -⟩ := hname
  have hne : name ≠ "" := by
    rintro rfl
    cases hpart
  refine usableSteps_eq_ok_iff.2 ⟨⟨?_, hshort, ?_⟩, rfl⟩
  · rcases p.text_join hslash with htext | ⟨htext, -⟩ <;> simp [htext, hnul, hnul']
  · rcases p.text_join hslash with htext | ⟨htext, -⟩ <;> simp [htext, hne]

theorem isName_of_mem_steps {step : String} (hhome : ∀ name ∈ home, IsName name)
    (h : usableSteps home p = .ok steps) (hstep : step ∈ steps)
    (hname : Path.component? step = some (.name name)) (hshort : isTooLong name = false) :
    IsName name := by
  obtain ⟨⟨hnul, -⟩, rfl⟩ := usableSteps_eq_ok_iff.1 h
  obtain rfl : name = step := Path.text_of_component? hname
  have hcases : name ∈ home ∨ name ∈ p.parts := by
    rw [Path.steps] at hstep
    split at hstep
    · exact .inr hstep
    · exact mem_append.1 hstep
  rcases hcases with hmem | hmem
  · exact hhome name hmem
  · obtain ⟨chars, hchars, rfl⟩ := mem_map.1 hmem
    refine ⟨hname, ?_, ?_, hshort⟩
    · intro hslash
      rw [String.toList_ofList] at hslash
      exact (mem_of_mem_splitAt hchars hslash).2 rfl
    · intro hzero
      rw [String.toList_ofList] at hzero
      exact hnul (mem_of_mem_splitAt hchars hzero).1

end WitnessReplay.Files

namespace WitnessReplay.Witness

open Files Text List

variable {p q : Path} {name : String}

theorem baseName_append (front back : List Char) :
    baseName (front ++ '/' :: back) = baseName back := by
  rw [baseName, baseName, reverse_append, reverse_cons, append_assoc, takeWhile_append]
  split
  · rename_i hall
    have hwhole := (List.takeWhile_prefix _).eq_of_length hall
    rw [hwhole]
    simp
  · rfl

/-- What positions call a file depends on the last part of its path only. -/
theorem fileIdentifier_eq (h : p.parts.getLast? = some name) :
    fileIdentifier p.text = fileIdentifier name := by
  obtain ⟨part, hpart, rfl⟩ := Option.map_eq_some_iff.1 (getLast?_map.symm.trans h)
  rw [fileIdentifier, fileIdentifier, String.toList_ofList]
  rcases eq_of_getLast?_splitAt hpart with htext | ⟨front, htext⟩
  · rw [htext]
  · rw [htext, baseName_append]

theorem fileIdentifier_of_same (h : p.same q) (hp : p.EndsInName) (hq : q.EndsInName) :
    fileIdentifier p.text = fileIdentifier q.text := by
  obtain ⟨name, hlast, hname⟩ := hp
  obtain ⟨name', hlast', hname'⟩ := hq
  have hcomponents := Path.filterMap_parts_of_same h
  obtain ⟨front, hparts⟩ := getLast?_eq_some_iff.1 hlast
  obtain ⟨front', hparts'⟩ := getLast?_eq_some_iff.1 hlast'
  have heq : name = name' := by
    have hends := congrArg List.getLast? hcomponents
    simpa [hparts, hparts', filterMap_cons, hname, hname'] using hends
  rw [fileIdentifier_eq hlast, fileIdentifier_eq hlast', heq]

end WitnessReplay.Witness
