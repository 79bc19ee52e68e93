import WitnessReplay.Proofs.Headers
import WitnessReplay.Proofs.PathParts

/-!
# The names in imports

The path of an import in a Java file is made of names with points between them. A name has no
points and no slashes, so the parts of the path are these names again, and each can stand
between the slashes of a file's path.
-/

namespace WitnessReplay.Source

open Text

section Yields

variable {α β : Type} {P : α → Prop} {Q : β → Prop} {x : Scanner α} {f : α → Scanner β}

def Yields (P : α → Prop) (x : Scanner α) : Prop :=
  ∀ p s a n, x p s = some (a, n) → P a

theorem Yields.bind (hx : Yields P x) (hf : ∀ a, P a → Yields Q (f a)) : Yields Q (x >>= f) := by
  intro p s b n h
  obtain ⟨a, m, k, hfirst, hrest, -⟩ := Scan.bind_eq_some_iff.1 h
  exact hf a (hx p s a m hfirst) _ _ b k hrest

theorem yields_then (hf : ∀ a, Yields Q (f a)) : Yields Q (x >>= f) := by
  have hx : Yields (fun _ => True) x := fun _ _ _ _ _ => trivial
  exact hx.bind fun a _ => hf a

theorem yields_pure {a : α} (h : P a) : Yields P (pure a : Scanner α) := by
  intro p s b n hb
  cases hb
  exact h

theorem Yields.many (hx : Yields P x) : Yields (fun as => ∀ a ∈ as, P a) (Scanner.many x) := by
  have hgo (p : Place) (s : List Char) : ∀ a ∈ (Scanner.many.go x p s).1, P a := by
    fun_induction Scanner.many.go x p s with
    | case1 => simp
    | case2 => simp
    | case3 => simp
    | case4 p c r a n hfirst hn as m hrest ih =>
      rw [hrest] at ih
      exact List.forall_mem_cons.2 ⟨hx p _ a n hfirst, ih⟩
  intro p s as n h
  have hvalue : Scanner.many.go x p s = (as, n) := Option.some.inj h
  have hall := hgo p s
  rw [hvalue] at hall
  exact hall

end Yields

def IsPlainName (name : String) : Prop :=
  name ≠ "" ∧ '.' ∉ name.toList ∧ '/' ∉ name.toList

theorem split_intercalate {names : List String} (hne : names ≠ [])
    (hnames : ∀ name ∈ names, '.' ∉ name.toList) :
    split '.' (".".intercalate names) = names := by
  induction names with
  | nil => exact absurd rfl hne
  | cons name rest ih =>
    obtain ⟨hname, hrest⟩ := List.forall_mem_cons.1 hnames
    cases rest with
    | nil => simp [split, splitAt_of_notMem hname]
    | cons next rest =>
      have htail := ih (by simp) hrest
      rw [split] at htail ⊢
      rw [String.intercalate_cons_cons, String.toList_append, String.toList_append,
        List.append_assoc]
      show (splitAt '.' (name.toList ++ '.' :: (".".intercalate (next :: rest)).toList)).map
        String.ofList = _
      rw [splitAt_append, List.map_append, htail, splitAt_of_notMem hname]
      simp

namespace Java

theorem isPlainName_of_word {s : List Char} {n : Nat} (h : word s = some n) :
    IsPlainName (Lexicon.bareName (s.take n)) := by
  unfold word at h
  split at h
  · rename_i c r
    split at h
    · rename_i hc
      cases h
      have htake : (c :: r).take ((r.takeWhile isNameChar).length + 1) =
          c :: r.takeWhile isNameChar := by
        rw [List.take_succ_cons, ← List.prefix_iff_eq_take.1 (List.takeWhile_prefix _)]
      have hfilter (x : Char) (hx : x ∈ (c :: r.takeWhile isNameChar).filter (· != '\x60')) :
          (isIdentifierStart x || x == '_' || x == '$') = true ∨ isNameChar x = true := by
        rcases List.mem_cons.1 (List.mem_filter.1 hx).1 with rfl | hx
        · exact .inl hc
        · exact .inr (List.mem_takeWhile_imp hx)
      have hfirst : c ≠ '\x60' := by
        rintro rfl
        exact absurd hc (by decide)
      rw [htake, Lexicon.bareName, IsPlainName, String.toList_ofList]
      refine ⟨?_, ?_, ?_⟩
      · simp [hfirst]
      · exact fun hpoint => absurd (hfilter _ hpoint) (by decide)
      · exact fun hslash => absurd (hfilter _ hslash) (by decide)
    · cases h
  · cases h

theorem yields_name : Yields IsPlainName (Header.name .java) := by
  intro p s name n h
  obtain ⟨m, hm, heq⟩ := Option.map_eq_some_iff.1 h
  cases heq
  exact isPlainName_of_word hm

theorem yields_qualifiedName :
    Yields (fun names => names ≠ [] ∧
    ∀ name ∈ names, IsPlainName name) (Header.qualifiedName .java) := by
  refine yields_name.bind fun first hfirst => ?_
  have hother : Yields IsPlainName
      (do Header.blanks .java; Scanner.text "."; Header.blanks .java; Header.name .java) :=
    yields_then fun _ => yields_then fun _ => yields_then fun _ => yields_name
  exact hother.many.bind fun others hothers =>
    yields_pure ⟨by simp, List.forall_mem_cons.2 ⟨hfirst, hothers⟩⟩

theorem yields_importDecl :
    Yields (fun i => ∀ segment ∈ i.segments, IsPlainName segment) importDecl := by
  refine yields_then fun start => yields_then fun _ => yields_then fun _ =>
    yields_then fun isStatic => ?_
  refine yields_then fun _ => yields_qualifiedName.bind fun path hpath => ?_
  refine yields_then fun _ => yields_then fun everything => yields_then fun _ =>
    yields_then fun _ => yields_pure ?_
  rw [Import.segments, split_intercalate hpath.1 fun name hname => (hpath.2 name hname).2.1]
  exact hpath.2

theorem yields_header :
    Yields (fun found => ∀ i ∈ found.2, ∀ segment ∈ i.segments, IsPlainName segment) header := by
  refine yields_then fun _ => yields_then fun package => yields_then fun _ => ?_
  have hone : Yields (fun i => ∀ segment ∈ i.segments, IsPlainName segment)
      (do let i ← importDecl; Header.blanks .java; return i) :=
    yields_importDecl.bind fun i hi => yields_then fun _ => yields_pure hi
  exact hone.many.bind fun imports himports => yields_pure himports

theorem isPlainName_of_import {source : String} {outline : Outline} {i : Import}
    (h : outline? .java source = some outline)
    (hi : i ∈ outline.imports) : ∀ segment ∈ i.segments, IsPlainName segment := by
  obtain ⟨⟨⟨package, imports⟩, n⟩, hheader, h⟩ := Option.bind_eq_some_iff.1 h
  obtain ⟨tokens, -, h⟩ := Option.bind_eq_some_iff.1 h
  cases h
  exact yields_header (.start source.toList) source.toList (package, imports) n hheader i hi

end Java

end WitnessReplay.Source
