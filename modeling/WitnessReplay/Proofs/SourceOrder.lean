import WitnessReplay.Proofs.TokenCover

/-!
# Findings in source order

The leaves of a forest are its tokens that are no groups. In a source they stand one behind the
other. What is found in a file is found at its leaves, and no more than one thing at each of
them; so the calls are in source order, and no name is called where it is declared.
-/

namespace WitnessReplay.Source

open Text List

variable {L : Lexicon} {source : List Char} {t : Token} {tokens : List Token}
    {depth start stop : Nat}

/-- A token that is no group, with the tokens of its own group around it: those in front of it,
the nearest first, and those behind it. -/
structure LeafAt where
  /-- The number of blocks around the token. -/
  depth : Nat
  before : List Token
  token : Token
  after : List Token

def leaves (depth : Nat) (before : List Token) : List Token → List LeafAt
  | [] => []
  | .group d children span line :: after =>
    leaves (d.inner depth) [] children ++ leaves depth (.group d children span line :: before) after
  | t :: after => ⟨depth, before, t, after⟩ :: leaves depth (t :: before) after

def Token.IsLeaf (t : Token) : Prop :=
  ∀ d children span line, t ≠ .group d children span line

theorem leaves_of_isLeaf (ht : t.IsLeaf) (depth : Nat) (before after : List Token) :
    leaves depth before (t :: after) =
      ⟨depth, before, t, after⟩ :: leaves depth (t :: before) after :=
  leaves.eq_3 depth before t after ht

theorem Token.isLeaf_or_group (t : Token) :
    t.IsLeaf ∨ ∃ d children span line, t = .group d children span line := by
  cases t with
  | group d children span line => exact .inr ⟨d, children, span, line, rfl⟩
  | _ =>
    refine .inl fun d children span line h => ?_
    cases h

def LeafAt.offset (l : LeafAt) : Nat :=
  l.token.span.start

theorem Stands.lt {text : List Char} {span : Span} {line : Nat} (h : Stands source text span line)
    (hne : text ≠ []) :
    span.start < span.stop := by
  obtain ⟨before, after, -, rfl, -⟩ := h
  obtain ⟨c, cs, rfl⟩ := exists_cons_of_ne_nil hne
  rw [byteLength_cons]
  have hpos := c.utf8Size_pos
  dsimp only
  omega

theorem Covers.lt (h : Covers L source t) : t.span.start < t.span.stop := by
  cases h with
  | word h hne hname => exact h.lt hne
  | literal h hne => exact h.lt hne
  | symbol h => exact h.lt (cons_ne_nil _ _)
  | group h hchildren => exact h.lt (by simp)

theorem Tiles.le (h : Tiles L source start tokens stop) : start ≤ stop := by
  induction tokens generalizing start with
  | nil =>
    cases h with
    | nil hgap => exact hgap.le
  | cons t ts ih =>
    cases h with
    | cons hgap ht hts => exact Nat.le_trans hgap.le (Nat.le_trans (Nat.le_of_lt ht.lt) (ih hts))

theorem Tiles.leaves_inOrder (h : Tiles L source start tokens stop) (depth : Nat)
    (before : List Token) :
    (∀ l ∈ leaves depth before tokens, start ≤ l.offset ∧ l.offset < stop) ∧
      (leaves depth before tokens).Pairwise (·.offset < ·.offset) := by
  fun_induction leaves depth before tokens generalizing start stop with
  | case1 => exact ⟨by simp, .nil⟩
  | case2 depth before d children span line after ihInside ihAfter =>
    cases h with
    | cons hgap ht hts =>
      have hlt := ht.lt
      cases ht with
      | group hstands hchildren =>
        obtain ⟨hinside, hinsideOrder⟩ := ihInside hchildren
        obtain ⟨hafter, hafterOrder⟩ := ihAfter hts
        have hle := hgap.le
        have hend := hts.le
        simp only [Token.span] at hlt hle hend hafter
        refine ⟨?_, pairwise_append.2 ⟨hinsideOrder, hafterOrder, ?_⟩⟩
        · intro l hl
          rcases mem_append.1 hl with hl | hl
          · have hbounds := hinside l hl
            omega
          · have hbounds := hafter l hl
            omega
        · intro l hl l' hl'
          have hbounds := hinside l hl
          have hbounds' := hafter l' hl'
          omega
  | case3 depth before t after hleaf ih =>
    cases h with
    | cons hgap ht hts =>
      have hlt := ht.lt
      obtain ⟨hafter, hafterOrder⟩ := ih hts
      have hle := hgap.le
      have hend := hts.le
      refine ⟨forall_mem_cons.2 ⟨?_, ?_⟩, pairwise_cons.2 ⟨?_, hafterOrder⟩⟩
      · exact ⟨hle, Nat.lt_of_lt_of_le hlt hend⟩
      · intro l hl
        have hbounds := hafter l hl
        omega
      · intro l hl
        exact Nat.lt_of_lt_of_le hlt (hafter l hl).1

/-- Where each leaf gives no more than one thing, which starts where the leaf does, the things
are in source order. -/
theorem pairwise_flatMap_leaves {α : Type} {ls : List LeafAt} {g : LeafAt → List α}
    {offset : α → Nat} (h : ls.Pairwise (·.offset < ·.offset)) (hone : ∀ l, (g l).length ≤ 1)
    (hoffset : ∀ l, ∀ a ∈ g l, offset a = l.offset) :
    (ls.flatMap g).Pairwise (offset · < offset ·) := by
  refine pairwise_flatMap.2 ⟨fun l _ => ?_, h.imp fun {l l'} hlt a ha a' ha' => ?_⟩
  · cases hg : g l with
    | nil => exact .nil
    | cons a rest =>
      have hlength := hone l
      rw [hg, length_cons] at hlength
      obtain rfl := length_eq_zero_iff.1 (Nat.le_zero.1 (Nat.le_of_succ_le_succ hlength))
      exact pairwise_singleton _ _
  · rw [hoffset l a ha, hoffset l' a' ha']
    exact hlt

theorem eq_of_offset_eq {ls : List LeafAt} (h : ls.Pairwise (·.offset < ·.offset)) {l l' : LeafAt}
    (hl : l ∈ ls) (hl' : l' ∈ ls) (heq : l.offset = l'.offset) : l = l' := by
  induction h with
  | nil => cases hl
  | cons hfirst _ ih =>
    rcases mem_cons.1 hl, mem_cons.1 hl' with ⟨rfl | hin, rfl | hin'⟩
    · rfl
    · exact absurd heq (Nat.ne_of_lt (hfirst l' hin'))
    · exact absurd heq (Nat.ne_of_gt (hfirst l hin))
    · exact ih hin hin'

theorem mem_leaves_append (ht : t.IsLeaf) (depth : Nat) (before front after : List Token) :
    ⟨depth, front.reverse ++ before, t, after⟩ ∈ leaves depth before (front ++ t :: after) := by
  induction front generalizing before with
  | nil =>
    rw [nil_append, leaves_of_isLeaf ht]
    exact mem_cons_self
  | cons u front ih =>
    rw [reverse_cons, append_assoc, cons_append]
    rcases u.isLeaf_or_group with hu | ⟨d, children, span, line, rfl⟩
    · rw [leaves_of_isLeaf hu]
      exact mem_cons_of_mem _ (ih (u :: before))
    · rw [leaves]
      exact mem_append_right _ (ih (_ :: before))

/-- Calls are found at leaves, and functions at leaves at which no call is found. -/
structure FoundAt (callsOf : LeafAt → List Call) (found : Findings) (ls : List LeafAt) : Prop where
  calls : found.calls = ls.flatMap callsOf
  functions : ∀ f ∈ found.functions, ∃ l ∈ ls, l.token.span = f.nameSpan ∧ callsOf l = []

namespace FoundAt

variable {callsOf : LeafAt → List Call} {found found' : Findings} {ls ls' : List LeafAt}

theorem nil : FoundAt callsOf {} [] :=
  ⟨rfl, fun _ hf => absurd hf not_mem_nil⟩

theorem append (h : FoundAt callsOf found ls) (h' : FoundAt callsOf found' ls') :
    FoundAt callsOf (found ++ found') (ls ++ ls') := by
  refine ⟨?_, ?_⟩
  · rw [flatMap_append, ← h.calls, ← h'.calls]
    rfl
  · intro f hf
    rcases mem_append.1 hf with hf | hf
    · obtain ⟨l, hl, hfound⟩ := h.functions f hf
      exact ⟨l, mem_append_left _ hl, hfound⟩
    · obtain ⟨l, hl, hfound⟩ := h'.functions f hf
      exact ⟨l, mem_append_right _ hl, hfound⟩

/-- What is found at leaves that are in order is in order, and no call has the name of a
function. -/
theorem inOrder (h : FoundAt callsOf found ls) (hls : ls.Pairwise (·.offset < ·.offset))
    (hone : ∀ l, (callsOf l).length ≤ 1) (hspan : ∀ l, ∀ c ∈ callsOf l, c.span = l.token.span) :
    found.calls.Pairwise (·.span.start < ·.span.start) ∧
      ∀ c ∈ found.calls, ∀ f ∈ found.functions, c.span ≠ f.nameSpan := by
  refine ⟨?_, ?_⟩
  · rw [h.calls]
    exact pairwise_flatMap_leaves hls hone fun l c hc => congrArg Span.start (hspan l c hc)
  · intro c hc f hf heq
    rw [h.calls] at hc
    obtain ⟨l, hl, hcall⟩ := mem_flatMap.1 hc
    obtain ⟨l', hl', hname, hnone⟩ := h.functions f hf
    -- the leaf of the call is the leaf of the function
    have hsame : l.token.span = l'.token.span := by rw [← hspan l c hcall, heq, hname]
    obtain rfl := eq_of_offset_eq hls hl hl' (congrArg Span.start hsame)
    rw [hnone] at hcall
    cases hcall

end FoundAt

namespace Java

def findingsOf (l : LeafAt) : Findings :=
  findingsAt l.depth l.before l.token l.after

theorem findings_eq (depth : Nat) (before tokens : List Token) :
    (findings depth before tokens).calls =
      (leaves depth before tokens).flatMap (findingsOf · |>.calls) ∧
      (findings depth before tokens).functions =
        (leaves depth before tokens).flatMap (findingsOf · |>.functions) := by
  fun_induction findings depth before tokens with
  | case1 =>
    rw [leaves]
    exact ⟨rfl, rfl⟩
  | case2 depth before d children span line after ihInside ihAfter =>
    rw [leaves, flatMap_append, flatMap_append, ← ihInside.1, ← ihInside.2, ← ihAfter.1,
      ← ihAfter.2]
    exact ⟨rfl, rfl⟩
  | case3 depth before t after hleaf ih =>
    rw [leaves_of_isLeaf hleaf, flatMap_cons, flatMap_cons, ← ih.1, ← ih.2]
    exact ⟨rfl, rfl⟩

/-- At a leaf there is a call, a function or nothing, and the leaf is its name. -/
structure AtMostOne (l : LeafAt) (found : Findings) : Prop where
  calls : found.calls.length ≤ 1
  functions : found.functions.length ≤ 1
  call : ∀ c ∈ found.calls, c.span = l.token.span
  function : ∀ f ∈ found.functions, f.nameSpan = l.token.span ∧ found.calls = []

theorem findingsOf_atMostOne (l : LeafAt) : AtMostOne l (findingsOf l) := by
  have hnone : AtMostOne l {} := ⟨by simp, by simp, by simp, by simp⟩
  unfold findingsOf findingsAt
  split
  · split
    · exact hnone
    · split
      split
      · exact hnone
      · split
        · exact ⟨by simp, by simp, by simp, by simp⟩
        · exact ⟨by simp, by simp, by simp, by simp⟩
  · exact hnone

theorem functions_inOrder {before tokens : List Token}
    (h : (leaves depth before tokens).Pairwise (·.offset < ·.offset)) :
    (findings depth before tokens).functions.Pairwise (·.nameSpan.start < ·.nameSpan.start) := by
  rw [(findings_eq depth before tokens).2]
  refine pairwise_flatMap_leaves h (fun l => (findingsOf_atMostOne l).functions) ?_
  intro l f hf
  exact congrArg Span.start ((findingsOf_atMostOne l).function f hf).1

theorem findings_foundAt (depth : Nat) (before tokens : List Token) :
    FoundAt (findingsOf · |>.calls) (findings depth before tokens)
    (leaves depth before tokens) := by
  obtain ⟨hcalls, hfunctions⟩ := findings_eq depth before tokens
  refine ⟨hcalls, fun f hf => ?_⟩
  rw [hfunctions] at hf
  obtain ⟨l, hl, hf⟩ := mem_flatMap.1 hf
  obtain ⟨hspan, hnone⟩ := (findingsOf_atMostOne l).function f hf
  exact ⟨l, hl, hspan.symm, hnone⟩

end Java

namespace Kotlin

def isDeclared (l : LeafAt) : Bool :=
  ((declarations l.depth 0 (l.before.reverse ++ l.token :: l.after)).map (·.1)).contains
    l.before.length

def callsOf (l : LeafAt) : List Call :=
  if isDeclared l then [] else (callAt? l.before l.token l.after).toList

theorem length_callsOf_le (l : LeafAt) : (callsOf l).length ≤ 1 := by
  unfold callsOf
  split
  · exact Nat.zero_le 1
  · cases callAt? l.before l.token l.after with
    | none => exact Nat.zero_le 1
    | some c => exact Nat.le_refl 1

theorem span_of_mem_callsOf {l : LeafAt} {c : Call} (hc : c ∈ callsOf l) :
    c.span = l.token.span := by
  unfold callsOf at hc
  split at hc
  · cases hc
  · have hcall := Option.mem_toList.1 hc
    unfold callAt? at hcall
    obtain ⟨text, -, hcall⟩ := Option.bind_eq_some_iff.1 hcall
    obtain ⟨next, -, hcall⟩ := Option.bind_eq_some_iff.1 hcall
    split at hcall
    · cases hcall
    · split at hcall
      · cases hcall
      · cases hcall
        rfl

theorem isDeclared_of_mem {depth : Nat} {tokens front after : List Token} {entry : Nat × Function}
    (h : entry ∈ declarations depth 0 tokens) (htokens : tokens = front ++ t :: after)
    (hindex : entry.1 = front.length) :
    isDeclared ⟨depth, front.reverse, t, after⟩ = true := by
  unfold isDeclared
  rw [reverse_reverse, ← htokens, length_reverse, ← hindex, contains_iff_mem]
  exact mem_map_of_mem h

theorem exists_leaf_of_declaration {depth : Nat} {tokens : List Token} {entry : Nat × Function}
    (h : entry ∈ declarations depth 0 tokens) :
    ∃ l ∈ leaves depth [] tokens, l.token.span = entry.2.nameSpan ∧ callsOf l = [] := by
  obtain ⟨front, params, line, rest, hindex, htokens⟩ := eq_append_of_mem_declarations h
  rw [Nat.zero_add] at hindex
  have hword : (Token.word entry.2.name entry.2.nameSpan entry.2.line).IsLeaf := by
    intro d children span line heq
    cases heq
  have hleaf := mem_leaves_append hword depth [] front
    (.group .paren params entry.2.paramsSpan line :: rest)
  rw [append_nil, ← htokens] at hleaf
  refine ⟨_, hleaf, rfl, ?_⟩
  rw [callsOf, if_pos (isDeclared_of_mem h htokens hindex)]

theorem foundAt_leaf (l : LeafAt) : FoundAt callsOf { calls := callsOf l } [l] := by
  refine ⟨?_, fun f hf => absurd hf not_mem_nil⟩
  rw [flatMap_singleton]

mutual

theorem findings_foundAt (depth : Nat) (tokens : List Token) :
    FoundAt callsOf (findings depth tokens) (leaves depth [] tokens) := by
  have hnested := nested_foundAt depth [] tokens
  rw [reverse_nil, nil_append] at hnested
  rw [findings]
  refine ⟨hnested.calls, fun f hf => ?_⟩
  rcases mem_append.1 hf with hf | hf
  · obtain ⟨entry, hentry, rfl⟩ := mem_map.1 hf
    exact exists_leaf_of_declaration hentry
  · exact hnested.functions f hf
termination_by (sizeOf tokens, 1)

theorem nested_foundAt (depth : Nat) (before tokens : List Token) :
    FoundAt callsOf (nested depth ((declarations depth 0 (before.reverse ++ tokens)).map (·.1))
    before tokens)
      (leaves depth before tokens) := by
  rw [nested.eq_def]
  cases tokens with
  | nil =>
    rw [leaves]
    exact .nil
  | cons t after =>
    have hafter := nested_foundAt depth (t :: before) after
    rw [reverse_cons, append_assoc, singleton_append] at hafter
    rcases t.isLeaf_or_group with ht | ⟨d, children, span, line, rfl⟩
    · rw [leaves_of_isLeaf ht]
      have hhere := (foundAt_leaf ⟨depth, before, t, after⟩).append hafter
      rw [callsOf, isDeclared] at hhere
      cases t with
      | group d children span line => exact absurd rfl (ht d children span line)
      | _ =>
        dsimp only at hhere ⊢
        split
        · rename_i hdeclared
          rw [if_pos hdeclared] at hhere
          exact hhere
        · rename_i hdeclared
          rw [if_neg hdeclared] at hhere
          exact hhere
    · rw [leaves]
      exact (findings_foundAt (d.inner depth) children).append hafter
termination_by (sizeOf tokens, 0)

end

end Kotlin

/-- In a file that is read, the calls stand one behind the other, whichever of them are
selected; so do the functions of a Java file. No call stands where a function has its name. -/
theorem parse_inOrder {language : Language} {source file : String} {outline : Outline}
    (h : parse language source file = .ok outline) :
    outline.calls.Pairwise (fun c c' => c.span.start < c'.span.start) ∧
      (∀ selects : Call → Bool, (outline.calls.filter selects).Pairwise fun c c' =>
      c.span.start < c'.span.start) ∧
      (language = .java → outline.functions.Pairwise fun f f' =>
      f.nameSpan.start < f'.nameSpan.start) ∧
      ∀ c ∈ outline.calls, ∀ f ∈ outline.functions, c.span ≠ f.nameSpan := by
  obtain ⟨n, tokens, -, hbody, hcalls, hfunctions⟩ := parse_eq_ok_iff.1 h
  have hleaves := ((body_tiles (lawful_lexicon language) hbody).leaves_inOrder 0 []).2
  have hfound : outline.calls.Pairwise (fun c c' => c.span.start < c'.span.start) ∧
      ∀ c ∈ outline.calls, ∀ f ∈ outline.functions, c.span ≠ f.nameSpan := by
    rw [hcalls, hfunctions]
    cases language with
    | java =>
      exact (Java.findings_foundAt 0 [] tokens).inOrder hleaves (fun l =>
        (Java.findingsOf_atMostOne l).calls)
        fun l => (Java.findingsOf_atMostOne l).call
    | kotlin =>
      exact (Kotlin.findings_foundAt 0 tokens).inOrder hleaves Kotlin.length_callsOf_le
        fun _ _ => Kotlin.span_of_mem_callsOf
  refine ⟨hfound.1, fun selects => hfound.1.filter selects, ?_, hfound.2⟩
  rintro rfl
  rw [hfunctions]
  exact Java.functions_inOrder hleaves

def nestedSource : String :=
  "void m() \x7b f(g()); h(); \x7d void k();"

def nestedTokens : List Token :=
  [.word "void" ⟨0, 4⟩ 1, .word "m" ⟨5, 6⟩ 1, .group .paren [] ⟨6, 8⟩ 1,
   .group .brace
    [.word "f" ⟨11, 12⟩ 1, .group .paren [.word "g" ⟨13, 14⟩ 1, .group .paren [] ⟨14, 16⟩ 1] ⟨12,
    17⟩ 1, .symbol ';' ⟨17, 18⟩ 1,
     .word "h" ⟨19, 20⟩ 1, .group .paren [] ⟨20, 22⟩ 1, .symbol ';' ⟨22, 23⟩ 1] ⟨9, 25⟩ 1,
   .word "void" ⟨26, 30⟩ 1, .word "k" ⟨31, 32⟩ 1, .group .paren [] ⟨32, 34⟩ 1,
   .symbol ';' ⟨34, 35⟩ 1]

def nestedOutline : Outline where
  calls := [⟨"f", none, 1, ⟨11, 12⟩⟩, ⟨"g", none, 1, ⟨13, 14⟩⟩, ⟨"h", none, 1, ⟨19, 20⟩⟩]
  functions := [⟨"m", 0, 1, ⟨5, 6⟩, ⟨6, 8⟩, 0, none⟩, ⟨"k", 0, 1, ⟨31, 32⟩, ⟨32, 34⟩, 0, none⟩]

theorem parse_nestedSource : parse .java nestedSource "A.java" = .ok nestedOutline := by
  have hfound : findings .java nestedTokens = ⟨nestedOutline.calls, nestedOutline.functions⟩ := by
    simp [nestedTokens, findings, Java.findings, Java.findingsAt, Token.word?, Token.children?,
      qualifierBefore, Java.keywords, Token.isSymbol, Token.isWord, Java.declaration?,
      Java.afterThrows, leadingReturn, qualifierText, Token.line, Token.span, countParams,
      countParams.go, Java.endsType, Java.expressionStarters]
    rfl
  exact parse_of_findings (by with_unfolding_all rfl) hfound "A.java"

theorem parse_inOrder_nestedSource :
    parse .java nestedSource "A.java" = .ok nestedOutline ∧
      nestedOutline.calls.Pairwise (fun c c' => c.span.start < c'.span.start) ∧
      nestedOutline.functions.Pairwise (fun f f' => f.nameSpan.start < f'.nameSpan.start) ∧
      ∀ c ∈ nestedOutline.calls, ∀ f ∈ nestedOutline.functions, c.span ≠ f.nameSpan := by
  obtain ⟨hcalls, -, hfunctions, hapart⟩ := parse_inOrder parse_nestedSource
  exact ⟨parse_nestedSource, hcalls, hfunctions rfl, hapart⟩

end WitnessReplay.Source
