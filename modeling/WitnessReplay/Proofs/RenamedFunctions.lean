import Mathlib.Data.List.Forall2
import WitnessReplay.Benchmark.EntryPoint
import WitnessReplay.Proofs.FunctionSearch

/-!
# The functions of a renamed program

The name and the parameter list of the entry point stand side by side in a forest, outside all
blocks. If the name is replaced by another one, and the list by one that is not empty, then the
forest has the same calls, and its functions are the same but for the name and the number of
parameters of the entry point.
-/

namespace WitnessReplay.Source

open List

namespace Kotlin

open Text Benchmark

/-! ### Parameter lists -/

def argumentTokens : List Token :=
  [.word "args" default 0, .symbol ':' default 0, .word "Array" default 0, .symbol '<' default 0,
    .word "String" default 0,
    .symbol '>' default 0]

def renamedParams (children : List Token) : List Token :=
  if countParams children = 0 then argumentTokens else children

section Parameters

variable {ts children : List Token}

theorem pos_go_filled (angle : Nat) (ts : List Token) : 0 < countParams.go angle true ts := by
  induction ts generalizing angle with
  | nil => simp [countParams.go]
  | cons t ts ih =>
    rw [countParams.go]
    split
    · exact ih _
    · split
      · exact ih _
      · split
        · rw [if_pos rfl]
          omega
        · exact ih _

theorem forall_comma_of_countParams (h : countParams ts = 0) : ∀ t ∈ ts, t.isSymbol ',' = true := by
  unfold countParams at h
  induction ts with
  | nil => exact fun t ht => absurd ht not_mem_nil
  | cons t ts ih =>
    have hpos (angle : Nat) := pos_go_filled angle ts
    rw [countParams.go] at h
    split at h
    · exact absurd h (hpos _).ne'
    · split at h
      · exact absurd h (hpos _).ne'
      · split at h
        next hcomma =>
          rw [Bool.and_eq_true] at hcomma
          exact forall_mem_cons.2 ⟨hcomma.1, ih (by simpa using h)⟩
        · exact absurd h (hpos _).ne'

theorem declarations_of_commas (h : ∀ t ∈ ts, t.isSymbol ',' = true) (depth i : Nat) :
    declarations depth i ts = [] := by
  induction ts generalizing i with
  | nil => rfl
  | cons t ts ih =>
    obtain ⟨ht, hts⟩ := forall_mem_cons.1 h
    cases t with
    | symbol => exact ih hts (i + 1)
    | _ => cases ht

theorem nested_of_commas (h : ∀ t ∈ ts, t.isSymbol ',' = true) (depth : Nat) (declared : List Nat)
    (before : List Token) :
    nested depth declared before ts = {} := by
  induction ts generalizing before with
  | nil => rw [nested]
  | cons t ts ih =>
    obtain ⟨ht, hts⟩ := forall_mem_cons.1 h
    cases t with
    | symbol c span line =>
      rw [nested, ih hts]
      · split <;> rfl
      · intro _ _ _ _ heq
        cases heq
    | _ => cases ht

theorem findings_argumentTokens : findings 0 argumentTokens = {} := by
  simp [findings, nested, argumentTokens, declarations, callAt?, Token.isWord, Token.word?,
    Token.isGroup, Token.children?]
  rfl

theorem findings_renamedParams (children : List Token) :
    findings 0 (renamedParams children) = findings 0 children := by
  unfold renamedParams
  split
  next h =>
    have hcommas := forall_comma_of_countParams h
    rw [findings_argumentTokens, findings, declarations_of_commas hcommas, nested_of_commas hcommas]
    rfl
  · rfl

theorem countParams_renamedParams (children : List Token) :
    countParams (renamedParams children) = max (countParams children) 1 := by
  unfold renamedParams
  split
  next h =>
    rw [h]
    decide
  · omega

end Parameters

/-! ### One function with another name -/

def renamed (f : Function) : Function :=
  { f with name := renamedMain, paramCount := max f.paramCount 1 }

theorem isMain_renamed (f : Function) : isMain (renamed f) = false := by
  simp [isMain, renamed, renamedMain]

/-- Two lists of functions that differ in names and parameters of entry points, and do so
somewhere. -/
structure RenamesSome (fs gs : List Function) : Prop where
  each : List.Forall₂ (fun f g => g = f ∨ isMain f = true ∧ g = renamed f) fs gs
  fewer : gs.countP isMain < fs.countP isMain

namespace RenamesSome

variable {fs gs : List Function}

theorem append_left (h : RenamesSome fs gs) (es : List Function) :
    RenamesSome (es ++ fs) (es ++ gs) where
  each := rel_append (List.forall₂_same.2 fun _ _ => .inl rfl) h.each
  fewer := by
    rw [countP_append, countP_append]
    exact Nat.add_lt_add_left h.fewer _

theorem append_right (h : RenamesSome fs gs) (es : List Function) :
    RenamesSome (fs ++ es) (gs ++ es) where
  each := rel_append h.each (List.forall₂_same.2 fun _ _ => .inl rfl)
  fewer := by
    rw [countP_append, countP_append]
    exact Nat.add_lt_add_right h.fewer _

/-- If there is one entry point only, it is renamed and nothing else is. -/
theorem eq_map (h : RenamesSome fs gs) (hone : fs.countP isMain = 1) :
    gs = fs.map (fun f => if isMain f then renamed f else f) ∧ gs.filter isMain = [] := by
  have hnone : gs.countP isMain = 0 := by
    have hfewer := h.fewer
    omega
  have hall : ∀ g ∈ gs, ¬isMain g = true := countP_eq_zero.1 hnone
  refine ⟨?_, filter_eq_nil_iff.2 hall⟩
  have heach := h.each
  clear h hone hnone
  induction heach with
  | nil => rfl
  | @cons f g fs gs hfg _ ih =>
    obtain ⟨hg, hgs⟩ := forall_mem_cons.1 hall
    rw [map_cons, ih hgs]
    congr 1
    obtain rfl | ⟨hmain, rfl⟩ := hfg
    · rw [if_neg hg]
    · rw [if_pos hmain]

end RenamesSome

/-! ### The entry point among the declarations -/

/-- The name of an entry point, and its parameter list right behind it. -/
structure MainTokens where
  span : Span
  line : Nat
  children : List Token
  listSpan : Span
  listLine : Nat

namespace MainTokens

def tokens (m : MainTokens) : List Token :=
  [.word "main" m.span m.line, .group .paren m.children m.listSpan m.listLine]

def renamedTokens (m : MainTokens) : List Token :=
  [.word renamedMain m.span m.line, .group .paren (renamedParams m.children) m.listSpan m.listLine]

/-- The function that they declare at top level, given the tokens behind them. -/
def function (m : MainTokens) (post : List Token) : Function where
  name := "main"
  paramCount := countParams m.children
  line := m.line
  nameSpan := m.span
  paramsSpan := m.listSpan
  depth := 0
  firstReturnLine := firstReturnLine post

end MainTokens

/-- Two declarations that are the same, unless they declare the name at the index `k`; then the
one is the entry point, and the other one is what it is renamed to. -/
structure RenamesAt (k : Nat) (entry entry' : Nat × Function) : Prop where
  index : entry'.1 = entry.1
  there : entry.1 = k → isMain entry.2 = true ∧ entry'.2 = renamed entry.2
  elsewhere : entry.1 ≠ k → entry'.2 = entry.2

theorem renamesAt_of_ne {k : Nat} {entry : Nat × Function} (h : entry.1 ≠ k) :
    RenamesAt k entry entry :=
  ⟨rfl, fun heq => absurd heq h, fun _ => rfl⟩

section Main

variable {m : MainTokens} {pre post : List Token} {i : Nat}

theorem sameReturn_tokens (m : MainTokens) (post : List Token) :
    SameReturn (m.tokens ++ post) (m.renamedTokens ++ post) := by
  refine ⟨rfl, ?_⟩
  have hmain : (Token.word "main" m.span m.line).isWordIn bodyStops = false := rfl
  have hrenamed : (Token.word renamedMain m.span m.line).isWordIn bodyStops = false := rfl
  simp only [MainTokens.tokens, MainTokens.renamedTokens, cons_append, firstReturnLine,
    hmain, hrenamed]
  rfl

theorem declared?_tokens (hpre : ∀ t ∈ pre, endsSearch t = false) (m : MainTokens)
    (post : List Token) :
    declared? 0 (pre ++ (m.tokens ++ post)) = some (pre.length + 1, m.function post) ∧
      declared? 0 (pre ++ (m.renamedTokens ++ post)) =
        some (pre.length + 1, renamed (m.function post)) := by
  constructor
  · rw [declared?_eq, paramsOf?_append hpre]
    simp [MainTokens.tokens, paramsOf?, functionOf?, Token.isGroup, Token.isSymbol,
      Token.children?, Token.word?, MainTokens.function, Token.span, Token.line]
  · rw [declared?_eq, paramsOf?_append hpre]
    simp [MainTokens.renamedTokens, paramsOf?, functionOf?, Token.isGroup, Token.isSymbol,
      Token.children?, Token.word?,
      MainTokens.function, renamed, Token.span, Token.line, countParams_renamedParams]

/-- What a `fun` in front of the entry point declares, before and after the renaming. -/
theorem renamesAt_declared? (pre post : List Token) (m : MainTokens) (i : Nat) :
    List.Forall₂ (RenamesAt (i + (pre.length + 1)))
      ((declared? 0 (pre ++ (m.tokens ++ post))).map fun (n, f) => (i + n, f)).toList
      ((declared? 0 (pre ++ (m.renamedTokens ++ post))).map fun (n, f) => (i + n, f)).toList := by
  by_cases hpre : ∀ t ∈ pre, endsSearch t = false
  · obtain ⟨hmain, hrenamed⟩ := declared?_tokens hpre m post
    rw [hmain, hrenamed]
    exact .cons ⟨rfl, fun _ => ⟨rfl, rfl⟩, fun hne => absurd rfl hne⟩ .nil
  · obtain ⟨heq, hindex⟩ := declared?_of_endsSearch (sameReturn_tokens m post) hpre 0
    rw [← heq]
    cases hsome : declared? 0 (pre ++ (m.tokens ++ post)) with
    | none => exact .nil
    | some found =>
      have hlt := hindex found.1 found.2 hsome
      exact .cons (renamesAt_of_ne (by simp only; omega)) .nil

theorem renamesAt_declarations (pre post : List Token) (m : MainTokens) (i : Nat) :
    List.Forall₂ (RenamesAt (i + pre.length)) (declarations 0 i (pre ++ (m.tokens ++ post)))
      (declarations 0 i (pre ++ (m.renamedTokens ++ post))) := by
  induction pre generalizing i with
  | nil =>
    have hpost (ts : List Token) (h : ts = m.tokens ∨ ts = m.renamedTokens) :
        declarations 0 i (ts ++ post) = declarations 0 (i + 2) post := by
      obtain rfl | rfl := h <;> rfl
    rw [nil_append, nil_append, hpost _ (.inl rfl), hpost _ (.inr rfl)]
    refine List.forall₂_same.2 fun entry hentry => renamesAt_of_ne ?_
    have hle := le_of_mem_declarations hentry
    simp only [length_nil]
    omega
  | cons t pre ih =>
    rw [cons_append, cons_append, declarations_cons, declarations_cons]
    refine rel_append ?_ ?_
    · cases t.isWord "fun" with
      | true => exact renamesAt_declared? pre post m i
      | false => exact .nil
    · rw [length_cons, Nat.add_comm pre.length, ← Nat.add_assoc]
      exact ih (i + 1)

theorem mem_declarations {b between : List Token} {t : Token} (ht : t.isWord "fun" = true)
    (hbetween : ∀ u ∈ between, endsSearch u = false) (m : MainTokens) (post : List Token)
    (i : Nat) :
    (i + (b ++ t :: between).length, m.function post) ∈
    declarations 0 i (b ++ t :: between ++ (m.tokens ++ post)) := by
  induction b generalizing i with
  | nil =>
    rw [nil_append, cons_append, declarations_cons, ht, if_pos rfl,
      (declared?_tokens hbetween m post).1]
    simp
  | cons u b ih =>
    have hindex : i + (u :: b ++ t :: between).length = i + 1 + (b ++ t :: between).length := by
      simp only [cons_append, length_cons]
      omega
    rw [hindex, cons_append, cons_append, declarations_cons]
    exact mem_append_right _ (ih (i + 1))

theorem countP_le_of_each {fs gs : List Function}
    (h : List.Forall₂ (fun f g => g = f ∨ isMain f = true ∧ g = renamed f) fs gs) :
    gs.countP isMain ≤ fs.countP isMain := by
  induction h with
  | nil => exact Nat.le_refl 0
  | @cons f g fs gs hfg _ ih =>
    rw [countP_cons, countP_cons]
    obtain rfl | ⟨-, rfl⟩ := hfg
    · exact Nat.add_le_add_right ih _
    · rw [isMain_renamed]
      exact Nat.le_add_right_of_le ih

theorem each_of_renamesAt {k : Nat} {es es' : List (Nat × Function)}
    (h : List.Forall₂ (RenamesAt k) es es') :
    List.Forall₂ (fun f g => g = f ∨ isMain f = true ∧
    g = renamed f) (es.map (·.2)) (es'.map (·.2)) := by
  rw [List.forall₂_map_left_iff, List.forall₂_map_right_iff]
  refine h.imp fun entry entry' hentry => ?_
  by_cases hk : entry.1 = k
  · exact .inr (hentry.there hk)
  · exact .inl (hentry.elsewhere hk)

theorem index_of_renamesAt {k : Nat} {es es' : List (Nat × Function)}
    (h : List.Forall₂ (RenamesAt k) es es') :
    es'.map (·.1) = es.map (·.1) := by
  induction h with
  | nil => rfl
  | cons hentry _ ih => rw [map_cons, map_cons, ih, hentry.index]

theorem renamesSome_of_renamesAt {k : Nat} {es es' : List (Nat × Function)} {f : Function}
    (h : List.Forall₂ (RenamesAt k) es es')
    (hmem : (k, f) ∈ es) : RenamesSome (es.map (·.2)) (es'.map (·.2)) := by
  refine ⟨each_of_renamesAt h, ?_⟩
  induction h with
  | nil => cases hmem
  | @cons entry entry' es es' hentry hes ih =>
    rw [map_cons, map_cons, countP_cons, countP_cons]
    obtain heq | hmem := mem_cons.1 hmem
    · obtain ⟨hmain, hrenamed⟩ := hentry.there (heq ▸ rfl)
      rw [hmain, hrenamed, isMain_renamed]
      exact Nat.lt_succ_of_le (countP_le_of_each (each_of_renamesAt hes))
    · have hhead := countP_le_of_each (each_of_renamesAt (.cons hentry .nil))
      simp only [map_cons, map_nil, countP_cons, countP_nil, Nat.zero_add] at hhead
      exact Nat.add_lt_add_of_lt_of_le (ih hmem) hhead

end Main

/-! ### Renaming in a forest -/

/-- A forest with the entry point `main`, and the forest in which it is renamed. Only
parentheses and brackets may be around it. -/
inductive Renaming (main : Function) : List Token → List Token → Prop where
  | here {before between post : List Token} {t : Token} {m : MainTokens}
      (ht : t.isWord "fun" = true)
      (hbetween : ∀ u ∈ between, endsSearch u = false) (hmain : m.function post = main) :
      Renaming main (before ++ t :: between ++ (m.tokens ++ post))
      (before ++ t :: between ++ (m.renamedTokens ++ post))
  | inside {pre post children children' : List Token} {d : Delimiter} {span : Span} {line : Nat}
      (hd : d ≠ .brace)
      (h : Renaming main children children') :
      Renaming main (pre ++ .group d children span line :: post)
      (pre ++ .group d children' span line :: post)

section Renaming

variable {main : Function} {ts us : List Token}

theorem countParams_go_append {rest rest' : List Token}
    (h : ∀ angle filled, countParams.go angle filled rest = countParams.go angle filled rest')
    (pre : List Token) (angle : Nat) (filled : Bool) : countParams.go angle filled (pre ++ rest) =
      countParams.go angle filled (pre ++ rest') := by
  induction pre generalizing angle filled with
  | nil => exact h angle filled
  | cons t pre ih => simp only [cons_append, countParams.go, ih]

namespace Renaming

theorem countParams_eq (h : Renaming main ts us) : countParams us = countParams ts := by
  cases h with
  | here =>
    apply countParams_go_append
    exact fun _ _ => rfl
  | inside =>
    apply countParams_go_append
    exact fun _ _ => rfl

/-- The items of the two forests differ in those of the name and of the parameter list, and a
`fun` is in front of them. Other tokens may stand in their place too. -/
theorem exists_items (h : Renaming main ts us) :
    ∃ (front back : List Item) (m : MainTokens) (post : List Token), m.function post = main ∧
      Token.itemsAll ts = front ++ (Token.itemsAll m.tokens ++ back) ∧
      Token.itemsAll us = front ++ (Token.itemsAll m.renamedTokens ++ back) ∧
      (∀ xs, ∃ vs, Token.itemsAll vs = front ++ (Token.itemsAll xs ++ back)) ∧
      ∃ span line, .leaf (.word "fun" span line) ∈ front := by
  induction h with
  | @here before between post t m ht hbetween hmain =>
    have hitems (xs : List Token) : Token.itemsAll (before ++ t :: between ++ (xs ++ post)) =
        Token.itemsAll (before ++ t :: between) ++ (Token.itemsAll xs ++ Token.itemsAll post) := by
      rw [Token.itemsAll_append, Token.itemsAll_append xs]
    refine ⟨_, _, m, post, hmain, hitems _, hitems _, fun xs => ⟨_, hitems xs⟩, t.span, t.line, ?_⟩
    have hword := Token.word?_eq_some (by simpa [Token.isWord] using ht)
    rw [Token.itemsAll_append, Token.itemsAll, hword]
    simp [Token.items, Token.span, Token.line]
  | @inside pre post children children' d span line hd _ ih =>
    obtain ⟨front, back, m, post', hmain, hts, hus, hother, span', line', hfun⟩ := ih
    have hitems {children : List Token} {between : List Item}
        (h : Token.itemsAll children = front ++ (between ++ back)) :
          Token.itemsAll (pre ++ .group d children span line :: post) =
            Token.itemsAll pre ++ .opening d span.start line :: front ++
            (between ++ (back ++ .closing d span.stop :: Token.itemsAll post)) := by
      rw [Token.itemsAll_append, Token.itemsAll, Token.items, h]
      simp
    refine ⟨_, _, m, post', hmain, hitems hts, hitems hus, fun xs => ?_, span', line', ?_⟩
    · obtain ⟨vs, hvs⟩ := hother xs
      exact ⟨_, hitems hvs⟩
    · exact mem_append_right _ (mem_cons_of_mem _ hfun)

/-- The name of the entry point is no call, and what is behind it does not see the difference. -/
theorem nested_tokens {declared : List Nat} {before : List Token} (m : MainTokens)
    (post : List Token) (hdeclared : before.length ∈ declared) :
    nested 0 declared before (m.renamedTokens ++ post) =
      nested 0 declared before (m.tokens ++ post) := by
  have hname (text : String) (after : List Token) :
      nested 0 declared before (.word text m.span m.line :: after) =
        {} ++ nested 0 declared (.word text m.span m.line :: before) after := by
    rw [nested, if_pos (contains_iff_mem.2 hdeclared)]
    intro _ _ _ _ heq
    cases heq
  simp only [MainTokens.tokens, MainTokens.renamedTokens, cons_append, nil_append]
  rw [hname, hname, nested, nested]
  refine congrArg (({} : Findings) ++ ·) (congrArg₂ (· ++ ·) (findings_renamedParams m.children) ?_)
  have hlength : (Token.word renamedMain m.span m.line :: before).length =
      (Token.word "main" m.span m.line :: before).length := rfl
  exact nested_group hlength 0 declared [] post

theorem nested_inside {d : Delimiter} (hd : d ≠ .brace) (children children' : List Token)
    (declared : List Nat) (pre post : List Token) (span : Span) (line : Nat) :
    ∃ found found', nested 0 declared [] (pre ++ .group d children span line :: post) =
      found ++ (findings 0 children ++ found') ∧
      nested 0 declared [] (pre ++ .group d children' span line :: post) =
        found ++ (findings 0 children' ++ found') := by
  have hsame : (Token.group d children span line :: post).head?.any (·.isGroup .paren) =
      (Token.group d children' span line :: post).head?.any (·.isGroup .paren) := by
    cases d <;> rfl
  have hinner : d.inner 0 = 0 := if_neg hd
  have hbehind : nested 0 declared (.group d children' span line :: (pre.reverse ++ [])) post =
      nested 0 declared (.group d children span line :: (pre.reverse ++ [])) post :=
    nested_group (Eq.refl (pre.reverse ++ []).length) 0 declared [] post
  obtain ⟨found, hleft, hright⟩ := nested_append hsame 0 declared [] pre
  rw [nested, hinner] at hleft hright
  rw [hbehind] at hright
  exact ⟨found, _, hleft, hright⟩

/-- **Renaming the entry point of a forest** keeps its calls, and all its functions but for the
entry point. -/
theorem findings_eq (h : Renaming main ts us) :
    (findings 0 us).calls = (findings 0 ts).calls ∧
    RenamesSome (findings 0 ts).functions (findings 0 us).functions := by
  induction h with
  | @here before between post t m ht hbetween hmain =>
    have hmem := mem_declarations (b := before) ht hbetween m post 0
    generalize before ++ t :: between = pre at hmem
    have hrenames := renamesAt_declarations pre post m 0
    have hdeclared := mem_map_of_mem (f := (·.1)) hmem
    have hsame : (m.tokens ++ post).head?.any (·.isGroup .paren) =
        (m.renamedTokens ++ post).head?.any (·.isGroup .paren) := rfl
    obtain ⟨found, hleft, hright⟩ :=
      nested_append hsame 0 ((declarations 0 0 (pre ++ (m.tokens ++ post))).map (·.1)) [] pre
    rw [nested_tokens m post (by simpa using hdeclared), ← hleft] at hright
    rw [findings, findings, index_of_renamesAt hrenames, hright]
    exact ⟨rfl, (renamesSome_of_renamesAt hrenames hmem).append_right _⟩
  | @inside pre post children children' d span line hd h ih =>
    obtain ⟨hcalls, hfunctions⟩ := ih
    obtain ⟨found, found', hleft, hright⟩ := nested_inside hd children children'
      ((declarations 0 0 (pre ++ .group d children span line :: post)).map (·.1)) pre post span line
    rw [findings, findings, ← declarations_group hd h.countParams_eq, hleft, hright]
    constructor
    · simp only [Findings.calls_append, hcalls]
    · simp only [Findings.functions_append]
      exact ((hfunctions.append_right _).append_left _).append_left _

end Renaming

theorem exists_mainTokens {n : Nat} (h : declared? 0 ts = some (n, main))
    (hmain : main.name = "main") :
    ∃ (between post : List Token) (m : MainTokens), ts = between ++ (m.tokens ++ post) ∧
      (∀ u ∈ between, endsSearch u = false) ∧
        m.function post = main := by
  rw [declared?_eq] at h
  obtain ⟨⟨front, params, rest⟩, hparams, hentry⟩ := Option.bind_eq_some_iff.1 h
  obtain ⟨name, hlast, hname⟩ := Option.bind_eq_some_iff.1 hentry
  obtain ⟨text, htext, heq⟩ := Option.map_eq_some_iff.1 hname
  have hfront := front_of_paramsOf? hparams
  obtain ⟨rfl, hgroup⟩ := paramsOf?_eq_some hparams
  obtain ⟨children, hchildren⟩ := Option.isSome_iff_exists.1 hgroup
  obtain ⟨between, rfl⟩ := getLast?_eq_some_iff.1 hlast
  have hword := Token.word?_eq_some htext
  have hlist := Token.children?_eq_some hchildren
  cases heq
  obtain rfl : text = "main" := hmain
  refine ⟨between, rest, ⟨name.span, name.line, children, params.span, params.line⟩, ?_,
    fun u hu => hfront u (mem_append_left _ hu), ?_⟩
  · rw [MainTokens.tokens, ← hword, ← hlist]
    simp
  · simp [MainTokens.function, hchildren]

theorem exists_renaming (hmem : main ∈ (findings 0 ts).functions) (hmain : isMain main = true) :
    ∃ us, Renaming main ts us := by
  simp only [isMain, Function.isTopLevel, Bool.and_eq_true, beq_iff_eq, decide_eq_true_eq] at hmain
  induction hsize : sizeOf ts using Nat.strongRecOn generalizing ts with
  | _ size ih =>
    subst hsize
    obtain ⟨before, t, after, n, rfl, ht, hdeclared⟩ | ⟨pre, d, children, span, line, post, rfl,
      hf⟩ := exists_of_mem_findings hmem
    · obtain ⟨between, post, m, rfl, hbetween, hm⟩ := exists_mainTokens hdeclared hmain.2
      refine ⟨before ++ t :: between ++ (m.renamedTokens ++ post), ?_⟩
      have hrenaming : Renaming main (before ++ t :: between ++ (m.tokens ++ post)) _ :=
        .here ht hbetween hm
      rwa [append_assoc] at hrenaming
    · have hd : d ≠ .brace := by
        rintro rfl
        have hdepth : 1 ≤ main.depth := le_depth_of_mem hf
        omega
      rw [Delimiter.inner, if_neg hd] at hf
      obtain ⟨children', hchildren⟩ := ih _ sizeOf_children_lt hf rfl
      exact ⟨_, .inside hd hchildren⟩

end Renaming

end Kotlin

end WitnessReplay.Source
