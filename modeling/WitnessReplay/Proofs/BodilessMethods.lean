import WitnessReplay.Proofs.QualifierChain
import WitnessReplay.Proofs.SourceOrder

/-!
# Methods without a body

A method without a body is written as a type, a name, a parameter list, perhaps a `throws`
clause, and a semicolon. It is found as a declared method unless its type ends with type
arguments: their closing bracket in front of the name is not taken for the end of a type, and
then the declaration is found as a call.
-/

namespace WitnessReplay.Source

open Text List

/-- Wherever a token stands among others in a forest, it is a leaf with these around it, unless
it is a group. -/
theorem exists_leaf_of_occurs {t : Token} {front back tokens : List Token} (ht : t.IsLeaf)
    (h : Occurs (front ++ t :: back) tokens) (depth : Nat) (before : List Token) :
    ∃ depth' before' rest,
    ⟨depth', front.reverse ++ before', t, back ++ rest⟩ ∈ leaves depth before tokens := by
  induction h generalizing depth before with
  | here =>
    rename_i rest
    refine ⟨depth, before, rest, ?_⟩
    rw [append_assoc, cons_append]
    exact mem_leaves_append ht depth before front (back ++ rest)
  | later _ ih =>
    rename_i u ts _
    obtain ⟨depth', before', rest, hleaf⟩ := ih depth (u :: before)
    refine ⟨depth', before', rest, ?_⟩
    rcases u.isLeaf_or_group with hu | ⟨d, children, span, line, rfl⟩
    · rw [leaves_of_isLeaf hu]
      exact mem_cons_of_mem _ hleaf
    · rw [leaves]
      exact mem_append_right _ hleaf
  | inside _ ih =>
    rename_i d _ _ _ _ _
    obtain ⟨depth', before', rest, hleaf⟩ := ih (d.inner depth) []
    refine ⟨depth', before', rest, ?_⟩
    rw [leaves]
    exact mem_append_left _ hleaf

namespace Java

variable {ts : List Token}

def reserved : List String :=
  ["abstract", "assert", "boolean", "break", "byte", "case", "catch", "char", "class", "const",
    "continue", "default", "do",
   "double", "else", "enum", "extends", "false", "final", "finally", "float", "for", "goto", "if",
   "implements", "import",
   "instanceof", "int", "interface", "long", "native", "new", "null", "package", "private",
   "protected", "public", "return",
   "short", "static", "strictfp", "super", "switch", "synchronized", "this", "throw", "throws",
   "transient", "true", "try",
   "void", "volatile", "while"]

def primitives : List String :=
  ["boolean", "byte", "char", "double", "float", "int", "long", "short"]

/-- A name of a type. A method may have the name `yield`, a type may not. -/
def IsTypeName (name : String) : Prop :=
  name ∉ reserved ∧ name ≠ "yield"

/-- The kinds of phrases that types are made of. -/
inductive Phrase where
  /-- A name with its type arguments, if any. -/
  | segment
  /-- Segments with points between them. -/
  | classType
  | type
  /-- A type, or `void`. -/
  | result
  | argument
  /-- Type arguments with commas between them. -/
  | arguments

inductive PhraseTokens : Phrase → List Token → Prop where
  | name {name : String} {span : Span} {line : Nat} (hname : IsTypeName name) :
      PhraseTokens .segment [.word name span line]
  | generic {name : String} {ts : List Token} {span span' span'' : Span} {line line' line'' : Nat}
      (hname : IsTypeName name)
      (h : PhraseTokens .arguments ts) :
      PhraseTokens .segment (.word name span line :: .symbol '<' span' line' :: ts ++
      [.symbol '>' span'' line''])
  | first {ts : List Token} (h : PhraseTokens .segment ts) : PhraseTokens .classType ts
  | member {ts ts' : List Token} {span : Span} {line : Nat} (h : PhraseTokens .classType ts)
      (h' : PhraseTokens .segment ts') :
        PhraseTokens .classType (ts ++ .symbol '.' span line :: ts')
  | primitive {name : String} {span : Span} {line : Nat} (hname : name ∈ primitives) :
      PhraseTokens .type [.word name span line]
  | reference {ts : List Token} (h : PhraseTokens .classType ts) : PhraseTokens .type ts
  | array {ts : List Token} {span : Span} {line : Nat} (h : PhraseTokens .type ts) :
      PhraseTokens .type (ts ++ [.group .bracket [] span line])
  | void {span : Span} {line : Nat} : PhraseTokens .result [.word "void" span line]
  | value {ts : List Token} (h : PhraseTokens .type ts) : PhraseTokens .result ts
  | exactly {ts : List Token} (h : PhraseTokens .type ts) : PhraseTokens .argument ts
  | anything {span : Span} {line : Nat} : PhraseTokens .argument [.symbol '?' span line]
  | bounded {bound : String} {ts : List Token} {span span' : Span} {line line' : Nat}
      (hbound : bound ∈ ["extends", "super"])
      (h : PhraseTokens .type ts) :
        PhraseTokens .argument (.symbol '?' span line :: .word bound span' line' :: ts)
  | one {ts : List Token} (h : PhraseTokens .argument ts) : PhraseTokens .arguments ts
  | more {ts ts' : List Token} {span : Span} {line : Nat} (h : PhraseTokens .argument ts)
      (h' : PhraseTokens .arguments ts') :
        PhraseTokens .arguments (ts ++ .symbol ',' span line :: ts')

/-- The types that a method throws, with commas between them. -/
inductive ThrownTokens : List Token → Prop where
  | one {ts : List Token} (h : PhraseTokens .classType ts) : ThrownTokens ts
  | more {ts ts' : List Token} {span : Span} {line : Nat} (h : PhraseTokens .classType ts)
      (h' : ThrownTokens ts') :
      ThrownTokens (ts ++ .symbol ',' span line :: ts')

/-- A `throws` clause, or nothing. -/
inductive ThrowsTokens : List Token → Prop where
  | no : ThrowsTokens []
  | yes {ts : List Token} {span : Span} {line : Nat} (h : ThrownTokens ts) :
      ThrowsTokens (.word "throws" span line :: ts)

def endsInArguments (type : List Token) : Bool :=
  type.getLast?.any (·.isSymbol '>')

/-- The tokens at which the search behind a `throws` clause ends. -/
def endsThrows (t : Token) : Bool :=
  t.isGroup .brace || t.isSymbol ';'

theorem endsThrows_of_phrase {p : Phrase} (h : PhraseTokens p ts) :
    ∀ t ∈ ts, endsThrows t = false := by
  have hword (name : String) (span : Span) (line : Nat) :
      endsThrows (.word name span line) = false := rfl
  have hsymbol {c : Char} (hc : c ≠ ';') (span : Span) (line : Nat) :
      endsThrows (.symbol c span line) = false := by
    simpa [endsThrows, Token.isGroup, Token.children?, Token.isSymbol] using hc
  have hbracket (span : Span) (line : Nat) : endsThrows (.group .bracket [] span line) = false :=
    rfl
  induction h with
  | name | primitive | void => simp [hword]
  | generic _ _ ih => simpa [hword, hsymbol, or_imp, forall_and] using ih
  | first _ ih | reference _ ih | value _ ih | exactly _ ih | one _ ih => exact ih
  | member _ _ ih ih' | more _ _ ih ih' => simpa [hsymbol, or_imp, forall_and] using ⟨ih, ih'⟩
  | array _ ih => simpa [hbracket, or_imp, forall_and] using ih
  | anything => simp [hsymbol]
  | bounded _ _ ih => simpa [hword, hsymbol, or_imp, forall_and] using ih

theorem endsThrows_of_thrown (h : ThrownTokens ts) : ∀ t ∈ ts, endsThrows t = false := by
  induction h with
  | one h => exact endsThrows_of_phrase h
  | more h _ ih =>
    have hcomma (span : Span) (line : Nat) : endsThrows (.symbol ',' span line) = false := rfl
    simpa [hcomma, or_imp, forall_and] using ⟨endsThrows_of_phrase h, ih⟩

theorem afterThrows_append {throws : List Token} (h : ThrowsTokens throws) (span : Span)
    (line : Nat) (rest : List Token) :
    afterThrows (throws ++ .symbol ';' span line :: rest) = .symbol ';' span line :: rest := by
  cases h with
  | no => rfl
  | yes h =>
    have hthrows (span : Span) (line : Nat) :
        (Token.word "throws" span line).isWord "throws" = true := rfl
    rw [cons_append, afterThrows, if_pos (hthrows _ _), ← cons_append, dropWhile_append_of_pos]
    · rfl
    · intro t ht
      rcases mem_cons.1 ht with rfl | ht
      · rfl
      · have hnot := endsThrows_of_thrown h t ht
        rw [endsThrows] at hnot
        rw [hnot]
        rfl

/-- A token at the end of a type. Only the closing bracket of type arguments is not recognized. -/
structure IsLastOfType (t : Token) : Prop where
  not_point : t.isSymbol '.' = false
  not_at : t.isSymbol '@' = false
  not_new : t.isWord "new" = false
  endsType : endsType t = !t.isSymbol '>'

theorem isLastOfType_word {name : String} (hnew : name ≠ "new")
    (hname : name ∉ expressionStarters) (span : Span) (line : Nat) :
    IsLastOfType (.word name span line) := by
  refine ⟨rfl, rfl, ?_, ?_⟩
  · simpa [Token.isWord, Token.word?] using hnew
  · simpa [Java.endsType, Token.isSymbol] using hname

theorem IsTypeName.isLastOfType {name : String} (h : IsTypeName name) (span : Span) (line : Nat) :
    IsLastOfType (.word name span line) := by
  obtain ⟨hreserved, hyield⟩ := h
  refine isLastOfType_word ?_ ?_ span line
  · rintro rfl
    exact hreserved (by decide)
  · intro hmem
    have hstarters : ∀ word ∈ expressionStarters, word ∈ reserved ∨ word = "yield" := by decide
    exact (hstarters name hmem).elim hreserved hyield

theorem exists_last_of_phrase {p : Phrase} (h : PhraseTokens p ts) (hargument : p ≠ .argument)
    (harguments : p ≠ .arguments) :
    ∃ front last, ts = front ++ [last] ∧ IsLastOfType last := by
  induction h with
  | name hname => exact ⟨[], _, rfl, hname.isLastOfType _ _⟩
  | generic _ _ _ => exact ⟨_, _, rfl, rfl, rfl, rfl, rfl⟩
  | first _ ih | reference _ ih | value _ ih => exact ih (by simp) (by simp)
  | member _ _ _ ih =>
    obtain ⟨front, last, rfl, hlast⟩ := ih (by simp) (by simp)
    exact ⟨_, last, by rw [← cons_append, ← append_assoc], hlast⟩
  | primitive hname =>
    have hprimitive : ∀ word ∈ primitives, word ≠ "new" ∧ word ∉ expressionStarters := by decide
    obtain ⟨hnew, hstarter⟩ := hprimitive _ hname
    exact ⟨[], _, rfl, isLastOfType_word hnew hstarter _ _⟩
  | array _ _ => exact ⟨_, _, rfl, rfl, rfl, rfl, rfl⟩
  | void => exact ⟨[], _, rfl, isLastOfType_word (by decide) (by decide) _ _⟩
  | exactly | anything | bounded => exact absurd rfl hargument
  | one | more => exact absurd rfl harguments

/-- A method without a body as it is written. Modifiers and type parameters may stand in front
of it. -/
structure BodilessMethod where
  type : List Token
  name : String
  nameSpan : Span
  line : Nat
  params : List Token
  paramsSpan : Span
  paramsLine : Nat
  throws : List Token
  endSpan : Span
  endLine : Nat
  isType : PhraseTokens .result type
  isName : name ∉ reserved
  isThrows : ThrowsTokens throws

namespace BodilessMethod

def ending (m : BodilessMethod) : List Token :=
  m.throws ++ [.symbol ';' m.endSpan m.endLine]

def tokens (m : BodilessMethod) : List Token :=
  m.type ++ .word m.name m.nameSpan m.line :: .group .paren m.params m.paramsSpan m.paramsLine ::
    m.ending

def function (m : BodilessMethod) (depth : Nat) : Function :=
  ⟨m.name, countParams m.params, m.line, m.nameSpan, m.paramsSpan, depth, none⟩

def call (m : BodilessMethod) : Call :=
  ⟨m.name, none, m.line, m.nameSpan⟩

/-- What is found at the name of the method: nothing if it is `yield`, a call if the type ends
with type arguments, and a function otherwise. -/
def found (m : BodilessMethod) (depth : Nat) : Findings :=
  if m.name = "yield" then {}
  else if endsInArguments m.type then { calls := [m.call] }
  else { functions := [m.function depth] }

theorem findingsOf_eq (m : BodilessMethod) (depth : Nat) (before rest : List Token) :
    findingsOf ⟨depth, m.type.reverse ++ before, .word m.name m.nameSpan m.line,
      .group .paren m.params m.paramsSpan m.paramsLine :: m.ending ++ rest⟩ = m.found depth := by
  obtain ⟨front, last, htype, hlast⟩ := exists_last_of_phrase m.isType (by simp) (by simp)
  have hkeyword : keywords.contains m.name = decide (m.name = "yield") := by
    have hkeywords : ∀ word ∈ keywords, word ∈ reserved ∨ word = "yield" := by decide
    rw [contains_eq_mem]
    refine decide_eq_decide.2 ⟨fun hmem => ?_, fun heq => heq ▸ by decide⟩
    exact (hkeywords _ hmem).resolve_left m.isName
  have hends : endsInArguments m.type = last.isSymbol '>' := by
    rw [endsInArguments, htype, getLast?_concat]
    rfl
  have hbefore : m.type.reverse ++ before = last :: (front.reverse ++ before) := by
    rw [htype, reverse_append]
    rfl
  have hdeclaration : declaration? (some last) (m.ending ++ rest) =
      if endsInArguments m.type then none else some .bodiless := by
    have hafter : afterThrows (m.ending ++ rest) = .symbol ';' m.endSpan m.endLine :: rest := by
      rw [ending, append_assoc]
      exact afterThrows_append m.isThrows _ _ rest
    have hsemicolon : (Token.symbol ';' m.endSpan m.endLine).children? .brace = none := rfl
    rw [declaration?, hafter, hends]
    simp only [Option.any_some, hlast.not_point, hlast.endsType, hsemicolon]
    cases last.isSymbol '>' <;> rfl
  unfold findingsOf findingsAt found
  simp only [Token.word?, Token.children?, if_true, hbefore,
    qualifierBefore_of_not_point hlast.not_point, head?_cons, Option.any_some, hlast.not_at,
    hlast.not_new, hkeyword, cons_append, hdeclaration, Bool.or_false]
  by_cases hyield : m.name = "yield"
  · simp [hyield]
  · cases endsInArguments m.type
    · simp [hyield, function, Token.line, Token.span]
    · simp [hyield, call, Token.line, Token.span, qualifierText]

/-- The method is found as a function, and not as a call. -/
def IsDeclaredIn (m : BodilessMethod) (outline : Outline) : Prop :=
  (∃ depth, m.function depth ∈ outline.functions) ∧ ∀ c ∈ outline.calls, c.span ≠ m.nameSpan

end BodilessMethod

theorem mem_findings_iff {depth : Nat} {before tokens : List Token} {l : LeafAt}
    (hls : (leaves depth before tokens).Pairwise (·.offset < ·.offset))
    (hl : l ∈ leaves depth before tokens) :
    (∀ c, c ∈ (findings depth before tokens).calls ∧ c.span = l.token.span ↔
      c ∈ (findingsOf l).calls) ∧
      ∀ f, f ∈ (findings depth before tokens).functions ∧ f.nameSpan = l.token.span ↔
        f ∈ (findingsOf l).functions := by
  obtain ⟨hcalls, hfunctions⟩ := findings_eq depth before tokens
  refine ⟨fun c => ⟨?_, ?_⟩, fun f => ⟨?_, ?_⟩⟩
  · rintro ⟨hc, hspan⟩
    rw [hcalls] at hc
    obtain ⟨l', hl', hc⟩ := mem_flatMap.1 hc
    have hsame := ((findingsOf_atMostOne l').call c hc).symm.trans hspan
    rwa [← eq_of_offset_eq hls hl' hl (congrArg Span.start hsame)]
  · intro hc
    rw [hcalls]
    exact ⟨mem_flatMap.2 ⟨l, hl, hc⟩, (findingsOf_atMostOne l).call c hc⟩
  · rintro ⟨hf, hspan⟩
    rw [hfunctions] at hf
    obtain ⟨l', hl', hf⟩ := mem_flatMap.1 hf
    have hsame := ((findingsOf_atMostOne l').function f hf).1.symm.trans hspan
    rwa [← eq_of_offset_eq hls hl' hl (congrArg Span.start hsame)]
  · intro hf
    rw [hfunctions]
    exact ⟨mem_flatMap.2 ⟨l, hl, hf⟩, ((findingsOf_atMostOne l).function f hf).1⟩

/-- In a file that is read, what has the name of a method without a body is what is found there. -/
theorem BodilessMethod.mem_outline_iff (m : BodilessMethod) {n : Nat} {source : String}
    {tokens : List Token}
    {outline : Outline}
    (hbody : body? .java ((Place.start source.toList).after (source.toList.take n))
    (source.toList.drop n) = some tokens)
    (hcalls : outline.calls = (findings 0 [] tokens).calls)
    (hfunctions : outline.functions = (findings 0 [] tokens).functions)
    (hoccurs : Occurs m.tokens tokens) :
    ∃ depth, (∀ c, c ∈ outline.calls ∧ c.span = m.nameSpan ↔ c ∈ (m.found depth).calls) ∧
      ∀ f, f ∈ outline.functions ∧ f.nameSpan = m.nameSpan ↔ f ∈ (m.found depth).functions := by
  have hleaves := ((body_tiles (lawful_lexicon .java) hbody).leaves_inOrder 0 []).2
  have hword : (Token.word m.name m.nameSpan m.line).IsLeaf := by
    intro d children span line heq
    cases heq
  obtain ⟨depth, before, rest, hleaf⟩ := exists_leaf_of_occurs hword hoccurs 0 []
  have hfound := mem_findings_iff hleaves hleaf
  rw [m.findingsOf_eq depth before rest, ← hcalls, ← hfunctions] at hfound
  exact ⟨depth, hfound⟩

/-- In a file that is read, a method without a body is found as a function, and not as a call,
exactly if its type does not end with type arguments and its name is not `yield`. With type
arguments it is found as a call, and with the name `yield` it is not found at all. -/
theorem bodilessMethods_of_parse {source file : String} {outline : Outline}
    (h : parse .java source file = .ok outline) :
    ∃ n tokens, Source.header .java (.start source.toList) source.toList =
      some ((outline.package, outline.imports), n) ∧
      body? .java ((Place.start source.toList).after (source.toList.take n))
      (source.toList.drop n) = some tokens ∧
      ∀ m : BodilessMethod, Occurs m.tokens tokens →
        (m.IsDeclaredIn outline ↔ endsInArguments m.type = false ∧ m.name ≠ "yield") ∧
        (endsInArguments m.type = true → m.name ≠ "yield" →
          m.call ∈ outline.calls ∧ ∀ f ∈ outline.functions, f.nameSpan ≠ m.nameSpan) ∧
        (m.name = "yield" →
          (∀ c ∈ outline.calls, c.span ≠ m.nameSpan) ∧
          ∀ f ∈ outline.functions, f.nameSpan ≠ m.nameSpan) := by
  obtain ⟨n, tokens, hheader, hbody, hcalls, hfunctions⟩ := parse_eq_ok_iff.1 h
  refine ⟨n, tokens, hheader, hbody, fun m hoccurs => ?_⟩
  obtain ⟨depth, hcall, hfunction⟩ := m.mem_outline_iff hbody hcalls hfunctions hoccurs
  have hnoCall (hnone : (m.found depth).calls = []) : ∀ c ∈ outline.calls, c.span ≠ m.nameSpan := by
    intro c hc heq
    have hmem := (hcall c).1 ⟨hc, heq⟩
    rw [hnone] at hmem
    cases hmem
  have hnoFunction (hnone : (m.found depth).functions = []) :
      ∀ f ∈ outline.functions, f.nameSpan ≠ m.nameSpan := by
    intro f hf heq
    have hmem := (hfunction f).1 ⟨hf, heq⟩
    rw [hnone] at hmem
    cases hmem
  have hundeclared (hnone : (m.found depth).functions = []) : ¬m.IsDeclaredIn outline := by
    rintro ⟨⟨depth', hdeclared⟩, -⟩
    exact hnoFunction hnone _ hdeclared rfl
  by_cases hyield : m.name = "yield"
  · have hfound : m.found depth = {} := if_pos hyield
    refine ⟨⟨fun hdeclared => absurd hdeclared (hundeclared (by rw [hfound])), fun hplain =>
      absurd hyield hplain.2⟩,
      fun _ hplain => absurd hyield hplain, fun _ =>
        ⟨hnoCall (by rw [hfound]), hnoFunction (by rw [hfound])⟩⟩
  · cases harguments : endsInArguments m.type with
    | true =>
      have hfound : m.found depth = { calls := [m.call] } := by
        rw [BodilessMethod.found, if_neg hyield, if_pos harguments]
      refine ⟨⟨fun hdeclared => absurd hdeclared (hundeclared (by rw [hfound])), fun hplain =>
        absurd hplain.1 (by simp)⟩,
        fun _ _ => ⟨?_, hnoFunction (by rw [hfound])⟩, fun heq => absurd heq hyield⟩
      exact ((hcall m.call).2 (by rw [hfound]; exact mem_singleton_self _)).1
    | false =>
      have hfound : m.found depth = { functions := [m.function depth] } := by
        rw [BodilessMethod.found, if_neg hyield, if_neg (by simp [harguments])]
      have hdeclared : m.function depth ∈ outline.functions :=
        ((hfunction (m.function depth)).2 (by rw [hfound]; exact mem_singleton_self _)).1
      refine ⟨⟨fun _ => ⟨rfl, hyield⟩, fun _ => ⟨⟨depth, hdeclared⟩, hnoCall (by rw [hfound])⟩⟩, ?_,
        fun heq => absurd heq hyield⟩
      intro htrue
      cases htrue

/-- Methods without a body whose types are an array and a generic type, and one with the name
`yield`. -/
def memberSource : String :=
  "interface I \x7b int[] a() throws E; List<String> names(); void yield(); \x7d"

def arrayMethod : BodilessMethod where
  type := [.word "int" ⟨14, 17⟩ 1, .group .bracket [] ⟨17, 19⟩ 1]
  name := "a"
  nameSpan := ⟨20, 21⟩
  line := 1
  params := []
  paramsSpan := ⟨21, 23⟩
  paramsLine := 1
  throws := [.word "throws" ⟨24, 30⟩ 1, .word "E" ⟨31, 32⟩ 1]
  endSpan := ⟨32, 33⟩
  endLine := 1
  isType := .value (.array (.primitive (by decide)))
  isName := by decide
  isThrows := .yes (.one (.first (.name ⟨by decide, by decide⟩)))

def listMethod : BodilessMethod where
  type := [.word "List" ⟨34, 38⟩ 1, .symbol '<' ⟨38, 39⟩ 1, .word "String" ⟨39, 45⟩ 1,
    .symbol '>' ⟨45, 46⟩ 1]
  name := "names"
  nameSpan := ⟨47, 52⟩
  line := 1
  params := []
  paramsSpan := ⟨52, 54⟩
  paramsLine := 1
  throws := []
  endSpan := ⟨54, 55⟩
  endLine := 1
  isType :=
    have hargument : PhraseTokens .arguments [.word "String" ⟨39, 45⟩ 1] :=
      .one (.exactly (.reference (.first (.name ⟨by decide, by decide⟩))))
    .value (.reference (.first (.generic ⟨by decide, by decide⟩ hargument)))
  isName := by decide
  isThrows := .no

def yieldMethod : BodilessMethod where
  type := [.word "void" ⟨56, 60⟩ 1]
  name := "yield"
  nameSpan := ⟨61, 66⟩
  line := 1
  params := []
  paramsSpan := ⟨66, 68⟩
  paramsLine := 1
  throws := []
  endSpan := ⟨68, 69⟩
  endLine := 1
  isType := .void
  isName := by decide
  isThrows := .no

def memberTokens : List Token :=
  [.word "interface" ⟨0, 9⟩ 1, .word "I" ⟨10, 11⟩ 1,
   .group .brace (arrayMethod.tokens ++ (listMethod.tokens ++ yieldMethod.tokens)) ⟨12, 71⟩ 1]

def memberOutline : Outline where
  calls := [⟨"names", none, 1, ⟨47, 52⟩⟩]
  functions := [⟨"a", 0, 1, ⟨20, 21⟩, ⟨21, 23⟩, 1, none⟩]

theorem header_memberSource :
    Source.header .java (.start memberSource.toList) memberSource.toList =
      some ((none, []), 0) := by
  with_unfolding_all rfl

theorem body?_memberSource :
    body? .java ((Place.start memberSource.toList).after (memberSource.toList.take 0))
    (memberSource.toList.drop 0) = some memberTokens := by
  with_unfolding_all rfl

theorem parse_memberSource : parse .java memberSource "I.java" = .ok memberOutline := by
  have hfound : findings 0 [] memberTokens = ⟨memberOutline.calls, memberOutline.functions⟩ := by
    simp [memberTokens, BodilessMethod.tokens, BodilessMethod.ending, arrayMethod, listMethod,
      yieldMethod, findings, findingsAt, Token.word?, Token.children?, qualifierBefore, keywords,
      Token.isSymbol, Token.isWord, declaration?, afterThrows, qualifierText, Token.line,
      Token.span, countParams, countParams.go, endsType, Token.isGroup, Delimiter.inner]
    rfl
  refine parse_eq_ok_iff.2 ⟨0, memberTokens, header_memberSource, body?_memberSource, ?_, ?_⟩
  · exact (congrArg Findings.calls hfound).symm
  · exact (congrArg Findings.functions hfound).symm

theorem bodilessMethods_of_memberSource :
    Occurs arrayMethod.tokens memberTokens ∧ arrayMethod.IsDeclaredIn memberOutline := by
  have hoccurs : Occurs arrayMethod.tokens memberTokens := .later (.later (.inside .here))
  obtain ⟨n, tokens, hheader, hbody, hmethods⟩ := bodilessMethods_of_parse parse_memberSource
  cases header_memberSource.symm.trans hheader
  cases body?_memberSource.symm.trans hbody
  exact ⟨hoccurs, (hmethods arrayMethod hoccurs).1.2 ⟨by decide, by decide⟩⟩

/-- A method whose type is generic is found as a call and not as a function, and a method with
the name `yield` as neither. -/
theorem not_declared_listMethod :
    parse .java memberSource "I.java" = .ok memberOutline ∧
      (Source.header .java (.start memberSource.toList) memberSource.toList = some ((none, []), 0) ∧
        body? .java ((Place.start memberSource.toList).after (memberSource.toList.take 0))
        (memberSource.toList.drop 0) = some memberTokens) ∧
      (Occurs listMethod.tokens memberTokens ∧ listMethod.call ∈ memberOutline.calls ∧
        ¬listMethod.IsDeclaredIn memberOutline) ∧
      Occurs yieldMethod.tokens memberTokens ∧ ¬yieldMethod.IsDeclaredIn memberOutline := by
  have hlist : Occurs listMethod.tokens
      (arrayMethod.tokens ++ (listMethod.tokens ++ yieldMethod.tokens)) :=
    Occurs.here.append _
  have hyield : Occurs yieldMethod.tokens
      (arrayMethod.tokens ++ (listMethod.tokens ++ (yieldMethod.tokens ++ []))) :=
    (Occurs.here.append _).append _
  rw [append_nil] at hyield
  refine ⟨parse_memberSource, ⟨header_memberSource, body?_memberSource⟩,
    ⟨.later (.later (.inside hlist)), mem_cons_self, ?_⟩, .later (.later (.inside hyield)), ?_⟩
  · rintro ⟨-, hnoCall⟩
    exact hnoCall listMethod.call mem_cons_self rfl
  · rintro ⟨⟨depth, hdeclared⟩, -⟩
    have hspan : yieldMethod.nameSpan = ⟨20, 21⟩ :=
      congrArg Function.nameSpan (mem_singleton.1 hdeclared)
    exact absurd hspan (by decide)

end Java

end WitnessReplay.Source
