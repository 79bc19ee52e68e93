import WitnessReplay.Proofs.HeaderReading

/-!
# Which tokens are the header

A grammar for the headers of Java files, in terms of tokens. The declarations that a file lists
are those of the longest header at its start, and whatever is not part of that header is body:
an import without its semicolon, an import behind a class, or a second package declaration is
not an error, but a sequence of tokens like any other.
-/

namespace WitnessReplay.Source

open Text TokenReader List

namespace Java

/-! ### The grammar -/

inductive PathTokens : List String → List Token → Prop where
  | last {n : String} {span : Span} {line : Nat} : PathTokens [n] [.word n span line]
  | more {n : String} {names : List String} {ts : List Token} {span span' : Span}
      {line line' : Nat} (h : PathTokens names ts) :
      PathTokens (n :: names) (.word n span line :: .symbol '.' span' line' :: ts)

/-- The word that makes an import static, or nothing. -/
inductive StaticTokens : Bool → List Token → Prop where
  | no : StaticTokens false []
  | yes {span : Span} {line : Nat} : StaticTokens true [.word "static" span line]

/-- The star of an import of everything behind its point, or nothing. -/
inductive StarTokens : Bool → List Token → Prop where
  | no : StarTokens false []
  | yes {span span' : Span} {line line' : Nat} :
      StarTokens true [.symbol '.' span line, .symbol '*' span' line']

/-- The tokens of an import declaration. What follows the first word is taken for the word
`static` if it can be. -/
inductive ImportTokens : Import → List Token → Prop where
  | mk {isStatic everything : Bool} {names : List String} {modifier path star : List Token}
      {span span' : Span} {line line' : Nat}
      (hmodifier : StaticTokens isStatic modifier) (hpath : PathTokens names path)
      (hstar : StarTokens everything star)
      (hfirst : isStatic = false → names.head? ≠ some "static") :
      ImportTokens { path := ".".intercalate names, wildcard := everything, isStatic, line }
        (.word "import" span line :: (modifier ++ (path ++ (star ++ [.symbol ';' span' line']))))

/-- The arguments of an annotation, or nothing. -/
inductive ArgumentTokens : List Token → Prop where
  | no : ArgumentTokens []
  | yes {children : List Token} {span : Span} {line : Nat} :
      ArgumentTokens [.group .paren children span line]

/-- The tokens of an annotation. Its name does not start like the word that declares an
annotation type. -/
inductive AnnotationTokens : List Token → Prop where
  | mk {names : List String} {path arguments : List Token} {span : Span} {line : Nat}
      (hpath : PathTokens names path)
      (harguments : ArgumentTokens arguments)
      (hfirst : ∀ n ∈ names.head?, "interface".toList.isPrefixOf n.toList = false) :
      AnnotationTokens (.symbol '@' span line :: (path ++ arguments))

/-- The tokens of a package declaration with its annotations. -/
inductive PackageTokens : List String → List Token → Prop where
  | plain {names : List String} {path : List Token} {span span' : Span} {line line' : Nat}
      (hpath : PathTokens names path) :
      PackageTokens names (.word "package" span line :: (path ++ [.symbol ';' span' line']))
  | annotated {names : List String} {sign ts : List Token} (hsign : AnnotationTokens sign)
      (h : PackageTokens names ts) : PackageTokens names (sign ++ ts)

inductive ImportsTokens : List Import → List Token → Prop where
  | nil : ImportsTokens [] []
  | cons {i : Import} {imports : List Import} {front ts : List Token}
      (hfirst : ImportTokens i front)
      (h : ImportsTokens imports ts) : ImportsTokens (i :: imports) (front ++ ts)

/-- The tokens of a header with the given package and imports. -/
inductive HeaderTokens : Option String → List Import → List Token → Prop where
  | imports {imports : List Import} {ts : List Token} (h : ImportsTokens imports ts) :
      HeaderTokens none imports ts
  | package {names : List String} {imports : List Import} {front ts : List Token}
      (hpackage : PackageTokens names front)
      (h : ImportsTokens imports ts) :
        HeaderTokens (some (".".intercalate names)) imports (front ++ ts)

/-- The header does not go on behind `front`: no import declaration follows, and no package
declaration follows an empty header. -/
structure EndsHeader (front rest : List Token) : Prop where
  imports : ∀ i x y, rest = x ++ y → ¬ ImportTokens i x
  package : front = [] → ∀ names x y, rest = x ++ y → ¬ PackageTokens names x

/-! ### Readers and the grammar -/

section Readers

variable {α : Type} {ts rest : List Token}

theorem one_eq_some_iff {f : Token → Option α} {v : α} :
    one f ts = some (v, rest) ↔ ∃ t, ts = t :: rest ∧ f t = some v := by
  cases ts with
  | nil => simp [one]
  | cons t ts =>
    rw [one, Option.map_eq_some_iff]
    constructor
    · rintro ⟨w, hw, heq⟩
      cases heq
      exact ⟨t, rfl, hw⟩
    · rintro ⟨u, heq, hv⟩
      cases heq
      exact ⟨v, hv, rfl⟩

theorem only_eq_some_iff {f : Token → Bool} {v : Unit} :
    only f ts = some (v, rest) ↔ ∃ t, ts = t :: rest ∧ f t = true := by
  rw [only, one_eq_some_iff]
  simp

/-- A reader of what a grammar derives fails exactly where nothing of it stands. -/
theorem eq_none_iff_of_grammar {y : TokenReader α} {G : α → List Token → Prop}
    (hread : ∀ v x rest, G v x → y (x ++ rest) = some (v, rest))
    (hfront : ∀ v rest, y ts = some (v, rest) → ∃ x, ts = x ++ rest ∧ G v x) :
    y ts = none ↔ ∀ v x rest, ts = x ++ rest → ¬ G v x := by
  constructor
  · rintro hnone v x rest rfl hx
    cases hnone.symm.trans (hread v x rest hx)
  · intro hno
    by_contra hsome
    obtain ⟨⟨v, rest⟩, hv⟩ := Option.ne_none_iff_exists'.1 hsome
    obtain ⟨x, hsplit, hx⟩ := hfront v rest hv
    exact hno v x rest hsplit hx

theorem test_of_grammar {y : TokenReader α} {G : Bool → List Token → Prop} {b : Bool}
    (hno : ∀ x, G false x ↔ x = [])
    (hyes : ∀ ts rest, (∃ v, y ts = some (v, rest)) ↔ ∃ x, ts = x ++ rest ∧ G true x) :
    y.test ts = some (b, rest) ↔ ∃ x, ts = x ++ rest ∧ G b x ∧ (b = false → y rest = none) := by
  rw [test_eq_some_iff]
  cases b with
  | true => simp [hyes]
  | false =>
    constructor
    · rintro (⟨htrue, -⟩ | ⟨-, rfl, hnone⟩)
      · cases htrue
      · exact ⟨[], rfl, (hno []).2 rfl, fun _ => hnone⟩
    · rintro ⟨x, rfl, hx, hnone⟩
      obtain rfl := (hno x).1 hx
      exact .inr ⟨rfl, rfl, hnone rfl⟩

end Readers

section Shapes

variable {t : Token}

theorem word?_eq_some_iff {w : String} : t.word? = some w ↔ ∃ span line, t = .word w span line := by
  cases t <;> simp [Token.word?]

theorem isWord_iff {w : String} : t.isWord w = true ↔ ∃ span line, t = .word w span line := by
  rw [Token.isWord, beq_iff_eq, word?_eq_some_iff]

theorem isSymbol_iff {c : Char} : t.isSymbol c = true ↔ ∃ span line, t = .symbol c span line := by
  cases t <;> simp [Token.isSymbol]

theorem isGroup_iff {d : Delimiter} :
    t.isGroup d = true ↔ ∃ children span line, t = .group d children span line := by
  cases t with
  | group d' children span line =>
    by_cases hd : d' = d <;> simp [Token.isGroup, Token.children?, hd]
  | _ => simp [Token.isGroup, Token.children?]

end Shapes

/-! ### Paths -/

section Paths

variable {ts rest front : List Token} {names : List String}

theorem nextName_eq_some_iff {n : String} :
    Tokens.nextName ts = some (n, rest) ↔
      ∃ span line span' line', ts = .symbol '.' span line :: .word n span' line' :: rest := by
  rw [Tokens.nextName, bind_eq_some_iff]
  constructor
  · rintro ⟨u, middle, hpoint, hword⟩
    obtain ⟨t, rfl, ht⟩ := only_eq_some_iff.1 hpoint
    obtain ⟨t', rfl, ht'⟩ := one_eq_some_iff.1 hword
    obtain ⟨span, line, rfl⟩ := isSymbol_iff.1 ht
    obtain ⟨span', line', rfl⟩ := word?_eq_some_iff.1 ht'
    exact ⟨span, line, span', line', rfl⟩
  · rintro ⟨span, line, span', line', rfl⟩
    exact ⟨(), _, rfl, rfl⟩

theorem path_eq_some_iff :
    Tokens.path ts = some (names, rest) ↔
      ∃ n span line others behind, ts = .word n span line :: behind ∧ names = n :: others ∧
        many.go Tokens.nextName behind = (others, rest) := by
  rw [Tokens.path, bind_eq_some_iff]
  constructor
  · rintro ⟨n, behind, hword, hothers⟩
    obtain ⟨t, rfl, ht⟩ := one_eq_some_iff.1 hword
    obtain ⟨span, line, rfl⟩ := word?_eq_some_iff.1 ht
    obtain ⟨others, middle, hmany, hvalue⟩ := bind_eq_some_iff.1 hothers
    cases hvalue
    exact ⟨n, span, line, others, behind, rfl, rfl, Option.some.inj hmany⟩
  · rintro ⟨n, span, line, others, behind, rfl, rfl, hmany⟩
    refine ⟨n, behind, rfl, bind_eq_some_iff.2 ⟨others, rest, ?_, rfl⟩⟩
    exact congrArg some hmany

theorem path_append (h : PathTokens names front) (hrest : Tokens.nextName rest = none) :
    Tokens.path (front ++ rest) = some (names, rest) := by
  induction h with
  | last => exact path_eq_some_iff.2 ⟨_, _, _, [], rest, rfl, rfl, many_go_of_none hrest⟩
  | @more n names ts span span' line line' h ih =>
    obtain ⟨m, span'', line'', others, behind, hbehind, rfl, hmany⟩ := path_eq_some_iff.1 ih
    refine path_eq_some_iff.2 ⟨n, span, line, m :: others,
      .symbol '.' span' line' :: (ts ++ rest), rfl, rfl, ?_⟩
    rw [hbehind, many_go_of_some Tokens.progresses_nextName
      (nextName_eq_some_iff.2 ⟨_, _, _, _, rfl⟩), hmany]

theorem exists_path (h : Tokens.path ts = some (names, rest)) :
    ∃ front, ts = front ++ rest ∧ PathTokens names front ∧ Tokens.nextName rest = none := by
  obtain ⟨n, span, line, others, behind, rfl, rfl, hmany⟩ := path_eq_some_iff.1 h
  -- The names behind the first one only make a path together with it, so the induction is for
  -- every first word.
  have hgo := many_go_induction Tokens.progresses_nextName
    (motive := fun behind others rest => ∀ n span line, ∃ front, .word n span line :: behind =
      front ++ rest ∧
      PathTokens (n :: others) front ∧ Tokens.nextName rest = none) ?_ ?_ behind
  · rw [hmany] at hgo
    exact hgo n span line
  · intro ts hts n span line
    exact ⟨[.word n span line], rfl, .last, hts⟩
  · intro ts m middle others rest hts ih n span line
    obtain ⟨span', line', span'', line'', rfl⟩ := nextName_eq_some_iff.1 hts
    obtain ⟨front, hfront, hpath, hrest⟩ := ih m span'' line''
    exact ⟨.word n span line :: .symbol '.' span' line' :: front, by
      rw [hfront]; rfl, .more hpath, hrest⟩

end Paths

/-! ### Imports -/

section Imports

variable {ts rest front : List Token} {i : Import} {imports : List Import}

theorem PathTokens.cons {names : List String} (h : PathTokens names front) :
    ∃ n span line others behind, front = .word n span line :: behind ∧ names = n :: others := by
  rcases h with _ | h
  · exact ⟨_, _, _, _, _, rfl, rfl⟩
  · exact ⟨_, _, _, _, _, rfl, rfl⟩

theorem only_isWord_eq_none {w n : String} {span : Span} {line : Nat} (h : n ≠ w)
    (ts : List Token) :
    only (·.isWord w) (.word n span line :: ts) = none := by
  simp [only, one, Token.isWord, Token.word?, h]

theorem test_static {b : Bool} :
    test (only (·.isWord "static")) ts = some (b, rest) ↔
      ∃ front, ts = front ++ rest ∧ StaticTokens b front ∧
        (b = false → only (·.isWord "static") rest = none) := by
  refine test_of_grammar (fun x => ?_) fun ts rest => ?_
  · constructor
    · rintro ⟨⟩
      rfl
    · rintro rfl
      exact .no
  · constructor
    · rintro ⟨u, hword⟩
      obtain ⟨t, rfl, ht⟩ := only_eq_some_iff.1 hword
      obtain ⟨span, line, rfl⟩ := isWord_iff.1 ht
      exact ⟨_, rfl, .yes⟩
    · rintro ⟨x, rfl, ⟨⟩⟩
      exact ⟨(), rfl⟩

theorem test_star {b : Bool} :
    test Tokens.star ts = some (b, rest) ↔
      ∃ front, ts = front ++ rest ∧ StarTokens b front ∧ (b = false → Tokens.star rest = none) := by
  refine test_of_grammar (fun x => ?_) fun ts rest => ?_
  · constructor
    · rintro ⟨⟩
      rfl
    · rintro rfl
      exact .no
  · constructor
    · rintro ⟨u, hstar⟩
      obtain ⟨u', middle, hpoint, hmark⟩ := bind_eq_some_iff.1 hstar
      obtain ⟨t, rfl, ht⟩ := only_eq_some_iff.1 hpoint
      obtain ⟨t', rfl, ht'⟩ := only_eq_some_iff.1 hmark
      obtain ⟨span, line, rfl⟩ := isSymbol_iff.1 ht
      obtain ⟨span', line', rfl⟩ := isSymbol_iff.1 ht'
      exact ⟨_, rfl, .yes⟩
    · rintro ⟨x, rfl, ⟨⟩⟩
      exact ⟨(), rfl⟩

theorem importDecl_append (h : ImportTokens i front) (rest : List Token) :
    Tokens.importDecl (front ++ rest) = some (i, rest) := by
  rcases h with @⟨isStatic, everything, names, modifier, path, star, span, span', line, line',
    hmodifier, hpath, hstar, hfirst⟩
  obtain ⟨n, span'', line'', others, behind, rfl, rfl⟩ := hpath.cons
  have hnext : Tokens.nextName (star ++ .symbol ';' span' line' :: rest) = none := by
    rcases hstar with _ | _ <;> rfl
  have hstatic : test (only (·.isWord "static"))
      (modifier ++ (.word n span'' line'' :: behind ++ (star ++ .symbol ';' span' line' :: rest))) =
        some (isStatic, .word n span'' line'' :: behind ++
        (star ++ .symbol ';' span' line' :: rest)) := by
    refine test_static.2 ⟨modifier, rfl, hmodifier, fun hfalse => only_isWord_eq_none ?_ _⟩
    simpa using hfirst hfalse
  have heverything : test Tokens.star (star ++ .symbol ';' span' line' :: rest) =
      some (everything, .symbol ';' span' line' :: rest) :=
    test_star.2 ⟨star, rfl, hstar, fun _ => rfl⟩
  simp only [cons_append, append_assoc, nil_append] at hstatic ⊢
  refine bind_eq_some_iff.2 ⟨line, _, rfl, bind_eq_some_iff.2 ⟨isStatic, _, hstatic, ?_⟩⟩
  refine bind_eq_some_iff.2 ⟨n :: others, _, path_append hpath hnext, ?_⟩
  refine bind_eq_some_iff.2 ⟨everything, _, heverything, ?_⟩
  exact bind_eq_some_iff.2 ⟨(), rest, rfl, rfl⟩

theorem exists_importDecl (h : Tokens.importDecl ts = some (i, rest)) :
    ∃ front, ts = front ++ rest ∧ ImportTokens i front := by
  obtain ⟨line, ts₁, hword, h⟩ := bind_eq_some_iff.1 h
  obtain ⟨isStatic, ts₂, hstatic, h⟩ := bind_eq_some_iff.1 h
  obtain ⟨names, ts₃, hpath, h⟩ := bind_eq_some_iff.1 h
  obtain ⟨everything, ts₄, hstar, h⟩ := bind_eq_some_iff.1 h
  obtain ⟨u, ts₅, hend, h⟩ := bind_eq_some_iff.1 h
  cases h
  obtain ⟨t, rfl, ht⟩ := one_eq_some_iff.1 hword
  obtain ⟨modifier, rfl, hmodifier, hplain⟩ := test_static.1 hstatic
  obtain ⟨path, rfl, htokens, -⟩ := exists_path hpath
  obtain ⟨star, rfl, hmarks, -⟩ := test_star.1 hstar
  obtain ⟨t', rfl, ht'⟩ := only_eq_some_iff.1 hend
  obtain ⟨span', line', rfl⟩ := isSymbol_iff.1 ht'
  have himport : t.isWord "import" = true ∧ t.line = line := by
    split at ht
    next htrue => exact ⟨htrue, Option.some.inj ht⟩
    next => cases ht
  obtain ⟨⟨span, line, rfl⟩, rfl⟩ := himport.imp_left isWord_iff.1
  refine ⟨.word "import" span line :: (modifier ++ (path ++ (star ++ [.symbol ';' span' line']))),
    ?_,
    .mk hmodifier htokens hmarks ?_⟩
  · simp only [cons_append, append_assoc, nil_append]
  · intro hfalse hhead
    obtain ⟨n, span'', line'', others, behind, rfl, rfl⟩ := htokens.cons
    obtain rfl : n = "static" := by simpa using hhead
    cases hplain hfalse

theorem importDecl_eq_none_iff :
    Tokens.importDecl ts = none ↔ ∀ i x y, ts = x ++ y → ¬ ImportTokens i x :=
  eq_none_iff_of_grammar (fun _ _ rest h => importDecl_append h rest) fun _ _ h =>
    exists_importDecl h

theorem many_importDecl_append (h : ImportsTokens imports front)
    (hrest : Tokens.importDecl rest = none) :
    many.go Tokens.importDecl (front ++ rest) = (imports, rest) := by
  induction h with
  | nil => exact many_go_of_none hrest
  | cons hfirst h ih =>
    rw [append_assoc,
      many_go_of_some Tokens.progresses_importDecl (importDecl_append hfirst _), ih]

theorem exists_many_importDecl (h : many.go Tokens.importDecl ts = (imports, rest)) :
    ∃ front, ts = front ++ rest ∧ ImportsTokens imports front ∧ Tokens.importDecl rest = none := by
  have hgo := many_go_induction Tokens.progresses_importDecl
    (motive := fun ts imports rest => ∃ front, ts = front ++ rest ∧ ImportsTokens imports front ∧
    Tokens.importDecl rest = none)
    ?_ ?_ ts
  · rw [h] at hgo
    exact hgo
  · intro ts hts
    exact ⟨[], rfl, .nil, hts⟩
  · rintro ts i middle imports rest hts ⟨front, rfl, himports, hrest⟩
    obtain ⟨first, rfl, hfirst⟩ := exists_importDecl hts
    exact ⟨first ++ front, (append_assoc _ _ _).symm, .cons hfirst himports, hrest⟩

end Imports

/-! ### Packages -/

section Packages

variable {ts rest front : List Token} {names : List String}

theorem annotationRule_append (h : AnnotationTokens front) (hname : Tokens.nextName rest = none)
    (harguments : Tokens.arguments rest = none) : Tokens.annotationRule (front ++ rest) =
      some ((), rest) := by
  rcases h with @⟨names, path, arguments, span, line, hpath, htokens, hfirst⟩
  obtain ⟨n, span', line', others, behind, rfl, rfl⟩ := hpath.cons
  have hahead : notAhead startsInterface (.word n span' line' :: behind ++ (arguments ++ rest)) =
        some ((), .word n span' line' :: behind ++ (arguments ++ rest)) := by
    have hinterface : startsInterface (.word n span' line') = false := hfirst n rfl
    simp [notAhead, hinterface]
  have hnext : Tokens.nextName (arguments ++ rest) = none := by
    rcases htokens with _ | _
    · exact hname
    · rfl
  have hoption : ∃ found, option Tokens.arguments (arguments ++ rest) = some (found, rest) := by
    rcases htokens with _ | _
    · exact ⟨none, by rw [option, nil_append, harguments]⟩
    · exact ⟨_, rfl⟩
  obtain ⟨found, hfound⟩ := hoption
  rw [cons_append, append_assoc]
  refine bind_eq_some_iff.2 ⟨(), _, rfl, bind_eq_some_iff.2 ⟨(), _, hahead, ?_⟩⟩
  refine bind_eq_some_iff.2 ⟨n :: others, _, path_append hpath hnext, ?_⟩
  exact bind_eq_some_iff.2 ⟨found, rest, hfound, rfl⟩

theorem notAhead_eq_some_iff {f : Token → Bool} {u : Unit} :
    notAhead f ts = some (u, rest) ↔ rest = ts ∧ ts.head?.any f = false := by
  cases hts : ts.head?.any f <;> simp [notAhead, hts, eq_comm]

theorem exists_arguments {found : Option Token}
    (h : option Tokens.arguments ts = some (found, rest)) :
    ∃ front, ts = front ++ rest ∧ ArgumentTokens front := by
  rcases option_eq_some_iff.1 h with ⟨t, -, ht⟩ | ⟨-, rfl, -⟩
  · obtain ⟨t', rfl, ht'⟩ := one_eq_some_iff.1 ht
    split at ht'
    next hgroup =>
      obtain ⟨children, span, line, rfl⟩ := isGroup_iff.1 hgroup
      exact ⟨_, rfl, .yes⟩
    next => cases ht'
  · exact ⟨[], rfl, .no⟩

theorem exists_annotationRule {u : Unit} (h : Tokens.annotationRule ts = some (u, rest)) :
    ∃ front, ts = front ++ rest ∧ AnnotationTokens front := by
  obtain ⟨u₁, ts₁, hsign, h⟩ := bind_eq_some_iff.1 h
  obtain ⟨u₂, ts₂, hahead, h⟩ := bind_eq_some_iff.1 h
  obtain ⟨names, ts₃, hpath, h⟩ := bind_eq_some_iff.1 h
  obtain ⟨found, ts₄, harguments, h⟩ := bind_eq_some_iff.1 h
  cases h
  obtain ⟨t, rfl, ht⟩ := only_eq_some_iff.1 hsign
  obtain ⟨span, line, rfl⟩ := isSymbol_iff.1 ht
  obtain ⟨rfl, hinterface⟩ := notAhead_eq_some_iff.1 hahead
  obtain ⟨path, rfl, htokens, -⟩ := exists_path hpath
  obtain ⟨arguments, rfl, hlist⟩ := exists_arguments harguments
  refine ⟨.symbol '@' span line :: (path ++ arguments), ?_, .mk htokens hlist ?_⟩
  · rw [cons_append, append_assoc]
  · intro n hn
    obtain ⟨m, span', line', others, behind, rfl, rfl⟩ := htokens.cons
    cases hn
    exact hinterface

theorem plainPackage_eq_some_iff :
    Tokens.plainPackage ts = some (names, rest) ↔
      ∃ span line path span' line', ts =
        .word "package" span line :: (path ++ .symbol ';' span' line' :: rest) ∧
        PathTokens names path := by
  constructor
  · intro h
    obtain ⟨u₁, ts₁, hword, h⟩ := bind_eq_some_iff.1 h
    obtain ⟨names', ts₂, hpath, h⟩ := bind_eq_some_iff.1 h
    obtain ⟨u₂, ts₃, hend, h⟩ := bind_eq_some_iff.1 h
    cases h
    obtain ⟨t, rfl, ht⟩ := only_eq_some_iff.1 hword
    obtain ⟨span, line, rfl⟩ := isWord_iff.1 ht
    obtain ⟨path, rfl, htokens, -⟩ := exists_path hpath
    obtain ⟨t', rfl, ht'⟩ := only_eq_some_iff.1 hend
    obtain ⟨span', line', rfl⟩ := isSymbol_iff.1 ht'
    exact ⟨span, line, path, span', line', rfl, htokens⟩
  · rintro ⟨span, line, path, span', line', rfl, hpath⟩
    refine bind_eq_some_iff.2 ⟨(), _, rfl,
      bind_eq_some_iff.2 ⟨names, _, path_append hpath rfl, ?_⟩⟩
    exact bind_eq_some_iff.2 ⟨(), rest, rfl, rfl⟩

theorem PackageTokens.endsAnnotations (h : PackageTokens names front) (rest : List Token) :
    Tokens.nextName (front ++ rest) = none ∧ Tokens.arguments (front ++ rest) = none := by
  rcases h with _ | ⟨hsign, h⟩
  · exact ⟨rfl, rfl⟩
  · rcases hsign with ⟨hpath, harguments, hfirst⟩
    exact ⟨rfl, rfl⟩

theorem package_eq (ts : List Token) :
    Tokens.package ts = Tokens.plainPackage (many.go Tokens.annotationRule ts).2 :=
  rfl

theorem package_append (h : PackageTokens names front) (rest : List Token) :
    Tokens.package (front ++ rest) = some (names, rest) := by
  rw [package_eq]
  induction h with
  | @plain path span span' line line' hpath =>
    have hnone : Tokens.annotationRule
        (.word "package" span line :: (path ++ [.symbol ';' span' line']) ++ rest) = none := rfl
    rw [many_go_of_none hnone]
    refine plainPackage_eq_some_iff.2 ⟨span, line, path, span', line', ?_, hpath⟩
    rw [cons_append, append_assoc]
    rfl
  | annotated hsign h ih =>
    obtain ⟨hname, harguments⟩ := h.endsAnnotations rest
    rw [append_assoc,
      many_go_of_some Tokens.progresses_annotationRule
      (annotationRule_append hsign hname harguments)]
    exact ih

theorem exists_package (h : Tokens.package ts = some (names, rest)) :
    ∃ front, ts = front ++ rest ∧ PackageTokens names front := by
  rw [package_eq] at h
  refine many_go_induction Tokens.progresses_annotationRule
    (motive := fun ts _ middle => Tokens.plainPackage middle = some (names, rest) →
      ∃ front, ts = front ++ rest ∧ PackageTokens names front) ?_ ?_ ts h
  · intro ts _ hplain
    obtain ⟨span, line, path, span', line', rfl, hpath⟩ := plainPackage_eq_some_iff.1 hplain
    refine ⟨.word "package" span line :: (path ++ [.symbol ';' span' line']), ?_, .plain hpath⟩
    rw [cons_append, append_assoc]
    rfl
  · intro ts u middle us last hts ih hplain
    obtain ⟨sign, rfl, hsign⟩ := exists_annotationRule hts
    obtain ⟨front, rfl, hpackage⟩ := ih hplain
    exact ⟨sign ++ front, (append_assoc _ _ _).symm, .annotated hsign hpackage⟩

theorem package_eq_none_iff :
    Tokens.package ts = none ↔ ∀ names x y, ts = x ++ y → ¬ PackageTokens names x :=
  eq_none_iff_of_grammar (fun _ _ rest h => package_append h rest) fun _ _ h => exists_package h

end Packages

/-! ### Headers -/

section Headers

variable {ts rest : List Token} {package : Option String} {imports : List Import}

theorem PackageTokens.ne_nil {names : List String} {front : List Token}
    (h : PackageTokens names front) : front ≠ [] := by
  rcases h with _ | ⟨⟨hpath, harguments, hfirst⟩, h⟩
  · exact cons_ne_nil _ _
  · exact cons_ne_nil _ _

theorem package_of_import {i : Import} {front : List Token} (h : ImportTokens i front)
    (rest : List Token) :
    Tokens.package (front ++ rest) = none := by
  rcases h with @⟨isStatic, everything, names, modifier, path, star, span, span', line, line',
    hmodifier, hpath, hstar, hfirst⟩
  rw [package_eq, many_go_of_none rfl]
  rfl

/-- The longest header is read: the declarations of the grammar, up to where none goes on. -/
theorem header_eq_some_iff :
    Tokens.header ts = some ((package, imports), rest) ↔
      ∃ front, ts = front ++ rest ∧ HeaderTokens package imports front ∧ EndsHeader front rest := by
  constructor
  · intro h
    obtain ⟨found, middle, hoption, h⟩ := bind_eq_some_iff.1 h
    obtain ⟨imports', rest', hmany, h⟩ := bind_eq_some_iff.1 h
    cases h
    obtain ⟨front, rfl, himports, hrest⟩ := exists_many_importDecl (Option.some.inj hmany)
    have hend := importDecl_eq_none_iff.1 hrest
    rcases option_eq_some_iff.1 hoption with ⟨names, rfl, hnames⟩ | ⟨rfl, rfl, hnone⟩
    · obtain ⟨first, rfl, hfirst⟩ := exists_package hnames
      refine ⟨first ++ front, (append_assoc _ _ _).symm, .package hfirst himports, hend,
        fun hnil => ?_⟩
      exact absurd (append_eq_nil_iff.1 hnil).1 hfirst.ne_nil
    · refine ⟨front, rfl, .imports himports, hend, ?_⟩
      rintro rfl
      exact package_eq_none_iff.1 hnone
  · rintro ⟨front, rfl, hheader, hend⟩
    have hrest := importDecl_eq_none_iff.2 hend.imports
    rcases hheader with himports | ⟨hfirst, himports⟩
    -- Without a package declaration in `front` none may be read: there is an import in its
    -- place, or the header is empty.
    · have hnone : Tokens.package (front ++ rest) = none := by
        rcases himports with _ | ⟨himport, himports⟩
        · exact package_eq_none_iff.2 (hend.package rfl)
        · rw [append_assoc]
          exact package_of_import himport _
      have hoption := option_eq_some_iff.2 (.inr ⟨rfl, rfl, hnone⟩)
      have hmany := congrArg some (many_importDecl_append himports hrest)
      exact bind_eq_some_iff.2 ⟨none, _, hoption, bind_eq_some_iff.2 ⟨imports, rest, hmany, rfl⟩⟩
    · rename_i names first middle
      have hoption := option_eq_some_iff.2
        (.inl ⟨names, rfl, package_append hfirst (middle ++ rest)⟩)
      have hmany := congrArg some (many_importDecl_append himports hrest)
      rw [append_assoc]
      exact bind_eq_some_iff.2 ⟨some names, _, hoption,
        bind_eq_some_iff.2 ⟨imports, rest, hmany, rfl⟩⟩

def IsHeaderWord (t : Token) : Prop :=
  ∃ w ∈ headerWords, t.isWord w = true

theorem ImportTokens.exists_headerWord {i : Import} {x : List Token} (h : ImportTokens i x) :
    ∃ t ∈ x, IsHeaderWord t := by
  rcases h with ⟨hmodifier, hpath, hstar, hfirst⟩
  exact ⟨_, mem_cons_self, "import", by decide, isWord_iff.2 ⟨_, _, rfl⟩⟩

theorem PackageTokens.exists_headerWord {names : List String} {x : List Token}
    (h : PackageTokens names x) :
    ∃ t ∈ x, IsHeaderWord t := by
  induction h with
  | plain hpath => exact ⟨_, mem_cons_self, "package", by decide, isWord_iff.2 ⟨_, _, rfl⟩⟩
  | annotated hsign h ih =>
    obtain ⟨t, ht, hword⟩ := ih
    exact ⟨t, mem_append_right _ ht, hword⟩

theorem endsHeader_of_forall {front rest : List Token} (h : ∀ t ∈ rest, ¬ IsHeaderWord t) :
    EndsHeader front rest := by
  constructor
  · rintro i x y rfl himport
    obtain ⟨t, ht, hword⟩ := himport.exists_headerWord
    exact h t (mem_append_left y ht) hword
  · rintro - names x y rfl hpackage
    obtain ⟨t, ht, hword⟩ := hpackage.exists_headerWord
    exact h t (mem_append_left y ht) hword

end Headers

end Java

open Java

/-- **What a Java file lists.** Only the tokens decide whether a file is accepted, so no header
is ever an error. The package and the imports are those of the longest header at the start of
the tokens, and all other tokens are the body, also those that only look like declarations.
Where the words `import` and `package` do not occur outside of the header, it is listed whole.
-/
theorem parse_java_header (source file : String) :
    (parse .java source file = .error ⟨file⟩ ↔
      body? .java (.start source.toList) source.toList = none) ∧
      (∀ outline, parse .java source file = .ok outline ↔
        ∃ front rest, body? .java (.start source.toList) source.toList = some (front ++ rest) ∧
          HeaderTokens outline.package outline.imports front ∧ EndsHeader front rest ∧
          outline.calls = (findings .java rest).calls ∧
          outline.functions = (findings .java rest).functions) ∧
      ∀ package imports front rest, body? .java (.start source.toList) source.toList =
        some (front ++ rest) → HeaderTokens package imports front →
        (∀ t ∈ rest, ¬ IsHeaderWord t) → parse .java source file =
          .ok ⟨package, imports, (findings .java rest).calls, (findings .java rest).functions⟩ := by
  have hok (outline : Outline) : parse .java source file = .ok outline ↔
      ∃ front rest, body? .java (.start source.toList) source.toList = some (front ++ rest) ∧
        HeaderTokens outline.package outline.imports front ∧ EndsHeader front rest ∧
        outline.calls = (findings .java rest).calls ∧
        outline.functions = (findings .java rest).functions := by
    rw [parse_java_eq_ok_iff]
    constructor
    · rintro ⟨tokens, rest, hbody, hheader, hfound⟩
      obtain ⟨front, rfl, hgrammar, hend⟩ := header_eq_some_iff.1 hheader
      exact ⟨front, rest, hbody, hgrammar, hend, hfound⟩
    · rintro ⟨front, rest, hbody, hgrammar, hend, hfound⟩
      exact ⟨front ++ rest, rest, hbody, header_eq_some_iff.2 ⟨front, rfl, hgrammar, hend⟩, hfound⟩
  refine ⟨parse_java_eq_error_iff, hok, ?_⟩
  intro package imports front rest hbody hgrammar hfree
  exact (hok _).2 ⟨front, rest, hbody, hgrammar, endsHeader_of_forall hfree, rfl, rfl⟩

def annotatedHeader : List Token :=
  [.symbol '@' ⟨0, 1⟩ 1, .word "A" ⟨1, 2⟩ 1, .word "package" ⟨3, 10⟩ 1, .word "p" ⟨11, 12⟩ 1,
    .symbol ';' ⟨12, 13⟩ 1,
   .word "import" ⟨14, 20⟩ 2, .word "static" ⟨21, 27⟩ 2, .word "a" ⟨28, 29⟩ 2,
   .symbol '.' ⟨29, 30⟩ 2, .symbol '*' ⟨30, 31⟩ 2,
   .symbol ';' ⟨31, 32⟩ 2]

theorem headerTokens_annotatedHeader :
    HeaderTokens (some "p") [⟨"a", true, true, none, 2⟩] annotatedHeader := by
  have hsign : AnnotationTokens [.symbol '@' ⟨0, 1⟩ 1, .word "A" ⟨1, 2⟩ 1] := by
    refine .mk .last .no ?_
    rintro n ⟨⟩
    decide
  have hpackage : PackageTokens ["p"] [.word "package" ⟨3, 10⟩ 1, .word "p" ⟨11, 12⟩ 1,
      .symbol ';' ⟨12, 13⟩ 1] := .plain .last
  have himport : ImportTokens ⟨"a", true, true, none, 2⟩
      [.word "import" ⟨14, 20⟩ 2, .word "static" ⟨21, 27⟩ 2, .word "a" ⟨28, 29⟩ 2,
        .symbol '.' ⟨29, 30⟩ 2, .symbol '*' ⟨30, 31⟩ 2,
        .symbol ';' ⟨31, 32⟩ 2] :=
    .mk .yes .last .yes (by decide)
  exact .package (.annotated hsign hpackage) (.cons himport .nil)

def annotatedSource : String := "@A package p;\nimport static a.*;\nx"

theorem parse_java_annotatedHeader :
    (∀ t ∈ [Token.word "x" ⟨33, 34⟩ 3], ¬ IsHeaderWord t) ∧
      parse .java annotatedSource "Main.java" =
        .ok ⟨some "p", [⟨"a", true, true, none, 2⟩], [], []⟩ := by
  have hbody : body? .java (.start annotatedSource.toList) annotatedSource.toList =
      some (annotatedHeader ++ [.word "x" ⟨33, 34⟩ 3]) := by
    with_unfolding_all rfl
  have hfree : ∀ t ∈ [Token.word "x" ⟨33, 34⟩ 3], ¬ IsHeaderWord t := by
    intro t ht
    rw [mem_singleton.1 ht]
    rintro ⟨w, hw, hword⟩
    simp only [headerWords, mem_cons, not_mem_nil, or_false] at hw
    rcases hw with rfl | rfl <;> exact absurd hword (by decide)
  have hparse := (parse_java_header annotatedSource "Main.java").2.2 _ _ _ _ hbody
    headerTokens_annotatedHeader hfree
  refine ⟨hfree, hparse.trans ?_⟩
  simp [findings, Java.findings, Java.findingsAt, Token.word?]

/-- An import without its semicolon is accepted and not listed; its first word is a token of
the body. -/
theorem exists_headerWord_in_body :
    ¬ ∀ (source file : String) (outline : Outline) (n : Nat)
    (tokens : List Token), parse .java source file = .ok outline →
      header .java (.start source.toList) source.toList =
        some ((outline.package, outline.imports), n) →
      body? .java ((Place.start source.toList).after (source.toList.take n))
      (source.toList.drop n) = some tokens →
      ∀ t ∈ tokens, ¬ IsHeaderWord t := by
  intro h
  have hheader : header .java (.start "import a".toList) "import a".toList =
      some ((none, []), 0) := by with_unfolding_all rfl
  have hbody : body? .java ((Place.start "import a".toList).after ("import a".toList.take 0))
      ("import a".toList.drop 0) =
        some [.word "import" ⟨0, 6⟩ 1, .word "a" ⟨7, 8⟩ 1] := by
    with_unfolding_all rfl
  have hparse : parse .java "import a" "Main.java" = .ok {} := by
    refine parse_eq_ok_iff.2 ⟨0, _, hheader, hbody, ?_, ?_⟩ <;>
      simp [findings, Java.findings, Java.findingsAt, Token.word?, Token.children?]
  exact h _ _ _ _ _ hparse hheader hbody _ mem_cons_self ⟨"import", by decide, rfl⟩

end WitnessReplay.Source
