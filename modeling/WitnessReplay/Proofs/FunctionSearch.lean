import WitnessReplay.Proofs.TokenSequence

/-!
# Where the functions and calls of a forest are found

How the search for declared functions and for calls goes through a part of a Kotlin forest, and
what it sees of the tokens in front of that part and behind it. The search for a parameter list
and for a returned value goes on behind a part or ends in it; whether a name is called is
decided by the tokens up to the next groups.
-/

namespace WitnessReplay.Source

open List

theorem Findings.append_assoc (a b c : Findings) : a ++ b ++ c = a ++ (b ++ c) :=
  congrArg₂ Findings.mk (List.append_assoc ..) (List.append_assoc ..)

namespace Kotlin

open Text

/-! ### Declarations -/

def endsSearch (t : Token) : Bool :=
  t.isGroup .paren || t.isGroup .brace || t.isSymbol '='

section Declarations

variable {pre post front rest rest' ts : List Token} {t params : Token} {depth i n : Nat}
    {f : Function}

theorem paramsOf?_append (h : ∀ t ∈ front, endsSearch t = false) (rest : List Token) :
    paramsOf? (front ++ rest) = (paramsOf? rest).map fun (between, params, after) =>
    (front ++ between, params, after) := by
  induction front with
  | nil => simp
  | cons t front ih =>
    obtain ⟨ht, hfront⟩ := forall_mem_cons.1 h
    simp only [endsSearch, Bool.or_eq_false_iff] at ht
    rw [cons_append, paramsOf?, ih hfront]
    cases paramsOf? rest <;> simp [ht]

theorem paramsOf?_cons (ht : endsSearch t = true) (rest : List Token) :
    paramsOf? (t :: rest) = if t.isGroup .paren then some ([], t, rest) else none := by
  simp only [endsSearch, Bool.or_eq_true] at ht
  rw [paramsOf?]
  split
  · rfl
  · rw [if_pos (by simpa [*] using ht)]

theorem exists_endsSearch (pre : List Token) :
    (∀ t ∈ pre, endsSearch t = false) ∨
      ∃ front t back, pre = front ++ t :: back ∧ (∀ u ∈ front, endsSearch u = false) ∧
        endsSearch t = true := by
  induction pre with
  | nil => exact .inl (by simp)
  | cons t pre ih =>
    by_cases ht : endsSearch t = true
    · exact .inr ⟨[], t, pre, rfl, by simp, ht⟩
    · have ht : endsSearch t = false := by simpa using ht
      obtain hpre | ⟨front, u, back, rfl, hfront, hu⟩ := ih
      · exact .inl (forall_mem_cons.2 ⟨ht, hpre⟩)
      · exact .inr ⟨t :: front, u, back, rfl, forall_mem_cons.2 ⟨ht, hfront⟩, hu⟩

theorem front_of_paramsOf? (h : paramsOf? ts = some (front, params, rest)) :
    ∀ t ∈ front, endsSearch t = false := by
  obtain ⟨rfl, hparams⟩ := paramsOf?_eq_some h
  obtain hfront | ⟨front', t, back, rfl, hfront, ht⟩ := exists_endsSearch front
  · exact hfront
  · rw [List.append_assoc, paramsOf?_append hfront, cons_append, paramsOf?_cons ht] at h
    split at h
    · simp at h
    · cases h

/-- What a function declaration is made of: the tokens between the `fun` and the parameter
list, the list, and those behind it. -/
def functionOf? (depth : Nat) (front : List Token) (params : Token) (rest : List Token) :
    Option (Nat × Function) :=
  front.getLast?.bind fun name => name.word?.map fun text =>
    (front.length,
      { name := text
        paramCount := countParams ((params.children? .paren).getD [])
        line := name.line
        nameSpan := name.span
        paramsSpan := params.span
        depth
        firstReturnLine := firstReturnLine rest })

theorem declared?_eq (depth : Nat) (after : List Token) :
    declared? depth after = (paramsOf? after).bind fun (front, params, rest) =>
    functionOf? depth front params rest := by
  unfold declared? functionOf?
  cases paramsOf? after with
  | none => rfl
  | some found =>
    obtain ⟨front, params, rest⟩ := found
    cases hlast : front.getLast? with
    | none => simp [hlast]
    | some name => cases hword : name.word? <;> simp [hlast, hword]

/-- Two forests in which the search for the value that a function returns goes the same way. -/
structure SameReturn (rest rest' : List Token) : Prop where
  line_eq : rest.head?.map (·.line) = rest'.head?.map (·.line)
  return_eq : firstReturnLine rest = firstReturnLine rest'

theorem SameReturn.append (h : SameReturn rest rest') (back : List Token) :
    firstReturnLine (back ++ rest) = firstReturnLine (back ++ rest') := by
  induction back with
  | nil => exact h.return_eq
  | cons t back ih =>
    have hhead : (back ++ rest).head?.map (·.line) = (back ++ rest').head?.map (·.line) := by
      cases back with
      | nil => exact h.line_eq
      | cons => rfl
    simp only [cons_append, firstReturnLine, ih, hhead]

/-- Where the search for a parameter list ends in `pre`, what is behind `pre` matters for the
returned value only. -/
theorem declared?_of_endsSearch (h : SameReturn rest rest')
    (hpre : ¬∀ t ∈ pre, endsSearch t = false) (depth : Nat) :
    declared? depth (pre ++ rest) = declared? depth (pre ++ rest') ∧
      ∀ n f, declared? depth (pre ++ rest) = some (n, f) → n < pre.length := by
  obtain hfront | ⟨front, t, back, rfl, hfront, ht⟩ := exists_endsSearch pre
  · exact absurd hfront hpre
  · have hdeclared (rest : List Token) : declared? depth (front ++ t :: back ++ rest) =
        if t.isGroup .paren then functionOf? depth front t (back ++ rest) else none := by
      rw [declared?_eq, List.append_assoc, paramsOf?_append hfront, cons_append,
        paramsOf?_cons ht]
      split <;> simp
    have hentry : functionOf? depth front t (back ++ rest) =
        functionOf? depth front t (back ++ rest') := by
      simp only [functionOf?, h.append back]
    rw [hdeclared, hdeclared, hentry]
    refine ⟨rfl, fun n f hsome => ?_⟩
    split at hsome
    · obtain ⟨name, -, hname⟩ := Option.bind_eq_some_iff.1 hsome
      obtain ⟨text, -, heq⟩ := Option.map_eq_some_iff.1 hname
      cases heq
      simp
    · cases hsome

theorem declarations_cons (depth i : Nat) (t : Token) (after : List Token) :
    declarations depth i (t :: after) =
      ((if t.isWord "fun" then declared? depth after else none).map fun (n, f) =>
      (i + n, f)).toList ++
        declarations depth (i + 1) after := by
  rw [declarations]
  split <;> simp [*]

theorem le_of_mem_declarations {entry : Nat × Function} (h : entry ∈ declarations depth i ts) :
    i ≤ entry.1 := by
  induction ts generalizing i with
  | nil => cases h
  | cons t ts ih =>
    rw [declarations_cons] at h
    obtain h | h := mem_append.1 h
    · obtain ⟨found, -, rfl⟩ := Option.map_eq_some_iff.1 (Option.mem_toList.1 h)
      exact Nat.le_add_right _ _
    · exact Nat.le_of_succ_le (ih h)

end Declarations

/-! ### Groups without a block -/

section Group

variable {d : Delimiter} {children children' pre post : List Token} {span : Span} {line : Nat}

theorem sameReturn_group (hd : d ≠ .brace) (post : List Token) :
    SameReturn (.group d children span line :: post) (.group d children' span line :: post) := by
  refine ⟨rfl, ?_⟩
  have hbrace (ts : List Token) : (Token.group d ts span line).children? .brace = none := if_neg hd
  simp only [firstReturnLine, hbrace]
  rfl

theorem functionOf?_group (depth : Nat) (pre front : List Token) (params : Token)
    (rest : List Token) :
    functionOf? depth (pre ++ .group d children span line :: front) params rest =
      functionOf? depth (pre ++ .group d children' span line :: front) params rest := by
  unfold functionOf?
  cases hfront : front.getLast? with
  | none =>
    obtain rfl := getLast?_eq_none_iff.1 hfront
    simp [Token.word?]
  | some name => simp [getLast?_append, getLast?_cons, hfront]

theorem declared?_group (hd : d ≠ .brace) (hcount : countParams children' = countParams children)
    (depth : Nat) (pre post : List Token) :
    declared? depth (pre ++ .group d children span line :: post) =
      declared? depth (pre ++ .group d children' span line :: post) := by
  by_cases hpre : ∀ t ∈ pre, endsSearch t = false
  · rw [declared?_eq, declared?_eq, paramsOf?_append hpre, paramsOf?_append hpre]
    cases d with
    | brace => exact absurd rfl hd
    | paren => simp [paramsOf?, Token.isGroup, Token.children?, functionOf?, hcount, Token.span]
    | bracket =>
      have hbracket (ts : List Token) : paramsOf? (.group .bracket ts span line :: post) =
          (paramsOf? post).map fun (front, params, rest) =>
          (.group .bracket ts span line :: front, params, rest) := rfl
      rw [hbracket, hbracket]
      cases paramsOf? post with
      | none => rfl
      | some found => exact functionOf?_group depth pre _ _ _
  · exact (declared?_of_endsSearch (sameReturn_group hd post) hpre depth).1

theorem declarations_group (hd : d ≠ .brace)
    (hcount : countParams children' = countParams children) (depth i : Nat)
    (pre post : List Token) :
    declarations depth i (pre ++ .group d children span line :: post) =
      declarations depth i (pre ++ .group d children' span line :: post) := by
  induction pre generalizing i with
  | nil => rfl
  | cons t pre ih =>
    rw [cons_append, cons_append, declarations_cons, declarations_cons,
      declared?_group hd hcount, ih]

end Group

/-! ### Calls -/

section Calls

variable {t : Token} {before before' after after' rest rest' : List Token} {d d' : Delimiter}
    {children children' : List Token}
  {span span' : Span} {line line' : Nat}

/-- Whether something is a call depends on what follows only in that a parameter list must
follow. -/
theorem callAt?_of_head
    (h : after.head?.any (·.isGroup .paren) = after'.head?.any (·.isGroup .paren)) :
    callAt? before t after = callAt? before t after' := by
  have hnext (after : List Token) : callAt? before t after = t.word?.bind fun text =>
      if keywords.contains text || !after.head?.any (·.isGroup .paren) then none
      else if before.head?.any fun u => u.isSymbol '@' || u.isWordIn declarators then none
      else some { name := text, qualifier := qualifierText (qualifierBefore before).1,
                  line := t.line, span := t.span } := by
    unfold callAt?
    cases t.word? with
    | none => rfl
    | some text => cases after.head? <;> simp
  rw [hnext, hnext, h]

theorem qualifierBefore_cons_cons (dot t : Token) (before : List Token) :
    (qualifierBefore (dot :: t :: before)).1 =
      if dot.isSymbol '.' then
        t.word?.elim
          (if t.isSymbol '?' then (before.head?.bind Token.word?).elim [] fun w =>
            (qualifierBefore before.tail).1 ++ [w] else [])
          fun w => (qualifierBefore before).1 ++ [w]
      else [] := by
  rw [qualifierBefore.eq_def]
  cases hdot : dot.isSymbol '.' with
  | false => simp [hdot]
  | true =>
    cases ht : t.word? with
    | some w => simp [hdot, ht]
    | none =>
      cases before with
      | nil => simp [hdot, ht]
      | cons u before =>
        cases hsafe : t.isSymbol '?' with
        | false => simp [hdot, ht, hsafe]
        | true => cases hu : u.word? <;> simp [hdot, ht, hsafe, hu]

/-- The words that points join to a name are not looked for behind a group. -/
theorem qualifierBefore_group (front before before' : List Token) :
    (qualifierBefore (front ++ .group d children span line :: before)).1 =
      (qualifierBefore (front ++ .group d' children' span' line' :: before')).1 := by
  have hfirst (d : Delimiter) (ts : List Token) (span : Span) (line : Nat) (before : List Token) :
      (qualifierBefore (.group d ts span line :: before)).1 = [] := by
    cases before with
    | nil => rfl
    | cons u before => exact qualifierBefore_cons_cons _ u before
  induction hlen : front.length using Nat.strongRecOn generalizing front with
  | _ len ih =>
    subst hlen
    match front with
    | [] => rw [nil_append, nil_append, hfirst, hfirst]
    | [x] =>
      rw [singleton_append, singleton_append, qualifierBefore_cons_cons,
        qualifierBefore_cons_cons]
      rfl
    | [x, y] =>
      simp only [cons_append, nil_append, qualifierBefore_cons_cons x y, hfirst]
      rfl
    | x :: y :: z :: front =>
      have hbehind := ih (z :: front).length (by simp) (z :: front) rfl
      have hsafe := ih front.length (by simp; omega) front rfl
      simp only [cons_append, qualifierBefore_cons_cons x y, head?_cons, tail_cons] at hbehind ⊢
      rw [hbehind, hsafe]

theorem callAt?_group (front before before' after : List Token) (t : Token) :
    callAt? (front ++ .group d children span line :: before) t after =
      callAt? (front ++ .group d' children' span' line' :: before') t after := by
  have hhead : (front ++ .group d children span line :: before).head?.any (fun u =>
      u.isSymbol '@' || u.isWordIn declarators) =
        (front ++ .group d' children' span' line' :: before').head?.any (fun u =>
        u.isSymbol '@' || u.isWordIn declarators) := by
    cases front <;> rfl
  unfold callAt?
  rw [hhead, qualifierBefore_group]

theorem nested_cons (hcall : callAt? before t after = callAt? before' t after')
    (hlength : before.length = before'.length) (depth : Nat) (declared : List Nat) :
    ∃ found, nested depth declared before (t :: after) =
      found ++ nested depth declared (t :: before) after ∧
      nested depth declared before' (t :: after') =
        found ++ nested depth declared (t :: before') after' := by
  cases t with
  | group d children span line =>
    rw [nested, nested]
    exact ⟨_, rfl, rfl⟩
  | _ =>
    rw [nested, nested, hcall, hlength]
    · exact ⟨_, rfl, rfl⟩
    all_goals (intro _ _ _ _ heq; cases heq)

theorem nested_group (hlength : before.length = before'.length) (depth : Nat)
    (declared : List Nat) (front ts : List Token) :
    nested depth declared (front ++ .group d children span line :: before) ts =
      nested depth declared (front ++ .group d' children' span' line' :: before') ts := by
  induction ts generalizing front with
  | nil => rw [nested, nested]
  | cons t ts ih =>
    obtain ⟨found, hleft, hright⟩ :=
      nested_cons (callAt?_group front before before' ts t) (by simp [hlength]) depth declared
    rw [hleft, hright]
    exact congrArg (found ++ ·) (ih (t :: front))

theorem nested_append (h : rest.head?.any (·.isGroup .paren) = rest'.head?.any (·.isGroup .paren))
    (depth : Nat) (declared : List Nat) (before pre : List Token) :
    ∃ found, nested depth declared before (pre ++ rest) =
      found ++ nested depth declared (pre.reverse ++ before) rest ∧
      nested depth declared before (pre ++ rest') =
        found ++ nested depth declared (pre.reverse ++ before) rest' := by
  induction pre generalizing before with
  | nil => exact ⟨{}, rfl, rfl⟩
  | cons t pre ih =>
    have hhead : (pre ++ rest).head?.any (·.isGroup .paren) =
        (pre ++ rest').head?.any (·.isGroup .paren) := by
      cases pre with
      | nil => exact h
      | cons => rfl
    obtain ⟨here, hleft, hright⟩ := nested_cons (callAt?_of_head hhead) rfl depth declared
    obtain ⟨found, hleft', hright'⟩ := ih (t :: before)
    refine ⟨here ++ found, ?_, ?_⟩
    · rw [cons_append, hleft, hleft', Findings.append_assoc, reverse_cons, List.append_assoc]
      rfl
    · rw [cons_append, hright, hright', Findings.append_assoc, reverse_cons, List.append_assoc]
      rfl

end Calls

/-! ### Where a function is found -/

section Found

variable {ts : List Token}

theorem exists_of_mem_declarations {depth i : Nat} {entry : Nat × Function}
    (h : entry ∈ declarations depth i ts) :
    ∃ before t after n, ts = before ++ t :: after ∧ t.isWord "fun" = true ∧
      declared? depth after = some (n, entry.2) := by
  induction ts generalizing i with
  | nil => cases h
  | cons t ts ih =>
    rw [declarations_cons] at h
    obtain h | h := mem_append.1 h
    · obtain ⟨⟨n, f⟩, hfound, rfl⟩ := Option.map_eq_some_iff.1 (Option.mem_toList.1 h)
      split at hfound
      next ht => exact ⟨[], t, ts, n, rfl, ht, hfound⟩
      · cases hfound
    · obtain ⟨before, u, after, n, rfl, hu, hdeclared⟩ := ih h
      exact ⟨t :: before, u, after, n, rfl, hu, hdeclared⟩

theorem depth_of_declared? {depth n : Nat} {f : Function} (h : declared? depth ts = some (n, f)) :
    f.depth = depth := by
  rw [declared?_eq] at h
  obtain ⟨⟨front, params, rest⟩, -, hentry⟩ := Option.bind_eq_some_iff.1 h
  obtain ⟨name, -, hname⟩ := Option.bind_eq_some_iff.1 hentry
  obtain ⟨text, -, heq⟩ := Option.map_eq_some_iff.1 hname
  cases heq
  rfl

/-- A function that is not declared in a forest itself is found in one of its groups. -/
theorem exists_of_mem_nested {depth : Nat} {declared : List Nat} {before : List Token}
    {f : Function} (h : f ∈ (nested depth declared before ts).functions) :
    ∃ pre d children span line post, ts = pre ++ .group d children span line :: post ∧
      f ∈ (findings (d.inner depth) children).functions := by
  induction ts generalizing before with
  | nil =>
    rw [nested] at h
    cases h
  | cons t ts ih =>
    have hlater (h : f ∈ (nested depth declared (t :: before) ts).functions) :
        ∃ pre d children span line post, t :: ts = pre ++ .group d children span line :: post ∧
          f ∈ (findings (d.inner depth) children).functions := by
      obtain ⟨pre, d, children, span, line, post, rfl, hf⟩ := ih h
      exact ⟨t :: pre, d, children, span, line, post, rfl, hf⟩
    cases t with
    | group d children span line =>
      rw [nested, Findings.functions_append] at h
      obtain h | h := mem_append.1 h
      · exact ⟨[], d, children, span, line, ts, rfl, h⟩
      · exact hlater h
    | _ =>
      rw [nested, Findings.functions_append] at h
      · obtain h | h := mem_append.1 h
        · split at h <;> cases h
        · exact hlater h
      all_goals (intro _ _ _ _ heq; cases heq)

theorem exists_of_mem_findings {depth : Nat} {f : Function}
    (h : f ∈ (findings depth ts).functions) :
    (∃ before t after n, ts = before ++ t :: after ∧ t.isWord "fun" = true ∧
    declared? depth after = some (n, f)) ∨
      ∃ pre d children span line post, ts = pre ++ .group d children span line :: post ∧
        f ∈ (findings (d.inner depth) children).functions := by
  rw [findings, Findings.functions_append] at h
  obtain h | h := mem_append.1 h
  · obtain ⟨entry, hentry, rfl⟩ := mem_map.1 h
    exact .inl (exists_of_mem_declarations hentry)
  · exact .inr (exists_of_mem_nested h)

theorem sizeOf_children_lt {pre children post : List Token} {d : Delimiter} {span : Span}
    {line : Nat} :
    sizeOf children < sizeOf (pre ++ .group d children span line :: post) := by
  induction pre with
  | nil =>
    simp only [nil_append, List.cons.sizeOf_spec, Token.group.sizeOf_spec]
    omega
  | cons t pre ih =>
    rw [cons_append, List.cons.sizeOf_spec]
    omega

theorem le_depth_of_mem {depth : Nat} {f : Function} (h : f ∈ (findings depth ts).functions) :
    depth ≤ f.depth := by
  induction hsize : sizeOf ts using Nat.strongRecOn generalizing ts depth with
  | _ size ih =>
    subst hsize
    obtain ⟨before, t, after, n, rfl, -, hdeclared⟩ | ⟨pre, d, children, span, line, post, rfl,
      hf⟩ := exists_of_mem_findings h
    · exact (depth_of_declared? hdeclared).ge
    · refine Nat.le_trans ?_ (ih _ sizeOf_children_lt hf rfl)
      unfold Delimiter.inner
      split <;> omega

end Found

end Kotlin

end WitnessReplay.Source
