import WitnessReplay.Proofs.TokenSequence

/-!
# How far the rules of Kotlin look ahead

Whether a comment, a string or a name between backticks ends where it does may depend on all of
the text behind it: a comment or a template that is opened inside and not closed there is
looked for up to the end of the text. What such a search meets on its way matters only if it is
a special character. So in front of two texts without special characters, with the same text
behind them, each rule has the same end.
-/

namespace WitnessReplay.Source

open Text List

/-- A character that no search for the end of a comment, a string, a template or a character
literal takes notice of. -/
def isNeutral (c : Char) : Bool :=
  !(['\n', '"', '\'', '\\', '$', '{', '}', '/', '*'].contains c)

theorem isNeutral_iff {c : Char} : isNeutral c = true ↔ c ≠ '\n' ∧ c ≠ '"' ∧ c ≠ '\'' ∧ c ≠ '\\' ∧
    c ≠ '$' ∧ c ≠ '{' ∧ c ≠ '}' ∧
    c ≠ '/' ∧ c ≠ '*' := by
  simp [isNeutral]

/-- A text of such characters. -/
structure NeutralText (w : List Char) : Prop where
  ne_nil : w ≠ []
  neutral : ∀ c ∈ w, isNeutral c = true

/-- How far a rule goes in two texts that have `k` characters in common, then differ in `l` and
`l'` characters, and are the same behind them: in neither of them to an end, or to the same end
in front of the difference, or to the same end behind it. -/
inductive Mirrors (k l l' : Nat) : Option Nat → Option Nat → Prop where
  | none : Mirrors k l l' none none
  | within {n : Nat} (h : n ≤ k) : Mirrors k l l' (some n) (some n)
  | beyond (m : Nat) : Mirrors k l l' (some (k + l + m)) (some (k + l' + m))

namespace Mirrors

variable {k l l' : Nat} {o o' : Option Nat}

theorem add (h : Mirrors k l l' o o') (j : Nat) : Mirrors (k + j) l l' (o.map (· + j))
    (o'.map (· + j)) := by
  cases h with
  | none => exact .none
  | within h => exact .within (Nat.add_le_add_right h j)
  | beyond m =>
    have hbeyond : Mirrors (k + j) l l' (some (k + j + l + m)) (some (k + j + l' + m)) := .beyond m
    rwa [Nat.add_right_comm k j l, Nat.add_right_comm k j l', Nat.add_right_comm _ j m,
      Nat.add_right_comm _ j m] at hbeyond

theorem getD (h : Mirrors k l l' o o') : Mirrors k l l' (some (o.getD 0)) (some (o'.getD 0)) := by
  cases h with
  | none => exact .within (Nat.zero_le k)
  | within h => exact .within h
  | beyond m => exact .beyond m

theorem map_add (k l l' : Nat) (o : Option Nat) : Mirrors k l l' (o.map (· + (k + l)))
    (o.map (· + (k + l'))) := by
  cases o with
  | none => exact .none
  | some m =>
    rw [Option.map_some, Option.map_some, Nat.add_comm m, Nat.add_comm m]
    exact .beyond m

theorem eq_of_le {n : Nat} (h : Mirrors k l l' (some n) o') (hl : 0 < l) (hn : n ≤ k) :
    o' = some n := by
  cases h with
  | within => rfl
  | beyond m => omega

theorem eq_none (h : Mirrors k l l' Option.none o') : o' = Option.none := by
  cases h
  rfl

end Mirrors

theorem takeWhile_append_of_stop {p : Char → Bool} {s : List Char} (hs : s.takeWhile p = [])
    (a : List Char) :
    (a ++ s).takeWhile p = a.takeWhile p := by
  rw [takeWhile_append, hs, append_nil]
  split
  next hall => exact ((List.takeWhile_prefix p).eq_of_length hall).symm
  · rfl

/-! ### What the rules do with a neutral character -/

theorem quotedTail_other {quote c : Char} {r : List Char} (hescape : c ≠ '\\')
    (hquote : c ≠ quote) (hline : c ≠ '\n') :
    quotedTail quote (c :: r) = (quotedTail quote r).map (· + 1) := by
  cases r <;> simp [quotedTail, hescape, hquote, hline]

theorem quotedTail_quote {quote : Char} (hquote : quote ≠ '\\') (r : List Char) :
    quotedTail quote (quote :: r) = some 1 := by
  cases r <;> simp [quotedTail, hquote]

theorem quotedTail_line {quote : Char} (hquote : quote ≠ '\n') (r : List Char) :
    quotedTail quote ('\n' :: r) = none := by
  cases r <;> simp [quotedTail, hquote.symm]

namespace Kotlin

theorem commentTail_open (r : List Char) :
    commentTail ('/' :: '*' :: r) =
      (commentTail r).elim ((commentTail ('*' :: r)).map (· + 1)) fun n =>
      (commentTail (r.drop n)).map (· + (n + 2)) := by
  rw [commentTail]
  cases commentTail r <;> rfl

theorem plainTail_template (r : List Char) :
    plainTail ('$' :: '{' :: r) =
      (templateTail r).elim ((plainTail ('{' :: r)).map (· + 1)) fun n =>
      (plainTail (r.drop n)).map (· + (n + 2)) := by
  rw [plainTail]
  cases templateTail r <;> rfl

theorem rawTail_template (r : List Char) :
    rawTail ('$' :: '{' :: r) =
      (templateTail r).elim ((rawTail ('{' :: r)).map (· + 1)) fun n =>
      (rawTail (r.drop n)).map (· + (n + 2)) := by
  rw [rawTail]
  cases templateTail r <;> rfl

theorem commentTail_other {c : Char} {r : List Char} (hclose : ¬(c = '*' ∧ r.head? = some '/'))
    (hopen : ¬(c = '/' ∧ r.head? = some '*')) :
    commentTail (c :: r) = (commentTail r).map (· + 1) := by
  rw [commentTail.eq_def]
  split <;> simp_all

theorem plainTail_other {c : Char} {r : List Char} (hquote : c ≠ '"') (hline : c ≠ '\n')
    (hescape : c ≠ '\\') (htemplate : ¬(c = '$' ∧ r.head? = some '{')) :
    plainTail (c :: r) = (plainTail r).map (· + 1) := by
  rw [plainTail.eq_def]
  split <;> simp_all

theorem rawTail_other {c : Char} {r : List Char} (hquotes : ¬∃ r', c :: r = '"' :: '"' :: '"' :: r')
    (htemplate : ¬(c = '$' ∧ r.head? = some '{')) : rawTail (c :: r) = (rawTail r).map (· + 1) := by
  rw [rawTail.eq_def]
  split <;> simp_all

end Kotlin

section Mirrored

variable {w w' y : List Char}

/-- Another rule goes on where the first one ends; where the first one has no end, there is
something else to do. -/
theorem Mirrors.elim {a : List Char} {f : List Char → Option Nat} {o o' x x' : Option Nat} {j : Nat}
    (h : Mirrors a.length w.length w'.length o o')
    (hnone : Mirrors (a.length + j) w.length w'.length x x')
    (hf : ∀ n ≤ a.length,
    Mirrors (a.drop n).length w.length w'.length (f (a.drop n ++ (w ++ y)))
    (f (a.drop n ++ (w' ++ y)))) :
    Mirrors (a.length + j) w.length w'.length (o.elim x fun n =>
    (f ((a ++ (w ++ y)).drop n)).map (· + (n + j)))
      (o'.elim x' fun n => (f ((a ++ (w' ++ y)).drop n)).map (· + (n + j))) := by
  cases h with
  | none => exact hnone
  | @within n hn =>
    have hnext := (hf n hn).add (n + j)
    rw [length_drop, ← Nat.add_assoc, Nat.sub_add_cancel hn] at hnext
    simp only [Option.elim_some, drop_append_of_le_length hn]
    exact hnext
  | beyond m =>
    have hdrop (v : List Char) : (a ++ (v ++ y)).drop (a.length + v.length + m) = y.drop m := by
      rw [← append_assoc, ← length_append, drop_length_add_append]
    simp only [Option.elim_some, hdrop]
    cases f (y.drop m) with
    | none => exact .none
    | some n =>
      have hsum (v : List Char) : n + (a.length + v.length + m + j) =
          a.length + j + v.length + (m + n) := by omega
      rw [Option.map_some, Option.map_some, hsum, hsum]
      exact .beyond (m + n)

theorem rule_neutral {f : List Char → Option Nat}
    (hf : ∀ {c r}, isNeutral c = true → f (c :: r) = (f r).map (· + 1))
    (hw : ∀ c ∈ w, isNeutral c = true) : f (w ++ y) = (f y).map (· + w.length) := by
  induction w with
  | nil => simp
  | cons c w ih =>
    obtain ⟨hc, hw⟩ := forall_mem_cons.1 hw
    rw [cons_append, hf hc, ih hw, Option.map_map]
    rfl

theorem mirrors_neutral {f : List Char → Option Nat}
    (hf : ∀ {c r}, isNeutral c = true → f (c :: r) = (f r).map (· + 1))
    (hw : NeutralText w) (hw' : NeutralText w') :
    Mirrors 0 w.length w'.length (f (w ++ y)) (f (w' ++ y)) := by
  have hmap := Mirrors.map_add 0 w.length w'.length (f y)
  rwa [Nat.zero_add, Nat.zero_add, ← rule_neutral hf hw.neutral,
    ← rule_neutral hf hw'.neutral] at hmap

theorem mirrors_escaped {f : List Char → Option Nat}
    (hf : ∀ {c r}, isNeutral c = true → f (c :: r) = (f r).map (· + 1))
    (hescape : ∀ d r, f ('\\' :: d :: r) = (f r).map (· + 2)) (hw : NeutralText w)
    (hw' : NeutralText w') :
    Mirrors 1 w.length w'.length (f ('\\' :: (w ++ y))) (f ('\\' :: (w' ++ y))) := by
  have hpassed {v : List Char} (hv : NeutralText v) :
      f ('\\' :: (v ++ y)) = (f y).map (· + (1 + v.length)) := by
    obtain ⟨d, v, rfl⟩ := exists_cons_of_ne_nil hv.ne_nil
    rw [cons_append, hescape, rule_neutral hf (forall_mem_cons.1 hv.neutral).2, Option.map_map]
    congr 1
    funext n
    simp only [Function.comp_apply, length_cons]
    omega
  rw [hpassed hw, hpassed hw']
  exact .map_add 1 _ _ _

/-- A special character behind `a` is in `a`, or behind the neutral text too. -/
theorem NeutralText.exists_of_head? {d : Char} (hw : NeutralText w) (hd : isNeutral d = false)
    {a : List Char} (h : (a ++ (w ++ y)).head? = some d) : ∃ b, a = d :: b := by
  obtain ⟨c, v, rfl⟩ := exists_cons_of_ne_nil hw.ne_nil
  cases a with
  | nil =>
    obtain rfl : c = d := by simpa using h
    cases hd.symm.trans (hw.neutral c mem_cons_self)
  | cons e a =>
    obtain rfl : e = d := by simpa using h
    exact ⟨a, rfl⟩

theorem NeutralText.exists_of_cons {d : Char} (hw : NeutralText w) (hd : isNeutral d = false)
    {a r : List Char} (h : a ++ (w ++ y) = d :: r) : ∃ b, a = d :: b ∧ b ++ (w ++ y) = r := by
  obtain ⟨b, rfl⟩ := hw.exists_of_head? (y := y) hd (by rw [h]; rfl)
  exact ⟨b, rfl, (List.cons.inj h).2⟩

/-- The next character is the same special one in front of one neutral text as in front of
another. -/
theorem NeutralText.head?_iff {d : Char} (hw : NeutralText w) (hw' : NeutralText w')
    (hd : isNeutral d = false) (a : List Char) :
    (a ++ (w ++ y)).head? = some d ↔ (a ++ (w' ++ y)).head? = some d := by
  constructor
  · intro h
    obtain ⟨b, rfl⟩ := hw.exists_of_head? hd h
    rfl
  · intro h
    obtain ⟨b, rfl⟩ := hw'.exists_of_head? hd h
    rfl

namespace Kotlin

theorem mirrors_commentTail (hw : NeutralText w) (hw' : NeutralText w') (a : List Char) :
    Mirrors a.length w.length w'.length (commentTail (a ++ (w ++ y)))
    (commentTail (a ++ (w' ++ y))) := by
  induction hlen : a.length using Nat.strongRecOn generalizing a with
  | _ len ih =>
    subst hlen
    cases a with
    | nil =>
      refine mirrors_neutral (fun {c r} hc => commentTail_other ?_ ?_) hw hw'
      · rintro ⟨rfl, -⟩
        cases hc
      · rintro ⟨rfl, -⟩
        cases hc
    | cons c a =>
      have hslash := hw.head?_iff (y := y) hw' (d := '/') rfl a
      have hstar := hw.head?_iff (y := y) hw' (d := '*') rfl a
      simp only [cons_append]
      by_cases hclose : c = '*' ∧ (a ++ (w ++ y)).head? = some '/'
      · obtain ⟨rfl, hhead⟩ := hclose
        obtain ⟨b, rfl⟩ := hw.exists_of_head? rfl hhead
        simp only [cons_append, commentTail]
        exact .within (by simp)
      · by_cases hopen : c = '/' ∧ (a ++ (w ++ y)).head? = some '*'
        · obtain ⟨rfl, hhead⟩ := hopen
          obtain ⟨b, rfl⟩ := hw.exists_of_head? rfl hhead
          simp only [cons_append, commentTail_open]
          refine Mirrors.elim (j := 2)
            (ih b.length (by simp only [length_cons]; omega) b rfl) ?_ fun n _ =>
            ih _ (by simp only [length_cons, length_drop]; omega) _ rfl
          exact (ih ('*' :: b).length (by simp) ('*' :: b) rfl).add 1
        · rw [commentTail_other hclose hopen,
            commentTail_other (by rwa [← hslash]) (by rwa [← hstar])]
          exact (ih a.length (Nat.lt_succ_self _) a rfl).add 1

theorem mirrors_quotedTail (hw : NeutralText w) (hw' : NeutralText w') (a : List Char) :
    Mirrors a.length w.length w'.length (quotedTail '\'' (a ++ (w ++ y)))
    (quotedTail '\'' (a ++ (w' ++ y))) := by
  have hneutral {c : Char} {r : List Char} (hc : isNeutral c = true) :
      quotedTail '\'' (c :: r) = (quotedTail '\'' r).map (· + 1) := by
    obtain ⟨hline, -, hquote, hescape, -⟩ := isNeutral_iff.1 hc
    exact quotedTail_other hescape hquote hline
  have hescaped (d : Char) (r : List Char) : quotedTail '\'' ('\\' :: d :: r) =
      (quotedTail '\'' r).map (· + 2) := by
    simp [quotedTail]
  induction hlen : a.length using Nat.strongRecOn generalizing a with
  | _ len ih =>
    subst hlen
    cases a with
    | nil => exact mirrors_neutral hneutral hw hw'
    | cons c a =>
      simp only [cons_append]
      by_cases hescape : c = '\\'
      · subst hescape
        cases a with
        | nil => exact mirrors_escaped hneutral hescaped hw hw'
        | cons d a =>
          simp only [cons_append, hescaped]
          exact (ih a.length (by simp only [length_cons]; omega) a rfl).add 2
      · by_cases hquote : c = '\''
        · subst hquote
          rw [quotedTail_quote (by decide), quotedTail_quote (by decide)]
          exact .within (by simp)
        · by_cases hline : c = '\n'
          · subst hline
            rw [quotedTail_line (by decide), quotedTail_line (by decide)]
            exact .none
          · rw [quotedTail_other hescape hquote hline, quotedTail_other hescape hquote hline]
            exact (ih a.length (Nat.lt_succ_self _) a rfl).add 1

theorem mirrors_charLiteral (hw : NeutralText w) (hw' : NeutralText w') (a : List Char) :
    Mirrors (a.length + 1) w.length w'.length (charLiteral ('\'' :: (a ++ (w ++ y))))
    (charLiteral ('\'' :: (a ++ (w' ++ y)))) := by
  have hhead := hw.head?_iff (y := y) hw' (d := '\'') rfl a
  simp only [charLiteral, hhead]
  split
  · exact .none
  · exact (mirrors_quotedTail hw hw' a).add 1

/-- The rules for strings and templates in front of two neutral texts. They call one another. -/
structure StringRules (w w' y a : List Char) : Prop where
  parts : Mirrors a.length w.length w'.length (some (templateParts (a ++ (w ++ y))))
    (some (templateParts (a ++ (w' ++ y))))
  template : Mirrors a.length w.length w'.length (templateTail (a ++ (w ++ y)))
    (templateTail (a ++ (w' ++ y)))
  plain : Mirrors a.length w.length w'.length (plainTail (a ++ (w ++ y)))
    (plainTail (a ++ (w' ++ y)))
  raw : Mirrors a.length w.length w'.length (rawTail (a ++ (w ++ y))) (rawTail (a ++ (w' ++ y)))
  string : Mirrors a.length w.length w'.length (stringTail (a ++ (w ++ y)))
    (stringTail (a ++ (w' ++ y)))

variable {a : List Char}

/-- What has an end of its own inside a template: a block in braces, a string, a character; its
rest after its first character. -/
def templatePart (c : Char) (r : List Char) : Option Nat :=
  if c = '{' then templateTail r
  else if c = '"' then stringTail r
  else if c = '\'' then (charLiteral (c :: r)).map (· - 1)
  else none

theorem templateParts_cons {c : Char} (hc : c ≠ '}') (r : List Char) :
    some (templateParts (c :: r)) =
      (some ((templatePart c r).getD 0)).elim none fun n =>
      (some (templateParts (r.drop n))).map (· + (n + 1)) := by
  rw [templateParts, if_neg hc, Option.elim_some, Option.map_some, Nat.add_comm]
  rfl

theorem templateTail_eq (s : List Char) :
    templateTail s = if (s.drop (templateParts s)).head? = some '}' then
    some (templateParts s + 1) else none := by
  rw [templateTail]
  split
  next hdrop => simp only [hdrop, head?_cons, if_pos]
  next hother =>
    refine (if_neg fun hhead => ?_).symm
    obtain ⟨r, hr⟩ := head?_eq_some_iff.1 hhead
    exact hother r hr

theorem mirrors_templatePart (hw : NeutralText w) (hw' : NeutralText w')
    (h : StringRules w w' y a) (c : Char) :
    Mirrors a.length w.length w'.length (templatePart c (a ++ (w ++ y)))
    (templatePart c (a ++ (w' ++ y))) := by
  unfold templatePart
  split
  · exact h.template
  · split
    · exact h.string
    · split
      next hquote =>
        subst hquote
        have hhead := hw.head?_iff (y := y) hw' (d := '\'') rfl a
        simp only [charLiteral, hhead]
        split
        · exact .none
        · simp only [Option.map_map, Function.comp_def, Nat.add_sub_cancel, Option.map_id']
          exact mirrors_quotedTail hw hw' a
      · exact .none

theorem mirrors_templateParts (hw : NeutralText w) (hw' : NeutralText w')
    (ih : ∀ b : List Char, b.length < a.length → StringRules w w' y b) :
    Mirrors a.length w.length w'.length (some (templateParts (a ++ (w ++ y))))
    (some (templateParts (a ++ (w' ++ y)))) := by
  cases a with
  | nil =>
    refine mirrors_neutral (f := fun s => some (templateParts s)) (fun {c r} hc => ?_) hw hw'
    obtain ⟨-, hquote, hapostrophe, -, -, hopen, hclose, -⟩ := isNeutral_iff.1 hc
    rw [templateParts_cons hclose]
    simp [templatePart, hopen, hquote, hapostrophe]
  | cons c a =>
    have hrules := ih a (Nat.lt_succ_self _)
    by_cases hclose : c = '}'
    · subst hclose
      simp only [cons_append, templateParts]
      exact .within (Nat.zero_le _)
    · rw [cons_append, cons_append, templateParts_cons hclose, templateParts_cons hclose]
      exact (mirrors_templatePart hw hw' hrules c).getD.elim (f := fun s =>
        some (templateParts s)) (j := 1) .none
        fun n _ => (ih (a.drop n) (by simp only [length_cons, length_drop]; omega)).parts

theorem mirrors_templateTail (hw : NeutralText w) (hw' : NeutralText w')
    (h : Mirrors a.length w.length w'.length (some (templateParts (a ++ (w ++ y))))
    (some (templateParts (a ++ (w' ++ y))))) :
    Mirrors a.length w.length w'.length (templateTail (a ++ (w ++ y)))
    (templateTail (a ++ (w' ++ y))) := by
  rw [templateTail_eq, templateTail_eq]
  generalize templateParts (a ++ (w ++ y)) = n, templateParts (a ++ (w' ++ y)) = n' at h
  cases h with
  | within hn =>
    simp only [drop_append_of_le_length hn, ← hw.head?_iff (y := y) hw' (d := '}') rfl (a.drop _)]
    split
    next hhead =>
      obtain ⟨b, hb⟩ := hw.exists_of_head? rfl hhead
      have hlength := congrArg List.length hb
      simp only [length_drop, length_cons] at hlength
      exact .within (by omega)
    · exact .none
  | beyond m =>
    have hdrop (v : List Char) : (a ++ (v ++ y)).drop (a.length + v.length + m) = y.drop m := by
      rw [← append_assoc, ← length_append, drop_length_add_append]
    rw [hdrop, hdrop]
    split
    · exact .beyond (m + 1)
    · exact .none

theorem mirrors_plainTail (hw : NeutralText w) (hw' : NeutralText w')
    (ih : ∀ b : List Char, b.length < a.length → StringRules w w' y b) :
    Mirrors a.length w.length w'.length (plainTail (a ++ (w ++ y)))
    (plainTail (a ++ (w' ++ y))) := by
  have hneutral {c : Char} {r : List Char} (hc : isNeutral c = true) :
      plainTail (c :: r) = (plainTail r).map (· + 1) := by
    obtain ⟨hline, hquote, -, hescape, htemplate, -⟩ := isNeutral_iff.1 hc
    exact plainTail_other hquote hline hescape fun h => htemplate h.1
  have hescaped (d : Char) (r : List Char) :
      plainTail ('\\' :: d :: r) = (plainTail r).map (· + 2) := by
    rw [plainTail]
  cases a with
  | nil => exact mirrors_neutral hneutral hw hw'
  | cons c a =>
    simp only [cons_append]
    by_cases hescape : c = '\\'
    · subst hescape
      cases a with
      | nil => exact mirrors_escaped hneutral hescaped hw hw'
      | cons d a =>
        simp only [cons_append, hescaped]
        exact (ih a (by simp only [length_cons]; omega)).plain.add 2
    · by_cases hquote : c = '"'
      · subst hquote
        simp only [plainTail]
        exact .within (by simp)
      · by_cases hline : c = '\n'
        · subst hline
          simp only [plainTail]
          exact .none
        · by_cases htemplate : c = '$' ∧ (a ++ (w ++ y)).head? = some '{'
          · obtain ⟨rfl, hhead⟩ := htemplate
            obtain ⟨b, rfl⟩ := hw.exists_of_head? rfl hhead
            simp only [cons_append, plainTail_template]
            refine Mirrors.elim (j := 2) (ih b (by simp only [length_cons]; omega)).template
              ?_ fun n _ => (ih _ (by simp only [length_cons, length_drop]; omega)).plain
            exact (ih ('{' :: b) (by simp)).plain.add 1
          · rw [plainTail_other hquote hline hescape htemplate,
              plainTail_other hquote hline hescape (by rwa [← hw.head?_iff hw' rfl])]
            exact (ih a (Nat.lt_succ_self _)).plain.add 1

theorem exists_of_quotes (hw : NeutralText w) {r : List Char}
    (h : a ++ (w ++ y) = '"' :: '"' :: '"' :: r) :
    ∃ b, a = '"' :: '"' :: '"' :: b := by
  obtain ⟨a, rfl, h₁⟩ := hw.exists_of_cons rfl h
  obtain ⟨a, rfl, h₂⟩ := hw.exists_of_cons rfl h₁
  obtain ⟨a, rfl, -⟩ := hw.exists_of_cons rfl h₂
  exact ⟨a, rfl⟩

theorem mirrors_rawTail (hw : NeutralText w) (hw' : NeutralText w')
    (ih : ∀ b : List Char, b.length < a.length → StringRules w w' y b) :
    Mirrors a.length w.length w'.length (rawTail (a ++ (w ++ y))) (rawTail (a ++ (w' ++ y))) := by
  cases a with
  | nil =>
    refine mirrors_neutral (fun {c r} hc => rawTail_other ?_ ?_) hw hw'
    · rintro ⟨r', h⟩
      obtain rfl := (List.cons.inj h).1
      cases hc
    · rintro ⟨rfl, -⟩
      cases hc
  | cons c a =>
    by_cases hquotes : ∃ r, c :: a ++ (w ++ y) = '"' :: '"' :: '"' :: r
    · obtain ⟨r, hquotes⟩ := hquotes
      obtain ⟨b, hb⟩ := exists_of_quotes hw hquotes
      have hstop {v : List Char}
          (hv : NeutralText v) : (b ++ (v ++ y)).takeWhile (· == '"') = b.takeWhile (· == '"') := by
        obtain ⟨d, v, rfl⟩ := exists_cons_of_ne_nil hv.ne_nil
        obtain ⟨-, hd, -⟩ := isNeutral_iff.1 (hv.neutral d mem_cons_self)
        exact takeWhile_append_of_stop (takeWhile_cons_of_neg (by simpa using hd)) b
      rw [hb]
      simp only [cons_append, rawTail, hstop hw, hstop hw']
      refine .within ?_
      have := (List.takeWhile_prefix (· == '"') (l := b)).length_le
      simpa using this
    · have hquotes' : ¬∃ r, c :: (a ++ (w' ++ y)) = '"' :: '"' :: '"' :: r := by
        rintro ⟨r, h⟩
        obtain ⟨b, hb⟩ := exists_of_quotes (a := c :: a) hw' h
        exact hquotes ⟨b ++ (w ++ y), by rw [hb]; rfl⟩
      simp only [cons_append] at hquotes ⊢
      by_cases htemplate : c = '$' ∧ (a ++ (w ++ y)).head? = some '{'
      · obtain ⟨rfl, hhead⟩ := htemplate
        obtain ⟨b, rfl⟩ := hw.exists_of_head? rfl hhead
        simp only [cons_append, rawTail_template]
        refine Mirrors.elim (j := 2) (ih b (by simp only [length_cons]; omega)).template ?_
          fun n _ => (ih _ (by simp only [length_cons, length_drop]; omega)).raw
        exact (ih ('{' :: b) (by simp)).raw.add 1
      · rw [rawTail_other hquotes htemplate,
          rawTail_other hquotes' (by rwa [← hw.head?_iff hw' rfl])]
        exact (ih a (Nat.lt_succ_self _)).raw.add 1

theorem stringTail_quotes (r : List Char) : stringTail ('"' :: '"' :: r) = (rawTail r).elim
    (some 1) fun n => some (n + 2) := by
  rw [stringTail]
  cases rawTail r <;> rfl

theorem stringTail_other {s : List Char} (h : ¬∃ r, s = '"' :: '"' :: r) :
    stringTail s = plainTail s := by
  rw [stringTail.eq_def]
  split <;> simp_all

theorem mirrors_stringTail (hw : NeutralText w) (hw' : NeutralText w')
    (ih : ∀ b : List Char, b.length < a.length → StringRules w w' y b)
    (h : Mirrors a.length w.length w'.length (plainTail (a ++ (w ++ y)))
    (plainTail (a ++ (w' ++ y)))) :
    Mirrors a.length w.length w'.length (stringTail (a ++ (w ++ y)))
    (stringTail (a ++ (w' ++ y))) := by
  by_cases hquotes : ∃ b, a = '"' :: '"' :: b
  · obtain ⟨b, rfl⟩ := hquotes
    simp only [cons_append, stringTail_quotes]
    have hraw := (ih b (by simp only [length_cons]; omega)).raw
    generalize rawTail (b ++ (w ++ y)) = o, rawTail (b ++ (w' ++ y)) = o' at hraw
    cases hraw with
    | none => exact .within (by simp)
    | within hn => exact (Mirrors.within hn).add 2
    | beyond m => exact (Mirrors.beyond m).add 2
  · have hplain {v : List Char} (hv : NeutralText v) :
        stringTail (a ++ (v ++ y)) = plainTail (a ++ (v ++ y)) := by
      refine stringTail_other ?_
      rintro ⟨r, hr⟩
      obtain ⟨a, rfl, hr₁⟩ := hv.exists_of_cons rfl hr
      obtain ⟨b, rfl, -⟩ := hv.exists_of_cons rfl hr₁
      exact hquotes ⟨b, rfl⟩
    rw [hplain hw, hplain hw']
    exact h

theorem mirrors_stringRules (hw : NeutralText w) (hw' : NeutralText w') (a : List Char) :
    StringRules w w' y a := by
  induction hlen : a.length using Nat.strongRecOn generalizing a with
  | _ len ih =>
    subst hlen
    have hshorter (b : List Char) (hb : b.length < a.length) : StringRules w w' y b :=
      ih b.length hb b rfl
    have hparts := mirrors_templateParts hw hw' hshorter
    have hplain := mirrors_plainTail hw hw' hshorter
    exact ⟨hparts, mirrors_templateTail hw hw' hparts, hplain, mirrors_rawTail hw hw' hshorter,
      mirrors_stringTail hw hw' hshorter hplain⟩

end Kotlin

end Mirrored

end WitnessReplay.Source
