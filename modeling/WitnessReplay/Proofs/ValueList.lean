import WitnessReplay.Harness.Literal

/-!
# Reading the list of values

The line that declares the values of a harness is read back the way a compiler reads it: items
with a comma and a space between them, each of them `null` or a string literal with the escapes
of the language. What is accepted is what is written, so that a line and the list of its values
determine each other.
-/

namespace WitnessReplay.Harness

open List

variable {language : Language} {c : Char} {s rest : List Char} {value : Option String}

/-! ### Escaped characters -/

def escaped : Language → List Char
  | .java => ['\\', '"']
  | .kotlin => ['\\', '"', '$']

def escapeChar (language : Language) (c : Char) : List Char :=
  if c ∈ escaped language then ['\\', c] else [c]

theorem escapeQuoted_eq (s : List Char) : escapeQuoted s = s.flatMap (escapeChar .java) := by
  unfold escapeQuoted escapeChar
  congr 1
  funext c
  simp [escaped]

/-- Escaping dollar signs behind the other escapes amounts to escaping each character once: the
first pass writes backslashes and quotes, neither of which is a dollar sign. -/
theorem escapeDollars_escapeQuoted (s : List Char) : escapeDollars (escapeQuoted s) = s.flatMap
    (escapeChar .kotlin) := by
  unfold escapeDollars escapeQuoted
  rw [flatMap_assoc]
  congr 1
  funext c
  by_cases hquoted : c = '\\' ∨ c = '"'
  · have hdollar : c ≠ '$' := by
      rintro rfl
      revert hquoted
      decide
    have hmem : c ∈ escaped .kotlin := by simpa [escaped, hdollar] using hquoted
    rw [if_pos hquoted, escapeChar, if_pos hmem]
    simp [hdollar]
  · by_cases hdollar : c = '$'
    · subst hdollar
      rfl
    · have hmem : c ∉ escaped .kotlin := by simpa [escaped, hdollar] using hquoted
      rw [if_neg hquoted, escapeChar, if_neg hmem]
      simp [hdollar]

theorem stringLiteral_eq (language : Language) (s : List Char) :
    stringLiteral language s = '"' :: s.flatMap (escapeChar language) ++ ['"'] := by
  cases language with
  | java => rw [stringLiteral, escapeQuoted_eq]
  | kotlin => rw [stringLiteral, escapeDollars_escapeQuoted]

/-! ### Reading -/

def unescape? : Language → Char → Option Char
  | _, '\\' => some '\\'
  | _, '"' => some '"'
  | .kotlin, '$' => some '$'
  | _, _ => none

/-- Whether a character may stand in a string literal without an escape. In Kotlin a dollar
sign starts a template. -/
def standsForItself (language : Language) (c : Char) : Bool :=
  c != '\\' && c != '"' && !(language == .kotlin && c == '$')

/-- Reads a string up to the quote that ends it: its characters, and what is behind the quote. -/
def readString (language : Language) : List Char → Option (List Char × List Char)
  | [] => none
  | '"' :: rest => some ([], rest)
  | '\\' :: c :: rest =>
    (unescape? language c).bind fun c => (readString language rest).map fun (s, behind) =>
      (c :: s, behind)
  | c :: rest =>
    if standsForItself language c then (readString language rest).map fun (s, behind) =>
      (c :: s, behind) else none

def readValue (language : Language) : List Char → Option (Option String × List Char)
  | '"' :: rest => (readString language rest).map fun (s, behind) =>
    (some (String.ofList s), behind)
  | 'n' :: 'u' :: 'l' :: 'l' :: rest => some (none, rest)
  | _ => none

theorem readString_escaped {d : Char} (h : unescape? language c = some d) (rest : List Char) :
    readString language ('\\' :: c :: rest) = (readString language rest).map fun (s, behind) =>
    (d :: s, behind) := by
  rw [readString, h]
  rfl

theorem readString_plain (h : standsForItself language c) (rest : List Char) :
    readString language (c :: rest) = (readString language rest).map fun (s, behind) =>
    (c :: s, behind) := by
  obtain ⟨⟨hslash, hquote⟩, -⟩ : (c ≠ '\\' ∧ c ≠ '"') ∧ _ := by simpa [standsForItself] using h
  rw [readString, if_pos h]
  · exact hquote
  · exact fun d r hd => absurd hd hslash

theorem escapeChar_of_unescape? {d : Char} (h : unescape? language c = some d) :
    escapeChar language d = ['\\', c] := by
  unfold unescape? at h
  split at h
  · cases h
    cases language <;> rfl
  · cases h
    cases language <;> rfl
  · cases h
    rfl
  · cases h

theorem escapeChar_of_standsForItself (h : standsForItself language c) :
    escapeChar language c = [c] := by
  have hmem : c ∉ escaped language := by cases language <;> simp_all [standsForItself, escaped]
  rw [escapeChar, if_neg hmem]

theorem eq_of_readString {text : List Char} (h : readString language text = some (s, rest)) :
    text = s.flatMap (escapeChar language) ++ '"' :: rest := by
  fun_induction readString language text generalizing s with
  | case1 => cases h
  | case2 rest' =>
    cases h
    rfl
  | case3 c text ih =>
    obtain ⟨d, hd, h⟩ := Option.bind_eq_some_iff.1 h
    obtain ⟨⟨t, behind⟩, ht, heq⟩ := Option.map_eq_some_iff.1 h
    cases heq
    rw [ih ht, flatMap_cons, escapeChar_of_unescape? hd]
    rfl
  | case4 c text _ _ hplain ih =>
    obtain ⟨⟨t, behind⟩, ht, heq⟩ := Option.map_eq_some_iff.1 h
    cases heq
    rw [ih ht, flatMap_cons, escapeChar_of_standsForItself hplain]
    rfl
  | case5 => cases h

theorem eq_of_readValue {text : List Char} (h : readValue language text = some (value, rest)) :
    text = valueLiteral language value ++ rest := by
  unfold readValue at h
  split at h
  · obtain ⟨⟨t, behind⟩, ht, heq⟩ := Option.map_eq_some_iff.1 h
    cases heq
    rw [eq_of_readString ht]
    simp [valueLiteral, stringLiteral_eq]
  · cases h
    rfl
  · cases h

def readMore (language : Language) (text : List Char) : Option (List (Option String)) :=
  match text with
  | [] => some []
  | ',' :: ' ' :: rest =>
    match _h : readValue language rest with
    | some (value, behind) => (readMore language behind).map (value :: ·)
    | none => none
  | _ => none
termination_by text.length
decreasing_by
  rw [eq_of_readValue _h]
  simp only [length_cons, length_append]
  omega

def readValues (language : Language) (text : List Char) : Option (List (Option String)) :=
  if text = [] then some []
  else (readValue language text).bind fun (value, behind) =>
    (readMore language behind).map (value :: ·)

/-- A line declares a list of values if they are read from what stands between its fixed start
and end. -/
def Declares (language : Language) (line : String) (values : List (Option String)) : Prop :=
  ∃ items, line.toList = (listStart language).toList ++ items ++ (listEnd language).toList ∧
    readValues language items = some values

theorem readString_escapeChar (language : Language) (c : Char) (rest : List Char) :
    readString language (escapeChar language c ++ rest) =
      (readString language rest).map fun (s, behind) => (c :: s, behind) := by
  unfold escapeChar
  split
  · rename_i hmem
    apply readString_escaped
    cases language <;> simp [escaped] at hmem <;> rcases hmem with rfl | rfl | rfl <;> rfl
  · -- what is not escaped is neither the quotation mark nor the start of an escape
    rename_i hmem
    apply readString_plain
    cases language <;> simp_all [escaped, standsForItself]

theorem readString_flatMap_escapeChar (language : Language) (s rest : List Char) :
    readString language (s.flatMap (escapeChar language) ++ '"' :: rest) = some (s, rest) := by
  induction s with
  | nil => rfl
  | cons c s ih =>
    rw [flatMap_cons, append_assoc, readString_escapeChar, ih]
    rfl

theorem readValue_valueLiteral (language : Language) (value : Option String) (rest : List Char) :
    readValue language (valueLiteral language value ++ rest) = some (value, rest) := by
  cases value with
  | none => rfl
  | some v =>
    have h := readString_flatMap_escapeChar language v.toList rest
    simp [valueLiteral, stringLiteral_eq, readValue, h]

theorem intercalate_cons (separator first : List Char) (others : List (List Char)) :
    List.intercalate separator (first :: others) = first ++ others.flatMap (separator ++ ·) := by
  induction others generalizing first with
  | nil => simp [List.intercalate]
  | cons second others ih =>
    rw [flatMap_cons, append_assoc, ← ih second]
    simp [List.intercalate, List.intersperse]

theorem readMore_cons {behind : List Char} (h : readValue language rest = some (value, behind)) :
    readMore language (',' :: ' ' :: rest) = (readMore language behind).map (value :: ·) := by
  rw [readMore]
  split
  · rename_i heq
    cases h.symm.trans heq
    rfl
  · rename_i heq
    cases h.symm.trans heq

theorem readMore_flatMap (language : Language) (values : List (Option String)) :
    readMore language ((values.map (valueLiteral language)).flatMap (", ".toList ++ ·)) =
      some values := by
  induction values with
  | nil => rw [map_nil, flatMap_nil, readMore]
  | cons value values ih =>
    rw [map_cons, flatMap_cons]
    show readMore language (',' :: ' ' :: (valueLiteral language value ++ _)) = _
    rw [readMore_cons (readValue_valueLiteral language value _), ih]
    rfl

theorem readValues_intercalate (language : Language) (values : List (Option String)) :
    readValues language (List.intercalate ", ".toList (values.map (valueLiteral language))) =
      some values := by
  cases values with
  | nil => rfl
  | cons value values =>
    rw [map_cons, intercalate_cons, readValues, if_neg, readValue_valueLiteral]
    · show (readMore language _).map _ = _
      rw [readMore_flatMap]
      rfl
    · cases value <;> simp [valueLiteral, stringLiteral_eq]

theorem declares_listLine (language : Language) (values : List (Option String)) :
    Declares language (listLine language values) values := by
  refine ⟨_, ?_, readValues_intercalate language values⟩
  rw [listLine, String.toList_ofList]

/-! ### What is read is what was written -/

theorem eq_of_readMore {text : List Char} {values : List (Option String)}
    (h : readMore language text = some values) :
    text = (values.map (valueLiteral language)).flatMap (", ".toList ++ ·) := by
  fun_induction readMore language text generalizing values with
  | case1 =>
    cases h
    rfl
  | case2 text value behind hvalue ih =>
    obtain ⟨others, hothers, rfl⟩ := Option.map_eq_some_iff.1 h
    rw [map_cons, flatMap_cons, ← ih hothers, append_assoc, ← eq_of_readValue hvalue]
    rfl
  | case3 => cases h
  | case4 => cases h

theorem eq_of_readValues {text : List Char} {values : List (Option String)}
    (h : readValues language text = some values) :
    text = List.intercalate ", ".toList (values.map (valueLiteral language)) := by
  unfold readValues at h
  split at h
  · rename_i hempty
    cases h
    exact hempty
  · obtain ⟨⟨value, behind⟩, hvalue, h⟩ := Option.bind_eq_some_iff.1 h
    obtain ⟨others, hothers, rfl⟩ := Option.map_eq_some_iff.1 h
    rw [eq_of_readValue hvalue, eq_of_readMore hothers, map_cons, intercalate_cons]

theorem declares_iff {line : String} {values : List (Option String)} :
    Declares language line values ↔ line = listLine language values := by
  constructor
  · rintro ⟨items, hline, hitems⟩
    rw [eq_of_readValues hitems] at hline
    exact String.toList_inj.1 (hline.trans String.toList_ofList.symm)
  · rintro rfl
    exact declares_listLine language values

theorem Declares.unique {line : String} {values values' : List (Option String)}
    (h : Declares language line values)
    (h' : Declares language line values') : values = values' := by
  obtain ⟨items, hline, hitems⟩ := h
  obtain ⟨items', hline', hitems'⟩ := h'
  have hsame : items = items' :=
    append_cancel_left (append_cancel_right (hline.symm.trans hline'))
  exact Option.some.inj (hitems.symm.trans (hsame ▸ hitems'))

def unescaped : List Char → List Char
  | '\\' :: _ :: rest => unescaped rest
  | c :: rest => c :: unescaped rest
  | [] => []

theorem notMem_unescaped (hc : c ∈ escaped language) (s : List Char) :
    c ∉ unescaped (s.flatMap (escapeChar language)) := by
  induction s with
  | nil => simp [unescaped]
  | cons d s ih =>
    rw [flatMap_cons]
    by_cases hd : d ∈ escaped language
    · rw [escapeChar, if_pos hd]
      exact ih
    · have hplain : d ≠ '\\' := by
        rintro rfl
        exact hd (by cases language <;> decide)
      rw [escapeChar, if_neg hd, singleton_append, unescaped, mem_cons, not_or]
      · exact ⟨fun heq => hd (heq ▸ hc), ih⟩
      · exact fun e r he => absurd he hplain

/-- **The written values are read back.** The line that is written for a list of values
declares this list and no other one, and it is the only line that does, so that different lists
have different lines. Between the quotes of a literal every quote is escaped, and in Kotlin
every dollar sign. -/
theorem listLine_declares_exactly (language : Language) (values : List (Option String)) :
    (∀ declared, Declares language (listLine language values) declared ↔ declared = values) ∧
    (∀ line, Declares language line values ↔ line = listLine language values) ∧
    (∀ s : String, ∃ body, valueLiteral language (some s) = '"' :: body ++ ['"'] ∧
    '"' ∉ unescaped body ∧
      (language = .kotlin → '$' ∉ unescaped body)) ∧
    ∀ others, listLine language others = listLine language values ↔ others = values := by
  have hself := declares_listLine language values
  refine ⟨fun declared => ⟨fun h => h.unique hself, ?_⟩, fun line => declares_iff, fun s =>
    ?_, fun others => ⟨fun h => ?_, ?_⟩⟩
  · rintro rfl
    exact hself
  · refine ⟨s.toList.flatMap (escapeChar language), stringLiteral_eq language s.toList,
      notMem_unescaped ?_ _, ?_⟩
    · cases language <;> decide
    · rintro rfl
      exact notMem_unescaped (by decide) _
  · exact Declares.unique (h ▸ declares_listLine language others) hself
  · rintro rfl
    rfl

/-- A backslash in front of a dollar sign, and a value that looks like two. -/
example : listLine .kotlin [some "\\$", some "a\", \"b", none] =
    "    var assumptionList = arrayOf<String?>(\"\\\\\\$\", \"a\\\", \\\"b\", null)" := by
  decide

end WitnessReplay.Harness
