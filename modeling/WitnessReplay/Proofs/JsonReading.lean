import Mathlib.Tactic.SplitIfs
import WitnessReplay.Json
import WitnessReplay.Xml.Reference

/-!
# Reading JSON

JSON texts are read in two steps: into lexemes, and from these into a value, with the arrays
and objects that are still open kept on a stack. The rules are those of JSON and know nothing
of how values are printed: white space may stand between lexemes, strings have all escapes,
also those of surrogate pairs, and numbers have signs, fractions and exponents. The printed
form of a value is read back to that value, so different values have different printed forms.
-/

namespace WitnessReplay.Json

open List

/-! ### Lexemes -/

/-- The parts of a JSON text. A value that is no array and no object is a lexeme of its own. -/
inductive Lexeme where
  | openArray
  | closeArray
  | openObject
  | closeObject
  | comma
  | colon
  | plain (value : Json)

def isSpace (c : Char) : Bool :=
  c == ' ' || c == '\t' || c == '\n' || c == '\r'

def mark? (c : Char) : Option Lexeme :=
  if c = '[' then some .openArray
  else if c = ']' then some .closeArray
  else if c = '{' then some .openObject
  else if c = '}' then some .closeObject
  else if c = ',' then some .comma
  else if c = ':' then some .colon
  else none

def codeUnit? : List Char → Option Nat
  | a :: b :: c :: d :: _ =>
    match Xml.hexValue? a, Xml.hexValue? b, Xml.hexValue? c, Xml.hexValue? d with
    | some a, some b, some c, some d => some (((a * 16 + b) * 16 + c) * 16 + d)
    | _, _, _, _ => none
  | _ => none

/-- The character that is written as code units, the first of which is given, and how many
characters the second one takes. -/
def codePoint? (unit : Nat) (behind : List Char) : Option (Char × Nat) :=
  if unit < 0xd800 ∨ 0xe000 ≤ unit then some (Char.ofNat unit, 0)
  else
    match behind with
    | '\\' :: 'u' :: r =>
      (codeUnit? r).bind fun low =>
        if unit < 0xdc00 ∧ 0xdc00 ≤ low ∧ low < 0xe000 then
          some (Char.ofNat (0x10000 + (unit - 0xd800) * 0x400 + (low - 0xdc00)), 6)
        else none
    | _ => none

/-- The character that an escape stands for, given what follows the backslash, and how many
characters of that belong to it. -/
def escape? : List Char → Option (Char × Nat)
  | '"' :: _ => some ('"', 1)
  | '\\' :: _ => some ('\\', 1)
  | '/' :: _ => some ('/', 1)
  | 'b' :: _ => some ('\x08', 1)
  | 'f' :: _ => some ('\x0c', 1)
  | 'n' :: _ => some ('\n', 1)
  | 'r' :: _ => some ('\r', 1)
  | 't' :: _ => some ('\t', 1)
  | 'u' :: r => (codeUnit? r).bind fun unit => (codePoint? unit (r.drop 4)).map fun (c, n) =>
    (c, n + 5)
  | _ => none

/-- The text of a string, given what follows its opening quote, and the length up to its
closing quote. Control characters are escaped. -/
def stringTail? (s : List Char) : Option (List Char × Nat) :=
  match s with
  | [] => none
  | c :: r =>
    if c = '"' then some ([], 1)
    else if c = '\\' then
      (escape? r).bind fun (c, n) => (stringTail? (r.drop n)).map fun (text, m) =>
        (c :: text, m + n + 1)
    else if c.toNat < 0x20 then none
    else (stringTail? r).map fun (text, m) => (c :: text, m + 1)
termination_by s.length
decreasing_by all_goals (simp only [length_drop, length_cons]; omega)

def isDigits (s : List Char) : Bool :=
  !s.isEmpty && s.all Char.isDigit

def isExponent : List Char → Bool
  | [] => true
  | c :: r => (c == 'e' || c == 'E') && isDigits (if r.head? = some '+' ∨ r.head? = some '-' then
      r.tail else r)

def isFraction : List Char → Bool
  | '.' :: r => isDigits (r.takeWhile Char.isDigit) && isExponent (r.dropWhile Char.isDigit)
  | s => isExponent s

/-- Numbers. The whole part does not start with a zero unless it is zero. -/
def isNumber (s : List Char) : Bool :=
  let unsigned := if s.head? = some '-' then s.tail else s
  let whole := unsigned.takeWhile Char.isDigit
  (whole == ['0'] || (!whole.isEmpty && whole.head? != some '0')) &&
    isFraction (unsigned.dropWhile Char.isDigit)

def isWordChar (c : Char) : Bool :=
  c.isAlphanum || c == '+' || c == '-' || c == '.'

def ofWord? (word : List Char) : Option Json :=
  if word = ['n', 'u', 'l', 'l'] then some null
  else if word = ['t', 'r', 'u', 'e'] then some (bool true)
  else if word = ['f', 'a', 'l', 's', 'e'] then some (bool false)
  else if isNumber word then some (number (String.ofList word))
  else none

def lexemes? (s : List Char) : Option (List Lexeme) :=
  match s with
  | [] => some []
  | c :: r =>
    if isSpace c then lexemes? r
    else if c = '"' then
      (stringTail? r).bind fun (text, n) =>
        (lexemes? (r.drop n)).map (.plain (string (String.ofList text)) :: ·)
    else
      match mark? c with
      | some mark => (lexemes? r).map (mark :: ·)
      | none =>
        let n := (r.takeWhile isWordChar).length
        (ofWord? (c :: r.take n)).bind fun value => (lexemes? (r.drop n)).map (.plain value :: ·)
termination_by s.length
decreasing_by all_goals (simp only [length_drop, length_cons]; omega)

/-! ### Values -/

/-- What is open around a value: an array with the elements in front of it, or an object with
the members in front of it and the name for the value. -/
inductive Frame where
  | array (elements : List Json)
  | object (members : List (String × Json)) (name : String)

mutual

def ofLexemes? : List Frame → List Lexeme → Option Json
  | frames, .plain value :: r => behind? frames value r
  | frames, .openArray :: .closeArray :: r => behind? frames (array []) r
  | frames, .openArray :: r => ofLexemes? (.array [] :: frames) r
  | frames, .openObject :: .closeObject :: r => behind? frames (object []) r
  | frames, .openObject :: .plain (string name) :: .colon :: r =>
    ofLexemes? (.object [] name :: frames) r
  | _, _ => none

/-- The value that lexemes spell, where a value has been read that is part of the innermost
frame. -/
def behind? : List Frame → Json → List Lexeme → Option Json
  | [], value, [] => some value
  | .array elements :: frames, value, .comma :: r =>
    ofLexemes? (.array (elements ++ [value]) :: frames) r
  | .array elements :: frames, value, .closeArray :: r =>
    behind? frames (array (elements ++ [value])) r
  | .object members name :: frames, value, .comma :: .plain (string next) :: .colon :: r =>
    ofLexemes? (.object (members ++ [(name, value)]) next :: frames) r
  | .object members name :: frames, value, .closeObject :: r =>
    behind? frames (object (members ++ [(name, value)])) r
  | _, _, _ => none

end

def read? (text : String) : Option Json :=
  (lexemes? text.toList).bind (ofLexemes? [])

/-! ### Printed strings -/

variable {c : Char} {n : Nat} {r : List Char}

theorem hexValue?_hexDigit (h : n < 16) : Xml.hexValue? (hexDigit n) = some n := by
  have hall : ∀ n < 16, Xml.hexValue? (hexDigit n) = some n := by decide
  exact hall n h

theorem stringTail?_quote (r : List Char) : stringTail? ('"' :: r) = some ([], 1) := by
  rw [stringTail?, if_pos rfl]

theorem stringTail?_escape (h : escape? r = some (c, n)) :
    stringTail? ('\\' :: r) = (stringTail? (r.drop n)).map fun (text, m) =>
    (c :: text, m + n + 1) := by
  rw [stringTail?, if_neg (by decide), if_pos rfl, h]
  rfl

theorem stringTail?_plain (hquote : c ≠ '"') (hescape : c ≠ '\\') (hcontrol : ¬c.toNat < 0x20)
    (r : List Char) :
    stringTail? (c :: r) = (stringTail? r).map fun (text, m) => (c :: text, m + 1) := by
  rw [stringTail?, if_neg hquote, if_neg hescape, if_neg hcontrol]

theorem escape?_control (h : c.toNat < 0x20) (r : List Char) :
    escape? ('u' :: '0' :: '0' :: hexDigit (c.toNat / 16) :: hexDigit (c.toNat % 16) :: r) =
      some (c, 5) := by
  have hunit : codeUnit? ('0' :: '0' :: hexDigit (c.toNat / 16) :: hexDigit (c.toNat % 16) :: r) =
      some c.toNat := by
    rw [codeUnit?, hexValue?_hexDigit (by omega), hexValue?_hexDigit (by omega)]
    have hzero : Xml.hexValue? '0' = some 0 := rfl
    rw [hzero]
    exact congrArg some (by omega)
  have hpoint (behind : List Char) : codePoint? c.toNat behind = some (c, 0) := by
    unfold codePoint?
    rw [if_pos (by omega), Char.ofNat_toNat]
  rw [escape?, hunit, Option.bind_some, hpoint]
  rfl

/-- **Escapes.** Each character of a string is read back from its escaped form. -/
theorem stringTail?_escapeChar (c : Char) (r : List Char) :
    stringTail? (escapeChar c ++ r) = (stringTail? r).map fun (text, m) =>
    (c :: text, m + (escapeChar c).length) := by
  unfold escapeChar
  split_ifs with hquote hescape hback hfeed hline hreturn htab hcontrol
  · subst hquote
    exact stringTail?_escape rfl
  · subst hescape
    exact stringTail?_escape rfl
  · subst hback
    exact stringTail?_escape rfl
  · subst hfeed
    exact stringTail?_escape rfl
  · subst hline
    exact stringTail?_escape rfl
  · subst hreturn
    exact stringTail?_escape rfl
  · subst htab
    exact stringTail?_escape rfl
  · exact stringTail?_escape (escape?_control hcontrol r)
  · exact stringTail?_plain hquote hescape hcontrol r

theorem stringTail?_flatMap (text r : List Char) :
    stringTail? (text.flatMap escapeChar ++ '"' :: r) =
      some (text, (text.flatMap escapeChar).length + 1) := by
  induction text with
  | nil => exact stringTail?_quote r
  | cons c text ih =>
    rw [flatMap_cons, append_assoc, stringTail?_escapeChar, ih, length_append]
    exact congrArg (fun m => some (c :: text, m)) (by omega)

/-! ### Printed lexemes -/

def EndsWord (r : List Char) : Prop :=
  ∀ c ∈ r.head?, isWordChar c = false

theorem endsWord_cons (hc : isWordChar c = false) (r : List Char) : EndsWord (c :: r) := by
  rintro d ⟨⟩
  exact hc

theorem lexemes?_space (hc : isSpace c = true) (r : List Char) :
    lexemes? (c :: r) = lexemes? r := by
  rw [lexemes?, if_pos hc]

theorem lexemes?_newLine (level : Nat) (r : List Char) :
    lexemes? ((newLine level).toList ++ r) = lexemes? r := by
  rw [newLine, String.toList_ofList, cons_append, lexemes?_space rfl]
  induction 2 * level with
  | zero => rfl
  | succ k ih => rw [replicate_succ, cons_append, lexemes?_space rfl, ih]

theorem lexemes?_mark {mark : Lexeme} (hspace : isSpace c = false) (hquote : c ≠ '"')
    (hmark : mark? c = some mark) (r : List Char) :
    lexemes? (c :: r) = (lexemes? r).map (mark :: ·) := by
  rw [lexemes?, if_neg (by simp [hspace]), if_neg hquote, hmark]

theorem lexemes?_quote (text : String) (r : List Char) :
    lexemes? ((quote text).toList ++ r) = (lexemes? r).map (.plain (string text) :: ·) := by
  have htext : (quote text).toList ++ r =
      '"' :: (text.toList.flatMap escapeChar ++ '"' :: r) := by simp [quote]
  have hdrop (x : List Char) : (x ++ '"' :: r).drop (x.length + 1) = r := by simp
  rw [htext, lexemes?, if_neg (by decide), if_pos rfl, stringTail?_flatMap]
  simp only [Option.bind_some, hdrop, String.ofList_toList]

theorem mark?_of_isWordChar (hc : isWordChar c = true) :
    isSpace c = false ∧ c ≠ '"' ∧ mark? c = none := by
  have hne {d : Char} (hd : isWordChar d = false) : c ≠ d := by
    rintro rfl
    cases hd.symm.trans hc
  refine ⟨?_, hne rfl, ?_⟩
  · simp [isSpace, hne (d := ' ') rfl, hne (d := '\t') rfl, hne (d := '\n') rfl,
      hne (d := '\r') rfl]
  · simp [mark?, hne (d := '[') rfl, hne (d := ']') rfl, hne (d := '{') rfl, hne (d := '}') rfl,
      hne (d := ',') rfl, hne (d := ':') rfl]

theorem lexemes?_word {word : List Char} {value : Json} (hword : ∀ c ∈ word, isWordChar c = true)
    (hvalue : ofWord? word = some value)
    (hr : EndsWord r) : lexemes? (word ++ r) = (lexemes? r).map (.plain value :: ·) := by
  have hstop : r.takeWhile isWordChar = [] := by
    cases r with
    | nil => rfl
    | cons d r => rw [takeWhile_cons, hr d rfl]; rfl
  cases word with
  | nil => cases hvalue
  | cons c word =>
    obtain ⟨hspace, hquote, hmark⟩ := mark?_of_isWordChar (hword c mem_cons_self)
    have htake : (word ++ r).takeWhile isWordChar = word := by
      rw [takeWhile_append_of_pos fun d hd => hword d (mem_cons_of_mem _ hd), hstop, append_nil]
    rw [cons_append, lexemes?, if_neg (by simp [hspace]), if_neg hquote, hmark]
    simp only [htake, take_left, drop_left, hvalue, Option.bind_some]

/-! ### Printed numbers -/

theorem all_isWordChar_of_isDigit {s : List Char} (h : s.all Char.isDigit = true) :
    s.all isWordChar = true := by
  rw [all_eq_true] at h ⊢
  intro c hc
  simp [isWordChar, Char.isAlphanum, h c hc]

theorem all_isWordChar_of_tail {s : List Char} {p : Prop} [Decidable p]
    (hsign : p → ∃ d, s.head? = some d ∧ isWordChar d = true)
    (h : (if p then s.tail else s).all isWordChar = true) : s.all isWordChar = true := by
  split at h
  next hp =>
    obtain ⟨d, hd, hword⟩ := hsign hp
    rw [head?_eq_some_iff] at hd
    obtain ⟨r, rfl⟩ := hd
    simpa [hword] using h
  · exact h

theorem all_isWordChar_of_isExponent {s : List Char} (h : isExponent s = true) :
    s.all isWordChar = true := by
  cases s with
  | nil => rfl
  | cons c r =>
    simp only [isExponent, Bool.and_eq_true, Bool.or_eq_true, beq_iff_eq, isDigits] at h
    obtain ⟨hc, -, hdigits⟩ := h
    have hr : r.all isWordChar = true := by
      refine all_isWordChar_of_tail ?_ (all_isWordChar_of_isDigit hdigits)
      rintro (hsign | hsign) <;> exact ⟨_, hsign, rfl⟩
    rw [all_cons, hr, Bool.and_true]
    rcases hc with rfl | rfl <;> rfl

theorem all_isWordChar_of_isFraction {s : List Char} (h : isFraction s = true) :
    s.all isWordChar = true := by
  unfold isFraction at h
  split at h
  next r =>
    rw [Bool.and_eq_true, isDigits, Bool.and_eq_true] at h
    rw [all_cons, ← takeWhile_append_dropWhile (p := Char.isDigit) (l := r),
      all_append, all_isWordChar_of_isDigit h.1.2, all_isWordChar_of_isExponent h.2]
    rfl
  · exact all_isWordChar_of_isExponent h

theorem all_isWordChar_of_isNumber {s : List Char} (h : isNumber s = true) :
    s.all isWordChar = true := by
  rw [isNumber, Bool.and_eq_true] at h
  refine all_isWordChar_of_tail (fun hsign => ⟨'-', hsign, rfl⟩) ?_
  generalize (if s.head? = some '-' then s.tail else s) = unsigned at h ⊢
  rw [← takeWhile_append_dropWhile (p := Char.isDigit) (l := unsigned), all_append,
    all_isWordChar_of_isFraction h.2, all_isWordChar_of_isDigit all_takeWhile]
  rfl

theorem ofWord?_number {text : String} (h : isNumber text.toList = true) :
    ofWord? text.toList = some (number text) := by
  have hne {word : List Char} (hword : isNumber word = false) : text.toList ≠ word := by
    rintro rfl
    cases hword.symm.trans h
  rw [ofWord?, if_neg (hne (by decide)), if_neg (hne (by decide)), if_neg (hne (by decide)),
    if_pos h, String.ofList_toList]

/-! ### Printed values -/

/-- All numbers in a value are numbers of JSON. -/
inductive Proper : Json → Prop where
  | null : Proper null
  | bool (b : Bool) : Proper (bool b)
  | number {text : String} (h : isNumber text.toList = true) : Proper (number text)
  | string (text : String) : Proper (string text)
  | array {elements : List Json} (h : ∀ e ∈ elements, Proper e) : Proper (array elements)
  | object {members : List (String × Json)} (h : ∀ m ∈ members, Proper m.2) :
      Proper (object members)

mutual

def lexemes : Json → List Lexeme
  | array [] => [.openArray, .closeArray]
  | array (e :: es) => .openArray :: (lexemes e ++ moreElements es)
  | object [] => [.openObject, .closeObject]
  | object ((name, value) :: ms) =>
    .openObject :: .plain (string name) :: .colon :: (lexemes value ++ moreMembers ms)
  | value => [.plain value]

def moreElements : List Json → List Lexeme
  | [] => [.closeArray]
  | e :: es => .comma :: (lexemes e ++ moreElements es)

def moreMembers : List (String × Json) → List Lexeme
  | [] => [.closeObject]
  | (name, value) :: ms =>
    .comma :: .plain (string name) :: .colon :: (lexemes value ++ moreMembers ms)

end

/-- A value is printed as its lexemes, in front of anything that ends a word. -/
def IsPrinted (value : Json) : Prop :=
  ∀ level r, EndsWord r → lexemes? ((prettyAt level value).toList ++ r) =
    (lexemes? r).map (lexemes value ++ ·)

/-- The lexemes of a value spell it, in whatever stands around it. -/
def IsSpelled (value : Json) : Prop :=
  ∀ frames r, ofLexemes? frames (lexemes value ++ r) = behind? frames value r

section

variable {e value : Json} {es : List Json} {name : String} {ms : List (String × Json)}
    {r : List Char}

theorem endsWord_newLine (level : Nat) (r : List Char) :
    EndsWord ((newLine level).toList ++ r) := by
  rw [newLine, String.toList_ofList]
  exact endsWord_cons rfl _

theorem lexemes?_prettyElements (he : IsPrinted e) (hes : ∀ e ∈ es, IsPrinted e)
    (level outer : Nat) (r : List Char) :
    lexemes? ((prettyElements level (e :: es)).toList ++ ((newLine outer).toList ++ ']' :: r)) =
      (lexemes? r).map (lexemes e ++ moreElements es ++ ·) := by
  induction es generalizing e with
  | nil =>
    rw [prettyElements, String.toList_append, append_assoc, lexemes?_newLine,
      he _ _ (endsWord_newLine _ _), lexemes?_newLine,
      lexemes?_mark rfl (by decide) rfl, Option.map_map, moreElements]
    simp [Function.comp_def]
  | cons f es ih =>
    have hrest := ih (hes f mem_cons_self) fun e he => hes e (mem_cons_of_mem _ he)
    have htext : (prettyElements level (e :: f :: es)).toList ++
        ((newLine outer).toList ++ ']' :: r) =
          (newLine level).toList ++ ((prettyAt level e).toList ++
            ',' :: ((prettyElements level (f :: es)).toList ++
            ((newLine outer).toList ++ ']' :: r))) := by
      rw [prettyElements]
      · simp
      · simp
    rw [htext, lexemes?_newLine, he _ _ (endsWord_cons rfl _), lexemes?_mark rfl (by decide) rfl,
      hrest, Option.map_map, Option.map_map, moreElements]
    simp [Function.comp_def]

theorem lexemes?_name (level : Nat) (name : String) (r : List Char) :
    lexemes? ((newLine level).toList ++ ((quote name).toList ++ ':' :: ' ' :: r)) =
      (lexemes? r).map (.plain (string name) :: .colon :: ·) := by
  rw [lexemes?_newLine, lexemes?_quote, lexemes?_mark rfl (by decide) rfl, lexemes?_space rfl,
    Option.map_map]
  rfl

theorem lexemes?_prettyMembers (hvalue : IsPrinted value) (hms : ∀ m ∈ ms, IsPrinted m.2)
    (level outer : Nat) (r : List Char) :
    lexemes? ((prettyMembers level ((name, value) :: ms)).toList ++
    ((newLine outer).toList ++ '}' :: r)) =
      (lexemes? r).map (.plain (string name) :: .colon :: (lexemes value ++ moreMembers ms) ++
      ·) := by
  induction ms generalizing name value with
  | nil =>
    have htext : (prettyMembers level [(name, value)]).toList ++
        ((newLine outer).toList ++ '}' :: r) =
          (newLine level).toList ++ ((quote name).toList ++ ':' :: ' ' ::
            ((prettyAt level value).toList ++ ((newLine outer).toList ++ '}' :: r))) := by
      rw [prettyMembers]
      simp
    rw [htext, lexemes?_name, hvalue _ _ (endsWord_newLine _ _), lexemes?_newLine,
      lexemes?_mark rfl (by decide) rfl, Option.map_map, Option.map_map, moreMembers]
    simp [Function.comp_def]
  | cons m ms ih =>
    obtain ⟨next, value'⟩ := m
    have hrest : lexemes? ((prettyMembers level ((next, value') :: ms)).toList ++
        ((newLine outer).toList ++ '}' :: r)) = _ :=
      ih (hms _ mem_cons_self) fun m hm => hms m (mem_cons_of_mem _ hm)
    have htext : (prettyMembers level ((name, value) :: (next, value') :: ms)).toList ++
        ((newLine outer).toList ++ '}' :: r) =
          (newLine level).toList ++
          ((quote name).toList ++ ':' :: ' ' :: ((prettyAt level value).toList ++
            ',' :: ((prettyMembers level ((next, value') :: ms)).toList ++
            ((newLine outer).toList ++ '}' :: r)))) := by
      rw [prettyMembers]
      · simp
      · simp
    rw [htext, lexemes?_name, hvalue _ _ (endsWord_cons rfl _), lexemes?_mark rfl (by decide) rfl,
      hrest, Option.map_map, Option.map_map, Option.map_map, moreMembers]
    simp [Function.comp_def]

theorem isPrinted_of_word {text : String} (hlexemes : lexemes value = [.plain value])
    (htext : ∀ level, prettyAt level value = text)
    (hword : text.toList.all isWordChar = true) (hvalue : ofWord? text.toList = some value) :
    IsPrinted value := by
  intro level r hr
  rw [htext, lexemes?_word (all_eq_true.1 hword) hvalue hr, hlexemes]
  rfl

/-- **Printed values.** A printed value has its lexemes. -/
theorem Proper.isPrinted (h : Proper value) : IsPrinted value := by
  induction h with
  | null => exact isPrinted_of_word rfl (fun _ => by rw [prettyAt]) (by decide) rfl
  | bool b => cases b <;> exact isPrinted_of_word rfl (fun _ => by rw [prettyAt]) (by decide) rfl
  | number h =>
    exact isPrinted_of_word rfl (fun _ => by rw [prettyAt]) (all_isWordChar_of_isNumber h)
      (ofWord?_number h)
  | string text =>
    intro level r _
    rw [prettyAt, lexemes?_quote]
    rfl
  | @array es _ ih =>
    intro level r _
    cases es with
    | nil =>
      have htext : (prettyAt level (Json.array [])).toList ++ r = '[' :: ']' :: r := by
        rw [prettyAt]
        rfl
      rw [htext, lexemes?_mark rfl (by decide) rfl, lexemes?_mark rfl (by decide) rfl,
        Option.map_map]
      rfl
    | cons e es =>
      have htext : (prettyAt level (Json.array (e :: es))).toList ++ r =
          '[' :: ((prettyElements (level + 1) (e :: es)).toList ++
          ((newLine level).toList ++ ']' :: r)) := by
        rw [prettyAt]
        simp
      have helements := lexemes?_prettyElements (ih e mem_cons_self) (fun f hf =>
        ih f (mem_cons_of_mem _ hf)) (level + 1) level r
      rw [htext, lexemes?_mark rfl (by decide) rfl, helements, Option.map_map, lexemes]
      rfl
  | @object ms _ ih =>
    intro level r _
    cases ms with
    | nil =>
      have htext : (prettyAt level (Json.object [])).toList ++ r = '{' :: '}' :: r := by
        rw [prettyAt]
        rfl
      rw [htext, lexemes?_mark rfl (by decide) rfl, lexemes?_mark rfl (by decide) rfl,
        Option.map_map]
      rfl
    | cons m ms =>
      obtain ⟨name, value⟩ := m
      have htext : (prettyAt level (Json.object ((name, value) :: ms))).toList ++ r =
          '{' :: ((prettyMembers (level + 1) ((name, value) :: ms)).toList ++
          ((newLine level).toList ++ '}' :: r)) := by
        rw [prettyAt]
        simp
      have hmembers : lexemes? ((prettyMembers (level + 1) ((name, value) :: ms)).toList ++
          ((newLine level).toList ++ '}' :: r)) = _ :=
        lexemes?_prettyMembers (ih (name, value) mem_cons_self) (fun m hm =>
          ih m (mem_cons_of_mem _ hm)) (level + 1) level r
      rw [htext, lexemes?_mark rfl (by decide) rfl, hmembers, Option.map_map, lexemes]
      rfl

/-! ### Spelled values -/

theorem behind?_moreElements (hes : ∀ e ∈ es, IsSpelled e) (before : List Json)
    (frames : List Frame) (ls : List Lexeme) :
    behind? (.array before :: frames) value (moreElements es ++ ls) =
      behind? frames (array (before ++ value :: es)) ls := by
  induction es generalizing before value with
  | nil =>
    rw [moreElements, cons_append, behind?]
    rfl
  | cons e es ih =>
    rw [moreElements, cons_append, behind?, append_assoc, hes e mem_cons_self,
      ih fun f hf => hes f (mem_cons_of_mem _ hf), append_assoc]
    rfl

theorem behind?_moreMembers (hms : ∀ m ∈ ms, IsSpelled m.2) (before : List (String × Json))
    (frames : List Frame) (ls : List Lexeme) :
    behind? (.object before name :: frames) value (moreMembers ms ++ ls) =
      behind? frames (object (before ++ (name, value) :: ms)) ls := by
  induction ms generalizing before name value with
  | nil =>
    rw [moreMembers, cons_append, behind?]
    rfl
  | cons m ms ih =>
    obtain ⟨next, value'⟩ := m
    rw [moreMembers, cons_append, cons_append, cons_append, behind?, append_assoc,
      hms (next, value') mem_cons_self, ih fun m hm => hms m (mem_cons_of_mem _ hm), append_assoc]
    rfl

theorem lexemes_ne_closeArray (value : Json) (ls ls' : List Lexeme) :
    lexemes value ++ ls ≠ .closeArray :: ls' := by
  cases value with
  | array es => cases es <;> simp [lexemes]
  | object ms =>
    cases ms with
    | nil => simp [lexemes]
    | cons m ms => simp [lexemes]
  | _ => simp [lexemes]

theorem Proper.isSpelled (h : Proper value) : IsSpelled value := by
  induction h with
  | @array es _ ih =>
    intro frames ls
    cases es with
    | nil => rfl
    | cons e es =>
      rw [lexemes, cons_append, append_assoc, ofLexemes?]
      · rw [ih e mem_cons_self, behind?_moreElements fun f hf => ih f (mem_cons_of_mem _ hf)]
        rfl
      · exact fun ls' => lexemes_ne_closeArray e _ ls'
  | @object ms _ ih =>
    intro frames ls
    cases ms with
    | nil => rfl
    | cons m ms =>
      obtain ⟨name, value⟩ := m
      rw [lexemes, cons_append, cons_append, cons_append, append_assoc,
        ofLexemes?, ih (name, value) mem_cons_self,
        behind?_moreMembers fun m hm => ih m (mem_cons_of_mem _ hm)]
      rfl
  | _ => exact fun frames ls => rfl

/-- **Reading back.** The printed form of a value is read as that value. -/
theorem read?_pretty (h : Proper value) : read? value.pretty = some value := by
  have hlexemes : lexemes? (prettyAt 0 value).toList = some (lexemes value) := by
    have hprinted := h.isPrinted 0 [] (by simp [EndsWord])
    rw [append_nil, lexemes?] at hprinted
    simpa using hprinted
  have hspelled := h.isSpelled [] []
  rw [append_nil] at hspelled
  rw [read?, pretty, hlexemes, Option.bind_some, hspelled]
  rfl

-- other texts of a value are read as well
example : read? "[ -1.5e3,\"\\u00e9\\ud83d\\ude00\" ]" = some
    (array [number "-1.5e3", string "é😀"]) := by cbv

end

end WitnessReplay.Json
