import WitnessReplay.Proofs.ImportNames
import WitnessReplay.Proofs.TokenSequence

/-!
# Headers in standard form

A header is written in standard form if its declarations stand one behind the other, each with
one blank behind its words and with none in its path, and each with its ending. Whatever the
names are and however many imports there are, such a header is read back as it was written: no
part of a declaration is taken for a part of another one, as long as the body does not start
like a declaration itself.
-/

namespace WitnessReplay.Source

open Text Scan List

/-! ### Names and paths -/

/-- A name as it is written: plain, or in Kotlin between backticks. -/
inductive WrittenName (language : Language) where
  | plain (first : Char) (others : List Char) (hfirst : startsName language first = true)
      (hothers : ∀ c ∈ others, (lexicon language).isNameChar c = true)
  | quoted (inside : List Char) (hkotlin : language = .kotlin) (hne : inside ≠ [])
      (hinside : ∀ c ∈ inside, c ∉ ['\x60', '\n', '.'])

/-- A path as it is written: names with points between them. -/
structure WrittenPath (language : Language) where
  first : WrittenName language
  others : List (WrittenName language)

variable {language : Language} {after rest gap : List Char} {p : Place}

namespace WrittenName

def text : WrittenName language → List Char
  | plain first others _ _ => first :: others
  | quoted inside _ _ _ => '\x60' :: (inside ++ ['\x60'])

def name : WrittenName language → String
  | plain first others _ _ => String.ofList (first :: others)
  | quoted inside _ _ _ => String.ofList inside

end WrittenName

namespace WrittenPath

def text (path : WrittenPath language) : List Char :=
  path.first.text ++ path.others.flatMap fun n => '.' :: n.text

def names (path : WrittenPath language) : List String :=
  path.first.name :: path.others.map (·.name)

end WrittenPath

def EndsName (language : Language) (after : List Char) : Prop :=
  ∀ c ∈ after.head?, (lexicon language).isNameChar c = false

theorem endsName_cons {c : Char} (hc : (lexicon language).isNameChar c = false) (r : List Char) :
    EndsName language (c :: r) := by
  rintro d ⟨⟩
  exact hc

namespace WrittenName

theorem word_eq (n : WrittenName language) (hafter : EndsName language after) :
    (lexicon language).word (n.text ++ after) = some n.text.length := by
  cases n with
  | plain first others hfirst hothers => exact word_of_nameChars hfirst hothers hafter
  | quoted inside hkotlin hne hinside =>
    rw [text]
    subst hkotlin
    have hplain : ∀ c ∈ inside, (c != '\x60' && c != '\n') = true := by
      intro c hc
      have hmem := hinside c hc
      simp only [mem_cons, not_or] at hmem
      simp [hmem.1, hmem.2.1]
    simpa [lexicon, Lexicon.kotlin] using Kotlin.word_quoted hne hplain after

theorem encloses (n : WrittenName language) :
    ∃ bare, Encloses n.text bare ∧ n.name = String.ofList bare := by
  cases n with
  | plain first others hfirst hothers =>
    refine ⟨first :: others, .plain fun hmem => ?_, rfl⟩
    rcases mem_cons.1 hmem with rfl | hmem
    · cases language <;> exact absurd hfirst (by decide)
    · have hquote := hothers _ hmem
      cases language <;> exact absurd hquote (by decide)
  | quoted inside hkotlin hne hinside =>
    exact ⟨inside, .quoted fun hmem => hinside _ hmem (by decide), rfl⟩

theorem name_eq (n : WrittenName language) (hafter : EndsName language after) (p : Place) :
    Header.name (lexicon language) p (n.text ++ after) = some (n.name, n.text.length) := by
  obtain ⟨bare, hbare, hname⟩ := n.encloses
  refine name_eq_some_iff.2 ⟨n.word_eq hafter, ?_⟩
  rw [take_left, bareName_of_encloses hbare, hname]

theorem point_notMem (n : WrittenName language) : '.' ∉ n.name.toList := by
  cases n with
  | plain first others hfirst hothers =>
    rw [name, String.toList_ofList]
    intro hmem
    rcases mem_cons.1 hmem with rfl | hmem
    · cases language <;> exact absurd hfirst (by decide)
    · have hpoint := hothers _ hmem
      cases language <;> exact absurd hpoint (by decide)
  | quoted inside hkotlin hne hinside =>
    rw [name, String.toList_ofList]
    exact fun hmem => hinside _ hmem (by decide)

theorem text_ne_nil (n : WrittenName language) : n.text ≠ [] := by
  cases n <;> simp [text]

theorem blanks_eq (n : WrittenName language) (hafter : EndsName language after) :
    (lexicon language).blanks (n.text ++ after) = 0 := by
  have hword := n.word_eq hafter
  obtain ⟨c, r, htext⟩ := exists_cons_of_ne_nil n.text_ne_nil
  rw [htext, cons_append] at hword ⊢
  exact Lexicon.blanks_of_startsLeaf _ (startsLeaf_of_startsWord (startsWord_of_word hword)) _

end WrittenName

/-! ### Scanners one after another -/

namespace Scan

variable {α β : Type} {x : Scanner α} {f : α → Scanner β} {a s : List Char} {L : Lexicon}

theorem bind_gives {u : α} {v : β} {m : Nat} (hx : x p (a ++ s) = some (u, a.length))
    (hf : f u (p.after a) s = some (v, m)) :
    (x >>= f) p (a ++ s) = some (v, a.length + m) := by
  rw [bind_append hx, hf]
  rfl

theorem bind_pure_of_some {u : α} {n : Nat} {g : α → β} (hx : x p s = some (u, n)) :
    (x >>= fun u => pure (g u)) p s = some (g u, n) := by
  rw [bind_of_some hx]
  rfl

theorem test_of_some {u : α} {n : Nat} (hx : x p s = some (u, n)) :
    Scanner.test x p s = some (true, n) := by
  rw [Scanner.test, bind_of_some (option_of_some hx)]
  rfl

theorem test_of_none (hx : x p s = none) : Scanner.test x p s = some (false, 0) := by
  rw [Scanner.test, bind_of_zero (option_of_none hx)]
  rfl

theorem text_gives (t : String) (s : List Char) : Scanner.text t p (t.toList ++ s) = some
    ((), t.toList.length) :=
  text_eq_some_iff.2 ⟨rfl, s, rfl⟩

theorem text_of_head? {t : String} {c : Char} (ht : t.toList = [c]) (hs : s.head? ≠ some c) :
    Scanner.text t p s = none := by
  refine text_eq_none ?_
  rintro r rfl
  rw [ht] at hs
  exact hs rfl

theorem blanks_gives (h : L.blanks (a ++ s) = a.length) : Header.blanks L p (a ++ s) = some
    ((), a.length) := by
  rw [Header.blanks, h]

theorem blanks_of_zero (h : L.blanks s = 0) : Header.blanks L p s = some ((), 0) := by
  rw [Header.blanks, h]

end Scan

/-! ### Paths -/

theorem nextName_of_gap {L : Lexicon} {s : List Char} (gap : List Char)
    (hgap : L.blanks (gap ++ s) = gap.length) (hs : s.head? ≠ some '.') (p : Place) :
    Header.nextName L p (gap ++ s) = none := by
  rw [Header.nextName, bind_append (blanks_gives hgap), bind_of_none (text_of_head? rfl hs)]
  rfl

theorem blanks_mark {L : Lexicon} {c : Char} (hc : c ∈ ['.', ';', '*', 'a', 'i', 'p', 's'])
    (r : List Char) :
    L.blanks (c :: r) = 0 := by
  refine L.blanks_of_startsLeaf ?_ r
  simp only [mem_cons, not_mem_nil, or_false] at hc
  rcases hc with rfl | rfl | rfl | rfl | rfl | rfl | rfl <;> exact ⟨by decide, by decide, by decide⟩

theorem nextName_star (r : List Char) (p : Place) : Header.nextName (lexicon language) p
    ('.' :: '*' :: r) = none := by
  have hname (p : Place) : Header.name (lexicon language) p ('*' :: r) = none := by
    rw [Header.name, Option.map_eq_none_iff]
    by_contra hsome
    obtain ⟨n, hn⟩ := Option.ne_none_iff_exists'.1 hsome
    exact absurd (startsWord_of_word hn) (by decide)
  have hpoint : Scanner.text "." p (['.'] ++ '*' :: r) = some ((), ['.'].length) :=
    text_gives "." _
  rw [Header.nextName, bind_of_zero (blanks_of_zero (blanks_mark (by decide) _))]
  refine (bind_append hpoint).trans ?_
  rw [bind_of_zero (blanks_of_zero (blanks_mark (by decide) _)), hname]
  rfl

theorem nextName_gives (n : WrittenName language) (hafter : EndsName language after) (p : Place) :
    Header.nextName (lexicon language) p ('.' :: n.text ++ after) =
      some (n.name, ('.' :: n.text).length) := by
  have hpoint : Scanner.text "." p (['.'] ++ (n.text ++ after)) = some ((), ['.'].length) :=
    text_gives "." _
  have hname : (Header.blanks (lexicon language) >>= fun _ =>
      Header.name (lexicon language)) (p.after ['.']) (n.text ++ after) =
        some (n.name, n.text.length) := by
    rw [bind_of_zero (blanks_of_zero (n.blanks_eq hafter)), n.name_eq hafter]
  rw [Header.nextName, cons_append, bind_of_zero (blanks_of_zero (blanks_mark (by decide) _))]
  refine (bind_gives hpoint hname).trans ?_
  rw [length_singleton, Nat.add_comm, length_cons]

theorem endsName_points (others : List (WrittenName language)) (hafter : EndsName language after) :
    EndsName language (others.flatMap (fun n => '.' :: n.text) ++ after) := by
  cases others with
  | nil => exact hafter
  | cons m others => exact endsName_cons (by cases language <;> decide) _

theorem many_nextName (others : List (WrittenName language)) (hafter : EndsName language after)
    (hstop : ∀ p, Header.nextName (lexicon language) p after = none) (p : Place) :
    Scanner.many.go (Header.nextName (lexicon language)) p (others.flatMap (fun n =>
    '.' :: n.text) ++ after) =
      (others.map (·.name), (others.flatMap fun n => '.' :: n.text).length) := by
  induction others generalizing p with
  | nil => exact many_go_of_none (hstop p)
  | cons n others ih =>
    have hgives := nextName_gives n (endsName_points others hafter) p
    rw [flatMap_cons, append_assoc, many_go_of_some hgives (by simp) (by simp),
      take_left, drop_left, ih, length_append]
    rfl

theorem WrittenPath.gives (path : WrittenPath language) (hafter : EndsName language after)
    (hstop : ∀ p, Header.nextName (lexicon language) p after = none) (p : Place) :
    Header.qualifiedName (lexicon language) p (path.text ++ after) =
      some (path.names, path.text.length) := by
  have hends := endsName_points path.others hafter
  have hmany : Scanner.many (Header.nextName (lexicon language)) (p.after path.first.text)
      (path.others.flatMap (fun n => '.' :: n.text) ++ after) = _ :=
        congrArg some (many_nextName path.others hafter hstop _)
  rw [WrittenPath.text, append_assoc, length_append]
  refine bind_gives (path.first.name_eq hends p) ((bind_gives hmany rfl).trans ?_)
  rfl

theorem WrittenPath.blanks_eq (path : WrittenPath language) (hafter : EndsName language after) :
    (lexicon language).blanks (path.text ++ after) = 0 := by
  rw [WrittenPath.text, append_assoc]
  exact path.first.blanks_eq (endsName_points path.others hafter)

/-! ### Declarations -/

/-- How a declaration ends: with a semicolon, or in Kotlin with a line end. Blanks and comments
may follow. -/
inductive Ending (language : Language) : List Char → Prop where
  | semicolon {gap : List Char} (hgap : Trivia language gap) : Ending language (';' :: gap)
  | newline {gap : List Char} (hkotlin : language = .kotlin) (hgap : Trivia language gap) :
      Ending language ('\n' :: gap)

/-- What an import makes of its path: one name, everything below it, or in Kotlin one name
under a new name. -/
inductive ImportKind (language : Language) where
  | one
  | everything
  | renamed (n : WrittenName language) (hkotlin : language = .kotlin)

namespace ImportKind

def text : ImportKind language → List Char
  | one => []
  | everything => ['.', '*']
  | renamed n _ => [' '] ++ ("as".toList ++ ([' '] ++ n.text))

def isEverything : ImportKind language → Bool
  | everything => true
  | _ => false

def newName : ImportKind language → Option String
  | renamed n _ => some n.name
  | _ => none

end ImportKind

structure WrittenPackage (language : Language) where
  path : WrittenPath language
  ending : List Char
  ends : Ending language ending

/-- An import as it is written. Only Java has static ones; there a path whose first name is
`static` could not be told from them. -/
structure WrittenImport (language : Language) where
  isStatic : Bool
  path : WrittenPath language
  kind : ImportKind language
  ending : List Char
  java : isStatic = true → language = .java
  notStatic : language = .java → isStatic = false → path.first.text ≠ "static".toList
  ends : Ending language ending

def WrittenPackage.text (d : WrittenPackage language) : List Char :=
  "package".toList ++ ([' '] ++ (d.path.text ++ d.ending))

def modifier (isStatic : Bool) : List Char :=
  if isStatic then "static".toList ++ [' '] else []

namespace WrittenImport

def text (d : WrittenImport language) : List Char :=
  "import".toList ++ ([' '] ++ (modifier d.isStatic ++ (d.path.text ++ (d.kind.text ++ d.ending))))

def onLine (d : WrittenImport language) (line : Nat) : Import where
  path := ".".intercalate d.path.names
  wildcard := d.kind.isEverything
  isStatic := d.isStatic
  newName := d.kind.newName
  line := line

theorem segments_onLine (d : WrittenImport language) (line : Nat) :
    (d.onLine line).segments = d.path.names := by
  refine split_intercalate (by simp [WrittenPath.names]) fun name hname => ?_
  rcases mem_cons.1 hname with rfl | hname
  · exact d.path.first.point_notMem
  · obtain ⟨n, -, rfl⟩ := mem_map.1 hname
    exact n.point_notMem

end WrittenImport

/-- The imports that are written one behind the other from the given line on. Lines are counted
in 32 bits. -/
def listed (line : Nat) : List (WrittenImport language) → List Import
  | [] => []
  | d :: ds => d.onLine (line % 2 ^ 32) :: listed (line + d.text.count '\n') ds

def listedAt (p : Place) : List (WrittenImport language) → List Import
  | [] => []
  | d :: ds => d.onLine p.line :: listedAt (p.after d.text) ds

theorem listedAt_between (before rest : List Char) (imports : List (WrittenImport language)) :
    listedAt (.between before (imports.flatMap (·.text) ++ rest)) imports =
      listed (1 + before.count '\n') imports := by
  induction imports generalizing before with
  | nil => rfl
  | cons d ds ih =>
    rw [flatMap_cons, append_assoc, listedAt, listed, Place.line_between,
      Place.after_between, ih, count_append, Nat.add_assoc]

theorem segments_listed (line : Nat) (imports : List (WrittenImport language)) :
    (listed line imports).map Import.segments = imports.map (·.path.names) := by
  induction imports generalizing line with
  | nil => rfl
  | cons d ds ih => rw [listed, map_cons, map_cons, d.segments_onLine, ih]

def headerText (package : Option (WrittenPackage language))
    (imports : List (WrittenImport language)) : List Char :=
  (package.elim [] (·.text)) ++ imports.flatMap (·.text)

def Begins (language : Language) (w : String) (s : List Char) : Prop :=
  ∃ r, s = w.toList ++ r ∧ EndsName language r

/-- A text with which no declaration of a Kotlin file goes on. -/
structure EndsDeclaration (rest : List Char) : Prop where
  point : rest.head? ≠ some '.'
  semicolon : rest.head? ≠ some ';'
  rename : ¬ Begins .kotlin "as" rest

/-- A text with which a body may start behind a header, or in a file that has none. -/
structure StartsBody (language : Language) (noHeader : Bool) (rest : List Char) : Prop where
  imports : ¬ Begins language "import" rest
  package : noHeader = true → ¬ Begins language "package" rest
  sign : noHeader = true → rest.head? ≠ some '@'
  script : noHeader = true → language = .kotlin → ['#', '!'].isPrefixOf rest = false
  ends : language = .kotlin → EndsDeclaration rest

/-! ### Declarations are read to their ends -/

/-- A scanner takes a text up to some blanks at its end, which the rest of the text does not go
on with. -/
def Consumes {α : Type} (L : Lexicon) (x : Scanner α) (p : Place) (text rest : List Char)
    (v : α) : Prop :=
  ∃ a b, text = a ++ b ∧ x p (text ++ rest) = some (v, a.length) ∧ L.blanks (b ++ rest) = b.length

namespace Consumes

variable {α β : Type} {L : Lexicon} {x : Scanner α} {f : α → Scanner β} {a text : List Char}
    {u : α} {v : β}

theorem pure (h : L.blanks (text ++ rest) = text.length) : Consumes L (Pure.pure u) p text rest u :=
  ⟨[], text, rfl, rfl, h⟩

theorem bind (hx : x p (a ++ (text ++ rest)) = some (u, a.length))
    (hf : Consumes L (f u) (p.after a) text rest v) :
    Consumes L (x >>= f) p (a ++ text) rest v := by
  obtain ⟨b, c, rfl, hb, hc⟩ := hf
  refine ⟨a ++ b, c, (append_assoc _ _ _).symm, ?_, hc⟩
  rw [append_assoc, bind_gives hx hb, length_append]

theorem skip (hx : x p (text ++ rest) = some (u, 0)) (hf : Consumes L (f u) p text rest v) :
    Consumes L (x >>= f) p text rest v := by
  obtain ⟨b, c, htext, hb, hc⟩ := hf
  exact ⟨b, c, htext, (bind_of_zero hx).trans hb, hc⟩

theorem option (hx : Consumes L x p text rest u) : Consumes L (Scanner.option x) p text rest
    (some u) := by
  obtain ⟨b, c, htext, hb, hc⟩ := hx
  exact ⟨b, c, htext, option_of_some hb, hc⟩

theorem then_blanks (hx : Consumes L x p text rest u) :
    (x >>= fun u => Header.blanks L >>= fun _ => f u) p (text ++ rest) =
      (f u (p.after text) rest).map fun (v, m) => (v, text.length + m) := by
  obtain ⟨b, c, rfl, hb, hc⟩ := hx
  rw [append_assoc] at hb ⊢
  rw [bind_append hb, bind_append (blanks_gives hc), ← Place.after_append, Option.map_map]
  congr 1
  funext found
  simp [Nat.add_assoc]

end Consumes

theorem keyword_gives (language : Language) {w : String} {s : List Char}
    (hs : EndsName language s) :
    Header.keyword (lexicon language) w p (w.toList ++ s) = some ((), w.toList.length) :=
  keyword_eq_some_iff.2 ⟨rfl, s, rfl, hs⟩

theorem keyword_of_not_begins (language : Language) {w : String} {s : List Char}
    (hs : ¬ Begins language w s) (p : Place) :
    Header.keyword (lexicon language) w p s = none :=
  keyword_eq_none p fun r hr hends => hs ⟨r, hr, hends⟩

theorem blank_gives {L : Lexicon} {s : List Char} (hs : L.blanks s = 0) :
    Header.blanks L p ([' '] ++ s) = some ((), [' '].length) :=
  blanks_gives (Lexicon.blanks_of_skips (.blank (by decide) .nil) hs)

theorem endsName_blank (r : List Char) : EndsName language ([' '] ++ r) :=
  endsName_cons (by cases language <;> decide) r

theorem wildcard_gives {L : Lexicon} {s : List Char} :
    Header.wildcard L p (['.', '*'] ++ s) = some ((), ['.', '*'].length) := by
  have hstar : (Header.blanks L >>= fun _ => Scanner.text "*") (p.after ['.']) (['*'] ++ s) =
      some ((), ['*'].length) := by
    have hblanks : L.blanks (['*'] ++ s) = 0 := blanks_mark (by decide) s
    rw [bind_of_zero (blanks_of_zero hblanks)]
    exact text_gives "*" s
  exact bind_gives (a := ['.']) (text_gives "." _) hstar

theorem wildcard_of_head? {L : Lexicon} {s : List Char} (hs : s.head? ≠ some '.') (p : Place) :
    Header.wildcard L p s = none :=
  bind_of_none (text_of_head? rfl hs)

theorem Ending.endsName {ending : List Char} (h : Ending language ending) (r : List Char) :
    EndsName language (ending ++ r) := by
  cases h <;> exact endsName_cons (by cases language <;> decide) _

theorem ImportKind.endsName (kind : ImportKind language) (hafter : EndsName language after) :
    EndsName language (kind.text ++ after) := by
  cases kind with
  | one => exact hafter
  | everything => exact endsName_cons (by cases language <;> decide) _
  | renamed n => exact endsName_cons (by cases language <;> decide) _

section Endings

variable {skipped : List Char}

theorem Trivia.blanks_append (hgap : Trivia language gap)
    (hskip : (lexicon language).Skips skipped rest) (hrest : (lexicon language).blanks rest = 0) :
    (lexicon language).blanks (gap ++ skipped ++ rest) = (gap ++ skipped).length := by
  rw [append_assoc, Lexicon.blanks_append_of_skips (hgap.skips _),
    Lexicon.blanks_of_skips hskip hrest, length_append]

/-! #### Java -/

theorem not_begins_static (n : WrittenName .java) (hn : n.text ≠ "static".toList)
    (hafter : EndsName .java after) :
    ¬ Begins .java "static" (n.text ++ after) := by
  rintro ⟨r, hr, hends⟩
  have hstatic : (lexicon .java).word ("static".toList ++ r) = some "static".toList.length :=
    word_of_nameChars (c := 's') (x := ['t', 'a', 't', 'i', 'c']) (by decide)
      (all_eq_true.1 (by decide)) hends
  have hlength := n.word_eq hafter
  rw [hr, hstatic, Option.some.injEq] at hlength
  exact hn (append_inj hr hlength.symm).1

/-- The word `static` is taken if it is there, and nothing else is taken for it. -/
theorem consumes_modifier {β : Type} {f : Bool → Scanner β} {v : β} {text : List Char}
    (isStatic : Bool) (hstatic : isStatic = false → ¬ Begins .java "static" (text ++ rest))
    (hblanks : Lexicon.java.blanks (text ++ rest) = 0)
    (hf : ∀ q, Consumes .java (f isStatic) q text rest v) (p : Place) :
    Consumes .java (Scanner.test (Header.keyword .java "static") >>= fun b =>
    Header.blanks .java >>= fun _ => f b) p
      (modifier isStatic ++ text) rest v := by
  cases isStatic with
  | false =>
    refine .skip (test_of_none (keyword_of_not_begins .java (hstatic rfl) p)) ?_
    exact .skip (blanks_of_zero hblanks) (hf p)
  | true =>
    have hword : Header.keyword .java "static" p ("static".toList ++ ([' '] ++ text ++ rest)) =
        some ((), "static".toList.length) :=
      keyword_gives .java (endsName_blank _)
    rw [modifier, if_pos rfl, append_assoc]
    exact .bind (test_of_some hword) (.bind (blank_gives hblanks) (hf _))

theorem WrittenImport.consumes_java (d : WrittenImport .java)
    (hskip : Lexicon.java.Skips skipped rest) (hrest : Lexicon.java.blanks rest = 0) (p : Place) :
    Consumes .java Java.importDecl p (d.text ++ skipped) rest (d.onLine p.line) := by
  obtain ⟨isStatic, path, kind, ending, hjava, hstatic, hends⟩ := d
  have hafter := kind.endsName (hends.endsName (skipped ++ rest))
  cases hends with
  | newline hkotlin => cases hkotlin
  | @semicolon gap hgap =>
    have hgap : Lexicon.java.blanks (gap ++ skipped ++ rest) = (gap ++ skipped).length :=
      hgap.blanks_append hskip hrest
    have hafter : EndsName .java (kind.text ++ ';' :: (gap ++ skipped) ++ rest) := by
      rw [append_assoc, cons_append, append_assoc]
      exact hafter
    have hpath : Lexicon.java.blanks (path.text ++ (kind.text ++ ';' :: (gap ++ skipped)) ++
        rest) = 0 := by
      rw [append_assoc]
      exact path.blanks_eq hafter
    unfold WrittenImport.text
    simp only [append_assoc, cons_append]
    refine .skip (u := p) rfl
      (.bind (keyword_gives .java (endsName_blank _)) (.bind (blank_gives ?_) ?_))
    · cases isStatic with
      | false => exact hpath
      | true => exact blanks_mark (by decide) _
    refine consumes_modifier isStatic (fun hfalse => ?_) hpath (fun q => ?_) _
    · rw [WrittenPath.text, append_assoc, append_assoc]
      exact not_begins_static _ (hstatic rfl hfalse) (endsName_points _ hafter)
    cases kind with
    | renamed n hkotlin => cases hkotlin
    | one =>
      have hzero : Lexicon.java.blanks (';' :: (gap ++ skipped) ++ rest) = 0 :=
        blanks_mark (by decide) _
      have hhead : (';' :: (gap ++ skipped) ++ rest).head? ≠ some '.' := by simp
      refine .bind (path.gives hafter (nextName_of_gap [] hzero hhead) q)
        (.skip (blanks_of_zero hzero) ?_)
      refine .skip (test_of_none (wildcard_of_head? hhead _)) ?_
      exact .skip (blanks_of_zero hzero) (.bind (a := [';']) (text_gives ";" _) (.pure hgap))
    | everything =>
      refine .bind (path.gives hafter (nextName_star _) q)
        (.skip (blanks_of_zero (blanks_mark (by decide) _)) ?_)
      refine .bind (test_of_some wildcard_gives)
        (.skip (blanks_of_zero (blanks_mark (by decide) _)) ?_)
      exact .bind (a := [';']) (text_gives ";" _) (.pure hgap)

theorem WrittenPackage.consumes_java (d : WrittenPackage .java)
    (hskip : Lexicon.java.Skips skipped rest) (hrest : Lexicon.java.blanks rest = 0) (p : Place) :
    Consumes .java Java.packageDecl p (d.text ++ skipped) rest d.path.names := by
  obtain ⟨path, ending, hends⟩ := d
  cases hends with
  | newline hkotlin => cases hkotlin
  | @semicolon gap hgap =>
    have hgap : Lexicon.java.blanks (gap ++ skipped ++ rest) = (gap ++ skipped).length :=
      hgap.blanks_append hskip hrest
    have hzero : Lexicon.java.blanks (';' :: (gap ++ skipped) ++ rest) = 0 :=
      blanks_mark (by decide) _
    have hhead : (';' :: (gap ++ skipped) ++ rest).head? ≠ some '.' := by simp
    have hafter : EndsName .java (';' :: (gap ++ skipped) ++ rest) := endsName_cons (by decide) _
    have hpath : Lexicon.java.blanks (path.text ++ ';' :: (gap ++ skipped) ++ rest) = 0 := by
      rw [append_assoc]
      exact path.blanks_eq hafter
    unfold WrittenPackage.text
    simp only [append_assoc, cons_append]
    unfold Java.packageDecl
    refine .skip (many_of_none (bind_of_none (bind_of_none (text_of_head? (c := '@') rfl ?_)))) ?_
    · simp
    refine .bind (keyword_gives .java (endsName_blank _)) (.bind (blank_gives hpath) ?_)
    refine .bind (path.gives hafter (nextName_of_gap [] hzero hhead) _)
      (.skip (blanks_of_zero hzero) ?_)
    exact .bind (a := [';']) (text_gives ";" _) (.pure hgap)

/-! #### Kotlin -/

/-- An ending in a Kotlin file and the blanks behind it, cut into the blanks that stand in
front of the semicolon and the text from there on. -/
structure Kotlin.EndsWith (s rest e t : List Char) : Prop where
  split : s = e ++ t
  gap : Lexicon.kotlin.blanks (e ++ (t ++ rest)) = e.length
  blanks : Lexicon.kotlin.blanks (t ++ rest) = 0
  point : (t ++ rest).head? ≠ some '.'
  rename : ¬ Begins .kotlin "as" (t ++ rest)
  consumes : ∀ {α : Type} (v : α) (p : Place),
    Consumes .kotlin (Scanner.option (Scanner.text ";") >>= fun _ => pure v) p t rest v

theorem Ending.endsWith {ending : List Char} (h : Ending .kotlin ending)
    (hskip : Lexicon.kotlin.Skips skipped rest)
    (hrest : Lexicon.kotlin.blanks rest = 0) (hend : EndsDeclaration rest) :
    ∃ e t, Kotlin.EndsWith (ending ++ skipped) rest e t := by
  cases h with
  | @semicolon gap hgap =>
    have hgap : Lexicon.kotlin.blanks (gap ++ skipped ++ rest) = (gap ++ skipped).length :=
      hgap.blanks_append hskip hrest
    have hzero : Lexicon.kotlin.blanks (';' :: (gap ++ skipped) ++ rest) = 0 :=
      blanks_mark (by decide) _
    refine ⟨[], ';' :: (gap ++ skipped), rfl, hzero, hzero, by simp, ?_, fun v p => ?_⟩
    · rintro ⟨r, hr, -⟩
      cases hr
    · exact .bind (a := [';']) (option_of_some (text_gives ";" _)) (.pure hgap)
  | @newline gap _ hgap =>
    have hgap : Lexicon.kotlin.blanks ('\n' :: gap ++ skipped ++ rest) =
        ('\n' :: gap ++ skipped).length :=
      (Trivia.blank (by decide) hgap).blanks_append hskip hrest
    refine ⟨'\n' :: gap ++ skipped, [], (append_nil _).symm, hgap, hrest, hend.point,
      hend.rename, fun v p => ?_⟩
    exact .skip (option_of_none (text_of_head? rfl hend.semicolon)) (.pure hrest)

theorem WrittenPackage.consumes_kotlin (d : WrittenPackage .kotlin)
    (hskip : Lexicon.kotlin.Skips skipped rest)
    (hrest : Lexicon.kotlin.blanks rest = 0) (hend : EndsDeclaration rest) (p : Place) :
    Consumes .kotlin Kotlin.packageHeader p (d.text ++ skipped) rest d.path.names := by
  obtain ⟨path, ending, hends⟩ := d
  have hafter := hends.endsName (skipped ++ rest)
  obtain ⟨e, t, hsplit⟩ := hends.endsWith hskip hrest hend
  rw [← append_assoc, hsplit.split, append_assoc] at hafter
  unfold WrittenPackage.text
  simp only [append_assoc]
  rw [hsplit.split, Kotlin.packageHeader]
  refine .bind (keyword_gives .kotlin (endsName_blank _)) (.bind (blank_gives ?_) ?_)
  · rw [append_assoc, append_assoc]
    exact path.blanks_eq hafter
  refine .bind (path.gives ?_ ?_ _) (.bind (blanks_gives hsplit.gap) (hsplit.consumes _ _))
  · rw [append_assoc]
    exact hafter
  · rw [append_assoc]
    exact nextName_of_gap e hsplit.gap hsplit.point

theorem importAlias_gives (n : WrittenName .kotlin) (hafter : EndsName .kotlin after) (p : Place) :
    Kotlin.importAlias p ("as".toList ++ ([' '] ++ n.text) ++ after) =
      some (n.name, ("as".toList ++ ([' '] ++ n.text)).length) := by
  rw [append_assoc, append_assoc, Kotlin.importAlias, length_append, length_append]
  refine bind_gives (keyword_gives .kotlin (endsName_blank _)) ?_
  exact bind_gives (blank_gives (n.blanks_eq hafter)) (n.name_eq hafter _)

theorem WrittenImport.consumes_kotlin (d : WrittenImport .kotlin)
    (hskip : Lexicon.kotlin.Skips skipped rest)
    (hrest : Lexicon.kotlin.blanks rest = 0) (hend : EndsDeclaration rest) (p : Place) :
    Consumes .kotlin Kotlin.importHeader p (d.text ++ skipped) rest (d.onLine p.line) := by
  obtain ⟨isStatic, path, kind, ending, hjava, hstatic, hends⟩ := d
  obtain rfl : isStatic = false := by
    by_contra htrue
    cases hjava (by simpa using htrue)
  have hending := hends.endsName (skipped ++ rest)
  have hafter := kind.endsName hending
  obtain ⟨e, t, hsplit⟩ := hends.endsWith hskip hrest hend
  rw [← append_assoc, hsplit.split, append_assoc] at hending
  rw [← append_assoc ending, hsplit.split, append_assoc] at hafter
  unfold WrittenImport.text
  simp only [append_assoc]
  rw [hsplit.split, modifier, if_neg (by decide), nil_append]
  refine .skip (u := p) rfl
    (.bind (keyword_gives .kotlin (endsName_blank _)) (.bind (blank_gives ?_) ?_))
  · rw [append_assoc, append_assoc, append_assoc]
    exact path.blanks_eq hafter
  cases kind with
  | one =>
    -- The path is followed by nothing of its own, so the text behind it must not be a star, a
    -- new name or a semicolon either.
    rw [ImportKind.text, nil_append] at hafter ⊢
    refine .bind (path.gives ?_ ?_ _) (.bind (blanks_gives hsplit.gap) ?_)
    · rw [append_assoc]
      exact hafter
    · rw [append_assoc]
      exact nextName_of_gap e hsplit.gap hsplit.point
    have hrename : ∀ q, Kotlin.importAlias q (t ++ rest) = none :=
      fun q => bind_of_none (keyword_of_not_begins .kotlin hsplit.rename q)
    refine .skip (test_of_none (wildcard_of_head? hsplit.point _))
      (.skip (option_of_none (hrename _)) ?_)
    exact .skip (blanks_of_zero hsplit.blanks) (hsplit.consumes _ _)
  | everything =>
    refine .bind (path.gives ?_ ?_ _) (.skip (blanks_of_zero (blanks_mark (by decide) _)) ?_)
    · rw [append_assoc, append_assoc]
      exact hafter
    · exact nextName_star _
    refine .bind (test_of_some wildcard_gives) (.skip (u := none) rfl ?_)
    exact .bind (blanks_gives hsplit.gap) (hsplit.consumes _ _)
  | renamed n hkotlin =>
    have hrename (q : Place) :
        Kotlin.importAlias q (("as".toList ++ ([' '] ++ n.text)) ++ (e ++ t ++ rest)) = _ :=
      importAlias_gives n (by rw [append_assoc]; exact hending) q
    have hzero : Lexicon.kotlin.blanks (("as".toList ++ ([' '] ++ n.text)) ++ (e ++ t) ++ rest) =
        0 := blanks_mark (by decide) _
    have hhead : (("as".toList ++ ([' '] ++ n.text)) ++ (e ++ t) ++ rest).head? ≠ some '.' := by
      simp
    rw [ImportKind.text, append_assoc [' ']] at hafter ⊢
    refine .bind (path.gives ?_ ?_ _) (.bind (blank_gives hzero) ?_)
    · exact endsName_blank _
    · exact nextName_of_gap [' '] (Lexicon.blanks_of_skips (.blank (by decide) .nil) hzero) hhead
    refine .skip (test_of_none (wildcard_of_head? hhead _))
      (.bind (option_of_some (hrename _)) ?_)
    exact .bind (blanks_gives hsplit.gap) (hsplit.consumes _ _)

/-! ### Headers are read to their ends -/

def packageRule : Language → Scanner (List String)
  | .java => Java.packageDecl
  | .kotlin => Kotlin.packageHeader

def importRule : Language → Scanner Import
  | .java => Java.importDecl
  | .kotlin => Kotlin.importHeader

def spacedImport (language : Language) : Scanner Import := do
  let i ← importRule language
  Header.blanks (lexicon language)
  return i

def headerRule (language : Language) : Scanner (Option String × List Import) := do
  let package ← Scanner.option (packageRule language)
  Header.blanks (lexicon language)
  let imports ← Scanner.many (spacedImport language)
  return (package.map (".".intercalate ·), imports)

theorem Kotlin.header_eq : Kotlin.header = (do
    Header.blanks .kotlin
    let _ ← Scanner.option scriptLine
    Header.blanks .kotlin
    let _ ← Scanner.many do
      fileAnnotation
      Header.blanks .kotlin
    headerRule .kotlin) := rfl

theorem header_of_headerRule {s : List Char} (gap : List Char)
    (hgap : (lexicon language).blanks (gap ++ s) = gap.length)
    (hzero : (lexicon language).blanks s = 0) (hsign : s.head? ≠ some '@')
    (hscript : language = .kotlin → ['#', '!'].isPrefixOf s = false) (p : Place) :
    header language p (gap ++ s) = (headerRule language (p.after gap) s).map fun (v, m) =>
    (v, gap.length + m) := by
  cases language with
  | java => exact bind_append (blanks_gives hgap)
  | kotlin =>
    have hline (q : Place) : Kotlin.scriptLine q s = none :=
      Kotlin.scriptLine_eq_none (hscript rfl) q
    have hskip (q : Place) : Header.blanks .kotlin q s = some ((), 0) := blanks_of_zero hzero
    have hsigned (q : Place) : Kotlin.fileAnnotation q s = none :=
      bind_of_none (text_at rfl hsign q)
    rw [header, Kotlin.header_eq]
    refine (bind_append (blanks_gives hgap)).trans ?_
    rw [bind_of_zero (option_of_none (hline _)), bind_of_zero (hskip _),
      bind_of_zero (many_of_none (bind_of_none (hsigned _)))]

theorem importRule_of_not_begins {s : List Char} (hs : ¬ Begins language "import" s) (p : Place) :
    importRule language p s = none := by
  cases language with
  | java =>
    have hword : Header.keyword .java "import" p s = none := keyword_of_not_begins .java hs p
    change Java.importDecl p s = none
    unfold Java.importDecl
    rw [bind_of_zero (a := p) rfl, bind_of_none hword]
  | kotlin =>
    have hword : Header.keyword .kotlin "import" p s = none := keyword_of_not_begins .kotlin hs p
    change Kotlin.importHeader p s = none
    unfold Kotlin.importHeader
    rw [bind_of_zero (a := p) rfl, bind_of_none hword]

theorem packageRule_of_not_begins {s : List Char} (hs : ¬ Begins language "package" s)
    (hsign : s.head? ≠ some '@') (p : Place) :
    packageRule language p s = none := by
  cases language with
  | java =>
    have hword : Header.keyword .java "package" p s = none := keyword_of_not_begins .java hs p
    have hsigned : Java.annotation p s = none := bind_of_none (text_at rfl hsign p)
    change Java.packageDecl p s = none
    unfold Java.packageDecl
    rw [bind_of_zero (many_of_none (bind_of_none hsigned)), bind_of_none hword]
  | kotlin => exact bind_of_none (keyword_of_not_begins .kotlin hs p)

theorem WrittenPackage.consumes (d : WrittenPackage language)
    (hskip : (lexicon language).Skips skipped rest) (hrest : (lexicon language).blanks rest = 0)
    (hend : language = .kotlin → EndsDeclaration rest) (p : Place) :
    Consumes (lexicon language) (packageRule language) p (d.text ++ skipped) rest d.path.names := by
  cases language with
  | java => exact d.consumes_java hskip hrest p
  | kotlin => exact d.consumes_kotlin hskip hrest (hend rfl) p

theorem WrittenImport.consumes (d : WrittenImport language)
    (hskip : (lexicon language).Skips skipped rest) (hrest : (lexicon language).blanks rest = 0)
    (hend : language = .kotlin → EndsDeclaration rest) (p : Place) :
    Consumes (lexicon language) (importRule language) p (d.text ++ skipped) rest
    (d.onLine p.line) := by
  cases language with
  | java => exact d.consumes_java hskip hrest p
  | kotlin => exact d.consumes_kotlin hskip hrest (hend rfl) p

namespace WrittenImport

variable (d : WrittenImport language) (r : List Char)

theorem text_cons : ∃ x, d.text = 'i' :: 'm' :: x := ⟨_, rfl⟩

theorem blanks_text : (lexicon language).blanks (d.text ++ r) = 0 := by
  obtain ⟨x, hx⟩ := d.text_cons
  rw [hx]
  exact blanks_mark (by decide) _

theorem packageRule_text (p : Place) : packageRule language p (d.text ++ r) = none := by
  obtain ⟨x, hx⟩ := d.text_cons
  rw [hx]
  refine packageRule_of_not_begins ?_ (by simp) p
  rintro ⟨y, hy, -⟩
  cases hy

theorem endsDeclaration : EndsDeclaration (d.text ++ r) := by
  obtain ⟨x, hx⟩ := d.text_cons
  rw [hx]
  refine ⟨by simp, by simp, ?_⟩
  rintro ⟨y, hy, -⟩
  cases hy

end WrittenImport

theorem many_cons (d : WrittenImport language) (skipped : List Char)
    (h : Consumes (lexicon language) (importRule language) p (d.text ++ skipped) rest
    (d.onLine p.line)) :
    Scanner.many.go (spacedImport language) p (d.text ++ skipped ++ rest) =
      (d.onLine p.line :: (Scanner.many.go (spacedImport language)
      (p.after (d.text ++ skipped)) rest).1,
        (d.text ++ skipped).length +
        (Scanner.many.go (spacedImport language) (p.after (d.text ++ skipped)) rest).2) := by
  have hone : spacedImport language p (d.text ++ skipped ++ rest) =
      some (d.onLine p.line, (d.text ++ skipped).length) :=
    h.then_blanks
  obtain ⟨x, hx⟩ := d.text_cons
  rw [many_go_of_some hone (by simp [hx]) (by simp [hx]), take_left, drop_left]

section Lists

variable (hskip : (lexicon language).Skips skipped rest)
    (hrest : (lexicon language).blanks rest = 0)
  (hend : language = .kotlin → EndsDeclaration rest) (hnone : ¬ Begins language "import" rest)

include hskip hrest hend hnone

theorem many_imports (imports : List (WrittenImport language))
    (himports : imports = [] → skipped = []) (p : Place) :
    Scanner.many.go (spacedImport language) p (imports.flatMap (·.text) ++ skipped ++ rest) =
      (listedAt p imports, (imports.flatMap (·.text) ++ skipped).length) := by
  have hlast (q : Place) : spacedImport language q rest = none :=
    bind_of_none (importRule_of_not_begins hnone q)
  induction imports generalizing p with
  | nil =>
    cases himports rfl
    exact many_go_of_none (hlast p)
  | cons d ds ih =>
    cases ds with
    | nil =>
      -- the blanks behind the last import are taken with it
      rw [flatMap_singleton, many_cons d skipped (d.consumes hskip hrest hend p),
        many_go_of_none (hlast _)]
      rfl
    | cons d' ds =>
      have hnext : language = .kotlin →
          EndsDeclaration (d'.text ++ (ds.flatMap (·.text) ++ (skipped ++ rest))) := by
        rintro rfl
        exact d'.endsDeclaration _
      have hcons := many_cons d [] (d.consumes .nil (d'.blanks_text _) hnext p)
      have hds := ih (by simp) (p.after d.text)
      simp only [flatMap_cons, append_assoc, append_nil] at hcons hds ⊢
      rw [hcons, hds, ← length_append]
      rfl

theorem headerRule_gives (package : Option (WrittenPackage language))
    (imports : List (WrittenImport language))
    (hpackage : package = none → imports = [] → skipped = [] ∧ ∀ p, packageRule language p rest =
      none) (p : Place) :
    headerRule language p (headerText package imports ++ skipped ++ rest) =
      some ((package.map fun d => ".".intercalate d.path.names,
        listedAt (p.after (package.elim [] (·.text))) imports),
        (headerText package imports ++ skipped).length) := by
  have hmany := many_imports hskip hrest hend hnone
  unfold headerRule
  cases package with
  | none =>
    have hfirst : (lexicon language).blanks (imports.flatMap (·.text) ++ skipped ++ rest) = 0 ∧
        packageRule language p (imports.flatMap (·.text) ++ skipped ++ rest) = none := by
      cases imports with
      | nil =>
        obtain ⟨rfl, hnone⟩ := hpackage rfl rfl
        exact ⟨hrest, hnone p⟩
      | cons d ds =>
        rw [flatMap_cons, append_assoc, append_assoc]
        exact ⟨d.blanks_text _, d.packageRule_text _ p⟩
    have himports := congrArg some (hmany imports (fun hnil => (hpackage rfl hnil).1) p)
    rw [headerText, Option.elim_none, Place.after_nil, nil_append,
      bind_of_zero (option_of_none hfirst.2), bind_of_zero (blanks_of_zero hfirst.1)]
    exact bind_pure_of_some himports
  | some d =>
    -- The blanks behind the header belong to its last declaration, which is the package only
    -- if there are no imports.
    cases imports with
    | nil =>
      have hd := (d.consumes hskip hrest hend p).option
      have hlast (q : Place) : spacedImport language q rest = none :=
        bind_of_none (importRule_of_not_begins hnone q)
      rw [headerText, Option.elim_some, flatMap_nil, append_nil, hd.then_blanks,
        bind_of_zero (many_of_none (hlast _))]
      rfl
    | cons d' ds =>
      have htail : (d' :: ds).flatMap (·.text) ++ skipped ++ rest =
          d'.text ++ (ds.flatMap (·.text) ++ (skipped ++ rest)) := by
        rw [flatMap_cons, append_assoc, append_assoc]
      have hnext : language = .kotlin →
          EndsDeclaration ((d' :: ds).flatMap (·.text) ++ skipped ++ rest) := by
        rintro rfl
        rw [htail]
        exact d'.endsDeclaration _
      have hblanks : (lexicon language).blanks ((d' :: ds).flatMap (·.text) ++ skipped ++ rest) =
          0 := by
        rw [htail]
        exact d'.blanks_text _
      have hd := (d.consumes .nil hblanks hnext p).option
      have himports := congrArg some (hmany (d' :: ds) (by simp) (p.after d.text))
      have htext : headerText (some d) (d' :: ds) ++ skipped =
          d.text ++ ((d' :: ds).flatMap (·.text) ++ skipped) :=
        append_assoc _ _ _
      have hlength : (headerText (some d) (d' :: ds) ++ skipped).length =
          d.text.length + ((d' :: ds).flatMap (·.text) ++ skipped).length := by
        rw [htext, length_append]
      rw [append_nil] at hd
      rw [hlength, htext, append_assoc, hd.then_blanks, bind_pure_of_some himports]
      rfl

end Lists

theorem headerText_cons (package : Option (WrittenPackage language))
    (imports : List (WrittenImport language))
    (h : (package.isNone && imports.isEmpty) = false) : ∃ c x, headerText package imports =
      c :: x ∧ (c = 'p' ∨ c = 'i') := by
  cases package with
  | some d => exact ⟨'p', _, rfl, .inl rfl⟩
  | none =>
    cases imports with
    | nil => cases h
    | cons d ds => exact ⟨'i', _, rfl, .inr rfl⟩

theorem header_gives (package : Option (WrittenPackage language))
    (imports : List (WrittenImport language))
    (hskip : (lexicon language).Skips skipped rest) (hrest : (lexicon language).blanks rest = 0)
    (hbody : StartsBody language (package.isNone && imports.isEmpty) rest) :
    header language (.start (headerText package imports ++ skipped ++ rest))
    (headerText package imports ++ skipped ++ rest) =
      some ((package.map fun d => ".".intercalate d.path.names,
        listed (1 + (package.elim [] (·.text)).count '\n') imports),
        (headerText package imports ++ skipped).length) := by
  have hlisted := listedAt_between (package.elim [] (·.text)) (skipped ++ rest) imports
  have htext : package.elim [] (·.text) ++ (imports.flatMap (·.text) ++ (skipped ++ rest)) =
      headerText package imports ++ skipped ++ rest := by
    simp only [headerText, append_assoc]
  rw [Place.between, htext] at hlisted
  cases hempty : package.isNone && imports.isEmpty with
  | true =>
    rw [hempty] at hbody
    rw [Bool.and_eq_true, Option.isNone_iff_eq_none, List.isEmpty_iff] at hempty
    obtain ⟨rfl, rfl⟩ := hempty
    have hrule := headerRule_gives .nil hrest hbody.ends hbody.imports none [] (fun _ _ =>
      ⟨rfl, packageRule_of_not_begins (hbody.package rfl) (hbody.sign rfl)⟩)
      ((Place.start (skipped ++ rest)).after skipped)
    refine (header_of_headerRule skipped (Lexicon.blanks_of_skips hskip hrest) hrest
      (hbody.sign rfl) (hbody.script rfl)
      _).trans ?_
    exact congrArg _ hrule
  | false =>
    have hrule := headerRule_gives hskip hrest hbody.ends hbody.imports package imports
      (fun hnone hnil => by
      rw [hnone, hnil] at hempty
      cases hempty) (.start (headerText package imports ++ skipped ++ rest))
    rw [hlisted] at hrule
    obtain ⟨c, x, hcons, hc⟩ := headerText_cons package imports hempty
    rw [hcons] at hrule ⊢
    have hzero : (lexicon language).blanks (c :: x ++ skipped ++ rest) = 0 := by
      rcases hc with rfl | rfl <;> exact blanks_mark (by decide) _
    have hsign : (c :: x ++ skipped ++ rest).head? ≠ some '@' := by
      rcases hc with rfl | rfl <;> simp
    have hscript : ['#', '!'].isPrefixOf (c :: x ++ skipped ++ rest) = false := by
      rcases hc with rfl | rfl <;> rfl
    generalize c :: x ++ skipped ++ rest = s at hrule hzero hsign hscript ⊢
    have hheader := header_of_headerRule [] hzero hzero hsign (fun _ => hscript) (.start s)
    rw [nil_append, Place.after_nil, hrule] at hheader
    rw [hheader]
    simp

end Endings

theorem body?_skips (language : Language) (hgap : (lexicon language).Skips gap rest) (p : Place) :
    body? (lexicon language) p (gap ++ rest) = body? (lexicon language) (p.after gap) rest := by
  rw [body?_eq_scan_start, body?_eq_scan_start]
  exact scan_skips hgap p

/-- **A header in standard form is read back as it was written.** In front of a body that
cannot be taken for a part of the header, the file has exactly this package and these imports,
in order, each with the line of its first word; the rest of the file is read as if it stood
alone at this place. The parts of an import's path are its names without backticks. -/
theorem parse_headerText (package : Option (WrittenPackage language))
    (imports : List (WrittenImport language)) (body : List Char)
    (hbody : StartsBody language (package.isNone && imports.isEmpty)
    (body.drop ((lexicon language).blanks body))) (file : String) :
    parse language (String.ofList (headerText package imports ++ body)) file =
        (body? (lexicon language)
        ((Place.start (headerText package imports ++ body)).after (headerText package imports))
        body).elim (.error ⟨file⟩) (fun tokens =>
          .ok { package := package.map fun d => ".".intercalate d.path.names
                imports := listed (1 + (package.elim [] (·.text)).count '\n') imports
                calls := (findings language tokens).calls
                functions := (findings language tokens).functions }) ∧
      ∀ line, (listed line imports).map Import.segments = imports.map (·.path.names) := by
  refine ⟨?_, fun line => segments_listed line imports⟩
  obtain ⟨gap, rest, rfl, hlength, hskip, hrest⟩ := (lawful_lexicon language).exists_gap body
  rw [hlength, drop_left] at hbody
  have hheader := header_gives package imports hskip hrest hbody
  rw [parse, outline?, String.toList_ofList, outlineChars?, ← append_assoc, hheader,
    body?_skips language hskip, ← Place.after_append]
  simp only [Option.bind_eq_bind, Option.bind_some, take_left, drop_left]
  cases body? (lexicon language) ((Place.start (headerText package imports ++ gap ++ rest)).after
    (headerText package imports ++ gap)) rest <;> rfl

def letterName (c : Char) (hc : startsName .kotlin c = true) : WrittenName .kotlin :=
  .plain c [] hc (forall_mem_nil _)

def letterPackage : WrittenPackage .kotlin where
  path := ⟨letterName 'a' (by decide), []⟩
  ending := ['\n']
  ends := .newline rfl .nil

def letterImports : List (WrittenImport .kotlin) :=
  [{ isStatic := false
     path := ⟨letterName 'b' (by decide), [.quoted ['c', ' ', 'd'] rfl (by simp) (by simp)]⟩
     kind := .everything
     ending := ";// all\n".toList
     java := by decide
     notStatic := by decide
     ends := .semicolon (.line (x := [' ', 'a', 'l', 'l']) (by simp [isLineEnd]) rfl .nil) },
   { isStatic := false
     path := ⟨letterName 'e' (by decide), []⟩
     kind := .renamed (letterName 'f' (by decide)) rfl
     ending := ['\n']
     java := by decide
     notStatic := by decide
     ends := .newline rfl .nil }]

theorem parse_headerText_letterImports :
    StartsBody .kotlin false ['g', '(', ')'] ∧
      parse .kotlin "package a\nimport b.`c d`.*;// all\nimport e as f\ng()" "Main.kt" =
        .ok { package := some "a"
              imports := [⟨"b.c d", true, false, none, 2⟩, ⟨"e", false, false, some "f", 3⟩]
              calls := [⟨"g", none, 4, ⟨48, 49⟩⟩] } := by
  have himport : ¬ Begins .kotlin "import" ['g', '(', ')'] := by
    rintro ⟨r, hr, -⟩
    cases hr
  have hrename : ¬ Begins .kotlin "as" ['g', '(', ')'] := by
    rintro ⟨r, hr, -⟩
    cases hr
  have hbody : StartsBody .kotlin false ['g', '(', ')'] :=
    ⟨himport, (absurd · (by decide)), (absurd · (by decide)), (absurd · (by decide)), fun _ =>
      ⟨by decide, by decide, hrename⟩⟩
  have hblanks : (lexicon .kotlin).blanks ['g', '(', ')'] = 0 := by with_unfolding_all rfl
  have htokens : body? (lexicon .kotlin)
      ((Place.start (headerText (some letterPackage) letterImports ++ ['g', '(', ')'])).after
        (headerText (some letterPackage) letterImports)) ['g', '(', ')'] =
        some [.word "g" ⟨48, 49⟩ 4, .group .paren [] ⟨49, 51⟩ 4] := by
    with_unfolding_all rfl
  have hparse := (parse_headerText (some letterPackage) letterImports ['g', '(',
    ')'] (by rw [hblanks]; exact hbody) "Main.kt").1
  have hpackage : (some letterPackage).map (fun d => ".".intercalate d.path.names) =
      some "a" := by decide
  have himports : listed (1 + ((some letterPackage).elim [] (·.text)).count '\n') letterImports =
      [⟨"b.c d", true, false, none, 2⟩, ⟨"e", false, false, some "f", 3⟩] := by
    decide
  rw [htokens, Option.elim_some, hpackage, himports] at hparse
  refine ⟨hbody, hparse.trans ?_⟩
  simp [findings, Kotlin.findings, Kotlin.declarations, Kotlin.nested, Kotlin.callAt?,
    Kotlin.keywords, Token.word?, Token.isGroup,
    Token.children?, Token.isWord, Token.line, Token.span, qualifierBefore, qualifierText]

end WitnessReplay.Source
