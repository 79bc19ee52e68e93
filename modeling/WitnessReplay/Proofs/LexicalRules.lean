import Mathlib.Data.List.TakeWhile
import Mathlib.Data.Option.Basic
import WitnessReplay.Source.Parse

/-!
# What the lexical rules take

A rule answers with a number of characters. Here is what is known about these characters
whatever the language: a block comment ends with its closing mark, a literal or a word is not
empty and does not reach beyond the text, and a word is a name or a name between backticks. The
blanks in front of a token are made of blank characters and of comments that are complete where
they stand.
-/

namespace WitnessReplay.Source

open Text List

variable {s : List Char} {n : Nat}

theorem le_of_map_add {o : Option Nat} {k l : Nat} (h : o.map (· + k) = some n)
    (ho : ∀ m, o = some m → m ≤ l) :
    0 < k → 0 < n ∧ n ≤ l + k := by
  obtain ⟨m, hm, rfl⟩ := Option.map_eq_some_iff.1 h
  have := ho m hm
  omega

theorem quotedTail_bounds {quote : Char} (h : quotedTail quote s = some n) :
    0 < n ∧ n ≤ s.length := by
  fun_induction quotedTail quote s generalizing n with
  | case1 => cases h
  | case2 =>
    cases h
    simp
  | case3 => cases h
  | case4 d r ih => exact le_of_map_add (l := r.length) h (fun m hm => (ih hm).2) (by decide)
  | case5 d r hd =>
    cases h
    simp
  | case6 => cases h
  | case7 c d r hc hq hn ih =>
    exact le_of_map_add (l := r.length + 1) h (fun m hm => (ih hm).2) (by decide)

theorem charLiteral_bounds (h : charLiteral s = some n) : 0 < n ∧ n ≤ s.length := by
  unfold charLiteral at h
  split at h
  · split at h
    · cases h
    · exact le_of_map_add h (fun m hm => (quotedTail_bounds hm).2) (by decide)
  · cases h

theorem numberTail_le (s : List Char) : numberTail s ≤ s.length := by
  fun_induction numberTail s <;> simp_all

theorem number_bounds (h : number s = some n) : 0 < n ∧ n ≤ s.length := by
  unfold number at h
  split at h
  · rename_i c r
    split at h
    · cases h
      have := numberTail_le r
      simp only [length_cons]
      omega
    · cases h
  · cases h

theorem symbol_eq_some (h : symbol s = some n) : n = 1 ∧ ∃ c r, s = c :: r := by
  unfold symbol at h
  split at h
  · cases h
  · split at h
    · cases h
    · cases h
      exact ⟨rfl, _, _, rfl⟩
  · cases h

/-- A text is a name, or a name between backticks. -/
inductive Encloses : List Char → List Char → Prop where
  | plain {name : List Char} (h : '\x60' ∉ name) : Encloses name name
  | quoted {name : List Char} (h : '\x60' ∉ name) : Encloses ('\x60' :: name ++ ['\x60']) name

theorem bareName_of_encloses {text name : List Char} (h : Encloses text name) :
    Lexicon.bareName text = String.ofList name := by
  have hname (name : List Char) (h : '\x60' ∉ name) : name.filter (· != '\x60') = name := by
    refine filter_eq_self.2 fun c hc => ?_
    rw [bne_iff_ne]
    rintro rfl
    exact h hc
  cases h with
  | plain h => rw [Lexicon.bareName, hname text h]
  | quoted h => simp [Lexicon.bareName, hname name h]

theorem drop_length_takeWhile (p : Char → Bool) (s : List Char) :
    s.drop (s.takeWhile p).length = s.dropWhile p := by
  have h : (s.takeWhile p ++ s.dropWhile p).drop (s.takeWhile p).length = s.dropWhile p :=
    drop_left
  rwa [takeWhile_append_dropWhile] at h

theorem encloses_takeWhile {p : Char → Bool} {c : Char} {r : List Char} (hc : c ≠ '\x60')
    (hp : p '\x60' = false) :
    0 < (r.takeWhile p).length + 1 ∧ (r.takeWhile p).length + 1 ≤ (c :: r).length ∧
      ∃ name, Encloses ((c :: r).take ((r.takeWhile p).length + 1)) name := by
  have hlength := (List.takeWhile_prefix p (l := r)).length_le
  refine ⟨Nat.succ_pos _, by simpa using hlength, c :: r.takeWhile p, ?_⟩
  rw [take_succ_cons, ← prefix_iff_eq_take.1 (List.takeWhile_prefix _)]
  refine .plain fun hmem => ?_
  rcases mem_cons.1 hmem with rfl | hmem
  · exact hc rfl
  · rw [mem_takeWhile_imp hmem] at hp
    cases hp

/-- What the rules of a language have in common. -/
structure Lexicon.Lawful (L : Lexicon) : Prop where
  comment : ∀ {s n}, L.commentTail s = some n → ∃ x rest, s = x ++ '*' :: '/' :: rest ∧
    n = x.length + 2
  literal : ∀ {s n}, L.literal s = some n → 0 < n ∧ n ≤ s.length
  word : ∀ {s n}, L.word s = some n → 0 < n ∧ n ≤ s.length ∧ ∃ name, Encloses (s.take n) name

namespace Java

theorem commentTail_closes (h : commentTail s = some n) :
    ∃ x rest, s = x ++ '*' :: '/' :: rest ∧ n = x.length + 2 := by
  fun_induction commentTail s generalizing n with
  | case1 rest =>
    cases h
    exact ⟨[], rest, rfl, rfl⟩
  | case2 c r hclose ih =>
    obtain ⟨m, hm, rfl⟩ := Option.map_eq_some_iff.1 h
    obtain ⟨x, rest, rfl, rfl⟩ := ih hm
    exact ⟨c :: x, rest, rfl, rfl⟩
  | case3 => cases h

theorem textBlockTail_le (h : textBlockTail s = some n) : n ≤ s.length := by
  fun_induction textBlockTail s generalizing n with
  | case1 =>
    cases h
    simp
  | case2 c r ih => exact (le_of_map_add h (fun m hm => ih hm) (by decide)).2
  | case3 c r _ _ ih => exact (le_of_map_add h (fun m hm => ih hm) (by decide)).2
  | case4 => cases h

theorem string_bounds (h : string s = some n) : 0 < n ∧ n ≤ s.length := by
  unfold string at h
  split at h
  · split at h
    · split at h
      · rename_i hblock
        cases h
        have := textBlockTail_le hblock
        simp only [length_cons]
        omega
      · exact le_of_map_add h (fun m hm => (quotedTail_bounds hm).2) (by decide)
    · exact le_of_map_add h (fun m hm => (quotedTail_bounds hm).2) (by decide)
  · cases h

theorem literal_bounds (h : literal s = some n) : 0 < n ∧ n ≤ s.length := by
  rcases (Option.orElse_eq_some _ _ _).1 h with h | ⟨-, h⟩
  · exact string_bounds h
  · rcases (Option.orElse_eq_some _ _ _).1 h with h | ⟨-, h⟩
    · exact charLiteral_bounds h
    · exact number_bounds h

theorem encloses_word (h : word s = some n) : 0 < n ∧ n ≤ s.length ∧ ∃ name, Encloses
    (s.take n) name := by
  unfold word at h
  split at h
  · split at h
    · rename_i hc
      cases h
      exact encloses_takeWhile (by rintro rfl; exact absurd hc (by decide)) (by decide)
    · cases h
  · cases h

end Java

namespace Kotlin

theorem commentTail_closes (h : commentTail s = some n) :
    ∃ x rest, s = x ++ '*' :: '/' :: rest ∧ n = x.length + 2 := by
  fun_induction commentTail s generalizing n with
  | case1 rest =>
    cases h
    exact ⟨[], rest, rfl, rfl⟩
  | case2 r m hinner ihInner ihRest =>
    -- the comment inside is closed, and so is what follows it
    obtain ⟨k, hk, rfl⟩ := Option.map_eq_some_iff.1 h
    obtain ⟨x, rest, hx, rfl⟩ := ihRest hk
    obtain ⟨y, rest', rfl, rfl⟩ := ihInner hinner
    have hdrop : (y ++ '*' :: '/' :: rest').drop (y.length + 2) = rest' := by simp
    obtain rfl := hdrop.symm.trans hx
    exact ⟨'/' :: '*' :: (y ++ '*' :: '/' :: x), rest, by simp, by simp; omega⟩
  | case3 r hinner _ ih =>
    obtain ⟨k, hk, rfl⟩ := Option.map_eq_some_iff.1 h
    obtain ⟨x, rest, hx, rfl⟩ := ih hk
    exact ⟨'/' :: x, rest, by rw [hx]; rfl, rfl⟩
  | case4 c r hclose hopen ih =>
    obtain ⟨k, hk, rfl⟩ := Option.map_eq_some_iff.1 h
    obtain ⟨x, rest, rfl, rfl⟩ := ih hk
    exact ⟨c :: x, rest, rfl, rfl⟩
  | case5 => cases h

mutual

theorem templateTail_le {s : List Char} {n : Nat} (h : templateTail s = some n) : n ≤ s.length := by
  rw [templateTail] at h
  have hparts := templateParts_le s
  split at h
  · rename_i heq
    cases h
    have hlength := congrArg List.length heq
    simp only [length_drop, length_cons] at hlength
    omega
  · cases h
termination_by 2 * s.length + 1

theorem templateParts_le (s : List Char) : templateParts s ≤ s.length := by
  cases s with
  | nil => simp [templateParts]
  | cons c r =>
    rw [templateParts]
    split
    · simp
    · extract_lets part n
      have hn : n ≤ r.length := by
        cases hpart : part with
        | none => simp [n, hpart]
        | some m =>
          simp only [n, hpart, Option.getD_some]
          simp only [part] at hpart
          split at hpart
          · exact templateTail_le hpart
          · split at hpart
            · exact stringTail_le hpart
            · split at hpart
              · obtain ⟨k, hk, rfl⟩ := Option.map_eq_some_iff.1 hpart
                have := charLiteral_bounds hk
                simp only [length_cons] at this
                omega
              · cases hpart
      have hrest := templateParts_le (r.drop n)
      simp only [length_drop, length_cons] at hrest ⊢
      omega
termination_by 2 * s.length

theorem stringTail_le {s : List Char} {n : Nat} (h : stringTail s = some n) : n ≤ s.length := by
  unfold stringTail at h
  split at h
  · split at h
    · rename_i hraw
      cases h
      have := rawTail_le hraw
      simp only [length_cons]
      omega
    · cases h
      simp
  · exact plainTail_le h
termination_by 2 * s.length + 1

theorem plainTail_le {s : List Char} {n : Nat} (h : plainTail s = some n) : n ≤ s.length := by
  unfold plainTail at h
  split at h
  · cases h
  · cases h
    simp
  · cases h
  · exact (le_of_map_add h (fun m hm => plainTail_le hm) (by decide)).2
  · split at h
    · rename_i r _ k hk
      have htemplate := templateTail_le hk
      have hrest := (le_of_map_add h (fun m hm => plainTail_le hm) (by omega)).2
      simp only [length_drop, length_cons] at hrest ⊢
      omega
    · exact (le_of_map_add h (fun m hm => plainTail_le hm) (by decide)).2
  · exact (le_of_map_add h (fun m hm => plainTail_le hm) (by decide)).2
termination_by 2 * s.length

theorem rawTail_le {s : List Char} {n : Nat} (h : rawTail s = some n) : n ≤ s.length := by
  unfold rawTail at h
  split at h
  · cases h
  · rename_i r
    cases h
    have := (List.takeWhile_prefix (· == '"') (l := r)).length_le
    simp only [length_cons]
    omega
  · split at h
    · rename_i r _ k hk
      have htemplate := templateTail_le hk
      have hrest := (le_of_map_add h (fun m hm => rawTail_le hm) (by omega)).2
      simp only [length_drop, length_cons] at hrest ⊢
      omega
    · exact (le_of_map_add h (fun m hm => rawTail_le hm) (by decide)).2
  · exact (le_of_map_add h (fun m hm => rawTail_le hm) (by decide)).2
termination_by 2 * s.length

end

theorem literal_bounds (h : literal s = some n) : 0 < n ∧ n ≤ s.length := by
  rcases (Option.orElse_eq_some _ _ _).1 h with h | ⟨-, h⟩
  · unfold string at h
    split at h
    · exact le_of_map_add h (fun m hm => stringTail_le hm) (by decide)
    · cases h
  · rcases (Option.orElse_eq_some _ _ _).1 h with h | ⟨-, h⟩
    · exact charLiteral_bounds h
    · exact number_bounds h

theorem encloses_word (h : word s = some n) : 0 < n ∧ n ≤ s.length ∧ ∃ name, Encloses
    (s.take n) name := by
  unfold word at h
  split at h
  · rename_i r
    extract_lets m at h
    split at h
    · rename_i hm
      cases h
      obtain ⟨rest, hrest⟩ : ∃ rest, r.drop m = '\x60' :: rest := by
        cases hdrop : r.drop m with
        | nil => simp [hdrop] at hm
        | cons c rest => exact ⟨rest, by simpa [hdrop] using hm.2⟩
      have hname : r.take m = r.takeWhile fun c => c != '\x60' && c != '\n' :=
        (prefix_iff_eq_take.1 (List.takeWhile_prefix _)).symm
      have hr : r = r.take m ++ '\x60' :: rest := by rw [← hrest, take_append_drop]
      have hm' : m ≤ r.length := (List.takeWhile_prefix _).length_le
      have htake : ('\x60' :: r).take (m + 2) = '\x60' :: r.take m ++ ['\x60'] := by
        rw [take_succ_cons, take_add, hrest]
        rfl
      have hlength := congrArg List.length hrest
      simp only [length_drop, length_cons] at hlength
      refine ⟨by simp, by simp only [length_cons]; omega, r.take m, ?_⟩
      rw [htake]
      refine .quoted fun hmem => ?_
      rw [hname] at hmem
      simpa using mem_takeWhile_imp hmem
    · cases h
  · split at h
    · rename_i hc
      cases h
      exact encloses_takeWhile (by rintro rfl; exact absurd hc (by decide)) (by decide)
    · cases h
  · cases h

end Kotlin

theorem Lexicon.lawful_java : Lexicon.java.Lawful where
  comment := Java.commentTail_closes
  literal := Java.literal_bounds
  word := Java.encloses_word

theorem Lexicon.lawful_kotlin : Lexicon.kotlin.Lawful where
  comment := Kotlin.commentTail_closes
  literal := Kotlin.literal_bounds
  word := Kotlin.encloses_word

theorem lawful_lexicon (language : Language) : (lexicon language).Lawful := by
  cases language
  · exact Lexicon.lawful_java
  · exact Lexicon.lawful_kotlin

/-- A comment in front of `rest`: it goes on to the end of its line, or to the closing mark
that belongs to it. -/
inductive Lexicon.IsComment (L : Lexicon) : List Char → List Char → Prop where
  | line {x rest : List Char}
      (hx : ∀ c ∈ x, isLineEnd c = false) (hrest : rest.head?.all isLineEnd) :
      L.IsComment ('/' :: '/' :: x) rest
  | block {x rest : List Char} (h : L.commentTail (x ++ '*' :: '/' :: rest) = some (x.length + 2)) :
      L.IsComment ('/' :: '*' :: x ++ ['*', '/']) rest

/-- Blank characters and complete comments in front of `rest`. -/
inductive Lexicon.Skips (L : Lexicon) : List Char → List Char → Prop where
  | nil {rest : List Char} : L.Skips [] rest
  | blank {c : Char} {gap rest : List Char} (hc : isBlank c = true) (h : L.Skips gap rest) :
      L.Skips (c :: gap) rest
  | comment {x gap rest : List Char} (hx : L.IsComment x (gap ++ rest)) (h : L.Skips gap rest) :
      L.Skips (x ++ gap) rest

theorem Lexicon.Lawful.skips_blanks {L : Lexicon} (hL : L.Lawful) (s : List Char) :
    ∃ gap rest, s = gap ++ rest ∧ L.blanks s = gap.length ∧ L.Skips gap rest := by
  fun_induction L.blanks s with
  | case1 => exact ⟨[], [], rfl, rfl, .nil⟩
  | case2 c r hc ih =>
    obtain ⟨gap, rest, rfl, hlength, hgap⟩ := ih
    exact ⟨c :: gap, rest, rfl, by simp [hlength], .blank hc hgap⟩
  | case3 r' n _ ih =>
    obtain ⟨gap, rest, hdrop, hlength, hgap⟩ := ih
    have hbehind : r'.dropWhile (!isLineEnd ·) = gap ++ rest :=
      (drop_length_takeWhile _ r').symm.trans hdrop
    refine ⟨'/' :: '/' :: r'.takeWhile (!isLineEnd ·) ++ gap, rest, ?_, ?_,
      .comment (.line ?_ ?_) hgap⟩
    · rw [append_assoc, ← hbehind, cons_append, cons_append, takeWhile_append_dropWhile]
    · rw [hlength]
      simp [n]
      omega
    · intro c hc
      simpa using mem_takeWhile_imp hc
    · rw [← hbehind]
      have hhead := head?_dropWhile_not (!isLineEnd ·) r'
      cases hfirst : (r'.dropWhile (!isLineEnd ·)).head? with
      | none => rfl
      | some c => simpa [hfirst] using hhead
  | case4 r' n hn _ ih =>
    obtain ⟨gap, rest, hdrop, hlength, hgap⟩ := ih
    obtain ⟨x, rest', rfl, rfl⟩ := hL.comment hn
    obtain rfl : rest' = gap ++ rest := by simpa using hdrop
    refine ⟨'/' :: '*' :: x ++ ['*', '/'] ++ gap, rest, by simp, ?_, .comment (.block hn) hgap⟩
    rw [hlength]
    simp
    omega
  | case5 r' hn => exact ⟨[], _, rfl, rfl, .nil⟩
  | case6 r _ _ => exact ⟨[], _, rfl, rfl, .nil⟩
  | case7 c r _ _ => exact ⟨[], _, rfl, rfl, .nil⟩

theorem takeWhile_line {x behind : List Char} (hx : ∀ c ∈ x, isLineEnd c = false)
    (hend : behind.head?.all isLineEnd) :
    (x ++ behind).takeWhile (!isLineEnd ·) = x := by
  rw [takeWhile_append_of_pos (by simpa using hx)]
  cases behind with
  | nil => simp
  | cons c behind => simpa using hend

theorem Lexicon.blanks_append_of_skips {L : Lexicon} {gap rest : List Char} (h : L.Skips gap rest) :
    L.blanks (gap ++ rest) = gap.length + L.blanks rest := by
  induction h with
  | nil => simp
  | blank hc _ ih =>
    rw [cons_append, blanks.eq_def]
    simp [hc, ih]
    omega
  | @comment y gap rest hy _ ih =>
    rw [append_assoc, length_append, Nat.add_assoc, ← ih]
    generalize gap ++ rest = behind at hy ⊢
    cases hy with
    | @line x _ hx hend =>
      have hlength : ((x ++ behind).takeWhile (!isLineEnd ·)).length = x.length := by
        rw [takeWhile_line hx hend]
      rw [cons_append, cons_append, blanks.eq_def]
      simp [isBlank, hlength]
    | @block x _ hx =>
      have hdrop : (x ++ '*' :: '/' :: behind).drop (x.length + 2) = behind := by simp
      simp only [cons_append, append_assoc, nil_append]
      rw [blanks.eq_def]
      simp [isBlank, hx, hdrop]

theorem Lexicon.blanks_of_skips {L : Lexicon} {gap rest : List Char} (h : L.Skips gap rest)
    (hrest : L.blanks rest = 0) :
    L.blanks (gap ++ rest) = gap.length := by
  rw [blanks_append_of_skips h, hrest, Nat.add_zero]

theorem Lexicon.Lawful.exists_gap {L : Lexicon} (hL : L.Lawful) (s : List Char) :
    ∃ gap rest, s = gap ++ rest ∧ L.blanks s = gap.length ∧ L.Skips gap rest ∧
      L.blanks rest = 0 := by
  obtain ⟨gap, rest, rfl, hlength, hskips⟩ := hL.skips_blanks s
  refine ⟨gap, rest, rfl, hlength, hskips, ?_⟩
  rw [blanks_append_of_skips hskips] at hlength
  omega

end WitnessReplay.Source
