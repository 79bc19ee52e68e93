import Mathlib.Data.List.Basic
import Mathlib.Data.Option.Basic
import WitnessReplay.Text.Pattern.Table

/-!
# The texts of a pattern

A pattern is matched by trying one way to read a text after another. Much of what a match is
can be said without following the search: some way succeeds exactly where a text of the pattern
stands in front of something that the rest of the search accepts, and no way looks beyond a
character that the pattern cannot take. So a search in a text that such a character cuts in two
is a search in the first part, and then in the second one. The groups that a match remembers
are texts of parts of the pattern, in the order in which the parts are read.
-/

namespace WitnessReplay.Text

open List

namespace Pattern

variable {β γ : Type} {k : CharClass} {p : Pattern} {s t u v : List Char} {gs : List (List Char)}
    {c : Char}

def Reads : Pattern → List Char → Prop
  | text t, s => s = t
  | optional k, s => s = [] ∨ ∃ c, k.contains c ∧ s = [c]
  | many k, s => ∀ c ∈ s, k.contains c
  | oneOrMore k, s => s ≠ [] ∧ ∀ c ∈ s, k.contains c
  | seq a b, s => ∃ t u, s = t ++ u ∧ a.Reads t ∧ b.Reads u
  | either a b, s => a.Reads s ∨ b.Reads s
  | group a, s => a.Reads s

/-- The texts that a pattern matches as a whole, with the texts of its groups in order. -/
def ReadsWith : Pattern → List Char → List (List Char) → Prop
  | seq a b, s, gs => ∃ t u gt gu, s = t ++ u ∧ gs = gt ++ gu ∧ a.ReadsWith t gt ∧ b.ReadsWith u gu
  | either a b, s, gs => a.ReadsWith s gs ∨ b.ReadsWith s gs
  | group a, s, gs => ∃ inner, gs = s :: inner ∧ a.ReadsWith s inner
  | p, s, gs => p.Reads s ∧ gs = []

/-! ### Matching succeeds on the texts of a pattern -/

theorem exists_of_tryMany {next : List Char → Option β} {m : β} (h : tryMany k next s = some m) :
    ∃ t r, s = t ++ r ∧ (∀ c ∈ t, k.contains c) ∧ next r = some m := by
  induction s with
  | nil => exact ⟨[], [], rfl, by simp, h⟩
  | cons c s ih =>
    rw [tryMany] at h
    by_cases hc : k.contains c
    · rw [if_pos hc] at h
      rcases (Option.orElse_eq_some _ _ _).1 h with h | ⟨-, h⟩
      · obtain ⟨t, r, rfl, ht, hr⟩ := ih h
        exact ⟨c :: t, r, rfl, forall_mem_cons.2 ⟨hc, ht⟩, hr⟩
      · exact ⟨[], c :: s, rfl, by simp, h⟩
    · rw [if_neg hc] at h
      exact ⟨[], c :: s, rfl, by simp, h⟩

/-- A match takes a text of the pattern, and its answer comes from what follows. What is seen
of the answer changes with every group on the way, the last one first. -/
theorem exists_readsWith_of_run {remember : List Char → List Char → β → β}
    {next : List Char → Option β} {m : β} (view : β → γ) (add : List Char → γ → γ)
    (hview : ∀ start rest m, view (remember start rest m) = add (Group.text ⟨start, rest⟩) (view m))
    (h : p.run remember next s = some m) :
    ∃ t r m' gs, s = t ++ r ∧ p.ReadsWith t gs ∧ next r = some m' ∧
      view m = gs.foldr add (view m') := by
  induction p generalizing β γ s m with
  | text t =>
    rw [run] at h
    split at h
    · rename_i hstart
      obtain ⟨r, rfl⟩ := List.isPrefixOf_iff_prefix.1 hstart
      rw [drop_left] at h
      exact ⟨t, r, m, [], rfl, ⟨rfl, rfl⟩, h, rfl⟩
    · cases h
  | optional k =>
    cases s with
    | nil => exact ⟨[], [], m, [], rfl, ⟨.inl rfl, rfl⟩, h, rfl⟩
    | cons c r =>
      rw [run] at h
      split at h
      · rename_i hc
        rcases (Option.orElse_eq_some _ _ _).1 h with h | ⟨-, h⟩
        · exact ⟨[c], r, m, [], rfl, ⟨.inr ⟨c, hc, rfl⟩, rfl⟩, h, rfl⟩
        · exact ⟨[], c :: r, m, [], rfl, ⟨.inl rfl, rfl⟩, h, rfl⟩
      · exact ⟨[], c :: r, m, [], rfl, ⟨.inl rfl, rfl⟩, h, rfl⟩
  | many k =>
    obtain ⟨t, r, rfl, ht, hr⟩ := exists_of_tryMany h
    exact ⟨t, r, m, [], rfl, ⟨ht, rfl⟩, hr, rfl⟩
  | oneOrMore k =>
    cases s with
    | nil => cases h
    | cons c s =>
      rw [run] at h
      split at h
      · rename_i hc
        obtain ⟨t, r, rfl, ht, hr⟩ := exists_of_tryMany h
        exact ⟨c :: t, r, m, [], rfl, ⟨⟨by simp, forall_mem_cons.2 ⟨hc, ht⟩⟩, rfl⟩, hr, rfl⟩
      · cases h
  | seq a b iha ihb =>
    obtain ⟨t, r, m', gt, rfl, ht, hr, hm⟩ := iha view add hview h
    obtain ⟨u, r, m'', gu, rfl, hu, hr, hm'⟩ := ihb view add hview hr
    refine ⟨t ++ u, r, m'', gt ++ gu, by rw [append_assoc], ⟨t, u, gt, gu, rfl, rfl, ht, hu⟩,
      hr, ?_⟩
    rw [foldr_append, ← hm', hm]
  | either a b iha ihb =>
    rw [run] at h
    rcases (Option.orElse_eq_some _ _ _).1 h with h | ⟨-, h⟩
    · obtain ⟨t, r, m', gs, hs, ht, hr, hm⟩ := iha view add hview h
      exact ⟨t, r, m', gs, hs, .inl ht, hr, hm⟩
    · obtain ⟨t, r, m', gs, hs, ht, hr, hm⟩ := ihb view add hview h
      exact ⟨t, r, m', gs, hs, .inr ht, hr, hm⟩
  | group a ih =>
    rw [run] at h
    obtain ⟨m₁, h₁, rfl⟩ := Option.map_eq_some_iff.1 h
    -- inside the group the place behind it is seen as well, and no group inside changes it
    obtain ⟨t, r, m₂, gs, rfl, ht, hr, hm⟩ :=
      ih (fun m => (view m.1, m.2)) (fun x y => (add x y.1, y.2))
      (fun start rest m => Prod.ext (hview start rest m.1) rfl) h₁
    obtain ⟨m', hm', rfl⟩ := Option.map_eq_some_iff.1 hr
    have hfold : gs.foldr (fun x y => (add x y.1, y.2)) (view m', r) =
        (gs.foldr add (view m'), r) :=
      foldr_hom (fun y => (y, r)) fun _ _ => rfl
    obtain ⟨hseen, hrest⟩ := Prod.mk.inj (hm.trans hfold)
    refine ⟨t, r, m', t :: gs, rfl, ⟨gs, rfl, ht⟩, hm', ?_⟩
    rw [hview, hseen, hrest, Group.text, length_append, Nat.add_sub_cancel, take_left, foldr_cons]

theorem ReadsWith.reads (h : p.ReadsWith t gs) : p.Reads t := by
  induction p generalizing t gs with
  | seq a b iha ihb =>
    obtain ⟨t, u, _, _, rfl, -, ht, hu⟩ := h
    exact ⟨t, u, rfl, iha ht, ihb hu⟩
  | either a b iha ihb => exact h.imp iha ihb
  | group a ih =>
    obtain ⟨_, -, h⟩ := h
    exact ih h
  | _ => exact h.1

theorem Reads.exists_readsWith (h : p.Reads t) : ∃ gs, p.ReadsWith t gs := by
  induction p generalizing t with
  | seq a b iha ihb =>
    obtain ⟨t, u, rfl, ht, hu⟩ := h
    obtain ⟨gt, ht⟩ := iha ht
    obtain ⟨gu, hu⟩ := ihb hu
    exact ⟨gt ++ gu, t, u, gt, gu, rfl, rfl, ht, hu⟩
  | either a b iha ihb =>
    rcases h with h | h
    · obtain ⟨gs, h⟩ := iha h
      exact ⟨gs, .inl h⟩
    · obtain ⟨gs, h⟩ := ihb h
      exact ⟨gs, .inr h⟩
  | group a ih =>
    obtain ⟨gs, h⟩ := ih h
    exact ⟨t :: gs, gs, rfl, h⟩
  | _ => exact ⟨[], h, rfl⟩

/-- A view of the answers that does not see the remembered groups is the same before and after
a match. -/
theorem exists_of_run {remember : List Char → List Char → β → β} {next : List Char → Option β}
    {m : β} (view : β → γ) (hview : ∀ start rest m, view (remember start rest m) = view m)
    (h : p.run remember next s = some m) :
    ∃ t r m', s = t ++ r ∧ p.Reads t ∧ next r = some m' ∧ view m = view m' := by
  obtain ⟨t, r, m', gs, hs, ht, hr, hm⟩ := exists_readsWith_of_run view (fun _ x => x) hview h
  exact ⟨t, r, m', hs, ht.reads, hr, hm.trans (foldr_fixed' (fun _ => rfl) gs)⟩

theorem isSome_tryMany {next : List Char → Option β} (ht : ∀ c ∈ t, k.contains c)
    (hnext : (next s).isSome) :
    (tryMany k next (t ++ s)).isSome := by
  induction t with
  | nil =>
    cases s with
    | nil => exact hnext
    | cons c s =>
      rw [nil_append, tryMany]
      split
      · simp [hnext]
      · exact hnext
  | cons c t ih =>
    obtain ⟨hc, ht⟩ := forall_mem_cons.1 ht
    rw [cons_append, tryMany, if_pos hc]
    simp [ih ht]

theorem tryMany_of_eq_some {next : List Char → Option β} {m : β} (ht : ∀ c ∈ t, k.contains c)
    (h : tryMany k next s = some m) : tryMany k next (t ++ s) = some m := by
  induction t with
  | nil => exact h
  | cons c t ih =>
    obtain ⟨hc, ht⟩ := forall_mem_cons.1 ht
    rw [cons_append, tryMany, if_pos hc, ih ht]
    rfl

theorem isSome_run {remember : List Char → List Char → β → β} {next : List Char → Option β}
    (ht : p.Reads t) (hnext : (next s).isSome) : (p.run remember next (t ++ s)).isSome := by
  induction p generalizing β t s with
  | text t' =>
    cases ht
    rw [run, if_pos (List.isPrefixOf_iff_prefix.2 (prefix_append _ s)), drop_left]
    exact hnext
  | optional k =>
    rcases ht with rfl | ⟨c, hc, rfl⟩
    · cases s with
      | nil => exact hnext
      | cons c s =>
        rw [nil_append, run]
        split
        · simp [hnext]
        · exact hnext
    · rw [cons_append, nil_append, run, if_pos hc]
      simp [hnext]
  | many k => exact isSome_tryMany ht hnext
  | oneOrMore k =>
    obtain ⟨hne, ht⟩ := ht
    obtain ⟨c, t, rfl⟩ := exists_cons_of_ne_nil hne
    obtain ⟨hc, ht⟩ := forall_mem_cons.1 ht
    rw [cons_append, run, if_pos hc]
    exact isSome_tryMany ht hnext
  | seq a b iha ihb =>
    obtain ⟨t, u, rfl, ht, hu⟩ := ht
    rw [append_assoc]
    exact iha ht (ihb hu hnext)
  | either a b iha ihb =>
    rw [run]
    rcases ht with ht | ht
    · simp [iha ht hnext]
    · simp [ihb ht hnext]
  | group a ih =>
    rw [run, Option.isSome_map]
    exact ih ht (by rwa [Option.isSome_map])

theorem run_seq {remember : List Char → List Char → β → β} {next : List Char → Option β}
    (a b : Pattern) (s : List Char) :
    (a ++ b).run remember next s = a.run remember (b.run remember next) s := rfl

theorem run_orElse {remember : List Char → List Char → β → β} {next : List Char → Option β}
    (a b : Pattern) (s : List Char) :
    (a <|> b).run remember next s = (a.run remember next s <|> b.run remember next s) := rfl

theorem match?_orElse (a b : Pattern) (s : List Char) :
    (a <|> b).match? s = (a.match? s <|> b.match? s) := rfl

theorem isSome_match?_iff : (p.match? s).isSome ↔ ∃ t, p.Reads t ∧ t <+: s := by
  constructor
  · intro h
    obtain ⟨m, hm⟩ := Option.isSome_iff_exists.1 h
    obtain ⟨t, r, -, rfl, ht, -⟩ := exists_of_run (fun _ => ()) (fun _ _ _ => rfl) hm
    exact ⟨t, ht, prefix_append t r⟩
  · rintro ⟨t, ht, r, rfl⟩
    exact isSome_run ht rfl

/-- The search finds something exactly where a text of the pattern occurs. -/
theorem isSome_search?_iff : (p.search? s).isSome ↔ ∃ t, p.Reads t ∧ t <:+: s := by
  induction s with
  | nil =>
    rw [search?, isSome_match?_iff]
    simp
  | cons c s ih =>
    have hsome : (p.search? (c :: s)).isSome ↔
        (p.match? (c :: s)).isSome ∨ (p.search? s).isSome := by
      rw [search?]
      simp
    rw [hsome, isSome_match?_iff, ih]
    simp only [infix_cons_iff, and_or_left, exists_or]

theorem exists_of_search? {m : Match} (h : p.search? s = some m) :
    ∃ u, u <:+ s ∧ p.match? u = some m := by
  induction s with
  | nil => exact ⟨[], suffix_refl _, h⟩
  | cons c s ih =>
    rw [search?] at h
    rcases (Option.orElse_eq_some _ _ _).1 h with h | ⟨-, h⟩
    · exact ⟨c :: s, suffix_refl _, h⟩
    · obtain ⟨u, hsuffix, hm⟩ := ih h
      exact ⟨u, suffix_cons_iff.2 (.inr hsuffix), hm⟩

theorem search?_of_forall_none {front : List Char}
    (h : ∀ u, u ≠ [] → u <:+ front → p.match? (u ++ s) = none) :
    p.search? (front ++ s) = p.search? s := by
  induction front with
  | nil => rfl
  | cons c front ih =>
    have hlater := ih fun u hu hsuffix => h u hu (suffix_cons_iff.2 (.inr hsuffix))
    rw [cons_append, search?, ← cons_append,
      h (c :: front) (cons_ne_nil c front) (suffix_refl _), hlater]
    rfl

/-! ### Occurrences -/

def Occurs (p : Pattern) (s : List Char) : Prop :=
  ∃ t, p.Reads t ∧ t <:+: s

theorem search?_eq_none_iff : p.search? s = none ↔ ¬ p.Occurs s := by
  rw [← Option.not_isSome_iff_eq_none, isSome_search?_iff, Occurs]

theorem occurs_orElse {a b : Pattern} : (a <|> b).Occurs s ↔ a.Occurs s ∨ b.Occurs s := by
  constructor
  · rintro ⟨t, ht | ht, hpart⟩
    · exact .inl ⟨t, ht, hpart⟩
    · exact .inr ⟨t, ht, hpart⟩
  · rintro (⟨t, ht, hpart⟩ | ⟨t, ht, hpart⟩)
    · exact ⟨t, .inl ht, hpart⟩
    · exact ⟨t, .inr ht, hpart⟩

theorem occurs_group : (group p).Occurs s ↔ p.Occurs s := Iff.rfl

theorem Occurs.of_seq {a b : Pattern} (h : (a ++ b).Occurs s) : b.Occurs s := by
  obtain ⟨_, ⟨t, u, rfl, -, hu⟩, hpart⟩ := h
  exact ⟨u, hu, (suffix_append t u).isInfix.trans hpart⟩

theorem occurs_optional_seq : (optional k ++ p).Occurs s ↔ p.Occurs s := by
  refine ⟨Occurs.of_seq, ?_⟩
  rintro ⟨t, ht, hpart⟩
  exact ⟨t, ⟨[], t, rfl, .inl rfl, ht⟩, hpart⟩

theorem occurs_oneOrMore : (oneOrMore k).Occurs s ↔ ∃ c ∈ s, k.contains c := by
  constructor
  · rintro ⟨t, ⟨hne, ht⟩, hpart⟩
    obtain ⟨c, t, rfl⟩ := exists_cons_of_ne_nil hne
    exact ⟨c, hpart.mem mem_cons_self, ht c mem_cons_self⟩
  · rintro ⟨c, hc, hk⟩
    obtain ⟨front, back, rfl⟩ := append_of_mem hc
    exact ⟨[c], ⟨cons_ne_nil c [], forall_mem_singleton.2 hk⟩, front, back, by simp⟩

theorem occurs_exactly (word : String) : (exactly word).Occurs s ↔ word.toList <:+: s := by
  constructor
  · rintro ⟨_, rfl, hpart⟩
    exact hpart
  · intro hpart
    exact ⟨_, rfl, hpart⟩

/-! ### Where a class ends -/

section

variable {remember : List Char → List Char → β → β} {next : List Char → Option β} {m : β}

theorem run_optional_of_pos (hc : k.contains c) (h : next s = some m) :
    (optional k).run remember next (c :: s) = some m := by
  rw [run, if_pos hc, h]
  rfl

theorem run_optional_of_boundary (hs : ∀ c ∈ s.head?, k.contains c = false) :
    (optional k).run remember next s = next s := by
  cases s with
  | nil => rfl
  | cons c s => rw [run, if_neg (by simp [hs c rfl])]

theorem tryMany_of_boundary (hs : ∀ c ∈ s.head?, k.contains c = false) :
    tryMany k next s = next s := by
  cases s with
  | nil => rfl
  | cons c s => rw [tryMany, if_neg (by simp [hs c rfl])]

theorem run_oneOrMore_of_boundary (ht : ∀ c ∈ t, k.contains c) (hne : t ≠ [])
    (hs : ∀ c ∈ s.head?, k.contains c = false)
    (h : next s = some m) : (oneOrMore k).run remember next (t ++ s) = some m := by
  obtain ⟨c, t, rfl⟩ := exists_cons_of_ne_nil hne
  obtain ⟨hc, ht⟩ := forall_mem_cons.1 ht
  rw [cons_append, run, if_pos hc]
  exact tryMany_of_eq_some ht ((tryMany_of_boundary hs).trans h)

theorem run_oneOrMore_eq_none (hs : ∀ c ∈ s.head?, k.contains c = false) :
    (oneOrMore k).run remember next s = none := by
  cases s with
  | nil => rfl
  | cons c s => rw [run, if_neg (by simp [hs c rfl])]

end

/-! ### A match does not look beyond what it cannot take -/

def avoids (c : Char) : Pattern → Bool
  | text t => !t.contains c
  | optional k => !k.contains c
  | many k => !k.contains c
  | oneOrMore k => !k.contains c
  | seq a b => a.avoids c && b.avoids c
  | either a b => a.avoids c && b.avoids c
  | group a => a.avoids c

theorem tryMany_append {next : List Char → Option β} {next' : List Char → Option γ} {f : γ → β}
    (hk : k.contains c = false) (hnext : ∀ r, next (r ++ c :: v) = (next' r).map f) :
    tryMany k next (u ++ c :: v) = (tryMany k next' u).map f := by
  induction u with
  | nil => simpa [tryMany, hk] using hnext []
  | cons d u ih =>
    rw [cons_append, tryMany, tryMany, ih, ← cons_append, hnext]
    split
    · cases tryMany k next' u <;> rfl
    · rfl

theorem isPrefixOf_append (ht : c ∉ t) : t.isPrefixOf (u ++ c :: v) = t.isPrefixOf u := by
  induction t generalizing u with
  | nil => rfl
  | cons d t ih =>
    obtain ⟨hd, ht⟩ := not_or.1 (mt mem_cons.2 ht)
    cases u with
    | nil => simp [List.isPrefixOf, Ne.symm hd]
    | cons e u => simp [List.isPrefixOf, ih ht]

/-- With a character behind a text that the pattern never takes, the pattern does to the text
what it does to the text alone. -/
theorem run_append {remember : List Char → List Char → β → β} {next : List Char → Option β}
    {remember' : List Char → List Char → γ → γ} {next' : List Char → Option γ} {f : γ → β}
    (hp : p.avoids c)
    (hremember : ∀ start rest m, f (remember' start rest m) =
      remember (start ++ c :: v) (rest ++ c :: v) (f m))
    (hnext : ∀ r, next (r ++ c :: v) = (next' r).map f) :
    p.run remember next (u ++ c :: v) = (p.run remember' next' u).map f := by
  induction p generalizing β γ u with
  | text t =>
    have ht : c ∉ t := by simpa [avoids] using hp
    simp only [run, isPrefixOf_append ht]
    split
    · rename_i hstart
      obtain ⟨r, rfl⟩ := List.isPrefixOf_iff_prefix.1 hstart
      rw [append_assoc, drop_left, drop_left]
      exact hnext r
    · rfl
  | optional k =>
    have hk : k.contains c = false := by simpa [avoids] using hp
    cases u with
    | nil => simpa [run, hk] using hnext []
    | cons d u =>
      simp only [cons_append, run]
      split
      · rw [hnext, ← cons_append, hnext]
        cases next' u <;> rfl
      · exact hnext (d :: u)
  | many k =>
    have hk : k.contains c = false := by simpa [avoids] using hp
    exact tryMany_append hk hnext
  | oneOrMore k =>
    have hk : k.contains c = false := by simpa [avoids] using hp
    cases u with
    | nil => simp [run, hk]
    | cons d u =>
      rw [cons_append, run, run]
      split
      · exact tryMany_append hk hnext
      · rfl
  | seq a b iha ihb =>
    obtain ⟨ha, hb⟩ := Bool.and_eq_true_iff.1 hp
    exact iha ha hremember fun r => ihb hb hremember hnext
  | either a b iha ihb =>
    obtain ⟨ha, hb⟩ := Bool.and_eq_true_iff.1 hp
    simp only [run, iha ha hremember hnext, ihb hb hremember hnext]
    cases a.run remember' next' u <;> rfl
  | group a ih =>
    have hpair : ∀ start rest
        (m : γ × List Char), Prod.map f (· ++ c :: v) (remember' start rest m.1, m.2) =
          (remember (start ++ c :: v) (rest ++ c :: v) (f m.1), m.2 ++ c :: v) :=
      fun start rest m => Prod.ext (hremember start rest m.1) rfl
    have hend : ∀ r, (next (r ++ c :: v)).map (·, r ++ c :: v) =
        ((next' r).map (·, r)).map (Prod.map f (· ++ c :: v)) := by
      intro r
      rw [hnext, Option.map_map, Option.map_map]
      rfl
    rw [run, run, ih hp hpair hend, Option.map_map, Option.map_map]
    congr 1
    funext m
    exact (hremember u m.2 m.1).symm

/-- No text of a pattern has a character that the pattern never takes. -/
theorem not_mem_of_avoids (hp : p.avoids c) (ht : p.Reads t) : c ∉ t := by
  induction p generalizing t with
  | text t' =>
    cases ht
    simpa [avoids] using hp
  | optional k =>
    have hk : k.contains c = false := by simpa [avoids] using hp
    rcases ht with rfl | ⟨d, hd, rfl⟩
    · exact not_mem_nil
    · intro hc
      cases mem_singleton.1 hc
      exact Bool.false_ne_true (hk.symm.trans hd)
  | many k =>
    have hk : k.contains c = false := by simpa [avoids] using hp
    exact fun hc => Bool.false_ne_true (hk.symm.trans (ht c hc))
  | oneOrMore k =>
    have hk : k.contains c = false := by simpa [avoids] using hp
    exact fun hc => Bool.false_ne_true (hk.symm.trans (ht.2 c hc))
  | seq a b iha ihb =>
    obtain ⟨ha, hb⟩ := Bool.and_eq_true_iff.1 hp
    obtain ⟨t, u, rfl, ht, hu⟩ := ht
    simp [iha ha ht, ihb hb hu]
  | either a b iha ihb =>
    obtain ⟨ha, hb⟩ := Bool.and_eq_true_iff.1 hp
    exact ht.elim (iha ha) (ihb hb)
  | group a ih => exact ih hp ht

def Match.before (more : List Char) (m : Match) : Match :=
  ⟨m.groups.map fun g => ⟨g.start ++ more, g.rest ++ more⟩, m.rest ++ more⟩

theorem match?_append (hp : p.avoids c) : p.match? (u ++ c :: v) = (p.match? u).map
    (Match.before (c :: v)) :=
  run_append hp (fun _ _ _ => rfl) fun _ => rfl

/-- If one pattern does at every place of a text what another one does to the text alone, it
finds what the other one finds, and else what it finds behind the text. -/
theorem search?_append {q : Pattern} {more : List Char} {f : Match → Match}
    (hq : q.match? [] = none)
    (h : ∀ u, u ≠ [] → u <:+ s → p.match? (u ++ more) = (q.match? u).map f) :
    p.search? (s ++ more) = ((q.search? s).map f <|> p.search? more) := by
  induction s with
  | nil => simp [search?, hq]
  | cons d s ih =>
    have hlater := ih fun u hu hsuffix => h u hu (suffix_cons_iff.2 (.inr hsuffix))
    rw [cons_append, search?, ← cons_append, h (d :: s) (by simp) (suffix_refl _),
      hlater, search?]
    cases q.match? (d :: s) <;> rfl

/-! ### What a group remembers -/

def isPlain : Pattern → Bool
  | seq a b => a.isPlain && b.isPlain
  | either a b => a.isPlain && b.isPlain
  | group _ => false
  | _ => true

theorem ReadsWith.eq_nil_of_isPlain (h : p.ReadsWith t gs) (hp : p.isPlain) : gs = [] := by
  induction p generalizing t gs with
  | seq a b iha ihb =>
    obtain ⟨ha, hb⟩ := Bool.and_eq_true_iff.1 hp
    obtain ⟨_, _, gt, gu, -, rfl, ht, hu⟩ := h
    rw [iha ht ha, ihb hu hb, append_nil]
  | either a b iha ihb =>
    obtain ⟨ha, hb⟩ := Bool.and_eq_true_iff.1 hp
    exact h.elim (iha · ha) (ihb · hb)
  | group a => cases hp
  | _ => exact h.2

theorem readsWith_group (hp : p.isPlain) (h : (group p).ReadsWith t gs) : gs = [t] ∧ p.Reads t := by
  obtain ⟨inner, rfl, h⟩ := h
  rw [h.eq_nil_of_isPlain hp]
  exact ⟨rfl, h.reads⟩

theorem readsWith_seq_group {start : Pattern} (hstart : start.isPlain) (hp : p.isPlain)
    (h : (start ++ group p).ReadsWith t gs) :
    ∃ raw, gs = [raw] ∧ p.Reads raw := by
  obtain ⟨_, raw, _, _, -, rfl, hfront, hgroup⟩ := h
  obtain ⟨rfl, hraw⟩ := readsWith_group hp hgroup
  rw [hfront.eq_nil_of_isPlain hstart]
  exact ⟨raw, rfl, hraw⟩

def alwaysRemembers : Pattern → Bool
  | seq a b => a.alwaysRemembers || b.alwaysRemembers
  | either a b => a.alwaysRemembers && b.alwaysRemembers
  | group _ => true
  | _ => false

theorem ReadsWith.ne_nil_of_alwaysRemembers (h : p.ReadsWith t gs) (hp : p.alwaysRemembers) :
    gs ≠ [] := by
  induction p generalizing t gs with
  | seq a b iha ihb =>
    obtain ⟨_, _, gt, gu, -, rfl, ht, hu⟩ := h
    rcases Bool.or_eq_true_iff.1 hp with hp | hp
    · exact append_ne_nil_of_left_ne_nil (iha ht hp) gu
    · exact append_ne_nil_of_right_ne_nil gt (ihb hu hp)
  | either a b iha ihb =>
    obtain ⟨ha, hb⟩ := Bool.and_eq_true_iff.1 hp
    exact h.elim (iha · ha) (ihb · hb)
  | group a =>
    obtain ⟨inner, rfl, -⟩ := h
    exact cons_ne_nil t inner
  | _ => cases hp

def Match.lastText? (m : Match) : Option (List Char) :=
  m.groups.getLast?.map (·.text)

theorem map_text_before (more : List Char) (m : Match) :
    (m.before more).groups.map Group.text = m.groups.map Group.text := by
  simp only [Match.before, map_map]
  apply map_congr_left
  intro g _
  simp only [Function.comp_apply, Group.text, length_append, Nat.add_sub_add_right]
  exact take_append_of_le_length (Nat.sub_le _ _)

theorem lastText?_eq (m : Match) : m.lastText? = (m.groups.map Group.text).getLast? := by
  rw [Match.lastText?, getLast?_map]

theorem lastText?_before (more : List Char) (m : Match) :
    (m.before more).lastText? = m.lastText? := by
  rw [lastText?_eq, map_text_before, lastText?_eq]

theorem match?_group (p : Pattern) (s : List Char) :
    (group p).match? s =
      (p.run (fun start rest m => (Match.remember start rest m.1, m.2)) (fun rest =>
      some (⟨[], rest⟩, rest)) s).map
        fun m => m.1.remember s m.2 := rfl

theorem match?_group_orElse (a b : Pattern) (s : List Char) :
    (group (a <|> b)).match? s = ((group a).match? s <|> (group b).match? s) := by
  rw [match?_group (a <|> b), match?_group a, match?_group b, run_orElse]
  cases a.run _ _ s <;> rfl

theorem lastText?_group (t rest behind : List Char) :
    Match.lastText? ⟨[⟨t ++ rest, rest⟩], behind⟩ = some t := by
  simp [Match.lastText?, Group.text]

theorem exists_of_match? {m : Match} (h : p.match? s = some m) :
    ∃ t r, s = t ++ r ∧ p.ReadsWith t (m.groups.map Group.text) := by
  obtain ⟨t, r, m', gs, hs, ht, hr, hm⟩ :=
    exists_readsWith_of_run
      (fun m : Match => m.groups.map Group.text) List.cons (fun _ _ _ => rfl) h
  cases hr
  rw [map_nil, foldr_cons_nil] at hm
  exact ⟨t, r, hs, hm ▸ ht⟩

theorem exists_of_match?_group {m : Match} (hp : p.isPlain) (h : (group p).match? s = some m) :
    ∃ t r, s = t ++ r ∧ p.Reads t ∧ m.lastText? = some t := by
  obtain ⟨t, r, hs, hgroup⟩ := exists_of_match? h
  obtain ⟨hgroups, ht⟩ := readsWith_group hp hgroup
  refine ⟨t, r, hs, ht, ?_⟩
  rw [lastText?_eq, hgroups]
  rfl

end Pattern

end WitnessReplay.Text
