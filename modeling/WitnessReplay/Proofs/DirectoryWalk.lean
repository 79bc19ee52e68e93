import WitnessReplay.Files.Walk
import WitnessReplay.Proofs.FileLookup

/-!
# What a walk finds

A walk finds what is below its root, but nothing behind a link: exactly the entries at the
routes below with no link on the way, each with the path of the root and the route behind it.
It comes to its end unless the path of a directory is too long.

A directory in order is determined by what is found at routes.
-/

namespace WitnessReplay.Files

open Directory List

section Gather

variable {α : Type} {f : Status → α} {stops : Status → Bool}

def Entry.gathered? (f : Status → α) (stops : Status → Bool) (e : Entry) : Route → Option α
  | [] => some (f e.status)
  | name :: r =>
    if stops e.status then none else (e.inside.find? name).bind (gathered? f stops · r)

theorem Directory.find?_eq_none_of_lt {d : Directory} {name : String}
    (h : ∀ m ∈ d.names, name < m) : d.find? name = none := by
  induction d with
  | empty => rfl
  | cons n e rest _ ih =>
    rw [names_cons] at h
    obtain ⟨hn, hrest⟩ := forall_mem_cons.1 h
    have hne : name ≠ n := by
      rintro rfl
      exact String.lt_irrefl name hn
    rw [find?_cons, if_neg hne, ih hrest]

theorem Directory.mem_gather_iff {d : Directory} (hd : d.Sorted) {r : Route} {a : α} :
    (r, a) ∈ d.gather f stops ↔
      ∃ name t e, r = name :: t ∧ d.find? name = some e ∧
        e.gathered? f stops t = some a := by
  induction d generalizing r with
  | empty =>
    refine ⟨nofun, ?_⟩
    rintro ⟨name, t, e, -, hfind, -⟩
    cases hfind
  | cons n e rest ihInside ihRest =>
    obtain ⟨hlt, hsorted, hrest⟩ := sorted_cons.1 hd
    have hbelow {t : Route} : (t, a) ∈ e.inside.gather f stops ↔
        ∃ name t' e', t = name :: t' ∧ e.inside.find? name = some e' ∧
          e'.gathered? f stops t' = some a := by
      cases e with
      | directory linked inside => exact ihInside linked inside rfl hsorted
      | file linked access content => simp [Entry.inside, gather, find?]
      | broken fillable => simp [Entry.inside, gather, find?]
    -- what comes of the first entry is what is gathered from it
    have hfirst {t : Route} : (n :: t, a) ∈ ([n], f e.status) ::
        (if stops e.status then []
          else (e.inside.gather f stops).map fun x => (n :: x.1, x.2)) ↔
        e.gathered? f stops t = some a := by
      cases t with
      | nil =>
        rw [Entry.gathered?]
        split <;> simp [hbelow, eq_comm]
      | cons x t =>
        rw [Entry.gathered?]
        split
        · simp
        · have hmap : (n :: x :: t, a) ∈
              (e.inside.gather f stops).map (fun y => (n :: y.1, y.2)) ↔
              (x :: t, a) ∈ e.inside.gather f stops := by
            simp
          rw [mem_cons, hmap, hbelow, Option.bind_eq_some_iff]
          constructor
          · rintro (heq | ⟨name, t', e', heq, hfind⟩)
            · cases heq
            · cases heq
              exact ⟨e', hfind⟩
          · rintro ⟨e', hfind⟩
            exact .inr ⟨x, t, e', rfl, hfind⟩
    rw [gather_cons, cons_append, ← cons_append, mem_append, ihRest hrest]
    constructor
    · rintro (h | ⟨name, t, e', rfl, hfind, hgathered⟩)
      · obtain ⟨t, rfl⟩ : ∃ t, r = n :: t := by
          rcases mem_cons.1 h with heq | h
          · exact ⟨[], congrArg Prod.fst heq⟩
          · split at h
            · cases h
            · obtain ⟨x, -, hx⟩ := mem_map.1 h
              exact ⟨x.1, (congrArg Prod.fst hx).symm⟩
        exact ⟨n, t, e, rfl, by simp, hfirst.1 h⟩
      · refine ⟨name, t, e', rfl, ?_, hgathered⟩
        have hne : name ≠ n := by
          rintro rfl
          rw [find?_eq_none_of_lt hlt] at hfind
          cases hfind
        rw [find?_cons, if_neg hne, hfind]
    · rintro ⟨name, t, e', rfl, hfind, hgathered⟩
      rw [find?_cons] at hfind
      split at hfind
      · rename_i heq
        cases hfind
        subst heq
        exact .inl (hfirst.2 hgathered)
      · exact .inr ⟨name, t, e', rfl, hfind, hgathered⟩

theorem Entry.gathered?_eq_status (e : Entry) (r : Route) :
    e.gathered? id (fun _ => false) r = (e.at? r).map Entry.status := by
  induction r generalizing e with
  | nil => rfl
  | cons name r ih =>
    rw [gathered?, if_neg Bool.false_ne_true, at?_cons]
    cases e.inside.find? name with
    | none => rfl
    | some child => exact ih child

theorem Directory.mem_all_iff {d : Directory} (hd : d.Sorted) {r : Route} {s : Status} :
    (r, s) ∈ d.all ↔ r ≠ [] ∧ d.status? r = some s := by
  rw [all, mem_gather_iff hd]
  constructor
  · rintro ⟨name, t, e, rfl, hfind, hgathered⟩
    rw [Entry.gathered?_eq_status] at hgathered
    exact ⟨cons_ne_nil name t, by rw [status?_of_find? hfind, hgathered]⟩
  · rintro ⟨hne, hstatus⟩
    obtain ⟨name, t, rfl⟩ := exists_cons_of_ne_nil hne
    cases hfind : d.find? name with
    | none =>
      rw [status?_of_find?_none hfind] at hstatus
      cases hstatus
    | some e =>
      rw [status?_of_find? hfind] at hstatus
      exact ⟨name, t, e, rfl, hfind, by rw [Entry.gathered?_eq_status, hstatus]⟩

theorem Entry.gathered?_eq_kind_iff {e : Entry} {r : Route} {k : Kind} :
    e.gathered? Status.kind Status.linked r = some k ↔
      (∀ s, s <+: r → s ≠ r → ∀ x, e.at? s = some x → x.status.linked = false) ∧
        (e.at? r).map (·.status.kind) = some k := by
  induction r generalizing e with
  | nil =>
    rw [gathered?]
    refine ⟨fun h => ⟨?_, h⟩, And.right⟩
    intro s hs hne
    exact absurd (prefix_nil.1 hs) hne
  | cons name r ih =>
    rw [gathered?]
    constructor
    · intro h
      split at h
      · cases h
      · rename_i hlinked
        obtain ⟨child, hchild, h⟩ := Option.bind_eq_some_iff.1 h
        obtain ⟨hway, hkind⟩ := ih.1 h
        refine ⟨?_, by rw [at?_cons, hchild]; exact hkind⟩
        intro s hs hne x hx
        rcases prefix_cons_iff.1 hs with rfl | ⟨s', rfl, hs'⟩
        · cases hx
          exact eq_false_of_ne_true hlinked
        · rw [at?_cons, hchild] at hx
          exact hway s' hs' (fun heq => hne (by rw [heq])) x hx
    · rintro ⟨hway, hkind⟩
      have hlinked := hway [] List.nil_prefix (cons_ne_nil name r).symm e rfl
      rw [hlinked, if_neg Bool.false_ne_true]
      rw [at?_cons] at hkind
      cases hchild : e.inside.find? name with
      | none =>
        rw [hchild] at hkind
        cases hkind
      | some child =>
        rw [hchild] at hkind
        refine ih.2 ⟨?_, hkind⟩
        intro s hs hne x hx
        refine hway (name :: s) (cons_prefix_cons.2 ⟨rfl, hs⟩) (by simpa using hne) x ?_
        rw [at?_cons, hchild]
        exact hx

end Gather

theorem Entry.Sorted.inside {e : Entry} (he : e.Sorted) : e.inside.Sorted := by
  cases e with
  | directory linked inside => exact he
  | file linked access content => trivial
  | broken fillable => trivial

theorem Entry.Sorted.at? {e e' : Entry} (he : e.Sorted) {r : Route}
    (h : e.at? r = some e') : e'.Sorted := by
  induction r generalizing e with
  | nil =>
    cases h
    exact he
  | cons m r ih =>
    rw [Entry.at?_cons] at h
    obtain ⟨child, hchild, h⟩ := Option.bind_eq_some_iff.1 h
    exact ih (sorted_of_find? he.inside hchild) h

namespace Directory

section Extensionality

variable {d d' : Directory}

theorem status?_cons_self (n : String) (e : Entry) (d : Directory) (r : Route) :
    (cons n e d).status? (n :: r) = (e.at? r).map Entry.status :=
  status?_of_find? (by simp) r

theorem status?_cons_of_ne {n m : String} (hne : m ≠ n) (e : Entry) (d : Directory)
    (r : Route) : (cons n e d).status? (m :: r) = d.status? (m :: r) :=
  status?_congr (by simp [hne]) r

theorem status?_eq_none_of_lt {name : String} (h : ∀ m ∈ d.names, name < m) (r : Route) :
    d.status? (name :: r) = none :=
  status?_of_find?_none (find?_eq_none_of_lt h) r

theorem not_lt_of_status?_cons {n n' : String} {e e' : Entry} (hd : (cons n' e' d').Sorted)
    (h : (cons n e d).status? [n] = (cons n' e' d').status? [n]) : ¬n < n' := by
  intro hlt
  have hnames : ∀ m ∈ (cons n' e' d').names, n < m := by
    rw [names_cons]
    intro m hm
    rcases mem_cons.1 hm with rfl | hm
    · exact hlt
    · exact String.lt_trans hlt ((sorted_cons.1 hd).1 m hm)
  rw [status?_cons_self, status?_eq_none_of_lt hnames] at h
  cases h

/-- Of two directories in order in which the same is found, the first entries and the others
agree. -/
theorem status?_of_cons {n n' : String} {e e' : Entry} (hd : (cons n e d).Sorted)
    (hd' : (cons n' e' d').Sorted) (h : ∀ r, (cons n e d).status? r = (cons n' e' d').status? r) :
    n = n' ∧ (∀ r, (e.at? r).map Entry.status = (e'.at? r).map Entry.status) ∧
      ∀ r, d.status? r = d'.status? r := by
  have hle := String.not_lt.1 (not_lt_of_status?_cons hd (h [n']).symm)
  have hge := String.not_lt.1 (not_lt_of_status?_cons hd' (h [n]))
  obtain rfl := String.le_antisymm hle hge
  refine ⟨rfl, ?_, ?_⟩
  · intro r
    rw [← status?_cons_self n e d, ← status?_cons_self n e' d', h]
  · intro r
    cases r with
    | nil => rfl
    | cons m r =>
      by_cases hm : m = n
      · rw [hm, status?_eq_none_of_lt (sorted_cons.1 hd).1,
          status?_eq_none_of_lt (sorted_cons.1 hd').1]
      · rw [← status?_cons_of_ne hm e d, ← status?_cons_of_ne hm e' d', h]

theorem eq_of_status? (hd : d.Sorted) (hd' : d'.Sorted)
    (h : ∀ r, d.status? r = d'.status? r) : d = d' := by
  have hnone (n : String) (e : Entry) (rest : Directory)
      (h : ∀ r, empty.status? r = (cons n e rest).status? r) : False := by
    have hn := h [n]
    rw [status?_cons_self] at hn
    cases hn
  induction d generalizing d' with
  | empty =>
    cases d' with
    | empty => rfl
    | cons n' e' rest' => exact (hnone n' e' rest' h).elim
  | cons n e rest ihInside ihRest =>
    cases d' with
    | empty => exact (hnone n e rest fun r => (h r).symm).elim
    | cons n' e' rest' =>
      obtain ⟨rfl, hentry, hrest⟩ := status?_of_cons hd hd' h
      obtain ⟨-, he, hd⟩ := sorted_cons.1 hd
      obtain ⟨-, he', hd'⟩ := sorted_cons.1 hd'
      rw [ihRest hd hd' hrest]
      have hstatus : e.status = e'.status := Option.some.inj (hentry [])
      congr 1
      cases e with
      | directory linked inside =>
        cases e' with
        | directory linked' inside' =>
          cases hstatus
          rw [ihInside linked inside rfl he he']
          intro r
          cases r with
          | nil => rfl
          | cons x r => exact hentry (x :: r)
        | file linked' access content => cases hstatus
        | broken fillable => cases hstatus
      | file linked access content =>
        cases e' with
        | file linked' access' content' =>
          cases hstatus
          rfl
        | directory linked' inside => cases hstatus
        | broken fillable => cases hstatus
      | broken fillable =>
        cases e' with
        | broken fillable' =>
          cases hstatus
          rfl
        | directory linked inside => cases hstatus
        | file linked access content => cases hstatus

end Extensionality

end Directory

namespace FileSystem

variable {fs : FileSystem} {root p : Path} {extension : String} {s : Standing} {r t : Route}
  {k : Kind}

theorem ext_status? {fs' : FileSystem} (hhome : fs.home = fs'.home)
    (h : ∀ r, fs.status? r = fs'.status? r) : fs = fs' := by
  obtain ⟨root, home, isHome, sorted, named⟩ := fs
  obtain ⟨root', home', isHome', sorted', named'⟩ := fs'
  obtain rfl : root = root' := eq_of_status? sorted sorted' h
  cases hhome
  rfl

/-- What a walk that starts at a route finds behind it and takes for a kind of entry. There is
no link on the way, apart from the start. -/
structure Sees (fs : FileSystem) (r t : Route) (k : Kind) : Prop where
  unlinked : ∀ s, s <+: t → s ≠ [] → s ≠ t → fs.isLink (r ++ s) = false
  kind : (fs.status? (r ++ t)).map Status.kind = some k

theorem sees_entry {name : String}
    (h : (fs.status? (r ++ [name])).map Status.kind = some k) : fs.Sees r [name] k := by
  refine ⟨?_, h⟩
  intro s hs hne hne'
  rcases prefix_cons_iff.1 hs with hs | ⟨t, rfl, ht⟩
  · exact absurd hs hne
  · exact absurd (prefix_nil.1 ht ▸ rfl) hne'

theorem isLink_of_at? {e : Entry} (h : fs.root.at? r = some e) :
    fs.isLink r = e.status.linked := by
  rw [isLink, status?_of_at? h]
  rfl

theorem at?_below {e child : Entry} {name : String} (h : fs.root.at? r = some e)
    (hchild : e.inside.find? name = some child) (t : Route) :
    fs.root.at? (r ++ name :: t) = child.at? t := by
  rw [at?_append, h, Option.bind_some, Entry.at?_cons, hchild, Option.bind_some]

theorem mem_walked_iff {e : Entry} (h : fs.root.at? r = some e) :
    (t, k) ∈ e.inside.walked ↔ t ≠ [] ∧ fs.Sees r t k := by
  have hsorted : e.inside.Sorted :=
    (Entry.Sorted.at? (e := .directory false fs.root) fs.sorted h).inside
  rw [walked, mem_gather_iff hsorted]
  constructor
  · rintro ⟨name, t, child, rfl, hchild, hgathered⟩
    obtain ⟨hway, hkind⟩ := Entry.gathered?_eq_kind_iff.1 hgathered
    refine ⟨cons_ne_nil name t, ⟨?_, ?_⟩⟩
    · intro s hs hne hne'
      obtain ⟨s, rfl, hs'⟩ := (prefix_cons_iff.1 hs).resolve_left hne
      obtain ⟨x, hx⟩ : ∃ x, child.at? s = some x := by
        obtain ⟨back, hback⟩ := hs'
        rw [← hback, Entry.at?_append] at hkind
        cases hat : child.at? s with
        | some x => exact ⟨x, rfl⟩
        | none =>
          rw [hat] at hkind
          cases hkind
      rw [isLink_of_at? ((at?_below h hchild s).trans hx)]
      exact hway s hs' (fun heq => hne' (by rw [heq])) x hx
    · rw [FileSystem.status?, Directory.status?, at?_below h hchild, Option.map_map]
      exact hkind
  · rintro ⟨hne, hway, hkind⟩
    obtain ⟨name, t, rfl⟩ := exists_cons_of_ne_nil hne
    cases hchild : e.inside.find? name with
    | none =>
      rw [FileSystem.status?, Directory.status?, at?_append, h, Option.bind_some,
        Entry.at?_cons, hchild] at hkind
      cases hkind
    | some child =>
      refine ⟨name, t, child, rfl, hchild, Entry.gathered?_eq_kind_iff.2 ⟨?_, ?_⟩⟩
      · intro s hs hne' x hx
        have hlink := hway (name :: s) (cons_prefix_cons.2 ⟨rfl, hs⟩)
          (cons_ne_nil name s) (by simpa using hne')
        rwa [isLink_of_at? ((at?_below h hchild s).trans hx)] at hlink
      · rw [FileSystem.status?, Directory.status?, at?_below h hchild, Option.map_map] at hkind
        exact hkind

theorem mem_visits_iff {e : Entry} (h : fs.root.at? r = some e) {v : Visit} :
    v ∈ e.visits root ↔ v = ⟨[], root, e.kindAt root⟩ ∨
      ∃ t k, t ≠ [] ∧ fs.Sees r t k ∧ v = ⟨t, root.joinAll t, k⟩ := by
  rw [Entry.visits, mem_cons, mem_map]
  constructor
  · rintro (hv | ⟨⟨t, k⟩, hmem, rfl⟩)
    · exact .inl hv
    · obtain ⟨hne, hsees⟩ := (mem_walked_iff h).1 hmem
      exact .inr ⟨t, k, hne, hsees, rfl⟩
  · rintro (hv | ⟨t, k, hne, hsees, rfl⟩)
    · exact .inl hv
    · exact .inr ⟨(t, k), (mem_walked_iff h).2 ⟨hne, hsees⟩, rfl⟩

/-- A file that a walk finds behind a root, at a path with an extension. -/
def HasSource (fs : FileSystem) (root : Path) (extension : String) (p : Path) : Prop :=
  ∃ r t, fs.routeOf root = .ok r ∧ fs.Sees r t .file ∧ p = root.joinAll t ∧
    p.extension? = some extension

/-- All directories that a walk finds behind a root have paths that can be followed. -/
def CanBeWalked (fs : FileSystem) (root : Path) : Prop :=
  ∃ r, fs.routeOf root = .ok r ∧
    ∀ t, fs.Sees r t .directory → (root.joinAll t).text.utf8ByteSize < pathLimit

theorem walk_eq_ok_iff {visits : List Visit} : fs.walk root = .ok visits ↔
    ∃ s, fs.locate root = .ok s ∧ s.entry.visits root = visits ∧
    ∀ v ∈ visits, v.isClosed = false := by
  unfold walk
  cases hs : fs.locate root with
  | error cause => simp
  | ok s =>
    cases hfind : (s.entry.visits root).find? (·.isClosed) with
    | none =>
      simp only [hfind, Except.ok.injEq]
      constructor
      · rintro rfl
        refine ⟨s, rfl, rfl, ?_⟩
        intro v hv
        exact eq_false_of_ne_true (find?_eq_none.1 hfind v hv)
      · rintro ⟨s', rfl, hvisits, -⟩
        exact hvisits
    | some v =>
      simp only [hfind]
      constructor
      · intro h
        cases h
      · rintro ⟨s', hs', rfl, hopen⟩
        cases hs'
        have hclosed := find?_some hfind
        rw [hopen v (mem_of_find?_eq_some hfind)] at hclosed
        cases hclosed

theorem exists_walk_iff : (∃ visits, fs.walk root = .ok visits) ↔ fs.CanBeWalked root := by
  constructor
  · rintro ⟨visits, h⟩
    obtain ⟨s, hs, rfl, hopen⟩ := walk_eq_ok_iff.1 h
    obtain ⟨hroute, hat⟩ := locate_eq_ok hs
    refine ⟨s.route, hroute, ?_⟩
    intro t ht
    by_cases hne : t = []
    · subst hne
      exact utf8ByteSize_lt_of_routeOf hroute
    · have hvisit := hopen _ ((mem_visits_iff hat).2 (.inr ⟨t, .directory, hne, ht, rfl⟩))
      simpa [Visit.isClosed] using hvisit
  · rintro ⟨r, hroute, hshort⟩
    obtain ⟨s, hs, rfl⟩ := exists_locate hroute
    obtain ⟨-, hat⟩ := locate_eq_ok hs
    refine ⟨_, walk_eq_ok_iff.2 ⟨s, hs, rfl, ?_⟩⟩
    intro v hv
    rcases (mem_visits_iff hat).1 hv with rfl | ⟨t, k, -, hsees, rfl⟩
    · simp [Visit.isClosed, utf8ByteSize_lt_of_routeOf hroute]
    · cases k with
      | directory => simpa [Visit.isClosed] using hshort t hsees
      | file => rfl
      | link => rfl

theorem exists_sources_iff : (∃ visits, fs.sources root extension = .ok visits) ↔
    fs.CanBeWalked root := by
  rw [← exists_walk_iff]
  constructor
  · rintro ⟨visits, h⟩
    obtain ⟨all, hall, -⟩ := map_eq_ok_iff.1 h
    exact ⟨all, hall⟩
  · rintro ⟨all, hall⟩
    exact ⟨_, map_eq_ok_iff.2 ⟨all, hall, rfl⟩⟩

/-- A file at the start of a walk is not a link if it is seen as a file. -/
theorem sees_nil_iff {e : Entry} (hroute : fs.routeOf root = .ok r)
    (hat : fs.root.at? r = some e) :
    e.kindAt root = .file ↔ fs.Sees r [] .file := by
  have hstatus := status?_of_at? hat
  have hsees : fs.Sees r [] .file ↔ e.status.kind = .file := by
    constructor
    · intro h
      have hkind := h.kind
      rw [append_nil, hstatus] at hkind
      exact Option.some.inj hkind
    · intro h
      refine ⟨fun s hs hne => absurd (prefix_nil.1 hs) hne, ?_⟩
      rw [append_nil, hstatus]
      exact congrArg some h
  rw [hsees, Entry.kindAt]
  split
  · rfl
  · rename_i hname
    -- a path that leads to a file ends in its name
    cases e with
    | file linked access content =>
      obtain ⟨name, hlast, hcomponent⟩ :=
        endsInName_of_routeOf hroute (get?_of_at? hat : fs.get? r = some (.file content))
      rw [Path.endsInName, hlast, Option.bind_some, hcomponent] at hname
      exact absurd rfl hname
    | directory linked inside =>
      cases linked <;> simp [Entry.status, Status.kind, Status.targetKind, Status.linked]
    | broken fillable => simp [Entry.status, Status.kind, Status.targetKind, Status.linked]

theorem mem_sourceVisits_iff (h : fs.locate root = .ok s) :
    p ∈ ((s.entry.visits root).filter (·.isSource extension)).map (·.path) ↔
      fs.HasSource root extension p := by
  obtain ⟨hroute, hat⟩ := locate_eq_ok h
  rw [mem_map]
  constructor
  · rintro ⟨v, hv, rfl⟩
    obtain ⟨hv, hsource⟩ := mem_filter.1 hv
    simp only [Visit.isSource, Bool.and_eq_true, decide_eq_true_eq, beq_iff_eq] at hsource
    rcases (mem_visits_iff hat).1 hv with rfl | ⟨t, k, -, hsees, rfl⟩
    · exact ⟨s.route, [], hroute, (sees_nil_iff hroute hat).1 hsource.1, rfl, hsource.2⟩
    · exact ⟨s.route, t, hroute, hsource.1 ▸ hsees, rfl, hsource.2⟩
  · rintro ⟨r, t, hr, hsees, rfl, hextension⟩
    cases hroute.symm.trans hr
    refine ⟨⟨t, root.joinAll t, .file⟩, mem_filter.2 ⟨?_, ?_⟩, rfl⟩
    · rw [mem_visits_iff hat]
      by_cases hne : t = []
      · subst hne
        rw [(sees_nil_iff hroute hat).2 hsees]
        exact .inl rfl
      · exact .inr ⟨t, .file, hne, hsees, rfl⟩
    · simp [Visit.isSource, hextension]

theorem sources_eq_ok {visits : List Visit} (h : fs.sources root extension = .ok visits) :
    ∃ s, fs.locate root = .ok s ∧ visits = (s.entry.visits root).filter (·.isSource extension) := by
  obtain ⟨all, hall, rfl⟩ := map_eq_ok_iff.1 h
  obtain ⟨s, hs, rfl, -⟩ := walk_eq_ok_iff.1 hall
  exact ⟨s, hs, rfl⟩

theorem Sees.exists_file (h : fs.Sees r t .file) :
    ∃ content, fs.get? (r ++ t) = some (.file content) := by
  obtain ⟨s, hs, hkind⟩ := Option.map_eq_some_iff.1 h.kind
  rw [get?_eq_bind, hs]
  cases s with
  | file linked access content => exact ⟨content, rfl⟩
  | directory linked => cases linked <;> cases hkind
  | broken fillable => cases hkind

theorem Sees.directory (h : fs.Sees r t .directory) : fs.get? (r ++ t) = some .directory := by
  obtain ⟨s, hs, hkind⟩ := Option.map_eq_some_iff.1 h.kind
  rw [get?_eq_bind, hs]
  cases s with
  | directory linked => rfl
  | file linked access content => cases linked <;> cases hkind
  | broken fillable => cases hkind

/-- A source leads to a file if its path is not too long, and it ends in the name of the file
in any case. -/
theorem HasSource.leads (h : fs.HasSource root extension p) : p.EndsInName ∧
    (p.text.utf8ByteSize < pathLimit →
      ∃ r content, fs.routeOf p = .ok r ∧ fs.get? r = some (.file content)) := by
  obtain ⟨r, t, hroot, hsees, rfl, -⟩ := h
  obtain ⟨content, hfile⟩ := hsees.exists_file
  have hthere : fs.get? (r ++ t) ≠ none := by simp [hfile]
  constructor
  · rcases eq_nil_or_concat t with rfl | ⟨front, name, rfl⟩
    · rw [append_nil] at hfile
      exact endsInName_of_routeOf hroot hfile
    · rw [concat_eq_append] at hthere ⊢
      rw [Path.joinAll, foldl_append]
      exact Path.endsInName_join _ (isName_of_get? hthere name (by simp))
  · intro hshort
    exact ⟨r ++ t, content, routeOf_joinAll t hroot hthere hshort, hfile⟩

end FileSystem

end WitnessReplay.Files
