/-!
# Directories

What a directory holds, as a tree. An entry is found by its route, the names that lead
to it. The names in a directory are in increasing order, so that a walk through the tree
meets them in that order.

A link that leads to a file or to a directory counts as what it leads to, and is marked
as a link; nothing else leads there, and from a directory the way up leads to where the
link is. Nothing is found through a link to something missing. All files belong to the
user, who can list and change all directories.

`status?_place` says what a change does: an entry is found where it was put, and all
others where they were.
-/

namespace WitnessReplay.Files

/-- The names that lead from a directory to an entry in it or below. -/
abbrev Route := List String

/-- What the mode of a file allows its owner. -/
structure Access where
  readable : Bool := true
  writable : Bool := true
deriving DecidableEq, Repr

/-- What is found by following a path. -/
inductive Node where
  | file (content : ByteArray)
  | directory

instance : DecidableEq Node
  | .file a, .file b =>
    if h : a.data = b.data then .isTrue (congrArg _ (ByteArray.ext h))
    else .isFalse fun hfile => h (congrArg _ (Node.file.inj hfile))
  | .file _, .directory => .isFalse nofun
  | .directory, .file _ => .isFalse nofun
  | .directory, .directory => .isTrue rfl

/-- What a walk takes an entry for. It does not follow links. -/
inductive Kind where
  | file
  | directory
  | link
deriving DecidableEq, Repr

/-- All that can be told of an entry without looking into it. -/
inductive Status where
  | file (linked : Bool) (access : Access) (content : ByteArray)
  | directory (linked : Bool)
  /-- A link to something missing, which can be made as a file or not. -/
  | broken (fillable : Bool)

namespace Status

def node? : Status → Option Node
  | file _ _ content => some (.file content)
  | directory _ => some .directory
  | broken _ => none

def linked : Status → Bool
  | file linked _ _ => linked
  | directory linked => linked
  | broken _ => true

def access : Status → Access
  | file _ access _ => access
  | _ => {}

def targetKind : Status → Kind
  | file _ _ _ => .file
  | directory _ => .directory
  | broken _ => .link

def kind (s : Status) : Kind :=
  if s.linked then .link else s.targetKind

def ofNode : Node → Status
  | .file content => file false {} content
  | .directory => directory false

@[simp] theorem node?_ofNode (n : Node) : (ofNode n).node? = some n := by
  cases n <;> rfl

end Status

/-- What a directory holds: a first entry and the others. -/
inductive Directory where
  | empty
  | file (name : String) (linked : Bool) (access : Access) (content : ByteArray)
      (rest : Directory)
  | directory (name : String) (linked : Bool) (inside rest : Directory)
  | broken (name : String) (fillable : Bool) (rest : Directory)

/-- An entry with all that is in it. -/
inductive Entry where
  | file (linked : Bool) (access : Access) (content : ByteArray)
  | directory (linked : Bool) (inside : Directory)
  | broken (fillable : Bool)

namespace Entry

def status : Entry → Status
  | file linked access content => .file linked access content
  | directory linked _ => .directory linked
  | broken fillable => .broken fillable

def ofStatus : Status → Entry
  | .file linked access content => file linked access content
  | .directory linked => directory linked .empty
  | .broken fillable => broken fillable

def node? (e : Entry) : Option Node :=
  e.status.node?

/-- What is in an entry: nothing unless it is a directory. -/
def inside : Entry → Directory
  | directory _ inside => inside
  | _ => .empty

@[simp] theorem status_ofStatus (s : Status) : (ofStatus s).status = s := by
  cases s <;> rfl

end Entry

namespace Directory

def cons (name : String) (e : Entry) (d : Directory) : Directory :=
  match e with
  | .file linked access content => file name linked access content d
  | .directory linked inside => directory name linked inside d
  | .broken fillable => broken name fillable d

/-- What holds of the empty directory, and of a first entry and the others if it holds of
the others and of what is in the entry. -/
@[induction_eliminator]
theorem consInduction {motive : Directory → Prop} (empty : motive empty)
    (cons : ∀ name e rest, (∀ linked inside, e = .directory linked inside → motive inside) →
      motive rest → motive (cons name e rest)) (d : Directory) : motive d := by
  refine d.rec empty ?_ ?_ ?_
  · intro name linked access content rest hrest
    exact cons name (.file linked access content) rest nofun hrest
  · intro name linked inside rest hinside hrest
    refine cons name (.directory linked inside) rest ?_ hrest
    intro linked inside h
    cases h
    exact hinside
  · intro name fillable rest hrest
    exact cons name (.broken fillable) rest nofun hrest

@[cases_eliminator]
theorem consCases {motive : Directory → Prop} (empty : motive empty)
    (cons : ∀ name e rest, motive (cons name e rest)) (d : Directory) : motive d := by
  induction d with
  | empty => exact empty
  | cons name e rest => exact cons name e rest

def find? : Directory → String → Option Entry
  | empty, _ => none
  | file n linked access content rest, m =>
    if m = n then some (.file linked access content) else rest.find? m
  | directory n linked inside rest, m =>
    if m = n then some (.directory linked inside) else rest.find? m
  | broken n fillable rest, m => if m = n then some (.broken fillable) else rest.find? m

def set (d : Directory) (m : String) (e : Entry) : Directory :=
  match d with
  | empty => cons m e empty
  | file n linked access content rest =>
    if m = n then cons m e rest
    else if m < n then cons m e (file n linked access content rest)
    else file n linked access content (rest.set m e)
  | directory n linked inside rest =>
    if m = n then cons m e rest
    else if m < n then cons m e (directory n linked inside rest)
    else directory n linked inside (rest.set m e)
  | broken n fillable rest =>
    if m = n then cons m e rest
    else if m < n then cons m e (broken n fillable rest)
    else broken n fillable (rest.set m e)

def names : Directory → List String
  | empty => []
  | file n _ _ _ rest => n :: rest.names
  | directory n _ _ rest => n :: rest.names
  | broken n _ rest => n :: rest.names

def listing : Directory → List (String × Kind)
  | empty => []
  | file n linked access content rest =>
    (n, (Status.file linked access content).kind) :: rest.listing
  | directory n linked _ rest => (n, (Status.directory linked).kind) :: rest.listing
  | broken n _ rest => (n, .link) :: rest.listing

/-- What `f` makes of the entries in and below a directory, each directory in front of what
is in it. What is behind an entry at which it `stops` is left out. -/
def gather {α : Type} (f : Status → α) (stops : Status → Bool) :
    Directory → List (Route × α)
  | empty => []
  | file n linked access content rest =>
    ([n], f (.file linked access content)) :: rest.gather f stops
  | directory n linked inside rest =>
    let below := (inside.gather f stops).map fun e => (n :: e.1, e.2)
    ([n], f (.directory linked)) ::
      (if stops (.directory linked) then [] else below) ++ rest.gather f stops
  | broken n fillable rest => ([n], f (.broken fillable)) :: rest.gather f stops

def all (d : Directory) : List (Route × Status) :=
  d.gather id fun _ => false

/-- The entries that a walk comes to, which does not go on behind links. -/
def walked (d : Directory) : List (Route × Kind) :=
  d.gather Status.kind Status.linked

end Directory

namespace Entry

def at? (e : Entry) : Route → Option Entry
  | [] => some e
  | name :: r => (e.inside.find? name).bind (·.at? r)

@[simp] theorem at?_nil (e : Entry) : e.at? [] = some e := rfl

theorem at?_cons (e : Entry) (name : String) (r : Route) :
    e.at? (name :: r) = (e.inside.find? name).bind (·.at? r) := rfl

theorem at?_append (e : Entry) (r r' : Route) :
    e.at? (r ++ r') = (e.at? r).bind (·.at? r') := by
  induction r generalizing e with
  | nil => rfl
  | cons name r ih =>
    rw [List.cons_append, at?_cons, at?_cons, Option.bind_assoc]
    congr 1
    funext child
    exact ih child

end Entry

namespace Directory

section Cons

variable (n : String) (e : Entry) (d : Directory)

@[simp] theorem find?_cons (m : String) :
    (cons n e d).find? m = if m = n then some e else d.find? m := by
  cases e <;> rfl

theorem set_cons (m : String) (e' : Entry) :
    (cons n e d).set m e' =
      if m = n then cons m e' d
      else if m < n then cons m e' (cons n e d)
      else cons n e (d.set m e') := by
  cases e <;> rfl

theorem names_cons : (cons n e d).names = n :: d.names := by
  cases e <;> rfl

theorem listing_cons : (cons n e d).listing = (n, e.status.kind) :: d.listing := by
  cases e <;> rfl

theorem gather_cons {α : Type} (f : Status → α) (stops : Status → Bool) :
    (cons n e d).gather f stops =
      ([n], f e.status) ::
        (if stops e.status then []
          else (e.inside.gather f stops).map fun x => (n :: x.1, x.2)) ++
        d.gather f stops := by
  cases e with
  | file linked access content => simp [cons, gather, Entry.status, Entry.inside]
  | directory linked inside => rfl
  | broken fillable => simp [cons, gather, Entry.status, Entry.inside]

end Cons

def at? (d : Directory) (r : Route) : Option Entry :=
  (Entry.directory false d).at? r

def status? (d : Directory) (r : Route) : Option Status :=
  (d.at? r).map Entry.status

def get? (d : Directory) (r : Route) : Option Node :=
  (d.status? r).bind Status.node?

/-- The directory with an entry put at a route, in a directory that is there. -/
def place (d : Directory) (s : Status) : Route → Directory
  | [] => d
  | m :: r =>
    match d.find? m with
    | some (.directory linked inside) => d.set m (.directory linked (inside.place s r))
    | _ => if r = [] then d.set m (.ofStatus s) else d

theorem at?_cons (d : Directory) (m : String) (r : Route) :
    d.at? (m :: r) = (d.find? m).bind (·.at? r) := rfl

theorem at?_of_find? {d : Directory} {m : String} {e : Entry} (h : d.find? m = some e)
    (r : Route) : d.at? (m :: r) = e.at? r := by
  rw [at?_cons, h]
  rfl

theorem status?_of_find? {d : Directory} {m : String} {e : Entry} (h : d.find? m = some e)
    (r : Route) : d.status? (m :: r) = (e.at? r).map Entry.status := by
  rw [status?, at?_of_find? h]

theorem status?_of_find?_none {d : Directory} {m : String} (h : d.find? m = none)
    (r : Route) : d.status? (m :: r) = none := by
  rw [status?, at?_cons, h]
  rfl

theorem status?_congr {d d' : Directory} {m : String} (h : d.find? m = d'.find? m)
    (r : Route) : d.status? (m :: r) = d'.status? (m :: r) := by
  rw [status?, status?, at?_cons, at?_cons, h]

@[simp] theorem find?_set (d : Directory) (m m' : String) (e : Entry) :
    (d.set m e).find? m' = if m' = m then some e else d.find? m' := by
  induction d with
  | empty => exact find?_cons m e .empty m'
  | cons n first rest _ ih =>
    rw [set_cons]
    split
    · rename_i h
      subst h
      rw [find?_cons, find?_cons]
      split <;> rfl
    · rename_i hne
      split
      · exact find?_cons m e _ m'
      · rw [find?_cons, find?_cons, ih]
        by_cases h : m' = n
        · rw [if_pos h, if_pos h, if_neg fun hc => hne (hc.symm.trans h)]
        · rw [if_neg h, if_neg h]

theorem status?_set_self (d : Directory) (m : String) (e : Entry) (r : Route) :
    (d.set m e).status? (m :: r) = (e.at? r).map Entry.status :=
  status?_of_find? (by simp) r

theorem status?_set_of_ne {m m' : String} (h : m' ≠ m) (d : Directory) (e : Entry)
    (r : Route) : (d.set m e).status? (m' :: r) = d.status? (m' :: r) :=
  status?_congr (by simp [h]) r

/-- Whether an entry may be put at a route: in a directory, and not in place of one. -/
def Admits (d : Directory) (r : Route) : Prop :=
  r ≠ [] ∧ d.get? r.dropLast = some .directory ∧ d.get? r ≠ some .directory

instance (d : Directory) (r : Route) : Decidable (d.Admits r) :=
  inferInstanceAs (Decidable (_ ∧ _ ∧ _))

theorem status?_below {d inside : Directory} {m : String} {linked : Bool}
    (h : d.find? m = some (.directory linked inside)) (x : String) (r : Route) :
    d.status? (m :: x :: r) = inside.status? (x :: r) := by
  rw [status?_of_find? h]
  rfl

theorem get?_of_find? {d inside : Directory} {m : String} {linked : Bool}
    (h : d.find? m = some (.directory linked inside)) (r : Route) :
    d.get? (m :: r) = inside.get? r := by
  rw [get?, get?, status?_of_find? h]
  cases r <;> rfl

theorem get?_eq_directory_iff {d : Directory} {m : String} {r : Route} :
    d.get? (m :: r) = some .directory ↔
      ∃ linked inside, d.find? m = some (.directory linked inside) ∧
        inside.get? r = some .directory := by
  constructor
  · intro h
    cases hfind : d.find? m with
    | none =>
      rw [get?, status?_of_find?_none hfind] at h
      cases h
    | some e =>
      cases e with
      | directory linked inside =>
        rw [get?_of_find? hfind] at h
        exact ⟨linked, inside, rfl, h⟩
      | file linked access content =>
        rw [get?, status?_of_find? hfind] at h
        cases r <;> cases h
      | broken fillable =>
        rw [get?, status?_of_find? hfind] at h
        cases r <;> cases h
  · rintro ⟨linked, inside, hfind, h⟩
    rw [get?_of_find? hfind, h]

theorem place_of_directory {d inside : Directory} {m : String} {linked : Bool}
    (h : d.find? m = some (.directory linked inside)) (s : Status) (r : Route) :
    d.place s (m :: r) = d.set m (.directory linked (inside.place s r)) := by
  rw [place, h]

theorem place_of_not_directory {d : Directory} {m : String}
    (h : ∀ linked inside, d.find? m ≠ some (.directory linked inside)) (s : Status) :
    d.place s [m] = d.set m (.ofStatus s) := by
  rw [place]
  split
  · rename_i linked inside hfind
    exact absurd hfind (h linked inside)
  · rfl

theorem status?_of_not_directory {d : Directory} {m : String}
    (h : ∀ linked inside, d.find? m ≠ some (.directory linked inside)) (x : String)
    (r : Route) : d.status? (m :: x :: r) = none := by
  cases hfind : d.find? m with
  | none => exact status?_of_find?_none hfind _
  | some e =>
    rw [status?_of_find? hfind]
    cases e with
    | directory linked inside => exact absurd hfind (h linked inside)
    | file linked access content => rfl
    | broken fillable => rfl

theorem at?_ofStatus_cons (s : Status) (m : String) (r : Route) :
    (Entry.ofStatus s).at? (m :: r) = none := by
  cases s <;> rfl

theorem status?_place {d : Directory} {r : Route} (h : d.Admits r) (s : Status)
    (r' : Route) : (d.place s r).status? r' = if r' = r then some s else d.status? r' := by
  induction r generalizing d r' with
  | nil => exact absurd rfl h.1
  | cons m r ih =>
    obtain ⟨-, hparent, hkind⟩ := h
    cases r' with
    | nil => rfl
    | cons m' r' =>
      by_cases hdir : ∃ linked inside, d.find? m = some (.directory linked inside)
      · obtain ⟨linked, inside, hfind⟩ := hdir
        rw [place_of_directory hfind]
        by_cases hm : m' = m
        · subst hm
          have hset : (d.set m' (.directory linked (inside.place s r))).find? m' =
              some (.directory linked (inside.place s r)) := by
            rw [find?_set, if_pos rfl]
          cases r with
          | nil => exact absurd (get?_of_find? hfind []) hkind
          | cons x r =>
            cases r' with
            | nil =>
              rw [if_neg (by simp), status?_of_find? hset, status?_of_find? hfind]
              rfl
            | cons y r' =>
              have hin : inside.Admits (x :: r) := by
                refine ⟨List.cons_ne_nil x r, ?_, ?_⟩
                · rwa [List.dropLast_cons_of_ne_nil (List.cons_ne_nil x r),
                    get?_of_find? hfind] at hparent
                · rwa [get?_of_find? hfind] at hkind
              rw [status?_below hset, status?_below hfind, ih hin]
              simp only [List.cons.injEq, true_and]
        · rw [status?_set_of_ne hm, if_neg (by simp [hm])]
      · have hnot : ∀ linked inside, d.find? m ≠ some (.directory linked inside) := by
          intro linked inside hfind
          exact hdir ⟨linked, inside, hfind⟩
        cases r with
        | cons x r =>
          obtain ⟨linked, inside, hfind, -⟩ := get?_eq_directory_iff.1 hparent
          exact absurd hfind (hnot linked inside)
        | nil =>
          rw [place_of_not_directory hnot]
          by_cases hm : m' = m
          · subst hm
            rw [status?_set_self]
            cases r' with
            | nil => simp
            | cons y r' =>
              rw [if_neg (by simp), status?_of_not_directory hnot, at?_ofStatus_cons]
              rfl
          · rw [status?_set_of_ne hm, if_neg (by simp [hm])]

/-- Whether the names in a directory, and in all those below it, are in increasing
order. -/
def Sorted : Directory → Prop
  | empty => True
  | file n _ _ _ rest => (∀ m ∈ rest.names, n < m) ∧ rest.Sorted
  | directory n _ inside rest => (∀ m ∈ rest.names, n < m) ∧ inside.Sorted ∧ rest.Sorted
  | broken n _ rest => (∀ m ∈ rest.names, n < m) ∧ rest.Sorted

/-- Whether all names in a directory, and in all those below it, satisfy `p`. -/
def AllNames (p : String → Prop) : Directory → Prop
  | empty => True
  | file n _ _ _ rest => p n ∧ rest.AllNames p
  | directory n _ inside rest => p n ∧ inside.AllNames p ∧ rest.AllNames p
  | broken n _ rest => p n ∧ rest.AllNames p

end Directory

def Entry.Sorted : Entry → Prop
  | directory _ inside => inside.Sorted
  | _ => True

def Entry.AllNames (p : String → Prop) : Entry → Prop
  | directory _ inside => inside.AllNames p
  | _ => True

namespace Directory

section Order

theorem sorted_cons {m : String} {e : Entry} {d : Directory} :
    (cons m e d).Sorted ↔ (∀ x ∈ d.names, m < x) ∧ e.Sorted ∧ d.Sorted := by
  cases e <;> simp [cons, Sorted, Entry.Sorted]

theorem mem_names_set {d : Directory} {m x : String} {e : Entry}
    (h : x ∈ (d.set m e).names) : x = m ∨ x ∈ d.names := by
  induction d with
  | empty => simpa [set, names_cons] using h
  | cons n first rest _ ih =>
    rw [set_cons] at h
    split at h
    · grind [names_cons]
    · split at h <;> grind [names_cons]

theorem lt_of_ne_of_not_lt {m n : String} (hne : ¬m = n) (hlt : ¬m < n) : n < m :=
  String.not_le.1 fun hle => hne (String.le_antisymm hle (String.not_lt.1 hlt))

theorem sorted_set {d : Directory} {m : String} {e : Entry} (hd : d.Sorted)
    (he : e.Sorted) : (d.set m e).Sorted := by
  induction d with
  | empty => simp [set, sorted_cons, he, names, Sorted]
  | cons n first rest _ ih =>
    obtain ⟨hlt, hfirst, hrest⟩ := sorted_cons.1 hd
    rw [set_cons]
    split
    · rename_i heq
      exact sorted_cons.2 ⟨heq ▸ hlt, he, hrest⟩
    · rename_i hne
      split
      · rename_i hmn
        refine sorted_cons.2 ⟨?_, he, hd⟩
        intro x hx
        rw [names_cons] at hx
        rcases List.mem_cons.1 hx with rfl | hx
        · exact hmn
        · exact String.lt_trans hmn (hlt x hx)
      · rename_i hmn
        refine sorted_cons.2 ⟨?_, hfirst, ih hrest⟩
        intro x hx
        rcases mem_names_set hx with rfl | hx
        · exact lt_of_ne_of_not_lt hne hmn
        · exact hlt x hx

theorem sorted_of_find? {d : Directory} {m : String} {e : Entry} (hd : d.Sorted)
    (h : d.find? m = some e) : e.Sorted := by
  induction d with
  | empty => cases h
  | cons n first rest _ ih =>
    obtain ⟨-, hfirst, hrest⟩ := sorted_cons.1 hd
    rw [find?_cons] at h
    split at h
    · cases h
      exact hfirst
    · exact ih hrest h

theorem sorted_place {d : Directory} (hd : d.Sorted) (s : Status) (r : Route) :
    (d.place s r).Sorted := by
  induction r generalizing d with
  | nil => exact hd
  | cons m r ih =>
    unfold place
    split
    · rename_i hfind
      have hinside := sorted_of_find? hd hfind
      exact sorted_set hd (ih hinside)
    · split
      · exact sorted_set hd (by cases s <;> trivial)
      · exact hd

end Order

section Names

variable {p : String → Prop}

theorem allNames_cons {m : String} {e : Entry} {d : Directory} :
    (cons m e d).AllNames p ↔ p m ∧ e.AllNames p ∧ d.AllNames p := by
  cases e <;> simp [cons, AllNames, Entry.AllNames]

theorem allNames_set {d : Directory} {m : String} {e : Entry} (hd : d.AllNames p)
    (hm : p m) (he : e.AllNames p) : (d.set m e).AllNames p := by
  induction d with
  | empty => exact allNames_cons.2 ⟨hm, he, hd⟩
  | cons n first rest _ ih =>
    obtain ⟨hn, hfirst, hrest⟩ := allNames_cons.1 hd
    rw [set_cons]
    split
    · exact allNames_cons.2 ⟨hm, he, hrest⟩
    · split
      · exact allNames_cons.2 ⟨hm, he, hd⟩
      · exact allNames_cons.2 ⟨hn, hfirst, ih hrest⟩

theorem allNames_of_find? {d : Directory} {m : String} {e : Entry} (hd : d.AllNames p)
    (h : d.find? m = some e) : p m ∧ e.AllNames p := by
  induction d with
  | empty => cases h
  | cons n first rest _ ih =>
    obtain ⟨hn, hfirst, hrest⟩ := allNames_cons.1 hd
    rw [find?_cons] at h
    split at h
    · rename_i heq
      cases h
      exact ⟨heq ▸ hn, hfirst⟩
    · exact ih hrest h

theorem allNames_place {d : Directory} (hd : d.AllNames p) (s : Status) {r : Route}
    (hr : ∀ m ∈ r, p m) : (d.place s r).AllNames p := by
  induction r generalizing d with
  | nil => exact hd
  | cons m r ih =>
    obtain ⟨hm, hr⟩ := List.forall_mem_cons.1 hr
    unfold place
    split
    · rename_i hfind
      obtain ⟨-, hinside⟩ := allNames_of_find? hd hfind
      exact allNames_set hd hm (ih hinside hr)
    · split
      · exact allNames_set hd hm (by cases s <;> trivial)
      · exact hd

end Names

end Directory

end WitnessReplay.Files
