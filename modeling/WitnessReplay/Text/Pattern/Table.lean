import WitnessReplay.Text.Pattern

/-!
# Searching from right to left

Whether a pattern matches at a place hangs only on what is left of the text there. So the
answers at all places are kept in a table, the last place last, and the table of a pattern is
made from the table of what follows it. One pass over the text per part of the pattern is
enough, where trying every place on its own may take quadratic time.

`table_eq` says that the table holds the answers of `Pattern.run`, and `find?_eq_search?` that
the search finds the leftmost match.
-/

namespace WitnessReplay.Text

/-- The values of `f` at a text and at all that is left of it later on, down to the empty text. -/
def tabulate {α : Type} (f : List Char → α) : List Char → List α
  | [] => [f []]
  | c :: r => f (c :: r) :: tabulate f r

@[simp]
theorem head?_tabulate {α : Type} (f : List Char → α) (s : List Char) :
    (tabulate f s).head? = some (f s) := by
  cases s <;> rfl

theorem zipWith_tabulate {α β γ : Type} (h : α → β → γ) (f : List Char → α) (g : List Char → β)
    (s : List Char) :
    List.zipWith h (tabulate f s) (tabulate g s) = tabulate (fun t => h (f t) (g t)) s := by
  induction s with
  | nil => rfl
  | cons c r ih => simp [tabulate, ih]

namespace Pattern

variable {β : Type}

def behindOne (k : CharClass) : List Char → List (Option β) → List (Option β)
  | c :: r, _ :: later => (if k.contains c then later.headD none else none) :: behindOne k r later
  | _, _ => [none]

def behindOptional (k : CharClass) : List Char → List (Option β) → List (Option β)
  | c :: r, here :: later =>
    (if k.contains c then later.headD none <|> here else here) :: behindOptional k r later
  | _, answers => answers

def behindMany (k : CharClass) : List Char → List (Option β) → List (Option β)
  | c :: r, here :: later =>
    let behind := behindMany k r later
    (if k.contains c then behind.headD none <|> here else here) :: behind
  | _, answers => answers

def behindText (s : List Char) (answers : List (Option β)) : List Char → List (Option β)
  | [] => answers
  | c :: t => behindOne (.is c) s (behindText s answers t)

/-- The answers of a pattern at all places of `s`, made from the answers of what follows it. -/
def table {β : Type} (p : Pattern) (remember : List Char → List Char → β → β) (s : List Char)
    (answers : List (Option β)) : List (Option β) :=
  match p with
  | text t => behindText s answers t
  | optional k => behindOptional k s answers
  | many k => behindMany k s answers
  | oneOrMore k => behindOne k s (behindMany k s answers)
  | seq a b => a.table remember s (b.table remember s answers)
  | either a b => List.zipWith (· <|> ·) (a.table remember s answers) (b.table remember s answers)
  | group a =>
    let places := tabulate id s
    let ends := List.zipWith (fun rest (m : Option β) => m.map (·, rest)) places answers
    List.zipWith (fun start m => m.map fun m => remember start m.2 m.1) places
      (a.table (fun start rest m => (remember start rest m.1, m.2)) s ends)

theorem behindOne_tabulate (k : CharClass) (next : List Char → Option β) (s : List Char) :
    behindOne k s (tabulate next s) =
      tabulate (fun | c :: r => if k.contains c then next r else none | [] => none) s := by
  induction s with
  | nil => rfl
  | cons c r ih => simp [tabulate, behindOne, ih]

theorem behindOptional_tabulate (k : CharClass) (next : List Char → Option β) (s : List Char) :
    behindOptional k s (tabulate next s) =
      tabulate (fun
        | c :: r => if k.contains c then next r <|> next (c :: r) else next (c :: r)
        | [] => next []) s := by
  induction s with
  | nil => rfl
  | cons c r ih => simp [tabulate, behindOptional, ih]

theorem behindMany_tabulate (k : CharClass) (next : List Char → Option β) (s : List Char) :
    behindMany k s (tabulate next s) = tabulate (tryMany k next) s := by
  induction s with
  | nil => rfl
  | cons c r ih => simp [tabulate, behindMany, tryMany, ih]

theorem behindText_tabulate (t : List Char) (next : List Char → Option β) (s : List Char) :
    behindText s (tabulate next s) t =
      tabulate (fun s => if t.isPrefixOf s then next (s.drop t.length) else none) s := by
  induction t with
  | nil => simp [behindText]
  | cons c t ih =>
    rw [behindText, ih, behindOne_tabulate]
    congr 1
    funext s
    cases s with
    | nil => rfl
    | cons d r =>
      by_cases h : d = c
      · simp [CharClass.contains, List.isPrefixOf, h]
      · simp [CharClass.contains, List.isPrefixOf, h, Ne.symm h]

theorem table_eq (p : Pattern) (remember : List Char → List Char → β → β)
    (next : List Char → Option β)
    (s : List Char) : p.table remember s (tabulate next s) = tabulate (p.run remember next) s := by
  induction p generalizing β with
  | text t => exact behindText_tabulate t next s
  | optional k =>
    rw [table, behindOptional_tabulate]
    congr 1
  | many k => exact behindMany_tabulate k next s
  | oneOrMore k =>
    rw [table, behindMany_tabulate, behindOne_tabulate]
    congr 1
  | seq a b iha ihb => rw [table, ihb, iha]; rfl
  | either a b iha ihb => rw [table, iha, ihb, zipWith_tabulate]; rfl
  | group a ih => simp only [table, zipWith_tabulate, ih, id_eq]; rfl

def find? (p : Pattern) (s : List Char) : Option Match :=
  (p.table Match.remember s (tabulate (fun rest => some ⟨[], rest⟩) s)).findSome? id

theorem find?_eq_search? (p : Pattern) (s : List Char) : p.find? s = p.search? s := by
  rw [find?, table_eq]
  induction s with
  | nil => cases h : p.match? [] <;> simp_all [tabulate, search?, match?]
  | cons c r ih => cases h : p.match? (c :: r) <;> simp_all [tabulate, search?, match?]

end Pattern

end WitnessReplay.Text
