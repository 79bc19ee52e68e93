/-!
# Maps in order of insertion

A map that lists its entries in the order in which their keys were first inserted. Inserting a
key again replaces the value and keeps the place.
-/

namespace WitnessReplay

/-- A map from `α` to `β` with its entries in order of insertion. -/
structure OrderedMap (α β : Type) where
  entries : List (α × β) := []
deriving Repr

namespace OrderedMap

variable {α β : Type} [DecidableEq α]

def empty : OrderedMap α β := ⟨[]⟩

instance : EmptyCollection (OrderedMap α β) := ⟨empty⟩

def get? (m : OrderedMap α β) (a : α) : Option β :=
  (m.entries.find? fun e => e.1 = a).map (·.2)

def contains (m : OrderedMap α β) (a : α) : Bool :=
  (m.get? a).isSome

def keys (m : OrderedMap α β) : List α :=
  m.entries.map (·.1)

def values (m : OrderedMap α β) : List β :=
  m.entries.map (·.2)

def insertEntry (a : α) (b : β) : List (α × β) → List (α × β)
  | [] => [(a, b)]
  | e :: rest => if e.1 = a then (a, b) :: rest else e :: insertEntry a b rest

def insert (m : OrderedMap α β) (a : α) (b : β) : OrderedMap α β :=
  ⟨insertEntry a b m.entries⟩

def insertNew (m : OrderedMap α β) (a : α) (b : β) : OrderedMap α β :=
  if m.contains a then m else m.insert a b

def insertAll (m : OrderedMap α β) (entries : List (α × β)) : OrderedMap α β :=
  entries.foldl (fun m e => m.insert e.1 e.2) m

def ofList (entries : List (α × β)) : OrderedMap α β :=
  insertAll ∅ entries

@[simp] theorem get?_empty (a : α) : (∅ : OrderedMap α β).get? a = none := rfl

theorem get?_insert (m : OrderedMap α β) (a a' : α) (b : β) :
    (m.insert a b).get? a' = if a' = a then some b else m.get? a' := by
  obtain ⟨entries⟩ := m
  simp only [get?, insert]
  induction entries with
  | nil => by_cases h : a' = a <;> simp [insertEntry, h, Ne.symm, eq_comm]
  | cons e rest ih =>
    by_cases h : e.1 = a
    · by_cases h' : a' = a
      · simp [insertEntry, h, h']
      · have h₁ : a ≠ a' := fun hc => h' hc.symm
        simp [insertEntry, h, h', h₁]
    · by_cases h' : e.1 = a'
      · have : a' ≠ a := fun hc => h (h'.trans hc)
        simp [insertEntry, h', this]
      · simp only [insertEntry, h, if_false, List.find?_cons, h', decide_false]
        exact ih

theorem insertEntry_of_get?_eq_none {m : OrderedMap α β} {a : α} (h : m.get? a = none) (b : β) :
    insertEntry a b m.entries = m.entries ++ [(a, b)] := by
  obtain ⟨entries⟩ := m
  rw [get?, Option.map_eq_none_iff, List.find?_eq_none] at h
  show insertEntry a b entries = entries ++ [(a, b)]
  induction entries with
  | nil => rfl
  | cons e rest ih =>
    have hne : ¬e.1 = a := by simpa using h e List.mem_cons_self
    rw [insertEntry, if_neg hne, ih fun e' he' => h e' (List.mem_cons_of_mem e he')]
    rfl

end OrderedMap

end WitnessReplay
