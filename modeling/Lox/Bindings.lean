/-! Names with their values, each name at most once, in the order of first definition. -/
namespace Lox

structure Bindings (α : Type) where
  entries : List (String × α)

namespace Bindings

variable {α : Type}

def empty : Bindings α := ⟨[]⟩

instance : EmptyCollection (Bindings α) := ⟨empty⟩

def find? (b : Bindings α) (name : String) : Option α := b.entries.lookup name

def contains (b : Bindings α) (name : String) : Bool := (b.find? name).isSome

def insertEntry (name : String) (value : α) : List (String × α) → List (String × α)
  | [] => [(name,value)]
  | (other,old) :: entries =>
    if name == other then (other,value) :: entries
    else (other,old) :: insertEntry name value entries

/-- Bind a name, anew or in place of its old value. -/
def insert (b : Bindings α) (name : String) (value : α) : Bindings α :=
  ⟨insertEntry name value b.entries⟩

def names (b : Bindings α) : List String := b.entries.map Prod.fst

def values (b : Bindings α) : List α := b.entries.map Prod.snd

/-- Later pairs win over earlier ones of the same name. -/
def ofList (pairs : List (String × α)) : Bindings α :=
  pairs.foldl (fun b (name,value) => b.insert name value) empty

@[simp] theorem find?_empty (name : String) : (empty : Bindings α).find? name = none := rfl

theorem find?_insert (b : Bindings α) (name other : String) (value : α) :
    (b.insert name value).find? other = if other = name then some value else b.find? other := by
  obtain ⟨entries⟩ := b
  simp only [find?, insert]
  induction entries with
  | nil => by_cases h : other = name <;> simp_all [insertEntry, List.lookup_cons, beq_false_of_ne]
  | cons e entries ih =>
    obtain ⟨k,old⟩ := e
    by_cases hk : name = k
    · subst hk
      by_cases h : other = name <;> simp_all [insertEntry, List.lookup_cons, beq_false_of_ne]
    · by_cases h : other = k
      · subst h; simp [insertEntry, hk, Ne.symm hk]
      · simp [insertEntry, List.lookup_cons, beq_false_of_ne h, hk, ih]

@[simp] theorem find?_insert_self (b : Bindings α) (name : String) (value : α) :
    (b.insert name value).find? name = some value := by
  simp [find?_insert]

end Bindings
end Lox
