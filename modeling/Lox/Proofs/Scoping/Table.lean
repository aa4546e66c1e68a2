import Lox.Machine
import Lox.Proofs.Scoping.Once

/-! The table of distances: entries come from what scoping has found, and an entry that is made again is
made with the same distance. -/
namespace Lox

namespace Distances

theorem find?_insert (d : Distances) (id other : ExprId) (n : Nat) :
    (d.insert id n).find? other = if other = id then some n else d.find? other := by
  obtain ⟨i⟩ := id
  obtain ⟨j⟩ := other
  simp only [find?,insert,Std.TreeMap.getElem?_insert,Std.LawfulEqOrd.compare_eq_iff_eq,ExprId.mk.injEq]
  by_cases h : j = i
  · simp [h]
  · simp [h,Ne.symm h]

@[simp] theorem find?_empty (id : ExprId) : empty.find? id = none := by
  simp [find?,empty]

/-- An entry was there before or belongs to one of the occurrences. -/
theorem insertAll_from {d : Distances} {occurrences : List (ExprId × String × Option Nat)} {id : ExprId}
    {n : Nat} (h : (d.insertAll occurrences).find? id = some n) :
    d.find? id = some n ∨ ∃ name, (id,name,some n) ∈ occurrences := by
  induction occurrences generalizing d with
  | nil => exact .inl h
  | cons o occurrences ih =>
    obtain ⟨other,name,distance⟩ := o
    rcases ih h with h | ⟨name',h⟩
    · cases distance with
      | none => exact .inl h
      | some k =>
        rw [find?_insert] at h
        split at h
        next heq =>
          obtain rfl := Option.some.inj h
          exact .inr ⟨name,by simp [heq]⟩
        next => exact .inl h
    · exact .inr ⟨name',List.mem_cons_of_mem _ h⟩

/-- No entry is lost, and each occurrence of a local name has one. -/
theorem insertAll_isSome {d : Distances} {occurrences : List (ExprId × String × Option Nat)} {id : ExprId}
    (h : (d.find? id).isSome ∨ ∃ name n, (id,name,some n) ∈ occurrences) :
    ((d.insertAll occurrences).find? id).isSome := by
  induction occurrences generalizing d with
  | nil => exact h.resolve_right (by simp)
  | cons o occurrences ih =>
    obtain ⟨other,name,distance⟩ := o
    apply ih
    rcases h with h | ⟨name',n,h⟩
    · refine .inl ?_
      cases distance with
      | none => exact h
      | some k =>
        simp only [find?_insert]
        split
        · rfl
        · exact h
    · rcases List.mem_cons.mp h with heq | h
      · obtain ⟨rfl,-,rfl⟩ : id = other ∧ name' = name ∧ some n = distance := by simpa using heq
        exact .inl (by simp [find?_insert])
      · exact .inr ⟨name',n,h⟩

/-- Entries of other identities are not touched. -/
theorem insertAll_apart {occurrences : List (ExprId × String × Option Nat)} {id : ExprId}
    (h : ∀ o ∈ occurrences, o.1 ≠ id) (d : Distances) : (d.insertAll occurrences).find? id = d.find? id := by
  induction occurrences generalizing d with
  | nil => rfl
  | cons o occurrences ih =>
    obtain ⟨hne,hothers⟩ := List.forall_mem_cons.mp h
    obtain ⟨other,name,distance⟩ := o
    refine (ih hothers _).trans ?_
    cases distance with
    | none => rfl
    | some n => rw [find?_insert,if_neg (Ne.symm hne)]

end Distances

theorem Finding.mem_occurrences {found : List Finding} {id : ExprId} {name : String} {depth : Option Nat} :
    (id,name,depth) ∈ found.filterMap Finding.occurrence? ↔ .occurrence id name depth ∈ found := by
  rw [List.mem_filterMap]
  constructor
  · rintro ⟨f,hf,hocc⟩
    cases f with
    | occurrence id' name' depth' =>
      simp only [Finding.occurrence?,Option.some.injEq,Prod.mk.injEq] at hocc
      obtain ⟨rfl,rfl,rfl⟩ := hocc
      exact hf
    | _ => simp [Finding.occurrence?] at hocc
  · intro h
    exact ⟨_,h,rfl⟩

theorem mem_occurrences {program : List Stmt} {id : ExprId} {name : String} {depth : Option Nat} :
    (id,name,depth) ∈ (resolve program).occurrences ↔ .occurrence id name depth ∈ findings program := by
  rw [Resolution.occurrences,resolve,Finding.mem_occurrences,List.mem_reverse,findings]

theorem accepted_iff {program : List Stmt} : (resolve program).errors = [] ↔ Accepted program := by
  simp only [Resolution.errors,resolve,List.filterMap_eq_nil_iff,List.mem_reverse,Accepted]
  constructor
  · intro h e he
    exact absurd (h _ he) (by simp [Finding.fault?])
  · intro h f hf
    cases f with
    | fault e => exact absurd hf (h e)
    | _ => rfl

/-- Programs whose occurrences have identities of their own. -/
structure Apart (programs : List (List Stmt)) : Prop where
  once : ∀ p ∈ programs, ((places p).map Prod.fst).Nodup
  apart : ∀ p ∈ programs, ∀ q ∈ programs, ∀ id, id ∈ (places p).map Prod.fst →
    id ∈ (places q).map Prod.fst → p = q

/-- All entries of a table are depths that scoping finds in one of the programs. -/
def Entered (programs : List (List Stmt)) (d : Distances) : Prop :=
  ∀ id n, d.find? id = some n → ∃ p ∈ programs, ∃ name, .occurrence id name (some n) ∈ findings p

/-- The table has what scoping finds in a program. -/
def Tabled (program : List Stmt) (d : Distances) : Prop :=
  ∀ id name depth, .occurrence id name depth ∈ findings program → d.find? id = depth

variable {programs : List (List Stmt)} {p q : List Stmt} {d : Distances}

theorem Entered.insertAll (h : Entered programs d) (hp : p ∈ programs) :
    Entered programs (d.insertAll (resolve p).occurrences) := by
  intro id n hn
  rcases Distances.insertAll_from hn with hn | ⟨name,hname⟩
  · exact h id n hn
  · exact ⟨p,hp,name,mem_occurrences.mp hname⟩

/-- It is enough that all local names have some entry. -/
theorem Entered.tabled (h : Entered programs d) (hapart : Apart programs) (hp : p ∈ programs)
    (hsome : ∀ id name n, .occurrence id name (some n) ∈ findings p → (d.find? id).isSome) :
    Tabled p d := by
  intro id name depth hid
  have hunique {n : Nat} (hn : d.find? id = some n) : depth = some n := by
    obtain ⟨q,hq,other,hother⟩ := h id n hn
    obtain rfl := hapart.apart p hp q hq id (id_mem_places hid) (id_mem_places hother)
    exact finding_unique (hapart.once p hp) hid hother
  cases hfind : d.find? id with
  | some n => exact (hunique hfind).symm
  | none =>
    cases depth with
    | none => rfl
    | some n =>
      have hentry := hsome id name n hid
      simp [hfind] at hentry

/-- A program that is resolved gets its entries, and those of others stay. -/
theorem Tabled.insertAll (hentered : Entered programs d) (hapart : Apart programs) (hp : p ∈ programs)
    (hq : q ∈ programs) (h : q = p ∨ Tabled q d) : Tabled q (d.insertAll (resolve p).occurrences) := by
  apply (hentered.insertAll hp).tabled hapart hq
  intro id name n hid
  apply Distances.insertAll_isSome
  rcases h with rfl | h
  · exact .inr ⟨name,n,mem_occurrences.mpr hid⟩
  · exact .inl (by simp [h id name _ hid])

end Lox
