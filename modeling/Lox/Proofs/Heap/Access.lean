import Lox.Proofs.Run.Fault
import Mathlib.Data.List.Nodup
import Mathlib.Data.List.Perm.Subperm

/-! A name is found by a search outward or at a distance that is known beforehand. Where the distance is that of the
nearest scope with the name, both reach the same binding, and an assignment changes that binding alone. -/
namespace Lox
namespace Heap

/-- The scopes from one outward, up to the one that no other is around. -/
inductive ScopeChain (h : Heap) : ScopeId → List ScopeId → Prop
  | last {i} (hi : i.index < h.scopes.size) (hnone : (h.getScope i).enclosing = none) : ScopeChain h i [i]
  | link {i e chain} (hi : i.index < h.scopes.size) (he : (h.getScope i).enclosing = some e)
    (hchain : ScopeChain h e chain) : ScopeChain h i (i :: chain)

/-- The second heap differs in the value of one name in one scope, and in nothing else. -/
structure Rebinds (h : Heap) (j : ScopeId) (name : String) (v : Value) (h' : Heap) : Prop where
  bindings : ∀ k other, (h'.getScope k).bindings.find? other =
    if k = j ∧ other = name then some v else (h.getScope k).bindings.find? other
  enclosing : ∀ k, (h'.getScope k).enclosing = (h.getScope k).enclosing
  size : h'.scopes.size = h.scopes.size
  others : h'.functions = h.functions ∧ h'.classes = h.classes ∧ h'.instances = h.instances

variable {h : Heap} {i j k : ScopeId} {chain chain' nearer further : List ScopeId} {name : String} {d : Nat}

theorem find?_of_not_binds (hnot : ¬ h.Binds k name) : (h.getScope k).bindings.find? name = none := by
  simpa [Binds,Bindings.contains] using hnot

theorem rebinds_define (hj : j.index < h.scopes.size) (name : String) (v : Value) :
    h.Rebinds j name v (h.define j name v) where
  bindings k other := by
    rw [getScope_define]
    by_cases hk : j = k
    · subst hk
      rw [if_pos ⟨rfl,hj⟩,Bindings.find?_insert]
      simp only [true_and]
    · rw [if_neg fun hjk => hk hjk.1,if_neg fun hkj => hk hkj.1.symm]
  enclosing k := by
    rw [getScope_define]
    split <;> rfl
  size := define_size h j name v
  others := ⟨rfl,rfl,rfl⟩

namespace ScopeChain

theorem unique (hchain : h.ScopeChain i chain) (hchain' : h.ScopeChain i chain') : chain = chain' := by
  induction hchain generalizing chain' with
  | last _ hnone =>
    cases hchain' with
    | last => rfl
    | link _ he => cases hnone.symm.trans he
  | link _ he _ ih =>
    cases hchain' with
    | last _ hnone => cases hnone.symm.trans he
    | link _ he' hrest =>
      obtain rfl := Option.some.inj (he.symm.trans he')
      rw [ih hrest]

theorem inRange (hchain : h.ScopeChain i chain) (hk : k ∈ chain) : k.index < h.scopes.size := by
  induction hchain with
  | last hi => exact List.mem_singleton.mp hk ▸ hi
  | link hi _ _ ih =>
    rcases List.mem_cons.mp hk with rfl | hk
    · exact hi
    · exact ih hk

/-- The chain of a scope further out is a part of the chain. -/
theorem of_mem (hchain : h.ScopeChain i chain) (hk : k ∈ chain) : ∃ rest, h.ScopeChain k rest ∧ rest <:+ chain := by
  induction hchain with
  | last hi hnone =>
    obtain rfl := List.mem_singleton.mp hk
    exact ⟨_,.last hi hnone,List.suffix_refl _⟩
  | link hi he hrest ih =>
    rcases List.mem_cons.mp hk with rfl | hk
    · exact ⟨_,.link hi he hrest,List.suffix_refl _⟩
    · obtain ⟨rest,hchain,hsuffix⟩ := ih hk
      exact ⟨rest,hchain,hsuffix.trans (List.suffix_cons _ _)⟩

/-- No scope encloses itself: its chain would be longer than itself. -/
theorem nodup (hchain : h.ScopeChain i chain) : chain.Nodup := by
  induction hchain with
  | last => exact List.nodup_singleton _
  | @link i _ chain hi he hrest ih =>
    refine List.nodup_cons.mpr ⟨fun hmem => ?_,ih⟩
    obtain ⟨rest,hagain,hsuffix⟩ := hrest.of_mem hmem
    have hlength := hsuffix.length_le
    rw [hagain.unique (.link hi he hrest),List.length_cons] at hlength
    omega

theorem length_le (hchain : h.ScopeChain i chain) : chain.length ≤ h.scopes.size := by
  have hinjective : Function.Injective ScopeId.index := fun ⟨_⟩ ⟨_⟩ hindex => congrArg ScopeId.mk hindex
  have hsubset : chain.map ScopeId.index ⊆ List.range h.scopes.size := by
    intro n hn
    obtain ⟨k,hk,rfl⟩ := List.mem_map.mp hn
    exact List.mem_range.mpr (hchain.inRange hk)
  simpa using ((hchain.nodup.map hinjective).subperm hsubset).length_le

/-! ### The search -/

theorem lookup?_eq (hchain : h.ScopeChain i chain) (name : String) {fuel : Nat} (hfuel : chain.length ≤ fuel) :
    h.lookup? name fuel i = chain.findSome? fun k => ((h.getScope k).bindings.find? name).map (k,·) := by
  induction hchain generalizing fuel with
  | @last i _ hnone =>
    obtain ⟨fuel,rfl⟩ := Nat.exists_eq_add_of_le' hfuel
    cases hv : (h.getScope i).bindings.find? name <;> simp [lookup?,hv,hnone]
  | @link i _ _ _ he _ ih =>
    obtain ⟨fuel,rfl⟩ : ∃ fuel', fuel = fuel' + 1 := ⟨fuel - 1,by simp only [List.length_cons] at hfuel; omega⟩
    have hrest := ih (Nat.le_of_succ_le_succ hfuel)
    cases hv : (h.getScope i).bindings.find? name <;> simp [lookup?,hv,he,hrest]

theorem lookup?_nearest (hchain : h.ScopeChain i (nearer ++ j :: further)) (hnearer : ∀ k ∈ nearer, ¬ h.Binds k name)
    {v : Value} (hv : (h.getScope j).bindings.find? name = some v) :
    h.lookup? name h.scopes.size i = some (j,v) := by
  rw [hchain.lookup?_eq name hchain.length_le,List.findSome?_eq_some_iff]
  refine ⟨nearer,j,further,rfl,by rw [hv]; rfl,fun k hk => ?_⟩
  rw [find?_of_not_binds (hnearer k hk)]
  rfl

theorem lookup?_none (hchain : h.ScopeChain i chain) (hnone : ∀ k ∈ chain, ¬ h.Binds k name) :
    h.lookup? name h.scopes.size i = none := by
  rw [hchain.lookup?_eq name hchain.length_le,List.findSome?_eq_none_iff]
  intro k hk
  rw [find?_of_not_binds (hnone k hk)]
  rfl

/-! ### The distance -/

theorem outward_ok (hchain : h.ScopeChain i chain) {distance left : Nat} (hj : chain[left]? = some j) :
    h.outward distance left i = .ok j := by
  induction hchain generalizing left with
  | last =>
    cases left with
    | zero => exact congrArg Except.ok (Option.some.inj hj)
    | succ left => simp at hj
  | link _ he _ ih =>
    cases left with
    | zero => exact congrArg Except.ok (Option.some.inj hj)
    | succ left =>
      simp only [outward,he]
      exact ih hj

theorem outward_error (hchain : h.ScopeChain i chain) {distance left : Nat} (hleft : left ≤ distance)
    (hlong : chain.length ≤ left) :
    h.outward distance left i = .error (.chainEnded (distance - left + (chain.length - 1)) distance) := by
  induction hchain generalizing left with
  | last _ hnone =>
    obtain ⟨left,rfl⟩ := Nat.exists_eq_add_of_le' hlong
    simp [outward,hnone]
  | @link _ _ chain _ he hrest ih =>
    have hpos : 0 < chain.length := by cases hrest <;> exact Nat.succ_pos _
    simp only [List.length_cons] at hlong
    obtain ⟨left,rfl⟩ : ∃ left', left = left' + 1 := ⟨left - 1,by omega⟩
    have hhops : distance - left + (chain.length - 1) = distance - (left + 1) + (chain.length + 1 - 1) := by omega
    simp only [outward,he,List.length_cons,← hhops]
    exact ih (Nat.le_of_succ_le hleft) (Nat.le_of_succ_le_succ hlong)

theorem lookupAt_ok (hchain : h.ScopeChain i chain) (hj : chain[d]? = some j) {v : Value}
    (hv : (h.getScope j).bindings.find? name = some v) : h.lookupAt i d name = .ok (j,v) := by
  have hancestor : h.ancestor i d = .ok j := hchain.outward_ok hj
  simp only [lookupAt,hancestor,hv]

theorem lookupAt_unbound (hchain : h.ScopeChain i chain) (hj : chain[d]? = some j) (hnot : ¬ h.Binds j name) :
    h.lookupAt i d name = .error (.unbound name d) := by
  have hancestor : h.ancestor i d = .ok j := hchain.outward_ok hj
  simp only [lookupAt,hancestor,find?_of_not_binds hnot]

theorem lookupAt_beyond (hchain : h.ScopeChain i chain) (hd : chain.length ≤ d) (name : String) :
    h.lookupAt i d name = .error (.chainEnded (chain.length - 1) d) := by
  have hancestor := hchain.outward_error (Nat.le_refl d) hd
  rw [Nat.sub_self,Nat.zero_add] at hancestor
  simp only [lookupAt,ancestor,hancestor]

end ScopeChain

/-! ### Reading and writing -/

/-- What the search and the distance have in common once they have come to a scope. -/
theorem access_found {old : Value} (hsearch : h.lookup? name h.scopes.size i = some (j,old))
    (hdistance : h.lookupAt i d name = .ok (j,old)) (v : Value) :
    h.get? i name = some old ∧ h.getAt i d name = .ok old ∧
      h.assign? i name v = some (h.define j name v) ∧ h.assignAt i d name v = .ok (h.define j name v) := by
  simp only [get?,getAt,assign?,holder?,assignAt,holderAt,hsearch,hdistance]
  exact ⟨rfl,rfl,rfl,rfl⟩

theorem access_missing (hsearch : h.lookup? name h.scopes.size i = none) (v : Value) :
    h.get? i name = none ∧ h.assign? i name v = none := by
  simp only [get?,assign?,holder?,hsearch]
  exact ⟨rfl,rfl⟩

theorem access_error {fault : InternalFault} (hdistance : h.lookupAt i d name = .error fault) (v : Value) :
    h.getAt i d name = .error fault ∧ h.assignAt i d name v = .error fault := by
  simp only [getAt,assignAt,holderAt,hdistance]
  exact ⟨rfl,rfl⟩

end Heap

section Machine

open Eval

variable {m : Machine} {id : ExprId} {name : Token}

/-- An occurrence that no distance is known for is sought outward from the global scope. -/
theorem access_undefined (hid : m.distances.find? id = none) (hget : m.heap.get? Heap.globals name.lexeme = none)
    (v : Value) : lookUp id name m = runtime (.undefinedVariable name.lexeme) name m ∧
      assign id name v m = runtime (.undefinedVariable name.lexeme) name m := by
  have hread := lookUp_eq id name m
  have htarget := target_eq id name m
  have hholder : m.heap.holder? Heap.globals name.lexeme = none := by
    simpa [Heap.holder?,Heap.get?] using hget
  simp only [hid,hget] at hread
  simp only [hid,hholder] at htarget
  exact ⟨hread,assign_raise htarget v⟩

theorem access_misplaced {d : Nat} {fault : InternalFault} (hid : m.distances.find? id = some d)
    (hget : m.heap.getAt m.scope d name.lexeme = .error fault) (v : Value) :
    lookUp id name m = raise (.internal fault) m ∧ assign id name v m = raise (.internal fault) m := by
  have hread := lookUp_eq id name m
  have htarget := target_eq id name m
  simp only [hid,hget] at hread
  simp only [hid,Heap.holderAt_error hget] at htarget
  exact ⟨hread,assign_raise htarget v⟩

/-- A search for a name ends in the nearest scope that binds it, and its distance leads there too: reading gives the
same value, and writing changes that one binding and nothing else. Where no scope binds the name the search fails, and
a distance fails that leads beyond the last scope or to a scope without the name. Whatever fails changes nothing; the
error is noted in the log. -/
theorem access_agrees (m : Machine) {i : ScopeId} {chain : List ScopeId} (hchain : m.heap.ScopeChain i chain)
    (name : Token) (v : Value) :
    (∀ nearer j further old, chain = nearer ++ j :: further → (∀ k ∈ nearer, ¬ m.heap.Binds k name.lexeme) →
      (m.heap.getScope j).bindings.find? name.lexeme = some old →
      m.heap.get? i name.lexeme = some old ∧ m.heap.getAt i nearer.length name.lexeme = .ok old ∧
        ∃ h', m.heap.assign? i name.lexeme v = some h' ∧ m.heap.assignAt i nearer.length name.lexeme v = .ok h' ∧
          m.heap.Rebinds j name.lexeme v h') ∧
    ((∀ k ∈ chain, ¬ m.heap.Binds k name.lexeme) →
      m.heap.get? i name.lexeme = none ∧ m.heap.assign? i name.lexeme v = none ∧
        ∀ id, m.distances.find? id = none → i = Heap.globals →
          let e := Error.runtime (.undefinedVariable name.lexeme) name.line
          lookUp id name m = .error (.error e) (m.note (.errorCreated e)) ∧
            assign id name v m = .error (.error e) (m.note (.errorCreated e))) ∧
    ∀ d, (∀ j ∈ chain[d]?, ¬ m.heap.Binds j name.lexeme) →
      ∃ fault, m.heap.getAt i d name.lexeme = .error fault ∧ m.heap.assignAt i d name.lexeme v = .error fault ∧
        fault = (if d < chain.length then .unbound name.lexeme d else .chainEnded (chain.length - 1) d) ∧
        ∀ id, m.distances.find? id = some d → i = m.scope →
          let e := Error.internal fault
          lookUp id name m = .error (.error e) (m.note (.errorCreated e)) ∧
            assign id name v m = .error (.error e) (m.note (.errorCreated e)) := by
  refine ⟨?found,?missing,?misplaced⟩
  case found =>
    rintro nearer j further old rfl hnearer hold
    have hj : (nearer ++ j :: further)[nearer.length]? = some j := by simp
    obtain ⟨hget,hgetAt,hassign,hassignAt⟩ :=
      Heap.access_found (hchain.lookup?_nearest hnearer hold) (hchain.lookupAt_ok hj hold) v
    exact ⟨hget,hgetAt,_,hassign,hassignAt,Heap.rebinds_define (hchain.inRange (by simp)) name.lexeme v⟩
  case missing =>
    intro hnone
    obtain ⟨hget,hassign⟩ := Heap.access_missing (hchain.lookup?_none hnone) v
    refine ⟨hget,hassign,fun id hid hi => ?_⟩
    exact access_undefined hid (hi ▸ hget) v
  case misplaced =>
    intro d hnone
    have hdistance : m.heap.lookupAt i d name.lexeme =
        .error (if d < chain.length then .unbound name.lexeme d else .chainEnded (chain.length - 1) d) := by
      split
      next hd =>
        have hj := List.getElem?_eq_getElem hd
        exact hchain.lookupAt_unbound hj (hnone _ hj)
      next hd => exact hchain.lookupAt_beyond (Nat.le_of_not_lt hd) name.lexeme
    obtain ⟨hgetAt,hassignAt⟩ := Heap.access_error hdistance v
    refine ⟨_,hgetAt,hassignAt,rfl,fun id hid hi => ?_⟩
    exact access_misplaced hid (hi ▸ hgetAt) v

/-- Three scopes, of which the two outer ones have a variable `a`: the middle one is read and written, one step outward,
while no step outward and three of them fail. -/
theorem access_agrees_shadowed :
    let h : Heap := ⟨#[⟨.ofList [("a",.boolean true)],none⟩,⟨.ofList [("a",.boolean false)],some ⟨0⟩⟩,⟨∅,some ⟨1⟩⟩],
      #[],#[],#[]⟩
    h.ScopeChain ⟨2⟩ [⟨2⟩,⟨1⟩,⟨0⟩] ∧
      (h.get? ⟨2⟩ "a" = some (.boolean false) ∧ h.getAt ⟨2⟩ 1 "a" = .ok (.boolean false) ∧
        ∃ h', h.assign? ⟨2⟩ "a" .nil = some h' ∧ h.assignAt ⟨2⟩ 1 "a" .nil = .ok h' ∧ h.Rebinds ⟨1⟩ "a" .nil h') ∧
      (h.get? ⟨2⟩ "b" = none ∧ h.assign? ⟨2⟩ "b" .nil = none) ∧
      h.getAt ⟨2⟩ 0 "a" = .error (.unbound "a" 0) ∧ h.getAt ⟨2⟩ 3 "a" = .error (.chainEnded 2 3) := by
  intro h
  have hchain : h.ScopeChain ⟨2⟩ [⟨2⟩,⟨1⟩,⟨0⟩] :=
    .link (by decide) rfl (.link (by decide) rfl (.last (by decide) rfl))
  let m : Machine := { Machine.initial .unlimited (.startingAt 0) with heap := h }
  let name (text : String) : Token := ⟨.identifier,text,1⟩
  have hinner : ∀ k ∈ [⟨2⟩], ¬ h.Binds k "a" := by unfold Heap.Binds; decide
  have habsent : ∀ k ∈ [⟨2⟩,⟨1⟩,⟨0⟩], ¬ h.Binds k "b" := by unfold Heap.Binds; decide
  obtain ⟨hfound,-,hmisplaced⟩ := access_agrees m hchain (name "a") .nil
  obtain ⟨-,hmissing,-⟩ := access_agrees m hchain (name "b") .nil
  obtain ⟨_,hhere,-,rfl,-⟩ := hmisplaced 0 fun j hj => hinner j (by simpa [eq_comm] using hj)
  obtain ⟨_,hbeyond,-,rfl,-⟩ := hmisplaced 3 fun j hj => by cases hj
  obtain ⟨hget,hassign,-⟩ := hmissing habsent
  exact ⟨hchain,hfound [⟨2⟩] ⟨1⟩ [⟨0⟩] _ rfl hinner rfl,⟨hget,hassign⟩,hhere,hbeyond⟩

end Machine
end Lox
