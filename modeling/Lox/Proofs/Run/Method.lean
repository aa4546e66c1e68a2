import Lox.Proofs.Run.Lasting

/-! The methods that classes have by their declarations: under each name, the last method that is declared in the body of
the nearest class upward. -/
namespace Lox

namespace Bindings

variable {α : Type}

/-- Of several pairs with one name, the last one counts. -/
theorem find?_ofList (pairs : List (String × α)) (name : String) :
    (ofList pairs).find? name = (pairs.reverse.find? (·.1 == name)).map Prod.snd := by
  have hfold (b : Bindings α) : (pairs.foldl (fun b p => b.insert p.1 p.2) b).find? name =
      ((pairs.reverse.find? (·.1 == name)).map Prod.snd).or (b.find? name) := by
    induction pairs generalizing b with
    | nil => rfl
    | cons p pairs ih =>
      rw [List.foldl_cons,ih,find?_insert,List.reverse_cons,List.find?_append]
      cases pairs.reverse.find? (·.1 == name) with
      | some q => rfl
      | none =>
        by_cases hp : name = p.1
        · simp [hp]
        · simp [hp,Ne.symm hp]
  exact (hfold empty).trans (by simp)

end Bindings

/-- The last one of the declarations that have this name. -/
def lastNamed (name : String) (ds : List FunctionDecl) : Option FunctionDecl :=
  ds.reverse.find? (·.name.lexeme == name)

namespace Heap

/-- The method that a class has under this name by the class declarations: the last one in the body of the nearest class
upward that declares one, or none if no class upward does. -/
inductive Provides (runs : List Run) (h : Heap) (word : String) : ClassId → Option FunctionDecl → Prop
  | own {c name parent ds d} (hc : h.Made runs c name parent ds) (hd : lastNamed word ds = some d) :
    Provides runs h word c (some d)
  | inherited {c name parent ds d?} (hc : h.Made runs c name (some parent) ds) (hnone : lastNamed word ds = none)
    (hd : Provides runs h word parent d?) : Provides runs h word c d?
  | missing {c name ds} (hc : h.Made runs c name none ds) (hnone : lastNamed word ds = none) :
    Provides runs h word c none

variable {runs : List Run} {h : Heap} {c : ClassId} {name : Token} {parent : Option ClassId} {ds : List FunctionDecl}
  {word : String}

/-- The last method that is declared under a name is the one that the class has. -/
theorem Methods.find? {closure : ScopeId} {methods : List (String × FunctionId)} (hmethods : h.Methods closure ds methods)
    (word : String) : Option.Rel
      (fun d f => (h.getFunction f).declaration = d ∧ (h.getFunction f).isInitializer = (word == "init"))
      (lastNamed word ds) ((Bindings.ofList methods).find? word) := by
  rw [Bindings.find?_ofList,lastNamed]
  have hreverse := List.rel_reverse hmethods
  generalize ds.reverse = ds at hreverse
  generalize methods.reverse = methods at hreverse
  induction hreverse with
  | nil => exact .none
  | @cons d p ds methods hp _ ih =>
    obtain ⟨hname,-,hf⟩ := hp
    by_cases hword : d.name.lexeme = word
    · subst hword
      have hsame : (h.getFunction p.2).declaration = d ∧
          (h.getFunction p.2).isInitializer = (d.name.lexeme == "init") := by simp [hf]
      simpa [hname] using Option.Rel.some hsame
    · simpa [hname,hword] using ih

namespace Made

variable (hmade : h.Made runs c name parent ds)
include hmade

theorem superclass : (h.getClass c).superclass = parent := by
  obtain ⟨-,-,-,hclass,-⟩ := hmade
  rw [hclass]

theorem find? (word : String) : Option.Rel
    (fun d f => (h.getFunction f).declaration = d ∧ (h.getFunction f).isInitializer = (word == "init"))
    (lastNamed word ds) ((h.getClass c).methods.find? word) := by
  obtain ⟨-,-,-,hclass,hmethods⟩ := hmade
  rw [hclass]
  exact hmethods.find? word

/-- What is declared under a name is read off the table of the class. -/
theorem lastNamed_eq (word : String) :
    lastNamed word ds = ((h.getClass c).methods.find? word).map fun f => (h.getFunction f).declaration := by
  have hfind := hmade.find? word
  generalize lastNamed word ds = d?, (h.getClass c).methods.find? word = f? at hfind
  cases hfind with
  | some hf => exact congrArg some hf.1.symm
  | none => rfl

end Made

/-- A class has one method at most under a name. -/
theorem Provides.unique {d? e? : Option FunctionDecl} (hd : h.Provides runs word c d?) (he : h.Provides runs word c e?) :
    d? = e? := by
  induction hd with
  | own hc hlast =>
    rw [hc.lastNamed_eq] at hlast
    cases he with
    | own hc' hlast' => exact hlast.symm.trans ((hc'.lastNamed_eq word).symm.trans hlast')
    | inherited hc' hnone | missing hc' hnone =>
      rw [hc'.lastNamed_eq,hlast] at hnone
      cases hnone
  | inherited hc hnone _ ih =>
    rw [hc.lastNamed_eq] at hnone
    cases he with
    | own hc' hlast =>
      rw [hc'.lastNamed_eq,hnone] at hlast
      cases hlast
    | inherited hc' _ he => exact ih (Option.some.inj (hc'.superclass.symm.trans hc.superclass) ▸ he)
    | missing hc' => cases hc'.superclass.symm.trans hc.superclass
  | missing hc hnone =>
    rw [hc.lastNamed_eq] at hnone
    cases he with
    | own hc' hlast =>
      rw [hc'.lastNamed_eq,hnone] at hlast
      cases hlast
    | inherited hc' => cases hc'.superclass.symm.trans hc.superclass
    | missing => rfl

/-- The method that is found in the tables of the classes is the one that the declarations provide. Only under the name
`init` it is an initializer. -/
theorem Inherits.provides {f? : Option FunctionId} (hinherits : h.Inherits word c f?) (hordered : h.Ordered)
    (hbuilt : h.Built runs) (hc : c.index < h.classes.size) :
    h.Provides runs word c (f?.map fun f => (h.getFunction f).declaration) ∧
      ∀ f ∈ f?, (h.getFunction f).isInitializer = (word == "init") := by
  induction hinherits with
  | @own c f hf =>
    obtain ⟨name,parent,ds,hmade⟩ := hbuilt c hc
    have hlast := hmade.lastNamed_eq word
    have hfind := hmade.find? word
    rw [hf] at hlast hfind
    refine ⟨.own hmade hlast,fun g hg => ?_⟩
    obtain rfl : f = g := by simpa using hg
    rw [hlast] at hfind
    obtain ⟨-,hinit⟩ := hfind
    exact hinit
  | @inherited c k f? hnone hparent _ ih =>
    obtain ⟨name,parent,ds,hmade⟩ := hbuilt c hc
    have hlast := hmade.lastNamed_eq word
    rw [hnone] at hlast
    obtain rfl : some k = parent := hparent.symm.trans hmade.superclass
    obtain ⟨hprovides,hinit⟩ := ih (Nat.lt_trans (hordered c k hparent) hc)
    exact ⟨.inherited hmade hlast hprovides,hinit⟩
  | @missing c hnone hparent =>
    obtain ⟨name,parent,ds,hmade⟩ := hbuilt c hc
    have hlast := hmade.lastNamed_eq word
    rw [hnone] at hlast
    obtain rfl : none = parent := hparent.symm.trans hmade.superclass
    exact ⟨.missing hmade hlast,by simp⟩

end Heap

end Lox
