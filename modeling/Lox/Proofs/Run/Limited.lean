import Lox.Proofs.Run.Plain
import Lox.Proofs.Run.Restored

/-! A run whose output accepts only so many bytes, beside the same run with an output that accepts them all:
both do the same up to the print statement at which the limit is reached. -/
namespace Lox

/-! ### Writing -/

namespace Output

variable {o : Output} {k : Nat} {text : String}

theorem write_unlimited (h : o.limit = none) (text : String) :
    o.write text = (.ok (),{ o with written := o.written ++ text.toUTF8 }) := by
  simp only [write,h]

theorem write_fits (h : o.limit = some k) (hfits : o.written.size + text.toUTF8.size ≤ k) :
    o.write text = (.ok (),{ o with written := o.written ++ text.toUTF8 }) := by
  have hroom : text.toUTF8.size ≤ k - o.written.size := by omega
  simp only [write,h]
  rw [if_pos hroom]

theorem write_exceeds (h : o.limit = some k) (hexceeds : k < o.written.size + text.toUTF8.size)
    (hle : o.written.size ≤ k) : o.write text =
      (.error .limitReached,{ o with written := (o.written ++ text.toUTF8).extract 0 k }) := by
  have hroom : ¬text.toUTF8.size ≤ k - o.written.size := by omega
  have hwritten : o.written.extract 0 k = o.written := by
    have hself := ByteArray.extract_zero_max_size (a := o.written) (i := k)
    rwa [Nat.max_eq_left hle] at hself
  simp only [write,h]
  rw [if_neg hroom,ByteArray.extract_append,hwritten,Nat.zero_sub]

end Output

theorem Eval.print_ok {m : Machine} {text : String} {o : Output} (h : m.output.write (text ++ "\n") = (.ok (),o)) :
    Eval.print text m = .ok () { m with output := o } := by
  simp only [Eval.print,h]

theorem Eval.print_error {m : Machine} {text : String} {fault : OutputFault} {o : Output}
    (h : m.output.write (text ++ "\n") = (.error fault,o)) :
    Eval.print text m = .error (.error (.output fault)) { m with output := o } := by
  simp only [Eval.print,h]

/-! ### Limits -/

namespace Machine

/-- The machine with an output that accepts so many bytes in all, and with another clock. -/
def limited (m : Machine) (k : Nat) (c : Clock) : Machine := m.amid { m.output with limit := some k } c

/-- What a print statement writes. -/
def line (m : Machine) (v : Value) : String := m.heap.display v ++ "\n"

/-- The limited machine when a value has been printed of which not all was accepted. -/
def severed (m : Machine) (k : Nat) (c : Clock) (v : Value) : Machine :=
  { m.limited k c with output := ((m.limited k c).output.write (m.line v)).2 }

end Machine

/-- In the course of the run a value is to be printed, with which more is written than is accepted. -/
structure Crossing (r : Run) (k : Nat) (m : Machine) (v : Value) : Prop where
  visited : ∃ n e m₀, Visits r (.stmt (n + 1) (.print e)) m₀ ∧ evaluate n e m₀ = .ok v m
  before : m.output.written.size ≤ k
  behind : k < (m.output.written ++ (m.line v).toUTF8).size

def Eval.limited {α : Type} (k : Nat) (c : Clock) :
    EStateM.Result Halt Machine α → EStateM.Result Halt Machine α
  | .ok a m => .ok a (m.limited k c)
  | .error halt m => .error halt (m.limited k c)

/-- With a limit on what is written, a computation does the same as without one, or it stops at the print
statement that exceeds the limit. -/
structure Eval.Truncates {α : Type} (r : Run) (x : Eval α) (m : Machine) : Prop where
  appends : ∃ bytes, (x.after m).output.written = m.output.written ++ bytes
  same : ∀ k c, (x.after m).output.written.size ≤ k → x (m.limited k c) = Eval.limited k c (x m)
  severs : ∀ k c, m.output.written.size ≤ k → k < (x.after m).output.written.size →
    ∃ m' v bytes, Crossing r k m' v ∧
      (x.after m).output.written = m'.output.written ++ (m'.line v).toUTF8 ++ bytes ∧
      x (m.limited k c) = .error (.error (.output .limitReached))
        { m'.severed k c v with scope := m.scope, depth := m.depth }

variable {α β : Type} {r : Run} {x y : Eval α} {f : α → Eval β} {m m₁ : Machine}

namespace Eval.Truncates

open Eval

/-- What does not look at the output leaves it as it is. -/
theorem of_amid (hamid : ∀ o c, x (m.amid o c) = Eval.amid o c (x m)) : Truncates r x m := by
  have houtput : (x.after m).output = m.output := by
    have hself := hamid m.output m.clock
    rw [Machine.amid_self] at hself
    rw [Eval.after,hself]
    cases x m <;> rfl
  refine ⟨⟨.empty,by rw [houtput,ByteArray.append_empty]⟩,fun k c _ => ?_,fun k c hle hlt => ?_⟩
  · have hout : (Eval.after x m).output = m.output := houtput
    rw [Machine.limited,hamid]
    rw [Eval.after] at hout
    cases hx : x m with
    | ok a m₁ =>
      rw [hx] at hout
      simp only [Eval.amid,Eval.limited,Machine.limited,← show m₁.output = m.output from hout]
    | error halt m₁ =>
      rw [hx] at hout
      simp only [Eval.amid,Eval.limited,Machine.limited,← show m₁.output = m.output from hout]
  · rw [houtput] at hlt
    exact absurd hlt (Nat.not_lt.mpr hle)

theorem of_plain (hplain : x.Plain) : Truncates r x m := of_amid (hplain.amid m)

theorem pure (a : α) : Truncates r (pure a) m := of_plain (.pure a)

theorem exhausted : Truncates r (exhausted : Eval α) m := of_amid fun _ _ => rfl

/-- Steps that print nothing come first. -/
theorem after (h : Truncates r y m₁) (hx : x m = y m₁)
    (hlimited : ∀ k c, x (m.limited k c) = y (m₁.limited k c))
    (houtput : m₁.output = m.output) (hscope : m₁.scope = m.scope) (hdepth : m₁.depth = m.depth) :
    Truncates r x m := by
  have hafter : x.after m = y.after m₁ := by rw [Eval.after,Eval.after,hx]
  obtain ⟨bytes,happends⟩ := h.appends
  refine ⟨⟨bytes,by rw [hafter,happends,houtput]⟩,fun k c hle => ?_,fun k c hle hlt => ?_⟩
  · rw [hlimited,hx]
    exact h.same k c (hafter ▸ hle)
  · obtain ⟨m',v,bytes,hcrossing,hwritten,hsevered⟩ := h.severs k c (houtput ▸ hle) (hafter ▸ hlt)
    rw [hscope,hdepth] at hsevered
    exact ⟨m',v,bytes,hcrossing,hafter ▸ hwritten,(hlimited k c).trans hsevered⟩

theorem bind (hm : m.output.limit = none) (hx : Truncates r x m) (hrestores : x.Restores)
    (hf : ∀ a m₁, x m = .ok a m₁ → m₁.output.limit = none → Truncates r (f a) m₁) : Truncates r (x >>= f) m := by
  cases hxm : x m with
  | error halt m₁ =>
    have hbind : (x >>= f) m = .error halt m₁ := by simp only [Bind.bind,EStateM.bind,hxm]
    have hafter : (x >>= f).after m = x.after m := by rw [Eval.after,Eval.after,hbind,hxm]
    refine ⟨hafter ▸ hx.appends,fun k c hle => ?_,fun k c hle hlt => ?_⟩
    · have hsame := hx.same k c (hafter ▸ hle)
      rw [hxm] at hsame
      rw [hbind]
      simp only [Bind.bind,EStateM.bind,hsame,Eval.limited]
    · obtain ⟨m',v,bytes,hcrossing,hwritten,hsevered⟩ := hx.severs k c hle (hafter ▸ hlt)
      exact ⟨m',v,bytes,hcrossing,hafter ▸ hwritten,by simp only [Bind.bind,EStateM.bind,hsevered]⟩
  | ok a m₁ =>
    have hfirst : x.after m = m₁ := by rw [Eval.after,hxm]
    have hresumes := hfirst ▸ hrestores m
    have hsecond := hf a m₁ hxm (hresumes.limit.trans hm)
    have hbind : (x >>= f) m = f a m₁ := by simp only [Bind.bind,EStateM.bind,hxm]
    have hafter : (x >>= f).after m = (f a).after m₁ := by rw [Eval.after,Eval.after,hbind]
    obtain ⟨bytes,happends⟩ := hfirst ▸ hx.appends
    obtain ⟨bytes',happends'⟩ := hsecond.appends
    have hlimited (k : Nat) (c : Clock) (hle : m₁.output.written.size ≤ k) :
        (x >>= f) (m.limited k c) = f a (m₁.limited k c) := by
      have hsame := hx.same k c (hfirst ▸ hle)
      rw [hxm] at hsame
      simp only [Bind.bind,EStateM.bind,hsame,Eval.limited]
    refine ⟨⟨bytes ++ bytes',by rw [hafter,happends',happends,ByteArray.append_assoc]⟩,fun k c hle => ?_,
      fun k c hle hlt => ?_⟩
    · rw [hafter] at hle
      have hle₁ : m₁.output.written.size ≤ k := by
        rw [happends',ByteArray.size_append] at hle
        omega
      rw [hlimited k c hle₁,hbind]
      exact hsecond.same k c hle
    · rcases Nat.lt_or_ge k m₁.output.written.size with hlt₁ | hle₁
      · obtain ⟨m',v,rest,hcrossing,hwritten,hsevered⟩ := hx.severs k c hle (hfirst ▸ hlt₁)
        rw [hfirst] at hwritten
        refine ⟨m',v,rest ++ bytes',hcrossing,?_,by simp only [Bind.bind,EStateM.bind,hsevered]⟩
        rw [hafter,happends',hwritten,ByteArray.append_assoc]
      · obtain ⟨m',v,rest,hcrossing,hwritten,hsevered⟩ := hsecond.severs k c hle₁ (hafter ▸ hlt)
        rw [hresumes.scope,hresumes.depth] at hsevered
        exact ⟨m',v,rest,hcrossing,hafter ▸ hwritten,(hlimited k c hle₁).trans hsevered⟩

theorem ite {p : Prop} [Decidable p] (hx : p → Truncates r x m) (hy : ¬p → Truncates r y m) :
    Truncates r (if p then x else y) m := by
  split
  next hp => exact hx hp
  next hp => exact hy hp

theorem inScope {i : ScopeId} (h : Truncates r x { m with scope := i }) : Truncates r (inScope i x) m := by
  have hafter := after_inScope i x m
  have hlimited (k : Nat) (c : Clock) :
      (Machine.limited { m with scope := i } k c) = { m.limited k c with scope := i } := rfl
  obtain ⟨bytes,happends⟩ := h.appends
  refine ⟨⟨bytes,by rw [hafter]; exact happends⟩,fun k c hle => ?_,fun k c hle hlt => ?_⟩
  · rw [hafter] at hle
    have hsame := h.same k c hle
    rw [hlimited] at hsame
    simp only [Eval.inScope,hsame]
    cases x { m with scope := i } <;> rfl
  · rw [hafter] at hlt
    obtain ⟨m',v,bytes,hcrossing,hwritten,hsevered⟩ := h.severs k c hle hlt
    rw [hlimited] at hsevered
    refine ⟨m',v,bytes,hcrossing,by rw [hafter]; exact hwritten,?_⟩
    simp only [Eval.inScope,hsevered]
    rfl

theorem inNew {s : Scope} (h : Truncates r x (m.inNew s)) : Truncates r (inNew s x) m := by
  have hinside : Truncates r (Eval.inScope (m.heap.addScope s).1 x) { m with heap := (m.heap.addScope s).2 } :=
    inScope h
  exact hinside.after rfl (fun _ _ => rfl) rfl rfl rfl

theorem nested (h : Truncates r x m.deeper) : Truncates r (nested x) m := by
  have hafter := after_nested x m
  have hlimited (k : Nat) (c : Clock) : m.deeper.limited k c = (m.limited k c).deeper := rfl
  obtain ⟨bytes,happends⟩ := h.appends
  refine ⟨⟨bytes,by rw [hafter]; exact happends⟩,fun k c hle => ?_,fun k c hle hlt => ?_⟩
  · rw [hafter] at hle
    have hsame := h.same k c hle
    rw [hlimited] at hsame
    cases hx : x m.deeper with
    | ok | error =>
      rw [hx] at hsame
      simp only [Machine.deeper] at hx hsame
      simp only [Eval.nested,hx,hsame]
      rfl
  · rw [hafter] at hlt
    obtain ⟨m',v,bytes,hcrossing,hwritten,hsevered⟩ := h.severs k c hle hlt
    rw [hlimited] at hsevered
    simp only [Machine.deeper] at hsevered
    refine ⟨m',v,bytes,hcrossing,by rw [hafter]; exact hwritten,?_⟩
    simp only [Eval.nested,hsevered]
    rfl

/-! ### Printing -/

theorem print (hm : m.output.limit = none) {v : Value}
    (hvisited : ∃ n e m₀, Visits r (.stmt (n + 1) (.print e)) m₀ ∧ evaluate n e m₀ = .ok v m) :
    Truncates r (Eval.print (m.heap.display v)) m := by
  have hwrite := Output.write_unlimited hm (m.line v)
  have hprint := print_ok hwrite
  have hafter : ((Eval.print (m.heap.display v)).after m).output.written =
      m.output.written ++ (m.line v).toUTF8 := by
    rw [Eval.after,hprint]
  refine ⟨⟨_,hafter⟩,fun k c hle => ?_,fun k c hle hlt => ?_⟩
  · rw [hafter,ByteArray.size_append] at hle
    have hfits : (m.limited k c).output.write (m.line v) = _ := Output.write_fits rfl hle
    rw [hprint,print_ok hfits]
    rfl
  · have hbehind := hlt
    rw [hafter] at hbehind
    have hexceeds : (m.limited k c).output.write (m.line v) = _ :=
      Output.write_exceeds rfl (by rwa [ByteArray.size_append] at hbehind) hle
    refine ⟨m,v,.empty,⟨hvisited,hle,hbehind⟩,by rw [hafter,ByteArray.append_empty],?_⟩
    rw [print_error hexceeds,Machine.severed,hexceeds]
    rfl

end Eval.Truncates

end Lox
