import Lox.Proofs.Run.Lasting
import Lox.Proofs.Session.Super

/-! What a heap has at some moment of a run, it has as long as the session lasts, and all classes are those of class
declarations that the runs have come to. -/
namespace Lox

open Eval

variable {runs : List Run} {programs : List (List Stmt)} {s s' : Session} {r : Run} {w : Work} {m : Machine}
  {program : List Stmt} {budget : Nat}

/-- The classes of a session and of its runs were made for declarations, and what the runs have left is still there. -/
structure Session.Lasting (runs : List Run) (s : Session) : Prop where
  built : s.machine.heap.Built runs
  started : ∀ r ∈ runs, r.machine.heap.Built runs
  kept : ∀ r ∈ runs, r.left.heap.Kept s.machine.heap

namespace Session.Lasting

theorem of_heap (h : s.Lasting runs) (hheap : s'.machine.heap = s.machine.heap) : s'.Lasting runs :=
  ⟨hheap ▸ h.built,h.started,hheap ▸ h.kept⟩

theorem execute (h : s.Lasting runs) (budget : Nat) (program : List Stmt) :
    (s.execute budget program).2.Lasting (s.starts budget program ++ runs) := by
  rw [Session.execute_machine,Session.starts]
  by_cases hempty : (s.machine.resolve program).1.isEmpty
  · rw [if_pos hempty,if_pos hempty]
    let r : Run := ⟨budget,program,(s.machine.resolve program).2.note (.interpreting program.length)⟩
    have hruns : runs ⊆ [r] ++ runs := List.subset_append_right [r] runs
    have hstarted : r.machine.heap.Built ([r] ++ runs) := h.built.mono hruns
    have hevolves : r.machine.heap.Evolves r r.left.heap := (Visits.start (r := r)).evolves
    have hleft : ((s.machine.resolve program).2.interpret budget program).2.heap = r.left.heap :=
      Machine.interpret_heap _ budget program
    refine ⟨hleft ▸ hevolves.built List.mem_cons_self hstarted,fun q hq => ?_,fun q hq => hleft ▸ ?_⟩
    · rcases List.mem_cons.mp hq with rfl | hq
      · exact hstarted
      · exact (h.started q hq).mono hruns
    · rcases List.mem_cons.mp hq with rfl | hq
      · exact .refl _
      · exact (h.kept q hq).trans hevolves.kept
  · rw [if_neg hempty,if_neg hempty]
    exact h.of_heap rfl

end Session.Lasting

namespace Reached

theorem lasting (h : Reached runs programs s) : s.Lasting runs := by
  induction h with
  | new => exact ⟨fun c hc => absurd hc (Nat.not_lt_zero _),by simp,by simp⟩
  | parsed _ hs ih => exact ih.of_heap (Session.parse_parses hs).heap
  | rejected _ hs ih => exact ih.of_heap (Session.parse_parses hs).heap
  | executed budget _ _ ih => exact ih.execute budget _
  | @run _ _ s source _ _ budget _ hs ih =>
    rw [Session.run_ok hs]
    exact (ih.of_heap ((s.announce_parses source).trans (Session.parse_parses hs)).heap).execute budget _
  | @run_rejected _ _ s source _ _ budget _ hs ih =>
    rw [Session.run_error hs]
    exact ih.of_heap ((s.announce_parses source).trans (Session.parse_parses hs)).heap

/-- From the end of any work to the present. -/
theorem kept_after (h : Reached runs programs s) (hr : r ∈ runs) (hv : Visits r w m) :
    (w.after m).heap.Kept s.machine.heap :=
  hv.evolves_until.kept.trans (h.lasting.kept r hr)

/-- From the start of any work to the present. -/
theorem kept (h : Reached runs programs s) (hr : r ∈ runs) (hv : Visits r w m) : m.heap.Kept s.machine.heap :=
  hv.evolves.kept.trans (h.kept_after hr hv)

theorem built (h : Reached runs programs s) (hr : r ∈ runs) (hv : Visits r w m) : m.heap.Built runs :=
  hv.evolves_since.built hr (h.lasting.started r hr)

end Reached

end Lox
