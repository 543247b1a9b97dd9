import TapeLang.Traversal
import TapeLang.Proofs.NodeTable
import TapeLang.Proofs.Semantics

/-!
A run over the node table of a program and a run of the program itself go in step: the numbers on
the stack of the one stand for the code on the stack of the other. So the run over the table never
comes to a node that it cannot execute, and it ends as the execution of the program does. A failed
read or write leaves the tape as the instructions before it left it and is not followed by a
flush; all else ends with one flush.
-/
namespace TapeLang

namespace Tree

/-- The frames of a run over `t` stand for the code still to do and the loops around it. -/
inductive Follows (t : Tree) : List Frame → Program → List OpenLoop → Prop
  | top {n : Node} {next : Nat} {code : Program} (hn : t.node? 0 = some n)
      (hkind : n.kind = .root) (hcode : t.Shows (n.children.toList.drop next) code.instrs) :
      Follows t [⟨0, next⟩] code []
  | inside {id next : Nat} {n : Node} {outer : List Frame} {code body rest : Program}
      {loops : List OpenLoop} (hn : t.node? id = some n) (hkind : n.kind = .loop)
      (hcode : t.Shows (n.children.toList.drop next) code.instrs)
      (hbody : t.Shows n.children.toList body.instrs) (hrest : Follows t outer rest loops) :
      Follows t (⟨id, next⟩ :: outer) code (⟨body, rest⟩ :: loops)

/-- The two runs have come equally far. -/
inductive InStep (t : Tree) : Progress → Outcome → Prop
  | running {frames : List Frame} {code : Program} {loops : List OpenLoop} {m : Machine}
      {steps : Nat} (h : t.Follows frames code loops) :
      InStep t (.running ⟨frames, m, steps⟩) (.running ⟨code, loops, m, steps⟩)
  | finished (m : Machine) (steps : Nat) : InStep t (.finished m steps) (.finished m steps)
  | failed (e : RuntimeError) (m : Machine) : InStep t (.failed e m) (.failed e m)

namespace InStep

variable {t : Tree} {x : Progress} {y : Outcome}

theorem finished_iff (h : t.InStep x y) {m : Machine} {n : Nat} :
    x = .finished m n ↔ y = .finished m n := by
  cases h <;> simp

theorem failed_iff (h : t.InStep x y) {e : RuntimeError} {m : Machine} :
    x = .failed e m ↔ y = .failed e m := by
  cases h <;> simp

theorem machine_eq (h : t.InStep x y) : x.machine = y.machine := by
  cases h <;> rfl

theorem isOver (h : t.InStep x y) (hx : ∀ r, x ≠ .running r) : y.Over := by
  cases h with
  | running hfollows => exact absurd rfl (hx _)
  | finished m n => exact trivial
  | failed e m => exact trivial

theorem ne_misplaced (h : t.InStep x y) {m : Machine} : x ≠ .misplaced m := by
  cases h <;> simp

end InStep

theorem getElem?_of_drop_eq_nil {l : List Nat} {i : Nat} (h : l.drop i = []) : l[i]? = none := by
  have hlen := List.drop_eq_nil_iff.mp h
  exact List.getElem?_eq_none hlen

theorem getElem?_of_drop_eq_cons {l : List Nat} {i a : Nat} {r : List Nat}
    (h : l.drop i = a :: r) : l[i]? = some a ∧ l.drop (i + 1) = r := by
  constructor
  · have hget := congrArg (·[0]?) h
    simpa using hget
  · have htail := congrArg List.tail h
    simpa using htail

namespace Traversal

/-- What a step does with the next instruction of the innermost container, whichever kind of
container that is. -/
theorem step_of_shows {t : Tree} {id next : Nat} {n : Node} {outer : List Frame} {m : Machine}
    {steps : Nat} {code : Program} {loops : List OpenLoop} (hn : t.node? id = some n)
    (hcode : t.Shows (n.children.toList.drop next) code.instrs) (hne : code ≠ .nil)
    (hfollow : ∀ next' code', t.Shows (n.children.toList.drop next') code'.instrs →
      t.Follows (⟨id, next'⟩ :: outer) code' loops) :
    t.InStep (step t ⟨⟨id, next⟩ :: outer, m, steps⟩) (Run.step ⟨code, loops, m, steps⟩) := by
  cases code with
  | nil => exact absurd rfl hne
  | op o pos rest =>
    generalize hdrop : n.children.toList.drop next = ids at hcode
    cases hcode with
    | @op child c _ ids is hc hkind hleaf hrest =>
      obtain ⟨hget, hdrop'⟩ := getElem?_of_drop_eq_cons hdrop
      rw [Array.getElem?_toList] at hget
      rw [← hdrop'] at hrest
      simp only [step, hn, hget, reach, hc, Option.map_some, hkind, Run.step]
      cases m.perform o with
      | ok u m₁ => exact .running (hfollow _ _ hrest)
      | error e m₁ => exact .failed e m₁
  | loop pos body rest =>
    generalize hdrop : n.children.toList.drop next = ids at hcode
    cases hcode with
    | @loop child c ids _ is hc hkind hbody hrest =>
      obtain ⟨hget, hdrop'⟩ := getElem?_of_drop_eq_cons hdrop
      rw [Array.getElem?_toList] at hget
      rw [← hdrop'] at hrest
      simp only [step, hn, hget, reach, hc, Option.map_some, hkind, Run.step]
      by_cases hz : m.tape.current = 0
      · simp only [if_pos hz]
        exact .running (hfollow _ _ hrest)
      · simp only [if_neg hz]
        exact .running (.inside hc hkind hbody hbody (hfollow _ _ hrest))

theorem step_inStep {t : Tree} {frames : List Frame} {code : Program} {loops : List OpenLoop}
    (m : Machine) (steps : Nat) (h : t.Follows frames code loops) :
    t.InStep (step t ⟨frames, m, steps⟩) (Run.step ⟨code, loops, m, steps⟩) := by
  by_cases hnil : code = .nil
  · subst hnil
    cases h with
    | @top n next _ hn hkind hcode =>
      generalize hdrop : n.children.toList.drop next = ids at hcode
      cases hcode with
      | nil =>
        have hget := getElem?_of_drop_eq_nil hdrop
        rw [Array.getElem?_toList] at hget
        simp only [step, hn, hget, hkind, leave, Run.step, reduceCtorEq, false_and, if_false]
        cases hflush : m.sink.flush with
        | mk result sink =>
          cases result with
          | ok u => exact .finished _ _
          | error e => exact .failed _ _
    | @inside id next n outer _ body rest loops hn hkind hcode hbody hrest =>
      generalize hdrop : n.children.toList.drop next = ids at hcode
      cases hcode with
      | nil =>
        have hget := getElem?_of_drop_eq_nil hdrop
        rw [Array.getElem?_toList] at hget
        by_cases hz : m.tape.current = 0
        · simp only [step, hn, hget, hkind, hz, ne_eq, not_true_eq_false, and_false, if_false,
            Run.step, if_true]
          cases hrest with
          | top hn' hkind' hcode' => exact .running (.top hn' hkind' hcode')
          | inside hn' hkind' hcode' hbody' hrest' =>
            exact .running (.inside hn' hkind' hcode' hbody' hrest')
        · simp only [step, hn, hget, hkind, hz, ne_eq, not_false_eq_true, and_self, if_true,
            Run.step, if_false]
          exact .running (.inside hn hkind hbody hbody hrest)
  · cases h with
    | top hn hkind hcode =>
      exact step_of_shows hn hcode hnil fun _ _ hshows => .top hn hkind hshows
    | inside hn hkind hcode hbody hrest =>
      exact step_of_shows hn hcode hnil fun _ _ hshows => .inside hn hkind hshows hbody hrest

theorem proceed_inStep {t : Tree} {frames : List Frame} {code : Program} {loops : List OpenLoop}
    (m : Machine) (steps fuel : Nat) (h : t.Follows frames code loops) :
    t.InStep (proceed t ⟨frames, m, steps⟩ fuel) (Run.proceed ⟨code, loops, m, steps⟩ fuel) := by
  induction fuel generalizing frames code loops m steps with
  | zero => exact .running h
  | succ fuel ih =>
    have hstep := step_inStep m steps h
    rw [proceed, Run.proceed]
    generalize step t ⟨frames, m, steps⟩ = progress at hstep
    generalize Run.step ⟨code, loops, m, steps⟩ = outcome at hstep
    cases hstep with
    | running hfollows => exact ih _ _ hfollows
    | finished m' n' => exact .finished m' n'
    | failed e m' => exact .failed e m'

end Traversal

end Tree

namespace Program

theorem run_tree_inStep (p : Program) (m : Machine) (fuel : Nat) :
    p.tree.InStep (p.tree.run fuel m) (Machine.run fuel p m) := by
  have hshows := p.shows_tree
  rw [Tree.children, p.node?_root] at hshows
  exact Tree.Traversal.proceed_inStep m 0 fuel (.top p.node?_root rfl hshows)

/-- On streams that cannot fail a run over the table that is over has finished. -/
theorem run_tree_over {p : Program} {m : Machine} {fuel : Nat} (hm : m.Untroubled)
    (hover : ∀ r, p.tree.run fuel m ≠ .running r) :
    ∃ m' n, Executes p m (.completes m') ∧ p.tree.run fuel m = .finished m'.flushed n := by
  have hstep := p.run_tree_inStep m fuel
  obtain ⟨m', n, hx, heq⟩ := hm.run_over (hstep.isOver hover)
  exact ⟨m', n, hx, hstep.finished_iff.mpr heq⟩

theorem run_tree_of_completes {p : Program} {m m' : Machine} (hm : m.Untroubled)
    (hx : Executes p m (.completes m')) :
    ∃ fuel n, p.tree.run fuel m = .finished m'.flushed n := by
  obtain ⟨fuel, n, heq⟩ := hm.run_of_completes hx
  exact ⟨fuel, n, (p.run_tree_inStep m fuel).finished_iff.mpr heq⟩

/-- Run over its node table, a program never comes to a node that is no instruction, and it ends
as the recursion over the program says. It finishes after one flush when the program completes and
the flush succeeds. It fails either at an instruction that is refused, with the tape as it was
before that instruction, with nothing read or written after the attempt and without a flush; or
because the one flush at the end fails, with the final tape. -/
theorem run_tree_agrees_with_execution (p : Program) (m : Machine) :
    (∀ fuel m', p.tree.run fuel m ≠ .misplaced m') ∧
    (∀ fuel m' n, p.tree.run fuel m = .finished m' n ↔ Machine.run fuel p m = .finished m' n) ∧
    (∀ fuel e m', p.tree.run fuel m = .failed e m' ↔ Machine.run fuel p m = .failed e m') ∧
    (∀ m', (∃ fuel n, p.tree.run fuel m = .finished m' n) ↔
      ∃ m₁, Executes p m (.completes m₁) ∧ m₁.sink.flush = (.ok (), m'.sink) ∧
        m' = { m₁ with sink := m'.sink } ∧ m'.sink.flushes = m.sink.flushes + 1) ∧
    (∀ e m', (∃ fuel, p.tree.run fuel m = .failed e m') ↔
      (∃ o m₁, Executes p m (.stopsAt o m₁) ∧ Refusal o m₁ e m' ∧ m'.tape = m₁.tape ∧
        m'.sink.flushes = m.sink.flushes) ∨
      ∃ m₁ cause, Executes p m (.completes m₁) ∧ m₁.sink.flush = (.error cause, m'.sink) ∧
        e = .write cause ∧ m' = { m₁ with sink := m'.sink } ∧
        m'.sink.flushes = m.sink.flushes + 1) := by
  have hstep := p.run_tree_inStep m
  refine ⟨fun fuel m' => (hstep fuel).ne_misplaced, fun fuel m' n => (hstep fuel).finished_iff,
    fun fuel e m' => (hstep fuel).failed_iff, ?_, ?_⟩
  · intro m'
    simp only [(hstep _).finished_iff, Machine.run_finished_iff]
    constructor
    · rintro ⟨m₁, hx, hflush, rfl⟩
      exact ⟨m₁, hx, m₁.flush_of_none hflush, rfl, congrArg (· + 1) hx.flushes⟩
    · rintro ⟨m₁, hx, hflush, hm', -⟩
      obtain ⟨hnone, hsink⟩ := m₁.flush_eq_ok hflush
      exact ⟨m₁, hx, hnone, by rw [hm', hsink]; rfl⟩
  · intro e m'
    simp only [(hstep _).failed_iff, Machine.run_failed_iff]
    constructor
    · rintro (⟨o, m₁, hx, hr⟩ | ⟨m₁, message, hx, hflush, rfl, rfl⟩)
      · exact Or.inl ⟨o, m₁, hx, hr, hr.tape, hr.flushes.trans hx.flushes⟩
      · exact Or.inr ⟨m₁, .refused message, hx, m₁.flush_of_some hflush, rfl, rfl,
          congrArg (· + 1) hx.flushes⟩
    · rintro (⟨o, m₁, hx, hr, -, -⟩ | ⟨m₁, cause, hx, hflush, rfl, hm', -⟩)
      · exact Or.inl ⟨o, m₁, hx, hr⟩
      · obtain ⟨message, hsome, rfl, hsink⟩ := m₁.flush_eq_error hflush
        exact Or.inr ⟨m₁, message, hx, hsome, rfl, by rw [hm', hsink]; rfl⟩

end Program

end TapeLang
