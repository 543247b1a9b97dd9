import TapeLang.Proofs.Reading
import TapeLang.Proofs.Unplaced

/-!
Programs one after the other. Two accepted sources make an accepted source when they are put
together, and to run it is to run the first of them and then, on the machine that this leaves, the
second. In between the output is flushed once more, of which no instruction takes note.
-/
namespace TapeLang

/-- How an execution that has ended so far is continued by a program: one that has stopped is not
continued at all. -/
def Continues (q : Program) : Ending → Ending → Prop
  | .completes m, x => Executes q m x
  | .stopsAt o m, x => x = .stopsAt o m

namespace Executes

theorem append {p q : Program} {m : Machine} {x y : Ending} (h : Executes p m y)
    (hc : Continues q y x) : Executes (p ++ q) m x := by
  induction h with
  | nil => exact hc
  | op he _ ih => exact .op he (ih hc)
  | stop hr =>
    obtain rfl := hc
    exact .stop hr
  | loopDone hz _ ih => exact .loopDone hz (ih hc)
  | loopTurn hnz hbody _ _ ihagain => exact .loopTurn hnz hbody (ihagain hc)
  | loopStop hnz hbody _ =>
    obtain rfl := hc
    exact .loopStop hnz hbody

theorem continues_nil {q : Program} {m : Machine} {x : Ending} (h : Executes q m x) :
    ∃ y, Executes .nil m y ∧ Continues q y x := ⟨_, .nil, h⟩

/-- An execution of two programs in a row passes the end of the first, unless it stops before. The
induction is on the execution, since a loop at the front comes again after each of its turns. -/
theorem of_append {p q r : Program} {m : Machine} {x : Ending} (h : Executes r m x)
    (hr : p ++ q = r) : ∃ y, Executes p m y ∧ Continues q y x := by
  induction h generalizing p with
  | nil =>
    cases p with
    | nil =>
      obtain rfl : q = _ := hr
      exact continues_nil .nil
    | op => cases hr
    | loop => cases hr
  | op he hrest ih =>
    cases p with
    | nil =>
      obtain rfl : q = _ := hr
      exact continues_nil (.op he hrest)
    | op o pos p =>
      cases hr
      obtain ⟨y, hp, hc⟩ := ih rfl
      exact ⟨y, .op he hp, hc⟩
    | loop => cases hr
  | stop hrefusal =>
    cases p with
    | nil =>
      obtain rfl : q = _ := hr
      exact continues_nil (.stop hrefusal)
    | op o pos p =>
      cases hr
      exact ⟨_, .stop hrefusal, rfl⟩
    | loop => cases hr
  | loopDone hz hrest ih =>
    cases p with
    | nil =>
      obtain rfl : q = _ := hr
      exact continues_nil (.loopDone hz hrest)
    | op => cases hr
    | loop pos body p =>
      cases hr
      obtain ⟨y, hp, hc⟩ := ih rfl
      exact ⟨y, .loopDone hz hp, hc⟩
  | loopTurn hnz hbody hagain _ ihagain =>
    cases p with
    | nil =>
      obtain rfl : q = _ := hr
      exact continues_nil (.loopTurn hnz hbody hagain)
    | op => cases hr
    | loop pos body p =>
      cases hr
      obtain ⟨y, hp, hc⟩ := ihagain (p := .loop _ _ p) rfl
      exact ⟨y, .loopTurn hnz hbody hp, hc⟩
  | loopStop hnz hbody _ =>
    cases p with
    | nil =>
      obtain rfl : q = _ := hr
      exact continues_nil (.loopStop hnz hbody)
    | op => cases hr
    | loop pos body p =>
      cases hr
      exact ⟨_, .loopStop hnz hbody, rfl⟩

end Executes

/-- The machine with another count of flushes. -/
def Machine.setFlushes (k : Nat) (m : Machine) : Machine :=
  { m with sink := { m.sink with flushes := k } }

def Ending.setFlushes (k : Nat) : Ending → Ending
  | completes m => .completes (m.setFlushes k)
  | stopsAt o m => .stopsAt o (m.setFlushes k)

section Flushes

variable {o : Op} {p : Program} {m m' : Machine} {e : RuntimeError} {x : Ending} (k : Nat)

theorem Effect.setFlushes (h : Effect o m m') :
    Effect o (m.setFlushes k) (m'.setFlushes k) := by
  cases h with
  | increment ht => exact .increment (m := m.setFlushes k) ht
  | decrement ht => exact .decrement (m := m.setFlushes k) ht
  | moveLeft ht => exact .moveLeft (m := m.setFlushes k) ht
  | moveRight ht => exact .moveRight (m := m.setFlushes k) ht
  | output hroom => exact .output (m := m.setFlushes k) hroom
  | input hy ht => exact .input (m := m.setFlushes k) hy ht
  | inputAtEnd hy hvalue ht => exact .inputAtEnd (m := m.setFlushes k) hy hvalue ht

theorem Refusal.setFlushes (h : Refusal o m e m') :
    Refusal o (m.setFlushes k) e (m'.setFlushes k) := by
  cases h with
  | output hfull => exact .output (m := m.setFlushes k) hfull
  | input hy => exact .input (m := m.setFlushes k) hy

/-- No instruction takes note of how often the output has been flushed. -/
theorem Executes.setFlushes (h : Executes p m x) :
    Executes p (m.setFlushes k) (x.setFlushes k) := by
  induction h with
  | nil => exact .nil
  | op he _ ih => exact .op (he.setFlushes k) ih
  | stop hr => exact .stop (hr.setFlushes k)
  | loopDone hz _ ih => exact .loopDone hz ih
  | loopTurn hnz _ _ ihbody ihagain => exact .loopTurn hnz ihbody ihagain
  | loopStop hnz _ ihbody => exact .loopStop hnz ihbody

theorem Effect.flushFailure (h : Effect o m m') :
    m'.sink.flushFailure = m.sink.flushFailure := by
  cases h <;> rfl

theorem Executes.flushFailure (h : Executes p m x) :
    x.machine.sink.flushFailure = m.sink.flushFailure := by
  induction h with
  | nil => rfl
  | op he _ ih => exact ih.trans he.flushFailure
  | stop => rfl
  | loopDone _ _ ih => exact ih
  | loopTurn _ _ _ ihbody ihagain => exact ihagain.trans ihbody
  | loopStop _ _ ihbody => exact ihbody

end Flushes

/-- The result of a run that follows an execution to its end, and the machine that it leaves, where
flushing succeeds. -/
inductive Leaves : Ending → Except RuntimeError Unit → Machine → Prop
  | completes (m : Machine) : Leaves (.completes m) (.ok ()) m.flushed
  | stopsAt {o : Op} {m m' : Machine} {e : RuntimeError} (h : Refusal o m e m') :
      Leaves (.stopsAt o m) (.error e) m'

namespace Leaves

theorem unique {x : Ending} {r r' : Except RuntimeError Unit} {m m' : Machine}
    (h : Leaves x r m) (h' : Leaves x r' m') : r = r' ∧ m = m' := by
  cases h with
  | completes =>
    cases h'
    exact ⟨rfl, rfl⟩
  | stopsAt hr =>
    cases h' with
    | stopsAt hr' =>
      have heq := (Machine.perform_eq_error.mpr hr).symm.trans (Machine.perform_eq_error.mpr hr')
      cases heq
      exact ⟨rfl, rfl⟩

theorem setFlushes {x : Ending} {r : Except RuntimeError Unit} {m : Machine} (h : Leaves x r m)
    (k : Nat) : ∃ k', Leaves (x.setFlushes k) r (m.setFlushes k') := by
  cases h with
  | completes m => exact ⟨k + 1, .completes (m.setFlushes k)⟩
  | stopsAt hr => exact ⟨k, .stopsAt (hr.setFlushes k)⟩

end Leaves

namespace Tree

/-- The result of a run that is over. -/
def Progress.result? : Progress → Option (Except RuntimeError Unit)
  | running _ => none
  | finished _ _ => some (.ok ())
  | failed e _ => some (.error e)
  | misplaced _ => none

/-- Run one table and, if it finishes, another one on the machine that the first has left, each for
at most the given number of moves. -/
def runInTurn (fuel fuel' : Nat) (t t' : Tree) (m : Machine) : Progress :=
  match t.run fuel m with
  | .finished m₁ _ => t'.run fuel' m₁
  | progress => progress

/-- Some run over the table is over with this result and leaves this machine. -/
def RunsTo (t : Tree) (m : Machine) (r : Except RuntimeError Unit) (m' : Machine) : Prop :=
  ∃ fuel, (t.run fuel m).result? = some r ∧ (t.run fuel m).machine = m'

theorem Progress.eq_of_result?_ok {x : Progress} (h : x.result? = some (.ok ())) :
    ∃ n, x = .finished x.machine n := by
  cases x with
  | running r => cases h
  | finished m n => exact ⟨n, rfl⟩
  | failed e m => cases h
  | misplaced m => cases h

theorem Progress.eq_of_result?_error {x : Progress} {e : RuntimeError}
    (h : x.result? = some (.error e)) : x = .failed e x.machine := by
  cases x with
  | running r => cases h
  | finished m n => cases h
  | failed e' m =>
    cases h
    rfl
  | misplaced m => cases h

/-- What two runs in turn come to, in terms of the single runs. -/
theorem runInTurn_iff {t t' : Tree} {m m' : Machine} {r : Except RuntimeError Unit} :
    (∃ fuel fuel', (runInTurn fuel fuel' t t' m).result? = some r ∧
      (runInTurn fuel fuel' t t' m).machine = m') ↔
      (∃ m₁, t.RunsTo m (.ok ()) m₁ ∧ t'.RunsTo m₁ r m') ∨
      ∃ e, r = .error e ∧ t.RunsTo m (.error e) m' := by
  constructor
  · rintro ⟨fuel, fuel', hresult, hmachine⟩
    cases hrun : t.run fuel m with
    | running r₁ =>
      rw [runInTurn, hrun] at hresult
      cases hresult
    | misplaced m₁ =>
      rw [runInTurn, hrun] at hresult
      cases hresult
    | finished m₁ n =>
      simp only [runInTurn, hrun] at hresult hmachine
      exact Or.inl ⟨m₁, ⟨fuel, by rw [hrun]; rfl, by rw [hrun]; rfl⟩, fuel', hresult, hmachine⟩
    | failed e m₁ =>
      simp only [runInTurn, hrun] at hresult hmachine
      refine Or.inr ⟨e, (Option.some.inj hresult).symm, fuel, ?_, ?_⟩
      · rw [hrun]
        rfl
      · rw [hrun]
        exact hmachine
  · rintro (⟨m₁, ⟨fuel, hok, rfl⟩, fuel', hresult, hmachine⟩ | ⟨e, rfl, fuel, herror, rfl⟩)
    · obtain ⟨n, hrun⟩ := Progress.eq_of_result?_ok hok
      refine ⟨fuel, fuel', ?_⟩
      rw [runInTurn, hrun]
      exact ⟨hresult, hmachine⟩
    · have hrun := Progress.eq_of_result?_error herror
      refine ⟨fuel, 0, ?_⟩
      rw [runInTurn, hrun]
      exact ⟨rfl, rfl⟩

end Tree

namespace Program

/-- Runs over the table of a program are over exactly if the program's execution ends. -/
theorem runsTo_iff {p : Program} {m m' : Machine} {r : Except RuntimeError Unit}
    (hflush : m.sink.flushFailure = none) :
    p.tree.RunsTo m r m' ↔ ∃ x, Executes p m x ∧ Leaves x r m' := by
  have hstep := p.run_tree_inStep m
  have hconclude {m₁ : Machine} (hx : Executes p m (.completes m₁)) (n : Nat) :
      m₁.conclude n = .finished m₁.flushed n := by
    have hnone : m₁.sink.flushFailure = none := hx.flushFailure.trans hflush
    rw [Machine.conclude, hnone]
  constructor
  · rintro ⟨fuel, hresult, rfl⟩
    have hover : (Machine.run fuel p m).Over := by
      refine (hstep fuel).isOver fun r₁ hrunning => ?_
      rw [hrunning] at hresult
      cases hresult
    rcases Machine.executes_of_run hover with ⟨m₁, n, hx, heq⟩ | ⟨o, m₁, e, m₂, hx, hr, heq⟩
    · rw [hconclude hx] at heq
      rw [(hstep fuel).finished_iff.mpr heq] at hresult ⊢
      cases hresult
      exact ⟨_, hx, .completes m₁⟩
    · rw [(hstep fuel).failed_iff.mpr heq] at hresult ⊢
      cases hresult
      exact ⟨_, hx, .stopsAt hr⟩
  · rintro ⟨x, hx, hleaves⟩
    cases hleaves with
    | completes m₁ =>
      obtain ⟨fuel, n, heq⟩ := Machine.run_of_completes hx
      rw [hconclude hx] at heq
      have hrun := (hstep fuel).finished_iff.mpr heq
      exact ⟨fuel, by rw [hrun]; rfl, by rw [hrun]; rfl⟩
    | stopsAt hr =>
      obtain ⟨fuel, heq⟩ := Machine.run_of_stopsAt hx hr
      have hrun := (hstep fuel).failed_iff.mpr heq
      exact ⟨fuel, by rw [hrun]; rfl, by rw [hrun]; rfl⟩

/-- Two programs run in turn come to what their concatenation comes to, up to the count of flushes,
which is one higher if both are run to their ends. -/
theorem exists_runsTo_append {p q : Program} {m m' : Machine} {r : Except RuntimeError Unit}
    (hflush : m.sink.flushFailure = none)
    (h : ∃ fuel fuel', (Tree.runInTurn fuel fuel' p.tree q.tree m).result? = some r ∧
      (Tree.runInTurn fuel fuel' p.tree q.tree m).machine = m') :
    ∃ k, (p ++ q).tree.RunsTo m r (m'.setFlushes k) := by
  rcases Tree.runInTurn_iff.mp h with ⟨m₁, hp, hq⟩ | ⟨e, rfl, hp⟩
  · obtain ⟨x, hx, hleaves⟩ := (runsTo_iff hflush).mp hp
    cases hleaves with
    | completes m₁ =>
      have hflush₁ : m₁.flushed.sink.flushFailure = none := hx.flushFailure.trans hflush
      obtain ⟨y, hy, hleaves⟩ := (runsTo_iff hflush₁).mp hq
      have hy' : Executes q m₁ (y.setFlushes m₁.sink.flushes) := hy.setFlushes m₁.sink.flushes
      obtain ⟨k, hleaves'⟩ := hleaves.setFlushes m₁.sink.flushes
      exact ⟨k, (runsTo_iff hflush).mpr ⟨_, hx.append hy', hleaves'⟩⟩
  · obtain ⟨x, hx, hleaves⟩ := (runsTo_iff hflush).mp hp
    cases hleaves with
    | stopsAt hr =>
      exact ⟨m'.sink.flushes, (runsTo_iff hflush).mpr ⟨_, hx.append rfl, .stopsAt hr⟩⟩

theorem exists_runInTurn_of_append {p q : Program} {m m' : Machine}
    {r : Except RuntimeError Unit} (hflush : m.sink.flushFailure = none)
    (h : (p ++ q).tree.RunsTo m r m') :
    ∃ fuel fuel', (Tree.runInTurn fuel fuel' p.tree q.tree m).result? = some r := by
  obtain ⟨x, hx, hleaves⟩ := (runsTo_iff hflush).mp h
  obtain ⟨y, hy, hc⟩ := hx.of_append rfl
  cases y with
  | completes m₁ =>
    have hp := (runsTo_iff hflush).mpr ⟨_, hy, .completes m₁⟩
    have hflush₁ : m₁.flushed.sink.flushFailure = none := hy.flushFailure.trans hflush
    have hx' : Executes q m₁.flushed (x.setFlushes m₁.flushed.sink.flushes) :=
      Executes.setFlushes m₁.flushed.sink.flushes hc
    obtain ⟨k, hleaves'⟩ := hleaves.setFlushes m₁.flushed.sink.flushes
    have hq := (runsTo_iff hflush₁).mpr ⟨_, hx', hleaves'⟩
    obtain ⟨fuel, fuel', hresult, -⟩ := Tree.runInTurn_iff.mpr (Or.inl ⟨_, hp, hq⟩)
    exact ⟨fuel, fuel', hresult⟩
  | stopsAt o m₁ =>
    obtain rfl : x = .stopsAt o m₁ := hc
    cases hleaves with
    | stopsAt hr =>
      have hp := (runsTo_iff hflush).mpr ⟨_, hy, .stopsAt hr⟩
      obtain ⟨fuel, fuel', hresult, -⟩ := Tree.runInTurn_iff.mpr (Or.inr ⟨_, rfl, hp⟩)
      exact ⟨fuel, fuel', hresult⟩

theorem runsTo_unique {p : Program} {m m₁ m₂ : Machine} {r₁ r₂ : Except RuntimeError Unit}
    (hflush : m.sink.flushFailure = none) (h₁ : p.tree.RunsTo m r₁ m₁)
    (h₂ : p.tree.RunsTo m r₂ m₂) : r₁ = r₂ ∧ m₁ = m₂ := by
  obtain ⟨x, hx, hleaves⟩ := (runsTo_iff hflush).mp h₁
  obtain ⟨x', hx', hleaves'⟩ := (runsTo_iff hflush).mp h₂
  obtain rfl := hx.unique hx'
  exact hleaves.unique hleaves'

end Program

namespace Source

/-- Accepted sources put together are accepted, and but for places the program is the one program
after the other. -/
theorem program_append {a b : Source} {p q : Program} (ha : a.program = .ok p)
    (hb : b.program = .ok q) (hspans : Position.start.Spans (a ++ b)) :
    ∃ r, (a ++ b).program = .ok r ∧ r.unplaced = (p ++ q).unplaced := by
  have hsymbols : (a ++ b).symbols = (p ++ q).symbols := by
    rw [Program.symbols_append, symbols_of_program ha, symbols_of_program hb]
    exact List.filterMap_append
  have hcloses : Grammar.Closes 0 (a ++ b).symbols := by
    have hend := (p ++ q).closes_symbols_append 0 []
    rw [List.append_nil] at hend
    rw [hsymbols]
    exact hend.mpr rfl
  have hr := program_of_closes hspans hcloses
  refine ⟨_, hr, Program.unplaced_eq_of_symbols_eq ?_⟩
  rw [symbols_of_program hr, hsymbols]

/-- Two accepted sources run in turn on one machine halt exactly if their concatenation does, with
the same result, and then they leave the same cells and head, the same bytes written and the same
input to be read. -/
theorem run_in_turn_agrees_with_concatenation {a b : Source} {p q : Program}
    (ha : a.program = .ok p) (hb : b.program = .ok q)
    (hspans : Position.start.Spans (a ++ b)) :
    ∃ r, (a ++ b).program = .ok r ∧ ∀ m : Machine, m.sink.flushFailure = none →
      ((∃ fuel fuel', (Tree.runInTurn fuel fuel' p.tree q.tree m).result? ≠ none) ↔
        ∃ fuel, (r.tree.run fuel m).result? ≠ none) ∧
      ∀ fuel fuel' fuel'', let x := Tree.runInTurn fuel fuel' p.tree q.tree m
        let y := r.tree.run fuel'' m
        x.result? ≠ none → y.result? ≠ none →
          x.result? = y.result? ∧ x.machine.tape = y.machine.tape ∧
            x.machine.sink.accepted = y.machine.sink.accepted ∧
            x.machine.feed = y.machine.feed := by
  obtain ⟨r, hr, hunplaced⟩ := program_append ha hb hspans
  refine ⟨r, hr, fun m hflush => ?_⟩
  have hrun (fuel : Nat) : r.tree.run fuel m = (p ++ q).tree.run fuel m :=
    Program.run_tree_eq_of_unplaced_eq hunplaced fuel m
  simp only [hrun, Option.ne_none_iff_exists']
  refine ⟨⟨?_, ?_⟩, ?_⟩
  · rintro ⟨fuel, fuel', result, hresult⟩
    obtain ⟨k, fuel₁, hresult₁, -⟩ :=
      Program.exists_runsTo_append hflush ⟨fuel, fuel', hresult, rfl⟩
    exact ⟨fuel₁, result, hresult₁⟩
  · rintro ⟨fuel, result, hresult⟩
    obtain ⟨fuel₁, fuel₁', hresult₁⟩ :=
      Program.exists_runInTurn_of_append hflush ⟨fuel, hresult, rfl⟩
    exact ⟨fuel₁, fuel₁', result, hresult₁⟩
  · rintro fuel fuel' fuel'' ⟨result, hresult⟩ ⟨result', hresult'⟩
    obtain ⟨k, hturn⟩ := Program.exists_runsTo_append hflush ⟨fuel, fuel', hresult, rfl⟩
    obtain ⟨heq, hmachine⟩ := Program.runsTo_unique hflush hturn ⟨fuel'', hresult', rfl⟩
    rw [← hmachine, hresult, hresult', heq]
    exact ⟨rfl, rfl, rfl, rfl⟩

/-- A byte is echoed by the first source, and the second meets a failing read: the concatenation has
written the byte and fails in the same way. -/
theorem concatenation_of_echo_and_failing_read :
    ∃ p q, Source.program [44, 46] = .ok p ∧ Source.program [44] = .ok q ∧
      Position.start.Spans ([44, 46] ++ [44]) ∧
      ∃ r, Source.program [44, 46, 44] = .ok r ∧
        ∃ fuel, let y := r.tree.run fuel { feed := [.byte 7, .failure "gone"] }
          y.result? = some (.error (.read "gone")) ∧ y.machine.sink.accepted = #[7] := by
  let p : Program := .op .input ⟨1, 1, 0⟩ (.op .output ⟨1, 2, 1⟩ .nil)
  let q : Program := .op .input ⟨1, 1, 0⟩ .nil
  let m : Machine := { feed := [.byte 7, .failure "gone"] }
  let m₁ : Machine := { m with tape := m.tape.setCurrent 7, feed := [.failure "gone"] }
  let m₂ : Machine := { m₁ with sink := m₁.sink.take [m₁.tape.current] }
  have hp : Source.program [44, 46] = .ok p := rfl
  have hq : Source.program [44] = .ok q := rfl
  have hspans : Position.start.Spans ([44, 46] ++ [44]) := Position.spans_start (by decide)
  have hread : Effect .input m m₁ := Machine.perform_eq_ok.mp rfl
  have hfails : Refusal .input m₂.flushed (.read "gone") { m₂.flushed with feed := [] } :=
    Machine.perform_eq_error.mp rfl
  have hfirst : p.tree.RunsTo m (.ok ()) m₂.flushed :=
    (Program.runsTo_iff rfl).mpr ⟨_, .op hread (.op (.output nofun) .nil), .completes m₂⟩
  have hsecond : q.tree.RunsTo m₂.flushed (.error (.read "gone")) _ :=
    (Program.runsTo_iff rfl).mpr ⟨_, .stop hfails, .stopsAt hfails⟩
  obtain ⟨k, k', hturn, hmachine⟩ := Tree.runInTurn_iff.mpr (Or.inl ⟨_, hfirst, hsecond⟩)
  obtain ⟨r, hr, hruns⟩ := run_in_turn_agrees_with_concatenation hp hq hspans
  obtain ⟨hhalts, hsame⟩ := hruns m rfl
  have hover : (Tree.runInTurn k k' p.tree q.tree m).result? ≠ none := by
    rw [hturn]
    nofun
  obtain ⟨fuel, hfuel⟩ := hhalts.mp ⟨k, k', hover⟩
  obtain ⟨hresult, -, haccepted, -⟩ := hsame k k' fuel hover hfuel
  have hbyte : m₁.tape.current = 7 := Tape.current_setCurrent _ _
  refine ⟨p, q, hp, hq, hspans, r, hr, fuel, hresult.symm.trans hturn, haccepted.symm.trans ?_⟩
  rw [hmachine]
  show #[m₁.tape.current] = #[7]
  rw [hbyte]

end Source

end TapeLang
