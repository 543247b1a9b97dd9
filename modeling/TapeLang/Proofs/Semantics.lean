import TapeLang.Proofs.Contract

/-!
What a program does, by recursion on it. A loop is its body and then the loop again as long as the
current cell is not zero, which is tested before every turn. An execution completes, or it comes
to an instruction that is refused and goes no further. The run with its stack of open loops ends
exactly when the execution does, and in the same way.
-/
namespace TapeLang

/-- How an execution ends. One that stops at an instruction leaves the machine as it was before
this instruction was tried. -/
inductive Ending where
  | completes (m : Machine)
  | stopsAt (o : Op) (m : Machine)

namespace Ending

def machine : Ending → Machine
  | completes m => m
  | stopsAt _ m => m

end Ending

inductive Executes : Program → Machine → Ending → Prop
  | nil {m : Machine} : Executes .nil m (.completes m)
  | op {o : Op} {pos : Position} {rest : Program} {m m₁ : Machine} {r : Ending}
      (h : Effect o m m₁) (hrest : Executes rest m₁ r) : Executes (.op o pos rest) m r
  | stop {o : Op} {pos : Position} {rest : Program} {m m₁ : Machine} {e : RuntimeError}
      (h : Refusal o m e m₁) : Executes (.op o pos rest) m (.stopsAt o m)
  | loopDone {pos : Position} {body rest : Program} {m : Machine} {r : Ending}
      (h : m.tape.current = 0) (hrest : Executes rest m r) : Executes (.loop pos body rest) m r
  | loopTurn {pos : Position} {body rest : Program} {m m₁ : Machine} {r : Ending}
      (h : m.tape.current ≠ 0) (hbody : Executes body m (.completes m₁))
      (hagain : Executes (.loop pos body rest) m₁ r) : Executes (.loop pos body rest) m r
  | loopStop {pos : Position} {body rest : Program} {m m₁ : Machine} {o : Op}
      (h : m.tape.current ≠ 0) (hbody : Executes body m (.stopsAt o m₁)) :
      Executes (.loop pos body rest) m (.stopsAt o m₁)

namespace Effect

theorem unique {o : Op} {m m₁ m₂ : Machine} (h₁ : Effect o m m₁) (h₂ : Effect o m m₂) :
    m₁ = m₂ := by
  have heq := (Machine.perform_eq_ok.mpr h₁).symm.trans (Machine.perform_eq_ok.mpr h₂)
  cases heq
  rfl

theorem not_refusal {o : Op} {m m₁ m₂ : Machine} {e : RuntimeError} (h : Effect o m m₁) :
    ¬ Refusal o m e m₂ := by
  intro hr
  have heq := (Machine.perform_eq_ok.mpr h).symm.trans (Machine.perform_eq_error.mpr hr)
  cases heq

theorem flushes {o : Op} {m m₁ : Machine} (h : Effect o m m₁) :
    m₁.sink.flushes = m.sink.flushes := by
  cases h <;> rfl

end Effect

theorem Refusal.flushes {o : Op} {m m₁ : Machine} {e : RuntimeError} (h : Refusal o m e m₁) :
    m₁.sink.flushes = m.sink.flushes := by
  cases h <;> rfl

theorem Refusal.tape {o : Op} {m m₁ : Machine} {e : RuntimeError} (h : Refusal o m e m₁) :
    m₁.tape = m.tape := by
  cases h <;> rfl

namespace Executes

theorem unique {p : Program} {m : Machine} {r r' : Ending} (h : Executes p m r)
    (h' : Executes p m r') : r = r' := by
  induction h generalizing r' with
  | nil => cases h'; rfl
  | op he hrest ih =>
    cases h' with
    | op he' hrest' =>
      obtain rfl := he.unique he'
      exact ih hrest'
    | stop hr => exact absurd hr he.not_refusal
  | stop hr =>
    cases h' with
    | op he' hrest' => exact absurd hr he'.not_refusal
    | stop hr' => rfl
  | loopDone hz hrest ih =>
    cases h' with
    | loopDone hz' hrest' => exact ih hrest'
    | loopTurn hnz hbody hagain => exact absurd hz hnz
    | loopStop hnz hbody => exact absurd hz hnz
  | loopTurn hnz hbody hagain ihbody ihagain =>
    cases h' with
    | loopDone hz hrest => exact absurd hz hnz
    | loopTurn hnz' hbody' hagain' =>
      cases ihbody hbody'
      exact ihagain hagain'
    | loopStop hnz' hbody' => cases ihbody hbody'
  | loopStop hnz hbody ihbody =>
    cases h' with
    | loopDone hz hrest => exact absurd hz hnz
    | loopTurn hnz' hbody' hagain' => cases ihbody hbody'
    | loopStop hnz' hbody' => exact ihbody hbody'

theorem flushes {p : Program} {m : Machine} {r : Ending} (h : Executes p m r) :
    r.machine.sink.flushes = m.sink.flushes := by
  induction h with
  | nil => rfl
  | op he hrest ih => exact ih.trans he.flushes
  | stop hr => rfl
  | loopDone hz hrest ih => exact ih
  | loopTurn hnz hbody hagain ihbody ihagain => exact ihagain.trans ihbody
  | loopStop hnz hbody ihbody => exact ihbody

end Executes

namespace Run

/-- One run comes to another after some moves. -/
inductive Leads : Run → Run → Prop
  | refl (r : Run) : Leads r r
  | move {r r₁ r₂ : Run} (h : r.step = .running r₁) (hrest : Leads r₁ r₂) : Leads r r₂

theorem Leads.trans {r r₁ r₂ : Run} (h : r.Leads r₁) (h' : r₁.Leads r₂) : r.Leads r₂ := by
  induction h with
  | refl r => exact h'
  | move hstep _ ih => exact .move hstep (ih h')

/-- Where a run leads, short of itself, depends on its next move only. -/
theorem Leads.of_step_eq {r r' x : Run} (hstep : r.step = r'.step) (hne : r' ≠ x)
    (h : r'.Leads x) : r.Leads x := by
  cases h with
  | refl => exact absurd rfl hne
  | move hmove hrest => exact .move (hstep.trans hmove) hrest

theorem Leads.proceed {r r' : Run} (h : r.Leads r') :
    ∃ k, ∀ fuel, r.proceed (k + fuel) = r'.proceed fuel := by
  induction h with
  | refl r => exact ⟨0, fun fuel => by rw [Nat.zero_add]⟩
  | move hstep _ ih =>
    obtain ⟨k, hk⟩ := ih
    refine ⟨k + 1, fun fuel => ?_⟩
    rw [Nat.add_right_comm, Run.proceed, hstep]
    exact hk fuel

theorem step_op_ok {o : Op} {pos : Position} {rest : Program} {loops : List OpenLoop}
    {m m₁ : Machine} {n : Nat} (h : Effect o m m₁) :
    (⟨.op o pos rest, loops, m, n⟩ : Run).step = .running ⟨rest, loops, m₁, n + 1⟩ := by
  simp only [step, Machine.perform_eq_ok.mpr h]

theorem step_op_error {o : Op} {pos : Position} {rest : Program} {loops : List OpenLoop}
    {m m₁ : Machine} {n : Nat} {e : RuntimeError} (h : Refusal o m e m₁) :
    (⟨.op o pos rest, loops, m, n⟩ : Run).step = .failed e m₁ := by
  simp only [step, Machine.perform_eq_error.mpr h]

theorem step_loop_zero {pos : Position} {body rest : Program} {loops : List OpenLoop}
    {m : Machine} {n : Nat} (h : m.tape.current = 0) :
    (⟨.loop pos body rest, loops, m, n⟩ : Run).step = .running ⟨rest, loops, m, n + 1⟩ := by
  simp only [step, if_pos h]

theorem step_loop_nonzero {pos : Position} {body rest : Program} {loops : List OpenLoop}
    {m : Machine} {n : Nat} (h : m.tape.current ≠ 0) :
    (⟨.loop pos body rest, loops, m, n⟩ : Run).step =
      .running ⟨body, ⟨body, rest⟩ :: loops, m, n + 1⟩ := by
  simp only [step, if_neg h]

/-- At the end of a body the run goes on as if it had just reached the loop. -/
theorem step_resume (pos : Position) (body rest : Program) (loops : List OpenLoop) (m : Machine)
    (n : Nat) :
    (⟨.nil, ⟨body, rest⟩ :: loops, m, n + 1⟩ : Run).step =
      (⟨.loop pos body rest, loops, m, n⟩ : Run).step := rfl

theorem steps_le_of_step {r r₁ : Run} (h : r.step = .running r₁) : r.steps ≤ r₁.steps := by
  obtain ⟨code, loops, m, n⟩ := r
  cases code with
  | nil =>
    cases loops with
    | nil =>
      simp only [step] at h
      split at h <;> cases h
    | cons l outer =>
      simp only [step] at h
      split at h <;> cases h <;> exact Nat.le_refl n
  | op o pos rest =>
    simp only [step] at h
    split at h <;> cases h
    exact Nat.le_succ n
  | loop pos body rest =>
    simp only [step] at h
    split at h <;> cases h <;> exact Nat.le_succ n

theorem Leads.steps_le {r r' : Run} (h : r.Leads r') : r.steps ≤ r'.steps := by
  induction h with
  | refl r => exact Nat.le_refl _
  | move hstep _ ih => exact Nat.le_trans (steps_le_of_step hstep) ih

/-- What a run comes to for an ending of its code: the end of this code inside the same loops, or
the instruction at which it stops. -/
def Reaches (r : Run) (loops : List OpenLoop) : Ending → Prop
  | .completes m => ∃ n, r.Leads ⟨.nil, loops, m, n⟩
  | .stopsAt o m => ∃ pos rest inner n, r.Leads ⟨.op o pos rest, inner, m, n⟩

theorem Reaches.of_leads {r r' : Run} {loops : List OpenLoop} {x : Ending} (h : r.Leads r')
    (hx : r'.Reaches loops x) : r.Reaches loops x := by
  cases x with
  | completes m =>
    obtain ⟨n, hl⟩ := hx
    exact ⟨n, h.trans hl⟩
  | stopsAt o m =>
    obtain ⟨pos, rest, inner, n, hl⟩ := hx
    exact ⟨pos, rest, inner, n, h.trans hl⟩

theorem Reaches.of_move {r r' : Run} {loops : List OpenLoop} {x : Ending}
    (h : r.step = .running r') (hx : r'.Reaches loops x) : r.Reaches loops x :=
  hx.of_leads (.move h (.refl r'))

theorem Reaches.resume {pos : Position} {body rest : Program} {loops : List OpenLoop}
    {m : Machine} {n : Nat} {x : Ending}
    (h : (⟨.loop pos body rest, loops, m, n⟩ : Run).Reaches loops x) :
    (⟨.nil, ⟨body, rest⟩ :: loops, m, n + 1⟩ : Run).Reaches loops x := by
  have hstep := step_resume pos body rest loops m n
  cases x with
  | completes m' =>
    obtain ⟨n', hl⟩ := h
    exact ⟨n', hl.of_step_eq hstep (fun heq => by cases heq)⟩
  | stopsAt o m' =>
    obtain ⟨pos', rest', inner, n', hl⟩ := h
    exact ⟨pos', rest', inner, n', hl.of_step_eq hstep (fun heq => by cases heq)⟩

/-- A run follows the execution of its code, whatever loops it is inside of. -/
theorem reaches_of_executes {p : Program} {m : Machine} {x : Ending} (h : Executes p m x)
    (loops : List OpenLoop) (n : Nat) : (⟨p, loops, m, n⟩ : Run).Reaches loops x := by
  induction h generalizing loops n with
  | nil => exact ⟨n, .refl _⟩
  | op he hrest ih => exact (ih loops (n + 1)).of_move (step_op_ok he)
  | stop hr => exact ⟨_, _, loops, n, .refl _⟩
  | loopDone hz hrest ih => exact (ih loops (n + 1)).of_move (step_loop_zero hz)
  | @loopTurn pos body rest m m₁ x hnz hbody hagain ihbody ihagain =>
    obtain ⟨n₂, hl⟩ := ihbody (⟨body, rest⟩ :: loops) (n + 1)
    have hsteps : n + 1 ≤ n₂ := hl.steps_le
    obtain ⟨k, rfl⟩ : ∃ k, n₂ = k + 1 := ⟨n₂ - 1, by omega⟩
    exact ((ihagain loops k).resume.of_leads hl).of_move (step_loop_nonzero hnz)
  | @loopStop pos body rest m m₁ o hnz hbody ihbody =>
    obtain ⟨pos', rest', inner, n₂, hl⟩ := ihbody (⟨body, rest⟩ :: loops) (n + 1)
    exact ⟨pos', rest', inner, n₂, .move (step_loop_nonzero hnz) hl⟩

end Run

namespace Outcome

/-- The run is over. -/
def Over : Outcome → Prop
  | running _ => False
  | finished _ _ => True
  | failed _ _ => True

end Outcome

namespace Run

/-- The outcome `x`, met within `fuel` moves, is accounted for by the execution of `p` inside the
given loops: either `p` completes and `x` is met afterwards, or `x` is the failure at which `p`
stops. -/
def Explains (p : Program) (loops : List OpenLoop) (m : Machine) (n fuel : Nat) (x : Outcome) :
    Prop :=
  (∃ m' n' fuel', Executes p m (.completes m') ∧ fuel' ≤ fuel ∧ n ≤ n' ∧
    x = Run.proceed ⟨.nil, loops, m', n'⟩ fuel') ∨
  (∃ o m₁ e m₂, Executes p m (.stopsAt o m₁) ∧ Refusal o m₁ e m₂ ∧ x = .failed e m₂)

theorem Explains.extend {p q : Program} {loops : List OpenLoop} {m m₁ : Machine}
    {n n₁ fuel fuel₁ : Nat} {x : Outcome} (hx : Explains q loops m₁ n₁ fuel₁ x)
    (hexec : ∀ y, Executes q m₁ y → Executes p m y) (hn : n ≤ n₁) (hfuel : fuel₁ ≤ fuel) :
    Explains p loops m n fuel x := by
  rcases hx with ⟨m', n', fuel', hq, hle, hn', heq⟩ | ⟨o, m₂, e, m₃, hq, hr, heq⟩
  · exact Or.inl ⟨m', n', fuel', hexec _ hq, by omega, by omega, heq⟩
  · exact Or.inr ⟨o, m₂, e, m₃, hexec _ hq, hr, heq⟩

theorem proceed_of_step {r r₁ : Run} (h : r.step = .running r₁) (fuel : Nat) :
    r.proceed (fuel + 1) = r₁.proceed fuel := by
  rw [Run.proceed, h]

theorem proceed_resume (pos : Position) {body rest : Program} {loops : List OpenLoop}
    {m : Machine} {n fuel : Nat}
    (hover : (Run.proceed ⟨.nil, ⟨body, rest⟩ :: loops, m, n + 1⟩ fuel).Over) :
    Run.proceed ⟨.nil, ⟨body, rest⟩ :: loops, m, n + 1⟩ fuel =
      Run.proceed ⟨.loop pos body rest, loops, m, n⟩ fuel := by
  cases fuel with
  | zero => exact absurd hover id
  | succ fuel => rw [Run.proceed, Run.proceed, step_resume pos]

/-- A run that is over has executed its code. The induction is on the fuel, because a loop is met
again with the same code and less of it. -/
theorem explains_of_over (fuel : Nat) (p : Program) (loops : List OpenLoop) (m : Machine)
    (n : Nat) (hover : (Run.proceed ⟨p, loops, m, n⟩ fuel).Over) :
    Explains p loops m n fuel (Run.proceed ⟨p, loops, m, n⟩ fuel) := by
  induction fuel using Nat.strongRecOn generalizing p loops m n with
  | ind fuel ih =>
    cases fuel with
    | zero => exact absurd hover id
    | succ fuel =>
      cases p with
      | nil => exact Or.inl ⟨m, n, fuel + 1, .nil, Nat.le_refl _, Nat.le_refl _, rfl⟩
      | op o pos rest =>
        cases hp : m.perform o with
        | ok u m₁ =>
          have he := Machine.perform_eq_ok.mp hp
          rw [proceed_of_step (step_op_ok he)] at hover ⊢
          exact (ih fuel (by omega) rest loops m₁ (n + 1) hover).extend
            (fun y hy => .op he hy) (by omega) (by omega)
        | error e m₁ =>
          have hr := Machine.perform_eq_error.mp hp
          refine Or.inr ⟨o, m, e, m₁, .stop hr, hr, ?_⟩
          rw [Run.proceed, step_op_error hr]
      | loop pos body rest =>
        by_cases hz : m.tape.current = 0
        · rw [proceed_of_step (step_loop_zero hz)] at hover ⊢
          exact (ih fuel (by omega) rest loops m (n + 1) hover).extend
            (fun y hy => .loopDone hz hy) (by omega) (by omega)
        · rw [proceed_of_step (step_loop_nonzero hz)] at hover ⊢
          rcases ih fuel (by omega) body (⟨body, rest⟩ :: loops) m (n + 1) hover with
            ⟨m₁, n₁, fuel₁, hbody, hle, hn, heq⟩ | ⟨o, m₁, e, m₂, hbody, hr, heq⟩
          · obtain ⟨k, rfl⟩ : ∃ k, n₁ = k + 1 := ⟨n₁ - 1, by omega⟩
            rw [heq] at hover
            have hagain := proceed_resume pos hover
            rw [hagain] at hover
            rw [heq, hagain]
            exact (ih fuel₁ (by omega) (.loop pos body rest) loops m₁ k hover).extend
              (fun y hy => .loopTurn hz hbody hy) (by omega) (by omega)
          · exact Or.inr ⟨o, m₁, e, m₂, .loopStop hz hbody, hr, heq⟩

end Run

namespace Machine

/-- The machine after its output has been flushed. -/
def flushed (m : Machine) : Machine :=
  { m with sink := { m.sink with flushes := m.sink.flushes + 1 } }

/-- The end of a program that has come through. -/
def conclude (m : Machine) (n : Nat) : Outcome :=
  match m.sink.flushFailure with
  | none => .finished m.flushed n
  | some message => .failed (.write (.refused message)) m.flushed

theorem proceed_conclude (m : Machine) (n fuel : Nat) :
    Run.proceed ⟨.nil, [], m, n⟩ (fuel + 1) = m.conclude n := by
  obtain ⟨tape, feed, sink, eof⟩ := m
  cases hf : sink.flushFailure with
  | none => simp only [Run.proceed, Run.step, Sink.flush, conclude, flushed, hf]
  | some message => simp only [Run.proceed, Run.step, Sink.flush, conclude, flushed, hf]

theorem executes_of_run {fuel : Nat} {p : Program} {m : Machine} (hover : (run fuel p m).Over) :
    (∃ m₁ n, Executes p m (.completes m₁) ∧ run fuel p m = m₁.conclude n) ∨
    (∃ o m₁ e m₂, Executes p m (.stopsAt o m₁) ∧ Refusal o m₁ e m₂ ∧
      run fuel p m = .failed e m₂) := by
  rcases Run.explains_of_over fuel p [] m 0 hover with
    ⟨m₁, n, fuel', hx, -, -, heq⟩ | ⟨o, m₁, e, m₂, hx, hr, heq⟩
  · refine Or.inl ⟨m₁, n, hx, ?_⟩
    have heq' : run fuel p m = Run.proceed ⟨.nil, [], m₁, n⟩ fuel' := heq
    cases fuel' with
    | zero =>
      rw [heq'] at hover
      exact absurd hover id
    | succ fuel' => exact heq'.trans (proceed_conclude m₁ n fuel')
  · exact Or.inr ⟨o, m₁, e, m₂, hx, hr, heq⟩

theorem run_of_completes {p : Program} {m m₁ : Machine} (h : Executes p m (.completes m₁)) :
    ∃ fuel n, run fuel p m = m₁.conclude n := by
  obtain ⟨n, hl⟩ := Run.reaches_of_executes h [] 0
  obtain ⟨k, hk⟩ := hl.proceed
  exact ⟨k + 1, n, (hk 1).trans (proceed_conclude m₁ n 0)⟩

theorem run_of_stopsAt {p : Program} {m m₁ m₂ : Machine} {o : Op} {e : RuntimeError}
    (h : Executes p m (.stopsAt o m₁)) (hr : Refusal o m₁ e m₂) :
    ∃ fuel, run fuel p m = .failed e m₂ := by
  obtain ⟨pos, rest, inner, n, hl⟩ := Run.reaches_of_executes h [] 0
  obtain ⟨k, hk⟩ := hl.proceed
  refine ⟨k + 1, (hk 1).trans ?_⟩
  rw [Run.proceed, Run.step_op_error hr]

/-- A run finishes exactly if its program completes and its output can be flushed. -/
theorem run_finished_iff {p : Program} {m m' : Machine} :
    (∃ fuel n, run fuel p m = .finished m' n) ↔
      ∃ m₁, Executes p m (.completes m₁) ∧ m₁.sink.flushFailure = none ∧ m' = m₁.flushed := by
  constructor
  · rintro ⟨fuel, n, hrun⟩
    have hover : (run fuel p m).Over := by rw [hrun]; exact trivial
    rcases executes_of_run hover with ⟨m₁, n', hx, heq⟩ | ⟨o, m₁, e, m₂, hx, hr, heq⟩
    · rw [hrun] at heq
      cases hf : m₁.sink.flushFailure with
      | none =>
        simp only [conclude, hf] at heq
        exact ⟨m₁, hx, hf, by cases heq; rfl⟩
      | some message => simp only [conclude, hf] at heq; cases heq
    · rw [hrun] at heq
      cases heq
  · rintro ⟨m₁, hx, hf, rfl⟩
    obtain ⟨fuel, n, hrun⟩ := run_of_completes hx
    exact ⟨fuel, n, by rw [hrun, conclude, hf]⟩

/-- A run fails exactly at an instruction at which its program stops, or at the final flush. -/
theorem run_failed_iff {p : Program} {m m' : Machine} {e : RuntimeError} :
    (∃ fuel, run fuel p m = .failed e m') ↔
      (∃ o m₁, Executes p m (.stopsAt o m₁) ∧ Refusal o m₁ e m') ∨
      ∃ m₁ message, Executes p m (.completes m₁) ∧ m₁.sink.flushFailure = some message ∧
        e = .write (.refused message) ∧ m' = m₁.flushed := by
  constructor
  · rintro ⟨fuel, hrun⟩
    have hover : (run fuel p m).Over := by rw [hrun]; exact trivial
    rcases executes_of_run hover with ⟨m₁, n', hx, heq⟩ | ⟨o, m₁, e, m₂, hx, hr, heq⟩
    · rw [hrun] at heq
      cases hf : m₁.sink.flushFailure with
      | none => simp only [conclude, hf] at heq; cases heq
      | some message =>
        simp only [conclude, hf] at heq
        cases heq
        exact Or.inr ⟨m₁, message, hx, hf, rfl, rfl⟩
    · rw [hrun] at heq
      cases heq
      exact Or.inl ⟨o, m₁, hx, hr⟩
  · rintro (⟨o, m₁, hx, hr⟩ | ⟨m₁, message, hx, hf, rfl, rfl⟩)
    · exact run_of_stopsAt hx hr
    · obtain ⟨fuel, n, hrun⟩ := run_of_completes hx
      exact ⟨fuel, by rw [hrun, conclude, hf]⟩

theorem flush_of_none {m : Machine} (h : m.sink.flushFailure = none) :
    m.sink.flush = (.ok (), m.flushed.sink) := by
  simp only [Sink.flush, h, flushed]

theorem flush_of_some {m : Machine} {message : String} (h : m.sink.flushFailure = some message) :
    m.sink.flush = (.error (.refused message), m.flushed.sink) := by
  simp only [Sink.flush, h, flushed]

theorem flush_eq_ok {m : Machine} {s : Sink} (h : m.sink.flush = (.ok (), s)) :
    m.sink.flushFailure = none ∧ s = m.flushed.sink := by
  cases hf : m.sink.flushFailure with
  | none =>
    rw [flush_of_none hf] at h
    exact ⟨rfl, (Prod.mk.inj h).2.symm⟩
  | some message =>
    rw [flush_of_some hf] at h
    cases (Prod.mk.inj h).1

theorem flush_eq_error {m : Machine} {e : WriteError} {s : Sink}
    (h : m.sink.flush = (.error e, s)) :
    ∃ message, m.sink.flushFailure = some message ∧ e = .refused message ∧
      s = m.flushed.sink := by
  cases hf : m.sink.flushFailure with
  | none =>
    rw [flush_of_none hf] at h
    cases (Prod.mk.inj h).1
  | some message =>
    rw [flush_of_some hf] at h
    obtain ⟨he, hs⟩ := Prod.mk.inj h
    exact ⟨message, rfl, (Except.error.inj he).symm, hs.symm⟩

end Machine

namespace Machine

/-- The streams of the machine cannot fail: its input is plain bytes, its output has no limit. -/
def Untroubled (m : Machine) : Prop :=
  m.sink.limit = none ∧ m.sink.flushFailure = none ∧ ∃ bytes, m.feed = .ofBytes bytes

theorem Untroubled.not_refusal {m m' : Machine} (hm : m.Untroubled) {o : Op} {e : RuntimeError} :
    ¬ Refusal o m e m' := by
  obtain ⟨hlimit, -, bytes, hfeed⟩ := hm
  intro h
  cases h with
  | output hfull =>
    apply hfull
    intro limit hl
    rw [hlimit] at hl
    cases hl
  | input hy =>
    rw [Feed.yields_iff, hfeed] at hy
    cases bytes <;> cases (Prod.mk.inj hy).1

theorem Untroubled.effect {m : Machine} (hm : m.Untroubled) (o : Op) : ∃ m', Effect o m m' := by
  cases hp : m.perform o with
  | ok u m' => exact ⟨m', perform_eq_ok.mp hp⟩
  | error e m' => exact absurd (perform_eq_error.mp hp) hm.not_refusal

end Machine

theorem Feed.ofBytes_of_yields {bytes : List UInt8} {r : Reading} {f : Feed}
    (h : (Feed.ofBytes bytes).Yields r f) : f = .ofBytes bytes.tail := by
  rw [Feed.yields_iff] at h
  cases bytes with
  | nil => exact (Prod.mk.inj h).2.symm
  | cons b rest => exact (Prod.mk.inj h).2.symm

theorem Effect.untroubled {o : Op} {m m' : Machine} (h : Effect o m m') (hm : m.Untroubled) :
    m'.Untroubled := by
  obtain ⟨hlimit, hflush, bytes, hfeed⟩ := hm
  cases h with
  | increment => exact ⟨hlimit, hflush, bytes, hfeed⟩
  | decrement => exact ⟨hlimit, hflush, bytes, hfeed⟩
  | moveLeft => exact ⟨hlimit, hflush, bytes, hfeed⟩
  | moveRight => exact ⟨hlimit, hflush, bytes, hfeed⟩
  | output => exact ⟨hlimit, hflush, bytes, hfeed⟩
  | input hy =>
    rw [hfeed] at hy
    exact ⟨hlimit, hflush, bytes.tail, Feed.ofBytes_of_yields hy⟩
  | inputAtEnd hy =>
    rw [hfeed] at hy
    exact ⟨hlimit, hflush, bytes.tail, Feed.ofBytes_of_yields hy⟩

/-- An execution on streams that cannot fail completes if it ends. -/
theorem Executes.completes {p : Program} {m : Machine} {x : Ending} (h : Executes p m x)
    (hm : m.Untroubled) : ∃ m', x = .completes m' ∧ m'.Untroubled := by
  induction h with
  | nil => exact ⟨_, rfl, hm⟩
  | op he hrest ih => exact ih (he.untroubled hm)
  | stop hr => exact absurd hr hm.not_refusal
  | loopDone hz hrest ih => exact ih hm
  | loopTurn hnz hbody hagain ihbody ihagain =>
    obtain ⟨m₁, heq, hm₁⟩ := ihbody hm
    cases heq
    exact ihagain hm₁
  | loopStop hnz hbody ihbody =>
    obtain ⟨m₁, heq, -⟩ := ihbody hm
    cases heq

namespace Machine

theorem Untroubled.conclude {m : Machine} (hm : m.Untroubled) (n : Nat) :
    m.conclude n = .finished m.flushed n := by
  rw [Machine.conclude, hm.2.1]

/-- On streams that cannot fail a run that is over has finished. -/
theorem Untroubled.run_over {fuel : Nat} {p : Program} {m : Machine} (hm : m.Untroubled)
    (hover : (run fuel p m).Over) :
    ∃ m' n, Executes p m (.completes m') ∧ run fuel p m = .finished m'.flushed n := by
  rcases executes_of_run hover with ⟨m', n, hx, heq⟩ | ⟨o, m₁, e, m₂, hx, hr, heq⟩
  · obtain ⟨m₁, heq₁, hm'⟩ := hx.completes hm
    cases heq₁
    exact ⟨m', n, hx, heq.trans (hm'.conclude n)⟩
  · obtain ⟨m', heq', -⟩ := hx.completes hm
    cases heq'

theorem Untroubled.run_of_completes {p : Program} {m m' : Machine} (hm : m.Untroubled)
    (h : Executes p m (.completes m')) : ∃ fuel n, run fuel p m = .finished m'.flushed n := by
  obtain ⟨m₁, heq, hm'⟩ := h.completes hm
  cases heq
  obtain ⟨fuel, n, hrun⟩ := Machine.run_of_completes h
  exact ⟨fuel, n, hrun.trans (hm'.conclude n)⟩

theorem untroubled_ofBytes (tape : Tape) (input : List UInt8) (eof : EofPolicy) :
    Untroubled { tape, feed := .ofBytes input, eof } := ⟨rfl, rfl, input, rfl⟩

end Machine

end TapeLang
