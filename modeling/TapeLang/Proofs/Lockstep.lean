import TapeLang.Proofs.Interpretation

/-!
Runs over one table on two machines. What a run does next depends on where it stands in the table
and on whether the current cell is zero; all else of the machine comes in only when the move is
carried out. So two runs stay abreast as long as the instructions that they come to, and the flush
at the end, turn out alike on both machines.
-/
namespace TapeLang

namespace Machine

/-- Flush the output at the end of a program. -/
def close (m : Machine) : EStateM.Result RuntimeError Machine Unit :=
  match m.sink.flush with
  | (.ok (), sink) => .ok () { m with sink }
  | (.error e, sink) => .error (.write e) { m with sink }

/-- Both actions succeed or both fail with the same error. `R` relates the machines that success
leaves, and `F` those that a failure leaves. -/
inductive Alike (R : Machine → Machine → Prop) (F : RuntimeError → Machine → Machine → Prop) :
    EStateM.Result RuntimeError Machine Unit → EStateM.Result RuntimeError Machine Unit → Prop
  | ok {m m' : Machine} (h : R m m') : Alike R F (.ok () m) (.ok () m')
  | error {e : RuntimeError} {m m' : Machine} (h : F e m m') : Alike R F (.error e m) (.error e m')

/-- Whatever a run does next, the machine before is related to the machine after it. -/
structure Ascends (R : Machine → Machine → Prop) : Prop where
  refl : ∀ m, R m m
  trans : ∀ {m m₁ m₂}, R m m₁ → R m₁ m₂ → R m m₂
  effect : ∀ {o m m₁}, Effect o m m₁ → R m m₁
  refusal : ∀ {o m e m₁}, Refusal o m e m₁ → R m m₁
  flush : ∀ m : Machine, R m { m with sink := m.sink.flush.2 }

end Machine

/-- The instruction that a node of this kind stands for, if it is a simple one. -/
def Kind.op? : Kind → Option Op
  | op o => some o
  | _ => .none

namespace Tree

/-- What a run does next: perform an instruction and go on in the given frames, go on in other
frames, flush the output, or nothing because there is no instruction where it stands. -/
inductive Move where
  | perform (o : Op) (frames : List Frame)
  | go (frames : List Frame) (steps : Nat)
  | close
  | stuck

/-- The instruction that a move performs. -/
def Move.op? : Move → Option Op
  | perform o _ => some o
  | _ => none

def Move.carryOut (m : Machine) (steps : Nat) : Move → Progress
  | perform o frames =>
    match m.perform o with
    | .ok () m => .running ⟨frames, m, steps + 1⟩
    | .error e m => .failed e m
  | go frames steps => .running ⟨frames, m, steps⟩
  | close =>
    match m.close with
    | .ok () m => .finished m steps
    | .error e m => .failed e m
  | stuck => .misplaced m

namespace Traversal

variable {t : Tree}

/-- The instruction that a run comes to next, if it is a simple one. -/
def nextOp? (t : Tree) (r : Traversal) : Option Op :=
  match r.frames with
  | [] => none
  | ⟨id, next⟩ :: _ =>
    (t.node? id).bind fun n => n.children[next]?.bind fun child =>
      ((t.node? child).map Node.kind).bind Kind.op?

theorem exists_reach (child : Nat) (frames : List Frame) (m : Machine) (steps : Nat) :
    ∃ move : Move,
      move.op? = ((t.node? child).map Node.kind).bind Kind.op? ∧
      ∀ m' : Machine, (m'.tape.current = 0 ↔ m.tape.current = 0) →
        reach t child ⟨frames, m', steps⟩ = move.carryOut m' steps := by
  cases hkind : (t.node? child).map Node.kind with
  | none =>
    refine ⟨.stuck, rfl, fun m' _ => ?_⟩
    simp only [reach, hkind, Move.carryOut]
  | some kind =>
    cases kind with
    | root | none =>
      refine ⟨.stuck, rfl, fun m' _ => ?_⟩
      simp only [reach, hkind, Move.carryOut]
    | op o =>
      refine ⟨.perform o frames, rfl, fun m' _ => ?_⟩
      cases hperform : m'.perform o <;> simp only [reach, hkind, Move.carryOut, hperform]
    | loop =>
      by_cases hz : m.tape.current = 0
      · refine ⟨.go frames (steps + 1), rfl, fun m' hzero => ?_⟩
        simp only [reach, hkind, if_pos (hzero.mpr hz), Move.carryOut]
      · refine ⟨.go (⟨child, 0⟩ :: frames) (steps + 1), rfl, fun m' hzero => ?_⟩
        simp only [reach, hkind, if_neg (mt hzero.mp hz), Move.carryOut]

theorem exists_leave (outer : List Frame) (steps : Nat) :
    ∃ move : Move, move.op? = none ∧
      ∀ m' : Machine, leave outer m' steps = move.carryOut m' steps := by
  cases outer with
  | nil =>
    refine ⟨.close, rfl, fun m' => ?_⟩
    simp only [leave, Move.carryOut, Machine.close]
    obtain ⟨result, sink⟩ := m'.sink.flush
    cases result <;> rfl
  | cons frame outer => exact ⟨.go (frame :: outer) steps, rfl, fun m' => rfl⟩

/-- The move that comes next is the same for all machines whose current cells are zero together. It
performs an instruction only where the run comes to one. -/
theorem exists_move (t : Tree) (frames : List Frame) (m : Machine) (steps : Nat) :
    ∃ move : Move, move.op? = nextOp? t ⟨frames, m, steps⟩ ∧
      ∀ m' : Machine, (m'.tape.current = 0 ↔ m.tape.current = 0) →
        step t ⟨frames, m', steps⟩ = move.carryOut m' steps := by
  cases frames with
  | nil => exact ⟨.stuck, rfl, fun m' _ => rfl⟩
  | cons frame outer =>
    obtain ⟨id, next⟩ := frame
    cases hnode : t.node? id with
    | none =>
      refine ⟨.stuck, ?_, fun m' _ => ?_⟩
      · simp only [nextOp?, hnode, Option.bind_none, Move.op?]
      · simp only [step, hnode, Move.carryOut]
    | some n =>
      cases hchild : n.children[next]? with
      | some child =>
        obtain ⟨move, hop, hmove⟩ :=
          exists_reach (t := t) child (⟨id, next + 1⟩ :: outer) m steps
        refine ⟨move, ?_, fun m' hzero => ?_⟩
        · simp only [nextOp?, hnode, hchild, Option.bind_some]
          exact hop
        · simp only [step, hnode, hchild]
          exact hmove m' hzero
      | none =>
        have hnone : nextOp? t ⟨⟨id, next⟩ :: outer, m, steps⟩ = none := by
          simp only [nextOp?, hnode, hchild, Option.bind_some, Option.bind_none]
        rw [hnone]
        by_cases hagain : n.kind = .loop ∧ m.tape.current ≠ 0
        · refine ⟨.go (⟨id, 0⟩ :: outer) steps, rfl, fun m' hzero => ?_⟩
          have hagain' : n.kind = .loop ∧ m'.tape.current ≠ 0 :=
            ⟨hagain.1, mt hzero.mp hagain.2⟩
          simp only [step, hnode, hchild, if_pos hagain', Move.carryOut]
        · obtain ⟨move, hop, hmove⟩ := exists_leave outer steps
          refine ⟨move, hop, fun m' hzero => ?_⟩
          have hagain' : ¬ (n.kind = .loop ∧ m'.tape.current ≠ 0) := fun h =>
            hagain ⟨h.1, mt hzero.mpr h.2⟩
          simp only [step, hnode, hchild, if_neg hagain']
          exact hmove m'

end Traversal

/-- Two runs have come equally far and stand at the same place. -/
inductive Abreast (R : Machine → Machine → Prop) (F : RuntimeError → Machine → Machine → Prop) :
    Progress → Progress → Prop
  | running {frames : List Frame} {m m' : Machine} {steps : Nat} (h : R m m') :
      Abreast R F (.running ⟨frames, m, steps⟩) (.running ⟨frames, m', steps⟩)
  | finished {m m' : Machine} {steps : Nat} (h : R m m') :
      Abreast R F (.finished m steps) (.finished m' steps)
  | failed {e : RuntimeError} {m m' : Machine} (h : F e m m') :
      Abreast R F (.failed e m) (.failed e m')
  | misplaced {m m' : Machine} (h : R m m') : Abreast R F (.misplaced m) (.misplaced m')

/-- A move keeps two runs abreast if what it does to the machines turns out alike. -/
theorem Move.abreast {R : Machine → Machine → Prop} {F : RuntimeError → Machine → Machine → Prop}
    {move : Move} {m m' : Machine} (steps : Nat) (hm : R m m')
    (hperform : ∀ o frames, move = .perform o frames →
      Machine.Alike R F (m.perform o) (m'.perform o))
    (hclose : Machine.Alike R F m.close m'.close) :
    Abreast R F (move.carryOut m steps) (move.carryOut m' steps) := by
  cases move with
  | perform o frames =>
    have halike := hperform o frames rfl
    simp only [carryOut]
    generalize m.perform o = x at halike
    generalize m'.perform o = x' at halike
    cases halike with
    | ok h => exact .running h
    | error h => exact .failed h
  | go frames steps => exact .running hm
  | close =>
    simp only [carryOut]
    generalize m.close = x at hclose
    generalize m'.close = x' at hclose
    cases hclose with
    | ok h => exact .finished h
    | error h => exact .failed h
  | stuck => exact .misplaced hm

/-- One more move of a run that is not over. -/
def Progress.advance (t : Tree) : Progress → Progress
  | running r => r.step t
  | progress => progress

theorem Traversal.proceed_succ (t : Tree) (r : Traversal) (fuel : Nat) :
    r.proceed t (fuel + 1) = (r.proceed t fuel).advance t := by
  induction fuel generalizing r with
  | zero =>
    simp only [proceed, Progress.advance]
    split
    · next r' hstep => exact hstep.symm
    · rfl
  | succ fuel ih =>
    rw [proceed]
    conv => rhs; rw [proceed]
    split
    · next r' hstep => exact ih r'
    · next progress hover =>
      cases hstep : r.step t with
      | running r' => exact absurd hstep (hover r')
      | finished m n => rfl
      | failed e m => rfl
      | misplaced m => rfl

theorem run_succ (t : Tree) (fuel : Nat) (m : Machine) :
    t.run (fuel + 1) m = (t.run fuel m).advance t :=
  Traversal.proceed_succ t _ fuel

variable {R : Machine → Machine → Prop}

theorem Move.ascends (hR : Machine.Ascends R) (move : Move) (m : Machine) (steps : Nat) :
    R m (move.carryOut m steps).machine := by
  cases move with
  | perform o frames =>
    simp only [carryOut]
    cases hp : m.perform o with
    | ok u m₁ => exact hR.effect (Machine.perform_eq_ok.mp hp)
    | error e m₁ => exact hR.refusal (Machine.perform_eq_error.mp hp)
  | go frames steps => exact hR.refl m
  | close =>
    have hflush := hR.flush m
    simp only [carryOut, Machine.close]
    generalize m.sink.flush = flushed at hflush
    obtain ⟨result, sink⟩ := flushed
    cases result <;> exact hflush
  | stuck => exact hR.refl m

theorem Progress.ascends_advance (hR : Machine.Ascends R) (t : Tree) (x : Progress) :
    R x.machine (x.advance t).machine := by
  cases x with
  | running r =>
    obtain ⟨frames, m, steps⟩ := r
    obtain ⟨move, -, hmove⟩ := Traversal.exists_move t frames m steps
    rw [advance, hmove m Iff.rfl]
    exact move.ascends hR m steps
  | finished m steps => exact hR.refl m
  | failed e m => exact hR.refl m
  | misplaced m => exact hR.refl m

theorem ascends_run (hR : Machine.Ascends R) (t : Tree) (m : Machine) {j k : Nat} (h : j ≤ k) :
    R (t.run j m).machine (t.run k m).machine := by
  induction h with
  | refl => exact hR.refl _
  | @step k _ ih =>
    rw [run_succ]
    exact hR.trans ih ((t.run k m).ascends_advance hR t)

end Tree

end TapeLang
