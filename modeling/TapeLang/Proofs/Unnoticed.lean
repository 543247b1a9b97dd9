import TapeLang.Proofs.Lockstep
import TapeLang.Proofs.Sequence

/-!
Changes of a machine that a run takes no notice of. If every instruction, the flush at the end and
the test of the current cell come out the same on the changed machine, and leave it changed in the
same way, then so does a whole run, and it ends if and only if the run on the other machine does.
Two such changes are turning the tape, so that no cell is special, and taking the interruptions out
of the input, which are tried again until a read goes through.
-/
namespace TapeLang

namespace Machine

/-- What an action leaves, with the machine changed by `f`. -/
def mapResult (f : Machine → Machine) :
    EStateM.Result RuntimeError Machine Unit → EStateM.Result RuntimeError Machine Unit
  | .ok () m => .ok () (f m)
  | .error e m => .error e (f m)

structure Unnoticed (f : Machine → Machine) : Prop where
  zero : ∀ m, (f m).tape.current = 0 ↔ m.tape.current = 0
  perform : ∀ o m, (f m).perform o = mapResult f (m.perform o)
  close : ∀ m, (f m).close = mapResult f m.close

/-- The change has nothing to do with the output. -/
structure SparesSink (f : Machine → Machine) : Prop where
  sink : ∀ m, (f m).sink = m.sink
  update : ∀ m s, { f m with sink := s } = f { m with sink := s }

variable {f : Machine → Machine}

theorem SparesSink.close (h : SparesSink f) (m : Machine) :
    (f m).close = mapResult f m.close := by
  simp only [Machine.close, h.sink, h.update]
  obtain ⟨result, sink⟩ := m.sink.flush
  cases result <;> rfl

theorem SparesSink.output (h : SparesSink f) {m : Machine}
    (hcurrent : (f m).tape.current = m.tape.current) :
    (f m).perform .output = mapResult f (m.perform .output) := by
  simp only [perform_output, h.sink, h.update, hcurrent]
  split <;> rfl

end Machine

namespace Tree

open Machine (mapResult Unnoticed)

variable {f : Machine → Machine}

def Progress.map (f : Machine → Machine) : Progress → Progress
  | running r => .running { r with machine := f r.machine }
  | finished m steps => .finished (f m) steps
  | failed e m => .failed e (f m)
  | misplaced m => .misplaced (f m)

@[simp] theorem Progress.machine_map (f : Machine → Machine) (x : Progress) :
    (x.map f).machine = f x.machine := by
  cases x <;> rfl

@[simp] theorem Progress.result?_map (f : Machine → Machine) (x : Progress) :
    (x.map f).result? = x.result? := by
  cases x <;> rfl

theorem Move.carryOut_map {move : Move} {m : Machine} (steps : Nat)
    (hperform : ∀ o frames, move = .perform o frames →
      (f m).perform o = mapResult f (m.perform o))
    (hclose : (f m).close = mapResult f m.close) :
    move.carryOut (f m) steps = (move.carryOut m steps).map f := by
  cases move with
  | perform o frames =>
    simp only [carryOut, hperform o frames rfl]
    cases m.perform o <;> rfl
  | go frames steps => rfl
  | close =>
    simp only [carryOut, hclose]
    cases m.close <;> rfl
  | stuck => rfl

theorem Progress.advance_map (hf : Unnoticed f) (t : Tree) (x : Progress) :
    (x.map f).advance t = (x.advance t).map f := by
  cases x with
  | running r =>
    obtain ⟨frames, m, steps⟩ := r
    obtain ⟨move, -, hmove⟩ := Traversal.exists_move t frames m steps
    have hstep : Traversal.step t ⟨frames, m, steps⟩ = move.carryOut m steps := hmove m Iff.rfl
    have hstep' : Traversal.step t ⟨frames, f m, steps⟩ = move.carryOut (f m) steps :=
      hmove (f m) (hf.zero m)
    simp only [map, advance, hstep, hstep']
    exact Move.carryOut_map steps (fun o _ _ => hf.perform o m) (hf.close m)
  | finished m steps => rfl
  | failed e m => rfl
  | misplaced m => rfl

theorem run_map (hf : Unnoticed f) (t : Tree) (fuel : Nat) (m : Machine) :
    t.run fuel (f m) = (t.run fuel m).map f := by
  induction fuel with
  | zero => rfl
  | succ fuel ih => rw [run_succ, run_succ, ih, Progress.advance_map hf]

theorem runsTo_map (hf : Unnoticed f) (t : Tree) (m : Machine) {r : Except RuntimeError Unit}
    {m' : Machine} : t.RunsTo (f m) r m' ↔ ∃ m₁, t.RunsTo m r m₁ ∧ m' = f m₁ := by
  simp only [RunsTo, run_map hf, Progress.result?_map, Progress.machine_map]
  constructor
  · rintro ⟨fuel, hresult, rfl⟩
    exact ⟨_, ⟨fuel, hresult, rfl⟩, rfl⟩
  · rintro ⟨m₁, ⟨fuel, hresult, rfl⟩, rfl⟩
    exact ⟨fuel, hresult, rfl⟩

end Tree

namespace Tape

/-- The tape turned by `k` cells: what was in cell `i` is in cell `i + k`, and the head has moved
along. -/
def rotate (k : UInt16) (t : Tape) : Tape :=
  ⟨Vector.ofFn fun i => t.get (UInt16.ofFin i - k), t.head + k⟩

variable (k : UInt16) (t : Tape)

@[simp] theorem head_rotate : (t.rotate k).head = t.head + k := rfl

theorem get_rotate (i : UInt16) : (t.rotate k).get i = t.get (i - k) := by
  simp only [rotate, get, Fin.getElem_fin, Vector.getElem_ofFn]
  rfl

@[simp] theorem get_rotate_add (i : UInt16) : (t.rotate k).get (i + k) = t.get i := by
  rw [get_rotate, UInt16.add_sub_cancel]

@[simp] theorem current_rotate : (t.rotate k).current = t.current := get_rotate_add k t t.head

theorem rotate_setCurrent (v : UInt8) :
    (t.setCurrent v).rotate k = (t.rotate k).setCurrent v := by
  apply Tape.ext
  · intro i
    have hhead : i - k = t.head ↔ i = t.head + k := by
      constructor
      · rintro h
        rw [← h, UInt16.sub_add_cancel]
      · rintro rfl
        rw [UInt16.add_sub_cancel]
    simp only [get_rotate, get_setCurrent, head_rotate, hhead]
  · rfl

theorem rotate_increment : (t.rotate k).increment = t.increment.rotate k := by
  rw [increment, increment, current_rotate, rotate_setCurrent]

theorem rotate_decrement : (t.rotate k).decrement = t.decrement.rotate k := by
  rw [decrement, decrement, current_rotate, rotate_setCurrent]

theorem rotate_moveLeft : (t.rotate k).moveLeft = t.moveLeft.rotate k := by
  apply Tape.ext
  · intro i
    rw [get_rotate, moveLeft, moveLeft, get_setHead, get_setHead, get_rotate]
  · show t.head + k - 1 = t.head - 1 + k
    rw [UInt16.sub_eq_add_neg, UInt16.sub_eq_add_neg, UInt16.add_assoc,
      UInt16.add_assoc, UInt16.add_comm k]

theorem rotate_moveRight : (t.rotate k).moveRight = t.moveRight.rotate k := by
  apply Tape.ext
  · intro i
    rw [get_rotate, moveRight, moveRight, get_setHead, get_setHead, get_rotate]
  · show t.head + k + 1 = t.head + 1 + k
    rw [UInt16.add_assoc, UInt16.add_assoc, UInt16.add_comm k]

end Tape

namespace Machine

/-- The machine with its tape turned by `k` cells. -/
def rotate (k : UInt16) (m : Machine) : Machine := { m with tape := m.tape.rotate k }

theorem rotate_mk (k : UInt16) (tape : Tape) (feed : Feed) (sink : Sink) (eof : EofPolicy) :
    rotate k ⟨tape, feed, sink, eof⟩ = ⟨tape.rotate k, feed, sink, eof⟩ := rfl

theorem sparesSink_rotate (k : UInt16) : SparesSink (rotate k) where
  sink m := by rw [rotate]
  update m s := by rw [rotate, rotate]

theorem unnoticed_rotate (k : UInt16) : Unnoticed (rotate k) where
  zero m := by
    show (m.tape.rotate k).current = 0 ↔ _
    rw [Tape.current_rotate]
  perform o m := by
    obtain ⟨tape, feed, sink, eof⟩ := m
    cases o with
    | increment => simp only [perform, rotate_mk, mapResult, Tape.rotate_increment]
    | decrement => simp only [perform, rotate_mk, mapResult, Tape.rotate_decrement]
    | moveLeft => simp only [perform, rotate_mk, mapResult, Tape.rotate_moveLeft]
    | moveRight => simp only [perform, rotate_mk, mapResult, Tape.rotate_moveRight]
    | output => exact (sparesSink_rotate k).output (Tape.current_rotate k tape)
    | input =>
      simp only [perform, rotate_mk, Tape.current_rotate]
      obtain ⟨reading, feed⟩ := feed.read
      cases reading with
      | byte b => simp only [mapResult, rotate_mk, Tape.rotate_setCurrent]
      | endOfInput => simp only [mapResult, rotate_mk, Tape.rotate_setCurrent]
      | failure message => rfl
  close := (sparesSink_rotate k).close

end Machine

namespace Program

/-- No cell of the tape is special. A program that is started on a turned tape makes the same moves
as on the tape itself: after any number of them it has read and written the same and has come to
the same place, with the tape turned. So it ends if and only if it does on the tape itself, with
the same result, and leaves the final tape turned. -/
theorem rotated_tape_is_not_noticed (p : Program) (m : Machine) (k : UInt16) :
    (∀ fuel, p.tree.run fuel (m.rotate k) = (p.tree.run fuel m).map (Machine.rotate k)) ∧
    ∀ r m', p.tree.RunsTo (m.rotate k) r m' ↔
      ∃ m₁, p.tree.RunsTo m r m₁ ∧ m' = { m₁ with tape := m₁.tape.rotate k } :=
  ⟨fun fuel => p.tree.run_map (Machine.unnoticed_rotate k) fuel m,
    fun _ _ => p.tree.runsTo_map (Machine.unnoticed_rotate k) m⟩

end Program

namespace Feed

/-- The feed without its interruptions. -/
def uninterrupted (f : Feed) : Feed := f.filter fun d => d ≠ .interrupted

/-- A single read, which may be interrupted. -/
def attempt : Feed → Delivery × Feed
  | [] => (.endOfInput, [])
  | d :: rest => (d, rest)

/-- Read again as long as reads are interrupted, giving up after the given number of attempts. -/
def retry : Nat → Feed → Option (Reading × Feed)
  | 0, _ => none
  | attempts + 1, f =>
    match f.attempt with
    | (.byte b, rest) => some (.byte b, rest)
    | (.endOfInput, rest) => some (.endOfInput, rest)
    | (.failure message, rest) => some (.failure message, rest)
    | (.interrupted, rest) => retry attempts rest

/-- One attempt for each interruption and one more are enough. -/
theorem retry_eq_read (f : Feed) {attempts : Nat} (h : f.count .interrupted < attempts) :
    f.retry attempts = some f.read := by
  induction f generalizing attempts with
  | nil =>
    cases attempts with
    | zero => omega
    | succ attempts => rfl
  | cons d rest ih =>
    cases attempts with
    | zero => omega
    | succ attempts =>
      cases d with
      | byte b => rfl
      | endOfInput => rfl
      | failure message => rfl
      | interrupted =>
        rw [List.count_cons_self] at h
        exact ih (by omega)

theorem read_uninterrupted (f : Feed) :
    f.uninterrupted.read = (f.read.1, f.read.2.uninterrupted) := by
  induction f with
  | nil => rfl
  | cons d rest ih =>
    cases d with
    | byte b => rfl
    | endOfInput => rfl
    | failure message => rfl
    | interrupted => exact ih

end Feed

namespace Machine

/-- The machine with the interruptions taken out of its input. -/
def uninterrupted (m : Machine) : Machine := { m with feed := m.feed.uninterrupted }

theorem sparesSink_uninterrupted : SparesSink uninterrupted := ⟨fun _ => rfl, fun _ _ => rfl⟩

theorem unnoticed_uninterrupted : Unnoticed uninterrupted where
  zero m := Iff.rfl
  perform o m := by
    obtain ⟨tape, feed, sink, eof⟩ := m
    cases o with
    | increment => rfl
    | decrement => rfl
    | moveLeft => rfl
    | moveRight => rfl
    | output => exact sparesSink_uninterrupted.output rfl
    | input =>
      simp only [perform, uninterrupted, Feed.read_uninterrupted]
      obtain ⟨reading, feed⟩ := feed.read
      cases reading <;> rfl
  close := sparesSink_uninterrupted.close

end Machine

namespace Program

/-- Interrupted reads are invisible, wherever they stand in the input: between bytes, before the
end of the input or before a read that fails. With all of them taken out a program makes the same
moves, so it ends if and only if it did before, with the same result, output and tape, and what it
leaves of the input is the same up to interruptions. The attempts that a single read makes come to
an end. -/
theorem interruptions_are_not_noticed (p : Program) (m : Machine) :
    (∀ fuel, p.tree.run fuel m.uninterrupted = (p.tree.run fuel m).map Machine.uninterrupted) ∧
    (∀ r m', p.tree.RunsTo m.uninterrupted r m' ↔
      ∃ m₁, p.tree.RunsTo m r m₁ ∧ m' = { m₁ with feed := m₁.feed.uninterrupted }) ∧
    ∀ f : Feed, ∃ attempts, f.retry attempts = some f.read :=
  ⟨fun fuel => p.tree.run_map Machine.unnoticed_uninterrupted fuel m,
    fun _ _ => p.tree.runsTo_map Machine.unnoticed_uninterrupted m,
    fun f => ⟨_, f.retry_eq_read (Nat.lt_succ_self _)⟩⟩

end Program

end TapeLang
