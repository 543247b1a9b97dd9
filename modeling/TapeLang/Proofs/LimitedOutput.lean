import TapeLang.Proofs.Lockstep

/-!
Programs that write into a sink with a limit. Next to a run that may write as much as it likes, the
run with the limit does the same up to the instruction that writes one byte too many, and fails
there. This holds for runs that never end as well: the bytes that arrive are the first of those
that the program would write.
-/
namespace TapeLang

namespace Feed

/-- No read fails. -/
def Reliable (f : Feed) : Prop := ∀ message, Delivery.failure message ∉ f

theorem Reliable.read {f : Feed} (h : f.Reliable) :
    (∀ message, f.read.1 ≠ .failure message) ∧ Reliable f.read.2 := by
  induction f with
  | nil => exact ⟨nofun, h⟩
  | cons d rest ih =>
    have hrest : Reliable rest := fun message hmem => h message (List.mem_cons_of_mem _ hmem)
    cases d with
    | byte b => exact ⟨nofun, hrest⟩
    | endOfInput => exact ⟨nofun, hrest⟩
    | interrupted => exact ih hrest
    | failure message => exact absurd List.mem_cons_self (h message)

end Feed

namespace Sink

/-- The first sink takes everything, the second one takes `limit` bytes in all, and so far they
have accepted the same bytes. -/
structure Trails (limit : Nat) (w : WhenFull) (s s' : Sink) : Prop where
  unlimited : s.limit = none
  limited : s'.limit = some limit
  whenFull : s'.whenFull = w
  accepted : s'.accepted = s.accepted
  within : s.accepted.size ≤ limit
  flushes : s.flushFailure = none
  flushes' : s'.flushFailure = none

variable {limit : Nat} {w : WhenFull} {s s' : Sink}

theorem Trails.take (h : Trails limit w s s') (hroom : s.accepted.size < limit) (b : UInt8) :
    Trails limit w (s.take [b]) (s'.take [b]) where
  unlimited := h.unlimited
  limited := h.limited
  whenFull := h.whenFull
  accepted := by
    show s'.accepted ++ [b] = s.accepted ++ [b]
    rw [h.accepted]
  within := by
    show (s.accepted ++ [b]).size ≤ limit
    rw [← Array.length_toList, Array.toList_appendList, List.length_append, Array.length_toList]
    exact hroom
  flushes := h.flushes
  flushes' := h.flushes'

theorem Trails.room (h : Trails limit w s s') : s.room 1 = 1 := by
  rw [Sink.room, h.unlimited]

theorem Trails.room' (h : Trails limit w s s') : s'.room 1 = min 1 (limit - s.accepted.size) := by
  rw [Sink.room, h.limited, h.accepted]

end Sink

namespace Machine

/-- The machines differ in their sinks only, of which the second one has the limit. -/
structure Shadows (limit : Nat) (w : WhenFull) (m m' : Machine) : Prop where
  sink : Sink.Trails limit w m.sink m'.sink
  rest : m' = { m with sink := m'.sink }
  reads : m.feed.Reliable

/-- No action fails. -/
def NeverFails (_ : RuntimeError) (_ _ : Machine) : Prop := False

variable {limit : Nat} {w : WhenFull} {m m' : Machine}

theorem Shadows.close (h : Shadows limit w m m') :
    Alike (Shadows limit w) NeverFails m.close m'.close := by
  have hsink := h.sink
  rw [h.rest, Machine.close, Machine.close, Sink.flush, Sink.flush, hsink.flushes, hsink.flushes']
  exact .ok ⟨⟨hsink.unlimited, hsink.limited, hsink.whenFull, hsink.accepted, hsink.within, rfl,
    rfl⟩, rfl, h.reads⟩

/-- Instructions that do not write do not see the difference, and neither do those that write while
there is room. -/
theorem Shadows.perform (h : Shadows limit w m m') (o : Op)
    (hroom : o = .output → m.sink.accepted.size < limit) :
    Alike (Shadows limit w) NeverFails (m.perform o) (m'.perform o) := by
  obtain ⟨hsink, hrest, hreads⟩ := h
  rw [hrest]
  cases o with
  | increment => exact .ok ⟨hsink, rfl, hreads⟩
  | decrement => exact .ok ⟨hsink, rfl, hreads⟩
  | moveLeft => exact .ok ⟨hsink, rfl, hreads⟩
  | moveRight => exact .ok ⟨hsink, rfl, hreads⟩
  | output =>
    have hlt := hroom rfl
    have hroom' := hsink.room'
    rw [perform_output, perform_output, if_neg (by rw [hsink.room]; decide),
      if_neg (by show m'.sink.room 1 ≠ 0; omega)]
    exact .ok ⟨hsink.take hlt _, rfl, hreads⟩
  | input =>
    obtain ⟨hok, hafter⟩ := hreads.read
    simp only [Machine.perform]
    generalize m.feed.read = reading at hok hafter
    obtain ⟨r, f⟩ := reading
    cases r with
    | byte b => exact .ok ⟨hsink, rfl, hafter⟩
    | endOfInput => exact .ok ⟨hsink, rfl, hafter⟩
    | failure message => exact absurd rfl (hok message)

/-- Without room left, a byte is written on the one machine and refused on the other. -/
theorem Shadows.perform_output_full (h : Shadows limit w m m')
    (hfull : m.sink.accepted.size = limit) :
    m.perform .output = .ok () { m with sink := m.sink.take [m.tape.current] } ∧
      m'.perform .output = .error (.write w.error) { m' with sink := m'.sink.take [] } := by
  have hroom' := h.sink.room'
  rw [perform_output, perform_output, if_neg (by rw [h.sink.room]; decide),
    if_pos (by omega), h.sink.whenFull]
  exact ⟨rfl, rfl⟩

end Machine

theorem Effect.accepted {o : Op} {m m₁ : Machine} (h : Effect o m m₁) :
    m.sink.accepted.toList <+: m₁.sink.accepted.toList := by
  cases h with
  | output hroom =>
    show _ <+: (m.sink.accepted ++ [m.tape.current]).toList
    rw [Array.toList_appendList]
    exact List.prefix_append _ _
  | _ => exact List.prefix_rfl

theorem Refusal.accepted {o : Op} {m m₁ : Machine} {e : RuntimeError} (h : Refusal o m e m₁) :
    m₁.sink.accepted = m.sink.accepted := by
  cases h with
  | output hfull => exact Array.toList_inj.mp (by simp [Sink.take])
  | input hy => rfl

theorem Machine.ascends_accepted :
    Ascends fun m m₁ => m.sink.accepted.toList <+: m₁.sink.accepted.toList where
  refl _ := List.prefix_rfl
  trans := List.IsPrefix.trans
  effect := Effect.accepted
  refusal h := h.accepted ▸ List.prefix_rfl
  flush _ := List.prefix_rfl

namespace Tree

open Machine (Shadows NeverFails)

variable {t : Tree}

theorem accepted_run_mono (t : Tree) (m : Machine) {j k : Nat} (h : j ≤ k) :
    (t.run j m).machine.sink.accepted.toList <+: (t.run k m).machine.sink.accepted.toList :=
  ascends_run Machine.ascends_accepted t m h

/-- The run that has written less has written the first of the bytes. -/
theorem accepted_run_eq_take (t : Tree) (m : Machine) {j k : Nat}
    (h : (t.run j m).machine.sink.accepted.size ≤ (t.run k m).machine.sink.accepted.size) :
    (t.run j m).machine.sink.accepted.toList =
      (t.run k m).machine.sink.accepted.toList.take (t.run j m).machine.sink.accepted.size := by
  rcases Nat.le_total j k with hjk | hkj
  · exact List.prefix_iff_eq_take.mp (t.accepted_run_mono m hjk)
  · have heq := (t.accepted_run_mono m hkj).eq_of_length_le h
    rw [heq]
    exact List.take_length.symm

/-- The first of two runs has written as many bytes as the second may write and writes another one
now, of which the second fails. -/
structure Parts (t : Tree) (limit : Nat) (w : WhenFull) (x x' : Progress) : Prop where
  full : x.machine.sink.accepted.size = limit
  writes : (x.advance t).machine.sink.accepted.toList =
    x.machine.sink.accepted.toList ++ [x.machine.tape.current]
  fails : ∃ m₁, x'.advance t = .failed (.write w.error) m₁ ∧ m₁.tape = x.machine.tape ∧
    m₁.sink.accepted = x.machine.sink.accepted

variable {limit : Nat} {w : WhenFull} {x x' : Progress}

/-- Runs that are abreast stay so with the next move, unless it is the output for which there is no
room. -/
theorem Abreast.advance_or_parts (h : Abreast (Shadows limit w) NeverFails x x') :
    Abreast (Shadows limit w) NeverFails (x.advance t) (x'.advance t) ∨ t.Parts limit w x x' := by
  cases h with
  | @running frames m m' steps hm =>
    obtain ⟨move, -, hmove⟩ := Traversal.exists_move t frames m steps
    have hstep : Traversal.step t ⟨frames, m, steps⟩ = move.carryOut m steps := hmove m Iff.rfl
    have hstep' : Traversal.step t ⟨frames, m', steps⟩ = move.carryOut m' steps :=
      hmove m' (by rw [hm.rest])
    by_cases hparts : (∃ frames', move = .perform .output frames') ∧ m.sink.accepted.size = limit
    · obtain ⟨⟨frames', rfl⟩, hfull⟩ := hparts
      obtain ⟨hok, herror⟩ := hm.perform_output_full hfull
      simp only [Move.carryOut, hok] at hstep
      simp only [Move.carryOut, herror] at hstep'
      refine .inr ⟨hfull, ?_, _, hstep', ?_, ?_⟩
      · rw [Progress.advance, hstep]
        exact Array.toList_appendList
      · rw [hm.rest]
        rfl
      · exact (Machine.perform_eq_error.mp herror).accepted.trans hm.sink.accepted
    · left
      rw [Progress.advance, Progress.advance, hstep, hstep']
      refine move.abreast steps hm (fun o frames' hperform => hm.perform o ?_) hm.close
      rintro rfl
      have hne : m.sink.accepted.size ≠ limit := fun hfull => hparts ⟨⟨frames', hperform⟩, hfull⟩
      have hle := hm.sink.within
      omega
  | finished hm => exact .inl (.finished hm)
  | failed hm => exact hm.elim
  | misplaced hm => exact .inl (.misplaced hm)

variable {m m' : Machine}

theorem abreast_or_parts (t : Tree) (hm : Shadows limit w m m') (k : Nat) :
    Abreast (Shadows limit w) NeverFails (t.run k m) (t.run k m') ∨
      ∃ j < k, t.Parts limit w (t.run j m) (t.run j m') := by
  induction k with
  | zero => exact .inl (.running hm)
  | succ k ih =>
    rw [run_succ, run_succ]
    rcases ih with habreast | ⟨j, hj, hparts⟩
    · rcases habreast.advance_or_parts (t := t) with hnext | hparts
      · exact .inl hnext
      · exact .inr ⟨k, Nat.lt_succ_self k, hparts⟩
    · exact .inr ⟨j, Nat.lt_succ_of_lt hj, hparts⟩

theorem Abreast.accepted (h : Abreast (Shadows limit w) NeverFails x x') :
    x'.machine.sink.accepted = x.machine.sink.accepted ∧
      x.machine.sink.accepted.size ≤ limit := by
  cases h with
  | running hm => exact ⟨hm.sink.accepted, hm.sink.within⟩
  | finished hm => exact ⟨hm.sink.accepted, hm.sink.within⟩
  | failed hm => exact hm.elim
  | misplaced hm => exact ⟨hm.sink.accepted, hm.sink.within⟩

theorem Abreast.running_or_finished (h : Abreast (Shadows limit w) NeverFails x x')
    (hx : ∀ m, x ≠ .misplaced m) :
    (∃ r r', x = .running r ∧ x' = .running r') ∨
      ∃ n m m', x = .finished m n ∧ x' = .finished m' n ∧ m'.tape = m.tape := by
  cases h with
  | running hm => exact .inl ⟨_, _, rfl, rfl⟩
  | finished hm => exact .inr ⟨_, _, _, rfl, rfl, by rw [hm.rest]⟩
  | failed hm => exact hm.elim
  | misplaced hm => exact absurd rfl (hx _)

/-- The runs part exactly if the first of them comes to write more than the limit. -/
theorem exists_parts (t : Tree) (hm : Shadows limit w m m') {k : Nat}
    (hover : limit < (t.run k m).machine.sink.accepted.size) :
    ∃ j, t.Parts limit w (t.run j m) (t.run j m') := by
  rcases t.abreast_or_parts hm k with habreast | ⟨j, -, hparts⟩
  · have hle := habreast.accepted.2
    omega
  · exact ⟨j, hparts⟩

theorem abreast_of_within (t : Tree) (hm : Shadows limit w m m')
    (hwithin : ∀ k, (t.run k m).machine.sink.accepted.size ≤ limit) (k : Nat) :
    Abreast (Shadows limit w) NeverFails (t.run k m) (t.run k m') := by
  rcases t.abreast_or_parts hm k with habreast | ⟨j, -, hparts⟩
  · exact habreast
  · have hlength := congrArg List.length hparts.writes
    have hle := hwithin (j + 1)
    rw [run_succ] at hle
    have hfull := hparts.full
    simp only [Array.length_toList, List.length_append, List.length_singleton] at hlength
    omega

end Tree

namespace Program

/-- One program run twice from the same tape and over the same input, in which no read fails: once
with a sink that takes everything, and once with a sink that takes `limit` bytes and then fails in
its way. If the first run ever writes more than that, the second fails at the output that writes
the byte behind the limit, with the tape that this output meets, and has had the first `limit` of
the bytes accepted. Otherwise both write the same bytes, and both finish with the same tape or both
go on for ever. -/
theorem limited_sink_sees_first_bytes (p : Program) (tape : Tape) (feed : Feed) (eof : EofPolicy)
    (limit : Nat) (w : WhenFull) (interruptions interruptions' shortfalls shortfalls' : Nat → Nat)
    (hreads : ∀ message, Delivery.failure message ∉ feed) :
    let run := fun k => p.tree.run k { tape, feed, eof, sink := { interruptions, shortfalls } }
    let run' := fun k => p.tree.run k
      { tape, feed, eof,
        sink :=
          { limit := some limit, whenFull := w, interruptions := interruptions'
            shortfalls := shortfalls' } }
    ((∃ k, limit < (run k).machine.sink.accepted.size) →
      ∃ k m₁, (run k).machine.sink.accepted.size = limit ∧
        (run (k + 1)).machine.sink.accepted.toList =
          (run k).machine.sink.accepted.toList ++ [(run k).machine.tape.current] ∧
        run' (k + 1) = .failed (.write w.error) m₁ ∧ m₁.tape = (run k).machine.tape ∧
        ∀ j, limit < (run j).machine.sink.accepted.size →
          m₁.sink.accepted.toList = (run j).machine.sink.accepted.toList.take limit) ∧
    ((∀ k, (run k).machine.sink.accepted.size ≤ limit) →
      (∀ k, (run' k).machine.sink.accepted = (run k).machine.sink.accepted) ∧
      ((∃ k n m₁ m₁', run k = .finished m₁ n ∧ run' k = .finished m₁' n ∧ m₁'.tape = m₁.tape) ∨
        ∀ k, (∃ r, run k = .running r) ∧ ∃ r', run' k = .running r')) := by
  intro run run'
  have hm : Machine.Shadows limit w { tape, feed, eof, sink := { interruptions, shortfalls } }
      { tape, feed, eof,
        sink :=
          { limit := some limit, whenFull := w, interruptions := interruptions'
            shortfalls := shortfalls' } } :=
    ⟨⟨rfl, rfl, rfl, rfl, Nat.zero_le limit, rfl, rfl⟩, rfl, hreads⟩
  constructor
  · rintro ⟨k, hover⟩
    obtain ⟨j, hfull, hwrites, m₁, hfails, htape, haccepted⟩ := p.tree.exists_parts hm hover
    rw [← Tree.run_succ] at hwrites hfails
    refine ⟨j, m₁, hfull, hwrites, hfails, htape, fun i hi => ?_⟩
    have hle := Nat.le_trans (Nat.le_of_eq hfull) (Nat.le_of_lt hi)
    have htake := p.tree.accepted_run_eq_take _ hle
    rw [hfull] at htake
    rw [haccepted]
    exact htake
  · intro hwithin
    have habreast := p.tree.abreast_of_within hm hwithin
    refine ⟨fun k => (habreast k).accepted.1, ?_⟩
    by_cases hfinished : ∃ k n m₁, run k = .finished m₁ n
    · obtain ⟨k, n, m₁, hrun⟩ := hfinished
      rcases (habreast k).running_or_finished fun _ => (p.run_tree_inStep _ k).ne_misplaced with
        ⟨r, -, hrunning, -⟩ | ⟨n', m₂, m₂', hrun₂, hrun₂', htape⟩
      · cases hrun.symm.trans hrunning
      · exact .inl ⟨k, n', m₂, m₂', hrun₂, hrun₂', htape⟩
    · right
      intro k
      rcases (habreast k).running_or_finished fun _ => (p.run_tree_inStep _ k).ne_misplaced with
        ⟨r, r', hrunning, hrunning'⟩ | ⟨n, m₁, -, hrun, -⟩
      · exact ⟨⟨r, hrunning⟩, r', hrunning'⟩
      · exact absurd ⟨k, n, m₁, hrun⟩ hfinished

/-- The loop `+[.]` writes ones for ever. A sink with room for two of them gets two. -/
theorem endless_output_cut_after_two_bytes :
    let p : Program := .op .increment ⟨1, 1, 0⟩
      (.loop ⟨1, 2, 1⟩ (.op .output ⟨1, 3, 2⟩ .nil) .nil)
    Source.program [43, 91, 46, 93] = .ok p ∧
      (∀ message, Delivery.failure message ∉ ([] : Feed)) ∧
      (∃ k, 2 < (p.tree.run k {}).machine.sink.accepted.size) ∧
      ∃ k m₁, p.tree.run k { sink := { limit := some 2, whenFull := .acceptNothing } } =
          .failed (.write .nothingAccepted) m₁ ∧
        m₁.sink.accepted.toList = [1, 1] := by
  intro p
  let body : Program := .op .output ⟨1, 3, 2⟩ .nil
  let start : Machine := { tape := Tape.blank.increment }
  let turn : Machine → Machine := fun m => { m with sink := m.sink.take [m.tape.current] }
  have hone : Tape.blank.increment.current = 1 := by
    rw [Tape.increment, Tape.current_setCurrent]
    rfl
  have hnonzero : start.tape.current ≠ 0 := by
    rw [hone]
    decide
  have hturn (m : Machine) (n : Nat) (hm : m.tape.current ≠ 0) (hlimit : m.sink.limit = none) :
      (⟨.nil, [⟨body, .nil⟩], m, n + 1⟩ : Run).Leads ⟨.nil, [⟨body, .nil⟩], turn m, n + 2⟩ := by
    have hroom : m.sink.HasRoom := fun limit h => by rw [hlimit] at h; cases h
    exact .move ((Run.step_resume ⟨1, 2, 1⟩ _ _ _ _ _).trans (Run.step_loop_nonzero hm))
      (.move (Run.step_op_ok (.output hroom)) (.refl _))
  have hincrement : Effect .increment {} start := Machine.perform_eq_ok.mp rfl
  have hstart : (⟨p, [], {}, 0⟩ : Run).Leads ⟨.nil, [⟨body, .nil⟩], turn start, 3⟩ :=
    .move (Run.step_op_ok hincrement)
      (.move (Run.step_loop_nonzero hnonzero) (.move (Run.step_op_ok (.output nofun)) (.refl _)))
  have hleads := (hstart.trans (hturn (turn start) 2 hnonzero rfl)).trans
    (hturn (turn (turn start)) 3 hnonzero rfl)
  obtain ⟨k₀, hk₀⟩ := hleads.proceed
  have hwritten : (p.tree.run k₀ {}).machine.sink.accepted.toList = [1, 1, 1] := by
    rw [(p.run_tree_inStep {} k₀).machine_eq]
    have hrun : Machine.run k₀ p {} = _ := hk₀ 0
    rw [hrun]
    show [start.tape.current, start.tape.current, start.tape.current] = _
    rw [hone]
  have hover : 2 < (p.tree.run k₀ {}).machine.sink.accepted.size := by
    rw [← Array.length_toList, hwritten]
    decide
  have hreads : ∀ message, Delivery.failure message ∉ ([] : Feed) := fun _ => List.not_mem_nil
  obtain ⟨k, m₁, -, -, hfails, -, htake⟩ := (limited_sink_sees_first_bytes p .blank [] .zero 2
    .acceptNothing (fun _ => 0) (fun _ => 0) (fun _ => 0) (fun _ => 0) hreads).1 ⟨k₀, hover⟩
  refine ⟨rfl, hreads, ⟨k₀, hover⟩, k + 1, m₁, hfails, (htake k₀ hover).trans ?_⟩
  exact congrArg (List.take 2) hwritten

end Program

end TapeLang
