import TapeLang.Proofs.Unnoticed

/-!
Input that is not read. A run only ever shortens its feed from the front, and it looks at the rule
for the end of the input only when it reads with nothing left. So a run that never does this is the
same whatever follows its input and whichever rule there is for the end.
-/
namespace TapeLang

namespace Feed

theorem read_suffix (f : Feed) : f.read.2 <:+ f := by
  induction f with
  | nil => exact List.suffix_rfl
  | cons d rest ih =>
    cases d with
    | byte b => exact List.suffix_cons _ _
    | endOfInput => exact List.suffix_cons _ _
    | interrupted => exact ih.trans (List.suffix_cons _ _)
    | failure message => exact List.suffix_cons _ _

theorem suffix_of_yields {f f' : Feed} {r : Reading} (h : f.Yields r f') : f' <:+ f := by
  have hsuffix := f.read_suffix
  rw [yields_iff.mp h] at hsuffix
  exact hsuffix

theorem exists_of_suffix_ofBytes {f : Feed} {bytes : List UInt8} (h : f <:+ ofBytes bytes) :
    ∃ read rest, bytes = read ++ rest ∧ f = ofBytes rest := by
  obtain ⟨front, hfront⟩ := h
  obtain ⟨read, rest, hbytes, -, hrest⟩ := List.map_eq_append_iff.mp hfront.symm
  exact ⟨read, rest, hbytes, hrest.symm⟩

theorem ofBytes_append (l r : List UInt8) : ofBytes (l ++ r) = ofBytes l ++ ofBytes r :=
  List.map_append

end Feed

theorem Effect.feed {o : Op} {m m₁ : Machine} (h : Effect o m m₁) : m₁.feed <:+ m.feed := by
  cases h with
  | input hy => exact Feed.suffix_of_yields hy
  | inputAtEnd hy => exact Feed.suffix_of_yields hy
  | _ => exact List.suffix_rfl

theorem Refusal.feed {o : Op} {m m₁ : Machine} {e : RuntimeError} (h : Refusal o m e m₁) :
    m₁.feed <:+ m.feed := by
  cases h with
  | output => exact List.suffix_rfl
  | input hy => exact Feed.suffix_of_yields hy

namespace Machine

theorem ascends_feed : Ascends fun m m₁ => m₁.feed <:+ m.feed where
  refl _ := List.suffix_rfl
  trans h₁ h₂ := h₂.trans h₁
  effect := Effect.feed
  refusal := Refusal.feed
  flush _ := List.suffix_rfl

/-- The machine with more bytes behind its input and another rule for the end. -/
def extend (more : List UInt8) (eof : EofPolicy) (m : Machine) : Machine :=
  { m with feed := m.feed ++ .ofBytes more, eof }

variable {more : List UInt8} {eof : EofPolicy} {m : Machine}

theorem sparesSink_extend (more : List UInt8) (eof : EofPolicy) : SparesSink (extend more eof) :=
  ⟨fun _ => rfl, fun _ _ => rfl⟩

/-- An instruction sees the difference only if it reads with nothing left. -/
theorem perform_extend {rest : List UInt8} (hfeed : m.feed = .ofBytes rest) {o : Op}
    (ho : o = .input → m.feed ≠ []) :
    (m.extend more eof).perform o = mapResult (extend more eof) (m.perform o) := by
  obtain ⟨tape, feed, sink, policy⟩ := m
  cases o with
  | increment => rfl
  | decrement => rfl
  | moveLeft => rfl
  | moveRight => rfl
  | output => exact (sparesSink_extend more eof).output rfl
  | input =>
    obtain rfl : feed = .ofBytes rest := hfeed
    cases rest with
    | nil => exact absurd rfl (ho rfl)
    | cons b rest => rfl

end Machine

namespace Tree

variable {t : Tree} {m : Machine}

theorem feed_run (t : Tree) (fuel : Nat) (m : Machine) :
    (t.run fuel m).machine.feed <:+ m.feed :=
  ascends_run Machine.ascends_feed t m (Nat.zero_le fuel)

/-- No input instruction of the run is executed with nothing left to read. -/
def NeverStarves (t : Tree) (m : Machine) : Prop :=
  ∀ fuel r, t.run fuel m = .running r → r.nextOp? t = some .input → r.machine.feed ≠ []

theorem run_extend {bytes : List UInt8} (hfeed : m.feed = .ofBytes bytes)
    (hreads : t.NeverStarves m) (more : List UInt8) (eof : EofPolicy) (fuel : Nat) :
    t.run fuel (m.extend more eof) = (t.run fuel m).map (Machine.extend more eof) := by
  induction fuel with
  | zero => rfl
  | succ fuel ih =>
    have hsuffix := t.feed_run fuel m
    rw [run_succ, run_succ, ih]
    cases hrun : t.run fuel m with
    | running r =>
      rw [hrun, hfeed] at hsuffix
      have hr := hreads fuel r hrun
      obtain ⟨frames, m₁, steps⟩ := r
      obtain ⟨-, rest, -, hrest⟩ := Feed.exists_of_suffix_ofBytes hsuffix
      obtain ⟨move, hop, hmove⟩ := Traversal.exists_move t frames m₁ steps
      simp only [Progress.map, Progress.advance]
      rw [hmove m₁ Iff.rfl, hmove (m₁.extend more eof) Iff.rfl]
      refine Move.carryOut_map steps (fun o frames' hperform => ?_)
        ((Machine.sparesSink_extend more eof).close m₁)
      refine Machine.perform_extend hrest fun ho => hr ?_
      rw [← hop, hperform, ho]
      rfl
    | finished m₁ steps => rfl
    | failed e m₁ => rfl
    | misplaced m₁ => rfl

end Tree

namespace Program

/-- Unread input and the rule for the end of the input are unobservable. If a program finishes over
an input and has executed no input instruction with nothing left of it, then over the same input
with any bytes behind it, and under any rule for the end, it finishes after the same moves with the
same output and the same tape, and it has read the same bytes. -/
theorem unread_input_is_not_noticed (p : Program) (bytes : List UInt8) (eof : EofPolicy)
    {fuel steps : Nat} {m : Machine}
    (hrun : p.tree.run fuel { feed := .ofBytes bytes, eof } = .finished m steps)
    (hreads : p.tree.NeverStarves { feed := .ofBytes bytes, eof }) (more : List UInt8)
    (eof' : EofPolicy) :
    ∃ m', p.tree.run fuel { feed := .ofBytes (bytes ++ more), eof := eof' } = .finished m' steps ∧
      m'.sink.accepted = m.sink.accepted ∧ m'.tape = m.tape ∧
      ∃ read rest, bytes = read ++ rest ∧ m.feed = .ofBytes rest ∧
        m'.feed = .ofBytes (rest ++ more) := by
  have hextend := Tree.run_extend rfl hreads more eof' fuel
  rw [hrun] at hextend
  have hsuffix := p.tree.feed_run fuel { feed := .ofBytes bytes, eof }
  rw [hrun] at hsuffix
  obtain ⟨read, rest, hbytes, hrest⟩ := Feed.exists_of_suffix_ofBytes hsuffix
  have hrest : m.feed = .ofBytes rest := hrest
  refine ⟨m.extend more eof', ?_, rfl, rfl, read, rest, hbytes, hrest, ?_⟩
  · rw [Feed.ofBytes_append]
    exact hextend
  · rw [Feed.ofBytes_append, ← hrest]
    rfl

/-- The loop `,[.,]` copies its input up to the first zero. Over the bytes 7 and 0 it reads both and
ends, so it leaves alone what follows them. -/
theorem rest_behind_zero_is_left :
    let p : Program := .op .input ⟨1, 1, 0⟩
      (.loop ⟨1, 2, 1⟩ (.op .output ⟨1, 3, 2⟩ (.op .input ⟨1, 4, 3⟩ .nil)) .nil)
    Source.program [44, 91, 46, 44, 93] = .ok p ∧
      p.tree.NeverStarves { feed := .ofBytes [7, 0] } ∧
      (∃ m steps, p.tree.run 6 { feed := .ofBytes [7, 0] } = .finished m steps) ∧
      ∃ m' steps, p.tree.run 6 { feed := .ofBytes [7, 0, 9], eof := .max } = .finished m' steps ∧
        m'.sink.accepted = #[7] ∧ m'.feed = .ofBytes [9] := by
  intro p
  let m : Machine := { feed := .ofBytes [7, 0] }
  let m₁ : Machine := { m with tape := m.tape.setCurrent 7, feed := .ofBytes [0] }
  let m₂ : Machine := { m₁ with sink := m₁.sink.take [m₁.tape.current] }
  let m₃ : Machine := { m₂ with tape := m₂.tape.setCurrent 0, feed := .ofBytes [] }
  have hseven : m₁.tape.current = 7 := Tape.current_setCurrent _ _
  have hnonzero : m₁.tape.current ≠ 0 := by
    rw [hseven]
    decide
  have hzero : m₃.tape.current = 0 := Tape.current_setCurrent _ _
  have htree : p.tree = ⟨#[⟨.root, .start, none, #[1, 2]⟩, ⟨.op .input, ⟨1, 1, 0⟩, some 0, #[]⟩,
      ⟨.loop, ⟨1, 2, 1⟩, some 0, #[3, 4]⟩, ⟨.op .output, ⟨1, 3, 2⟩, some 2, #[]⟩,
      ⟨.op .input, ⟨1, 4, 3⟩, some 2, #[]⟩]⟩ := by
    rw [tree, calls_eq]
    rfl
  have h1 : p.tree.run 1 m = .running ⟨[⟨0, 1⟩], m₁, 1⟩ := by
    rw [htree]
    rfl
  have h2 : p.tree.run 2 m = .running ⟨[⟨2, 0⟩, ⟨0, 2⟩], m₁, 2⟩ := by
    rw [Tree.run_succ, h1, htree]
    show (if m₁.tape.current = 0 then .running ⟨[⟨0, 2⟩], m₁, 2⟩
      else .running ⟨[⟨2, 0⟩, ⟨0, 2⟩], m₁, 2⟩ : Tree.Progress) = _
    exact if_neg hnonzero
  have h3 : p.tree.run 3 m = .running ⟨[⟨2, 1⟩, ⟨0, 2⟩], m₂, 3⟩ := by
    have hroom : m₁.sink.HasRoom := fun limit h => by cases h
    have hwrites : m₁.perform .output = .ok () m₂ := Machine.perform_eq_ok.mpr (.output hroom)
    rw [Tree.run_succ, h2, htree]
    show (Tree.Move.perform .output [⟨2, 1⟩, ⟨0, 2⟩]).carryOut m₁ 2 = _
    rw [Tree.Move.carryOut, hwrites]
  have h4 : p.tree.run 4 m = .running ⟨[⟨2, 2⟩, ⟨0, 2⟩], m₃, 4⟩ := by
    rw [Tree.run_succ, h3, htree]
    rfl
  have h5 : p.tree.run 5 m = .running ⟨[⟨0, 2⟩], m₃, 4⟩ := by
    have hover : ¬ (Kind.loop = .loop ∧ m₃.tape.current ≠ 0) := fun h => h.2 hzero
    rw [Tree.run_succ, h4, htree]
    show (if Kind.loop = .loop ∧ m₃.tape.current ≠ 0 then .running ⟨[⟨2, 0⟩, ⟨0, 2⟩], m₃, 4⟩
      else .running ⟨[⟨0, 2⟩], m₃, 4⟩ : Tree.Progress) = _
    exact if_neg hover
  have h6 (k : Nat) : p.tree.run (k + 6) m = .finished m₃.flushed 4 := by
    induction k with
    | zero =>
      rw [Tree.run_succ, h5, htree]
      rfl
    | succ k ih =>
      rw [Nat.add_right_comm, Tree.run_succ, ih]
      rfl
  have hreads : p.tree.NeverStarves m := by
    intro k r hrun hop
    rcases k with _ | _ | _ | _ | _ | _ | k
    · cases hrun
      exact List.cons_ne_nil _ _
    · cases h1.symm.trans hrun
      rw [htree] at hop
      cases hop
    · cases h2.symm.trans hrun
      rw [htree] at hop
      cases hop
    · cases h3.symm.trans hrun
      exact List.cons_ne_nil _ _
    · cases h4.symm.trans hrun
      rw [htree] at hop
      cases hop
    · cases h5.symm.trans hrun
      rw [htree] at hop
      cases hop
    · cases (h6 k).symm.trans hrun
  obtain ⟨m', hrun, haccepted, -, read, rest, -, hrest, hrest'⟩ :=
    unread_input_is_not_noticed p [7, 0] .zero (h6 0) hreads [9] .max
  refine ⟨rfl, hreads, ⟨_, _, h6 0⟩, m', 4, hrun, haccepted.trans ?_, ?_⟩
  · show #[m₁.tape.current] = #[7]
    rw [hseven]
  · obtain rfl : rest = [] := List.map_eq_nil_iff.mp hrest.symm
    exact hrest'

end Program

end TapeLang
