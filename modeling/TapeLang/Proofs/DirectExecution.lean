import TapeLang.Proofs.Placement
import TapeLang.Proofs.Interpretation

/-!
Direct execution of a source. A machine that keeps an offset into the bytes needs no program: it
passes over comments, carries out simple symbols, and at brackets jumps to partners that it looks
up in the source. It halts when it runs off the end of the source, and it does so exactly when the
program read from the source comes to its end, on the same machine.
-/
namespace TapeLang

namespace Source

/-- A machine with the offset of the byte that it comes to next. -/
structure Cursor where
  pc : Nat
  machine : Machine

/-- One step on the bytes of a source. A `[` over a zero cell leads behind its partner, and a `]`
leads back to its partner, where the cell is tested again. -/
inductive Step (src : Source) : Cursor → Cursor → Prop
  | comment {pc : Nat} {m : Machine} (hpc : pc < src.length) (h : src.symbolAt pc = none) :
      Step src ⟨pc, m⟩ ⟨pc + 1, m⟩
  | op {pc : Nat} {m m' : Machine} {o : Op} (h : src.symbolAt pc = some (.op o))
      (heffect : Effect o m m') : Step src ⟨pc, m⟩ ⟨pc + 1, m'⟩
  | enter {pc : Nat} {m : Machine} (h : src.symbolAt pc = some .opening)
      (hcell : m.tape.current ≠ 0) : Step src ⟨pc, m⟩ ⟨pc + 1, m⟩
  | skip {pc c : Nat} {m : Machine} (h : src.symbolAt pc = some .opening)
      (hcell : m.tape.current = 0) (hc : src.matchingClose pc = some c) :
      Step src ⟨pc, m⟩ ⟨c + 1, m⟩
  | back {pc o : Nat} {m : Machine} (h : src.symbolAt pc = some .closing)
      (ho : src.symbolAt o = some .opening) (hc : src.matchingClose o = some pc) :
      Step src ⟨pc, m⟩ ⟨o, m⟩

inductive Steps (src : Source) : Nat → Cursor → Cursor → Prop
  | refl (s : Cursor) : Steps src 0 s s
  | step {n : Nat} {s s₁ s₂ : Cursor} (h : Step src s s₁) (hrest : Steps src n s₁ s₂) :
      Steps src (n + 1) s s₂

/-- Started at the first byte, direct execution runs off the end with the machine `m'`. -/
def Halts (src : Source) (m m' : Machine) : Prop :=
  ∃ n, Steps src n ⟨0, m⟩ ⟨src.length, m'⟩

theorem Step.unique {src : Source} {s s₁ s₂ : Cursor} (h₁ : Step src s s₁) (h₂ : Step src s s₂) :
    s₁ = s₂ := by
  cases h₁ with
  | comment hpc h =>
    cases h₂ with
    | comment => rfl
    | op h' => cases h.symm.trans h'
    | enter h' => cases h.symm.trans h'
    | skip h' => cases h.symm.trans h'
    | back h' => cases h.symm.trans h'
  | op h heffect =>
    cases h₂ with
    | comment hpc h' => cases h.symm.trans h'
    | op h' heffect' =>
      rw [h] at h'
      cases h'
      rw [heffect.unique heffect']
    | enter h' => cases h.symm.trans h'
    | skip h' => cases h.symm.trans h'
    | back h' => cases h.symm.trans h'
  | enter h hcell =>
    cases h₂ with
    | comment hpc h' => cases h.symm.trans h'
    | op h' => cases h.symm.trans h'
    | enter => rfl
    | skip h' hcell' => exact absurd hcell' hcell
    | back h' => cases h.symm.trans h'
  | skip h hcell hc =>
    cases h₂ with
    | comment hpc h' => cases h.symm.trans h'
    | op h' => cases h.symm.trans h'
    | enter h' hcell' => exact absurd hcell hcell'
    | skip h' hcell' hc' =>
      rw [hc] at hc'
      cases hc'
      rfl
    | back h' => cases h.symm.trans h'
  | back h ho hc =>
    cases h₂ with
    | comment hpc h' => cases h.symm.trans h'
    | op h' => cases h.symm.trans h'
    | enter h' => cases h.symm.trans h'
    | skip h' => cases h.symm.trans h'
    | back h' ho' hc' => rw [matchingClose_unique ho ho' hc hc']

theorem not_step_at_end (src : Source) (m : Machine) (s : Cursor) :
    ¬ Step src ⟨src.length, m⟩ s := by
  intro h
  cases h with
  | comment hpc => exact Nat.lt_irrefl _ hpc
  | op h => exact Nat.lt_irrefl _ (lt_length_of_symbolAt h)
  | enter h => exact Nat.lt_irrefl _ (lt_length_of_symbolAt h)
  | skip h => exact Nat.lt_irrefl _ (lt_length_of_symbolAt h)
  | back h => exact Nat.lt_irrefl _ (lt_length_of_symbolAt h)

theorem Steps.trans {src : Source} {n k : Nat} {s s₁ s₂ : Cursor} (h : Steps src n s s₁)
    (h' : Steps src k s₁ s₂) : Steps src (n + k) s s₂ := by
  induction h with
  | refl s => rwa [Nat.zero_add]
  | step hstep _ ih =>
    rw [Nat.add_right_comm]
    exact .step hstep (ih h')

theorem Steps.single {src : Source} {s s₁ : Cursor} (h : Step src s s₁) : Steps src 1 s s₁ :=
  .step h (.refl s₁)

theorem Steps.tail {src : Source} {n pc : Nat} {m m' : Machine} {s : Cursor}
    (h : Steps src n ⟨pc, m⟩ ⟨src.length, m'⟩) (hpc : pc < src.length)
    (hstep : Step src ⟨pc, m⟩ s) : ∃ k, n = k + 1 ∧ Steps src k s ⟨src.length, m'⟩ := by
  cases h with
  | refl => exact absurd hpc (Nat.lt_irrefl _)
  | step hstep' hrest =>
    rw [hstep.unique hstep']
    exact ⟨_, rfl, hrest⟩

theorem steps_of_blank {src : Source} {i j : Nat} (h : src.Blank i j) (m : Machine) :
    ∃ n, Steps src n ⟨i, m⟩ ⟨j, m⟩ := by
  induction hn : j - i generalizing i with
  | zero =>
    obtain ⟨hle, -⟩ := h
    obtain rfl : i = j := by omega
    exact ⟨0, .refl _⟩
  | succ k ih =>
    have hlt : i < j := by omega
    obtain ⟨hi, hnone⟩ := h.2 i (Nat.le_refl i) hlt
    obtain ⟨n, hsteps⟩ := ih (h.tail hlt) (by omega)
    exact ⟨n + 1, .step (.comment hi hnone) hsteps⟩

/-- A program that completes is walked through by direct execution wherever it stands. -/
theorem steps_of_executes {src : Source} {p : Program} {m m' : Machine} {x : Ending}
    (h : Executes p m x) (hx : x = .completes m') {i j : Nat} (hspan : src.Spans i p j) :
    ∃ n, Steps src n ⟨i, m⟩ ⟨j, m'⟩ := by
  induction h generalizing m' i j with
  | nil =>
    cases hx
    exact steps_of_blank hspan _
  | op he hrest ih =>
    obtain ⟨k, hblank, hk, hspan'⟩ := hspan
    obtain ⟨n, hn⟩ := steps_of_blank hblank _
    obtain ⟨n', hn'⟩ := ih hx hspan'
    exact ⟨_, hn.trans (.step (.op hk he) hn')⟩
  | stop hr => cases hx
  | loopDone hz hrest ih =>
    obtain ⟨k, c, hblank, hk, hbody, hc, hspan'⟩ := hspan
    obtain ⟨n, hn⟩ := steps_of_blank hblank _
    obtain ⟨n', hn'⟩ := ih hx hspan'
    exact ⟨_, hn.trans (.step (.skip hk hz (matchingClose_of_spans hbody hc)) hn')⟩
  | loopTurn hnz hbody hagain ihbody ihagain =>
    obtain ⟨k, c, hblank, hk, hspanbody, hc, hspan'⟩ := hspan
    have hmatch := matchingClose_of_spans hspanbody hc
    obtain ⟨n, hn⟩ := steps_of_blank hblank _
    obtain ⟨n₁, hn₁⟩ := ihbody rfl hspanbody
    obtain ⟨n₂, hn₂⟩ := ihagain hx ⟨k, c, Blank.refl src k, hk, hspanbody, hc, hspan'⟩
    exact ⟨_, hn.trans (.step (.enter hk hnz) (hn₁.trans (.step (.back hc hk hmatch) hn₂)))⟩
  | loopStop hnz hbody ihbody => cases hx

theorem Steps.past_blank {src : Source} {i j n : Nat} {m m' : Machine} (hblank : src.Blank i j)
    (h : Steps src n ⟨i, m⟩ ⟨src.length, m'⟩) :
    ∃ k, k ≤ n ∧ Steps src k ⟨j, m⟩ ⟨src.length, m'⟩ := by
  induction hd : j - i generalizing i n with
  | zero =>
    obtain ⟨hle, -⟩ := hblank
    obtain rfl : i = j := by omega
    exact ⟨n, Nat.le_refl n, h⟩
  | succ d ih =>
    have hlt : i < j := by omega
    obtain ⟨hi, hnone⟩ := hblank.2 i (Nat.le_refl i) hlt
    obtain ⟨n', rfl, hrest⟩ := h.tail hi (.comment hi hnone)
    obtain ⟨k, hk, hsteps⟩ := ih (hblank.tail hlt) hrest (by omega)
    exact ⟨k, by omega, hsteps⟩

/-- Direct execution that comes to the end of the source has walked through every program that
stands on its way. The induction is on the number of steps, since after a turn of a loop the same
loop comes again. -/
theorem executes_of_steps {src : Source} (n : Nat) {p : Program} {m mf : Machine} {i j : Nat}
    (hm : m.Untroubled) (hspan : src.Spans i p j)
    (h : Steps src n ⟨i, m⟩ ⟨src.length, mf⟩) :
    ∃ m' k, k ≤ n ∧ Executes p m (.completes m') ∧ Steps src k ⟨j, m'⟩ ⟨src.length, mf⟩ := by
  induction n using Nat.strongRecOn generalizing p m i j with
  | ind n ih =>
    cases p with
    | nil =>
      obtain ⟨k, hk, hsteps⟩ := h.past_blank hspan
      exact ⟨m, k, hk, .nil, hsteps⟩
    | op o pos rest =>
      obtain ⟨l, hblank, hl, hspan'⟩ := hspan
      obtain ⟨n₁, hn₁, h₁⟩ := h.past_blank hblank
      obtain ⟨m₁, heffect⟩ := hm.effect o
      obtain ⟨n₂, rfl, h₂⟩ := h₁.tail (lt_length_of_symbolAt hl) (.op hl heffect)
      obtain ⟨m', k, hk, hx, hsteps⟩ := ih n₂ (by omega) (heffect.untroubled hm) hspan' h₂
      exact ⟨m', k, by omega, .op heffect hx, hsteps⟩
    | loop pos body rest =>
      obtain ⟨l, c, hblank, hl, hspanbody, hc, hspan'⟩ := hspan
      have hmatch := matchingClose_of_spans hspanbody hc
      obtain ⟨n₁, hn₁, h₁⟩ := h.past_blank hblank
      by_cases hz : m.tape.current = 0
      · obtain ⟨n₂, rfl, h₂⟩ := h₁.tail (lt_length_of_symbolAt hl) (.skip hl hz hmatch)
        obtain ⟨m', k, hk, hx, hsteps⟩ := ih n₂ (by omega) hm hspan' h₂
        exact ⟨m', k, by omega, .loopDone hz hx, hsteps⟩
      · obtain ⟨n₂, rfl, h₂⟩ := h₁.tail (lt_length_of_symbolAt hl) (.enter hl hz)
        obtain ⟨m₁, n₃, hn₃, hbody, h₃⟩ := ih n₂ (by omega) hm hspanbody h₂
        obtain ⟨m₁', heq, hm₁⟩ := hbody.completes hm
        cases heq
        obtain ⟨n₄, rfl, h₄⟩ := h₃.tail (lt_length_of_symbolAt hc) (.back hc hl hmatch)
        obtain ⟨m', k, hk, hagain, hsteps⟩ := ih n₄ (by omega) (p := .loop pos body rest) hm₁
          ⟨l, c, Blank.refl src l, hl, hspanbody, hc, hspan'⟩ h₄
        exact ⟨m', k, by omega, .loopTurn hz hbody hagain, hsteps⟩

/-- Direct execution of a source halts exactly when its program completes. -/
theorem halts_iff_completes {src : Source} {p : Program} (hp : src.program = .ok p)
    {m m' : Machine} (hm : m.Untroubled) :
    src.Halts m m' ↔ Executes p m (.completes m') := by
  have hspan := spans_of_program hp
  constructor
  · rintro ⟨n, hsteps⟩
    obtain ⟨m₁, k, -, hx, hrest⟩ := executes_of_steps n hm hspan hsteps
    cases hrest with
    | refl => exact hx
    | step hstep => exact absurd hstep (not_step_at_end src _ _)
  · intro hx
    exact steps_of_executes hx rfl hspan

/-- In an accepted source there is a step from everywhere but the end. -/
theorem exists_step {src : Source} {p : Program} (hp : src.program = .ok p) {s : Cursor}
    (hpc : s.pc ≤ src.length) (hm : s.machine.Untroubled) :
    s.pc = src.length ∨ ∃ s', Step src s s' := by
  have hspan := spans_of_program hp
  obtain ⟨pc, m⟩ := s
  by_cases hend : pc = src.length
  · exact .inl hend
  · have hlt : pc < src.length := Nat.lt_of_le_of_ne hpc hend
    right
    cases hat : src.symbolAt pc with
    | none => exact ⟨_, .comment hlt hat⟩
    | some symbol =>
      cases symbol with
      | op o =>
        obtain ⟨m', heffect⟩ := hm.effect o
        exact ⟨_, .op hat heffect⟩
      | opening =>
        by_cases hz : m.tape.current = 0
        · obtain ⟨c, -, hc⟩ := hspan.exists_close (Nat.zero_le pc) hlt hat
          exact ⟨_, .skip hat hz hc⟩
        · exact ⟨_, .enter hat hz⟩
      | closing =>
        obtain ⟨o, ho, hc⟩ := hspan.exists_open (Nat.zero_le pc) hlt hat
        exact ⟨_, .back hat ho hc⟩

theorem Step.stays {src : Source} {p : Program} (hp : src.program = .ok p) {s s' : Cursor}
    (h : Step src s s') (hm : s.machine.Untroubled) :
    s'.pc ≤ src.length ∧ s'.machine.Untroubled := by
  cases h with
  | comment hpc => exact ⟨hpc, hm⟩
  | op h heffect => exact ⟨lt_length_of_symbolAt h, heffect.untroubled hm⟩
  | enter h => exact ⟨lt_length_of_symbolAt h, hm⟩
  | @skip pc c m h hcell hc =>
    obtain ⟨c', hlt, hc'⟩ :=
      (spans_of_program hp).exists_close (Nat.zero_le pc) (lt_length_of_symbolAt h) h
    cases hc.symm.trans hc'
    exact ⟨hlt, hm⟩
  | back h ho => exact ⟨Nat.le_of_lt (lt_length_of_symbolAt ho), hm⟩

theorem Steps.stays {src : Source} {p : Program} (hp : src.program = .ok p) {n : Nat}
    {s s' : Cursor} (h : Steps src n s s') (hpc : s.pc ≤ src.length)
    (hm : s.machine.Untroubled) : s'.pc ≤ src.length ∧ s'.machine.Untroubled := by
  induction h with
  | refl s => exact ⟨hpc, hm⟩
  | step hstep _ ih =>
    obtain ⟨hpc', hm'⟩ := hstep.stays hp hm
    exact ih hpc' hm'

/-- On any tape and over any bytes, an accepted source executed directly and the run over the node
table of its program halt together, and then leave the same output, input, cells and head. Direct
execution has one way to go on at every point and never gets stuck before the end; the run over
the table has no way to fail. -/
theorem direct_execution_agrees_with_run {src : Source} {p : Program} (hp : src.program = .ok p)
    (tape : Tape) (input : List UInt8) (eof : EofPolicy) :
    let m : Machine := { tape, feed := .ofBytes input, eof }
    ((∃ fuel, ∀ r, p.tree.run fuel m ≠ .running r) ↔ ∃ m', src.Halts m m') ∧
    (∀ fuel, (∀ r, p.tree.run fuel m ≠ .running r) →
      ∃ m' n, p.tree.run fuel m = .finished m' n) ∧
    (∀ fuel n m₁ m₂, p.tree.run fuel m = .finished m₁ n → src.Halts m m₂ →
      m₁.sink.accepted = m₂.sink.accepted ∧ m₁.feed = m₂.feed ∧ m₁.tape = m₂.tape) ∧
    (∀ n s, Steps src n ⟨0, m⟩ s → s.pc = src.length ∨ ∃ s', Step src s s') ∧
    ∀ s s₁ s₂, Step src s s₁ → Step src s s₂ → s₁ = s₂ := by
  intro m
  have hm : m.Untroubled := Machine.untroubled_ofBytes tape input eof
  refine ⟨⟨?_, ?_⟩, ?_, ?_, ?_, fun s s₁ s₂ h₁ h₂ => h₁.unique h₂⟩
  · rintro ⟨fuel, hover⟩
    obtain ⟨m', n, hx, -⟩ := Program.run_tree_over hm hover
    exact ⟨m', (halts_iff_completes hp hm).mpr hx⟩
  · rintro ⟨m', hhalts⟩
    obtain ⟨fuel, n, heq⟩ :=
      Program.run_tree_of_completes hm ((halts_iff_completes hp hm).mp hhalts)
    refine ⟨fuel, fun r hr => ?_⟩
    cases heq.symm.trans hr
  · intro fuel hover
    obtain ⟨m', n, -, heq⟩ := Program.run_tree_over hm hover
    exact ⟨m'.flushed, n, heq⟩
  · intro fuel n m₁ m₂ hfinished hhalts
    obtain ⟨m', n', hx, heq⟩ :=
      Program.run_tree_over hm fun r hr => by cases hfinished.symm.trans hr
    cases hfinished.symm.trans heq
    cases hx.unique ((halts_iff_completes hp hm).mp hhalts)
    exact ⟨rfl, rfl, rfl⟩
  · intro n s hsteps
    obtain ⟨hpc, hs⟩ := hsteps.stays hp (Nat.zero_le _) hm
    exact exists_step hp hpc hs

/-- A loop that counts the cell down from one, and the zero that is written after it. -/
theorem direct_execution_of_clearing_loop :
    ∃ p, Source.program [91, 45, 93, 46] = .ok p ∧
      ∃ fuel m' n, p.tree.run fuel { tape := Tape.blank.increment } = .finished m' n ∧
        m'.sink.accepted = #[0] := by
  have hp : Source.program [91, 45, 93, 46] = .ok
      (.loop ⟨1, 1, 0⟩ (.op .decrement ⟨1, 2, 1⟩ .nil) (.op .output ⟨1, 4, 3⟩ .nil)) := by
    rfl
  obtain ⟨hhalt, hfinish, hsame, -, -⟩ :=
    direct_execution_agrees_with_run hp Tape.blank.increment [] .zero
  have hone : Tape.blank.increment.current ≠ 0 := by
    simp [Tape.increment, Tape.current, Tape.get_setCurrent]
  have hzero : Tape.blank.increment.decrement.current = 0 := by
    simp [Tape.increment, Tape.decrement, Tape.current, Tape.get_setCurrent]
  have hsteps : Halts [91, 45, 93, 46] { tape := Tape.blank.increment }
      { tape := Tape.blank.increment.decrement,
        sink := Sink.take {} [Tape.blank.increment.decrement.current] } := by
    refine ⟨5, .step (.enter (by decide) hone) ?_⟩
    refine .step (.op (o := .decrement) (by decide) (Machine.perform_eq_ok.mp rfl)) ?_
    refine .step (.back (o := 0) (by decide) (by decide) (by decide)) ?_
    refine .step (.skip (c := 2) (by decide) hzero (by decide)) ?_
    exact .single (.op (o := .output) (by decide) (.output fun limit h => by cases h))
  obtain ⟨fuel, hover⟩ := hhalt.mpr ⟨_, hsteps⟩
  obtain ⟨m', n, hrun⟩ := hfinish fuel hover
  obtain ⟨haccepted, -, -⟩ := hsame fuel n m' _ hrun hsteps
  refine ⟨_, hp, fuel, m', n, hrun, haccepted.trans ?_⟩
  rw [hzero]
  rfl

end Source

end TapeLang
