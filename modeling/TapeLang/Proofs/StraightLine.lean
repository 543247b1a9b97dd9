import TapeLang.Proofs.Interpretation
import TapeLang.Proofs.Reading

/-!
Updates in a row. A word of instructions that move the head or change the current cell comes to one
net shift of the head and one net change for each offset from where the head started, whatever the
order in which cells are visited and left again. Offsets count modulo the number of cells and
changes modulo 256, so that words with the same nets cannot be told apart.
-/
namespace TapeLang

/-- The instructions that only touch the tape. -/
def Op.isUpdate : Op → Bool
  | increment | decrement | moveLeft | moveRight => true
  | output | input => false

/-- By how much an instruction changes the current cell. -/
def Op.delta : Op → Int
  | increment => 1
  | decrement => -1
  | _ => 0

/-- Instructions in a row. -/
abbrev Word := List Op

namespace Word

/-- How far the head has moved behind a word. -/
def shift (w : Word) : Int := w.count .moveRight - w.count .moveLeft

/-- How often a word comes to the instruction `o` when the head is `k` cells from its start, whole
turns of the tape apart. -/
def countAt (w : Word) (o : Op) (k : Int) : Nat :=
  (List.range w.length).countP fun j =>
    w[j]? = some o ∧ shift (w.take j) % cellCount = k % cellCount

/-- The net change of the cell that is `k` cells from where the head started. -/
def change (w : Word) (k : Int) : Int := w.countAt .increment k - w.countAt .decrement k

@[simp] theorem shift_nil : shift [] = 0 := rfl

@[simp] theorem change_nil (k : Int) : change [] k = 0 := rfl

theorem shift_append (v w : Word) : shift (v ++ w) = shift v + shift w := by
  simp only [shift, List.count_append]
  omega

theorem countAt_append (v w : Word) (o : Op) (k : Int) :
    countAt (v ++ w) o k = v.countAt o k + w.countAt o (k - v.shift) := by
  rw [countAt, List.length_append, List.range_add, List.countP_append, List.countP_map]
  congr 1
  · apply List.countP_congr
    intro j hj
    have hlt := List.mem_range.mp hj
    rw [List.getElem?_append_left hlt, List.take_append_of_le_length (Nat.le_of_lt hlt)]
  · apply List.countP_congr
    intro j _
    have hget : (v ++ w)[v.length + j]? = w[j]? := by
      rw [List.getElem?_append_right (Nat.le_add_right _ _), Nat.add_sub_cancel_left]
    have hturns (s : Int) : (v.shift + s) % cellCount = k % cellCount ↔
        s % cellCount = (k - v.shift) % cellCount := by
      simp only [cellCount, UInt16.size]
      omega
    simp only [Function.comp_apply, hget, List.take_length_add_append, shift_append, hturns]

theorem change_append (v w : Word) (k : Int) :
    change (v ++ w) k = v.change k + w.change (k - v.shift) := by
  simp only [change, countAt_append]
  omega

/-- Whole turns of the tape make no difference. -/
theorem change_congr (w : Word) {k k' : Int} (h : k % cellCount = k' % cellCount) :
    w.change k = w.change k' := by
  simp only [change, countAt, h]

theorem countAt_singleton (o o' : Op) (k : Int) :
    countAt [o] o' k = if o = o' ∧ k % cellCount = 0 then 1 else 0 := by
  have hrange : List.range ([o] : Word).length = [0] := rfl
  have hstart : shift (([o] : Word).take 0) % cellCount = k % cellCount ↔ k % cellCount = 0 :=
    eq_comm
  simp only [countAt, hrange, List.countP_singleton, hstart, List.getElem?_cons_zero,
    Option.some.injEq, decide_eq_true_eq]

theorem change_singleton (o : Op) (k : Int) :
    change [o] k = if k % cellCount = 0 then o.delta else 0 := by
  by_cases hk : k % cellCount = 0
  · simp only [change, countAt_singleton, hk, and_true, if_true]
    cases o <;> rfl
  · simp only [change, countAt_singleton, hk, and_false, if_false]
    rfl

end Word

namespace Tape

/-- The tape `t'` is what the word makes of the tape `t`. -/
structure Updates (t : Tape) (w : Word) (t' : Tape) : Prop where
  head : (t'.head.toNat : Int) = (t.head.toNat + w.shift) % cellCount
  cells : ∀ i, ((t'.get i).toNat : Int) =
    ((t.get i).toNat + w.change (i.toNat - t.head.toNat)) % 256

variable {t t₁ t₂ : Tape} {v w : Word}

theorem updates_nil (t : Tape) : t.Updates [] t := by
  refine ⟨?_, fun i => ?_⟩
  · have hlt := t.head.toNat_lt
    rw [Word.shift_nil]
    simp only [cellCount, UInt16.size]
    omega
  · have hlt := (t.get i).toNat_lt
    rw [Word.change_nil]
    omega

/-- The nets of two words in a row add up, with the second counted from where the first leaves the
head. -/
theorem Updates.trans (hv : t.Updates v t₁) (hw : t₁.Updates w t₂) : t.Updates (v ++ w) t₂ := by
  have hhead := hv.head
  refine ⟨?_, fun i => ?_⟩
  · rw [hw.head, hhead, Word.shift_append]
    simp only [cellCount, UInt16.size]
    omega
  · have hoffset : ((i.toNat : Int) - t₁.head.toNat) % cellCount =
        (i.toNat - t.head.toNat - v.shift) % cellCount := by
      rw [hhead]
      simp only [cellCount, UInt16.size]
      omega
    rw [hw.cells, hv.cells, Word.change_append, w.change_congr hoffset]
    omega

/-- What a word makes of a tape is told by its nets. -/
theorem Updates.eq_of_nets (hv : t.Updates v t₁) (hw : t.Updates w t₂)
    (hshift : v.shift % cellCount = w.shift % cellCount)
    (hchange : ∀ k, v.change k % 256 = w.change k % 256) : t₁ = t₂ := by
  apply Tape.ext
  · intro i
    have h₁ := hv.cells i
    have h₂ := hw.cells i
    have hnet := hchange (i.toNat - t.head.toNat)
    apply UInt8.toNat_inj.mp
    omega
  · have h₁ := hv.head
    have h₂ := hw.head
    simp only [cellCount, UInt16.size] at hshift h₁ h₂
    apply UInt16.toNat_inj.mp
    omega

/-- The cell under the head is the one at no distance. -/
theorem offset_eq_zero_iff (t : Tape) (i : UInt16) :
    ((i.toNat : Int) - t.head.toNat) % cellCount = 0 ↔ i = t.head := by
  have hi := i.toNat_lt
  have hhead := t.head.toNat_lt
  rw [← UInt16.toNat_inj]
  simp only [cellCount, UInt16.size]
  omega

theorem Stores.updates {o : Op} {t' : Tape} (hshift : Word.shift [o] = 0)
    (h : t.Stores (t.current.toNat + o.delta) t') : t.Updates [o] t' := by
  obtain ⟨hhead, hcells⟩ := h
  refine ⟨?_, fun i => ?_⟩
  · have hlt := t.head.toNat_lt
    rw [hhead, hshift]
    simp only [cellCount, UInt16.size]
    omega
  · have hlt := (t.get i).toNat_lt
    rw [hcells, Word.change_singleton]
    simp only [offset_eq_zero_iff]
    split
    · next hi => rw [hi]; rfl
    · omega

theorem Moves.updates {o : Op} {t' : Tape} (hdelta : o.delta = 0)
    (h : t.Moves (t.head.toNat + Word.shift [o]) t') : t.Updates [o] t' := by
  obtain ⟨hhead, hcells⟩ := h
  refine ⟨hhead, fun i => ?_⟩
  have hlt := (t.get i).toNat_lt
  rw [hcells, Word.change_singleton, hdelta, ite_self]
  omega

end Tape

/-- An update always succeeds and touches nothing but the tape. -/
theorem Machine.perform_update {o : Op} (h : o.isUpdate = true) (m : Machine) :
    ∃ t, m.perform o = .ok () { m with tape := t } ∧ m.tape.Updates [o] t := by
  cases o with
  | increment => exact ⟨_, rfl, Tape.Stores.updates rfl ((Tape.stores_add_one _ _).mpr rfl)⟩
  | decrement => exact ⟨_, rfl, Tape.Stores.updates rfl ((Tape.stores_sub_one _ _).mpr rfl)⟩
  | moveLeft => exact ⟨_, rfl, Tape.Moves.updates rfl ((Tape.moves_sub_one _ _).mpr rfl)⟩
  | moveRight => exact ⟨_, rfl, Tape.Moves.updates rfl ((Tape.moves_add_one _ _).mpr rfl)⟩
  | output => cases h
  | input => cases h

namespace Run

theorem proceed_add {r r' : Run} {j : Nat} (h : r.proceed j = .running r') (fuel : Nat) :
    r.proceed (j + fuel) = r'.proceed fuel := by
  induction j generalizing r with
  | zero =>
    cases h
    rw [Nat.zero_add]
  | succ j ih =>
    cases hstep : r.step with
    | running r₁ =>
      rw [proceed_of_step hstep] at h
      rw [Nat.add_right_comm, proceed_of_step hstep]
      exact ih h
    | finished m n =>
      rw [proceed, hstep] at h
      cases h
    | failed e m =>
      rw [proceed, hstep] at h
      cases h

/-- A run through a word makes one move for each instruction. -/
theorem proceed_updates {w : Word} {p : Program} (hw : ∀ o ∈ w, o.isUpdate = true)
    (hp : p.symbols = w.map .op) (loops : List OpenLoop) (m : Machine) (n : Nat) {j : Nat}
    (hj : j ≤ w.length) :
    ∃ rest t, proceed ⟨p, loops, m, n⟩ j = .running ⟨rest, loops, { m with tape := t }, n + j⟩ ∧
      rest.symbols = (w.drop j).map .op ∧ m.tape.Updates (w.take j) t := by
  induction j generalizing w p m n with
  | zero => exact ⟨p, m.tape, rfl, hp, Tape.updates_nil _⟩
  | succ j ih =>
    cases w with
    | nil => cases hj
    | cons o w =>
      cases p with
      | nil => cases hp
      | loop pos body rest => cases hp
      | op o' pos rest =>
        obtain ⟨heq, hrest⟩ := List.cons.inj hp
        cases heq
        obtain ⟨t₁, hperform, hfirst⟩ := m.perform_update (hw o List.mem_cons_self)
        have hstep : (⟨.op o pos rest, loops, m, n⟩ : Run).step =
            .running ⟨rest, loops, { m with tape := t₁ }, n + 1⟩ := by
          simp only [step, hperform]
        obtain ⟨rest', t₂, hproceed, hsymbols, hothers⟩ :=
          ih (fun o' ho => hw o' (List.mem_cons_of_mem o ho)) hrest { m with tape := t₁ } (n + 1)
            (Nat.le_of_succ_le_succ hj)
        refine ⟨rest', t₂, ?_, hsymbols, hfirst.trans hothers⟩
        rw [proceed_of_step hstep, hproceed, Nat.add_assoc, Nat.add_comm 1]

end Run

theorem Tree.InStep.exists_running {t : Tree} {x : Progress} {r : Run}
    (h : t.InStep x (.running r)) : ∃ frames, x = .running ⟨frames, r.machine, r.steps⟩ := by
  cases h with
  | running hfollows => exact ⟨_, rfl⟩

namespace Program

variable {p : Program} {w : Word} {m : Machine}

theorem run_tree_of_conclude {fuel n : Nat} {m' : Machine}
    (h : Machine.run fuel p m = m'.conclude n) :
    p.tree.run fuel m = Tree.Traversal.leave [] m' n := by
  have hstep := p.run_tree_inStep m fuel
  cases hflush : m'.sink.flushFailure with
  | none =>
    rw [Machine.conclude, hflush] at h
    rw [hstep.finished_iff.mpr h]
    simp only [Tree.Traversal.leave, m'.flush_of_none hflush]
    rfl
  | some message =>
    rw [Machine.conclude, hflush] at h
    rw [hstep.failed_iff.mpr h]
    simp only [Tree.Traversal.leave, m'.flush_of_some hflush]
    rfl

theorem eq_nil_of_symbols (h : p.symbols = []) : p = .nil := by
  cases p with
  | nil => rfl
  | op o pos rest => cases h
  | loop pos body rest => cases h

/-- Short of its end, a run through a word has done the first instructions of the word. -/
theorem run_tree_updates (hw : ∀ o ∈ w, o.isUpdate = true) (hp : p.symbols = w.map .op)
    (m : Machine) {j : Nat} (hj : j ≤ w.length) :
    ∃ frames t, p.tree.run j m = .running ⟨frames, { m with tape := t }, j⟩ ∧
      m.tape.Updates (w.take j) t := by
  obtain ⟨rest, t, hrun, -, hupdates⟩ := Run.proceed_updates hw hp [] m 0 hj
  have hstep := p.run_tree_inStep m j
  rw [Machine.run, hrun, Nat.zero_add] at hstep
  obtain ⟨frames, hframes⟩ := hstep.exists_running
  exact ⟨frames, t, hframes, hupdates⟩

/-- After one move for each instruction only the flush at the end is left. -/
theorem run_tree_past_updates (hw : ∀ o ∈ w, o.isUpdate = true) (hp : p.symbols = w.map .op)
    (m : Machine) :
    ∃ t, m.tape.Updates w t ∧ ∀ fuel, w.length < fuel →
      p.tree.run fuel m = Tree.Traversal.leave [] { m with tape := t } w.length := by
  obtain ⟨rest, t, hrun, hrest, hupdates⟩ :=
    Run.proceed_updates hw hp [] m 0 (Nat.le_refl w.length)
  rw [List.drop_length] at hrest
  rw [List.take_length] at hupdates
  obtain rfl := eq_nil_of_symbols hrest
  refine ⟨t, hupdates, fun fuel hfuel => run_tree_of_conclude ?_⟩
  obtain ⟨more, rfl⟩ : ∃ more, fuel = w.length + (more + 1) := ⟨fuel - w.length - 1, by omega⟩
  rw [Machine.run, Run.proceed_add hrun, Nat.zero_add, Machine.proceed_conclude]

theorem exists_program_of_word {src : Source} (hlen : src.length ≤ UInt32.size - 2)
    (hsrc : src.symbols = w.map .op) : ∃ p, src.program = .ok p ∧ p.symbols = w.map .op := by
  have hcloses (w : Word) : Grammar.Closes 0 (w.map .op) := by
    induction w with
    | nil => rfl
    | cons o w ih => exact ih
  have hp := Source.program_of_closes (Position.spans_start hlen) (hsrc ▸ hcloses w)
  exact ⟨_, hp, (Source.symbols_of_program hp).trans hsrc⟩

/-- A word of updates, run on any machine, moves the head by its net shift and changes each cell by
the net of the updates that are executed while the head is on it, after any number of moves and at
the end; the input and the output are not touched before the flush that ends every run. So two words
with the same net shift and the same net change at every offset act alike on every tape. -/
theorem updates_have_closed_form (w : Word) (hw : ∀ o ∈ w, o.isUpdate = true) :
    (∀ src : Source, src.symbols = w.map .op → src.length ≤ UInt32.size - 2 →
      ∃ p, src.program = .ok p ∧ p.symbols = w.map .op) ∧
    (∀ (p : Program) (m : Machine), p.symbols = w.map .op →
      (∀ j ≤ w.length, ∃ frames t,
        p.tree.run j m = .running ⟨frames, { m with tape := t }, j⟩ ∧
        m.tape.Updates (w.take j) t) ∧
      ∃ t, m.tape.Updates w t ∧ ∀ fuel, w.length < fuel →
        p.tree.run fuel m = Tree.Traversal.leave [] { m with tape := t } w.length) ∧
    ∀ v : Word, (∀ o ∈ v, o.isUpdate = true) → v.shift % cellCount = w.shift % cellCount →
      (∀ k, v.change k % 256 = w.change k % 256) →
      ∀ (p q : Program) (m : Machine), p.symbols = w.map .op → q.symbols = v.map .op →
        ∃ t,
          (∀ fuel, w.length < fuel →
            p.tree.run fuel m = Tree.Traversal.leave [] { m with tape := t } w.length) ∧
          ∀ fuel, v.length < fuel →
            q.tree.run fuel m = Tree.Traversal.leave [] { m with tape := t } v.length := by
  refine ⟨fun src hsrc hlen => exists_program_of_word hlen hsrc, fun p m hp => ?_, ?_⟩
  · exact ⟨fun j hj => run_tree_updates hw hp m hj, run_tree_past_updates hw hp m⟩
  · intro v hv hshift hchange p q m hp hq
    obtain ⟨t, hupdates, hrun⟩ := run_tree_past_updates hw hp m
    obtain ⟨t', hupdates', hrun'⟩ := run_tree_past_updates hv hq m
    obtain rfl := hupdates'.eq_of_nets hupdates hshift hchange
    exact ⟨t', hrun, hrun'⟩

/-- From cell 0 the word `<++>-` reaches the last cell of the tape. With the `-` in front it acts
alike. -/
theorem updates_across_the_end_of_the_tape :
    let w : Word := [.moveLeft, .increment, .increment, .moveRight, .decrement]
    let v : Word := [.decrement, .moveLeft, .increment, .increment, .moveRight]
    (∀ o ∈ w, o.isUpdate = true) ∧ (∀ o ∈ v, o.isUpdate = true) ∧
      v.shift % cellCount = w.shift % cellCount ∧ (∀ k, v.change k % 256 = w.change k % 256) ∧
      ∃ p q t, Source.program [60, 43, 43, 62, 45] = .ok p ∧
        Source.program [45, 60, 43, 43, 62] = .ok q ∧
        t.head = 0 ∧ t.get 65535 = 2 ∧ t.get 0 = 255 ∧
        p.tree.run 6 {} = .finished (Machine.flushed { tape := t }) 5 ∧
        q.tree.run 6 {} = .finished (Machine.flushed { tape := t }) 5 := by
  intro w v
  have hw : ∀ o ∈ w, o.isUpdate = true := by decide
  have hv : ∀ o ∈ v, o.isUpdate = true := by decide
  have hchange (k : Int) : v.change k % 256 = w.change k % 256 := by
    let u : Word := [.moveLeft, .increment, .increment, .moveRight]
    have hbefore : v = [.decrement] ++ u := rfl
    have hbehind : w = u ++ [.decrement] := rfl
    have hstays : Word.shift [.decrement] = 0 := rfl
    have hreturns : u.shift = 0 := rfl
    rw [hbefore, hbehind, Word.change_append, Word.change_append, hstays, hreturns, Int.sub_zero,
      Int.add_comm]
  obtain ⟨haccepted, hone, htwo⟩ := updates_have_closed_form w hw
  obtain ⟨p, hp, hps⟩ := haccepted [60, 43, 43, 62, 45] rfl (by decide)
  obtain ⟨q, hq, hqs⟩ : ∃ q, Source.program [45, 60, 43, 43, 62] = .ok q ∧
      q.symbols = v.map .op := exists_program_of_word (by decide) rfl
  obtain ⟨-, t, hupdates, hrun⟩ := hone p {} hps
  obtain ⟨t', hrun', hrunv⟩ := htwo v hv rfl hchange p q {} hps hqs
  have hfinished : p.tree.run 6 {} = .finished (Machine.flushed { tape := t }) 5 :=
    hrun 6 (by decide)
  have heq : t' = t := by
    have hsame : Tree.Progress.finished (Machine.flushed { tape := t' }) 5 =
        .finished (Machine.flushed { tape := t }) 5 := (hrun' 6 (by decide)).symm.trans hfinished
    cases hsame
    rfl
  subst heq
  have hblank : Tape.blank.Updates w t' := hupdates
  have hcells (i : UInt16) : ((t'.get i).toNat : Int) = (0 + w.change i.toNat) % 256 := by
    rw [hblank.cells, Tape.get_blank, Tape.head_blank]
    rfl
  refine ⟨hw, hv, rfl, hchange, p, q, t', hp, hq, ?_, ?_, ?_, hfinished, hrunv 6 (by decide)⟩
  · exact UInt16.toNat_inj.mp (Int.ofNat.inj hblank.head)
  · exact UInt8.toNat_inj.mp (Int.ofNat.inj (hcells 65535))
  · exact UInt8.toNat_inj.mp (Int.ofNat.inj (hcells 0))

end Program

end TapeLang
