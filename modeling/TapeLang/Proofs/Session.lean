import TapeLang.Proofs.Emission

/-!
Sessions with a generator. Calls may come in any number and any order, and a generator goes on
after a call that failed. Into a sink without limit the only call that fails leaves a loop when none
is open; it writes out what was held back and nothing else. So the text of a session is what its
draft says, also for calls that belong to no program.
-/
namespace TapeLang

open Assembly

namespace Generator

/-- The generator that an action leaves behind, whether or not it fails. -/
def leaves {α : Type} (x : Emit α) (g : Generator) : Generator :=
  match x g with
  | .ok _ g' => g'
  | .error _ g' => g'

/-- Make calls in turn, failed ones included, and then perhaps write a whole program. -/
def session (g : Generator) (cs : List Call) (last : Option Program) : Generator :=
  let g := cs.foldl (fun g c => leaves (call c) g) g
  match last with
  | none => g
  | some p => leaves (generate p) g

/-- An action that emits texts succeeds on a sink without limit, and the sink then has them. -/
theorem Emits.run {x : Emit Unit} {g g' : Generator} {texts : List String}
    (h : Emits x g texts g') (hlimit : g.sink.limit = none) :
    ∃ s : Sink, x g = .ok () { g' with sink := s } ∧ s.limit = none ∧
      s.accepted.toList = g.sink.accepted.toList ++ Sink.bytesOf (String.join texts) := by
  obtain ⟨s, hwrite, -, haccepted⟩ := Sink.writeTexts_of_unlimited texts g.sink hlimit
  have hsame := g.sink.resembles_writeTexts texts
  rw [hwrite] at hsame
  exact ⟨s, (h g.sink s).1 hwrite, hsame.limit.trans hlimit, haccepted⟩

/-- What became of a generator whose sink has no limit: it has written these lines and stands at
this draft. -/
structure Wrote (g : Generator) (ls : List Line) (d : Draft) (g' : Generator) : Prop where
  options : g'.options = g.options
  indented : g'.indented = g.indented
  draft : g'.draft = d
  limit : g'.sink.limit = none
  accepted : g'.sink.accepted.toList = g.sink.accepted.toList ++
    Sink.bytesOf (String.join (ls.map g.render))

theorem Wrote.refl {g : Generator} (hlimit : g.sink.limit = none) : Wrote g [] g.draft g where
  options := rfl
  indented := rfl
  draft := rfl
  limit := hlimit
  accepted := by simp [Sink.bytesOf]

theorem Wrote.trans {g g₁ g₂ : Generator} {ls ls₁ : List Line} {d d₁ : Draft}
    (h : Wrote g ls d g₁) (h₁ : Wrote g₁ ls₁ d₁ g₂) : Wrote g (ls ++ ls₁) d₁ g₂ where
  options := h₁.options.trans h.options
  indented := h₁.indented.trans h.indented
  draft := h₁.draft
  limit := h₁.limit
  accepted := by
    have hrender : g₁.render = g.render := by
      funext l
      rw [render, render, h.options, h.indented]
    rw [h₁.accepted, h.accepted, hrender, List.append_assoc, ← Sink.bytesOf_append,
      ← String.join_append, ← List.map_append]

theorem Lays.run {x : Emit Unit} {g : Generator} {ls : List Line} {d : Draft}
    (h : Lays x g ls d) (hlimit : g.sink.limit = none) :
    ∃ g', x g = .ok () g' ∧ Wrote g ls d g' := by
  obtain ⟨s, hrun, hlimit', haccepted⟩ := Emits.run h hlimit
  exact ⟨_, hrun, rfl, rfl, rfl, hlimit', haccepted⟩

/-- A call that leaves a loop when none is open fails after writing out what was held back. -/
theorem call_exitLoop_of_none_open {g : Generator} (hlimit : g.sink.limit = none)
    (hloops : g.loops = []) (pos : Position) :
    call (.exitLoop pos) g = .error .noOpenLoop (leaves flush g) := by
  obtain ⟨g', hflush, hwrote⟩ := (lays_flush g).run hlimit
  have hnone : g'.loops = [] := (congrArg Draft.loops hwrote.draft).trans hloops
  simp only [call, leaves, bind, EStateM.bind, hflush, exitLoop, get_eq, hnone]
  rfl

/-- Whatever the call, it writes the lines that the draft says and leaves the draft after them. -/
theorem wrote_call (g : Generator) (c : Call) (hlimit : g.sink.limit = none) :
    Wrote g (g.draft.wrote g.options c) (g.draft.next g.options c) (leaves (call c) g) := by
  by_cases hstray : (∃ pos, c = .exitLoop pos) ∧ g.loops = []
  · obtain ⟨⟨pos, rfl⟩, hloops⟩ := hstray
    obtain ⟨g', hflush, hwrote⟩ := (lays_flush g).run hlimit
    have hlines : g.draft.wrote g.options (.exitLoop pos) = g.pending.lines := by
      rw [Draft.wrote, show g.draft.loops = [] from hloops]
      exact List.append_nil _
    have hnext : g.draft.next g.options (.exitLoop pos) = { g.draft with pending := .none } := by
      simp only [Draft.next, draft, hloops, List.tail_nil]
    rw [hlines, hnext]
    simpa only [leaves, call_exitLoop_of_none_open hlimit hloops, hflush] using hwrote
  · have hopen : ∀ pos, c = .exitLoop pos → g.loops ≠ [] :=
      fun pos hc hloops => hstray ⟨⟨pos, hc⟩, hloops⟩
    obtain ⟨g', hrun, hwrote⟩ := (lays_call g c hopen).run hlimit
    simpa only [leaves, hrun] using hwrote

theorem wrote_calls (cs : List Call) (g : Generator) (hlimit : g.sink.limit = none) :
    Wrote g (g.draft.code g.options cs) (g.draft.after g.options cs)
      (cs.foldl (fun g c => leaves (call c) g) g) := by
  induction cs generalizing g with
  | nil => exact .refl hlimit
  | cons c rest ih =>
    have hcall := g.wrote_call c hlimit
    have hrest := ih (leaves (call c) g) hcall.limit
    rw [hcall.draft, hcall.options] at hrest
    exact hcall.trans hrest

/-- Whether or not the flush at its end succeeds, a program is written in full. -/
theorem accepted_generate {g : Generator} (p : Program) (hlimit : g.sink.limit = none)
    (hindent : g.indented = false) :
    (leaves (generate p) g).sink.accepted.toList =
        g.sink.accepted.toList ++ Sink.bytesOf (String.join (p.texts g.options g.draft)) ∧
      (leaves (generate p) g).draft = g.draft.after g.options p.calls := by
  obtain ⟨s, hrun, -, haccepted⟩ := (g.emits_writeProgram p hindent).run hlimit
  rw [← haccepted, leaves, generate_eq]
  simp only [bind, EStateM.bind, hrun, flushSink, Sink.flush]
  cases s.flushFailure with
  | none => exact ⟨rfl, rfl⟩
  | some message => exact ⟨rfl, rfl⟩

end Generator

end TapeLang
