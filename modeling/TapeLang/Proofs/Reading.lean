import TapeLang.Call
import TapeLang.Proofs.Grammar

/-!
What reading a source comes to. Within the limits of positions a source is accepted exactly if its
brackets close, and its tokens are then its symbols with the places at which they stand. The
instructions of the program come in the order of these tokens and keep their places.
-/
namespace TapeLang

open Grammar

namespace Position

/-- There is room for `n` more bytes after this place. -/
def RoomFor (p : Position) (n : Nat) : Prop :=
  p.line + n < UInt32.size ∧ p.column + n < UInt32.size ∧ p.offset + n < UInt64.size

theorem roomFor_start {n : Nat} (h : n ≤ UInt32.size - 2) : start.RoomFor n := by
  have hlines : UInt32.size = 4294967296 := rfl
  have hoffsets : UInt64.size = 18446744073709551616 := rfl
  simp only [RoomFor, start]
  omega

theorem RoomFor.next {p : Position} {n : Nat} (h : p.RoomFor (n + 1)) (b : UInt8) :
    (p.next b).RoomFor n := by
  obtain ⟨hl, hc, ho⟩ := h
  unfold Position.next
  split
  · refine ⟨?_, ?_, ?_⟩ <;> simp only <;> omega
  · refine ⟨?_, ?_, ?_⟩ <;> simp only <;> omega

theorem RoomFor.fits {p : Position} {n : Nat} (h : p.RoomFor n) : p.Fits := by
  obtain ⟨hl, hc, ho⟩ := h
  refine ⟨?_, ?_, ?_⟩ <;> omega

/-- Every place that is passed on the way over the bytes is within its limits. -/
def Spans (p : Position) (bytes : List UInt8) : Prop :=
  ∀ before, before <+: bytes → (p.after before).Fits

theorem spans_nil {p : Position} (h : p.Fits) : p.Spans [] := by
  intro before hbefore
  rw [List.prefix_nil.mp hbefore]
  exact h

theorem spans_cons {p : Position} {b : UInt8} {rest : List UInt8} (h : p.Fits)
    (hrest : (p.next b).Spans rest) : p.Spans (b :: rest) := by
  intro before hbefore
  rcases List.prefix_cons_iff.mp hbefore with rfl | ⟨before', rfl, hbefore'⟩
  · exact h
  · exact hrest before' hbefore'

theorem RoomFor.spans {p : Position} {bytes : List UInt8} (h : p.RoomFor bytes.length) :
    p.Spans bytes := by
  induction bytes generalizing p with
  | nil => exact spans_nil h.fits
  | cons b rest ih => exact spans_cons h.fits (ih (h.next b))

theorem Spans.next {p : Position} {b : UInt8} {rest : List UInt8} (h : p.Spans (b :: rest)) :
    (p.next b).Spans rest :=
  fun before hbefore => h (b :: before) (List.cons_prefix_cons.mpr ⟨rfl, hbefore⟩)

theorem Spans.advance? {p : Position} {b : UInt8} {rest : List UInt8} (h : p.Spans (b :: rest)) :
    p.advance? b = some (p.next b) :=
  advance?_eq_some.mpr ⟨h.next [] (List.nil_prefix), rfl⟩

theorem spans_start {bytes : List UInt8} (h : bytes.length ≤ UInt32.size - 2) :
    start.Spans bytes :=
  (roomFor_start h).spans

end Position

namespace Source

/-- The symbols of a text that starts at `pos`, each with its place. -/
def located (pos : Position) : Source → List Token
  | [] => []
  | b :: rest =>
    match Symbol.ofByte? b with
    | none => located (pos.next b) rest
    | some s => ⟨pos, s⟩ :: located (pos.next b) rest

theorem map_value_located (pos : Position) (src : Source) :
    (src.located pos).map Located.value = src.symbols := by
  induction src generalizing pos with
  | nil => rfl
  | cons b rest ih =>
    have hrest := ih (pos.next b)
    cases hb : Symbol.ofByte? b with
    | none => simpa only [located, symbols, hb, List.filterMap_cons] using hrest
    | some s =>
      simp only [located, symbols, hb, List.filterMap_cons, List.map_cons]
      exact congrArg (List.cons s) hrest

end Source

namespace Scan

theorem advance_eq_ok {s s' : Scan} {b : UInt8} (h : s.advance b = .ok s') :
    s' = { s with pos := s.pos.next b } ∧ (s.pos.next b).Fits := by
  unfold advance at h
  split at h
  · next pos hpos =>
    obtain ⟨hfits, rfl⟩ := Position.advance?_eq_some.mp hpos
    exact ⟨(Except.ok.inj h).symm, hfits⟩
  · cases h

theorem read_eq_ok {s s' : Scan} {sym : Symbol} (h : s.read sym = .ok s') :
    s'.pos = s.pos ∧ s'.tokens = ⟨s.pos, sym⟩ :: s.tokens ∧
      ∀ w, Closes s.unclosed.length (sym :: w) ↔ Closes s'.unclosed.length w := by
  cases sym with
  | op o => cases h; exact ⟨rfl, rfl, fun _ => Iff.rfl⟩
  | opening => cases h; exact ⟨rfl, rfl, fun _ => Iff.rfl⟩
  | closing =>
    cases hu : s.unclosed with
    | nil => simp only [read, hu] at h; cases h
    | cons pos outer =>
      simp only [read, hu] at h
      cases h
      exact ⟨rfl, rfl, fun _ => Iff.rfl⟩

theorem run_eq_ok {s s' : Scan} {src : Source} (h : s.run src = .ok s') :
    s'.tokens = (src.located s.pos).reverse ++ s.tokens ∧
      (Closes s.unclosed.length src.symbols ↔ s'.unclosed.length = 0) := by
  induction src generalizing s with
  | nil => cases h; exact ⟨rfl, Iff.rfl⟩
  | cons b rest ih =>
    cases hb : Symbol.ofByte? b with
    | none =>
      simp only [run, step, hb] at h
      split at h
      · next s₁ hs₁ =>
        obtain ⟨rfl, -⟩ := advance_eq_ok hs₁
        have hrest := ih h
        simpa only [Source.located, Source.symbols, hb, List.filterMap_cons] using hrest
      · cases h
    | some sym =>
      simp only [run, step, hb] at h
      cases hread : s.read sym with
      | error e => simp only [hread] at h; cases h
      | ok s₁ =>
        obtain ⟨hpos, htokens, hcloses⟩ := read_eq_ok hread
        simp only [hread] at h
        split at h
        · next s₂ hs₂ =>
          obtain ⟨rfl, -⟩ := advance_eq_ok hs₂
          obtain ⟨hts, hcl⟩ := ih h
          simp only [Source.located, Source.symbols, hb, List.filterMap_cons]
          refine ⟨?_, (hcloses _).trans hcl⟩
          rw [hts, hpos, htokens, List.reverse_cons, List.append_assoc]
          rfl
        · cases h

theorem step_eq_ok {s s' : Scan} {b : UInt8} (h : s.step b = .ok s') :
    s'.pos = s.pos.next b ∧ (s.pos.next b).Fits := by
  unfold step at h
  split at h
  · obtain ⟨rfl, hfits⟩ := advance_eq_ok h
    exact ⟨rfl, hfits⟩
  · split at h
    · next s₁ hread =>
      obtain ⟨rfl, hfits⟩ := advance_eq_ok h
      obtain ⟨hpos, -, -⟩ := read_eq_ok hread
      rw [hpos] at hfits ⊢
      exact ⟨rfl, hfits⟩
    · cases h

theorem spans_of_run {s s' : Scan} {src : Source} (hfits : s.pos.Fits) (h : s.run src = .ok s') :
    s.pos.Spans src := by
  induction src generalizing s with
  | nil => exact Position.spans_nil hfits
  | cons b rest ih =>
    rw [run] at h
    split at h
    · next s₁ hstep =>
      obtain ⟨hpos, hnext⟩ := step_eq_ok hstep
      rw [← hpos] at hnext
      have hrest := ih hnext h
      rw [hpos] at hrest
      exact Position.spans_cons hfits hrest
    · cases h

theorem read_of_closes {s : Scan} {sym : Symbol} {w : List Symbol}
    (h : Closes s.unclosed.length (sym :: w)) : ∃ s', s.read sym = .ok s' := by
  cases sym with
  | op o => exact ⟨_, rfl⟩
  | opening => exact ⟨_, rfl⟩
  | closing =>
    cases hu : s.unclosed with
    | nil => rw [hu] at h; exact absurd h id
    | cons pos outer =>
      simp only [read, hu]
      exact ⟨_, rfl⟩

theorem run_of_closes {s : Scan} {src : Source} (hspans : s.pos.Spans src)
    (h : Closes s.unclosed.length src.symbols) : ∃ s', s.run src = .ok s' := by
  induction src generalizing s with
  | nil => exact ⟨s, rfl⟩
  | cons b rest ih =>
    have hnext := hspans.next
    cases hb : Symbol.ofByte? b with
    | none =>
      simp only [Source.symbols, hb, List.filterMap_cons] at h
      simp only [run, step, hb, advance, hspans.advance?]
      exact ih (s := { s with pos := s.pos.next b }) hnext h
    | some sym =>
      simp only [Source.symbols, hb, List.filterMap_cons] at h
      obtain ⟨s₁, hread⟩ := read_of_closes h
      obtain ⟨hpos, -, hcloses⟩ := read_eq_ok hread
      rw [hcloses] at h
      rw [← hpos] at hspans hnext
      simp only [run, step, hb, hread, advance, hspans.advance?]
      exact ih (s := { s₁ with pos := s₁.pos.next b }) hnext h

end Scan

namespace Source

theorem tokens_eq_ok {src : Source} {ts : List Token} (h : src.tokens = .ok ts) :
    ts = src.located .start ∧ Closes 0 src.symbols := by
  unfold tokens at h
  split at h
  · next s hs =>
    obtain ⟨htokens, hcloses⟩ := Scan.run_eq_ok hs
    cases hu : s.unclosed.getLast? with
    | some pos => simp only [Scan.finish, hu] at h; cases h
    | none =>
      simp only [Scan.finish, hu] at h
      cases h
      have hnil : s.unclosed = [] := List.getLast?_eq_none_iff.mp hu
      refine ⟨?_, hcloses.mpr (by rw [hnil]; rfl)⟩
      simp only [htokens, List.append_nil, List.reverse_reverse]
  · cases h

theorem tokens_of_closes {src : Source} (hspans : Position.start.Spans src)
    (h : Closes 0 src.symbols) : src.tokens = .ok (src.located .start) := by
  obtain ⟨s, hs⟩ := Scan.run_of_closes (s := {}) hspans h
  obtain ⟨htokens, hcloses⟩ := Scan.run_eq_ok hs
  have hnil : s.unclosed = [] := List.length_eq_zero_iff.mp (hcloses.mp h)
  simp only [tokens, hs, Scan.finish, hnil, List.getLast?_nil, htokens, List.append_nil,
    List.reverse_reverse]

/-- An accepted source is read as the program assembled from its located symbols. -/
theorem program_eq_ok {src : Source} {p : Program} (h : src.program = .ok p) :
    p = .assemble (src.located .start) ∧ Closes 0 src.symbols := by
  unfold program at h
  cases ht : src.tokens with
  | error e => rw [ht] at h; cases h
  | ok ts =>
    rw [ht] at h
    obtain ⟨rfl, hcloses⟩ := tokens_eq_ok ht
    cases h
    exact ⟨rfl, hcloses⟩

theorem places_fit_of_program {src : Source} {p : Program} (h : src.program = .ok p) :
    Position.start.Spans src := by
  cases hrun : Scan.run {} src with
  | ok s => exact Scan.spans_of_run (by decide) hrun
  | error e =>
    rw [program, tokens, hrun] at h
    cases h

theorem program_of_closes {src : Source} (hspans : Position.start.Spans src)
    (h : Closes 0 src.symbols) : src.program = .ok (.assemble (src.located .start)) := by
  rw [program, tokens_of_closes hspans h]
  rfl

/-- The program of a source is spelled by the source's symbols. -/
theorem symbols_of_program {src : Source} {p : Program} (h : src.program = .ok p) :
    p.symbols = src.symbols := by
  obtain ⟨rfl, hcloses⟩ := program_eq_ok h
  rw [← map_value_located .start src] at hcloses ⊢
  exact Program.symbols_assemble hcloses

end Source

/-- The token that a call starts an instruction with, if it starts one. -/
def Call.head? : Call → Option Token
  | op o pos => some ⟨pos, .op o⟩
  | enterLoop pos => some ⟨pos, .opening⟩
  | exitLoop _ | finish => none

namespace Program

/-- The tokens with which the instructions of a program start, in reading order. -/
def heads (p : Program) : List Token := p.spell.filterMap Call.head?

theorem heads_op (o : Op) (pos : Position) (rest : Program) :
    (op o pos rest).heads = ⟨pos, .op o⟩ :: rest.heads := rfl

theorem heads_loop (pos : Position) (body rest : Program) :
    (loop pos body rest).heads = ⟨pos, .opening⟩ :: (body.heads ++ rest.heads) := by
  rw [heads, spell, List.filterMap_cons, List.filterMap_append]
  rfl

/-- Those tokens that start an instruction start one of a level. -/
theorem Assembles.filter_ne_closing {ts : List Token} {q : Program} {outer : List Program}
    (h : Assembles ts q outer) :
    ts.filter (·.value ≠ .closing) = (q :: outer).flatMap heads := by
  induction h with
  | nil => rfl
  | op o pos _ ih =>
    rw [List.filter_cons_of_pos (by simp), ih, List.flatMap_cons, List.flatMap_cons, heads_op]
    rfl
  | opening pos _ ih =>
    rw [List.filter_cons_of_pos (by simp), ih, List.flatMap_cons, List.flatMap_cons,
      List.flatMap_cons, heads_loop, List.cons_append, List.append_assoc]
  | closing pos _ ih =>
    rw [List.filter_cons_of_neg (by simp), ih]
    rfl

/-- The instructions of an assembled program start with the tokens other than `]`, in order. -/
theorem heads_assemble {ts : List Token} (h : Closes 0 (ts.map Located.value)) :
    (assemble ts).heads = ts.filter (·.value ≠ .closing) := by
  rw [(assembles_assemble h).filter_ne_closing, List.flatMap_cons, List.flatMap_nil,
    List.append_nil]

end Program

namespace Source

theorem heads_of_program {src : Source} {p : Program} (h : src.program = .ok p) :
    p.heads = (src.located .start).filter (·.value ≠ .closing) := by
  obtain ⟨rfl, hcloses⟩ := program_eq_ok h
  rw [← map_value_located .start src] at hcloses
  exact Program.heads_assemble hcloses

theorem located_append (pos : Position) (a b : Source) :
    located pos (a ++ b) = located pos a ++ located (pos.after a) b := by
  induction a generalizing pos with
  | nil => rfl
  | cons c rest ih =>
    rw [List.cons_append, located, located, ih, Position.after_cons]
    cases Symbol.ofByte? c <;> rfl

end Source

end TapeLang
