import TapeLang.Proofs.Balance
import TapeLang.Proofs.Reading
import Mathlib.Data.List.Induction
import Mathlib.Order.Bounds.Basic

/-!
Which bracket a refused source is refused for. What has been read of a source falls apart into
balanced pieces, with one open bracket between any two of them. Reading keeps the places of these
brackets. So it stops at the first `]` that closes nothing, or else blames the outermost bracket
that nothing closes.
-/
namespace TapeLang

namespace Source

/-- The brackets that a text leaves open, each given by what stands before it, the innermost
first. Between one such bracket and the next the text is balanced. -/
def LeavesOpen : Source → List Source → Prop
  | src, [] => Balanced src
  | src, before :: outer => ∃ inner, src = before ++ Symbol.opening.byte :: inner ∧
      Balanced inner ∧ LeavesOpen before outer

/-- The first `]` that closes nothing stands behind the given part of the text. -/
def StrayAfter (src before : Source) : Prop :=
  ∃ rest, src = before ++ Symbol.closing.byte :: rest ∧ Balanced before

/-- The outermost `[` that nothing closes stands behind the given part of the text. -/
def UnclosedAfter (src before : Source) : Prop :=
  ∃ rest, src = before ++ Symbol.opening.byte :: rest ∧ Balanced before ∧ Sheltered 0 rest

section LeavesOpen

variable {src before : Source} {stack : List Source}

theorem LeavesOpen.append {v : Source} (h : LeavesOpen src stack) (hv : Balanced v) :
    LeavesOpen (src ++ v) stack := by
  cases stack with
  | nil => exact Balanced.append h hv
  | cons before outer =>
    obtain ⟨inner, rfl, hinner, houter⟩ := h
    exact ⟨inner ++ v, by rw [List.append_assoc, List.cons_append], hinner.append hv, houter⟩

theorem LeavesOpen.opening (h : LeavesOpen src stack) :
    LeavesOpen (src ++ [Symbol.opening.byte]) (src :: stack) :=
  ⟨[], rfl, balanced_nil, h⟩

theorem LeavesOpen.closing (h : LeavesOpen src (before :: stack)) :
    LeavesOpen (src ++ [Symbol.closing.byte]) stack := by
  obtain ⟨inner, rfl, hinner, houter⟩ := h
  have hloop := houter.append hinner.wrap
  rwa [List.append_assoc, List.cons_append]

theorem LeavesOpen.opened_eq (h : LeavesOpen src stack) :
    src.opened = src.closed + stack.length := by
  induction stack generalizing src with
  | nil => exact h.settled
  | cons before outer ih =>
    obtain ⟨inner, rfl, hinner, houter⟩ := h
    have hbefore := ih houter
    have hcount := hinner.settled
    rw [opened_append, closed_append, opened_opening, closed_opening, List.length_cons]
    omega

theorem LeavesOpen.stack_eq_nil (h : LeavesOpen src stack) (hsrc : Balanced src) : stack = [] := by
  have hopened := h.opened_eq
  have hcount := hsrc.settled
  apply List.eq_nil_of_length_eq_zero
  omega

/-- A `]` that may follow has a bracket to close. -/
theorem LeavesOpen.exists_innermost (h : LeavesOpen src stack)
    (hclosing : Sheltered 0 (src ++ [Symbol.closing.byte])) :
    ∃ before outer, stack = before :: outer := by
  cases stack with
  | cons before outer => exact ⟨before, outer, rfl⟩
  | nil =>
    obtain ⟨-, hlast⟩ := sheltered_append.mp hclosing
    rw [h.settled, Nat.zero_add, Nat.sub_self] at hlast
    exact absurd hlast not_sheltered_closing

theorem LeavesOpen.unclosedAfter (h : LeavesOpen src stack)
    (hlast : stack.getLast? = some before) : UnclosedAfter src before := by
  induction stack generalizing src with
  | nil => cases hlast
  | cons first outer ih =>
    obtain ⟨inner, rfl, hinner, houter⟩ := h
    obtain ⟨hsheltered, -⟩ := balanced_iff.mp hinner
    cases outer with
    | nil =>
      obtain rfl : first = before := Option.some.inj hlast
      exact ⟨inner, rfl, houter, hsheltered⟩
    | cons next outer =>
      rw [List.getLast?_cons_cons] at hlast
      obtain ⟨rest, rfl, hbefore, hrest⟩ := ih houter hlast
      refine ⟨rest ++ Symbol.opening.byte :: inner, ?_, hbefore, ?_⟩
      · rw [List.append_assoc, List.cons_append]
      · rw [sheltered_append, sheltered_opening]
        exact ⟨hrest, hsheltered.mono (Nat.zero_le _)⟩

end LeavesOpen

end Source

open Source

namespace Scan

/-- The scan has read the text and keeps the places of the brackets that it leaves open. -/
structure Follows (s : Scan) (src : Source) : Prop where
  pos : s.pos = Position.start.after src
  unclosed : ∃ stack, src.LeavesOpen stack ∧ s.unclosed = stack.map Position.start.after

variable {s : Scan} {src : Source} {b : UInt8}

theorem follows_nil : Follows {} [] := ⟨rfl, [], balanced_nil, rfl⟩

theorem run_append (s : Scan) (u v : Source) : s.run (u ++ v) = (s.run u).bind fun s' => s'.run v := by
  induction u generalizing s with
  | nil => rfl
  | cons b u ih =>
    rw [List.cons_append, run, run]
    cases s.step b with
    | ok s' => exact ih s'
    | error e => rfl

theorem Follows.advance (h : s.Follows src)
    (hfits : (Position.start.after (src ++ [b])).Fits) (tokens : List Token)
    (unclosed : List Position) :
    ({ s with tokens, unclosed } : Scan).advance b =
      .ok ⟨Position.start.after (src ++ [b]), unclosed, tokens⟩ := by
  have hnext : Position.start.after (src ++ [b]) = s.pos.next b := by
    rw [Position.after_append, h.pos]
    rfl
  rw [hnext] at hfits ⊢
  have hadvance := Position.advance?_eq_some.mpr ⟨hfits, rfl⟩
  simp only [Scan.advance, hadvance]

/-- As long as no bracket is closed that is not open, a byte more is read. -/
theorem Follows.step (h : s.Follows src) (hsheltered : Sheltered 0 (src ++ [b]))
    (hfits : (Position.start.after (src ++ [b])).Fits) :
    ∃ s', s.step b = .ok s' ∧ s'.Follows (src ++ [b]) := by
  obtain ⟨stack, hstack, hunclosed⟩ := h.unclosed
  by_cases ho : b = Symbol.opening.byte
  · subst ho
    refine ⟨⟨_, s.pos :: s.unclosed, ⟨s.pos, .opening⟩ :: s.tokens⟩, h.advance hfits _ _, rfl,
      src :: stack, hstack.opening, ?_⟩
    rw [List.map_cons, ← hunclosed, h.pos]
  · by_cases hc : b = Symbol.closing.byte
    · subst hc
      obtain ⟨before, outer, rfl⟩ := hstack.exists_innermost hsheltered
      refine ⟨⟨_, outer.map Position.start.after, ⟨s.pos, .closing⟩ :: s.tokens⟩, ?_, rfl,
        outer, hstack.closing, rfl⟩
      simp only [Scan.step, Symbol.ofByte?_byte, read, hunclosed, List.map_cons]
      exact h.advance hfits _ _
    · have hopen := hstack.append (balanced_singleton ho hc)
      rcases comment_or_op ho hc with hb | ⟨o, hb⟩
      · refine ⟨⟨_, s.unclosed, s.tokens⟩, ?_, rfl, stack, hopen, hunclosed⟩
        simp only [Scan.step, hb]
        exact h.advance hfits _ _
      · refine ⟨⟨_, s.unclosed, ⟨s.pos, .op o⟩ :: s.tokens⟩, ?_, rfl, stack, hopen, hunclosed⟩
        simp only [Scan.step, hb, read]
        exact h.advance hfits _ _

theorem Follows.run {rest : Source} (h : s.Follows src) (hsheltered : Sheltered 0 (src ++ rest))
    (hspans : Position.start.Spans (src ++ rest)) :
    ∃ s', s.run rest = .ok s' ∧ s'.Follows (src ++ rest) := by
  induction rest generalizing s src with
  | nil =>
    rw [List.append_nil]
    exact ⟨s, rfl, h⟩
  | cons b rest ih =>
    have happend : src ++ b :: rest = (src ++ [b]) ++ rest := by
      rw [List.append_assoc]
      rfl
    rw [happend] at hsheltered hspans ⊢
    obtain ⟨hfirst, -⟩ := sheltered_append.mp hsheltered
    obtain ⟨s₁, hstep, hs₁⟩ := h.step hfirst (hspans _ (List.prefix_append _ _))
    rw [Scan.run, hstep]
    exact ih hs₁ hsheltered hspans

end Scan

namespace Source

section Faults

variable {src before : Source}

theorem Balanced.not_overcloses (h : Balanced src) : ¬ src.Overcloses :=
  sheltered_zero_iff.mp (balanced_iff.mp h).1

theorem StrayAfter.overcloses (h : StrayAfter src before) : src.Overcloses := by
  obtain ⟨rest, rfl, hbefore⟩ := h
  refine ⟨before ++ [Symbol.closing.byte], ?_, ?_⟩
  · exact (List.prefix_append_right_inj before).mpr (List.cons_prefix_cons.mpr
      ⟨rfl, List.nil_prefix⟩)
  · rw [opened_append, closed_append, hbefore.settled, opened_closing, closed_closing]
    exact Nat.lt_succ_self _

/-- Up to the stray bracket no prefix closes more than it opens. -/
theorem StrayAfter.isLeast (h : StrayAfter src before) :
    IsLeast {n | opened (src.take (n + 1)) < closed (src.take (n + 1))} before.length := by
  obtain ⟨rest, rfl, hbefore⟩ := h
  constructor
  · have htake : (before ++ Symbol.closing.byte :: rest).take (before.length + 1) =
        before ++ [Symbol.closing.byte] := by
      rw [List.take_length_add_append]
      rfl
    rw [Set.mem_ofPred_eq, htake, opened_append, closed_append, hbefore.settled, opened_closing,
      closed_closing]
    exact Nat.lt_succ_self _
  · intro n hn
    rw [Set.mem_ofPred_eq] at hn
    by_contra hlt
    have htake : (before ++ Symbol.closing.byte :: rest).take (n + 1) = before.take (n + 1) :=
      List.take_append_of_le_length (by omega)
    rw [htake] at hn
    have hle := hbefore.sheltered _ (List.take_prefix (n + 1) before)
    omega

theorem UnclosedAfter.not_overcloses (h : UnclosedAfter src before) : ¬ src.Overcloses := by
  obtain ⟨rest, rfl, hbefore, hrest⟩ := h
  rw [← sheltered_zero_iff, sheltered_append, sheltered_opening]
  exact ⟨(balanced_iff.mp hbefore).1, hrest.mono (Nat.zero_le _)⟩

theorem UnclosedAfter.closed_lt (h : UnclosedAfter src before) : src.closed < src.opened := by
  obtain ⟨rest, rfl, hbefore, hrest⟩ := h
  have hcount := hbefore.settled
  have hle := hrest.closed_le
  rw [opened_append, closed_append, opened_opening, closed_opening]
  omega

/-- The brackets before it all have their partners. -/
theorem UnclosedAfter.isLeast (h : UnclosedAfter src before) :
    IsLeast {n | src[n]? = some Symbol.opening.byte ∧ src.matchingClose n = none}
      before.length := by
  obtain ⟨rest, rfl, hbefore, hrest⟩ := h
  constructor
  · have hdrop : (before ++ Symbol.opening.byte :: rest).drop (before.length + 1) = rest := by
      rw [List.drop_length_add_append]
      rfl
    refine ⟨by simp, ?_⟩
    rw [matchingClose_eq_none_iff, hdrop]
    exact hrest
  · rintro n ⟨hopening, hnone⟩
    by_contra hlt
    have hn : n < before.length := by omega
    have hrest' : Sheltered 0 (Symbol.opening.byte :: rest) :=
      sheltered_opening.mpr (hrest.mono (Nat.zero_le _))
    rw [List.getElem?_append_left hn] at hopening
    rw [matchingClose_append hn hrest'] at hnone
    obtain ⟨c, hc⟩ := hbefore.exists_matchingClose hopening
    rw [hc] at hnone
    cases hnone

theorem validate_of_stray (h : StrayAfter src before) (hspans : Position.start.Spans before) :
    src.validate = .error (.bracket ⟨Position.start.after before, .unmatchedClosing⟩) := by
  obtain ⟨rest, rfl, hbefore⟩ := h
  obtain ⟨hsheltered, -⟩ := balanced_iff.mp hbefore
  obtain ⟨s, hrun, hs⟩ := Scan.follows_nil.run hsheltered hspans
  rw [List.nil_append] at hs
  obtain ⟨stack, hstack, hunclosed⟩ := hs.unclosed
  rw [hstack.stack_eq_nil hbefore, List.map_nil] at hunclosed
  have hstep : s.step Symbol.closing.byte =
      .error (.bracket ⟨Position.start.after before, .unmatchedClosing⟩) := by
    simp only [Scan.step, Symbol.ofByte?_byte, Scan.read, hunclosed, hs.pos]
  rw [validate, tokens, Scan.run_append, hrun]
  simp only [Except.bind, Scan.run, hstep]
  rfl

theorem validate_of_sheltered (h : Sheltered 0 src) (hspans : Position.start.Spans src) :
    src.Balanced ∧ src.validate = .ok () ∨
    ∃ before, src.UnclosedAfter before ∧
      src.validate = .error (.bracket ⟨Position.start.after before, .unmatchedOpening⟩) := by
  obtain ⟨s, hrun, hs⟩ := Scan.follows_nil.run h hspans
  rw [List.nil_append] at hs
  obtain ⟨stack, hstack, hunclosed⟩ := hs.unclosed
  cases hlast : stack.getLast? with
  | none =>
    obtain rfl := List.getLast?_eq_none_iff.mp hlast
    refine Or.inl ⟨hstack, ?_⟩
    simp only [validate, tokens, hrun, Scan.finish, hunclosed, List.map_nil, List.getLast?_nil]
    rfl
  | some before =>
    refine Or.inr ⟨before, hstack.unclosedAfter hlast, ?_⟩
    simp only [validate, tokens, hrun, Scan.finish, hunclosed, List.getLast?_map, hlast,
      Option.map_some]
    rfl

/-- Within the limits of positions a source is accepted, or refused for its first stray `]`, or
for its outermost unclosed `[`. -/
theorem validate_cases (hspans : Position.start.Spans src) :
    src.Balanced ∧ src.validate = .ok () ∨
    (∃ before, src.StrayAfter before ∧
      src.validate = .error (.bracket ⟨Position.start.after before, .unmatchedClosing⟩)) ∨
    ∃ before, src.UnclosedAfter before ∧
      src.validate = .error (.bracket ⟨Position.start.after before, .unmatchedOpening⟩) := by
  rcases sheltered_or_stray 0 src with h | ⟨before, rest, hsrc, hbefore, hcount⟩
  · rcases validate_of_sheltered h hspans with hok | herror
    · exact Or.inl hok
    · exact Or.inr (Or.inr herror)
  · have hstray : src.StrayAfter before :=
      ⟨rest, hsrc, balanced_iff.mpr ⟨hbefore, by omega⟩⟩
    refine Or.inr (Or.inl ⟨before, hstray, validate_of_stray hstray ?_⟩)
    intro part hpart
    exact hspans part (hpart.trans (hsrc ▸ List.prefix_append _ _))

theorem strayAfter_of_validate {pos : Position} (hspans : Position.start.Spans src)
    (h : src.validate = .error (.bracket ⟨pos, .unmatchedClosing⟩)) :
    ∃ before, src.StrayAfter before ∧ pos = Position.start.after before := by
  rcases validate_cases hspans with ⟨-, hok⟩ | ⟨before, hstray, herror⟩ | ⟨before, -, herror⟩
  · rw [hok] at h
    cases h
  · rw [herror] at h
    cases h
    exact ⟨before, hstray, rfl⟩
  · rw [herror] at h
    cases h

theorem unclosedAfter_of_validate {pos : Position} (hspans : Position.start.Spans src)
    (h : src.validate = .error (.bracket ⟨pos, .unmatchedOpening⟩)) :
    ∃ before, src.UnclosedAfter before ∧ pos = Position.start.after before := by
  rcases validate_cases hspans with ⟨-, hok⟩ | ⟨before, -, herror⟩ | ⟨before, hunclosed, herror⟩
  · rw [hok] at h
    cases h
  · rw [herror] at h
    cases h
  · rw [herror] at h
    cases h
    exact ⟨before, hunclosed, rfl⟩

theorem unmatchedClosing_iff (hspans : Position.start.Spans src) :
    (∃ pos, src.validate = .error (.bracket ⟨pos, .unmatchedClosing⟩)) ↔ src.Overcloses := by
  constructor
  · rintro ⟨pos, h⟩
    obtain ⟨before, hstray, -⟩ := strayAfter_of_validate hspans h
    exact hstray.overcloses
  · intro hover
    rcases validate_cases hspans with ⟨hbalanced, -⟩ | ⟨before, -, h⟩ | ⟨before, hunclosed, -⟩
    · exact absurd hover hbalanced.not_overcloses
    · exact ⟨_, h⟩
    · exact absurd hover hunclosed.not_overcloses

theorem unmatchedOpening_iff (hspans : Position.start.Spans src) :
    (∃ pos, src.validate = .error (.bracket ⟨pos, .unmatchedOpening⟩)) ↔
      ¬ src.Overcloses ∧ src.closed < src.opened := by
  constructor
  · rintro ⟨pos, h⟩
    obtain ⟨before, hunclosed, -⟩ := unclosedAfter_of_validate hspans h
    exact ⟨hunclosed.not_overcloses, hunclosed.closed_lt⟩
  · rintro ⟨hnot, hlt⟩
    rcases validate_cases hspans with ⟨hbalanced, -⟩ | ⟨before, hstray, -⟩ | ⟨before, -, h⟩
    · exact absurd hbalanced.settled (by omega)
    · exact absurd hstray.overcloses hnot
    · exact ⟨_, h⟩

theorem validate_eq_ok_iff (hspans : Position.start.Spans src) :
    src.validate = .ok () ↔ ¬ src.Overcloses ∧ src.opened ≤ src.closed := by
  constructor
  · intro h
    rcases validate_cases hspans with ⟨hbalanced, -⟩ | ⟨before, -, herror⟩ | ⟨before, -, herror⟩
    · exact ⟨hbalanced.not_overcloses, hbalanced.settled.le⟩
    · rw [h] at herror
      cases herror
    · rw [h] at herror
      cases herror
  · rintro ⟨hnot, hle⟩
    rcases validate_cases hspans with ⟨-, hok⟩ | ⟨before, hstray, -⟩ | ⟨before, hunclosed, -⟩
    · exact hok
    · exact absurd hstray.overcloses hnot
    · exact absurd hunclosed.closed_lt (by omega)

end Faults

/-- The place of an offset: its line counts the newlines before it, its column the bytes since the
last of these. -/
def place (src : Source) (n : Nat) : Position :=
  ⟨1 + (src.take n).count 10, 1 + ((src.take n).reverse.takeWhile (· ≠ 10)).length, n⟩

theorem place_length (src : Source) : src.place src.length = Position.start.after src := by
  induction src using List.reverseRecOn with
  | nil => rfl
  | append_singleton src b ih =>
    rw [Position.after_append, ← ih, place, place, List.take_length, List.take_length,
      Position.after_cons, Position.after_nil, Position.next]
    by_cases hb : b = 10
    · subst hb
      simp [Nat.add_assoc]
    · simp [hb, Nat.add_assoc]

theorem offset_after_start (before : Source) :
    (Position.start.after before).offset = before.length := by
  rw [Position.after_offset]
  exact Nat.zero_add _

theorem place_initial {src before : Source} (h : before <+: src) :
    src.place before.length = Position.start.after before := by
  have htake : src.take before.length = before := List.prefix_iff_eq_take.mp h |>.symm
  rw [← place_length, place, place, htake, List.take_length]

/-- Reading and checking accept the same sources and refuse the others for the same cause. A `]` is
to blame exactly if some prefix has more `]` than `[`, and it is the first with which that is so,
whatever comes after it. A `[` is to blame exactly if there is no such prefix but there are more
`[` than `]`, and it is the first that has no partner. The line reported is one more than the
newlines before the bracket, the column one more than the bytes since the last of them. -/
theorem bracket_errors_are_exact (src : Source) (hlen : src.length ≤ UInt32.size - 2) :
    (src.program.map fun _ => ()) = src.validate ∧
    ((∃ pos, src.validate = .error (.bracket ⟨pos, .unmatchedClosing⟩)) ↔ src.Overcloses) ∧
    (∀ pos, src.validate = .error (.bracket ⟨pos, .unmatchedClosing⟩) →
      pos = src.place pos.offset ∧ src[pos.offset]? = some Symbol.closing.byte ∧
      IsLeast {n | opened (src.take (n + 1)) < closed (src.take (n + 1))} pos.offset ∧
      ∀ rest, Source.validate (src.take (pos.offset + 1) ++ rest) =
        .error (.bracket ⟨pos, .unmatchedClosing⟩)) ∧
    ((∃ pos, src.validate = .error (.bracket ⟨pos, .unmatchedOpening⟩)) ↔
      ¬ src.Overcloses ∧ src.closed < src.opened) ∧
    (∀ pos, src.validate = .error (.bracket ⟨pos, .unmatchedOpening⟩) →
      pos = src.place pos.offset ∧
      IsLeast {n | src[n]? = some Symbol.opening.byte ∧ src.matchingClose n = none} pos.offset) ∧
    (src.validate = .ok () ↔ ¬ src.Overcloses ∧ src.opened ≤ src.closed) := by
  have hspans := Position.spans_start hlen
  refine ⟨?_, unmatchedClosing_iff hspans, ?_, unmatchedOpening_iff hspans, ?_,
    validate_eq_ok_iff hspans⟩
  · rw [program, validate]
    cases src.tokens <;> rfl
  · intro pos h
    obtain ⟨before, hstray, rfl⟩ := strayAfter_of_validate hspans h
    rw [offset_after_start]
    obtain ⟨rest, hsrc, hbefore⟩ := id hstray
    have hprefix : before <+: src := hsrc ▸ List.prefix_append _ _
    refine ⟨(place_initial hprefix).symm, by simp [hsrc], hstray.isLeast, ?_⟩
    intro rest'
    apply validate_of_stray
    · refine ⟨rest', ?_, hbefore⟩
      rw [hsrc, List.take_length_add_append, List.append_assoc]
      rfl
    · exact fun part hpart => hspans part (hpart.trans hprefix)
  · intro pos h
    obtain ⟨before, hunclosed, rfl⟩ := unclosedAfter_of_validate hspans h
    rw [offset_after_start]
    obtain ⟨rest, hsrc, -⟩ := id hunclosed
    have hprefix : before <+: src := hsrc ▸ List.prefix_append _ _
    exact ⟨(place_initial hprefix).symm, hunclosed.isLeast⟩

/-- In `+`, a line break and `[]][` the second `]` is to blame, and the open `[` behind it is not
even looked at. -/
theorem stray_bracket_on_second_line :
    let src : Source := [43, 10, 91, 93, 93, 91]
    src.length ≤ UInt32.size - 2 ∧
    src.validate = .error (.bracket ⟨⟨2, 3, 4⟩, .unmatchedClosing⟩) ∧
    IsLeast {n | opened (src.take (n + 1)) < closed (src.take (n + 1))} 4 ∧
    ∀ rest, Source.validate (src.take 5 ++ rest) =
      .error (.bracket ⟨⟨2, 3, 4⟩, .unmatchedClosing⟩) := by
  intro src
  have hlen : src.length ≤ UInt32.size - 2 := by decide
  have hvalidate : src.validate = .error (.bracket ⟨⟨2, 3, 4⟩, .unmatchedClosing⟩) := by rfl
  obtain ⟨-, -, hclosing, -⟩ := bracket_errors_are_exact src hlen
  obtain ⟨-, -, hleast, hrest⟩ := hclosing _ hvalidate
  exact ⟨hlen, hvalidate, hleast, hrest⟩

end Source

end TapeLang
