import TapeLang.Bracket
import Mathlib.Data.List.Basic

/-!
Balanced brackets. A text is balanced if it closes as many brackets as it opens and none of its
prefixes closes more than it opens. The search for the partner of a `[` passes over balanced text
and over nothing else: what stands between two partners is balanced.
-/
namespace TapeLang

namespace Source

/-- How many brackets a text opens. -/
def opened (src : Source) : Nat := src.count Symbol.opening.byte

/-- How many brackets a text closes. -/
def closed (src : Source) : Nat := src.count Symbol.closing.byte

/-- After `depth` open brackets, no prefix of the text closes a bracket that is not open. -/
def Sheltered (depth : Nat) (src : Source) : Prop :=
  ∀ before, before <+: src → closed before ≤ depth + opened before

/-- Some prefix closes more brackets than it opens. -/
def Overcloses (src : Source) : Prop := ∃ before, before <+: src ∧ opened before < closed before

structure Balanced (src : Source) : Prop where
  sheltered : ∀ before, before <+: src → closed before ≤ opened before
  settled : src.opened = src.closed

theorem comment_or_op {b : UInt8} (ho : b ≠ Symbol.opening.byte) (hc : b ≠ Symbol.closing.byte) :
    Symbol.ofByte? b = none ∨ ∃ o, Symbol.ofByte? b = some (.op o) := by
  cases hb : Symbol.ofByte? b with
  | none => exact Or.inl rfl
  | some sym =>
    cases sym with
    | op o => exact Or.inr ⟨o, rfl⟩
    | opening => exact absurd (Symbol.ofByte?_eq_some.mp hb) ho
    | closing => exact absurd (Symbol.ofByte?_eq_some.mp hb) hc

section Counts

variable {b : UInt8} {src : Source}

@[simp] theorem opened_nil : opened [] = 0 := rfl

@[simp] theorem closed_nil : closed [] = 0 := rfl

@[simp] theorem opened_append (u v : Source) : opened (u ++ v) = u.opened + v.opened :=
  List.count_append

@[simp] theorem closed_append (u v : Source) : closed (u ++ v) = u.closed + v.closed :=
  List.count_append

@[simp] theorem opened_opening : opened (Symbol.opening.byte :: src) = src.opened + 1 :=
  List.count_cons_self

@[simp] theorem closed_closing : closed (Symbol.closing.byte :: src) = src.closed + 1 :=
  List.count_cons_self

theorem opened_of_ne (h : b ≠ Symbol.opening.byte) : opened (b :: src) = src.opened :=
  List.count_cons_of_ne h

theorem closed_of_ne (h : b ≠ Symbol.closing.byte) : closed (b :: src) = src.closed :=
  List.count_cons_of_ne h

theorem opening_ne_closing : Symbol.opening.byte ≠ Symbol.closing.byte := by decide

@[simp] theorem closed_opening : closed (Symbol.opening.byte :: src) = src.closed :=
  closed_of_ne opening_ne_closing

@[simp] theorem opened_closing : opened (Symbol.closing.byte :: src) = src.opened :=
  opened_of_ne opening_ne_closing.symm

end Counts

section Sheltered

variable {b : UInt8} {depth : Nat} {u v src : Source}

theorem sheltered_nil : Sheltered depth [] := by
  intro before hbefore
  rw [List.prefix_nil.mp hbefore]
  exact Nat.zero_le _

/-- The empty prefix closes nothing, so the prefixes that count start with the first byte. -/
theorem sheltered_cons : Sheltered depth (b :: src) ↔
    ∀ before, before <+: src → closed (b :: before) ≤ depth + opened (b :: before) := by
  constructor
  · intro h before hbefore
    exact h (b :: before) (List.cons_prefix_cons.mpr ⟨rfl, hbefore⟩)
  · intro h before hbefore
    rcases List.prefix_cons_iff.mp hbefore with rfl | ⟨rest, rfl, hrest⟩
    · exact Nat.zero_le _
    · exact h rest hrest

theorem sheltered_opening :
    Sheltered depth (Symbol.opening.byte :: src) ↔ Sheltered (depth + 1) src := by
  rw [sheltered_cons]
  refine forall₂_congr fun before _ => ?_
  rw [closed_opening, opened_opening]
  omega

theorem sheltered_closing :
    Sheltered (depth + 1) (Symbol.closing.byte :: src) ↔ Sheltered depth src := by
  rw [sheltered_cons]
  refine forall₂_congr fun before _ => ?_
  rw [closed_closing, opened_closing]
  omega

theorem not_sheltered_closing : ¬ Sheltered 0 (Symbol.closing.byte :: src) := by
  intro h
  have hfirst := sheltered_cons.mp h [] List.nil_prefix
  rw [closed_closing, opened_closing, closed_nil, opened_nil] at hfirst
  omega

theorem sheltered_of_ne (ho : b ≠ Symbol.opening.byte) (hc : b ≠ Symbol.closing.byte) :
    Sheltered depth (b :: src) ↔ Sheltered depth src := by
  rw [sheltered_cons]
  refine forall₂_congr fun before _ => ?_
  rw [closed_of_ne hc, opened_of_ne ho]

theorem Sheltered.mono {depth' : Nat} (h : Sheltered depth src) (hle : depth ≤ depth') :
    Sheltered depth' src := by
  intro before hbefore
  have := h before hbefore
  omega

theorem Sheltered.closed_le (h : Sheltered depth src) : src.closed ≤ depth + src.opened :=
  h src (List.prefix_refl src)

theorem sheltered_append : Sheltered depth (u ++ v) ↔
    Sheltered depth u ∧ Sheltered (depth + u.opened - u.closed) v := by
  constructor
  · intro h
    refine ⟨fun before hbefore => h before (hbefore.trans (List.prefix_append u v)), ?_⟩
    intro before hbefore
    have hle := h (u ++ before) ((List.prefix_append_right_inj u).mpr hbefore)
    rw [closed_append, opened_append] at hle
    omega
  · rintro ⟨hu, hv⟩ before hbefore
    rcases List.prefix_or_prefix_of_prefix hbefore (List.prefix_append u v) with
      hprefix | ⟨rest, rfl⟩
    · exact hu before hprefix
    · have hclosed := hu.closed_le
      have hle := hv rest ((List.prefix_append_right_inj u).mp hbefore)
      rw [closed_append, opened_append]
      omega

theorem sheltered_zero_iff : Sheltered 0 src ↔ ¬ Overcloses src := by
  constructor
  · rintro h ⟨before, hbefore, hlt⟩
    have := h before hbefore
    omega
  · intro h before hbefore
    by_contra hlt
    exact h ⟨before, hbefore, by omega⟩

/-- Brackets either stay sheltered to the end, or the text can be cut at the first `]` that closes
nothing. -/
theorem sheltered_or_stray (depth : Nat) (src : Source) : Sheltered depth src ∨
    ∃ inner rest, src = inner ++ Symbol.closing.byte :: rest ∧ Sheltered depth inner ∧
      inner.closed = depth + inner.opened := by
  induction src generalizing depth with
  | nil => exact Or.inl sheltered_nil
  | cons b src ih =>
    by_cases ho : b = Symbol.opening.byte
    · subst ho
      rcases ih (depth + 1) with hsrc | ⟨inner, rest, rfl, hinner, hcount⟩
      · exact Or.inl (sheltered_opening.mpr hsrc)
      · refine Or.inr ⟨_ :: inner, rest, rfl, sheltered_opening.mpr hinner, ?_⟩
        rw [closed_opening, opened_opening]
        omega
    · by_cases hc : b = Symbol.closing.byte
      · subst hc
        cases depth with
        | zero => exact Or.inr ⟨[], src, rfl, sheltered_nil, rfl⟩
        | succ depth =>
          rcases ih depth with hsrc | ⟨inner, rest, rfl, hinner, hcount⟩
          · exact Or.inl (sheltered_closing.mpr hsrc)
          · refine Or.inr ⟨_ :: inner, rest, rfl, sheltered_closing.mpr hinner, ?_⟩
            rw [closed_closing, opened_closing]
            omega
      · rcases ih depth with hsrc | ⟨inner, rest, rfl, hinner, hcount⟩
        · exact Or.inl ((sheltered_of_ne ho hc).mpr hsrc)
        · refine Or.inr ⟨b :: inner, rest, rfl, (sheltered_of_ne ho hc).mpr hinner, ?_⟩
          rw [closed_of_ne hc, opened_of_ne ho]
          exact hcount

end Sheltered

section Balanced

variable {u v src : Source}

theorem balanced_iff : Balanced src ↔ Sheltered 0 src ∧ src.opened = src.closed := by
  have hzero : Sheltered 0 src ↔ ∀ before, before <+: src → closed before ≤ opened before := by
    refine forall₂_congr fun before _ => ?_
    rw [Nat.zero_add]
  exact ⟨fun h => ⟨hzero.mpr h.sheltered, h.settled⟩, fun h => ⟨hzero.mp h.1, h.2⟩⟩

theorem balanced_nil : Balanced [] := balanced_iff.mpr ⟨sheltered_nil, rfl⟩

theorem Balanced.append (hu : Balanced u) (hv : Balanced v) : Balanced (u ++ v) := by
  obtain ⟨hsu, hcu⟩ := balanced_iff.mp hu
  obtain ⟨hsv, hcv⟩ := balanced_iff.mp hv
  refine balanced_iff.mpr ⟨sheltered_append.mpr ⟨hsu, ?_⟩, ?_⟩
  · rw [hcu, Nat.zero_add, Nat.sub_self]
    exact hsv
  · rw [opened_append, closed_append, hcu, hcv]

theorem Balanced.wrap (h : Balanced src) :
    Balanced (Symbol.opening.byte :: (src ++ [Symbol.closing.byte])) := by
  obtain ⟨hs, hc⟩ := balanced_iff.mp h
  refine balanced_iff.mpr ⟨?_, ?_⟩
  · rw [sheltered_opening, sheltered_append, hc, Nat.add_sub_cancel, sheltered_closing]
    exact ⟨hs.mono (Nat.zero_le 1), sheltered_nil⟩
  · rw [opened_opening, closed_opening, opened_append, closed_append, hc, opened_closing,
      closed_closing]
    rfl

theorem balanced_singleton {b : UInt8} (ho : b ≠ Symbol.opening.byte)
    (hc : b ≠ Symbol.closing.byte) : Balanced [b] :=
  balanced_iff.mpr ⟨(sheltered_of_ne ho hc).mpr sheltered_nil, by
    rw [opened_of_ne ho, closed_of_ne hc, opened_nil, closed_nil]⟩

end Balanced

section CloseFrom

variable {b : UInt8} {depth offset : Nat} {src : Source}

theorem closeFrom_opening : closeFrom depth offset (Symbol.opening.byte :: src) =
    closeFrom (depth + 1) (offset + 1) src := rfl

theorem closeFrom_closing_zero :
    closeFrom 0 offset (Symbol.closing.byte :: src) = some offset := rfl

theorem closeFrom_closing_succ : closeFrom (depth + 1) offset (Symbol.closing.byte :: src) =
    closeFrom depth (offset + 1) src := rfl

theorem closeFrom_of_ne (ho : b ≠ Symbol.opening.byte) (hc : b ≠ Symbol.closing.byte) :
    closeFrom depth offset (b :: src) = closeFrom depth (offset + 1) src := by
  rcases comment_or_op ho hc with hb | ⟨o, hb⟩
  · simp only [closeFrom, hb]
  · simp only [closeFrom, hb]

/-- The search passes over sheltered text and keeps count of the brackets in it. -/
theorem closeFrom_append {u v : Source} (h : Sheltered depth u) :
    closeFrom depth offset (u ++ v) =
      closeFrom (depth + u.opened - u.closed) (offset + u.length) v := by
  induction u generalizing depth offset with
  | nil => rfl
  | cons b u ih =>
    by_cases ho : b = Symbol.opening.byte
    · subst ho
      rw [List.cons_append, closeFrom_opening, ih (sheltered_opening.mp h), opened_opening,
        closed_opening, List.length_cons]
      congr 1 <;> omega
    · by_cases hc : b = Symbol.closing.byte
      · subst hc
        cases depth with
        | zero => exact absurd h not_sheltered_closing
        | succ depth =>
          rw [List.cons_append, closeFrom_closing_succ, ih (sheltered_closing.mp h),
            opened_closing, closed_closing, List.length_cons]
          congr 1 <;> omega
      · rw [List.cons_append, closeFrom_of_ne ho hc, ih ((sheltered_of_ne ho hc).mp h),
          opened_of_ne ho, closed_of_ne hc, List.length_cons]
        congr 1
        omega

theorem closeFrom_of_sheltered (h : Sheltered depth src) : closeFrom depth offset src = none := by
  rw [← List.append_nil src, closeFrom_append h]
  rfl

theorem closeFrom_of_stray {inner rest : Source} (h : Sheltered depth inner)
    (hcount : inner.closed = depth + inner.opened) :
    closeFrom depth offset (inner ++ Symbol.closing.byte :: rest) =
      some (offset + inner.length) := by
  rw [closeFrom_append h, hcount, Nat.sub_self, closeFrom_closing_zero]

theorem closeFrom_eq_none_iff : closeFrom depth offset src = none ↔ Sheltered depth src := by
  refine ⟨fun hnone => ?_, closeFrom_of_sheltered⟩
  rcases sheltered_or_stray depth src with h | ⟨inner, rest, rfl, hinner, hcount⟩
  · exact h
  · rw [closeFrom_of_stray hinner hcount] at hnone
    cases hnone

theorem closeFrom_eq_some_iff {c : Nat} : closeFrom depth offset src = some c ↔
    ∃ inner rest, src = inner ++ Symbol.closing.byte :: rest ∧ Sheltered depth inner ∧
      inner.closed = depth + inner.opened ∧ c = offset + inner.length := by
  constructor
  · intro hsome
    rcases sheltered_or_stray depth src with h | ⟨inner, rest, rfl, hinner, hcount⟩
    · rw [closeFrom_of_sheltered h] at hsome
      cases hsome
    · rw [closeFrom_of_stray hinner hcount] at hsome
      exact ⟨inner, rest, rfl, hinner, hcount, (Option.some.inj hsome).symm⟩
  · rintro ⟨inner, rest, rfl, hinner, hcount, rfl⟩
    exact closeFrom_of_stray hinner hcount

theorem closeFrom_shift (k : Nat) :
    closeFrom depth (k + offset) src = (closeFrom depth offset src).map (k + ·) := by
  rcases sheltered_or_stray depth src with h | ⟨inner, rest, rfl, hinner, hcount⟩
  · rw [closeFrom_of_sheltered h, closeFrom_of_sheltered h]
    rfl
  · rw [closeFrom_of_stray hinner hcount, closeFrom_of_stray hinner hcount, Option.map_some,
      Nat.add_assoc]

end CloseFrom

section MatchingClose

variable {src u v : Source} {i c : Nat}

/-- The partner of a bracket is the `]` up to which the text after the bracket is balanced. -/
theorem matchingClose_eq_some_iff : src.matchingClose i = some c ↔
    i < c ∧ src[c]? = some Symbol.closing.byte ∧ Balanced ((src.take c).drop (i + 1)) := by
  unfold matchingClose
  rw [closeFrom_eq_some_iff]
  constructor
  · rintro ⟨inner, rest, hdrop, hinner, hcount, rfl⟩
    have hbetween : (src.take (i + 1 + inner.length)).drop (i + 1) = inner := by
      rw [List.drop_take, hdrop, Nat.add_sub_cancel_left, List.take_left]
    have hclose : src[i + 1 + inner.length]? = some Symbol.closing.byte := by
      rw [← List.getElem?_drop, hdrop, List.getElem?_append_right (Nat.le_refl _), Nat.sub_self]
      rfl
    refine ⟨by omega, hclose, ?_⟩
    rw [hbetween]
    exact balanced_iff.mpr ⟨hinner, by omega⟩
  · rintro ⟨hlt, hclose, hbalanced⟩
    obtain ⟨hsheltered, hcount⟩ := balanced_iff.mp hbalanced
    obtain ⟨hc, hbyte⟩ := List.getElem?_eq_some_iff.mp hclose
    refine ⟨_, src.drop (c + 1), ?_, hsheltered, by omega, ?_⟩
    · rw [List.drop_take, ← hbyte, ← List.drop_eq_getElem_cons hc]
      have hrest : src.drop c = (src.drop (i + 1)).drop (c - (i + 1)) := by
        rw [List.drop_drop]
        congr 1
        omega
      rw [hrest, List.take_append_drop]
    · rw [List.length_drop, List.length_take]
      omega

theorem matchingClose_eq_none_iff :
    src.matchingClose i = none ↔ Sheltered 0 (src.drop (i + 1)) :=
  closeFrom_eq_none_iff

/-- Text that closes nothing of what stands before it changes nothing there. -/
theorem matchingClose_append (hi : i < u.length) (hv : Sheltered 0 v) :
    (u ++ v).matchingClose i = u.matchingClose i := by
  unfold matchingClose
  rw [List.drop_append_of_le_length hi]
  rcases sheltered_or_stray 0 (u.drop (i + 1)) with h | ⟨inner, rest, hdrop, hinner, hcount⟩
  · have hboth : Sheltered 0 (u.drop (i + 1) ++ v) :=
      sheltered_append.mpr ⟨h, hv.mono (Nat.zero_le _)⟩
    rw [closeFrom_of_sheltered h, closeFrom_of_sheltered hboth]
  · rw [hdrop, List.append_assoc, List.cons_append, closeFrom_of_stray hinner hcount,
      closeFrom_of_stray hinner hcount]

theorem matchingClose_append_of_eq_some (hi : i < u.length) (h : u.matchingClose i = some c) :
    (u ++ v).matchingClose i = some c := by
  unfold matchingClose at h ⊢
  rw [List.drop_append_of_le_length hi]
  obtain ⟨inner, rest, hdrop, hinner, hcount, rfl⟩ := closeFrom_eq_some_iff.mp h
  rw [hdrop, List.append_assoc, List.cons_append, closeFrom_of_stray hinner hcount]

/-- Text in front of a bracket only moves its partner. -/
theorem matchingClose_append_left :
    (u ++ v).matchingClose (u.length + i) = (v.matchingClose i).map (u.length + ·) := by
  unfold matchingClose
  rw [Nat.add_assoc, List.drop_length_add_append, closeFrom_shift]

theorem Balanced.exists_matchingClose (h : Balanced src)
    (hi : src[i]? = some Symbol.opening.byte) : ∃ c, src.matchingClose i = some c := by
  cases hm : src.matchingClose i with
  | some c => exact ⟨c, rfl⟩
  | none =>
    obtain ⟨hlt, hbyte⟩ := List.getElem?_eq_some_iff.mp hi
    have hsplit : src = src.take i ++ Symbol.opening.byte :: src.drop (i + 1) := by
      rw [← hbyte, ← List.drop_eq_getElem_cons hlt, List.take_append_drop]
    have hbefore := h.sheltered (src.take i) (List.take_prefix i src)
    have hafter := (matchingClose_eq_none_iff.mp hm).closed_le
    have hcount := h.settled
    rw [hsplit] at hcount
    rw [opened_append, closed_append, opened_opening, closed_opening] at hcount
    omega

end MatchingClose

end Source

end TapeLang
