import TapeLang.Bracket
import TapeLang.Proofs.Reading

/-!
Where the parts of a program stand in its source. Each part takes up a stretch of bytes, a loop
the bytes from its `[` to the `]` that looking to the right finds for it. Two brackets never have
the same partner.
-/
namespace TapeLang

open Grammar

namespace Source

def symbolAt (src : Source) (i : Nat) : Option Symbol := src[i]?.bind Symbol.ofByte?

/-- From `i` up to `j` there are only comments. -/
def Blank (src : Source) (i j : Nat) : Prop :=
  i ≤ j ∧ ∀ k, i ≤ k → k < j → k < src.length ∧ src.symbolAt k = none

/-- The program is written from `i` up to `j`. -/
def Spans (src : Source) : Nat → Program → Nat → Prop
  | i, .nil, j => src.Blank i j
  | i, .op o _ rest, j =>
    ∃ k, src.Blank i k ∧ src.symbolAt k = some (.op o) ∧ Spans src (k + 1) rest j
  | i, .loop _ body rest, j =>
    ∃ k c, src.Blank i k ∧ src.symbolAt k = some .opening ∧ Spans src (k + 1) body c ∧
      src.symbolAt c = some .closing ∧ Spans src (c + 1) rest j

theorem Blank.refl (src : Source) (i : Nat) : src.Blank i i :=
  ⟨Nat.le_refl i, fun k hle hlt => absurd hlt (by omega)⟩

theorem Blank.cons {src : Source} {i j : Nat} (hi : i < src.length)
    (hblank : src.symbolAt i = none) (h : src.Blank (i + 1) j) : src.Blank i j := by
  obtain ⟨hle, hall⟩ := h
  refine ⟨by omega, fun k hik hkj => ?_⟩
  by_cases hk : k = i
  · rw [hk]
    exact ⟨hi, hblank⟩
  · exact hall k (by omega) hkj

theorem Blank.tail {src : Source} {i j : Nat} (h : src.Blank i j) (hlt : i < j) :
    src.Blank (i + 1) j := by
  obtain ⟨-, hall⟩ := h
  exact ⟨by omega, fun k hik hkj => hall k (by omega) hkj⟩

theorem lt_length_of_symbolAt {src : Source} {i : Nat} {s : Symbol}
    (h : src.symbolAt i = some s) : i < src.length := by
  by_cases hi : i < src.length
  · exact hi
  · rw [symbolAt, List.getElem?_eq_none (by omega)] at h
    cases h

/-- The next symbol from `i` on, with its place. -/
structure NextAt (src : Source) (i : Nat) (s : Symbol) (pos : Position) : Prop where
  blank : src.Blank i pos.offset
  symbol : src.symbolAt pos.offset = some s
  place : pos = Position.start.after (src.take pos.offset)

/-- The program is written from `i` up to `j`, and each of its instructions knows its place. -/
def Written (src : Source) : Nat → Program → Nat → Prop
  | i, .nil, j => src.Blank i j
  | i, .op o pos rest, j => src.NextAt i (.op o) pos ∧ Written src (pos.offset + 1) rest j
  | i, .loop pos body rest, j =>
    src.NextAt i .opening pos ∧ ∃ c, Written src (pos.offset + 1) body c ∧
      src.symbolAt c = some .closing ∧ Written src (c + 1) rest j

theorem Written.spans {src : Source} {i j : Nat} {p : Program} (h : src.Written i p j) :
    src.Spans i p j := by
  induction p generalizing i j with
  | nil => exact h
  | op o pos rest ih =>
    obtain ⟨hnext, hrest⟩ := h
    exact ⟨pos.offset, hnext.blank, hnext.symbol, ih hrest⟩
  | loop pos body rest ihbody ih =>
    obtain ⟨hnext, c, hbody, hc, hrest⟩ := h
    exact ⟨pos.offset, c, hnext.blank, hnext.symbol, ihbody hbody, hc, ih hrest⟩

theorem NextAt.cons_blank {src : Source} {i : Nat} {s : Symbol} {pos : Position}
    (hi : i < src.length) (hblank : src.symbolAt i = none) (h : src.NextAt (i + 1) s pos) :
    src.NextAt i s pos :=
  ⟨h.blank.cons hi hblank, h.symbol, h.place⟩

/-- Comments in front of a program belong to it. -/
theorem Written.cons_blank {src : Source} {i j : Nat} {p : Program} (hi : i < src.length)
    (hblank : src.symbolAt i = none) (h : src.Written (i + 1) p j) : src.Written i p j := by
  cases p with
  | nil => exact Blank.cons hi hblank h
  | op o pos rest => exact ⟨h.1.cons_blank hi hblank, h.2⟩
  | loop pos body rest => exact ⟨h.1.cons_blank hi hblank, h.2⟩

/-- The levels of a program stand one after the other from `i` to the end of the source, each up
to the `]` that ends it. -/
def WrittenLevels (src : Source) : Nat → Program → List Program → Prop
  | i, q, [] => src.Written i q src.length
  | i, q, r :: outer =>
    ∃ c, src.Written i q c ∧ src.symbolAt c = some .closing ∧ WrittenLevels src (c + 1) r outer

theorem WrittenLevels.imp {src : Source} {i i' : Nat} {q q' : Program} {outer : List Program}
    (h : WrittenLevels src i q outer) (himp : ∀ c, src.Written i q c → src.Written i' q' c) :
    WrittenLevels src i' q' outer := by
  cases outer with
  | nil => exact himp _ h
  | cons r outer =>
    obtain ⟨c, hq, hrest⟩ := h
    exact ⟨c, himp c hq, hrest⟩

theorem symbolAt_length_append (pre rest : Source) (b : UInt8) :
    symbolAt (pre ++ b :: rest) pre.length = Symbol.ofByte? b := by
  simp [symbolAt]

theorem nextAt_length (pre rest : Source) {b : UInt8} {s : Symbol}
    (hb : Symbol.ofByte? b = some s) :
    NextAt (pre ++ b :: rest) pre.length s (Position.start.after pre) := by
  have hoffset : (Position.start.after pre).offset = pre.length :=
    (Position.after_offset _ _).trans (Nat.zero_add _)
  refine ⟨?_, ?_, ?_⟩
  · rw [hoffset]
    exact Blank.refl _ _
  · rw [hoffset, symbolAt_length_append]
    exact hb
  · rw [hoffset, List.take_left]

/-- The levels assembled from the end of a source are written there. The induction is on this end
of the source; `pre` is what comes before it. -/
theorem writtenLevels_of_assembles {pre rest : Source} {q : Program} {outer : List Program}
    (h : Program.Assembles (rest.located (.after .start pre)) q outer) :
    WrittenLevels (pre ++ rest) pre.length q outer := by
  induction rest generalizing pre q outer with
  | nil =>
    have hlen : (pre ++ []).length = pre.length := by simp
    cases h
    rw [WrittenLevels, hlen]
    exact Blank.refl _ _
  | cons b rest ih =>
    have happend : pre ++ [b] ++ rest = pre ++ b :: rest := by simp
    have hlength : (pre ++ [b]).length = pre.length + 1 := by simp
    have hlt : pre.length < (pre ++ b :: rest).length := by simp
    have hoffset : (Position.start.after pre).offset = pre.length :=
      (Position.after_offset _ _).trans (Nat.zero_add _)
    have hat := symbolAt_length_append pre rest b
    have hrest {q : Program} {outer : List Program}
        (h : Program.Assembles (located ((Position.start.after pre).next b) rest) q outer) :
        WrittenLevels (pre ++ b :: rest) ((Position.start.after pre).offset + 1) q outer := by
      rw [hoffset, ← hlength, ← happend]
      apply ih
      rw [Position.after_append]
      exact h
    cases hb : Symbol.ofByte? b with
    | none =>
      simp only [located, hb] at h
      rw [hb] at hat
      rw [hoffset] at hrest
      exact (hrest h).imp fun c hq => hq.cons_blank hlt hat
    | some s =>
      have hnext := nextAt_length pre rest hb
      simp only [located, hb] at h
      rw [hb] at hat
      cases h with
      | op o _ h => exact (hrest h).imp fun c hq => ⟨hnext, hq⟩
      | opening _ h =>
        obtain ⟨c, hq, hc, hr⟩ := hrest h
        exact hr.imp fun c' hr => ⟨hnext, c, hq, hc, hr⟩
      | closing _ h => exact ⟨pre.length, Blank.refl _ _, hat, hoffset ▸ hrest h⟩

/-- The program of an accepted source is written from its first byte to its end. -/
theorem written_of_program {src : Source} {p : Program} (h : src.program = .ok p) :
    src.Written 0 p src.length := by
  obtain ⟨rfl, hcloses⟩ := program_eq_ok h
  rw [← map_value_located .start src] at hcloses
  exact @writtenLevels_of_assembles [] src _ _ (Program.assembles_assemble hcloses)

theorem spans_of_program {src : Source} {p : Program} (h : src.program = .ok p) :
    src.Spans 0 p src.length :=
  (written_of_program h).spans

/-- The `]` that closes an open bracket, looked for from `i` on. -/
def closeAfter (src : Source) (depth i : Nat) : Option Nat := closeFrom depth i (src.drop i)

theorem matchingClose_eq (src : Source) (i : Nat) :
    src.matchingClose i = src.closeAfter 0 (i + 1) := rfl

section CloseAfter

variable {src : Source} {depth i : Nat}

theorem closeAfter_eq {b : UInt8} (hb : src[i]? = some b) :
    src.closeAfter depth i =
      match Symbol.ofByte? b with
      | some .opening => src.closeAfter (depth + 1) (i + 1)
      | some .closing => if depth = 0 then some i else src.closeAfter (depth - 1) (i + 1)
      | _ => src.closeAfter depth (i + 1) := by
  obtain ⟨hi, rfl⟩ := List.getElem?_eq_some_iff.mp hb
  rw [closeAfter, List.drop_eq_getElem_cons hi, closeFrom]
  rfl

theorem closeAfter_none (hi : i < src.length) (h : src.symbolAt i = none) :
    src.closeAfter depth i = src.closeAfter depth (i + 1) := by
  have hb := List.getElem?_eq_getElem hi
  rw [symbolAt, hb, Option.bind_some] at h
  rw [closeAfter_eq hb, h]

theorem closeAfter_some {s : Symbol} (h : src.symbolAt i = some s) :
    src.closeAfter depth i =
      match s with
      | .opening => src.closeAfter (depth + 1) (i + 1)
      | .closing => if depth = 0 then some i else src.closeAfter (depth - 1) (i + 1)
      | .op _ => src.closeAfter depth (i + 1) := by
  obtain ⟨b, hb, hs⟩ := Option.bind_eq_some_iff.mp h
  rw [closeAfter_eq hb, hs]
  cases s <;> rfl

theorem closeAfter_blank {j : Nat} (h : src.Blank i j) :
    src.closeAfter depth i = src.closeAfter depth j := by
  induction hn : j - i generalizing i with
  | zero =>
    obtain ⟨hle, -⟩ := h
    rw [show i = j by omega]
  | succ n ih =>
    have hlt : i < j := by omega
    obtain ⟨hi, hnone⟩ := h.2 i (Nat.le_refl i) hlt
    rw [closeAfter_none hi hnone]
    exact ih (h.tail hlt) (by omega)

theorem closeAfter_spans {p : Program} {j : Nat} (h : src.Spans i p j) :
    src.closeAfter depth i = src.closeAfter depth j := by
  induction p generalizing depth i j with
  | nil => exact closeAfter_blank h
  | op o pos rest ih =>
    obtain ⟨k, hblank, hk, hrest⟩ := h
    rw [closeAfter_blank hblank, closeAfter_some hk]
    exact ih hrest
  | loop pos body rest ihbody ih =>
    obtain ⟨k, c, hblank, hk, hbody, hc, hrest⟩ := h
    rw [closeAfter_blank hblank, closeAfter_some hk]
    show src.closeAfter (depth + 1) (k + 1) = _
    rw [ihbody hbody, closeAfter_some hc]
    exact ih hrest

theorem matchingClose_of_spans {body : Program} {c : Nat} (hbody : src.Spans (i + 1) body c)
    (hc : src.symbolAt c = some .closing) : src.matchingClose i = some c := by
  rw [matchingClose_eq, closeAfter_spans hbody, closeAfter_some hc]
  rfl

end CloseAfter

theorem Spans.le {src : Source} {p : Program} {i j : Nat} (h : src.Spans i p j) : i ≤ j := by
  induction p generalizing i j with
  | nil => exact h.1
  | op o pos rest ih =>
    obtain ⟨k, hblank, -, hrest⟩ := h
    have := hblank.1
    have := ih hrest
    omega
  | loop pos body rest ihbody ih =>
    obtain ⟨k, c, hblank, -, hbody, -, hrest⟩ := h
    have := hblank.1
    have := ihbody hbody
    have := ih hrest
    omega

/-- A bracket in a stretch of program is one of the two brackets of a loop in this stretch. -/
theorem Spans.exists_loop {src : Source} {p : Program} {i j k : Nat} {s : Symbol}
    (h : src.Spans i p j) (hik : i ≤ k) (hkj : k < j) (hk : src.symbolAt k = some s)
    (hs : ∀ o, s ≠ .op o) :
    ∃ l c body, src.symbolAt l = some .opening ∧ src.Spans (l + 1) body c ∧
      src.symbolAt c = some .closing ∧ c < j ∧ (k = l ∨ k = c) := by
  induction p generalizing i j with
  | nil => cases (h.2 k hik hkj).2.symm.trans hk
  | op o pos rest ih =>
    obtain ⟨l, hblank, hl, hrest⟩ := h
    rcases Nat.lt_trichotomy k l with hlt | rfl | hgt
    · cases (hblank.2 k hik hlt).2.symm.trans hk
    · cases hl.symm.trans hk
      exact absurd rfl (hs o)
    · exact ih hrest hgt hkj
  | loop pos body rest ihbody ih =>
    obtain ⟨l, c, hblank, hl, hbody, hc, hrest⟩ := h
    have hcj := hrest.le
    rcases Nat.lt_trichotomy k l with hlt | rfl | hgt
    · cases (hblank.2 k hik hlt).2.symm.trans hk
    · exact ⟨k, c, body, hl, hbody, hc, hcj, .inl rfl⟩
    · rcases Nat.lt_trichotomy k c with hlt | rfl | hgt'
      · obtain ⟨l', c', body', hl', hbody', hc', hlt', hk'⟩ := ihbody hbody hgt hlt
        exact ⟨l', c', body', hl', hbody', hc', by omega, hk'⟩
      · exact ⟨l, k, body, hl, hbody, hc, hcj, .inr rfl⟩
      · exact ih hrest hgt' hkj

/-- Every `[` in a stretch of program is closed by a `]` of the same stretch. -/
theorem Spans.exists_close {src : Source} {p : Program} {i j k : Nat} (h : src.Spans i p j)
    (hik : i ≤ k) (hkj : k < j) (hk : src.symbolAt k = some .opening) :
    ∃ c, c < j ∧ src.matchingClose k = some c := by
  obtain ⟨l, c, body, -, hbody, hc, hcj, rfl | rfl⟩ := h.exists_loop hik hkj hk nofun
  · exact ⟨c, hcj, matchingClose_of_spans hbody hc⟩
  · cases hc.symm.trans hk

/-- Every `]` in a stretch of program closes a `[`. -/
theorem Spans.exists_open {src : Source} {p : Program} {i j k : Nat} (h : src.Spans i p j)
    (hik : i ≤ k) (hkj : k < j) (hk : src.symbolAt k = some .closing) :
    ∃ o, src.symbolAt o = some .opening ∧ src.matchingClose o = some k := by
  obtain ⟨l, c, body, hl, hbody, hc, -, rfl | rfl⟩ := h.exists_loop hik hkj hk nofun
  · cases hl.symm.trans hk
  · exact ⟨l, hl, matchingClose_of_spans hbody hc⟩

theorem le_of_closeFrom {depth offset c : Nat} {rest : Source}
    (h : closeFrom depth offset rest = some c) : offset ≤ c := by
  induction rest generalizing depth offset with
  | nil => cases h
  | cons b rest ih =>
    rw [closeFrom] at h
    split at h
    · have := ih h
      omega
    · split at h
      · cases h
        exact Nat.le_refl _
      · have := ih h
        omega
    · have := ih h
      omega

/-- Where the search ends tells with how many open brackets it was started. -/
theorem depth_unique {d d' offset c : Nat} {rest : Source}
    (h : closeFrom d offset rest = some c) (h' : closeFrom d' offset rest = some c) : d = d' := by
  induction rest generalizing d d' offset with
  | nil => cases h
  | cons b rest ih =>
    rw [closeFrom] at h h'
    split at h
    · next hb =>
      simp only [hb] at h'
      have := ih h h'
      omega
    · next hb =>
      simp only [hb] at h'
      split at h
      · split at h'
        · omega
        · cases h
          have := le_of_closeFrom h'
          omega
      · split at h'
        · cases h'
          have := le_of_closeFrom h
          omega
        · have := ih h h'
          omega
    · next hb hb' =>
      split at h'
      · next hc => exact absurd hc hb
      · next hc => exact absurd hc hb'
      · exact ih h h'

/-- On the way to its end the search passes a `[` with one more bracket open after it. -/
theorem closeAfter_opening {src : Source} {depth i o c : Nat}
    (h : src.closeAfter depth i = some c) (hio : i ≤ o) (hoc : o < c)
    (ho : src.symbolAt o = some .opening) :
    ∃ d, src.closeAfter (d + 1) (o + 1) = some c := by
  induction hn : o - i generalizing depth i with
  | zero =>
    obtain rfl : i = o := by omega
    rw [closeAfter_some ho] at h
    exact ⟨depth, h⟩
  | succ n ih =>
    have hi : i < src.length := by
      have := lt_length_of_symbolAt ho
      omega
    have hb := List.getElem?_eq_getElem hi
    rw [closeAfter_eq hb] at h
    split at h
    · exact ih h (by omega) (by omega)
    · split at h
      · cases h
        omega
      · exact ih h (by omega) (by omega)
    · exact ih h (by omega) (by omega)

theorem matchingClose_unique {src : Source} {o o' c : Nat}
    (ho : src.symbolAt o = some .opening) (ho' : src.symbolAt o' = some .opening)
    (h : src.matchingClose o = some c) (h' : src.matchingClose o' = some c) : o = o' := by
  have hle := le_of_closeFrom h
  have hle' := le_of_closeFrom h'
  rcases Nat.lt_trichotomy o o' with hlt | heq | hgt
  · obtain ⟨d, hd⟩ := closeAfter_opening h (by omega) (by omega) ho'
    exact absurd (depth_unique hd h') (by omega)
  · exact heq
  · obtain ⟨d, hd⟩ := closeAfter_opening h' (by omega) (by omega) ho
    exact absurd (depth_unique hd h) (by omega)

end Source

end TapeLang
