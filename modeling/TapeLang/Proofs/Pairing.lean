import TapeLang.Proofs.OpenBrackets

/-!
The two ways of finding partners agree. The pass over the whole source fills the slot of a bracket
when it meets the partner, which may be long after it has opened slots for other brackets. After
any part of the source each slot holds what looking to the right finds within this part.
-/
namespace TapeLang

namespace Source

/-- For each `[` in order the offset of its partner, if it has one. -/
def partners (src : Source) : List (Option Nat) :=
  (src.idxsOf Symbol.opening.byte).map src.matchingClose

section Partners

variable {u v src : Source}

theorem length_partners (src : Source) : src.partners.length = src.opened := by
  rw [partners, List.length_map, List.length_idxsOf]
  rfl

theorem mem_openings {i : Nat} (h : i ∈ src.idxsOf Symbol.opening.byte) :
    i < src.length ∧ src[i]? = some Symbol.opening.byte := by
  obtain ⟨hi, hbyte⟩ := List.mem_idxsOf_iff_exists_getElem_pos.mp h
  exact ⟨hi, List.getElem?_eq_some_iff.mpr ⟨hi, eq_of_beq hbyte⟩⟩

theorem map_matchingClose_right (u v : Source) :
    (v.idxsOf Symbol.opening.byte (0 + u.length)).map (u ++ v).matchingClose =
      v.partners.map (Option.map (u.length + ·)) := by
  rw [List.idxsOf_start, partners, List.map_map, List.map_map]
  refine List.map_congr_left fun i _ => ?_
  rw [Function.comp_apply, Function.comp_apply, Nat.zero_add, Nat.add_comm,
    matchingClose_append_left]

/-- Text that closes nothing of what stands before it only adds partners. -/
theorem partners_append (hv : Sheltered 0 v) :
    partners (u ++ v) = u.partners ++ v.partners.map (Option.map (u.length + ·)) := by
  rw [partners, List.idxsOf_append, List.map_append, map_matchingClose_right]
  congr 1
  refine List.map_congr_left fun i hi => ?_
  exact matchingClose_append (mem_openings hi).1 hv

theorem partners_opening (src : Source) : partners (Symbol.opening.byte :: src) =
    closeFrom 0 1 src :: src.partners.map (Option.map (1 + ·)) := by
  have hrest := map_matchingClose_right [Symbol.opening.byte] src
  rw [partners, List.idxsOf_cons, if_pos (beq_self_eq_true _), List.map_cons]
  exact congrArg _ hrest

theorem partners_append_closing (h : Balanced src) :
    partners (src ++ [Symbol.closing.byte]) = src.partners := by
  have hnone : [Symbol.closing.byte].idxsOf Symbol.opening.byte (0 + src.length) = [] := rfl
  rw [partners, List.idxsOf_append, hnone, List.append_nil]
  refine List.map_congr_left fun i hi => ?_
  obtain ⟨hlt, hopening⟩ := mem_openings hi
  obtain ⟨c, hc⟩ := h.exists_matchingClose hopening
  rw [hc]
  exact matchingClose_append_of_eq_some hlt hc

/-- What a `]` changes: the innermost open bracket has found its partner, and all others keep what
they have. -/
theorem partners_close (before : Source) {inner : Source} (h : Balanced inner) :
    ∃ later, partners (before ++ Symbol.opening.byte :: inner) = before.partners ++ none :: later ∧
      partners (before ++ Symbol.opening.byte :: inner ++ [Symbol.closing.byte]) =
        before.partners ++ some (before.length + 1 + inner.length) :: later := by
  obtain ⟨hinner, hcount⟩ := balanced_iff.mp h
  have hopen : Sheltered 0 (Symbol.opening.byte :: inner) :=
    sheltered_opening.mpr (hinner.mono (Nat.zero_le _))
  have hloop := (balanced_iff.mp h.wrap).1
  have hclose : closeFrom 0 1 (inner ++ [Symbol.closing.byte]) = some (1 + inner.length) :=
    closeFrom_of_stray hinner (by omega)
  refine ⟨(inner.partners.map (Option.map (1 + ·))).map (Option.map (before.length + ·)), ?_, ?_⟩
  · rw [partners_append hopen, partners_opening, closeFrom_of_sheltered hinner, List.map_cons]
    rfl
  · rw [List.append_assoc, List.cons_append, partners_append hloop, partners_opening, hclose,
      partners_append_closing h, List.map_cons, Option.map_some, Nat.add_assoc]

end Partners

end Source

open Source

namespace Pairing

/-- The pairing has read the text: its slots hold the partners found in it, and those of the open
brackets wait. The slot of a bracket is the number of brackets before it. -/
structure Follows (p : Pairing) (src : Source) : Prop where
  closes : p.closes.toList = src.partners.map fun partner => partner.getD unfilled
  waiting : ∃ stack, src.LeavesOpen stack ∧ p.waiting = stack.map opened

variable {p : Pairing} {src : Source} {b : UInt8} {pos : Position}

theorem follows_nil : Follows {} [] := ⟨rfl, [], balanced_nil, rfl⟩

theorem Follows.size_closes (h : p.Follows src) : p.closes.size = src.opened := by
  rw [← Array.length_toList, h.closes, List.length_map, length_partners]

theorem Follows.other (h : p.Follows src) (ho : b ≠ Symbol.opening.byte)
    (hc : b ≠ Symbol.closing.byte) : p.Follows (src ++ [b]) := by
  obtain ⟨stack, hstack, hwaiting⟩ := h.waiting
  have hb := balanced_singleton ho hc
  have hnone : partners [b] = [] := by
    rw [partners, List.idxsOf_cons, if_neg (by simpa using ho)]
    rfl
  refine ⟨?_, stack, hstack.append hb, hwaiting⟩
  rw [partners_append (balanced_iff.mp hb).1, hnone, List.map_nil, List.append_nil]
  exact h.closes

theorem Follows.opening (h : p.Follows src) (pos : Position) :
    (p.read ⟨pos, .opening⟩).Follows (src ++ [Symbol.opening.byte]) := by
  obtain ⟨stack, hstack, hwaiting⟩ := h.waiting
  refine ⟨?_, src :: stack, hstack.opening, ?_⟩
  · rw [partners_append (sheltered_opening.mpr sheltered_nil), partners_opening, List.map_append,
      ← h.closes]
    exact Array.toList_push
  · rw [List.map_cons, ← hwaiting, ← h.size_closes]
    rfl

theorem Follows.closing (h : p.Follows src) (hpos : pos.offset = src.length)
    (hsheltered : Sheltered 0 (src ++ [Symbol.closing.byte])) :
    (p.read ⟨pos, .closing⟩).Follows (src ++ [Symbol.closing.byte]) := by
  obtain ⟨stack, hstack, hwaiting⟩ := h.waiting
  obtain ⟨before, outer, rfl⟩ := hstack.exists_innermost hsheltered
  have hread : p.read ⟨pos, .closing⟩ =
      ⟨p.closes.setIfInBounds before.opened pos.offset, outer.map opened⟩ := by
    simp only [read, hwaiting, List.map_cons]
  have hclosing := hstack.closing
  obtain ⟨inner, rfl, hinner, -⟩ := hstack
  obtain ⟨later, hbefore, hafter⟩ := partners_close before hinner
  rw [hread]
  refine ⟨?_, outer, hclosing, rfl⟩
  have hslot : before.opened =
      (before.partners.map fun partner => partner.getD unfilled).length := by
    rw [List.length_map, length_partners]
  have hoffset : pos.offset = before.length + 1 + inner.length := by
    rw [hpos, List.length_append, List.length_cons]
    omega
  rw [Array.toList_setIfInBounds, h.closes, hbefore, hafter, List.map_append, List.map_append,
    hslot, List.set_append_right _ _ (Nat.le_refl _), Nat.sub_self, hoffset]
  rfl

theorem Follows.step (h : p.Follows src) (hsheltered : Sheltered 0 (src ++ [b])) :
    ((located (Position.start.after src) [b]).foldl read p).Follows (src ++ [b]) := by
  by_cases ho : b = Symbol.opening.byte
  · subst ho
    exact h.opening (Position.start.after src)
  · by_cases hc : b = Symbol.closing.byte
    · subst hc
      exact h.closing (offset_after_start src) hsheltered
    · have hother := h.other ho hc
      rcases comment_or_op ho hc with hb | ⟨o, hb⟩
      · simp only [located, hb, List.foldl_nil]
        exact hother
      · simp only [located, hb, List.foldl_cons, List.foldl_nil, read]
        exact hother

theorem Follows.run {rest : Source} (h : p.Follows src) (hsheltered : Sheltered 0 (src ++ rest)) :
    ((located (Position.start.after src) rest).foldl read p).Follows (src ++ rest) := by
  induction rest generalizing p src with
  | nil =>
    rw [List.append_nil]
    exact h
  | cons b rest ih =>
    have happend : src ++ b :: rest = (src ++ [b]) ++ rest := by
      rw [List.append_assoc]
      rfl
    rw [happend] at hsheltered ⊢
    obtain ⟨hfirst, -⟩ := sheltered_append.mp hsheltered
    have hrest := ih (h.step hfirst) hsheltered
    have hlocated : located (Position.start.after src) (b :: rest) =
        located (Position.start.after src) [b] ++
          located (Position.start.after (src ++ [b])) rest := by
      rw [Position.after_append, ← located_append]
      rfl
    rw [hlocated, List.foldl_append]
    exact hrest

end Pairing

namespace Source

open Grammar

/-- The brackets of the symbols close exactly if those of the text are sheltered and come out even. -/
theorem closes_symbols_iff {depth : Nat} {src : Source} :
    Closes depth src.symbols ↔ Sheltered depth src ∧ src.closed = depth + src.opened := by
  induction src generalizing depth with
  | nil =>
    refine ⟨fun h => ⟨sheltered_nil, h.symm⟩, fun h => h.2.symm⟩
  | cons b src ih =>
    by_cases ho : b = Symbol.opening.byte
    · subst ho
      have hsymbols : symbols (Symbol.opening.byte :: src) = .opening :: symbols src := rfl
      rw [hsymbols, Closes, ih, sheltered_opening, closed_opening, opened_opening]
      refine and_congr_right fun _ => ?_
      omega
    · by_cases hc : b = Symbol.closing.byte
      · subst hc
        have hsymbols : symbols (Symbol.closing.byte :: src) = .closing :: symbols src := rfl
        cases depth with
        | zero =>
          rw [hsymbols, Closes]
          exact ⟨False.elim, fun h => not_sheltered_closing h.1⟩
        | succ depth =>
          rw [hsymbols, Closes, ih, sheltered_closing, closed_closing, opened_closing]
          refine and_congr_right fun _ => ?_
          omega
      · have hsymbols : Closes depth (symbols (b :: src)) ↔ Closes depth (symbols src) := by
          rcases comment_or_op ho hc with hb | ⟨o, hb⟩
          · simp only [symbols, List.filterMap_cons, hb]
          · simp only [symbols, List.filterMap_cons, hb, Closes]
        rw [hsymbols, ih, sheltered_of_ne ho hc, closed_of_ne hc, opened_of_ne ho]

/-- The pass over a whole source finds the partner that looking to the right finds, for every
bracket. -/
theorem closings_eq_ok {src : Source} {closes : Array Nat} (h : src.closings = .ok closes) :
    closes.toList.map some = src.partners := by
  unfold closings at h
  cases ht : src.tokens with
  | error e =>
    rw [ht] at h
    cases h
  | ok ts =>
    rw [ht] at h
    cases h
    obtain ⟨rfl, hcloses⟩ := tokens_eq_ok ht
    obtain ⟨hsheltered, hcount⟩ := closes_symbols_iff.mp hcloses
    have hbalanced : Balanced src := balanced_iff.mpr ⟨hsheltered, by omega⟩
    have hfollows : (Pairing.ofTokens (src.located .start)).Follows src :=
      Pairing.follows_nil.run hsheltered
    rw [hfollows.closes, partners, List.map_map, List.map_map]
    refine List.map_congr_left fun i hi => ?_
    obtain ⟨c, hc⟩ := hbalanced.exists_matchingClose (mem_openings hi).2
    rw [Function.comp_apply, Function.comp_apply, hc]
    rfl

/-- Looking to the right of a `[` finds exactly the `]` up to which the text is balanced, and
nothing if there is none. When the pass over the whole source succeeds, it has an answer for each
`[`, and these are the answers of looking to the right, in order. -/
theorem bracket_matching_rules_agree (src : Source) :
    (∀ opening, src[opening]? = some Symbol.opening.byte →
      src.matchingClose? opening = some (src.matchingClose opening) ∧
      (∀ c, src.matchingClose opening = some c ↔ opening < c ∧
        src[c]? = some Symbol.closing.byte ∧ Balanced ((src.take c).drop (opening + 1))) ∧
      (src.matchingClose opening = none ↔ ¬ ∃ c, opening < c ∧
        src[c]? = some Symbol.closing.byte ∧ Balanced ((src.take c).drop (opening + 1)))) ∧
    ∀ closes, src.closings = .ok closes →
      closes.size = src.count Symbol.opening.byte ∧
      closes.toList.map some = (src.idxsOf Symbol.opening.byte).map src.matchingClose := by
  constructor
  · intro opening hopening
    refine ⟨if_pos hopening, fun c => matchingClose_eq_some_iff, ?_⟩
    rw [Option.eq_none_iff_forall_ne_some, ← not_exists]
    refine not_congr (exists_congr fun c => ?_)
    exact matchingClose_eq_some_iff
  · intro closes hcloses
    have hpartners := closings_eq_ok hcloses
    refine ⟨?_, hpartners⟩
    rw [← Array.length_toList, ← List.length_map (f := some), hpartners, length_partners]
    rfl

/-- The source `[[]a[[-]]]+[]`, in which slots are filled in another order than they are opened. -/
theorem partners_of_nested_brackets :
    let src : Source := [91, 91, 93, 97, 91, 91, 45, 93, 93, 93, 43, 91, 93]
    src[0]? = some Symbol.opening.byte ∧ src.closings = .ok #[9, 2, 8, 7, 12] ∧
    Balanced ((src.take 9).drop 1) ∧
    [9, 2, 8, 7, 12].map some = (src.idxsOf Symbol.opening.byte).map src.matchingClose := by
  intro src
  have hopening : src[0]? = some Symbol.opening.byte := by rfl
  have hcloses : src.closings = .ok #[9, 2, 8, 7, 12] := by rfl
  have hmatch : src.matchingClose 0 = some 9 := by rfl
  obtain ⟨hright, hpass⟩ := bracket_matching_rules_agree src
  obtain ⟨-, hfound, -⟩ := hright 0 hopening
  obtain ⟨-, -, hbalanced⟩ := (hfound 9).mp hmatch
  exact ⟨hopening, hcloses, hbalanced, (hpass _ hcloses).2⟩

end Source

end TapeLang
