import TapeLang.Proofs.Reading
import TapeLang.Proofs.Unplaced
import TapeLang.Proofs.Walk

/-!
Flattening undoes reading up to comments and places. A node table flattens to the symbols of its
source, the flattened text is read as the same table, and two tables flatten alike exactly if they
agree in all but places.
-/
namespace TapeLang

namespace Symbol

theorem char_injective {s t : Symbol} (h : s.char = t.char) : s = t :=
  byte_injective (congrArg (fun c => c.toNat.toUInt8) h)

theorem bytesOf_singleton_char (s : Symbol) :
    Sink.bytesOf (String.singleton s.char) = [s.byte] := by
  cases s with
  | op o => cases o <;> decide
  | opening => decide
  | closing => decide

theorem bytesOf_map_char (w : List Symbol) :
    Sink.bytesOf (String.ofList (w.map char)) = w.map byte := by
  induction w with
  | nil => rfl
  | cons s w ih =>
    rw [List.map_cons, List.map_cons, String.ofList_cons, Sink.bytesOf_append, ih,
      bytesOf_singleton_char]
    rfl

end Symbol

namespace Source

/-- The source with its comments left out. -/
def stripped (src : Source) : Source := src.filter fun b => (Symbol.ofByte? b).isSome

theorem map_byte_symbols (src : Source) : src.symbols.map Symbol.byte = src.stripped := by
  unfold symbols stripped
  induction src with
  | nil => rfl
  | cons b rest ih =>
    cases hb : Symbol.ofByte? b with
    | none => rw [List.filterMap_cons_none hb, List.filter_cons_of_neg (by simp [hb]), ih]
    | some s =>
      rw [List.filterMap_cons_some hb, List.filter_cons_of_pos (by simp [hb]), List.map_cons, ih,
        Symbol.byte_of_ofByte? hb]

theorem symbols_map_byte (w : List Symbol) : symbols (w.map Symbol.byte) = w := by
  induction w with
  | nil => rfl
  | cons s w ih =>
    rw [List.map_cons, symbols, List.filterMap_cons_some s.ofByte?_byte]
    exact congrArg (s :: ·) ih

theorem symbols_stripped (src : Source) : src.stripped.symbols = src.symbols := by
  rw [← map_byte_symbols, symbols_map_byte]

end Source

namespace Program

variable {p q : Program}

theorem bytesOf_flatten (p : Program) :
    Sink.bytesOf p.tree.flatten = p.symbols.map Symbol.byte := by
  rw [flatten_tree, Symbol.bytesOf_map_char]

theorem symbols_unplaced (p : Program) : p.unplaced.symbols = p.symbols := by
  induction p with
  | nil => rfl
  | op o pos rest ih => rw [unplaced, symbols, symbols, ih]
  | loop pos body rest ihbody ih => rw [unplaced, symbols, symbols, ihbody, ih]

theorem flatten_eq_iff_symbols_eq : p.tree.flatten = q.tree.flatten ↔ p.symbols = q.symbols := by
  rw [flatten_tree, flatten_tree, String.ofList_inj]
  exact List.map_inj_right fun _ _ => Symbol.char_injective

/-- The layout of a table is decided by the symbols of its program, and decides about them. -/
theorem symbols_eq_iff_unplaced_eq :
    p.symbols = q.symbols ↔ p.tree.unplaced = q.tree.unplaced := by
  constructor
  · intro h
    rw [← tree_unplaced, ← tree_unplaced, unplaced_eq_of_symbols_eq h]
  · intro h
    rw [← tree_unplaced, ← tree_unplaced] at h
    rw [← symbols_unplaced p, ← symbols_unplaced q]
    exact flatten_eq_iff_symbols_eq.mp (congrArg Tree.flatten h)

end Program

namespace Source

/-- The table of an accepted source flattens to the source without its comments. That text is
accepted in turn, with a table that differs in places only and flattens to the same text. Tables of
accepted sources flatten alike exactly if they differ in places only. -/
theorem flatten_inverts_reading (src : Source) (p : Program) (hlen : src.length ≤ UInt32.size - 2)
    (h : src.program = .ok p) :
    Sink.bytesOf p.tree.flatten = src.stripped ∧
    (∃ q, Source.program (Sink.bytesOf p.tree.flatten) = .ok q ∧
      q.tree.unplaced = p.tree.unplaced ∧ q.tree.flatten = p.tree.flatten) ∧
    ∀ (src' : Source) (p' : Program), src'.program = .ok p' →
      (p.tree.flatten = p'.tree.flatten ↔ p.tree.unplaced = p'.tree.unplaced) := by
  have hflatten : Sink.bytesOf p.tree.flatten = src.stripped := by
    rw [Program.bytesOf_flatten, symbols_of_program h, map_byte_symbols]
  refine ⟨hflatten, ?_, ?_⟩
  · have hlength : src.stripped.length ≤ UInt32.size - 2 :=
      Nat.le_trans (List.length_filter_le _ _) hlen
    have hcloses : Grammar.Closes 0 src.stripped.symbols := by
      rw [symbols_stripped]
      exact (program_eq_ok h).2
    have hread := program_of_closes (Position.spans_start hlength) hcloses
    have hsymbols := symbols_of_program hread
    rw [symbols_stripped, ← symbols_of_program h] at hsymbols
    rw [hflatten]
    exact ⟨_, hread, Program.symbols_eq_iff_unplaced_eq.mp hsymbols,
      Program.flatten_eq_iff_symbols_eq.mpr hsymbols⟩
  · intro src' p' _
    exact Program.flatten_eq_iff_symbols_eq.trans Program.symbols_eq_iff_unplaced_eq

/-- `a[+[]⏎].` and `[+[]].` flatten to the text of the latter. -/
theorem flatten_of_nested_loops :
    let src : Source := [97, 91, 43, 91, 93, 10, 93, 46]
    src.length ≤ UInt32.size - 2 ∧
    ∃ p, src.program = .ok p ∧ Sink.bytesOf p.tree.flatten = [91, 43, 91, 93, 93, 46] ∧
      ∃ q, Source.program [91, 43, 91, 93, 93, 46] = .ok q ∧ p.tree ≠ q.tree ∧
        q.tree.unplaced = p.tree.unplaced ∧ q.tree.flatten = p.tree.flatten := by
  intro src
  have hlen : src.length ≤ UInt32.size - 2 := by decide
  have hp : src.program = .ok (.loop ⟨1, 2, 1⟩ (.op .increment ⟨1, 3, 2⟩
      (.loop ⟨1, 4, 3⟩ .nil .nil)) (.op .output ⟨2, 2, 7⟩ .nil)) := rfl
  have hq : Source.program [91, 43, 91, 93, 93, 46] = .ok (.loop ⟨1, 1, 0⟩ (.op .increment ⟨1, 2, 1⟩
      (.loop ⟨1, 3, 2⟩ .nil .nil)) (.op .output ⟨1, 6, 5⟩ .nil)) := rfl
  obtain ⟨hflatten, ⟨q, hread, hunplaced, htext⟩, -⟩ := flatten_inverts_reading src _ hlen hp
  have hstripped : src.stripped = [91, 43, 91, 93, 93, 46] := by decide
  rw [hflatten, hstripped] at hread
  refine ⟨hlen, _, hp, hflatten.trans hstripped, q, hread, ?_, hunplaced, htext⟩
  cases hq.symm.trans hread
  intro htree
  have hnodes := congrArg Tree.nodes htree
  rw [Program.nodes_tree, Program.nodes_tree] at hnodes
  revert hnodes
  decide

end Source

end TapeLang
