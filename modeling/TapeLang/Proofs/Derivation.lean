import TapeLang.Proofs.NodeTable
import TapeLang.Proofs.Reading

/-!
Reading a source accepts the grammar and nothing else, and the node table it leads to is the
derivation of the source's symbols.
-/
namespace TapeLang

open Grammar

namespace Source

theorem accepted_iff_closes {src : Source} (hlen : src.length ≤ UInt32.size - 2) :
    (∃ p, src.program = .ok p) ↔ Closes 0 src.symbols := by
  constructor
  · rintro ⟨p, hp⟩
    exact (program_eq_ok hp).2
  · intro h
    exact ⟨_, program_of_closes (Position.spans_start hlen) h⟩

/-- Within the position limits a source is accepted exactly if its symbols derive from the
grammar. Read from the root through the lists of children, its node table then shows the
derivation, of which there is only one, and no node other than number 0 is a root or a blank. -/
theorem node_table_is_derivation (src : Source) (hlen : src.length ≤ UInt32.size - 2) :
    ((∃ p, src.program = .ok p) ↔ ∃ d, IsProgram d src.symbols) ∧
    ∀ p, src.program = .ok p →
      ∃ d, IsProgram d src.symbols ∧ (∀ d', IsProgram d' src.symbols → d' = d) ∧
        p.tree.Shows (p.tree.children 0) d ∧
        (∀ d', p.tree.Shows (p.tree.children 0) d' → d' = d) ∧
        (∃ n, p.tree.node? 0 = some n ∧ n.kind = .root ∧ n.parent = none) ∧
        ∀ id n, id ≠ 0 → p.tree.node? id = some n → n.kind ≠ .root ∧ n.kind ≠ .none := by
  refine ⟨(accepted_iff_closes hlen).trans (derivable_iff_closes _).symm, ?_⟩
  intro p hp
  have hderives : IsProgram p.instrs src.symbols := by
    rw [← symbols_of_program hp]
    exact p.isProgram
  refine ⟨p.instrs, hderives, fun d' h => h.unique hderives, p.shows_tree,
    fun d' h => h.unique p.shows_tree, ⟨_, p.node?_root, rfl, rfl⟩, ?_⟩
  intro id n hid hn
  rcases Program.kind_of_node? hid hn with ⟨o, hkind⟩ | hkind
  · exact ⟨by simp [hkind], by simp [hkind]⟩
  · exact ⟨by simp [hkind], by simp [hkind]⟩

/-- Two levels of loops, an empty one among them, with a letter and a line break as comments. -/
theorem node_table_of_nested_loops :
    ([97, 91, 43, 91, 93, 10, 93, 46] : Source).length ≤ UInt32.size - 2 ∧
    ∃ p, Source.program [97, 91, 43, 91, 93, 10, 93, 46] = .ok p ∧
      p.tree.Shows (p.tree.children 0) [.loop [.op .increment, .loop []], .op .output] := by
  have hlen : ([97, 91, 43, 91, 93, 10, 93, 46] : Source).length ≤ UInt32.size - 2 := by decide
  have hderives : IsProgram [.loop [.op .increment, .loop []], .op .output]
      (Source.symbols [97, 91, 43, 91, 93, 10, 93, 46]) :=
    .cons (.loop (.brackets (.cons (.op .increment) (.cons (.loop (.brackets .nil)) .nil))))
      (.cons (.op .output) .nil)
  obtain ⟨haccept, hshows⟩ := node_table_is_derivation [97, 91, 43, 91, 93, 10, 93, 46] hlen
  obtain ⟨p, hp⟩ := haccept.mpr ⟨_, hderives⟩
  obtain ⟨d, -, hunique, hd, -⟩ := hshows p hp
  rw [← hunique _ hderives] at hd
  exact ⟨hlen, p, hp, hd⟩

end Source

end TapeLang
