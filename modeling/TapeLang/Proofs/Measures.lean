import TapeLang.Proofs.Enclosure
import TapeLang.Proofs.Pairing
import Mathlib.Data.List.Induction
import Mathlib.Data.Set.Card

/-!
What can be measured on the node table of a source can be counted in the source. There is a node
for each symbol but `]`, below a loop for each of these between its brackets, and a step of the walk
for each symbol. The nesting of loops at a step of the walk is the number of brackets that are open
in the source at its symbol, so that the depth of the table is the greatest such number.
-/
namespace TapeLang

namespace Tree

/-- Count a step of the walk if it is into or out of a loop. -/
def nest (t : Tree) (n : Program.Nesting) : Event → Program.Nesting
  | .enter id =>
    if (t.node? id).any fun node => node.kind = .loop then
      ⟨n.depth + 1, max n.deepest (n.depth + 1)⟩
    else n
  | .exit id =>
    if (t.node? id).any fun node => node.kind = .loop then { n with depth := n.depth - 1 } else n

/-- How deep the walk over the table comes into loops. -/
def depth (t : Tree) : Nat := (t.events.foldl t.nest {}).deepest

/-- A step of the walk counts as much as what it says to a back end. -/
theorem nest_eq (t : Tree) (n : Program.Nesting) (e : Event) :
    t.nest n e = (t.call? e).elim n n.visit := by
  cases e with
  | enter id =>
    cases hn : t.node? id with
    | none => simp [nest, call?, hn]
    | some node => cases hk : node.kind <;> simp [nest, call?, hn, hk, Program.Nesting.visit]
  | exit id =>
    cases hn : t.node? id with
    | none => simp [nest, call?, hn]
    | some node => cases hk : node.kind <;> simp [nest, call?, hn, hk, Program.Nesting.visit]

end Tree

theorem Program.depth_tree (p : Program) : p.tree.depth = p.depth := by
  rw [Program.depth, ← p.filterMap_call?_events, List.foldl_filterMap, Tree.depth]
  congr 2
  funext n e
  rw [p.tree.nest_eq]
  cases p.tree.call? e <;> rfl

namespace Program.Nesting

/-- Take in a symbol. -/
def read (n : Nesting) : Symbol → Nesting
  | .op _ => n
  | .opening => ⟨n.depth + 1, max n.deepest (n.depth + 1)⟩
  | .closing => { n with depth := n.depth - 1 }

theorem foldl_visit_spell (p : Program) (n : Nesting) :
    p.spell.foldl visit n = p.symbols.foldl read n := by
  induction p generalizing n with
  | nil => rfl
  | op o pos rest ih => exact ih n
  | loop pos body rest ihbody ih =>
    rw [spell, symbols, List.foldl_cons, List.foldl_append, List.foldl_cons, ihbody, ih,
      List.cons_append, List.foldl_cons, List.foldl_append, List.foldl_cons]
    rfl

end Program.Nesting

namespace Source

/-- The numbers of brackets that are open behind the beginnings of a text. -/
def heights (src : Source) : Set Int :=
  {d | ∃ before, before <+: src ∧ d = (opened before : Int) - closed before}

theorem heights_concat (src : Source) (b : UInt8) :
    heights (src ++ [b]) =
      insert ((opened (src ++ [b]) : Int) - closed (src ++ [b])) (heights src) := by
  ext d
  simp only [heights, List.prefix_concat_iff, Set.mem_ofPred_eq, Set.mem_insert_iff]
  constructor
  · rintro ⟨before, rfl | hbefore, rfl⟩
    · exact Or.inl rfl
    · exact Or.inr ⟨before, hbefore, rfl⟩
  · rintro (rfl | ⟨before, hbefore, rfl⟩)
    · exact ⟨_, Or.inl rfl, rfl⟩
    · exact ⟨before, Or.inr hbefore, rfl⟩

end Source

namespace Program.Nesting

open Source

/-- What the nesting of loops comes to behind a text. -/
structure Follows (n : Nesting) (src : Source) : Prop where
  depth : (n.depth : Int) = (src.opened : Int) - src.closed
  deepest : IsGreatest src.heights n.deepest

theorem follows_nil : Follows {} [] := by
  refine ⟨rfl, ⟨[], List.prefix_refl [], rfl⟩, ?_⟩
  rintro d ⟨before, hbefore, rfl⟩
  rw [List.prefix_nil.mp hbefore]
  exact Int.le_refl 0

variable {n n' : Nesting} {src : Source} {b : UInt8}

/-- The text is longer by one byte, and its greatest height is exceeded only by the new one. -/
theorem Follows.concat (h : n.Follows src)
    (hdepth : (n'.depth : Int) = (opened (src ++ [b]) : Int) - closed (src ++ [b]))
    (hdeepest : n'.deepest = max n'.depth n.deepest) : n'.Follows (src ++ [b]) := by
  have hmax : (n'.deepest : Int) = max (n'.depth : Int) n.deepest := by omega
  refine ⟨hdepth, ?_⟩
  rw [heights_concat, ← hdepth, hmax]
  exact h.deepest.insert _

theorem Follows.depth_le (h : n.Follows src) : n.depth ≤ n.deepest := by
  have hle := h.deepest.2 ⟨src, List.prefix_refl src, rfl⟩
  have hdepth := h.depth
  omega

theorem Follows.opening (h : n.Follows src) :
    (n.read .opening).Follows (src ++ [Symbol.opening.byte]) := by
  have hdepth := h.depth
  apply h.concat
  · rw [opened_append, closed_append, opened_opening, closed_opening, opened_nil, closed_nil]
    simp only [read]
    omega
  · exact Nat.max_comm _ _

theorem Follows.closing (h : n.Follows src)
    (hsheltered : Sheltered 0 (src ++ [Symbol.closing.byte])) :
    (n.read .closing).Follows (src ++ [Symbol.closing.byte]) := by
  have hdepth := h.depth
  have hle := h.depth_le
  have hcount := hsheltered.closed_le
  rw [opened_append, closed_append, opened_closing, closed_closing, opened_nil, closed_nil] at hcount
  apply h.concat
  · rw [opened_append, closed_append, opened_closing, closed_closing, opened_nil, closed_nil]
    simp only [read]
    omega
  · simp only [read]
    omega

theorem Follows.other (h : n.Follows src) (ho : b ≠ Symbol.opening.byte)
    (hc : b ≠ Symbol.closing.byte) : n.Follows (src ++ [b]) := by
  have hdepth := h.depth
  have hle := h.depth_le
  apply h.concat
  · rw [opened_append, closed_append, opened_of_ne ho, closed_of_ne hc, opened_nil, closed_nil]
    omega
  · omega

/-- While the symbols of a text are read, the nesting follows the text as long as no bracket is
closed that is not open. -/
theorem follows_symbols {src : Source} (h : Sheltered 0 src) :
    Follows ((Source.symbols src).foldl read {}) src := by
  induction src using List.reverseRecOn with
  | nil => exact follows_nil
  | append_singleton src b ih =>
    have hsrc := ih (sheltered_append.mp h).1
    rw [Source.symbols, List.filterMap_append, List.foldl_append]
    by_cases ho : b = Symbol.opening.byte
    · subst ho
      exact hsrc.opening
    · by_cases hc : b = Symbol.closing.byte
      · subst hc
        exact hsrc.closing h
      · rcases comment_or_op ho hc with hb | ⟨o, hb⟩
        · rw [List.filterMap_cons_none hb]
          exact hsrc.other ho hc
        · rw [List.filterMap_cons_some hb]
          exact hsrc.other ho hc

end Program.Nesting

namespace Source

variable {src : Source} {p : Program}

/-- The depth of a program is the greatest number of brackets that are open in its source. -/
theorem isGreatest_depth (h : src.program = .ok p) : IsGreatest src.heights p.depth := by
  obtain ⟨-, hcloses⟩ := program_eq_ok h
  have hfollows := Program.Nesting.follows_symbols (closes_symbols_iff.mp hcloses).1
  rw [← symbols_of_program h, ← Program.Nesting.foldl_visit_spell] at hfollows
  rw [Program.depth, p.calls_eq, List.foldl_append]
  exact hfollows.deepest

/-- The nodes but the root, in the order of their numbers, and the symbols that they stand for. -/
theorem marks_nodes (h : src.program = .ok p) :
    List.Forall₂ (fun id i => p.tree.Marks src (.enter id) i) (List.range' 1 p.size)
      src.instrOffsets := by
  have hmarks := Tree.marks_entries (marks_trail h)
  rwa [p.entries_trail, filter_symbolOffsets] at hmarks

theorem size_tree_eq (h : src.program = .ok p) : p.tree.size = 1 + src.instrOffsets.length := by
  have hlength := (marks_nodes h).length_eq
  rw [List.length_range'] at hlength
  rw [p.size_tree, hlength, Nat.add_comm]

theorem length_events (h : src.program = .ok p) :
    p.tree.events.length = 2 + src.symbolOffsets.length := by
  have hlength := (marks_trail h).length_eq
  rw [p.events_tree, List.length_cons, List.length_append, hlength]
  simp only [List.length_singleton]
  omega

/-- The offsets between two others at which an instruction starts. -/
def instrsBetween (src : Source) (i j : Nat) : List Nat :=
  src.instrOffsets.filter fun k => i < k ∧ k < j

/-- The descendants of a loop, in the order of their numbers, and the symbols between its brackets
that they stand for. -/
theorem marks_below (h : src.program = .ok p) {l : Nat} {nl : Node}
    (hl : p.tree.node? l = some nl) (hloop : nl.kind = .loop) :
    ∃ c ids, src.matchingClose? nl.pos.offset = some (some c) ∧ ids.Nodup ∧
      (∀ x, x ∈ ids ↔ p.tree.Below x l) ∧
      List.Forall₂ (fun id i => p.tree.Marks src (.enter id) i) ids
        (src.instrsBetween nl.pos.offset c) := by
  have hzero := Program.ne_zero_of_loop hl hloop
  obtain ⟨c, hc, -⟩ := below_iff_between h hl hloop hzero hl
  let between (x : Nat) : Bool :=
    (p.tree.node? x).any fun n => nl.pos.offset < n.pos.offset ∧ n.pos.offset < c
  have hbelow (x : Nat) (nx : Node) (hx : x ≠ 0) (hnx : p.tree.node? x = some nx) :
      between x = true ↔ p.tree.Below x l := by
    obtain ⟨c', hc', hiff⟩ := below_iff_between h hl hloop hx hnx
    cases hc.symm.trans hc'
    rw [hiff]
    simp [between, hnx]
  refine ⟨c, (List.range' 1 p.size).filter between, hc, (List.nodup_range' _).filter _, ?_, ?_⟩
  · intro x
    rw [List.mem_filter, List.mem_range'_1]
    constructor
    · rintro ⟨hrange, hbetween⟩
      have hlt : x < p.tree.size := by rw [p.size_tree]; omega
      obtain ⟨nx, hnx⟩ := Tree.exists_node? hlt
      exact (hbelow x nx (by omega) hnx).mp hbetween
    · intro hx
      have hlt := hx.lt_size
      have hpos := p.grown_tree.wellFormed.below_lt hx
      obtain ⟨nx, hnx⟩ := Tree.exists_node? hlt
      rw [p.size_tree] at hlt
      exact ⟨by omega, (hbelow x nx (by omega) hnx).mpr hx⟩
  · refine List.rel_filter (fun id i hmark => ?_) (marks_nodes h)
    obtain ⟨n, s, hn, hpos, -, -⟩ := hmark
    have hoffset : n.pos.offset = i := by
      rw [hpos]
      rfl
    simp [between, hn, hoffset]

/-- A loop and its descendants are counted by the loop's `[` and what stands between its brackets. -/
theorem ncard_within (h : src.program = .ok p) {l : Nat} {nl : Node}
    (hl : p.tree.node? l = some nl) (hloop : nl.kind = .loop) :
    ∃ c, src.matchingClose? nl.pos.offset = some (some c) ∧
      {x | p.tree.Within x l}.ncard = 1 + (src.instrsBetween nl.pos.offset c).length := by
  obtain ⟨c, ids, hc, hnodup, hids, hmarks⟩ := marks_below h hl hloop
  have hself : l ∉ ids := by
    rw [hids]
    exact fun hbelow => Nat.lt_irrefl l (p.grown_tree.wellFormed.below_lt hbelow)
  have hset : {x | p.tree.Within x l} = ((l :: ids).toFinset : Set Nat) := by
    ext x
    simp [Tree.within_iff, hids]
  refine ⟨c, hc, ?_⟩
  rw [hset, Set.ncard_coe_finset, List.toFinset_card_of_nodup (List.nodup_cons.mpr ⟨hself, hnodup⟩),
    List.length_cons, hmarks.length_eq, Nat.add_comm]

/-- In the table of an accepted source there is one node more than there are symbols other than `]`.
Its depth is the greatest number of brackets that are open behind a beginning of the source. The
walk has two steps more than there are symbols. A loop and what is below it are one node more than
there are symbols other than `]` between the brackets of the loop. -/
theorem measures_are_counted_in_source (src : Source) (p : Program) (h : src.program = .ok p) :
    p.tree.size = 1 + src.instrOffsets.length ∧
    p.tree.depth = p.depth ∧
    IsGreatest {d : Int | ∃ before, before <+: src ∧ d = (opened before : Int) - closed before}
      p.depth ∧
    p.tree.events.length = 2 + src.symbolOffsets.length ∧
    ∀ l n, p.tree.node? l = some n → n.kind = .loop →
      ∃ c, src.matchingClose? n.pos.offset = some (some c) ∧
        {x | p.tree.Within x l}.ncard =
          1 + (src.instrOffsets.filter fun i => n.pos.offset < i ∧ i < c).length :=
  ⟨size_tree_eq h, p.depth_tree, isGreatest_depth h, length_events h,
    fun _ _ hl hloop => ncard_within h hl hloop⟩

/-- The measures of `[[]-x]`, in which the `x` is no symbol. -/
theorem measures_of_loop_in_loop :
    let src : Source := [91, 91, 93, 45, 120, 93]
    ∃ p, src.program = .ok p ∧ p.tree.size = 4 ∧ p.tree.depth = 2 ∧ p.tree.events.length = 7 ∧
      src.matchingClose? 0 = some (some 5) ∧ {x | p.tree.Within x 1}.ncard = 3 ∧
      src.matchingClose? 1 = some (some 2) ∧ {x | p.tree.Within x 2}.ncard = 1 := by
  intro src
  let p : Program := .loop ⟨1, 1, 0⟩ (.loop ⟨1, 2, 1⟩ .nil (.op .decrement ⟨1, 4, 3⟩ .nil)) .nil
  have hp : src.program = .ok p := rfl
  obtain ⟨hsize, htree, -, hevents, hloops⟩ := measures_are_counted_in_source src p hp
  have hdepth : p.depth = 2 := by
    rw [Program.depth, Program.calls_eq]
    rfl
  have h₁ : p.tree.node? 1 = some ⟨.loop, ⟨1, 1, 0⟩, some 0, #[2, 3]⟩ := p.stands_tree 0 _ rfl
  have h₂ : p.tree.node? 2 = some ⟨.loop, ⟨1, 2, 1⟩, some 1, #[]⟩ := p.stands_tree 1 _ rfl
  have hclose₁ : src.matchingClose? 0 = some (some 5) := rfl
  have hclose₂ : src.matchingClose? 1 = some (some 2) := rfl
  obtain ⟨c₁, hc₁, houter⟩ := hloops 1 _ h₁ rfl
  obtain ⟨c₂, hc₂, hinner⟩ := hloops 2 _ h₂ rfl
  cases hclose₁.symm.trans hc₁
  cases hclose₂.symm.trans hc₂
  exact ⟨p, hp, hsize, htree.trans hdepth, hevents, hclose₁, houter, hclose₂, hinner⟩

end Source

end TapeLang
