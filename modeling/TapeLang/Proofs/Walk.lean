import TapeLang.Proofs.NodeTable

/-!
The walk over the node table of a program in closed form. It enters the nodes in the order of
their numbers and exits a loop right behind the last node of its body. The events stand for the
symbols that spell the program, with each `]` where a loop is exited.
-/
namespace TapeLang

namespace Program

/-- The events of a program whose first instruction has the number `n`. -/
def trail (n : Nat) : Program → List Event
  | nil => []
  | op _ _ rest => .enter n :: rest.trail (n + 1)
  | loop _ body rest =>
    .enter n :: (body.trail (n + 1) ++ .exit n :: rest.trail (n + 1 + body.size))

theorem length_trail_le (p : Program) (n : Nat) : (p.trail n).length ≤ 2 * p.size := by
  induction p generalizing n with
  | nil => exact Nat.le_refl 0
  | op o pos rest ih =>
    have hrest := ih (n + 1)
    simp only [trail, size, List.length_cons]
    omega
  | loop pos body rest ihbody ih =>
    have hbody := ihbody (n + 1)
    have hrest := ih (n + 1 + body.size)
    simp only [trail, size, List.length_cons, List.length_append]
    omega

end Program

namespace Tree

variable {t : Tree} {n : Nat}

/-- The given nodes stand in the table from number `n` on. -/
def Stands (t : Tree) (n : Nat) (nodes : List Node) : Prop :=
  ∀ i node, nodes[i]? = some node → t.node? (n + i) = some node

theorem Stands.head {node : Node} {nodes : List Node} (h : t.Stands n (node :: nodes)) :
    t.node? n = some node :=
  h 0 node rfl

theorem Stands.tail {node : Node} {nodes : List Node} (h : t.Stands n (node :: nodes)) :
    t.Stands (n + 1) nodes := by
  intro i node' hi
  have hnode := h (i + 1) node' hi
  rwa [Nat.add_assoc, Nat.add_comm 1 i]

theorem Stands.left {xs ys : List Node} (h : t.Stands n (xs ++ ys)) : t.Stands n xs := by
  intro i node hi
  apply h i node
  obtain ⟨hlt, -⟩ := List.getElem?_eq_some_iff.mp hi
  rw [List.getElem?_append_left hlt]
  exact hi

theorem Stands.right {xs ys : List Node} (h : t.Stands n (xs ++ ys)) :
    t.Stands (n + xs.length) ys := by
  intro i node hi
  have hnode := h (xs.length + i) node (by rw [List.getElem?_append_right (by omega)]; simpa)
  rwa [Nat.add_assoc]

section Loop

variable {parent : Nat} {pos : Position} {body rest : Program}

theorem Stands.loop_body (h : t.Stands n ((Program.loop pos body rest).table parent n)) :
    t.Stands (n + 1) (body.table n (n + 1)) :=
  h.tail.left

theorem Stands.loop_rest (h : t.Stands n ((Program.loop pos body rest).table parent n)) :
    t.Stands (n + 1 + body.size) (rest.table parent (n + 1 + body.size)) := by
  have hrest := h.tail.right
  rwa [Program.length_table] at hrest

end Loop

theorem walk_leaf {fuel child id : Nat} {rest : List Nat} {outer : List (Nat × List Nat)}
    {done : List Event} (h : t.isContainer child = false) :
    t.walk (fuel + 1) ((id, child :: rest) :: outer) done =
      t.walk fuel ((id, rest) :: outer) (.enter child :: done) := by
  rw [walk, if_neg (by simp [h])]

theorem walk_container {fuel child id : Nat} {rest : List Nat} {outer : List (Nat × List Nat)}
    {done : List Event} (h : t.isContainer child = true) :
    t.walk (fuel + 1) ((id, child :: rest) :: outer) done =
      t.walk fuel ((child, t.children child) :: (id, rest) :: outer) (.enter child :: done) := by
  rw [walk, if_pos h]

theorem walk_exit {fuel id : Nat} {outer : List (Nat × List Nat)} {done : List Event} :
    t.walk (fuel + 1) ((id, []) :: outer) done = t.walk fuel outer (.exit id :: done) := rfl

theorem walk_nil (fuel : Nat) (done : List Event) : t.walk fuel [] done = done.reverse := by
  cases fuel <;> rfl

/-- The events of a walk over the given nodes, one after the other: a container is entered, its
children are walked over, and it is exited. -/
inductive Visits (t : Tree) : List Nat → List Event → Prop
  | nil : Visits t [] []
  | leaf {id : Nat} {ids : List Nat} {es : List Event} (h : t.isContainer id = false)
      (hrest : Visits t ids es) : Visits t (id :: ids) (.enter id :: es)
  | container {id : Nat} {ids : List Nat} {inner es : List Event} (h : t.isContainer id = true)
      (hinner : Visits t (t.children id) inner) (hrest : Visits t ids es) :
      Visits t (id :: ids) (.enter id :: (inner ++ .exit id :: es))

/-- The fuel for a container: a step to enter it, those inside, a step to exit it, and the rest. -/
theorem fuel_container (child : Nat) (inner es : List Event) (fuel : Nat) :
    (Event.enter child :: (inner ++ .exit child :: es)).length + fuel =
      inner.length + (es.length + fuel + 1) + 1 := by
  rw [List.length_cons, List.length_append, List.length_cons]
  omega

/-- The walk goes through these events. Children are walked over inside their container, so the
induction has to run over all containers. -/
theorem Visits.walk {ids : List Nat} {es : List Event} (h : t.Visits ids es) (fuel id : Nat)
    (rest : List Nat) (outer : List (Nat × List Nat)) (done : List Event) :
    t.walk (es.length + fuel) ((id, ids ++ rest) :: outer) done =
      t.walk fuel ((id, rest) :: outer) (es.reverse ++ done) := by
  induction h generalizing fuel id rest outer done with
  | nil =>
    rw [List.length_nil, Nat.zero_add]
    rfl
  | leaf hleaf _ ih =>
    rw [List.length_cons, Nat.add_right_comm, List.cons_append, walk_leaf hleaf, ih,
      List.reverse_cons, List.append_assoc]
    rfl
  | @container child ids inner es hcontainer _ _ ihinner ih =>
    have hwalk := ihinner (es.length + fuel + 1) child [] ((id, ids ++ rest) :: outer)
      (.enter child :: done)
    rw [List.append_nil] at hwalk
    rw [fuel_container, List.cons_append, walk_container hcontainer, hwalk, walk_exit, ih]
    simp only [List.reverse_cons, List.reverse_append, List.append_assoc, List.cons_append,
      List.nil_append]

/-- Given enough steps, the walk from the root ends by itself. -/
theorem Visits.walk_root {es : List Event} (h : t.Visits (t.children 0) es) {fuel : Nat}
    (hfuel : es.length < fuel) :
    t.walk fuel [(0, t.children 0)] [.enter 0] = .enter 0 :: (es ++ [.exit 0]) := by
  obtain ⟨more, rfl⟩ : ∃ more, fuel = es.length + (more + 1) := ⟨fuel - es.length - 1, by omega⟩
  have hwalk := h.walk (more + 1) 0 [] [] [.enter 0]
  rw [List.append_nil] at hwalk
  rw [hwalk, walk_exit, walk_nil]
  simp

/-- Where the nodes of a program stand, the walk over its instructions is its trail. -/
theorem visits_trail {p : Program} {parent : Nat} (h : t.Stands n (p.table parent n)) :
    t.Visits (p.ids n) (p.trail n) := by
  induction p generalizing parent n with
  | nil => exact .nil
  | op o pos next ih =>
    have hleaf : t.isContainer n = false := by
      rw [isContainer, h.head]
      rfl
    exact .leaf hleaf (ih h.tail)
  | loop pos body next ihbody ih =>
    have hloop : t.isContainer n = true := by
      rw [isContainer, h.head]
      rfl
    have hchildren : t.children n = body.ids (n + 1) := by rw [children, h.head]
    refine .container hloop ?_ (ih h.loop_rest)
    rw [hchildren]
    exact ihbody h.loop_body

/-- The events of a program's trail stand for the symbols that spell it. -/
theorem filterMap_symbol?_trail {p : Program} {parent : Nat}
    (h : t.Stands n (p.table parent n)) : (p.trail n).filterMap t.symbol? = p.symbols := by
  induction p generalizing parent n with
  | nil => rfl
  | op o pos rest ih =>
    have henter : t.symbol? (.enter n) = some (.op o) := by
      rw [symbol?, h.head]
      rfl
    rw [Program.trail, List.filterMap_cons_some henter, ih h.tail]
    rfl
  | loop pos body rest ihbody ih =>
    have henter : t.symbol? (.enter n) = some .opening := by
      rw [symbol?, h.head]
      rfl
    have hexit : t.symbol? (.exit n) = some .closing := by
      rw [symbol?, h.head]
      rfl
    rw [Program.trail, List.filterMap_cons_some henter, List.filterMap_append, ihbody h.loop_body,
      List.filterMap_cons_some hexit, ih h.loop_rest]
    rfl

end Tree

namespace Program

variable (p : Program)

theorem stands_tree : p.tree.Stands 1 (p.table 0 1) := by
  intro i node hi
  rw [Tree.node?, nodes_tree, Nat.add_comm]
  simpa using hi

theorem size_tree : p.tree.size = p.size + 1 := by
  rw [Tree.size, nodes_tree, List.size_toArray, List.length_cons, length_table]

/-- The walk over the whole table enters the root, follows the program and exits the root. -/
theorem events_tree : p.tree.events = .enter 0 :: (p.trail 1 ++ [.exit 0]) := by
  have hchildren : p.tree.children 0 = p.ids 1 := by rw [Tree.children, node?_root]
  have hvisits : p.tree.Visits (p.tree.children 0) (p.trail 1) := by
    rw [hchildren]
    exact Tree.visits_trail p.stands_tree
  have hlength := p.length_trail_le 1
  apply hvisits.walk_root
  rw [size_tree]
  omega

theorem flatten_tree : p.tree.flatten = String.ofList (p.symbols.map Symbol.char) := by
  have henter : p.tree.symbol? (.enter 0) = none := by
    rw [Tree.symbol?, node?_root]
    rfl
  have hexit : p.tree.symbol? (.exit 0) = none := by
    rw [Tree.symbol?, node?_root]
    rfl
  rw [Tree.flatten, events_tree, List.filterMap_cons_none henter, List.filterMap_append,
    Tree.filterMap_symbol?_trail p.stands_tree, List.filterMap_cons_none hexit,
    List.filterMap_nil, List.append_nil]

end Program

end TapeLang
