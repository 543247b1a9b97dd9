import TapeLang.Tree
import TapeLang.Proofs.Grammar

/-!
The node table of a program in closed form. Nodes are numbered in reading order, so a loop is
followed by its whole body and then by what comes after it. Read from the root through the lists
of children, the table shows the instructions of the program and nothing else.
-/
namespace TapeLang

open Grammar

namespace Program

/-- The numbers of a program's own instructions, those inside its loops left out, if the first
has the number `n`. -/
def ids (n : Nat) : Program → List Nat
  | nil => []
  | op _ _ rest => n :: rest.ids (n + 1)
  | loop _ body rest => n :: rest.ids (n + 1 + body.size)

/-- The nodes of a program below `parent` in order, if the first has the number `n`. -/
def table (parent n : Nat) : Program → List Node
  | nil => []
  | op o pos rest => ⟨.op o, pos, some parent, #[]⟩ :: rest.table parent (n + 1)
  | loop pos body rest =>
    ⟨.loop, pos, some parent, (body.ids (n + 1)).toArray⟩ ::
      (body.table n (n + 1) ++ rest.table parent (n + 1 + body.size))

theorem length_table (p : Program) (parent n : Nat) : (p.table parent n).length = p.size := by
  induction p generalizing parent n with
  | nil => rfl
  | op o pos rest ih => simp only [table, List.length_cons, ih, size]
  | loop pos body rest ihbody ih =>
    simp only [table, List.length_cons, List.length_append, ihbody, ih, size]

/-- The program with the places of its instructions changed. -/
def relocated (f : Position → Position) : Program → Program
  | nil => nil
  | op o pos rest => .op o (f pos) (rest.relocated f)
  | loop pos body rest => .loop (f pos) (body.relocated f) (rest.relocated f)

variable (f : Position → Position)

theorem size_relocated (p : Program) : (p.relocated f).size = p.size := by
  induction p with
  | nil => rfl
  | op o pos rest ih => rw [relocated, size, size, ih]
  | loop pos body rest ihbody ih => rw [relocated, size, size, ihbody, ih]

theorem ids_relocated (p : Program) (n : Nat) : (p.relocated f).ids n = p.ids n := by
  induction p generalizing n with
  | nil => rfl
  | op o pos rest ih => rw [relocated, ids, ids, ih]
  | loop pos body rest _ ih => rw [relocated, ids, ids, ih, size_relocated]

end Program

/-- The node with its place changed. -/
def Node.relocated (f : Position → Position) (n : Node) : Node := { n with pos := f n.pos }

namespace Program

/-- Places are stored in the nodes and decide about nothing else in the table. -/
theorem table_relocated (f : Position → Position) (p : Program) (parent n : Nat) :
    (p.relocated f).table parent n = (p.table parent n).map (Node.relocated f) := by
  induction p generalizing parent n with
  | nil => rfl
  | op o pos rest ih =>
    rw [relocated, table, table, ih]
    rfl
  | loop pos body rest ihbody ih =>
    rw [relocated, table, table, ihbody, ih, ids_relocated, size_relocated, List.map_cons,
      List.map_append]
    rfl

end Program

namespace Node

/-- The node with more children. -/
def adopt (ids : List Nat) (n : Node) : Node := { n with children := n.children ++ ids.toArray }

theorem adopt_nil : adopt [] = id := by
  funext n
  simp [adopt]

theorem adopt_comp_adopt (ids ids' : List Nat) : adopt ids' ∘ adopt ids = adopt (ids ++ ids') := by
  funext n
  simp [adopt]

end Node

namespace Tree

/-- The nodes after more of them have been added, of which those with the given numbers are
children of `c`. -/
def grow (c : Nat) (ids : List Nat) (more nodes : List Node) : List Node :=
  nodes.modify c (Node.adopt ids) ++ more

theorem length_grow (c : Nat) (ids : List Nat) (more nodes : List Node) :
    (grow c ids more nodes).length = nodes.length + more.length := by
  simp [grow]

theorem grow_nil (c : Nat) (nodes : List Node) : grow c [] [] nodes = nodes := by
  simp [grow, Node.adopt_nil]

theorem modify_append_left {l r : List Node} {i : Nat} (h : i < l.length) (f : Node → Node) :
    (l ++ r).modify i f = l.modify i f ++ r := by
  induction l generalizing i with
  | nil => simp at h
  | cons a l ih =>
    cases i with
    | zero => rfl
    | succ i =>
      simp only [List.cons_append, List.modify_succ_cons]
      rw [ih (by simpa using h)]

theorem modify_append_length (l r : List Node) (a : Node) (f : Node → Node) :
    (l ++ a :: r).modify l.length f = l ++ f a :: r := by
  induction l with
  | nil => rfl
  | cons b l ih => simp only [List.cons_append, List.length_cons, List.modify_succ_cons, ih]

theorem grow_grow {c : Nat} {nodes : List Node} (hc : c < nodes.length) (ids ids' : List Nat)
    (more more' : List Node) :
    grow c ids' more' (grow c ids more nodes) = grow c (ids ++ ids') (more ++ more') nodes := by
  unfold grow
  rw [modify_append_left (by simpa using hc), List.modify_modify_eq, Node.adopt_comp_adopt,
    List.append_assoc]

/-- Growing below the node that has just been added changes this node only. -/
theorem grow_last (c : Nat) (a : Node) (ids ids' : List Nat) (more nodes : List Node) :
    grow nodes.length ids' more (grow c ids [a] nodes) =
      grow c ids (a.adopt ids' :: more) nodes := by
  have hlen : (nodes.modify c (Node.adopt ids)).length = nodes.length := by simp
  have hlast := modify_append_length (nodes.modify c (Node.adopt ids)) [] a (Node.adopt ids')
  rw [hlen] at hlast
  simp only [grow, hlast, List.append_assoc, List.cons_append, List.nil_append]

theorem push_toArray (nodes : List Node) (parent : Nat) (kind : Kind) (pos : Position) :
    Tree.push ⟨nodes.toArray⟩ parent kind pos =
      ⟨(grow parent [nodes.length] [⟨kind, pos, some parent, #[]⟩] nodes).toArray⟩ := by
  have hadopt : (fun n : Node => { n with children := n.children.push nodes.length }) =
      Node.adopt [nodes.length] := by
    funext n
    simp [Node.adopt]
  have hmodify : nodes.toArray.modify parent (Node.adopt [nodes.length]) =
      (nodes.modify parent (Node.adopt [nodes.length])).toArray := by
    apply Array.toList_inj.mp
    simp
  simp only [push, size, List.size_toArray, hadopt, hmodify, List.push_toArray, grow]

/-- Visiting a part of a program inside the container `c` adds the nodes of this part and makes
its own instructions children of `c`. A body is visited with its loop as the innermost container,
so the induction has to run over all builders. -/
theorem foldl_visit_spell (p : Program) (nodes : List Node) (c : Nat) (outer : List Nat)
    (hc : c < nodes.length) :
    p.spell.foldl Builder.visit ⟨⟨nodes.toArray⟩, c :: outer⟩ =
      ⟨⟨(grow c (p.ids nodes.length) (p.table c nodes.length) nodes).toArray⟩, c :: outer⟩ := by
  induction p generalizing nodes c outer with
  | nil => simp only [Program.spell, List.foldl_nil, Program.ids, Program.table, grow_nil]
  | op o pos rest ih =>
    have hvisit : Builder.visit ⟨⟨nodes.toArray⟩, c :: outer⟩ (.op o pos) =
        ⟨⟨(grow c [nodes.length] [⟨.op o, pos, some c, #[]⟩] nodes).toArray⟩, c :: outer⟩ := by
      simp only [Builder.visit, Builder.parent, List.headD_cons, push_toArray]
    rw [Program.spell, List.foldl_cons, hvisit]
    rw [ih _ c outer (by rw [length_grow]; omega), length_grow, grow_grow hc]
    rfl
  | loop pos body rest ihbody ih =>
    have hvisit : Builder.visit ⟨⟨nodes.toArray⟩, c :: outer⟩ (.enterLoop pos) =
        ⟨⟨(grow c [nodes.length] [⟨.loop, pos, some c, #[]⟩] nodes).toArray⟩,
          nodes.length :: c :: outer⟩ := by
      simp only [Builder.visit, Builder.parent, List.headD_cons, push_toArray, size,
        List.size_toArray]
    have hexit : ∀ t : Tree, Builder.visit ⟨t, nodes.length :: c :: outer⟩ (.exitLoop pos) =
        ⟨t, c :: outer⟩ := fun _ => rfl
    have hloop : Node.adopt (body.ids (nodes.length + 1)) ⟨.loop, pos, some c, #[]⟩ =
        ⟨.loop, pos, some c, (body.ids (nodes.length + 1)).toArray⟩ := by
      simp [Node.adopt]
    rw [Program.spell, List.foldl_cons, hvisit, List.foldl_append, List.foldl_cons]
    rw [ihbody _ nodes.length (c :: outer) (by rw [length_grow]; simp), hexit, length_grow]
    rw [grow_last, ih _ c outer (by rw [length_grow]; omega), length_grow, grow_grow hc]
    simp only [List.length_cons, List.length_nil, Program.length_table, hloop, Program.ids,
      Program.table, List.cons_append, List.nil_append]
    rw [Nat.zero_add, Nat.add_right_comm nodes.length 1, ← Nat.add_assoc]

end Tree

namespace Program

/-- The table of a program: the root, and after it all instructions in reading order. -/
theorem nodes_tree (p : Program) :
    p.tree.nodes =
      ((⟨.root, .start, none, (p.ids 1).toArray⟩ : Node) :: p.table 0 1).toArray := by
  have hvisit := Tree.foldl_visit_spell p [⟨.root, .start, none, #[]⟩] 0 [] (by simp)
  have hstart : ({} : Tree.Builder) = ⟨⟨[⟨.root, .start, none, #[]⟩].toArray⟩, [0]⟩ := rfl
  rw [tree, calls_eq, List.foldl_append, hstart, hvisit]
  simp [Tree.Builder.visit, Tree.grow, Node.adopt]

/-- The root stands at the start, so a change of places has to leave the start where it is. -/
theorem nodes_relocated {f : Position → Position} (hstart : f .start = .start) (p : Program) :
    (p.relocated f).tree.nodes = p.tree.nodes.map (Node.relocated f) := by
  rw [nodes_tree, nodes_tree, table_relocated, ids_relocated, List.map_toArray, List.map_cons,
    Node.relocated, hstart]

theorem kind_of_mem_table {p : Program} {parent k : Nat} {n : Node} (h : n ∈ p.table parent k) :
    (∃ o, n.kind = .op o) ∨ n.kind = .loop := by
  induction p generalizing parent k with
  | nil => simp [table] at h
  | op o pos rest ih =>
    rcases List.mem_cons.mp h with rfl | hrest
    · exact Or.inl ⟨o, rfl⟩
    · exact ih hrest
  | loop pos body rest ihbody ih =>
    rcases List.mem_cons.mp h with rfl | hmem
    · exact Or.inr rfl
    · rcases List.mem_append.mp hmem with hbody | hrest
      · exact ihbody hbody
      · exact ih hrest

end Program

namespace Tree

/-- The nodes with the given numbers, read through their lists of children, show the given
instructions: each simple instruction a childless node of its kind, each loop a loop node whose
children show its body. -/
inductive Shows (t : Tree) : List Nat → List Instr → Prop
  | nil : Shows t [] []
  | op {id : Nat} {n : Node} {o : Op} {ids : List Nat} {is : List Instr}
      (hn : t.node? id = some n) (hkind : n.kind = .op o) (hleaf : n.children = #[])
      (hrest : Shows t ids is) : Shows t (id :: ids) (.op o :: is)
  | loop {id : Nat} {n : Node} {ids : List Nat} {body is : List Instr}
      (hn : t.node? id = some n) (hkind : n.kind = .loop)
      (hbody : Shows t n.children.toList body) (hrest : Shows t ids is) :
      Shows t (id :: ids) (.loop body :: is)

theorem Shows.unique {t : Tree} {ids : List Nat} {d d' : List Instr} (h : t.Shows ids d)
    (h' : t.Shows ids d') : d = d' := by
  induction h generalizing d' with
  | nil => cases h'; rfl
  | op hn hkind hleaf hrest ih =>
    cases h' with
    | op hn' hkind' hleaf' hrest' =>
      obtain rfl := Option.some.inj (hn.symm.trans hn')
      rw [ih hrest', Kind.op.inj (hkind.symm.trans hkind')]
    | loop hn' hkind' hbody' hrest' =>
      obtain rfl := Option.some.inj (hn.symm.trans hn')
      rw [hkind] at hkind'
      cases hkind'
  | loop hn hkind hbody hrest ihbody ih =>
    cases h' with
    | op hn' hkind' hleaf' hrest' =>
      obtain rfl := Option.some.inj (hn.symm.trans hn')
      rw [hkind] at hkind'
      cases hkind'
    | loop hn' hkind' hbody' hrest' =>
      obtain rfl := Option.some.inj (hn.symm.trans hn')
      rw [ihbody hbody', ih hrest']

theorem node?_append (pre post : List Node) (n : Node) :
    Tree.node? ⟨(pre ++ n :: post).toArray⟩ pre.length = some n := by
  simp [node?]

/-- Wherever the nodes of a program stand in a table, they show its instructions. -/
theorem shows_table (p : Program) (parent : Nat) (pre post : List Node) :
    Shows ⟨(pre ++ (p.table parent pre.length ++ post)).toArray⟩ (p.ids pre.length) p.instrs := by
  induction p generalizing parent pre post with
  | nil => exact .nil
  | op o pos rest ih =>
    have hrest := ih parent (pre ++ [⟨.op o, pos, some parent, #[]⟩]) post
    simp only [List.length_append, List.length_cons, List.length_nil, Nat.zero_add,
      List.append_assoc, List.cons_append, List.nil_append] at hrest
    exact .op (node?_append pre _ _) rfl rfl hrest
  | loop pos body rest ihbody ih =>
    let n : Node := ⟨.loop, pos, some parent, (body.ids (pre.length + 1)).toArray⟩
    have hbody := ihbody pre.length (pre ++ [n])
      (rest.table parent (pre.length + 1 + body.size) ++ post)
    have hrest := ih parent (pre ++ n :: body.table pre.length (pre.length + 1)) post
    have hlen : (pre ++ n :: body.table pre.length (pre.length + 1)).length =
        pre.length + 1 + body.size := by
      simp only [List.length_append, List.length_cons, Program.length_table]
      omega
    rw [hlen] at hrest
    simp only [List.length_append, List.length_cons, List.length_nil, Nat.zero_add,
      List.append_assoc, List.cons_append, List.nil_append] at hbody hrest
    refine .loop (n := n) ?_ rfl ?_ ?_
    · exact node?_append pre _ n
    · simpa only [Program.table, List.append_assoc, List.cons_append] using hbody
    · simpa only [Program.table, List.append_assoc, List.cons_append] using hrest

end Tree

namespace Program

/-- Read from its root, the table of a program shows the program's instructions. -/
theorem shows_tree (p : Program) : p.tree.Shows (p.tree.children 0) p.instrs := by
  have htree : p.tree = ⟨((⟨.root, .start, none, (p.ids 1).toArray⟩ : Node) ::
      p.table 0 1).toArray⟩ := congrArg Tree.mk p.nodes_tree
  have hshows := Tree.shows_table p 0 [⟨.root, .start, none, (p.ids 1).toArray⟩] []
  rw [List.append_nil] at hshows
  rw [htree]
  exact hshows

theorem node?_root (p : Program) :
    p.tree.node? 0 = some ⟨.root, .start, none, (p.ids 1).toArray⟩ := by
  rw [Tree.node?, nodes_tree]
  rfl

theorem kind_of_node? {p : Program} {id : Nat} {n : Node} (hid : id ≠ 0)
    (h : p.tree.node? id = some n) : (∃ o, n.kind = .op o) ∨ n.kind = .loop := by
  obtain ⟨k, rfl⟩ : ∃ k, id = k + 1 := ⟨id - 1, by omega⟩
  rw [Tree.node?, nodes_tree] at h
  simp only [List.getElem?_toArray, List.getElem?_cons_succ] at h
  exact kind_of_mem_table (List.mem_of_getElem? h)

end Program

end TapeLang
