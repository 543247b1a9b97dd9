import TapeLang.Dump
import TapeLang.Proofs.Growth
import TapeLang.Proofs.Rows
import TapeLang.Proofs.Walk
import Mathlib.Data.List.Basic

/-!
The dump of a program in closed form, and how it is read back. Each node has one line, which gives
its depth, its kind, its line and its column. The depths alone tell where a body ends: it goes on
as long as the lines stand further in than their loop. So a dump shows all of a program but the
offsets in its source.
-/
namespace TapeLang

namespace Tree

/-- What a line of a dump says about its node. -/
structure Entry where
  depth : Nat
  kind : Kind
  line : Nat
  column : Nat

namespace Entry

/-- The entry of a node with so many containers around it. -/
def ofNode (depth : Nat) (n : Node) : Entry := ⟨depth, n.kind, n.pos.line, n.pos.column⟩

def row (e : Entry) : List Char :=
  List.replicate (2 * e.depth) ' ' ++ (e.kind.name.toList ++
    ' ' :: '(' :: (Nat.toDigits 10 e.line ++ ':' :: (Nat.toDigits 10 e.column ++ [')'])))

def text (e : Entry) : String := String.ofList (e.row ++ ['\n'])

/-- Read a row back: spaces, a name, and two numbers. -/
def ofRow? (row : List Char) : Option Entry := do
  let inner := row.dropWhile (· == ' ')
  let place := (inner.dropWhile (· != ' ')).drop 2
  let kind ← Kind.all.find? fun k => k.name.toList = inner.takeWhile (· != ' ')
  let line ← OptLevel.decimal? (place.takeWhile Char.isDigit)
  let column ← OptLevel.decimal? (((place.dropWhile Char.isDigit).drop 1).takeWhile Char.isDigit)
  return ⟨(row.takeWhile (· == ' ')).length / 2, kind, line, column⟩

end Entry

end Tree

namespace Kind

theorem of_mem_name {k : Kind} {c : Char} (h : c ∈ k.name.toList) : c ≠ ' ' ∧ c ≠ '\n' := by
  have hall : k.name.toList.all (fun c => c != ' ' && c != '\n') = true := by
    cases k with
    | op o => cases o <;> decide
    | _ => decide
  simpa using List.all_eq_true.mp hall c h

theorem find?_name (k : Kind) : all.find? (fun k' => k'.name.toList = k.name.toList) = some k := by
  cases k with
  | op o => cases o <;> decide
  | _ => decide

theorem name_ne_nil (k : Kind) : k.name.toList ≠ [] := by
  cases k with
  | op o => cases o <;> decide
  | _ => decide

end Kind

namespace Tree.Entry

theorem newline_notMem_row (e : Entry) : '\n' ∉ e.row := by
  have hdigits (n : Nat) : '\n' ∉ Nat.toDigits 10 n := fun h =>
    absurd (X86.isDigit_of_mem n h) (by decide)
  have hname : '\n' ∉ e.kind.name.toList := fun h => (Kind.of_mem_name h).2 rfl
  simp [row, hdigits, hname, List.mem_replicate]

theorem toList_text (e : Entry) : e.text.toList = e.row ++ ['\n'] := String.toList_ofList

section Digits

variable (n : Nat) {c : Char} (hc : c.isDigit = false) (rest : List Char)
include hc

theorem takeWhile_digits :
    (Nat.toDigits 10 n ++ c :: rest).takeWhile Char.isDigit = Nat.toDigits 10 n := by
  rw [List.takeWhile_append_of_pos fun d hd => X86.isDigit_of_mem n hd,
    List.takeWhile_cons_of_neg (by simp [hc]), List.append_nil]

theorem dropWhile_digits :
    (Nat.toDigits 10 n ++ c :: rest).dropWhile Char.isDigit = c :: rest := by
  rw [List.dropWhile_append_of_pos fun d hd => X86.isDigit_of_mem n hd,
    List.dropWhile_cons_of_neg (by simp [hc])]

end Digits

section Name

variable (k : Kind) (rest : List Char)

theorem takeWhile_name :
    (k.name.toList ++ ' ' :: rest).takeWhile (· != ' ') = k.name.toList := by
  rw [List.takeWhile_append_of_pos fun c hc => by simpa using (Kind.of_mem_name hc).1,
    List.takeWhile_cons_of_neg (by simp), List.append_nil]

theorem dropWhile_name :
    (k.name.toList ++ ' ' :: rest).dropWhile (· != ' ') = ' ' :: rest := by
  rw [List.dropWhile_append_of_pos fun c hc => by simpa using (Kind.of_mem_name hc).1,
    List.dropWhile_cons_of_neg (by simp)]

/-- A name starts with a letter, so the spaces in front of it are those of the indentation. -/
theorem span_indentation (d : Nat) :
    (List.replicate d ' ' ++ (k.name.toList ++ rest)).takeWhile (· == ' ') =
        List.replicate d ' ' ∧
      (List.replicate d ' ' ++ (k.name.toList ++ rest)).dropWhile (· == ' ') =
        k.name.toList ++ rest := by
  have hspaces : ∀ c ∈ List.replicate d ' ', (c == ' ') = true := by
    intro c hc
    rw [List.eq_of_mem_replicate hc]
    rfl
  obtain ⟨c, cs, hname⟩ := List.exists_cons_of_ne_nil k.name_ne_nil
  have hletter : ¬(c == ' ') = true := by
    have hc : c ∈ k.name.toList := by rw [hname]; exact List.mem_cons_self
    simpa using (Kind.of_mem_name hc).1
  constructor
  · rw [List.takeWhile_append_of_pos hspaces, hname, List.cons_append,
      List.takeWhile_cons_of_neg (p := (· == ' ')) hletter, List.append_nil]
  · rw [List.dropWhile_append_of_pos hspaces, hname, List.cons_append,
      List.dropWhile_cons_of_neg (p := (· == ' ')) hletter]

end Name

/-- Every row is read back as the entry that it was written for. -/
theorem ofRow?_row (e : Entry) : ofRow? e.row = some e := by
  obtain ⟨depth, kind, line, column⟩ := e
  obtain ⟨hindentation, hinner⟩ := span_indentation kind
    (' ' :: '(' :: (Nat.toDigits 10 line ++ ':' :: (Nat.toDigits 10 column ++ [')']))) (2 * depth)
  have hcolon : Char.isDigit ':' = false := by decide
  have hparenthesis : Char.isDigit ')' = false := by decide
  simp only [ofRow?, row, hindentation, hinner, takeWhile_name, dropWhile_name,
    Kind.find?_name, List.drop_succ_cons, List.drop_zero, takeWhile_digits _ hcolon,
    dropWhile_digits _ hcolon, takeWhile_digits _ hparenthesis, X86.decimal?_toDigits,
    List.length_replicate, Nat.mul_div_cancel_left depth Nat.zero_lt_two]
  rfl

theorem row_injective : Function.Injective row := by
  intro e e' h
  have hread := congrArg ofRow? h
  rw [ofRow?_row, ofRow?_row] at hread
  exact Option.some.inj hread

end Tree.Entry

namespace Tree

theorem Dump.line_eq (depth : Nat) (n : Node) :
    line depth n.kind n.pos = (Entry.ofNode depth n).text := by
  have hline : line depth n.kind n.pos = String.ofList (List.replicate (2 * depth) ' ') ++
      n.kind.name ++ (" (" ++ (n.pos.line.repr ++ ":" ++ n.pos.column.repr) ++ ")\n") := rfl
  apply String.toList_inj.mp
  rw [hline, Entry.toList_text]
  simp [Entry.row, Entry.ofNode]

end Tree

namespace Program

/-- The entries of a program's nodes in order, with so many containers around the program. -/
def outline (depth : Nat) : Program → List Tree.Entry
  | nil => []
  | op o pos rest => ⟨depth, .op o, pos.line, pos.column⟩ :: rest.outline depth
  | loop pos body rest =>
    ⟨depth, .loop, pos.line, pos.column⟩ :: (body.outline (depth + 1) ++ rest.outline depth)

end Program

namespace Tree

open Program

variable {t : Tree} {p : Program} {parent n : Nat}

section Visit

variable {node : Node} (h : t.node? n = some node) (depth : Nat) (ls : List String)
include h

theorem Dump.visit_leaf (hkind : node.kind.isContainer = false) :
    visit t ⟨depth, ls⟩ (.enter n) = ⟨depth, (Entry.ofNode depth node).text :: ls⟩ := by
  simp only [visit, h, hkind, ← Dump.line_eq]
  rfl

theorem Dump.visit_container (hkind : node.kind.isContainer = true) :
    visit t ⟨depth, ls⟩ (.enter n) = ⟨(depth + 1 : Nat), (Entry.ofNode depth node).text :: ls⟩ := by
  simp only [visit, h, hkind, ← Dump.line_eq]
  rfl

end Visit

theorem Dump.visit_exit (id depth : Nat) (ls : List String) :
    visit t ⟨(depth + 1 : Nat), ls⟩ (.exit id) = ⟨depth, ls⟩ := by
  simp [visit]

/-- The walk over a program writes the lines of its outline and comes back to the depth at which
it started. -/
theorem foldl_visit_trail (h : t.Stands n (p.table parent n)) (depth : Nat) (ls : List String) :
    (p.trail n).foldl (Dump.visit t) ⟨depth, ls⟩ =
      ⟨depth, ((p.outline depth).map Entry.text).reverse ++ ls⟩ := by
  induction p generalizing parent n depth ls with
  | nil => rfl
  | op o pos rest ih =>
    rw [trail, List.foldl_cons, Dump.visit_leaf h.head depth ls rfl, ih h.tail, outline,
      List.map_cons, List.reverse_cons, List.append_assoc]
    rfl
  | loop pos body rest ihbody ih =>
    rw [trail, List.foldl_cons, Dump.visit_container h.head depth ls rfl, List.foldl_append,
      List.foldl_cons, ihbody h.loop_body, Dump.visit_exit, ih h.loop_rest, outline,
      List.map_cons, List.map_append, List.reverse_cons, List.reverse_append]
    simp only [List.append_assoc, List.singleton_append]
    rfl

/-- Wherever the walk through these events stops, it is no less deep than where it started. -/
def StaysAbove (t : Tree) (depth : Nat) (es : List Event) : Prop :=
  ∀ before ls, before <+: es → (depth : Int) ≤ (before.foldl (Dump.visit t) ⟨depth, ls⟩).depth

theorem staysAbove_nil (depth : Nat) : t.StaysAbove depth [] := by
  intro before ls hbefore
  rw [List.prefix_nil.mp hbefore]
  exact Int.le_refl depth

section Visit

variable {node : Node} (hnode : t.node? n = some node) {depth : Nat}
include hnode

theorem StaysAbove.leaf (hkind : node.kind.isContainer = false) {es : List Event}
    (h : t.StaysAbove depth es) : t.StaysAbove depth (.enter n :: es) := by
  intro before ls hbefore
  rcases List.prefix_cons_iff.mp hbefore with rfl | ⟨more, rfl, hmore⟩
  · exact Int.le_refl depth
  · rw [List.foldl_cons, Dump.visit_leaf hnode depth ls hkind]
    exact h more _ hmore

/-- What a container encloses is walked over one deeper, so its exit cannot go below the depth of
the container. -/
theorem StaysAbove.container (hkind : node.kind.isContainer = true) {m : Nat} {es : List Event}
    (hbody : t.Stands m (p.table parent m)) (hinner : t.StaysAbove (depth + 1) (p.trail m))
    (h : t.StaysAbove depth es) :
    t.StaysAbove depth (.enter n :: (p.trail m ++ .exit n :: es)) := by
  intro before ls hbefore
  rcases List.prefix_cons_iff.mp hbefore with rfl | ⟨more, rfl, hmore⟩
  · exact Int.le_refl depth
  · rw [List.foldl_cons, Dump.visit_container hnode depth ls hkind]
    rcases List.prefix_or_prefix_of_prefix hmore (List.prefix_append (p.trail m) _) with
      hinside | ⟨after, rfl⟩
    · exact Int.le_trans (by omega) (hinner more _ hinside)
    · rw [List.foldl_append, foldl_visit_trail hbody]
      rcases List.prefix_cons_iff.mp ((List.prefix_append_right_inj _).mp hmore) with
        rfl | ⟨rest, rfl, hrest⟩
      · exact Int.ofNat_le.mpr (Nat.le_succ depth)
      · rw [List.foldl_cons, Dump.visit_exit]
        exact h rest _ hrest

end Visit

theorem staysAbove_trail (h : t.Stands n (p.table parent n)) (depth : Nat) :
    t.StaysAbove depth (p.trail n) := by
  induction p generalizing parent n depth with
  | nil => exact staysAbove_nil depth
  | op o pos rest ih => exact .leaf h.head rfl (ih h.tail depth)
  | loop pos body rest ihbody ih =>
    exact .container h.head rfl h.loop_body (ihbody h.loop_body (depth + 1))
      (ih h.loop_rest depth)

/-- The node has so many containers around it: none around the root, and one more around a child
than around its parent. -/
inductive Nested (t : Tree) : Nat → Nat → Prop
  | root : Nested t 0 0
  | child {id c depth : Nat} (hparent : t.parent? id = some c) (h : Nested t c depth) :
      Nested t id (depth + 1)

theorem WellFormed.parent?_root (h : t.WellFormed) : t.parent? 0 = none := by
  obtain ⟨root, hroot, -, hnone⟩ := h.root
  rw [parent?, hroot]
  exact hnone

theorem Nested.unique (hwell : t.WellFormed) {id depth depth' : Nat} (h : t.Nested id depth)
    (h' : t.Nested id depth') : depth = depth' := by
  induction h generalizing depth' with
  | root =>
    cases h' with
    | root => rfl
    | child hparent _ => cases hwell.parent?_root.symm.trans hparent
  | child hparent _ ih =>
    cases h' with
    | root => cases hwell.parent?_root.symm.trans hparent
    | child hparent' h' =>
      cases hparent.symm.trans hparent'
      rw [ih h']

theorem Nested.congr {t' : Tree} (hparents : ∀ id, t.parent? id = t'.parent? id)
    {id depth : Nat} (h : t.Nested id depth) : t'.Nested id depth := by
  induction h with
  | root => exact .root
  | child hparent _ ih => exact .child ((hparents _).symm.trans hparent) ih

/-- The entries are those of the nodes from number `n` on. -/
def Describes (t : Tree) (n : Nat) (entries : List Entry) : Prop :=
  ∀ i e, entries[i]? = some e →
    ∃ node depth, t.node? (n + i) = some node ∧ t.Nested (n + i) depth ∧ e = .ofNode depth node

theorem Describes.cons {node : Node} {depth : Nat} {entries : List Entry}
    (hnode : t.node? n = some node) (hnested : t.Nested n depth)
    (h : t.Describes (n + 1) entries) : t.Describes n (.ofNode depth node :: entries) := by
  intro i e he
  cases i with
  | zero => exact ⟨node, depth, hnode, hnested, (Option.some.inj he).symm⟩
  | succ i =>
    rw [Nat.add_comm i 1, ← Nat.add_assoc]
    exact h i e he

theorem Describes.append {xs ys : List Entry} (hxs : t.Describes n xs)
    (hys : t.Describes (n + xs.length) ys) : t.Describes n (xs ++ ys) := by
  intro i e he
  by_cases hi : i < xs.length
  · exact hxs i e (by rwa [List.getElem?_append_left hi] at he)
  · have hsplit : n + i = n + xs.length + (i - xs.length) := by omega
    rw [hsplit]
    exact hys _ e (by rwa [List.getElem?_append_right (by omega)] at he)

end Tree

namespace Program

variable {t : Tree} {parent n : Nat}

theorem length_outline (p : Program) (depth : Nat) : (p.outline depth).length = p.size := by
  induction p generalizing depth with
  | nil => rfl
  | op o pos rest ih => rw [outline, List.length_cons, ih, size]
  | loop pos body rest ihbody ih =>
    rw [outline, List.length_cons, List.length_append, ihbody, ih, size]

/-- Where the nodes of a program stand, its outline describes them. -/
theorem describes_outline {p : Program} (h : t.Stands n (p.table parent n)) {depth : Nat}
    (hnested : t.Nested parent depth) : t.Describes n (p.outline (depth + 1)) := by
  induction p generalizing parent n depth with
  | nil =>
    intro i e he
    cases he
  | op o pos rest ih =>
    have hparent : t.parent? n = some parent := by rw [Tree.parent?, h.head]; rfl
    exact .cons h.head (.child hparent hnested) (ih h.tail hnested)
  | loop pos body rest ihbody ih =>
    have hparent : t.parent? n = some parent := by rw [Tree.parent?, h.head]; rfl
    have hloop : t.Nested n (depth + 1) := .child hparent hnested
    refine .cons h.head hloop (.append (ihbody h.loop_body hloop) ?_)
    rw [length_outline]
    exact ih h.loop_rest hnested

section Body

variable {depth : Nat}

theorem le_depth_of_mem_outline {p : Program} {e : Tree.Entry} (h : e ∈ p.outline depth) :
    depth ≤ e.depth := by
  induction p generalizing depth with
  | nil => cases h
  | op o pos rest ih =>
    rcases List.mem_cons.mp h with rfl | hrest
    · exact Nat.le_refl depth
    · exact ih hrest
  | loop pos body rest ihbody ih =>
    rcases List.mem_cons.mp h with rfl | hmem
    · exact Nat.le_refl depth
    · rcases List.mem_append.mp hmem with hbody | hrest
      · exact Nat.le_of_succ_le (ihbody hbody)
      · exact ih hrest

/-- What follows a loop is set in no further than the loop. -/
theorem takeWhile_outline (p : Program) :
    (p.outline depth).takeWhile (fun e => decide (depth < e.depth)) = [] := by
  cases p with
  | nil => rfl
  | op o pos rest => exact List.takeWhile_cons_of_neg (by simp)
  | loop pos body rest => exact List.takeWhile_cons_of_neg (by simp)

/-- A body is all that stands further in than its loop. -/
theorem takeWhile_body (body rest : Program) :
    (body.outline (depth + 1) ++ rest.outline depth).takeWhile
      (fun e => decide (depth < e.depth)) = body.outline (depth + 1) := by
  have hdeeper : ∀ e ∈ body.outline (depth + 1), decide (depth < e.depth) = true :=
    fun e he => decide_eq_true (le_depth_of_mem_outline he)
  rw [List.takeWhile_append_of_pos hdeeper, takeWhile_outline, List.append_nil]

end Body

end Program

namespace Position

/-- The place without its offset. -/
def shown (pos : Position) : Position := ⟨pos.line, pos.column, 0⟩

theorem shown_eq {pos pos' : Position} (hline : pos.line = pos'.line)
    (hcolumn : pos.column = pos'.column) : pos.shown = pos'.shown := by
  rw [shown, shown, hline, hcolumn]

end Position

namespace Program

/-- An outline determines its program but for the offsets. -/
theorem relocated_eq_of_outline_eq {p q : Program} {depth : Nat}
    (h : p.outline depth = q.outline depth) :
    p.relocated Position.shown = q.relocated Position.shown := by
  induction p generalizing q depth with
  | nil =>
    cases q with
    | nil => rfl
    | op => cases h
    | loop => cases h
  | op o pos rest ih =>
    cases q with
    | nil => cases h
    | op o' pos' rest' =>
      obtain ⟨hentry, hrest⟩ := List.cons.inj h
      obtain ⟨-, hkind, hline, hcolumn⟩ := Tree.Entry.mk.inj hentry
      rw [relocated, relocated, Kind.op.inj hkind, Position.shown_eq hline hcolumn, ih hrest]
    | loop => cases (Tree.Entry.mk.inj (List.cons.inj h).1).2.1
  | loop pos body rest ihbody ih =>
    cases q with
    | nil => cases h
    | op => cases (Tree.Entry.mk.inj (List.cons.inj h).1).2.1
    | loop pos' body' rest' =>
      obtain ⟨hentry, hinner⟩ := List.cons.inj h
      obtain ⟨-, -, hline, hcolumn⟩ := Tree.Entry.mk.inj hentry
      have hbody : body.outline (depth + 1) = body'.outline (depth + 1) := by
        rw [← takeWhile_body body rest, hinner, takeWhile_body]
      have hrest : rest.outline depth = rest'.outline depth := by
        rw [hbody] at hinner
        exact List.append_cancel_left hinner
      rw [relocated, relocated, Position.shown_eq hline hcolumn, ihbody hbody, ih hrest]

/-- The entries of all nodes, the root included. -/
def entries (p : Program) : List Tree.Entry := ⟨0, .root, 1, 1⟩ :: p.outline 1

theorem length_entries (p : Program) : p.entries.length = p.tree.size := by
  rw [entries, List.length_cons, length_outline, size_tree]

theorem describes_entries (p : Program) : p.tree.Describes 0 p.entries :=
  .cons p.node?_root .root (describes_outline p.stands_tree .root)

theorem exists_entry {p : Program} {id : Nat} {n : Node} (h : p.tree.node? id = some n) :
    ∃ depth, p.tree.Nested id depth ∧ p.entries[id]? = some (.ofNode depth n) := by
  have hlt : id < p.entries.length := by
    rw [length_entries]
    exact Tree.lt_size_of_node? h
  have hentry := List.getElem?_eq_getElem hlt
  obtain ⟨n', depth, hn', hnested, heq⟩ := p.describes_entries id _ hentry
  rw [Nat.zero_add] at hn' hnested
  cases h.symm.trans hn'
  rw [heq] at hentry
  exact ⟨depth, hnested, hentry⟩

theorem dumpLines_eq (p : Program) : p.dumpLines = p.entries.map Tree.Entry.text := by
  have hroot : Tree.Dump.visit p.tree {} (.enter 0) =
      ⟨(1 : Nat), [Tree.Entry.text ⟨0, .root, 1, 1⟩]⟩ :=
    Tree.Dump.visit_container p.node?_root 0 [] rfl
  rw [dumpLines, Tree.dumpLines, events_tree, List.foldl_cons, hroot, List.foldl_append,
    Tree.foldl_visit_trail p.stands_tree, List.foldl_cons, List.foldl_nil]
  simp [Tree.Dump.visit, entries]

theorem rows_dump (p : Program) : rows p.dump = p.entries.map Tree.Entry.row ++ [[]] := by
  rw [dump, dumpLines_eq, ← String.append_empty (s := String.join _),
    rows_join (fun e _ => e.toList_text) (fun e _ => e.newline_notMem_row)]
  rfl

theorem staysAbove_events (p : Program) : p.tree.StaysAbove 0 p.tree.events := by
  rw [events_tree]
  exact .container p.node?_root rfl p.stands_tree (Tree.staysAbove_trail p.stands_tree 1)
    (Tree.staysAbove_nil 0)

end Program

/-- All that a node holds but the offset of its place. -/
def Node.facts (n : Node) : Kind × Option Nat × Array Nat × Nat × Nat :=
  (n.kind, n.parent, n.children, n.pos.line, n.pos.column)

namespace Program

variable {p q : Program}

theorem entries_eq_of_dump_eq (h : p.dump = q.dump) : p.entries = q.entries := by
  have hrows := congrArg rows h
  rw [rows_dump, rows_dump] at hrows
  exact Tree.Entry.row_injective.list_map (List.append_cancel_right hrows)

theorem facts_eq_of_dump_eq (h : p.dump = q.dump) :
    p.tree.nodes.map Node.facts = q.tree.nodes.map Node.facts := by
  have houtline := (List.cons.inj (entries_eq_of_dump_eq h)).2
  have hfacts (p : Program) : p.tree.nodes.map Node.facts =
      (p.relocated Position.shown).tree.nodes.map Node.facts := by
    rw [nodes_relocated rfl, Array.map_map]
    rfl
  rw [hfacts p, hfacts q, relocated_eq_of_outline_eq houtline]

section SameFacts

variable (h : p.tree.nodes.map Node.facts = q.tree.nodes.map Node.facts)
include h

theorem facts_node?_eq (id : Nat) :
    (p.tree.node? id).map Node.facts = (q.tree.node? id).map Node.facts := by
  have hget := congrArg (fun ns => ns[id]?) h
  simp only [Array.getElem?_map] at hget
  exact hget

theorem parent?_eq_of_facts_eq (id : Nat) : p.tree.parent? id = q.tree.parent? id := by
  have hparent (t : Tree) :
      t.parent? id = ((t.node? id).map Node.facts).bind fun facts => facts.2.1 := by
    rw [Tree.parent?, Option.bind_map]
    rfl
  rw [hparent, hparent, facts_node?_eq h]

theorem entries_eq_of_facts_eq : p.entries = q.entries := by
  have hsize : p.tree.size = q.tree.size := by simpa [Tree.size] using congrArg Array.size h
  apply List.ext_getElem?
  intro id
  by_cases hid : id < p.tree.size
  · obtain ⟨n, hn⟩ := Tree.exists_node? hid
    obtain ⟨n', hn'⟩ := Tree.exists_node? (hsize ▸ hid)
    obtain ⟨depth, hnested, hentry⟩ := exists_entry hn
    obtain ⟨depth', hnested', hentry'⟩ := exists_entry hn'
    have hdepth : depth = depth' :=
      (hnested.congr (parent?_eq_of_facts_eq h)).unique q.grown_tree.wellFormed hnested'
    have hfacts := facts_node?_eq h id
    rw [hn, hn'] at hfacts
    simp only [Option.map_some, Option.some.injEq, Node.facts, Prod.mk.injEq] at hfacts
    obtain ⟨hkind, -, -, hline, hcolumn⟩ := hfacts
    rw [hentry, hentry', hdepth, Tree.Entry.ofNode, Tree.Entry.ofNode, hkind, hline, hcolumn]
  · rw [List.getElem?_eq_none (by rw [length_entries]; omega),
      List.getElem?_eq_none (by rw [length_entries]; omega)]

theorem dump_eq_of_facts_eq : p.dump = q.dump := by
  rw [dump, dump, dumpLines_eq, dumpLines_eq, entries_eq_of_facts_eq h]

end SameFacts

/-- A dump determines its program but for the offsets in the source, and is determined by the rest.
It has one line for each node in the order of their numbers, with two spaces for each container
around the node, and on the walk that makes it the depth never goes below zero. -/
theorem dump_determines_program (p q : Program) :
    (p.dump = q.dump ↔ p.tree.nodes.map Node.facts = q.tree.nodes.map Node.facts) ∧
      (∃ lines, rows p.dump = lines ++ [[]] ∧ lines.length = p.tree.size ∧
        ∀ id n, p.tree.node? id = some n → ∃ depth, p.tree.Nested id depth ∧
          lines[id]? = some (List.replicate (2 * depth) ' ' ++
            (n.kind.name ++ " (" ++ n.pos.display ++ ")").toList)) ∧
      ∀ es, es <+: p.tree.events → 0 ≤ (es.foldl (Tree.Dump.visit p.tree) {}).depth := by
  refine ⟨⟨facts_eq_of_dump_eq, dump_eq_of_facts_eq⟩, ?_,
    fun es hes => p.staysAbove_events es [] hes⟩
  refine ⟨p.entries.map Tree.Entry.row, p.rows_dump, by rw [List.length_map, length_entries], ?_⟩
  intro id n hn
  obtain ⟨depth, hnested, hentry⟩ := exists_entry hn
  have hdisplay : n.pos.display = n.pos.line.repr ++ ":" ++ n.pos.column.repr := rfl
  refine ⟨depth, hnested, ?_⟩
  rw [List.getElem?_map, hentry, hdisplay]
  simp [Tree.Entry.row, Tree.Entry.ofNode]

end Program

end TapeLang
