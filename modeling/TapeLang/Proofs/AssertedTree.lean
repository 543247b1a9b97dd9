import TapeLang.Proofs.AssertedSource
import TapeLang.Proofs.Emission
import TapeLang.Proofs.Reporting
import TapeLang.Proofs.Visiting
import Mathlib.Data.List.Perm.Subperm

/-!
The passes over a node table meet every assertion. A walk over a well-formed table only looks up
nodes that are there, whatever kinds they have. In the table of a program the kinds are as the
passes expect them, and loops are exited as often as they are entered.
-/
namespace TapeLang

namespace Tree.WellFormed

variable {t : Tree}

theorem length_children_le (h : t.WellFormed) (id : Nat) : (t.children id).length ≤ t.size := by
  have hnodup : (t.children id).Nodup := (h.increasing id).imp Nat.ne_of_lt
  have hsubset : t.children id ⊆ List.range t.size := by
    intro child hchild
    obtain ⟨n, hn, -⟩ := exists_of_parent? (h.mem_children_iff.mp hchild)
    exact List.mem_range.mpr (lt_size_of_node? hn)
  have hle := (List.subperm_of_subset hnodup hsubset).length_le
  rwa [List.length_range] at hle

theorem length_events_le (h : t.WellFormed) : t.events.length ≤ 2 * t.size := by
  have hle := List.countP_le_length (p := t.isContainer) (l := List.range t.size)
  rw [h.length_visits h.visits_events]
  rw [List.length_range] at hle
  omega

end Tree.WellFormed

open TapeLang.Tree

namespace Asserted

namespace Walker

variable {t : Tree} {id k child fuel : Nat} {outer : List Frame} {done : List Event}

theorem children_of_node? {n : Node} (h : t.node? id = some n) (k : Nat) :
    n.children[k]? = (t.children id)[k]? := by
  rw [children, h, Array.getElem?_toList]

theorem run_enter (hwf : t.WellFormed) (hsize : t.size < UInt64.size)
    (hk : (t.children id)[k]? = some child) :
    run t (fuel + 1) ⟨⟨id, k⟩ :: outer, true⟩ done =
      run t fuel ⟨if t.isContainer child then ⟨child, 0⟩ :: ⟨id, k + 1⟩ :: outer
        else ⟨id, k + 1⟩ :: outer, true⟩ (.enter child :: done) := by
  obtain ⟨n, hn⟩ : ∃ n, t.node? id = some n := by
    cases hn : t.node? id with
    | none => simp [children, hn] at hk
    | some n => exact ⟨n, rfl⟩
  obtain ⟨m, hm, -⟩ := exists_of_parent? (hwf.mem_children_iff.mp (List.mem_of_getElem? hk))
  have hcount : k + 1 < UInt64.size := by
    obtain ⟨hlt, -⟩ := List.getElem?_eq_some_iff.mp hk
    have hle := hwf.length_children_le id
    omega
  have hcontainer : t.isContainer child = m.kind.isContainer := by rw [isContainer, hm]; rfl
  rw [← children_of_node? hn] at hk
  simp only [run, next, node_of hn, ok_bind, hk, count_of hcount, node_of hm, hcontainer, if_true]
  cases m.kind.isContainer <;> rfl

theorem run_exit (hid : t.isContainer id = true) (hk : (t.children id).length ≤ k) :
    run t (fuel + 1) ⟨⟨id, k⟩ :: outer, true⟩ done =
      run t fuel ⟨outer, true⟩ (.exit id :: done) := by
  obtain ⟨n, hn, -⟩ := isContainer_iff.mp hid
  have hnone := List.getElem?_eq_none hk
  rw [← children_of_node? hn] at hnone
  simp only [run, next, node_of hn, ok_bind, hnone, if_true]
  rfl

theorem next_of_drop {l rest : List Nat} (h : l.drop k = child :: rest) :
    l[k]? = some child ∧ l.drop (k + 1) = rest := by
  constructor
  · rw [← Nat.add_zero k, ← List.getElem?_drop, h]
    rfl
  · rw [← List.tail_drop, h]
    rfl

/-- The walk goes through the events of the children that come next. A frame holds an index and no
list, so the children still to come are what the index leaves of the container's list. -/
theorem run_visits (hwf : t.WellFormed) (hsize : t.size < UInt64.size) {ids rest : List Nat}
    {es : List Event} (h : t.Visits ids es) (hids : (t.children id).drop k = ids ++ rest) :
    run t (es.length + fuel) ⟨⟨id, k⟩ :: outer, true⟩ done =
      run t fuel ⟨⟨id, k + ids.length⟩ :: outer, true⟩ (es.reverse ++ done) := by
  induction h generalizing id k fuel outer done rest with
  | nil => rw [List.length_nil, Nat.zero_add]; rfl
  | @leaf child ids es hleaf _ ih =>
    obtain ⟨hk, hrest⟩ := next_of_drop hids
    rw [List.length_cons, Nat.add_right_comm, run_enter hwf hsize hk, hleaf, if_neg (by simp),
      ih hrest, List.length_cons, List.reverse_cons, List.append_assoc, Nat.add_right_comm k,
      Nat.add_assoc k]
    rfl
  | @container child ids inner es hcontainer _ _ ihinner ih =>
    obtain ⟨hk, hrest⟩ := next_of_drop hids
    have hinner : (t.children child).drop 0 = t.children child ++ [] := (List.append_nil _).symm
    rw [fuel_container, run_enter hwf hsize hk, if_pos hcontainer, ihinner hinner,
      run_exit hcontainer (Nat.le_add_left _ _), ih hrest, List.length_cons, Nat.add_right_comm k,
      Nat.add_assoc k]
    simp only [List.reverse_cons, List.reverse_append, List.append_assoc, List.cons_append,
      List.nil_append]

end Walker

/-- The walk over a well-formed table meets every assertion and ends within its steps. -/
theorem events_eq {t : Tree} (hwf : t.WellFormed) (hsize : t.size < UInt64.size) :
    events t = .ok t.events := by
  obtain ⟨inner, hinner, -, hlt⟩ := hwf.exists_events
  have hevents : t.events = .enter 0 :: (inner ++ [.exit 0]) := hinner.walk_root hlt
  have hlength := hwf.length_events_le
  rw [hevents, List.length_cons, List.length_append, List.length_singleton] at hlength
  obtain ⟨more, hmore⟩ : ∃ more, 2 * t.size = inner.length + (more + 1 + 1) :=
    ⟨2 * t.size - inner.length - 2, by omega⟩
  have hstart : Walker.run t (2 * t.size + 1) {} [] =
      Walker.run t (2 * t.size) ⟨[⟨0, 0⟩], true⟩ [.enter 0] := rfl
  have hids : (t.children 0).drop 0 = t.children 0 ++ [] := (List.append_nil _).symm
  have hend : Walker.run t (more + 1) ⟨[], true⟩ (.exit 0 :: (inner.reverse ++ [.enter 0])) =
      .ok (Event.exit 0 :: (inner.reverse ++ [.enter 0])).reverse := rfl
  rw [events, hstart, hmore, Walker.run_visits hwf hsize hinner hids,
    Walker.run_exit hwf.isContainer_root (Nat.le_add_left _ _), hend, hevents]
  simp

/-- A root that lists a node which is not there. -/
example : events ⟨#[⟨.root, .start, none, #[7]⟩]⟩ = .error (.assertion .nodeExists) := rfl

theorem filterMapM_eq_ok {α β : Type} {f : α → Except Stop (Option β)} {g : α → Option β}
    {xs : List α} (h : ∀ x ∈ xs, f x = .ok (g x)) : xs.filterMapM f = .ok (xs.filterMap g) := by
  induction xs with
  | nil => rfl
  | cons x xs ih =>
    have hrest := ih fun y hy => h y (List.mem_cons_of_mem _ hy)
    rw [List.filterMapM_cons, h x List.mem_cons_self, ok_bind, List.filterMap_cons, hrest]
    cases g x <;> rfl

theorem fromUTF8?_toUTF8 (s : String) : String.fromUTF8? s.toUTF8 = some s :=
  dif_pos s.isValidUTF8

section Program

variable {p : Program} {id : Nat}

theorem exists_of_enter (h : .enter id ∈ p.tree.events) : ∃ n, p.tree.node? id = some n ∧
    (id = 0 ∧ n.kind = .root ∨ (∃ o, n.kind = .op o) ∨ n.kind = .loop) := by
  have hlt : id < p.tree.size := by
    have hcount := List.count_pos_iff.mpr h
    rw [p.grown_tree.wellFormed.count_enter_events] at hcount
    by_contra hge
    rw [if_neg hge] at hcount
    exact Nat.lt_irrefl 0 hcount
  obtain ⟨n, hn⟩ := exists_node? hlt
  refine ⟨n, hn, ?_⟩
  by_cases hid : id = 0
  · subst hid
    rw [p.node?_root] at hn
    cases hn
    exact Or.inl ⟨rfl, rfl⟩
  · exact Or.inr (Program.kind_of_node? hid hn)

theorem exists_of_exit (h : .exit id ∈ p.tree.events) : ∃ n, p.tree.node? id = some n ∧
    (n.kind = .root ∨ n.kind = .loop) := by
  have hcontainer : p.tree.isContainer id = true := by
    have hcount := List.count_pos_iff.mpr h
    rw [p.grown_tree.wellFormed.count_exit_events] at hcount
    by_contra hnot
    rw [if_neg hnot] at hcount
    exact Nat.lt_irrefl 0 hcount
  obtain ⟨n, hn, hkind⟩ := isContainer_iff.mp hcontainer
  refine ⟨n, hn, ?_⟩
  cases hk : n.kind with
  | root => exact Or.inl rfl
  | loop => exact Or.inr rfl
  | op o => rw [hk] at hkind; cases hkind
  | none => rw [hk] at hkind; cases hkind

theorem symbol?_eq {e : Event} (h : e ∈ p.tree.events) :
    symbol? p.tree e = .ok (p.tree.symbol? e) := by
  cases e with
  | enter id =>
    obtain ⟨n, hn, -⟩ := exists_of_enter h
    rw [symbol?, node_of hn, Tree.symbol?, hn]
    rfl
  | exit id =>
    obtain ⟨n, hn, -⟩ := exists_of_exit h
    rw [symbol?, node_of hn, Tree.symbol?, hn]
    simp

theorem call?_eq {e : Event} (h : e ∈ p.tree.events) : call? p.tree e = .ok (p.tree.call? e) := by
  cases e with
  | enter id =>
    obtain ⟨n, hn, ⟨rfl, hkind⟩ | ⟨o, hkind⟩ | hkind⟩ := exists_of_enter h
    · simp only [call?, node_of hn, ok_bind, hkind, require_of, Tree.call?, hn, Option.bind_some]
      rfl
    · simp only [call?, node_of hn, ok_bind, hkind, Tree.call?, hn, Option.bind_some]
      rfl
    · simp only [call?, node_of hn, ok_bind, hkind, Tree.call?, hn, Option.bind_some]
      rfl
  | exit id =>
    obtain ⟨n, hn, hkind | hkind⟩ := exists_of_exit h
    · simp only [call?, node_of hn, ok_bind, hkind, Tree.call?, hn, Option.bind_some]
      rfl
    · simp only [call?, node_of hn, ok_bind, hkind, Tree.call?, hn, Option.bind_some]
      rfl

/-- Around a part of a program the nesting is the same before and after. -/
theorem depth_foldl_spell (p : Program) (s : Program.Nesting) :
    (p.spell.foldl Program.Nesting.visit s).depth = s.depth := by
  induction p generalizing s with
  | nil => rfl
  | op o pos rest ih => exact ih s
  | loop pos body rest ihbody ih =>
    rw [Program.spell, List.foldl_cons, List.foldl_append, List.foldl_cons, ih]
    show (body.spell.foldl Program.Nesting.visit _).depth - 1 = s.depth
    rw [ihbody]
    exact Nat.add_sub_cancel _ _

/-- Every loop that is exited has been entered, so the depth does not fall below zero. -/
theorem foldlM_nest_trail {t : Tree} {p : Program} {parent n : Nat}
    (h : t.Stands n (p.table parent n)) (s : Program.Nesting)
    (hfits : s.depth + p.size < UInt64.size) :
    (p.trail n).foldlM (nest t) s = .ok (p.spell.foldl Program.Nesting.visit s) := by
  induction p generalizing parent n s with
  | nil => rfl
  | op o pos rest ih =>
    have hrest := ih h.tail s (by rw [Program.size] at hfits; omega)
    rw [Program.trail, List.foldlM_cons, nest, node_of h.head]
    exact hrest
  | loop pos body rest ihbody ih =>
    rw [Program.size] at hfits
    let inside : Program.Nesting := ⟨s.depth + 1, max s.deepest (s.depth + 1)⟩
    let behind := body.spell.foldl Program.Nesting.visit inside
    have hbehind : behind.depth = s.depth + 1 := depth_foldl_spell body inside
    have henter : nest t s (.enter n) = .ok inside := by
      rw [nest, node_of h.head, ok_bind, if_pos rfl, count_of (by omega)]
      rfl
    have hexit : nest t behind (.exit n) = .ok (behind.visit (.exitLoop pos)) := by
      rw [nest, node_of h.head, ok_bind, if_pos rfl, require_of (by omega)]
      rfl
    have hdepth : (behind.visit (.exitLoop pos)).depth = s.depth := by
      show behind.depth - 1 = s.depth
      omega
    rw [Program.trail, List.foldlM_cons, henter, ok_bind, List.foldlM_append,
      ihbody h.loop_body inside (by show s.depth + 1 + body.size < UInt64.size; omega), ok_bind,
      List.foldlM_cons, hexit, ok_bind, ih h.loop_rest _ (by omega), Program.spell,
      List.foldl_cons, List.foldl_append, List.foldl_cons]
    rfl

variable (hsize : p.tree.size < UInt64.size)

include hsize

theorem events_tree_eq : events p.tree = .ok p.tree.events :=
  events_eq p.grown_tree.wellFormed hsize

theorem preorder_eq : preorder p.tree = .ok p.tree.preorder := by
  rw [preorder, events_tree_eq hsize]
  rfl

theorem flatten_eq : flatten p.tree = .ok p.tree.flatten := by
  rw [flatten, events_tree_eq hsize, ok_bind, filterMapM_eq_ok fun e => symbol?_eq]
  rfl

theorem depth_eq : depth p.tree = .ok p.depth := by
  have hroot := node_of p.node?_root
  have hfits : 0 + p.size < UInt64.size := by
    rw [p.size_tree] at hsize
    omega
  have henter (s : Program.Nesting) : nest p.tree s (.enter 0) = .ok s := by
    rw [nest, hroot]
    rfl
  have hexit (s : Program.Nesting) : nest p.tree s (.exit 0) = .ok s := by
    rw [nest, hroot]
    rfl
  rw [depth, events_tree_eq hsize, ok_bind, p.events_tree, List.foldlM_cons, henter, ok_bind,
    List.foldlM_append, foldlM_nest_trail p.stands_tree {} hfits, ok_bind, List.foldlM_cons,
    hexit, ok_bind, Program.depth, p.calls_eq, List.foldl_append]
  rfl

theorem calls_eq : calls p.tree = .ok p.calls := by
  rw [calls, events_tree_eq hsize, ok_bind, filterMapM_eq_ok fun e => call?_eq,
    p.filterMap_call?_events]

theorem translate_eq {m : Type → Type} [Monad m] (backEnd : Call → m Unit) :
    translate backEnd p.tree = .ok (TapeLang.translate backEnd p) := by
  rw [translate, calls_eq hsize]
  rfl

/-- The generator finds every loop entered that it leaves, and what it has written is text. -/
theorem assembly_eq (o : Options) : assembly o p.tree = .ok (p.assembly o) := by
  have hgenerate : generate p.tree = .ok (Generator.generate p) := by
    rw [generate, translate_eq hsize]
    rfl
  obtain ⟨g, hcompile, haccepted⟩ := p.compile_eq o
  have hrun : Generator.generate p { options := o } = .ok (p.lineCount o {}) g := hcompile
  have hbytes : (⟨g.sink.accepted⟩ : ByteArray) = (p.assembly o).toUTF8 := by
    apply ByteArray.ext
    exact Array.toList_inj.mp haccepted
  simp only [assembly, hgenerate, ok_bind, hrun, hbytes, fromUTF8?_toUTF8]
  rfl

end Program

end Asserted

namespace Source

variable {src : Source}

/-- Within the limits of positions a source is refused for its brackets only. -/
theorem mapError_tokens_ne_assertion (hlen : src.length ≤ UInt32.size - 2) {α : Type}
    (f : List Token → α) (a : Assertion) :
    (src.tokens.map f).mapError Stop.ofSource ≠ .error (.assertion a) := by
  have hcases := validate_cases (Position.spans_start hlen)
  rw [validate] at hcases
  intro h
  cases ht : src.tokens with
  | ok ts =>
    rw [ht] at h
    cases h
  | error e =>
    rw [ht] at h hcases
    rcases hcases with ⟨-, hok⟩ | ⟨before, -, herror⟩ | ⟨before, -, herror⟩
    · cases hok
    · cases herror
      cases h
    · cases herror
      cases h

theorem size_tree_le {p : Program} (hlen : src.length ≤ UInt32.size - 2)
    (hp : src.program = .ok p) : p.tree.size ≤ UInt32.size := by
  have hsize := src.size_builder_le
  have hnumbers : UInt32.size = 4294967296 := rfl
  rw [builder_of_program hp] at hsize
  omega

/-- Building the table of a source comes to the table of its program, however long the source, if
the nodes can be numbered. A source whose places do not fit is refused by both. -/
theorem asserted_build_eq (hnumbers : ∀ p, src.program = .ok p → p.tree.size ≤ UInt32.size) :
    Asserted.build src = (src.program.map Program.tree).mapError .ofSource := by
  rw [Asserted.build, Asserted.closings_eq]
  cases ht : src.tokens with
  | error e => simp only [closings, program, ht]; rfl
  | ok ts =>
    have hcloses : src.closings = .ok (Pairing.ofTokens ts).closes := by rw [closings, ht]; rfl
    have hp : src.program = .ok (.assemble ts) := by rw [program, ht]; rfl
    have hok : Except.mapError Stop.ofSource src.closings = .ok (Pairing.ofTokens ts).closes := by
      rw [hcloses]
      rfl
    have hsize := hnumbers _ hp
    rw [hok, Asserted.ok_bind, Asserted.construct_eq hsize hcloses hp, Asserted.ok_bind,
      Asserted.depth_eq (Nat.lt_of_le_of_lt hsize (by decide)), hp]
    rfl

/-- On a source of at most 2³² − 2 bytes, checking and building meet every assertion, and answer
what they answer without them. When a table is built, its depth, its flattening, its order, what it
says to any back end and its assembly for any options are found with every assertion met. -/
theorem every_assertion_is_met (src : Source) (hlen : src.length ≤ UInt32.size - 2) :
    Asserted.validate src = src.validate.mapError .ofSource ∧
    Asserted.build src = (src.program.map Program.tree).mapError .ofSource ∧
    (∀ a, Asserted.validate src ≠ .error (.assertion a)) ∧
    (∀ a, Asserted.build src ≠ .error (.assertion a)) ∧
    ∀ t, Asserted.build src = .ok t → ∃ p, src.program = .ok p ∧ t = p.tree ∧
      Asserted.depth t = .ok p.depth ∧ Asserted.flatten t = .ok t.flatten ∧
      Asserted.preorder t = .ok t.preorder ∧
      (∀ (m : Type → Type) [Monad m] (backEnd : Call → m Unit),
        Asserted.translate backEnd t = .ok (translate backEnd p)) ∧
      ∀ o, ∃ lines g, p.compile o {} = .ok lines g ∧
        g.sink.accepted.toList = Sink.bytesOf (p.assembly o) ∧
        Asserted.assembly o t = .ok (p.assembly o) := by
  have hbuild := asserted_build_eq fun p hp => size_tree_le hlen hp
  refine ⟨Asserted.validate_eq src, hbuild, ?_, ?_, ?_⟩
  · intro a
    rw [Asserted.validate_eq]
    exact mapError_tokens_ne_assertion hlen _ a
  · intro a
    have htable : src.program.map Program.tree =
        src.tokens.map fun ts => (Program.assemble ts).tree := by
      rw [program]
      cases src.tokens <;> rfl
    rw [hbuild, htable]
    exact mapError_tokens_ne_assertion hlen _ a
  · intro t ht
    rw [hbuild] at ht
    cases hp : src.program with
    | error e => rw [hp] at ht; cases ht
    | ok p =>
      rw [hp] at ht
      cases ht
      have hsize : p.tree.size < UInt64.size :=
        Nat.lt_of_le_of_lt (size_tree_le hlen hp) (by decide)
      refine ⟨p, rfl, rfl, Asserted.depth_eq hsize, Asserted.flatten_eq hsize,
        Asserted.preorder_eq hsize, fun m _ backEnd => Asserted.translate_eq hsize backEnd, ?_⟩
      intro o
      obtain ⟨g, hcompile, haccepted⟩ := p.compile_eq o
      exact ⟨_, g, hcompile, haccepted, Asserted.assembly_eq hsize o⟩

/-- The source `,[>⏎[-]]`, built and passed on with nothing taken for granted. -/
theorem assertions_met_by_nested_loops :
    let src : Source := [44, 91, 62, 10, 91, 45, 93, 93]
    src.length ≤ UInt32.size - 2 ∧ ∃ t, Asserted.build src = .ok t ∧ t.size = 6 ∧
      Asserted.depth t = .ok 2 ∧ Asserted.flatten t = .ok ",[>[-]]" ∧
      Asserted.preorder t = .ok [0, 1, 2, 3, 4, 5] ∧
      ∀ o, ∃ text, Asserted.assembly o t = .ok text := by
  intro src
  have hlen : src.length ≤ UInt32.size - 2 := by decide
  let p : Program := .op .input ⟨1, 1, 0⟩ (.loop ⟨1, 2, 1⟩ (.op .moveRight ⟨1, 3, 2⟩
    (.loop ⟨2, 1, 4⟩ (.op .decrement ⟨2, 2, 5⟩ .nil) .nil)) .nil)
  have hp : src.program = .ok p := rfl
  obtain ⟨-, hall, -, -, hmet⟩ := every_assertion_is_met src hlen
  have hbuild : Asserted.build src = .ok p.tree := by
    rw [hall, hp]
    rfl
  obtain ⟨p', hp', -, hdepth, hflatten, hpreorder, -, hassembly⟩ := hmet p.tree hbuild
  obtain rfl : p = p' := Except.ok.inj (hp.symm.trans hp')
  have htwo : p.depth = 2 := by rw [Program.depth, Program.calls_eq]; rfl
  have hsix : p.tree.size = 6 := p.size_tree
  have htext : p.tree.flatten = ",[>[-]]" := by rw [Program.flatten_tree]; rfl
  have hrange : p.tree.preorder = [0, 1, 2, 3, 4, 5] := by rw [Program.preorder_tree, hsix]; rfl
  rw [htwo] at hdepth
  rw [htext] at hflatten
  rw [hrange] at hpreorder
  refine ⟨hlen, p.tree, hbuild, hsix, hdepth, hflatten, hpreorder, fun o => ?_⟩
  obtain ⟨lines, g, -, -, htext⟩ := hassembly o
  exact ⟨_, htext⟩

end Source

end TapeLang
