import TapeLang.Proofs.NodeTable
import Mathlib.Logic.Relation

/-!
Node tables as they grow. A node is only ever added below a container that is already there, so
every parent has a smaller number than its children and the lists of children divide all nodes but
the root among the containers. It follows that parents lead from every node to the root, and that
no node is reached from two siblings.
-/
namespace TapeLang

namespace Tree

/-- A table that has come about by adding instructions below containers. -/
inductive Grown : Tree → Prop
  | single : Grown single
  | push {t : Tree} {parent : Nat} {kind : Kind} (pos : Position) (h : Grown t)
      (hparent : t.isContainer parent = true) (hroot : kind ≠ .root) (hnone : kind ≠ .none) :
      Grown (t.push parent kind pos)

def parent? (t : Tree) (id : Nat) : Option Nat := (t.node? id).bind Node.parent

/-- How the nodes of a table hang together. A node occurs once in the list of its parent and in no
other list. -/
structure WellFormed (t : Tree) : Prop where
  root : ∃ n, t.node? 0 = some n ∧ n.kind = .root ∧ n.parent = none
  below : ∀ id n, id ≠ 0 → t.node? id = some n →
    n.kind ≠ .root ∧ ∃ c, n.parent = some c ∧ c < id ∧ t.isContainer c = true
  listed : ∀ c id, (t.children c).count id = if t.parent? id = some c then 1 else 0
  increasing : ∀ c, (t.children c).Pairwise (· < ·)
  leaf : ∀ id, t.isContainer id = false → t.children id = []

theorem lt_size_of_node? {t : Tree} {id : Nat} {n : Node} (h : t.node? id = some n) :
    id < t.size := by
  obtain ⟨hlt, -⟩ := Array.getElem?_eq_some_iff.mp h
  exact hlt

theorem exists_node? {t : Tree} {id : Nat} (h : id < t.size) : ∃ n, t.node? id = some n :=
  ⟨_, Array.getElem?_eq_getElem h⟩

theorem node?_size (t : Tree) : t.node? t.size = none := Array.getElem?_size

theorem isContainer_iff {t : Tree} {id : Nat} :
    t.isContainer id = true ↔ ∃ n, t.node? id = some n ∧ n.kind.isContainer = true :=
  Option.any_eq_true _ _

theorem lt_size_of_isContainer {t : Tree} {id : Nat} (h : t.isContainer id = true) :
    id < t.size := by
  obtain ⟨n, hn, -⟩ := isContainer_iff.mp h
  exact lt_size_of_node? hn

theorem exists_of_parent? {t : Tree} {id c : Nat} (h : t.parent? id = some c) :
    ∃ n, t.node? id = some n ∧ n.parent = some c :=
  Option.bind_eq_some_iff.mp h

theorem WellFormed.mem_children_iff {t : Tree} (h : t.WellFormed) {c id : Nat} :
    id ∈ t.children c ↔ t.parent? id = some c := by
  rw [← List.count_pos_iff, h.listed]
  split
  · next hid => exact ⟨fun _ => hid, fun _ => Nat.one_pos⟩
  · next hid => exact ⟨fun hpos => absurd hpos (Nat.lt_irrefl 0), fun heq => absurd heq hid⟩

section Push

variable (t : Tree) (parent : Nat) (kind : Kind) (pos : Position)

/-- The new node stands last, and of the others only its parent has changed. -/
theorem node?_push (id : Nat) : (t.push parent kind pos).node? id =
    if id = t.size then some ⟨kind, pos, some parent, #[]⟩
    else (t.node? id).map fun n =>
      if parent = id then { n with children := n.children.push t.size } else n := by
  have hsize : t.nodes.size = t.size := rfl
  rw [node?, push, Array.getElem?_push, Array.size_modify, Array.getElem?_modify, hsize]
  split
  · rfl
  · split
    · rfl
    · exact Option.map_id'.symm

theorem parent?_push (id : Nat) : (t.push parent kind pos).parent? id =
    if id = t.size then some parent else t.parent? id := by
  rw [parent?, node?_push]
  split
  · rfl
  · rw [parent?]
    cases t.node? id with
    | none => rfl
    | some n =>
      rw [Option.map_some, Option.bind_some, Option.bind_some]
      split <;> rfl

theorem isContainer_push (id : Nat) : (t.push parent kind pos).isContainer id =
    if id = t.size then kind.isContainer else t.isContainer id := by
  rw [isContainer, node?_push]
  split
  · rfl
  · rw [isContainer]
    cases t.node? id with
    | none => rfl
    | some n =>
      rw [Option.map_some, Option.any_some, Option.any_some]
      split <;> rfl

variable {t parent}

theorem children_push (hparent : parent < t.size) (id : Nat) :
    (t.push parent kind pos).children id =
      t.children id ++ if parent = id then [t.size] else [] := by
  rw [children, children, node?_push]
  by_cases hid : id = t.size
  · have hne : parent ≠ id := by omega
    rw [if_pos hid, if_neg hne, hid, node?_size]
    rfl
  · rw [if_neg hid]
    cases hn : t.node? id with
    | none =>
      have hne : parent ≠ id := by
        rintro rfl
        obtain ⟨n, hn'⟩ := exists_node? hparent
        rw [hn] at hn'
        cases hn'
      rw [if_neg hne]
      rfl
    | some n =>
      rw [Option.map_some]
      by_cases hp : parent = id
      · simp [hp]
      · simp [hp]

end Push

theorem node?_single {id : Nat} {n : Node} (h : single.node? id = some n) :
    id = 0 ∧ n = ⟨.root, .start, none, #[]⟩ := by
  have hlt : id < 1 := lt_size_of_node? h
  obtain rfl : id = 0 := by omega
  exact ⟨rfl, (Option.some.inj h).symm⟩

theorem children_single (c : Nat) : single.children c = [] := by
  rw [children]
  cases hn : single.node? c with
  | none => rfl
  | some n => rw [(node?_single hn).2]

theorem parent?_single (id : Nat) : single.parent? id = none := by
  rw [parent?]
  cases hn : single.node? id with
  | none => rfl
  | some n => rw [(node?_single hn).2]; rfl

theorem wellFormed_single : WellFormed single where
  root := ⟨_, rfl, rfl, rfl⟩
  below := fun id n hid hn => absurd (node?_single hn).1 hid
  listed := fun c id => by rw [children_single, parent?_single]; rfl
  increasing := fun c => by rw [children_single]; exact .nil
  leaf := fun id _ => children_single id

namespace WellFormed

variable {t : Tree} {parent : Nat} {kind : Kind} (pos : Position) (h : t.WellFormed)
include h

theorem root_push : ∃ n, (t.push parent kind pos).node? 0 = some n ∧ n.kind = .root ∧
    n.parent = none := by
  obtain ⟨n, hn, hkind, hnone⟩ := h.root
  have hpos := lt_size_of_node? hn
  rw [node?_push, if_neg (by omega), hn, Option.map_some]
  refine ⟨_, rfl, ?_, ?_⟩
  · split <;> exact hkind
  · split <;> exact hnone

variable (hparent : t.isContainer parent = true)
include hparent

theorem below_push (hroot : kind ≠ .root) {id : Nat} {n : Node} (hid : id ≠ 0)
    (hn : (t.push parent kind pos).node? id = some n) :
    n.kind ≠ .root ∧
      ∃ c, n.parent = some c ∧ c < id ∧ (t.push parent kind pos).isContainer c = true := by
  have hcontainer {c : Nat} (hc : t.isContainer c = true) :
      (t.push parent kind pos).isContainer c = true := by
    have := lt_size_of_isContainer hc
    rw [isContainer_push, if_neg (by omega)]
    exact hc
  have hlt := lt_size_of_isContainer hparent
  rw [node?_push] at hn
  split at hn
  · next hsize =>
    cases hn
    exact ⟨hroot, parent, rfl, by omega, hcontainer hparent⟩
  · obtain ⟨n₀, hn₀, rfl⟩ := Option.map_eq_some_iff.mp hn
    obtain ⟨hkind, c, hc, hclt, hcc⟩ := h.below id n₀ hid hn₀
    have hcc' := hcontainer hcc
    split
    · exact ⟨hkind, c, hc, hclt, hcc'⟩
    · exact ⟨hkind, c, hc, hclt, hcc'⟩

theorem listed_push (c id : Nat) : ((t.push parent kind pos).children c).count id =
    if (t.push parent kind pos).parent? id = some c then 1 else 0 := by
  rw [children_push kind pos (lt_size_of_isContainer hparent), parent?_push, List.count_append,
    h.listed]
  by_cases hid : id = t.size
  · have hnone : t.parent? id = none := by rw [hid, parent?, node?_size]; rfl
    rw [if_pos hid, hnone, hid]
    by_cases hc : parent = c
    · simp [hc]
    · simp [hc]
  · rw [if_neg hid]
    by_cases hc : parent = c
    · simp [hc, Ne.symm hid]
    · simp [hc]

theorem increasing_push (c : Nat) : ((t.push parent kind pos).children c).Pairwise (· < ·) := by
  rw [children_push kind pos (lt_size_of_isContainer hparent)]
  split
  · refine List.pairwise_append.mpr ⟨h.increasing c, List.pairwise_singleton _ _, ?_⟩
    intro a ha b hb
    obtain ⟨n, hn, -⟩ := exists_of_parent? (h.mem_children_iff.mp ha)
    rw [List.mem_singleton.mp hb]
    exact lt_size_of_node? hn
  · rw [List.append_nil]
    exact h.increasing c

theorem leaf_push {id : Nat} (hid : (t.push parent kind pos).isContainer id = false) :
    (t.push parent kind pos).children id = [] := by
  have hlt := lt_size_of_isContainer hparent
  rw [isContainer_push] at hid
  rw [children_push kind pos hlt]
  split at hid
  · next hsize =>
    rw [hsize, if_neg (by omega), children, node?_size]
    rfl
  · have hne : parent ≠ id := by
      rintro rfl
      rw [hparent] at hid
      cases hid
    rw [if_neg hne, h.leaf id hid]
    rfl

/-- Adding a node below a container keeps a table well formed. -/
theorem push (hroot : kind ≠ .root) : (t.push parent kind pos).WellFormed where
  root := h.root_push pos
  below _ _ := h.below_push pos hparent hroot
  listed := h.listed_push pos hparent
  increasing := h.increasing_push pos hparent
  leaf _ := h.leaf_push pos hparent

end WellFormed

theorem Grown.wellFormed {t : Tree} (h : t.Grown) : t.WellFormed := by
  induction h with
  | single => exact wellFormed_single
  | push pos h hparent hroot hnone ih => exact ih.push pos hparent hroot

/-- The second node is reached from the first through parents, in no step at least. -/
def Within (t : Tree) : Nat → Nat → Prop := Relation.ReflTransGen fun x c => t.parent? x = some c

/-- The first node is a proper descendant of the second. -/
def Below (t : Tree) : Nat → Nat → Prop := Relation.TransGen fun x c => t.parent? x = some c

theorem Below.lt_size {t : Tree} {x a : Nat} (h : t.Below x a) : x < t.size := by
  obtain ⟨c, hc, -⟩ := Relation.TransGen.head'_iff.mp h
  obtain ⟨n, hn, -⟩ := exists_of_parent? hc
  exact lt_size_of_node? hn

theorem within_iff {t : Tree} {x a : Nat} : t.Within x a ↔ x = a ∨ t.Below x a := by
  rw [Within, Relation.reflTransGen_iff_eq_or_transGen, eq_comm]
  exact Iff.rfl

theorem Below.within {t : Tree} {x a : Nat} (h : t.Below x a) : t.Within x a := h.to_reflTransGen

namespace WellFormed

variable {t : Tree} {x a b c : Nat}

theorem parent?_lt (h : t.WellFormed) (hx : t.parent? x = some c) : c < x := by
  obtain ⟨n, hn, hparent⟩ := exists_of_parent? hx
  have hne : x ≠ 0 := by
    rintro rfl
    obtain ⟨n₀, hn₀, -, hnone⟩ := h.root
    cases hn₀.symm.trans hn
    rw [hnone] at hparent
    cases hparent
  obtain ⟨-, c', hc', hlt, -⟩ := h.below x n hne hn
  cases hc'.symm.trans hparent
  exact hlt

theorem within_le (h : t.WellFormed) (hx : t.Within x a) : a ≤ x := by
  induction hx with
  | refl => exact Nat.le_refl x
  | tail _ hstep ih =>
    have := h.parent?_lt hstep
    omega

theorem below_lt (h : t.WellFormed) (hx : t.Below x a) : a < x := by
  obtain ⟨c, hc, hca⟩ := Relation.TransGen.tail'_iff.mp hx
  have hle := h.within_le hc
  have hlt := h.parent?_lt hca
  omega

/-- A proper descendant stands within one of the children. -/
theorem below_iff (h : t.WellFormed) : t.Below x a ↔ ∃ c ∈ t.children a, t.Within x c := by
  rw [Below, Relation.TransGen.tail'_iff]
  constructor
  · rintro ⟨c, hc, hca⟩
    exact ⟨c, h.mem_children_iff.mpr hca, hc⟩
  · rintro ⟨c, hca, hc⟩
    exact ⟨c, hc, h.mem_children_iff.mp hca⟩

theorem isContainer_root (h : t.WellFormed) : t.isContainer 0 = true := by
  obtain ⟨n, hn, hkind, -⟩ := h.root
  exact isContainer_iff.mpr ⟨n, hn, by rw [hkind]; rfl⟩

theorem within_root (h : t.WellFormed) (hx : x < t.size) : t.Within x 0 := by
  induction x using Nat.strongRecOn with
  | _ x ih =>
    by_cases hzero : x = 0
    · rw [hzero]
      exact .refl
    · obtain ⟨n, hn⟩ := exists_node? hx
      obtain ⟨-, c, hc, hlt, -⟩ := h.below x n hzero hn
      have hparent : t.parent? x = some c := Option.bind_eq_some_iff.mpr ⟨n, hn, hc⟩
      exact .head hparent (ih c hlt (by omega))

theorem lt_size_of_within_root (h : t.WellFormed) (hx : t.Within x 0) : x < t.size := by
  rcases within_iff.mp hx with rfl | hbelow
  · exact lt_size_of_isContainer h.isContainer_root
  · exact hbelow.lt_size

/-- Siblings share no descendants. Parents are unique, so of two nodes that are both reached from a
third one is reached from the other; a sibling would then be reached from its own parent. -/
theorem sibling_unique (h : t.WellFormed) (ha : t.parent? a = some c) (hb : t.parent? b = some c)
    (hxa : t.Within x a) (hxb : t.Within x b) : a = b := by
  have hcase {a b : Nat} (ha : t.parent? a = some c) (hb : t.parent? b = some c)
      (hab : t.Within a b) : a = b := by
    rcases Relation.ReflTransGen.cases_head_iff.mp hab with rfl | ⟨c', hc', hcb⟩
    · rfl
    · cases ha.symm.trans hc'
      have hle := h.within_le hcb
      have hlt := h.parent?_lt hb
      omega
  have hunique : Relator.RightUnique fun x c => t.parent? x = some c := by
    intro y c c' hc hc'
    exact Option.some.inj (hc.symm.trans hc')
  rcases hxa.total_of_right_unique hunique hxb with hab | hba
  · exact hcase ha hb hab
  · exact (hcase hb ha hba).symm

end WellFormed

namespace Builder

/-- The containers that a builder keeps open are containers of its table. -/
structure Grows (b : Builder) : Prop where
  tree : b.tree.Grown
  containers : ∀ c ∈ b.containers, b.tree.isContainer c = true

theorem grows_start : Grows {} := by
  refine ⟨.single, fun c hc => ?_⟩
  rw [List.mem_singleton.mp hc]
  rfl

variable {b : Builder}

theorem Grows.parent (h : b.Grows) : b.tree.isContainer b.parent = true := by
  unfold Builder.parent
  cases hc : b.containers with
  | nil => exact h.tree.wellFormed.isContainer_root
  | cons c outer => exact h.containers c (by rw [hc]; exact List.mem_cons_self)

theorem Grows.push (h : b.Grows) (kind : Kind) (pos : Position) (hroot : kind ≠ .root)
    (hnone : kind ≠ .none) : Grows { b with tree := b.tree.push b.parent kind pos } := by
  refine ⟨.push pos h.tree h.parent hroot hnone, fun c hc => ?_⟩
  have hcontainer := h.containers c hc
  have hlt := lt_size_of_isContainer hcontainer
  show (b.tree.push b.parent kind pos).isContainer c = true
  rw [isContainer_push, if_neg (by omega)]
  exact hcontainer

theorem Grows.visit (h : b.Grows) (c : Call) : (b.visit c).Grows := by
  cases c with
  | op o pos => exact h.push _ pos (by simp) (by simp)
  | enterLoop pos =>
    obtain ⟨htree, hcontainers⟩ := h.push .loop pos (by simp) (by simp)
    refine ⟨htree, fun c hc => ?_⟩
    rcases List.mem_cons.mp hc with rfl | hc
    · show (b.tree.push b.parent .loop pos).isContainer b.tree.size = true
      rw [isContainer_push, if_pos rfl]
      rfl
    · exact hcontainers c hc
  | exitLoop pos => exact ⟨h.tree, fun c hc => h.containers c (List.mem_of_mem_tail hc)⟩
  | finish => exact h

theorem Grows.foldl (h : b.Grows) (cs : List Call) : (cs.foldl Builder.visit b).Grows := by
  induction cs generalizing b with
  | nil => exact h
  | cons c cs ih => exact ih (h.visit c)

end Builder

end Tree

theorem Program.grown_tree (p : Program) : p.tree.Grown :=
  (Tree.Builder.grows_start.foldl p.calls).tree

end TapeLang
