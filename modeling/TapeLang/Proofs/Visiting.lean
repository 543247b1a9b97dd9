import TapeLang.Proofs.Growth
import TapeLang.Proofs.Walk

/-!
The walk over a table that has grown. Children have greater numbers than their container, so the
walk ends. Between entering and exiting a container it enters the descendants of the container and
nothing else. No node stands below two siblings, so it enters none twice.
-/
namespace TapeLang

namespace Event

/-- The numbers of the nodes that are entered, in order. -/
def entries (es : List Event) : List Nat := es.filterMap entered?

@[simp] theorem entries_nil : entries [] = [] := rfl

@[simp] theorem entries_enter (id : Nat) (es : List Event) :
    entries (.enter id :: es) = id :: entries es := rfl

@[simp] theorem entries_exit (id : Nat) (es : List Event) :
    entries (.exit id :: es) = entries es := rfl

@[simp] theorem entries_append (es es' : List Event) :
    entries (es ++ es') = entries es ++ entries es' :=
  List.filterMap_append

theorem mem_entries {id : Nat} {es : List Event} : id ∈ entries es ↔ .enter id ∈ es := by
  induction es with
  | nil => simp
  | cons e es ih => cases e <;> simp [ih]

theorem count_enter (id : Nat) (es : List Event) :
    es.count (.enter id) = (entries es).count id := by
  induction es with
  | nil => rfl
  | cons e es ih => cases e <;> simp [List.count_cons, ih]

end Event

namespace Tree

open Event

variable {t : Tree} {ids : List Nat} {es : List Event}

/-- The walk over any nodes of a well formed table ends. The induction is on how much room the
numbers of the nodes leave up to the size of the table. -/
theorem WellFormed.exists_visits (h : t.WellFormed) (ids : List Nat) : ∃ es, t.Visits ids es := by
  have hroom (k : Nat) (ids : List Nat) (hids : ∀ id ∈ ids, t.size ≤ id + k) :
      ∃ es, t.Visits ids es := by
    induction k using Nat.strongRecOn generalizing ids with
    | _ k ihk =>
      induction ids with
      | nil => exact ⟨[], .nil⟩
      | cons id ids ih =>
        obtain ⟨es, hrest⟩ := ih fun a ha => hids a (List.mem_cons_of_mem id ha)
        cases hid : t.isContainer id with
        | false => exact ⟨_, .leaf hid hrest⟩
        | true =>
          have hlt := lt_size_of_isContainer hid
          have hle := hids id List.mem_cons_self
          have hchildren : ∀ c ∈ t.children id, t.size ≤ c + (k - 1) := by
            intro c hc
            have := h.parent?_lt (h.mem_children_iff.mp hc)
            omega
          obtain ⟨inner, hinner⟩ := ihk (k - 1) (by omega) (t.children id) hchildren
          exact ⟨_, .container hid hinner hrest⟩
  exact hroom t.size ids fun id _ => Nat.le_add_left _ _

theorem WellFormed.children_apart (h : t.WellFormed) (c : Nat) :
    (t.children c).Pairwise fun a b => ∀ x, t.Within x a → ¬ t.Within x b := by
  refine (h.increasing c).imp_of_mem fun {a b} ha hb hlt x hxa hxb => ?_
  have heq := h.sibling_unique (h.mem_children_iff.mp ha) (h.mem_children_iff.mp hb) hxa hxb
  omega

namespace Visits

theorem mem_entries_iff (hwf : t.WellFormed) (h : t.Visits ids es) (x : Nat) :
    x ∈ entries es ↔ ∃ a ∈ ids, t.Within x a := by
  induction h with
  | nil => simp
  | @leaf id ids es hleaf hrest ih =>
    have hnone : ¬ t.Below x id := by
      rw [hwf.below_iff, hwf.leaf id hleaf]
      simp
    simp [ih, within_iff (a := id), hnone]
  | @container id ids inner es hcontainer hinner hrest ihinner ih =>
    simp [ihinner, ih, within_iff (a := id), hwf.below_iff, or_assoc]

/-- Where the given nodes share no descendants, no node is entered twice. -/
theorem nodup_entries (hwf : t.WellFormed) (h : t.Visits ids es)
    (hapart : ids.Pairwise fun a b => ∀ x, t.Within x a → ¬ t.Within x b) :
    (entries es).Nodup := by
  induction h with
  | nil => exact .nil
  | @leaf id ids es hleaf hrest ih =>
    obtain ⟨hfirst, hothers⟩ := List.pairwise_cons.mp hapart
    refine List.nodup_cons.mpr ⟨fun hmem => ?_, ih hothers⟩
    obtain ⟨a, ha, hwithin⟩ := (hrest.mem_entries_iff hwf id).mp hmem
    exact hfirst a ha id .refl hwithin
  | @container id ids inner es hcontainer hinner hrest ihinner ih =>
    obtain ⟨hfirst, hothers⟩ := List.pairwise_cons.mp hapart
    have hbelow : ∀ x ∈ entries inner, t.Below x id := by
      intro x hx
      exact hwf.below_iff.mpr ((hinner.mem_entries_iff hwf x).mp hx)
    have hlater : ∀ x ∈ entries es, ¬ t.Within x id := by
      intro x hx hid
      obtain ⟨a, ha, hwithin⟩ := (hrest.mem_entries_iff hwf x).mp hx
      exact hfirst a ha x hid hwithin
    rw [entries_enter, entries_append, entries_exit, List.nodup_cons, List.nodup_append]
    refine ⟨fun hmem => ?_, ihinner (hwf.children_apart id), ih hothers, ?_⟩
    · rcases List.mem_append.mp hmem with hx | hx
      · exact Nat.lt_irrefl id (hwf.below_lt (hbelow id hx))
      · exact hlater id hx .refl
    · rintro x hx y hy rfl
      exact hlater x hy (hbelow x hx).within

/-- A container is exited as often as it is entered, and nothing else is exited. -/
theorem count_exit (h : t.Visits ids es) (x : Nat) :
    es.count (.exit x) = if t.isContainer x then es.count (.enter x) else 0 := by
  induction h with
  | nil => simp
  | @leaf id ids es hleaf hrest ih =>
    by_cases hid : id = x
    · subst hid
      simp_all
    · simp [ih, hid]
  | @container id ids inner es hcontainer hinner hrest ihinner ih =>
    by_cases hid : id = x
    · subst hid
      simp_all
      omega
    · simp only [List.count_cons, List.count_append, ih, ihinner]
      split <;> simp [hid]

theorem length_eq (h : t.Visits ids es) :
    es.length = (entries es).length + (entries es).countP t.isContainer := by
  induction h with
  | nil => rfl
  | leaf hleaf hrest ih =>
    simp [hleaf, ih]
    omega
  | container hcontainer hinner hrest ihinner ih =>
    simp [hcontainer, ihinner, ih]
    omega

/-- The walk over the children of a container stands between its entry and its exit. -/
theorem exists_inside (h : t.Visits ids es) {a : Nat} (ha : a ∈ entries es)
    (hcontainer : t.isContainer a = true) :
    ∃ before inside after, es = before ++ .enter a :: (inside ++ .exit a :: after) ∧
      t.Visits (t.children a) inside := by
  induction h with
  | nil => simp at ha
  | @leaf id ids es hleaf hrest ih =>
    rcases List.mem_cons.mp ha with rfl | ha
    · rw [hleaf] at hcontainer
      cases hcontainer
    · obtain ⟨before, inside, after, rfl, hinside⟩ := ih ha
      exact ⟨.enter id :: before, inside, after, rfl, hinside⟩
  | @container id ids inner es hid hinner hrest ihinner ih =>
    rw [entries_enter, entries_append, entries_exit] at ha
    rcases List.mem_cons.mp ha with rfl | ha
    · exact ⟨[], inner, es, rfl, hinner⟩
    · rcases List.mem_append.mp ha with ha | ha
      · obtain ⟨before, inside, after, rfl, hinside⟩ := ihinner ha
        exact ⟨.enter id :: before, inside, after ++ .exit id :: es, by simp, hinside⟩
      · obtain ⟨before, inside, after, rfl, hinside⟩ := ih ha
        exact ⟨.enter id :: (inner ++ .exit id :: before), inside, after, by simp, hinside⟩

end Visits

namespace WellFormed

theorem perm_entries (h : t.WellFormed) (hes : t.Visits [0] es) :
    (entries es).Perm (List.range t.size) := by
  have hnodup := hes.nodup_entries h (List.pairwise_singleton _ _)
  rw [List.perm_ext_iff_of_nodup hnodup List.nodup_range]
  intro x
  rw [hes.mem_entries_iff h, List.mem_range]
  constructor
  · rintro ⟨a, ha, hx⟩
    rw [List.mem_singleton.mp ha] at hx
    exact h.lt_size_of_within_root hx
  · intro hx
    exact ⟨0, List.mem_cons_self, h.within_root hx⟩

theorem length_visits (h : t.WellFormed) (hes : t.Visits [0] es) :
    es.length = t.size + (List.range t.size).countP t.isContainer := by
  have hperm := h.perm_entries hes
  rw [hes.length_eq, hperm.length_eq, hperm.countP_eq, List.length_range]

theorem exists_events (h : t.WellFormed) : ∃ inner, t.Visits (t.children 0) inner ∧
    t.Visits [0] (.enter 0 :: (inner ++ [.exit 0])) ∧ inner.length < 2 * t.size := by
  obtain ⟨inner, hinner⟩ := h.exists_visits (t.children 0)
  have hvisits : t.Visits [0] (.enter 0 :: (inner ++ [.exit 0])) :=
    .container h.isContainer_root hinner .nil
  have hlength := h.length_visits hvisits
  have hcontainers : (List.range t.size).countP t.isContainer ≤ t.size := by
    have hle := List.countP_le_length (p := t.isContainer) (l := List.range t.size)
    rwa [List.length_range] at hle
  refine ⟨inner, hinner, hvisits, ?_⟩
  simp only [List.length_cons, List.length_append, List.length_nil] at hlength
  omega

theorem visits_events (h : t.WellFormed) : t.Visits [0] t.events := by
  obtain ⟨inner, hinner, hvisits, hlt⟩ := h.exists_events
  rw [events, hinner.walk_root hlt]
  exact hvisits

/-- No number of further steps adds to the events of the walk. -/
theorem walk_eq_events (h : t.WellFormed) {steps : Nat} (hsteps : t.events.length ≤ steps + 1) :
    t.walk steps [(0, t.children 0)] [.enter 0] = t.events := by
  obtain ⟨inner, hinner, -, hlt⟩ := h.exists_events
  have hevents : t.events = .enter 0 :: (inner ++ [.exit 0]) := hinner.walk_root hlt
  rw [hevents] at hsteps ⊢
  apply hinner.walk_root
  simp only [List.length_cons, List.length_append, List.length_nil] at hsteps
  omega

theorem count_enter_events (h : t.WellFormed) (id : Nat) :
    t.events.count (.enter id) = if id < t.size then 1 else 0 := by
  have hperm := h.perm_entries h.visits_events
  rw [count_enter, hperm.count_eq, List.nodup_range.count]
  simp only [List.mem_range]

theorem count_exit_events (h : t.WellFormed) (id : Nat) :
    t.events.count (.exit id) = if t.isContainer id then 1 else 0 := by
  rw [h.visits_events.count_exit, h.count_enter_events]
  split
  · next hid => rw [if_pos (lt_size_of_isContainer hid)]
  · rfl

/-- What stands between the entry and the exit of a container are the events of its descendants. -/
theorem exists_between (h : t.WellFormed) {id : Nat} (hid : t.isContainer id = true) :
    ∃ before inside after, t.events = before ++ .enter id :: (inside ++ .exit id :: after) ∧
      (∀ x, .enter x ∈ inside ↔ t.Below x id) ∧
      ∀ x, .exit x ∈ inside ↔ t.Below x id ∧ t.isContainer x = true := by
  have hmem : id ∈ entries t.events := by
    rw [(h.perm_entries h.visits_events).mem_iff, List.mem_range]
    exact lt_size_of_isContainer hid
  obtain ⟨before, inside, after, hevents, hinside⟩ := h.visits_events.exists_inside hmem hid
  have henter (x : Nat) : .enter x ∈ inside ↔ t.Below x id := by
    rw [← mem_entries, hinside.mem_entries_iff h, h.below_iff]
  refine ⟨before, inside, after, hevents, henter, fun x => ?_⟩
  rw [← henter, ← List.count_pos_iff, hinside.count_exit, ← List.count_pos_iff]
  cases t.isContainer x <;> simp

end WellFormed

end Tree

namespace Program

/-- The walk over a program enters its instructions in the order of their numbers. -/
theorem entries_trail (p : Program) (n : Nat) :
    Event.entries (p.trail n) = List.range' n p.size := by
  induction p generalizing n with
  | nil => rfl
  | op o pos rest ih => rw [trail, Event.entries_enter, ih, size, List.range'_succ]
  | loop pos body rest ihbody ih =>
    rw [trail, Event.entries_enter, Event.entries_append, Event.entries_exit, ihbody, ih, size,
      List.range'_succ, List.range'_append_1]

theorem preorder_tree (p : Program) : p.tree.preorder = List.range p.tree.size := by
  have hentries : p.tree.preorder = Event.entries p.tree.events := rfl
  rw [hentries, events_tree, Event.entries_enter, Event.entries_append, entries_trail, size_tree,
    List.range_eq_range', List.range'_succ]
  simp

end Program

namespace Tree

/-- In every table that has grown from the root by adding instructions below containers, the nodes
hang together as they should. The walk over it ends by itself, enters every node once, exits every
container once, and is nested: between the entry and the exit of a container stand the entries and
exits of its descendants and no others. In the table of a source the nodes are moreover numbered in
the order of the walk. -/
theorem grown_tables_are_walked_in_order :
    (∀ t : Tree, t.Grown →
      t.WellFormed ∧
      (∀ steps, t.events.length ≤ steps + 1 →
        t.walk steps [(0, t.children 0)] [.enter 0] = t.events) ∧
      t.Visits [0] t.events ∧
      (∀ id, t.events.count (.enter id) = if id < t.size then 1 else 0) ∧
      (∀ id, t.events.count (.exit id) = if t.isContainer id then 1 else 0) ∧
      (∀ id, t.isContainer id = true → ∃ before inside after,
        t.events = before ++ .enter id :: (inside ++ .exit id :: after) ∧
        (∀ x, .enter x ∈ inside ↔ t.Below x id) ∧
        ∀ x, .exit x ∈ inside ↔ t.Below x id ∧ t.isContainer x = true) ∧
      t.events.length = t.size + (List.range t.size).countP t.isContainer) ∧
    ∀ (src : Source) (p : Program), src.program = .ok p →
      p.tree.Grown ∧ p.tree.preorder = List.range p.tree.size := by
  constructor
  · intro t ht
    have h := ht.wellFormed
    exact ⟨h, fun _ => h.walk_eq_events, h.visits_events, h.count_enter_events,
      h.count_exit_events, fun _ => h.exists_between, h.length_visits h.visits_events⟩
  · intro src p _
    exact ⟨p.grown_tree, p.preorder_tree⟩

/-- Nodes are added to the loops 1 and 3 in turn, so the walk does not follow their numbers. The
nodes of `[+]` do. -/
theorem walk_of_interleaved_pushes :
    let t := ((((single.push 0 .loop .start).push 0 (.op .output) .start).push 1 .loop .start).push
      3 (.op .increment) .start).push 1 (.op .input) .start
    t.Grown ∧
    t.events = [.enter 0, .enter 1, .enter 3, .enter 4, .exit 3, .enter 5, .exit 1, .enter 2,
      .exit 0] ∧
    (∀ steps, 8 ≤ steps → t.walk steps [(0, [1, 2])] [.enter 0] = t.events) ∧
    t.events.count (.enter 4) = 1 ∧ t.events.count (.exit 3) = 1 ∧ t.events.count (.exit 4) = 0 ∧
    ∃ p, Source.program [91, 43, 93] = .ok p ∧ p.tree.preorder = List.range p.tree.size := by
  intro t
  have hgrown : t.Grown := by
    refine .push _ (.push _ (.push _ (.push _ (.push _ .single ?_ ?_ ?_) ?_ ?_ ?_) ?_ ?_ ?_)
      ?_ ?_ ?_) ?_ ?_ ?_ <;> decide
  obtain ⟨hwalk, hread⟩ := grown_tables_are_walked_in_order
  obtain ⟨-, hsteps, -, henter, hexit, -, -⟩ := hwalk t hgrown
  have hp : Source.program [91, 43, 93] =
      .ok (.loop ⟨1, 1, 0⟩ (.op .increment ⟨1, 2, 1⟩ .nil) .nil) := rfl
  refine ⟨hgrown, by decide, fun steps hle => ?_, henter 4, hexit 3, hexit 4, _, hp,
    (hread _ _ hp).2⟩
  exact hsteps steps (Nat.succ_le_succ hle)

end Tree

end TapeLang
