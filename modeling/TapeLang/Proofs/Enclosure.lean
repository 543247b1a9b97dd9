import TapeLang.Proofs.Reporting
import TapeLang.Proofs.Visiting

/-!
Where the nodes of a table stand in the source. The walk over the table of a source passes the
symbols of the source in order: it enters a node at the symbol that starts the instruction, and
exits a loop at its `]`. Since it enters the descendants of a loop before it exits the loop, these
are the nodes whose symbols stand between the brackets.
-/
namespace TapeLang

namespace Source

/-- The offsets of the symbols that start an instruction, which are all but `]`. -/
def instrOffsets (src : Source) : List Nat :=
  (List.range src.length).filter fun i => (src.symbolAt i).any (· ≠ .closing)

/-- Between the `[` at the first offset and its partner stands the second offset. -/
def Encloses (src : Source) (opening i : Nat) : Prop :=
  ∃ c, src.matchingClose? opening = some (some c) ∧ opening < i ∧ i < c

theorem filter_symbolOffsets (src : Source) :
    src.symbolOffsets.filter (fun i => src.symbolAt i ≠ some .closing) = src.instrOffsets := by
  rw [symbolOffsets, instrOffsets, List.filter_filter]
  apply List.filter_congr
  intro i _
  cases src.symbolAt i with
  | none => rfl
  | some s => simp

theorem pairwise_symbolOffsets (src : Source) : src.symbolOffsets.Pairwise (· < ·) :=
  List.pairwise_lt_range.filter _

end Source

theorem Kind.ofByte_eq {k : Kind} {s : Symbol} {b : UInt8} (hk : k.symbol? = some s)
    (hb : Symbol.ofByte? b = some s) : Kind.ofByte b = k := by
  cases k with
  | root => cases hk
  | op o => cases hk; rw [ofByte, hb]
  | loop => cases hk; rw [ofByte, hb]
  | none => cases hk

namespace Tree

variable {t : Tree} {src : Source} {es es' : List Event} {is : List Nat}

/-- The event stands for the symbol at the given offset: a node is entered where its instruction
starts, a loop is exited at the partner of its `[`. -/
def Marks (t : Tree) (src : Source) : Event → Nat → Prop
  | .enter id, i => ∃ n s, t.node? id = some n ∧ n.pos = src.place i ∧
      n.kind.symbol? = some s ∧ src.symbolAt i = some s
  | .exit id, i => ∃ n, t.node? id = some n ∧ src.symbolAt i = some .closing ∧
      src.matchingClose? n.pos.offset = some (some i)

theorem marks_of_call? {e : Event} {c : Call} {i : Nat} (hcall : t.call? e = some c)
    (hreport : src.Reports c i) : t.Marks src e i := by
  cases e with
  | enter id =>
    obtain ⟨n, hn, hkind⟩ := Option.bind_eq_some_iff.mp hcall
    cases hk : n.kind with
    | root => rw [hk] at hkind; cases hkind
    | none => rw [hk] at hkind; cases hkind
    | op o =>
      rw [hk] at hkind
      cases hkind
      exact ⟨n, .op o, hn, hreport.2, by rw [hk]; rfl, hreport.1⟩
    | loop =>
      rw [hk] at hkind
      cases hkind
      exact ⟨n, .opening, hn, hreport.2, by rw [hk]; rfl, hreport.1⟩
  | exit id =>
    obtain ⟨n, hn, hkind⟩ := Option.bind_eq_some_iff.mp hcall
    cases hk : n.kind with
    | root => rw [hk] at hkind; cases hkind; exact hreport.elim
    | none => rw [hk] at hkind; cases hkind
    | op o => rw [hk] at hkind; cases hkind
    | loop =>
      rw [hk] at hkind
      cases hkind
      obtain ⟨hclosing, k, hclose, hpos⟩ := hreport
      refine ⟨n, hn, hclosing, ?_⟩
      rw [hpos]
      exact hclose

end Tree

/-- The walk over the table of a source marks the symbols of the source. -/
theorem Source.marks_trail {src : Source} {p : Program} (h : src.program = .ok p) :
    List.Forall₂ (p.tree.Marks src) (p.trail 1) src.symbolOffsets := by
  have hcompose {es : List Event} {cs : List Call} {is : List Nat}
      (hcalls : List.Forall₂ (fun e c => p.tree.call? e = some c) es cs)
      (hreports : List.Forall₂ src.Reports cs is) : List.Forall₂ (p.tree.Marks src) es is := by
    induction hcalls generalizing is with
    | nil =>
      cases hreports
      exact .nil
    | cons hcall _ ih =>
      cases hreports with
      | cons hreport hrest => exact .cons (Tree.marks_of_call? hcall hreport) (ih hrest)
  exact hcompose (Tree.call?_trail p.stands_tree) (reports_spell h)

namespace Tree

variable {t : Tree} {src : Source} {es es' : List Event} {is : List Nat}

theorem marks_append (h : List.Forall₂ (t.Marks src) (es ++ es') is) :
    ∃ js ks, is = js ++ ks ∧ List.Forall₂ (t.Marks src) es js ∧
      List.Forall₂ (t.Marks src) es' ks := by
  have htake := List.forall₂_take es.length h
  have hdrop := List.forall₂_drop es.length h
  rw [List.take_left] at htake
  rw [List.drop_left] at hdrop
  exact ⟨_, _, (List.take_append_drop es.length is).symm, htake, hdrop⟩

/-- Where a node is entered in a stretch of the walk, its symbol is one of the stretch. -/
theorem offset_mem_of_marks (h : List.Forall₂ (t.Marks src) es is) {x : Nat} {n : Node}
    (hx : .enter x ∈ es) (hn : t.node? x = some n) : n.pos.offset ∈ is := by
  induction h with
  | nil => simp at hx
  | @cons e i es is hmark _ ih =>
    rcases List.mem_cons.mp hx with rfl | hx
    · obtain ⟨n', s, hn', hpos, -, -⟩ := hmark
      cases hn.symm.trans hn'
      rw [hpos]
      exact List.mem_cons_self
    · exact List.mem_cons_of_mem i (ih hx)

/-- Offsets increase along the walk, so what is entered before, inside and behind a loop stands
before, between and behind its brackets. -/
theorem marks_around {before inside after : List Event} {l : Nat} {n : Node}
    (h : List.Forall₂ (t.Marks src) (before ++ .enter l :: (inside ++ .exit l :: after)) is)
    (hincreasing : is.Pairwise (· < ·)) (hn : t.node? l = some n) :
    ∃ c, src.matchingClose? n.pos.offset = some (some c) ∧
      ∀ x n', t.node? x = some n' →
        (.enter x ∈ before → n'.pos.offset < n.pos.offset) ∧
        (.enter x ∈ inside → n.pos.offset < n'.pos.offset ∧ n'.pos.offset < c) ∧
        (.enter x ∈ after → c < n'.pos.offset) := by
  obtain ⟨os₁, rest₁, rfl, hbefore, hrest₁⟩ := marks_append h
  obtain ⟨k, rest₂, hopen, hrest₂, rfl⟩ := List.forall₂_cons_left_iff.mp hrest₁
  obtain ⟨os₂, rest₃, rfl, hinside, hrest₃⟩ := marks_append hrest₂
  obtain ⟨c, os₃, hclose, hafter, rfl⟩ := List.forall₂_cons_left_iff.mp hrest₃
  have hk : n.pos.offset = k := by
    obtain ⟨n', s, hn', hpos, -, -⟩ := hopen
    cases hn.symm.trans hn'
    rw [hpos]
    rfl
  have hc : src.matchingClose? n.pos.offset = some (some c) := by
    obtain ⟨n', hn', -, hc⟩ := hclose
    cases hn.symm.trans hn'
    exact hc
  obtain ⟨-, hfrom, hlt₁⟩ := List.pairwise_append.mp hincreasing
  obtain ⟨hlt₂, hto⟩ := List.pairwise_cons.mp hfrom
  obtain ⟨-, hlast, hlt₃⟩ := List.pairwise_append.mp hto
  have hlt₄ := (List.pairwise_cons.mp hlast).1
  refine ⟨c, hc, fun x n' hn' => ⟨fun hx => ?_, fun hx => ⟨?_, ?_⟩, fun hx => ?_⟩⟩
  · rw [hk]
    exact hlt₁ _ (offset_mem_of_marks hbefore hx hn') k List.mem_cons_self
  · rw [hk]
    exact hlt₂ _ (List.mem_append_left _ (offset_mem_of_marks hinside hx hn'))
  · exact hlt₃ _ (offset_mem_of_marks hinside hx hn') c List.mem_cons_self
  · exact hlt₄ _ (offset_mem_of_marks hafter hx hn')

theorem marks_entries (h : List.Forall₂ (t.Marks src) es is) :
    List.Forall₂ (fun id i => t.Marks src (.enter id) i) (Event.entries es)
      (is.filter fun i => src.symbolAt i ≠ some .closing) := by
  induction h with
  | nil => exact .nil
  | @cons e i es is hmark _ ih =>
    cases e with
    | enter id =>
      have hsymbols := hmark
      obtain ⟨n, s, -, -, hkind, hsymbol⟩ := hsymbols
      have hne : s ≠ .closing := by
        rintro rfl
        cases hk : n.kind <;> simp [hk, Kind.symbol?] at hkind
      rw [List.filter_cons_of_pos (by simpa [hsymbol] using hne)]
      exact .cons hmark ih
    | exit id =>
      obtain ⟨n, -, hsymbol, -⟩ := hmark
      rw [List.filter_cons_of_neg (by simp [hsymbol])]
      exact ih

end Tree

namespace Program

theorem mem_entries_trail {p : Program} {x : Nat} {n : Node} (hx : x ≠ 0)
    (hn : p.tree.node? x = some n) : x ∈ Event.entries (p.trail 1) := by
  have hlt := Tree.lt_size_of_node? hn
  rw [size_tree] at hlt
  rw [entries_trail, List.mem_range'_1]
  omega

theorem ne_zero_of_loop {p : Program} {l : Nat} {n : Node} (hn : p.tree.node? l = some n)
    (hloop : n.kind = .loop) : l ≠ 0 := by
  rintro rfl
  cases (node?_root p).symm.trans hn
  cases hloop

end Program

namespace Source

variable {src : Source} {p : Program}

/-- The descendants of a loop are the nodes whose symbols stand between its brackets. The offsets
of the symbols increase, so the stretch of the walk inside the loop is told by its two ends. -/
theorem below_iff_between (h : src.program = .ok p) {l x : Nat} {nl nx : Node}
    (hl : p.tree.node? l = some nl) (hloop : nl.kind = .loop) (hx : x ≠ 0)
    (hnx : p.tree.node? x = some nx) :
    ∃ c, src.matchingClose? nl.pos.offset = some (some c) ∧
      (p.tree.Below x l ↔ nl.pos.offset < nx.pos.offset ∧ nx.pos.offset < c) := by
  have hwf := p.grown_tree.wellFormed
  have hcontainer : p.tree.isContainer l = true :=
    Tree.isContainer_iff.mpr ⟨nl, hl, by rw [hloop]; rfl⟩
  have hlmem := Program.mem_entries_trail (Program.ne_zero_of_loop hl hloop) hl
  obtain ⟨before, inside, after, htrail, hinside⟩ :=
    (Tree.visits_trail p.stands_tree).exists_inside hlmem hcontainer
  have hbelow : p.tree.Below x l ↔ .enter x ∈ inside := by
    rw [hwf.below_iff, ← hinside.mem_entries_iff hwf, Event.mem_entries]
  have hmarks := marks_trail h
  rw [htrail] at hmarks
  obtain ⟨c, hc, haround⟩ := Tree.marks_around hmarks src.pairwise_symbolOffsets hl
  obtain ⟨hbefore, hinner, hafter⟩ := haround x nx hnx
  refine ⟨c, hc, ?_⟩
  rw [hbelow]
  refine ⟨hinner, fun ⟨hopen, hclose⟩ => ?_⟩
  have hxmem := Event.mem_entries.mp (Program.mem_entries_trail hx hnx)
  rw [htrail] at hxmem
  simp only [List.mem_append, List.mem_cons, Event.enter.injEq, reduceCtorEq, false_or] at hxmem
  rcases hxmem with hmem | rfl | hmem | hmem
  · have := hbefore hmem
    omega
  · cases hl.symm.trans hnx
    omega
  · exact hmem
  · have := hafter hmem
    omega

theorem encloses_iff_below (h : src.program = .ok p) {l x : Nat} {nl nx : Node}
    (hl : p.tree.node? l = some nl) (hloop : nl.kind = .loop) (hx : x ≠ 0)
    (hnx : p.tree.node? x = some nx) :
    src.Encloses nl.pos.offset nx.pos.offset ↔ p.tree.Below x l := by
  obtain ⟨c, hc, hbelow⟩ := below_iff_between h hl hloop hx hnx
  rw [hbelow]
  constructor
  · rintro ⟨c', hc', hbetween⟩
    cases hc.symm.trans hc'
    exact hbetween
  · exact fun hbetween => ⟨c, hc, hbetween⟩

/-- The parent of a node is the innermost loop around it, or the root if there is none. -/
theorem parent_is_innermost (h : src.program = .ok p) {x : Nat} {nx : Node} (hx : x ≠ 0)
    (hnx : p.tree.node? x = some nx) :
    ∃ c nc, nx.parent = some c ∧ p.tree.node? c = some nc ∧
      (c = 0 ∧ (∀ l nl, p.tree.node? l = some nl → nl.kind = .loop →
          ¬ src.Encloses nl.pos.offset nx.pos.offset) ∨
        nc.kind = .loop ∧ src.Encloses nc.pos.offset nx.pos.offset ∧
          ∀ l nl, p.tree.node? l = some nl → nl.kind = .loop →
            src.Encloses nl.pos.offset nx.pos.offset →
            l = c ∨ src.Encloses nl.pos.offset nc.pos.offset) := by
  have hwf := p.grown_tree.wellFormed
  obtain ⟨-, c, hparent, -, hcontainer⟩ := hwf.below x nx hx hnx
  obtain ⟨nc, hnc, hkind⟩ := Tree.isContainer_iff.mp hcontainer
  have hstep : p.tree.parent? x = some c := Option.bind_eq_some_iff.mpr ⟨nx, hnx, hparent⟩
  have haround (l : Nat) (nl : Node) (hl : p.tree.node? l = some nl) (hloop : nl.kind = .loop)
      (hencloses : src.Encloses nl.pos.offset nx.pos.offset) : c = l ∨ p.tree.Below c l := by
    have hbelow := (encloses_iff_below h hl hloop hx hnx).mp hencloses
    obtain ⟨c', hc', hwithin⟩ := Relation.TransGen.head'_iff.mp hbelow
    cases hstep.symm.trans hc'
    exact Tree.within_iff.mp hwithin
  refine ⟨c, nc, hparent, hnc, ?_⟩
  by_cases hc : c = 0
  · refine Or.inl ⟨hc, fun l nl hl hloop hencloses => ?_⟩
    rcases haround l nl hl hloop hencloses with rfl | hbelow
    · exact Program.ne_zero_of_loop hl hloop hc
    · have := hwf.below_lt hbelow
      omega
  · have hloop : nc.kind = .loop := by
      rcases Program.kind_of_node? hc hnc with ⟨o, ho⟩ | hloop
      · rw [ho] at hkind
        cases hkind
      · exact hloop
    refine Or.inr ⟨hloop, (encloses_iff_below h hnc hloop hx hnx).mpr (.single hstep), ?_⟩
    intro l nl hl hloop' hencloses
    rcases haround l nl hl hloop' hencloses with heq | hbelow
    · exact Or.inl heq.symm
    · exact Or.inr ((encloses_iff_below h hl hloop' hc hnc).mpr hbelow)

/-- In the table of an accepted source the nodes other than the root, in the order of the walk, are
the symbols other than `]`, each with the kind of its byte and with its true place. The descendants
of a loop are the nodes between its brackets, so that the parent of a node is the innermost loop
around it, or the root. -/
theorem nodes_stand_where_written (src : Source) (p : Program) (h : src.program = .ok p) :
    List.Forall₂
      (fun id i => ∃ n b, p.tree.node? id = some n ∧ src[i]? = some b ∧ n.kind = Kind.ofByte b ∧
        n.pos = src.place i)
      (p.tree.preorder.filter (· ≠ 0)) src.instrOffsets ∧
    (∀ l x nl nx, p.tree.node? l = some nl → nl.kind = .loop → x ≠ 0 →
      p.tree.node? x = some nx →
      ∃ c, src.matchingClose? nl.pos.offset = some (some c) ∧
        (p.tree.Below x l ↔ nl.pos.offset < nx.pos.offset ∧ nx.pos.offset < c)) ∧
    ∀ x nx, x ≠ 0 → p.tree.node? x = some nx →
      ∃ c nc, nx.parent = some c ∧ p.tree.node? c = some nc ∧
        (c = 0 ∧ (∀ l nl, p.tree.node? l = some nl → nl.kind = .loop →
            ¬ src.Encloses nl.pos.offset nx.pos.offset) ∨
          nc.kind = .loop ∧ src.Encloses nc.pos.offset nx.pos.offset ∧
            ∀ l nl, p.tree.node? l = some nl → nl.kind = .loop →
              src.Encloses nl.pos.offset nx.pos.offset →
              l = c ∨ src.Encloses nl.pos.offset nc.pos.offset) := by
  refine ⟨?_, fun l x nl nx hl hloop hx hnx => below_iff_between h hl hloop hx hnx,
    fun x nx hx hnx => parent_is_innermost h hx hnx⟩
  have hnodes : p.tree.preorder.filter (· ≠ 0) = Event.entries (p.trail 1) := by
    rw [p.preorder_tree, p.size_tree, p.entries_trail, List.range_eq_range', List.range'_succ,
      List.filter_cons_of_neg (by simp), List.filter_eq_self]
    intro x hx
    have := List.mem_range'_1.mp hx
    simp only [ne_eq, decide_not, Bool.not_eq_true', decide_eq_false_iff_not]
    omega
  rw [hnodes, ← filter_symbolOffsets]
  refine (Tree.marks_entries (marks_trail h)).imp fun id i hmark => ?_
  obtain ⟨n, s, hn, hpos, hkind, hsymbol⟩ := hmark
  obtain ⟨b, hb, hs⟩ := Option.bind_eq_some_iff.mp hsymbol
  exact ⟨n, b, hn, hb, (Kind.ofByte_eq hkind hs).symm, hpos⟩

/-- In `+`, a line break and `[[]-]` the last loop is empty, and the `-` behind it belongs to the
first. -/
theorem nodes_of_loops_on_second_line :
    let src : Source := [43, 10, 91, 91, 93, 45, 93]
    ∃ p, src.program = .ok p ∧ src.instrOffsets = [0, 2, 3, 5] ∧
      p.tree.node? 4 = some ⟨.op .decrement, ⟨2, 4, 5⟩, some 2, #[]⟩ ∧
      src.matchingClose? 2 = some (some 6) ∧ src.matchingClose? 3 = some (some 4) ∧
      p.tree.Below 4 2 ∧ ¬ p.tree.Below 4 3 := by
  intro src
  let p : Program := .op .increment ⟨1, 1, 0⟩ (.loop ⟨2, 1, 2⟩ (.loop ⟨2, 2, 3⟩ .nil
    (.op .decrement ⟨2, 4, 5⟩ .nil)) .nil)
  have hp : src.program = .ok p := rfl
  obtain ⟨-, hbelow, -⟩ := nodes_stand_where_written src p hp
  have h₂ : p.tree.node? 2 = some ⟨.loop, ⟨2, 1, 2⟩, some 0, #[3, 4]⟩ := p.stands_tree 1 _ rfl
  have h₃ : p.tree.node? 3 = some ⟨.loop, ⟨2, 2, 3⟩, some 2, #[]⟩ := p.stands_tree 2 _ rfl
  have h₄ : p.tree.node? 4 = some ⟨.op .decrement, ⟨2, 4, 5⟩, some 2, #[]⟩ :=
    p.stands_tree 3 _ rfl
  have hclose₂ : src.matchingClose? 2 = some (some 6) := rfl
  have hclose₃ : src.matchingClose? 3 = some (some 4) := rfl
  obtain ⟨c₂, hc₂, houter⟩ := hbelow 2 4 _ _ h₂ rfl (by decide) h₄
  obtain ⟨c₃, hc₃, hinner⟩ := hbelow 3 4 _ _ h₃ rfl (by decide) h₄
  cases hclose₂.symm.trans hc₂
  cases hclose₃.symm.trans hc₃
  exact ⟨p, hp, by decide, h₄, hclose₂, hclose₃, houter.mpr (by decide),
    fun h => absurd (hinner.mp h) (by decide)⟩

end Source

end TapeLang
