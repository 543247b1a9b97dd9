import TapeLang.Proofs.OpenBrackets
import TapeLang.Proofs.Placement
import TapeLang.Proofs.Walk
import Mathlib.Data.List.Forall2

/-!
What a program reports to a back end. The calls follow the symbols of the source one by one, each
with the place of its symbol, but leaving a loop is reported at the bracket that opens it. The walk
over the node table makes the same calls. A back end that fails is not called again.
-/
namespace TapeLang

namespace Source

/-- The offsets at which symbols stand, from `i` up to `j`. -/
def offsetsFrom (src : Source) (i j : Nat) : List Nat :=
  (List.range' i (j - i)).filter fun k => (src.symbolAt k).isSome

/-- The offsets of all symbols. -/
def symbolOffsets (src : Source) : List Nat :=
  (List.range src.length).filter fun k => (src.symbolAt k).isSome

/-- The call is that of the symbol at the given offset and carries its place, or the place of the
partner if the symbol is a `]`. -/
def Reports (src : Source) : Call → Nat → Prop
  | .op o pos, i => src.symbolAt i = some (.op o) ∧ pos = src.place i
  | .enterLoop pos, i => src.symbolAt i = some .opening ∧ pos = src.place i
  | .exitLoop pos, i => src.symbolAt i = some .closing ∧
      ∃ k, src.matchingClose? k = some (some i) ∧ pos = src.place k
  | .finish, _ => False

section Offsets

variable {src : Source} {i j k : Nat}

theorem offsetsFrom_of_blank (h : src.Blank i j) : src.offsetsFrom i j = [] := by
  rw [offsetsFrom, List.filter_eq_nil_iff]
  intro k hk
  obtain ⟨hle, hlt⟩ := List.mem_range'_1.mp hk
  rw [(h.2 k hle (by omega)).2]
  simp

theorem offsetsFrom_eq_cons {s : Symbol} (hblank : src.Blank i k) (hk : src.symbolAt k = some s)
    (hkj : k < j) : src.offsetsFrom i j = k :: src.offsetsFrom (k + 1) j := by
  have hle := hblank.1
  have hnil := offsetsFrom_of_blank hblank
  obtain ⟨m, hm⟩ : ∃ m, j - i = (k - i) + (m + 1) := ⟨j - k - 1, by omega⟩
  have hik : i + (k - i) = k := by omega
  have hrest : j - (k + 1) = m := by omega
  unfold offsetsFrom at hnil ⊢
  rw [hm, ← List.range'_append_1, List.filter_append, hnil, hik, List.range'_succ,
    List.filter_cons_of_pos (by rw [hk]; rfl), hrest]
  rfl

theorem offsetsFrom_append (hij : i ≤ k) (hkj : k ≤ j) :
    src.offsetsFrom i j = src.offsetsFrom i k ++ src.offsetsFrom k j := by
  have hlen : j - i = (k - i) + (j - k) := by omega
  have hik : i + (k - i) = k := by omega
  rw [offsetsFrom, hlen, ← List.range'_append_1, List.filter_append, hik]
  rfl

end Offsets

theorem symbolOffsets_eq (src : Source) : src.symbolOffsets = src.offsetsFrom 0 src.length := by
  rw [symbolOffsets, List.range_eq_range']
  rfl

theorem place_eq {src : Source} {k : Nat} (hk : k ≤ src.length) :
    src.place k = Position.start.after (src.take k) := by
  have h := place_initial (List.take_prefix k src)
  rwa [List.length_take_of_le hk] at h

theorem NextAt.place_eq {src : Source} {i : Nat} {s : Symbol} {pos : Position}
    (h : src.NextAt i s pos) : pos = src.place pos.offset := by
  have hlt := lt_length_of_symbolAt h.symbol
  rw [Source.place_eq (Nat.le_of_lt hlt)]
  exact h.place

theorem matchingClose?_of_symbolAt {src : Source} {k : Nat}
    (h : src.symbolAt k = some .opening) :
    src.matchingClose? k = some (src.matchingClose k) := by
  obtain ⟨b, hb, hs⟩ := Option.bind_eq_some_iff.mp h
  rw [matchingClose?, hb, ← Symbol.byte_of_ofByte? hs, if_pos rfl]

/-- Where a program is written, its calls report the symbols there. -/
theorem Written.reports {src : Source} {p : Program} {i j : Nat} (h : src.Written i p j) :
    List.Forall₂ src.Reports p.spell (src.offsetsFrom i j) := by
  induction p generalizing i j with
  | nil =>
    rw [offsetsFrom_of_blank h]
    exact .nil
  | op o pos rest ih =>
    obtain ⟨hnext, hrest⟩ := h
    have hle := hrest.spans.le
    rw [offsetsFrom_eq_cons hnext.blank hnext.symbol hle]
    exact .cons ⟨hnext.symbol, hnext.place_eq⟩ (ih hrest)
  | loop pos body rest ihbody ih =>
    obtain ⟨hnext, c, hbody, hc, hrest⟩ := h
    have hle := hbody.spans.le
    have hlt := hrest.spans.le
    have hclose : src.matchingClose? pos.offset = some (some c) := by
      rw [matchingClose?_of_symbolAt hnext.symbol, matchingClose_of_spans hbody.spans hc]
    rw [offsetsFrom_eq_cons hnext.blank hnext.symbol (by omega),
      offsetsFrom_append hle (Nat.le_of_lt hlt), offsetsFrom_eq_cons (Blank.refl src c) hc hlt]
    exact .cons ⟨hnext.symbol, hnext.place_eq⟩ (List.rel_append (ihbody hbody)
      (.cons ⟨hc, pos.offset, hclose, hnext.place_eq⟩ (ih hrest)))

theorem reports_spell {src : Source} {p : Program} (h : src.program = .ok p) :
    List.Forall₂ src.Reports p.spell src.symbolOffsets := by
  rw [symbolOffsets_eq]
  exact (written_of_program h).reports

end Source

namespace Tree

/-- What a step of the walk over a table says to a back end. The root is entered silently, and the
program ends where it is exited. -/
def call? (t : Tree) : Event → Option Call
  | .enter id =>
    (t.node? id).bind fun n =>
      match n.kind with
      | .op o => some (.op o n.pos)
      | .loop => some (.enterLoop n.pos)
      | _ => none
  | .exit id =>
    (t.node? id).bind fun n =>
      match n.kind with
      | .loop => some (.exitLoop n.pos)
      | .root => some .finish
      | _ => none

/-- Step by step, the walk over a program's nodes makes the program's calls. -/
theorem call?_trail {t : Tree} {n : Nat} {p : Program} {parent : Nat}
    (h : t.Stands n (p.table parent n)) :
    List.Forall₂ (fun e c => t.call? e = some c) (p.trail n) p.spell := by
  induction p generalizing parent n with
  | nil => exact .nil
  | op o pos rest ih =>
    have henter : t.call? (.enter n) = some (.op o pos) := by
      rw [call?, h.head]
      rfl
    exact .cons henter (ih h.tail)
  | loop pos body rest ihbody ih =>
    have henter : t.call? (.enter n) = some (.enterLoop pos) := by
      rw [call?, h.head]
      rfl
    have hexit : t.call? (.exit n) = some (.exitLoop pos) := by
      rw [call?, h.head]
      rfl
    exact .cons henter (List.rel_append (ihbody h.loop_body) (.cons hexit (ih h.loop_rest)))

theorem filterMap_of_call? {t : Tree} {es : List Event} {cs : List Call}
    (h : List.Forall₂ (fun e c => t.call? e = some c) es cs) : es.filterMap t.call? = cs := by
  induction h with
  | nil => rfl
  | cons hcall _ ih => rw [List.filterMap_cons_some hcall, ih]

end Tree

namespace Program

theorem filterMap_call?_events (p : Program) :
    p.tree.events.filterMap p.tree.call? = p.calls := by
  have henter : p.tree.call? (.enter 0) = none := by
    rw [Tree.call?, node?_root]
    rfl
  have hexit : p.tree.call? (.exit 0) = some .finish := by
    rw [Tree.call?, node?_root]
    rfl
  rw [events_tree, List.filterMap_cons_none henter, List.filterMap_append,
    Tree.filterMap_of_call? (Tree.call?_trail p.stands_tree), List.filterMap_cons_some hexit,
    calls_eq]
  rfl

end Program

section Failure

variable {ε σ : Type} {backEnd : Call → EStateM ε σ Unit} {s s₁ s₂ : σ} {e : ε}

/-- A back end that also keeps the calls made to it, the failed one included. -/
def recording (backEnd : Call → EStateM ε σ Unit) (c : Call) : EStateM ε (σ × List Call) Unit :=
  fun (s, made) =>
    match backEnd c s with
    | .ok () s' => .ok () (s', made ++ [c])
    | .error e s' => .error e (s', made ++ [c])

theorem forM_cons_of_ok {c : Call} {cs : List Call} (h : backEnd c s = .ok () s₁) :
    (c :: cs).forM backEnd s = cs.forM backEnd s₁ := by
  show EStateM.bind (backEnd c) (fun _ => cs.forM backEnd) s = _
  rw [EStateM.bind, h]

theorem forM_cons_of_error {c : Call} {cs : List Call} (h : backEnd c s = .error e s₁) :
    (c :: cs).forM backEnd s = .error e s₁ := by
  show EStateM.bind (backEnd c) (fun _ => cs.forM backEnd) s = _
  rw [EStateM.bind, h]

/-- The calls made before a failure are followed by the failing one and by no other. -/
theorem forM_append_of_error {made : List Call} {c : Call}
    (h : made.forM backEnd s = .ok () s₁) (hc : backEnd c s₁ = .error e s₂) (rest : List Call) :
    (made ++ c :: rest).forM backEnd s = .error e s₂ := by
  induction made generalizing s with
  | nil =>
    cases h
    exact forM_cons_of_error hc
  | cons a made ih =>
    cases ha : backEnd a s with
    | ok u s' =>
      rw [forM_cons_of_ok ha] at h
      rw [List.cons_append, forM_cons_of_ok ha]
      exact ih h
    | error e' s' =>
      rw [forM_cons_of_error ha] at h
      cases h

theorem forM_of_error_at {cs : List Call} {k : Nat} {c : Call} (hk : cs[k]? = some c)
    (h : (cs.take k).forM backEnd s = .ok () s₁) (hc : backEnd c s₁ = .error e s₂) :
    cs.forM backEnd s = .error e s₂ := by
  obtain ⟨hlt, rfl⟩ := List.getElem?_eq_some_iff.mp hk
  have hsplit : cs.take k ++ cs[k] :: cs.drop (k + 1) = cs := by
    rw [← List.drop_eq_getElem_cons hlt, List.take_append_drop]
  have hall := forM_append_of_error h hc (cs.drop (k + 1))
  rwa [hsplit] at hall

theorem forM_recording {cs : List Call} (h : cs.forM backEnd s = .ok () s₁) (made : List Call) :
    cs.forM (recording backEnd) (s, made) = .ok () (s₁, made ++ cs) := by
  induction cs generalizing s made with
  | nil =>
    cases h
    rw [List.append_nil]
    rfl
  | cons c cs ih =>
    cases hc : backEnd c s with
    | ok u s' =>
      have hrecord : recording backEnd c (s, made) = .ok () (s', made ++ [c]) := by
        simp only [recording, hc]
      rw [forM_cons_of_ok hc] at h
      rw [forM_cons_of_ok hrecord, ih h, List.append_assoc]
      rfl
    | error e s' =>
      rw [forM_cons_of_error hc] at h
      cases h

end Failure

namespace Source

/-- The calls of an accepted source are those of its symbols, in order and each with its place,
leaving a loop having the place of the `[`; one finish comes last. They are the calls that walking
over the node table leads to. A back end that succeeds is given all of them. One that fails after
`k` calls is given these, the failing one and no more, and its error is the answer. -/
theorem calls_report_the_source (src : Source) (p : Program) (h : src.program = .ok p) :
    (∃ reported, p.calls = reported ++ [.finish] ∧
      reported.map Call.symbol? = src.symbols.map some ∧
      List.Forall₂ src.Reports reported src.symbolOffsets) ∧
    p.tree.events.filterMap p.tree.call? = p.calls ∧
    ∀ (ε σ : Type) (backEnd : Call → EStateM ε σ Unit) (s : σ),
      (∀ s', translate backEnd p s = .ok () s' →
        translate (recording backEnd) p (s, []) = .ok () (s', p.calls)) ∧
      ∀ (k : Nat) (c : Call) (s₁ s₂ : σ) (e : ε), p.calls[k]? = some c →
        (p.calls.take k).forM backEnd s = .ok () s₁ → backEnd c s₁ = .error e s₂ →
        translate backEnd p s = .error e s₂ ∧
        translate (recording backEnd) p (s, []) = .error e (s₂, p.calls.take (k + 1)) := by
  refine ⟨⟨p.spell, p.calls_eq, ?_, reports_spell h⟩, p.filterMap_call?_events, ?_⟩
  · rw [← symbols_of_program h, p.map_symbol?_spell]
  · intro ε σ backEnd s
    refine ⟨fun s' hok => forM_recording hok [], ?_⟩
    intro k c s₁ s₂ e hk hmade hfail
    have hrecord : recording backEnd c (s₁, p.calls.take k) =
        .error e (s₂, p.calls.take (k + 1)) := by
      simp only [recording, hfail, List.take_add_one, hk, Option.toList_some]
    exact ⟨forM_of_error_at hk hmade hfail, forM_of_error_at hk (forM_recording hmade []) hrecord⟩

/-- The calls of `,[>+⏎]` and a back end that has room for three of them. -/
theorem calls_of_loop_over_two_lines :
    let src : Source := [44, 91, 62, 43, 10, 93]
    let backEnd : Call → EStateM String Nat Unit := fun _ room =>
      if room = 0 then .error "no room" room else .ok () (room - 1)
    ∃ p, src.program = .ok p ∧
      p.calls = [.op .input ⟨1, 1, 0⟩, .enterLoop ⟨1, 2, 1⟩, .op .moveRight ⟨1, 3, 2⟩,
        .op .increment ⟨1, 4, 3⟩, .exitLoop ⟨1, 2, 1⟩, .finish] ∧
      src.symbolOffsets = [0, 1, 2, 3, 5] ∧ src.matchingClose? 1 = some (some 5) ∧
      List.Forall₂ src.Reports p.spell src.symbolOffsets ∧
      translate (recording backEnd) p (3, []) = .error "no room" (0, p.calls.take 4) := by
  intro src backEnd
  have hp : src.program = .ok (.op .input ⟨1, 1, 0⟩ (.loop ⟨1, 2, 1⟩ (.op .moveRight ⟨1, 3, 2⟩
      (.op .increment ⟨1, 4, 3⟩ .nil)) .nil)) := rfl
  obtain ⟨⟨reported, hcalls, -, hreports⟩, -, hfailure⟩ := calls_report_the_source src _ hp
  refine ⟨_, hp, by simp [Program.calls_eq, Program.spell], by decide, by decide, ?_, ?_⟩
  · rw [Program.calls_eq] at hcalls
    rw [List.append_cancel_right hcalls]
    exact hreports
  · have hcalls' := Program.calls_eq (.op .input ⟨1, 1, 0⟩ (.loop ⟨1, 2, 1⟩
      (.op .moveRight ⟨1, 3, 2⟩ (.op .increment ⟨1, 4, 3⟩ .nil)) .nil))
    refine ((hfailure String Nat backEnd 3).2 3 (.op .increment ⟨1, 4, 3⟩) 0 0 "no room" ?_ ?_
      rfl).2
    · rw [hcalls']
      rfl
    · rw [hcalls']
      rfl

end Source

end TapeLang
