import TapeLang.Asserted
import TapeLang.Proofs.Growth
import TapeLang.Proofs.Pairing
import Mathlib.Data.List.Forall2

/-!
Reading a source meets every assertion. Pairing the brackets fills only slots that have been opened,
whatever the source. In a balanced source the innermost loop under construction ends exactly at the
next `]` that belongs to it, so every `]` is taken as the end of a loop.
-/
namespace TapeLang

open Source

namespace Asserted

namespace Brackets

/-- The pass keeps what the scan and the pairing of the scanned tokens keep, and has opened all the
slots that wait. -/
structure Mirrors (s : Brackets) (scan : Scan) : Prop where
  pos : s.pos = scan.pos
  places : s.unclosed.map Prod.snd = scan.unclosed
  pairing : Pairing.ofTokens scan.tokens.reverse = ⟨s.closes, s.unclosed.map Prod.fst⟩
  opened : ∀ bracket ∈ s.unclosed, bracket.1 < s.closes.size

/-- Both go on, or both stop for the same cause. -/
inductive Agrees : Except Stop Brackets → Except SourceError Scan → Prop
  | ok {s : Brackets} {scan : Scan} (h : s.Mirrors scan) : Agrees (.ok s) (.ok scan)
  | error (e : SourceError) : Agrees (.error (.ofSource e)) (.error e)

variable {s : Brackets} {scan : Scan} {b : UInt8} {sym : Symbol}

theorem mirrors_start : Mirrors {} {} where
  pos := rfl
  places := rfl
  pairing := rfl
  opened := fun _ h => absurd h List.not_mem_nil

theorem ofTokens_append (ts : List Token) (t : Token) :
    Pairing.ofTokens (ts ++ [t]) = (Pairing.ofTokens ts).read t := by
  rw [Pairing.ofTokens, List.foldl_append]
  rfl

theorem Mirrors.read (h : s.Mirrors scan) (hb : Symbol.ofByte? b = some sym) :
    Agrees (s.read b) (scan.read sym) := by
  have hpairing := ofTokens_append scan.tokens.reverse ⟨scan.pos, sym⟩
  rw [← List.reverse_cons, h.pairing] at hpairing
  cases sym with
  | op o =>
    simp only [Brackets.read, hb]
    exact .ok ⟨h.pos, h.places, hpairing, h.opened⟩
  | opening =>
    simp only [Brackets.read, hb]
    refine .ok ⟨h.pos, ?_, hpairing, ?_⟩
    · rw [List.map_cons, h.places, h.pos]
    · intro bracket hmem
      rw [Array.size_push]
      rcases List.mem_cons.mp hmem with rfl | hmem
      · exact Nat.lt_succ_self _
      · exact Nat.lt_succ_of_lt (h.opened bracket hmem)
  | closing =>
    have hplaces := h.places
    cases hunclosed : s.unclosed with
    | nil =>
      rw [hunclosed, List.map_nil] at hplaces
      simp only [Brackets.read, hb, hunclosed, Scan.read, ← hplaces, h.pos]
      exact .error (.bracket ⟨scan.pos, .unmatchedClosing⟩)
    | cons bracket outer =>
      have hopened := h.opened
      rw [hunclosed] at hplaces hpairing hopened
      have hslot := hopened bracket List.mem_cons_self
      simp only [Brackets.read, hb, hunclosed, require_of hslot, ok_bind, Scan.read, ← hplaces,
        List.map_cons]
      refine .ok ⟨h.pos, rfl, ?_, ?_⟩
      · rw [h.pos]
        exact hpairing
      · intro other hother
        rw [Array.size_setIfInBounds]
        exact hopened other (List.mem_cons_of_mem _ hother)

theorem Mirrors.advance (h : s.Mirrors scan) (b : UInt8) :
    Agrees (do return { s with pos := ← Asserted.advance s.pos b }) (scan.advance b) := by
  rw [Asserted.advance, h.pos, Scan.advance]
  cases scan.pos.advance? b with
  | none => exact .error .positionLimit
  | some pos => exact .ok ⟨rfl, h.places, h.pairing, h.opened⟩

theorem Mirrors.step (h : s.Mirrors scan) (b : UInt8) : Agrees (s.step b) (scan.step b) := by
  unfold Brackets.step Scan.step
  cases hb : Symbol.ofByte? b with
  | none =>
    simp only [Brackets.read, hb]
    exact h.advance b
  | some sym =>
    have hread := h.read hb
    simp only
    generalize s.read b = x, scan.read sym = y at hread
    cases hread with
    | ok h' => exact h'.advance b
    | error e => exact .error e

theorem Mirrors.run (h : s.Mirrors scan) (src : Source) :
    Agrees (src.foldlM Brackets.step s) (scan.run src) := by
  induction src generalizing s scan with
  | nil => exact .ok h
  | cons b rest ih =>
    have hstep := h.step b
    rw [List.foldlM_cons, Scan.run]
    generalize s.step b = x, scan.step b = y at hstep
    cases hstep with
    | ok h' => exact ih h'
    | error e => exact .error e

theorem Mirrors.finish (h : s.Mirrors scan) : s.finish =
    (scan.finish.map fun ts => (Pairing.ofTokens ts).closes).mapError .ofSource := by
  rw [Brackets.finish, Scan.finish, ← h.places, List.getLast?_map]
  cases s.unclosed.getLast? with
  | none =>
    show Except.ok s.closes = .ok (Pairing.ofTokens scan.tokens.reverse).closes
    rw [h.pairing]
  | some bracket => rfl

end Brackets

/-- Pairing the brackets of a source can only fail for one assertion, that of the places. -/
theorem closings_eq (src : Source) : closings src = src.closings.mapError .ofSource := by
  have hrun := Brackets.mirrors_start.run src
  rw [closings, Source.closings, Source.tokens]
  generalize src.foldlM Brackets.step {} = x, Scan.run {} src = y at hrun
  cases hrun with
  | ok h => exact h.finish
  | error e => rfl

theorem validate_eq (src : Source) : validate src = src.validate.mapError .ofSource := by
  rw [validate, closings_eq, Source.closings, Source.validate]
  cases src.tokens <;> rfl

/-- A line of comment that reaches the last column is not read to its end. -/
theorem run_long_line {s : Scan} {b : UInt8} {n : Nat} (hb : Symbol.ofByte? b = none)
    (hline : b ≠ 10) (hcolumn : s.pos.column + n + 1 = UInt32.size)
    (hfits : s.pos.line < UInt32.size) (hoffset : s.pos.offset + n < UInt64.size) :
    s.run (List.replicate (n + 1) b) = .error .positionLimit := by
  have hnext : s.pos.next b = ⟨s.pos.line, s.pos.column + 1, s.pos.offset + 1⟩ := if_neg hline
  induction n generalizing s with
  | zero =>
    have hover : ¬ (s.pos.next b).Fits := by
      rw [hnext]
      rintro ⟨-, hlast, -⟩
      exact Nat.lt_irrefl _ (hcolumn ▸ hlast)
    rw [List.replicate_succ, Scan.run, Scan.step, hb]
    simp only [Scan.advance, Position.advance?, if_neg hover]
  | succ n ih =>
    have hroom : (s.pos.next b).Fits := by
      rw [hnext]
      exact ⟨hfits, by show s.pos.column + 1 < _; omega, by show s.pos.offset + 1 < _; omega⟩
    have hadvance := Position.advance?_eq_some.mpr ⟨hroom, hnext.symm⟩
    rw [List.replicate_succ, Scan.run, Scan.step, hb]
    simp only [Scan.advance, hadvance]
    refine ih (s := { s with pos := ⟨s.pos.line, s.pos.column + 1, s.pos.offset + 1⟩ }) ?_ hfits ?_
      (if_neg hline)
    · show s.pos.column + 1 + n + 1 = _
      omega
    · show s.pos.offset + 1 + n < _
      omega

/-- On one line there is room for 2³² − 2 bytes and no more. -/
theorem validate_of_long_line {b : UInt8} (hb : Symbol.ofByte? b = none) (hline : b ≠ 10) :
    validate (List.replicate (UInt32.size - 1) b) = .error (.assertion .placeFits) := by
  have hrun : Scan.run {} (List.replicate (UInt32.size - 2 + 1) b) = .error .positionLimit :=
    run_long_line hb hline (by decide) (by decide) (by decide)
  have hlength : UInt32.size - 1 = UInt32.size - 2 + 1 := by decide
  rw [validate_eq, Source.validate, Source.tokens, hlength, hrun]
  rfl

end Asserted

/-- The call that a token stands for. A `]` does not tell where its loop begins, so its own place
stands in for that. -/
def Call.ofToken (t : Token) : Call :=
  match t.value with
  | .op o => .op o t.pos
  | .opening => .enterLoop t.pos
  | .closing => .exitLoop t.pos

namespace Tree.Builder

theorem size_foldl_visit_le (cs : List Call) (b : Builder) :
    (cs.foldl visit b).tree.size ≤ b.tree.size + cs.length := by
  induction cs generalizing b with
  | nil => exact Nat.le_refl _
  | cons c cs ih =>
    have hcall : (b.visit c).tree.size ≤ b.tree.size + 1 := by
      cases c <;> simp [visit, push, size]
    have hrest := ih (b.visit c)
    rw [List.foldl_cons, List.length_cons]
    omega

theorem size_le_foldl_visit (cs : List Call) (b : Builder) :
    b.tree.size ≤ (cs.foldl visit b).tree.size := by
  induction cs generalizing b with
  | nil => exact Nat.le_refl _
  | cons c cs ih =>
    have hcall : b.tree.size ≤ (b.visit c).tree.size := by
      cases c <;> simp [visit, push, size]
    exact Nat.le_trans hcall (ih (b.visit c))

/-- A builder does not look at the place at which a loop is left. -/
theorem foldl_visit_ofToken {cs : List Call} {ts : List Token}
    (hsymbols : cs.map Call.symbol? = ts.map fun t => some t.value)
    (hheads : cs.filterMap Call.head? = ts.filter (·.value ≠ .closing)) (b : Builder) :
    (ts.map Call.ofToken).foldl visit b = cs.foldl visit b := by
  induction cs generalizing ts b with
  | nil =>
    obtain rfl : ts = [] := List.map_eq_nil_iff.mp hsymbols.symm
    rfl
  | cons c cs ih =>
    obtain ⟨t, ts, rfl⟩ : ∃ t ts', ts = t :: ts' := by
      cases ts with
      | nil => cases hsymbols
      | cons t ts => exact ⟨t, ts, rfl⟩
    obtain ⟨pos, sym⟩ := t
    obtain ⟨hsymbol, hrest⟩ := List.cons.inj hsymbols
    cases c with
    | op o place =>
      obtain rfl : Symbol.op o = sym := Option.some.inj hsymbol
      rw [List.filter_cons_of_pos (by simp)] at hheads
      obtain ⟨hhead, hothers⟩ := List.cons.inj hheads
      cases hhead
      exact ih hrest hothers _
    | enterLoop place =>
      obtain rfl : Symbol.opening = sym := Option.some.inj hsymbol
      rw [List.filter_cons_of_pos (by simp)] at hheads
      obtain ⟨hhead, hothers⟩ := List.cons.inj hheads
      cases hhead
      exact ih hrest hothers _
    | exitLoop place =>
      obtain rfl : Symbol.closing = sym := Option.some.inj hsymbol
      rw [List.filter_cons_of_neg (by simp)] at hheads
      exact ih hrest hheads _
    | finish => cases hsymbol

end Tree.Builder

namespace Source

/-- The table of the symbols of a text, as far as they go. -/
def builder (src : Source) : Tree.Builder :=
  ((src.located .start).map Call.ofToken).foldl Tree.Builder.visit {}

theorem builder_of_program {src : Source} {p : Program} (h : src.program = .ok p) :
    src.builder.tree = p.tree := by
  have hsymbols : p.spell.map Call.symbol? =
      (src.located .start).map fun t => some t.value := by
    rw [p.map_symbol?_spell, symbols_of_program h, ← map_value_located .start src, List.map_map]
    rfl
  have hfold := Tree.Builder.foldl_visit_ofToken hsymbols (heads_of_program h) {}
  rw [builder, hfold, Program.tree, Program.calls_eq, List.foldl_append]
  rfl

variable {u : Source} {b : UInt8}

theorem grows_builder (u : Source) : u.builder.Grows := Tree.Builder.grows_start.foldl _

theorem size_builder_le (u : Source) : u.builder.tree.size ≤ u.length + 1 := by
  have hsize := Tree.Builder.size_foldl_visit_le ((u.located .start).map Call.ofToken) {}
  have hsymbols : (u.located .start).length ≤ u.length := by
    rw [← List.length_map (f := Located.value), map_value_located]
    exact List.length_filterMap_le _ _
  have hsingle : ({} : Tree.Builder).tree.size = 1 := rfl
  rw [List.length_map, hsingle] at hsize
  unfold builder
  omega

theorem size_builder_append_le (u v : Source) :
    u.builder.tree.size ≤ (builder (u ++ v)).tree.size := by
  rw [builder, builder, located_append, List.map_append, List.foldl_append]
  exact Tree.Builder.size_le_foldl_visit _ _

theorem builder_comment (hb : Symbol.ofByte? b = none) : builder (u ++ [b]) = u.builder := by
  rw [builder, located_append, located, hb, List.map_append, List.foldl_append]
  rfl

theorem builder_symbol {s : Symbol} (hb : Symbol.ofByte? b = some s) :
    builder (u ++ [b]) = u.builder.visit (.ofToken ⟨Position.start.after u, s⟩) := by
  rw [builder, located_append, located, hb, List.map_append, List.foldl_append]
  rfl

end Source

namespace Asserted

theorem node_of {t : Tree} {id : Nat} {n : Node} (h : t.node? id = some n) :
    node t id = .ok n := by
  rw [node, h]
  rfl

theorem push_of {t : Tree} {parent : Nat} {kind : Kind} (pos : Position)
    (hparent : t.isContainer parent = true) (hroot : kind ≠ .root) (hnone : kind ≠ .none)
    (hsize : t.size < UInt32.size) :
    push t parent kind pos = .ok (t.size, t.push parent kind pos) := by
  obtain ⟨n, hn, hcontainer⟩ := Tree.isContainer_iff.mp hparent
  simp only [push, node_of hn, ok_bind, require_of hcontainer, require_of (And.intro hroot hnone),
    require_of hsize]
  rfl

namespace Construction

/-- The construction has read a part of the source: its table is the one of this part, and it
knows for each bracket that this part leaves open where in the source its partner stands. -/
structure Follows (c : Construction) (src u : Source) : Prop where
  pos : c.pos = Position.start.after u
  nextLoop : c.nextLoop = u.opened
  tree : c.tree = u.builder.tree
  containers : u.builder.containers = c.bodies.map Body.node ++ [0]
  bodies : ∃ stack, u.LeavesOpen stack ∧
    List.Forall₂ (fun body before => src.matchingClose before.length = some body.close)
      c.bodies stack

theorem follows_nil (src : Source) : Follows {} src [] where
  pos := rfl
  nextLoop := rfl
  tree := rfl
  containers := rfl
  bodies := ⟨[], balanced_nil, .nil⟩

variable {c : Construction} {src u rest : Source} {b : UInt8} {closes : Array Nat}

theorem Follows.parent_eq (h : c.Follows src u) : c.parent = u.builder.parent := by
  rw [parent, Tree.Builder.parent, h.containers]
  cases c.bodies <;> rfl

theorem Follows.push_eq (h : c.Follows src u) (kind : Kind) (hroot : kind ≠ .root)
    (hnone : kind ≠ .none) (hsize : u.builder.tree.size < UInt32.size) :
    push c.tree c.parent kind c.pos =
      .ok (c.tree.size, u.builder.tree.push u.builder.parent kind (Position.start.after u)) := by
  rw [h.parent_eq, h.tree, h.pos]
  exact push_of _ u.grows_builder.parent hroot hnone hsize

theorem size_builder_lt {s : Symbol} (hsrc : src = u ++ b :: rest) (hb : Symbol.ofByte? b = some s)
    (hs : s ≠ .closing) (hnumbers : src.builder.tree.size ≤ UInt32.size) :
    u.builder.tree.size < UInt32.size := by
  have hgrows : (builder (u ++ [b])).tree.size = u.builder.tree.size + 1 := by
    rw [builder_symbol hb]
    cases s with
    | op o => simp [Call.ofToken, Tree.Builder.visit, Tree.push, Tree.size]
    | opening => simp [Call.ofToken, Tree.Builder.visit, Tree.push, Tree.size]
    | closing => exact absurd rfl hs
  have hle := size_builder_append_le (u ++ [b]) rest
  rw [← List.append_cons, ← hsrc] at hle
  omega

/-- A byte other than `]` does not stand where a loop ends. -/
theorem Follows.not_close (h : c.Follows src u) (hsrc : src = u ++ b :: rest)
    (hc : b ≠ Symbol.closing.byte) :
    ¬ c.bodies.head?.any fun body => body.close = c.pos.offset := by
  obtain ⟨stack, -, hbodies⟩ := h.bodies
  generalize c.bodies = bodies at hbodies
  cases hbodies with
  | nil => exact Bool.false_ne_true
  | @cons body before bodies stack hclose _ =>
    obtain ⟨-, hbyte, -⟩ := matchingClose_eq_some_iff.mp hclose
    have hplace : c.pos.offset = u.length := by rw [h.pos, offset_after_start]
    intro hend
    have heq : body.close = u.length := by simpa [hplace] using hend
    rw [heq, hsrc, List.getElem?_append_right (Nat.le_refl _), Nat.sub_self] at hbyte
    exact hc (Option.some.inj hbyte)

/-- The pass over the brackets has an answer for the bracket that comes next. -/
theorem found_close (hcloses : closes.toList.map some = src.partners)
    (hsrc : src = u ++ Symbol.opening.byte :: rest) :
    ∃ close, closes[u.opened]? = some close ∧ src.matchingClose u.length = some close := by
  have hfirst : (u.idxsOf Symbol.opening.byte 0).length = u.opened := List.length_idxsOf
  have hpartner : src.partners[u.opened]? = some (src.matchingClose u.length) := by
    rw [partners, List.getElem?_map, hsrc, List.idxsOf_append, List.idxsOf_cons,
      if_pos (beq_self_eq_true _), ← hfirst, List.getElem?_append_right (Nat.le_refl _),
      Nat.sub_self, List.getElem?_cons_zero, Nat.zero_add]
    rfl
  rw [← hcloses, List.getElem?_map, Array.getElem?_toList] at hpartner
  obtain ⟨close, hclose, hsome⟩ := Option.map_eq_some_iff.mp hpartner
  exact ⟨close, hclose, hsome.symm⟩

/-- What reading one more byte has to establish. -/
def Reads (closes : Array Nat) (c : Construction) (src u : Source) (b : UInt8) : Prop :=
  ∃ c', c.read closes b = .ok c' ∧ c'.pos = c.pos ∧
    Follows { c' with pos := Position.start.after (u ++ [b]) } src (u ++ [b])

theorem Follows.opening (h : c.Follows src u) (hcloses : closes.toList.map some = src.partners)
    (hsrc : src = u ++ Symbol.opening.byte :: rest) (hlen : u.length + 1 < UInt64.size)
    (hnumbers : src.builder.tree.size ≤ UInt32.size) :
    c.Reads closes src u Symbol.opening.byte := by
  obtain ⟨close, hclose, hmatch⟩ := found_close hcloses hsrc
  obtain ⟨stack, hstack, hbodies⟩ := h.bodies
  have hcount : u.opened + 1 < UInt64.size := by
    have hle : u.opened ≤ u.length := List.count_le_length
    omega
  have hkind : Kind.ofByte Symbol.opening.byte = .loop := rfl
  have hnext : c.nextLoop = u.opened := h.nextLoop
  have hsize := size_builder_lt hsrc (Symbol.ofByte?_byte .opening) (by decide) hnumbers
  have hpush := h.push_eq .loop (by simp) (by simp) hsize
  have hbuilder := builder_symbol (u := u) (Symbol.ofByte?_byte .opening)
  refine ⟨⟨c.pos, (builder (u ++ [Symbol.opening.byte])).tree, ⟨c.tree.size, close⟩ :: c.bodies,
    u.opened + 1⟩, ?_, rfl, rfl, ?_, rfl, ?_, ?_⟩
  · rw [Construction.read, if_neg (h.not_close hsrc opening_ne_closing), hbuilder]
    simp only [add, hkind, hnext, hclose, found, ok_bind, count_of hcount, hpush]
    rfl
  · rw [opened_append]
    rfl
  · rw [hbuilder, h.tree]
    exact congrArg _ h.containers
  · exact ⟨u :: stack, hstack.opening, .cons hmatch hbodies⟩

theorem Follows.closing (h : c.Follows src u) (hsheltered : Sheltered 0 src)
    (hsrc : src = u ++ Symbol.closing.byte :: rest) :
    c.Reads closes src u Symbol.closing.byte := by
  obtain ⟨stack, hstack, hbodies⟩ := h.bodies
  have hcontainers := h.containers
  have hclosing : Sheltered 0 (u ++ [Symbol.closing.byte]) := by
    rw [hsrc, List.append_cons] at hsheltered
    exact (sheltered_append.mp hsheltered).1
  obtain ⟨before, outer, rfl⟩ := hstack.exists_innermost hclosing
  obtain ⟨body, bodies, hclose, houter, heq⟩ := List.forall₂_cons_right_iff.mp hbodies
  have hbuilder := builder_symbol (u := u) (Symbol.ofByte?_byte .closing)
  have hend : body.close = u.length := by
    obtain ⟨inner, rfl, hinner, -⟩ := hstack
    have hmatch : src.matchingClose before.length =
        some (before ++ Symbol.opening.byte :: inner).length := by
      refine matchingClose_eq_some_iff.mpr ⟨?_, ?_, ?_⟩
      · rw [List.length_append, List.length_cons]
        omega
      · rw [hsrc]
        simp
      · rw [hsrc, List.take_left, List.drop_length_add_append]
        exact hinner
    rw [hmatch] at hclose
    exact (Option.some.inj hclose).symm
  have hplace : c.pos.offset = u.length := by rw [h.pos, offset_after_start]
  refine ⟨{ c with bodies }, ?_, rfl, rfl, ?_, ?_, ?_, ?_⟩
  · rw [Construction.read, heq, if_pos (by simp [hend, hplace])]
    rfl
  · rw [opened_append, h.nextLoop]
    rfl
  · rw [hbuilder]
    exact h.tree
  · rw [heq] at hcontainers
    rw [hbuilder]
    exact congrArg List.tail hcontainers
  · exact ⟨outer, hstack.closing, houter⟩

theorem Follows.op {o : Op} (h : c.Follows src u) (hsrc : src = u ++ b :: rest)
    (hb : Symbol.ofByte? b = some (.op o)) (ho : b ≠ Symbol.opening.byte)
    (hc : b ≠ Symbol.closing.byte) (hnumbers : src.builder.tree.size ≤ UInt32.size) :
    c.Reads closes src u b := by
  obtain ⟨stack, hstack, hbodies⟩ := h.bodies
  have hkind : Kind.ofByte b = .op o := by rw [Kind.ofByte, hb]
  have hpush := h.push_eq (.op o) (by simp) (by simp) (size_builder_lt hsrc hb nofun hnumbers)
  have hbuilder := builder_symbol (u := u) hb
  refine ⟨{ c with tree := (builder (u ++ [b])).tree }, ?_, rfl, rfl, ?_, rfl, ?_, ?_⟩
  · rw [Construction.read, if_neg (h.not_close hsrc hc), hbuilder]
    simp only [add, hkind, hpush, ok_bind]
    rfl
  · rw [opened_append, opened_of_ne ho, h.nextLoop]
    rfl
  · rw [hbuilder]
    exact h.containers
  · exact ⟨stack, hstack.append (balanced_singleton ho hc), hbodies⟩

theorem Follows.comment (h : c.Follows src u) (hsrc : src = u ++ b :: rest)
    (hb : Symbol.ofByte? b = none) (ho : b ≠ Symbol.opening.byte) (hc : b ≠ Symbol.closing.byte) :
    c.Reads closes src u b := by
  obtain ⟨stack, hstack, hbodies⟩ := h.bodies
  have hkind : Kind.ofByte b = .none := by rw [Kind.ofByte, hb]
  have hbuilder := builder_comment (u := u) hb
  refine ⟨c, ?_, rfl, rfl, ?_, ?_, ?_, ?_⟩
  · rw [Construction.read, if_neg (h.not_close hsrc hc)]
    simp only [add, hkind, require_of hc, ok_bind]
    rfl
  · rw [opened_append, opened_of_ne ho, h.nextLoop]
    rfl
  · rw [hbuilder]
    exact h.tree
  · rw [hbuilder]
    exact h.containers
  · exact ⟨stack, hstack.append (balanced_singleton ho hc), hbodies⟩

theorem Follows.step (h : c.Follows src u) (hcloses : closes.toList.map some = src.partners)
    (hsheltered : Sheltered 0 src) (hspans : Position.start.Spans src)
    (hnumbers : src.builder.tree.size ≤ UInt32.size) (hsrc : src = u ++ b :: rest) :
    ∃ c', c.step closes b = .ok c' ∧ c'.Follows src (u ++ [b]) := by
  have hfits : (Position.start.after (u ++ [b])).Fits := by
    apply hspans
    rw [hsrc, List.append_cons u b rest]
    exact List.prefix_append _ _
  have hlen : u.length + 1 < UInt64.size := by
    have hoffset := hfits.2.2
    rw [offset_after_start, List.length_append] at hoffset
    exact hoffset
  have hread : c.Reads closes src u b := by
    by_cases ho : b = Symbol.opening.byte
    · subst ho
      exact h.opening hcloses hsrc hlen hnumbers
    · by_cases hc : b = Symbol.closing.byte
      · subst hc
        exact h.closing hsheltered hsrc
      · rcases comment_or_op ho hc with hb | ⟨o, hb⟩
        · exact h.comment hsrc hb ho hc
        · exact h.op hsrc hb ho hc hnumbers
  obtain ⟨c', hc', hpos, hfollows⟩ := hread
  have hnext : Position.start.after (u ++ [b]) = c'.pos.next b := by
    rw [Position.after_append, hpos, h.pos]
    rfl
  rw [hnext] at hfits hfollows
  refine ⟨_, ?_, hfollows⟩
  rw [Construction.step, hc', ok_bind, Asserted.advance,
    Position.advance?_eq_some.mpr ⟨hfits, rfl⟩]
  rfl

/-- The invariant speaks about the whole source, since a partner may stand in what is still to be
read. -/
theorem Follows.run (h : c.Follows src u) (hcloses : closes.toList.map some = src.partners)
    (hsheltered : Sheltered 0 src) (hspans : Position.start.Spans src)
    (hnumbers : src.builder.tree.size ≤ UInt32.size) (hsrc : src = u ++ rest) :
    ∃ c', rest.foldlM (Construction.step closes) c = .ok c' ∧ c'.Follows src src := by
  induction rest generalizing c u with
  | nil =>
    rw [List.append_nil] at hsrc
    exact ⟨c, rfl, by rw [hsrc] at h ⊢; exact h⟩
  | cons b rest ih =>
    obtain ⟨c', hstep, hc'⟩ := h.step hcloses hsheltered hspans hnumbers hsrc
    rw [List.foldlM_cons, hstep]
    exact ih hc' (by rw [hsrc, List.append_cons])

end Construction

/-- Building the table of an accepted source meets every assertion, if its nodes can be numbered. -/
theorem construct_eq {src : Source} {closes : Array Nat} {p : Program}
    (hnumbers : p.tree.size ≤ UInt32.size) (hcloses : src.closings = .ok closes)
    (hp : src.program = .ok p) : construct closes src = .ok p.tree := by
  rw [← builder_of_program hp] at hnumbers
  obtain ⟨-, hsymbols⟩ := program_eq_ok hp
  obtain ⟨hsheltered, hcount⟩ := closes_symbols_iff.mp hsymbols
  have hbalanced : Balanced src := balanced_iff.mpr ⟨hsheltered, by omega⟩
  obtain ⟨c, hrun, hc⟩ := (Construction.follows_nil src).run (closings_eq_ok hcloses) hsheltered
    (places_fit_of_program hp) hnumbers rfl
  have hclosed : c.bodies = [] := by
    obtain ⟨stack, hstack, hbodies⟩ := hc.bodies
    rw [hstack.stack_eq_nil hbalanced] at hbodies
    exact List.forall₂_nil_right_iff.mp hbodies
  rw [construct, hrun, ok_bind, require_of hclosed, ok_bind, hc.tree, builder_of_program hp]
  rfl

/-- Told that the loop of `[]` ends elsewhere, the construction finds a `]` that closes nothing. -/
example : construct #[5] [91, 93] = .error (.assertion .closesLoop) := rfl

end Asserted

end TapeLang
