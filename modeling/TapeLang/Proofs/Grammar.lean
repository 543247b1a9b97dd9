import TapeLang.Program

/-!
The grammar of the language and its derivations. A program is any number of instructions, and an
instruction is one of the six simple symbols or a loop, which is a program in brackets. A word has
at most one derivation. Words that derive are those in which every bracket has its partner, and
assembling tokens that spell such a word gives its derivation.
-/
namespace TapeLang

namespace Grammar

/-- An instruction as the grammar derives it. Loops hold their instructions in order. -/
inductive Instr where
  | op (o : Op)
  | loop (body : List Instr)

mutual

/-- `program ::= instr*` -/
inductive IsProgram : List Instr → List Symbol → Prop
  | nil : IsProgram [] []
  | cons {i : Instr} {is : List Instr} {v w : List Symbol} (hi : IsInstr i v)
      (his : IsProgram is w) : IsProgram (i :: is) (v ++ w)

/-- `instr ::= '+' | '-' | '<' | '>' | '.' | ',' | loop` -/
inductive IsInstr : Instr → List Symbol → Prop
  | op (o : Op) : IsInstr (.op o) [.op o]
  | loop {body : List Instr} {w : List Symbol} (h : IsLoop body w) : IsInstr (.loop body) w

/-- `loop ::= '[' instr* ']'` -/
inductive IsLoop : List Instr → List Symbol → Prop
  | brackets {body : List Instr} {w : List Symbol} (h : IsProgram body w) :
      IsLoop body (.opening :: w ++ [.closing])

end

/-- Read on with `depth` brackets open, every `]` closes one of them and none is left at the end. -/
def Closes : Nat → List Symbol → Prop
  | depth, [] => depth = 0
  | depth, .op _ :: w => Closes depth w
  | depth, .opening :: w => Closes (depth + 1) w
  | 0, .closing :: _ => False
  | depth + 1, .closing :: w => Closes depth w

end Grammar

namespace Program

open Grammar

/-- The instructions of a program without their places. -/
def instrs : Program → List Instr
  | nil => []
  | op o _ rest => .op o :: rest.instrs
  | loop _ body rest => .loop body.instrs :: rest.instrs

theorem isProgram (p : Program) : IsProgram p.instrs p.symbols := by
  induction p with
  | nil => exact .nil
  | op o pos rest ih => exact .cons (.op o) ih
  | loop pos body rest ihbody ih =>
    have h := IsProgram.cons (.loop (.brackets ihbody)) ih
    simpa only [instrs, symbols, List.cons_append, List.append_assoc, List.nil_append] using h

theorem closes_symbols_append (p : Program) (depth : Nat) (w : List Symbol) :
    Closes depth (p.symbols ++ w) ↔ Closes depth w := by
  induction p generalizing depth w with
  | nil => exact Iff.rfl
  | op o pos rest ih => exact ih depth w
  | loop pos body rest ihbody ih =>
    simp only [symbols, List.cons_append, List.append_assoc, Closes]
    rw [ihbody]
    exact ih depth w

end Program

namespace Grammar

/-- Every derivation is that of a program. The recursion is over the three kinds of phrases at
once; an instruction is put in front of any program. -/
theorem exists_program {d : List Instr} {w : List Symbol} (h : IsProgram d w) :
    ∃ p : Program, p.instrs = d ∧ p.symbols = w := by
  refine @IsProgram.rec
    (fun d w _ => ∃ p : Program, p.instrs = d ∧ p.symbols = w)
    (fun i v _ => ∀ q : Program, ∃ p : Program, p.instrs = i :: q.instrs ∧
      p.symbols = v ++ q.symbols)
    (fun body v _ => ∃ p : Program, p.instrs = body ∧ v = .opening :: p.symbols ++ [.closing])
    ?_ ?_ ?_ ?_ ?_ d w h
  · exact ⟨.nil, rfl, rfl⟩
  · rintro i is v w - - hi ⟨q, rfl, rfl⟩
    exact hi q
  · intro o q
    exact ⟨.op o .start q, rfl, rfl⟩
  · rintro body v - ⟨b, rfl, rfl⟩ q
    refine ⟨.loop .start b q, rfl, ?_⟩
    simp only [Program.symbols, List.cons_append, List.append_assoc, List.nil_append]
  · rintro body w - ⟨b, rfl, rfl⟩
    exact ⟨b, rfl, rfl⟩

end Grammar

namespace Program

open Grammar

/-- Tokens that spell a program are assembled in front of what follows them. -/
theorem levels_append_of_symbols {p q : Program} {outer : List Program} {ts us : List Token}
    (hts : ts.map Located.value = p.symbols) (hus : levels us = q :: outer) :
    ∃ p' : Program, p'.instrs = p.instrs ∧ levels (ts ++ us) = (p' ++ q) :: outer := by
  induction p generalizing q outer ts us with
  | nil =>
    obtain rfl : ts = [] := by simpa [symbols] using hts
    exact ⟨.nil, rfl, hus⟩
  | op o pos rest ih =>
    obtain ⟨t, ts, rfl, ht, hrest⟩ := List.map_eq_cons_iff.mp hts
    obtain ⟨p', hp', hlevels⟩ := ih hrest hus
    refine ⟨.op o t.pos p', by simp only [instrs, hp'], ?_⟩
    simp only [List.cons_append, levels_cons, hlevels, place, ht, op_append]
  | loop pos body rest ihbody ih =>
    obtain ⟨t, ts, rfl, ht, hrest⟩ := List.map_eq_cons_iff.mp hts
    obtain ⟨bs, cs, rfl, hbs, hcs⟩ := List.map_eq_append_iff.mp hrest
    obtain ⟨c, rs, rfl, hc, hrs⟩ := List.map_eq_cons_iff.mp hcs
    obtain ⟨r', hr', hlevels⟩ := ih hrs hus
    have hclose : levels (c :: (rs ++ us)) = .nil :: (r' ++ q) :: outer := by
      simp only [levels_cons, hlevels, place, hc]
    obtain ⟨b', hb', hbody⟩ := ihbody hbs hclose
    refine ⟨.loop t.pos b' r', by simp only [instrs, hb', hr'], ?_⟩
    simp only [List.cons_append, List.append_assoc, levels_cons, hbody, place, ht, append_nil,
      loop_append]

theorem assemble_of_symbols {p : Program} {ts : List Token}
    (hts : ts.map Located.value = p.symbols) : (assemble ts).instrs = p.instrs := by
  obtain ⟨p', hp', hlevels⟩ := levels_append_of_symbols hts levels_nil
  rw [List.append_nil, append_nil] at hlevels
  rw [assemble, hlevels]
  exact hp'

theorem instrs_eq_of_symbols_eq {p q : Program} (h : p.symbols = q.symbols) :
    p.instrs = q.instrs := by
  let ts : List Token := p.symbols.map fun s => ⟨.start, s⟩
  have hts : ts.map Located.value = p.symbols := by
    simp only [ts, List.map_map]
    exact List.map_id _
  have hp := assemble_of_symbols hts
  have hq := assemble_of_symbols (hts.trans h)
  exact hp.symm.trans hq

/-- The tokens are assembled into the level `q`, with the levels `outer` around it. -/
inductive Assembles : List Token → Program → List Program → Prop
  | nil : Assembles [] .nil []
  | op {ts : List Token} {q : Program} {outer : List Program} (o : Op) (pos : Position)
      (h : Assembles ts q outer) : Assembles (⟨pos, .op o⟩ :: ts) (.op o pos q) outer
  | opening {ts : List Token} {q r : Program} {outer : List Program} (pos : Position)
      (h : Assembles ts q (r :: outer)) : Assembles (⟨pos, .opening⟩ :: ts) (.loop pos q r) outer
  | closing {ts : List Token} {q : Program} {outer : List Program} (pos : Position)
      (h : Assembles ts q outer) : Assembles (⟨pos, .closing⟩ :: ts) .nil (q :: outer)

/-- Tokens after `depth` open brackets are assembled into one level more. -/
theorem assembles_of_closes {ts : List Token} {depth : Nat}
    (h : Closes depth (ts.map Located.value)) :
    ∃ q outer, levels ts = q :: outer ∧ outer.length = depth ∧ Assembles ts q outer := by
  induction ts generalizing depth with
  | nil => exact ⟨.nil, [], rfl, h.symm, .nil⟩
  | cons t ts ih =>
    obtain ⟨pos, s⟩ := t
    cases s with
    | op o =>
      obtain ⟨q, outer, hlevels, hlen, hts⟩ := ih h
      exact ⟨.op o pos q, outer, by simp only [levels_cons, hlevels, place], hlen, .op o pos hts⟩
    | opening =>
      have hinner : Closes (depth + 1) (ts.map Located.value) := h
      obtain ⟨q, outer, hlevels, hlen, hts⟩ := ih hinner
      cases outer with
      | nil => simp at hlen
      | cons r outer =>
        exact ⟨.loop pos q r, outer, by simp only [levels_cons, hlevels, place],
          by simpa using hlen, .opening pos hts⟩
    | closing =>
      cases depth with
      | zero => exact absurd h id
      | succ depth =>
        have houter : Closes depth (ts.map Located.value) := h
        obtain ⟨q, outer, hlevels, hlen, hts⟩ := ih houter
        exact ⟨.nil, q :: outer, by simp only [levels_cons, hlevels, place],
          by simp only [List.length_cons, hlen], .closing pos hts⟩

/-- Tokens in which every bracket has its partner are assembled into a single level. -/
theorem assembles_assemble {ts : List Token} (h : Closes 0 (ts.map Located.value)) :
    Assembles ts (assemble ts) [] := by
  obtain ⟨q, outer, hlevels, hlen, hts⟩ := assembles_of_closes h
  obtain rfl : outer = [] := List.length_eq_zero_iff.mp hlen
  rw [assemble, hlevels]
  exact hts

/-- The symbols of levels, one after the other with a `]` between any two. -/
def spread : Program → List Program → List Symbol
  | q, [] => q.symbols
  | q, r :: outer => q.symbols ++ .closing :: spread r outer

theorem Assembles.map_value {ts : List Token} {q : Program} {outer : List Program}
    (h : Assembles ts q outer) : ts.map Located.value = spread q outer := by
  induction h with
  | nil => rfl
  | @op _ _ outer _ _ _ ih =>
    cases outer <;> simp only [List.map_cons, ih, spread, symbols, List.cons_append]
  | @opening _ _ _ outer _ _ ih =>
    cases outer <;> simp only [List.map_cons, ih, spread, symbols, List.cons_append,
      List.append_assoc]
  | closing _ _ ih => simp only [List.map_cons, ih, spread, symbols, List.nil_append]

theorem symbols_assemble {ts : List Token} (h : Closes 0 (ts.map Located.value)) :
    (assemble ts).symbols = ts.map Located.value :=
  (assembles_assemble h).map_value.symm

end Program

namespace Grammar

/-- A word derives exactly if its brackets close. -/
theorem derivable_iff_closes (w : List Symbol) : (∃ d, IsProgram d w) ↔ Closes 0 w := by
  constructor
  · rintro ⟨d, h⟩
    obtain ⟨p, -, rfl⟩ := exists_program h
    have hclose := p.closes_symbols_append 0 []
    rw [List.append_nil] at hclose
    exact hclose.mpr rfl
  · intro h
    let ts : List Token := w.map fun s => ⟨.start, s⟩
    have hts : ts.map Located.value = w := by
      simp only [ts, List.map_map]
      exact List.map_id _
    rw [← hts] at h ⊢
    rw [← Program.symbols_assemble h]
    exact ⟨_, (Program.assemble ts).isProgram⟩

theorem IsProgram.unique {d d' : List Instr} {w : List Symbol} (h : IsProgram d w)
    (h' : IsProgram d' w) : d = d' := by
  obtain ⟨p, rfl, hp⟩ := exists_program h
  obtain ⟨q, rfl, hq⟩ := exists_program h'
  exact Program.instrs_eq_of_symbols_eq (hp.trans hq.symm)

end Grammar

end TapeLang
