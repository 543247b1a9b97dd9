import TapeLang.Proofs.Reading
import TapeLang.Proofs.Rows
import TapeLang.Proofs.Unplaced

/-!
Comments have no effect. Two sources with the same symbols are refused for the same cause or both
accepted, and then they run alike and have the same code. The comments only move the places that
nodes and remarks mention.
-/
namespace TapeLang

open Assembly Grammar

namespace Grammar

/-- What is wrong with the brackets of a word, read on with `depth` brackets open. -/
def fault? : Nat → List Symbol → Option BracketError
  | 0, [] => none
  | _ + 1, [] => some .unmatchedOpening
  | depth, .op _ :: w => fault? depth w
  | depth, .opening :: w => fault? (depth + 1) w
  | 0, .closing :: _ => some .unmatchedClosing
  | depth + 1, .closing :: w => fault? depth w

theorem fault?_eq_none {depth : Nat} {w : List Symbol} :
    fault? depth w = none ↔ Closes depth w := by
  induction w generalizing depth with
  | nil => cases depth <;> simp [fault?, Closes]
  | cons s w ih =>
    cases s with
    | op o => simpa only [fault?, Closes] using ih
    | opening => simpa only [fault?, Closes] using ih
    | closing =>
      cases depth with
      | zero => simp [fault?, Closes]
      | succ depth => simpa only [fault?, Closes] using ih

end Grammar

namespace Scan

theorem read_fault (s : Scan) (sym : Symbol) (w : List Symbol) :
    (∃ s', s.read sym = .ok s' ∧ s'.pos = s.pos ∧
        fault? s.unclosed.length (sym :: w) = fault? s'.unclosed.length w) ∨
      s.read sym = .error (.bracket ⟨s.pos, .unmatchedClosing⟩) ∧
        fault? s.unclosed.length (sym :: w) = some .unmatchedClosing := by
  cases sym with
  | op o => exact .inl ⟨_, rfl, rfl, by simp only [fault?]⟩
  | opening => exact .inl ⟨_, rfl, rfl, by simp only [fault?, List.length_cons]⟩
  | closing =>
    cases hu : s.unclosed with
    | nil => exact .inr ⟨by simp only [read, hu], rfl⟩
    | cons pos outer =>
      refine .inl ⟨{ s with tokens := ⟨s.pos, .closing⟩ :: s.tokens, unclosed := outer }, ?_, rfl, rfl⟩
      simp only [read, hu]

/-- A scan within the limits of positions ends with the fault of its symbols, if there is one. -/
theorem finish_of_fault {s : Scan} {src : Source} {cause : BracketError}
    (hspans : s.pos.Spans src) (h : fault? s.unclosed.length src.symbols = some cause) :
    ∃ pos, (s.run src).bind finish = .error (.bracket ⟨pos, cause⟩) := by
  induction src generalizing s with
  | nil =>
    cases hu : s.unclosed.getLast? with
    | none =>
      rw [List.getLast?_eq_none_iff.mp hu] at h
      cases h
    | some pos =>
      obtain ⟨n, hn⟩ : ∃ n, s.unclosed.length = n + 1 :=
        Nat.exists_eq_succ_of_ne_zero fun hzero => by
          rw [List.length_eq_zero_iff.mp hzero] at hu
          cases hu
      rw [hn] at h
      cases h
      exact ⟨pos, by simp only [run, Except.bind, finish, hu]⟩
  | cons b rest ih =>
    cases hb : Symbol.ofByte? b with
    | none =>
      simp only [Source.symbols, hb, List.filterMap_cons] at h
      simp only [run, step, hb, advance, hspans.advance?]
      exact ih (s := { s with pos := s.pos.next b }) hspans.next h
    | some sym =>
      simp only [Source.symbols, hb, List.filterMap_cons] at h
      rcases s.read_fault sym (rest.filterMap Symbol.ofByte?) with
        ⟨s₁, hread, hpos, hfault⟩ | ⟨hread, hfault⟩
      · rw [hfault] at h
        rw [← hpos] at hspans
        simp only [run, step, hb, hread, advance, hspans.advance?]
        exact ih (s := { s₁ with pos := s₁.pos.next b }) hspans.next h
      · rw [hfault] at h
        cases h
        exact ⟨s.pos, by simp only [run, step, hb, hread, Except.bind]⟩

end Scan

namespace Source

theorem program_of_fault {src : Source} {cause : BracketError}
    (hspans : Position.start.Spans src) (h : fault? 0 src.symbols = some cause) :
    ∃ pos, src.program = .error (.bracket ⟨pos, cause⟩) := by
  obtain ⟨pos, hpos⟩ := Scan.finish_of_fault (s := {}) hspans h
  have htokens : src.tokens = (Scan.run {} src).bind Scan.finish := by
    rw [tokens]
    cases Scan.run {} src <;> rfl
  refine ⟨pos, ?_⟩
  rw [program, htokens, hpos]
  rfl

end Source

/-- A row that says where a loop stands in the source: perhaps blanks, then `# loop at` with a line
and a column. -/
def isLoopRemark (row : List Char) : Bool :=
  let text := row.dropWhile (· = ' ')
  let place := text.drop "# loop at ".length
  "# loop at ".toList.isPrefixOf text &&
    ((OptLevel.decimal? (place.takeWhile (· ≠ ':'))).isSome &&
      (OptLevel.decimal? (place.dropWhile (· ≠ ':')).tail).isSome)

/-- An assembly without the rows that say where loops stand. -/
def withoutRemarks (text : String) : List (List Char) :=
  (rows text).filter fun row => !isLoopRemark row

namespace Assembly.Line

theorem isLoopRemark_row (t : Target) (pos : Position) :
    isLoopRemark ((loopComment pos).row t) = true := by
  have hrow : (loopComment pos).row t = "    # loop at ".toList ++
      (Nat.toDigits 10 pos.line ++ ':' :: Nat.toDigits 10 pos.column) := by
    show "    ".toList ++
      ("# loop at " ++ (toString pos.line ++ ":" ++ toString pos.column)).toList = _
    simp only [String.toList_append, Nat.toString_eq_repr, Nat.toList_repr, List.append_assoc]
    rfl
  have hline : ∀ c ∈ Nat.toDigits 10 pos.line, decide (c ≠ ':') = true := fun c hc =>
    decide_eq_true (X86.ne_of_isDigit (X86.isDigit_of_mem _ hc) (by decide))
  have hplace (place : List Char) : isLoopRemark ("    # loop at ".toList ++ place) =
      ((OptLevel.decimal? (place.takeWhile (· ≠ ':'))).isSome &&
        (OptLevel.decimal? (place.dropWhile (· ≠ ':')).tail).isSome) := rfl
  rw [hrow, hplace, List.takeWhile_append_of_pos hline, List.dropWhile_append_of_pos hline,
    List.takeWhile_cons_of_neg (by decide), List.dropWhile_cons_of_neg (by decide),
    List.append_nil, List.tail_cons, X86.decimal?_toDigits, X86.decimal?_toDigits]
  rfl

/-- Without its place a line is the same row or still a remark. -/
theorem filter_row_unplaced (t : Target) (l : Line) :
    [l.unplaced.row t].filter (fun row => !isLoopRemark row) =
      [l.row t].filter fun row => !isLoopRemark row := by
  cases l with
  | loopComment pos =>
    simp only [unplaced, List.filter_cons, List.filter_nil, isLoopRemark_row, Bool.not_true,
      if_neg Bool.false_ne_true]
  | _ => rfl

theorem filter_rows_unplaced (t : Target) (ls : List Line) :
    ((ls.map unplaced).map (row t)).filter (fun row => !isLoopRemark row) =
      (ls.map (row t)).filter fun row => !isLoopRemark row := by
  induction ls with
  | nil => rfl
  | cons l rest ih =>
    have hl := filter_row_unplaced t l
    rw [List.map_cons, List.map_cons, List.map_cons, ← List.singleton_append, List.filter_append,
      hl, ih, ← List.filter_append, List.singleton_append]

end Assembly.Line

namespace Program

variable {p q : Program}

theorem withoutRemarks_eq_of_unplaced_eq (h : p.unplaced = q.unplaced) (o : Options) :
    withoutRemarks (p.assembly o) = withoutRemarks (q.assembly o) := by
  have hcode : ((p.codeLines o {}).map (Line.row o.target)).filter (fun row => !isLoopRemark row) =
      ((q.codeLines o {}).map (Line.row o.target)).filter fun row => !isLoopRemark row := by
    rw [← Line.filter_rows_unplaced, ← codeLines_unplaced, h, codeLines_unplaced,
      Line.filter_rows_unplaced]
  simp only [withoutRemarks, rows_assembly, List.filter_append, hcode]

theorem lineCount_eq_of_unplaced_eq (h : p.unplaced = q.unplaced) (o : Options) :
    p.lineCount o {} = q.lineCount o {} := by
  have hlength : (p.codeLines o {}).length = (q.codeLines o {}).length := by
    rw [← List.length_map (f := Line.unplaced), ← codeLines_unplaced, h, codeLines_unplaced,
      List.length_map]
  rw [lineCount, lineCount, hlength]

theorem output?_eq_of_unplaced_eq (h : p.unplaced = q.unplaced) (fuel : Nat) (input : List UInt8)
    (eof : EofPolicy) : p.output? fuel input eof = q.output? fuel input eof := by
  have hp := p.run_tree_inStep { feed := .ofBytes input, eof } fuel
  have hq := q.run_tree_inStep { feed := .ofBytes input, eof } fuel
  rw [run_tree_eq_of_unplaced_eq h] at hp
  unfold output?
  generalize q.tree.run fuel { feed := .ofBytes input, eof } = progress at hp hq
  generalize Machine.run fuel p { feed := .ofBytes input, eof } = outcome at hp
  generalize Machine.run fuel q { feed := .ofBytes input, eof } = outcome' at hq
  cases hp with
  | running => cases hq; rfl
  | finished => cases hq; rfl
  | failed => cases hq; rfl

theorem nodes_eq_of_unplaced_eq (h : p.unplaced = q.unplaced) :
    (p.tree.nodes.map fun n => (n.kind, n.parent, n.children)) =
      q.tree.nodes.map fun n => (n.kind, n.parent, n.children) := by
  have hnodes (r : Program) : (r.unplaced.tree.nodes.map fun n => (n.kind, n.parent, n.children)) =
      r.tree.nodes.map fun n => (n.kind, n.parent, n.children) := by
    rw [tree_unplaced, Tree.unplaced, Array.map_map]
    rfl
  rw [← hnodes, h, hnodes]

end Program

namespace Source

/-- Sources with the same symbols are both refused, for the same cause, or both accepted. Then the
node tables agree in all but places, every run is the same, and so is the assembly but for the
remarks on where loops stand. -/
theorem comments_have_no_effect {a b : Source} (ha : a.length ≤ UInt32.size - 2)
    (hb : b.length ≤ UInt32.size - 2) (h : a.symbols = b.symbols) :
    (∃ cause pos pos', a.program = .error (.bracket ⟨pos, cause⟩) ∧
      b.program = .error (.bracket ⟨pos', cause⟩)) ∨
    ∃ p q, a.program = .ok p ∧ b.program = .ok q ∧
      (p.tree.nodes.map fun n => (n.kind, n.parent, n.children)) =
        (q.tree.nodes.map fun n => (n.kind, n.parent, n.children)) ∧
      (∀ fuel m, p.tree.run fuel m = q.tree.run fuel m) ∧
      (∀ fuel input eof, p.output? fuel input eof = q.output? fuel input eof) ∧
      ∀ o, ∃ count g g', p.compile o {} = .ok count g ∧ q.compile o {} = .ok count g' ∧
        g.sink.accepted.toList = Sink.bytesOf (p.assembly o) ∧
        g'.sink.accepted.toList = Sink.bytesOf (q.assembly o) ∧
        withoutRemarks (p.assembly o) = withoutRemarks (q.assembly o) := by
  have hspans := Position.spans_start ha
  have hspans' := Position.spans_start hb
  cases hfault : fault? 0 a.symbols with
  | some cause =>
    obtain ⟨pos, hpos⟩ := program_of_fault hspans hfault
    obtain ⟨pos', hpos'⟩ := program_of_fault hspans' (h ▸ hfault)
    exact .inl ⟨cause, pos, pos', hpos, hpos'⟩
  | none =>
    have hp := program_of_closes hspans (fault?_eq_none.mp hfault)
    have hq := program_of_closes hspans' (fault?_eq_none.mp (h ▸ hfault))
    have hunplaced := Program.unplaced_eq_of_symbols_eq
      ((symbols_of_program hp).trans (h.trans (symbols_of_program hq).symm))
    refine .inr ⟨_, _, hp, hq, Program.nodes_eq_of_unplaced_eq hunplaced,
      Program.run_tree_eq_of_unplaced_eq hunplaced,
      Program.output?_eq_of_unplaced_eq hunplaced, fun o => ?_⟩
    obtain ⟨g, hg, haccepted⟩ := Program.compile_eq o (.assemble (a.located .start))
    obtain ⟨g', hg', haccepted'⟩ := Program.compile_eq o (.assemble (b.located .start))
    rw [← Program.lineCount_eq_of_unplaced_eq hunplaced] at hg'
    exact ⟨_, g, g', hg, hg', haccepted, haccepted',
      Program.withoutRemarks_eq_of_unplaced_eq hunplaced o⟩

/-- A comment line before `[.]` moves the loop to line 2, and changes neither its runs nor its
code. -/
theorem loop_after_comment :
    let a : Source := [91, 46, 93]
    let b : Source := [35, 10, 91, 46, 93]
    a.length ≤ UInt32.size - 2 ∧ b.length ≤ UInt32.size - 2 ∧ a.symbols = b.symbols ∧
    ∃ p q, a.program = .ok p ∧ b.program = .ok q ∧ p ≠ q ∧
      (∀ fuel m, p.tree.run fuel m = q.tree.run fuel m) ∧
      ∀ o, withoutRemarks (p.assembly o) = withoutRemarks (q.assembly o) := by
  intro a b
  have ha : a.length ≤ UInt32.size - 2 := by decide
  have hb : b.length ≤ UInt32.size - 2 := by decide
  have hsymbols : a.symbols = b.symbols := by decide
  refine ⟨ha, hb, hsymbols, ?_⟩
  have hp : a.program = .ok (.loop ⟨1, 1, 0⟩ (.op .output ⟨1, 2, 1⟩ .nil) .nil) := rfl
  have hq : b.program = .ok (.loop ⟨2, 1, 2⟩ (.op .output ⟨2, 2, 3⟩ .nil) .nil) := rfl
  rcases comments_have_no_effect ha hb hsymbols with
    ⟨cause, pos, pos', herror, -⟩ | ⟨p, q, hp', hq', -, hrun, -, htext⟩
  · rw [hp] at herror
    cases herror
  · refine ⟨p, q, hp', hq', ?_, hrun, fun o => ?_⟩
    · rw [hp] at hp'
      rw [hq] at hq'
      cases hp'
      cases hq'
      decide
    · obtain ⟨-, -, -, -, -, -, -, hrows⟩ := htext o
      exact hrows

end Source

end TapeLang
