import Mathlib.Data.List.Nodup
import TapeLang.Proofs.Nesting
import TapeLang.Proofs.Reading
import TapeLang.Proofs.Rows

/-!
The labels of loops in whole texts. Whatever a generator has been told, its text can be read, no
label stands in it twice, and loops are properly nested. In the assembly of a source, moreover, no
jump is left without its label, and loops are numbered as their opening brackets come.
-/
namespace TapeLang

open Assembly

/-- Whether the call enters a loop. -/
def Call.isEnter : Call → Bool
  | enterLoop _ => true
  | _ => false

namespace Draft

theorem next_nextLoop (o : Options) (d : Draft) (c : Call) :
    (d.next o c).nextLoop = d.nextLoop + (if c.isEnter then 1 else 0) := by
  cases c with
  | op op pos => cases op <;> rfl
  | enterLoop pos => rfl
  | exitLoop pos => rfl
  | finish => rfl

theorem after_nextLoop (o : Options) (d : Draft) (cs : List Call) :
    (d.after o cs).nextLoop = d.nextLoop + cs.countP Call.isEnter := by
  induction cs generalizing d with
  | nil => rfl
  | cons c rest ih =>
    rw [after, ih, next_nextLoop, List.countP_cons]
    omega

theorem loopStart_mem_wrote (o : Options) (d : Draft) (c : Call) (k : Nat) :
    .loopStart k ∈ definedLabels (d.wrote o c) ↔ c.isEnter = true ∧ k = d.nextLoop := by
  rw [definedLabels_wrote]
  cases c with
  | op op pos =>
    cases op with
    | increment | decrement | moveLeft | moveRight | output =>
      simp [fragment, definedLabels, Line.label?, Call.isEnter]
    | input =>
      rw [fragment]
      cases o.eof <;> simp [inputLines, definedLabels, Line.label?, Call.isEnter]
  | enterLoop pos => simp [fragment, definedLabels, Line.label?, Call.isEnter]
  | exitLoop pos =>
    rw [fragment]
    cases d.loops <;> simp [exitLines, definedLabels, Line.label?, Call.isEnter]
  | finish => simp [fragment, Call.isEnter]

/-- The loops that calls enter are numbered on from the next number. -/
theorem loopStart_mem_code (o : Options) (d : Draft) (cs : List Call) (k : Nat) :
    .loopStart k ∈ definedLabels (d.code o cs) ↔
      d.nextLoop ≤ k ∧ k < d.nextLoop + cs.countP Call.isEnter := by
  induction cs generalizing d with
  | nil =>
    rw [code, List.countP_nil]
    simp [definedLabels]
  | cons c rest ih =>
    have hrest := ih (d.next o c)
    rw [code, definedLabels_append, List.mem_append, loopStart_mem_wrote, hrest, next_nextLoop,
      List.countP_cons]
    by_cases hc : c.isEnter = true
    · simp only [hc, if_true, true_and]
      omega
    · simp only [hc, Bool.false_eq_true, if_false, false_and, false_or, Nat.add_zero]

theorem heading_infix (o : Options) (d : Draft) (x y : List Call) (pos : Position) :
    [.label (.loopStart (d.nextLoop + x.countP Call.isEnter)), .loopComment pos] <:+:
      d.code o (x ++ .enterLoop pos :: y) := by
  have hwrote : [.label (.loopStart (d.after o x).nextLoop), .loopComment pos] <:+:
      (d.after o x).wrote o (.enterLoop pos) :=
    (List.prefix_append [_, _] [_, _]).isInfix.trans (List.suffix_append _ _).isInfix
  rw [← after_nextLoop o, code_append, code]
  exact (hwrote.trans (List.prefix_append _ _).isInfix).trans (List.suffix_append _ _).isInfix

end Draft

namespace Program

theorem after_calls_loops (o : Options) (d : Draft) (p : Program) :
    (d.after o p.calls).loops = d.loops := by
  rw [calls_eq, Draft.after_append]
  exact Draft.after_spell_loops o p d

/-- A program that is written after tidy code leaves it tidy, with the same loops open. -/
theorem tidy_fileFrom {o : Options} {d : Draft} {file : X86.File} (p : Program)
    (h : Tidy o.target d.loops file) : Tidy o.target d.loops (file ++ p.fileFrom o d) := by
  have hentry : Settled o.target [.label o.target.entryPoint] := settled_label o.target fun k =>
    ⟨(Label.text_ne_entryPoint o.target _).symm, (Label.text_ne_entryPoint o.target _).symm⟩
  have hopening := (h.append hentry).append (settled_instrs o.target opening (by decide))
  have hcode := Draft.tidy_code o d p.calls hopening
  have htape := hcode.append (settled_zeroed o.target o.target.tape cellCount)
  rw [after_calls_loops] at htape
  simpa only [fileFrom, codeLines, List.flatMap_append, List.append_assoc, List.cons_append,
    List.nil_append] using htape

end Program

namespace Generator

/-- The file that the text of a session is read as. -/
def sessionFile (o : Options) (cs : List Call) : Option Program → X86.File
  | none => (Draft.code o {} cs).flatMap (Line.statements o.target)
  | some p =>
    (Draft.code o {} cs).flatMap (Line.statements o.target) ++ p.fileFrom o (Draft.after o {} cs)

theorem nodup_labels_sessionFile (o : Options) (cs : List Call) (last : Option Program) :
    (sessionFile o cs last).labels.Nodup := by
  have hcode : X86.File.labels ((Draft.code o {} cs).flatMap (Line.statements o.target)) =
      (Draft.definedLabels (Draft.code o {} cs)).map (Label.text o.target) :=
    labels_of_isCode o.target (List.all_eq_true.mp (Draft.all_isCode_code o {} cs))
  cases last with
  | none =>
    obtain ⟨hnodup, -⟩ := Draft.nodup_definedLabels o cs {} Draft.numbered_empty
    have hnames := Program.nodup_names o.target hnodup
    rw [sessionFile, hcode]
    exact (List.nodup_cons.mp hnames).2
  | some p =>
    obtain ⟨hnodup, -⟩ := Draft.nodup_definedLabels o (cs ++ p.calls) {} Draft.numbered_empty
    have hnames := Program.nodup_names o.target hnodup
    rw [Draft.code_append, Draft.definedLabels_append, List.map_append] at hnames
    rw [sessionFile, X86.File.labels_append, hcode, p.labels_fileFrom]
    exact List.nodup_middle.mpr hnames

theorem tidy_sessionFile (o : Options) (cs : List Call) (last : Option Program) :
    Tidy o.target (Draft.after o {} cs).loops (sessionFile o cs last) := by
  have hcode := Draft.tidy_code o {} cs (Tidy.nil o.target)
  rw [List.nil_append] at hcode
  cases last with
  | none => exact hcode
  | some p => exact p.tidy_fileFrom hcode

/-- A session on a new generator writes a text that is read as its file. -/
theorem session_text (o : Options) (sink : Sink) (cs : List Call) (last : Option Program)
    (hlimit : sink.limit = none) :
    let g := session { options := o, sink } cs last
    g.loops = (Draft.after o {} cs).loops ∧
    ∃ text, g.sink.accepted.toList = sink.accepted.toList ++ Sink.bytesOf text ∧
      X86.File.Reads text.toList (sessionFile o cs last) := by
  have hcalls := wrote_calls cs { options := o, sink } hlimit
  have hreads := reads_lines o.target false (Draft.code o {} cs) fun l hl =>
    Line.ne_tapeDeclaration_of_isCode (List.all_eq_true.mp (Draft.all_isCode_code o {} cs) l hl)
  cases last with
  | none => exact ⟨congrArg Draft.loops hcalls.draft, _, hcalls.accepted, hreads⟩
  | some p =>
    obtain ⟨haccepted, hdraft⟩ := accepted_generate p hcalls.limit hcalls.indented
    rw [hcalls.draft, hcalls.options] at haccepted hdraft
    refine ⟨(congrArg Draft.loops hdraft).trans (p.after_calls_loops o _),
      String.join ((Draft.code o {} cs).map (Line.render o.target false)) ++
        String.join (p.texts o (Draft.after o {} cs)), ?_, ?_⟩
    · rw [Sink.bytesOf_append, ← List.append_assoc]
      exact haccepted.trans (congrArg (· ++ _) hcalls.accepted)
    · rw [String.toList_append]
      exact hreads.append (p.reads_texts o _)

end Generator

namespace Source

theorem countP_isEnter (cs : List Call) :
    cs.countP Call.isEnter = (cs.filterMap Call.head?).countP (·.value = .opening) := by
  rw [List.countP_filterMap]
  congr 1
  funext c
  cases c <;> rfl

theorem count_opening_symbols (src : Source) :
    src.symbols.count .opening = src.count Symbol.opening.byte := by
  have hbyte (b : UInt8) : ((Symbol.ofByte? b).map (· == Symbol.opening)).getD false =
      (b == Symbol.opening.byte) := by
    rw [Bool.eq_iff_iff, beq_iff_eq, ← Symbol.ofByte?_eq_some]
    cases Symbol.ofByte? b <;> simp
  rw [symbols, List.count, List.countP_filterMap, List.count]
  exact congrArg (List.countP · src) (funext hbyte)

theorem countP_opening_located (pos : Position) (src : Source) :
    ((src.located pos).filter (·.value ≠ .closing)).countP (·.value = .opening) =
      src.count Symbol.opening.byte := by
  have hkept (t : Token) : (decide (t.value = .opening) && decide (t.value ≠ .closing)) =
      (t.value == .opening) := by
    cases t.value <;> rfl
  rw [← count_opening_symbols, ← map_value_located pos, List.count, List.countP_map,
    List.countP_filter]
  exact congrArg (List.countP · _) (funext hkept)

/-- An opening bracket of the source is a loop that the program enters, after as many others as
there are opening brackets before it. -/
theorem exists_enterLoop {before after : Source} {p : Program}
    (h : (before ++ Symbol.opening.byte :: after).program = .ok p) :
    ∃ x y, p.spell = x ++ .enterLoop (Position.start.after before) :: y ∧
      x.countP Call.isEnter = before.count Symbol.opening.byte := by
  have hheads := heads_of_program h
  have hopening (pos : Position) : located pos (Symbol.opening.byte :: after) =
      ⟨pos, .opening⟩ :: located (pos.next Symbol.opening.byte) after := rfl
  rw [located_append, hopening, List.filter_append, List.filter_cons_of_pos (by rfl)] at hheads
  obtain ⟨x₁, y₁, hspell, hx₁, hy₁⟩ := List.filterMap_eq_append_iff.mp hheads
  obtain ⟨x₂, c, y, rfl, hx₂, hc, -⟩ := List.filterMap_eq_cons_iff.mp hy₁
  have hnone : x₂.filterMap Call.head? = [] := List.filterMap_eq_nil_iff.mpr hx₂
  refine ⟨x₁ ++ x₂, y, ?_, ?_⟩
  · rw [hspell, List.append_assoc]
    cases c <;> cases hc
    rfl
  · rw [countP_isEnter, List.filterMap_append, hx₁, hnone, List.append_nil,
      countP_opening_located]

theorem countP_isEnter_calls {src : Source} {p : Program} (h : src.program = .ok p) :
    p.calls.countP Call.isEnter = src.count Symbol.opening.byte := by
  have hheads := heads_of_program h
  rw [Program.calls_eq, List.countP_append, countP_isEnter]
  show List.countP _ p.heads + 0 = _
  rw [hheads, countP_opening_located, Nat.add_zero]

end Source

namespace Program

theorem tidy_file (o : Options) (p : Program) : Tidy o.target [] (p.file o) :=
  p.tidy_fileFrom (d := {}) (Tidy.nil o.target)

theorem closed_file (o : Options) (p : Program) : Closed o.target (p.file o) := by
  cases (p.tidy_file o).nested with
  | closed h => exact h

/-- Every jump of a program has its label, and there is one label of this name. -/
theorem count_of_mem_jumpTargets {o : Options} {p : Program} {name : String}
    (h : name ∈ (p.file o).jumpTargets) : (p.file o).labels.count name = 1 := by
  rcases (p.tidy_file o).known name h with hdefined | ⟨k, hk, -⟩
  · exact List.count_eq_one_of_mem (p.nodup_labels_file o) hdefined
  · exact absurd hk List.not_mem_nil

theorem loopStart_mem_labels {o : Options} {p : Program} {k : Nat} :
    (Label.loopStart k).text o.target ∈ (p.file o).labels ↔ k < p.calls.countP Call.isEnter := by
  have hcode := Draft.loopStart_mem_code o {} p.calls k
  have htext : (Label.loopStart k).text o.target ∈ (p.file o).labels ↔
      .loopStart k ∈ Draft.definedLabels (Draft.code o {} p.calls) := by
    rw [labels_file, List.mem_cons, List.mem_map]
    constructor
    · rintro (hentry | ⟨l, hl, heq⟩)
      · exact absurd hentry (Label.text_ne_entryPoint _ _)
      · exact Label.text_injective _ heq ▸ hl
    · exact fun h => .inr ⟨_, h, rfl⟩
  rw [htext, hcode]
  simp

/-- In the text the start of a loop is followed by the remark on its place. -/
theorem heading_infix_rows {p : Program} {x y : List Call} {pos : Position}
    (h : p.calls = x ++ .enterLoop pos :: y) (o : Options) :
    [((Label.loopStart (x.countP Call.isEnter)).text o.target ++ ":").toList,
      ("    # loop at " ++ pos.display).toList] <:+: rows (p.assembly o) := by
  have hheading := (Draft.heading_infix o {} x y pos).map (Line.row o.target)
  have hremark : ("    # loop at " ++ pos.display).toList =
      (Line.loopComment pos).row o.target := by
    rw [String.toList_append]
    show _ = "    ".toList ++ ("# loop at " ++ pos.display).toList
    rw [String.toList_append, ← List.append_assoc]
    rfl
  rw [← h, Nat.zero_add] at hheading
  rw [hremark, rows_assembly, codeLines, List.map_append, List.append_assoc]
  exact (hheading.trans (List.prefix_append _ _).isInfix).trans
    ((List.suffix_append _ _).isInfix.trans (List.suffix_append _ _).isInfix)

end Program

namespace Generator

/-- Whatever calls a new generator is given, and whether or not a whole program follows, the text
can be read, defines no label twice, jumps back only to loops that it has started, and nests loops
properly. Leaving a loop when none is open fails and writes only what was held back. In the assembly
of a source every jump has exactly one label, and the loops are numbered by their brackets. -/
theorem labels_unique_and_jumps_matched (o : Options) :
    (∀ (sink : Sink) (cs : List Call) (last : Option Program), sink.limit = none →
      let g := session { options := o, sink } cs last
      ∃ text file, g.sink.accepted.toList = sink.accepted.toList ++ Sink.bytesOf text ∧
        X86.File.ofText? text.toList = some file ∧ file.labels.Nodup ∧
        JumpsBack o.target file ∧ Nested o.target g.loops file) ∧
    (∀ (g : Generator) (pos : Position), g.sink.limit = none → g.loops = [] →
      call (.exitLoop pos) g = .error .noOpenLoop (leaves flush g)) ∧
    ∀ (src : Source) (p : Program), src.program = .ok p →
      ∃ count g file, p.compile o {} = .ok count g ∧
        g.sink.accepted.toList = Sink.bytesOf (p.assembly o) ∧
        X86.File.ofText? (p.assembly o).toList = some file ∧ Closed o.target file ∧
        (∀ name ∈ file.jumpTargets, file.labels.count name = 1) ∧
        (∀ k, (Label.loopStart k).text o.target ∈ file.labels ↔
          k < src.count Symbol.opening.byte) ∧
        ∀ before after, src = before ++ Symbol.opening.byte :: after →
          let k := before.count Symbol.opening.byte
          [((Label.loopStart k).text o.target ++ ":").toList,
            ("    # loop at " ++ (Position.start.after before).display).toList] <:+:
              rows (p.assembly o) := by
  refine ⟨?_, fun g pos hlimit hloops => call_exitLoop_of_none_open hlimit hloops pos, ?_⟩
  · intro sink cs last hlimit g
    obtain ⟨hloops, text, haccepted, hreads⟩ := session_text o sink cs last hlimit
    have hnodup := nodup_labels_sessionFile o cs last
    have htidy := tidy_sessionFile o cs last
    refine ⟨text, sessionFile o cs last, haccepted, ?_, hnodup, htidy.back, hloops ▸ htidy.nested⟩
    rw [X86.File.ofText?, hreads.ofLines?, Option.filter_some, if_pos (decide_eq_true hnodup)]
  · intro src p hp
    obtain ⟨g, hg, haccepted⟩ := p.compile_eq o
    refine ⟨_, g, p.file o, hg, haccepted, p.ofText?_assembly o, p.closed_file o,
      fun name hname => p.count_of_mem_jumpTargets hname, fun k => ?_, ?_⟩
    · rw [Program.loopStart_mem_labels, Source.countP_isEnter_calls hp]
    · rintro before after rfl
      obtain ⟨x, y, hspell, hcount⟩ := Source.exists_enterLoop hp
      have hcalls : p.calls = x ++ .enterLoop (Position.start.after before) :: (y ++ [.finish]) := by
        rw [Program.calls_eq, hspell, List.append_assoc, List.cons_append]
      have hheading := Program.heading_infix_rows hcalls o
      rw [hcount] at hheading
      exact hheading

/-- After a stray exit two loops are entered and one of them is left, so the other is open when a
program with a loop of its own is written. In the assembly of `[[]]` loop 1 is the inner one. -/
theorem loops_numbered_after_stray_exit :
    (let cs : List Call := [.exitLoop .start, .enterLoop .start, .enterLoop .start, .exitLoop .start]
      ∃ text file, (session {} cs (some (.loop .start .nil .nil))).sink.accepted.toList =
          Sink.bytesOf text ∧
        X86.File.ofText? text.toList = some file ∧ file.labels.Nodup ∧ Nested .linux [0] file) ∧
    ∃ p, Source.program [91, 91, 93, 93] = .ok p ∧
      [".Lloop_start_1:".toList, "    # loop at 1:2".toList] <:+: rows (p.assembly {}) := by
  obtain ⟨hsession, -, hsource⟩ := labels_unique_and_jumps_matched {}
  constructor
  · intro cs
    obtain ⟨text, file, haccepted, hfile, hnodup, -, hnested⟩ :=
      hsession {} cs (some (.loop .start .nil .nil)) rfl
    rw [(session_text {} {} cs (some (.loop .start .nil .nil)) rfl).1] at hnested
    exact ⟨text, file, haccepted, hfile, hnodup, hnested⟩
  · have hp : Source.program [91, 91, 93, 93] =
        .ok (.loop ⟨1, 1, 0⟩ (.loop ⟨1, 2, 1⟩ .nil .nil) .nil) := rfl
    obtain ⟨-, -, -, -, -, -, -, -, -, hrows⟩ := hsource _ _ hp
    exact ⟨_, hp, hrows [91] [93, 93] rfl⟩

end Generator

end TapeLang
