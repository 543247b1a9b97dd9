import TapeLang.Proofs.AssemblyText

/-!
The lines that a generator counts, against the line ends in the text that it writes. Every line is
counted once and ends once, but for the declaration of the tape: it is counted as one line, and on
Linux it is two. So the count is exact on Darwin and one short on Linux.
-/
namespace TapeLang

open Assembly

/-- The number of line ends in a text. -/
def newlines (text : String) : Nat := text.toList.count '\n'

theorem newlines_append (s t : String) : newlines (s ++ t) = newlines s + newlines t := by
  rw [newlines, String.toList_append, List.count_append]
  rfl

theorem newlines_of_notMem {s : String} (h : '\n' ∉ s.toList) : newlines s = 0 :=
  List.count_eq_zero_of_not_mem h

/-- Texts that end one line each have as many line ends as there are texts. -/
theorem newlines_join {texts : List String} (h : ∀ text ∈ texts, newlines text = 1) :
    newlines (String.join texts) = texts.length := by
  induction texts with
  | nil => rfl
  | cons text rest ih =>
    have hfirst := h text List.mem_cons_self
    have hrest := ih fun text' hmem => h text' (List.mem_cons_of_mem _ hmem)
    rw [String.join_cons, newlines_append, hfirst, hrest, List.length_cons, Nat.add_comm]

namespace Assembly

theorem Line.newlines_render (t : Target) (indented : Bool) (l : Line) :
    newlines (l.render t indented) = newlines (l.text t) + 1 := by
  have hindent : newlines (if indented && l.isIndentable then "    " else "") = 0 := by
    split <;> rfl
  rw [render, newlines_append, newlines_append, hindent, Nat.zero_add]
  rfl

theorem Line.newlines_render_of_ne (t : Target) (indented : Bool) {l : Line}
    (h : l ≠ .tapeDeclaration) : newlines (l.render t indented) = 1 := by
  rw [newlines_render, newlines_of_notMem (newline_notMem_line t l h)]

theorem newlines_prologue (t : Target) :
    newlines (String.join (t.prologue.map fun line => line ++ "\n")) = t.prologue.length := by
  cases t <;> rfl

theorem newlines_tapeDeclaration (t : Target) :
    newlines (Line.text t .tapeDeclaration) = if t = .linux then 1 else 0 := by
  cases t <;> rfl

end Assembly

namespace Program

/-- All lines but the declaration of the tape are one line of the text. -/
theorem newlines_assembly (o : Options) (p : Program) :
    newlines (p.assembly o) = p.lineCount o {} + if o.target = .linux then 1 else 0 := by
  have hcode : newlines (String.join ((p.codeLines o {}).map (Line.render o.target true))) =
      (p.codeLines o {}).length := by
    rw [newlines_join, List.length_map]
    intro text hmem
    obtain ⟨l, hl, rfl⟩ := List.mem_map.mp hmem
    exact Line.newlines_render_of_ne o.target true
      (Line.ne_tapeDeclaration_of_isCode (isCode_of_mem_codeLines hl))
  have hframe (l : Line) (h : l ≠ .tapeDeclaration) :
      newlines (Line.render o.target false l) = 1 := Line.newlines_render_of_ne o.target false h
  rw [assembly, texts, String.join_append, String.join_append, String.join_append]
  simp only [newlines_append, hcode, List.map_cons, List.map_nil, String.join_cons,
    String.join_nil, newlines_prologue, hframe .textSection (by simp),
    hframe .exportEntry (by simp), hframe .entry (by simp), hframe .blank (by simp),
    Line.newlines_render o.target false .tapeDeclaration, newlines_tapeDeclaration]
  have hempty : newlines "" = 0 := rfl
  rw [hempty, lineCount]
  omega

/-- The count that a compilation answers is the number of line ends in the text that it has written
for Darwin, and one less than that for Linux, where the tape is declared in two lines. -/
theorem line_count_is_one_short_on_linux (o : Options) (p : Program) :
    ∃ count g text, p.compile o {} = .ok count g ∧ g.sink.accepted.toList = Sink.bytesOf text ∧
      newlines text = count + if o.target = .linux then 1 else 0 := by
  obtain ⟨g, hcompile, haccepted⟩ := p.compile_eq o
  exact ⟨p.lineCount o {}, g, p.assembly o, hcompile, haccepted, p.newlines_assembly o⟩

/-- The empty source is compiled to 20 lines for Linux, of which 19 are counted. -/
theorem line_count_of_empty_source :
    Source.program [] = .ok .nil ∧
      ∃ g text, Program.nil.compile { target := .linux } {} = .ok 19 g ∧
        g.sink.accepted.toList = Sink.bytesOf text ∧ newlines text = 20 := by
  have hcount : Program.nil.lineCount { target := .linux } {} = 19 := by
    rw [lineCount, codeLines, calls_eq]
    rfl
  obtain ⟨g, hcompile, haccepted⟩ := Program.nil.compile_eq { target := .linux }
  have hnewlines := Program.nil.newlines_assembly { target := .linux }
  rw [hcount] at hcompile hnewlines
  exact ⟨rfl, g, _, hcompile, haccepted, hnewlines⟩

end Program

end TapeLang
