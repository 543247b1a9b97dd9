import TapeLang.Proofs.AssemblyText

/-!
The rows of an assembly text. A row is what stands between two line ends. Every line of the code is
one row, and the rows that frame the code depend on the target alone.
-/
namespace TapeLang

open Assembly

/-- The rows of a text. What follows the last line end is a row as well. -/
def rows (text : String) : List (List Char) := text.toList.splitOn '\n'

theorem rows_append_newline (s t : String) : rows (s ++ "\n" ++ t) = rows s ++ rows t := by
  have hsplit := List.splitOnP_append_cons (p := (· == '\n')) s.toList t.toList
    (show ('\n' == '\n') = true from rfl)
  simp only [rows, String.toList_append, List.append_assoc]
  exact hsplit

/-- Texts that are one row each and end it are the rows of their join. -/
theorem rows_join {α : Type} {text : α → String} {row : α → List Char} {xs : List α}
    (htext : ∀ x ∈ xs, (text x).toList = row x ++ ['\n']) (hrow : ∀ x ∈ xs, '\n' ∉ row x)
    (rest : String) : rows (String.join (xs.map text) ++ rest) = xs.map row ++ rows rest := by
  induction xs with
  | nil =>
    rw [List.map_nil, String.join_nil, String.empty_append]
    rfl
  | cons x xs ih =>
    have hrest := ih (fun y hy => htext y (List.mem_cons_of_mem _ hy))
      (fun y hy => hrow y (List.mem_cons_of_mem _ hy))
    unfold rows at hrest ⊢
    rw [List.map_cons, String.join_cons, String.append_assoc, String.toList_append,
      htext x List.mem_cons_self, List.append_assoc, List.singleton_append,
      List.splitOn_append_cons_self_of_not_mem (hrow x List.mem_cons_self), hrest, List.map_cons,
      List.cons_append]

namespace Assembly

/-- The row of a line of the code, with its indentation. -/
def Line.row (t : Target) (l : Line) : List Char :=
  (if l.isIndentable then "    " else "").toList ++ (l.text t).toList

theorem Line.newline_notMem_row {l : Line} (h : l.isCode = true) (t : Target) :
    '\n' ∉ l.row t := by
  have htext := newline_notMem_line t l (ne_tapeDeclaration_of_isCode h)
  have hindent : '\n' ∉ (if l.isIndentable then "    " else "").toList := by
    split <;> decide
  intro hmem
  rcases List.mem_append.mp hmem with hmem | hmem
  · exact hindent hmem
  · exact htext hmem

theorem Line.toList_render (t : Target) (l : Line) :
    (l.render t true).toList = l.row t ++ ['\n'] := by
  rw [render, String.toList_append, String.toList_append]
  rfl

theorem rows_join_render (t : Target) {ls : List Line} (h : ∀ l ∈ ls, l.isCode = true)
    (rest : String) :
    rows (String.join (ls.map (Line.render t true)) ++ rest) = ls.map (Line.row t) ++ rows rest :=
  rows_join (fun l _ => Line.toList_render t l) (fun l hl => Line.newline_notMem_row (h l hl) t)
    rest

/-- What stands before the code, up to the line end of the entry label. -/
def header (t : Target) : String :=
  String.join (t.prologue.map fun line => line ++ "\n") ++ Line.render t false .textSection ++
    Line.render t false .exportEntry ++ Line.text t .entry

/-- What stands after the code. -/
def trailer (t : Target) : String :=
  Line.render t false .blank ++ Line.render t false .tapeDeclaration

end Assembly

namespace Program

theorem assembly_eq (o : Options) (p : Program) :
    p.assembly o = header o.target ++ "\n" ++
      (String.join ((p.codeLines o {}).map (Line.render o.target true)) ++ trailer o.target) := by
  have hentry : Line.render o.target false .entry = Line.text o.target .entry ++ "\n" := by
    rw [Line.render, Bool.false_and, if_neg (by decide), String.empty_append]
  simp only [assembly, texts, header, trailer, hentry, List.map_cons, List.map_nil,
    String.join_append, String.join_cons, String.join_nil, String.append_empty,
    String.append_assoc]

theorem rows_assembly (o : Options) (p : Program) :
    rows (p.assembly o) = rows (header o.target) ++
      ((p.codeLines o {}).map (Line.row o.target) ++ rows (trailer o.target)) := by
  rw [assembly_eq, rows_append_newline,
    rows_join_render o.target fun l hl => isCode_of_mem_codeLines hl]

end Program

end TapeLang
