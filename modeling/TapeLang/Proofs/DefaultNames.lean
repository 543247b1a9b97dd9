import TapeLang.Compiler

/-!
The names that products get by default. A name is cut at its last dot, unless nothing stands before
it. An executable is named after the stem of its input. For the assembly the stem is taken for a
name and loses an extension of its own, so that stems which differ in this extension only are given
the same assembly file.
-/
namespace TapeLang

namespace FileName

theorem cutLastDot?_of_notMem {cs : List Char} (h : '.' ∉ cs) : cutLastDot? cs = none := by
  induction cs with
  | nil => rfl
  | cons c rest ih =>
    obtain ⟨hc, hrest⟩ := not_or.mp (mt List.mem_cons.mpr h)
    rw [cutLastDot?, ih hrest]
    exact if_neg (Ne.symm hc)

theorem cutLastDot?_append (before : List Char) {after : List Char} (h : '.' ∉ after) :
    cutLastDot? (before ++ '.' :: after) = some (before, after) := by
  induction before with
  | nil =>
    rw [List.nil_append, cutLastDot?, cutLastDot?_of_notMem h]
    rfl
  | cons c before ih => rw [List.cons_append, cutLastDot?, ih]

theorem exists_last_dot {cs : List Char} (h : '.' ∈ cs) :
    ∃ before after, cs = before ++ '.' :: after ∧ '.' ∉ after := by
  obtain ⟨after, before, hreverse, hafter⟩ := List.eq_append_cons_of_mem (List.mem_reverse.mpr h)
  refine ⟨before.reverse, after.reverse, ?_, mt List.mem_reverse.mp hafter⟩
  rw [← List.reverse_reverse cs, hreverse]
  simp

/-- The last dot of the name stands between `before` and `ext`, and is not its first character. -/
structure Cut (name before ext : String) : Prop where
  eq : name = before ++ "." ++ ext
  nonempty : before ≠ ""
  last : '.' ∉ ext.toList

variable {name before ext : String}

theorem Cut.toList (h : Cut name before ext) :
    name.toList = before.toList ++ '.' :: ext.toList := by
  rw [h.eq, String.toList_append, String.toList_append, List.append_assoc]
  rfl

theorem Cut.unique {before' ext' : String} (h : Cut name before ext)
    (h' : Cut name before' ext') : before = before' := by
  have hcut := cutLastDot?_append before.toList h.last
  rw [← h.toList, h'.toList, cutLastDot?_append _ h'.last] at hcut
  exact String.toList_inj.mp (Prod.mk.inj (Option.some.inj hcut)).1.symm

/-- Two dots are no name, so they are not cut. -/
theorem split_of_cut (h : Cut name before ext) (hdots : name ≠ "..") :
    split name = (before, some ext) := by
  rw [split, if_neg hdots, h.toList, cutLastDot?_append _ h.last]
  cases hb : before.toList with
  | nil => exact absurd (String.toList_eq_nil_iff.mp hb) h.nonempty
  | cons c cs =>
    show (String.ofList (c :: cs), some (String.ofList ext.toList)) = _
    rw [← hb, String.ofList_toList, String.ofList_toList]

theorem split_of_not_cut (h : ∀ before ext, ¬ Cut name before ext) : split name = (name, none) := by
  rw [split]
  split
  · rfl
  · by_cases hdot : '.' ∈ name.toList
    · obtain ⟨before, after, hname, hafter⟩ := exists_last_dot hdot
      rw [hname, cutLastDot?_append _ hafter]
      cases before with
      | nil => rfl
      | cons c cs =>
        refine absurd ⟨?_, ?_, ?_⟩ (h (String.ofList (c :: cs)) (String.ofList after))
        · apply String.toList_inj.mp
          rw [hname]
          simp
        · simp
        · simpa using hafter
    · rw [cutLastDot?_of_notMem hdot]

theorem stem_of_cut (h : Cut name before ext) (hdots : name ≠ "..") : stem name = before := by
  rw [stem, split_of_cut h hdots]

/-- The name is more than dots and has no extension. -/
def Plain (name : String) : Prop := name ≠ "." ∧ name ≠ ".." ∧ extension? name = none

instance (name : String) : Decidable (Plain name) := inferInstanceAs (Decidable (_ ∧ _ ∧ _))

theorem cut_dots : Cut ".." "." "" := ⟨by decide, by decide, by decide⟩

theorem plain_iff : Plain name ↔ name ≠ "." ∧ ∀ before ext, ¬ Cut name before ext := by
  constructor
  · rintro ⟨hdot, hdots, hnone⟩
    refine ⟨hdot, fun before ext hcut => ?_⟩
    rw [extension?, split_of_cut hcut hdots] at hnone
    cases hnone
  · rintro ⟨hdot, hcut⟩
    refine ⟨hdot, ?_, ?_⟩
    · rintro rfl
      exact hcut _ _ cut_dots
    · rw [extension?, split_of_not_cut hcut]

theorem withExtension_of_plain (h : Plain name) (new : String) :
    withExtension name new = name ++ "." ++ new := by
  have hsplit := split_of_not_cut (plain_iff.mp h).2
  have hbase : upToDot name = name := by rw [upToDot, hsplit]
  rw [withExtension, hbase, if_neg (not_or.mpr ⟨h.1, h.2.1⟩), stem, hsplit]

/-- The extension is replaced, but for a name that would be left with nothing before its dot but
another dot. -/
theorem withExtension_of_cut (h : Cut name before ext) (new : String) :
    withExtension name new = if before = "." then ".." else before ++ "." ++ new := by
  by_cases hdots : name = ".."
  · subst hdots
    rw [if_pos (h.unique cut_dots)]
    rfl
  · have hbase : upToDot name = before ++ "." := by rw [upToDot, split_of_cut h hdots]
    have hshorter : Cut (before ++ ".") before "" :=
      ⟨String.append_empty.symm, h.nonempty, List.not_mem_nil⟩
    have hone : before ++ "." ≠ "." := fun heq =>
      h.nonempty ((String.append_left_inj ".").mp (heq.trans String.empty_append.symm))
    have htwo : before ++ "." = ".." ↔ before = "." := by
      rw [cut_dots.eq, String.append_empty, String.append_left_inj]
    rw [withExtension, hbase]
    by_cases hb : before = "."
    · rw [if_pos hb, if_pos (Or.inr (htwo.mpr hb)), htwo.mpr hb]
    · have hne : ¬ (before ++ "." = "." ∨ before ++ "." = "..") :=
        not_or.mpr ⟨hone, mt htwo.mp hb⟩
      rw [if_neg hb, if_neg hne, stem_of_cut hshorter (mt htwo.mp hb)]

end FileName

namespace Compiler

open FileName

variable {input name : String}

theorem defaultOutput_exe (h : ofPath? input = some name) :
    defaultOutput input .exe = stem name := by
  rw [defaultOutput, h]

theorem defaultOutput_asm (h : ofPath? input = some name) :
    defaultOutput input .asm = withExtension (stem name) "s" := by
  rw [defaultOutput, h]

theorem defaultOutput_asm_of_plain (h : ofPath? input = some name) (hplain : Plain (stem name)) :
    defaultOutput input .asm = stem name ++ ".s" := by
  rw [defaultOutput_asm h, withExtension_of_plain hplain, String.append_assoc]
  rfl

theorem defaultOutput_asm_of_cut {before ext : String} (h : ofPath? input = some name)
    (hcut : Cut (stem name) before ext) :
    defaultOutput input .asm = if before = "." then ".." else before ++ ".s" := by
  rw [defaultOutput_asm h, withExtension_of_cut hcut, String.append_assoc]
  rfl

theorem defaultOutput_asm_of_dot (h : ofPath? input = some name) (hdot : stem name = ".") :
    defaultOutput input .asm = "." := by
  rw [defaultOutput_asm h, hdot]
  rfl

/-- The text that ends in `.s` is none that is all dots. -/
theorem append_s_ne (s : String) : s ++ ".s" ≠ "." ∧ s ++ ".s" ≠ ".." := by
  have hlast (t : String) (heq : s ++ ".s" = t) : t.toList.getLast? = some 's' := by
    rw [← heq, String.toList_append]
    simp
  exact ⟨fun heq => absurd (hlast _ heq) (by decide), fun heq => absurd (hlast _ heq) (by decide)⟩

/-- The assembly is named after the stem only if the stem has no extension of its own. -/
theorem plain_of_defaultOutput_asm (h : ofPath? input = some name)
    (hasm : defaultOutput input .asm = stem name ++ ".s") : Plain (stem name) := by
  obtain ⟨hdot, hdots⟩ := append_s_ne (stem name)
  refine plain_iff.mpr ⟨fun heq => ?_, fun before ext hcut => ?_⟩
  · rw [defaultOutput_asm_of_dot h heq] at hasm
    exact hdot hasm.symm
  · rw [defaultOutput_asm_of_cut h hcut] at hasm
    split at hasm
    · exact hdots hasm.symm
    · have hlength := congrArg String.length hasm
      rw [hcut.eq] at hlength
      simp only [String.length_append] at hlength
      have hone : ".".length = 1 := rfl
      omega

/-- An executable is named after the stem of its input. The assembly is named after the stem if this
has no extension of its own. Such an extension is lost, and a stem of one or two dots is left alone.
So inputs with different stems have different assembly files if both stems have no extension. -/
theorem default_assembly_loses_inner_extension (input name : String)
    (h : ofPath? input = some name) :
    defaultOutput input .exe = stem name ∧
    (defaultOutput input .asm = stem name ++ ".s" ↔ Plain (stem name)) ∧
    (∀ before ext, Cut (stem name) before ext →
      defaultOutput input .asm = if before = "." then ".." else before ++ ".s") ∧
    (stem name = "." → defaultOutput input .asm = ".") ∧
    ∀ input' name', ofPath? input' = some name' → Plain (stem name) → Plain (stem name') →
      (defaultOutput input .asm = defaultOutput input' .asm ↔ stem name = stem name') := by
  refine ⟨defaultOutput_exe h, ⟨plain_of_defaultOutput_asm h, defaultOutput_asm_of_plain h⟩,
    fun _ _ => defaultOutput_asm_of_cut h, defaultOutput_asm_of_dot h, ?_⟩
  intro input' name' h' hplain hplain'
  rw [defaultOutput_asm_of_plain h hplain, defaultOutput_asm_of_plain h' hplain',
    String.append_left_inj]

/-- The stem `a.b` loses its extension. The stem `c` of another directory has none. -/
theorem default_names_of_dotted_and_plain_stem :
    let path := "x/a.b.bf"
    ofPath? path = some "a.b.bf" ∧ Cut (stem "a.b.bf") "a" "b" ∧ ¬ Plain (stem "a.b.bf") ∧
      defaultOutput path .exe = "a.b" ∧ defaultOutput path .asm = "a.s" ∧
      defaultOutput path .asm ≠ stem "a.b.bf" ++ ".s" ∧
      ofPath? "y/c.bf" = some "c.bf" ∧ defaultOutput "y/c.bf" .asm = "c.s" := by
  intro path
  have hname : ofPath? path = some "a.b.bf" := by decide
  have hother : ofPath? "y/c.bf" = some "c.bf" := by decide
  have hcut : Cut (stem "a.b.bf") "a" "b" := ⟨by decide, by decide, by decide⟩
  have hnot : ¬ Plain (stem "a.b.bf") := by decide
  obtain ⟨hexe, hasm, hlost, -, -⟩ := default_assembly_loses_inner_extension path _ hname
  obtain ⟨-, hasm', -, -, -⟩ := default_assembly_loses_inner_extension "y/c.bf" _ hother
  exact ⟨hname, hcut, hnot, hexe, hlost _ _ hcut, mt hasm.mp hnot, hother,
    hasm'.mpr (by decide)⟩

/-- The inputs `a.b.bf` and `a.c.bf` have different stems, and one default assembly file, which is
not named after the stem. -/
theorem default_assembly_of_dotted_stems_clashes :
    ofPath? "a.b.bf" = some "a.b.bf" ∧ ofPath? "a.c.bf" = some "a.c.bf" ∧
    stem "a.b.bf" ≠ stem "a.c.bf" ∧
    defaultOutput "a.b.bf" .asm = defaultOutput "a.c.bf" .asm ∧
    defaultOutput "a.b.bf" .asm ≠ stem "a.b.bf" ++ ".s" := by
  decide

end Compiler

end TapeLang
