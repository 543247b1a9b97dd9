import Mathlib.Data.List.Induction
import Mathlib.Data.Nat.Digits.Defs
import TapeLang.OptLevel

/-!
Optimization levels as text. A level is spelled with decimal digits, behind an `O` and a `+` that
may both be left out. Its number is built up digit by digit in a byte, and a text is given up as
soon as the number leaves the byte. Main statement: a text is read as a level exactly if it spells
the number of the level, with any number of zeros in front, and every other text is quoted in the
error.
-/
namespace TapeLang.OptLevel

/-- Decimal digits, the most significant one first. -/
abbrev Numeral := List (Fin 10)

theorem isDigit_digitChar (d : Fin 10) : (Nat.digitChar d).isDigit = true := by
  rw [Nat.isDigit_digitChar]
  exact decide_eq_true d.isLt

namespace Numeral

def chars (digits : Numeral) : List Char := digits.map fun d => Nat.digitChar d.val

def value (digits : Numeral) : Nat := Nat.ofDigits 10 (digits.reverse.map Fin.val)

variable (digits : Numeral)

theorem chars_concat (d : Fin 10) :
    chars (digits ++ [d]) = digits.chars ++ [Nat.digitChar d] := by
  simp [chars]

theorem value_concat (d : Fin 10) : value (digits ++ [d]) = digits.value * 10 + d := by
  rw [value, List.reverse_append, List.reverse_singleton, List.singleton_append, List.map_cons,
    Nat.ofDigits_cons, Nat.add_comm, Nat.mul_comm, value]

theorem eq_of_chars_eq {digits digits' : Numeral} (h : digits.chars = digits'.chars) :
    digits = digits' := by
  refine (List.map_inj_right fun a b hchar => ?_).mp h
  have hcode := congrArg Char.toNat hchar
  rw [Nat.toNat_digitChar_of_lt_ten a.isLt, Nat.toNat_digitChar_of_lt_ten b.isLt] at hcode
  exact Fin.ext (Nat.add_left_cancel hcode)

theorem head?_chars_ne {c : Char} (h : c.isDigit = false) : digits.chars.head? ≠ some c := by
  intro hhead
  obtain ⟨d, -, rfl⟩ := List.mem_map.mp (List.mem_of_mem_head? hhead)
  rw [isDigit_digitChar] at h
  cases h

end Numeral

/-! Reading digits into a byte. -/

theorem toByte?_eq_some_iff {n : Nat} {b : UInt8} : toByte? n = some b ↔ b.toNat = n := by
  rw [toByte?]
  constructor
  · intro h
    split at h
    case isTrue hn =>
      cases h
      exact UInt8.toNat_ofNat_of_lt' hn
    case isFalse => cases h
  · rintro rfl
    rw [if_pos b.toNat_lt_size, UInt8.ofNat_toNat]

theorem digit?_eq_some_iff {c : Char} {b : UInt8} :
    digit? c = some b ↔ ∃ d : Fin 10, Nat.digitChar d = c ∧ b.toNat = d := by
  rw [digit?]
  constructor
  · intro h
    split at h
    case isTrue hc =>
      cases h
      obtain ⟨hlow, hhigh⟩ : 48 ≤ c.toNat ∧ c.toNat ≤ 57 := Char.isDigit_iff_toNat.mp hc
      have hd : c.toNat - 48 < 10 := by omega
      refine ⟨⟨c.toNat - 48, hd⟩, Char.toNat_inj.mp ?_, ?_⟩
      · rw [Nat.toNat_digitChar_of_lt_ten hd]
        omega
      · exact UInt8.toNat_ofNat_of_lt' (hd.trans (by decide))
    case isFalse => cases h
  · rintro ⟨d, rfl, hb⟩
    rw [if_pos (isDigit_digitChar d), Nat.toNat_digitChar_sub_48_of_lt_ten d.isLt, ← hb,
      UInt8.ofNat_toNat]

/-- The product is never above the sum, so that the sum alone decides. -/
theorem appendDigit?_eq_some_iff {n m : UInt8} {c : Char} :
    appendDigit? n c = some m ↔
      ∃ d : Fin 10, Nat.digitChar d = c ∧ m.toNat = n.toNat * 10 + d := by
  constructor
  · intro h
    obtain ⟨tens, htens, h⟩ := Option.bind_eq_some_iff.mp h
    obtain ⟨b, hb, h⟩ := Option.bind_eq_some_iff.mp h
    obtain ⟨d, hc, hd⟩ := digit?_eq_some_iff.mp hb
    rw [toByte?_eq_some_iff] at htens h
    exact ⟨d, hc, by rw [h, htens, hd]⟩
  · rintro ⟨d, hc, hm⟩
    have hsize : n.toNat * 10 < UInt8.size := by
      have := m.toNat_lt_size
      omega
    have htens := UInt8.toNat_ofNat_of_lt' hsize
    have hd : (UInt8.ofNat d).toNat = d := UInt8.toNat_ofNat_of_lt' (d.isLt.trans (by decide))
    refine Option.bind_eq_some_iff.mpr ⟨_, toByte?_eq_some_iff.mpr htens, ?_⟩
    refine Option.bind_eq_some_iff.mpr ⟨_, digit?_eq_some_iff.mpr ⟨d, hc, hd⟩, ?_⟩
    rw [toByte?_eq_some_iff, htens, hd, hm]

theorem foldlM_appendDigit?_concat {text : List Char} {c : Char} {m : UInt8} :
    (text ++ [c]).foldlM appendDigit? 0 = some m ↔
      ∃ k, text.foldlM appendDigit? 0 = some k ∧ appendDigit? k c = some m := by
  rw [List.foldlM_append]
  simp only [List.foldlM_cons, List.foldlM_nil, bind_pure]
  exact Option.bind_eq_some_iff

/-- The loop over the digits succeeds exactly if their value is a byte, which it then returns. -/
theorem foldlM_appendDigit?_eq_some_iff {text : List Char} {m : UInt8} :
    text.foldlM appendDigit? 0 = some m ↔
      ∃ digits : Numeral, digits.chars = text ∧ digits.value = m.toNat := by
  induction text using List.reverseRecOn generalizing m with
  | nil =>
    constructor
    · intro h
      cases h
      exact ⟨[], rfl, rfl⟩
    · rintro ⟨digits, hchars, hvalue⟩
      cases List.map_eq_nil_iff.mp hchars
      exact congrArg some (UInt8.toNat_inj.mp hvalue)
  | append_singleton text c ih =>
    rw [foldlM_appendDigit?_concat]
    constructor
    · rintro ⟨k, hk, hm⟩
      obtain ⟨digits, rfl, hvalue⟩ := ih.mp hk
      obtain ⟨d, rfl, hd⟩ := appendDigit?_eq_some_iff.mp hm
      exact ⟨digits ++ [d], digits.chars_concat d, by rw [digits.value_concat, hvalue, hd]⟩
    · rintro ⟨digits, hchars, hvalue⟩
      obtain ⟨front, last, rfl, hfront, hlast⟩ := List.map_eq_append_iff.mp hchars
      obtain ⟨d, rfl, hd⟩ := List.map_eq_singleton_iff.mp hlast
      rw [Numeral.value_concat] at hvalue
      have hsize : Numeral.value front < UInt8.size := by
        have := m.toNat_lt_size
        omega
      have hk := UInt8.toNat_ofNat_of_lt' hsize
      refine ⟨_, ih.mpr ⟨front, hfront, hk.symm⟩, appendDigit?_eq_some_iff.mpr ⟨d, hd, ?_⟩⟩
      rw [hk, hvalue]

/-! Characters that may stand in front. -/

def perhaps (c : Char) (present : Bool) : List Char := if present then [c] else []

theorem exists_perhaps_append (c : Char) (text : List Char) :
    ∃ present, perhaps c present ++ dropLeading c text = text := by
  cases text with
  | nil => exact ⟨false, rfl⟩
  | cons d rest =>
    rw [dropLeading]
    split
    case isTrue h => exact ⟨true, congrArg (· :: rest) h.symm⟩
    case isFalse => exact ⟨false, rfl⟩

theorem dropLeading_perhaps_append {c : Char} (present : Bool) {text : List Char}
    (h : text.head? ≠ some c) : dropLeading c (perhaps c present ++ text) = text := by
  cases present with
  | true => exact if_pos rfl
  | false =>
    cases text with
    | nil => rfl
    | cons d rest => exact if_neg fun hd => h (congrArg some hd)

theorem dropLeading_plus (plus : Bool) (digits : Numeral) :
    dropLeading '+' (perhaps '+' plus ++ digits.chars) = digits.chars :=
  dropLeading_perhaps_append plus (digits.head?_chars_ne (by decide))

theorem byte?_eq_some_iff {text : List Char} {m : UInt8} :
    byte? text = some m ↔ ∃ (plus : Bool) (digits : Numeral),
      digits ≠ [] ∧ perhaps '+' plus ++ digits.chars = text ∧ digits.value = m.toNat := by
  have hloop : byte? text = some m ↔ dropLeading '+' text ≠ [] ∧
      (dropLeading '+' text).foldlM appendDigit? 0 = some m := by
    rw [byte?]
    cases dropLeading '+' text <;> simp
  rw [hloop, foldlM_appendDigit?_eq_some_iff]
  constructor
  · rintro ⟨hne, digits, hchars, hvalue⟩
    obtain ⟨plus, hplus⟩ := exists_perhaps_append '+' text
    refine ⟨plus, digits, ?_, by rw [hchars, hplus], hvalue⟩
    rintro rfl
    exact hne hchars.symm
  · rintro ⟨plus, digits, hne, rfl, hvalue⟩
    rw [dropLeading_plus]
    exact ⟨mt List.map_eq_nil_iff.mp hne, digits, rfl, hvalue⟩

/-- A way to write a number: perhaps an `O`, perhaps a `+`, then decimal digits. -/
structure Spelling where
  letter : Bool
  plus : Bool
  digits : Numeral
  nonempty : digits ≠ []

namespace Spelling

def text (p : Spelling) : String :=
  String.ofList (perhaps 'O' p.letter ++ (perhaps '+' p.plus ++ p.digits.chars))

def value (p : Spelling) : Nat := p.digits.value

theorem dropLeading_letter (p : Spelling) :
    dropLeading 'O' p.text.toList = perhaps '+' p.plus ++ p.digits.chars := by
  rw [text, String.toList_ofList]
  apply dropLeading_perhaps_append
  cases p.plus with
  | true => simp [perhaps]
  | false => exact p.digits.head?_chars_ne (by decide)

theorem value_eq_of_text_eq {p q : Spelling} (h : p.text = q.text) : p.value = q.value := by
  have hdigits : p.digits.chars = q.digits.chars := by
    rw [← dropLeading_plus p.plus, ← p.dropLeading_letter, h, q.dropLeading_letter,
      dropLeading_plus]
  exact congrArg Numeral.value (Numeral.eq_of_chars_eq hdigits)

end Spelling

theorem level_le (l : OptLevel) : l.level ≤ 3 := by
  cases l <;> decide

theorem exists_level_eq {n : Nat} (h : n ≤ 3) : ∃ l : OptLevel, l.level = n := by
  rcases n with _ | _ | _ | _ | n
  · exact ⟨O0, rfl⟩
  · exact ⟨O1, rfl⟩
  · exact ⟨O2, rfl⟩
  · exact ⟨O3, rfl⟩
  · omega

theorem ofText?_eq_some_iff {s : String} {l : OptLevel} :
    ofText? s = some l ↔ ∃ p : Spelling, p.text = s ∧ p.value = l.level := by
  constructor
  · intro h
    obtain ⟨m, hm, hl⟩ := Option.bind_eq_some_iff.mp h
    obtain ⟨plus, digits, hne, hchars, hvalue⟩ := byte?_eq_some_iff.mp hm
    obtain ⟨letter, hletter⟩ := exists_perhaps_append 'O' s.toList
    refine ⟨⟨letter, plus, digits, hne⟩, ?_, hvalue.trans (level_of_ofLevel? hl).symm⟩
    rw [Spelling.text, hchars, hletter, String.ofList_toList]
  · rintro ⟨p, rfl, hvalue⟩
    have hlevel : (UInt8.ofNat l.level).toNat = l.level :=
      UInt8.toNat_ofNat_of_lt' (l.level_le.trans_lt (by decide))
    have hbyte : byte? (perhaps '+' p.plus ++ p.digits.chars) = some (UInt8.ofNat l.level) :=
      byte?_eq_some_iff.mpr ⟨p.plus, p.digits, p.nonempty, rfl, hvalue.trans hlevel.symm⟩
    rw [ofText?, p.dropLeading_letter, hbyte, Option.bind_some, hlevel, ofLevel?_level]

theorem ofText?_eq_none_iff {s : String} :
    ofText? s = none ↔
      (∀ p : Spelling, p.text ≠ s) ∨ ∃ p : Spelling, p.text = s ∧ 3 < p.value := by
  rw [Option.eq_none_iff_forall_ne_some]
  constructor
  · intro h
    by_cases hspelled : ∃ p : Spelling, p.text = s
    · obtain ⟨p, hp⟩ := hspelled
      refine .inr ⟨p, hp, Nat.lt_of_not_le fun hvalue => ?_⟩
      obtain ⟨l, hl⟩ := exists_level_eq hvalue
      exact h l (ofText?_eq_some_iff.mpr ⟨p, hp, hl.symm⟩)
    · exact .inl (not_exists.mp hspelled)
  · intro h l hl
    obtain ⟨q, hq, hlevel⟩ := ofText?_eq_some_iff.mp hl
    rcases h with h | ⟨p, hp, hvalue⟩
    · exact h q hq
    · rw [Spelling.value_eq_of_text_eq (hp.trans hq.symm), hlevel] at hvalue
      exact absurd l.level_le (Nat.not_le.mpr hvalue)

theorem ofText_eq_ok_iff {s : String} {l : OptLevel} :
    ofText s = .ok l ↔ ofText? s = some l := by
  rw [ofText]
  cases ofText? s <;> simp

theorem ofText_eq_error_iff {s e : String} :
    ofText s = .error e ↔ e = invalidMessage s ∧ ofText? s = none := by
  rw [ofText]
  cases ofText? s <;> simp [eq_comm]

/-- A text is read as a level exactly if it spells the number of the level. The error quotes the
text, and is given exactly if the text spells no number or one above three. -/
theorem levels_are_read_from_spellings (s : String) :
    (∀ l, ofText s = .ok l ↔ ∃ p : Spelling, p.text = s ∧ p.value = l.level) ∧
      ∀ e, ofText s = .error e ↔
        e = "invalid optimization level `" ++ s ++ "` (expected 0 to 3)" ∧
          ((∀ p : Spelling, p.text ≠ s) ∨ ∃ p : Spelling, p.text = s ∧ 3 < p.value) := by
  constructor
  · intro l
    exact ofText_eq_ok_iff.trans ofText?_eq_some_iff
  · intro e
    rw [ofText_eq_error_iff, ofText?_eq_none_iff]
    rfl

example : ["3", "O3", "+3", "O+0003"].map ofText? = List.replicate 4 (some O3) := by decide

example : ["", "O", "+", "OO2", "-1", " 2", "4", "257", "O+0259"].map ofText? =
    List.replicate 9 none := by decide

end TapeLang.OptLevel
