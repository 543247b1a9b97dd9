import TapeLang.Proofs.Rows
import TapeLang.Proofs.Session
import Mathlib.Data.List.SplitBy

/-!
Folding groups runs of updates. Without folding each call writes its own lines, an update a single
one. With folding the generator never sees a run as a whole: it holds back the sum of the updates
that have come so far, and writes it out when a call comes that does not belong to the run. What is
held back is then the net change of a maximal run, so that what is written is one line for each run
and the lines of the other calls unchanged.
-/
namespace TapeLang

open Assembly

namespace Call

/-- What an update changes. -/
def place? : Call → Option Place
  | op .increment _ | op .decrement _ => some .cell
  | op .moveLeft _ | op .moveRight _ => some .head
  | _ => none

/-- By how much an update changes it. -/
def delta : Call → Int
  | op .increment _ | op .moveRight _ => 1
  | op .decrement _ | op .moveLeft _ => -1
  | _ => 0

theorem update_cases {c : Call} {p : Place} (h : c.place? = some p) :
    ∃ pos, (c = op .increment pos ∧ p = .cell) ∨ (c = op .decrement pos ∧ p = .cell) ∨
      (c = op .moveLeft pos ∧ p = .head) ∨ (c = op .moveRight pos ∧ p = .head) := by
  cases c with
  | op op pos =>
    refine ⟨pos, ?_⟩
    cases op with
    | increment | decrement | moveLeft | moveRight =>
      cases h
      simp
    | output | input => cases h
  | enterLoop pos | exitLoop pos | finish => cases h

end Call

/-- A call with the lines that it writes. -/
abbrev Item := Call × List Line

namespace Item

/-- Both are updates, and of the same place. -/
def joins (a b : Item) : Bool := a.1.place?.isSome && a.1.place? == b.1.place?

/-- The net change of a run of updates. -/
def net (run : List Item) : Int := run.foldr (fun b n => b.1.delta + n) 0

end Item

/-- The largest net change that is added rather than subtracted. -/
def Assembly.Place.largestSum : Place → Int
  | cell => 128
  | head => 32768

/-- The instruction for a net change, of which only the remainder counts. -/
def Assembly.netUpdate? (p : Place) (delta : Int) : Option Instr :=
  let d := delta % p.modulus
  if d = 0 then none
  else if d = 1 then some (.inc p)
  else if d = p.modulus - 1 then some (.dec p)
  else if d ≤ p.largestSum then some (.add p d.toNat)
  else some (.sub p (p.modulus - d).toNat)

/-- The remainder, as a number without sign, is what the generator chooses the instruction by. -/
theorem Assembly.netUpdate?_eq (p : Place) (delta : Int) :
    netUpdate? p delta = update? p (delta % p.modulus).toNat := by
  have hmodulus : (p.modulus : Int) = 2 * p.largestSum := by cases p <;> rfl
  have hpos : 0 < p.largestSum := by cases p <;> decide
  have hnonneg : 0 ≤ delta % p.modulus := Int.emod_nonneg _ (by omega)
  obtain ⟨d, hd⟩ := Int.eq_ofNat_of_zero_le hnonneg
  have hzero : (d : Int) = 0 ↔ d = 0 := by omega
  have hone : (d : Int) = 1 ↔ d = 1 := by omega
  have hlast : (d : Int) = p.modulus - 1 ↔ d + 1 = p.modulus := by omega
  have hhalf : (d : Int) ≤ p.largestSum ↔ 2 * d ≤ p.modulus := by omega
  have hsub : ((p.modulus : Int) - d).toNat = p.modulus - d := by omega
  simp only [netUpdate?, update?, hd, hzero, hone, hlast, hhalf, hsub, Int.toNat_natCast]

/-- The line for a net change, written out. -/
def Assembly.updateText (operand : String) (modulus largestSum delta : Int) : String :=
  let d := delta % modulus
  if d = 0 then ""
  else if d = 1 then "    inc " ++ operand ++ "\n"
  else if d = modulus - 1 then "    dec " ++ operand ++ "\n"
  else if d ≤ largestSum then "    add " ++ operand ++ ", " ++ toString d.toNat ++ "\n"
  else "    sub " ++ operand ++ ", " ++ toString (modulus - d).toNat ++ "\n"

def Assembly.netText : Place → Int → String
  | .cell => updateText "byte ptr [r12 + r13]" 256 128
  | .head => updateText "r13w" 65536 32768

theorem Assembly.render_netUpdate? (t : Target) (p : Place) (delta : Int) :
    String.join (((netUpdate? p delta).toList.map Line.instr).map (Line.render t true)) =
      netText p delta := by
  have htext : netText p delta = updateText p.text p.modulus p.largestSum delta := by
    cases p with
    | cell => rfl
    | head => rfl
  rw [htext, netUpdate?, updateText]
  split
  · rfl
  · split
    · cases p <;> rfl
    · split
      · cases p <;> rfl
      · split
        · cases p <;> rfl
        · cases p <;> rfl

theorem Call.netUpdate?_delta {c : Call} {p : Place} (h : c.place? = some p) :
    netUpdate? p c.delta = some (if c.delta = 1 then .inc p else .dec p) := by
  obtain ⟨pos, ⟨rfl, rfl⟩ | ⟨rfl, rfl⟩ | ⟨rfl, rfl⟩ | ⟨rfl, rfl⟩⟩ := update_cases h
  all_goals rfl

namespace Item

/-- A run of updates becomes one line for its net change, and any other call keeps its lines. -/
def runLines (run : List Item) : List Line :=
  match run.head?.bind fun b => b.1.place? with
  | some p => (netUpdate? p (net run)).toList.map .instr
  | none => run.flatMap Prod.snd

/-- The lines that remain when maximal runs of updates are folded. -/
def folded (items : List Item) : List Line := (items.splitBy joins).flatMap runLines

end Item

namespace Generator

/-- Made one after the other, the calls succeed and each writes the lines given with it. -/
def Itemizes : Generator → List Item → Prop
  | _, [] => True
  | g, (c, ls) :: rest => ∃ g', call c g = .ok () g' ∧
      g'.sink.accepted.toList =
        g.sink.accepted.toList ++ Sink.bytesOf (String.join (ls.map g.render)) ∧
      Itemizes g' rest

end Generator

/-- The program is written with these lines between what opens the code and what comes after it. -/
def Program.Writes (p : Program) (o : Options) (body : List Line) : Prop :=
  ∃ count g, p.compile o {} = .ok count g ∧
    g.sink.accepted.toList = Sink.bytesOf (header o.target ++ "\n" ++
      (String.join ((opening.map Line.instr ++ body).map (Line.render o.target true)) ++
        trailer o.target))

namespace Pending

def place? : Pending → Option Place
  | none => .none
  | cell _ => some .cell
  | head _ => some .head

/-- The update that changes a place by a number. -/
def held : Place → Int → Pending
  | .cell, delta => cell (UInt8.ofInt delta)
  | .head, delta => head (UInt16.ofInt delta)

theorem place?_held (p : Place) (delta : Int) : (held p delta).place? = some p := by
  cases p <;> rfl

theorem join?_held (p : Place) (a b : Int) :
    (held p a).join? (held p b) = some (held p (a + b)) := by
  cases p with
  | cell => rw [held, held, held, join?, UInt8.ofInt_add]
  | head => rw [held, held, held, join?, UInt16.ofInt_add]

theorem join?_eq_none {u : Pending} {p : Place} (h : u.place? ≠ some p) (delta : Int) :
    u.join? (held p delta) = .none := by
  cases u with
  | none => rfl
  | cell a =>
    cases p with
    | cell => exact absurd rfl h
    | head => rfl
  | head a =>
    cases p with
    | cell => rfl
    | head => exact absurd rfl h

theorem instr?_held (p : Place) (delta : Int) :
    (held p delta).instr? = update? p (delta % p.modulus).toNat := by
  cases p with
  | cell =>
    have hlt : (delta % 2 ^ 8).toNat < 256 := by omega
    have hnat : (UInt8.ofInt delta).toNat = (delta % 2 ^ 8).toNat :=
      UInt8.toNat_ofNat_of_lt' hlt
    rw [held, instr?, hnat]
    rfl
  | head =>
    have hlt : (delta % 2 ^ 16).toNat < 65536 := by omega
    have hnat : (UInt16.ofInt delta).toNat = (delta % 2 ^ 16).toNat :=
      UInt16.toNat_ofNat_of_lt' hlt
    rw [held, instr?, hnat]
    rfl

theorem lines_held (p : Place) (delta : Int) :
    (held p delta).lines = (netUpdate? p delta).toList.map .instr := by
  rw [lines, instr?_held, netUpdate?_eq]

end Pending

/-- The same options without folding. -/
def Options.withoutFolding (o : Options) : Options := { o with optLevel := .O0 }

namespace Draft

variable {o : Options} {d : Draft} {c : Call} {p : Place}

theorem wrote_of_update (h : c.place? = some p) :
    d.wrote o c = d.bumpLines o (.held p c.delta) ∧ d.next o c = d.bump o (.held p c.delta) := by
  obtain ⟨pos, ⟨rfl, rfl⟩ | ⟨rfl, rfl⟩ | ⟨rfl, rfl⟩ | ⟨rfl, rfl⟩⟩ := Call.update_cases h
  all_goals exact ⟨rfl, rfl⟩

/-- Any other call writes out what is held back, and then what it writes without folding. -/
theorem wrote_of_other (h : c.place? = none) :
    d.wrote o c = d.pending.lines ++ d.flushed.wrote o.withoutFolding c ∧
      (d.next o c).pending = .none := by
  cases c with
  | op op pos =>
    cases op with
    | increment | decrement | moveLeft | moveRight => cases h
    | output | input => exact ⟨rfl, rfl⟩
  | enterLoop pos | exitLoop pos | finish => exact ⟨rfl, rfl⟩

/-- Folding only bears on what is held back. -/
theorem flushed_next (o : Options) (d : Draft) (c : Call) :
    (d.next o c).flushed = d.flushed.next o.withoutFolding c := by
  cases c with
  | op op pos => cases op <;> rfl
  | enterLoop pos | exitLoop pos | finish => rfl

theorem flushed_after (o : Options) (d : Draft) (cs : List Call) :
    (d.after o cs).flushed = d.flushed.after o.withoutFolding cs := by
  induction cs generalizing d with
  | nil => rfl
  | cons c rest ih => rw [after, ih, flushed_next, after]

theorem wrote_join (hfolds : o.optLevel.folds = true) (hc : c.place? = some p) {x : Int}
    (hd : d.pending = .held p x) :
    d.wrote o c = [] ∧ (d.next o c).pending = .held p (x + c.delta) := by
  obtain ⟨hwrote, hnext⟩ := wrote_of_update (o := o) (d := d) hc
  have hjoin := Pending.join?_held p x c.delta
  rw [hwrote, hnext]
  simp only [bumpLines, bump, hd, hjoin, hfolds, if_true, Option.getD_some, and_self]

theorem wrote_start (hfolds : o.optLevel.folds = true) (hc : c.place? = some p)
    (hd : d.pending.place? ≠ some p) :
    d.wrote o c = d.pending.lines ∧ (d.next o c).pending = .held p c.delta := by
  obtain ⟨hwrote, hnext⟩ := wrote_of_update (o := o) (d := d) hc
  have hjoin := Pending.join?_eq_none hd c.delta
  rw [hwrote, hnext]
  simp only [bumpLines, bump, hjoin, hfolds, if_true, Option.getD_none, List.append_nil, and_self]

/-- While a run goes on nothing is written, and its net change is held back. -/
theorem code_join (hfolds : o.optLevel.folds = true) {run : List Item}
    (hrun : ∀ b ∈ run, b.1.place? = some p) {x : Int} (hd : d.pending = .held p x) :
    d.code o (run.map Prod.fst) = [] ∧
      (d.after o (run.map Prod.fst)).pending = .held p (x + Item.net run) := by
  induction run generalizing d x with
  | nil => exact ⟨rfl, hd.trans (congrArg _ (Int.add_zero x).symm)⟩
  | cons b run ih =>
    obtain ⟨hwrote, hnext⟩ := wrote_join hfolds (hrun b List.mem_cons_self) hd
    obtain ⟨hcode, hafter⟩ := ih (fun b' hb' => hrun b' (List.mem_cons_of_mem _ hb')) hnext
    rw [Int.add_assoc] at hafter
    rw [List.map_cons, code, hwrote, hcode]
    exact ⟨rfl, hafter⟩

/-- A run writes out what was held back before it, and its own net change is held back. -/
theorem code_run (hfolds : o.optLevel.folds = true) {run : List Item} (hne : run ≠ [])
    (hrun : ∀ b ∈ run, b.1.place? = some p) (hd : d.pending.place? ≠ some p) :
    d.code o (run.map Prod.fst) = d.pending.lines ∧
      (d.after o (run.map Prod.fst)).pending = .held p (Item.net run) := by
  obtain ⟨b, run, rfl⟩ := List.exists_cons_of_ne_nil hne
  obtain ⟨hwrote, hnext⟩ := wrote_start hfolds (hrun b List.mem_cons_self) hd
  obtain ⟨hcode, hafter⟩ :=
    code_join hfolds (fun b' hb' => hrun b' (List.mem_cons_of_mem _ hb')) hnext
  rw [List.map_cons, code, hwrote, hcode, List.append_nil]
  exact ⟨rfl, hafter⟩

/-- The calls with the lines that they lead to. -/
def items (o : Options) (d : Draft) : List Call → List Item
  | [] => []
  | c :: rest => (c, d.wrote o c) :: items o (d.next o c) rest

theorem map_fst_items (o : Options) (d : Draft) (cs : List Call) :
    (d.items o cs).map Prod.fst = cs := by
  induction cs generalizing d with
  | nil => rfl
  | cons c rest ih => exact congrArg (c :: ·) (ih _)

theorem flatMap_items (o : Options) (d : Draft) (cs : List Call) :
    (d.items o cs).flatMap Prod.snd = d.code o cs := by
  induction cs generalizing d with
  | nil => rfl
  | cons c rest ih => rw [items, List.flatMap_cons, ih, code]

/-- The lines of every item are those that its call leads to. -/
def Itemized (o : Options) (d : Draft) (items : List Item) : Prop :=
  d.items o (items.map Prod.fst) = items

theorem itemized_append {xs ys : List Item} (h : d.Itemized o (xs ++ ys)) :
    d.Itemized o xs ∧ (d.after o (xs.map Prod.fst)).Itemized o ys := by
  induction xs generalizing d with
  | nil => exact ⟨rfl, h⟩
  | cons b xs ih =>
    obtain ⟨hb, hrest⟩ := List.cons.inj h
    obtain ⟨hxs, hys⟩ := ih hrest
    refine ⟨?_, hys⟩
    rw [Itemized, List.map_cons, items, hb, hxs]

theorem itemized_items (o : Options) (d : Draft) (cs : List Call) :
    d.Itemized o (d.items o cs) := by
  rw [Itemized, map_fst_items]

end Draft

namespace Item

/-- Items cut into maximal runs, of which the first does not go on with updates of `last`. -/
inductive Cut : Option Place → List (List Item) → Prop
  | nil {last : Option Place} : Cut last []
  | other {b : Item} {runs : List (List Item)} {last : Option Place}
      (hb : b.1.place? = none) (h : Cut none runs) : Cut last ([b] :: runs)
  | updates {p : Place} {run : List Item} {runs : List (List Item)} {last : Option Place}
      (hne : run ≠ []) (hrun : ∀ b ∈ run, b.1.place? = some p) (hlast : last ≠ some p)
      (h : Cut (some p) runs) : Cut last (run :: runs)

theorem joins_iff {a b : Item} :
    joins a b = true ↔ ∃ p, a.1.place? = some p ∧ b.1.place? = some p := by
  rw [joins, Bool.and_eq_true, Option.isSome_iff_exists, beq_iff_eq]
  constructor
  · rintro ⟨⟨p, ha⟩, hab⟩
    exact ⟨p, ha, hab.symm.trans ha⟩
  · rintro ⟨p, ha, hb⟩
    exact ⟨⟨p, ha⟩, ha.trans hb.symm⟩

theorem eq_nil_of_isChain {b : Item} {run : List Item}
    (h : (b :: run).IsChain fun x y => joins x y) (hb : b.1.place? = none) : run = [] := by
  cases run with
  | nil => rfl
  | cons b' run =>
    obtain ⟨p, hp, -⟩ := joins_iff.mp (List.isChain_cons_cons.mp h).1
    rw [hb] at hp
    cases hp

theorem place?_of_isChain {b : Item} {run : List Item} {p : Place}
    (h : (b :: run).IsChain fun x y => joins x y) (hb : b.1.place? = some p) :
    ∀ b' ∈ b :: run, b'.1.place? = some p := by
  induction run generalizing b with
  | nil =>
    intro b' hb'
    rw [List.mem_singleton.mp hb', hb]
  | cons b₁ run ih =>
    obtain ⟨hjoins, hrest⟩ := List.isChain_cons_cons.mp h
    obtain ⟨q, hq, hb₁⟩ := joins_iff.mp hjoins
    rw [hb] at hq
    cases hq
    intro b' hb'
    rcases List.mem_cons.mp hb' with rfl | hb'
    · exact hb
    · exact ih hrest hb₁ b' hb'

/-- Runs that are chains and do not join with the next one are maximal. -/
theorem cut_of_isChain {runs : List (List Item)} {last : Option Place} (hne : [] ∉ runs)
    (hchain : ∀ run ∈ runs, run.IsChain fun x y => joins x y)
    (hapart : runs.IsChain fun a b => ∃ ha hb, joins (a.getLast ha) (b.head hb) = false)
    (hlast : ∀ run ∈ runs.head?, ∀ b ∈ run.head?, ∀ p, b.1.place? = some p → last ≠ some p) :
    Cut last runs := by
  induction runs generalizing last with
  | nil => exact .nil
  | cons run runs ih =>
    have hrest {last' : Option Place} := @ih last' (fun h => hne (List.mem_cons_of_mem _ h))
      (fun r hr => hchain r (List.mem_cons_of_mem _ hr)) (List.IsChain.tail hapart)
    have hrun := hchain run List.mem_cons_self
    cases run with
    | nil => exact absurd List.mem_cons_self hne
    | cons b run =>
      cases hb : b.1.place? with
      | none =>
        cases eq_nil_of_isChain hrun hb
        exact .other hb (hrest fun _ _ _ _ p _ => (Option.some_ne_none p).symm)
      | some p =>
        have hplaces := place?_of_isChain hrun hb
        refine .updates (List.cons_ne_nil b run) hplaces (hlast (b :: run) rfl b rfl p hb)
          (hrest fun next hnext b' hb' q hq heq => ?_)
        cases heq
        obtain ⟨rest, rfl⟩ := List.head?_eq_some_iff.mp hnext
        obtain ⟨hnonempty, hhead, hjoins⟩ := (List.isChain_cons_cons.mp hapart).1
        have hfirst : next.head hhead = b' := by
          rw [List.head?_eq_some_head hhead] at hb'
          exact Option.some.inj hb'
        have hjoins' := joins_iff.mpr ⟨p, hplaces _ (List.getLast_mem hnonempty), hq⟩
        rw [← hfirst, hjoins] at hjoins'
        cases hjoins'

theorem cut_splitBy (items : List Item) : Cut none (items.splitBy joins) :=
  cut_of_isChain (List.nil_notMem_splitBy joins items) (fun _ => List.isChain_of_mem_splitBy)
    (List.isChain_getLast_head_splitBy joins items) fun _ _ _ _ p _ => (Option.some_ne_none p).symm

theorem runLines_of_other {b : Item} (hb : b.1.place? = none) : runLines [b] = b.2 := by
  rw [runLines, List.head?_cons, Option.bind_some, hb, List.flatMap_singleton]

theorem runLines_of_updates {p : Place} {run : List Item} (hne : run ≠ [])
    (hrun : ∀ b ∈ run, b.1.place? = some p) :
    runLines run = (Pending.held p (net run)).lines := by
  obtain ⟨b, run, rfl⟩ := List.exists_cons_of_ne_nil hne
  rw [runLines, List.head?_cons, Option.bind_some, hrun b List.mem_cons_self, Pending.lines_held]

end Item

namespace Draft

/-- What is held back changes with the runs: it is of the place of the last one, and its lines are
what the run leads to once it has ended. -/
theorem code_of_cut {o : Options} (hfolds : o.optLevel.folds = true) {runs : List (List Item)}
    {last : Option Place} (hcut : Item.Cut last runs) {d : Draft} (hd : d.pending.place? = last)
    (hitems : d.flushed.Itemized o.withoutFolding runs.flatten) :
    d.code o (runs.flatten.map Prod.fst) ++
        (d.after o (runs.flatten.map Prod.fst)).pending.lines =
      d.pending.lines ++ runs.flatMap Item.runLines := by
  induction hcut generalizing d with
  | nil => exact (List.append_nil _).symm
  | @other b runs last hb _ ih =>
    obtain ⟨hwrote, hnext⟩ := wrote_of_other (o := o) (d := d) hb
    rw [List.flatten_cons] at hitems ⊢
    obtain ⟨hfirst, hrest⟩ := itemized_append hitems
    have hlines : d.flushed.wrote o.withoutFolding b.1 = b.2 :=
      congrArg Prod.snd (List.cons.inj hfirst).1
    have hplace : (d.next o b.1).pending.place? = none := by
      rw [hnext]
      rfl
    have hcode := ih hplace ((flushed_next o d b.1).symm ▸ hrest)
    have hnothing : (d.next o b.1).pending.lines = [] := by
      rw [hnext]
      rfl
    rw [hnothing, List.nil_append] at hcode
    rw [List.singleton_append, List.map_cons, code, after, hwrote, hlines, List.append_assoc, hcode,
      List.flatMap_cons, Item.runLines_of_other hb, List.append_assoc]
  | @updates p run runs last hne hrun hlast _ ih =>
    obtain ⟨hcode, hafter⟩ := code_run hfolds hne hrun (hd ▸ hlast)
    rw [List.flatten_cons] at hitems ⊢
    have hrest := (itemized_append hitems).2
    rw [← flushed_after] at hrest
    have hplace : (d.after o (run.map Prod.fst)).pending.place? = some p := by
      rw [hafter, Pending.place?_held]
    rw [List.map_append, code_append, after_append, hcode, List.append_assoc, ih hplace hrest,
      hafter, List.flatMap_cons, Item.runLines_of_updates hne hrun]

/-- Where the calls end with one that holds nothing back, folding is run grouping. -/
theorem code_eq_folded {o : Options} (hfolds : o.optLevel.folds = true) (d : Draft) (cs : List Call)
    (hstart : d.pending = .none) (hend : (d.after o cs).pending = .none) :
    d.code o cs = Item.folded (d.items o.withoutFolding cs) := by
  have hflushed : d.flushed = d := by
    rw [flushed, ← hstart]
  have hcut := Item.cut_splitBy (d.items o.withoutFolding cs)
  have hflatten := List.flatten_splitBy Item.joins (d.items o.withoutFolding cs)
  have hplace : d.pending.place? = none := by
    rw [hstart]
    rfl
  have hcode := code_of_cut hfolds hcut hplace
    (by rw [hflatten, hflushed]; exact itemized_items _ d cs)
  have hnothing : Pending.none.lines = [] := rfl
  rw [hflatten, map_fst_items, hend, hstart, hnothing, List.append_nil, List.nil_append] at hcode
  exact hcode

theorem pending_next {o : Options} (hfolds : o.optLevel.folds = false) (d : Draft) (c : Call) :
    (d.next o c).pending = .none := by
  cases hc : c.place? with
  | none => exact (wrote_of_other hc).2
  | some p =>
    rw [(wrote_of_update hc).2, bump, hfolds]
    rfl

/-- Without folding an update is a line of its own. -/
theorem wrote_update {o : Options} (hfolds : o.optLevel.folds = false) {d : Draft}
    (hd : d.pending = .none) {c : Call} {p : Place} (hc : c.place? = some p) :
    d.wrote o c = [.instr (if c.delta = 1 then .inc p else .dec p)] := by
  have hjoin : Pending.none.join? (.held p c.delta) = .none :=
    Pending.join?_eq_none (u := .none) (Option.some_ne_none p).symm c.delta
  have hlines := Pending.lines_held p c.delta
  rw [Call.netUpdate?_delta hc] at hlines
  rw [(wrote_of_update hc).1, bumpLines, hd, hjoin, hfolds, hlines]
  rfl

theorem wrote_of_mem_items {o : Options} (hfolds : o.optLevel.folds = false) {d : Draft}
    (hd : d.pending = .none) {cs : List Call} {b : Item} (h : b ∈ d.items o cs) :
    ∃ d' : Draft, d'.pending = .none ∧ b.2 = d'.wrote o b.1 := by
  induction cs generalizing d with
  | nil => cases h
  | cons c rest ih =>
    rcases List.mem_cons.mp h with rfl | h
    · exact ⟨d, hd, rfl⟩
    · exact ih (pending_next hfolds d c) h

end Draft

/-- A generator whose sink has no limit writes the lines of each item. -/
theorem Generator.itemizes_items (g : Generator) (hlimit : g.sink.limit = none) (cs : List Call)
    (h : g.draft.Balanced g.options cs) : g.Itemizes (g.draft.items g.options cs) := by
  induction cs generalizing g with
  | nil => exact trivial
  | cons c rest ih =>
    obtain ⟨g', hcall, hwrote⟩ := (lays_call g c h.1).run hlimit
    refine ⟨g', hcall, hwrote.accepted, ?_⟩
    have hrest := ih g' hwrote.limit
    rw [hwrote.draft, hwrote.options] at hrest
    exact hrest h.2

namespace Program

/-- The calls of a program with the lines that each of them writes. -/
def items (o : Options) (p : Program) : List Item := ({} : Draft).items o p.calls

theorem writes_code (o : Options) (p : Program) : p.Writes o (({} : Draft).code o p.calls) := by
  obtain ⟨g, hcompile, haccepted⟩ := p.compile_eq o
  refine ⟨_, g, hcompile, haccepted.trans ?_⟩
  rw [assembly_eq, codeLines]

theorem pending_after_calls (o : Options) (d : Draft) (p : Program) :
    (d.after o p.calls).pending = .none := by
  rw [calls_eq, Draft.after_append]
  rfl

/-- Folding is run grouping. Without it every call writes its own lines, an update one line. At all
other levels the text is the one that comes from these by replacing each maximal run of updates of
one place by the line for its net change. Both are given as text. -/
theorem folding_is_run_grouping (p : Program) (t : Target) (eof : EofPolicy) :
    (p.items ⟨t, .O0, eof⟩).map Prod.fst = p.calls ∧
      Generator.Itemizes { options := ⟨t, .O0, eof⟩, indented := true }
        (p.items ⟨t, .O0, eof⟩) ∧
      (∀ b ∈ p.items ⟨t, .O0, eof⟩, ∀ place, b.1.place? = some place →
        b.2 = [.instr (if b.1.delta = 1 then .inc place else .dec place)] ∧
          String.join (b.2.map (Line.render t true)) = netText place b.1.delta) ∧
      p.Writes ⟨t, .O0, eof⟩ ((p.items ⟨t, .O0, eof⟩).flatMap Prod.snd) ∧
      (∀ level, level ≠ .O0 →
        p.Writes ⟨t, level, eof⟩ (Item.folded (p.items ⟨t, .O0, eof⟩))) ∧
      ∀ run place, (run.head?.bind fun b => b.1.place?) = some place →
        String.join ((Item.runLines run).map (Line.render t true)) =
          netText place (Item.net run) := by
  refine ⟨Draft.map_fst_items _ _ _, ?_, ?_, ?_, ?_, ?_⟩
  · exact Generator.itemizes_items { options := ⟨t, .O0, eof⟩, indented := true } rfl p.calls
      (Draft.balanced_calls _ p _)
  · intro b hb place hplace
    obtain ⟨d, hd, hwrote⟩ := Draft.wrote_of_mem_items rfl rfl hb
    have hline := hwrote.trans (Draft.wrote_update rfl hd hplace)
    refine ⟨hline, ?_⟩
    rw [hline, ← render_netUpdate? t, Call.netUpdate?_delta hplace]
    rfl
  · rw [items, Draft.flatMap_items]
    exact p.writes_code _
  · intro level hlevel
    have hfolds : level.folds = true := decide_eq_true hlevel
    have hcode := Draft.code_eq_folded (o := ⟨t, level, eof⟩) hfolds {} p.calls rfl
      (p.pending_after_calls _ _)
    have hwrites := p.writes_code ⟨t, level, eof⟩
    rw [hcode] at hwrites
    exact hwrites
  · intro run place hplace
    rw [Item.runLines, hplace]
    exact render_netUpdate? t place (Item.net run)

/-- The first run cancels out and goes on, and a loop keeps two updates of one cell apart. -/
theorem folding_of_runs_around_loop :
    let p : Program := .op .increment ⟨1, 1, 0⟩ (.op .decrement ⟨1, 2, 1⟩
      (.op .increment ⟨1, 3, 2⟩ (.op .moveLeft ⟨1, 4, 3⟩ (.op .moveLeft ⟨1, 5, 4⟩
        (.loop ⟨1, 6, 5⟩ (.op .decrement ⟨1, 7, 6⟩ .nil) (.op .decrement ⟨1, 9, 8⟩ .nil))))))
    let update : Item := (.op .moveLeft ⟨1, 4, 3⟩, [.instr (.dec .head)])
    let run : List Item := [update, (.op .moveLeft ⟨1, 5, 4⟩, [.instr (.dec .head)])]
    update ∈ p.items ⟨.linux, .O0, .zero⟩ ∧ update.1.place? = some .head ∧
      String.join (update.2.map (Line.render .linux true)) = "    dec r13w\n" ∧
      String.join ((Item.runLines run).map (Line.render .linux true)) = "    sub r13w, 2\n" ∧
      OptLevel.O1 ≠ .O0 ∧
      p.Writes ⟨.linux, .O1, .zero⟩
        ([.instr (.inc .cell), .instr (.sub .head 2), .label (.loopStart 0),
          .loopComment ⟨1, 6, 5⟩, .instr .testCell, .instr (.jumpIfEqual (.loopEnd 0)),
          .instr (.dec .cell), .instr (.jump (.loopStart 0)), .label (.loopEnd 0),
          .instr (.dec .cell)] ++ closing.map .instr) := by
  intro p update run
  obtain ⟨-, -, hupdates, -, hfolded, hruns⟩ := p.folding_is_run_grouping .linux .zero
  have hmem : update ∈ p.items ⟨.linux, .O0, .zero⟩ := by
    rw [items, calls_eq]
    decide
  have hwrites := hfolded .O1 (by decide)
  rw [items, calls_eq] at hwrites
  exact ⟨hmem, rfl, (hupdates update hmem .head rfl).2, (hruns run .head rfl).trans (by decide),
    by decide, hwrites⟩

end Program

end TapeLang
