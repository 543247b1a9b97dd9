import TapeLang.Generator

/-!
What a generator writes. The lines of a call depend on the updates held back and on how loops and
inputs have been numbered so far; the sink only decides how many of them arrive. So the text of a
program is a function of the program and the options, and every sink is offered this text.
-/
namespace TapeLang

open Assembly

namespace Sink

theorem writeTexts_append (s : Sink) (xs ys : List String) :
    s.writeTexts (xs ++ ys) = match s.writeTexts xs with
      | (.ok (), s₁) => s₁.writeTexts ys
      | (.error e, s₁) => (.error e, s₁) := by
  induction xs generalizing s with
  | nil => rfl
  | cons x xs ih =>
    rw [List.cons_append, writeTexts, writeTexts]
    split
    · exact ih _
    · rfl

/-- The second sink has the limit of the first and fails as the first does. -/
structure Resembles (s s' : Sink) : Prop where
  limit : s'.limit = s.limit
  whenFull : s'.whenFull = s.whenFull
  flushFailure : s'.flushFailure = s.flushFailure

theorem Resembles.trans {s s' s'' : Sink} (h : s.Resembles s') (h' : s'.Resembles s'') :
    s.Resembles s'' :=
  ⟨h'.limit.trans h.limit, h'.whenFull.trans h.whenFull, h'.flushFailure.trans h.flushFailure⟩

theorem resembles_offer {s s' : Sink} {bytes : List UInt8} {a : Acceptance}
    (h : s.offer bytes = (a, s')) : s.Resembles s' := by
  unfold offer at h
  split at h
  · cases h
    exact ⟨rfl, rfl, rfl⟩
  · split at h
    · cases h
      exact ⟨rfl, rfl, rfl⟩
    · cases h
      exact ⟨rfl, rfl, rfl⟩

theorem resembles_writeAll (s : Sink) (bytes : List UInt8) :
    s.Resembles (s.writeAll bytes).2 := by
  fun_induction writeAll s bytes with
  | case1 s => exact ⟨rfl, rfl, rfl⟩
  | case2 s bytes hne s' h ih => exact (resembles_offer h).trans ih
  | case3 s bytes hne e s' h => exact resembles_offer h
  | case4 s bytes hne s' h => exact resembles_offer h
  | case5 s bytes hne n s' h ih => exact (resembles_offer h).trans ih

theorem resembles_writeTexts (s : Sink) (texts : List String) :
    s.Resembles (s.writeTexts texts).2 := by
  induction texts generalizing s with
  | nil => exact ⟨rfl, rfl, rfl⟩
  | cons text rest ih =>
    have hfirst := s.resembles_writeAll (bytesOf text)
    rw [writeTexts, writeText]
    split
    · next s₁ h =>
      rw [h] at hfirst
      exact hfirst.trans (ih s₁)
    · next e s₁ h =>
      rw [h] at hfirst
      exact hfirst

/-- Where there is no room for the first bytes, there is none for what follows them. -/
theorem room_of_lt {s : Sink} {m : Nat} (h : s.room m < m) (n : Nat) :
    s.room (m + n) = s.room m := by
  unfold room at h ⊢
  split
  · next hl => simp [hl] at h
  · next limit hl =>
    simp only [hl] at h
    omega

theorem room_add {s s' : Sink} {m : Nat} (h : s.room m = m) (hlimit : s'.limit = s.limit)
    (hsize : s'.accepted.size = s.accepted.size + m) (n : Nat) :
    s.room (m + n) = m + s'.room n := by
  unfold room at h ⊢
  rw [hlimit]
  split
  · rfl
  · next limit hl =>
    simp only [hl] at h
    omega

/-- Texts are written as far as there is room for them, as if they were one. -/
theorem writeTexts_result (s : Sink) (texts : List String) :
    (s.writeTexts texts).1 =
        (if s.room (bytesOf (String.join texts)).length = (bytesOf (String.join texts)).length
          then .ok () else .error s.whenFull.error) ∧
      (s.writeTexts texts).2.accepted.toList = s.accepted.toList ++
        (bytesOf (String.join texts)).take (s.room (bytesOf (String.join texts)).length) := by
  induction texts generalizing s with
  | nil =>
    have hroom := Nat.le_zero.mp (s.room_le 0)
    have hempty : bytesOf (String.join []) = [] := rfl
    rw [hempty, List.length_nil, hroom]
    exact ⟨rfl, (List.append_nil _).symm⟩
  | cons text rest ih =>
    obtain ⟨hresult, haccepted⟩ := s.writeAll_result (bytesOf text)
    have hsame := s.resembles_writeAll (bytesOf text)
    rw [String.join_cons, bytesOf_append, List.length_append, writeTexts, writeText]
    generalize hw : s.writeAll (bytesOf text) = written at hresult haccepted hsame
    obtain ⟨result, s₁⟩ := written
    by_cases hroom : s.room (bytesOf text).length = (bytesOf text).length
    · rw [if_pos hroom] at hresult
      rw [hroom, List.take_length] at haccepted
      obtain rfl : result = .ok () := hresult
      have hsize : s₁.accepted.size = s.accepted.size + (bytesOf text).length := by
        rw [haccepted, ← Array.length_toList, Array.toList_appendList, List.length_append,
          Array.length_toList]
      obtain ⟨hresult', haccepted'⟩ := ih s₁
      rw [room_add hroom hsame.limit hsize]
      refine ⟨?_, ?_⟩
      · rw [hresult', hsame.whenFull]
        simp only [Nat.add_left_cancel_iff]
      · rw [haccepted', haccepted, Array.toList_appendList, List.append_assoc,
          List.take_length_add_append]
    · rw [if_neg hroom] at hresult
      obtain rfl : result = .error s.whenFull.error := hresult
      have hlt := Nat.lt_of_le_of_ne (s.room_le (bytesOf text).length) hroom
      rw [room_of_lt hlt]
      refine ⟨?_, ?_⟩
      · rw [if_neg (by omega)]
      · rw [haccepted, Array.toList_appendList, List.take_append_of_le_length (by omega)]

theorem writeTexts_of_unlimited (texts : List String) (s : Sink) (hlimit : s.limit = none) :
    ∃ s', s.writeTexts texts = (.ok (), s') ∧ s'.flushFailure = s.flushFailure ∧
      s'.accepted.toList = s.accepted.toList ++ bytesOf (String.join texts) := by
  have hroom (n : Nat) : s.room n = n := by rw [room, hlimit]
  obtain ⟨hok, haccepted⟩ := s.writeTexts_result texts
  rw [hroom, if_pos rfl] at hok
  rw [hroom, List.take_length] at haccepted
  exact ⟨_, Prod.ext hok rfl, (s.resembles_writeTexts texts).flushFailure, haccepted⟩

end Sink

/-- What the code written so far means for the lines to come. -/
structure Draft where
  pending : Pending := .none
  loops : List Nat := []
  nextLoop : Nat := 0
  nextInput : Nat := 0
  deriving DecidableEq, Repr, Inhabited

def Pending.lines (u : Pending) : List Line := u.instr?.toList.map .instr

/-- Whether the instruction changes the current cell or the head by a number. -/
def Assembly.Instr.isUpdate : Instr → Bool
  | inc _ | dec _ | add _ _ | sub _ _ => true
  | _ => false

theorem Assembly.isUpdate_of_update? {p : Place} {delta : Nat} {i : Instr}
    (h : update? p delta = some i) : i.isUpdate = true := by
  unfold update? at h
  split at h
  · cases h
  · split at h
    · cases h; rfl
    · split at h
      · cases h; rfl
      · split at h
        · cases h; rfl
        · cases h; rfl

theorem Pending.isUpdate_of_mem {u : Pending} {i : Instr} (h : i ∈ u.instr?.toList) :
    i.isUpdate = true := by
  have hinstr := Option.mem_toList.mp h
  cases u with
  | none => cases hinstr
  | cell delta => exact isUpdate_of_update? hinstr
  | head delta => exact isUpdate_of_update? hinstr

namespace Draft

/-- The draft once nothing is held back any more. -/
def flushed (d : Draft) : Draft := { d with pending := .none }

/-- An update is joined with what is held back, or takes its place. Without folding nothing is
held back. -/
def bumpLines (o : Options) (d : Draft) (u : Pending) : List Line :=
  match d.pending.join? u with
  | some joined => if o.optLevel.folds then [] else joined.lines
  | none => d.pending.lines ++ if o.optLevel.folds then [] else u.lines

def bump (o : Options) (d : Draft) (u : Pending) : Draft :=
  { d with pending := if o.optLevel.folds then (d.pending.join? u).getD u else .none }

/-- The lines of an input with the given number. -/
def inputLines (id : Nat) : EofPolicy → List Line
  | .max => [.instr (.call .getchar), .instr .storeResult]
  | .zero =>
    [.instr (.call .getchar), .instr .testEof, .instr (.jumpIfNotEqual (.input id)),
      .instr .clearResult, .label (.input id), .instr .storeResult]
  | .unchanged =>
    [.instr (.call .getchar), .instr .testEof, .instr (.jumpIfEqual (.input id)),
      .instr .storeResult, .label (.input id)]

def exitLines : List Nat → List Line
  | [] => []
  | id :: _ => [.instr (.jump (.loopStart id)), .label (.loopEnd id)]

/-- The lines that a call leads to. -/
def wrote (o : Options) (d : Draft) : Call → List Line
  | .op .increment _ => d.bumpLines o (.cell 1)
  | .op .decrement _ => d.bumpLines o (.cell 255)
  | .op .moveLeft _ => d.bumpLines o (.head 65535)
  | .op .moveRight _ => d.bumpLines o (.head 1)
  | .op .output _ => d.pending.lines ++ [.instr .loadArgument, .instr (.call .putchar)]
  | .op .input _ => d.pending.lines ++ inputLines d.nextInput o.eof
  | .enterLoop pos =>
    d.pending.lines ++ [.label (.loopStart d.nextLoop), .loopComment pos, .instr .testCell,
      .instr (.jumpIfEqual (.loopEnd d.nextLoop))]
  | .exitLoop _ => d.pending.lines ++ exitLines d.loops
  | .finish => d.pending.lines ++ closing.map .instr

/-- The same without the updates that a call writes out. -/
def fragment (o : Options) (d : Draft) : Call → List Line
  | .op .output _ => [.instr .loadArgument, .instr (.call .putchar)]
  | .op .input _ => inputLines d.nextInput o.eof
  | .enterLoop pos =>
    [.label (.loopStart d.nextLoop), .loopComment pos, .instr .testCell,
      .instr (.jumpIfEqual (.loopEnd d.nextLoop))]
  | .exitLoop _ => exitLines d.loops
  | .finish => closing.map .instr
  | _ => []

theorem bumpLines_eq (o : Options) (d : Draft) (u : Pending) :
    ∃ updates : List Instr, (∀ i ∈ updates, i.isUpdate = true) ∧
      d.bumpLines o u = updates.map .instr := by
  have hnone : ∀ i ∈ ([] : List Instr), i.isUpdate = true := fun _ h => absurd h List.not_mem_nil
  unfold bumpLines
  split
  · split
    · exact ⟨[], hnone, rfl⟩
    · exact ⟨_, fun _ => Pending.isUpdate_of_mem, rfl⟩
  · split
    · exact ⟨_, fun _ => Pending.isUpdate_of_mem, List.append_nil _⟩
    · refine ⟨d.pending.instr?.toList ++ u.instr?.toList, fun i h => ?_, List.map_append.symm⟩
      rcases List.mem_append.mp h with h | h
      · exact Pending.isUpdate_of_mem h
      · exact Pending.isUpdate_of_mem h

/-- Whatever the call, what it writes is updates and then its own fragment. -/
theorem wrote_eq (o : Options) (d : Draft) (c : Call) :
    ∃ updates : List Instr, (∀ i ∈ updates, i.isUpdate = true) ∧
      d.wrote o c = updates.map .instr ++ d.fragment o c := by
  have hbump (u : Pending) : ∃ updates : List Instr, (∀ i ∈ updates, i.isUpdate = true) ∧
      d.bumpLines o u = updates.map .instr ++ [] := by
    simpa only [List.append_nil] using d.bumpLines_eq o u
  cases c with
  | op op pos =>
    cases op with
    | increment | decrement | moveLeft | moveRight => exact hbump _
    | output | input => exact ⟨_, fun _ => Pending.isUpdate_of_mem, rfl⟩
  | enterLoop pos => exact ⟨_, fun _ => Pending.isUpdate_of_mem, rfl⟩
  | exitLoop pos => exact ⟨_, fun _ => Pending.isUpdate_of_mem, rfl⟩
  | finish => exact ⟨_, fun _ => Pending.isUpdate_of_mem, rfl⟩

def next (o : Options) (d : Draft) : Call → Draft
  | .op .increment _ => d.bump o (.cell 1)
  | .op .decrement _ => d.bump o (.cell 255)
  | .op .moveLeft _ => d.bump o (.head 65535)
  | .op .moveRight _ => d.bump o (.head 1)
  | .op .output _ => { d with pending := .none }
  | .op .input _ => { d with pending := .none, nextInput := d.nextInput + 1 }
  | .enterLoop _ => ⟨.none, d.nextLoop :: d.loops, d.nextLoop + 1, d.nextInput⟩
  | .exitLoop _ => { d with pending := .none, loops := d.loops.tail }
  | .finish => { d with pending := .none }

/-- The lines that a sequence of calls leads to. -/
def code (o : Options) (d : Draft) : List Call → List Line
  | [] => []
  | c :: rest => d.wrote o c ++ code o (d.next o c) rest

def after (o : Options) (d : Draft) : List Call → Draft
  | [] => d
  | c :: rest => after o (d.next o c) rest

theorem all_code {P : Line → Bool} {o : Options} {cs : List Call}
    (h : ∀ (d : Draft), ∀ c ∈ cs, (d.wrote o c).all P = true) (d : Draft) :
    (d.code o cs).all P = true := by
  induction cs generalizing d with
  | nil => rfl
  | cons c rest ih =>
    rw [code, List.all_append, h d c List.mem_cons_self,
      ih fun d c hc => h d c (List.mem_cons_of_mem _ hc)]
    rfl

theorem code_append (o : Options) (d : Draft) (cs cs' : List Call) :
    d.code o (cs ++ cs') = d.code o cs ++ (d.after o cs).code o cs' := by
  induction cs generalizing d with
  | nil => rfl
  | cons c rest ih => simp only [List.cons_append, code, after, ih, List.append_assoc]

theorem after_append (o : Options) (d : Draft) (cs cs' : List Call) :
    d.after o (cs ++ cs') = (d.after o cs).after o cs' := by
  induction cs generalizing d with
  | nil => rfl
  | cons c rest ih => exact ih _

end Draft

namespace Generator

theorem get_eq (g : Generator) : (get : Emit Generator) g = .ok g g := rfl

def draft (g : Generator) : Draft := ⟨g.pending, g.loops, g.nextLoop, g.nextInput⟩

/-- The generator after `count` more lines that have led to the given draft. -/
def resume (g : Generator) (d : Draft) (count : Nat) : Generator :=
  { g with
    lines := g.lines + count
    pending := d.pending
    loops := d.loops
    nextLoop := d.nextLoop
    nextInput := d.nextInput }

/-- Started in `g` with any sink in it, the action offers the texts to the sink in turn. It ends
in `g'` if the sink takes them all, and otherwise with the error of the sink. -/
def Emits (x : Emit Unit) (g : Generator) (texts : List String) (g' : Generator) : Prop :=
  ∀ s s' : Sink,
    (s.writeTexts texts = (.ok (), s') →
      x { g with sink := s } = .ok () { g' with sink := s' }) ∧
    ∀ e, s.writeTexts texts = (.error e, s') →
      ∃ g'' : Generator, x { g with sink := s } = .error (.write e) { g'' with sink := s' }

namespace Emits

variable {x y : Emit Unit} {g g₁ g₂ : Generator} {xs ys : List String}

theorem of_eq (heq : ∀ s, x { g with sink := s } = y { g₁ with sink := s })
    (h : Emits y g₁ xs g₂) : Emits x g xs g₂ := by
  intro s s'
  rw [heq]
  exact h s s'

theorem pure (g : Generator) : Emits (Pure.pure ()) g [] g := by
  intro s s'
  constructor
  · intro h
    cases h
    rfl
  · intro e h
    cases h

theorem seq (hx : Emits x g xs g₁) (hy : Emits y g₁ ys g₂) :
    Emits (do x; y) g (xs ++ ys) g₂ := by
  intro s s'
  cases hfirst : s.writeTexts xs with
  | mk result s₁ =>
    cases result with
    | ok u =>
      have hrun := (hx s s₁).1 hfirst
      simp only [Sink.writeTexts_append, hfirst]
      show (_ → EStateM.bind x _ _ = _) ∧ ∀ e, _ → ∃ g'', EStateM.bind x _ _ = _
      simp only [EStateM.bind, hrun]
      exact hy s₁ s'
    | error e =>
      obtain ⟨g'', hrun⟩ := (hx s s₁).2 e hfirst
      simp only [Sink.writeTexts_append, hfirst]
      show (_ → EStateM.bind x _ _ = _) ∧ ∀ e, _ → ∃ g'', EStateM.bind x _ _ = _
      simp only [EStateM.bind, hrun]
      constructor
      · intro h
        cases h
      · intro e' h
        cases h
        exact ⟨g'', rfl⟩

end Emits

theorem emits_write (text : String) (g : Generator) : Emits (write text) g [text] g := by
  intro s s'
  simp only [Sink.writeTexts, write]
  cases hw : s.writeText text with
  | mk result s₁ =>
    cases result with
    | ok u =>
      constructor
      · intro h
        cases h
        rfl
      · intro e h
        cases h
    | error e =>
      constructor
      · intro h
        cases h
      · intro e' h
        cases h
        exact ⟨g, rfl⟩

/-- The text of a line where the generator stands. -/
def render (g : Generator) (l : Line) : String := l.render g.options.target g.indented

/-- The action writes these lines and leaves this draft. -/
def Lays (x : Emit Unit) (g : Generator) (ls : List Line) (d : Draft) : Prop :=
  Emits x g (ls.map g.render) (g.resume d ls.length)

namespace Lays

variable {x y : Emit Unit} {g : Generator} {d d₁ : Draft} {ls ls₁ : List Line}

theorem of_eq (d₁ : Draft)
    (heq : ∀ s, x { g with sink := s } = y { g.resume d₁ 0 with sink := s })
    (h : Lays y (g.resume d₁ 0) ls d) : Lays x g ls d :=
  Emits.of_eq heq h

theorem seq (hx : Lays x g ls d) (hy : Lays y (g.resume d ls.length) ls₁ d₁) :
    Lays (do x; y) g (ls ++ ls₁) d₁ := by
  have hresume : (g.resume d ls.length).resume d₁ ls₁.length =
      g.resume d₁ (ls ++ ls₁).length := by
    rw [List.length_append]
    simp only [resume, Nat.add_assoc]
  unfold Lays at hy ⊢
  rw [hresume] at hy
  rw [List.map_append]
  exact Emits.seq hx hy

theorem pure (g : Generator) : Lays (Pure.pure ()) g [] g.draft := Emits.pure g

end Lays

theorem lays_emit (g : Generator) (l : Line) : Lays (emit l) g [l] g.draft :=
  Emits.of_eq (fun _ => rfl) (emits_write (g.render l) (g.resume g.draft 1))

theorem lays_emitAll (g : Generator) (instrs : List Instr) :
    Lays (emitAll instrs) g (instrs.map .instr) g.draft := by
  induction instrs generalizing g with
  | nil => exact .pure g
  | cons i rest ih => exact (lays_emit g (.instr i)).seq (ih (g.resume g.draft 1))

theorem lays_setPending (g : Generator) (u : Pending) :
    Lays (setPending u) g [] { g.draft with pending := u } :=
  .of_eq { g.draft with pending := u } (fun _ => rfl) (.pure _)

theorem lays_flush (g : Generator) :
    Lays flush g g.pending.lines { g.draft with pending := .none } := by
  unfold Pending.lines
  cases hi : g.pending.instr? with
  | none =>
    refine .of_eq { g.draft with pending := .none } (fun s => ?_) (.pure _)
    simp only [flush, bind, EStateM.bind, get_eq, hi]
    rfl
  | some i =>
    refine .of_eq { g.draft with pending := .none } (fun s => ?_) (lays_emit _ (.instr i))
    simp only [flush, bind, EStateM.bind, get_eq, hi]
    rfl

/-- Without folding an update is written as soon as it has been taken in. -/
def flushUnlessFolding : Emit Unit := do
  if (← get).options.optLevel.folds then Pure.pure () else flush

theorem lays_folding (g : Generator) (h : g.options.optLevel.folds = true) :
    Lays flushUnlessFolding g [] g.draft := by
  refine .of_eq g.draft (fun s => ?_) (.pure g)
  simp only [flushUnlessFolding, bind, EStateM.bind, get_eq,
    if_pos h]
  rfl

theorem lays_not_folding (g : Generator) (h : g.options.optLevel.folds = false) :
    Lays flushUnlessFolding g g.pending.lines { g.draft with pending := .none } := by
  refine .of_eq g.draft (fun s => ?_) (lays_flush g)
  simp only [flushUnlessFolding, bind, EStateM.bind, get_eq,
    h, Bool.false_eq_true, if_false]
  rfl

theorem lays_bump (g : Generator) (u : Pending) :
    Lays (bump u) g (g.draft.bumpLines g.options u) (g.draft.bump g.options u) := by
  have hpending : g.draft.pending.join? u = g.pending.join? u := rfl
  simp only [Draft.bumpLines, Draft.bump, hpending]
  cases hjoin : g.pending.join? u with
  | some joined =>
    have hstart (s : Sink) : bump u { g with sink := s } =
        (do setPending joined; flushUnlessFolding) { g.resume g.draft 0 with sink := s } := by
      simp only [bump, bind, EStateM.bind, get_eq, hjoin]
      rfl
    refine .of_eq g.draft hstart ?_
    cases hfolds : g.options.optLevel.folds with
    | true => exact (lays_setPending g joined).seq (lays_folding _ hfolds)
    | false => exact (lays_setPending g joined).seq (lays_not_folding _ hfolds)
  | none =>
    have hstart (s : Sink) : bump u { g with sink := s } =
        (do flush; setPending u; flushUnlessFolding) { g.resume g.draft 0 with sink := s } := by
      simp only [bump, bind, EStateM.bind, get_eq, hjoin]
      rfl
    refine .of_eq g.draft hstart ?_
    cases hfolds : g.options.optLevel.folds with
    | true => exact (lays_flush g).seq ((lays_setPending _ u).seq (lays_folding _ hfolds))
    | false => exact (lays_flush g).seq ((lays_setPending _ u).seq (lays_not_folding _ hfolds))

/-- What follows the call of the input routine. -/
def storeInput (id : Nat) : EofPolicy → Emit Unit
  | .max => emit (.instr .storeResult)
  | .zero => do
    emitAll [.testEof, .jumpIfNotEqual (.input id), .clearResult]
    emit (.label (.input id))
    emit (.instr .storeResult)
  | .unchanged => do
    emitAll [.testEof, .jumpIfEqual (.input id), .storeResult]
    emit (.label (.input id))

theorem lays_storeInput (g : Generator) (id : Nat) (eof : EofPolicy) :
    Lays (storeInput id eof) g (Draft.inputLines id eof).tail g.draft := by
  cases eof with
  | max => exact lays_emit g _
  | zero => exact (lays_emitAll g _).seq ((lays_emit _ _).seq (lays_emit _ _))
  | unchanged => exact (lays_emitAll g _).seq (lays_emit _ _)

theorem lays_input (g : Generator) :
    Lays input g (Draft.inputLines g.nextInput g.options.eof)
      { g.draft with nextInput := g.nextInput + 1 } := by
  have hcall : Draft.inputLines g.nextInput g.options.eof =
      [.instr (.call .getchar)] ++ (Draft.inputLines g.nextInput g.options.eof).tail := by
    cases g.options.eof <;> rfl
  rw [hcall]
  refine (lays_emit g (.instr (.call .getchar))).seq ?_
  exact .of_eq (y := storeInput g.nextInput g.options.eof)
    { g.draft with nextInput := g.nextInput + 1 } (fun _ => rfl) (lays_storeInput _ _ _)

theorem lays_enterLoop (g : Generator) (pos : Position) :
    Lays (enterLoop pos) g
      [.label (.loopStart g.nextLoop), .loopComment pos, .instr .testCell,
        .instr (.jumpIfEqual (.loopEnd g.nextLoop))]
      ⟨g.pending, g.nextLoop :: g.loops, g.nextLoop + 1, g.nextInput⟩ := by
  refine .of_eq (y := do
      emit (.label (.loopStart g.nextLoop))
      emit (.loopComment pos)
      emitAll [.testCell, .jumpIfEqual (.loopEnd g.nextLoop)])
    ⟨g.pending, g.nextLoop :: g.loops, g.nextLoop + 1, g.nextInput⟩ (fun _ => rfl) ?_
  exact (lays_emit _ _).seq ((lays_emit _ _).seq (lays_emitAll _ _))

theorem lays_exitLoop (g : Generator) (h : g.loops ≠ []) :
    Lays exitLoop g (Draft.exitLines g.loops) { g.draft with loops := g.loops.tail } := by
  cases hloops : g.loops with
  | nil => exact absurd hloops h
  | cons id outer =>
    refine .of_eq (y := do emit (.instr (.jump (.loopStart id))); emit (.label (.loopEnd id)))
      { g.draft with loops := outer } (fun s => ?_) ((lays_emit _ _).seq (lays_emit _ _))
    simp only [exitLoop, bind, EStateM.bind, get_eq, hloops]
    rfl

/-- A call writes the lines that its draft says, unless it leaves a loop that was not entered. -/
theorem lays_call (g : Generator) (c : Call) (h : ∀ pos, c = .exitLoop pos → g.loops ≠ []) :
    Lays (call c) g (g.draft.wrote g.options c) (g.draft.next g.options c) := by
  cases c with
  | op o pos =>
    cases o with
    | increment => exact lays_bump g _
    | decrement => exact lays_bump g _
    | moveLeft => exact lays_bump g _
    | moveRight => exact lays_bump g _
    | output => exact (lays_flush g).seq (lays_emitAll _ _)
    | input => exact (lays_flush g).seq (lays_input _)
  | enterLoop pos => exact (lays_flush g).seq (lays_enterLoop _ pos)
  | exitLoop pos => exact (lays_flush g).seq (lays_exitLoop _ (h pos rfl))
  | finish => exact (lays_flush g).seq (lays_emitAll _ _)

end Generator

namespace Draft

/-- Every loop that the calls leave is open when they leave it. -/
def Balanced (o : Options) (d : Draft) : List Call → Prop
  | [] => True
  | c :: rest => (∀ pos, c = .exitLoop pos → d.loops ≠ []) ∧ Balanced o (d.next o c) rest

end Draft

namespace Generator

theorem lays_calls (g : Generator) (cs : List Call) (h : g.draft.Balanced g.options cs) :
    Lays (cs.forM call) g (g.draft.code g.options cs) (g.draft.after g.options cs) := by
  induction cs generalizing g with
  | nil => exact .pure g
  | cons c rest ih => exact (lays_call g c h.1).seq (ih _ h.2)

end Generator

namespace Draft

theorem balanced_append (o : Options) (d : Draft) (cs cs' : List Call) :
    d.Balanced o (cs ++ cs') ↔ d.Balanced o cs ∧ (d.after o cs).Balanced o cs' := by
  induction cs generalizing d with
  | nil => exact ⟨fun h => ⟨trivial, h⟩, fun h => h.2⟩
  | cons c rest ih =>
    have hrest := ih (d.next o c)
    constructor
    · intro h
      exact ⟨⟨h.1, (hrest.mp h.2).1⟩, (hrest.mp h.2).2⟩
    · intro h
      exact ⟨h.1.1, hrest.mpr ⟨h.1.2, h.2⟩⟩

theorem next_op_loops (o : Options) (d : Draft) (op : Op) (pos : Position) :
    (d.next o (.op op pos)).loops = d.loops := by
  cases op <;> rfl

/-- A program leaves the loops that it enters. -/
theorem after_spell_loops (o : Options) (p : Program) (d : Draft) :
    (d.after o p.spell).loops = d.loops := by
  induction p generalizing d with
  | nil => rfl
  | op op pos rest ih =>
    have hrest := ih (d.next o (.op op pos))
    exact hrest.trans (next_op_loops o d op pos)
  | loop pos body rest ihbody ih =>
    have hbody := ihbody (d.next o (.enterLoop pos))
    simp only [Program.spell, after, after_append, ih]
    exact congrArg List.tail hbody

theorem balanced_spell (o : Options) (p : Program) (d : Draft) : d.Balanced o p.spell := by
  induction p generalizing d with
  | nil => exact trivial
  | op op pos rest ih => exact ⟨nofun, ih _⟩
  | loop pos body rest ihbody ih =>
    refine ⟨nofun, ?_⟩
    rw [balanced_append]
    refine ⟨ihbody _, fun _ _ => ?_, ih _⟩
    rw [after_spell_loops]
    exact List.cons_ne_nil _ _

theorem balanced_calls (o : Options) (p : Program) (d : Draft) : d.Balanced o p.calls := by
  rw [Program.calls_eq, balanced_append]
  exact ⟨balanced_spell o p d, nofun, trivial⟩

end Draft

namespace Program

/-- The lines of the code itself, from its first instruction to its last. -/
def codeLines (o : Options) (d : Draft) (p : Program) : List Line :=
  opening.map .instr ++ d.code o p.calls

/-- The texts that make up the assembly of a program, in the order in which they are written. -/
def texts (o : Options) (d : Draft) (p : Program) : List String :=
  [String.join (o.target.prologue.map fun line => line ++ "\n")] ++
    ([.textSection, .exportEntry, .entry].map (Line.render o.target false) ++
      ((p.codeLines o d).map (Line.render o.target true) ++
        [.blank, .tapeDeclaration].map (Line.render o.target false)))

/-- How many lines a generator counts while it writes these texts. -/
def lineCount (o : Options) (d : Draft) (p : Program) : Nat :=
  o.target.prologue.length + (p.codeLines o d).length + 5

/-- The assembly of a program. -/
def assembly (o : Options) (p : Program) : String := String.join (p.texts o {})

end Program

namespace Generator

theorem emits_filePrologue (g : Generator) :
    Emits filePrologue g [String.join (g.options.target.prologue.map fun line => line ++ "\n")]
      { g with lines := g.lines + g.options.target.prologue.length } := by
  refine .of_eq (y := do
      write (String.join (g.options.target.prologue.map fun line => line ++ "\n"))
      modify fun g₁ => { g₁ with lines := g₁.lines + g.options.target.prologue.length })
    (fun _ => rfl) ((emits_write _ g).seq ?_)
  exact .of_eq (fun _ => rfl)
    (.pure { g with lines := g.lines + g.options.target.prologue.length })

theorem emits_indentedBlock {body : Emit Unit} {g g₁ : Generator} {xs : List String}
    (h : Emits body { g with indented := true } xs g₁) :
    Emits (indentedBlock body) g (xs ++ [Line.render g₁.options.target false .blank])
      { g₁ with indented := false, lines := g₁.lines + 1 } := by
  intro s s'
  cases hbody : s.writeTexts xs with
  | mk result s₁ =>
    cases result with
    | ok u =>
      have hrun := (h s s₁).1 hbody
      simp only [Sink.writeTexts_append, hbody]
      simp only [indentedBlock, hrun]
      exact lays_emit { g₁ with indented := false } .blank s₁ s'
    | error e =>
      obtain ⟨g'', hrun⟩ := (h s s₁).2 e hbody
      simp only [Sink.writeTexts_append, hbody]
      simp only [indentedBlock, hrun]
      constructor
      · intro h
        cases h
      · intro e' h
        cases h
        exact ⟨{ g'' with indented := false }, rfl⟩

/-- All that is written of a program before the sink is flushed. -/
def writeProgram (p : Program) : Emit Unit := do
  filePrologue
  emit .textSection
  emit .exportEntry
  emit .entry
  indentedBlock do
    emitAll opening
    translate call p
  emit .tapeDeclaration

theorem emits_writeProgram (g : Generator) (p : Program) (h : g.indented = false) :
    Emits (writeProgram p) g (p.texts g.options g.draft)
      (g.resume (g.draft.after g.options p.calls) (p.lineCount g.options g.draft)) := by
  obtain ⟨options, sink, indented, lines, pending, loops, nextLoop, nextInput⟩ := g
  cases h
  let state (d : Draft) (n : Nat) (indented : Bool) : Generator :=
    ⟨options, sink, indented, n, d.pending, d.loops, d.nextLoop, d.nextInput⟩
  let d : Draft := ⟨pending, loops, nextLoop, nextInput⟩
  let d' := d.after options p.calls
  let start := lines + options.target.prologue.length
  let finish := start + 3 + (p.codeLines options d).length
  have hprologue : Emits filePrologue (state d lines false)
      [String.join (options.target.prologue.map fun line => line ++ "\n")] (state d start false) :=
    emits_filePrologue _
  have hhead (l : Line) (d : Draft) (n : Nat) : Emits (emit l) (state d n false)
      [Line.render options.target false l] (state d (n + 1) false) := lays_emit _ l
  have hbody : Emits (do emitAll opening; translate call p) (state d (start + 3) true)
      ((p.codeLines options d).map (Line.render options.target true)) (state d' finish true) :=
    (lays_emitAll (state d (start + 3) true) opening).seq
      (lays_calls _ p.calls (Draft.balanced_calls _ _ _))
  have hblock : Emits (indentedBlock do emitAll opening; translate call p)
      (state d (start + 3) false)
      ((p.codeLines options d).map (Line.render options.target true) ++
        [Line.render options.target false .blank]) (state d' (finish + 1) false) := by
    have hblank := emits_indentedBlock (g := state d (start + 3) false) hbody
    exact hblank
  have hall := hprologue.seq ((hhead .textSection d _).seq ((hhead .exportEntry d _).seq
    ((hhead .entry d _).seq (hblock.seq (hhead .tapeDeclaration d' _)))))
  have hcount : finish + 1 + 1 = lines + p.lineCount options d := by
    unfold Program.lineCount
    omega
  rw [hcount, List.append_assoc] at hall
  exact hall

theorem generate_eq (p : Program) :
    generate p = do writeProgram p; flushSink; return (← get).lines := by
  simp only [generate, writeProgram, bind_assoc]

theorem generate_of_writeProgram {p : Program} {g g₁ : Generator}
    (h : writeProgram p g = .ok () g₁) (hflush : g₁.sink.flushFailure = none) :
    generate p g = .ok g₁.lines { g₁ with sink.flushes := g₁.sink.flushes + 1 } := by
  rw [generate_eq]
  simp only [bind, EStateM.bind, h, flushSink, Sink.flush, hflush]
  rfl

end Generator

namespace Program

/-- Written into a sink without limit, a program becomes its assembly. -/
theorem compile_eq (o : Options) (p : Program) :
    ∃ g, p.compile o {} = .ok (p.lineCount o {}) g ∧
      g.sink.accepted.toList = Sink.bytesOf (p.assembly o) := by
  obtain ⟨s', hwrite, hflush, haccepted⟩ := Sink.writeTexts_of_unlimited (p.texts o {}) {} rfl
  have hprogram := (Generator.emits_writeProgram { options := o } p rfl {} s').1 hwrite
  have hgenerate := Generator.generate_of_writeProgram hprogram hflush
  have hlines : 0 + p.lineCount o {} = p.lineCount o {} := Nat.zero_add _
  refine ⟨_, hgenerate.trans (congrArg (EStateM.Result.ok · _) hlines), ?_⟩
  exact haccepted

end Program

end TapeLang
