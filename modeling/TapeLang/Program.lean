import TapeLang.Token

/-!
Programs. A program is its first instruction followed by the rest, and a loop holds the program
between its brackets. Programs are assembled from balanced token lists, read from the end: what
has been read so far is then always a program for each bracket level, the innermost first.
-/
namespace TapeLang

inductive Program where
  | nil
  | op (o : Op) (pos : Position) (rest : Program)
  | loop (pos : Position) (body rest : Program)
  deriving DecidableEq, Repr, Inhabited

namespace Program

def size : Program → Nat
  | nil => 0
  | op _ _ rest => rest.size + 1
  | loop _ body rest => body.size + rest.size + 1

def append : Program → Program → Program
  | nil, q => q
  | op o pos rest, q => .op o pos (rest.append q)
  | loop pos body rest, q => .loop pos body (rest.append q)

instance : Append Program := ⟨append⟩

/-- The symbols that spell a program. -/
def symbols : Program → List Symbol
  | nil => []
  | op o _ rest => .op o :: rest.symbols
  | loop _ body rest => .opening :: body.symbols ++ .closing :: rest.symbols

/-- Put a token in front of the programs already read. A `]` starts a new innermost level, and a
`[` wraps the innermost level into a loop of the level around it. -/
def place (t : Token) (levels : List Program) : List Program :=
  match t.value, levels with
  | .op o, p :: outer => .op o t.pos p :: outer
  | .opening, body :: rest :: outer => .loop t.pos body rest :: outer
  | .closing, levels => .nil :: levels
  | _, levels => levels

/-- The programs of a token list: the first up to the first `]` that closes nothing in the list,
the next up to the following one, and so on. -/
def levels (ts : List Token) : List Program := ts.foldr place [nil]

def assemble (ts : List Token) : Program := (levels ts).headD nil

@[simp] theorem levels_nil : levels [] = [nil] := rfl

@[simp] theorem levels_cons (t : Token) (ts : List Token) :
    levels (t :: ts) = place t (levels ts) := rfl

@[simp] theorem nil_append (q : Program) : nil ++ q = q := rfl

@[simp] theorem op_append (o : Op) (pos : Position) (p q : Program) :
    op o pos p ++ q = op o pos (p ++ q) := rfl

@[simp] theorem loop_append (pos : Position) (body p q : Program) :
    loop pos body p ++ q = loop pos body (p ++ q) := rfl

@[simp] theorem append_nil (p : Program) : p ++ nil = p := by
  induction p with
  | nil => rfl
  | op o pos rest ih => simp only [op_append, ih]
  | loop pos body rest _ ih => simp only [loop_append, ih]

theorem append_assoc (p q r : Program) : p ++ q ++ r = p ++ (q ++ r) := by
  induction p with
  | nil => rfl
  | op o pos rest ih => simp only [op_append, ih]
  | loop pos body rest _ ih => simp only [loop_append, ih]

theorem symbols_append (p q : Program) : (p ++ q).symbols = p.symbols ++ q.symbols := by
  induction p with
  | nil => rfl
  | op o pos rest ih => simp only [op_append, symbols, ih, List.cons_append]
  | loop pos body rest _ ih =>
    simp only [loop_append, symbols, ih, List.cons_append, List.append_assoc]

end Program

namespace Source

/-- The program of a source. -/
def program (src : Source) : Except SourceError Program :=
  src.tokens.map Program.assemble

end Source

end TapeLang
