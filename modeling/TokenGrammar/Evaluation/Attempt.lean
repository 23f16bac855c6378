import TokenGrammar.Evaluation.Run

/-!
# Attempts

The attempt of one variation at a cursor. The content is driven by a stack of frames: the bottom
frame holds the content of the variation, and a loop pushes a frame for every pass. A pass that is
over pops its frame and finds its loop again underneath, so the loop starts the next pass; it ends
when an item fails or a pass consumed nothing.

One flag, shared by all frames, tells whether a failing item ends the attempt well: it is set when a
frame is exhausted, and cleared by an item of any frame but that of a block loop. So a block loop may
stop anywhere in a later pass, and a binary loop only before one.

## Main definitions

* `Setting`: a grammar and the tokens it is evaluated on.
* `Setting.skipTrivia`, `Setting.giveBack`: the two movements of the cursor over trivia.
* `Setting.matchAtom`, `Setting.matchEither`: the evaluation of an item that is no loop.
* `Setting.drive`, `Setting.attempt`: the stack machine, and its run on a variation.
-/
namespace TokenGrammar

/-- A grammar and the tokens it is evaluated on. -/
structure Setting where
  grammar : Grammar
  tokens : List Token
deriving Inhabited

/-- What stands for a frame: the content of the variation, or a pass of a loop. -/
inductive FrameKind where
  | top
  | loop (kind : LoopKind)
deriving Repr, DecidableEq, Inhabited

/-- A layer of the stack: the items that are left of it, and the index where it began. -/
structure Frame where
  kind : FrameKind
  rest : Content
  start : Nat
deriving Inhabited

namespace Setting

/-! ## Trivia -/

/-- Whether a token is trivia for a variation. -/
def ignored (s : Setting) (v : Variation) (t : Token) : Bool := s.grammar.ignores (some v) t

/-- The first index from `index` on whose token is not trivia, or the end of the input. -/
def skipTrivia (s : Setting) (v : Variation) (index : Nat) : Nat :=
  index + ((s.tokens.drop index).takeWhile (s.ignored v)).length

/-- Whether there is a token at an index and it is trivia. -/
def ignoredAt (s : Setting) (v : Variation) (index : Nat) : Bool :=
  match s.tokens[index]? with
  | some t => s.ignored v t
  | none => false

/-- Moves an index back over trivia, but not before `floor`. -/
def giveBack (s : Setting) (v : Variation) (floor : Nat) : Nat → Nat
  | 0 => 0
  | i + 1 => if floor ≤ i && s.ignoredAt v i then s.giveBack v floor i else i + 1

/-- Gives back the trivia at the end of an attempt that began at `start`. A token that an atom
matched is never given back. -/
def rollback (s : Setting) (v : Variation) (start : Nat) (c : Cursor) : Cursor :=
  { c with index := s.giveBack v (max start c.matched) c.index }

/-! ## Atoms and choices -/

/-- The evaluation of a rule at a cursor. -/
abbrev Caller := String → Cursor → Run Value

/-- A token atom: trivia is skipped, and the token after it has to satisfy the atom. -/
def matchToken (s : Setting) (v : Variation) (a : Atom) (c : Cursor) : Run Value :=
  let i := s.skipTrivia v c.index
  match s.tokens[i]? with
  | some t =>
    if a.accepts t then ⟨.value t.toValue, ⟨i + 1, i + 1⟩, []⟩
    else ⟨.mismatch i, ⟨i, c.matched⟩, []⟩
  | none => ⟨.mismatch i, ⟨i, c.matched⟩, []⟩

/-- An atom: a rule is evaluated, a token is matched. -/
def matchAtom (s : Setting) (call : Caller) (v : Variation) (a : Atom) (c : Cursor) : Run Value :=
  if a.isRule then call a.name c else s.matchToken v a c

/-- What an atom adds to the captured data. -/
def captured (a : Atom) (x : Value) : List Value := if a.skip then [] else [x]

/-- The first of the candidates that succeeds, each tried from the same cursor. If none does, the
failure is the furthest one, and the cursor is where it was. -/
def matchEither (s : Setting) (call : Caller) (v : Variation) (start : Cursor) (furthest : Nat) :
    List Atom → Run (List Value)
  | [] => ⟨.mismatch furthest, start, []⟩
  | a :: rest =>
    let r := s.matchAtom call v a start
    match r.outcome with
    | .value x => ⟨.value (captured a x), r.cursor, r.calls⟩
    | .mismatch i => (s.matchEither call v start (max furthest i) rest).after r.calls
    | .fatal e => ⟨.fatal e, r.cursor, r.calls⟩

/-- An atom as an item, with what it captures. -/
def matchOne (s : Setting) (call : Caller) (v : Variation) (a : Atom) (c : Cursor) :
    Run (List Value) :=
  let r := s.matchAtom call v a c
  match r.outcome with
  | .value x => ⟨.value (captured a x), r.cursor, r.calls⟩
  | .mismatch i => ⟨.mismatch i, r.cursor, r.calls⟩
  | .fatal e => ⟨.fatal e, r.cursor, r.calls⟩

/-- An item that is no loop, with what it captures. A loop captures nothing by itself, and a foreign
item ends the parse. -/
def matchItem (s : Setting) (call : Caller) (v : Variation) (c : Cursor) : Item → Run (List Value)
  | .atom a => s.matchOne call v a c
  | .either e => s.matchEither call v c c.index e.candidates
  | .loop _ _ => ⟨.value [], c, []⟩
  | .foreign _ _ => ⟨.fatal .inconceivable, c, []⟩

/-! ## The stack machine -/

/-- The captured data at the start of a pass: a binary loop folds what there is into one value. -/
def enterPass (v : Variation) (kind : LoopKind) (data : List Value) :
    Except AdaptError (List Value) :=
  match kind with
  | .block => .ok data
  | .binary => (v.strategy.adapt data).map fun x => [x]

/-- What a failing item means: the attempt ends well if the flag is set, and fails otherwise. -/
def settle (data : List Value) (completed : Bool) (index : Nat) : Outcome (List Value) :=
  if completed then .value data else .mismatch index

/-- Whether an exhausted frame was a pass that consumed nothing; such a pass would repeat forever. -/
def isIdle (f : Frame) (c : Cursor) : Bool := f.kind != .top && c.index == f.start

/-- Runs the machine for at most `fuel` steps: each pushes a frame or evaluates an item. -/
def drive (s : Setting) (call : Caller) (v : Variation) :
    Nat → List Frame → List Value → Bool → Cursor → Run (List Value)
  | 0, _, data, _, c => ⟨.value data, c, []⟩
  | _ + 1, [], data, _, c => ⟨.value data, c, []⟩
  | fuel + 1, f :: below, data, completed, c =>
    match f.rest with
    | [] => ⟨.value data, c, []⟩
    | .loop kind body :: _ =>
      match enterPass v kind data with
      | .error e => ⟨.fatal (.adapt e), c, []⟩
      | .ok data => s.drive call v fuel (⟨.loop kind, body, c.index⟩ :: f :: below) data completed c
    | item :: rest =>
      let r := s.matchItem call v c item
      match r.outcome with
      | .fatal e => ⟨.fatal e, r.cursor, r.calls⟩
      | .mismatch i => ⟨settle data completed i, r.cursor, r.calls⟩
      | .value more =>
        if rest.isEmpty then
          if isIdle f r.cursor then ⟨.value (data ++ more), r.cursor, r.calls⟩
          else (s.drive call v fuel below (data ++ more) true r.cursor).after r.calls
        else
          (s.drive call v fuel ({ f with rest } :: below) (data ++ more)
            (completed && f.kind == .loop .block) r.cursor).after r.calls

/-- Steps that are enough for every attempt: no pass but the last leaves the cursor where it was, so
there are at most as many passes as tokens and one more. -/
def enoughFuel (s : Setting) (v : Variation) : Nat := (s.tokens.length + 2) * (v.content.size + 1)

/-- The attempt of a variation at a cursor: the data that it captured, or where it failed. -/
def attempt (s : Setting) (call : Caller) (v : Variation) (c : Cursor) : Run (List Value) :=
  s.drive call v (s.enoughFuel v) [⟨.top, v.content, 0⟩] [] false c

end Setting
end TokenGrammar
