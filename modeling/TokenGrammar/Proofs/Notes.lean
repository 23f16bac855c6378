import TokenGrammar.Proofs.Simulation

/-!
# Evaluation with notes

The end of an evaluation does not tell what happened on the way. The evaluation with notes writes
down, in order, every place that the cursor comes to, every token that is looked at on the way back,
every call of a strategy, every rule that is entered, goes a level down and is left, and every
choice that has been evaluated. It is the evaluation itself when the notes are taken away, so what
is asked of a parse on its way is asked of the notes, and nothing is evaluated a second time for it.

Beside the notes it keeps the tokens that token atoms matched; those that were matched on the way to
a failure are given up together with the cursor. An attempt also keeps the laps of its loop. It is
given a number of steps, and if they run out, this is noted as well.

The way back after a variation that failed leaves no trace in the end of the run, but it is taken,
and so it is noted.

## Main definitions

* `Hit`, `Lap`, `Note`: a token that was matched, a pass of a loop, and something that happened.
* `Noted`: a run with its notes, hits and laps.
* `Setting.evaluateNoted`: the evaluation of a rule with notes; without them it is the evaluation.
-/
namespace TokenGrammar

/-- A token that was matched: for which variation, by which atom, and where it stands. -/
structure Hit where
  variation : Variation
  atom : Atom
  index : Nat

/-- A pass of a loop: the index where it began, and the index where it ended. -/
structure Lap where
  start : Nat
  stop : Nat
deriving Repr, DecidableEq

/-- Something that happened during an evaluation. -/
inductive Note where
  /-- The cursor came to a place. -/
  | place (c : Cursor)
  /-- The token at an index was looked at, on the way back over trivia. -/
  | look (index : Nat)
  /-- A strategy was asked for the value of captured data. -/
  | adapt (strategy : Strategy) (data : List Value)
  /-- A rule was entered at a cursor. -/
  | entry (name : String) (start : Cursor)
  /-- The rule that was entered found a level left and went down. -/
  | nest
  /-- The rule that was entered found no level left. -/
  | full
  /-- A rule was evaluated from one cursor on, up to another, with the hits that it kept. -/
  | rule (name : String) (start : Cursor) (outcome : Outcome Value) (stop : Cursor)
      (hits : List Hit)
  /-- A choice between atoms was evaluated in the same way. -/
  | choice (start : Cursor) (outcome : Outcome (List Value)) (stop : Cursor) (hits : List Hit)
  /-- The steps ran out. -/
  | stopped

/-- A run with what happened on the way, the tokens that were matched and kept, and the laps of its
loop. -/
structure Noted (α : Type) extends Run α where
  notes : List Note
  hits : List Hit
  laps : List Lap

namespace Noted

variable {α β : Type}

/-- A run without notes. -/
def silent (r : Run α) : Noted α := ⟨r, [], [], []⟩

/-- A run that ends because its steps ran out. -/
def stopped (r : Run α) : Noted α := ⟨r, [.stopped], [], []⟩

/-- The same way to another outcome. -/
def ending (r : Noted α) (outcome : Outcome β) : Noted β :=
  ⟨⟨outcome, r.cursor, r.calls⟩, r.notes, r.hits, r.laps⟩

/-- The run with further notes. -/
def noting (r : Noted α) (more : List Note) : Noted α := { r with notes := r.notes ++ more }

/-- The run without its hits. -/
def giveUp (r : Noted α) : Noted α := { r with hits := [] }

/-- The run as a part of laps of its own. -/
def lapping (r : Noted α) (laps : List Lap) : Noted α := { r with laps }

/-- The run as what follows an earlier one. -/
def after (r : Noted α) (earlier : Noted β) : Noted α :=
  ⟨r.toRun.after earlier.calls, earlier.notes ++ r.notes, earlier.hits ++ r.hits,
    earlier.laps ++ r.laps⟩

/-- The evaluation of a rule as a whole, from its entry to its end. -/
def close (rule : String) (start : Cursor) (r : Noted Value) : Noted Value :=
  ⟨r.toRun.record rule start,
    .entry rule start :: r.notes ++ [.rule rule start r.outcome r.cursor r.hits], r.hits, []⟩

end Noted

/-- Notes of places that have the last match in common. -/
def Note.places (matched : Nat) (indices : List Nat) : List Note :=
  indices.map fun i => .place ⟨i, matched⟩

/-- The lap that is over if a frame is left at an index; outside of a loop there is none. -/
def Frame.lapTo (f : Frame) (stop : Nat) : List Lap :=
  match f.kind with
  | .top => []
  | .loop _ => [⟨f.start, stop⟩]

namespace Setting

/-- The evaluation of a rule with notes. -/
abbrev NotedCaller := String → Cursor → Noted Value

/-- The caller without its notes. -/
def NotedCaller.plain (call : NotedCaller) : Caller := fun rule c => (call rule c).toRun

/-! ## Notes of movements -/

/-- The places on the way over trivia, token by token. -/
def wayOver (s : Setting) (v : Variation) (c : Cursor) : List Note :=
  Note.places c.matched (List.range' (c.index + 1) (s.skipTrivia v c.index - c.index))

/-- The way back over trivia: each token in front of the cursor is looked at, and the cursor moves
before it if it is trivia. -/
def backFrom (s : Setting) (v : Variation) (floor matched : Nat) : Nat → List Note
  | 0 => []
  | i + 1 =>
    if floor ≤ i then
      .look i ::
        if s.ignoredAt v i then .place ⟨i, matched⟩ :: s.backFrom v floor matched i else []
    else []

/-- The way back at the end of an attempt. -/
def wayBack (s : Setting) (v : Variation) (start stop : Cursor) : List Note :=
  if v.preventRollback then []
  else s.backFrom v (max start.index stop.matched) stop.matched stop.index

/-- The call of the strategy at the start of a pass; only a binary loop makes one. -/
def foldNotes (v : Variation) (kind : LoopKind) (data : List Value) : List Note :=
  match kind with
  | .block => []
  | .binary => [.adapt v.strategy data]

/-! ## Items -/

/-- A token atom. A match moves the cursor first and then the end of the last match. -/
def matchTokenNoted (s : Setting) (v : Variation) (a : Atom) (c : Cursor) : Noted Value :=
  let r := s.matchToken v a c
  match r.outcome with
  | .value _ =>
    ⟨r, s.wayOver v c ++ [.place ⟨r.cursor.index, c.matched⟩, .place r.cursor],
      [⟨v, a, s.skipTrivia v c.index⟩], []⟩
  | _ => ⟨r, s.wayOver v c, [], []⟩

/-- An atom: a rule is evaluated, a token is matched. -/
def matchAtomNoted (s : Setting) (call : NotedCaller) (v : Variation) (a : Atom) (c : Cursor) :
    Noted Value :=
  if a.isRule then call a.name c else s.matchTokenNoted v a c

/-- The candidates of a choice. After each that fails, the cursor returns to the start. -/
def tryNoted (s : Setting) (call : NotedCaller) (v : Variation) (start : Cursor) (furthest : Nat) :
    List Atom → Noted (List Value)
  | [] => .silent ⟨.mismatch furthest, start, []⟩
  | a :: rest =>
    let r := s.matchAtomNoted call v a start
    match r.outcome with
    | .value x => r.ending (.value (captured a x))
    | .mismatch i =>
      (s.tryNoted call v start (max furthest i) rest).after (r.noting [.place start]).giveUp
    | .fatal e => r.ending (.fatal e)

/-- A choice as a whole. -/
def matchEitherNoted (s : Setting) (call : NotedCaller) (v : Variation) (c : Cursor)
    (candidates : List Atom) : Noted (List Value) :=
  let r := s.tryNoted call v c c.index candidates
  r.noting [.choice c r.outcome r.cursor r.hits]

/-- An item that is no loop, with what it captures. -/
def matchItemNoted (s : Setting) (call : NotedCaller) (v : Variation) (c : Cursor) :
    Item → Noted (List Value)
  | .atom a =>
    let r := s.matchAtomNoted call v a c
    match r.outcome with
    | .value x => r.ending (.value (captured a x))
    | .mismatch i => r.ending (.mismatch i)
    | .fatal e => r.ending (.fatal e)
  | .either e => s.matchEitherNoted call v c e.candidates
  | .loop _ _ => .silent ⟨.value [], c, []⟩
  | .foreign _ _ => .silent ⟨.fatal .inconceivable, c, []⟩

/-! ## The stack machine -/

/-- The stack machine with a number of steps. An item that ends the attempt by failing keeps nothing
of its own. A lap is over where the attempt ends in a pass, and where a pass is exhausted. -/
def driveNoted (s : Setting) (call : NotedCaller) (v : Variation) :
    Nat → List Frame → List Value → Bool → Cursor → Noted (List Value)
  | 0, _, data, _, c => .stopped ⟨.value data, c, []⟩
  | _ + 1, [], data, _, c => .silent ⟨.value data, c, []⟩
  | steps + 1, f :: below, data, completed, c =>
    match f.rest with
    | [] => .silent ⟨.value data, c, []⟩
    | .loop kind body :: _ =>
      match enterPass v kind data with
      | .error e => ⟨⟨.fatal (.adapt e), c, []⟩, foldNotes v kind data, [], [⟨c.index, c.index⟩]⟩
      | .ok folded =>
        (s.driveNoted call v steps (⟨.loop kind, body, c.index⟩ :: f :: below) folded completed
          c).after ((Noted.silent ⟨.value folded, c, []⟩).noting (foldNotes v kind data))
    | item :: rest =>
      let r := s.matchItemNoted call v c item
      let last := r.lapping (f.lapTo r.cursor.index)
      match r.outcome with
      | .fatal e => last.ending (.fatal e)
      | .mismatch i => last.giveUp.ending (settle data completed i)
      | .value more =>
        if rest.isEmpty then
          if isIdle f r.cursor then last.ending (.value (data ++ more))
          else (s.driveNoted call v steps below (data ++ more) true r.cursor).after last
        else
          (s.driveNoted call v steps ({ f with rest } :: below) (data ++ more)
            (completed && f.kind == .loop .block) r.cursor).after (r.lapping [])

/-- The attempt of a variation at a cursor, in a number of steps. -/
def attemptNoted (s : Setting) (call : NotedCaller) (steps : Nat) (v : Variation) (c : Cursor) :
    Noted (List Value) :=
  s.driveNoted call v steps [⟨.top, v.content, 0⟩] [] false c

/-! ## Rules -/

/-- The end of a variation that succeeded: first the way back, then the strategy. -/
def concludeNoted (s : Setting) (v : Variation) (start : Cursor) (data : List Value)
    (r : Noted (List Value)) : Noted Value :=
  ⟨s.conclude v start data r.cursor r.calls,
    r.notes ++ s.wayBack v start r.cursor ++ [.adapt v.strategy data], r.hits, []⟩

/-- The variations of a rule. The cursor returns to the start before each of them, and after the
last if none succeeds. -/
def chooseNoted (s : Setting) (call : NotedCaller) (steps : Variation → Nat) (start : Cursor)
    (furthest : Nat) : List Variation → Noted Value
  | [] => ⟨⟨.mismatch furthest, start, []⟩, [.place start], [], []⟩
  | v :: rest =>
    let tried := s.attemptNoted call (steps v) v start
    let r := { tried with notes := .place start :: tried.notes }
    match r.outcome with
    | .value data => s.concludeNoted v start data r
    | .mismatch i =>
      (s.chooseNoted call steps start (max furthest i) rest).after
        (r.noting (s.wayBack v start r.cursor)).giveUp
    | .fatal e => r.ending (.fatal e)

/-- What the evaluation of a rule does, given how the rules below it are evaluated and in how many
steps its variations are. -/
def enterNoted (s : Setting) (below : Option NotedCaller) (steps : Variation → Nat)
    (rule : String) (c : Cursor) : Noted Value :=
  match s.grammar.variationsOf rule with
  | [] => .silent (abort (.config (.undefinedRule rule)) c)
  | vs =>
    match below with
    | none =>
      (Noted.silent (abort (.parse (.atIndex .depthExceeded rule s.tokens c.index)) c)).noting
        [.full]
    | some call =>
      let r := s.chooseNoted call steps c 0 vs
      { r with notes := .nest :: r.notes }

/-- The evaluation of a rule at a cursor, with `depth` levels of rules left. -/
def evaluateNoted (s : Setting) : (depth : Nat) → NotedCaller
  | 0, rule, c => (s.enterNoted none s.enoughFuel rule c).close rule c
  | depth + 1, rule, c =>
    (s.enterNoted (some (s.evaluateNoted depth)) s.enoughFuel rule c).close rule c

/-! ## Without the notes -/

variable {s : Setting} {call : NotedCaller} {v : Variation}

theorem toRun_matchTokenNoted (s : Setting) (v : Variation) (a : Atom) (c : Cursor) :
    (s.matchTokenNoted v a c).toRun = s.matchToken v a c := by
  simp only [matchTokenNoted]
  split <;> rfl

theorem toRun_matchAtomNoted (a : Atom) (c : Cursor) :
    (s.matchAtomNoted call v a c).toRun = s.matchAtom call.plain v a c := by
  simp only [matchAtomNoted, matchAtom]
  split
  · rfl
  · exact s.toRun_matchTokenNoted v a c

theorem toRun_tryNoted (start : Cursor) (furthest : Nat) (candidates : List Atom) :
    (s.tryNoted call v start furthest candidates).toRun =
      s.matchEither call.plain v start furthest candidates := by
  induction candidates generalizing furthest with
  | nil => rfl
  | cons a rest ih =>
    simp only [tryNoted, matchEither, ← toRun_matchAtomNoted]
    cases (s.matchAtomNoted call v a start).outcome with
    | value x => rfl
    | mismatch i => exact congrArg (Run.after _) (ih _)
    | fatal e => rfl

theorem toRun_matchItemNoted (c : Cursor) (item : Item) :
    (s.matchItemNoted call v c item).toRun = s.matchItem call.plain v c item := by
  cases item with
  | atom a =>
    simp only [matchItemNoted, matchItem, matchOne, ← toRun_matchAtomNoted]
    cases (s.matchAtomNoted call v a c).outcome <;> rfl
  | either e => exact toRun_tryNoted c c.index e.candidates
  | loop kind body => rfl
  | foreign type text => rfl

theorem toRun_driveNoted (steps : Nat) (frames : List Frame) (data : List Value)
    (completed : Bool) (c : Cursor) :
    (s.driveNoted call v steps frames data completed c).toRun =
      s.drive call.plain v steps frames data completed c := by
  induction steps generalizing frames data completed c with
  | zero => rfl
  | succ steps ih =>
    obtain _ | ⟨⟨kind, _ | ⟨item, rest⟩, start⟩, below⟩ := frames
    · rfl
    · rfl
    · cases item with
      | loop kind body =>
        simp only [driveNoted, drive]
        cases enterPass v kind data with
        | error e => rfl
        | ok folded => exact ih _ folded completed c
      | atom _ | either _ | foreign _ _ =>
        simp only [driveNoted, drive, ← toRun_matchItemNoted]
        cases (s.matchItemNoted call v c _).outcome with
        | fatal e => rfl
        | mismatch i => rfl
        | value more =>
          dsimp only
          split
          · split
            · rfl
            · exact congrArg (Run.after _) (ih _ _ _ _)
          · exact congrArg (Run.after _) (ih _ _ _ _)

theorem toRun_attemptNoted (v : Variation) (c : Cursor) :
    (s.attemptNoted call (s.enoughFuel v) v c).toRun = s.attempt call.plain v c :=
  toRun_driveNoted _ _ _ _ _

theorem toRun_chooseNoted (start : Cursor) (furthest : Nat) (vs : List Variation) :
    (s.chooseNoted call s.enoughFuel start furthest vs).toRun =
      s.choose call.plain start furthest vs := by
  induction vs generalizing furthest with
  | nil => rfl
  | cons v rest ih =>
    simp only [chooseNoted, choose, ← toRun_attemptNoted]
    cases (s.attemptNoted call (s.enoughFuel v) v start).outcome with
    | value data => rfl
    | mismatch i => exact congrArg (Run.after _) (ih _)
    | fatal e => rfl

theorem toRun_enterNoted (below : Option NotedCaller) (rule : String) (c : Cursor) :
    (s.enterNoted below s.enoughFuel rule c).toRun =
      s.enter (below.map NotedCaller.plain) rule c := by
  simp only [enterNoted, enter]
  cases s.grammar.variationsOf rule with
  | nil => rfl
  | cons v rest =>
    cases below with
    | none => rfl
    | some call => exact toRun_chooseNoted c 0 (v :: rest)

/-- Without its notes, the evaluation with notes is the evaluation. -/
theorem plain_evaluateNoted (s : Setting) (depth : Nat) :
    (s.evaluateNoted depth).plain = s.evaluate depth := by
  induction depth with
  | zero =>
    funext rule c
    exact congrArg (Run.record rule c) (toRun_enterNoted none rule c)
  | succ depth ih =>
    funext rule c
    have henter := toRun_enterNoted (s := s) (some (s.evaluateNoted depth)) rule c
    rw [Option.map_some, ih] at henter
    exact congrArg (Run.record rule c) henter

theorem toRun_evaluateNoted (s : Setting) (depth : Nat) (rule : String) (c : Cursor) :
    (s.evaluateNoted depth rule c).toRun = s.evaluate depth rule c :=
  congrFun (congrFun (s.plain_evaluateNoted depth) rule) c

theorem steady_evaluateNoted (hg : s.grammar.WellFormed) (depth : Nat) :
    s.Steady (s.evaluateNoted depth).plain := by
  rw [plain_evaluateNoted, evaluate_eq_readRule hg]
  exact s.steady_readRule depth

end Setting
end TokenGrammar
