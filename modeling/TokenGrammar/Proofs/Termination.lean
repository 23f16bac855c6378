import Mathlib.Data.List.Chain
import TokenGrammar.Proofs.Machine
import TokenGrammar.Proofs.Routes

/-!
# Every parse ends

The stack machine is given a number of steps, and where they run out it stops as if the attempt were
over. That this never happens is seen with a clock. The clock runs down with every rule that is
entered, and what it still shows there is the number of steps that the variations of the rule are
given. The depth is a number that is looked at and nothing more, so the clock is the only thing that
ends an evaluation. Where steps or time run out, this is noted, and then there is no answer.

A step of the machine lowers a potential. The items that are left of a frame count one by one, and a
loop counts as a round over its body for every token that is left and one more. So an item lowers the
potential by what it was worth, and the pass that ends where it began, which would not lower it, is
the one after which the machine stops. Trivia that is skipped and given back, and rules that match
nothing, do not disturb this, because a pass that moved the cursor has matched a token.

## Main definitions

* `Setting.attemptTimed`, `Setting.evaluateTimed`, `Grammar.parseRuleTimed`: evaluation by the clock.
* `Machine`, `Turn`, `Setting.StepsTo`: the states of the stack machine, and one step of it.
* `Setting.potential`, `Setting.Poised`: what a step lowers, and what it preserves.
* `Grammar.enoughTime`: a clock that is enough for every parse.
-/
namespace TokenGrammar

/-! ## Evaluation by the clock -/

/-- Whether a note says that steps or time ran out. -/
def Note.isStopped : Note → Bool
  | .stopped => true
  | _ => false

/-- Whether nothing ran out during a run. -/
def Noted.inTime {α : Type} (r : Noted α) : Bool := r.notes.all fun n => !n.isStopped

namespace Setting

/-- The attempt of a variation at a cursor, with the laps of its loop; there is none if its steps run
out, or if the time does inside of it. -/
def attemptTimed (s : Setting) (call : NotedCaller) (clock : Nat) (v : Variation) (c : Cursor) :
    Option (Run (List Value) × List Lap) :=
  let r := s.attemptNoted call clock v c
  if r.inTime then some (r.toRun, r.laps) else none

/-- The evaluation of a rule at a cursor, with `depth` levels of rules left. What is evaluated inside
has less time. -/
def evaluateTimed (s : Setting) : (clock depth : Nat) → NotedCaller
  | 0, _, _, c => .stopped ⟨.value .null, c, []⟩
  | clock + 1, depth, rule, c =>
    let below := if depth = 0 then none else some (s.evaluateTimed clock (depth - 1))
    (s.enterNoted below (fun _ => clock) rule c).close rule c

end Setting

/-- A parse by the clock. -/
def Grammar.parseRuleTimed (g : Grammar) (clock : Nat) (limit : Int) (rule : String)
    (tokens : List Token) : Option Report :=
  if g.has rule then
    let r := Setting.evaluateTimed ⟨g, tokens⟩ clock (effectiveDepth limit) rule .origin
    if r.inTime then some ⟨conclusion rule tokens r.toRun, r.calls⟩ else none
  else some (.refused (.config (.undefinedRule rule)))

/-! ## The machine -/

/-- The stack machine between two steps. -/
structure Machine where
  frames : List Frame
  data : List Value
  completed : Bool
  cursor : Cursor

/-- The machine before its first step on some content. -/
def Machine.initial (content : Content) (c : Cursor) : Machine :=
  ⟨[⟨.top, content, 0⟩], [], false, c⟩

/-- Where the pass began that the machine is in, or is about to begin. -/
def Machine.lapStart? (m : Machine) : Option Nat :=
  match m.frames with
  | ⟨.loop _, _, start⟩ :: _ => some start
  | ⟨.top, .loop _ _ :: _, _⟩ :: _ => some m.cursor.index
  | _ => none

/-- The lap that is over if the pass ends at an index; outside of a loop there is none. -/
def Machine.lapTo (m : Machine) (stop : Nat) : List Lap :=
  m.lapStart?.toList.map fun start => ⟨start, stop⟩

/-- What a step of the machine leads to: the end of the attempt, or another state after what was
done. -/
inductive Turn where
  | halt (r : Noted (List Value))
  | go (done : Noted (List Value)) (m : Machine)

/-- The run that a step belongs to, given the run of every state. -/
def Turn.run (next : Machine → Noted (List Value)) : Turn → Noted (List Value)
  | .halt r => r
  | .go done m => (next m).after done

/-- What is done in a step. -/
def Turn.done : Turn → Noted (List Value)
  | .halt r => r
  | .go done _ => done

namespace Setting

variable {s : Setting} {call : NotedCaller} {v : Variation} {c : Cursor} {m : Machine}

/-- The machine for a number of steps. -/
def driveFrom (s : Setting) (call : NotedCaller) (v : Variation) (steps : Nat) (m : Machine) :
    Noted (List Value) :=
  s.driveNoted call v steps m.frames m.data m.completed m.cursor

/-- A state leads to a turn in one step, whatever steps are left after it. -/
def StepsTo (s : Setting) (call : NotedCaller) (v : Variation) (m : Machine) (t : Turn) : Prop :=
  ∀ steps, s.driveFrom call v (steps + 1) m = t.run (s.driveFrom call v steps)

/-- With more steps than some bound, what comes after the first step has at least as many. -/
theorem StepsTo.driveFrom_eq {t : Turn} (h : s.StepsTo call v m t) {bound : Nat}
    {r : Noted (List Value)} (hr : ∀ steps, bound ≤ steps → t.run (s.driveFrom call v steps) = r) :
    ∀ steps, bound < steps → s.driveFrom call v steps m = r := by
  intro steps hlt
  obtain ⟨n, rfl⟩ : ∃ n, steps = n + 1 := ⟨steps - 1, by omega⟩
  exact (h n).trans (hr n (Nat.le_of_lt_succ hlt))

/-- The step at a plain item, given its run: the attempt is settled, the frame is left, or its next
item comes. -/
def proceed (m : Machine) (f : Frame) (below : List Frame) (rest : Content)
    (r : Noted (List Value)) : Turn :=
  let last := r.lapping (f.lapTo r.cursor.index)
  match r.outcome with
  | .fatal e => .halt (last.ending (.fatal e))
  | .mismatch i => .halt (last.giveUp.ending (settle m.data m.completed i))
  | .value more =>
    if rest.isEmpty then
      if isIdle f r.cursor then .halt (last.ending (.value (m.data ++ more)))
      else .go last ⟨below, m.data ++ more, true, r.cursor⟩
    else
      .go (r.lapping []) ⟨{ f with rest } :: below, m.data ++ more,
        m.completed && f.kind == .loop .block, r.cursor⟩

/-- The step at a plain item. -/
theorem stepsTo_plain {item : Item} (hp : item.Plain) (f : Frame) (below : List Frame)
    (rest : Content) (hrest : f.rest = item :: rest) (data : List Value) (completed : Bool)
    (c : Cursor) :
    s.StepsTo call v ⟨f :: below, data, completed, c⟩
      (proceed ⟨f :: below, data, completed, c⟩ f below rest (s.matchItemNoted call v c item)) := by
  intro steps
  cases item with
  | loop kind body => exact hp.elim
  | atom _ | either _ | foreign _ _ =>
    simp only [driveFrom, driveNoted, hrest, proceed]
    cases (s.matchItemNoted call v c _).outcome with
    | fatal e => rfl
    | mismatch i => rfl
    | value more =>
      dsimp only
      split
      · split <;> rfl
      · rfl

/-! ## In time -/

@[simp] theorem inTime_after {α β : Type} (r : Noted α) (earlier : Noted β) :
    (r.after earlier).inTime = (earlier.inTime && r.inTime) := List.all_append

theorem inTime_proceed (m : Machine) (f : Frame) (below : List Frame) (rest : Content)
    (r : Noted (List Value)) : (proceed m f below rest r).done.inTime = r.inTime := by
  simp only [proceed]
  cases r.outcome with
  | fatal e => rfl
  | mismatch i => rfl
  | value more =>
    dsimp only
    split
    · split <;> rfl
    · rfl

theorem inTime_foldNotes (v : Variation) (kind : LoopKind) (data : List Value) :
    (foldNotes v kind data).all (fun n => !n.isStopped) = true := by
  cases kind <;> rfl

/-- Nothing ran out on the way from one cursor to another, whatever levels were left. -/
def InTime (_ : Nat) (_ : Cursor) (notes : List Note) (_ : List Call) (_ : Cursor) : Prop :=
  notes.all (fun n => !n.isStopped) = true

/-- To be in time is a journal: only the steps of an attempt can spoil it. -/
theorem journal_inTime : Journal (fun _ => True) InTime where
  nil _ _ := rfl
  append h h' := by rw [InTime, List.all_append, h, h', Bool.and_self]
  move _ := rfl
  quiet {_ _ n} h := by cases n <;> first | rfl | exact h.elim
  refused _ _ _ _ := rfl
  full _ _ _ := rfl
  nested _ _ _ h := by simpa [InTime, Note.isStopped] using h

/-- Items are in time if rules are. -/
theorem inTime_matchItemNoted (h : ∀ rule c, (call rule c).inTime = true) (v : Variation)
    (c : Cursor) (item : Item) : (s.matchItemNoted call v c item).inTime = true := by
  have hcall : ∀ rule c, Journal.Keeps (fun _ => True) InTime 0 c (call rule c) :=
    fun rule c _ => h rule c
  exact journal_inTime.keeps_matchItemNoted hcall v c item (Note.homes_true _)

/-! ## The potential -/

/-- What one round over the loop of some content costs; without a loop, nothing. -/
def roundCost : Content → Nat
  | [] => 0
  | .loop _ body :: _ => body.length + 1
  | _ :: rest => roundCost rest

/-- The steps that the machine can still take before its last one: the items that are left of the
top frame, and a round of the loop below for every token after the start of the pass. Outside of a
pass, the loop may still make one round more than there are tokens left. -/
def potential (s : Setting) (m : Machine) : Nat :=
  match m.frames with
  | [] => 0
  | [f] => f.rest.length + (s.left m.cursor + 1) * roundCost f.rest
  | f :: g :: _ => 1 + f.rest.length + (s.tokens.length - f.start) * roundCost g.rest

/-- The states that occur in the attempt of a variation: the machine is done, stands in the content
of the variation, or in a pass of its loop, which has moved the cursor as items do. -/
inductive Poised (s : Setting) : Machine → Prop
  | done {data : List Value} {completed : Bool} {c : Cursor} : Poised s ⟨[], data, completed, c⟩
  | content {content : Content} {start : Nat} {data : List Value} {completed : Bool} {c : Cursor}
      (shaped : content.WellShaped) : Poised s ⟨[⟨.top, content, start⟩], data, completed, c⟩
  | pass {kind : LoopKind} {rest body : Content} {start : Nat} {data : List Value}
      {completed : Bool} {begin c : Cursor} (nonempty : rest ≠ [])
      (plain : ∀ i ∈ rest, i.Plain) (shaped : Content.WellShaped [.loop kind body])
      (moved : s.Advances begin c) :
      Poised s ⟨[⟨.loop kind, rest, begin.index⟩, ⟨.top, [.loop kind body], start⟩], data,
        completed, c⟩

/-- What a step may lead to from a state: the end, with the lap that the machine was in; a state of
lower potential in the same pass; or one in which a lap is over that moved the cursor on, and the
next begins where it ended. -/
inductive Lowers (s : Setting) (m : Machine) : Turn → Prop
  | halt {r : Noted (List Value)} {stop : Nat} (laps : r.laps = m.lapTo stop) :
      Lowers s m (.halt r)
  | go {done : Noted (List Value)} {m' : Machine} (laps : done.laps = []) (poised : s.Poised m')
      (less : s.potential m' < s.potential m)
      (same : ∀ i, m.lapStart? = some i → m'.lapStart? = some i) : Lowers s m (.go done m')
  | lap {done : Noted (List Value)} {m' : Machine} {start stop : Nat}
      (laps : done.laps = [⟨start, stop⟩]) (poised : s.Poised m')
      (less : s.potential m' < s.potential m) (began : m.lapStart? = some start)
      (ended : m'.lapStart? = some stop) (progress : start < stop)
      (inside : stop ≤ s.tokens.length) : Lowers s m (.go done m')

theorem roundCost_cons {item : Item} (h : ∀ kind body, item ≠ .loop kind body) (rest : Content) :
    roundCost (item :: rest) = roundCost rest := by
  rw [roundCost]
  exact h

theorem Advances.left_le {c' : Cursor} (h : s.Advances c c') : s.left c' ≤ s.left c := by
  have hle := h.index_le
  simp only [left]
  omega

theorem lapStart?_plain {item : Item} (hp : item.Plain) (rest : Content) (start : Nat)
    (below : List Frame) (data : List Value) (completed : Bool) (c : Cursor) :
    (Machine.mk (⟨.top, item :: rest, start⟩ :: below) data completed c).lapStart? = none := by
  cases item with
  | loop kind body => exact hp.elim
  | atom _ | either _ | foreign _ _ => rfl

/-- How a plain item moves the cursor if it succeeds. -/
theorem advances_matchItemNoted (h : s.Steady call.plain) {item : Item} {more : List Value}
    (hr : (s.matchItemNoted call v c item).outcome = .value more) :
    s.Advances c (s.matchItemNoted call v c item).cursor := by
  have hends := ends_matchItem h v item c
  rw [← toRun_matchItemNoted] at hends
  exact hends.of_value hr

/-- A plain item of the content of a variation. -/
theorem lowers_content {item : Item} {rest : Content} (hp : item.Plain) (hs : rest.WellShaped)
    (h : s.Steady call.plain) (start : Nat) (data : List Value) (completed : Bool) (c : Cursor) :
    s.Lowers ⟨[⟨.top, item :: rest, start⟩], data, completed, c⟩
      (proceed ⟨[⟨.top, item :: rest, start⟩], data, completed, c⟩ ⟨.top, item :: rest, start⟩ [] rest
        (s.matchItemNoted call v c item)) := by
  have hnone := lapStart?_plain hp rest start [] data completed c
  have hlaps : ∀ stop, (Machine.mk [⟨.top, item :: rest, start⟩] data completed c).lapTo stop = [] := by
    intro stop
    rw [Machine.lapTo, hnone]
    rfl
  have hcost := roundCost_cons hp.ne_loop rest
  simp only [proceed]
  cases hr : (s.matchItemNoted call v c item).outcome with
  | fatal e => exact .halt (hlaps 0).symm
  | mismatch i => exact .halt (hlaps 0).symm
  | value more =>
    have hleft := (advances_matchItemNoted h hr).left_le
    cases rest with
    | nil =>
      simp only [List.isEmpty_nil, if_true, isIdle, bne_self_eq_false, Bool.false_and,
        Bool.false_eq_true, if_false]
      refine .go rfl .done ?_ (fun i hi => by rw [hnone] at hi; cases hi)
      simp only [potential, List.length_singleton]
      omega
    | cons next rest =>
      simp only [List.isEmpty_cons, Bool.false_eq_true, if_false]
      refine .go rfl (.content hs) ?_ (fun i hi => by rw [hnone] at hi; cases hi)
      have hmul := Nat.mul_le_mul_right (roundCost (next :: rest)) (Nat.add_le_add_right hleft 1)
      simp only [potential, hcost, List.length_cons]
      omega

/-- An item of a pass. Where it is the last one, the cursor has moved on, or the machine stops. -/
theorem lowers_pass {kind : LoopKind} {item : Item} {rest body : Content}
    (hrest : ∀ i ∈ rest, i.Plain) (hs : Content.WellShaped [.loop kind body])
    (h : s.Steady call.plain) {begin : Cursor} (hmoved : s.Advances begin c) (start : Nat)
    (data : List Value) (completed : Bool) :
    let f : Frame := ⟨.loop kind, item :: rest, begin.index⟩
    let below : List Frame := [⟨.top, [.loop kind body], start⟩]
    s.Lowers ⟨f :: below, data, completed, c⟩
      (proceed ⟨f :: below, data, completed, c⟩ f below rest (s.matchItemNoted call v c item)) := by
  simp only [proceed]
  cases hr : (s.matchItemNoted call v c item).outcome with
  | fatal e => exact .halt rfl
  | mismatch i => exact .halt rfl
  | value more =>
    have hadvances := hmoved.trans (advances_matchItemNoted h hr)
    cases rest with
    | cons next rest =>
      simp only [List.isEmpty_cons, Bool.false_eq_true, if_false]
      refine .go rfl (.pass (List.cons_ne_nil _ _) hrest hs hadvances) ?_ (fun i hi => hi)
      simp only [potential, List.length_cons]
      omega
    | nil =>
      simp only [List.isEmpty_nil, if_true, isIdle]
      by_cases hidle : (s.matchItemNoted call v c item).cursor.index = begin.index
      · simp only [hidle, beq_self_eq_true, Bool.and_true]
        exact .halt rfl
      · have hlt := hadvances.left_lt_iff.mpr hidle
        simp only [beq_eq_false_iff_ne.mpr hidle, Bool.and_false, Bool.false_eq_true, if_false]
        have hprogress := Nat.lt_of_le_of_ne hadvances.index_le (Ne.symm hidle)
        refine .lap rfl (.content hs) ?_ rfl rfl hprogress (hadvances.matched_of_lt hprogress).2.2
        have hmul := Nat.mul_le_mul_right (body.length + 1) (Nat.succ_le_of_lt hlt)
        simp only [potential, roundCost, List.length_singleton]
        exact Nat.lt_of_le_of_lt (Nat.add_le_add_left hmul 1) (by simp only [left]; omega)

/-- A loop begins a pass where the cursor is. -/
theorem lowers_loop {kind : LoopKind} {body : Content} (hs : Content.WellShaped [.loop kind body])
    (start : Nat) (data : List Value) (completed : Bool) (c : Cursor) :
    ∃ t, s.StepsTo call v ⟨[⟨.top, [.loop kind body], start⟩], data, completed, c⟩ t ∧
      s.Lowers ⟨[⟨.top, [.loop kind body], start⟩], data, completed, c⟩ t ∧ t.done.inTime = true := by
  obtain ⟨-, hne, hp⟩ := Content.wellShaped_loop_iff.mp hs
  have htime := inTime_foldNotes v kind data
  cases hfold : enterPass v kind data with
  | error e =>
    refine ⟨.halt ⟨⟨.fatal (.adapt e), c, []⟩, foldNotes v kind data, [], [⟨c.index, c.index⟩]⟩,
      fun steps => ?_, .halt rfl, htime⟩
    simp only [driveFrom, driveNoted, hfold, Turn.run]
  | ok folded =>
    refine ⟨.go ((Noted.silent ⟨.value folded, c, []⟩).noting (foldNotes v kind data))
      ⟨[⟨.loop kind, body, c.index⟩, ⟨.top, [.loop kind body], start⟩], folded, completed, c⟩,
      fun steps => ?_, .go rfl (.pass hne hp hs .stay) ?_ fun i hi => hi, htime⟩
    · simp only [driveFrom, driveNoted, hfold, Turn.run]
    · simp only [potential, roundCost, List.length_singleton, left, Nat.succ_mul]
      omega

/-- **A step lowers the potential**, or it is the last one; and it is in time if rules are. -/
theorem Poised.lowers (hm : s.Poised m) (h : s.Steady call.plain)
    (htime : ∀ rule c, (call rule c).inTime = true) (v : Variation) :
    ∃ t, s.StepsTo call v m t ∧ s.Lowers m t ∧ t.done.inTime = true := by
  cases hm with
  | done => exact ⟨.halt _, fun _ => rfl, @Lowers.halt s _ _ 0 rfl, rfl⟩
  | content shaped =>
    cases shaped with
    | nil => exact ⟨.halt _, fun _ => rfl, @Lowers.halt s _ _ 0 rfl, rfl⟩
    | loop nonempty plain => exact lowers_loop (.loop nonempty plain) _ _ _ _
    | cons plain shaped =>
      refine ⟨_, stepsTo_plain plain _ _ _ rfl _ _ _, lowers_content plain shaped h _ _ _ _, ?_⟩
      rw [inTime_proceed]
      exact inTime_matchItemNoted htime v _ _
  | pass nonempty plain shaped moved =>
    obtain ⟨item, tail, rfl⟩ := List.exists_cons_of_ne_nil nonempty
    obtain ⟨hitem, htail⟩ := List.forall_mem_cons.mp plain
    refine ⟨_, stepsTo_plain hitem _ _ _ rfl _ _ _, lowers_pass htail shaped h moved _ _ _, ?_⟩
    rw [inTime_proceed]
    exact inTime_matchItemNoted htime v _ _

/-! ## Laps -/

/-- Laps of one loop: each but the last moves on, and the next begins where it ended. -/
def Circuit (s : Setting) (laps : List Lap) : Prop :=
  laps.IsChain fun a b => a.start < a.stop ∧ a.stop = b.start ∧ b.start ≤ s.tokens.length

theorem Circuit.length_le {first : Lap} {laps : List Lap} (h : s.Circuit (first :: laps)) :
    (first :: laps).length ≤ s.tokens.length - first.start + 1 := by
  induction laps generalizing first with
  | nil => simp
  | cons next laps ih =>
    obtain ⟨⟨hprogress, hnext, hinside⟩, hlater⟩ := List.isChain_cons_cons.mp h
    have hle := ih hlater
    rw [List.length_cons]
    omega

theorem circuit_lapTo (s : Setting) (m : Machine) (stop : Nat) : s.Circuit (m.lapTo stop) := by
  rw [Circuit, Machine.lapTo]
  cases m.lapStart? with
  | none => exact .nil
  | some start => exact .singleton _

/-- The machine comes to its end if its steps exceed the potential, and to the same end whatever they
are. It is in time, and its laps are those of one loop, from the pass on that it was in. -/
theorem Poised.ends (hm : s.Poised m) (h : s.Steady call.plain)
    (htime : ∀ rule c, (call rule c).inTime = true) (v : Variation) :
    ∃ r, (∀ steps, s.potential m < steps → s.driveFrom call v steps m = r) ∧ r.inTime = true ∧
      s.Circuit r.laps ∧ ∀ i, m.lapStart? = some i → ∃ l, r.laps.head? = some l ∧ l.start = i := by
  induction hp : s.potential m using Nat.strongRecOn generalizing m with
  | ind p ih =>
    subst hp
    obtain ⟨t, hstep, hlowers, hdone⟩ := hm.lowers h htime v
    cases hlowers with
    | @halt r stop laps =>
      refine ⟨r, hstep.driveFrom_eq fun _ _ => rfl, hdone, laps ▸ s.circuit_lapTo m stop, fun i hi => ?_⟩
      rw [laps, Machine.lapTo, hi]
      exact ⟨_, rfl, rfl⟩
    | @go done m' laps poised less same =>
      obtain ⟨r, hrun, hr, hcircuit, hhead⟩ := ih _ less poised rfl
      have hlaps : (r.after done).laps = r.laps := congrArg (· ++ r.laps) laps
      refine ⟨r.after done, hstep.driveFrom_eq fun steps hle => ?_, ?_, ?_, ?_⟩
      · exact congrArg (Noted.after · done) (hrun steps (by omega))
      · rw [inTime_after, hr, Bool.and_true]
        exact hdone
      · rwa [hlaps]
      · intro i hi
        rw [hlaps]
        exact hhead i (same i hi)
    | @lap done m' start stop laps poised less began ended progress inside =>
      obtain ⟨r, hrun, hr, hcircuit, hhead⟩ := ih _ less poised rfl
      obtain ⟨l, hl, hstart⟩ := hhead stop ended
      have hlaps : (r.after done).laps = ⟨start, stop⟩ :: r.laps := congrArg (· ++ r.laps) laps
      refine ⟨r.after done, hstep.driveFrom_eq fun steps hle => ?_, ?_, ?_, ?_⟩
      · exact congrArg (Noted.after · done) (hrun steps (by omega))
      · rw [inTime_after, hr, Bool.and_true]
        exact hdone
      · rw [hlaps]
        refine List.isChain_cons.mpr ⟨fun b hb => ?_, hcircuit⟩
        cases hl.symm.trans hb
        exact ⟨progress, hstart.symm, hstart ▸ inside⟩
      · intro i hi
        rw [hlaps]
        cases began.symm.trans hi
        exact ⟨_, rfl, rfl⟩

/-! ## Attempts and rules -/

theorem roundCost_le_sizeAll (content : Content) : roundCost content ≤ Item.sizeAll content := by
  fun_induction roundCost content with
  | case1 => exact Nat.le_refl _
  | case2 kind body rest =>
    have hlen := length_le_sizeAll body
    simp only [Item.sizeAll, Item.size]
    omega
  | case3 item rest _ ih =>
    rw [Item.sizeAll]
    omega

/-- The steps that the stack machine is given are more than the potential at the start. -/
theorem potential_initial_lt (s : Setting) (v : Variation) (c : Cursor) :
    s.potential (.initial v.content c) < s.enoughFuel v := by
  have hlen := length_le_sizeAll v.content
  have hcost := roundCost_le_sizeAll v.content
  have hleft : s.left c ≤ s.tokens.length := Nat.sub_le _ _
  have hmul := Nat.mul_le_mul (Nat.add_le_add_right hleft 1) hcost
  simp only [potential, Machine.initial, enoughFuel, Content.size]
  calc v.content.length + (s.left c + 1) * roundCost v.content
      ≤ (s.tokens.length + 1) * Item.sizeAll v.content + Item.sizeAll v.content := by omega
    _ = (s.tokens.length + 2) * Item.sizeAll v.content := (Nat.succ_mul _ _).symm
    _ < (s.tokens.length + 2) * (Item.sizeAll v.content + 1) :=
        Nat.mul_lt_mul_of_pos_left (Nat.lt_succ_self _) (Nat.succ_pos _)

/-- An attempt comes to its end in time, and more steps change nothing. -/
theorem attemptNoted_eq (h : s.Steady call.plain) (htime : ∀ rule c, (call rule c).inTime = true)
    (hs : v.content.WellShaped) (c : Cursor) :
    (s.attemptNoted call (s.enoughFuel v) v c).inTime = true ∧
      s.Circuit (s.attemptNoted call (s.enoughFuel v) v c).laps ∧
      ∀ clock, s.enoughFuel v ≤ clock →
        s.attemptNoted call clock v c = s.attemptNoted call (s.enoughFuel v) v c := by
  have hpoised : s.Poised (.initial v.content c) := .content hs
  have hlt := s.potential_initial_lt v c
  obtain ⟨r, hrun, hr, hcircuit, -⟩ := hpoised.ends h htime v
  have hattempt : ∀ clock, s.enoughFuel v ≤ clock → s.attemptNoted call clock v c = r :=
    fun clock hclock => hrun clock (Nat.lt_of_lt_of_le hlt hclock)
  rw [hattempt _ (Nat.le_refl _)]
  exact ⟨hr, hcircuit, hattempt⟩

/-- Every rule is evaluated in time. -/
theorem inTime_evaluateNoted (hg : s.grammar.WellFormed) (depth : Nat) (rule : String)
    (c : Cursor) : (s.evaluateNoted depth rule c).inTime = true := by
  refine journal_inTime.keeps_evaluateNoted_of (fun levels hcall v hv c _ => ?_) depth rule c
    (Note.homes_true _)
  have htime : ∀ rule c, (s.evaluateNoted levels rule c).inTime = true :=
    fun rule c => hcall rule c (Note.homes_true _)
  exact (attemptNoted_eq (steady_evaluateNoted hg levels) htime (hg.shaped v hv) c).1

/-- What is done with the steps of variations depends on their attempts alone. -/
theorem chooseNoted_congr {steps steps' : Variation → Nat} {vs : List Variation} {start : Cursor}
    (h : ∀ v ∈ vs, s.attemptNoted call (steps v) v start = s.attemptNoted call (steps' v) v start)
    (furthest : Nat) :
    s.chooseNoted call steps start furthest vs = s.chooseNoted call steps' start furthest vs := by
  induction vs generalizing furthest with
  | nil => rfl
  | cons v rest ih =>
    obtain ⟨hv, hrest⟩ := List.forall_mem_cons.mp h
    simp only [chooseNoted, hv, ih hrest]

/-- With time for every attempt, and a tick for every level of rules, the clock changes nothing. -/
theorem evaluateTimed_eq (hg : s.grammar.WellFormed) {steps : Nat}
    (hsteps : ∀ v ∈ s.grammar.variations, s.enoughFuel v ≤ steps) {clock depth : Nat}
    (hclock : steps + depth < clock) : s.evaluateTimed clock depth = s.evaluateNoted depth := by
  induction depth generalizing clock with
  | zero =>
    obtain ⟨clock, rfl⟩ : ∃ n, clock = n + 1 := ⟨clock - 1, by omega⟩
    rfl
  | succ depth ih =>
    obtain ⟨clock, rfl⟩ : ∃ n, clock = n + 1 := ⟨clock - 1, by omega⟩
    funext rule c
    have hbelow : s.evaluateTimed clock depth = s.evaluateNoted depth := ih (by omega)
    have hattempts : ∀ v ∈ s.grammar.variationsOf rule,
        s.attemptNoted (s.evaluateNoted depth) clock v c =
          s.attemptNoted (s.evaluateNoted depth) (s.enoughFuel v) v c := by
      intro v hv
      have hmem := (Grammar.mem_variationsOf.mp hv).1
      exact (attemptNoted_eq (steady_evaluateNoted hg depth) (inTime_evaluateNoted hg depth)
        (hg.shaped v hmem) c).2.2 clock (Nat.le_trans (hsteps v hmem) (by omega))
    simp only [evaluateTimed, evaluateNoted, Nat.add_one_ne_zero, if_false, Nat.add_sub_cancel,
      hbelow, enterNoted]
    generalize s.grammar.variationsOf rule = vs at hattempts ⊢
    cases vs with
    | nil => rfl
    | cons v rest => simp only [chooseNoted_congr hattempts]

end Setting

/-! ## Parses -/

namespace Grammar

/-- The number of items in the longest content of a grammar. -/
def longest (g : Grammar) : Nat := (g.variations.map (·.content.size)).foldr max 0

/-- Time that is enough for a parse of `n` tokens with `depth` levels of rules: the passes of a loop,
each over as many items as any content has, and a tick for every level. -/
def enoughTime (g : Grammar) (n depth : Nat) : Nat := (n + 2) * (g.longest + 1) + depth + 1

theorem size_le_longest {g : Grammar} {v : Variation} (hv : v ∈ g.variations) :
    v.content.size ≤ g.longest := by
  obtain ⟨start, ignore, vs⟩ := g
  simp only [longest] at hv ⊢
  induction vs with
  | nil => cases hv
  | cons u rest ih =>
    rw [List.map_cons, List.foldr_cons]
    rcases List.mem_cons.mp hv with rfl | hv
    · exact Nat.le_max_left _ _
    · exact Nat.le_trans (ih hv) (Nat.le_max_right _ _)

theorem enoughFuel_le {g : Grammar} {v : Variation} (hv : v ∈ g.variations) (tokens : List Token) :
    Setting.enoughFuel ⟨g, tokens⟩ v ≤ (tokens.length + 2) * (g.longest + 1) :=
  Nat.mul_le_mul_left _ (Nat.succ_le_succ (size_le_longest hv))

/-- With enough time the clock changes nothing. -/
theorem evaluateTimed_eq_evaluateNoted {g : Grammar} (hg : g.Built) {tokens : List Token}
    {clock depth : Nat} (hclock : g.enoughTime tokens.length depth ≤ clock) :
    Setting.evaluateTimed ⟨g, tokens⟩ clock depth = Setting.evaluateNoted ⟨g, tokens⟩ depth :=
  Setting.evaluateTimed_eq (s := ⟨g, tokens⟩) hg.wellFormed
    (fun _ hv => enoughFuel_le hv tokens) hclock

/-- **Every parse ends**: with a built grammar, a clock that can be computed from the grammar, the
number of tokens and the limit on nested rules is enough for every parse, and every larger clock
gives the same report. In every attempt each pass of a loop but the last moves the cursor on, and the
next begins where it ended; so a loop makes at most one pass more than there are tokens from the
place where it was entered. -/
theorem parseRule_ends {g : Grammar} (hg : g.Built) (limit : Int) (rule : String)
    (tokens : List Token) :
    (∀ clock, g.enoughTime tokens.length (effectiveDepth limit) ≤ clock →
      g.parseRuleTimed clock limit rule tokens = some (g.parseRule limit rule tokens)) ∧
    ∀ v ∈ g.variations, ∀ (c : Cursor) (clock depth : Nat),
      g.enoughTime tokens.length depth ≤ clock → ∃ laps : List Lap,
        Setting.attemptTimed ⟨g, tokens⟩ (Setting.evaluateTimed ⟨g, tokens⟩ clock depth) clock v c =
          some (Setting.attempt ⟨g, tokens⟩ (Setting.evaluate ⟨g, tokens⟩ depth) v c, laps) ∧
        laps.IsChain (fun a b => a.start < a.stop ∧ a.stop = b.start) ∧
        ∀ first ∈ laps.head?, laps.length ≤ tokens.length - first.start + 1 := by
  have htime := Setting.inTime_evaluateNoted (s := ⟨g, tokens⟩) hg.wellFormed
  constructor
  · intro clock hclock
    rw [parseRuleTimed, parseRule, evaluateTimed_eq_evaluateNoted hg hclock]
    simp only [htime, if_true, ← Setting.toRun_evaluateNoted]
    split <;> rfl
  · intro v hv c clock depth hclock
    have hsteady := Setting.steady_evaluateNoted (s := ⟨g, tokens⟩) hg.wellFormed depth
    have hfuel : Setting.enoughFuel ⟨g, tokens⟩ v ≤ clock := by
      have hle := enoughFuel_le hv tokens
      rw [enoughTime] at hclock
      omega
    obtain ⟨hr, hcircuit, hmore⟩ :=
      Setting.attemptNoted_eq hsteady (htime depth) (hg.wellFormed.shaped v hv) c
    have hrun : (Setting.attemptNoted ⟨g, tokens⟩ (Setting.evaluateNoted ⟨g, tokens⟩ depth)
        (Setting.enoughFuel ⟨g, tokens⟩ v) v c).toRun = _ := Setting.toRun_attemptNoted v c
    rw [Setting.plain_evaluateNoted] at hrun
    simp only [evaluateTimed_eq_evaluateNoted hg hclock, Setting.attemptTimed, hmore clock hfuel, hr,
      if_true, hrun]
    refine ⟨_, rfl, hcircuit.imp fun _ _ hab => ⟨hab.1, hab.2.1⟩, fun first hfirst => ?_⟩
    obtain ⟨later, heq⟩ := List.head?_eq_some_iff.mp hfirst
    rw [heq] at hcircuit ⊢
    exact hcircuit.length_le

/-- A line of strokes. -/
def lineVariation : Variation :=
  ⟨"line", [.loop .block [.atom (.rule "stroke")]], .pass, none, false⟩

/-- Lines of strokes, in which a stroke may be missing, and a rule that begins with itself. -/
def strokes : Grammar :=
  ⟨"line", [], [lineVariation, ⟨"stroke", [.atom (.token "X")], .pass, none, false⟩,
    ⟨"stroke", [], .pass, none, false⟩,
    ⟨"left", [.atom (.rule "left"), .atom (.token "X")], .pass, none, false⟩]⟩

theorem strokes_built : strokes.Built := by
  refine ⟨.startFrom "line" ::
    (strokes.variations.zipIdx.flatMap fun (v, number) => variationSteps number v), ?_⟩
  rfl

/-- The rule that begins with itself ends at the limit. The loop over strokes makes as many passes as
it may: one for each of the two tokens, and one that matches nothing. -/
theorem parseRule_ends_strokes :
    strokes.Built ∧ strokes.enoughTime 2 (effectiveDepth 3) ≤ 16 ∧
      (strokes.parseRuleTimed 16 3 "left" [.bare "X", .bare "X"]).map Report.result =
        some (.error (.parse (.atIndex .depthExceeded "left" [.bare "X", .bare "X"] 0))) ∧
      lineVariation ∈ strokes.variations ∧
      ∃ laps : List Lap, laps = [⟨0, 1⟩, ⟨1, 2⟩, ⟨2, 2⟩] ∧
        laps.IsChain (fun a b => a.start < a.stop ∧ a.stop = b.start) ∧
        ∀ first ∈ laps.head?, laps.length ≤ 2 - first.start + 1 := by
  have henough : strokes.enoughTime 2 (effectiveDepth 3) ≤ 16 := by decide
  have hmem : lineVariation ∈ strokes.variations := List.mem_cons_self
  obtain ⟨hparse, hattempt⟩ := parseRule_ends strokes_built 3 "left" [.bare "X", .bare "X"]
  obtain ⟨laps, hrun, hchain, hlength⟩ := hattempt lineVariation hmem .origin 16 3 henough
  refine ⟨strokes_built, henough, ?_, hmem, laps, ?_, hchain, hlength⟩
  · rw [hparse 16 henough]
    rfl
  · exact (congrArg Prod.snd (Option.some.inj hrun)).symm

end Grammar
end TokenGrammar
