import TokenGrammar.Proofs.Notes

/-!
# The route of the cursor

The notes of an evaluation leave out no movement. From the place where the evaluation began they
lead to the place where it ended, and between one place and the next there is a single movement: over
one token, up to the cursor with the last match, back before one token, or the return to a place
where a rule or a choice began.

This is one of several properties that hold of what is noted between two cursors because they
compose: they hold of nothing, of single movements and calls, and of rules if they hold of what is
inside. Such a property is a journal of the evaluation, and one induction over the evaluation is
enough for all of them.

## Main definitions

* `Cursor.Moves`: the single movements of the cursor.
* `Journal`: a property of what is noted between two cursors that composes.
* `Note.Route`: places that follow each other by single movements.

## Main results

* `Journal.keeps_evaluateNoted`: a journal holds of every evaluation.
* `Setting.route_evaluateNoted`: the notes of an evaluation are a route.
-/
namespace TokenGrammar

/-! ## Movements -/

/-- A single movement of the cursor. The places in `home` are those to which it may return. -/
inductive Cursor.Moves (home : Cursor → Prop) : Cursor → Cursor → Prop
  | over {i m : Nat} : Moves home ⟨i, m⟩ ⟨i + 1, m⟩
  | mark {i m : Nat} : Moves home ⟨i, m⟩ ⟨i, i⟩
  | back {i m : Nat} : Moves home ⟨i + 1, m⟩ ⟨i, m⟩
  | home {c d : Cursor} (known : home d) : Moves home c d

namespace Note

/-- Where the rule or the choice began that a note is about. -/
def start? : Note → Option Cursor
  | .entry _ start => some start
  | .choice start _ _ _ => some start
  | _ => none

/-- All rules and choices that are noted began at places to which the cursor may return. -/
def Homes (home : Cursor → Prop) (notes : List Note) : Prop :=
  ∀ n ∈ notes, ∀ c, n.start? = some c → home c

theorem homes_true (notes : List Note) : Homes (fun _ => True) notes := fun _ _ _ _ => trivial

/-- The notes of what neither moves the cursor nor enters or leaves a rule. -/
def Quiet : Note → Prop
  | .look _ | .adapt _ _ | .choice _ _ _ _ => True
  | _ => False

end Note

/-! ## Journals -/

/-- A property of what is noted between two cursors, with the records of the rules evaluated there
and the levels that are left, that composes. -/
structure Journal (home : Cursor → Prop)
    (P : Nat → Cursor → List Note → List Call → Cursor → Prop) : Prop where
  nil : ∀ levels c, P levels c [] [] c
  append : ∀ {levels c d e notes notes' calls calls'}, P levels c notes calls d →
    P levels d notes' calls' e → P levels c (notes ++ notes') (calls ++ calls') e
  move : ∀ {levels c d}, c.Moves home d → P levels c [.place d] [] d
  quiet : ∀ {levels c n}, n.Quiet → P levels c [n] [] c
  /-- A rule that is refused before its level is looked at. -/
  refused : ∀ levels rule c outcome, P levels c [.entry rule c, .rule rule c outcome c []]
    [.mk rule c.index [] outcome] c
  full : ∀ rule c outcome, P 0 c [.entry rule c, .full, .rule rule c outcome c []]
    [.mk rule c.index [] outcome] c
  nested : ∀ {levels c notes calls d} rule outcome hits, P levels c notes calls d →
    P (levels + 1) c (.entry rule c :: (.nest :: notes ++ [.rule rule c outcome d hits]))
      [.mk rule c.index calls outcome] d

namespace Journal

variable {home : Cursor → Prop} {P : Nat → Cursor → List Note → List Call → Cursor → Prop}
  {s : Setting} {call : Setting.NotedCaller} {v : Variation} {levels : Nat} {c : Cursor}

/-- What a run notes on its way from a cursor has the property, if the cursor may return to where
rules and choices began. -/
def Keeps {α : Type} (home : Cursor → Prop)
    (P : Nat → Cursor → List Note → List Call → Cursor → Prop) (levels : Nat) (c : Cursor)
    (r : Noted α) : Prop :=
  Note.Homes home r.notes → P levels c r.notes r.calls r.cursor

/-! ### Movements over trivia -/

theorem places (J : Journal home P) (levels i m n : Nat) :
    P levels ⟨i, m⟩ (Note.places m (List.range' (i + 1) n)) [] ⟨i + n, m⟩ := by
  induction n generalizing i with
  | zero => exact J.nil _ _
  | succ n ih =>
    have hfirst : P levels ⟨i, m⟩ [.place ⟨i + 1, m⟩] [] ⟨i + 1, m⟩ := J.move .over
    have hrest := ih (i + 1)
    rw [Nat.add_right_comm i 1 n] at hrest
    exact J.append hfirst hrest

theorem wayOver (J : Journal home P) (levels : Nat) (s : Setting) (v : Variation) (c : Cursor) :
    P levels c (s.wayOver v c) [] ⟨s.skipTrivia v c.index, c.matched⟩ := by
  have hskip := s.le_skipTrivia v c.index
  have hplaces := J.places levels c.index c.matched (s.skipTrivia v c.index - c.index)
  rwa [Nat.add_sub_cancel' hskip] at hplaces

theorem backFrom (J : Journal home P) (levels : Nat) (s : Setting) (v : Variation)
    (floor m i : Nat) :
    P levels ⟨i, m⟩ (s.backFrom v floor m i) [] ⟨s.giveBack v floor i, m⟩ := by
  induction i with
  | zero => exact J.nil _ _
  | succ i ih =>
    rw [Setting.backFrom, Setting.giveBack]
    by_cases hfloor : floor ≤ i
    · have hlook : P levels ⟨i + 1, m⟩ [.look i] [] ⟨i + 1, m⟩ := J.quiet trivial
      by_cases hignored : s.ignoredAt v i = true
      · have hback : P levels ⟨i + 1, m⟩ [.place ⟨i, m⟩] [] ⟨i, m⟩ := J.move .back
        simp only [hfloor, hignored, if_true, decide_true, Bool.and_self]
        exact J.append hlook (J.append hback ih)
      · simp only [hfloor, hignored, if_true, Bool.and_false, Bool.false_eq_true, if_false]
        exact hlook
    · simp only [hfloor, if_false, decide_false, Bool.false_and, Bool.false_eq_true]
      exact J.nil _ _

/-- The way back leads to where the attempt settles. -/
theorem wayBack (J : Journal home P) (levels : Nat) (s : Setting) (v : Variation)
    (start stop : Cursor) :
    P levels stop (s.wayBack v start stop) [] (s.settled v start stop) := by
  rw [Setting.wayBack, Setting.settled]
  split
  · exact J.nil _ _
  · exact J.backFrom levels s v _ stop.matched stop.index

/-! ### Items -/

theorem keeps_matchTokenNoted (J : Journal home P) (levels : Nat) (s : Setting) (v : Variation)
    (a : Atom) (c : Cursor) : Keeps home P levels c (s.matchTokenNoted v a c) := by
  intro _
  have hover := J.wayOver levels s v c
  simp only [Setting.matchTokenNoted, Setting.matchToken]
  cases ht : s.tokens[s.skipTrivia v c.index]? with
  | none => exact hover
  | some t =>
    by_cases haccepts : a.accepts t = true
    · have hmoved : P levels ⟨s.skipTrivia v c.index, c.matched⟩
          [.place ⟨s.skipTrivia v c.index + 1, c.matched⟩] []
          ⟨s.skipTrivia v c.index + 1, c.matched⟩ := J.move .over
      have hmarked : P levels ⟨s.skipTrivia v c.index + 1, c.matched⟩
          [.place ⟨s.skipTrivia v c.index + 1, s.skipTrivia v c.index + 1⟩] []
          ⟨s.skipTrivia v c.index + 1, s.skipTrivia v c.index + 1⟩ := J.move .mark
      simp only [haccepts, if_true]
      exact J.append hover (J.append hmoved hmarked)
    · simp only [haccepts]
      exact hover

theorem keeps_matchAtomNoted (J : Journal home P)
    (h : ∀ rule c, Keeps home P levels c (call rule c)) (v : Variation) (a : Atom) (c : Cursor) :
    Keeps home P levels c (s.matchAtomNoted call v a c) := by
  rw [Setting.matchAtomNoted]
  split
  · exact h a.name c
  · exact J.keeps_matchTokenNoted levels s v a c

/-- After a candidate that failed, the cursor returns to where the choice began. -/
theorem keeps_tryNoted (J : Journal home P)
    (h : ∀ rule c, Keeps home P levels c (call rule c)) (v : Variation) {start : Cursor}
    (hstart : home start) (furthest : Nat) (candidates : List Atom) :
    Keeps home P levels start (s.tryNoted call v start furthest candidates) := by
  induction candidates generalizing furthest with
  | nil => exact fun _ => J.nil _ _
  | cons a rest ih =>
    have hatom := J.keeps_matchAtomNoted (s := s) h v a start
    simp only [Setting.tryNoted]
    cases hr : (s.matchAtomNoted call v a start).outcome with
    | value x => exact hatom
    | fatal e => exact hatom
    | mismatch i =>
      intro hhomes
      obtain ⟨hfront, hrest⟩ := List.forall_mem_append.mp hhomes
      have hreturn : P levels (s.matchAtomNoted call v a start).cursor [.place start] [] start :=
        J.move (.home hstart)
      have hfailed := J.append (hatom (List.forall_mem_append.mp hfront).1) hreturn
      rw [List.append_nil] at hfailed
      exact J.append hfailed (ih _ hrest)

theorem keeps_matchItemNoted (J : Journal home P)
    (h : ∀ rule c, Keeps home P levels c (call rule c)) (v : Variation) (c : Cursor)
    (item : Item) : Keeps home P levels c (s.matchItemNoted call v c item) := by
  cases item with
  | atom a =>
    have hatom := J.keeps_matchAtomNoted (s := s) h v a c
    simp only [Setting.matchItemNoted]
    cases hr : (s.matchAtomNoted call v a c).outcome <;> exact hatom
  | either e =>
    intro hhomes
    obtain ⟨hfront, hchoice⟩ := List.forall_mem_append.mp hhomes
    have hstart : home c := hchoice _ List.mem_cons_self c rfl
    have htry := J.keeps_tryNoted (s := s) h v hstart c.index e.candidates hfront
    simp only [Setting.matchItemNoted, Setting.matchEitherNoted, Noted.noting]
    generalize s.tryNoted call v c c.index e.candidates = r at htry ⊢
    have hnoted := J.append htry (J.quiet (n := .choice c r.outcome r.cursor r.hits) trivial)
    rwa [List.append_nil] at hnoted
  | loop kind body => exact fun _ => J.nil _ _
  | foreign type text => exact fun _ => J.nil _ _

/-! ### Attempts -/

theorem foldNotes (J : Journal home P) (levels : Nat) (v : Variation) (kind : LoopKind)
    (data : List Value) (c : Cursor) : P levels c (Setting.foldNotes v kind data) [] c := by
  cases kind with
  | block => exact J.nil _ _
  | binary => exact J.quiet trivial

/-- The stack machine composes its items, if the property does not care for the steps. -/
theorem keeps_driveNoted (J : Journal home P) (hstopped : ∀ c, P levels c [.stopped] [] c)
    (h : ∀ rule c, Keeps home P levels c (call rule c)) (steps : Nat) (frames : List Frame)
    (data : List Value) (completed : Bool) (c : Cursor) :
    Keeps home P levels c (s.driveNoted call v steps frames data completed c) := by
  induction steps generalizing frames data completed c with
  | zero => exact fun _ => hstopped c
  | succ steps ih =>
    obtain _ | ⟨⟨kind, _ | ⟨item, rest⟩, start⟩, below⟩ := frames
    · exact fun _ => J.nil _ _
    · exact fun _ => J.nil _ _
    · have hitem := J.keeps_matchItemNoted (s := s) h v c item
      cases item with
      | loop kind' body =>
        have hfold := J.foldNotes levels v kind' data c
        simp only [Setting.driveNoted]
        cases Setting.enterPass v kind' data with
        | error e => exact fun _ => hfold
        | ok folded =>
          intro hhomes
          exact J.append hfold (ih _ folded completed c (List.forall_mem_append.mp hhomes).2)
      | atom _ | either _ | foreign _ _ =>
        simp only [Setting.driveNoted]
        cases (s.matchItemNoted call v c _).outcome with
        | fatal e => exact hitem
        | mismatch i => exact hitem
        | value more =>
          dsimp only
          split
          · split
            · exact hitem
            · intro hhomes
              obtain ⟨hfront, hlater⟩ := List.forall_mem_append.mp hhomes
              exact J.append (hitem hfront) (ih _ _ _ _ hlater)
          · intro hhomes
            obtain ⟨hfront, hlater⟩ := List.forall_mem_append.mp hhomes
            exact J.append (hitem hfront) (ih _ _ _ _ hlater)

/-! ### Rules -/

/-- Every variation is tried from the start, wherever the cursor was left before. -/
theorem keeps_chooseNoted (J : Journal home P) {steps : Variation → Nat} {vs : List Variation}
    {start : Cursor} (hstart : home start)
    (h : ∀ v ∈ vs, Keeps home P levels start (s.attemptNoted call (steps v) v start))
    (furthest : Nat) (b : Cursor) :
    Keeps home P levels b (s.chooseNoted call steps start furthest vs) := by
  have hreturn : ∀ b, P levels b [.place start] [] start := fun b => J.move (.home hstart)
  induction vs generalizing furthest b with
  | nil => exact fun _ => hreturn b
  | cons v rest ih =>
    obtain ⟨hv, hrest⟩ := List.forall_mem_cons.mp h
    simp only [Setting.chooseNoted]
    generalize s.attemptNoted call (steps v) v start = tried at hv ⊢
    cases hr : tried.outcome with
    | value data =>
      intro hhomes
      simp only [Setting.concludeNoted, Setting.conclude_eq] at hhomes ⊢
      obtain ⟨hhomes, -⟩ := List.forall_mem_append.mp hhomes
      obtain ⟨hhomes, -⟩ := List.forall_mem_append.mp hhomes
      have htried := J.append (hreturn b) (hv (List.forall_mem_cons.mp hhomes).2)
      have hback := J.append htried (J.wayBack levels s v start tried.cursor)
      have hadapted := J.append hback (J.quiet (n := .adapt v.strategy data) trivial)
      rwa [List.append_nil, List.append_nil] at hadapted
    | mismatch i =>
      intro hhomes
      obtain ⟨hfront, hlater⟩ := List.forall_mem_append.mp hhomes
      obtain ⟨hfront, -⟩ := List.forall_mem_append.mp hfront
      have htried := J.append (hreturn b) (hv (List.forall_mem_cons.mp hfront).2)
      have hback := J.append htried (J.wayBack levels s v start tried.cursor)
      rw [List.append_nil] at hback
      exact J.append hback (ih hrest _ _ hlater)
    | fatal e =>
      intro hhomes
      exact J.append (hreturn b) (hv (List.forall_mem_cons.mp hhomes).2)

/-- A journal that holds of all attempts holds of all rules. The induction is on the levels. -/
theorem keeps_evaluateNoted_of (J : Journal home P)
    (h : ∀ levels, (∀ rule c, Keeps home P levels c (s.evaluateNoted levels rule c)) →
      ∀ v ∈ s.grammar.variations, ∀ c,
        Keeps home P levels c (s.attemptNoted (s.evaluateNoted levels) (s.enoughFuel v) v c))
    (levels : Nat) (rule : String) (c : Cursor) :
    Keeps home P levels c (s.evaluateNoted levels rule c) := by
  induction levels generalizing rule c with
  | zero =>
    intro _
    simp only [Setting.evaluateNoted, Setting.enterNoted]
    split
    · exact J.refused 0 rule c _
    · exact J.full rule c _
  | succ levels ih =>
    intro hhomes
    have hstart : home c := hhomes (.entry rule c) List.mem_cons_self c rfl
    have hattempts := h levels ih
    have hmem : ∀ v ∈ s.grammar.variationsOf rule, v ∈ s.grammar.variations :=
      fun v hv => (Grammar.mem_variationsOf.mp hv).1
    simp only [Setting.evaluateNoted, Setting.enterNoted] at hhomes ⊢
    cases hvs : s.grammar.variationsOf rule with
    | nil => exact J.refused (levels + 1) rule c _
    | cons v rest =>
      rw [hvs] at hhomes hmem
      obtain ⟨hinside, -⟩ := List.forall_mem_append.mp hhomes
      have hchosen := J.keeps_chooseNoted hstart (fun v hv => hattempts v (hmem v hv) c) 0 c
        (List.forall_mem_cons.mp (List.forall_mem_cons.mp hinside).2).2
      exact J.nested rule _ _ hchosen

/-- A journal holds of the evaluation of every rule. -/
theorem keeps_evaluateNoted (J : Journal home P)
    (hstopped : ∀ levels c, P levels c [.stopped] [] c) (levels : Nat) (rule : String)
    (c : Cursor) : Keeps home P levels c (s.evaluateNoted levels rule c) :=
  J.keeps_evaluateNoted_of (fun levels hcall _ _ c =>
    J.keeps_driveNoted (hstopped levels) hcall _ _ _ _ c) levels rule c

end Journal

/-! ## Routes -/

/-- Notes whose places lead from one cursor to another by single movements. -/
inductive Note.Route (home : Cursor → Prop) : Cursor → List Note → Cursor → Prop
  | stay {c : Cursor} : Route home c [] c
  | move {c d e : Cursor} {notes : List Note} (moves : c.Moves home d)
      (rest : Route home d notes e) : Route home c (.place d :: notes) e
  | pass {c d : Cursor} {n : Note} {notes : List Note} (other : ∀ e, n ≠ .place e)
      (rest : Route home c notes d) : Route home c (n :: notes) d

namespace Note

variable {home : Cursor → Prop} {c d e : Cursor} {notes notes' : List Note}

theorem Route.append (h : Route home c notes d) (h' : Route home d notes' e) :
    Route home c (notes ++ notes') e := by
  induction h with
  | stay => exact h'
  | move moves _ ih => exact .move moves (ih h')
  | pass other _ ih => exact .pass other (ih h')

theorem journal_route (home : Cursor → Prop) :
    Journal home fun _ c notes _ d => Route home c notes d where
  nil _ _ := .stay
  append := Route.append
  move moves := .move moves .stay
  quiet {_ _ n} h := .pass (fun e he => by subst he; exact h) .stay
  refused _ _ _ _ := .pass (by simp) (.pass (by simp) .stay)
  full _ _ _ := .pass (by simp) (.pass (by simp) (.pass (by simp) .stay))
  nested _ _ _ inside :=
    .pass (by simp) (.pass (by simp) (inside.append (.pass (by simp) .stay)))

end Note

/-- **The notes are complete**: they lead from the cursor at which a rule was entered to the one at
which it was left, place by place, and the cursor returns only to places where some rule or choice
began. -/
theorem Setting.route_evaluateNoted (s : Setting) (depth : Nat) (rule : String) (c : Cursor) :
    let r := s.evaluateNoted depth rule c
    Note.Route (fun d => ∃ n ∈ r.notes, n.start? = some d) c r.notes r.cursor := by
  intro r
  have hstopped : ∀ c, Note.Route (fun d => ∃ n ∈ r.notes, n.start? = some d) c [.stopped] c :=
    fun _ => .pass (by simp) .stay
  exact (Note.journal_route _).keeps_evaluateNoted (fun _ => hstopped) depth rule c
    fun n hn d hd => ⟨n, hn, hd⟩

end TokenGrammar
