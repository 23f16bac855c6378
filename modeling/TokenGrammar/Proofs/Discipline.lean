import TokenGrammar.Proofs.Rollback

/-!
# The discipline of the cursor

One cursor serves all nested and all abandoned attempts of a parse, so what the evaluation of a rule
may do to it has to be fixed. The notes of an evaluation show that it keeps to this: at every place
the last match ends at the cursor or before it, and the cursor is inside the input; a rule or a
choice that fails leaves the cursor as it found it; one that succeeds never moves it back, and moves
it on only if a token was matched.

The same induction over the notes shows that no error of a strategy is passed over: it is the fault
in which the evaluation ends.

## Main definitions

* `Setting.Leaves`: what a rule or a choice may leave behind.
* `Setting.Disciplined`: what is asked of a note.
* `Setting.Vouched`: an evaluation whose notes are as they should be.
-/
namespace TokenGrammar

/-- The fault in which an outcome ends, if it does. -/
def Outcome.fault? {α : Type} : Outcome α → Option Fault
  | .fatal e => some e
  | _ => none

/-- A cursor on an input of `n` tokens that is where it may be. -/
def Cursor.Within (n : Nat) (c : Cursor) : Prop := c.matched ≤ c.index ∧ c.index ≤ n

/-- An error that a strategy gave is the fault in which the evaluation ended. -/
def Note.Raised (fault : Option Fault) : Note → Prop
  | .adapt strategy data => ∀ e, strategy.adapt data = .error e → fault = some (.adapt e)
  | _ => True

namespace Setting

variable {s : Setting} {call : NotedCaller} {v : Variation} {c c' : Cursor} {α β : Type}
  {fault : Option Fault} {n : Note}

/-- What the evaluation of a rule or a choice leaves behind: after a success the cursor is not
before its start and the last match not before the earlier one, and progress comes from a token that
was hit at or after the start; after a failure everything is as it was. -/
def Leaves (s : Setting) (start : Cursor) (outcome : Outcome α) (stop : Cursor) (hits : List Hit) :
    Prop :=
  outcome.Ends
    (fun _ => start.index ≤ stop.index ∧ start.matched ≤ stop.matched ∧
      (start.index < stop.index → start.index < stop.matched ∧
        ∃ h ∈ hits, start.index ≤ h.index ∧ stop.matched = h.index + 1 ∧ s.Genuine h))
    (fun i => stop = start ∧ start.index ≤ i ∧ i ≤ s.tokens.length)
    (fun _ => True)

/-- What the discipline asks of a note. -/
def Disciplined (s : Setting) : Note → Prop
  | .place c => c.Within s.tokens.length
  | .look index => index < s.tokens.length
  | .entry _ start => start.Within s.tokens.length
  | .rule _ start outcome stop hits => s.Leaves start outcome stop hits
  | .choice start outcome stop hits => s.Leaves start outcome stop hits
  | .adapt _ _ | .nest | .full | .stopped => True

/-- What is asked of a note in an evaluation that ended in a fault, or in none. -/
def Warrants (s : Setting) (fault : Option Fault) (n : Note) : Prop :=
  s.Disciplined n ∧ n.Raised fault

/-- An evaluation with notes that are as they should be. -/
def Vouched (s : Setting) (r : Noted α) : Prop := ∀ n ∈ r.notes, s.Warrants r.outcome.fault? n

theorem Warrants.place (h : c.Within s.tokens.length) : s.Warrants fault (.place c) := ⟨h, trivial⟩

/-- What goes on has met no error of a strategy, and so its notes stand for every end. -/
theorem Warrants.lasting (h : s.Warrants none n) (fault : Option Fault) : s.Warrants fault n := by
  refine ⟨h.1, ?_⟩
  cases n with
  | adapt strategy data => exact fun e he => nomatch h.2 e he
  | _ => trivial

/-- What an evaluation without a fault has noted stands for every end. -/
theorem Vouched.warrants {r : Noted α} (h : s.Vouched r) (hr : r.outcome.fault? = none) :
    ∀ n ∈ r.notes, s.Warrants fault n := by
  rw [Vouched, hr] at h
  exact fun n hn => (h n hn).lasting fault

theorem Vouched.ending {r : Noted α} (h : s.Vouched r) (hr : r.outcome.fault? = fault)
    {outcome : Outcome β} (heq : outcome.fault? = fault) : s.Vouched (r.ending outcome) := by
  rw [Vouched, hr, ← heq] at h
  exact h

theorem Vouched.noting {r : Noted α} (h : s.Vouched r) {more : List Note}
    (hmore : ∀ n ∈ more, s.Warrants r.outcome.fault? n) : s.Vouched (r.noting more) :=
  List.forall_mem_append.mpr ⟨h, hmore⟩

theorem Vouched.after {earlier : Noted β} {r : Noted α} (h : s.Vouched earlier)
    (hgoes : earlier.outcome.fault? = none) (h' : s.Vouched r) : s.Vouched (r.after earlier) :=
  List.forall_mem_append.mpr ⟨h.warrants hgoes, h'⟩

/-! ## Movements -/

theorem Advances.keeps_within (h : s.Advances c c') (hc : c.Within s.tokens.length) :
    c'.Within s.tokens.length :=
  ⟨h.keeps_ordered hc.1, h.inside hc.2⟩

theorem warrants_wayOver (hc : c.Within s.tokens.length) :
    ∀ n ∈ s.wayOver v c, s.Warrants fault n := by
  intro n hn
  obtain ⟨i, hi, rfl⟩ := List.mem_map.mp hn
  have hrange := List.mem_range'_1.mp hi
  have hskip := s.skipTrivia_le v c.index
  obtain ⟨hordered, hinside⟩ := hc
  exact .place ⟨by dsimp only; omega, by dsimp only; omega⟩

theorem warrants_backFrom (v : Variation) {floor matched i : Nat} (hfloor : matched ≤ floor)
    (h : i ≤ s.tokens.length) : ∀ n ∈ s.backFrom v floor matched i, s.Warrants fault n := by
  induction i with
  | zero => exact List.forall_mem_nil _
  | succ i ih =>
    rw [backFrom]
    split
    · next hle =>
      have hlook : s.Warrants fault (.look i) := ⟨h, trivial⟩
      refine List.forall_mem_cons.mpr ⟨hlook, ?_⟩
      split
      · have hplace : Cursor.Within s.tokens.length ⟨i, matched⟩ :=
          ⟨Nat.le_trans hfloor hle, Nat.le_of_succ_le h⟩
        exact List.forall_mem_cons.mpr ⟨.place hplace, ih (Nat.le_of_succ_le h)⟩
      · exact List.forall_mem_nil _
    · exact List.forall_mem_nil _

/-- The way back passes no place before the last match, and looks at tokens of the input only. -/
theorem warrants_wayBack (v : Variation) (start : Cursor) {stop : Cursor}
    (h : stop.index ≤ s.tokens.length) :
    ∀ n ∈ s.wayBack v start stop, s.Warrants fault n := by
  rw [wayBack]
  split
  · exact List.forall_mem_nil _
  · exact warrants_backFrom v (Nat.le_max_right _ _) h

/-- The movements and the hits of a rule or a choice together. -/
theorem leaves_of_ends {start stop : Cursor} {outcome : Outcome α} {hits : List Hit}
    (hstart : start.Within s.tokens.length)
    (h : outcome.Ends (fun _ => s.Advances start stop) (fun i => stop = start ∧ s.Ahead start i)
      (fun _ => True))
    (hhits : ∀ a, outcome = .value a → s.Follows False start hits stop) :
    s.Leaves start outcome stop hits := by
  obtain ⟨hordered, hinside⟩ := hstart
  cases h with
  | @value a ha =>
    have hfollows := hhits a rfl
    refine .value ⟨ha.index_le, ?_, fun hlt => ?_⟩
    · cases ha with
      | stay => exact Nat.le_refl _
      | matched after _ _ => omega
    · have hmatched := (ha.matched_of_lt hlt).1
      refine ⟨hmatched, ?_⟩
      have hmark := hfollows.matched
      rcases Hit.after_cases hits with hnone | ⟨a, hmem, hlast⟩
      · rw [hnone] at hmark
        omega
      · rw [hlast] at hmark
        exact ⟨a, hmem, (hfollows.between a hmem).1, hmark, hfollows.genuine a hmem⟩
  | @mismatch i h =>
    obtain ⟨hstop, hge, hle⟩ := h
    exact .mismatch ⟨hstop, hge, by omega⟩
  | fatal _ => exact .fatal trivial

/-! ## Items -/

/-- A caller that keeps to the discipline, in what it does and in what it notes. -/
structure Trusted (s : Setting) (call : NotedCaller) : Prop where
  steady : s.Steady call.plain
  tracks : s.Tracks False call
  vouched : ∀ rule c, c.Within s.tokens.length → s.Vouched (call rule c)

theorem vouched_matchTokenNoted (v : Variation) (a : Atom) (hc : c.Within s.tokens.length) :
    s.Vouched (s.matchTokenNoted v a c) := by
  have hends := s.ends_matchToken v a c
  simp only [Vouched, matchTokenNoted]
  cases hr : (s.matchToken v a c).outcome with
  | mismatch i => exact warrants_wayOver hc
  | fatal e => exact warrants_wayOver hc
  | value x =>
    have hadvances := hends.of_value hr
    have hle := hadvances.index_le
    have hstop := hadvances.keeps_within hc
    have hmoved : Cursor.Within s.tokens.length ⟨(s.matchToken v a c).cursor.index, c.matched⟩ :=
      ⟨Nat.le_trans hc.1 hle, hstop.2⟩
    refine List.forall_mem_append.mpr ⟨warrants_wayOver hc, ?_⟩
    exact List.forall_mem_cons.mpr ⟨.place hmoved, List.forall_mem_singleton.mpr (.place hstop)⟩

theorem vouched_matchAtomNoted (h : s.Trusted call) (v : Variation) (a : Atom)
    (hc : c.Within s.tokens.length) : s.Vouched (s.matchAtomNoted call v a c) := by
  rw [matchAtomNoted]
  split
  · exact h.vouched a.name c hc
  · exact vouched_matchTokenNoted v a hc

theorem vouched_tryNoted (h : s.Trusted call) (v : Variation) {start : Cursor}
    (hc : start.Within s.tokens.length) (furthest : Nat) (candidates : List Atom) :
    s.Vouched (s.tryNoted call v start furthest candidates) := by
  induction candidates generalizing furthest with
  | nil => exact List.forall_mem_nil _
  | cons a rest ih =>
    have hatom := vouched_matchAtomNoted h v a hc
    simp only [tryNoted]
    cases hr : (s.matchAtomNoted call v a start).outcome with
    | value x => exact hatom.ending (congrArg Outcome.fault? hr) rfl
    | fatal e => exact hatom.ending (congrArg Outcome.fault? hr) rfl
    | mismatch i =>
      have hnoted := hatom.noting (List.forall_mem_singleton.mpr (.place hc))
      exact hnoted.after (congrArg Outcome.fault? hr) (ih _)

theorem leaves_tryNoted (h : s.Trusted call) (v : Variation) {start : Cursor}
    (hc : start.Within s.tokens.length) (candidates : List Atom) :
    let r := s.tryNoted call v start start.index candidates
    s.Leaves start r.outcome r.cursor r.hits := by
  have hstart : s.Ahead start start.index := ⟨Nat.le_refl _, Nat.le_max_left _ _⟩
  have hends := ends_matchEither h.steady v start hstart candidates
  rw [← toRun_tryNoted] at hends
  exact leaves_of_ends hc hends fun _ ha =>
    (follows_tryNoted h.tracks v hc.1 start.index candidates).of_value ha

theorem vouched_matchItemNoted (h : s.Trusted call) (v : Variation) (item : Item)
    (hc : c.Within s.tokens.length) : s.Vouched (s.matchItemNoted call v c item) := by
  cases item with
  | atom a =>
    have hatom := vouched_matchAtomNoted h v a hc
    simp only [matchItemNoted]
    cases hr : (s.matchAtomNoted call v a c).outcome <;>
      exact hatom.ending (congrArg Outcome.fault? hr) rfl
  | either e =>
    refine (vouched_tryNoted h v hc c.index e.candidates).noting ?_
    exact List.forall_mem_singleton.mpr ⟨leaves_tryNoted h v hc e.candidates, trivial⟩
  | loop kind body => exact List.forall_mem_nil _
  | foreign type text => exact List.forall_mem_nil _

/-! ## Attempts -/

/-- A pass notes the call of the strategy, and an error of it is the fault. -/
theorem warrants_foldNotes {kind : LoopKind} {data : List Value}
    (h : ∀ e, enterPass v kind data = .error e → fault = some (.adapt e)) :
    ∀ n ∈ foldNotes v kind data, s.Warrants fault n := by
  cases kind with
  | block => exact List.forall_mem_nil _
  | binary =>
    refine List.forall_mem_singleton.mpr ⟨trivial, fun e he => h e ?_⟩
    rw [enterPass, he]
    rfl

theorem vouched_driveNoted (h : s.Trusted call) (steps : Nat) (frames : List Frame)
    (data : List Value) (completed : Bool) (hc : c.Within s.tokens.length) :
    s.Vouched (s.driveNoted call v steps frames data completed c) := by
  -- an item that is matched leaves the cursor where it may be
  have hwithin : ∀ {c : Cursor} {item : Item} {more : List Value}, c.Within s.tokens.length →
      (s.matchItemNoted call v c item).outcome = .value more →
      (s.matchItemNoted call v c item).cursor.Within s.tokens.length := by
    intro c item more hc hr
    have hends := ends_matchItem h.steady v item c
    rw [← toRun_matchItemNoted] at hends
    exact (hends.of_value hr).keeps_within hc
  fun_induction driveNoted s call v steps frames data completed c with
  | case1 => exact List.forall_mem_singleton.mpr ⟨trivial, trivial⟩
  | case2 | case3 => exact List.forall_mem_nil _
  | case4 steps f below data completed c kind body tail hrest e hfold =>
    refine warrants_foldNotes fun e' he' => ?_
    cases hfold.symm.trans he'
    rfl
  | case5 steps f below data completed c kind body tail hrest folded hfold ih =>
    refine Vouched.after (warrants_foldNotes fun e he => ?_) rfl (ih hc)
    cases hfold.symm.trans he
  | case6 steps f below data completed c item rest hitem hrest r last e hr =>
    exact (vouched_matchItemNoted h v item hc).ending (congrArg Outcome.fault? hr) rfl
  | case7 steps f below data completed c item rest hitem hrest r last i hr =>
    exact (vouched_matchItemNoted h v item hc).warrants (congrArg Outcome.fault? hr)
  | case8 steps f below data completed c item rest hitem hrest r last more hr hlast hidle =>
    exact (vouched_matchItemNoted h v item hc).ending (congrArg Outcome.fault? hr) rfl
  | case9 steps f below data completed c item rest hitem hrest r last more hr hlast hidle ih =>
    exact (vouched_matchItemNoted h v item hc).after (congrArg Outcome.fault? hr)
      (ih (hwithin hc hr))
  | case10 steps f below data completed c item rest hitem hrest r more hr hlast ih =>
    exact (vouched_matchItemNoted h v item hc).after (congrArg Outcome.fault? hr)
      (ih (hwithin hc hr))

/-- An attempt ends inside the input, unless a fault ends it. -/
theorem inside_attemptNoted (h : s.Trusted call) (hs : v.content.WellShaped)
    (hc : c.index ≤ s.tokens.length) :
    let r := s.attemptNoted call (s.enoughFuel v) v c
    r.outcome.Ends (fun _ => r.cursor.index ≤ s.tokens.length)
      (fun _ => r.cursor.index ≤ s.tokens.length) (fun _ => True) := by
  have hends := ends_read h.steady v c
  rw [← attempt_eq_read h.steady hs, ← toRun_attemptNoted] at hends
  refine hends.imp (fun _ ha => ha.inside hc) (fun _ hm => ?_) (fun _ _ => trivial)
  have hle := hm.2
  omega

/-! ## Rules -/

theorem vouched_chooseNoted (h : s.Trusted call) {vs : List Variation}
    (hs : ∀ v ∈ vs, v.content.WellShaped) {start : Cursor} (hc : start.Within s.tokens.length)
    (furthest : Nat) : s.Vouched (s.chooseNoted call s.enoughFuel start furthest vs) := by
  induction vs generalizing furthest with
  | nil => exact List.forall_mem_singleton.mpr (.place hc)
  | cons v rest ih =>
    obtain ⟨hv, hrest⟩ := List.forall_mem_cons.mp hs
    have hinside := inside_attemptNoted h hv hc.2
    have hattempt : s.Vouched (s.attemptNoted call (s.enoughFuel v) v start) :=
      vouched_driveNoted h _ _ _ _ hc
    simp only [chooseNoted]
    generalize s.attemptNoted call (s.enoughFuel v) v start = tried at hinside hattempt ⊢
    have hentered : s.Vouched { tried with notes := .place start :: tried.notes } :=
      List.forall_mem_cons.mpr ⟨.place hc, hattempt⟩
    cases hr : tried.outcome with
    | value data =>
      simp only [concludeNoted, conclude_eq]
      refine List.forall_mem_append.mpr ⟨List.forall_mem_append.mpr ⟨?_, ?_⟩, ?_⟩
      · exact hentered.warrants (congrArg Outcome.fault? hr)
      · exact warrants_wayBack v start (hinside.of_value hr)
      · refine List.forall_mem_singleton.mpr ⟨trivial, fun e he => ?_⟩
        rw [Strategy.outcome, he]
        rfl
    | mismatch i =>
      have hnoted := hentered.noting (warrants_wayBack v start (hinside.of_mismatch hr))
      exact hnoted.after (congrArg Outcome.fault? hr) (ih hrest _)
    | fatal e => exact hentered.ending (congrArg Outcome.fault? hr) rfl

theorem vouched_enterNoted (hg : s.grammar.WellFormed) {below : Option NotedCaller}
    (h : ∀ call, below = some call → s.Trusted call) (rule : String)
    (hc : c.Within s.tokens.length) :
    s.Vouched (s.enterNoted below s.enoughFuel rule c) := by
  have hshaped : ∀ v ∈ s.grammar.variationsOf rule, v.content.WellShaped :=
    fun v hv => hg.shaped v (Grammar.mem_variationsOf.mp hv).1
  rw [enterNoted]
  split
  · exact List.forall_mem_nil _
  · cases below with
    | none => exact List.forall_mem_singleton.mpr ⟨trivial, trivial⟩
    | some call =>
      exact List.forall_mem_cons.mpr ⟨⟨trivial, trivial⟩, vouched_chooseNoted (h call rfl) hshaped hc 0⟩

/-- The whole evaluation of a rule is noted by its entry, its inside and its end. -/
theorem vouched_close {rule : String} {r : Noted Value} (hc : c.Within s.tokens.length)
    (hr : s.Vouched r) (hleaves : s.Leaves c r.outcome r.cursor r.hits) :
    s.Vouched (r.close rule c) := by
  have hentry : s.Warrants r.outcome.fault? (.entry rule c) := ⟨hc, trivial⟩
  refine List.forall_mem_append.mpr ⟨List.forall_mem_cons.mpr ⟨hentry, hr⟩, ?_⟩
  exact List.forall_mem_singleton.mpr ⟨hleaves, trivial⟩

/-- Rules keep to the discipline, at every depth. -/
theorem trusted_evaluateNoted (hg : s.grammar.WellFormed) (depth : Nat) :
    s.Trusted (s.evaluateNoted depth) := by
  have hsteady := steady_evaluateNoted hg
  have htracks : ∀ depth, s.Tracks False (s.evaluateNoted depth) := fun depth =>
    tracks_evaluateNoted False.elim depth
  have hleaves : ∀ depth rule (c : Cursor), c.Within s.tokens.length →
      s.Leaves c (s.evaluateNoted depth rule c).outcome (s.evaluateNoted depth rule c).cursor
        (s.evaluateNoted depth rule c).hits := by
    intro depth rule c hc
    exact leaves_of_ends hc (hsteady depth rule c) fun _ ha =>
      (htracks depth rule c hc.1).of_value ha
  induction depth with
  | zero =>
    refine ⟨hsteady 0, htracks 0, fun rule c hc => ?_⟩
    have henter : s.Vouched (s.enterNoted none s.enoughFuel rule c) :=
      vouched_enterNoted hg (by rintro _ ⟨⟩) rule hc
    exact vouched_close hc henter (hleaves 0 rule c hc)
  | succ depth ih =>
    refine ⟨hsteady _, htracks _, fun rule c hc => ?_⟩
    have henter : s.Vouched
        (s.enterNoted (some (s.evaluateNoted depth)) s.enoughFuel rule c) :=
      vouched_enterNoted hg (by rintro _ ⟨⟩; exact ih) rule hc
    exact vouched_close hc henter (hleaves (depth + 1) rule c hc)

/-- A rule that is evaluated from the first token on keeps to the discipline. -/
theorem vouched_origin (hg : s.grammar.WellFormed) (depth : Nat) (rule : String) :
    s.Vouched (s.evaluateNoted depth rule .origin) :=
  (trusted_evaluateNoted hg depth).vouched rule .origin ⟨Nat.le_refl 0, Nat.zero_le _⟩

end Setting

namespace Grammar

/-- **The cursor is disciplined**: in a parse with a built grammar the cursor is at every moment
inside the input and not before the last match. Every rule and every choice that fails on the way
leaves the cursor as it was and reports an index between its start and the end of the input; every
one that succeeds leaves cursor and last match where they were or further on, and it moved the
cursor only if a token at or after its start was matched. -/
theorem disciplined_evaluateNoted {g : Grammar} (hg : g.Built) (limit : Int) (rule : String)
    (tokens : List Token) :
    let r := Setting.evaluateNoted ⟨g, tokens⟩ (effectiveDepth limit) rule .origin
    r.toRun = Setting.evaluate ⟨g, tokens⟩ (effectiveDepth limit) rule .origin ∧
      ∀ n ∈ r.notes, Setting.Disciplined ⟨g, tokens⟩ n := by
  have hvouched := Setting.vouched_origin (s := ⟨g, tokens⟩) hg.wellFormed (effectiveDepth limit) rule
  exact ⟨Setting.toRun_evaluateNoted _ _ _ _, fun n hn => (hvouched n hn).1⟩

/-- After the second integer of a list the operators are tried, behind a line end, and fail. -/
theorem disciplined_evaluateNoted_sums :
    sums.Built ∧
      Note.choice ⟨5, 5⟩ (.mismatch 6) ⟨5, 5⟩ [] ∈
        (Setting.evaluateNoted ⟨sums, shortList⟩ (effectiveDepth 9) "list" .origin).notes ∧
      Setting.Disciplined ⟨sums, shortList⟩ (.choice ⟨5, 5⟩ (.mismatch 6) ⟨5, 5⟩ []) := by
  have hmem : Note.choice ⟨5, 5⟩ (.mismatch 6) ⟨5, 5⟩ [] ∈
      (Setting.evaluateNoted ⟨sums, shortList⟩ (effectiveDepth 9) "list" .origin).notes :=
    List.mem_of_getElem? (i := 34) rfl
  exact ⟨sums_built, hmem, (disciplined_evaluateNoted sums_built 9 "list" shortList).2 _ hmem⟩

end Grammar
end TokenGrammar
