import TokenGrammar.Proofs.Motion

/-!
# The stack machine computes the reading

On content of the right shape the stack is never deeper than two frames: the content of the
variation and one pass of its loop. The flag then means what the reading says in words. In the
bottom frame it is down, in a first pass it is down as well, and at the start of every later pass it
is up; a block loop leaves it up during the pass, and a binary loop takes it down at the first item.

The machine is run for a number of steps. They are enough because every pass but the last consumes a
token, which holds for callers that move the cursor as rules do.

## Main definitions

* `Setting.resume`: what follows a pass, for the machine and for the reading alike.
-/
namespace TokenGrammar.Setting

variable {s : Setting} {call : Caller} {v : Variation}

/-! ## One pass -/

/-- What follows a pass that began at the index `start`: a failing item is settled, a pass that
consumed nothing ends the loop, and any other is followed by `next`. -/
def resume (kind : LoopKind) (start : Nat) (completed : Bool)
    (next : List Value → Cursor → Run (List Value)) (p : Pass) : Run (List Value) :=
  match p.outcome with
  | .fatal e => ⟨.fatal e, p.cursor, p.calls⟩
  | .mismatch i =>
    ⟨settle p.data (completed && (kind == .block || p.items == 0)) i, p.cursor, p.calls⟩
  | .value () =>
    if p.cursor.index = start then ⟨.value p.data, p.cursor, p.calls⟩
    else (next p.data p.cursor).after p.calls

/-- An item of a binary loop takes the flag down, one of a block loop leaves it as it is. -/
theorem resume_after (kind : LoopKind) (start : Nat) (completed : Bool)
    (next : List Value → Cursor → Run (List Value)) (calls : List Call) (p : Pass) :
    resume kind start completed next (p.after calls) =
      (resume kind start (completed && kind == .block) next p).after calls := by
  simp only [resume, Pass.after]
  cases p.outcome with
  | fatal e => rfl
  | mismatch i => cases completed <;> cases kind <;> simp [settle, Run.after]
  | value _ =>
    by_cases hidle : p.cursor.index = start <;> simp [hidle, Run.after, List.append_assoc]

/-- What `next` does matters only after a pass that consumed something. -/
theorem resume_congr {kind : LoopKind} {start : Nat} {completed : Bool}
    {next next' : List Value → Cursor → Run (List Value)} {p : Pass}
    (h : p.outcome = .value () → p.cursor.index ≠ start →
      next p.data p.cursor = next' p.data p.cursor) :
    resume kind start completed next p = resume kind start completed next' p := by
  simp only [resume]
  cases hp : p.outcome with
  | fatal e => rfl
  | mismatch i => rfl
  | value _ =>
    dsimp only
    split
    · rfl
    · next hne => rw [h hp hne]

/-- One step of the machine at a plain item. -/
theorem drive_plain {item : Item} (hp : item.Plain) (fuel : Nat) (kind : FrameKind) (rest : Content)
    (start : Nat) (below : List Frame) (data : List Value) (completed : Bool) (c : Cursor) :
    s.drive call v (fuel + 1) (⟨kind, item :: rest, start⟩ :: below) data completed c =
      let r := s.matchItem call v c item
      match r.outcome with
      | .fatal e => ⟨.fatal e, r.cursor, r.calls⟩
      | .mismatch i => ⟨settle data completed i, r.cursor, r.calls⟩
      | .value more =>
        if rest.isEmpty then
          if isIdle ⟨kind, item :: rest, start⟩ r.cursor then
            ⟨.value (data ++ more), r.cursor, r.calls⟩
          else (s.drive call v fuel below (data ++ more) true r.cursor).after r.calls
        else
          (s.drive call v fuel (⟨kind, rest, start⟩ :: below) (data ++ more)
            (completed && kind == .loop .block) r.cursor).after r.calls := by
  cases item with
  | atom a => rfl
  | either e => rfl
  | loop kind body => exact hp.elim
  | foreign type text => rfl

/-- The frame of a pass runs through its items and hands over to what is below it. -/
theorem drive_pass {body : Content} (hp : ∀ i ∈ body, i.Plain) (hne : body ≠ []) (fuel : Nat)
    (kind : LoopKind) (start : Nat) (below : List Frame) (data : List Value) (completed : Bool)
    (c : Cursor) :
    s.drive call v (fuel + body.length) (⟨.loop kind, body, start⟩ :: below) data completed c =
      resume kind start completed (fun data c => s.drive call v fuel below data true c)
        (s.readPass call v data c body) := by
  induction body generalizing data completed c with
  | nil => exact absurd rfl hne
  | cons item rest ih =>
    obtain ⟨hitem, hrest⟩ := List.forall_mem_cons.mp hp
    rw [List.length_cons, ← Nat.add_assoc, drive_plain hitem]
    simp only [readPass]
    cases hr : (s.matchItem call v c item).outcome with
    | fatal e => rfl
    | mismatch i => simp [resume]
    | value more =>
      simp only [resume_after]
      cases rest with
      | nil =>
        simp only [List.isEmpty_nil, if_true, readPass, resume, isIdle]
        by_cases hidle : (s.matchItem call v c item).cursor.index = start
        · simp [hidle, Run.after]
        · simp [hidle, Run.after]
      | cons next rest =>
        simp only [List.isEmpty_cons, Bool.false_eq_true, if_false]
        rw [ih hrest (List.cons_ne_nil _ _)]
        congr 2
        cases kind <;> rfl

/-! ## Loops -/

/-- The reading of a loop as one pass and what follows it. -/
theorem readLoop_eq_resume (h : s.Steady call) (kind : LoopKind) (body : Content) (completed : Bool)
    (data : List Value) (c : Cursor) :
    s.readLoop call v kind body (!completed) data c =
      match enterPass v kind data with
      | .error e => ⟨.fatal (.adapt e), c, []⟩
      | .ok folded =>
        resume kind c.index completed (fun data c => s.readLoop call v kind body false data c)
          (s.readPass call v folded c body) := by
  rw [readLoop]
  cases enterPass v kind data with
  | error e => rfl
  | ok folded =>
    have hends := s.ends_readPass call v folded c body
    simp only [resume]
    cases hp : (s.readPass call v folded c body).outcome with
    | fatal e => rfl
    | mismatch i => simp [mayEnd, settle]
    | value _ =>
      -- a finished pass consumed a token exactly if it left the cursor elsewhere
      have hadvances := (hends.of_value hp).advances h
      have hmoved := hadvances.left_lt_iff
      by_cases hidle : (s.readPass call v folded c body).cursor.index = c.index
      · simp [hmoved, hidle]
      · simp [hmoved, hidle]

/-- A loop at the top of the bottom frame, found with the flag down before its first pass and with
the flag up before every later one. -/
theorem drive_loop (h : s.Steady call) {kind : LoopKind} {body : Content} (hp : ∀ i ∈ body, i.Plain)
    (hne : body ≠ []) {fuel : Nat} (start : Nat) (data : List Value) (completed : Bool) (c : Cursor)
    (hfuel : (s.left c + 1) * (body.length + 1) ≤ fuel) :
    s.drive call v fuel [⟨.top, [.loop kind body], start⟩] data completed c =
      s.readLoop call v kind body (!completed) data c := by
  induction hn : s.left c using Nat.strongRecOn generalizing fuel data completed c with
  | ind n ih =>
    subst hn
    obtain ⟨rest, rfl⟩ : ∃ rest, fuel = rest + body.length + 1 := by
      refine ⟨fuel - (body.length + 1), ?_⟩
      have hone : body.length + 1 ≤ (s.left c + 1) * (body.length + 1) :=
        Nat.le_mul_of_pos_left _ (Nat.succ_pos _)
      omega
    rw [readLoop_eq_resume h, drive]
    dsimp only
    cases enterPass v kind data with
    | error e => rfl
    | ok folded =>
      dsimp only
      rw [drive_pass hp hne]
      refine resume_congr fun hvalue hmoved => ?_
      have hadvances := ((s.ends_readPass call v folded c body).of_value hvalue).advances h
      have hlt := hadvances.left_lt_iff.mpr hmoved
      refine ih _ hlt _ true _ ?_ rfl
      have hstep : (s.left (s.readPass call v folded c body).cursor + 1) * (body.length + 1) ≤
          s.left c * (body.length + 1) := Nat.mul_le_mul_right _ hlt
      have hsplit : (s.left c + 1) * (body.length + 1) =
          s.left c * (body.length + 1) + (body.length + 1) := Nat.succ_mul _ _
      omega

/-! ## Variations -/

theorem readContent_cons {item : Item} (h : ∀ kind body, item ≠ .loop kind body) (data : List Value)
    (c : Cursor) (rest : Content) :
    s.readContent call v data c (item :: rest) =
      let r := s.matchItem call v c item
      match r.outcome with
      | .value more => (s.readContent call v (data ++ more) r.cursor rest).after r.calls
      | .mismatch i => ⟨.mismatch i, r.cursor, r.calls⟩
      | .fatal e => ⟨.fatal e, r.cursor, r.calls⟩ := by
  cases item with
  | atom a => rfl
  | either e => rfl
  | loop kind body => exact absurd rfl (h kind body)
  | foreign type text => rfl

theorem length_le_sizeAll (content : Content) : content.length ≤ Item.sizeAll content := by
  induction content with
  | nil => exact Nat.le_refl _
  | cons i rest ih =>
    have hpos : 1 ≤ i.size := by cases i <;> simp [Item.size]
    rw [List.length_cons, Item.sizeAll]
    omega

/-- The bottom frame runs through the items before the loop with the flag down. -/
theorem drive_content (h : s.Steady call) {content : Content} (hs : content.WellShaped) {fuel : Nat}
    (start : Nat) (data : List Value) (c : Cursor)
    (hfuel : (s.tokens.length + 1) * (content.size + 1) ≤ fuel) :
    s.drive call v fuel [⟨.top, content, start⟩] data false c =
      s.readContent call v data c content := by
  induction hs generalizing fuel data c with
  | nil => cases fuel <;> rfl
  | @loop kind body hne hp =>
    refine drive_loop h hp hne start data false c (Nat.le_trans (Nat.mul_le_mul ?_ ?_) hfuel)
    · exact Nat.succ_le_succ (Nat.sub_le _ _)
    · have hlen := length_le_sizeAll body
      simp only [Content.size, Item.sizeAll, Item.size]
      omega
  | @cons item rest hitem hrest ih =>
    have hsize : Content.size (item :: rest) = Content.size rest + 1 := by
      cases item with
      | atom a => exact Nat.add_comm _ _
      | either e => exact Nat.add_comm _ _
      | foreign type text => exact Nat.add_comm _ _
      | loop kind body => exact hitem.elim
    rw [hsize, Nat.mul_succ] at hfuel
    obtain ⟨fuel, rfl⟩ : ∃ n, fuel = n + 1 := ⟨fuel - 1, by omega⟩
    have hrest : (s.tokens.length + 1) * (rest.size + 1) ≤ fuel := by omega
    rw [drive_plain hitem, readContent_cons hitem.ne_loop]
    dsimp only
    cases hr : (s.matchItem call v c item).outcome with
    | fatal e => rfl
    | mismatch i => rfl
    | value more =>
      cases rest with
      | nil => cases fuel <;> rfl
      | cons next rest =>
        simp only [List.isEmpty_cons, Bool.false_eq_true, if_false, Bool.false_and]
        rw [ih _ _ hrest]

/-- The machine on a variation of a well-formed grammar computes its reading. -/
theorem attempt_eq_read (h : s.Steady call) (hs : v.content.WellShaped) (c : Cursor) :
    s.attempt call v c = s.read call v c := by
  refine drive_content h hs 0 [] c ?_
  rw [enoughFuel]
  exact Nat.mul_le_mul_right _ (Nat.le_succ _)

/-! ## Rules -/

theorem choose_eq_readChoice (h : s.Steady call) {vs : List Variation}
    (hs : ∀ v ∈ vs, v.content.WellShaped) (start : Cursor) (furthest : Nat) :
    s.choose call start furthest vs = s.readChoice call start furthest vs := by
  induction vs generalizing furthest with
  | nil => rfl
  | cons v rest ih =>
    obtain ⟨hv, hrest⟩ := List.forall_mem_cons.mp hs
    simp only [choose, readChoice, attempt_eq_read h hv]
    cases (s.read call v start).outcome with
    | value data => rfl
    | mismatch i => exact congrArg (Run.after _) (ih hrest _)
    | fatal e => rfl

/-- The evaluation of a rule is its reading, at every depth. -/
theorem evaluate_eq_readRule (hg : s.grammar.WellFormed) (depth : Nat) :
    s.evaluate depth = s.readRule depth := by
  induction depth with
  | zero => rfl
  | succ depth ih =>
    funext rule c
    rw [evaluate, readRule, ih, enter]
    have hshaped : ∀ v ∈ s.grammar.variationsOf rule, v.content.WellShaped :=
      fun v hv => hg.shaped v (Grammar.mem_variationsOf.mp hv).1
    generalize s.grammar.variationsOf rule = vs at hshaped ⊢
    cases vs with
    | nil => rfl
    | cons v rest =>
      dsimp only
      rw [choose_eq_readChoice (s.steady_readRule depth) hshaped]

/-- **The stack machine computes the structured reading**: on every variation of a built grammar, at
every cursor and with every number of levels left, an attempt ends with the same outcome, the same
cursor and the same record of calls as the reading, whose rules are read in the same way down to the
last level. -/
theorem attempt_evaluate_eq_read {g : Grammar} (hg : g.Built) {v : Variation}
    (hv : v ∈ g.variations) (tokens : List Token) (depth : Nat) (c : Cursor) :
    attempt ⟨g, tokens⟩ (evaluate ⟨g, tokens⟩ depth) v c =
      read ⟨g, tokens⟩ (readRule ⟨g, tokens⟩ depth) v c := by
  rw [evaluate_eq_readRule (s := ⟨g, tokens⟩) hg.wellFormed]
  exact attempt_eq_read (steady_readRule _ depth) (hg.wellFormed.shaped v hv) c

/-- A binary loop meets an operator without an operand, with trivia in between. It fails in the
middle of a pass, at the end of the input. -/
theorem attempt_evaluate_eq_read_sums :
    let run := attempt ⟨sums, unfinishedSum⟩ (evaluate ⟨sums, unfinishedSum⟩ 1) sumVariation .origin
    sums.Built ∧ sumVariation ∈ sums.variations ∧
      run = read ⟨sums, unfinishedSum⟩ (readRule ⟨sums, unfinishedSum⟩ 1) sumVariation .origin ∧
      run.outcome = .mismatch 5 ∧ run.cursor = ⟨5, 5⟩ := by
  have hmem : sumVariation ∈ sums.variations := List.mem_cons_of_mem _ List.mem_cons_self
  have hread := attempt_evaluate_eq_read sums_built hmem unfinishedSum 1 .origin
  exact ⟨sums_built, hmem, hread, rfl, rfl⟩

end TokenGrammar.Setting
