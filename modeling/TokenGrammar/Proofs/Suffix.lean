import TokenGrammar.Proofs.Records

/-!
# Rules do not depend on their context

The evaluation of a rule sees the tokens from its start on and nothing else. It takes no notice of
what stands before them, of who called it and of what was tried in vain before. So it runs at an
index as it does at the beginning of an input that starts there, with all indices shifted.

One thing has to be kept apart from the rest. The end of the last match lies before the start until
a token has been matched, and only from then on does it move with the indices.

## Main definitions

* `Cursor.shift`, `Run.shift`: a place and a run on the rest of an input, seen from the whole of it.
* `Setting.drop`: the evaluation on the rest of an input.
* `Setting.Shifts`: callers of which one does on the rest what the other does on the whole.
-/
namespace TokenGrammar

/-! ## Shifts -/

/-- A place in the rest of an input, seen from the whole of it: `i` tokens further on. Where nothing
was matched in the rest, the last match is the one before it, which ended at `m`. -/
def Cursor.shift (i m : Nat) (c : Cursor) : Cursor :=
  ⟨c.index + i, if c.matched = 0 then m else c.matched + i⟩

/-- A fault with its place moved. The rule, the token and what a strategy said are the same. -/
def Fault.shift (i : Nat) : Fault → Fault
  | .parse e => .parse { e with index := e.index + i }
  | .config e => .config e
  | .adapt e => .adapt e
  | .inconceivable => .inconceivable

/-- An outcome with its place moved. A value has no place. -/
def Outcome.shift {α : Type} (i : Nat) : Outcome α → Outcome α
  | .value a => .value a
  | .mismatch j => .mismatch (j + i)
  | .fatal e => .fatal (e.shift i)

mutual

/-- The record of a rule with all places in it moved. -/
def Call.shift (i : Nat) : Call → Call
  | .mk rule index inner outcome => .mk rule (index + i) (Call.shiftAll i inner) (outcome.shift i)

/-- The records of several rules with all places in them moved. -/
def Call.shiftAll (i : Nat) : List Call → List Call
  | [] => []
  | c :: cs => c.shift i :: Call.shiftAll i cs

end

/-- A run on the rest of an input, seen from the whole of it. -/
def Run.shift {α : Type} (i m : Nat) (r : Run α) : Run α :=
  ⟨r.outcome.shift i, r.cursor.shift i m, Call.shiftAll i r.calls⟩

/-- A pass on the rest of an input, seen from the whole of it. -/
def Pass.shift (i m : Nat) (p : Pass) : Pass :=
  ⟨p.outcome.shift i, p.data, p.cursor.shift i m, Call.shiftAll i p.calls, p.items⟩

section

variable {α : Type} (i m : Nat)

@[simp] theorem Cursor.index_shift (c : Cursor) : (c.shift i m).index = c.index + i := rfl

theorem Cursor.shift_origin : Cursor.origin.shift i m = ⟨i, m⟩ := by
  simp [Cursor.shift, Cursor.origin]

/-- Right after a match the two parts of a place move together. -/
theorem Cursor.shift_matched (j : Nat) :
    Cursor.shift i m ⟨j + 1, j + 1⟩ = ⟨j + i + 1, j + i + 1⟩ := by
  rw [Cursor.shift, if_neg (Nat.succ_ne_zero j), Nat.add_right_comm]

theorem Call.shiftAll_append (xs ys : List Call) :
    Call.shiftAll i (xs ++ ys) = Call.shiftAll i xs ++ Call.shiftAll i ys := by
  induction xs with
  | nil => rfl
  | cons c cs ih => exact congrArg (c.shift i :: ·) ih

theorem Run.shift_after (earlier : List Call) (r : Run α) :
    (r.after earlier).shift i m = (r.shift i m).after (Call.shiftAll i earlier) := by
  simp only [Run.shift, Run.after, Call.shiftAll_append]

theorem Run.shift_record (rule : String) (c : Cursor) (r : Run Value) :
    (r.record rule c).shift i m = (r.shift i m).record rule (c.shift i m) := rfl

theorem Pass.shift_after (earlier : List Call) (p : Pass) :
    (p.after earlier).shift i m = (p.shift i m).after (Call.shiftAll i earlier) := by
  simp only [Pass.shift, Pass.after, Call.shiftAll_append]

end

namespace Setting

/-- The evaluation on the rest of the input, without the first `i` tokens. -/
def drop (s : Setting) (i : Nat) : Setting := { s with tokens := s.tokens.drop i }

@[simp] theorem grammar_drop (s : Setting) (i : Nat) : (s.drop i).grammar = s.grammar := rfl

/-- The first caller does on the whole input what the second does on the rest of it. -/
def Shifts (i m : Nat) (call call' : Caller) : Prop :=
  ∀ rule c, call rule (c.shift i m) = (call' rule c).shift i m

variable {s : Setting} {i m : Nat} {call call' : Caller} {v : Variation}

/-! ## Trivia -/

theorem getElem?_drop (s : Setting) (i k : Nat) : (s.drop i).tokens[k]? = s.tokens[k + i]? := by
  rw [drop, List.getElem?_drop, Nat.add_comm]

theorem left_shift (s : Setting) (i m : Nat) (c : Cursor) :
    s.left (c.shift i m) = (s.drop i).left c := by
  simp only [left, drop, Cursor.index_shift, List.length_drop]
  omega

theorem skipTrivia_add (s : Setting) (v : Variation) (i k : Nat) :
    s.skipTrivia v (k + i) = (s.drop i).skipTrivia v k + i := by
  simp only [skipTrivia, drop, List.drop_drop, Nat.add_comm i k, Nat.add_right_comm k i]
  rfl

theorem ignoredAt_add (s : Setting) (v : Variation) (i k : Nat) :
    s.ignoredAt v (k + i) = (s.drop i).ignoredAt v k := by
  rw [ignoredAt, ignoredAt, getElem?_drop]
  rfl

/-- The way back ends at its floor, so it does not leave the rest. -/
theorem giveBack_add (s : Setting) (v : Variation) (i floor k : Nat) :
    s.giveBack v (floor + i) (k + i) = (s.drop i).giveBack v floor k + i := by
  induction k with
  | zero => rw [giveBack_of_le_floor (by omega)]; rfl
  | succ k ih =>
    rw [Nat.add_right_comm]
    simp only [giveBack, ignoredAt_add, Nat.add_le_add_iff_right, ih]
    split
    · rfl
    · exact Nat.add_right_comm k i 1

theorem settled_shift (hm : m ≤ i) (v : Variation) (start stop : Cursor) :
    s.settled v (start.shift i m) (stop.shift i m) =
      ((s.drop i).settled v start stop).shift i m := by
  -- a match before the rest lies below every floor in it
  have hfloor : max (start.index + i) (stop.shift i m).matched =
      max start.index stop.matched + i := by
    simp only [Cursor.shift]
    split <;> omega
  simp only [settled]
  split
  · rfl
  · simp only [rollback, Cursor.index_shift, hfloor, giveBack_add]
    rfl

/-! ## Items -/

theorem matchToken_shift (s : Setting) (v : Variation) (i m : Nat) (a : Atom) (c : Cursor) :
    s.matchToken v a (c.shift i m) = ((s.drop i).matchToken v a c).shift i m := by
  simp only [matchToken, Cursor.index_shift, skipTrivia_add, getElem?_drop]
  split
  · split
    · exact congrArg (Run.mk _ · []) (Cursor.shift_matched i m _).symm
    · rfl
  · rfl

theorem matchAtom_shift (h : Shifts i m call call') (v : Variation) (a : Atom) (c : Cursor) :
    s.matchAtom call v a (c.shift i m) = ((s.drop i).matchAtom call' v a c).shift i m := by
  rw [matchAtom, matchAtom]
  split
  · exact h a.name c
  · exact s.matchToken_shift v i m a c

theorem matchEither_shift (h : Shifts i m call call') (v : Variation) (c : Cursor) (furthest : Nat)
    (candidates : List Atom) :
    s.matchEither call v (c.shift i m) (furthest + i) candidates =
      ((s.drop i).matchEither call' v c furthest candidates).shift i m := by
  induction candidates generalizing furthest with
  | nil => rfl
  | cons a rest ih =>
    simp only [matchEither, matchAtom_shift h]
    cases hr : ((s.drop i).matchAtom call' v a c).outcome with
    | value x => simp only [Run.shift, Outcome.shift, hr]
    | fatal e => simp only [Run.shift, Outcome.shift, hr]
    | mismatch j =>
      rw [Run.shift_after, ← ih, ← Nat.add_max_add_right]
      simp only [Run.shift, Outcome.shift, hr]

theorem matchItem_shift (h : Shifts i m call call') (v : Variation) (c : Cursor) (item : Item) :
    s.matchItem call v (c.shift i m) item = ((s.drop i).matchItem call' v c item).shift i m := by
  cases item with
  | atom a =>
    simp only [matchItem, matchOne, matchAtom_shift h]
    cases hr : ((s.drop i).matchAtom call' v a c).outcome <;>
      simp only [Run.shift, Outcome.shift, hr]
  | either e => exact matchEither_shift h v c c.index e.candidates
  | loop kind body => rfl
  | foreign type text => rfl

/-! ## Passes and loops -/

theorem readPass_shift (h : Shifts i m call call') (v : Variation) (data : List Value) (c : Cursor)
    (body : Content) :
    s.readPass call v data (c.shift i m) body =
      ((s.drop i).readPass call' v data c body).shift i m := by
  induction body generalizing data c with
  | nil => rfl
  | cons item rest ih =>
    simp only [readPass, matchItem_shift h]
    cases hr : ((s.drop i).matchItem call' v c item).outcome with
    | mismatch j => simp only [Run.shift, Pass.shift, Outcome.shift, hr]
    | fatal e => simp only [Run.shift, Pass.shift, Outcome.shift, hr]
    | value more =>
      rw [Pass.shift_after, ← ih]
      simp only [Run.shift, Outcome.shift, hr]

theorem readLoop_shift (h : Shifts i m call call') (v : Variation) (kind : LoopKind)
    (body : Content) (first : Bool) (data : List Value) (c : Cursor) :
    s.readLoop call v kind body first data (c.shift i m) =
      ((s.drop i).readLoop call' v kind body first data c).shift i m := by
  -- the passes are those of the loop on the rest; the tokens left are the same on both sides
  fun_induction readLoop (s.drop i) call' v kind body first data c with
  | case1 first data c e hfold =>
    rw [readLoop, hfold]
    rfl
  | case2 first data c folded hfold p e hp =>
    rw [readLoop, hfold]
    simp only [readPass_shift h, Pass.shift, Run.shift, p, hp, Outcome.shift]
  | case3 first data c folded hfold p j hp =>
    rw [readLoop, hfold]
    simp only [readPass_shift h, Pass.shift, Run.shift, p, hp, Outcome.shift]
    split <;> rfl
  | case4 first data c folded hfold p hp hless ih =>
    rw [readLoop, hfold]
    simp only [readPass_shift h, Pass.shift, p, hp, Outcome.shift, left_shift]
    rw [if_pos hless, Run.shift_after, ← ih]
  | case5 first data c folded hfold p hp hless =>
    rw [readLoop, hfold]
    simp only [readPass_shift h, Pass.shift, p, hp, Outcome.shift, left_shift]
    rw [if_neg hless]
    rfl

/-! ## Variations and rules -/

theorem readContent_shift (h : Shifts i m call call') (v : Variation) (data : List Value)
    (c : Cursor) (content : Content) :
    s.readContent call v data (c.shift i m) content =
      ((s.drop i).readContent call' v data c content).shift i m := by
  induction content generalizing data c with
  | nil => rfl
  | cons item rest ih =>
    cases item with
    | loop kind body => exact readLoop_shift h v kind body true data c
    | atom _ | either _ | foreign _ _ =>
      simp only [readContent, matchItem_shift h]
      cases hr : ((s.drop i).matchItem call' v c _).outcome with
      | mismatch j => simp only [Run.shift, Outcome.shift, hr]
      | fatal e => simp only [Run.shift, Outcome.shift, hr]
      | value more =>
        rw [Run.shift_after, ← ih]
        simp only [Run.shift, Outcome.shift, hr]

theorem conclude_shift (hm : m ≤ i) (v : Variation) (start : Cursor) (data : List Value)
    (stop : Cursor) (calls : List Call) :
    s.conclude v (start.shift i m) data (stop.shift i m) (Call.shiftAll i calls) =
      ((s.drop i).conclude v start data stop calls).shift i m := by
  rw [conclude_eq, conclude_eq, settled_shift hm, Run.shift, Strategy.outcome]
  cases v.strategy.adapt data <;> rfl

/-- The furthest failure starts below all others, so it need not move before something was tried. -/
theorem readChoice_shift (h : Shifts i m call call') (hm : m ≤ i) (c : Cursor)
    {furthest moved : Nat} (hmax : ∀ j, max moved (j + i) = max furthest j + i)
    (vs : List Variation) (htried : vs ≠ [] ∨ moved = furthest + i) :
    s.readChoice call (c.shift i m) moved vs =
      ((s.drop i).readChoice call' c furthest vs).shift i m := by
  induction vs generalizing furthest moved with
  | nil =>
    rw [htried.resolve_left fun h => h rfl]
    rfl
  | cons v rest ih =>
    simp only [readChoice, read, readContent_shift h]
    cases hr : ((s.drop i).readContent call' v [] c v.content).outcome with
    | value data =>
      simp only [Run.shift, Outcome.shift, hr]
      exact conclude_shift hm v c data _ _
    | fatal e => simp only [Run.shift, Outcome.shift, hr]
    | mismatch j =>
      have hnext : ∀ k, max (max moved (j + i)) (k + i) = max (max furthest j) k + i := by
        intro k
        have hk := hmax k
        have hj := hmax j
        omega
      rw [Run.shift_after, ← ih hnext (.inr (hmax j))]
      simp only [Run.shift, Outcome.shift, hr]

/-- Rules do on the whole input what they do on the rest of it, at every depth. -/
theorem shifts_readRule (s : Setting) (hm : m ≤ i) (depth : Nat) :
    Shifts i m (s.readRule depth) ((s.drop i).readRule depth) := by
  induction depth with
  | zero =>
    intro rule c
    simp only [readRule, enter, Run.shift_record, grammar_drop]
    refine congrArg (Run.record rule _) ?_
    cases s.grammar.variationsOf rule with
    | nil => rfl
    | cons v rest =>
      simp only [abort, ParseError.atIndex, getElem?_drop]
      rfl
  | succ depth ih =>
    intro rule c
    simp only [readRule, Run.shift_record, grammar_drop]
    refine congrArg (Run.record rule _) ?_
    cases s.grammar.variationsOf rule with
    | nil => rfl
    | cons v rest =>
      have hmax : ∀ j, max 0 (j + i) = max 0 j + i := by simp
      exact readChoice_shift ih hm c hmax (v :: rest) (.inl (List.cons_ne_nil v rest))

/-! ## Evaluations -/

/-- Rules are evaluated on the whole input as on the rest of it. -/
theorem shifts_evaluate (hg : s.grammar.WellFormed) (hm : m ≤ i) (depth : Nat) :
    Shifts i m (s.evaluate depth) ((s.drop i).evaluate depth) := by
  rw [evaluate_eq_readRule hg, evaluate_eq_readRule (s := s.drop i) hg]
  exact s.shifts_readRule hm depth

theorem evaluate_eq_shift (hg : s.grammar.WellFormed) (hm : m ≤ i) (depth : Nat) (rule : String) :
    s.evaluate depth rule ⟨i, m⟩ = ((s.drop i).evaluate depth rule .origin).shift i m := by
  rw [← Cursor.shift_origin]
  exact shifts_evaluate hg hm depth rule .origin

end Setting

mutual

/-- The recorded rule did what it does alone, at the beginning of the tokens from its start on, with
`depth` levels of rules left; and so did all rules inside it. -/
def Call.Alone (s : Setting) (depth : Nat) : Call → Prop
  | .mk rule index inner outcome =>
    [.mk rule index inner outcome] =
        Call.shiftAll index ((s.drop index).evaluate depth rule .origin).calls ∧
      Call.AllAlone s (depth - 1) inner

/-- All recorded rules did what they do alone. -/
def Call.AllAlone (s : Setting) (depth : Nat) : List Call → Prop
  | [] => True
  | c :: cs => c.Alone s depth ∧ Call.AllAlone s depth cs

end

theorem Call.allAlone_iff {s : Setting} {depth : Nat} {calls : List Call} :
    Call.AllAlone s depth calls ↔ ∀ x ∈ calls, x.Alone s depth := by
  induction calls with
  | nil => simp [Call.AllAlone]
  | cons c cs ih => simp [Call.AllAlone, ih]

namespace Setting

variable {s : Setting}

/-- The evaluation of a rule leaves one record, and this is the record of the rule alone. -/
theorem alone_of_record (hg : s.grammar.WellFormed) {depth : Nat} {rule : String} {c : Cursor}
    (hc : c.Ordered) {r : Run Value} (hr : s.evaluate depth rule c = r.record rule c)
    (hinner : ∀ x ∈ r.calls, x.Alone s (depth - 1)) :
    ∀ x ∈ (s.evaluate depth rule c).calls, x.Alone s depth := by
  -- the cursor itself is what the shift makes of the origin
  have hshift := congrArg Run.calls (evaluate_eq_shift hg hc depth rule)
  rw [hr]
  refine List.forall_mem_singleton.mpr ⟨?_, Call.allAlone_iff.mpr hinner⟩
  exact (congrArg Run.calls hr).symm.trans hshift

/-- Wherever a rule is called, it and all rules inside it do what they do alone. -/
theorem records_evaluate (hg : s.grammar.WellFormed) (depth : Nat) :
    Records (fun _ => Call.Alone s depth) (s.evaluate depth) := by
  induction depth with
  | zero =>
    intro rule c hc
    refine alone_of_record hg hc rfl ?_
    rw [enter]
    split <;> exact List.forall_mem_nil _
  | succ depth ih =>
    intro rule c hc
    rw [evaluate_eq_readRule hg] at ih
    have hr := congrFun (congrFun (evaluate_eq_readRule hg (depth + 1)) rule) c
    refine alone_of_record hg hc hr ?_
    split
    · exact List.forall_mem_nil _
    · exact records_readChoice (s.steady_readRule depth) (fun _ _ h => h) ih hc 0 _

end Setting

namespace Grammar

/-- **A rule does not depend on its context**: with a built grammar, the evaluation at an index is
the evaluation at the beginning of the tokens from there on, with all indices shifted and the last
match left alone if nothing was matched. So in a parse every rule that is evaluated, also in an
alternative that is given up later, does what it does alone. -/
theorem evaluate_suffix {g : Grammar} (hg : g.Built) (tokens : List Token) (depth : Nat)
    (rule : String) :
    (∀ i m, m ≤ i →
      let r := Setting.evaluateNoted ⟨g, tokens.drop i⟩ depth rule .origin
      r.toRun = Setting.evaluate ⟨g, tokens.drop i⟩ depth rule .origin ∧
        Setting.evaluate ⟨g, tokens⟩ depth rule ⟨i, m⟩ = r.toRun.shift i m ∧
        ∀ x, r.outcome = .value x → (r.cursor.matched = 0 ↔ r.hits = [])) ∧
    Call.AllAlone ⟨g, tokens⟩ depth (Setting.evaluate ⟨g, tokens⟩ depth rule .origin).calls := by
  refine ⟨fun i m hm => ?_, ?_⟩
  · have hplain := Setting.toRun_evaluateNoted ⟨g, tokens.drop i⟩ depth rule .origin
    refine ⟨hplain, ?_, fun x hx => ?_⟩
    · rw [hplain]
      exact Setting.evaluate_eq_shift (s := ⟨g, tokens⟩) hg.wellFormed hm depth rule
    · have hfollows := (Setting.tracks_evaluateNoted (s := ⟨g, tokens.drop i⟩) False.elim depth rule
        .origin Cursor.ordered_origin).of_value hx
      rw [hfollows.matched, Cursor.origin, Hit.after_zero_eq_zero_iff]
  · exact Call.allAlone_iff.mpr
      (Setting.records_evaluate (s := ⟨g, tokens⟩) hg.wellFormed depth rule .origin
        Cursor.ordered_origin)

/-- The second sum of a list succeeds at its integer. At the separator a sum fails, and the last
match stays where the first sum left it. -/
theorem evaluate_suffix_sums :
    sums.Built ∧ 2 ≤ 4 ∧ 2 ≤ 3 ∧
      Setting.evaluate ⟨sums, shortList⟩ 9 "sum" ⟨4, 2⟩ =
        (Setting.evaluate ⟨sums, shortList.drop 4⟩ 9 "sum" .origin).shift 4 2 ∧
      (Setting.evaluate ⟨sums, shortList⟩ 9 "sum" ⟨4, 2⟩).cursor = ⟨5, 5⟩ ∧
      Setting.evaluate ⟨sums, shortList⟩ 9 "sum" ⟨3, 2⟩ =
        (Setting.evaluate ⟨sums, shortList.drop 3⟩ 9 "sum" .origin).shift 3 2 ∧
      (Setting.evaluate ⟨sums, shortList⟩ 9 "sum" ⟨3, 2⟩).cursor = ⟨3, 2⟩ := by
  obtain ⟨hshift, -⟩ := evaluate_suffix sums_built shortList 9 "sum"
  obtain ⟨hplain, heq, -⟩ := hshift 4 2 (by decide)
  obtain ⟨hplain', heq', -⟩ := hshift 3 2 (by decide)
  rw [hplain] at heq
  rw [hplain'] at heq'
  exact ⟨sums_built, by decide, by decide, heq, rfl, heq', rfl⟩

end Grammar
end TokenGrammar
