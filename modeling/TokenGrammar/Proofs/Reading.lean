import TokenGrammar.Parser
import TokenGrammar.Proofs.WellFormed

/-!
# The structured reading of a grammar

What a variation matches can be said without a stack: its items are matched in order, and a loop at
its end is read pass by pass. The number of items that a pass matched before it got stuck, and
whether it is the first pass, decide what a failing item means. A loop goes on only while the passes
consume tokens, so the reading ends without a bound on its steps.

The second half takes a reading apart: a reading that succeeds is a walk over items and rounds of a
loop, and one that does not stops at an item which a walk has reached. In the other direction, items
that can be walked over and rounds that can be made are the reading.

## Main definitions

* `Setting.read`, `Setting.readRule`: the reading of a variation and of a rule.
* `Setting.Walk`: items that were matched one after the other.
* `Setting.Rounds`, `Setting.Completes`: the successful readings of a loop and of content.
-/
namespace TokenGrammar

/-- A pass over the body of a loop: how it ended, the data captured so far, and the number of items
that it matched. -/
structure Pass where
  outcome : Outcome Unit
  data : List Value
  cursor : Cursor
  calls : List Call
  items : Nat
deriving Inhabited

/-- The pass with one more item in front, whose evaluation made some calls. -/
def Pass.after (earlier : List Call) (p : Pass) : Pass :=
  { p with calls := earlier ++ p.calls, items := p.items + 1 }

/-- An outcome satisfies a property of each of its kinds. -/
inductive Outcome.Ends {α : Type} (P : α → Prop) (Q : Nat → Prop) (F : Fault → Prop) :
    Outcome α → Prop
  | value {a : α} (h : P a) : Ends P Q F (.value a)
  | mismatch {i : Nat} (h : Q i) : Ends P Q F (.mismatch i)
  | fatal {e : Fault} (h : F e) : Ends P Q F (.fatal e)

namespace Outcome.Ends

variable {α : Type} {P P' : α → Prop} {Q Q' : Nat → Prop} {F F' : Fault → Prop} {o : Outcome α}

theorem imp (h : o.Ends P Q F) (hp : ∀ a, P a → P' a) (hq : ∀ i, Q i → Q' i)
    (hf : ∀ e, F e → F' e) : o.Ends P' Q' F' := by
  cases h with
  | value h => exact .value (hp _ h)
  | mismatch h => exact .mismatch (hq _ h)
  | fatal h => exact .fatal (hf _ h)

theorem of_value (h : o.Ends P Q F) {a : α} (ho : o = .value a) : P a := by
  subst ho
  cases h with
  | value h => exact h

theorem of_mismatch (h : o.Ends P Q F) {i : Nat} (ho : o = .mismatch i) : Q i := by
  subst ho
  cases h with
  | mismatch h => exact h

theorem of_fatal (h : o.Ends P Q F) {e : Fault} (ho : o = .fatal e) : F e := by
  subst ho
  cases h with
  | fatal h => exact h

end Outcome.Ends

namespace Setting

/-! ## Readings -/

/-- The number of tokens from a cursor on. -/
def left (s : Setting) (c : Cursor) : Nat := s.tokens.length - c.index

/-- The items of a pass in order, up to the first that is not matched. -/
def readPass (s : Setting) (call : Caller) (v : Variation) (data : List Value) (c : Cursor) :
    Content → Pass
  | [] => ⟨.value (), data, c, [], 0⟩
  | item :: rest =>
    let r := s.matchItem call v c item
    match r.outcome with
    | .value more => (s.readPass call v (data ++ more) r.cursor rest).after r.calls
    | .mismatch i => ⟨.mismatch i, data, r.cursor, r.calls, 0⟩
    | .fatal e => ⟨.fatal e, data, r.cursor, r.calls, 0⟩

/-- Whether a loop may end at an item that fails: not in its first pass. In a later one a block loop
may end anywhere, and a binary loop before the first item. -/
def mayEnd (kind : LoopKind) (first : Bool) (items : Nat) : Bool :=
  !first && (kind == .block || items == 0)

/-- The passes of a loop. A pass that consumed nothing is the last one. -/
def readLoop (s : Setting) (call : Caller) (v : Variation) (kind : LoopKind) (body : Content)
    (first : Bool) (data : List Value) (c : Cursor) : Run (List Value) :=
  match enterPass v kind data with
  | .error e => ⟨.fatal (.adapt e), c, []⟩
  | .ok data =>
    let p := s.readPass call v data c body
    match p.outcome with
    | .fatal e => ⟨.fatal e, p.cursor, p.calls⟩
    | .mismatch i =>
      ⟨if mayEnd kind first p.items then .value p.data else .mismatch i, p.cursor, p.calls⟩
    | .value () =>
      if s.left p.cursor < s.left c then
        (s.readLoop call v kind body false p.data p.cursor).after p.calls
      else ⟨.value p.data, p.cursor, p.calls⟩
termination_by s.left c

/-- The items before a loop have to match, each of them; without a loop nothing else is asked. -/
def readContent (s : Setting) (call : Caller) (v : Variation) (data : List Value) (c : Cursor) :
    Content → Run (List Value)
  | [] => ⟨.value data, c, []⟩
  | .loop kind body :: _ => s.readLoop call v kind body true data c
  | item :: rest =>
    let r := s.matchItem call v c item
    match r.outcome with
    | .value more => (s.readContent call v (data ++ more) r.cursor rest).after r.calls
    | .mismatch i => ⟨.mismatch i, r.cursor, r.calls⟩
    | .fatal e => ⟨.fatal e, r.cursor, r.calls⟩

/-- The reading of a variation at a cursor. -/
def read (s : Setting) (call : Caller) (v : Variation) (c : Cursor) : Run (List Value) :=
  s.readContent call v [] c v.content

/-- The first of the variations whose reading succeeds, or the furthest failure. -/
def readChoice (s : Setting) (call : Caller) (start : Cursor) (furthest : Nat) :
    List Variation → Run Value
  | [] => ⟨.mismatch furthest, start, []⟩
  | v :: rest =>
    let r := s.read call v start
    match r.outcome with
    | .value data => s.conclude v start data r.cursor r.calls
    | .mismatch i => (s.readChoice call start (max furthest i) rest).after r.calls
    | .fatal e => ⟨.fatal e, r.cursor, r.calls⟩

/-- The reading of a rule at a cursor, with `depth` levels of rules left. -/
def readRule (s : Setting) : (depth : Nat) → Caller
  | 0, rule, c => (s.enter none rule c).record rule c
  | depth + 1, rule, c =>
    (match s.grammar.variationsOf rule with
     | [] => abort (.config (.undefinedRule rule)) c
     | vs => s.readChoice (s.readRule depth) c 0 vs).record rule c

/-- A defined rule on the last level is nested too deep. -/
theorem readRule_zero {s : Setting} {rule : String} (h : s.grammar.has rule = true) (c : Cursor) :
    s.readRule 0 rule c =
      (abort (.parse (.atIndex .depthExceeded rule s.tokens c.index)) c).record rule c := by
  have hne := Grammar.has_iff.mp h
  simp only [readRule, enter]

theorem readRule_succ {s : Setting} {rule : String} (h : s.grammar.has rule = true) (depth : Nat)
    (c : Cursor) :
    s.readRule (depth + 1) rule c =
      (s.readChoice (s.readRule depth) c 0 (s.grammar.variationsOf rule)).record rule c := by
  have hne := Grammar.has_iff.mp h
  simp only [readRule]

/-! ## Walks and rounds -/

/-- An item was matched: what it captured, and the cursor after it. -/
def Matches (s : Setting) (call : Caller) (v : Variation) (item : Item) (c : Cursor)
    (more : List Value) (c' : Cursor) : Prop :=
  (s.matchItem call v c item).outcome = .value more ∧ (s.matchItem call v c item).cursor = c'

/-- An item was not matched: the index of the failure, and the cursor after it. -/
def Fails (s : Setting) (call : Caller) (v : Variation) (item : Item) (c : Cursor)
    (index : Nat) (c' : Cursor) : Prop :=
  (s.matchItem call v c item).outcome = .mismatch index ∧ (s.matchItem call v c item).cursor = c'

/-- Items that were matched one after the other, with the captured data before and after. -/
inductive Walk (s : Setting) (call : Caller) (v : Variation) :
    Content → List Value → Cursor → List Value → Cursor → Prop
  | nil {data : List Value} {c : Cursor} : Walk s call v [] data c data c
  | cons {item : Item} {rest : Content} {data more data' : List Value} {c mid c' : Cursor}
      (head : s.Matches call v item c more mid)
      (tail : Walk s call v rest (data ++ more) mid data' c') :
      Walk s call v (item :: rest) data c data' c'

/-- The successful rounds of a loop: the last pass consumes nothing, or a pass gets stuck where the
loop may end. -/
inductive Rounds (s : Setting) (call : Caller) (v : Variation) (kind : LoopKind) (body : Content) :
    Bool → List Value → Cursor → List Value → Cursor → Prop
  | idle {first : Bool} {data folded data' : List Value} {c c' : Cursor}
      (fold : enterPass v kind data = .ok folded) (pass : s.Walk call v body folded c data' c')
      (stop : ¬ s.left c' < s.left c) : Rounds s call v kind body first data c data' c'
  | again {first : Bool} {data folded next data' : List Value} {c mid c' : Cursor}
      (fold : enterPass v kind data = .ok folded) (pass : s.Walk call v body folded c next mid)
      (progress : s.left mid < s.left c)
      (rest : Rounds s call v kind body false next mid data' c') :
      Rounds s call v kind body first data c data' c'
  | stuck {data folded data' : List Value} {front back : Content} {item : Item} {i : Nat}
      {c mid c' : Cursor} (fold : enterPass v kind data = .ok folded)
      (split : body = front ++ item :: back) (ends : kind = .block ∨ front = [])
      (pass : s.Walk call v front folded c data' mid) (failure : s.Fails call v item mid i c') :
      Rounds s call v kind body false data c data' c'

/-- The successful readings of content. -/
inductive Completes (s : Setting) (call : Caller) (v : Variation) :
    Content → List Value → Cursor → List Value → Cursor → Prop
  | nil {data : List Value} {c : Cursor} : Completes s call v [] data c data c
  | loop {kind : LoopKind} {body rest : Content} {data data' : List Value} {c c' : Cursor}
      (rounds : s.Rounds call v kind body true data c data' c') :
      Completes s call v (.loop kind body :: rest) data c data' c'
  | item {i : Item} {rest : Content} {data more data' : List Value} {c mid c' : Cursor}
      (single : ∀ kind body, i ≠ .loop kind body) (head : s.Matches call v i c more mid)
      (tail : Completes s call v rest (data ++ more) mid data' c') :
      Completes s call v (i :: rest) data c data' c'

/-- The cursors that are reached from a cursor by matching items of a list, in any order. -/
inductive Reaches (s : Setting) (call : Caller) (v : Variation) (items : List Item) (c : Cursor) :
    Cursor → Prop
  | here : Reaches s call v items c c
  | step {mid c' : Cursor} {item : Item} {more : List Value} (before : Reaches s call v items c mid)
      (mem : item ∈ items) (head : s.Matches call v item mid more c') : Reaches s call v items c c'

variable {s : Setting} {call : Caller} {v : Variation}

/-- A choice that succeeds does what one of its candidates does. -/
theorem value_matchEither {start : Cursor} {furthest : Nat} {candidates : List Atom}
    {more : List Value}
    (h : (s.matchEither call v start furthest candidates).outcome = .value more) :
    ∃ a ∈ candidates, ∃ x, (s.matchAtom call v a start).outcome = .value x ∧ captured a x = more ∧
      (s.matchAtom call v a start).cursor =
        (s.matchEither call v start furthest candidates).cursor := by
  induction candidates generalizing furthest with
  | nil => cases h
  | cons a rest ih =>
    simp only [matchEither] at h ⊢
    cases hr : (s.matchAtom call v a start).outcome with
    | value x =>
      simp only [hr, Outcome.value.injEq] at h
      exact ⟨a, List.mem_cons_self, x, hr, h, rfl⟩
    | mismatch i =>
      simp only [hr] at h
      obtain ⟨b, hb, x, hx, hmore, hcursor⟩ := ih h
      exact ⟨b, List.mem_cons_of_mem _ hb, x, hx, hmore, hcursor⟩
    | fatal e => simp [hr] at h

/-- A plain item is matched by one of its alternatives. -/
theorem Matches.alternative {item : Item} {c c' : Cursor} {more : List Value} (hp : item.Plain)
    (hm : s.Matches call v item c more c') :
    ∃ a ∈ item.alternatives, ∃ x, (s.matchAtom call v a c).outcome = .value x ∧
      captured a x = more ∧ (s.matchAtom call v a c).cursor = c' := by
  obtain ⟨hr, rfl⟩ := hm
  cases item with
  | atom a =>
    simp only [matchItem, matchOne] at hr ⊢
    cases ho : (s.matchAtom call v a c).outcome with
    | value x =>
      simp only [ho, Outcome.value.injEq] at hr
      exact ⟨a, List.mem_singleton_self a, x, ho, hr, rfl⟩
    | mismatch i => simp [ho] at hr
    | fatal e => simp [ho] at hr
  | either e => exact value_matchEither hr
  | loop kind body => exact hp.elim
  | foreign type text => cases hr

theorem Reaches.trans {items : List Item} {c₁ c₂ c₃ : Cursor} (h : s.Reaches call v items c₁ c₂)
    (h' : s.Reaches call v items c₂ c₃) : s.Reaches call v items c₁ c₃ := by
  induction h' with
  | here => exact h
  | step _ mem head ih => exact .step ih mem head

theorem Reaches.mono {items items' : List Item} {c c' : Cursor} (h : s.Reaches call v items c c')
    (hsub : items ⊆ items') : s.Reaches call v items' c c' := by
  induction h with
  | here => exact .here
  | step _ mem head ih => exact .step ih (hsub mem) head

theorem Walk.reaches {items xs : List Item} {data data' : List Value} {c c' : Cursor}
    (h : s.Walk call v xs data c data' c') (hsub : xs ⊆ items) : s.Reaches call v items c c' := by
  induction h with
  | nil => exact .here
  | cons head _ ih =>
    obtain ⟨hmem, hrest⟩ := List.cons_subset.mp hsub
    exact Reaches.trans (.step .here hmem head) (ih hrest)

/-! ## The anatomy of a reading -/

/-- The reading met an item that was not matched, and stopped there. -/
def Misses (s : Setting) (call : Caller) (v : Variation) (items : List Item) (c : Cursor)
    (index : Nat) (c' : Cursor) : Prop :=
  ∃ item ∈ items, ∃ mid, s.Reaches call v items c mid ∧ s.Fails call v item mid index c'

/-- The reading was ended by an item, or by the strategy at the start of a pass. -/
def Breaks (s : Setting) (call : Caller) (v : Variation) (items : List Item) (c : Cursor)
    (fault : Fault) : Prop :=
  (∃ item ∈ items, ∃ mid, s.Reaches call v items c mid ∧
    (s.matchItem call v mid item).outcome = .fatal fault) ∨
  ∃ captured e, v.strategy.adapt captured = .error e ∧ fault = .adapt e

theorem Misses.extend {items items' : List Item} {c mid c' : Cursor} {i : Nat}
    (h : s.Misses call v items mid i c') (hreach : s.Reaches call v items' c mid)
    (hsub : items ⊆ items') : s.Misses call v items' c i c' := by
  obtain ⟨item, hmem, stop, hstop, hfail⟩ := h
  exact ⟨item, hsub hmem, stop, hreach.trans (hstop.mono hsub), hfail⟩

theorem Breaks.extend {items items' : List Item} {c mid : Cursor} {e : Fault}
    (h : s.Breaks call v items mid e) (hreach : s.Reaches call v items' c mid)
    (hsub : items ⊆ items') : s.Breaks call v items' c e := by
  obtain ⟨item, hmem, stop, hstop, hfatal⟩ | hadapt := h
  · exact .inl ⟨item, hsub hmem, stop, hreach.trans (hstop.mono hsub), hfatal⟩
  · exact .inr hadapt

/-- A pass walks over the whole body, or up to an item that is not matched. -/
theorem ends_readPass (s : Setting) (call : Caller) (v : Variation) (data : List Value) (c : Cursor)
    (body : Content) :
    let p := s.readPass call v data c body
    p.outcome.Ends (fun _ => s.Walk call v body data c p.data p.cursor)
      (fun i => ∃ front item back mid, body = front ++ item :: back ∧ front.length = p.items ∧
        s.Walk call v front data c p.data mid ∧ s.Fails call v item mid i p.cursor)
      (fun e => s.Breaks call v body c e) := by
  induction body generalizing data c with
  | nil => exact .value .nil
  | cons item rest ih =>
    simp only [readPass]
    cases hr : (s.matchItem call v c item).outcome with
    | mismatch i => exact .mismatch ⟨[], item, rest, c, rfl, rfl, .nil, hr, rfl⟩
    | fatal e => exact .fatal (.inl ⟨item, List.mem_cons_self, c, .here, hr⟩)
    | value more =>
      have head : s.Matches call v item c more (s.matchItem call v c item).cursor := ⟨hr, rfl⟩
      have hreach := Reaches.step .here (List.mem_cons_self (l := rest)) head
      refine (ih (data ++ more) (s.matchItem call v c item).cursor).imp ?_ ?_ ?_
      · intro _ hwalk
        exact .cons head hwalk
      · rintro i ⟨front, stop, back, mid, hbody, hlen, hwalk, hfail⟩
        refine ⟨item :: front, stop, back, mid, by rw [hbody, List.cons_append], ?_,
          .cons head hwalk, hfail⟩
        rw [List.length_cons, hlen]
        rfl
      · intro e hbreak
        exact hbreak.extend hreach (List.subset_cons_self item rest)

/-- A strategy that refuses to fold breaks the reading. -/
theorem breaks_of_enterPass {kind : LoopKind} {data : List Value} {e : AdaptError}
    (h : enterPass v kind data = .error e) (items : List Item) (c : Cursor) :
    s.Breaks call v items c (.adapt e) := by
  cases kind with
  | block => cases h
  | binary =>
    rw [enterPass] at h
    cases ha : v.strategy.adapt data with
    | ok x => rw [ha] at h; cases h
    | error a =>
      rw [ha] at h
      cases h
      exact .inr ⟨data, e, ha, rfl⟩

/-- The passes before the last one only move the place where the loop ends. -/
theorem ends_readLoop (s : Setting) (call : Caller) (v : Variation) (kind : LoopKind)
    (body : Content) (first : Bool) (data : List Value) (c : Cursor) :
    let r := s.readLoop call v kind body first data c
    r.outcome.Ends (fun data' => s.Rounds call v kind body first data c data' r.cursor)
      (fun i => s.Misses call v body c i r.cursor) (fun e => s.Breaks call v body c e) := by
  fun_induction readLoop s call v kind body first data c with
  | case1 first data c e hfold => exact .fatal (breaks_of_enterPass hfold body c)
  | case2 first data c folded hfold p e hp =>
    exact .fatal ((s.ends_readPass call v folded c body).of_fatal hp)
  | case3 first data c folded hfold p i hp =>
    obtain ⟨front, item, back, mid, hbody, hlen, hwalk, hfail⟩ :=
      (s.ends_readPass call v folded c body).of_mismatch hp
    dsimp only
    split
    · next hend =>
      simp only [mayEnd, Bool.and_eq_true, Bool.not_eq_true', Bool.or_eq_true, beq_iff_eq] at hend
      obtain ⟨rfl, hend⟩ := hend
      rw [← hlen, List.length_eq_zero_iff] at hend
      exact .value (.stuck hfold hbody hend hwalk hfail)
    · have hfront : front ⊆ body := hbody ▸ List.subset_append_left _ _
      exact .mismatch ⟨item, by simp [hbody], mid, hwalk.reaches hfront, hfail⟩
  | case4 first data c folded hfold p hp hlt ih =>
    have hwalk := (s.ends_readPass call v folded c body).of_value hp
    have hreach := hwalk.reaches (List.Subset.refl body)
    refine ih.imp ?_ ?_ ?_
    · intro data' hrounds
      exact .again hfold hwalk hlt hrounds
    · intro i hmiss
      exact hmiss.extend hreach (List.Subset.refl body)
    · intro e hbreak
      exact hbreak.extend hreach (List.Subset.refl body)
  | case5 first data c folded hfold p hp hlt =>
    exact .value (.idle hfold ((s.ends_readPass call v folded c body).of_value hp) hlt)

/-- The items before a loop are walked over, and the loop makes its rounds. -/
theorem ends_readContent (s : Setting) (call : Caller) (v : Variation) (data : List Value)
    (c : Cursor) (content : Content) :
    let r := s.readContent call v data c content
    r.outcome.Ends (fun data' => s.Completes call v content data c data' r.cursor)
      (fun i => s.Misses call v content.items c i r.cursor)
      (fun e => s.Breaks call v content.items c e) := by
  fun_induction readContent s call v data c content with
  | case1 data c => exact .value .nil
  | case2 data c kind body rest =>
    have hsub : body ⊆ Content.items (.loop kind body :: rest) := List.subset_append_left _ _
    refine (s.ends_readLoop call v kind body true data c).imp ?_ ?_ ?_
    · intro data' hrounds
      exact .loop hrounds
    · intro i hmiss
      exact hmiss.extend .here hsub
    · intro e hbreak
      exact hbreak.extend .here hsub
  | case3 data c item rest hloop r more hr ih =>
    have head : s.Matches call v item c more r.cursor := ⟨hr, rfl⟩
    rw [Content.items_cons hloop]
    have hreach := Reaches.step .here (List.mem_cons_self (l := Content.items rest)) head
    refine ih.imp ?_ ?_ ?_
    · intro data' htail
      exact .item hloop head htail
    · intro i hmiss
      exact hmiss.extend hreach (List.subset_cons_self item _)
    · intro e hbreak
      exact hbreak.extend hreach (List.subset_cons_self item _)
  | case4 data c item rest hloop r i hr =>
    rw [Content.items_cons hloop]
    exact .mismatch ⟨item, List.mem_cons_self, c, .here, hr, rfl⟩
  | case5 data c item rest hloop r e hr =>
    rw [Content.items_cons hloop]
    exact .fatal (.inl ⟨item, List.mem_cons_self, c, .here, hr⟩)

/-! ## Readings put together -/

/-- After the items that were walked over, a pass goes on with the others. -/
theorem Walk.readPass_append {front : Content} {data data' : List Value} {c mid : Cursor}
    (h : s.Walk call v front data c data' mid) (back : Content) :
    let p := s.readPass call v data c (front ++ back)
    let q := s.readPass call v data' mid back
    p.outcome = q.outcome ∧ p.data = q.data ∧ p.cursor = q.cursor ∧
      p.items = front.length + q.items := by
  induction h with
  | nil => simp
  | @cons item rest data more data' c mid c' head tail ih =>
    obtain ⟨hr, rfl⟩ := head
    obtain ⟨houtcome, hdata, hcursor, hitems⟩ := ih
    simp only [List.cons_append, readPass, hr, Pass.after, List.length_cons]
    exact ⟨houtcome, hdata, hcursor, by omega⟩

/-- A body that was walked over is a finished pass. -/
theorem Walk.readPass_eq {body : Content} {data data' : List Value} {c c' : Cursor}
    (h : s.Walk call v body data c data' c') :
    let p := s.readPass call v data c body
    p.outcome = .value () ∧ p.data = data' ∧ p.cursor = c' := by
  obtain ⟨houtcome, hdata, hcursor, -⟩ := h.readPass_append []
  rw [List.append_nil] at houtcome hdata hcursor
  exact ⟨houtcome, hdata, hcursor⟩

/-- A loop that can make its rounds makes them. -/
theorem Rounds.readLoop_eq {kind : LoopKind} {body : Content} {first : Bool}
    {data data' : List Value} {c c' : Cursor}
    (h : s.Rounds call v kind body first data c data' c') :
    (s.readLoop call v kind body first data c).outcome = .value data' ∧
      (s.readLoop call v kind body first data c).cursor = c' := by
  induction h with
  | @idle first data folded data' c c' fold pass stop =>
    obtain ⟨houtcome, hdata, hcursor⟩ := pass.readPass_eq
    rw [readLoop, fold]
    simp only [houtcome, hdata, hcursor, if_neg stop]
    exact ⟨trivial, trivial⟩
  | @again first data folded next data' c mid c' fold pass progress rest ih =>
    obtain ⟨houtcome, hdata, hcursor⟩ := pass.readPass_eq
    rw [readLoop, fold]
    simp only [houtcome, hdata, hcursor, if_pos progress]
    exact ih
  | @stuck data folded data' front back item i c mid c' fold split ends pass failure =>
    obtain ⟨houtcome, hdata, hcursor, hitems⟩ := pass.readPass_append (item :: back)
    simp only [readPass, failure.1, failure.2] at houtcome hdata hcursor hitems
    have hmay : mayEnd kind false front.length = true := by
      rcases ends with rfl | rfl
      · rfl
      · cases kind <;> rfl
    rw [readLoop, fold, split]
    simp only [houtcome, hdata, hcursor, hitems, Nat.add_zero, hmay, if_true]
    exact ⟨trivial, trivial⟩

/-- Content that can be completed is. -/
theorem Completes.readContent_eq {content : Content} {data data' : List Value} {c c' : Cursor}
    (h : s.Completes call v content data c data' c') :
    (s.readContent call v data c content).outcome = .value data' ∧
      (s.readContent call v data c content).cursor = c' := by
  induction h with
  | nil => exact ⟨rfl, rfl⟩
  | loop rounds => exact rounds.readLoop_eq
  | @item i rest data more data' c mid c' single head tail ih =>
    obtain ⟨hr, rfl⟩ := head
    cases i with
    | loop kind body => exact absurd rfl (single kind body)
    | atom _ | either _ | foreign _ _ =>
      simp only [readContent, hr]
      exact ih

end Setting
end TokenGrammar
