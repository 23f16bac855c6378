import Mathlib.Data.List.TakeWhile
import TokenGrammar.Proofs.Reading

/-!
# Movements of the cursor

A reading that succeeds leaves the cursor exactly where it was, or it matched a token at or after
the start. This one alternative carries everything else: the cursor never moves back, it stays
inside the input, trivia alone is no progress, and the end of the last match never lies behind the
cursor. A failing item moves the cursor over trivia at most, and a failing rule or choice not at
all.

## Main definitions

* `Cursor.Ordered`: the last match does not lie behind the cursor.
* `Setting.Advances`: the movement of a success.
* `Setting.Slides`: the movement of an item that fails.
* `Setting.Ahead`: the places where a failure can be reported.
* `Setting.Steady`: the callers that move the cursor in these ways.
-/
namespace TokenGrammar

/-- The last match ended at the cursor or before it. -/
def Cursor.Ordered (c : Cursor) : Prop := c.matched ≤ c.index

theorem Cursor.ordered_origin : Cursor.origin.Ordered := Nat.le_refl 0

namespace Setting

variable {s : Setting} {call : Caller} {v : Variation} {c c' : Cursor}

/-! ## Trivia -/

theorem le_skipTrivia (s : Setting) (v : Variation) (i : Nat) : i ≤ s.skipTrivia v i :=
  Nat.le_add_right _ _

theorem skipTrivia_le (s : Setting) (v : Variation) (i : Nat) :
    s.skipTrivia v i ≤ max i s.tokens.length := by
  have hprefix := (List.takeWhile_prefix (s.ignored v) (l := s.tokens.drop i)).length_le
  rw [List.length_drop] at hprefix
  rw [skipTrivia]
  omega

/-- Everything that is skipped is trivia. -/
theorem ignoredAt_of_lt_skipTrivia {i k : Nat} (hk : i ≤ k) (hlt : k < s.skipTrivia v i) :
    s.ignoredAt v k = true := by
  have hbound : k - i < ((s.tokens.drop i).takeWhile (s.ignored v)).length := by
    rw [skipTrivia] at hlt
    omega
  have hmem := List.mem_takeWhile_imp (List.getElem_mem hbound)
  have hget := (List.takeWhile_prefix (s.ignored v) (l := s.tokens.drop i)).getElem hbound
  rw [hget, List.getElem_drop] at hmem
  have hlen : k < s.tokens.length := by
    have hdrop := (List.takeWhile_prefix (s.ignored v) (l := s.tokens.drop i)).length_le
    rw [List.length_drop] at hdrop
    omega
  rw [ignoredAt, List.getElem?_eq_getElem hlen]
  simpa [Nat.add_sub_cancel' hk] using hmem

/-- What comes after skipped trivia is none. -/
theorem ignored_eq_false_of_skipTrivia {i : Nat} {t : Token}
    (h : s.tokens[s.skipTrivia v i]? = some t) : s.ignored v t = false := by
  have hdrop : (s.tokens.drop i).dropWhile (s.ignored v) = s.tokens.drop (s.skipTrivia v i) := by
    rw [List.dropWhile_eq_drop_findIdx_not, List.drop_drop, skipTrivia,
      List.takeWhile_eq_take_findIdx_not, List.length_take, Nat.min_eq_left List.findIdx_le_length]
  have hhead := List.head?_dropWhile_not (s.ignored v) (s.tokens.drop i)
  rw [hdrop, List.head?_drop, h] at hhead
  simpa using hhead

theorem giveBack_le (s : Setting) (v : Variation) (floor i : Nat) : s.giveBack v floor i ≤ i := by
  induction i with
  | zero => exact Nat.le_refl _
  | succ i ih =>
    rw [giveBack]
    split
    · exact Nat.le_succ_of_le ih
    · exact Nat.le_refl _

/-- Nothing is given back below the floor. -/
theorem giveBack_of_le_floor {floor i : Nat} (h : i ≤ floor) : s.giveBack v floor i = i := by
  cases i with
  | zero => rfl
  | succ i =>
    have hfloor : ¬ floor ≤ i := by omega
    simp [giveBack, hfloor]

theorem floor_le_giveBack {floor i : Nat} (h : floor ≤ i) : floor ≤ s.giveBack v floor i := by
  induction i with
  | zero => exact h
  | succ i ih =>
    rw [giveBack]
    split
    · next hgive =>
      simp only [Bool.and_eq_true, decide_eq_true_eq] at hgive
      exact ih hgive.1
    · exact h

/-- Only trivia is given back. -/
theorem ignoredAt_of_giveBack_le {floor i k : Nat} (hk : s.giveBack v floor i ≤ k) (hlt : k < i) :
    s.ignoredAt v k = true := by
  induction i with
  | zero => omega
  | succ i ih =>
    rw [giveBack] at hk
    split at hk
    · next hgive =>
      simp only [Bool.and_eq_true, decide_eq_true_eq] at hgive
      by_cases hki : k = i
      · exact hki ▸ hgive.2
      · exact ih hk (by omega)
    · omega

/-- A stretch of trivia above the floor is given back as a whole. -/
theorem giveBack_le_of_trivia {floor m i : Nat} (hfloor : floor ≤ m) (hm : m ≤ i)
    (h : ∀ k, m ≤ k → k < i → s.ignoredAt v k = true) : s.giveBack v floor i ≤ m := by
  induction i with
  | zero => exact Nat.zero_le m
  | succ i ih =>
    by_cases hmi : m = i + 1
    · rw [hmi]
      exact s.giveBack_le v floor (i + 1)
    · have hle : m ≤ i := by omega
      have hgive : floor ≤ i ∧ s.ignoredAt v i = true := ⟨by omega, h i hle (Nat.lt_succ_self i)⟩
      rw [giveBack, if_pos (by simpa using hgive)]
      exact ih hle fun k hk hlt => h k hk (Nat.lt_succ_of_lt hlt)

/-- In an input without trivia nothing is skipped. -/
theorem skipTrivia_eq_self (h : ∀ t ∈ s.tokens, s.ignored v t = false) (i : Nat) :
    s.skipTrivia v i = i := by
  have hnone : (s.tokens.drop i).takeWhile (s.ignored v) = [] := by
    rw [List.takeWhile_eq_nil_iff]
    intro hpos
    exact Bool.eq_false_iff.mp (h _ (List.mem_of_mem_drop (List.get_mem _ _)))
  rw [skipTrivia, hnone, List.length_nil, Nat.add_zero]

/-- In an input without trivia nothing is given back. -/
theorem giveBack_eq_self (h : ∀ t ∈ s.tokens, s.ignored v t = false) (floor i : Nat) :
    s.giveBack v floor i = i := by
  cases i with
  | zero => rfl
  | succ i =>
    have hnone : s.ignoredAt v i = false := by
      rw [ignoredAt]
      split
      · next t ht => exact h t (List.mem_of_getElem? ht)
      · rfl
    simp [giveBack, hnone]

/-! ## Advances -/

/-- A cursor that did not move, or that moved past a token which was matched. -/
inductive Advances (s : Setting) (c : Cursor) : Cursor → Prop
  | stay : Advances s c c
  | matched {c' : Cursor} (after : c.index < c'.matched) (ordered : c'.matched ≤ c'.index)
      (inside : c'.index ≤ s.tokens.length) : Advances s c c'

namespace Advances

theorem trans {c₁ c₂ c₃ : Cursor} (h : s.Advances c₁ c₂) (h' : s.Advances c₂ c₃) :
    s.Advances c₁ c₃ := by
  cases h' with
  | stay => exact h
  | matched after ordered inside =>
    cases h with
    | stay => exact .matched after ordered inside
    | matched after' ordered' _ => exact .matched (by omega) ordered inside

theorem index_le (h : s.Advances c c') : c.index ≤ c'.index := by
  cases h with
  | stay => exact Nat.le_refl _
  | matched after ordered _ => omega

theorem index_le_max (h : s.Advances c c') : c'.index ≤ max c.index s.tokens.length := by
  cases h with
  | stay => exact Nat.le_max_left _ _
  | matched _ _ inside => exact Nat.le_trans inside (Nat.le_max_right _ _)

theorem inside (h : s.Advances c c') (hc : c.index ≤ s.tokens.length) :
    c'.index ≤ s.tokens.length := by
  have := h.index_le_max
  omega

theorem keeps_ordered (h : s.Advances c c') (hc : c.Ordered) : c'.Ordered := by
  cases h with
  | stay => exact hc
  | matched _ ordered _ => exact ordered

/-- Progress needs a match; trivia alone is none. -/
theorem matched_of_lt (h : s.Advances c c') (hlt : c.index < c'.index) :
    c.index < c'.matched ∧ c'.matched ≤ c'.index ∧ c'.index ≤ s.tokens.length := by
  cases h with
  | stay => omega
  | matched after ordered inside => exact ⟨after, ordered, inside⟩

/-- Fewer tokens are left exactly if the cursor moved. -/
theorem left_lt_iff (h : s.Advances c c') : s.left c' < s.left c ↔ c'.index ≠ c.index := by
  simp only [left]
  cases h with
  | stay => simp
  | matched after ordered inside => omega

end Advances

/-- An item that fails skips trivia at most, and matches nothing. -/
structure Slides (s : Setting) (v : Variation) (c c' : Cursor) : Prop where
  matched_eq : c'.matched = c.matched
  index_le : c.index ≤ c'.index
  index_le_max : c'.index ≤ max c.index s.tokens.length
  trivia : ∀ k, c.index ≤ k → k < c'.index → s.ignoredAt v k = true

theorem Slides.refl (s : Setting) (v : Variation) (c : Cursor) : s.Slides v c c :=
  ⟨rfl, Nat.le_refl _, Nat.le_max_left _ _, fun _ _ _ => by omega⟩

theorem Slides.skip (s : Setting) (v : Variation) (c : Cursor) :
    s.Slides v c ⟨s.skipTrivia v c.index, c.matched⟩ :=
  ⟨rfl, s.le_skipTrivia v _, s.skipTrivia_le v _, fun _ hk hlt => ignoredAt_of_lt_skipTrivia hk hlt⟩

/-- A slide after progress is still an advance. -/
theorem Advances.slide {mid : Cursor} (h : s.Advances c mid) (hlt : c.index < mid.index)
    (hs : s.Slides v mid c') : s.Advances c c' := by
  obtain ⟨after, ordered, inside⟩ := h.matched_of_lt hlt
  have hmatched := hs.matched_eq
  have hindex := hs.index_le
  have hmax := hs.index_le_max
  exact .matched (by omega) (by omega) (by omega)

/-- A failure is reported between the start and the end of the input. -/
def Ahead (s : Setting) (c : Cursor) (i : Nat) : Prop :=
  c.index ≤ i ∧ i ≤ max c.index s.tokens.length

theorem Ahead.of_advances {i : Nat} (h : s.Ahead c' i) (ha : s.Advances c c') : s.Ahead c i := by
  have hle := ha.index_le
  have hmax := ha.index_le_max
  exact ⟨Nat.le_trans hle h.1, Nat.le_trans h.2 (by omega)⟩

theorem Ahead.max {i j : Nat} (hi : s.Ahead c i) (hj : s.Ahead c j) : s.Ahead c (max i j) :=
  ⟨Nat.le_trans hi.1 (Nat.le_max_left _ _), Nat.max_le.mpr ⟨hi.2, hj.2⟩⟩

/-! ## Items -/

/-- A caller that advances on success and stands still on failure. -/
def Steady (s : Setting) (call : Caller) : Prop :=
  ∀ rule c, (call rule c).outcome.Ends (fun _ => s.Advances c (call rule c).cursor)
    (fun i => (call rule c).cursor = c ∧ s.Ahead c i) (fun _ => True)

theorem ends_matchToken (s : Setting) (v : Variation) (a : Atom) (c : Cursor) :
    let r := s.matchToken v a c
    r.outcome.Ends (fun _ => s.Advances c r.cursor)
      (fun i => s.Slides v c r.cursor ∧ s.Ahead c i) (fun _ => False) := by
  have hle := s.le_skipTrivia v c.index
  have hmiss : s.Slides v c ⟨s.skipTrivia v c.index, c.matched⟩ ∧
      s.Ahead c (s.skipTrivia v c.index) :=
    ⟨.skip s v c, hle, s.skipTrivia_le v c.index⟩
  dsimp only [matchToken]
  split
  · next t ht =>
    split
    · have hlt := (List.getElem?_eq_some_iff.mp ht).1
      exact .value (.matched (Nat.lt_succ_of_le hle) (Nat.le_refl _) hlt)
    · exact .mismatch hmiss
  · exact .mismatch hmiss

theorem ends_matchAtom (h : s.Steady call) (v : Variation) (a : Atom) (c : Cursor) :
    let r := s.matchAtom call v a c
    r.outcome.Ends (fun _ => s.Advances c r.cursor)
      (fun i => s.Slides v c r.cursor ∧ s.Ahead c i) (fun _ => True) := by
  dsimp only [matchAtom]
  split
  · refine (h a.name c).imp (fun _ h => h) ?_ (fun _ h => h)
    rintro i ⟨hcursor, hahead⟩
    rw [hcursor]
    exact ⟨.refl s v c, hahead⟩
  · exact (s.ends_matchToken v a c).imp (fun _ h => h) (fun _ h => h) (fun _ h => h.elim)

theorem ends_matchEither (h : s.Steady call) (v : Variation) (start : Cursor) {furthest : Nat}
    (hf : s.Ahead start furthest) (candidates : List Atom) :
    let r := s.matchEither call v start furthest candidates
    r.outcome.Ends (fun _ => s.Advances start r.cursor)
      (fun i => r.cursor = start ∧ s.Ahead start i) (fun _ => True) := by
  induction candidates generalizing furthest with
  | nil => exact .mismatch ⟨rfl, hf⟩
  | cons a rest ih =>
    have hatom := ends_matchAtom h v a start
    simp only [matchEither]
    cases hr : (s.matchAtom call v a start).outcome with
    | value x => exact .value (hatom.of_value hr)
    | mismatch i => exact ih (hf.max (hatom.of_mismatch hr).2)
    | fatal e => exact .fatal trivial

/-- The movements of an item: an advance if it is matched, a slide if it fails. -/
theorem ends_matchItem (h : s.Steady call) (v : Variation) (item : Item) (c : Cursor) :
    let r := s.matchItem call v c item
    r.outcome.Ends (fun _ => s.Advances c r.cursor)
      (fun i => s.Slides v c r.cursor ∧ s.Ahead c i) (fun _ => True) := by
  cases item with
  | atom a =>
    have hatom := ends_matchAtom h v a c
    simp only [matchItem, matchOne]
    cases hr : (s.matchAtom call v a c).outcome with
    | value x => exact .value (hatom.of_value hr)
    | mismatch i => exact .mismatch (hatom.of_mismatch hr)
    | fatal e => exact .fatal trivial
  | either e =>
    have hstart : s.Ahead c c.index := ⟨Nat.le_refl _, Nat.le_max_left _ _⟩
    refine (ends_matchEither h v c hstart e.candidates).imp (fun _ h => h) ?_ (fun _ h => h)
    rintro i ⟨hcursor, hahead⟩
    rw [matchItem, hcursor]
    exact ⟨.refl s v c, hahead⟩
  | loop kind body => exact .value .stay
  | foreign type text => exact .fatal trivial

theorem Matches.advances (h : s.Steady call) {item : Item} {more : List Value}
    (hm : s.Matches call v item c more c') : s.Advances c c' := by
  obtain ⟨hr, rfl⟩ := hm
  exact (ends_matchItem h v item c).of_value hr

theorem Fails.slides (h : s.Steady call) {item : Item} {i : Nat}
    (hf : s.Fails call v item c i c') : s.Slides v c c' ∧ s.Ahead c i := by
  obtain ⟨hr, rfl⟩ := hf
  exact (ends_matchItem h v item c).of_mismatch hr

/-! ## Readings -/

theorem Walk.advances (h : s.Steady call) {items : Content} {data data' : List Value}
    (hw : s.Walk call v items data c data' c') : s.Advances c c' := by
  induction hw with
  | nil => exact .stay
  | cons head _ ih => exact (head.advances h).trans ih

theorem Reaches.advances (h : s.Steady call) {items : List Item}
    (hr : s.Reaches call v items c c') : s.Advances c c' := by
  induction hr with
  | here => exact .stay
  | step _ _ head ih => exact ih.trans (head.advances h)

/-- A loop may stop at a failing item only after a pass that consumed something, so the slide of
that item counts as part of the advance. -/
theorem Rounds.advances (h : s.Steady call) {kind : LoopKind} {body : Content} {first : Bool}
    {data data' : List Value} {start : Cursor}
    (hr : s.Rounds call v kind body first data c data' c')
    (hstart : s.Advances start c) (hfirst : first = false → start.index < c.index) :
    s.Advances start c' := by
  induction hr with
  | idle _ pass _ => exact hstart.trans (pass.advances h)
  | again _ pass progress _ ih =>
    have hpass := pass.advances h
    have hmoved : _ ≠ _ := hpass.left_lt_iff.mp progress
    refine ih (hstart.trans hpass) ?_
    intro _
    have hle := hpass.index_le
    have hle' := hstart.index_le
    omega
  | stuck _ _ _ pass failure =>
    have hpass := pass.advances h
    have hle := hpass.index_le
    have hlt := hfirst rfl
    exact (hstart.trans hpass).slide (by omega) (failure.slides h).1

/-- The rounds of a loop never move the cursor back, wherever they begin. -/
theorem Rounds.index_le (h : s.Steady call) {kind : LoopKind} {body : Content} {first : Bool}
    {data data' : List Value} (hr : s.Rounds call v kind body first data c data' c') :
    c.index ≤ c'.index := by
  induction hr with
  | idle _ pass _ => exact (pass.advances h).index_le
  | again _ pass _ _ ih => exact Nat.le_trans (pass.advances h).index_le ih
  | stuck _ _ _ pass failure =>
    exact Nat.le_trans (pass.advances h).index_le (failure.slides h).1.index_le

theorem Completes.advances (h : s.Steady call) {content : Content} {data data' : List Value}
    (hc : s.Completes call v content data c data' c') : s.Advances c c' := by
  induction hc with
  | nil => exact .stay
  | loop rounds => exact rounds.advances h .stay (fun h => by cases h)
  | item _ head _ ih => exact (head.advances h).trans ih

/-- Where a reading that fails has come to: the failure lies ahead, and the cursor is inside. -/
theorem Misses.ahead (h : s.Steady call) {items : List Item} {i : Nat}
    (hm : s.Misses call v items c i c') : s.Ahead c i ∧ c'.index ≤ max c.index s.tokens.length := by
  obtain ⟨item, _, mid, hreach, hfail⟩ := hm
  have hadvances := hreach.advances h
  have hslides := hfail.slides h
  have hmid := hadvances.index_le_max
  have hstop := hslides.1.index_le_max
  exact ⟨hslides.2.of_advances hadvances, by omega⟩

/-- How the reading of a variation moves the cursor. -/
theorem ends_read (h : s.Steady call) (v : Variation) (c : Cursor) :
    let r := s.read call v c
    r.outcome.Ends (fun _ => s.Advances c r.cursor)
      (fun i => s.Ahead c i ∧ r.cursor.index ≤ max c.index s.tokens.length) (fun _ => True) :=
  (s.ends_readContent call v [] c v.content).imp (fun _ hc => hc.advances h)
    (fun _ hm => hm.ahead h) (fun _ _ => trivial)

/-! ## Rules -/

/-- Trivia is given back only down to the last match, so an advance stays one. -/
theorem Advances.rollback (h : s.Advances c c') (v : Variation) :
    s.Advances c (s.rollback v c.index c') := by
  cases h with
  | stay =>
    have hback : s.giveBack v (max c.index c.matched) c.index = c.index :=
      giveBack_of_le_floor (Nat.le_max_left _ _)
    rw [Setting.rollback, hback]
    exact .stay
  | matched after ordered inside =>
    have hfloor : max c.index c'.matched ≤ c'.index := by omega
    have hge := floor_le_giveBack (s := s) (v := v) hfloor
    have hle := s.giveBack_le v (max c.index c'.matched) c'.index
    exact .matched after (Nat.le_trans (Nat.le_max_right _ _) hge) (Nat.le_trans hle inside)

theorem ends_conclude {start stop : Cursor} (h : s.Advances start stop) (v : Variation)
    (data : List Value) (calls : List Call) {Q : Nat → Prop} :
    let r := s.conclude v start data stop calls
    r.outcome.Ends (fun _ => s.Advances start r.cursor) Q (fun _ => True) := by
  have hadvances :
      s.Advances start (if v.preventRollback then stop else s.rollback v start.index stop) := by
    split
    · exact h
    · exact h.rollback v
  dsimp only [conclude]
  split
  · exact .value hadvances
  · exact .fatal trivial

/-- A choice fails at the furthest failure of its variations. It starts below all of them, so the
result lies ahead of the start only if something was tried, or was tried before. -/
theorem ends_readChoice (h : s.Steady call) {start : Cursor} {furthest : Nat} {vs : List Variation}
    (hle : furthest ≤ max start.index s.tokens.length) (htried : vs ≠ [] ∨ start.index ≤ furthest) :
    let r := s.readChoice call start furthest vs
    r.outcome.Ends (fun _ => s.Advances start r.cursor)
      (fun i => r.cursor = start ∧ s.Ahead start i) (fun _ => True) := by
  induction vs generalizing furthest with
  | nil => exact .mismatch ⟨rfl, htried.resolve_left (fun h => h rfl), hle⟩
  | cons v rest ih =>
    have hread := ends_read h v start
    simp only [readChoice]
    cases hr : (s.read call v start).outcome with
    | value data => exact ends_conclude (hread.of_value hr) v data _
    | fatal e => exact .fatal trivial
    | mismatch i =>
      obtain ⟨⟨hge, hle'⟩, _⟩ := hread.of_mismatch hr
      exact ih (Nat.max_le.mpr ⟨hle, hle'⟩) (.inr (Nat.le_trans hge (Nat.le_max_right _ _)))

/-- Rules are steady, at every depth. -/
theorem steady_readRule (s : Setting) (depth : Nat) : s.Steady (s.readRule depth) := by
  induction depth with
  | zero =>
    intro rule c
    simp only [readRule, enter]
    split <;> exact .fatal trivial
  | succ depth ih =>
    intro rule c
    simp only [readRule]
    split
    · exact .fatal trivial
    · next hne => exact ends_readChoice ih (Nat.zero_le _) (.inl hne)

end Setting
end TokenGrammar
