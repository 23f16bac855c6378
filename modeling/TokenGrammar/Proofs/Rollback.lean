import TokenGrammar.Proofs.Notes
import TokenGrammar.Proofs.Safety

/-!
# Rollback is exact

Trivia that was skipped for an atom which then failed is given back, and a token that an atom
matched is not, whatever the variations around it ignore. So where no variation prevents it, a
success ends right after the last token that was matched, or where it began.

The hits of a success say how the cursor moved. They ascend, they lie between the start and the end,
and the end of the last match is the end of the last hit. If nothing prevents rollback, the cursor
is there as well, and everything before it was either hit or skipped on the way to a hit. A failing
item may push the cursor further over trivia; the invariant of an attempt is that it is nothing but
such a slide away from a place that follows the hits.

## Main definitions

* `Hit.after`: the place right after the last hit.
* `Setting.Follows`: a cursor that moved as its hits say.
* `Setting.Tracks`: the callers whose successes do so.
-/
namespace TokenGrammar

/-! ## Hits -/

namespace Hit

/-- The index right after the last hit, or the start if there is none. -/
def after (start : Nat) (hits : List Hit) : Nat := hits.getLast?.elim start (·.index + 1)

@[simp] theorem after_nil (start : Nat) : after start [] = start := rfl

@[simp] theorem after_singleton (start : Nat) (h : Hit) : after start [h] = h.index + 1 := rfl

theorem after_append (start : Nat) (xs ys : List Hit) :
    after start (xs ++ ys) = after (after start xs) ys := by
  rw [after, List.getLast?_append, after, after]
  cases ys.getLast? <;> rfl

/-- Without a hit the place is the start; otherwise it is the same for every start. -/
theorem after_cases (hits : List Hit) :
    (∀ start, after start hits = start) ∨ ∃ h ∈ hits, ∀ start, after start hits = h.index + 1 := by
  cases hl : hits.getLast? with
  | none => exact .inl fun start => by rw [after, hl, Option.elim_none]
  | some h =>
    exact .inr ⟨h, List.mem_of_getLast? hl, fun start => by rw [after, hl, Option.elim_some]⟩

/-- From the origin on, the place tells whether there was a hit. -/
theorem after_zero_eq_zero_iff {hits : List Hit} : after 0 hits = 0 ↔ hits = [] := by
  rw [after]
  cases h : hits.getLast? with
  | none => simpa using h
  | some a =>
    have hne : hits ≠ [] := by
      rintro rfl
      cases h
    simp [hne]

/-- The last of ascending hits is the furthest. -/
theorem lt_after {hits : List Hit} (hp : hits.Pairwise (·.index < ·.index)) {h : Hit}
    (hh : h ∈ hits) (start : Nat) : h.index < after start hits := by
  obtain ⟨front, last, rfl⟩ := hits.eq_nil_or_concat'.resolve_left (List.ne_nil_of_mem hh)
  rw [after_append, after_singleton]
  rcases List.mem_append.mp hh with hfront | hlast
  · have := (List.pairwise_append.mp hp).2.2 h hfront last (List.mem_singleton.mpr rfl)
    omega
  · rw [List.mem_singleton.mp hlast]
    exact Nat.lt_succ_self _

end Hit

namespace Setting

variable {s : Setting} {tight : Prop} {call : NotedCaller} {v : Variation} {c c' : Cursor}
  {hits : List Hit}

/-- The token at the place of a hit satisfies the atom that matched it. -/
def Genuine (s : Setting) (h : Hit) : Prop :=
  ∃ t, s.tokens[h.index]? = some t ∧ h.atom.accepts t = true

/-- A cursor that moved as its hits say. If rollback is tight, it stands right after the last hit,
and there is nothing before it but hits and the trivia in front of them. -/
structure Follows (s : Setting) (tight : Prop) (c : Cursor) (hits : List Hit) (c' : Cursor) :
    Prop where
  index_le : c.index ≤ c'.index
  ascending : hits.Pairwise (·.index < ·.index)
  between : ∀ h ∈ hits, c.index ≤ h.index ∧ h.index < c'.index
  genuine : ∀ h ∈ hits, s.Genuine h
  matched : c'.matched = Hit.after c.matched hits
  index : tight → c'.index = Hit.after c.index hits
  covered : tight → ∀ k, c.index ≤ k → k < c'.index →
    ∃ h ∈ hits, k = h.index ∨ k < h.index ∧ s.ignoredAt h.variation k = true

namespace Follows

theorem refl (s : Setting) (tight : Prop) (c : Cursor) : s.Follows tight c [] c where
  index_le := Nat.le_refl _
  ascending := .nil
  between := List.forall_mem_nil _
  genuine := List.forall_mem_nil _
  matched := rfl
  index _ := rfl
  covered _ k hk hlt := by omega

theorem trans {mid : Cursor} {hits' : List Hit} (h : s.Follows tight c hits mid)
    (h' : s.Follows tight mid hits' c') : s.Follows tight c (hits ++ hits') c' where
  index_le := Nat.le_trans h.index_le h'.index_le
  ascending := by
    refine List.pairwise_append.mpr ⟨h.ascending, h'.ascending, fun a ha b hb => ?_⟩
    exact Nat.lt_of_lt_of_le (h.between a ha).2 (h'.between b hb).1
  between := by
    intro a ha
    rcases List.mem_append.mp ha with ha | ha
    · exact ⟨(h.between a ha).1, Nat.lt_of_lt_of_le (h.between a ha).2 h'.index_le⟩
    · exact ⟨Nat.le_trans h.index_le (h'.between a ha).1, (h'.between a ha).2⟩
  genuine := List.forall_mem_append.mpr ⟨h.genuine, h'.genuine⟩
  matched := by rw [h'.matched, h.matched, Hit.after_append]
  index ht := by rw [h'.index ht, h.index ht, Hit.after_append]
  covered ht k hk hlt := by
    by_cases hmid : k < mid.index
    · obtain ⟨a, ha, hcover⟩ := h.covered ht k hk hmid
      exact ⟨a, List.mem_append_left _ ha, hcover⟩
    · obtain ⟨a, ha, hcover⟩ := h'.covered ht k (Nat.le_of_not_lt hmid) hlt
      exact ⟨a, List.mem_append_right _ ha, hcover⟩

theorem keeps_ordered (h : s.Follows tight c hits c') (hc : c.Ordered) : c'.Ordered := by
  rw [Cursor.Ordered, h.matched]
  rcases Hit.after_cases hits with hnone | ⟨a, ha, hlast⟩
  · rw [hnone]
    exact Nat.le_trans hc h.index_le
  · rw [hlast]
    exact (h.between a ha).2

/-- The cursor may leave the place of the last hit, as long as it stays behind the last match. -/
theorem move {stop : Cursor} (h : s.Follows tight c hits c') (hmatched : stop.matched = c'.matched)
    (hle : c.index ≤ stop.index) (hfloor : stop.matched ≤ stop.index)
    (htight : tight → stop.index = c'.index) : s.Follows tight c hits stop where
  index_le := hle
  ascending := h.ascending
  between a ha := by
    have hlt := Hit.lt_after h.ascending ha c.matched
    rw [← h.matched, ← hmatched] at hlt
    exact ⟨(h.between a ha).1, Nat.lt_of_lt_of_le hlt hfloor⟩
  genuine := h.genuine
  matched := hmatched.trans h.matched
  index ht := (htight ht).trans (h.index ht)
  covered ht k hk hlt := h.covered ht k hk (htight ht ▸ hlt)

end Follows

/-! ## Items -/

/-- A caller whose successes follow their hits, and whose failures stand still. -/
def Tracks (s : Setting) (tight : Prop) (call : NotedCaller) : Prop :=
  ∀ rule c, c.Ordered → (call rule c).outcome.Ends
    (fun _ => s.Follows tight c (call rule c).hits (call rule c).cursor)
    (fun _ => (call rule c).cursor = c) (fun _ => True)

theorem follows_matchTokenNoted (s : Setting) (tight : Prop) (v : Variation) (a : Atom)
    (c : Cursor) :
    let r := s.matchTokenNoted v a c
    r.outcome.Ends (fun _ => s.Follows tight c r.hits r.cursor) (fun _ => s.Slides v c r.cursor)
      (fun _ => False) := by
  have hskip := s.le_skipTrivia v c.index
  have hmiss : s.Slides v c ⟨s.skipTrivia v c.index, c.matched⟩ := .skip s v c
  simp only [matchTokenNoted, matchToken]
  cases ht : s.tokens[s.skipTrivia v c.index]? with
  | none => exact .mismatch hmiss
  | some t =>
    by_cases haccepts : a.accepts t = true
    · simp only [haccepts, if_true]
      refine .value ⟨Nat.le_succ_of_le hskip, List.pairwise_singleton _ _, ?_, ?_, rfl,
        fun _ => rfl, ?_⟩
      · simpa using hskip
      · simpa [Genuine] using ⟨t, ht, haccepts⟩
      · intro _ k hk hlt
        refine ⟨_, List.mem_singleton.mpr rfl, ?_⟩
        rcases Nat.lt_succ_iff_lt_or_eq.mp hlt with hlt | heq
        · exact .inr ⟨hlt, ignoredAt_of_lt_skipTrivia hk hlt⟩
        · exact .inl heq
    · simp only [haccepts]
      exact .mismatch hmiss

theorem follows_matchAtomNoted (h : s.Tracks tight call) (v : Variation) (a : Atom)
    (hc : c.Ordered) :
    let r := s.matchAtomNoted call v a c
    r.outcome.Ends (fun _ => s.Follows tight c r.hits r.cursor) (fun _ => s.Slides v c r.cursor)
      (fun _ => True) := by
  dsimp only [matchAtomNoted]
  split
  · refine (h a.name c hc).imp (fun _ h => h) ?_ (fun _ h => h)
    intro i hcursor
    rw [hcursor]
    exact .refl s v c
  · exact (s.follows_matchTokenNoted tight v a c).imp (fun _ h => h) (fun _ h => h)
      (fun _ h => h.elim)

theorem follows_tryNoted (h : s.Tracks tight call) (v : Variation) {start : Cursor}
    (hc : start.Ordered) (furthest : Nat) (candidates : List Atom) :
    let r := s.tryNoted call v start furthest candidates
    r.outcome.Ends (fun _ => s.Follows tight start r.hits r.cursor) (fun _ => r.cursor = start)
      (fun _ => True) := by
  induction candidates generalizing furthest with
  | nil => exact .mismatch rfl
  | cons a rest ih =>
    have hatom := follows_matchAtomNoted h v a hc
    simp only [tryNoted]
    cases hr : (s.matchAtomNoted call v a start).outcome with
    | value x => exact .value (hatom.of_value hr)
    | mismatch i => exact ih _
    | fatal e => exact .fatal trivial

theorem follows_matchItemNoted (h : s.Tracks tight call) (v : Variation) (item : Item)
    (hc : c.Ordered) :
    let r := s.matchItemNoted call v c item
    r.outcome.Ends (fun _ => s.Follows tight c r.hits r.cursor) (fun _ => s.Slides v c r.cursor)
      (fun _ => True) := by
  cases item with
  | atom a =>
    have hatom := follows_matchAtomNoted h v a hc
    simp only [matchItemNoted]
    cases hr : (s.matchAtomNoted call v a c).outcome with
    | value x => exact .value (hatom.of_value hr)
    | mismatch i => exact .mismatch (hatom.of_mismatch hr)
    | fatal e => exact .fatal trivial
  | either e =>
    refine (follows_tryNoted h v hc c.index e.candidates).imp (fun _ h => h) ?_ (fun _ h => h)
    intro i hcursor
    simp only [matchItemNoted, matchEitherNoted, Noted.noting, hcursor]
    exact .refl s v c
  | loop kind body => exact .value (.refl s tight c)
  | foreign type text => exact .fatal trivial

/-! ## Attempts -/

/-- The end of an attempt: a place that follows the hits, and from there a slide over the trivia
that a failing item skipped. -/
def Trails (s : Setting) (tight : Prop) (v : Variation) (c : Cursor) (hits : List Hit)
    (c' : Cursor) : Prop :=
  ∃ mid, s.Follows tight c hits mid ∧ s.Slides v mid c'

theorem Trails.prepend {mid : Cursor} {hits' : List Hit} (h : s.Follows tight c hits mid)
    (h' : s.Trails tight v mid hits' c') : s.Trails tight v c (hits ++ hits') c' := by
  obtain ⟨stop, hfollows, hslides⟩ := h'
  exact ⟨stop, h.trans hfollows, hslides⟩

/-- One step of the machine adds the hits of one item; the last item may fail and slide. -/
theorem trails_driveNoted (h : s.Tracks tight call) (steps : Nat) (frames : List Frame)
    (data : List Value) (completed : Bool) (hc : c.Ordered) :
    let r := s.driveNoted call v steps frames data completed c
    r.outcome.Ends (fun _ => s.Trails tight v c r.hits r.cursor) (fun _ => True)
      (fun _ => True) := by
  have hstay : ∀ c, s.Trails tight v c [] c := fun c => ⟨c, .refl s tight c, .refl s v c⟩
  fun_induction driveNoted s call v steps frames data completed c with
  | case1 | case2 | case3 => exact .value (hstay _)
  | case4 => exact .fatal trivial
  | case5 steps f below data completed c kind body tail hrest folded hfold ih => exact ih hc
  | case6 => exact .fatal trivial
  | case7 steps f below data completed c item rest hitem hrest r last i hr =>
    have hslides := (follows_matchItemNoted h v item hc).of_mismatch hr
    dsimp only [Noted.ending, Noted.giveUp, settle]
    split
    · exact .value ⟨c, .refl s tight c, hslides⟩
    · exact .mismatch trivial
  | case8 steps f below data completed c item rest hitem hrest r last more hr hlast hidle =>
    have hfollows := (follows_matchItemNoted h v item hc).of_value hr
    exact .value ⟨r.cursor, hfollows, .refl s v r.cursor⟩
  | case9 steps f below data completed c item rest hitem hrest r last more hr hlast hidle ih =>
    have hfollows := (follows_matchItemNoted h v item hc).of_value hr
    exact (ih (hfollows.keeps_ordered hc)).imp (fun _ htrails => htrails.prepend hfollows)
      (fun _ _ => trivial) (fun _ _ => trivial)
  | case10 steps f below data completed c item rest hitem hrest r more hr hlast ih =>
    have hfollows := (follows_matchItemNoted h v item hc).of_value hr
    exact (ih (hfollows.keeps_ordered hc)).imp (fun _ htrails => htrails.prepend hfollows)
      (fun _ _ => trivial) (fun _ _ => trivial)

/-! ## Rules -/

/-- The way back from the end of an attempt. It does not pass the last match; and where the place
before the slide is tight, it is that place to which the way back leads, because everything after it
is trivia and the last match or the start lies right there. -/
theorem Trails.settled {stop : Cursor} (h : s.Trails tight v c hits stop) (hc : c.Ordered)
    (hv : tight → v.preventRollback = false) :
    s.Follows tight c hits (s.settled v c stop) := by
  obtain ⟨mid, hfollows, hslides⟩ := h
  have hmid : mid.matched ≤ mid.index := hfollows.keeps_ordered hc
  have hmatched := hslides.matched_eq
  have hle := hfollows.index_le
  have hslide := hslides.index_le
  rw [Setting.settled]
  split
  · next hprevents =>
    refine hfollows.move hmatched (by omega) (by omega) fun ht => ?_
    rw [hv ht] at hprevents
    cases hprevents
  · have hfloor : max c.index stop.matched ≤ stop.index := by omega
    have hge := floor_le_giveBack (s := s) (v := v) hfloor
    refine hfollows.move hmatched ?_ ?_ fun ht => ?_
    · exact Nat.le_trans (Nat.le_max_left _ _) hge
    · exact Nat.le_trans (Nat.le_max_right _ _) hge
    · have hback : s.giveBack v (max c.index stop.matched) stop.index ≤ mid.index :=
        giveBack_le_of_trivia (by omega) hslide hslides.trivia
      have hindex := hfollows.index ht
      have hmark := hfollows.matched
      simp only [rollback]
      rcases Hit.after_cases hits with hnone | ⟨a, _, hlast⟩
      · rw [hnone] at hindex
        omega
      · rw [hlast] at hindex hmark
        omega

theorem follows_chooseNoted (h : s.Tracks tight call) (steps : Variation → Nat) {start : Cursor}
    (hc : start.Ordered) (furthest : Nat) {vs : List Variation} (hvs : tight → ∀ v ∈ vs, v.preventRollback = false) :
    let r := s.chooseNoted call steps start furthest vs
    r.outcome.Ends (fun _ => s.Follows tight start r.hits r.cursor) (fun _ => r.cursor = start)
      (fun _ => True) := by
  induction vs generalizing furthest with
  | nil => exact .mismatch rfl
  | cons v rest ih =>
    have hattempt :=
      trails_driveNoted h (v := v) (steps v) [⟨.top, v.content, 0⟩] [] false hc
    simp only [chooseNoted]
    cases hr : (s.attemptNoted call (steps v) v start).outcome with
    | value data =>
      have hfollows := (hattempt.of_value hr).settled hc fun ht => hvs ht v List.mem_cons_self
      simp only [concludeNoted, conclude_eq, Strategy.outcome]
      cases v.strategy.adapt data with
      | ok x => exact .value hfollows
      | error e => exact .fatal trivial
    | mismatch i => exact ih _ fun ht u hu => hvs ht u (List.mem_cons_of_mem _ hu)
    | fatal e => exact .fatal trivial

/-- Rules follow their hits at every depth, and tightly so if no variation prevents rollback. -/
theorem tracks_evaluateNoted
    (hroll : tight → ∀ v ∈ s.grammar.variations, v.preventRollback = false) (depth : Nat) :
    s.Tracks tight (s.evaluateNoted depth) := by
  induction depth with
  | zero =>
    intro rule c _
    simp only [evaluateNoted, enterNoted]
    split <;> exact .fatal trivial
  | succ depth ih =>
    intro rule c hc
    simp only [evaluateNoted, enterNoted]
    split
    · exact .fatal trivial
    · exact follows_chooseNoted ih _ hc 0 fun ht v hv => hroll ht v (Grammar.mem_variationsOf.mp hv).1

end Setting

/-! ## Parses -/

namespace Grammar

variable {g : Grammar}

/-- A success that is not the whole input ends where the trailing input begins. -/
theorem trailing_of_parseRule (hg : g.Built) {limit : Int} {rule : String} {tokens : List Token}
    {e : ParseError} (he : (g.parseRule limit rule tokens).result = .error (.parse e))
    (hkind : e.kind = .trailingInput) :
    ∃ x, (Setting.evaluate ⟨g, tokens⟩ (effectiveDepth limit) rule .origin).outcome = .value x ∧
      (Setting.evaluate ⟨g, tokens⟩ (effectiveDepth limit) rule .origin).cursor.index =
        e.index := by
  by_cases hr : g.has rule = true
  · have hends := endsIn_parseRule hg hr limit tokens
    rw [he] at hends
    cases hends with
    | @trailing x _ _ outcome cursor _ => exact ⟨x, outcome, cursor⟩
    | unexpected _ _ => cases hkind
    | depth _ _ => cases hkind
  · rw [parseRule, if_neg hr] at he
    cases he

/-- **Rollback is exact**: if no variation prevents it, whatever the variations ignore, a success
ends right after the last token that it matched, or where it began. All its hits stay consumed,
those of nested rules included, and what it consumed besides was skipped in front of a hit. So
trailing input begins right after the last hit. -/
theorem evaluate_ends_after_last_hit (hg : g.Built)
    (hroll : ∀ v ∈ g.variations, v.preventRollback = false) (tokens : List Token) :
    (∀ (depth : Nat) (rule : String) (c : Cursor), c.Ordered →
      let r := Setting.evaluateNoted ⟨g, tokens⟩ depth rule c
      r.toRun = Setting.evaluate ⟨g, tokens⟩ depth rule c ∧ ∀ x, r.outcome = .value x →
        r.cursor.index = Hit.after c.index r.hits ∧
        (∀ h ∈ r.hits, c.index ≤ h.index ∧ h.index < r.cursor.index ∧
          Setting.Genuine ⟨g, tokens⟩ h) ∧
        ∀ k, c.index ≤ k → k < r.cursor.index → ∃ h ∈ r.hits,
          k = h.index ∨ k < h.index ∧ Setting.ignoredAt ⟨g, tokens⟩ h.variation k = true) ∧
    ∀ (limit : Int) (rule : String) (e : ParseError),
      (g.parseRule limit rule tokens).result = .error (.parse e) → e.kind = .trailingInput →
      e.index = Hit.after 0
        (Setting.evaluateNoted ⟨g, tokens⟩ (effectiveDepth limit) rule .origin).hits := by
  have hfollows : ∀ (depth : Nat) (rule : String) (c : Cursor) (x : Value), c.Ordered →
      (Setting.evaluateNoted ⟨g, tokens⟩ depth rule c).outcome = .value x →
      Setting.Follows ⟨g, tokens⟩ True c (Setting.evaluateNoted ⟨g, tokens⟩ depth rule c).hits
        (Setting.evaluateNoted ⟨g, tokens⟩ depth rule c).cursor := by
    intro depth rule c x hc hx
    have htracks : Setting.Tracks ⟨g, tokens⟩ True (Setting.evaluateNoted ⟨g, tokens⟩ depth) :=
      Setting.tracks_evaluateNoted (fun _ => hroll) depth
    exact (htracks rule c hc).of_value hx
  refine ⟨?_, ?_⟩
  · intro depth rule c hc
    refine ⟨Setting.toRun_evaluateNoted _ depth rule c, fun x hx => ?_⟩
    have h := hfollows depth rule c x hc hx
    refine ⟨h.index trivial, fun a ha => ?_, h.covered trivial⟩
    exact ⟨(h.between a ha).1, (h.between a ha).2, h.genuine a ha⟩
  · intro limit rule e he hkind
    obtain ⟨x, houtcome, hcursor⟩ := trailing_of_parseRule hg he hkind
    rw [← Setting.toRun_evaluateNoted] at houtcome hcursor
    rw [← hcursor]
    exact (hfollows _ rule .origin x Cursor.ordered_origin houtcome).index trivial

/-- A page of items, where line ends are trivia. -/
def pageVariation : Variation := ⟨"page", [.atom (.rule "items")], .pass, none, false⟩

/-- Items with a line end after each; here line ends count. -/
def itemsVariation : Variation :=
  ⟨"items", [.loop .block [.atom (.token "ITEM"), .atom (Atom.token "NL").skipped]], .pass,
    some [], false⟩

/-- Pages of items. -/
def pages : Grammar := ⟨"page", [.token "NL"], [pageVariation, itemsVariation]⟩

theorem pages_built : pages.Built := by
  refine ⟨[.ignoreGlobally [.item (.atom (.token "NL"))], .startFrom "page"] ++
    variationSteps 0 pageVariation ++
    Builder.chainSteps 1 "items" (some (itemsVariation.content.map .item)) none none (some []) false
      (some .pass), ?_⟩
  rfl

/-- Two items, the second with one line end too many. -/
def twoItems : List Token :=
  [.bare "ITEM", .bare "NL", .bare "ITEM", .bare "NL", .bare "NL"]

/-- The line end after the second item was matched by a nested rule and stays consumed, although it
is trivia for the page; the next one is trailing input. -/
theorem evaluate_ends_after_last_hit_pages :
    pages.Built ∧ (∀ v ∈ pages.variations, v.preventRollback = false) ∧
      (Setting.evaluateNoted ⟨pages, twoItems⟩ 9 "page" .origin).cursor.index =
        Hit.after 0 (Setting.evaluateNoted ⟨pages, twoItems⟩ 9 "page" .origin).hits ∧
      4 = Hit.after 0 (Setting.evaluateNoted ⟨pages, twoItems⟩ 9 "page" .origin).hits := by
  have hroll : ∀ v ∈ pages.variations, v.preventRollback = false := by
    simp [pages, pageVariation, itemsVariation]
  obtain ⟨hevaluate, hparse⟩ := evaluate_ends_after_last_hit pages_built hroll twoItems
  have hindex := ((hevaluate 9 "page" .origin Cursor.ordered_origin).2 (.token "ITEM" .null) rfl).1
  have htrailing := hparse 9 "page"
    ⟨.trailingInput, "page", 4, some (.bare "NL"), .token "ITEM" .null⟩ rfl rfl
  exact ⟨pages_built, hroll, hindex, htrailing⟩

end Grammar
end TokenGrammar
