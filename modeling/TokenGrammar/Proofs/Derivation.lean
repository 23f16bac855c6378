import TokenGrammar.Proofs.Safety

/-!
# Derivations

A grammar read without priorities: a rule derives what one of its variations derives, whichever it
is. Evaluation picks one derivation, and what it consumed is what that derivation yields.

The cursor of a success may lie behind the last match, on trivia that a nested variation kept, and
an outer variation may give some of that trivia back. So the invariant is not about the final index
alone: every index from the last match up to the cursor ends a derivation, because a run of kept
trivia may be cut short.

## Main definitions

* `Grammar.Derives` and its companions: the derivations.
* `Setting.span`: the tokens between two indices.
* `Setting.Yields`: every place where a success can be cut ends a derivation.
-/
namespace TokenGrammar

/-! ## The nondeterministic grammar -/

namespace Grammar

mutual

/-- A rule derives what one of its variations derives. -/
inductive Derives (g : Grammar) : String → List Token → Prop
  | variation {v : Variation} {w : List Token} (mem : v ∈ g.variations)
      (derives : VariationDerives g v w) : Derives g v.rule w

/-- A variation derives what its items derive; one that keeps its trivia may end with some. -/
inductive VariationDerives (g : Grammar) : Variation → List Token → Prop
  | items {v : Variation} {w : List Token} (derives : ItemsDerive g v v.content w) :
      VariationDerives g v w
  | trivia {v : Variation} {w run : List Token} (derives : ItemsDerive g v v.content w)
      (keeps : v.preventRollback = true) (ignored : ∀ t ∈ run, g.ignores (some v) t = true) :
      VariationDerives g v (w ++ run)

/-- Items derive the concatenations of what each of them derives. -/
inductive ItemsDerive (g : Grammar) : Variation → Content → List Token → Prop
  | nil {v : Variation} : ItemsDerive g v [] []
  | cons {v : Variation} {i : Item} {rest : Content} {w w' : List Token}
      (head : ItemDerives g v i w) (tail : ItemsDerive g v rest w') :
      ItemsDerive g v (i :: rest) (w ++ w')

/-- A choice derives what one of its candidates derives. A loop derives full passes, and a block
loop also full passes with a proper prefix of another one. -/
inductive ItemDerives (g : Grammar) : Variation → Item → List Token → Prop
  | atom {v : Variation} {a : Atom} {w : List Token} (derives : AtomDerives g v a w) :
      ItemDerives g v (.atom a) w
  | either {v : Variation} {e : Either} {a : Atom} {w : List Token} (mem : a ∈ e.candidates)
      (derives : AtomDerives g v a w) : ItemDerives g v (.either e) w
  | loop {v : Variation} {kind : LoopKind} {body : Content} {w : List Token}
      (passes : PassesDerive g v body w) : ItemDerives g v (.loop kind body) w
  | unfinished {v : Variation} {front back : Content} {w w' : List Token}
      (passes : PassesDerive g v (front ++ back) w) (proper : back ≠ [])
      (derives : ItemsDerive g v front w') :
      ItemDerives g v (.loop .block (front ++ back)) (w ++ w')

/-- One or more full passes. -/
inductive PassesDerive (g : Grammar) : Variation → Content → List Token → Prop
  | last {v : Variation} {body : Content} {w : List Token} (pass : ItemsDerive g v body w) :
      PassesDerive g v body w
  | more {v : Variation} {body : Content} {w w' : List Token} (pass : ItemsDerive g v body w)
      (rest : PassesDerive g v body w') : PassesDerive g v body (w ++ w')

/-- A token atom derives a token that it accepts, after any run of trivia; a rule atom derives what
its rule derives. -/
inductive AtomDerives (g : Grammar) : Variation → Atom → List Token → Prop
  | token {v : Variation} {a : Atom} {run : List Token} {t : Token} (isToken : a.isRule = false)
      (ignored : ∀ u ∈ run, g.ignores (some v) u = true) (accepts : a.accepts t = true) :
      AtomDerives g v a (run ++ [t])
  | rule {v : Variation} {a : Atom} {w : List Token} (isRule : a.isRule = true)
      (derives : Derives g a.name w) : AtomDerives g v a w

end

/-- A full pass in front of a loop that derives something. -/
theorem ItemDerives.prepend {g : Grammar} {v : Variation} {kind : LoopKind} {body : Content}
    {w w' : List Token} (pass : g.ItemsDerive v body w) (h : g.ItemDerives v (.loop kind body) w') :
    g.ItemDerives v (.loop kind body) (w ++ w') := by
  cases h with
  | loop passes => exact .loop (.more pass passes)
  | unfinished passes proper derives =>
    rw [← List.append_assoc]
    exact .unfinished (.more pass passes) proper derives

/-- What a later pass derives when it gets stuck where a loop of the kind may end. -/
def TailDerives (g : Grammar) (v : Variation) (kind : LoopKind) (body : Content)
    (w : List Token) : Prop :=
  ∃ front back, body = front ++ back ∧ back ≠ [] ∧ (kind = .block ∨ front = []) ∧
    g.ItemsDerive v front w

theorem ItemDerives.ofTail {g : Grammar} {v : Variation} {kind : LoopKind} {body : Content}
    {w w' : List Token} (pass : g.ItemsDerive v body w) (h : g.TailDerives v kind body w') :
    g.ItemDerives v (.loop kind body) (w ++ w') := by
  obtain ⟨front, back, rfl, hproper, hends, hfront⟩ := h
  rcases hends with rfl | rfl
  · exact .unfinished (.last pass) hproper hfront
  · cases hfront with
    | nil =>
      rw [List.append_nil]
      exact .loop (.last pass)

end Grammar

namespace Setting

variable {s : Setting} {call : Caller} {v : Variation} {c c' : Cursor}

/-! ## Spans -/

/-- The tokens from one index up to another. -/
def span (s : Setting) (i j : Nat) : List Token := (s.tokens.drop i).take (j - i)

@[simp] theorem span_self (s : Setting) (i : Nat) : s.span i i = [] := by simp [span]

theorem span_append {i j k : Nat} (hij : i ≤ j) (hjk : j ≤ k) :
    s.span i j ++ s.span j k = s.span i k := by
  have hk : k - i = (j - i) + (k - j) := by omega
  rw [span, span, span, hk, List.take_add, List.drop_drop, Nat.add_sub_cancel' hij]

theorem span_succ {i : Nat} {t : Token} (h : s.tokens[i]? = some t) : s.span i (i + 1) = [t] := by
  rw [span, Nat.add_sub_cancel_left, List.take_one, List.head?_drop, h]
  rfl

theorem span_zero (s : Setting) (i : Nat) : s.span 0 i = s.tokens.take i := by simp [span]

/-- Between two indices with trivia throughout, the tokens are trivia. -/
theorem ignores_of_mem_span {i j : Nat} (h : ∀ k, i ≤ k → k < j → s.ignoredAt v k = true) :
    ∀ t ∈ s.span i j, s.grammar.ignores (some v) t = true := by
  intro t ht
  obtain ⟨n, hn⟩ := List.mem_iff_getElem?.mp ht
  rw [span, List.getElem?_take] at hn
  split at hn
  · next hlt =>
    rw [List.getElem?_drop] at hn
    have htrivia := h (i + n) (Nat.le_add_right _ _) (by omega)
    rw [ignoredAt, hn] at htrivia
    exact htrivia
  · cases hn

/-! ## Yields -/

/-- Every index between the last match and the cursor of a success ends something that is derived.
-/
def Yields (s : Setting) (D : List Token → Prop) (c c' : Cursor) : Prop :=
  ∀ j, c.index ≤ j → c'.matched ≤ j → j ≤ c'.index → D (s.span c.index j)

theorem Yields.imp {D D' : List Token → Prop} (h : s.Yields D c c') (himp : ∀ w, D w → D' w) :
    s.Yields D' c c' :=
  fun j hj hm hle => himp _ (h j hj hm hle)

theorem Yields.stay {D : List Token → Prop} (h : D []) : s.Yields D c c := by
  intro j hj _ hle
  rw [Nat.le_antisymm hle hj, span_self]
  exact h

/-- Two successes one after the other. A cut before the start of the second one is possible only if
that one matched nothing, and then it did not move either. -/
theorem Yields.append {D D' : List Token → Prop} {mid : Cursor} (hc : c.Ordered)
    (ha : s.Advances c mid) (h : s.Yields D c mid) (ha' : s.Advances mid c')
    (h' : s.Yields D' mid c') :
    s.Yields (fun w => ∃ u u', w = u ++ u' ∧ D u ∧ D' u') c c' := by
  intro j hj hm hle
  have hmid : mid.matched ≤ mid.index := ha.keeps_ordered hc
  by_cases hcut : mid.index ≤ j
  · have hfront := h mid.index ha.index_le hmid (Nat.le_refl _)
    exact ⟨_, _, (span_append ha.index_le hcut).symm, hfront, h' j hcut hm hle⟩
  · cases ha' with
    | matched after _ _ => omega
    | stay =>
      have hback := h' c'.index (Nat.le_refl _) hmid (Nat.le_refl _)
      rw [span_self] at hback
      exact ⟨_, [], (List.append_nil _).symm, h j hj hm (by omega), hback⟩

/-- A success that may have ended at a failing item: what it matched ends before the trivia that
this item skipped. -/
def Lands (s : Setting) (v : Variation) (D : List Token → Prop) (c c' : Cursor) : Prop :=
  ∃ mid, s.Advances c mid ∧ s.Yields D c mid ∧ s.Slides v mid c'

/-! ## Items -/

/-- A caller whose successes are derivations of the rule that was called. -/
def Sound (s : Setting) (call : Caller) : Prop :=
  ∀ rule c x, s.grammar.has rule = true → c.Ordered → (call rule c).outcome = .value x →
    s.Yields (s.grammar.Derives rule) c (call rule c).cursor

theorem yields_matchToken {a : Atom} {x : Value} (ha : a.isRule = false)
    (h : (s.matchToken v a c).outcome = .value x) :
    s.Yields (s.grammar.AtomDerives v a) c (s.matchToken v a c).cursor := by
  simp only [matchToken] at h ⊢
  split at h
  · next t ht =>
    split at h
    · next haccepts =>
      simp only [haccepts, if_true]
      -- a match ends at the cursor, so the only cut is at its end
      intro j _ hm hle
      have hj : j = s.skipTrivia v c.index + 1 := Nat.le_antisymm hle hm
      have hskip := s.le_skipTrivia v c.index
      rw [hj, ← span_append hskip (Nat.le_succ _), span_succ ht]
      refine .token ha (ignores_of_mem_span fun k hk hlt => ?_) haccepts
      exact ignoredAt_of_lt_skipTrivia hk hlt
    · cases h
  · cases h

theorem yields_matchAtom (h : s.Sound call) {a : Atom} {x : Value}
    (hdef : a.isRule = true → s.grammar.has a.name = true) (hc : c.Ordered)
    (hr : (s.matchAtom call v a c).outcome = .value x) :
    s.Yields (s.grammar.AtomDerives v a) c (s.matchAtom call v a c).cursor := by
  rw [matchAtom] at hr ⊢
  split at hr
  · next hrule =>
    rw [if_pos hrule]
    exact (h a.name c x (hdef hrule) hc hr).imp fun _ hw => .rule hrule hw
  · next htoken =>
    rw [if_neg htoken]
    exact yields_matchToken (by simpa using htoken) hr

theorem yields_matchEither (h : s.Sound call) {furthest : Nat} {candidates : List Atom}
    {more : List Value} (hdef : ∀ a ∈ candidates, a.isRule = true → s.grammar.has a.name = true)
    (hc : c.Ordered) (hr : (s.matchEither call v c furthest candidates).outcome = .value more) :
    s.Yields (fun w => ∃ a ∈ candidates, s.grammar.AtomDerives v a w) c
      (s.matchEither call v c furthest candidates).cursor := by
  induction candidates generalizing furthest with
  | nil => cases hr
  | cons a rest ih =>
    obtain ⟨ha, hrest⟩ := List.forall_mem_cons.mp hdef
    simp only [matchEither] at hr ⊢
    cases ho : (s.matchAtom call v a c).outcome with
    | value x =>
      exact (yields_matchAtom h ha hc ho).imp fun w hw => ⟨a, List.mem_cons_self, hw⟩
    | mismatch i =>
      simp only [ho] at hr ⊢
      refine (ih hrest hr).imp ?_
      rintro w ⟨b, hb, hw⟩
      exact ⟨b, List.mem_cons_of_mem _ hb, hw⟩
    | fatal e => simp [ho] at hr

/-- A matched item derives what it consumed. -/
theorem Matches.yields (h : s.Sound call) {item : Item} {more : List Value} (hp : item.Plain)
    (hdef : ∀ name ∈ item.refs, s.grammar.has name = true) (hc : c.Ordered)
    (hm : s.Matches call v item c more c') : s.Yields (s.grammar.ItemDerives v item) c c' := by
  obtain ⟨hr, rfl⟩ := hm
  cases item with
  | atom a =>
    have ha : a.isRule = true → s.grammar.has a.name = true :=
      fun hrule => hdef a.name (by simp [Item.refs, hrule])
    simp only [matchItem, matchOne] at hr ⊢
    cases ho : (s.matchAtom call v a c).outcome with
    | value x => exact (yields_matchAtom h ha hc ho).imp fun _ hw => .atom hw
    | mismatch i => simp [ho] at hr
    | fatal e => simp [ho] at hr
  | either e =>
    have ha : ∀ a ∈ e.candidates, a.isRule = true → s.grammar.has a.name = true := by
      intro a hmem hrule
      refine hdef a.name ?_
      rw [Item.refs, List.mem_map]
      exact ⟨a, List.mem_filter.mpr ⟨hmem, hrule⟩, rfl⟩
    refine (yields_matchEither h ha hc hr).imp ?_
    rintro w ⟨a, hmem, hw⟩
    exact .either hmem hw
  | loop kind body => exact hp.elim
  | foreign type text => cases hr

/-! ## Readings -/

theorem Walk.yields (hs : s.Steady call) (h : s.Sound call) {items : Content}
    {data data' : List Value} (hi : s.grammar.Resolves items) (hc : c.Ordered)
    (hw : s.Walk call v items data c data' c') : s.Yields (s.grammar.ItemsDerive v items) c c' := by
  induction hw with
  | nil => exact .stay .nil
  | cons head tail ih =>
    obtain ⟨⟨hplain, hdef⟩, hrest⟩ := List.forall_mem_cons.mp hi
    have ha := head.advances hs
    refine (Yields.append hc ha (head.yields h hplain hdef hc) (tail.advances hs)
      (ih hrest (ha.keeps_ordered hc))).imp ?_
    rintro _ ⟨u, u', rfl, hu, hu'⟩
    exact .cons hu hu'

/-- The rounds of a loop derive what the loop derives; those that follow an earlier pass may also be
the front of a pass and no more. -/
theorem Rounds.lands (hs : s.Steady call) (h : s.Sound call) {kind : LoopKind} {body : Content}
    {first : Bool} {data data' : List Value} (hi : s.grammar.Resolves body) (hc : c.Ordered)
    (hr : s.Rounds call v kind body first data c data' c') :
    s.Lands v (fun w => s.grammar.ItemDerives v (.loop kind body) w ∨
      first = false ∧ s.grammar.TailDerives v kind body w) c c' := by
  induction hr with
  | @idle _ _ _ _ c c' _ pass _ =>
    exact ⟨c', pass.advances hs, (pass.yields hs h hi hc).imp fun _ hw => .inl (.loop (.last hw)),
      .refl s v c'⟩
  | again _ pass _ _ ih =>
    have ha := pass.advances hs
    obtain ⟨stop, ha', hyields, hslides⟩ := ih (ha.keeps_ordered hc)
    refine ⟨stop, ha.trans ha', ?_, hslides⟩
    refine (Yields.append hc ha (pass.yields hs h hi hc) ha' hyields).imp ?_
    rintro _ ⟨u, u', rfl, hu, hu' | ⟨_, hu'⟩⟩
    · exact .inl (.prepend hu hu')
    · exact .inl (.ofTail hu hu')
  | @stuck _ _ _ front back item _ _ mid _ _ split ends pass failure =>
    have hfront : s.grammar.Resolves front :=
      fun i hmem => hi i (split ▸ List.mem_append_left _ hmem)
    refine ⟨mid, pass.advances hs, (pass.yields hs h hfront hc).imp fun w hw => ?_,
      (failure.slides hs).1⟩
    exact .inr ⟨rfl, front, item :: back, split, List.cons_ne_nil _ _, ends, hw⟩

theorem Completes.lands (hs : s.Steady call) (h : s.Sound call) {content : Content}
    {data data' : List Value} (hshape : content.WellShaped) (hi : s.grammar.Resolves content.items)
    (hc : c.Ordered) (hcomp : s.Completes call v content data c data' c') :
    s.Lands v (s.grammar.ItemsDerive v content) c c' := by
  induction hcomp with
  | @nil _ c => exact ⟨c, .stay, .stay .nil, .refl s v c⟩
  | loop rounds =>
    obtain ⟨rfl, _, _⟩ := Content.wellShaped_loop_iff.mp hshape
    have hbody := fun i hmem => hi i (List.mem_append_left _ hmem)
    obtain ⟨mid, ha, hyields, hslides⟩ := rounds.lands hs h hbody hc
    refine ⟨mid, ha, hyields.imp fun w hw => ?_, hslides⟩
    rcases hw with hw | ⟨hfirst, _⟩
    · rw [← List.append_nil w]
      exact .cons hw .nil
    · cases hfirst
  | item single head tail ih =>
    obtain ⟨hplain, hrest⟩ := (Content.wellShaped_cons_iff single).mp hshape
    rw [Content.items_cons single] at hi
    obtain ⟨⟨_, hdef⟩, hitems⟩ := List.forall_mem_cons.mp hi
    have ha := head.advances hs
    obtain ⟨stop, ha', hyields, hslides⟩ := ih hrest hitems (ha.keeps_ordered hc)
    refine ⟨stop, ha.trans ha', ?_, hslides⟩
    refine (Yields.append hc ha (head.yields h hplain hdef hc) ha' hyields).imp ?_
    rintro _ ⟨u, u', rfl, hu, hu'⟩
    exact .cons hu hu'

/-! ## Rules -/

/-- A variation that keeps its trivia may be cut anywhere in it; any other gives back at least what
its last item skipped, so it is cut inside what its items derive. -/
theorem yields_conclude {start stop : Cursor} {data : List Value} {calls : List Call}
    (hstart : start.Ordered) (h : s.Lands v (s.grammar.ItemsDerive v v.content) start stop) :
    s.Yields (s.grammar.VariationDerives v) start (s.conclude v start data stop calls).cursor := by
  obtain ⟨mid, ha, hyields, hslides⟩ := h
  have hmid : mid.matched ≤ mid.index := ha.keeps_ordered hstart
  have hle := ha.index_le
  have hmatched := hslides.matched_eq
  have hcursor : (s.conclude v start data stop calls).cursor =
      if v.preventRollback then stop else s.rollback v start.index stop := by
    simp only [conclude]
    split <;> rfl
  rw [hcursor]
  intro j hj hm hstop
  by_cases hcut : j ≤ mid.index
  · refine .items (hyields j hj ?_ hcut)
    split at hm
    · omega
    · simp only [rollback] at hm
      omega
  · by_cases hkeeps : v.preventRollback = true
    · rw [if_pos hkeeps] at hstop
      have hitems := hyields mid.index hle hmid (Nat.le_refl _)
      rw [← span_append hle (Nat.le_of_not_le hcut)]
      refine .trivia hitems hkeeps (ignores_of_mem_span fun k hk hlt => ?_)
      exact hslides.trivia k hk (by omega)
    · rw [if_neg hkeeps] at hstop
      have hfloor : max start.index stop.matched ≤ mid.index := by omega
      have hback := giveBack_le_of_trivia hfloor hslides.index_le hslides.trivia
      simp only [rollback] at hstop
      omega

theorem yields_readChoice (hs : s.Steady call) (h : s.Sound call) (hg : s.grammar.WellFormed)
    {start : Cursor} {furthest : Nat} {vs : List Variation} {x : Value}
    (hvs : ∀ v ∈ vs, v ∈ s.grammar.variations) (hstart : start.Ordered)
    (hr : (s.readChoice call start furthest vs).outcome = .value x) :
    s.Yields (fun w => ∃ v ∈ vs, s.grammar.VariationDerives v w) start
      (s.readChoice call start furthest vs).cursor := by
  induction vs generalizing furthest with
  | nil => cases hr
  | cons v rest ih =>
    obtain ⟨hv, hrest⟩ := List.forall_mem_cons.mp hvs
    simp only [readChoice] at hr ⊢
    cases ho : (s.read call v start).outcome with
    | value data =>
      have hshape := hg.shaped v hv
      have hitems := hg.resolves hv
      have hcomp := (s.ends_readContent call v [] start v.content).of_value ho
      exact (yields_conclude hstart (hcomp.lands hs h hshape hitems hstart)).imp
        fun w hw => ⟨v, List.mem_cons_self, hw⟩
    | mismatch i =>
      simp only [ho] at hr ⊢
      refine (ih hrest hr).imp ?_
      rintro w ⟨u, hu, hw⟩
      exact ⟨u, List.mem_cons_of_mem _ hu, hw⟩
    | fatal e => simp [ho] at hr

theorem sound_readRule (hg : s.grammar.WellFormed) (depth : Nat) : s.Sound (s.readRule depth) := by
  induction depth with
  | zero =>
    intro rule c x hdef _ hr
    rw [readRule_zero hdef] at hr
    cases hr
  | succ depth ih =>
    intro rule c x hdef hc hr
    rw [readRule_succ hdef] at hr ⊢
    have hvs : ∀ v ∈ s.grammar.variationsOf rule, v ∈ s.grammar.variations :=
      fun v hv => (Grammar.mem_variationsOf.mp hv).1
    refine (yields_readChoice (s.steady_readRule depth) ih hg hvs hc hr).imp ?_
    rintro w ⟨v, hv, hw⟩
    obtain ⟨hmem, rfl⟩ := Grammar.mem_variationsOf.mp hv
    exact .variation hmem hw

end Setting

/-! ## Parses -/

namespace Grammar

variable {g : Grammar}

/-- What the evaluation of a rule consumed from the first token on is derived by the rule. -/
theorem derives_of_evaluate (hg : g.WellFormed) {rule : String} (hr : g.has rule = true)
    {depth : Nat} {tokens : List Token} {x : Value}
    (h : (Setting.evaluate ⟨g, tokens⟩ depth rule .origin).outcome = .value x) :
    g.Derives rule
      (tokens.take (Setting.evaluate ⟨g, tokens⟩ depth rule .origin).cursor.index) := by
  rw [Setting.evaluate_eq_readRule (s := ⟨g, tokens⟩) hg] at h ⊢
  have hadvances := (Setting.steady_readRule ⟨g, tokens⟩ depth rule .origin).of_value h
  have hordered := hadvances.keeps_ordered Cursor.ordered_origin
  have hyields := Setting.sound_readRule (s := ⟨g, tokens⟩) hg depth rule .origin x hr
    Cursor.ordered_origin h
  have hspan := hyields _ (Nat.zero_le _) hordered (Nat.le_refl _)
  rwa [Cursor.origin, Setting.span_zero] at hspan

/-- **Parses are derivations**: a parse that gives a value derives the whole input, and one that is
left with trailing input derives exactly what comes before it. -/
theorem derives_of_parseRule (hg : g.Built) (limit : Int) (rule : String) (tokens : List Token) :
    (∀ x, (g.parseRule limit rule tokens).result = .ok x → g.Derives rule tokens) ∧
      ∀ e, (g.parseRule limit rule tokens).result = .error (.parse e) → e.kind = .trailingInput →
        g.Derives rule (tokens.take e.index) := by
  by_cases hr : g.has rule = true
  · have hends := endsIn_parseRule hg hr limit tokens
    refine ⟨?_, ?_⟩
    · intro x hx
      rw [hx] at hends
      cases hends with
      | value outcome cursor =>
        have hderives := derives_of_evaluate hg.wellFormed hr outcome
        rwa [cursor, List.take_length] at hderives
    · intro e he hkind
      rw [he] at hends
      cases hends with
      | trailing outcome cursor token =>
        have hderives := derives_of_evaluate hg.wellFormed hr outcome
        rwa [cursor] at hderives
      | unexpected outcome inside => cases hkind
      | depth defined inside => cases hkind
  · have hrefused : (g.parseRule limit rule tokens).result =
        .error (.config (.undefinedRule rule)) := by
      rw [parseRule, if_neg hr]
      rfl
    simp [hrefused]

/-- A list that keeps the trivia at its end, as a whole and in front of one more integer. -/
theorem derives_of_parseRule_sums :
    sums.Built ∧ sums.Derives "list" shortList ∧
      sums.Derives "list" ((shortList ++ [Token.bare "INT"]).take 6) := by
  have hwhole := (derives_of_parseRule sums_built 9 "list" shortList).1 (.token "INT" .null) rfl
  have hfront := (derives_of_parseRule sums_built 9 "list" (shortList ++ [.bare "INT"])).2
    ⟨.trailingInput, "list", 6, some (.bare "INT"), .token "INT" .null⟩ rfl rfl
  exact ⟨sums_built, hwhole, hfront⟩

end Grammar
end TokenGrammar
