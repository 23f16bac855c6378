import TokenGrammar.Proofs.Depth
import TokenGrammar.Proofs.Reach

/-!
# Grammars without left recursion

A rule that calls another one before a token was matched calls it where it began itself. If no
rule comes back to itself in this way, the rules that are active at one place of the input are
different from each other, so no parse nests deeper than the number of rules times the number of
places.

Which rules may match nothing is read off the grammar, as a least fixpoint. The evaluation agrees: a
rule that succeeds and leaves the cursor where it was is nullable, since the trivia that a variation
gives back never reaches down to a match. So a call that is made where its caller began stands
behind nullable items only, and every other call is made further on, also in a later pass of a loop.

## Main definitions

* `Grammar.Nullable`: the rules that may match nothing.
* `Grammar.LeftCalls`: the calls that may be made where the caller began.
* `Grammar.leftReach`: the rules that a rule leads to by such calls.
* `Setting.Aborts`: the ends of a reading by a fault, with what came before it.
-/
namespace TokenGrammar

/-! ## Left calls -/

namespace Grammar

mutual

/-- A rule may match nothing if one of its variations consists of items that may, those of its loop
included. -/
inductive Nullable (g : Grammar) : String → Prop
  | variation {v : Variation} (mem : v ∈ g.variations)
      (items : ∀ i ∈ v.content.items, NullableItem g i) : Nullable g v.rule

/-- An item may match nothing if it is a rule that may, or has such a rule as a candidate. -/
inductive NullableItem (g : Grammar) : Item → Prop
  | alternative {i : Item} {a : Atom} (mem : a ∈ i.alternatives) (isRule : a.isRule = true)
      (rule : Nullable g a.name) : NullableItem g i

end

/-- A rule refers to another one in a variation in which only items that may match nothing stand
before it. -/
def LeftCalls (g : Grammar) (rule name : String) : Prop :=
  ∃ v ∈ g.variationsOf rule, ∃ front item back, v.content.items = front ++ item :: back ∧
    (∀ i ∈ front, g.NullableItem i) ∧ name ∈ item.refs

variable {g : Grammar}

/-- The rules that a rule leads to by left calls, itself included. -/
noncomputable def leftReach (g : Grammar) (rule : String) : Finset String :=
  reach g.LeftCalls g.ruleNames.toFinset rule

theorem card_leftReach_pos {rule : String} (hr : g.has rule = true) :
    0 < (g.leftReach rule).card :=
  card_reach_pos (List.mem_toFinset.mpr (mem_ruleNames.mpr hr))

theorem card_leftReach_le (g : Grammar) (rule : String) :
    (g.leftReach rule).card ≤ g.ruleNames.toFinset.card :=
  card_reach_le _ _ rule

/-- Without left recursion, a rule leads to more rules than one that it calls. -/
theorem card_leftReach_lt (hacyclic : ∀ r, ¬ Relation.TransGen g.LeftCalls r r)
    {rule name : String} (hr : g.has rule = true) (hcall : g.LeftCalls rule name) :
    (g.leftReach name).card < (g.leftReach rule).card :=
  card_reach_lt hacyclic (List.mem_toFinset.mpr (mem_ruleNames.mpr hr)) hcall

end Grammar

namespace Setting

variable {s : Setting} {call : Caller} {v : Variation} {c c' : Cursor}

/-! ## Successes that match nothing -/

theorem Advances.eq_of_index (h : s.Advances c c') (hindex : c'.index = c.index) : c' = c := by
  cases h with
  | stay => rfl
  | matched after ordered _ => omega

/-- On the way from a cursor to another one at the same index, nothing moved. -/
theorem Advances.eq_of_between {mid : Cursor} (h : s.Advances c mid) (h' : s.Advances mid c')
    (hindex : c'.index = c.index) : mid = c := by
  have hle := h.index_le
  have hle' := h'.index_le
  exact h.eq_of_index (by omega)

/-- An item is matched without moving the cursor. -/
def Idles (s : Setting) (call : Caller) (v : Variation) (c : Cursor) (item : Item) : Prop :=
  ∃ more, s.Matches call v item c more c

/-- A walk that ends where it began is idle at every item, since the cursor never moves back. -/
theorem Walk.idles (h : s.Steady call) {items : Content} {data data' : List Value}
    (hw : s.Walk call v items data c data' c') (hindex : c'.index = c.index) :
    ∀ i ∈ items, s.Idles call v c i := by
  induction hw with
  | nil => exact List.forall_mem_nil _
  | cons head tail ih =>
    obtain rfl := (head.advances h).eq_of_between (tail.advances h) hindex
    exact List.forall_mem_cons.mpr ⟨⟨_, head⟩, ih hindex⟩

/-- A loop that ends where it began made one pass, and was idle at every item of it. -/
theorem Rounds.idles (h : s.Steady call) {kind : LoopKind} {body : Content}
    {data data' : List Value} (hr : s.Rounds call v kind body true data c data' c')
    (hindex : c'.index = c.index) : ∀ i ∈ body, s.Idles call v c i := by
  cases hr with
  | idle _ pass _ => exact pass.idles h hindex
  | again _ pass progress rest =>
    have hpass := pass.advances h
    have hmoved := hpass.left_lt_iff.mp progress
    have hle := hpass.index_le
    have hle' := rest.index_le h
    omega

theorem Completes.idles (h : s.Steady call) {content : Content} {data data' : List Value}
    (hshape : content.WellShaped) (hc : s.Completes call v content data c data' c')
    (hindex : c'.index = c.index) : ∀ i ∈ content.items, s.Idles call v c i := by
  induction hc with
  | nil => exact List.forall_mem_nil _
  | loop rounds =>
    obtain ⟨rfl, _, _⟩ := Content.wellShaped_loop_iff.mp hshape
    rw [Content.items, Content.items, List.append_nil]
    exact rounds.idles h hindex
  | item single head tail ih =>
    obtain ⟨_, hrest⟩ := (Content.wellShaped_cons_iff single).mp hshape
    obtain rfl := (head.advances h).eq_of_between (tail.advances h) hindex
    rw [Content.items_cons single]
    exact List.forall_mem_cons.mpr ⟨⟨_, head⟩, ih hrest hindex⟩

/-- A caller that leaves the cursor where it was only after a success of a nullable rule. -/
def Spends (s : Setting) (call : Caller) : Prop :=
  ∀ rule c x, (call rule c).outcome = .value x → (call rule c).cursor.index = c.index →
    s.grammar.Nullable rule

theorem lt_of_matchToken {a : Atom} {x : Value} (h : (s.matchToken v a c).outcome = .value x) :
    c.index < (s.matchToken v a c).cursor.index := by
  simp only [matchToken] at h ⊢
  split at h
  · split at h
    · next haccepts =>
      rw [if_pos haccepts]
      exact Nat.lt_succ_of_le (s.le_skipTrivia v c.index)
    · cases h
  · cases h

/-- Tokens are never matched in place, so an idle item has a nullable rule as an alternative. -/
theorem Idles.nullable (h : s.Spends call) {item : Item} (hp : item.Plain)
    (hi : s.Idles call v c item) : s.grammar.NullableItem item := by
  obtain ⟨more, hm⟩ := hi
  obtain ⟨a, hmem, x, hx, -, hcursor⟩ := hm.alternative hp
  by_cases hrule : a.isRule = true
  · rw [matchAtom, if_pos hrule] at hx hcursor
    exact .alternative hmem hrule (h a.name c x hx (congrArg Cursor.index hcursor))
  · rw [matchAtom, if_neg hrule] at hx hcursor
    have hlt := lt_of_matchToken hx
    rw [hcursor] at hlt
    exact absurd hlt (Nat.lt_irrefl _)

/-- Giving back trivia does not undo a match. -/
theorem Advances.index_of_settled {start stop : Cursor} (h : s.Advances start stop)
    (hindex : (s.settled v start stop).index = start.index) : stop.index = start.index := by
  cases h with
  | stay => rfl
  | matched after ordered _ =>
    rw [settled] at hindex
    split at hindex
    · exact hindex
    · have hfloor : max start.index stop.matched ≤ stop.index := by omega
      have hback : max start.index stop.matched ≤ (s.rollback v start.index stop).index :=
        floor_le_giveBack hfloor
      omega

/-- A rule that succeeds in place is nullable. The induction is on the levels left: the variation
that succeeded was idle at all of its items. -/
theorem spends_readRule (hg : s.grammar.WellFormed) (depth : Nat) :
    s.Spends (s.readRule depth) := by
  induction depth with
  | zero =>
    intro rule c x hx _
    exact absurd hx (readRule_zero_ne_value rule c x)
  | succ depth ih =>
    intro rule c x hx hindex
    have hsteady := s.steady_readRule depth
    obtain ⟨v, hv, data, stop, hcompletes, -, hcursor⟩ := value_readRule hx
    obtain ⟨hmem, rfl⟩ := Grammar.mem_variationsOf.mp hv
    have hstop := (hcompletes.advances hsteady).index_of_settled (hcursor ▸ hindex)
    have hidles := hcompletes.idles hsteady (hg.shaped v hmem) hstop
    refine .variation hmem ?_
    intro i hi
    exact (hidles i hi).nullable ih (hg.resolves hmem i hi).1

/-! ## Faults and what came before them -/

/-- The reading of some items was ended by one of them. If the cursor stood where it began, all
items before that one were idle. -/
def Aborts (s : Setting) (call : Caller) (v : Variation) (items : List Item) (c : Cursor)
    (fault : Fault) : Prop :=
  ∃ front item back mid, items = front ++ item :: back ∧ s.Advances c mid ∧
    (mid.index = c.index → ∀ i ∈ front, s.Idles call v c i) ∧
    (s.matchItem call v mid item).outcome = .fatal fault

theorem Aborts.append {items : List Item} {fault : Fault} (h : s.Aborts call v items c fault)
    (more : List Item) : s.Aborts call v (items ++ more) c fault := by
  obtain ⟨front, item, back, mid, rfl, hrest⟩ := h
  exact ⟨front, item, back ++ more, mid, by simp, hrest⟩

/-- A reading after a first item that was matched. -/
theorem Aborts.cons (hs : s.Steady call) {item : Item} {items : List Item} {more : List Value}
    {fault : Fault} (head : s.Matches call v item c more c') (h : s.Aborts call v items c' fault) :
    s.Aborts call v (item :: items) c fault := by
  obtain ⟨front, stop, back, mid, rfl, hadvances, hidles, hfatal⟩ := h
  have hhead := head.advances hs
  refine ⟨item :: front, stop, back, mid, rfl, hhead.trans hadvances, ?_, hfatal⟩
  intro hindex
  obtain rfl := hhead.eq_of_between hadvances hindex
  exact List.forall_mem_cons.mpr ⟨⟨_, head⟩, hidles hindex⟩

/-- A reading that goes on further ahead owes nothing to the place where it began. -/
theorem Aborts.later {items : List Item} {fault : Fault} (ha : s.Advances c c')
    (hlt : c.index < c'.index) (h : s.Aborts call v items c' fault) :
    s.Aborts call v items c fault := by
  obtain ⟨front, item, back, mid, hitems, hadvances, -, hfatal⟩ := h
  refine ⟨front, item, back, mid, hitems, ha.trans hadvances, ?_, hfatal⟩
  intro hindex
  have hle := hadvances.index_le
  omega

theorem aborts_readPass (hs : s.Steady call) {data : List Value} {body : Content} {fault : Fault}
    (h : (s.readPass call v data c body).outcome = .fatal fault) :
    s.Aborts call v body c fault := by
  induction body generalizing data c with
  | nil => cases h
  | cons item rest ih =>
    simp only [readPass] at h
    cases hr : (s.matchItem call v c item).outcome with
    | value more =>
      simp only [hr] at h
      exact Aborts.cons hs ⟨hr, rfl⟩ (ih h)
    | mismatch i => simp [hr] at h
    | fatal e =>
      simp only [hr, Outcome.fatal.injEq] at h
      exact ⟨[], item, rest, c, rfl, .stay, fun _ => List.forall_mem_nil _, h ▸ hr⟩

/-- Only the first pass of a loop begins where the loop does: the others follow progress. -/
theorem aborts_readLoop (hs : s.Steady call) {kind : LoopKind} {body : Content} {first : Bool}
    {data : List Value} {fault : Fault} (hne : ∀ e, fault ≠ .adapt e)
    (h : (s.readLoop call v kind body first data c).outcome = .fatal fault) :
    s.Aborts call v body c fault := by
  fun_induction readLoop s call v kind body first data c with
  | case1 first data c e hfold =>
    cases h
    exact absurd rfl (hne e)
  | case2 first data c folded hfold p e hp =>
    cases h
    exact aborts_readPass hs hp
  | case3 first data c folded hfold p i hp =>
    dsimp only at h
    split at h <;> cases h
  | case4 first data c folded hfold p hp hless ih =>
    have hpass := ((s.ends_readPass call v folded c body).of_value hp).advances hs
    have hmoved := hpass.left_lt_iff.mp hless
    have hle := hpass.index_le
    exact (ih h).later hpass (by omega)
  | case5 first data c folded hfold p hp hless => cases h

theorem aborts_readContent (hs : s.Steady call) {data : List Value} {content : Content}
    {fault : Fault} (hne : ∀ e, fault ≠ .adapt e)
    (h : (s.readContent call v data c content).outcome = .fatal fault) :
    s.Aborts call v content.items c fault := by
  fun_induction readContent s call v data c content with
  | case1 data c => cases h
  | case2 data c kind body rest => exact (aborts_readLoop hs hne h).append _
  | case3 data c item rest hloop r more hr ih =>
    rw [Content.items_cons hloop]
    exact Aborts.cons hs ⟨hr, rfl⟩ (ih h)
  | case4 data c item rest hloop r i hr => cases h
  | case5 data c item rest hloop r e hr =>
    cases h
    rw [Content.items_cons hloop]
    exact ⟨[], item, _, c, rfl, .stay, fun _ => List.forall_mem_nil _, hr⟩

/-- A rule that ends in a fault of another one called it further on, or in a left call. -/
theorem fatal_readRule (hg : s.grammar.WellFormed) {depth : Nat} {rule : String}
    (hr : s.grammar.has rule = true) {fault : Fault} (hne : ∀ e, fault ≠ .adapt e)
    (hforeign : fault ≠ .inconceivable)
    (h : (s.readRule (depth + 1) rule c).outcome = .fatal fault) :
    ∃ name mid, s.grammar.has name = true ∧ s.Advances c mid ∧
      (mid.index = c.index → s.grammar.LeftCalls rule name) ∧
      (s.readRule depth name mid).outcome = .fatal fault := by
  rw [readRule_succ hr, Run.outcome_record] at h
  obtain ⟨v, hv, hfatal⟩ := fatal_readChoice h
  have hmem := (Grammar.mem_variationsOf.mp hv).1
  rcases hfatal with hread | ⟨_, a, _, rfl⟩
  · obtain ⟨front, item, back, mid, hitems, hadvances, hidles, hfatal⟩ :=
      aborts_readContent (s.steady_readRule depth) hne hread
    obtain ⟨name, hname, hcall⟩ := (fatal_matchItem hfatal).resolve_right fun h => hforeign h.2
    have hresolves := hg.resolves hmem
    rw [hitems] at hresolves
    have hdef := (hresolves item (by simp)).2 name hname
    refine ⟨name, mid, hdef, hadvances, ?_, hcall⟩
    intro hindex
    refine ⟨v, hv, front, item, back, hitems, ?_, hname⟩
    intro i hi
    exact (hidles hindex i hi).nullable (spends_readRule hg depth)
      (hresolves i (List.mem_append_left _ hi)).1
  · exact absurd rfl (hne a)

/-- Levels that are enough: as many as there are rules for each token that is left, and at the place
itself as many as the rule leads to. A left call needs fewer of the latter, and every other call
starts from fewer tokens. -/
theorem not_isDepth_of_readRule (hg : s.grammar.WellFormed)
    (hacyclic : ∀ r, ¬ Relation.TransGen s.grammar.LeftCalls r r) {depth : Nat} {rule : String}
    {fault : Fault} (hr : s.grammar.has rule = true)
    (hdepth : s.grammar.ruleNames.toFinset.card * s.left c + (s.grammar.leftReach rule).card ≤
      depth)
    (h : (s.readRule depth rule c).outcome = .fatal fault) : ¬ fault.IsDepth := by
  rintro ⟨e, rfl, hkind⟩
  induction depth generalizing rule c with
  | zero =>
    have hpos := Grammar.card_leftReach_pos hr
    omega
  | succ depth ih =>
    obtain ⟨name, mid, hdef, hadvances, hleft, hcall⟩ := fatal_readRule hg hr (by simp) (by simp) h
    refine ih hdef ?_ hcall
    by_cases hindex : mid.index = c.index
    · have hlt := Grammar.card_leftReach_lt hacyclic hr (hleft hindex)
      rw [hadvances.eq_of_index hindex]
      omega
    · have hpos := Grammar.card_leftReach_pos hr
      have hless := hadvances.left_lt_iff.mpr hindex
      calc s.grammar.ruleNames.toFinset.card * s.left mid + (s.grammar.leftReach name).card
          ≤ s.grammar.ruleNames.toFinset.card * s.left mid + s.grammar.ruleNames.toFinset.card :=
            Nat.add_le_add_left (s.grammar.card_leftReach_le name) _
        _ = s.grammar.ruleNames.toFinset.card * (s.left mid + 1) := (Nat.mul_succ _ _).symm
        _ ≤ s.grammar.ruleNames.toFinset.card * s.left c := Nat.mul_le_mul_left _ hless
        _ ≤ depth := by omega

end Setting

/-! ## Parses -/

/-- A positive limit is in force as it is. -/
theorem le_effectiveDepth {n : Nat} (hpos : 0 < n) {limit : Int} (h : (n : Int) ≤ limit) :
    n ≤ effectiveDepth limit := by
  rw [effectiveDepth, if_neg (by omega)]
  omega

namespace Grammar

variable {g : Grammar}

/-- A parse reports that a rule was nested too deep only if its evaluation ended so. -/
theorem outcome_of_depthExceeded {rule : String} {tokens : List Token} {r : Run Value}
    {e : ParseError} (h : conclusion rule tokens r = .error (.parse e))
    (hkind : e.kind = .depthExceeded) : r.outcome = .fatal (.parse e) := by
  rw [conclusion] at h
  cases ho : r.outcome with
  | value x =>
    simp only [ho] at h
    split at h
    · cases h
      cases hkind
    · cases h
  | mismatch i =>
    simp only [ho] at h
    cases h
    cases hkind
  | fatal fault =>
    simp only [ho] at h
    cases h
    rfl

/-- **Without left recursion the depth limit is only about size**: if no rule comes back to itself
by left calls, a limit of the number of rules for every place of the input, its end included, is
enough for every rule and every input. -/
theorem parseRule_ne_depthExceeded (hg : g.Built)
    (hacyclic : ∀ r, ¬ Relation.TransGen g.LeftCalls r r) {rule : String} (hr : g.has rule = true)
    {tokens : List Token} {limit : Int}
    (hlimit : ((g.ruleNames.toFinset.card * (tokens.length + 1) : Nat) : Int) ≤ limit)
    (e : ParseError) (he : (g.parseRule limit rule tokens).result = .error (.parse e)) :
    e.kind ≠ .depthExceeded := by
  intro hkind
  have hw := hg.wellFormed
  have hdepth : g.ruleNames.toFinset.card * tokens.length + (g.leftReach rule).card ≤
      effectiveDepth limit := by
    have hreach := g.card_leftReach_le rule
    have hrules := Nat.lt_of_lt_of_le (card_leftReach_pos hr) hreach
    have hbound := le_effectiveDepth (Nat.mul_pos hrules (Nat.succ_pos _)) hlimit
    rw [Nat.mul_succ] at hbound
    omega
  rw [parseRule_result hr, Setting.evaluate_eq_readRule (s := ⟨g, tokens⟩) hw] at he
  have hfatal := outcome_of_depthExceeded he hkind
  exact Setting.not_isDepth_of_readRule (s := ⟨g, tokens⟩) hw hacyclic hr hdepth hfatal
    ⟨e, rfl, hkind⟩

/-- Behind a token atom there are no left calls, and it makes none itself. -/
theorem not_mem_refs_of_token {a : Atom} (ha : a.isRule = false) {front back rest : List Item}
    {item : Item} {name : String} (hsplit : .atom a :: rest = front ++ item :: back)
    (hfront : ∀ i ∈ front, g.NullableItem i) : name ∉ item.refs := by
  cases front with
  | nil =>
    cases hsplit
    simp [Item.refs, ha]
  | cons i front =>
    cases hsplit
    obtain ⟨hmem, hrule, -⟩ := hfront _ List.mem_cons_self
    rw [Item.alternatives, List.mem_singleton] at hmem
    rw [hmem, ha] at hrule
    cases hrule

/-- The only left call of the grammar of terms is that of a gap: between the brackets there is
another term, but a bracket stands before it. -/
theorem leftCalls_terms {rule name : String} (h : terms.LeftCalls rule name) :
    rule = "term" ∧ name = "gap" := by
  obtain ⟨v, hv, front, item, back, hsplit, hfront, hname⟩ := h
  obtain ⟨hmem, rfl⟩ := mem_variationsOf.mp hv
  simp only [terms, flatVariations, gapVariations, List.cons_append, List.nil_append,
    List.mem_cons, List.not_mem_nil, or_false] at hmem
  rcases hmem with rfl | rfl | rfl | rfl | rfl
  · cases front with
    | nil =>
      cases hsplit
      exact ⟨rfl, List.mem_singleton.mp hname⟩
    | cons i front =>
      have hrest := (List.cons.inj hsplit).2
      exact absurd hname (not_mem_refs_of_token rfl hrest (List.forall_mem_cons.mp hfront).2)
  · exact absurd hname (not_mem_refs_of_token rfl hsplit hfront)
  · exact absurd hname (not_mem_refs_of_token rfl hsplit hfront)
  · exact absurd hname (not_mem_refs_of_token rfl hsplit hfront)
  · cases front <;> cases hsplit

/-- A bracket that is not closed. -/
def unclosed : List Token := [.bare "OPEN", .bare "INT"]

/-- Terms in brackets are not left recursive. With one level the gap in front of them is nested too
deep; two rules and two tokens need six levels at most, and with these the missing bracket is found.
-/
theorem parseRule_ne_depthExceeded_terms :
    terms.Built ∧ (∀ r, ¬ Relation.TransGen terms.LeftCalls r r) ∧ terms.has "term" = true ∧
      ((terms.ruleNames.toFinset.card * (unclosed.length + 1) : Nat) : Int) ≤ 6 ∧
      (terms.parseRule 1 "term" unclosed).result =
        .error (.parse (.atIndex .depthExceeded "gap" unclosed 0)) ∧
      ∃ e, (terms.parseRule 6 "term" unclosed).result = .error (.parse e) ∧
        e.kind ≠ .depthExceeded := by
  have hacyclic : ∀ r, ¬ Relation.TransGen terms.LeftCalls r r := by
    intro r hloop
    obtain ⟨q, hcall, hback⟩ := Relation.TransGen.head'_iff.mp hloop
    obtain ⟨rfl, rfl⟩ := leftCalls_terms hcall
    rcases hback.cases_head with heq | ⟨q, hcall, -⟩
    · exact absurd heq (by decide)
    · exact absurd (leftCalls_terms hcall).1 (by decide)
  have hr : terms.has "term" = true := rfl
  have hlimit : ((terms.ruleNames.toFinset.card * (unclosed.length + 1) : Nat) : Int) ≤ 6 := by
    decide
  have hresult : (terms.parseRule 6 "term" unclosed).result =
      .error (.parse (.atIndex .unexpectedToken "term" unclosed 2)) := rfl
  exact ⟨terms_built, hacyclic, hr, hlimit, rfl, _, hresult,
    parseRule_ne_depthExceeded terms_built hacyclic hr hlimit _ hresult⟩

end Grammar
end TokenGrammar
