import TokenGrammar.Proofs.Safety
import TokenGrammar.Proofs.Simulation

/-!
# Shadowed variations

A variation that begins with all of an earlier one and ignores the same tokens is never taken. Where
the earlier one succeeds, the choice is over; where it fails, the later one fails at the same item
and the same index, for the same calls are made on the way there. So it adds no failure that lies
further, it raises no fault of its own, and its strategy is never asked.

Without the shadowed variation the grammar is evaluated as with it. Rules may call each other from
anywhere, so the two evaluations are compared rule by rule, on all levels: what a rule reads depends
on the variations of other rules only through the way in which its calls end.

## Main definitions

* `Grammar.Shadows`: an earlier variation that leaves nothing to a later one.
* `Setting.withVariations`: the same input with other variations.
* `Setting.repeating`: the comparison of evaluations whose calls end in the same way.
-/
namespace TokenGrammar

/-- A variation without a loop, and another one that begins with all of its items and for which the
same tokens are trivia. -/
structure Grammar.Shadows (g : Grammar) (v u : Variation) : Prop where
  straight : ∀ i ∈ v.content, ∀ kind body, i ≠ .loop kind body
  begins : v.content <+: u.content
  trivia : ∀ t, g.ignores (some v) t = g.ignores (some u) t

namespace Setting

variable {s : Setting} {call call' : Caller} {v u : Variation} {c : Cursor}

/-! ## The shadowed variation fails -/

theorem matchAtom_of_ignored (h : s.ignored v = s.ignored u) (a : Atom) (c : Cursor) :
    s.matchAtom call v a c = s.matchAtom call u a c := by
  simp only [matchAtom, matchToken, skipTrivia, h]

theorem matchEither_of_ignored (h : s.ignored v = s.ignored u) (start : Cursor) (furthest : Nat)
    (candidates : List Atom) :
    s.matchEither call v start furthest candidates =
      s.matchEither call u start furthest candidates := by
  induction candidates generalizing furthest with
  | nil => rfl
  | cons a rest ih => simp only [matchEither, matchAtom_of_ignored h, ih]

/-- Variations for which the same tokens are trivia match items in the same way. -/
theorem matchItem_of_ignored (h : s.ignored v = s.ignored u) (c : Cursor) (item : Item) :
    s.matchItem call v c item = s.matchItem call u c item := by
  cases item with
  | atom a => simp only [matchItem, matchOne, matchAtom_of_ignored h]
  | either e => exact matchEither_of_ignored h c c.index e.candidates
  | loop kind body => rfl
  | foreign type text => rfl

/-- Content that begins with items which are not all matched fails with them. -/
theorem mismatch_readContent_append (h : s.ignored v = s.ignored u) {front back : Content}
    (hstraight : ∀ i ∈ front, ∀ kind body, i ≠ .loop kind body) {data : List Value} {i : Nat}
    (hfails : (s.readContent call v data c front).outcome = .mismatch i) :
    (s.readContent call u data c (front ++ back)).outcome = .mismatch i := by
  induction front generalizing data c with
  | nil => cases hfails
  | cons item rest ih =>
    obtain ⟨hitem, hrest⟩ := List.forall_mem_cons.mp hstraight
    rw [List.cons_append, readContent_cons hitem, ← matchItem_of_ignored h]
    rw [readContent_cons hitem] at hfails
    cases hr : (s.matchItem call v c item).outcome with
    | value more =>
      simp only [hr] at hfails ⊢
      exact ih hrest hfails
    | mismatch j =>
      simp only [hr] at hfails ⊢
      exact hfails
    | fatal e => simp [hr] at hfails

theorem mismatch_of_shadows (h : s.grammar.Shadows v u) {i : Nat}
    (hfails : (s.read call v c).outcome = .mismatch i) :
    (s.read call u c).outcome = .mismatch i := by
  obtain ⟨back, hback⟩ := h.begins
  rw [read, ← hback]
  exact mismatch_readContent_append (funext h.trivia) h.straight hfails

/-! ## The choice without it -/

/-- A variation that fails no further than another one did is passed over without a trace. -/
theorem readChoice_of_mismatch {i furthest : Nat} (h : (s.read call u c).outcome = .mismatch i)
    (hle : i ≤ furthest) (front back : List Variation) :
    (s.readChoice call c furthest (front ++ u :: back)).outcome =
        (s.readChoice call c furthest (front ++ back)).outcome ∧
      (s.readChoice call c furthest (front ++ u :: back)).cursor =
        (s.readChoice call c furthest (front ++ back)).cursor := by
  induction front generalizing furthest with
  | nil =>
    simp only [List.nil_append, readChoice, h, Nat.max_eq_left hle]
    exact ⟨rfl, rfl⟩
  | cons w rest ih =>
    simp only [List.cons_append, readChoice]
    cases (s.read call w c).outcome with
    | value data => exact ⟨rfl, rfl⟩
    | mismatch j => exact ih (Nat.le_trans hle (Nat.le_max_left _ _))
    | fatal e => exact ⟨rfl, rfl⟩

/-- Behind the variation that shadows it, a variation may be left out of the choice. -/
theorem readChoice_of_shadows (h : s.grammar.Shadows v u) {front : List Variation}
    (hv : v ∈ front) (furthest : Nat) (back : List Variation) :
    (s.readChoice call c furthest (front ++ u :: back)).outcome =
        (s.readChoice call c furthest (front ++ back)).outcome ∧
      (s.readChoice call c furthest (front ++ u :: back)).cursor =
        (s.readChoice call c furthest (front ++ back)).cursor := by
  induction front generalizing furthest with
  | nil => cases hv
  | cons w rest ih =>
    simp only [List.cons_append, readChoice]
    cases hr : (s.read call w c).outcome with
    | value data => exact ⟨rfl, rfl⟩
    | fatal e => exact ⟨rfl, rfl⟩
    | mismatch i =>
      rcases List.mem_cons.mp hv with rfl | hrest
      · exact readChoice_of_mismatch (mismatch_of_shadows h hr) (Nat.le_max_right _ _) rest back
      · exact ih hrest _

/-! ## Other variations -/

/-- The same input under the same grammar with other variations. -/
def withVariations (s : Setting) (vs : List Variation) : Setting :=
  { s with grammar := { s.grammar with variations := vs } }

section

variable (vs : List Variation)

theorem matchAtom_withVariations (a : Atom) (c : Cursor) :
    (s.withVariations vs).matchAtom call v a c = s.matchAtom call v a c := rfl

theorem matchEither_withVariations (start : Cursor) (furthest : Nat) (candidates : List Atom) :
    (s.withVariations vs).matchEither call v start furthest candidates =
      s.matchEither call v start furthest candidates := by
  induction candidates generalizing furthest with
  | nil => rfl
  | cons a rest ih => simp only [matchEither, matchAtom_withVariations, ih]

theorem matchItem_withVariations (c : Cursor) (item : Item) :
    (s.withVariations vs).matchItem call v c item = s.matchItem call v c item := by
  cases item with
  | atom a => rfl
  | either e => exact matchEither_withVariations vs c c.index e.candidates
  | loop kind body => rfl
  | foreign type text => rfl

theorem readPass_withVariations (data : List Value) (c : Cursor) (body : Content) :
    (s.withVariations vs).readPass call v data c body = s.readPass call v data c body := by
  induction body generalizing data c with
  | nil => rfl
  | cons item rest ih => simp only [readPass, matchItem_withVariations, ih]

theorem readLoop_withVariations (kind : LoopKind) (body : Content) (first : Bool)
    (data : List Value) (c : Cursor) :
    (s.withVariations vs).readLoop call v kind body first data c =
      s.readLoop call v kind body first data c := by
  have hleft : ∀ c, (s.withVariations vs).left c = s.left c := fun _ => rfl
  induction hn : s.left c using Nat.strongRecOn generalizing first data c with
  | ind n ih =>
    subst hn
    rw [readLoop, readLoop]
    simp only [readPass_withVariations, hleft]
    split
    · rfl
    · next folded _ =>
      split
      · rfl
      · rfl
      · split
        · next hless => rw [ih _ hless _ _ _ rfl]
        · rfl

theorem readContent_withVariations (data : List Value) (c : Cursor) (content : Content) :
    (s.withVariations vs).readContent call v data c content =
      s.readContent call v data c content := by
  induction content generalizing data c with
  | nil => rfl
  | cons item rest ih =>
    cases item with
    | loop kind body => exact readLoop_withVariations vs kind body true data c
    | atom _ | either _ | foreign _ _ => simp only [readContent, matchItem_withVariations, ih]

theorem settled_withVariations (v : Variation) (start stop : Cursor) :
    (s.withVariations vs).settled v start stop = s.settled v start stop := by
  have hback : ∀ floor i, (s.withVariations vs).giveBack v floor i = s.giveBack v floor i := by
    intro floor i
    have hat : ∀ i, (s.withVariations vs).ignoredAt v i = s.ignoredAt v i := fun _ => rfl
    induction i with
    | zero => rfl
    | succ i ih => simp only [giveBack, hat, ih]
  simp only [settled, rollback, hback]

/-- A choice between variations depends on the grammar only through its global ignore set. -/
theorem readChoice_withVariations (start : Cursor) (furthest : Nat) (us : List Variation) :
    (s.withVariations vs).readChoice call start furthest us =
      s.readChoice call start furthest us := by
  induction us generalizing furthest with
  | nil => rfl
  | cons u rest ih =>
    simp only [readChoice, read, readContent_withVariations, conclude_eq, settled_withVariations,
      ih]

end

/-! ## Calls that end in the same way -/

/-- The comparison of evaluations of the same input in which nothing is excused. -/
def repeating (s : Setting) : Simulation s s := .refl s fun _ => False

theorem Steady.of_callers (h : s.Steady call) (hcall : s.repeating.Callers call call') :
    s.Steady call' := by
  intro rule c
  have hruns := hcall rule c c rfl
  have hends := h rule c
  simp only [Alignment.Runs] at hruns
  generalize call rule c = r at hruns hends
  generalize call' rule c = r' at hruns ⊢
  obtain ⟨o, stop, calls⟩ := r
  obtain ⟨o', stop', calls'⟩ := r'
  cases hruns with
  | value _ hstop =>
    cases hstop
    exact .value (hends.of_value rfl)
  | mismatch hindex _ hstop =>
    cases hindex
    cases hstop
    exact .mismatch (hends.of_mismatch rfl)
  | fatal _ => exact .fatal trivial
  | left hexcuse => exact hexcuse.elim
  | right hexcuse => exact hexcuse.elim

/-- Evaluations compare in the same way if the first one is exchanged for one with the same end. -/
theorem runs_of_end_eq {r₁ r₂ r : Run Value} (houtcome : r₁.outcome = r₂.outcome)
    (hcursor : r₁.cursor = r₂.cursor) (h : s.repeating.Runs Eq r₂ r) :
    s.repeating.Runs Eq r₁ r := by
  rw [Alignment.Runs, houtcome, hcursor]
  exact h

end Setting

/-! ## The grammar without the variation -/

namespace Grammar

variable {g : Grammar} {front back : List Variation} {v u : Variation}

/-- Of the variations of a rule, only the one that is left out is missing. -/
theorem variationsOf_append_cons (hvars : g.variations = front ++ u :: back) (rule : String) :
    g.variationsOf rule =
      if u.rule = rule then
        front.filter (·.rule == rule) ++ u :: back.filter (·.rule == rule)
      else { g with variations := front ++ back }.variationsOf rule := by
  rw [variationsOf, hvars, List.filter_append, List.filter_cons]
  by_cases h : u.rule = rule
  · simp [h]
  · simp [h, variationsOf]

/-- A rule with another variation stays defined. -/
theorem has_without (hvars : g.variations = front ++ u :: back) (hv : v ∈ front)
    (hrule : v.rule = u.rule) (rule : String) :
    { g with variations := front ++ back }.has rule = g.has rule := by
  simp only [has, hvars, List.any_append, List.any_cons]
  by_cases h : u.rule = rule
  · have hfront : front.any (·.rule == rule) = true :=
      List.any_eq_true.mpr ⟨v, hv, by simp [hrule, h]⟩
    simp [hfront]
  · rw [beq_eq_false_iff_ne.mpr h, Bool.false_or]

theorem WellFormed.without (hg : g.WellFormed) (hvars : g.variations = front ++ u :: back)
    (hv : v ∈ front) (hrule : v.rule = u.rule) :
    { g with variations := front ++ back }.WellFormed := by
  have hsub : ∀ w ∈ front ++ back, w ∈ g.variations := by
    intro w hw
    rw [hvars]
    rcases List.mem_append.mp hw with hw | hw
    · exact List.mem_append_left _ hw
    · exact List.mem_append_right _ (List.mem_cons_of_mem _ hw)
  refine ⟨hg.start_nonempty, ?_, ?_, ?_⟩
  · rw [has_without hvars hv hrule]
    exact hg.start_defined
  · intro w hw
    exact hg.shaped w (hsub w hw)
  · intro w hw name hname
    rw [has_without hvars hv hrule]
    exact hg.refs_defined w (hsub w hw) name hname

end Grammar

namespace Setting

variable {s : Setting} {front back : List Variation} {v u : Variation}

/-- The variations of a rule with and without the shadowed one make the same choice. -/
theorem readChoice_without (hvars : s.grammar.variations = front ++ u :: back) (hv : v ∈ front)
    (hrule : v.rule = u.rule) (h : s.grammar.Shadows v u) (call : Caller) (c : Cursor)
    (rule : String) :
    let r := s.readChoice call c 0 (s.grammar.variationsOf rule)
    let r' := s.readChoice call c 0
      ((s.withVariations (front ++ back)).grammar.variationsOf rule)
    r.outcome = r'.outcome ∧ r.cursor = r'.cursor := by
  have hsplit := Grammar.variationsOf_append_cons hvars rule
  by_cases hown : u.rule = rule
  · have hwithout : (s.withVariations (front ++ back)).grammar.variationsOf rule =
        front.filter (·.rule == rule) ++ back.filter (·.rule == rule) :=
      List.filter_append front back
    have hmem : v ∈ front.filter (·.rule == rule) := by simp [hv, hrule, hown]
    rw [hsplit, if_pos hown, hwithout]
    exact readChoice_of_shadows h hmem 0 _
  · rw [hsplit, if_neg hown]
    exact ⟨rfl, rfl⟩

/-- Rules end in the same way with and without the shadowed variation. The induction is on the
levels left: the calls of a rule end in the same way by hypothesis, and what it makes of them is the
same choice. -/
theorem callers_without (hvars : s.grammar.variations = front ++ u :: back) (hv : v ∈ front)
    (hrule : v.rule = u.rule) (h : s.grammar.Shadows v u) (depth : Nat) :
    s.repeating.Callers (s.readRule depth) ((s.withVariations (front ++ back)).readRule depth) := by
  have hhas : ∀ rule, (s.withVariations (front ++ back)).grammar.has rule = s.grammar.has rule :=
    Grammar.has_without hvars hv hrule
  have hundefined : ∀ {t : Setting} {rule : String}, ¬ t.grammar.has rule = true →
      t.grammar.variationsOf rule = [] := by
    intro t rule hr
    rwa [Grammar.has_iff, not_not] at hr
  induction depth with
  | zero =>
    rintro rule c _ rfl
    by_cases hr : s.grammar.has rule = true
    · rw [readRule_zero hr, readRule_zero ((hhas rule).trans hr)]
      exact .fatal rfl
    · simp only [readRule, enter, hundefined hr, hundefined (hhas rule ▸ hr)]
      exact .fatal rfl
  | succ depth ih =>
    rintro rule c _ rfl
    by_cases hr : s.grammar.has rule = true
    · have hsteady := s.steady_readRule depth
      rw [readRule_succ hr, readRule_succ ((hhas rule).trans hr), readChoice_withVariations]
      obtain ⟨houtcome, hcursor⟩ :=
        readChoice_without hvars hv hrule h (s.readRule depth) c rule
      refine runs_of_end_eq houtcome hcursor ?_
      refine Simulation.readChoice hsteady (hsteady.of_callers ih) ih
        (List.forall₂_same.mpr fun _ _ => rfl) rfl ?_ ?_
      · rintro i _ rfl
        rfl
      · exact .inr rfl
    · simp only [readRule, hundefined hr, hundefined (hhas rule ▸ hr)]
      exact .fatal rfl

end Setting

/-! ## Parses -/

namespace Grammar

/-- **A shadowed variation is dead**: if a variation without a loop comes before another one of its
rule that begins with all of its items and ignores the same tokens, the grammar without the later
one is well formed as well, and gives the same value or the same error, with all its fields, for
every defined rule, every input and every limit. The strategy of the later one and what it says
about rollback do not matter. -/
theorem parseRule_without_shadowed {g : Grammar} (hg : g.Built) {front back : List Variation}
    {v u : Variation} (hvars : g.variations = front ++ u :: back) (hv : v ∈ front)
    (hrule : v.rule = u.rule) (h : g.Shadows v u) :
    { g with variations := front ++ back }.WellFormed ∧
      ∀ rule, g.has rule = true → ∀ limit tokens,
        ({ g with variations := front ++ back }.parseRule limit rule tokens).result =
          (g.parseRule limit rule tokens).result := by
  have hw := hg.wellFormed
  have hwithout := hw.without hvars hv hrule
  refine ⟨hwithout, ?_⟩
  intro rule hr limit tokens
  have hruns := Setting.callers_without (s := ⟨g, tokens⟩) hvars hv hrule h (effectiveDepth limit)
    rule .origin .origin rfl
  rw [← Setting.evaluate_eq_readRule (s := ⟨g, tokens⟩) hw,
    ← Setting.evaluate_eq_readRule (s := Setting.withVariations ⟨g, tokens⟩ (front ++ back))
      hwithout] at hruns
  rw [parseRule_result hr, parseRule_result ((has_without hvars hv hrule rule).trans hr)]
  exact (Alignment.conclusion_eq hruns (fun _ _ hexcuse => hexcuse) rule tokens).symm

/-- A name, which ignores line ends on its own account. -/
def nameVariation : Variation :=
  ⟨"field", [.atom (.token "NAME")], .pass, some [.token "NL"], false⟩

/-- A name with values after it, and a strategy that would refuse them. -/
def valuesVariation : Variation :=
  ⟨"field", [.atom (.token "NAME"), .loop .block [.atom (.token "INT")]], .select 7, none, true⟩

/-- Records of fields, where the values of a field are out of reach. -/
def fields : Grammar :=
  ⟨"record", [.token "NL"],
    [⟨"record", [.loop .block [.atom (.rule "field"), .atom (Atom.token "SEMI").skipped]], .pass,
        none, false⟩,
      nameVariation, valuesVariation]⟩

theorem fields_built : fields.Built := by
  refine ⟨[.ignoreGlobally [.item (.atom (.token "NL"))], .startFrom "record"] ++
    variationSteps 0 ⟨"record", [.loop .block [.atom (.rule "field"),
      .atom (Atom.token "SEMI").skipped]], .pass, none, false⟩ ++
    Builder.chainSteps 1 "field" (some [.item (.atom (.token "NAME"))]) none none
      (some [.item (.atom (.token "NL"))]) false (some .pass) ++
    variationSteps 2 valuesVariation, ?_⟩
  rfl

/-- A field with a value. -/
def valueField : List Token := [.bare "NL", .bare "NAME", .bare "INT", .bare "SEMI"]

/-- The value is found where a separator has to stand, and the strategy of the variation that would
read it is not asked, so the record ends as it does without that variation. -/
theorem parseRule_without_shadowed_fields :
    fields.Built ∧ fields.Shadows nameVariation valuesVariation ∧
      (fields.parseRule 9 "record" valueField).result =
        .error (.parse (.atIndex .unexpectedToken "record" valueField 2)) ∧
      ({ fields with variations := fields.variations.take 2 }.parseRule 9 "record"
          valueField).result =
        .error (.parse (.atIndex .unexpectedToken "record" valueField 2)) := by
  have hshadows : fields.Shadows nameVariation valuesVariation :=
    ⟨by simp [nameVariation], ⟨_, rfl⟩, fun _ => rfl⟩
  have hresult : (fields.parseRule 9 "record" valueField).result =
      .error (.parse (.atIndex .unexpectedToken "record" valueField 2)) := rfl
  have hvars : fields.variations = fields.variations.take 2 ++ valuesVariation :: [] := rfl
  have hmem : nameVariation ∈ fields.variations.take 2 :=
    List.mem_cons_of_mem _ List.mem_cons_self
  have hwithout := (parseRule_without_shadowed fields_built hvars hmem rfl hshadows).2 "record" rfl
    9 valueField
  exact ⟨fields_built, hshadows, hresult, hwithout.trans hresult⟩

end Grammar
end TokenGrammar
