import Mathlib.Data.List.Forall2
import TokenGrammar.Proofs.Machine

/-!
# Simulations between two evaluations

Two evaluations run side by side: the same rules are called, the same items are tried, and what the
one matches, the other matches too. Their cursors, captured data and faults need not be equal but
only related. It is enough to look at the leaves, that is at token atoms, strategies and the way
back over trivia; from there the relation spreads over choices, passes, loops and rules.

A fault may excuse a run. Nothing is asked of the other run then.

## Main definitions

* `Alignment`: what is related to what.
* `Alignment.Agree`: runs that end in related ways.
* `Simulation`: an alignment that the leaves of two evaluations respect.
* `Simulation.ofEq`, `Simulation.refl`: simulations between evaluations that are the same up to
  excused faults.
-/
namespace TokenGrammar

/-- Relations between the parts of two evaluations. -/
structure Alignment where
  cursors : Cursor → Cursor → Prop
  indices : Nat → Nat → Prop
  values : Value → Value → Prop
  data : List Value → List Value → Prop
  atoms : Atom → Atom → Prop
  variations : Variation → Variation → Prop
  faults : Fault → Fault → Prop
  /-- The faults of the first run after which the second one may end in any way. -/
  excusesLeft : Fault → Prop
  /-- The faults of the second run after which the first one may end in any way. -/
  excusesRight : Fault → Prop

namespace Alignment

variable (A : Alignment)

/-- Items that are related atom by atom. -/
inductive Items : Item → Item → Prop
  | atom {a b : Atom} (h : A.atoms a b) : Items (.atom a) (.atom b)
  | either {e f : Either} (h : List.Forall₂ A.atoms e.candidates f.candidates) :
      Items (.either e) (.either f)
  | loop {kind : LoopKind} {body body' : Content} (h : List.Forall₂ Items body body') :
      Items (.loop kind body) (.loop kind body')
  | foreign {type text : String} : Items (.foreign type text) (.foreign type text)

mutual

theorem Items.refl {A : Alignment} (h : ∀ a, A.atoms a a) : (i : Item) → A.Items i i
  | .atom a => .atom (h a)
  | .either _ => .either (List.forall₂_same.mpr fun a _ => h a)
  | .loop _ body => .loop (Items.refl_all h body)
  | .foreign _ _ => .foreign

theorem Items.refl_all {A : Alignment} (h : ∀ a, A.atoms a a) :
    (content : Content) → List.Forall₂ A.Items content content
  | [] => .nil
  | i :: rest => .cons (Items.refl h i) (Items.refl_all h rest)

end

/-- Outcomes at their cursors that are related: values by `V`, and failures at related places, where
in addition `M` is asked. -/
inductive Agree {α β : Type} (V : α → β → Prop) (M : Prop) :
    Outcome α → Cursor → Outcome β → Cursor → Prop
  | value {a : α} {b : β} {c d : Cursor} (h : V a b) (cursors : A.cursors c d) :
      Agree V M (.value a) c (.value b) d
  | mismatch {i j : Nat} {c d : Cursor} (h : A.indices i j) (m : M) (cursors : A.cursors c d) :
      Agree V M (.mismatch i) c (.mismatch j) d
  | fatal {e f : Fault} {c d : Cursor} (h : A.faults e f) : Agree V M (.fatal e) c (.fatal f) d
  | left {e : Fault} {o : Outcome β} {c d : Cursor} (h : A.excusesLeft e) :
      Agree V M (.fatal e) c o d
  | right {o : Outcome α} {f : Fault} {c d : Cursor} (h : A.excusesRight f) :
      Agree V M o c (.fatal f) d

/-- Runs that end in related ways. -/
def Runs {α β : Type} (V : α → β → Prop) (r : Run α) (r' : Run β) : Prop :=
  A.Agree V True r.outcome r.cursor r'.outcome r'.cursor

/-- Passes that end in related ways, after the same number of items if they fail. -/
def Passes (p p' : Pass) : Prop :=
  A.Agree (fun _ _ => A.data p.data p'.data) (A.data p.data p'.data ∧ p.items = p'.items)
    p.outcome p.cursor p'.outcome p'.cursor

/-- Callers that give related runs at related cursors. -/
def Callers (call call' : Setting.Caller) : Prop :=
  ∀ rule c d, A.cursors c d → A.Runs A.values (call rule c) (call' rule d)

end Alignment

/-- What a strategy makes of captured data, as an outcome. -/
def Strategy.outcome (s : Strategy) (data : List Value) : Outcome Value :=
  match s.adapt data with
  | .ok x => .value x
  | .error e => .fatal (.adapt e)

namespace Setting

/-- The cursor at the end of a variation that succeeded. -/
def settled (s : Setting) (v : Variation) (start stop : Cursor) : Cursor :=
  if v.preventRollback then stop else s.rollback v start.index stop

theorem conclude_eq (s : Setting) (v : Variation) (start : Cursor) (data : List Value)
    (stop : Cursor) (calls : List Call) :
    s.conclude v start data stop calls =
      ⟨v.strategy.outcome data, s.settled v start stop, calls⟩ := by
  simp only [conclude, Strategy.outcome, settled]
  cases v.strategy.adapt data <;> rfl

/-- A choice that succeeds ends as one of its variations does. -/
theorem value_readChoice {s : Setting} {call : Caller} {start : Cursor} {furthest : Nat}
    {vs : List Variation} {x : Value}
    (h : (s.readChoice call start furthest vs).outcome = .value x) :
    ∃ v ∈ vs, ∃ data, (s.read call v start).outcome = .value data ∧
      v.strategy.adapt data = .ok x ∧
      (s.readChoice call start furthest vs).cursor =
        s.settled v start (s.read call v start).cursor := by
  induction vs generalizing furthest with
  | nil => cases h
  | cons v rest ih =>
    simp only [readChoice, conclude_eq] at h ⊢
    cases hr : (s.read call v start).outcome with
    | value data =>
      refine ⟨v, List.mem_cons_self, data, hr, ?_, rfl⟩
      simp only [hr, Strategy.outcome] at h
      cases ha : v.strategy.adapt data with
      | ok y =>
        rw [ha] at h
        cases h
        rfl
      | error e =>
        rw [ha] at h
        cases h
    | mismatch i =>
      simp only [hr] at h ⊢
      obtain ⟨u, hu, hend⟩ := ih h
      exact ⟨u, List.mem_cons_of_mem _ hu, hend⟩
    | fatal e => simp [hr] at h

theorem readRule_zero_ne_value {s : Setting} (rule : String) (c : Cursor) (x : Value) :
    (s.readRule 0 rule c).outcome ≠ .value x := by
  simp only [readRule, enter]
  split <;> simp [abort]

/-- A rule that succeeds does so with one of its variations. -/
theorem value_readRule {s : Setting} {depth : Nat} {rule : String} {c : Cursor} {x : Value}
    (h : (s.readRule (depth + 1) rule c).outcome = .value x) :
    ∃ v ∈ s.grammar.variationsOf rule, ∃ data stop,
      s.Completes (s.readRule depth) v v.content [] c data stop ∧ v.strategy.adapt data = .ok x ∧
      (s.readRule (depth + 1) rule c).cursor = s.settled v c stop := by
  by_cases hr : s.grammar.has rule = true
  · rw [readRule_succ hr] at h ⊢
    obtain ⟨v, hv, data, hread, hadapt, hcursor⟩ := value_readChoice h
    exact ⟨v, hv, data, _, (s.ends_readContent _ v [] c v.content).of_value hread, hadapt, hcursor⟩
  · have hnone : s.grammar.variationsOf rule = [] := by
      rwa [Grammar.has_iff, not_not] at hr
    simp only [readRule, hnone] at h
    cases h

end Setting

/-- An alignment that the leaves of two evaluations respect. -/
structure Simulation (s t : Setting) extends Alignment where
  index_of_cursor : ∀ {c d}, cursors c d → indices c.index d.index
  index_max : ∀ {i j i' j'}, indices i j → indices i' j' → indices (max i i') (max j j')
  data_nil : data [] []
  data_append : ∀ {xs ys xs' ys'}, data xs ys → data xs' ys' → data (xs ++ xs') (ys ++ ys')
  data_single : ∀ {x y}, values x y → data [x] [y]
  data_captured : ∀ {a b x y}, atoms a b → values x y →
    data (Setting.captured a x) (Setting.captured b y)
  atom_isRule : ∀ {a b}, atoms a b → a.isRule = b.isRule
  atom_name : ∀ {a b}, atoms a b → a.isRule = true → a.name = b.name
  content : ∀ {v u}, variations v u → List.Forall₂ toAlignment.Items v.content u.content
  token : ∀ {v u a b c d}, variations v u → atoms a b → a.isRule = false → cursors c d →
    toAlignment.Runs values (s.matchToken v a c) (t.matchToken u b d)
  adapt : ∀ {v u xs ys c d}, variations v u → data xs ys → cursors c d →
    toAlignment.Agree values True (v.strategy.outcome xs) c (u.strategy.outcome ys) d
  settle : ∀ {v u start start' stop stop'}, variations v u → cursors start start' →
    cursors stop stop' → s.Advances start stop → t.Advances start' stop' →
    cursors (s.settled v start stop) (t.settled u start' stop')
  /-- The one run makes progress exactly if the other does. -/
  progress : ∀ {c d c' d'}, cursors c d → cursors c' d' → s.Advances c c' → t.Advances d d' →
    (c'.index = c.index ↔ d'.index = d.index)
  rules : ∀ rule,
    List.Forall₂ variations (s.grammar.variationsOf rule) (t.grammar.variationsOf rule)
  undefined : ∀ rule, faults (.config (.undefinedRule rule)) (.config (.undefinedRule rule))
  inconceivable : faults .inconceivable .inconceivable

namespace Simulation

variable {s t : Setting} {S : Simulation s t} {call call' : Setting.Caller} {v u : Variation}
  {c d : Cursor}

/-! ## Items -/

theorem matchAtom (hcall : S.Callers call call') (hv : S.variations v u) {a b : Atom}
    (ha : S.atoms a b) (hc : S.cursors c d) :
    S.Runs S.values (s.matchAtom call v a c) (t.matchAtom call' u b d) := by
  rw [Setting.matchAtom, Setting.matchAtom, ← S.atom_isRule ha]
  split
  · next hrule =>
    rw [← S.atom_name ha hrule]
    exact hcall a.name c d hc
  · next htoken => exact S.token hv ha (by simpa using htoken) hc

theorem matchEither (hcall : S.Callers call call') (hv : S.variations v u) {as bs : List Atom}
    (ha : List.Forall₂ S.atoms as bs) (hc : S.cursors c d) {i j : Nat} (hi : S.indices i j) :
    S.Runs S.data (s.matchEither call v c i as) (t.matchEither call' u d j bs) := by
  induction ha generalizing i j with
  | nil => exact .mismatch hi trivial hc
  | @cons a b as bs hab _ ih =>
    have hatom := matchAtom hcall hv hab hc
    simp only [Setting.matchEither, Alignment.Runs] at hatom ⊢
    generalize s.matchAtom call v a c = r at hatom ⊢
    generalize t.matchAtom call' u b d = r' at hatom ⊢
    obtain ⟨o, stop, calls⟩ := r
    obtain ⟨o', stop', calls'⟩ := r'
    cases hatom with
    | value h hstop => exact .value (S.data_captured hab h) hstop
    | mismatch h _ _ => exact ih (S.index_max hi h)
    | fatal h => exact .fatal h
    | left h => exact .left h
    | right h => exact .right h

theorem matchItem (hcall : S.Callers call call') (hv : S.variations v u) {x y : Item}
    (hxy : S.Items x y) (hc : S.cursors c d) :
    S.Runs S.data (s.matchItem call v c x) (t.matchItem call' u d y) := by
  cases hxy with
  | @atom a b hab =>
    have hatom := matchAtom hcall hv hab hc
    simp only [Setting.matchItem, Setting.matchOne, Alignment.Runs] at hatom ⊢
    generalize s.matchAtom call v a c = r at hatom ⊢
    generalize t.matchAtom call' u b d = r' at hatom ⊢
    obtain ⟨o, stop, calls⟩ := r
    obtain ⟨o', stop', calls'⟩ := r'
    cases hatom with
    | value h hstop => exact .value (S.data_captured hab h) hstop
    | mismatch h _ hstop => exact .mismatch h trivial hstop
    | fatal h => exact .fatal h
    | left h => exact .left h
    | right h => exact .right h
  | either h => exact matchEither hcall hv h hc (S.index_of_cursor hc)
  | loop _ => exact .value S.data_nil hc
  | foreign => exact .fatal S.inconceivable

/-! ## Passes and loops -/

theorem Passes.after {p p' : Pass} (h : S.Passes p p') (calls calls' : List Call) :
    S.Passes (p.after calls) (p'.after calls') := by
  obtain ⟨o, data, stop, inner, n⟩ := p
  obtain ⟨o', data', stop', inner', n'⟩ := p'
  simp only [Alignment.Passes, Pass.after] at h ⊢
  cases h with
  | value h hstop => exact .value h hstop
  | mismatch h hdata hstop => exact .mismatch h ⟨hdata.1, by rw [hdata.2]⟩ hstop
  | fatal h => exact .fatal h
  | left h => exact .left h
  | right h => exact .right h

theorem readPass (hcall : S.Callers call call') (hv : S.variations v u) {body body' : Content}
    (hbody : List.Forall₂ S.Items body body') {xs ys : List Value} (hdata : S.data xs ys)
    (hc : S.cursors c d) :
    S.Passes (s.readPass call v xs c body) (t.readPass call' u ys d body') := by
  induction hbody generalizing xs ys c d with
  | nil => exact .value hdata hc
  | @cons x y body body' hxy _ ih =>
    have hitem := matchItem hcall hv hxy hc
    simp only [Setting.readPass, Alignment.Runs] at hitem ⊢
    generalize s.matchItem call v c x = r at hitem ⊢
    generalize t.matchItem call' u d y = r' at hitem ⊢
    obtain ⟨o, stop, calls⟩ := r
    obtain ⟨o', stop', calls'⟩ := r'
    cases hitem with
    | value h hstop => exact Passes.after (ih (S.data_append hdata h) hstop) calls calls'
    | mismatch h _ hstop => exact .mismatch h ⟨hdata, rfl⟩ hstop
    | fatal h => exact .fatal h
    | left h => exact .left h
    | right h => exact .right h

/-- Related passes are followed by related runs, if they are idle together. -/
theorem resume {kind : LoopKind} {completed : Bool} {start start' : Nat}
    {next next' : List Value → Cursor → Run (List Value)} {p p' : Pass} (hp : S.Passes p p')
    (hidle : p.outcome = .value () → p'.outcome = .value () → S.cursors p.cursor p'.cursor →
      (p.cursor.index = start ↔ p'.cursor.index = start'))
    (hnext : p.outcome = .value () → p.cursor.index ≠ start → S.data p.data p'.data →
      S.cursors p.cursor p'.cursor →
        S.Runs S.data (next p.data p.cursor) (next' p'.data p'.cursor)) :
    S.Runs S.data (Setting.resume kind start completed next p)
      (Setting.resume kind start' completed next' p') := by
  obtain ⟨o, data, stop, calls, n⟩ := p
  obtain ⟨o', data', stop', calls', n'⟩ := p'
  simp only [Alignment.Passes, Setting.resume] at hp hidle hnext ⊢
  cases hp with
  | @value _ _ _ _ hdata hstop =>
    have hiff := hidle rfl rfl hstop
    dsimp only
    by_cases hstart : stop.index = start
    · rw [if_pos hstart, if_pos (hiff.mp hstart)]
      exact .value hdata hstop
    · rw [if_neg hstart, if_neg fun h => hstart (hiff.mpr h)]
      exact hnext rfl hstart hdata hstop
  | mismatch h hdata hstop =>
    obtain ⟨hdata, rfl⟩ := hdata
    dsimp only [Setting.settle]
    split
    · exact .value hdata hstop
    · exact .mismatch h trivial hstop
  | fatal h => exact .fatal h
  | left h => exact .left h
  | right h => exact .right h

/-- The passes before the last one only move the cursors; the induction is on the tokens left in the
first run. -/
theorem readLoop (h : s.Steady call) (h' : t.Steady call') (hcall : S.Callers call call')
    (hv : S.variations v u) (kind : LoopKind) {body body' : Content}
    (hbody : List.Forall₂ S.Items body body') (completed : Bool) {xs ys : List Value}
    (hdata : S.data xs ys) (hc : S.cursors c d) :
    S.Runs S.data (s.readLoop call v kind body (!completed) xs c)
      (t.readLoop call' u kind body' (!completed) ys d) := by
  induction hn : s.left c using Nat.strongRecOn generalizing completed xs ys c d with
  | ind n ih =>
    subst hn
    -- one pass over the folded data, and what follows it
    have hround : ∀ {folded folded'}, S.data folded folded' →
        S.Runs S.data
          (Setting.resume kind c.index completed
            (fun data c => s.readLoop call v kind body false data c)
            (s.readPass call v folded c body))
          (Setting.resume kind d.index completed
            (fun data d => t.readLoop call' u kind body' false data d)
            (t.readPass call' u folded' d body')) := by
      intro folded folded' hfold
      have hends := s.ends_readPass call v folded c body
      have hends' := t.ends_readPass call' u folded' d body'
      refine resume (readPass hcall hv hbody hfold hc) ?_ ?_
      · intro hp hp' hstop
        exact S.progress hc hstop ((hends.of_value hp).advances h)
          ((hends'.of_value hp').advances h')
      · intro hp hmoved hdata hstop
        have hlt := ((hends.of_value hp).advances h).left_lt_iff.mpr hmoved
        exact ih _ hlt true hdata hstop rfl
    rw [Setting.readLoop_eq_resume h, Setting.readLoop_eq_resume h']
    cases kind with
    | block => exact hround hdata
    | binary =>
      have hadapt := S.adapt hv hdata hc
      simp only [Strategy.outcome, Setting.enterPass] at hadapt ⊢
      generalize v.strategy.adapt xs = o at hadapt ⊢
      generalize u.strategy.adapt ys = o' at hadapt ⊢
      cases o <;> cases o' <;> cases hadapt
      case ok.ok.value h _ => exact hround (S.data_single h)
      case error.error.fatal h => exact .fatal h
      case error.error.left h | error.ok.left h => exact .left h
      case error.error.right h | ok.error.right h => exact .right h

/-! ## Variations and rules -/

theorem readContent (h : s.Steady call) (h' : t.Steady call') (hcall : S.Callers call call')
    (hv : S.variations v u) {content content' : Content}
    (hcontent : List.Forall₂ S.Items content content') {xs ys : List Value} (hdata : S.data xs ys)
    (hc : S.cursors c d) :
    S.Runs S.data (s.readContent call v xs c content) (t.readContent call' u ys d content') := by
  induction hcontent generalizing xs ys c d with
  | nil => exact .value hdata hc
  | @cons x y content content' hxy _ ih =>
    have hitem := matchItem hcall hv hxy hc
    have hsingle : (∀ kind body, x ≠ .loop kind body) → (∀ kind body, y ≠ .loop kind body) →
        S.Runs S.data (s.readContent call v xs c (x :: content))
          (t.readContent call' u ys d (y :: content')) := by
      intro hx hy
      rw [Setting.readContent_cons hx, Setting.readContent_cons hy]
      simp only [Alignment.Runs] at hitem ⊢
      generalize s.matchItem call v c x = r at hitem ⊢
      generalize t.matchItem call' u d y = r' at hitem ⊢
      obtain ⟨o, stop, calls⟩ := r
      obtain ⟨o', stop', calls'⟩ := r'
      cases hitem with
      | value h hstop => exact ih (S.data_append hdata h) hstop
      | mismatch h _ hstop => exact .mismatch h trivial hstop
      | fatal h => exact .fatal h
      | left h => exact .left h
      | right h => exact .right h
    cases hxy with
    | atom _ => exact hsingle nofun nofun
    | either _ => exact hsingle nofun nofun
    | foreign => exact hsingle nofun nofun
    | loop hbody => exact readLoop h h' hcall hv _ hbody false hdata hc

/-- Variations that are related are read in related ways. -/
theorem read (h : s.Steady call) (h' : t.Steady call') (hcall : S.Callers call call')
    (hv : S.variations v u) (hc : S.cursors c d) :
    S.Runs S.data (s.read call v c) (t.read call' u d) :=
  readContent h h' hcall hv (S.content hv) S.data_nil hc

theorem conclude (hv : S.variations v u) {start start' stop stop' : Cursor}
    (hstart : S.cursors start start') (hstop : S.cursors stop stop') (h : s.Advances start stop)
    (h' : t.Advances start' stop') {xs ys : List Value} (hdata : S.data xs ys)
    (calls calls' : List Call) :
    S.Runs S.values (s.conclude v start xs stop calls) (t.conclude u start' ys stop' calls') := by
  rw [Setting.conclude_eq, Setting.conclude_eq]
  exact S.adapt hv hdata (S.settle hv hstart hstop h h')

/-- The furthest failure starts below all others, so it need not be related before something was
tried. -/
theorem readChoice (h : s.Steady call) (h' : t.Steady call') (hcall : S.Callers call call')
    {vs us : List Variation} (hvs : List.Forall₂ S.variations vs us) (hc : S.cursors c d)
    {i j : Nat}
    (hmax : ∀ {i' j'}, S.indices i' j' → S.indices (max i i') (max j j'))
    (htried : vs ≠ [] ∨ S.indices i j) :
    S.Runs S.values (s.readChoice call c i vs) (t.readChoice call' d j us) := by
  induction hvs generalizing i j with
  | nil => exact .mismatch (htried.resolve_left fun h => h rfl) trivial hc
  | @cons v u vs us hv _ ih =>
    have hread := read h h' hcall hv hc
    have hends := Setting.ends_read h v c
    have hends' := Setting.ends_read h' u d
    simp only [Setting.readChoice, Alignment.Runs] at hread hends hends' ⊢
    generalize s.read call v c = r at hread hends ⊢
    generalize t.read call' u d = r' at hread hends' ⊢
    obtain ⟨o, stop, calls⟩ := r
    obtain ⟨o', stop', calls'⟩ := r'
    cases hread with
    | value hdata hstop =>
      exact conclude hv hc hstop (hends.of_value rfl) (hends'.of_value rfl) hdata calls calls'
    | mismatch hi _ _ => exact ih (S.index_max (hmax hi)) (.inr (hmax hi))
    | fatal h => exact .fatal h
    | left h => exact .left h
    | right h => exact .right h

/-- **Simulations carry over to rules**: if the rules that are called agree, so do the rules that
call them. -/
theorem readRule_succ {m n : Nat} (h : S.Callers (s.readRule m) (t.readRule n)) :
    S.Callers (s.readRule (m + 1)) (t.readRule (n + 1)) := by
  intro rule c d hc
  have hrules := S.rules rule
  simp only [Setting.readRule]
  generalize s.grammar.variationsOf rule = vs at hrules ⊢
  generalize t.grammar.variationsOf rule = us at hrules ⊢
  cases hrules with
  | nil => exact .fatal (S.undefined rule)
  | cons hv hrest =>
    refine readChoice (s.steady_readRule m) (t.steady_readRule n) h (.cons hv hrest) hc ?_
      (.inl (List.cons_ne_nil _ _))
    intro i j hij
    simpa using hij

/-- Rules agree at every depth if they agree about an exhausted one. -/
theorem readRule (S : Simulation s t) (h : ∀ {c d} rule, S.cursors c d →
      S.faults (.parse (.atIndex .depthExceeded rule s.tokens c.index))
        (.parse (.atIndex .depthExceeded rule t.tokens d.index))) (depth : Nat) :
    S.Callers (s.readRule depth) (t.readRule depth) := by
  induction depth with
  | zero =>
    intro rule c d hc
    have hrules := S.rules rule
    simp only [Setting.readRule, Setting.enter]
    generalize s.grammar.variationsOf rule = vs at hrules ⊢
    generalize t.grammar.variationsOf rule = us at hrules ⊢
    cases hrules with
    | nil => exact .fatal (S.undefined rule)
    | cons _ _ => exact .fatal (h rule hc)
  | succ depth ih => exact readRule_succ ih

end Simulation

/-! ## Equal evaluations -/

/-- Everything is the same on both sides but the variations, and some faults of the first run excuse
the second one. -/
def Alignment.equality (R : Variation → Variation → Prop) (excuses : Fault → Prop) : Alignment where
  cursors := Eq
  indices := Eq
  values := Eq
  data := Eq
  atoms := Eq
  variations := R
  faults := Eq
  excusesLeft := excuses
  excusesRight _ := False

theorem Alignment.equality_data (R : Variation → Variation → Prop) (excuses : Fault → Prop)
    (data : List Value) : (equality R excuses).data data data := rfl

theorem Alignment.equality_faults (R : Variation → Variation → Prop) (excuses : Fault → Prop)
    (fault : Fault) : (equality R excuses).faults fault fault := rfl

/-- Variations with the same content and strategy, which match tokens and give back trivia in the
same way, make evaluations that are the same. -/
def Simulation.ofEq {s t : Setting} {R : Variation → Variation → Prop} (excuses : Fault → Prop)
    (content : ∀ {v u}, R v u → v.content = u.content)
    (strategy : ∀ {v u}, R v u → v.strategy = u.strategy)
    (token : ∀ {v u}, R v u → ∀ a c, s.matchToken v a c = t.matchToken u a c)
    (settle : ∀ {v u}, R v u → ∀ start stop, s.settled v start stop = t.settled u start stop)
    (rules : ∀ rule, List.Forall₂ R (s.grammar.variationsOf rule) (t.grammar.variationsOf rule)) :
    Simulation s t where
  toAlignment := .equality R excuses
  index_of_cursor := by
    rintro c _ rfl
    rfl
  index_max := by
    rintro i _ i' _ rfl rfl
    rfl
  data_nil := Alignment.equality_data R excuses []
  data_append hx hy := congrArg₂ (· ++ ·) hx hy
  data_single h := congrArg (fun x => [x]) h
  data_captured ha hx := congrArg₂ Setting.captured ha hx
  atom_isRule := by
    rintro a _ rfl
    rfl
  atom_name := by
    rintro a _ rfl _
    rfl
  content {v u} h := by
    rw [← content h]
    exact Alignment.Items.refl_all (fun _ => rfl) v.content
  token := by
    rintro v u a _ c _ h rfl htoken rfl
    rw [← token h]
    have hends := s.ends_matchToken v a c
    simp only [Alignment.Runs]
    cases hr : (s.matchToken v a c).outcome with
    | value x => exact .value rfl rfl
    | mismatch i => exact .mismatch rfl trivial rfl
    | fatal e => exact (hends.of_fatal hr).elim
  adapt := by
    rintro v u xs _ c _ h rfl rfl
    rw [← strategy h, Strategy.outcome]
    cases v.strategy.adapt xs with
    | ok x => exact .value rfl rfl
    | error e => exact .fatal rfl
  settle := by
    rintro v u start _ stop _ h rfl rfl _ _
    exact settle h start stop
  progress := by
    rintro c _ c' _ rfl rfl _ _
    exact Iff.rfl
  rules := rules
  undefined _ := Alignment.equality_faults R excuses _
  inconceivable := Alignment.equality_faults R excuses _

/-- An evaluation compared with one of the same input by the same grammar. -/
def Simulation.refl (s : Setting) (excuses : Fault → Prop) : Simulation s s :=
  .ofEq (R := Eq) excuses (congrArg Variation.content) (congrArg Variation.strategy)
    (fun h a c => by rw [h]) (fun h start stop => by rw [h])
    (fun _ => List.forall₂_same.mpr fun _ _ => rfl)

/-- Parses whose evaluations are the same end in the same way, if no fault is excused. -/
theorem Alignment.conclusion_eq {R : Variation → Variation → Prop} {excuses : Fault → Prop}
    {r r' : Run Value} (h : (equality R excuses).Runs Eq r r')
    (hfault : ∀ e, r.outcome = .fatal e → ¬ excuses e) (rule : String) (tokens : List Token) :
    Grammar.conclusion rule tokens r = Grammar.conclusion rule tokens r' := by
  obtain ⟨o, stop, calls⟩ := r
  obtain ⟨o', stop', calls'⟩ := r'
  simp only [Alignment.Runs] at h
  cases h with
  | value hx hstop =>
    cases hx
    cases hstop
    rfl
  | mismatch hi _ _ =>
    cases hi
    rfl
  | fatal he =>
    cases he
    rfl
  | left he => exact absurd he (hfault _ rfl)
  | right he => exact he.elim

end TokenGrammar
