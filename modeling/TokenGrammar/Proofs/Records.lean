import TokenGrammar.Proofs.Discipline

/-!
# Records of calls

An evaluation records the rules that it calls. A property of such records that survives whatever is
recorded later holds at the end of the evaluation, for alternatives that were given up as well. It
may speak about the index where the evaluation starts, which later calls never lie before, and about
the fault in which the evaluation ends: only the last of its calls can have met that fault.

The usual case is a property of each record alone, for which it is enough that what holds where the
evaluation goes on holds however it ends.

## Main definitions

* `Call.Composes`: the properties that may be carried from calls to the end of an evaluation.
* `Call.Lasting`, `Call.Kept`: the same for properties of each record alone.
* `Setting.Recorded`, `Setting.Records`: the callers whose records have a property.
-/
namespace TokenGrammar

namespace Call

/-- A property of what is recorded from an index on: it holds where nothing was recorded, and calls
after which the evaluation went on have it together with the calls that came then. -/
structure Composes (Q : Nat → Option Fault → List Call → Prop) : Prop where
  nil (i : Nat) (fault : Option Fault) : Q i fault []
  append {i j : Nat} {fault : Option Fault} {calls calls' : List Call} :
    Q i none calls → i ≤ j → Q j fault calls' → Q i fault (calls ++ calls')

/-- What was recorded while the evaluation went on, in an evaluation that ends at once. -/
theorem Composes.ending {Q : Nat → Option Fault → List Call → Prop} (hQ : Composes Q) {i : Nat}
    {calls : List Call} (h : Q i none calls) (fault : Option Fault) : Q i fault calls := by
  have hend := hQ.append h (Nat.le_refl i) (hQ.nil i fault)
  rwa [List.append_nil] at hend

/-- What holds of a record while the evaluation goes on holds however it ends. -/
def Lasting (P : Option Fault → Call → Prop) : Prop := ∀ x fault, P none x → P fault x

/-- All records have a property in an evaluation that ended in a fault, or in none. -/
def Kept (P : Option Fault → Call → Prop) (fault : Option Fault) (calls : List Call) : Prop :=
  ∀ x ∈ calls, P fault x

theorem Kept.nil {P : Option Fault → Call → Prop} {fault : Option Fault} : Kept P fault [] :=
  List.forall_mem_nil _

/-- A property of each record alone composes. -/
theorem Lasting.composes {P : Option Fault → Call → Prop} (hP : Lasting P) :
    Composes fun _ => Kept P where
  nil _ _ := .nil
  append h _ h' := List.forall_mem_append.mpr ⟨fun x hx => hP x _ (h x hx), h'⟩

end Call

namespace Setting

open Call (Composes Lasting Kept)

/-- What is recorded of the rules that were called has a property, wherever they were called from.
-/
def Recorded (Q : Nat → Option Fault → List Call → Prop) (call : Caller) : Prop :=
  ∀ rule c, c.Ordered → Q c.index (call rule c).outcome.fault? (call rule c).calls

/-- Every record of the rules that were called has a property. -/
def Records (P : Option Fault → Call → Prop) (call : Caller) : Prop :=
  ∀ rule c, c.Ordered → Kept P (call rule c).outcome.fault? (call rule c).calls

variable {s : Setting} {call : Caller} {Q : Nat → Option Fault → List Call → Prop} {c : Cursor}

theorem recorded_matchAtom (hQ : Composes Q) (hcall : Recorded Q call) (v : Variation) (a : Atom)
    (hc : c.Ordered) :
    Q c.index (s.matchAtom call v a c).outcome.fault? (s.matchAtom call v a c).calls := by
  rw [matchAtom]
  split
  · exact hcall a.name c hc
  · rw [matchToken]
    split
    · split <;> exact hQ.nil _ _
    · exact hQ.nil _ _

theorem recorded_matchEither (hQ : Composes Q) (hcall : Recorded Q call) (v : Variation)
    (hc : c.Ordered) (furthest : Nat) (candidates : List Atom) :
    let r := s.matchEither call v c furthest candidates
    Q c.index r.outcome.fault? r.calls := by
  induction candidates generalizing furthest with
  | nil => exact hQ.nil _ _
  | cons a rest ih =>
    have hatom := recorded_matchAtom (s := s) hQ hcall v a hc
    simp only [matchEither]
    cases hr : (s.matchAtom call v a c).outcome with
    | mismatch j =>
      rw [hr] at hatom
      exact hQ.append hatom (Nat.le_refl _) (ih _)
    | value x | fatal e =>
      rw [hr] at hatom
      exact hatom

theorem recorded_matchItem (hQ : Composes Q) (hcall : Recorded Q call) (v : Variation)
    (hc : c.Ordered) (item : Item) :
    Q c.index (s.matchItem call v c item).outcome.fault? (s.matchItem call v c item).calls := by
  cases item with
  | atom a =>
    have hatom := recorded_matchAtom (s := s) hQ hcall v a hc
    simp only [matchItem, matchOne]
    cases hr : (s.matchAtom call v a c).outcome <;>
      · rw [hr] at hatom
        exact hatom
  | either e => exact recorded_matchEither hQ hcall v hc c.index e.candidates
  | loop kind body => exact hQ.nil _ _
  | foreign type text => exact hQ.nil _ _

theorem recorded_readPass (h : s.Steady call) (hQ : Composes Q) (hcall : Recorded Q call)
    (v : Variation) (data : List Value) (hc : c.Ordered) (body : Content) :
    Q c.index (s.readPass call v data c body).outcome.fault?
      (s.readPass call v data c body).calls := by
  induction body generalizing data c with
  | nil => exact hQ.nil _ _
  | cons item rest ih =>
    have hitem := recorded_matchItem (s := s) hQ hcall v hc item
    simp only [readPass]
    cases hr : (s.matchItem call v c item).outcome with
    | mismatch j | fatal e =>
      rw [hr] at hitem
      exact hitem
    | value more =>
      rw [hr] at hitem
      have hadvances := (ends_matchItem h v item c).of_value hr
      exact hQ.append hitem hadvances.index_le (ih _ (hadvances.keeps_ordered hc))

theorem recorded_readLoop (h : s.Steady call) (hQ : Composes Q) (hcall : Recorded Q call)
    (v : Variation) (kind : LoopKind) (body : Content) (first : Bool) (data : List Value)
    (hc : c.Ordered) :
    let r := s.readLoop call v kind body first data c
    Q c.index r.outcome.fault? r.calls := by
  fun_induction readLoop s call v kind body first data c with
  | case1 => exact hQ.nil _ _
  | case2 first data c folded hfold p e hp =>
    have hpass : Q c.index p.outcome.fault? p.calls :=
      recorded_readPass h hQ hcall v folded hc body
    rw [hp] at hpass
    exact hpass
  | case3 first data c folded hfold p j hp =>
    have hpass : Q c.index p.outcome.fault? p.calls :=
      recorded_readPass h hQ hcall v folded hc body
    rw [hp] at hpass
    exact hQ.ending hpass _
  | case4 first data c folded hfold p hp hless ih =>
    have hpass : Q c.index p.outcome.fault? p.calls :=
      recorded_readPass h hQ hcall v folded hc body
    rw [hp] at hpass
    have hadvances := ((s.ends_readPass call v folded c body).of_value hp).advances h
    exact hQ.append hpass hadvances.index_le (ih (hadvances.keeps_ordered hc))
  | case5 first data c folded hfold p hp hless =>
    have hpass : Q c.index p.outcome.fault? p.calls :=
      recorded_readPass h hQ hcall v folded hc body
    rw [hp] at hpass
    exact hpass

theorem recorded_readContent (h : s.Steady call) (hQ : Composes Q) (hcall : Recorded Q call)
    (v : Variation) (data : List Value) (hc : c.Ordered) (content : Content) :
    Q c.index (s.readContent call v data c content).outcome.fault?
      (s.readContent call v data c content).calls := by
  induction content generalizing data c with
  | nil => exact hQ.nil _ _
  | cons item rest ih =>
    have hitem := recorded_matchItem (s := s) hQ hcall v hc item
    cases item with
    | loop kind body => exact recorded_readLoop h hQ hcall v kind body true data hc
    | atom _ | either _ | foreign _ _ =>
      simp only [readContent]
      cases hr : (s.matchItem call v c _).outcome with
      | mismatch j | fatal e =>
        rw [hr] at hitem
        exact hitem
      | value more =>
        rw [hr] at hitem
        have hadvances := (ends_matchItem h v _ c).of_value hr
        exact hQ.append hitem hadvances.index_le (ih _ (hadvances.keeps_ordered hc))

theorem recorded_readChoice (h : s.Steady call) (hQ : Composes Q) (hcall : Recorded Q call)
    (hc : c.Ordered) (furthest : Nat) (vs : List Variation) :
    let r := s.readChoice call c furthest vs
    Q c.index r.outcome.fault? r.calls := by
  induction vs generalizing furthest with
  | nil => exact hQ.nil _ _
  | cons v rest ih =>
    have hread := recorded_readContent h hQ hcall v [] hc v.content
    simp only [readChoice, read, conclude_eq]
    cases hr : (s.readContent call v [] c v.content).outcome with
    | value data =>
      rw [hr] at hread
      exact hQ.ending hread _
    | mismatch j =>
      rw [hr] at hread
      exact hQ.append hread (Nat.le_refl _) (ih _)
    | fatal e =>
      rw [hr] at hread
      exact hread

/-- The choice between variations, for properties of each record alone. -/
theorem records_readChoice {P : Option Fault → Call → Prop} (h : s.Steady call) (hP : Lasting P)
    (hcall : Records P call) (hc : c.Ordered) (furthest : Nat) (vs : List Variation) :
    let r := s.readChoice call c furthest vs
    Kept P r.outcome.fault? r.calls :=
  recorded_readChoice h hP.composes hcall hc furthest vs

/-- A property that the record of a rule has if the records inside it have the property for one
level less is had by all records of an evaluation. Without a level left, a rule records nothing but
its fault, and so does a rule that does not exist. -/
theorem recorded_readRule (s : Setting) {Q : Nat → Nat → Option Fault → List Call → Prop}
    (hQ : ∀ depth, Composes (Q depth))
    (hlast : ∀ rule i fault, fault = .config (.undefinedRule rule) ∨
      fault = .parse (.atIndex .depthExceeded rule s.tokens i) →
        Q 0 i (some fault) [.mk rule i [] (.fatal fault)])
    (hrecord : ∀ depth rule i inner outcome, Q depth i outcome.fault? inner →
      Q (depth + 1) i outcome.fault? [.mk rule i inner outcome])
    (depth : Nat) : Recorded (Q depth) (s.readRule depth) := by
  induction depth with
  | zero =>
    intro rule c _
    rw [readRule, enter]
    cases s.grammar.variationsOf rule with
    | nil => exact hlast rule c.index _ (.inl rfl)
    | cons v rest => exact hlast rule c.index _ (.inr rfl)
  | succ depth ih =>
    intro rule c hc
    rw [readRule, Run.outcome_record]
    refine hrecord depth rule c.index _ _ ?_
    split
    · exact (hQ depth).nil _ _
    · exact recorded_readChoice (s.steady_readRule depth) (hQ depth) ih hc 0 _

end Setting
end TokenGrammar
