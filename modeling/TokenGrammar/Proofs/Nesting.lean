import Mathlib.Data.List.Basic
import Mathlib.Logic.ExistsUnique
import TokenGrammar.Evaluation.Run

/-!
# Nested events

A trace is a flat list of entries and exits. Which exit belongs to an entry can be told from the
kinds of the events alone, as for brackets: it is the one with balanced events in between. That the
two name the same rule at the same depth, and that depths grow inwards, is then a property of a
trace, and the events of a record of calls have it.

A position of the events of a record is found again in the record, by recursion over the calls: it
belongs to one of the calls, as the entry or the exit, or it lies inside one of them.

## Main definitions

* `Event.Balanced`: lists of events with as many exits as entries, none of them too early.
* `Event.Pair`: an entry and the exit that belongs to it.
* `Event.WellNested`: the traces whose pairs agree and are nested by depth and index.
* `Call.AllAscend`: records in which no call starts before the one around it.
-/
namespace TokenGrammar

namespace Event

/-- The depth of an event. -/
def depth : Event → Nat
  | .enter depth _ _ => depth
  | .exit depth _ _ => depth

/-- Entries and exits that are balanced like brackets, whatever rules and depths they name. -/
inductive Balanced : List Event → Prop
  | nil : Balanced []
  | block {depth depth' index : Nat} {rule rule' : String} {outcome : Outcome Value}
      {inner rest : List Event} (inside : Balanced inner) (after : Balanced rest) :
      Balanced (.enter depth rule index :: (inner ++ .exit depth' rule' outcome :: rest))

/-- An entry and an exit stand at two positions, and the events between them are balanced. -/
def Pair (events : List Event) (i j : Nat) : Prop :=
  ∃ before depth rule index inner depth' rule' outcome after,
    events = before ++ .enter depth rule index :: (inner ++ .exit depth' rule' outcome :: after) ∧
      Balanced inner ∧ before.length = i ∧ i + inner.length + 1 = j

/-- A position lies strictly inside a pair. -/
def Around (events : List Event) (i j m : Nat) : Prop := Pair events i j ∧ i < m ∧ m < j

/-- A trace in which entries and exits are properly nested. -/
structure WellNested (events : List Event) : Prop where
  /-- Every entry belongs to exactly one exit. -/
  exits : ∀ i depth rule index, events[i]? = some (.enter depth rule index) → ∃! j, Pair events i j
  /-- Every exit belongs to exactly one entry. -/
  entries : ∀ j depth rule outcome, events[j]? = some (.exit depth rule outcome) →
    ∃! i, Pair events i j
  /-- The two events of a pair name one rule and one depth. -/
  agree : ∀ i j, Pair events i j → ∃ depth rule index outcome,
    events[i]? = some (.enter depth rule index) ∧ events[j]? = some (.exit depth rule outcome)
  /-- Everything inside a pair is deeper. -/
  deeper : ∀ i j m e f, Around events i j m → events[i]? = some e → events[m]? = some f →
    e.depth < f.depth
  /-- What lies directly inside a pair is one level deeper, and starts at its index or later. -/
  direct : ∀ i j m depth rule index e, Around events i j m →
    (∀ i' j', Around events i' j' m → i' ≤ i) → events[i]? = some (.enter depth rule index) →
    events[m]? = some e →
      e.depth = depth + 1 ∧ ∀ depth' rule' index', e = .enter depth' rule' index' → index ≤ index'

/-! ## Balanced events -/

/-- The number of rules that are entered and not left. -/
def height : List Event → Int
  | [] => 0
  | .enter _ _ _ :: rest => height rest + 1
  | .exit _ _ _ :: rest => height rest - 1

@[simp] theorem height_append (front back : List Event) :
    height (front ++ back) = height front + height back := by
  induction front with
  | nil => simp [height]
  | cons e rest ih => cases e <;> simp only [List.cons_append, height, ih] <;> omega

theorem Balanced.height_eq_zero {events : List Event} (h : Balanced events) :
    height events = 0 := by
  induction h with
  | nil => rfl
  | block _ _ ihin ihafter => simp [height, ihin, ihafter]

/-- Up to no place more rules are left than entered. -/
theorem Balanced.height_front_nonneg {events : List Event} (h : Balanced events)
    {front back : List Event} (hsplit : events = front ++ back) : 0 ≤ height front := by
  induction h generalizing front back with
  | nil =>
    obtain ⟨rfl, -⟩ := List.append_eq_nil_iff.mp hsplit.symm
    exact Int.le_refl 0
  | block inside _ ihin ihafter =>
    obtain ⟨rfl, -⟩ | ⟨front, rfl, htail⟩ := List.cons_eq_append_iff.mp hsplit
    · exact Int.le_refl 0
    obtain ⟨mid, rfl, hrest⟩ | ⟨mid, hinner, -⟩ := List.append_eq_append_iff.mp htail
    · have hinside := inside.height_eq_zero
      obtain ⟨rfl, -⟩ | ⟨mid, rfl, hafter⟩ := List.cons_eq_append_iff.mp hrest
      · simp only [List.append_nil, height]
        omega
      · have hmid := ihafter hafter
        simp only [height_append, height]
        omega
    · have hfront := ihin hinner
      simp only [height]
      omega

section

variable {depth depth' index index' : Nat} {rule rule' : String} {outcome outcome' : Outcome Value}
  {before before' inner inner' after after' : List Event}

/-- The exit after balanced events is determined: before a later one, a rule would be left that was
not entered. -/
theorem Balanced.exit_unique (h : Balanced inner) (h' : Balanced inner')
    (heq : inner ++ .exit depth rule outcome :: after =
      inner' ++ .exit depth' rule' outcome' :: after') : inner = inner' := by
  -- the longer of the two would have the shorter one and its exit in front
  have hnone : ∀ {inner mid : List Event} {depth rule outcome}, Balanced inner →
      ¬ Balanced (inner ++ .exit depth rule outcome :: mid) := by
    intro inner mid depth rule outcome hinner hlong
    rw [List.append_cons] at hlong
    have hfront := hlong.height_front_nonneg rfl
    rw [height_append, hinner.height_eq_zero] at hfront
    simp [height] at hfront
  obtain ⟨mid, rfl, hrest⟩ | ⟨mid, rfl, hrest⟩ := List.append_eq_append_iff.mp heq
  · obtain ⟨rfl, -⟩ | ⟨mid, rfl, -⟩ := List.cons_eq_append_iff.mp hrest
    · exact (List.append_nil _).symm
    · exact absurd h' (hnone h)
  · obtain ⟨rfl, -⟩ | ⟨mid, rfl, -⟩ := List.cons_eq_append_iff.mp hrest
    · exact List.append_nil _
    · exact absurd h (hnone h')

/-- The entry before balanced events is determined as well. -/
theorem Balanced.entry_unique (h : Balanced inner) (h' : Balanced inner')
    (heq : before ++ .enter depth rule index :: inner =
      before' ++ .enter depth' rule' index' :: inner') : before = before' := by
  have hnone : ∀ {mid inner : List Event} {depth rule index}, Balanced inner →
      ¬ Balanced (mid ++ .enter depth rule index :: inner) := by
    intro mid inner depth rule index hinner hlong
    have hfront := hlong.height_front_nonneg rfl
    have hzero := hlong.height_eq_zero
    rw [height_append, height, hinner.height_eq_zero] at hzero
    omega
  obtain ⟨mid, rfl, hrest⟩ | ⟨mid, rfl, hrest⟩ := List.append_eq_append_iff.mp heq
  · obtain ⟨rfl, -⟩ | ⟨mid, rfl, rfl⟩ := List.cons_eq_append_iff.mp hrest
    · exact (List.append_nil _).symm
    · exact absurd h (hnone h')
  · obtain ⟨rfl, -⟩ | ⟨mid, rfl, rfl⟩ := List.cons_eq_append_iff.mp hrest
    · exact List.append_nil _
    · exact absurd h' (hnone h)

end

/-! ## Pairs -/

variable {events : List Event} {i i' j j' : Nat}

/-- Where balanced events lie between an entry and an exit, the two are a pair. -/
theorem Pair.of_split {before inner after : List Event} {depth depth' index : Nat}
    {rule rule' : String} {outcome : Outcome Value} (hinner : Balanced inner)
    (h : events = before ++ .enter depth rule index ::
      (inner ++ .exit depth' rule' outcome :: after)) :
    Pair events before.length (before.length + inner.length + 1) :=
  ⟨before, depth, rule, index, inner, depth', rule', outcome, after, h, hinner, rfl, rfl⟩

theorem Pair.append_left (h : Pair events i j) (front : List Event) :
    Pair (front ++ events) (front.length + i) (front.length + j) := by
  obtain ⟨before, depth, rule, index, inner, depth', rule', outcome, after, rfl, hinner, rfl, rfl⟩ :=
    h
  refine ⟨front ++ before, depth, rule, index, inner, depth', rule', outcome, after, ?_, hinner,
    List.length_append, by omega⟩
  rw [List.append_assoc]

theorem Pair.append_right (h : Pair events i j) (back : List Event) :
    Pair (events ++ back) i j := by
  obtain ⟨before, depth, rule, index, inner, depth', rule', outcome, after, rfl, hinner, rfl, rfl⟩ :=
    h
  refine ⟨before, depth, rule, index, inner, depth', rule', outcome, after ++ back, ?_, hinner,
    rfl, rfl⟩
  simp only [List.append_assoc, List.cons_append]

theorem Pair.exit_unique (h : Pair events i j) (h' : Pair events i j') : j = j' := by
  obtain ⟨before, _, _, _, inner, _, _, _, after, rfl, hinner, rfl, rfl⟩ := h
  obtain ⟨before', _, _, _, inner', _, _, _, after', heq, hinner', hlen, rfl⟩ := h'
  obtain ⟨-, hrest⟩ := List.append_inj heq hlen.symm
  rw [hinner.exit_unique hinner' (List.cons.inj hrest).2]

theorem Pair.entry_unique (h : Pair events i j) (h' : Pair events i' j) : i = i' := by
  obtain ⟨before, _, _, _, inner, _, _, _, after, rfl, hinner, rfl, rfl⟩ := h
  obtain ⟨before', _, _, _, inner', _, _, _, after', heq, hinner', rfl, hlen⟩ := h'
  rw [← List.cons_append, ← List.append_assoc, ← List.cons_append, ← List.append_assoc] at heq
  obtain ⟨hfront, -⟩ := List.append_inj heq
    (by simp only [List.length_append, List.length_cons]; omega)
  rw [hinner.entry_unique hinner' hfront]

/-- An event in the middle of a list, with what is before and after it. -/
theorem exists_split {e : Event} (h : events[i]? = some e) :
    ∃ front back, events = front ++ e :: back ∧ front.length = i := by
  obtain ⟨hi, rfl⟩ := List.getElem?_eq_some_iff.mp h
  refine ⟨events.take i, events.drop (i + 1), ?_, List.length_take_of_le (Nat.le_of_lt hi)⟩
  rw [List.getElem_cons_drop, List.take_append_drop]

theorem getElem?_split (front back : List Event) (e : Event) :
    (front ++ e :: back)[front.length]? = some e := by
  rw [List.getElem?_append_right (Nat.le_refl _), Nat.sub_self, List.getElem?_cons_zero]

/-- The positions inside a pair are those of the events between its two. -/
theorem getElem?_inside {before inner rest : List Event} {entry : Event} {m : Nat}
    (hi : before.length < m) (hj : m < before.length + inner.length + 1) :
    (before ++ entry :: (inner ++ rest))[m]? = inner[m - (before.length + 1)]? := by
  obtain ⟨k, rfl⟩ : ∃ k, m = before.length + 1 + k := ⟨m - (before.length + 1), by omega⟩
  rw [List.getElem?_append_right (by omega), Nat.add_assoc, Nat.add_sub_cancel_left, Nat.add_comm 1,
    List.getElem?_cons_succ, List.getElem?_append_left (by omega)]
  congr 1
  omega

end Event

/-! ## Records -/

namespace Call

open Event (Balanced Pair Around WellNested)

/-- Where the rule of a call was entered. -/
def index : Call → Nat
  | .mk _ index _ _ => index

mutual

/-- No rule inside a recorded rule was entered before the one around it. -/
def Ascends : Call → Prop
  | .mk _ index inner _ => AllAscend index inner

/-- Recorded rules that were entered at an index or later, with all rules inside them. -/
def AllAscend (start : Nat) : List Call → Prop
  | [] => True
  | c :: cs => start ≤ c.index ∧ c.Ascends ∧ AllAscend start cs

end

theorem allEvents_cons (base : Nat) (rule : String) (index : Nat) (inner : List Call)
    (outcome : Outcome Value) (cs : List Call) :
    allEvents base (.mk rule index inner outcome :: cs) =
      .enter base rule index ::
        (allEvents (base + 1) inner ++ .exit base rule outcome :: allEvents base cs) := by
  simp [allEvents, events]

theorem allEvents_singleton (base : Nat) (rule : String) (index : Nat) (inner : List Call)
    (outcome : Outcome Value) :
    allEvents base [.mk rule index inner outcome] =
      .enter base rule index :: (allEvents (base + 1) inner ++ [.exit base rule outcome]) :=
  allEvents_cons base rule index inner outcome []

theorem allEvents_append (base : Nat) (cs ds : List Call) :
    allEvents base (cs ++ ds) = allEvents base cs ++ allEvents base ds := by
  induction cs with
  | nil => rfl
  | cons c cs ih => simp [allEvents, ih]

theorem balanced_allEvents : (base : Nat) → (calls : List Call) → Balanced (allEvents base calls)
  | _, [] => .nil
  | base, .mk _ _ inner _ :: cs => by
    rw [allEvents_cons]
    exact .block (balanced_allEvents (base + 1) inner) (balanced_allEvents base cs)

/-- No event of a record is less deep than the record. -/
theorem le_depth_of_mem : (base : Nat) → (calls : List Call) →
    ∀ e ∈ allEvents base calls, base ≤ e.depth
  | _, [] => List.forall_mem_nil _
  | base, .mk rule index inner outcome :: cs => by
    have hinner := le_depth_of_mem (base + 1) inner
    have hrest := le_depth_of_mem base cs
    intro e he
    rw [allEvents_cons, List.mem_cons, List.mem_append, List.mem_cons] at he
    obtain rfl | he | rfl | he := he
    · exact Nat.le_refl base
    · exact Nat.le_of_succ_le (hinner e he)
    · exact Nat.le_refl base
    · exact hrest e he

/-- The places in the events of a call and of what follows it: the entry, the inside, the exit, and
the rest. -/
theorem places_of_split {entry exit e : Event} {inner rest front back : List Event}
    (h : entry :: (inner ++ exit :: rest) = front ++ e :: back) :
    (front = [] ∧ e = entry ∧ back = inner ++ exit :: rest) ∨
      (∃ mid mid', front = entry :: mid ∧ inner = mid ++ e :: mid' ∧ back = mid' ++ exit :: rest) ∨
      (front = entry :: inner ∧ e = exit ∧ back = rest) ∨
      ∃ mid, front = entry :: (inner ++ exit :: mid) ∧ rest = mid ++ e :: back := by
  obtain ⟨rfl, hhead⟩ | ⟨front, rfl, htail⟩ := List.cons_eq_append_iff.mp h
  · obtain ⟨rfl, rfl⟩ := List.cons.inj hhead
    exact .inl ⟨rfl, rfl, rfl⟩
  obtain ⟨mid, rfl, hrest⟩ | ⟨mid, rfl, hrest⟩ := List.append_eq_append_iff.mp htail
  · obtain ⟨rfl, hexit⟩ | ⟨mid, rfl, rfl⟩ := List.cons_eq_append_iff.mp hrest
    · obtain ⟨rfl, rfl⟩ := List.cons.inj hexit
      exact .inr (.inr (.inl ⟨by rw [List.append_nil], rfl, rfl⟩))
    · exact .inr (.inr (.inr ⟨mid, rfl, rfl⟩))
  · obtain ⟨rfl, hexit⟩ | ⟨mid, rfl, rfl⟩ := List.cons_eq_append_iff.mp hrest
    · obtain ⟨rfl, rfl⟩ := List.cons.inj hexit
      exact .inr (.inr (.inl ⟨by rw [List.append_nil], rfl, rfl⟩))
    · exact .inr (.inl ⟨front, mid, rfl, rfl, rfl⟩)

/-- An event of a record is the entry or the exit of a recorded rule, and the events of the rules
inside it come next or came before. -/
theorem exists_of_split {base start : Nat} : {calls : List Call} → AllAscend start calls →
    {front back : List Event} → {e : Event} → allEvents base calls = front ++ e :: back →
    ∃ depth rule index inner outcome, AllAscend index inner ∧
      ((∃ after, e = .enter depth rule index ∧
        back = allEvents (depth + 1) inner ++ .exit depth rule outcome :: after) ∨
      ∃ before, e = .exit depth rule outcome ∧
        front = before ++ .enter depth rule index :: allEvents (depth + 1) inner)
  | [], _, front, back, e, h => by simp [allEvents] at h
  | .mk rule index inner outcome :: cs, ⟨_, hascend, hcs⟩, front, back, e, h => by
    rw [allEvents_cons] at h
    obtain ⟨-, rfl, rfl⟩ | ⟨mid, mid', rfl, hinner, rfl⟩ | ⟨rfl, rfl, -⟩ | ⟨mid, rfl, hrest⟩ :=
      places_of_split h
    · exact ⟨base, rule, index, inner, outcome, hascend, .inl ⟨_, rfl, rfl⟩⟩
    · obtain ⟨depth, name, n, calls, o, hcalls, ⟨after, rfl, rfl⟩ | ⟨before, rfl, rfl⟩⟩ :=
        exists_of_split hascend hinner
      · refine ⟨depth, name, n, calls, o, hcalls, .inl ⟨after ++ .exit base rule outcome ::
          allEvents base cs, rfl, ?_⟩⟩
        simp only [List.cons_append, List.append_assoc]
      · exact ⟨depth, name, n, calls, o, hcalls, .inr ⟨.enter base rule index :: before, rfl, rfl⟩⟩
    · exact ⟨base, rule, index, inner, outcome, hascend, .inr ⟨[], rfl, rfl⟩⟩
    · obtain ⟨depth, name, n, calls, o, hcalls, hentry | ⟨before, rfl, rfl⟩⟩ :=
        exists_of_split hcs hrest
      · exact ⟨depth, name, n, calls, o, hcalls, .inl hentry⟩
      · refine ⟨depth, name, n, calls, o, hcalls, .inr ⟨.enter base rule index ::
          (allEvents (base + 1) inner ++ .exit base rule outcome :: before), rfl, ?_⟩⟩
        simp only [List.cons_append, List.append_assoc]

/-- An event of a record belongs to one of its calls, or lies inside one of them. -/
theorem direct_or_around {base start : Nat} {calls : List Call} (hcalls : AllAscend start calls)
    {front back : List Event} {e : Event} (h : allEvents base calls = front ++ e :: back) :
    (e.depth = base ∧ ∀ depth rule index, e = .enter depth rule index → start ≤ index) ∨
      ∃ i j, Around (allEvents base calls) i j front.length := by
  induction calls generalizing front with
  | nil => simp [allEvents] at h
  | cons c cs ih =>
    obtain ⟨rule, index, inner, outcome⟩ := c
    obtain ⟨hstart, -, hcs⟩ := hcalls
    rw [allEvents_cons] at h ⊢
    obtain ⟨-, rfl, -⟩ | ⟨mid, mid', rfl, hinner, -⟩ | ⟨-, rfl, -⟩ | ⟨mid, rfl, hrest⟩ :=
      places_of_split h
    · refine .inl ⟨rfl, ?_⟩
      rintro _ _ _ ⟨⟩
      exact hstart
    · have hlength : mid.length < (allEvents (base + 1) inner).length := by
        rw [hinner, List.length_append, List.length_cons]
        omega
      have hpair := Pair.of_split (balanced_allEvents (base + 1) inner) (List.nil_append
        (.enter base rule index :: (_ ++ .exit base rule outcome :: allEvents base cs))).symm
      refine .inr ⟨_, _, hpair, Nat.succ_pos _, ?_⟩
      rw [List.length_cons, List.length_nil]
      omega
    · exact .inl ⟨rfl, by rintro _ _ _ ⟨⟩⟩
    · obtain hdirect | ⟨i, j, hpair, hi, hj⟩ := ih hcs hrest
      · exact .inl hdirect
      · have hshift := hpair.append_left
          (.enter base rule index :: (allEvents (base + 1) inner ++ [.exit base rule outcome]))
        simp only [List.cons_append, List.append_assoc, List.nil_append] at hshift
        refine .inr ⟨_, _, hshift, ?_, ?_⟩ <;>
          simp only [List.length_append, List.length_cons, List.length_nil] <;> omega

/-- A pair in a record is a recorded rule: between the two events are the events of the rules inside
it. -/
theorem exists_of_pair {base start : Nat} {calls : List Call} (hcalls : AllAscend start calls)
    {i j : Nat} (h : Pair (allEvents base calls) i j) :
    ∃ before depth rule index inner outcome after, AllAscend index inner ∧
      allEvents base calls = before ++ .enter depth rule index ::
        (allEvents (depth + 1) inner ++ .exit depth rule outcome :: after) ∧
      before.length = i ∧ i + (allEvents (depth + 1) inner).length + 1 = j := by
  obtain ⟨before, depth, rule, index, between, _, _, _, after, hsplit, hbetween, rfl, rfl⟩ := h
  obtain ⟨_, _, _, inner, outcome, hinner, ⟨rest, ⟨⟩, hrest⟩ | ⟨_, ⟨⟩, -⟩⟩ :=
    exists_of_split hcalls hsplit
  have hsame := hbetween.exit_unique (balanced_allEvents (depth + 1) inner) hrest
  subst hsame
  rw [hrest] at hsplit
  exact ⟨before, depth, rule, index, inner, outcome, rest, hinner, hsplit, rfl, rfl⟩

/-- The events of a record are well nested. -/
theorem wellNested_allEvents (base : Nat) {start : Nat} {calls : List Call}
    (hcalls : AllAscend start calls) : WellNested (allEvents base calls) where
  exits := by
    intro i depth rule index h
    obtain ⟨front, back, hsplit, rfl⟩ := Event.exists_split h
    obtain ⟨_, _, _, inner, outcome, -, ⟨after, ⟨⟩, rfl⟩ | ⟨_, ⟨⟩, -⟩⟩ :=
      exists_of_split hcalls hsplit
    have hpair := Pair.of_split (balanced_allEvents (depth + 1) inner) hsplit
    exact ⟨_, hpair, fun j h' => h'.exit_unique hpair⟩
  entries := by
    intro j depth rule outcome h
    obtain ⟨front, back, hsplit, rfl⟩ := Event.exists_split h
    obtain ⟨_, _, index, inner, _, -, ⟨_, ⟨⟩, -⟩ | ⟨before, ⟨⟩, rfl⟩⟩ :=
      exists_of_split hcalls hsplit
    rw [List.append_assoc, List.cons_append] at hsplit
    have hpair := Pair.of_split (balanced_allEvents (depth + 1) inner) hsplit
    rw [List.length_append, List.length_cons, ← Nat.add_assoc]
    exact ⟨_, hpair, fun i h' => h'.entry_unique hpair⟩
  agree := by
    intro i j h
    obtain ⟨before, depth, rule, index, inner, outcome, after, -, hsplit, rfl, rfl⟩ :=
      exists_of_pair hcalls h
    refine ⟨depth, rule, index, outcome, by rw [hsplit, Event.getElem?_split], ?_⟩
    have hexit := Event.getElem?_split
      (before ++ .enter depth rule index :: allEvents (depth + 1) inner) after
      (.exit depth rule outcome)
    rwa [List.append_assoc, List.cons_append, ← hsplit, List.length_append, List.length_cons,
      ← Nat.add_assoc] at hexit
  deeper := by
    intro i j m e f ⟨h, hi, hj⟩ he hf
    obtain ⟨before, depth, rule, index, inner, outcome, after, -, hsplit, rfl, rfl⟩ :=
      exists_of_pair hcalls h
    rw [hsplit] at he hf
    rw [Event.getElem?_inside hi hj] at hf
    rw [Event.getElem?_split] at he
    cases he
    exact le_depth_of_mem (depth + 1) inner f (List.mem_of_getElem? hf)
  direct := by
    intro i j m depth rule index e ⟨h, hi, hj⟩ hinnermost he hm
    obtain ⟨before, _, _, _, inner, outcome, after, hinner, hsplit, rfl, rfl⟩ :=
      exists_of_pair hcalls h
    rw [hsplit] at he hm
    rw [Event.getElem?_inside hi hj] at hm
    rw [Event.getElem?_split] at he
    cases he
    obtain ⟨front, back, hback, hlength⟩ := Event.exists_split hm
    obtain hdirect | ⟨i', j', hpair, hi', hj'⟩ := direct_or_around hinner hback
    · exact hdirect
    · -- a pair inside the pair would start after it
      have hshift := (hpair.append_right (.exit depth rule outcome :: after)).append_left
        (before ++ [.enter depth rule index])
      simp only [List.append_assoc, List.cons_append, List.nil_append, ← hsplit,
        List.length_append, List.length_cons, List.length_nil] at hshift
      have hle := hinnermost _ _ ⟨hshift, by omega, by omega⟩
      omega

end Call
end TokenGrammar
