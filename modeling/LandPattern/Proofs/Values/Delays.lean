import LandPattern.Proofs.Run.Budget
import LandPattern.Proofs.Run.Ensures
import LandPattern.Proofs.Values.Restamp

/-!
# Acts at a later moment

An act that is done later, when more operations have been charged and more stamps were given, does
the same: it ends with the same result up to the stamps that it gave itself, or with some fault where
the earlier one ends with a fault. Only the budget may run out sooner.
-/

namespace LandPattern

namespace Act

/-- How two acts are held against one another. -/
structure Lag (σ : Type) where
  /-- The states up to which they are held against one another. -/
  scope : σ → Prop
  /-- More was charged before the later one. -/
  slow : Prop

/-- How a later act ends beside an earlier one. `change` is how its result differs, and `near` how
the state that it leaves does. -/
def EndsLater {σ α : Type} (slow : Prop) (near : σ → σ → Prop) (change : α → α) :
    Except Fault α × σ → Except Fault α × σ → Prop
  | (.ok value, after), (.ok found, later) => found = change value ∧ near after later
  | (.ok _, _), (.error fault, _) => slow ∧ fault.cause.kind = .timeout
  | (.error _, _), (.ok _, _) => False
  | (.error _, _), (.error _, _) => True

/-- The later act follows the act: from a state in the relation `before` it ends as the act does, and
the states afterwards are in the relation `after`. -/
structure Follows {ρ σ α : Type} (context : ρ) (lag : Lag σ) (before after : σ → σ → Prop)
    (change : α → α) (act later : Act ρ σ α) : Prop where
  /-- The act does not come back into the scope. -/
  earlier : ∀ state, lag.scope (act.outcome context state).2 → lag.scope state
  ends : ∀ state other, before state other → lag.scope (act.outcome context state).2 →
    EndsLater lag.slow after change (act.outcome context state) (later.outcome context other)

namespace Follows

variable {ρ σ α β : Type} {context : ρ} {lag : Lag σ} {before middle after : σ → σ → Prop}
  {change : α → α} {act later : Act ρ σ α}

theorem pure {value found : α} (h : found = change value) :
    Follows context lag before before change (pure value : Act ρ σ α) (pure found) :=
  ⟨fun _ => id, fun _ _ hnear _ => ⟨h, hnear⟩⟩

theorem fault (fault other : Fault) :
    Follows context lag before after change (throw fault : Act ρ σ α) (throw other) :=
  ⟨fun _ => id, fun _ _ _ _ => trivial⟩

/-- The second acts are entered with results that differ by the first change; something may be known
of the results of the first act. -/
theorem bindEnsured {changed : β → β} {next more : α → Act ρ σ β} {promise : α → Prop}
    (h : Follows context lag before middle change act later)
    (hp : Act.Ensures context (fun _ => True) act promise)
    (hn : ∀ value, promise value →
      Follows context lag middle after changed (next value) (more (change value))) :
    Follows context lag before after changed (act >>= next) (later >>= more) := by
  constructor
  · intro state
    have hback := h.earlier state
    have hresult := (hp state trivial).2
    rw [outcome_bind]
    generalize act.outcome context state = ended at hback hresult ⊢
    rcases ended with ⟨value | value, reached⟩
    · exact hback
    · exact fun hlast => hback ((hn value (hresult value rfl)).earlier reached hlast)
  · intro state other hnear
    have hfirst := h.ends state other hnear
    have hresult := (hp state trivial).2
    rw [outcome_bind, outcome_bind]
    generalize act.outcome context state = ended at hfirst hresult ⊢
    generalize later.outcome context other = endedLater at hfirst ⊢
    rcases ended with ⟨value | value, reached⟩
    · intro hscope
      rcases endedLater with ⟨found | found, met⟩
      · trivial
      · exact (hfirst hscope).elim
    · intro hlast
      have hnext := hn value (hresult value rfl)
      have hfirst := hfirst (hnext.earlier reached hlast)
      rcases endedLater with ⟨found | found, met⟩
      · dsimp only
        cases (next value).outcome context reached with
        | mk result last => cases result <;> first | exact hfirst | trivial
      · obtain ⟨rfl, hmiddle⟩ := hfirst
        exact hnext.ends reached met hmiddle hlast

theorem bind {changed : β → β} {next more : α → Act ρ σ β}
    (h : Follows context lag before middle change act later)
    (hn : ∀ value, Follows context lag middle after changed (next value) (more (change value))) :
    Follows context lag before after changed (act >>= next) (later >>= more) :=
  bindEnsured h (fun _ _ => ⟨trivial, fun _ _ => trivial⟩) fun value _ => hn value

theorem ofExcept {result found : Except Refusal α} (h : found = result.map change) :
    Follows context lag before before change (Act.ofExcept result : Act ρ σ α)
      (Act.ofExcept found) := by
  subst h
  cases result with
  | ok value => exact .pure rfl
  | error why => exact .fault _ _

theorem read : Follows context lag before before id (read : Act ρ σ ρ) read :=
  ⟨fun _ => id, fun _ _ hnear _ => ⟨rfl, hnear⟩⟩

theorem modify {move moved : σ → σ} (hs : ∀ state, lag.scope (move state) → lag.scope state)
    (h : ∀ state other, before state other → lag.scope (move state) →
      after (move state) (moved other)) :
    Follows context lag before after id (modify move : Act ρ σ PUnit) (modify moved) :=
  ⟨hs, fun state other hnear hscope => ⟨rfl, h state other hnear hscope⟩⟩

theorem ite {condition : Prop} [Decidable condition] {no never : Act ρ σ α}
    (h : Follows context lag before after change act later)
    (hn : Follows context lag before after change no never) :
    Follows context lag before after change (if condition then act else no)
      (if condition then later else never) := by
  split
  · exact h
  · exact hn

/-- A running out of the budget stays one wherever the fault is placed. -/
theorem mapFault {place placed : Fault → Fault}
    (hc : ∀ fault, (placed fault).cause = fault.cause)
    (h : Follows context lag before after change act later) :
    Follows context lag before after change (Act.mapFault place act)
      (Act.mapFault placed later) := by
  refine ⟨fun state hscope => h.earlier state ?_, fun state other hnear => ?_⟩
  · rwa [outcome_mapFault] at hscope
  · have hact := h.ends state other hnear
    rw [outcome_mapFault, outcome_mapFault]
    generalize act.outcome context state = ended at hact ⊢
    generalize later.outcome context other = endedLater at hact ⊢
    intro hscope
    have hact := hact hscope
    rcases ended with ⟨value | value, reached⟩ <;> rcases endedLater with ⟨found | found, met⟩
    · trivial
    · exact hact
    · exact ⟨hact.1, (congrArg Fault.Cause.kind (hc found)).trans hact.2⟩
    · exact hact

theorem closing {close closed : σ → σ} (hs : ∀ state, lag.scope (close state) → lag.scope state)
    (hc : ∀ state other, middle state other → after (close state) (closed other))
    (h : Follows context lag before middle change act later) :
    Follows context lag before after change (Act.closing close act)
      (Act.closing closed later) := by
  refine ⟨fun state hscope => h.earlier state (hs _ hscope), fun state other hnear hscope => ?_⟩
  have hact := h.ends state other hnear (hs _ hscope)
  rw [outcome_closing, outcome_closing]
  generalize act.outcome context state = ended at hact ⊢
  generalize later.outcome context other = endedLater at hact ⊢
  rcases ended with ⟨value | value, reached⟩ <;> rcases endedLater with ⟨found | found, met⟩
  · trivial
  · exact hact
  · exact hact
  · exact ⟨hact.1, hc reached met hact.2⟩

end Follows

end Act

/-- How much later an act is done: so many more operations have been charged, and so many more
stamps were given. The stamps from the first one on are others in the later act, as far as the count
of stamps is followed. -/
structure Delay where
  /-- The stamp in the place of a stamp. -/
  stamp : Nat → Nat
  first : Nat
  /-- The counts of stamps that are followed. -/
  counts : Nat → Prop
  stamps : Nat
  /-- As many operations have been charged at least before the earlier act. -/
  least : Nat
  operations : Nat
  injective : stamp.Injective
  shifted : ∀ s, first ≤ s → counts (s + 1) → stamp s = s + stamps
  earlier : ∀ count, counts (count + 1) → counts count

namespace Delay

variable (delay : Delay)

/-- The value with its later stamps. -/
abbrev value (v : Value) : Value := v.restamp delay.stamp

/-- The sequence with its later stamps. -/
abbrev sequence (s : Sequence Value) : Sequence Value := s.restamp delay.stamp

/-- The meter at the later moment. -/
structure Meters (meter later : Meter) : Prop where
  first : delay.first ≤ meter.nextStamp
  stamps : later.nextStamp = meter.nextStamp + delay.stamps
  least : delay.least ≤ meter.operations
  operations : later.operations = meter.operations + delay.operations

/-- Acts on the meter are held against one another as far as the count of stamps is followed. -/
abbrev lag : Act.Lag Meter := ⟨fun meter => delay.counts meter.nextStamp, 0 < delay.operations⟩

end Delay

namespace Metered

variable {α : Type} {delay : Delay} {limits : Limits}

/-- The later act follows the act by a delay. -/
abbrev Follows (delay : Delay) (limits : Limits) (change : α → α) (act later : Metered α) : Prop :=
  Act.Follows limits delay.lag delay.Meters delay.Meters change act later

theorem follows_refuse (why other : Refusal) {change : α → α} :
    Follows delay limits change (refuse why) (refuse other) := .fault _ _

theorem follows_charge (cost : Nat) : Follows delay limits id (charge cost) (charge cost) := by
  constructor
  · intro meter
    rw [outcome_charge]
    split <;> exact id
  · intro meter later h _
    have hmore := h.operations
    rw [outcome_charge, outcome_charge]
    by_cases hover : limits.operations < meter.operations + cost
    · rw [if_pos hover, if_pos (by omega)]
      trivial
    · rw [if_neg hover]
      by_cases hlater : limits.operations < later.operations + cost
      · have hslow : 0 < delay.operations := by omega
        rw [if_pos hlater]
        exact ⟨hslow, rfl⟩
      · rw [if_neg hlater]
        refine ⟨rfl, h.first, h.stamps, Nat.le_add_right_of_le h.least, ?_⟩
        dsimp only
        omega

theorem follows_countRounds (rounds : Rounds) :
    Follows delay limits id (countRounds rounds) (countRounds rounds) :=
  .modify (fun _ => id) fun _ _ h _ => ⟨h.first, h.stamps, h.least, h.operations⟩

theorem follows_chargeRepetition (length times : Nat) :
    Follows delay limits id (chargeRepetition length times) (chargeRepetition length times) :=
  .bind (follows_charge _) fun _ => follows_countRounds _

/-- The stamp that is given later. -/
theorem follows_freshStamp : Follows delay limits delay.stamp freshStamp freshStamp := by
  refine ⟨fun meter hscope => delay.earlier _ hscope, fun meter later h hscope => ?_⟩
  have hstamps := h.stamps
  refine ⟨?_, Nat.le_succ_of_le h.first, ?_, h.least, h.operations⟩
  · rw [hstamps, delay.shifted _ h.first hscope]
  · change later.nextStamp + 1 = meter.nextStamp + 1 + delay.stamps
    omega

theorem follows_check (bound : Limits → Nat) (size : Nat) (why : Nat → Refusal) :
    Follows delay limits id
      (do
        let limit := bound (← read)
        if limit < size then refuse (why limit) : Metered Unit)
      (do
        let limit := bound (← read)
        if limit < size then refuse (why limit)) :=
  .bind .read fun _ => .ite (follows_refuse _ _) (.pure rfl)

theorem follows_checkLength (length : Nat) :
    Follows delay limits id (checkLength length) (checkLength length) :=
  follows_check Limits.collection length fun limit => .tooLong length limit

theorem follows_checkRepetition (length times : Nat) :
    Follows delay limits id (checkRepetition length times) (checkRepetition length times) :=
  follows_check Limits.collection (length * times) fun limit =>
    .tooLong (saturatingProduct length times) limit

theorem follows_checkDepth (depth : Nat) :
    Follows delay limits id (checkDepth depth) (checkDepth depth) :=
  follows_check Limits.valueDepth depth fun limit => .tooDeep limit

theorem follows_checkSequence (s : Sequence Value) :
    Follows delay limits id (checkSequence s) (checkSequence (delay.sequence s)) := by
  unfold checkSequence
  rw [Sequence.length_restamp, Sequence.depth_restamp]
  exact .bind (follows_checkLength _) fun _ => follows_checkDepth _

theorem follows_checkValue (v : Value) :
    Follows delay limits id (checkValue v) (checkValue (delay.value v)) := by
  cases v with
  | list s | tuple s =>
    simp only [Delay.value, Value.restamp_list, Value.restamp_tuple, checkValue]
    exact follows_checkSequence s
  | text s => exact follows_checkLength _
  | _ => exact .pure rfl

theorem follows_sequence (items : List Value) :
    Follows delay limits delay.sequence (sequence items) (sequence (items.map delay.value)) :=
  .bind follows_freshStamp fun stamp => .pure (Sequence.ofItems_restamp _ items stamp).symm

theorem follows_list (items : List Value) :
    Follows delay limits delay.value (list items) (list (items.map delay.value)) :=
  .bind (follows_sequence items) fun s => .pure (Value.restamp_list _ s).symm

end Metered

end LandPattern
