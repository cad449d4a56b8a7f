import LandPattern.Proofs.Run.Issued
import LandPattern.Proofs.Run.Regular
import LandPattern.Proofs.Values.Likeness

/-!
# What is expected of an act

An act is expected to end with a certain result, or to end with a fault. Where a result is expected,
the act may still run out of its budget; where a fault is expected, any fault will do. Two acts of
which the same is expected therefore end alike, unless the budget ends one of them. What is expected
of a sequence of acts is read off its parts.
-/

namespace LandPattern

open Script (Function Span)

namespace Act

/-- The act ended as expected: with a result that is what the expected one stands for, or with a
fault where no result is expected or the budget was exceeded. -/
def EndsAs {σ α γ : Type} (expected : Option γ) (result : γ → α → σ → Prop) :
    Except Fault α × σ → Prop
  | (.ok value, after) => ∃ found, expected = some found ∧ result found value after
  | (.error fault, _) => expected = none ∨ fault.cause.kind = .timeout

/-- From all these states the act ends as expected. -/
def Answers {ρ σ α γ : Type} (context : ρ) (before : σ → Prop) (act : Act ρ σ α)
    (expected : Option γ) (result : γ → α → σ → Prop) : Prop :=
  ∀ state, before state → EndsAs expected result (act.outcome context state)

namespace Answers

variable {ρ σ α β γ δ : Type} {context : ρ} {before : σ → Prop} {act : Act ρ σ α}
  {expected : Option γ} {result : γ → α → σ → Prop}

theorem pure {value : α} {found : γ} (h : ∀ state, before state → result found value state) :
    Answers context before (pure value) (some found) result :=
  fun state hstate => ⟨found, rfl, h state hstate⟩

theorem fault (fault : Fault) :
    Answers context before (throw fault : Act ρ σ α) (none : Option γ) result :=
  fun _ _ => .inl rfl

/-- The second act is entered with a result and in a state as expected of the first one. -/
theorem bind {next : α → Act ρ σ β} {rest : γ → Option δ} {final : δ → β → σ → Prop}
    (h : Answers context before act expected result)
    (hn : ∀ found value, expected = some found →
      Answers context (result found value) (next value) (rest found) final) :
    Answers context before (act >>= next) (expected.bind rest) final := by
  intro state hstate
  have hact := h state hstate
  rw [outcome_bind]
  generalize act.outcome context state = ended at hact ⊢
  rcases ended with ⟨fault | value, after⟩
  · rcases hact with rfl | htimeout
    · exact .inl rfl
    · exact .inr htimeout
  · obtain ⟨found, rfl, hresult⟩ := hact
    exact hn found value rfl after hresult

/-- Behind a result nothing else is expected than of the second act. -/
theorem seq {found : γ} {next : α → Act ρ σ β} {last : Option δ} {final : δ → β → σ → Prop}
    (h : Answers context before act (some found) result)
    (hn : ∀ value, Answers context (result found value) (next value) last final) :
    Answers context before (act >>= next) last final := by
  have hnext : Answers context before (act >>= next) ((some found).bind fun _ => last) final :=
    h.bind fun _ value heq => by
      cases heq
      exact hn value
  exact hnext

/-- Behind a fault there is nothing. -/
theorem stops {next : α → Act ρ σ β} {final : δ → β → σ → Prop}
    (h : Answers context before act (none : Option γ) result) :
    Answers context before (act >>= next) none final := by
  have hnext : Answers context before (act >>= next) ((none : Option γ).bind fun _ => none) final :=
    h.bind fun _ _ heq => by cases heq
  exact hnext

/-- The expected result is read as another one. -/
theorem expect {rest : γ → δ} {other : δ → α → σ → Prop}
    (h : Answers context before act expected result)
    (hr : ∀ found value state, expected = some found → result found value state →
      other (rest found) value state) :
    Answers context before act (expected.map rest) other := by
  intro state hstate
  have hact := h state hstate
  generalize act.outcome context state = ended at hact ⊢
  rcases ended with ⟨fault | value, after⟩
  · exact hact.imp_left fun hnone => by rw [hnone]; rfl
  · obtain ⟨found, hfound, hresult⟩ := hact
    exact ⟨rest found, by rw [hfound]; rfl, hr found value after hfound hresult⟩

/-- The same is expected when less is asked of the result. -/
theorem weaken {other : γ → α → σ → Prop} (h : Answers context before act expected result)
    (hr : ∀ found value state, result found value state → other found value state) :
    Answers context before act expected other := by
  have hsame : Answers context before act (expected.map id) other :=
    h.expect fun found value state _ => hr found value state
  rwa [Option.map_id, id] at hsame

/-- Behind anything, a fault is a fault. -/
theorem fails {next : α → Act ρ σ β} (h : ∀ value, Answers context (fun _ => True) (next value)
    (none : Option γ) fun _ _ _ => False) {final : γ → β → σ → Prop} :
    Answers context before (act >>= next) none final := by
  intro state _
  rw [outcome_bind]
  generalize act.outcome context state = ended
  rcases ended with ⟨fault | value, after⟩
  · exact .inl rfl
  · have hnext := h value after trivial
    dsimp only
    generalize (next value).outcome context after = last at hnext ⊢
    rcases last with ⟨fault | found, met⟩
    · exact .inl rfl
    · obtain ⟨_, heq, -⟩ := hnext
      cases heq

theorem ofExcept {answer : Except Refusal α} {same : α → α → σ → Prop}
    (hr : ∀ value state, before state → same value value state) :
    Answers context before (Act.ofExcept answer) answer.toOption same := by
  cases answer with
  | ok value => exact .pure fun state hstate => hr value state hstate
  | error why => exact .fault _

theorem mapFault {place : Fault → Fault} (hc : ∀ fault, (place fault).cause = fault.cause)
    (h : Answers context before act expected result) :
    Answers context before (Act.mapFault place act) expected result := by
  intro state hstate
  have hact := h state hstate
  rw [outcome_mapFault]
  generalize act.outcome context state = ended at hact ⊢
  rcases ended with ⟨fault | value, after⟩
  · exact hact.imp_right fun htimeout => (congrArg Fault.Cause.kind (hc fault)).trans htimeout
  · exact hact

theorem closing {close : σ → σ}
    (h : Answers context before act expected fun found value state =>
      result found value (close state)) :
    Answers context before (Act.closing close act) expected result := by
  intro state hstate
  have hact := h state hstate
  rw [outcome_closing]
  generalize act.outcome context state = ended at hact ⊢
  rcases ended with ⟨fault | value, after⟩ <;> exact hact

end Answers

/-- Two acts ended alike: both with a fault, or both with a result and in states that are related,
unless one of them ran out of its budget. -/
def EndsBoth {σ τ α β : Type} (same : α → σ → β → τ → Prop) :
    Except Fault α × σ → Except Fault β × τ → Prop
  | (.ok value, after), (.ok found, last) => same value after found last
  | (.ok _, _), (.error fault, _) => fault.cause.kind = .timeout
  | (.error fault, _), (.ok _, _) => fault.cause.kind = .timeout
  | (.error _, _), (.error _, _) => True

/-- Acts of which the same is expected end alike. -/
theorem EndsAs.both {σ τ α β γ : Type} {expected : Option γ} {result : γ → α → σ → Prop}
    {other : γ → β → τ → Prop} {same : α → σ → β → τ → Prop} {ended : Except Fault α × σ}
    {met : Except Fault β × τ} (h : EndsAs expected result ended) (ho : EndsAs expected other met)
    (hs : ∀ found value after another last, expected = some found → result found value after →
      other found another last → same value after another last) : EndsBoth same ended met := by
  rcases ended with ⟨fault | value, after⟩ <;> rcases met with ⟨trouble | another, last⟩
  · trivial
  · obtain ⟨found, rfl, -⟩ := ho
    exact h.resolve_left fun hnone => by cases hnone
  · obtain ⟨found, rfl, -⟩ := h
    exact ho.resolve_left fun hnone => by cases hnone
  · obtain ⟨found, rfl, hresult⟩ := h
    obtain ⟨_, heq, hother⟩ := ho
    cases heq
    exact hs found value after another last rfl hresult hother

end Act

/-! ## Acts on the meter -/

/-- The later meter: no fewer stamps were given, and no fewer operations were charged. -/
structure Meter.Grown (meter later : Meter) : Prop where
  stamps : meter.nextStamp ≤ later.nextStamp
  operations : meter.operations ≤ later.operations

theorem Meter.Grown.refl (meter : Meter) : meter.Grown meter := ⟨Nat.le_refl _, Nat.le_refl _⟩

theorem Meter.Grown.trans {meter middle later : Meter} (h : meter.Grown middle)
    (hl : middle.Grown later) : meter.Grown later :=
  ⟨Nat.le_trans h.stamps hl.stamps, Nat.le_trans h.operations hl.operations⟩

namespace Metered

variable {α β γ δ : Type} {limits : Limits} {act : Metered α}

/-- What the vocabulary does lets the meter grow. -/
theorem Made.grows {Throws : Fault → Prop} (h : act.Made Throws) (limits : Limits) (meter : Meter) :
    Act.Ensures limits meter.Grown act fun _ => True := by
  have hcharge (cost : Nat) : Act.Ensures limits meter.Grown (Metered.charge cost) fun _ => True :=
    .bind (.modify fun _ hgrown => ⟨hgrown.stamps, Nat.le_add_right_of_le hgrown.operations⟩)
      fun _ _ => .bind .read fun _ _ => .bind .get fun _ _ =>
        .ite (fun _ => .fault _) fun _ => .pure trivial
  have hcheck (bound : Limits → Nat) (size : Nat) (why : Nat → Refusal) :
      Act.Ensures limits meter.Grown (do
        let limit := bound (← read)
        if limit < size then Metered.refuse (why limit) : Metered Unit) fun _ => True :=
    .bind .read fun _ _ => .ite (fun _ => .fault _) fun _ => .pure trivial
  induction h with
  | pure value => exact .pure trivial
  | bind _ _ ih ihn => exact .bind ih fun value _ => ihn value
  | fault fault _ => exact .fault fault
  | charge cost => exact hcharge cost
  | chargeRepetition length times =>
    exact .bind (hcharge _) fun _ _ => .modify fun _ hgrown => ⟨hgrown.stamps, hgrown.operations⟩
  | freshStamp =>
    exact fun _ hgrown => ⟨⟨Nat.le_succ_of_le hgrown.stamps, hgrown.operations⟩, fun _ _ => trivial⟩
  | checkLength length => exact hcheck Limits.collection length fun limit => .tooLong length limit
  | checkRepetition length times =>
    exact hcheck Limits.collection (length * times) fun limit =>
      .tooLong (saturatingProduct length times) limit
  | checkDepth depth => exact hcheck Limits.valueDepth depth fun limit => .tooDeep limit
  | literalOf v =>
    refine .bind .read fun _ _ => ?_
    dsimp only
    split
    · exact .pure trivial
    · exact .fault _

/-- From all meters the act ends as expected. -/
abbrev Answers (limits : Limits) (act : Metered α) (expected : Option γ) (same : γ → α → Prop) :
    Prop :=
  Act.Answers limits (fun _ => True) act expected fun found value _ => same found value

theorem answers_pure {value : α} {found : γ} {same : γ → α → Prop} (h : same found value) :
    Answers limits (pure value) (some found) same := .pure fun _ _ => h

theorem answers_bind {expected : Option γ} {same : γ → α → Prop} {next : α → Metered β}
    {rest : γ → Option δ} {final : δ → β → Prop} (h : Answers limits act expected same)
    (hn : ∀ found value, expected = some found → same found value →
      Answers limits (next value) (rest found) final) :
    Answers limits (act >>= next) (expected.bind rest) final :=
  .bind h fun found value hfound meter hsame => hn found value hfound hsame meter trivial

theorem answers_seq {found : γ} {expected : Option δ} {same : γ → α → Prop} {next : α → Metered β}
    {final : δ → β → Prop} (h : Answers limits act (some found) same)
    (hn : ∀ value, Answers limits (next value) expected final) :
    Answers limits (act >>= next) expected final :=
  .seq h fun value meter _ => hn value meter trivial

/-- Of acts that all end alike the same is expected: a result that one of them has, if any has
one. -/
theorem exists_answers {ι : Type} {act : ι → Metered α} {same : α → α → Prop}
    (h : ∀ i j, Coincide limits same (act i) (act j)) :
    ∃ expected : Option α, (∀ i, Answers limits (act i) expected same) ∧
      ∀ value, expected = some value → ∃ i meter, ((act i).outcome limits meter).1 = .ok value := by
  by_cases hok : ∃ i meter value, ((act i).outcome limits meter).1 = .ok value
  · obtain ⟨i, meter, value, hvalue⟩ := hok
    refine ⟨some value, fun j another _ => ?_, fun _ heq => ⟨i, meter, by cases heq; exact hvalue⟩⟩
    have hends := h i j meter another
    rw [hvalue] at hends
    generalize (act j).outcome limits another = ended at hends ⊢
    rcases ended with ⟨fault | found, after⟩
    · exact .inr hends
    · exact ⟨value, rfl, hends⟩
  · refine ⟨none, fun i meter _ => ?_, fun _ heq => by cases heq⟩
    cases hrun : (act i).outcome limits meter with
    | mk result after =>
      cases result with
      | error fault => exact .inl rfl
      | ok value => exact absurd ⟨i, meter, value, congrArg Prod.fst hrun⟩ hok

theorem answers_charge (cost : Nat) :
    Answers limits (charge cost) (some ()) fun _ _ => True := by
  intro meter _
  rw [outcome_charge]
  split
  · exact .inr rfl
  · exact ⟨(), rfl, trivial⟩

theorem answers_freshStamp : Answers limits freshStamp (some ()) fun _ _ => True :=
  fun _ _ => ⟨(), rfl, trivial⟩

theorem answers_check (bound : Limits → Nat) (size : Nat) (why : Nat → Refusal) :
    Answers limits
      (do
        let limit := bound (← read)
        if limit < size then refuse (why limit) : Metered Unit)
      (if size ≤ bound limits then some () else none) fun _ _ => True := by
  intro meter _
  simp only [Act.outcome_bind, Act.outcome_read]
  by_cases hover : bound limits < size
  · rw [if_pos hover, if_neg (Nat.not_le.2 hover)]
    exact .inl rfl
  · rw [if_neg hover, if_pos (Nat.le_of_not_lt hover)]
    exact ⟨(), rfl, trivial⟩

end Metered

/-! ## Steps of an evaluation that is resumed -/

/-- The machine stands at a later moment with the constants and the variables of the first one, but
for what was done to those of the innermost call. -/
structure Machine.Resumed (start : Machine) (done : Locals → Locals) (machine : Machine) : Prop where
  globals : machine.globals = start.globals
  frames : machine.frames = start.frames.modifyHead done
  meter : start.meter.Grown machine.meter

theorem Machine.Resumed.refl (start : Machine) : start.Resumed id start :=
  ⟨rfl, List.modifyHead_id.symm ▸ rfl, .refl _⟩

namespace Evaluation

variable {α β γ δ : Type} {context : Context} {start : Machine} {done : Locals → Locals}
  {act : Evaluation α} {expected : Option γ} {result : γ → α → (Locals → Locals) → Prop}

/-- Wherever the step is resumed, it ends as expected, and then with the variables at the start but
for what was done to those of the innermost call. -/
abbrev Answers (context : Context) (start : Machine) (done : Locals → Locals) (act : Evaluation α)
    (expected : Option γ) (result : γ → α → (Locals → Locals) → Prop) : Prop :=
  Act.Answers context (start.Resumed done) act expected fun found value machine =>
    ∃ after, result found value after ∧ start.Resumed after machine

/-- The step does nothing to the variables. -/
abbrev Answers.Only (same : γ → α → Prop) (done : Locals → Locals) :
    γ → α → (Locals → Locals) → Prop :=
  fun found value after => same found value ∧ after = done

theorem answers_pure {value : α} {found : γ} (h : result found value done) :
    Answers context start done (pure value) (some found) result :=
  .pure fun _ hresumed => ⟨done, h, hresumed⟩

theorem answers_bind {next : α → Evaluation β} {rest : γ → Option δ}
    {final : δ → β → (Locals → Locals) → Prop}
    (h : Answers context start done act expected result)
    (hn : ∀ found value after, expected = some found → result found value after →
      Answers context start after (next value) (rest found) final) :
    Answers context start done (act >>= next) (expected.bind rest) final := by
  refine .bind h fun found value hfound machine hmachine => ?_
  obtain ⟨after, hresult, hresumed⟩ := hmachine
  exact hn found value after hfound hresult machine hresumed

/-- The second step after one that does nothing to the variables. -/
theorem answers_then {same : γ → α → Prop} {next : α → Evaluation β} {rest : γ → Option δ}
    {final : δ → β → (Locals → Locals) → Prop}
    (h : Answers context start done act expected (Answers.Only same done))
    (hn : ∀ found value, expected = some found → same found value →
      Answers context start done (next value) (rest found) final) :
    Answers context start done (act >>= next) (expected.bind rest) final := by
  refine answers_bind h fun found value after hfound hresult => ?_
  obtain ⟨hsame, rfl⟩ := hresult
  exact hn found value hfound hsame

/-- The second step after one of which only success is expected. -/
theorem answers_seq {found : γ} {same : γ → α → Prop} {next : α → Evaluation β} {last : Option δ}
    {final : δ → β → (Locals → Locals) → Prop}
    (h : Answers context start done act (some found) (Answers.Only same done))
    (hn : ∀ value, same found value → Answers context start done (next value) last final) :
    Answers context start done (act >>= next) last final := by
  refine .seq h fun value machine hmachine => ?_
  obtain ⟨_, ⟨hsame, rfl⟩, hresumed⟩ := hmachine
  exact hn value hsame machine hresumed

theorem answers_refuseAt (span : Span) (why : Refusal) :
    Answers context start done (refuseAt span why) none result := .fault _

theorem answers_locating (span : Span) (h : Answers context start done act expected result) :
    Answers context start done (locating span act) expected result :=
  .mapFault (fun fault => fault.cause_locate span) h

theorem answers_ofExcept {answer : Except Refusal α} :
    Answers context start done (Act.ofExcept answer) answer.toOption (Answers.Only Eq done) :=
  .ofExcept fun _ _ hresumed => ⟨done, ⟨rfl, rfl⟩, hresumed⟩

theorem answers_ofMetered {act : Metered α} {same : γ → α → Prop} (hm : act.Regular)
    (h : Metered.Answers context.limits act expected same) :
    Answers context start done (ofMetered act) expected (Answers.Only same done) := by
  intro machine hresumed
  have hact := h machine.meter trivial
  have hgrown := (hm.grows context.limits machine.meter machine.meter (.refl _)).1
  rw [ofMetered, Act.outcome_ofOutcome]
  generalize act.outcome context.limits machine.meter = ended at hact hgrown ⊢
  rcases ended with ⟨fault | value, meter⟩
  · exact hact
  · obtain ⟨found, hfound, hsame⟩ := hact
    exact ⟨found, hfound, done, ⟨hsame, rfl⟩, hresumed.globals, hresumed.frames,
      hresumed.meter.trans hgrown⟩

theorem answers_charge :
    Answers context start done (ofMetered (Metered.charge 1)) (some ())
      (Answers.Only (fun _ _ => True) done) :=
  answers_ofMetered (.charge 1) (Metered.answers_charge 1)

/-- An operation is charged before an expression. -/
theorem answers_charged {next : Unit → Evaluation α}
    (h : Answers context start done (next ()) expected result) :
    Answers context start done (ofMetered (Metered.charge 1) >>= next) expected result :=
  answers_seq answers_charge fun _ _ => h

/-- An operation is charged before a statement. -/
theorem answers_chargedAt (span : Span) {next : Unit → Evaluation α}
    (h : Answers context start done (next ()) expected result) :
    Answers context start done (locating span (ofMetered (Metered.charge 1)) >>= next) expected
      result :=
  answers_seq (answers_locating span answers_charge) fun _ _ => h

theorem answers_counted (h : Answers context start done act expected result) :
    Answers context start done (counted act) expected result := by
  have hbegin : Act.Answers context (start.Resumed done)
      (modify fun machine => machine.withMeter machine.meter.begin : Evaluation Unit) (some ())
      fun _ _ => start.Resumed done := fun machine hresumed =>
    ⟨(), rfl, hresumed.globals, hresumed.frames, hresumed.meter.stamps, hresumed.meter.operations⟩
  refine .seq hbegin fun _ => .closing (h.weaken ?_)
  rintro found value machine ⟨after, hresult, hresumed⟩
  exact ⟨after, hresult, hresumed.globals, hresumed.frames, hresumed.meter.stamps,
    hresumed.meter.operations⟩

theorem answers_noting {act : Evaluation Value} {result : γ → Value → (Locals → Locals) → Prop}
    (h : Answers context start done act expected result) :
    Answers context start done (noting act) expected result := by
  have hnote : Answers context start done (noting act) (expected.bind some) result := by
    refine answers_bind h fun found value after _ hresult => ?_
    exact fun machine hresumed =>
      ⟨found, rfl, after, hresult, hresumed.globals, hresumed.frames, hresumed.meter⟩
  rwa [Option.bind_fun_some] at hnote

/-- What is looked up is found as at the start, but for what was done to the variables. -/
theorem answers_consult
    (look : (String → Option Function) → Scope → Option Locals → Except Refusal α) :
    Answers context start done (consult look)
      (look context.function? start.globals (start.frames.head?.map done)).toOption
      (Answers.Only Eq done) := by
  intro machine hresumed
  have hhead : machine.frames.head? = start.frames.head?.map done := by
    rw [hresumed.frames, List.head?_modifyHead]
  simp only [consult, Act.outcome_bind, Act.outcome_read, Act.outcome_get, hresumed.globals, hhead]
  cases look context.function? start.globals (start.frames.head?.map done) with
  | error why => exact .inl rfl
  | ok value => exact ⟨value, rfl, done, ⟨rfl, rfl⟩, hresumed⟩

/-- The variables of the innermost call are changed, if there is a call. -/
theorem answers_modifyLocals (change : Locals → Locals) :
    Answers context start done (modifyLocals change) (start.frames.head?.map fun _ => ())
      fun _ _ after => after = change ∘ done := by
  rintro ⟨globals, frames, meter, history⟩ hresumed
  obtain rfl : frames = _ := hresumed.frames
  cases hframes : start.frames with
  | nil => exact .inl rfl
  | cons locals outer =>
    refine ⟨(), rfl, _, rfl, hresumed.globals, ?_, hresumed.meter⟩
    rw [hframes]
    rfl

end Evaluation

end LandPattern
