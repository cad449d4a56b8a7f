import LandPattern.Proofs.Run.Regular
import LandPattern.Run.Machine
import LandPattern.Run.Result

/-!
# How acts end

What the result of an act is like, and what its fault is like when it has one, whatever the state
was. The rules follow the ways in which acts are put together; a fault is changed where it passes
out of a place or out of a function, and nowhere else.
-/

namespace LandPattern

/-- The act ends with a result as promised, or with a fault as allowed. -/
def Act.Ends {ρ σ α : Type} (context : ρ) (act : Act ρ σ α) (promise : α → Prop)
    (allowed : Fault → Prop) : Prop :=
  ∀ state, (∀ value, (act.outcome context state).1 = .ok value → promise value) ∧
    ∀ fault, (act.outcome context state).1 = .error fault → allowed fault

namespace Act.Ends

variable {ρ σ α β : Type} {context : ρ} {act : Act ρ σ α} {promise other : α → Prop}
variable {allowed more : Fault → Prop}

theorem pure {value : α} (h : promise value) :
    Ends context (pure value : Act ρ σ α) promise allowed :=
  fun _ => ⟨fun _ heq => Except.ok.inj heq ▸ h, fun _ heq => (by cases heq)⟩

theorem fault {fault : Fault} (h : allowed fault) :
    Ends context (throw fault : Act ρ σ α) promise allowed :=
  fun _ => ⟨fun _ heq => (by cases heq), fun _ heq => Except.error.inj heq ▸ h⟩

/-- The second act is entered with what the first one promises. -/
theorem bind {after : β → Prop} {next : α → Act ρ σ β} (h : Ends context act promise allowed)
    (hn : ∀ value, promise value → Ends context (next value) after allowed) :
    Ends context (act >>= next) after allowed := by
  intro state
  have hact := h state
  rcases hrun : act.outcome context state with ⟨result, middle⟩
  rw [hrun] at hact
  cases result with
  | ok value =>
    rw [outcome_bind_ok context state hrun]
    exact hn value (hact.1 value rfl) middle
  | error fault =>
    rw [outcome_bind_error context state hrun]
    exact ⟨fun _ heq => (by cases heq),
      fun _ heq => Except.error.inj heq ▸ hact.2 fault rfl⟩

theorem weaken (h : Ends context act promise allowed) (hp : ∀ value, promise value → other value)
    (ha : ∀ fault, allowed fault → more fault) : Ends context act other more :=
  fun state => ⟨fun value heq => hp value ((h state).1 value heq),
    fun fault heq => ha fault ((h state).2 fault heq)⟩

theorem ofExcept {result : Except Refusal α} (h : ∀ value, result = .ok value → promise value)
    (ha : ∀ why, allowed (Fault.refusal why)) :
    Ends context (Act.ofExcept result : Act ρ σ α) promise allowed := by
  cases result with
  | ok value => exact .pure (h value rfl)
  | error why => exact .fault (ha why)

theorem ite {no : Act ρ σ α} {condition : Prop} [Decidable condition]
    (h : condition → Ends context act promise allowed)
    (hn : ¬ condition → Ends context no promise allowed) :
    Ends context (if condition then act else no) promise allowed := by
  split
  · exact h ‹_›
  · exact hn ‹_›

theorem read : Ends context (read : Act ρ σ ρ) (· = context) allowed :=
  fun _ => ⟨fun _ heq => (Except.ok.inj heq).symm, fun _ heq => (by cases heq)⟩

theorem get : Ends context (get : Act ρ σ σ) (fun _ => True) allowed :=
  fun _ => ⟨fun _ _ => trivial, fun _ heq => (by cases heq)⟩

theorem modify {change : σ → σ} :
    Ends context (modify change : Act ρ σ PUnit) (fun _ => True) allowed :=
  fun _ => ⟨fun _ _ => trivial, fun _ heq => (by cases heq)⟩

theorem mapFault {change : Fault → Fault} (h : Ends context act promise allowed)
    (hc : ∀ fault, allowed fault → more (change fault)) :
    Ends context (Act.mapFault change act) promise more := by
  intro state
  have hact := h state
  rw [outcome_mapFault]
  cases hrun : (act.outcome context state).1 with
  | ok value =>
    rw [hrun] at hact
    exact ⟨hact.1, fun _ heq => (by cases heq)⟩
  | error fault =>
    rw [hrun] at hact
    exact ⟨fun _ heq => (by cases heq),
      fun _ heq => Except.error.inj heq ▸ hc fault (hact.2 fault rfl)⟩

theorem closing {close : σ → σ} (h : Ends context act promise allowed) :
    Ends context (Act.closing close act) promise allowed := h

end Act.Ends

/-- What is made of faults of a sort ends with no others, apart from those of the budget. -/
theorem Metered.Made.ends {Throws : Fault → Prop} [Fault.Bears Throws]
    (hb : ∀ limit, Throws (Fault.of (.budget limit))) {α : Type} {act : Metered α}
    (h : Made Throws act) (limits : Limits) :
    Act.Ends limits act (fun _ => True) Throws := by
  have hrefuse : ∀ {β : Type} {why : Refusal}, why.Common →
      Act.Ends limits (Metered.refuse why : Metered β) (fun _ => True) Throws :=
    fun hwhy => .fault (Fault.Bears.refusal hwhy)
  have hcheck : ∀ (bound : Limits → Nat) (size : Nat) {why : Nat → Refusal},
      (∀ limit, (why limit).Common) → Act.Ends limits (do
        let limit := bound (← read)
        if limit < size then Metered.refuse (why limit) : Metered Unit) (fun _ => True) Throws :=
    fun _ _ _ hwhy => .bind .read fun _ _ => .ite (fun _ => hrefuse (hwhy _)) fun _ => .pure trivial
  have hcharge : ∀ cost, Act.Ends limits (Metered.charge cost) (fun _ => True) Throws := fun cost =>
    .bind .modify fun _ _ => .bind .read fun found _ => .bind .get fun _ _ =>
      .ite (fun _ => .fault (hb _)) fun _ => .pure trivial
  induction h with
  | pure value => exact .pure trivial
  | bind _ _ ih ihn => exact .bind ih fun value _ => ihn value
  | fault fault h => exact .fault h
  | charge cost => exact hcharge cost
  | chargeRepetition length times => exact .bind (hcharge _) fun _ _ => .modify
  | freshStamp => exact fun _ => ⟨fun _ _ => trivial, fun _ heq => (by cases heq)⟩
  | checkLength length => exact hcheck Limits.collection length fun _ => trivial
  | checkRepetition length times => exact hcheck Limits.collection (length * times) fun _ => trivial
  | checkDepth depth => exact hcheck Limits.valueDepth depth fun _ => trivial
  | literalOf v =>
    refine .bind .read fun found _ => ?_
    dsimp only
    split
    · exact .pure trivial
    · exact hrefuse trivial

mutual

/-- A result that is not made of elements is a fault of its shape, without a place. -/
theorem Value.toNested_error {limit count : Nat} {path : List Nat} {v : Value} {fault : Fault}
    (h : v.toNested limit path count = .error fault) :
    ∃ cause, cause.kind = .shape ∧ fault = Fault.of cause := by
  match v with
  | .element e =>
    simp only [Value.toNested] at h
    split at h
    · cases h
      exact ⟨_, rfl, rfl⟩
    · cases h
  | .list s | .tuple s =>
    simp only [Value.toNested] at h
    cases hitems : Value.toNestedItems limit path 0 count s.items with
    | ok found =>
      rw [hitems] at h
      cases h
    | error found =>
      rw [hitems] at h
      cases h
      exact Value.toNestedItems_error hitems
  | .nothing | .bool _ | .int _ | .float _ | .text _ | .function _ | .builtin _ =>
    cases h
    exact ⟨_, rfl, rfl⟩
termination_by structural v

theorem Value.toNestedItems_error {limit position count : Nat} {path : List Nat}
    {items : List Value} {fault : Fault}
    (h : Value.toNestedItems limit path position count items = .error fault) :
    ∃ cause, cause.kind = .shape ∧ fault = Fault.of cause := by
  match items with
  | [] => cases h
  | v :: rest =>
    simp only [Value.toNestedItems] at h
    cases hv : v.toNested limit (position :: path) count with
    | error found =>
      rw [hv] at h
      cases h
      exact Value.toNested_error hv
    | ok found =>
      rw [hv] at h
      cases hrest : Value.toNestedItems limit path (position + 1) found.2 rest with
      | error other =>
        simp only [bind, Except.bind, hrest] at h
        cases h
        exact Value.toNestedItems_error hrest
      | ok other =>
        simp only [bind, Except.bind, hrest] at h
        cases h
termination_by structural items

end

theorem Value.elements_error {limit : Nat} {v : Value} {fault : Fault}
    (h : v.elements limit = .error fault) :
    ∃ cause, cause.kind = .shape ∧ fault = Fault.of cause := by
  cases hnested : v.toNested limit [] 0 with
  | ok found =>
    simp only [Value.elements, hnested, bind, Except.bind] at h
    cases h
  | error found =>
    simp only [Value.elements, hnested, bind, Except.bind] at h
    cases h
    exact Value.toNested_error hnested

namespace Evaluation

variable {context : Context} {α : Type} {promise : α → Prop} {allowed : Fault → Prop}

theorem ends_ofMetered {act : Metered α} (h : Act.Ends context.limits act promise allowed) :
    Act.Ends context (ofMetered act) promise allowed :=
  fun machine => h machine.meter

theorem ends_counted {act : Evaluation α} (h : Act.Ends context act promise allowed) :
    Act.Ends context (counted act) promise allowed :=
  .bind .modify fun _ _ => .closing h

theorem ends_noting {act : Evaluation Value} {promise : Value → Prop}
    (h : Act.Ends context act promise allowed) : Act.Ends context (noting act) promise allowed :=
  .bind h fun _ hv => .bind .modify fun _ _ => .pure hv

theorem ends_consult
    {look : (String → Option Script.Function) → Scope → Option Locals → Except Refusal α}
    (h : ∀ globals locals value, look context.function? globals locals = .ok value → promise value)
    (ha : ∀ why, allowed (Fault.refusal why)) :
    Act.Ends context (consult look) promise allowed :=
  fun machine => Act.Ends.ofExcept (h machine.globals machine.frames.head?) ha machine

theorem ends_modifyLocals {change : Locals → Locals}
    (ha : allowed (Fault.of .noActiveFunction)) :
    Act.Ends context (modifyLocals change) (fun _ => True) allowed := by
  refine .bind .get fun machine _ => ?_
  split
  · exact .fault ha
  · exact .modify

theorem ends_inBlock {act : Evaluation α} (ha : allowed (Fault.of .noActiveFunction))
    (h : Act.Ends context act promise allowed) :
    Act.Ends context (inBlock act) promise allowed :=
  .bind (ends_modifyLocals ha) fun _ _ => .closing h

theorem ends_inCall {act : Evaluation α} {locals : Locals}
    (h : Act.Ends context act promise allowed) :
    Act.Ends context (inCall locals act) promise allowed :=
  .bind .modify fun _ _ => .closing h

end Evaluation

end LandPattern
