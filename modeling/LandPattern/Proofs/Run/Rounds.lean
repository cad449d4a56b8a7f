import LandPattern.Proofs.Run.Budget
import LandPattern.Proofs.Run.Sizes

/-!
# Rounds are paid for

Every round of a loop with statements in its body charges at least one operation, and so does every
round of a repetition of items. A loop without statements charges nothing in its rounds, but it is
charged itself, and it has no more rounds than a list has items. What a run charged therefore bounds
its rounds, except those of repetitions of an empty list.
-/

namespace LandPattern

open Script (Argument Block Branch Expr Function Item Program Span Stmt)

section

variable {ρ σ α β : Type}

/-- A relation between states with a gain, where gains add up along the way. -/
structure Graded (R : Int → σ → σ → Prop) : Prop where
  refl (state : σ) : R 0 state state
  trans {gain more : Int} {before middle after : σ} (h : R gain before middle)
    (hm : R more middle after) : R (gain + more) before after
  weaken {gain less : Int} {before after : σ} (h : R gain before after) (hl : less ≤ gain) :
    R less before after

/-- However the act ends it gains `worst` at least, and when it has a result it gains `gain`. -/
def Act.Earns (context : ρ) (R : Int → σ → σ → Prop) (worst gain : Int) (act : Act ρ σ α) : Prop :=
  ∀ state, R worst state (act.outcome context state).2 ∧
    ∀ value, (act.outcome context state).1 = .ok value → R gain state (act.outcome context state).2

namespace Act.Earns

variable {context : ρ} {R : Int → σ → σ → Prop} {worst gain : Int} {act : Act ρ σ α}

section

variable (hR : Graded R)

include hR

theorem pure (value : α) : Earns context R 0 0 (pure value : Act ρ σ α) :=
  fun state => ⟨hR.refl state, fun _ _ => hR.refl state⟩

theorem fault (fault : Fault) : Earns context R 0 0 (throw fault : Act ρ σ α) :=
  fun state => ⟨hR.refl state, fun _ heq => (by cases heq)⟩

theorem read : Earns context R 0 0 (read : Act ρ σ ρ) :=
  fun state => ⟨hR.refl state, fun _ _ => hR.refl state⟩

theorem weaken {lower less : Int} (h : Earns context R worst gain act) (hw : lower ≤ worst)
    (hg : less ≤ gain) : Earns context R lower less act :=
  fun state => ⟨hR.weaken (h state).1 hw, fun value hv => hR.weaken ((h state).2 value hv) hg⟩

/-- What the first act gained with its result is there for the second. -/
theorem bind {lower more low less : Int} {next : α → Act ρ σ β} (h : Earns context R worst gain act)
    (hn : ∀ value, Earns context R lower more (next value)) (hworst : low ≤ worst)
    (hlower : low ≤ gain + lower) (hless : less ≤ gain + more) :
    Earns context R low less (act >>= next) := by
  intro state
  obtain ⟨hfault, hresult⟩ := h state
  rcases hrun : act.outcome context state with ⟨result, middle⟩
  rw [hrun] at hfault hresult
  cases result with
  | error fault =>
    rw [outcome_bind_error context state hrun]
    exact ⟨hR.weaken hfault hworst, fun _ heq => (by cases heq)⟩
  | ok value =>
    rw [outcome_bind_ok context state hrun]
    obtain ⟨hlow, hmore⟩ := hn value middle
    have hfirst := hresult value rfl
    exact ⟨hR.weaken (hR.trans hfirst hlow) hlower, fun found hfound =>
      hR.weaken (hR.trans hfirst (hmore found hfound)) hless⟩

/-- Two acts, one after the other, neither of which loses anything. -/
theorem seq {next : α → Act ρ σ β} (h : Earns context R 0 0 act)
    (hn : ∀ value, Earns context R 0 0 (next value)) : Earns context R 0 0 (act >>= next) :=
  bind hR h hn (by omega) (by omega) (by omega)

theorem ofExcept (result : Except Refusal α) :
    Earns context R 0 0 (Act.ofExcept result : Act ρ σ α) := by
  cases result with
  | ok value => exact pure hR value
  | error why => exact fault hR _

theorem closing {close : σ → σ} (hc : ∀ state, R 0 state (close state))
    (h : Earns context R worst gain act) : Earns context R worst gain (Act.closing close act) := by
  intro state
  obtain ⟨hfault, hresult⟩ := h state
  rw [outcome_closing]
  refine ⟨?_, fun value hv => ?_⟩
  · have hboth := hR.trans hfault (hc _)
    exact hR.weaken hboth (by omega)
  · have hboth := hR.trans (hresult value hv) (hc _)
    exact hR.weaken hboth (by omega)

end

theorem modify {change : σ → σ} (h : ∀ state, R gain state (change state)) :
    Earns context R gain gain (modify change : Act ρ σ PUnit) :=
  fun state => ⟨h state, fun _ _ => h state⟩

theorem mapFault {change : Fault → Fault} (h : Earns context R worst gain act) :
    Earns context R worst gain (Act.mapFault change act) := by
  intro state
  obtain ⟨hfault, hresult⟩ := h state
  rw [outcome_mapFault]
  refine ⟨hfault, fun value hv => hresult value ?_⟩
  cases hrun : (act.outcome context state).1 with
  | ok found =>
    rw [hrun] at hv
    exact hv
  | error found =>
    rw [hrun] at hv
    cases hv

end Act.Earns

end

/-! ## What the meter shows -/

/-- The operations charged so far, as far as the budget goes. -/
def Meter.paid (limits : Limits) (meter : Meter) : Nat := min meter.operations limits.operations

/-- From one reading to another, every round that does something was paid for with one operation, and
so was every loop that does nothing, which has at most `longest` rounds; `gain` more was paid. -/
def Meter.Pays (limits : Limits) (longest : Nat) (gain : Int) (before after : Meter) : Prop :=
  ∃ busy loops : Nat, after.rounds.busy = before.rounds.busy + busy ∧
    after.rounds.idle ≤ before.rounds.idle + loops * longest ∧
    (before.paid limits : Int) + busy + loops + gain ≤ after.paid limits

namespace Metered

variable {limits : Limits} {longest : Nat} {α : Type}

theorem graded_pays : Graded (Meter.Pays limits longest) where
  refl meter := ⟨0, 0, rfl, by omega, by omega⟩
  trans h hm := by
    obtain ⟨busy, loops, hbusy, hidle, hpaid⟩ := h
    obtain ⟨more, others, hmore, hothers, hrest⟩ := hm
    have hsum : (loops + others) * longest = loops * longest + others * longest :=
      Nat.add_mul _ _ _
    exact ⟨busy + more, loops + others, by omega, by omega, by omega⟩
  weaken h hl := by
    obtain ⟨busy, loops, hbusy, hidle, hpaid⟩ := h
    exact ⟨busy, loops, hbusy, hidle, by omega⟩

/-- Nothing is lost where no rounds are counted and no operations are taken back. -/
theorem pays_of_le {before after : Meter} (ho : before.operations ≤ after.operations)
    (hr : after.rounds = before.rounds) : before.Pays limits longest 0 after := by
  have hpaid : before.paid limits ≤ after.paid limits := by
    simp only [Meter.paid]
    omega
  exact ⟨0, 0, by rw [hr]; rfl, by rw [hr]; omega, by omega⟩

/-- Acts on the meter that lose nothing. -/
abbrev Fair (limits : Limits) (longest : Nat) (act : Metered α) : Prop :=
  Act.Earns limits (Meter.Pays limits longest) 0 0 act

theorem fair_of_unchanged {act : Metered α} (h : ∀ meter, (act.outcome limits meter).2 = meter) :
    Fair limits longest act := by
  intro meter
  rw [h meter]
  exact ⟨graded_pays.refl meter, fun _ _ => graded_pays.refl meter⟩

/-- What is charged is gained, unless it goes beyond the budget. -/
theorem earns_charge (cost : Nat) :
    Act.Earns limits (Meter.Pays limits longest) 0 cost (charge cost) := by
  intro meter
  let charged : Meter := { meter with operations := meter.operations + cost }
  have hmore : meter.Pays limits longest 0 charged := pays_of_le (Nat.le_add_right _ _) rfl
  by_cases hbudget : limits.operations < meter.operations + cost
  · have hrun : (charge cost).outcome limits meter =
        (.error (Fault.of (.budget limits.operations)), charged) := by
      simp [charge, Act.outcome_bind, hbudget, charged]
    rw [hrun]
    exact ⟨hmore, fun _ heq => (by cases heq)⟩
  · have hrun : (charge cost).outcome limits meter = (.ok (), charged) := by
      simp [charge, Act.outcome_bind, hbudget, charged]
    have hpaid : charged.paid limits = meter.paid limits + cost := by
      simp only [Meter.paid, charged]
      omega
    have hgain : meter.Pays limits longest cost charged := ⟨0, 0, rfl, by simp [charged], by omega⟩
    rw [hrun]
    exact ⟨hmore, fun _ _ => hgain⟩

/-- A repetition of items builds at least one item in every round. -/
theorem fair_chargeRepetition (length times : Nat) :
    Fair limits longest (chargeRepetition length times) := by
  have hcount : Act.Earns limits (Meter.Pays limits longest) (-(length * times : Nat))
      (-(length * times : Nat)) (countRounds (.ofRepetition length times)) := by
    refine .modify fun meter => ?_
    cases length with
    | zero => exact ⟨0, 0, rfl, by simp [Rounds.add, Rounds.ofRepetition], by simp [Meter.paid]⟩
    | succ rest =>
      have htimes : times ≤ (rest + 1) * times := Nat.le_mul_of_pos_left _ (Nat.succ_pos _)
      refine ⟨times, 0, by simp [Rounds.add, Rounds.ofRepetition],
        by simp [Rounds.add, Rounds.ofRepetition], ?_⟩
      simp only [Meter.paid]
      omega
  exact .bind graded_pays (earns_charge _) (fun _ => hcount) (by omega) (by omega) (by omega)

/-- Nothing in the vocabulary is repeated without being paid for. -/
theorem Made.fair {Throws : Fault → Prop} {act : Metered α} (h : Made Throws act) :
    Fair limits longest act := by
  have hcheck : ∀ (bound : Limits → Nat) (size : Nat) (why : Nat → Refusal),
      Fair limits longest (do
        let limit := bound (← read)
        if limit < size then Metered.refuse (why limit) : Metered Unit) := by
    refine fun bound size why => fair_of_unchanged fun meter => ?_
    simp only [Act.outcome_bind, Act.outcome_read]
    split <;> rfl
  induction h with
  | pure value => exact .pure graded_pays value
  | bind _ _ ih ihn => exact .seq graded_pays ih ihn
  | fault fault _ => exact .fault graded_pays fault
  | charge cost => exact (earns_charge cost).weaken graded_pays (by omega) (by omega)
  | chargeRepetition length times => exact fair_chargeRepetition length times
  | freshStamp =>
    have hstamp : ∀ meter : Meter, meter.Pays limits longest 0
        { meter with nextStamp := meter.nextStamp + 1 } := fun meter =>
      pays_of_le (Nat.le_refl _) rfl
    exact fun meter => ⟨hstamp meter, fun _ _ => hstamp meter⟩
  | checkLength length => exact hcheck Limits.collection length fun limit => .tooLong length limit
  | checkRepetition length times =>
    exact hcheck Limits.collection (length * times) fun limit =>
      .tooLong (saturatingProduct length times) limit
  | checkDepth depth => exact hcheck Limits.valueDepth depth fun limit => .tooDeep limit
  | literalOf v =>
    refine fair_of_unchanged fun meter => ?_
    simp only [Builtin.literalOf, Act.outcome_bind, Act.outcome_read]
    split <;> rfl

end Metered

/-! ## What a run shows -/

/-- The list or tuple that an expression gave at this moment has at most so many items. -/
def Moment.Short (longest : Nat) (moment : Moment) : Prop :=
  ∀ v s, moment.value = some v → v.sequence? = some s → s.items.length ≤ longest

/-- From one state to another nothing is forgotten, and rounds are paid for, as far as no list or
tuple was longer than `longest`. -/
structure Machine.Pays (limits : Limits) (longest : Nat) (gain : Int) (before after : Machine) :
    Prop where
  history : ∀ moment, before.history moment → after.history moment
  meter : (∀ moment, after.history moment → moment.Short longest) →
    before.meter.Pays limits longest gain after.meter

/-- Some moment so far shows this value. -/
def Machine.Shows (machine : Machine) (v : Value) : Prop :=
  ∃ moment, machine.history moment ∧ moment.value = some v

/-- From one state to another nothing is forgotten, and nothing is used but some idle rounds. -/
structure Machine.Idles (rounds : Nat) (before after : Machine) : Prop where
  history : ∀ moment, before.history moment → after.history moment
  operations : after.meter.operations = before.meter.operations
  busy : after.meter.rounds.busy = before.meter.rounds.busy
  idle : after.meter.rounds.idle ≤ before.meter.rounds.idle + rounds

theorem Machine.Idles.trans {rounds more : Nat} {before middle after : Machine}
    (h : before.Idles rounds middle) (hm : middle.Idles more after) :
    before.Idles (rounds + more) after := by
  have hfirst := h.idle
  have hsecond := hm.idle
  exact ⟨fun moment hmoment => hm.history moment (h.history moment hmoment),
    hm.operations.trans h.operations, hm.busy.trans h.busy, by omega⟩

theorem Machine.Idles.weaken {rounds more : Nat} {before after : Machine}
    (h : before.Idles rounds after) (hle : rounds ≤ more) : before.Idles more after :=
  ⟨h.history, h.operations, h.busy, Nat.le_trans h.idle (Nat.add_le_add_left hle _)⟩

/-- A loop over a list that was shown has no more idle rounds than are paid for with one operation. -/
theorem Machine.Idles.pays {limits : Limits} {longest : Nat} {v : Value} {s : Sequence Value}
    {before after : Machine} (h : before.Idles s.items.length after) (hv : before.Shows v)
    (hs : v.sequence? = some s) : before.Pays limits longest (-1) after := by
  refine ⟨h.history, fun hshort => ?_⟩
  obtain ⟨moment, hmoment, hvalue⟩ := hv
  have hlength := hshort moment (h.history moment hmoment) v s hvalue hs
  have hidle := h.idle
  have hpaid : after.meter.paid limits = before.meter.paid limits := by
    simp only [Meter.paid, h.operations]
  exact ⟨0, 1, h.busy, by omega, by omega⟩

namespace Evaluation

variable {context : Context} {longest : Nat} {limits : Limits} {worst gain : Int} {α β : Type}

theorem graded_pays : Graded (Machine.Pays limits longest) where
  refl machine := ⟨fun _ hmoment => hmoment, fun _ => Metered.graded_pays.refl _⟩
  trans h hm := by
    refine ⟨fun moment hmoment => hm.history moment (h.history moment hmoment), fun hshort => ?_⟩
    have hfirst := h.meter fun moment hmoment => hshort moment (hm.history moment hmoment)
    exact Metered.graded_pays.trans hfirst (hm.meter hshort)
  weaken h hl := ⟨h.history, fun hshort => Metered.graded_pays.weaken (h.meter hshort) hl⟩

/-- Nothing is lost where the meter shows the same operations and rounds. -/
theorem pays_of_eq {before after : Machine}
    (hh : ∀ moment, before.history moment → after.history moment)
    (ho : after.meter.operations = before.meter.operations)
    (hr : after.meter.rounds = before.meter.rounds) : before.Pays limits longest 0 after :=
  ⟨hh, fun _ => Metered.pays_of_le (Nat.le_of_eq ho.symm) hr⟩

theorem pays_noted (machine : Machine) (value : Option Value) :
    machine.Pays limits longest 0 (machine.noted value) :=
  pays_of_eq (fun _ hmoment => .inr hmoment) rfl rfl

theorem pays_withFrames (machine : Machine) (frames : List Locals) :
    machine.Pays limits longest 0 (machine.withFrames frames) :=
  pays_of_eq (fun _ hmoment => .inr hmoment) rfl rfl

theorem pays_withGlobals (machine : Machine) (globals : Scope) :
    machine.Pays limits longest 0 (machine.withGlobals globals) :=
  pays_of_eq (fun _ hmoment => .inr hmoment) rfl rfl

/-- However the evaluation ends it gains `worst` at least, and with a result `gain`. -/
abbrev Earns (context : Context) (longest : Nat) (worst gain : Int) (act : Evaluation α) : Prop :=
  Act.Earns context (Machine.Pays context.limits longest) worst gain act

/-- Evaluations that lose nothing. -/
abbrev Fair (context : Context) (longest : Nat) (act : Evaluation α) : Prop :=
  Earns context longest 0 0 act

/-- An evaluation that gains something loses nothing. -/
theorem fair_of_earns {act : Evaluation α} (h : Earns context longest 0 gain act) (hg : 0 ≤ gain) :
    Fair context longest act :=
  Act.Earns.weaken graded_pays h (Int.le_refl 0) hg

theorem Fair.seq {act : Evaluation α} {next : α → Evaluation β} (h : Fair context longest act)
    (hn : ∀ value, Fair context longest (next value)) : Fair context longest (act >>= next) :=
  Act.Earns.seq graded_pays h hn

theorem Fair.pure (value : α) : Fair context longest (pure value : Evaluation α) :=
  Act.Earns.pure graded_pays value

theorem Fair.fault (fault : Fault) : Fair context longest (throw fault : Evaluation α) :=
  Act.Earns.fault graded_pays fault

theorem earns_ofMetered {act : Metered α}
    (h : Act.Earns context.limits (Meter.Pays context.limits longest) worst gain act) :
    Earns context longest worst gain (ofMetered act) := by
  intro machine
  obtain ⟨hfault, hresult⟩ := h machine.meter
  exact ⟨⟨fun _ hmoment => hmoment, fun _ => hfault⟩,
    fun value hv => ⟨fun _ hmoment => hmoment, fun _ => hresult value hv⟩⟩

theorem fair_regular {act : Metered α} (h : act.Regular) : Fair context longest (ofMetered act) :=
  earns_ofMetered h.fair

theorem earns_counted {act : Evaluation α} (h : Earns context longest worst gain act) :
    Earns context longest worst gain (counted act) := by
  have hbegin : ∀ machine : Machine, machine.Pays context.limits longest 0
      (machine.withMeter machine.meter.begin) := fun machine =>
    pays_of_eq (fun _ hmoment => hmoment) rfl rfl
  have hfinish : ∀ machine : Machine, machine.Pays context.limits longest 0
      (machine.withMeter machine.meter.finish) := fun machine =>
    pays_of_eq (fun _ hmoment => hmoment) rfl rfl
  intro machine
  have hafter := (Act.Earns.closing graded_pays hfinish h) (machine.withMeter machine.meter.begin)
  refine ⟨?_, fun value hv => ?_⟩
  · exact graded_pays.weaken (graded_pays.trans (hbegin machine) hafter.1) (by omega)
  · exact graded_pays.weaken (graded_pays.trans (hbegin machine) (hafter.2 value hv)) (by omega)

theorem fair_consult
    (look : (String → Option Function) → Scope → Option Locals → Except Refusal α) :
    Fair context longest (consult look) := by
  intro machine
  exact Act.Earns.ofExcept graded_pays
    (look context.function? machine.globals machine.frames.head?) machine

theorem fair_modifyLocals (change : Locals → Locals) :
    Fair context longest (modifyLocals change) := by
  intro machine
  obtain ⟨globals, frames, meter, history⟩ := machine
  cases frames with
  | nil => exact ⟨graded_pays.refl _, fun _ heq => (by cases heq)⟩
  | cons locals outer => exact ⟨pays_withFrames _ _, fun _ _ => pays_withFrames _ _⟩

theorem pays_closeBlock (machine : Machine) :
    machine.Pays limits longest 0 (closeBlock machine) := by
  obtain ⟨globals, frames, meter, history⟩ := machine
  cases frames with
  | nil => exact graded_pays.refl _
  | cons locals outer => exact pays_withFrames _ _

theorem earns_inBlock {act : Evaluation α} (h : Earns context longest worst gain act) (hw : worst ≤ 0) :
    Earns context longest worst gain (inBlock act) :=
  .bind graded_pays (fair_modifyLocals _) (fun _ => .closing graded_pays pays_closeBlock h)
    (by omega) (by omega) (by omega)

theorem fair_inCall (locals : Locals) {act : Evaluation α} (h : Fair context longest act) :
    Fair context longest (inCall locals act) :=
  Fair.seq (.modify fun machine => pays_withFrames machine _) fun _ =>
    .closing graded_pays (fun machine => pays_withFrames machine _) h

theorem fair_truth (what : String) (span : Span) (v : Value) :
    Fair context longest (truth what span v) := by
  cases v with
  | bool b => exact .pure b
  | _ => exact .fault _

theorem fair_position (span : Span) (v : Value) : Fair context longest (position span v) := by
  cases v with
  | int n => exact .pure n
  | _ => exact .fault _

theorem fair_collected (length : Nat) {items : Evaluation (List Value)}
    (h : Fair context longest items) : Fair context longest (collected length items) := by
  refine Fair.seq (fair_regular (.checkLength length)) fun _ => Fair.seq h fun values => ?_
  exact fair_regular (.bind (.sequence _) fun s => .bind (.checkSequence s) fun _ => .pure s)

theorem fair_updatePlace (place : Place) {write : Value → Metered (Value × α)}
    (hw : ∀ old, (write old).Regular) : Fair context longest (updatePlace place write) := by
  refine Fair.seq (fair_consult _) fun found => ?_
  cases found with
  | none => exact Fair.seq (fair_consult _) fun why => .fault _
  | some root =>
    have hwritten : Metered.Regular (root.updateWithin place.steps write) :=
      .updateWithin (fun _ _ why _ => Fault.untimed_locate why _) hw
    exact Fair.seq (fair_regular hwritten) fun written =>
      Fair.seq (fair_modifyLocals _) fun _ => .pure _

/-- What is charged first is gained, when the rest loses nothing. -/
theorem earns_charged {charging : Evaluation Unit} {next : Unit → Evaluation α}
    (hcharge : Earns context longest 0 1 charging) (h : ∀ done, Fair context longest (next done)) :
    Earns context longest 0 1 (charging >>= next) :=
  .bind graded_pays hcharge h (by omega) (by omega) (by omega)

theorem earns_noting {act : Evaluation Value} (h : Earns context longest 0 1 act) :
    Earns context longest 0 1 (noting act) :=
  .bind graded_pays h (fun v => Fair.seq (.modify fun machine => pays_noted machine _) fun _ =>
    .pure v) (by omega) (by omega) (by omega)

theorem earns_charge : Earns context longest 0 1 (ofMetered (Metered.charge 1)) :=
  earns_ofMetered (Metered.earns_charge 1)

/-! ### Loops -/

/-- What a step gives is shown by a moment of the state that it leaves. -/
def Notes (context : Context) (act : Evaluation Value) : Prop :=
  ∀ machine v after, act.outcome context machine = (.ok v, after) → after.Shows v

theorem notes_noting (act : Evaluation Value) : Notes context (noting act) := by
  intro machine v after hrun
  rcases hact : act.outcome context machine with ⟨result, middle⟩
  unfold noting at hrun
  cases result with
  | error fault =>
    rw [Act.outcome_bind_error _ _ hact] at hrun
    cases hrun
  | ok value =>
    rw [Act.outcome_bind_ok _ _ hact] at hrun
    cases hrun
    exact ⟨_, .inl rfl, rfl⟩

theorem notes_locating (span : Span) {act : Evaluation Value} (h : Notes context act) :
    Notes context (locating span act) := by
  intro machine v after hrun
  rw [locating, Act.outcome_mapFault] at hrun
  rcases hact : act.outcome context machine with ⟨result, middle⟩
  rw [hact] at hrun
  cases result with
  | error fault => cases hrun
  | ok value =>
    cases hrun
    exact h machine v _ hact

theorem notes_counted {act : Evaluation Value} (h : Notes context act) :
    Notes context (counted act) := by
  intro machine v after hrun
  let begun := machine.withMeter machine.meter.begin
  rcases hact : act.outcome context begun with ⟨result, middle⟩
  have hclosed : (counted act).outcome context machine =
      ((act.outcome context begun).1, (act.outcome context begun).2.withMeter
        (act.outcome context begun).2.meter.finish) := rfl
  rw [hclosed, hact] at hrun
  cases hrun
  exact h begun v middle hact

/-- The value of an expression is shown when the expression ends. -/
theorem notes_eval (caller : Caller) (e : Expr) : Notes context (eval caller e) := by
  unfold eval
  exact notes_counted (notes_locating _ (notes_noting _))

/-- What comes after a statement or a round: the others, unless it gave back a result. -/
def unlessGivenBack (others : Evaluation Flow) : Flow → Evaluation Flow
  | .giveBack v => return .giveBack v
  | .next => others

theorem earns_unlessGivenBack {others : Evaluation Flow} (h : Earns context longest worst 0 others)
    (hw : worst ≤ 0) (flow : Flow) :
    Earns context longest worst 0 (unlessGivenBack others flow) := by
  cases flow with
  | giveBack v => exact Act.Earns.weaken graded_pays (Fair.pure _) hw (Int.le_refl 0)
  | next => exact h

/-- A round that pays for itself leaves nothing to be paid; only a round that ends with a fault may
still owe its operation. -/
theorem earns_busyRounds {body : Value → Evaluation Flow}
    (h : ∀ item, Earns context longest 0 1 (body item)) (items : List Value) :
    Earns context longest (-1) 0 (rounds ⟨1, 0, 0⟩ body items) := by
  have hcount : Earns context longest (-1) (-1) (ofMetered (Metered.countRounds ⟨1, 0, 0⟩)) := by
    refine earns_ofMetered (.modify fun meter => ⟨1, 0, rfl, by simp [Rounds.add], ?_⟩)
    simp only [Meter.paid]
    omega
  induction items with
  | nil => exact Act.Earns.weaken graded_pays (Fair.pure _) (by omega) (by omega)
  | cons item rest ih =>
    have hround : Earns context longest 0 1
        (body item >>= unlessGivenBack (rounds ⟨1, 0, 0⟩ body rest)) :=
      .bind graded_pays (h item) (earns_unlessGivenBack ih (by omega)) (by omega) (by omega)
        (by omega)
    exact .bind graded_pays hcount (fun _ => hround) (by omega) (by omega) (by omega)

/-- A round without statements only declares its item, in a block that is closed again. -/
def emptyRound (var : String) (item : Value) : Evaluation Flow := inBlock do
  modifyLocals fun locals => locals.declare var item
  return .next

/-- A round without statements changes nothing but what is shown. -/
theorem emptyRound_still (var : String) (item : Value) (machine : Machine) :
    (∀ moment, machine.history moment →
      ((emptyRound var item).outcome context machine).2.history moment) ∧
    ((emptyRound var item).outcome context machine).2.meter = machine.meter := by
  obtain ⟨globals, frames, meter, history⟩ := machine
  cases frames with
  | nil => exact ⟨fun _ hmoment => hmoment, rfl⟩
  | cons locals outer => exact ⟨fun _ hmoment => .inr (.inr (.inr hmoment)), rfl⟩

/-- The rounds of a loop without statements use nothing else. -/
theorem idles_rounds (var : String) (items : List Value) (machine : Machine) :
    machine.Idles items.length
      ((rounds ⟨0, 1, 0⟩ (emptyRound var) items).outcome context machine).2 := by
  induction items generalizing machine with
  | nil => exact ⟨fun _ hmoment => hmoment, rfl, rfl, Nat.le_refl _⟩
  | cons item rest ih =>
    let started := machine.withMeter
      { machine.meter with rounds := machine.meter.rounds.add ⟨0, 1, 0⟩ }
    have hstill := @emptyRound_still context var item started
    obtain ⟨hhistory, hmeter⟩ := hstill
    rcases hrun : (emptyRound var item).outcome context started with ⟨result, middle⟩
    rw [hrun] at hhistory
    replace hmeter : middle.meter = started.meter := by
      rw [hrun] at hmeter
      exact hmeter
    have hstep : machine.Idles 1 middle :=
      ⟨hhistory, by rw [hmeter]; rfl, by rw [hmeter]; rfl, by rw [hmeter]; exact Nat.le_refl _⟩
    have hstarted : (rounds ⟨0, 1, 0⟩ (emptyRound var) (item :: rest)).outcome context machine =
        (emptyRound var item >>= unlessGivenBack (rounds ⟨0, 1, 0⟩ (emptyRound var) rest)).outcome
          context started := rfl
    have hone : 1 ≤ (item :: rest).length := Nat.succ_le_succ (Nat.zero_le _)
    rw [hstarted]
    cases result with
    | error fault =>
      rw [Act.outcome_bind_error _ _ hrun]
      exact hstep.weaken hone
    | ok flow =>
      rw [Act.outcome_bind_ok _ _ hrun]
      cases flow with
      | giveBack v => exact hstep.weaken hone
      | next => exact (hstep.trans (ih middle)).weaken (by rw [List.length_cons]; omega)

/-- A loop pays for its rounds with what was charged for its list. A loop with statements does so
round by round, and a loop without them all at once, since the list was shown. -/
theorem fair_loop {iterable : Evaluation Value} {each : Rounds} {body : Value → Evaluation Flow}
    (span : Span) (hi : Earns context longest 0 1 iterable) (hn : Notes context iterable)
    (hr : ∀ (v : Value) (s : Sequence Value) (machine : Machine), v.sequence? = some s →
      machine.Shows v → machine.Pays context.limits longest (-1)
        ((rounds each body s.items).outcome context machine).2) :
    Fair context longest (do
      let items ← iterated span (← iterable)
      rounds each body items) := by
  intro machine
  obtain ⟨hfault, hresult⟩ := hi machine
  rcases hrun : iterable.outcome context machine with ⟨result, middle⟩
  rw [hrun] at hfault hresult
  cases result with
  | error fault =>
    rw [Act.outcome_bind_error _ _ hrun]
    exact ⟨hfault, fun _ heq => (by cases heq)⟩
  | ok v =>
    rw [Act.outcome_bind_ok _ _ hrun]
    have hlist := hresult v rfl
    cases hs : v.sequence? with
    | none =>
      have hrefused : (do
          let items ← iterated span v
          rounds each body items : Evaluation Flow).outcome context middle =
          (.error ((Fault.refusal (.notIterable v.type)).locate span), middle) := by
        simp [iterated, hs, refuseAt, Act.outcome_bind]
      rw [hrefused]
      exact ⟨graded_pays.weaken hlist (by omega), fun _ heq => (by cases heq)⟩
    | some s =>
      have hlooped : (do
          let items ← iterated span v
          rounds each body items : Evaluation Flow).outcome context middle =
          (rounds each body s.items).outcome context middle := by
        simp [iterated, hs]
      rw [hlooped]
      have hboth := graded_pays.trans hlist (hr v s middle hs (hn machine v middle hrun))
      exact ⟨hboth, fun _ _ => hboth⟩

/-! ### Trees -/

/-- Calls lose nothing. -/
def CallsFair (context : Context) (longest : Nat) (caller : Caller) : Prop :=
  ∀ name args span, Fair context longest (caller name args span)

section Trees

variable {caller : Caller}

theorem fair_apply (hc : CallsFair context longest caller) (callee : Value) (calleeSpan : Span)
    (args : Arguments) (callSpan : Span) :
    Fair context longest (apply caller callee calleeSpan args callSpan) := by
  cases callee with
  | builtin word => exact fair_regular (.call word args)
  | function name => exact hc name args callSpan
  | _ => exact .fault _

mutual

/-- An expression with a value has charged for itself, and its parts lose nothing. -/
theorem earns_eval (hc : CallsFair context longest caller) (e : Expr) :
    Earns context longest 0 1 (eval caller e) := by
  unfold eval
  refine earns_counted (.mapFault (earns_noting (earns_charged earns_charge fun _ => ?_)))
  have hfair : ∀ part : Expr, Earns context longest 0 1 (eval caller part) →
      Fair context longest (eval caller part) := fun _ h => fair_of_earns h (by omega)
  match e with
  | .int _ _ | .float _ _ | .text _ _ | .bool _ _ | .none _ => exact .pure _
  | .name _ name => exact fair_consult _
  | .list _ items | .tuple _ items =>
    exact Fair.seq (fair_collected _ (fair_evalAll hc items)) fun _ => .pure _
  | .unary _ .neg operand =>
    exact Fair.seq (hfair _ (earns_eval hc operand)) fun _ => Act.Earns.ofExcept graded_pays _
  | .unary _ .not operand =>
    exact Fair.seq (hfair _ (earns_eval hc operand)) fun v =>
      Fair.seq (fair_truth _ _ v) fun _ => .pure _
  | .binary _ op left right =>
    have hl := hfair _ (earns_eval hc left)
    have hr := hfair _ (earns_eval hc right)
    cases op with
    | and =>
      refine Fair.seq hl fun v => Fair.seq (fair_truth _ _ v) fun b => ?_
      cases b with
      | true => exact Fair.seq hr fun w => Fair.seq (fair_truth _ _ w) fun _ => .pure _
      | false => exact .pure _
    | or =>
      refine Fair.seq hl fun v => Fair.seq (fair_truth _ _ v) fun b => ?_
      cases b with
      | true => exact .pure _
      | false => exact Fair.seq hr fun w => Fair.seq (fair_truth _ _ w) fun _ => .pure _
    | _ => exact Fair.seq hl fun a => Fair.seq hr fun b => fair_regular (.combine _ a b)
  | .call span callee args =>
    exact Fair.seq (hfair _ (earns_eval hc callee)) fun target =>
      Fair.seq (fair_evalArgs hc .empty args) fun found => fair_apply hc target _ found _
  | .method _ receiver method args =>
    have hargs := fair_evalArgs hc .empty args
    refine .mapFault ?_
    split
    · exact Fair.seq (fair_resolve hc receiver) fun place => Fair.seq hargs fun found =>
        fair_updatePlace place fun old => .method old _ found
    · exact Fair.seq (hfair _ (earns_eval hc receiver)) fun object => Fair.seq hargs fun found =>
        Fair.seq (fair_regular (.method object _ found)) fun _ => .pure _
  | .field _ object field =>
    exact Fair.seq (hfair _ (earns_eval hc object)) fun v =>
      .mapFault (fair_regular (.readField v _))
  | .index _ object index =>
    exact Fair.seq (hfair _ (earns_eval hc object)) fun v =>
      Fair.seq (hfair _ (earns_eval hc index)) fun w => Fair.seq (fair_position _ w) fun _ =>
        .mapFault (Act.Earns.ofExcept graded_pays _)
termination_by structural e

theorem fair_evalAll (hc : CallsFair context longest caller) (items : List Expr) :
    Fair context longest (evalAll caller items) := by
  match items with
  | [] => exact .pure _
  | e :: rest =>
    have hfirst := fair_of_earns (earns_eval hc e) (by omega)
    exact Fair.seq hfirst fun v => Fair.seq (fair_evalAll hc rest) fun _ => .pure _
termination_by structural items

theorem fair_evalArgs (hc : CallsFair context longest caller) (done : Arguments)
    (args : List Argument) : Fair context longest (evalArgs caller done args) := by
  match args with
  | [] => exact .pure _
  | .positional e :: rest =>
    have hfirst := fair_of_earns (earns_eval hc e) (by omega)
    exact Fair.seq hfirst fun v => fair_evalArgs hc (done.add v) rest
  | .keyword name e :: rest =>
    have hfirst := fair_of_earns (earns_eval hc e) (by omega)
    exact Fair.seq hfirst fun v =>
      Fair.seq (.mapFault (Act.Earns.ofExcept graded_pays _)) fun more =>
        fair_evalArgs hc more rest
termination_by structural args

theorem fair_resolve (hc : CallsFair context longest caller) (e : Expr) :
    Fair context longest (resolve caller e) := by
  match e with
  | .name _ _ => exact .pure _
  | .field _ object _ => exact Fair.seq (fair_resolve hc object) fun _ => .pure _
  | .index _ object index =>
    have hindex := fair_of_earns (earns_eval hc index) (by omega)
    exact Fair.seq (fair_resolve hc object) fun _ => Fair.seq hindex fun v =>
      Fair.seq (fair_position _ v) fun _ => .pure _
  | .int _ _ | .float _ _ | .text _ _ | .bool _ _ | .none _ | .list _ _ | .tuple _ _
  | .unary _ _ _ | .binary _ _ _ _ | .call _ _ _ | .method _ _ _ _ => exact .fault _
termination_by structural e

end

theorem fair_eval (hc : CallsFair context longest caller) (e : Expr) :
    Fair context longest (eval caller e) :=
  fair_of_earns (earns_eval hc e) (by omega)

mutual

/-- A statement that does not fault has charged for itself, and its parts lose nothing. -/
theorem earns_exec (hc : CallsFair context longest caller) (statement : Stmt) :
    Earns context longest 0 1 (exec caller statement) := by
  unfold exec
  refine earns_counted (earns_charged (.mapFault earns_charge) fun _ => ?_)
  match statement with
  | .bind _ name value =>
    exact Fair.seq (fair_eval hc value) fun v => Fair.seq (fair_modifyLocals _) fun _ => .pure _
  | .assign _ target op value =>
    exact Fair.seq (fair_eval hc value) fun v => Fair.seq (fair_resolve hc target) fun place =>
      Fair.seq (.mapFault (fair_updatePlace place fun old => .bind (.assigned op old v) fun _ =>
        .pure _)) fun _ => .pure _
  | .expr _ value => exact Fair.seq (fair_eval hc value) fun _ => .pure _
  | .giveBack _ none => exact .pure _
  | .giveBack _ (some value) => exact Fair.seq (fair_eval hc value) fun _ => .pure _
  | .choose _ branches otherwise =>
    refine Fair.seq (fair_execBranches hc branches) fun found => ?_
    cases found with
    | some flow => exact .pure _
    | none => exact fair_execOtherwise hc otherwise
  | .loop _ var iterable (.mk _ body) =>
    refine fair_loop iterable.span (earns_eval hc iterable) (notes_eval caller iterable) ?_
    intro v s machine hs hv
    match body with
    | [] => exact (idles_rounds var.text s.items machine).pays hv hs
    | first :: rest =>
      have hround : ∀ item, Earns context longest 0 1 (inBlock do
          modifyLocals fun locals => locals.declare var.text item
          execAll caller (first :: rest)) := fun item =>
        earns_inBlock (.bind graded_pays (fair_modifyLocals _)
          (fun _ => earns_execAll hc (first :: rest)) (by omega) (by omega)
            (by rw [List.length_cons]; omega)) (by omega)
      exact (earns_busyRounds hround s.items machine).1
termination_by structural statement

theorem fair_execBranches (hc : CallsFair context longest caller) (branches : List Branch) :
    Fair context longest (execBranches caller branches) := by
  match branches with
  | [] => exact .pure _
  | .mk condition block :: rest =>
    refine Fair.seq (fair_eval hc condition) fun v => Fair.seq (fair_truth _ _ v) fun b => ?_
    cases b with
    | true => exact Fair.seq (fair_execBlock hc block) fun _ => .pure _
    | false => exact fair_execBranches hc rest
termination_by structural branches

theorem fair_execOtherwise (hc : CallsFair context longest caller) (otherwise : Option Block) :
    Fair context longest (execOtherwise caller otherwise) := by
  match otherwise with
  | none => exact .pure _
  | some block => exact fair_execBlock hc block
termination_by structural otherwise

theorem fair_execBlock (hc : CallsFair context longest caller) (block : Block) :
    Fair context longest (execBlock caller block) := by
  match block with
  | .mk _ statements =>
    exact earns_inBlock (fair_of_earns (earns_execAll hc statements) (by omega)) (Int.le_refl 0)
termination_by structural block

/-- Where there is a statement, something is charged. -/
theorem earns_execAll (hc : CallsFair context longest caller) (statements : List Stmt) :
    Earns context longest 0 (min statements.length 1 : Nat) (execAll caller statements) := by
  match statements with
  | [] => exact Fair.pure _
  | first :: rest =>
    have hrest : Fair context longest (execAll caller rest) :=
      fair_of_earns (earns_execAll hc rest) (by omega)
    exact .bind graded_pays (earns_exec hc first) (earns_unlessGivenBack hrest (Int.le_refl 0))
      (by omega) (by omega) (by rw [List.length_cons]; omega)
termination_by structural statements

end

end Trees

/-! ### Runs -/

theorem fair_callNamed {enter : Entrance}
    (he : ∀ function params span, Fair context longest (enter function params span)) :
    CallsFair context longest (callNamed enter) := fun _ _ _ =>
  Fair.seq (fair_consult _) fun _ => Fair.seq (Act.Earns.ofExcept graded_pays _) fun _ => he _ _ _

/-- However many calls may still be opened, a call loses nothing. -/
theorem fair_enter (remaining : Nat) (function : Function) (params : Scope) (callSpan : Span) :
    Fair context longest (enter remaining function params callSpan) := by
  induction remaining generalizing function params callSpan with
  | zero => exact Fair.seq (Act.Earns.read graded_pays) fun _ => .fault _
  | succ rest ih =>
    have hcalls : CallsFair context longest (callNamed (enter rest)) := fair_callNamed ih
    refine .mapFault (Fair.seq (fair_inCall _ (fair_execBlock hcalls function.body)) fun flow => ?_)
    cases flow with
    | giveBack v => exact .pure _
    | next => exact .pure _

theorem fair_loadConstants {caller : Caller} (hc : CallsFair context longest caller)
    (items : List Item) : Fair context longest (loadConstants caller items) := by
  induction items with
  | nil => exact .pure _
  | cons item rest ih =>
    cases item with
    | function definition => exact ih
    | constant name value =>
      exact Fair.seq (.mapFault (fair_eval hc value)) fun v =>
        Fair.seq (.modify fun machine => pays_withGlobals machine _) fun _ => ih

theorem fair_callEntryPoint {enter : Entrance}
    (he : ∀ function params span, Fair context longest (enter function params span))
    (program : Program) : Fair context longest (callEntryPoint enter program) := by
  refine Fair.seq (fair_consult _) fun found => ?_
  cases found with
  | some function =>
    dsimp only
    split
    · exact he _ _ _
    · exact .fault _
  | none =>
    refine Fair.seq (fair_consult _) fun found => ?_
    cases found with
    | none => exact .fault _
    | some v =>
      dsimp only
      split
      · exact .fault _
      · exact .fault _

theorem fair_collect (v : Value) : Fair context longest (collect v) := by
  refine Fair.seq (Act.Earns.read graded_pays) fun found => ?_
  split
  · exact .pure _
  · exact .fault _

end Evaluation

/-- A run pays for its rounds. Where no list or tuple is longer than `longest`, the rounds that do
something and the loops that do nothing are together no more than the operations within the budget,
and each of these loops has at most `longest` rounds. -/
theorem Script.Program.run_pays (program : Program) (limits : Limits) (longest : Nat)
    (hshort : ∀ moment, (program.run limits).2.history moment → moment.Short longest) :
    Meter.zero.Pays limits longest 0 (program.run limits).2.meter := by
  have henter : ∀ function params span, Evaluation.Fair ⟨program.functions, limits⟩ longest
      (Evaluation.enter limits.callDepth function params span) :=
    Evaluation.fair_enter limits.callDepth
  have hrun : Evaluation.Fair ⟨program.functions, limits⟩ longest
      (Evaluation.runProgram (Evaluation.enter limits.callDepth) program) :=
    Evaluation.Fair.seq (Evaluation.fair_loadConstants (Evaluation.fair_callNamed henter) _)
      fun _ => Evaluation.Fair.seq (Evaluation.fair_callEntryPoint henter program) fun v =>
        Evaluation.fair_collect v
  exact (hrun Machine.start).1.meter hshort

namespace Footprint

/-- Every round that does something is paid for. However an evaluation ends, the rounds of loops with
statements and of repetitions of items are at most the operations that it charged, and at most its
budget. A loop without statements is charged as a statement only, whenever it is run, and has no more
rounds than a list can have items. -/
theorem evaluate_rounds (limits : Limits) (name text : String) :
    let meter := (evaluate limits name text).meter
    meter.rounds.busy ≤ meter.operations ∧ meter.rounds.busy ≤ limits.operations ∧
      meter.rounds.idle ≤ min meter.operations limits.operations * max limits.collection 3 := by
  dsimp only
  by_cases hsize : limits.sourceBytes < text.utf8ByteSize
  · have hnone : (evaluate limits name text).meter = Meter.zero := by simp [evaluate, hsize]
    rw [hnone]
    exact ⟨Nat.zero_le _, Nat.zero_le _, Nat.zero_le _⟩
  · rw [evaluate_of_not_oversized limits name text hsize]
    cases hprogram : Script.Program.ofText limits.depths text with
    | error problems =>
      simp only [ofText, hprogram]
      exact ⟨Nat.zero_le _, Nat.zero_le _, Nat.zero_le _⟩
    | ok program =>
      simp only [ofText, hprogram]
      have hwithin := Script.Program.run_within hprogram limits
      have hshort : ∀ moment, (program.run limits).2.history moment →
          moment.Short (max limits.collection 3) := by
        intro moment hmoment v s hvalue hs
        have hv := (hwithin.history moment hmoment).value v hvalue
        exact ((Value.sound_of_sequence? hs).1 hv.sound).length
      obtain ⟨busy, loops, hbusy, hidle, hpaid⟩ := program.run_pays limits _ hshort
      have hsum : busy + loops ≤ (program.run limits).2.meter.paid limits := by
        simp only [Meter.paid, Meter.zero] at hpaid ⊢
        omega
      have hloops := Nat.mul_le_mul_right (max limits.collection 3)
        (Nat.le_trans (Nat.le_add_left loops busy) hsum)
      simp only [Meter.paid, Meter.zero, Rounds.zero] at hbusy hidle hsum hloops
      exact ⟨by omega, by omega, by omega⟩

/-- Two nested loops over one list, the inner one without statements. -/
def idleLoops : String :=
  "fn footprint() \x7b let a = range(5); for i in a \x7b for j in a \x7b \x7d \x7d return []; \x7d"

/-- Rounds of a loop without statements are not charged one by one: an evaluation within a budget of
twenty-five operations runs thirty rounds. -/
theorem evaluate_idleLoops :
    let limits : Limits := { Limits.standard with operations := 25 }
    let footprint := evaluate limits "a" idleLoops
    footprint.result.isOk = true ∧ footprint.meter.operations = 23 ∧
      footprint.meter.rounds = ⟨5, 25, 0⟩ ∧
      ¬ footprint.meter.rounds.total ≤ footprint.meter.operations ∧
      ¬ footprint.meter.rounds.total ≤ limits.operations := by
  decide +kernel

end Footprint

end LandPattern
