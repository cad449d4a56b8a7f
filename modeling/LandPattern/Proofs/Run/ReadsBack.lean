import LandPattern.Proofs.Run.Budget
import LandPattern.Proofs.Run.Literals

/-!
# Literal forms mean the value

The literal form of a value is evaluated to a value with the same contents. Evaluating it charges one
operation for each node of the tree, changes no constant and no variable, and is refused by nothing
but too narrow limits.
-/

namespace LandPattern

open Script (Expr Program Spells significant tokenize words)

mutual

/-- The value without what is recorded about its lists and tuples beside their items. -/
def Value.contents (v : Value) : Value :=
  match v with
  | .list s => .list ⟨contentsOf s.items, 0, 0⟩
  | .tuple s => .tuple ⟨contentsOf s.items, 0, 0⟩
  | other => other
termination_by structural v

/-- The items without what is recorded about them. -/
def contentsOf (items : List Value) : List Value :=
  match items with
  | [] => []
  | v :: rest => v.contents :: contentsOf rest
termination_by structural items

end

mutual

/-- The operations that the literal form of a value charges: one for each node of its tree. -/
def Value.price (v : Value) : Nat :=
  match v with
  | .int n => if n < 0 then 2 else 1
  | .list s | .tuple s => priceOf s.items + 1
  | _ => 1
termination_by structural v

/-- The operations that the literal forms of items charge. -/
def priceOf (items : List Value) : Nat :=
  match items with
  | [] => 0
  | v :: rest => v.price + priceOf rest
termination_by structural items

end

theorem Value.type_contents (v : Value) : v.contents.type = v.type := by
  cases v <;> simp only [Value.contents, Value.type]

/-- The limits leave room for the lists and tuples of a value: for their items, and for how many of
them lie inside one another. -/
structure Limits.Holds (limits : Limits) (v : Value) : Prop where
  lengths : ∀ (part : Value) (s : Sequence Value), part.Inside v → part.sequence? = some s →
    s.items.length ≤ limits.collection
  height : v.height ≤ limits.valueDepth

theorem Limits.Holds.item {limits : Limits} {v item : Value} {s : Sequence Value}
    (h : limits.Holds v) (hs : v.sequence? = some s) (hi : item ∈ s.items) :
    limits.Holds item := by
  have hheight := h.height
  have hbelow : item.height ≤ heightOf s.items := height_le_heightOf hi
  rw [Value.height_eq hs] at hheight
  exact ⟨fun part t hpart => h.lengths part t (.item hs hi hpart), by omega⟩

/-- There is room for a value without items. -/
theorem Limits.Holds.atom {limits : Limits} {v : Value} (hs : v.sequence? = none) :
    limits.Holds v := by
  constructor
  · intro part s hpart hsequence
    cases hpart with
    | self =>
      rw [hs] at hsequence
      cases hsequence
    | item hsome =>
      rw [hs] at hsome
      cases hsome
  · cases v <;> first | exact Nat.zero_le _ | cases hs

/-- There is room for a list or tuple when there is room for its items. -/
theorem Limits.Holds.sequence {limits : Limits} {v : Value} {s : Sequence Value}
    (hs : v.sequence? = some s) (hl : s.items.length ≤ limits.collection)
    (hd : v.height ≤ limits.valueDepth) (hi : ∀ item ∈ s.items, limits.Holds item) :
    limits.Holds v := by
  refine ⟨fun part t hpart hsequence => ?_, hd⟩
  cases hpart with
  | self =>
    rw [hs] at hsequence
    cases hsequence
    exact hl
  | item hsome hitem hinside =>
    rw [hs] at hsome
    cases hsome
    exact (hi _ hitem).lengths part t hinside hsequence

/-- So many operations were charged, and no constant and no variable was changed. -/
structure Machine.Paid (machine after : Machine) (cost : Nat) : Prop where
  spent : after.spent = machine.spent + cost
  globals : after.globals = machine.globals
  frames : after.frames = machine.frames

namespace Evaluation

variable {α β : Type} {context : Context} {cost more : Nat}

/-- Wherever the budget covers so many operations, the step charges them and ends with a result that
has a property. -/
def Affords (context : Context) (cost : Nat) (act : Evaluation α) (Promise : α → Prop) : Prop :=
  ∀ machine : Machine, machine.spent + cost ≤ context.limits.operations →
    ∃ value after, act.outcome context machine = (.ok value, after) ∧ machine.Paid after cost ∧
      Promise value

namespace Affords

variable {Promise : α → Prop} {Result : β → Prop}

theorem pure {value : α} (h : Promise value) : Affords context 0 (pure value) Promise :=
  fun machine _ => ⟨value, machine, rfl, ⟨rfl, rfl, rfl⟩, h⟩

theorem bind {act : Evaluation α} {next : α → Evaluation β} (h : Affords context cost act Promise)
    (hn : ∀ value, Promise value → Affords context more (next value) Result) :
    Affords context (cost + more) (act >>= next) Result := by
  intro machine hroom
  obtain ⟨value, between, hact, hpaid, hvalue⟩ := h machine (by omega)
  have hspent := hpaid.spent
  obtain ⟨result, after, hnext, hmore, hresult⟩ := hn value hvalue between (by omega)
  refine ⟨result, after, ?_, ⟨?_, ?_, ?_⟩, hresult⟩
  · rw [Act.outcome_bind_ok _ _ hact, hnext]
  · rw [hmore.spent, hspent, Nat.add_assoc]
  · rw [hmore.globals, hpaid.globals]
  · rw [hmore.frames, hpaid.frames]

/-- What follows at no cost does not change the price. -/
theorem bindFree {act : Evaluation α} {next : α → Evaluation β}
    (h : Affords context cost act Promise)
    (hn : ∀ value, Promise value → Affords context 0 (next value) Result) :
    Affords context cost (act >>= next) Result :=
  h.bind hn

theorem weaken {Other : α → Prop} {act : Evaluation α} (h : Affords context cost act Promise)
    (hw : ∀ value, Promise value → Other value) : Affords context cost act Other := by
  intro machine hroom
  obtain ⟨value, after, hact, hpaid, hvalue⟩ := h machine hroom
  exact ⟨value, after, hact, hpaid, hw value hvalue⟩

theorem locating {span : Script.Span} {act : Evaluation α} (h : Affords context cost act Promise) :
    Affords context cost (locating span act) Promise := by
  intro machine hroom
  obtain ⟨value, after, hact, hpaid, hvalue⟩ := h machine hroom
  refine ⟨value, after, ?_, hpaid, hvalue⟩
  rw [Evaluation.locating, Act.outcome_mapFault, hact]
  rfl

theorem counted {act : Evaluation α} (h : Affords context cost act Promise) :
    Affords context cost (counted act) Promise := by
  intro machine hroom
  obtain ⟨value, after, hact, hpaid, hvalue⟩ := h (machine.withMeter machine.meter.begin) hroom
  refine ⟨value, after.withMeter after.meter.finish, ?_, ⟨hpaid.spent, hpaid.globals, hpaid.frames⟩,
    hvalue⟩
  rw [Evaluation.counted, Act.outcome_bind_ok _ _ (Act.outcome_modify _ _ _), Act.outcome_closing,
    hact]

theorem noting {Promise : Value → Prop} {act : Evaluation Value}
    (h : Affords context cost act Promise) : Affords context cost (noting act) Promise := by
  intro machine hroom
  obtain ⟨value, after, hact, hpaid, hvalue⟩ := h machine hroom
  refine ⟨value, after.noted (some value), ?_, ⟨hpaid.spent, hpaid.globals, hpaid.frames⟩, hvalue⟩
  rw [Evaluation.noting, Act.outcome_bind_ok _ _ hact,
    Act.outcome_bind_ok _ _ (Act.outcome_modify _ _ _)]
  rfl

/-- What is charged, as a step of the machine. -/
theorem ofMetered {act : Metered α}
    (h : ∀ meter : Meter, meter.operations + cost ≤ context.limits.operations →
      ∃ value after, act.outcome context.limits meter = (.ok value, after) ∧
        after.operations = meter.operations + cost ∧ Promise value) :
    Affords context cost (ofMetered act) Promise := by
  intro machine hroom
  obtain ⟨value, after, hact, hpaid, hvalue⟩ := h machine.meter hroom
  refine ⟨value, machine.withMeter after, ?_, ⟨hpaid, rfl, rfl⟩, hvalue⟩
  rw [Evaluation.ofMetered, Act.outcome_ofOutcome, hact]

theorem charge (cost : Nat) :
    Affords context cost (Evaluation.ofMetered (Metered.charge cost)) fun _ => True := by
  refine ofMetered fun meter hroom =>
    ⟨(), { meter with operations := meter.operations + cost }, ?_, rfl, trivial⟩
  rw [Metered.outcome_charge, if_neg (Nat.not_lt.2 hroom)]

theorem checkLength {length : Nat} (h : length ≤ context.limits.collection) :
    Affords context 0 (Evaluation.ofMetered (Metered.checkLength length)) fun _ => True := by
  refine ofMetered fun meter _ => ⟨(), meter, ?_, rfl, trivial⟩
  simp only [Metered.checkLength, Act.outcome_bind, Act.outcome_read, if_neg (Nat.not_lt.2 h),
    Act.outcome_pure]

/-- A sequence that is not too long and not too deep is built. -/
theorem sequence {items : List Value} (hl : items.length ≤ context.limits.collection)
    (hd : Sequence.depthOf items ≤ context.limits.valueDepth) :
    Affords context 0
      (Evaluation.ofMetered do
        let s ← Metered.sequence items
        Metered.checkSequence s
        return s)
      fun s => ∃ stamp, s = Sequence.ofItems items stamp := by
  refine ofMetered fun meter _ =>
    ⟨Sequence.ofItems items meter.nextStamp, { meter with nextStamp := meter.nextStamp + 1 }, ?_,
      rfl, _, rfl⟩
  have hlength : ¬ context.limits.collection <
      (Sequence.ofItems items meter.nextStamp).length := Nat.not_lt.2 hl
  have hdepth : ¬ context.limits.valueDepth <
      (Sequence.ofItems items meter.nextStamp).depth := Nat.not_lt.2 hd
  simp only [Metered.sequence, Metered.freshStamp, Metered.checkSequence, Metered.checkLength,
    Metered.checkDepth, Act.outcome_bind, Act.outcome_modifyGet, Act.outcome_read,
    Act.outcome_pure, if_neg hlength, if_neg hdepth]

/-- What an expression does comes behind the operation that it charges itself. -/
theorem node {Promise : Value → Prop} {span : Script.Span} {act : Evaluation Value}
    (h : Affords context cost act Promise) :
    Affords context (cost + 1)
      (Evaluation.counted <| Evaluation.locating span <| Evaluation.noting do
        Evaluation.ofMetered (Metered.charge 1)
        act) Promise := by
  have hall := Affords.bind (charge 1) fun _ _ => h
  rw [Nat.add_comm] at hall
  exact hall.noting.locating.counted

end Affords

/-- The value has the contents of the other one and is recorded no deeper than that is. -/
def Copies (v w : Value) : Prop := w.contents = v.contents ∧ w.depth ≤ v.height

/-- The items in turn have the contents of the others, and are recorded no deeper. -/
def CopiesAll (items values : List Value) : Prop :=
  contentsOf values = contentsOf items ∧ values.length = items.length ∧
    ∀ w ∈ values, w.depth ≤ heightOf items

variable {caller : Caller}

/-- Items are evaluated one after the other. -/
theorem affords_evalAll {items : List Value} {es : List Expr}
    (h : ∀ v ∈ items, ∀ {e : Expr}, e.bare = v.expr →
      Affords context v.price (eval caller e) (Copies v))
    (he : Script.bareItems es = exprs items) :
    Affords context (priceOf items) (evalAll caller es) (CopiesAll items) := by
  induction items generalizing es with
  | nil =>
    cases es with
    | nil => exact .pure ⟨rfl, rfl, fun _ hnone => absurd hnone List.not_mem_nil⟩
    | cons e rest => cases he
  | cons v more ih =>
    cases es with
    | nil => cases he
    | cons e rest =>
      obtain ⟨hfirst, hrest⟩ := List.cons.inj he
      have hmore := ih (fun w hw => h w (List.mem_cons_of_mem _ hw)) hrest
      refine .bind (h v List.mem_cons_self hfirst) fun w hw => ?_
      refine .bind hmore fun values hvalues => .pure ⟨?_, ?_, ?_⟩
      · rw [contentsOf, contentsOf, hw.1, hvalues.1]
      · rw [List.length_cons, List.length_cons, hvalues.2.1]
      · intro u hu
        rw [heightOf]
        rcases List.mem_cons.1 hu with rfl | htail
        · exact Nat.le_trans hw.2 (Nat.le_max_left _ _)
        · exact Nat.le_trans (hvalues.2.2 u htail) (Nat.le_max_right _ _)

/-- The digits of an integer give the integer. -/
theorem affords_digits {n : Int} {e : Expr} (he : e.bare = .int .nowhere n) :
    Affords context 1 (eval caller e) fun w => w = .int n := by
  cases e <;> cases he
  unfold eval
  refine Affords.node (.pure ?_)
  rfl

/-- A minus in front of the digits of a negative integer gives the integer. -/
theorem affords_int {n : Int} (low : Number.minInt < n) (high : n ≤ Number.maxInt) {e : Expr}
    (he : e.bare = (Value.int n).expr) :
    Affords context (Value.int n).price (eval caller e) fun w => w = .int n := by
  rw [Value.expr] at he
  rw [Value.price]
  by_cases hneg : n < 0
  · rw [if_pos hneg] at he ⊢
    cases e <;> simp only [Expr.bare, Expr.unary.injEq, reduceCtorEq] at he
    obtain ⟨-, rfl, hoperand⟩ := he
    have hnegated : (Value.int (-n)).negate = .ok (.int n) := by
      have hrange : Number.inRange? n = some n :=
        Number.inRange?_eq_some_iff.2 ⟨⟨Int.le_of_lt low, high⟩, rfl⟩
      rw [Value.negate, Int.neg_neg, hrange]
    unfold eval
    refine Affords.node (.bindFree (affords_digits hoperand) ?_)
    rintro w rfl
    rw [hnegated]
    exact .pure rfl
  · rw [if_neg hneg] at he ⊢
    exact affords_digits he

/-- Items are evaluated and put together where the limits leave room for them. -/
theorem affords_items {v : Value} {s : Sequence Value} {es : List Expr} (hs : v.sequence? = some s)
    (hr : context.limits.Holds v)
    (h : ∀ w ∈ s.items, ∀ {e : Expr}, e.bare = w.expr →
      Affords context w.price (eval caller e) (Copies w))
    (he : Script.bareItems es = exprs s.items) :
    Affords context (priceOf s.items) (collected es.length (evalAll caller es)) fun t =>
      contentsOf t.items = contentsOf s.items ∧ t.depth ≤ heightOf s.items + 1 := by
  have hcount : es.length = s.items.length := by
    have hlength := congrArg List.length he
    rw [Script.bareItems_eq_map, List.length_map, length_exprs] at hlength
    exact hlength
  have hroom : s.items.length ≤ context.limits.collection := hr.lengths v s (.self v) hs
  have hdeep := hr.height
  rw [Value.height_eq hs] at hdeep
  have hbuilt : ∀ values, CopiesAll s.items values → Affords context 0
      (Evaluation.ofMetered do
        let t ← Metered.sequence values
        Metered.checkSequence t
        return t)
      fun t => contentsOf t.items = contentsOf s.items ∧ t.depth ≤ heightOf s.items + 1 := by
    rintro values ⟨hcontents, hlength, hdepths⟩
    have hdepth : Sequence.depthOf values ≤ heightOf s.items + 1 :=
      Sequence.depthOf_le (by omega) fun w hw => Nat.lt_succ_of_le (hdepths w hw)
    refine (Affords.sequence (by omega) (by omega)).weaken ?_
    rintro t ⟨stamp, rfl⟩
    exact ⟨hcontents, hdepth⟩
  have hall := Affords.bind (Affords.checkLength (hcount ▸ hroom)) fun _ _ =>
    Affords.bind (affords_evalAll h he) hbuilt
  rw [Nat.zero_add, Nat.add_zero] at hall
  exact hall

/-- The tree of a value is evaluated to its contents. -/
theorem affords_eval {v : Value} (hv : v.Literal) (hr : context.limits.Holds v) {e : Expr}
    (he : e.bare = v.expr) : Affords context v.price (eval caller e) (Copies v) := by
  induction hv generalizing e with
  | nothing =>
    cases e <;> cases he
    unfold eval
    exact (Affords.pure ⟨rfl, Nat.zero_le _⟩).node
  | bool b =>
    cases e <;> cases he
    unfold eval
    exact (Affords.pure ⟨rfl, Nat.zero_le _⟩).node
  | int low high =>
    refine (affords_int low high he).weaken ?_
    rintro w rfl
    exact ⟨rfl, Nat.zero_le _⟩
  | text s =>
    cases e <;> cases he
    unfold eval
    exact (Affords.pure ⟨rfl, Nat.zero_le _⟩).node
  | @list s _ ih =>
    rw [Value.expr] at he
    cases e <;> simp only [Expr.bare, Expr.list.injEq, reduceCtorEq] at he
    have hitems := affords_items rfl hr (fun w hw _ => ih w hw (hr.item rfl hw)) he.2
    rw [Value.price]
    unfold eval
    refine Affords.node (.bindFree hitems fun t ht => .pure ⟨?_, ?_⟩)
    · rw [Value.contents, Value.contents, ht.1]
    · rw [Value.height]
      exact ht.2
  | @tuple s _ ih =>
    rw [Value.expr] at he
    cases e <;> simp only [Expr.bare, Expr.tuple.injEq, reduceCtorEq] at he
    have hitems := affords_items rfl hr (fun w hw _ => ih w hw (hr.item rfl hw)) he.2
    rw [Value.price]
    unfold eval
    refine Affords.node (.bindFree hitems fun t ht => .pure ⟨?_, ?_⟩)
    · rw [Value.contents, Value.contents, ht.1]
    · rw [Value.height]
      exact ht.2

end Evaluation

/-- The literal form of a value reads back. Its tokens spell the tree of the value. As the value of a
constant it is read as that one expression, where the limits leave room for its brackets and its
height. Wherever the expression is evaluated within the limits and the budget, the result has the
type and the contents of the value, and nothing else is changed. -/
theorem Value.Literal.reads_back {v : Value} (hv : v.Literal) {limits : Limits}
    (hn : v.height ≤ limits.nesting) (he : v.expr.height ≤ limits.expression)
    (hr : limits.Holds v) :
    (∃ tokens, tokenize v.literal = .ok tokens ∧ Spells 0 v.expr (words (significant tokens))) ∧
      ∃ name e, Program.ofText limits.depths v.script = .ok ⟨[.constant name e]⟩ ∧
        e.bare = v.expr ∧
        ∀ (caller : Caller) (functions : List Script.Function) (machine : Machine),
          machine.spent + v.price ≤ limits.operations →
            ∃ w after, (Evaluation.eval caller e).outcome ⟨functions, limits⟩ machine =
                (.ok w, after) ∧
              w.type = v.type ∧ w.contents = v.contents ∧ machine.Paid after v.price := by
  constructor
  · obtain ⟨tokens, hlexed, hwords⟩ := hv.lexes Script.ends_nil .nil 0
    rw [List.append_nil] at hlexed hwords
    refine ⟨tokens, Script.tokenize_eq_ok_iff.2 hlexed, ?_⟩
    rw [hwords]
    exact v.expr.form_spelled_zero
  · obtain ⟨name, e, hread, -, htree⟩ := hv.reads (show v.height ≤ limits.depths.nesting from hn) he
    refine ⟨name, e, hread, htree, fun caller functions machine hroom => ?_⟩
    have hall : Evaluation.Affords ⟨functions, limits⟩ v.price (Evaluation.eval caller e)
        (Evaluation.Copies v) := Evaluation.affords_eval hv hr htree
    obtain ⟨w, after, heval, hpaid, hcontents, -⟩ := hall machine hroom
    have htype : w.type = v.type := by
      rw [← w.type_contents, hcontents, v.type_contents]
    exact ⟨w, after, heval, htype, hcontents, hpaid⟩

/-- A list of an empty tuple, a tuple of one negative integer, and a text with a quote, a line end and
a hidden character. -/
def sampleLiteral : Value :=
  .list ⟨[.tuple ⟨[], 1, 0⟩, .tuple ⟨[.int (-7)], 1, 0⟩, .text "a\"\n\u200b"], 2, 0⟩

/-- The sample is written down, read back, and evaluated by a machine that has done nothing yet. -/
theorem Value.Literal.reads_back_sample :
    sampleLiteral.Literal ∧ sampleLiteral.height ≤ Limits.standard.nesting ∧
      sampleLiteral.expr.height ≤ Limits.standard.expression ∧
      Limits.standard.Holds sampleLiteral ∧
      sampleLiteral.literal = "[(), (-7,), \"a\\\"\\n\\u\x7b200b\x7d\"]" ∧
      ∃ name e, Program.ofText Limits.standard.depths sampleLiteral.script =
          .ok ⟨[.constant name e]⟩ ∧
        ∃ w after, (Evaluation.eval (fun _ _ _ => pure .nothing) e).outcome ⟨[], Limits.standard⟩
            Machine.start = (.ok w, after) ∧
          w.type = "list" ∧ w.contents = sampleLiteral.contents ∧ after.spent = 6 := by
  have hint : (Value.int (-7)).Literal := .int (by decide) (by decide)
  have hsingle : (Value.tuple ⟨[.int (-7)], 1, 0⟩).Literal := .tuple (by simpa using hint)
  have hempty : (Value.tuple ⟨[], 1, 0⟩).Literal := .tuple (by simp)
  have hliteral : sampleLiteral.Literal :=
    .list (by simpa using ⟨hempty, hsingle, Value.Literal.text _⟩)
  have hatom : ∀ v : Value, v.sequence? = none → Limits.standard.Holds v := fun _ => .atom
  have hholdsSingle : Limits.standard.Holds (.tuple ⟨[.int (-7)], 1, 0⟩) :=
    .sequence rfl (by decide) (by decide) (by simpa using hatom _ rfl)
  have hholdsEmpty : Limits.standard.Holds (.tuple ⟨[], 1, 0⟩) :=
    .sequence rfl (by decide) (by decide) (by simp)
  have hholds : Limits.standard.Holds sampleLiteral := .sequence rfl (by decide) (by decide)
    (by simpa using ⟨hholdsEmpty, hholdsSingle, hatom (.text _) rfl⟩)
  have hnesting : sampleLiteral.height ≤ Limits.standard.nesting := by decide
  have hexpression : sampleLiteral.expr.height ≤ Limits.standard.expression := by decide
  obtain ⟨-, name, e, hread, -, heval⟩ := hliteral.reads_back hnesting hexpression hholds
  obtain ⟨w, after, houtcome, htype, hcontents, hpaid⟩ :=
    heval (fun _ _ _ => pure .nothing) [] Machine.start (by decide)
  exact ⟨hliteral, hnesting, hexpression, hholds, by decide +kernel, name, e, hread, w, after,
    houtcome, htype, hcontents, hpaid.spent⟩

end LandPattern
