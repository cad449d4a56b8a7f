import LandPattern.Footprint
import LandPattern.Proofs.Run.Sizes
import LandPattern.Proofs.Values.Walks

/-!
# Walks outside the meter

The result of a script is taken apart, and a value that a list does not have is written in full,
both without a charge. The limits on the items and on the nesting of lists bound these walks, and
nothing else does: a list that stands in many places of a value is walked once for every place.
-/

namespace LandPattern

open Script (Depths Program)

/-- The most nodes that a value can have under these limits. -/
def Limits.mostNodes (limits : Limits) : Nat :=
  Value.fullNodes (max limits.collection 3) (max limits.valueDepth 1)

/-- What the entry point of a script gives back, or the fault before that, and the machine as it
stands then. -/
def Script.Program.returned (program : Program) (limits : Limits) : Except Fault Value × Machine :=
  (Evaluation.entryValue (Evaluation.enter limits.callDepth) program).outcome
    ⟨program.functions, limits⟩ Machine.start

/-- A run takes apart what the entry point gives back. -/
theorem Script.Program.run_eq_returned (program : Program) (limits : Limits) :
    program.run limits =
      match program.returned limits with
      | (.ok v, machine) => (v.elements limits.collection, machine)
      | (.error fault, machine) => (.error fault, machine) := by
  unfold run returned
  rw [Evaluation.runProgram_eq, Act.outcome_bind]
  rcases (Evaluation.entryValue (Evaluation.enter limits.callDepth) program).outcome
    ⟨program.functions, limits⟩ Machine.start with ⟨fault | v, machine⟩
  · rfl
  · simp only [Evaluation.collect, Act.outcome_bind, Act.outcome_read]
    cases v.elements limits.collection <;> rfl

/-- All that limits these walks. No more nodes are looked at when the result of a script is taken
apart than the largest value has that respects the limits on lists, and no more are written when a
value of any moment of the run is written in full. -/
theorem Script.Program.run_walks {depths : Depths} {source : String} {program : Program}
    (h : Program.ofText depths source = .ok program) (limits : Limits) :
    (∀ v machine, program.returned limits = (.ok v, machine) →
      (v.toNestedCounted limits.collection [] 0).2 ≤ limits.mostNodes) ∧
    ∀ moment, (program.run limits).2.history moment →
      ∀ v ∈ moment.values, v.literalCounted.2 ≤ limits.mostNodes := by
  have hlasting := Value.lasting_within program.functions (limits.bounds_covers source.utf8ByteSize)
  refine ⟨fun v machine hreturned => ?_, fun moment hmoment v hv => ?_⟩
  · have hkeeps := program.keeps_entryValue hlasting (Program.texts_within h limits)
    have hv := (hkeeps Machine.start Machine.All.start).2 v (congrArg Prod.fst hreturned)
    exact Nat.le_trans (v.toNestedCounted_snd limits.collection [] 0).1 hv.nodes_le
  · have hall := (Program.run_within h limits).history moment hmoment
    rw [Value.literalCounted_eq]
    exact (hall.mem_values v hv).nodes_le

namespace Footprint

/-- A list is doubled six times and given back. -/
def doubledResult : String :=
  "fn footprint() \x7b let a = []; a = [a, a]; a = [a, a]; a = [a, a]; a = [a, a]; a = [a, a]; " ++
    "a = [a, a]; return a; \x7d"

/-- A list is doubled six times, and another list does not have it. -/
def doubledRemoval : String :=
  "fn footprint() \x7b let a = []; a = [a, a]; a = [a, a]; a = [a, a]; a = [a, a]; a = [a, a]; " ++
    "a = [a, a]; let l = []; l.remove(a); return []; \x7d"

/-- A budget of forty operations, and lists of at most ten items. -/
def scantLimits : Limits := { Limits.standard with operations := 40, collection := 10 }

/-- Whether the script that a text writes gives back a value of so many nodes under these limits. -/
def givesBackNodes (limits : Limits) (source : String) (nodes : Nat) : Bool :=
  match Program.ofText limits.depths source with
  | .error _ => false
  | .ok program =>
    match (program.returned limits).1 with
    | .error _ => false
    | .ok v => (v.toNestedCounted limits.collection [] 0).2 == nodes

theorem exists_of_givesBackNodes {limits : Limits} {source : String} {nodes : Nat}
    (h : givesBackNodes limits source nodes = true) :
    ∃ program v machine, Program.ofText limits.depths source = .ok program ∧
      program.returned limits = (.ok v, machine) ∧
      (v.toNestedCounted limits.collection [] 0).2 = nodes := by
  unfold givesBackNodes at h
  cases hprogram : Program.ofText limits.depths source with
  | error problems =>
    rw [hprogram] at h
    cases h
  | ok program =>
    rw [hprogram] at h
    rcases hreturned : program.returned limits with ⟨fault | v, machine⟩
    · simp only [hreturned] at h
      cases h
    · simp only [hreturned] at h
      exact ⟨program, v, machine, rfl, hreturned, beq_iff_eq.1 h⟩

/-- Whether a run ends with this refusal. -/
def refusedWith (refusal : Refusal) (result : Except Fault (List Element)) : Bool :=
  match result with
  | .ok _ => false
  | .error fault => fault.cause == .refusal refusal

theorem exists_of_refusedWith {refusal : Refusal} {result : Except Fault (List Element)}
    (h : refusedWith refusal result = true) :
    ∃ fault, result = .error fault ∧ fault.cause = .refusal refusal := by
  cases result with
  | ok elements => cases h
  | error fault => exact ⟨fault, rfl, beq_iff_eq.1 h⟩

theorem doubledResult_looked :
    ∃ program v machine, Program.ofText scantLimits.depths doubledResult = .ok program ∧
      program.returned scantLimits = (.ok v, machine) ∧
      (v.toNestedCounted scantLimits.collection [] 0).2 = 127 :=
  exists_of_givesBackNodes (by decide +kernel)

theorem doubledRemoval_written :
    ∃ fault, (evaluate scantLimits inlineName doubledRemoval).result = .error fault ∧
      fault.cause = .refusal (.notInList (Value.doubled 6).literal) :=
  exists_of_refusedWith (by decide +kernel)

/-- Six doublings are far from the limits. -/
theorem run_walks_doubledResult :
    ∃ program v machine, Program.ofText scantLimits.depths doubledResult = .ok program ∧
      program.returned scantLimits = (.ok v, machine) ∧
      127 = (v.toNestedCounted scantLimits.collection [] 0).2 ∧
      (v.toNestedCounted scantLimits.collection [] 0).2 ≤ scantLimits.mostNodes := by
  obtain ⟨program, v, machine, hprogram, hreturned, hlooked⟩ := doubledResult_looked
  exact ⟨program, v, machine, hprogram, hreturned, hlooked.symm,
    (Program.run_walks hprogram scantLimits).1 v machine hreturned⟩

/-- Neither walk is bounded by the operations and the items that are allowed, taken together. -/
theorem walks_exceed :
    (¬ ∀ (limits : Limits) (source : String) (program : Program) (v : Value) (machine : Machine),
      Program.ofText limits.depths source = .ok program →
      program.returned limits = (.ok v, machine) →
      (v.toNestedCounted limits.collection [] 0).2 ≤ limits.operations + limits.collection) ∧
    ¬ ∀ (limits : Limits) (name text : String) (fault : Fault) (v : Value),
      (evaluate limits name text).result = .error fault →
      fault.cause = .refusal (.notInList v.literal) →
      v.literalCounted.2 ≤ limits.operations + limits.collection := by
  refine ⟨fun h => ?_, fun h => ?_⟩
  · obtain ⟨program, v, machine, hprogram, hreturned, hlooked⟩ := doubledResult_looked
    have hle := h scantLimits doubledResult program v machine hprogram hreturned
    rw [hlooked] at hle
    exact absurd hle (by decide)
  · obtain ⟨fault, hresult, hcause⟩ := doubledRemoval_written
    have hle := h scantLimits inlineName doubledRemoval fault (Value.doubled 6) hresult hcause
    rw [Value.literalCounted_eq, Value.nodes_doubled] at hle
    exact absurd hle (by decide)

end Footprint

end LandPattern
