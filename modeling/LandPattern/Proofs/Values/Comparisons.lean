import LandPattern.Proofs.Number.Comparing
import LandPattern.Proofs.Run.Budget

/-!
# Comparisons of numbers

Two ints are compared exactly, and so are two floats. An int and a float are compared as floats: the
int is rounded to the nearest float first. On ints that are floats themselves, as those of up to
fifty-three digits are, this is the exact comparison; beyond them different ints equal one float,
and equality does not carry over from one number to the next.
-/

namespace LandPattern.Value

open Number (Extended InRange extend extended? asDouble)
open Script (BinaryOp)

/-! ## What the operators answer -/

/-- Wherever there is one more operation to charge, the operator gives this answer. -/
def Decides (op : BinaryOp) (a b : Value) (answer : Bool) : Prop :=
  ∀ limits meter, meter.operations < limits.operations →
    ((a.combine op b).outcome limits meter).1 = .ok (.bool answer)

/-- The first value is less. -/
def Less (a b : Value) : Prop := Decides .lt a b true

/-- The two values are equal. -/
def Equal (a b : Value) : Prop := Decides .eq a b true

/-- All six operators answer as these numbers are ordered. -/
structure ComparedAs (a b : Value) (p q : Extended) : Prop where
  eq : Decides .eq a b (decide (p = q))
  ne : Decides .ne a b (decide (p ≠ q))
  lt : Decides .lt a b (decide (p < q))
  le : Decides .le a b (decide (p ≤ q))
  gt : Decides .gt a b (decide (p > q))
  ge : Decides .ge a b (decide (p ≥ q))

/-- The number, or infinity, that an int or a float denotes. -/
inductive Denotes : Value → Extended → Prop
  | int {n : Int} : InRange n → Denotes (.int n) (extend n)
  | float {x : Float} {p : Extended} : extended? x = some p → Denotes (.float x) p

/-- The value is an int. -/
def IsInt (v : Value) : Prop := ∃ n, InRange n ∧ v = .int n

/-- The value is an int, or a float that denotes something. -/
def IsNumber (v : Value) : Prop := ∃ p, v.Denotes p

/-- The value denotes what a float denotes. -/
def Kept (v : Value) : Prop := ∃ p, v.Denotes p ∧ asDouble p = p

/-- On these values equality is reflexive and symmetric, and being less is a strict order. -/
structure ArrangedOn (P : Value → Prop) : Prop where
  refl {a : Value} : P a → Equal a a
  symm {a b : Value} : P a → P b → Equal a b → Equal b a
  irrefl {a : Value} : P a → ¬ Less a a
  trans {a b c : Value} : P a → P b → P c → Less a b → Less b c → Less a c

/-- On these values equality is an equivalence as well, and being less does not tell equal ones
apart. -/
structure OrderedOn (P : Value → Prop) : Prop extends ArrangedOn P where
  transEq {a b c : Value} : P a → P b → P c → Equal a b → Equal b c → Equal a c
  congr {a b c d : Value} : P a → P b → P c → P d → Equal a b → Equal c d → Less a c → Less b d

section

variable {a b : Value} {p q : Extended} {op : BinaryOp}

/-- There is one answer at most. -/
theorem Decides.unique {answer others : Bool} (h : Decides op a b answer)
    (ho : Decides op a b others) : answer = others := by
  have hfirst := h Limits.standard Meter.zero (by decide)
  rw [ho Limits.standard Meter.zero (by decide)] at hfirst
  exact (Value.bool.inj (Except.ok.inj hfirst)).symm

namespace ComparedAs

theorem less_iff (h : ComparedAs a b p q) : Less a b ↔ p < q := by
  refine ⟨fun hless => of_decide_eq_true (h.lt.unique hless), fun hlt => ?_⟩
  have hanswer := h.lt
  rwa [decide_eq_true hlt] at hanswer

theorem equal_iff (h : ComparedAs a b p q) : Equal a b ↔ p = q := by
  refine ⟨fun hequal => of_decide_eq_true (h.eq.unique hequal), fun heq => ?_⟩
  have hanswer := h.eq
  rwa [decide_eq_true heq] at hanswer

end ComparedAs

/-- A value denotes one number. -/
theorem Denotes.unique {r : Extended} (h : a.Denotes p) (ho : a.Denotes r) : p = r := by
  cases h with
  | int => cases ho; rfl
  | float hx =>
    cases ho with
    | float hy => exact Option.some_inj.1 (hx.symm.trans hy)

/-! ## What the operators look at -/

theorem outcome_charged {α : Type} (value : α) {limits : Limits} {meter : Meter}
    (h : meter.operations < limits.operations) :
    ((do Metered.charge 1; return value : Metered α).outcome limits meter).1 = .ok value := by
  rw [Act.outcome_bind, Metered.outcome_charge, if_neg (by omega)]
  rfl

/-- Equality and order give all six answers. -/
theorem compared_of_order (heq : a.equals b = do Metered.charge 1; return decide (p = q))
    (horder : ∀ op, order op a b = .ok (some (compare p q))) : ComparedAs a b p q := by
  have hequal : a.combine .eq b = do Metered.charge 1; return .bool (decide (p = q)) := by
    simp only [combine, heq, bind_assoc, pure_bind]
  have hdiffer : a.combine .ne b = do Metered.charge 1; return .bool (decide (p ≠ q)) := by
    simp only [combine, heq, bind_assoc, pure_bind, decide_not]
  have hless : (some (compare p q) == some .lt) = decide (p < q) := by
    rw [Bool.eq_iff_iff, beq_iff_eq, Option.some_inj, compare_lt_iff_lt, decide_eq_true_eq]
  have hsame : (some (compare p q) == some .eq) = decide (p = q) := by
    rw [Bool.eq_iff_iff, beq_iff_eq, Option.some_inj, compare_eq_iff_eq, decide_eq_true_eq]
  have hmore : (some (compare p q) == some .gt) = decide (p > q) := by
    rw [Bool.eq_iff_iff, beq_iff_eq, Option.some_inj, compare_gt_iff_gt, decide_eq_true_eq]
  have hle : (decide (p < q) || decide (p = q)) = decide (p ≤ q) := by
    simp only [← Bool.decide_or, le_iff_lt_or_eq]
  have hge : (decide (p > q) || decide (p = q)) = decide (p ≥ q) := by
    simp only [← Bool.decide_or, ge_iff_le, le_iff_lt_or_eq, gt_iff_lt, eq_comm]
  refine ⟨fun limits meter h => ?_, fun limits meter h => ?_, fun limits meter _ => ?_,
    fun limits meter _ => ?_, fun limits meter _ => ?_, fun limits meter _ => ?_⟩
  · rw [hequal, outcome_charged _ h]
  · rw [hdiffer, outcome_charged _ h]
  · simp only [combine, horder, Act.ofExcept, pure_bind, Act.outcome_pure, hless]
  · simp only [combine, horder, Act.ofExcept, pure_bind, Act.outcome_pure, hless, hsame, hle]
  · simp only [combine, horder, Act.ofExcept, pure_bind, Act.outcome_pure, hmore]
  · simp only [combine, horder, Act.ofExcept, pure_bind, Act.outcome_pure, hmore, hsame, hge]

/-- Ints are compared exactly. -/
theorem compared_ints (n m : Int) : ComparedAs (.int n) (.int m) (extend n) (extend m) := by
  have hcompare : compare (extend (n : ℚ)) (extend (m : ℚ)) = compare n m := by
    rw [Number.compare_extend]
    exact Number.compare_of_strictMono Int.cast_strictMono n m
  refine compared_of_order ?_ fun op => by rw [hcompare]; rfl
  have hsame : (n == m) = decide (extend (n : ℚ) = extend (m : ℚ)) := by
    rw [Bool.eq_iff_iff, beq_iff_eq, decide_eq_true_eq, Number.extend_inj, Int.cast_inj]
  rw [← hsame]
  rfl

/-- Anything else is compared as the nearest doubles. -/
theorem compared_nearest (ha : a.Denotes p) (hb : b.Denotes q)
    (hmixed : ¬ (a.IsInt ∧ b.IsInt)) : ComparedAs a b (asDouble p) (asDouble q) := by
  cases ha with
  | @int n hn =>
    have hx := Number.extended?_ofInt hn
    cases hb with
    | @int m hm => exact absurd ⟨⟨n, hn, rfl⟩, ⟨m, hm, rfl⟩⟩ hmixed
    | @float y _ hy =>
      rw [Number.asDouble_of_extended? hy]
      refine compared_of_order ?_ fun op => congrArg Except.ok (Number.order?_of_extended hx hy)
      rw [← Number.beq_of_extended hx hy]
      rfl
  | @float x _ hx =>
    rw [Number.asDouble_of_extended? hx]
    cases hb with
    | @int m hm =>
      have hy := Number.extended?_ofInt hm
      refine compared_of_order ?_ fun op => congrArg Except.ok (Number.order?_of_extended hx hy)
      -- Equality has the converted int on the left, whichever side it is on.
      rw [show decide (p = asDouble (extend m)) = decide (asDouble (extend m) = p) by
        simp only [eq_comm], ← Number.beq_of_extended hy hx]
      rfl
    | @float y _ hy =>
      rw [Number.asDouble_of_extended? hy]
      refine compared_of_order ?_ fun op => congrArg Except.ok (Number.order?_of_extended hx hy)
      rw [← Number.beq_of_extended hx hy]
      rfl

/-- Two ints are compared as the integers that they denote. -/
theorem compared_exact (ha : a.Denotes p) (hb : b.Denotes q) (hi : a.IsInt) (hj : b.IsInt) :
    ComparedAs a b p q := by
  obtain ⟨n, -, rfl⟩ := hi
  obtain ⟨m, -, rfl⟩ := hj
  cases ha
  cases hb
  exact compared_ints n m

/-- Numbers that are doubles are compared exactly. -/
theorem compared_kept (ha : a.Denotes p) (hb : b.Denotes q) (hi : a.Kept) (hj : b.Kept) :
    ComparedAs a b p q := by
  by_cases hints : a.IsInt ∧ b.IsInt
  · exact compared_exact ha hb hints.1 hints.2
  · have hcompared := compared_nearest ha hb hints
    obtain ⟨r, hr, hp⟩ := hi
    obtain ⟨s, hs, hq⟩ := hj
    rw [ha.unique hr, hb.unique hs, hp, hq] at hcompared
    rwa [ha.unique hr, hb.unique hs]

/-- Two numbers are compared the same way in either order: exactly or as the nearest doubles. -/
theorem exists_compared (ha : a.Denotes p) (hb : b.Denotes q) :
    ∃ f : Extended → Extended, Monotone f ∧ ComparedAs a b (f p) (f q) ∧
      ComparedAs b a (f q) (f p) := by
  by_cases hints : a.IsInt ∧ b.IsInt
  · exact ⟨id, monotone_id, compared_exact ha hb hints.1 hints.2,
      compared_exact hb ha hints.2 hints.1⟩
  · exact ⟨asDouble, Number.asDouble_mono, compared_nearest ha hb hints,
      compared_nearest hb ha fun hswapped => hints hswapped.symm⟩

/-- What is said to be less is less. -/
theorem Less.lt (hless : Less a b) (ha : a.Denotes p) (hb : b.Denotes q) : p < q := by
  obtain ⟨f, hmono, hcompared, -⟩ := exists_compared ha hb
  exact hmono.reflect_lt (hcompared.less_iff.1 hless)

/-- What is equal is said to be equal. -/
theorem equal_of_eq (ha : a.Denotes p) (hb : b.Denotes p) : Equal a b := by
  obtain ⟨f, -, hcompared, -⟩ := exists_compared ha hb
  exact hcompared.equal_iff.2 rfl

end

/-! ## Orders -/

/-- Rounding leaves equality symmetric and being less a strict order. -/
theorem arrangedOn_isNumber : ArrangedOn IsNumber where
  refl := by
    rintro a ⟨p, ha⟩
    exact equal_of_eq ha ha
  symm := by
    rintro a b ⟨p, ha⟩ ⟨q, hb⟩ hequal
    obtain ⟨f, -, hcompared, hback⟩ := exists_compared ha hb
    exact hback.equal_iff.2 (hcompared.equal_iff.1 hequal).symm
  irrefl := by
    rintro a ⟨p, ha⟩ hless
    exact lt_irrefl p (hless.lt ha ha)
  trans := by
    rintro a b c ⟨p, ha⟩ ⟨q, hb⟩ ⟨r, hc⟩ hfirst hsecond
    have hpq := hfirst.lt ha hb
    have hqr := hsecond.lt hb hc
    by_cases hints : a.IsInt ∧ c.IsInt
    · exact (compared_exact ha hc hints.1 hints.2).less_iff.2 (hpq.trans hqr)
    · -- One of the two comparisons was made between nearest doubles, and the other one keeps them.
      refine (compared_nearest ha hc hints).less_iff.2 ?_
      by_cases hi : a.IsInt
      · have hj : ¬ (b.IsInt ∧ c.IsInt) := fun h => hints ⟨hi, h.2⟩
        exact (Number.asDouble_mono hpq.le).trans_lt
          ((compared_nearest hb hc hj).less_iff.1 hsecond)
      · have hj : ¬ (a.IsInt ∧ b.IsInt) := fun h => hi h.1
        exact ((compared_nearest ha hb hj).less_iff.1 hfirst).trans_le
          (Number.asDouble_mono hqr.le)

/-- Where comparison is exact, equality and being less are those of the numbers. -/
theorem orderedOn_of_compared {P : Value → Prop} (hnumber : ∀ {a}, P a → a.IsNumber)
    (h : ∀ {a b p q}, P a → P b → a.Denotes p → b.Denotes q → ComparedAs a b p q) :
    OrderedOn P where
  refl ha := arrangedOn_isNumber.refl (hnumber ha)
  symm ha hb := arrangedOn_isNumber.symm (hnumber ha) (hnumber hb)
  irrefl ha := arrangedOn_isNumber.irrefl (hnumber ha)
  trans ha hb hc := arrangedOn_isNumber.trans (hnumber ha) (hnumber hb) (hnumber hc)
  transEq := by
    intro a b c ha hb hc hfirst hsecond
    obtain ⟨⟨p, hp⟩, ⟨q, hq⟩, r, hr⟩ := And.intro (hnumber ha) (And.intro (hnumber hb) (hnumber hc))
    exact (h ha hc hp hr).equal_iff.2
      (((h ha hb hp hq).equal_iff.1 hfirst).trans ((h hb hc hq hr).equal_iff.1 hsecond))
  congr := by
    intro a b c d ha hb hc hd hfirst hsecond hless
    obtain ⟨p, hp⟩ := hnumber ha
    obtain ⟨q, hq⟩ := hnumber hb
    obtain ⟨r, hr⟩ := hnumber hc
    obtain ⟨s, hs⟩ := hnumber hd
    have hlt := (h ha hc hp hr).less_iff.1 hless
    rw [(h ha hb hp hq).equal_iff.1 hfirst, (h hc hd hr hs).equal_iff.1 hsecond] at hlt
    exact (h hb hd hq hs).less_iff.2 hlt

/-- Numbers are compared by value as far as the conversion of ints to floats keeps them. Two ints
are compared exactly, and so are two numbers that floats denote, as all floats and the ints of up to
fifty-three digits are. An int and a float are compared as the float nearest to the int and that
float. So a number that is said to be less is less, and equal numbers are said to be equal: on all
numbers equality is reflexive and symmetric and being less a strict order, and among ints as well as
among what floats denote equality is an equivalence that being less respects. -/
theorem numbers_compared {a b : Value} {p q : Extended} (ha : a.Denotes p) (hb : b.Denotes q) :
    (a.IsInt → b.IsInt → ComparedAs a b p q) ∧
    (a.Kept → b.Kept → ComparedAs a b p q) ∧
    (¬ (a.IsInt ∧ b.IsInt) → ComparedAs a b (asDouble p) (asDouble q)) ∧
    (∀ n : Int, n.natAbs ≤ 2 ^ 53 → Kept (.int n)) ∧
    (∀ x : Float, x.isNaN = false → Kept (.float x)) ∧
    (Less a b → p < q) ∧ (p = q → Equal a b) ∧
    ArrangedOn IsNumber ∧ OrderedOn IsInt ∧ OrderedOn Kept := by
  refine ⟨compared_exact ha hb, compared_kept ha hb, compared_nearest ha hb, fun n hn => ?_,
    fun x hx => ?_, fun hless => hless.lt ha hb, ?_, arrangedOn_isNumber,
    orderedOn_of_compared ?_ fun hi hj hp hq => compared_exact hp hq hi hj,
    orderedOn_of_compared ?_ fun hi hj hp hq => compared_kept hp hq hi hj⟩
  · have hrange : InRange n := by
      simp only [InRange, Number.minInt, Number.maxInt]
      omega
    exact ⟨extend n, .int hrange, by rw [Number.asDouble_extend, Number.rounded_intCast hn]⟩
  · obtain ⟨r, hr⟩ := Number.exists_extended? hx
    exact ⟨r, .float hr, Number.asDouble_of_extended? hr⟩
  · rintro rfl
    exact equal_of_eq ha hb
  · rintro a ⟨n, hn, rfl⟩
    exact ⟨extend n, .int hn⟩
  · rintro a ⟨r, hr, -⟩
    exact ⟨r, hr⟩

/-- The first int that no float denotes is taken for the int before it. -/
theorem asDouble_high :
    asDouble (extend (9007199254740993 : ℤ)) = extend (9007199254740992 : ℤ) := by
  have hhigh := Number.extended?_ofInt (n := 9007199254740993) (by decide)
  have hlow := Number.extended?_ofInt (n := 9007199254740992) (by decide)
  have hkept : asDouble (extend (9007199254740992 : ℤ)) = extend (9007199254740992 : ℤ) := by
    rw [Number.asDouble_extend, Number.rounded_intCast (by decide)]
  have hequal : (Float.ofInt 9007199254740993 == Float.ofInt 9007199254740992) = true := by
    decide +kernel
  rw [Number.beq_of_extended hhigh hlow, decide_eq_true_eq, hkept] at hequal
  exact hequal

theorem denotes_middle :
    (Value.float (Float.ofInt 9007199254740992)).Denotes (extend (9007199254740992 : ℤ)) := by
  have hlow := Number.extended?_ofInt (n := 9007199254740992) (by decide)
  rw [Number.asDouble_extend, Number.rounded_intCast (by decide)] at hlow
  exact .float hlow

/-- That int and the float before it are compared as if they were equal. -/
theorem numbers_compared_high :
    (Value.int 9007199254740993).Denotes (extend (9007199254740993 : ℤ)) ∧
      (Value.float (Float.ofInt 9007199254740992)).Denotes (extend (9007199254740992 : ℤ)) ∧
      ComparedAs (.int 9007199254740993) (.float (Float.ofInt 9007199254740992))
        (extend (9007199254740992 : ℤ)) (extend (9007199254740992 : ℤ)) := by
  have hhigh : (Value.int 9007199254740993).Denotes (extend (9007199254740993 : ℤ)) :=
    .int (by decide)
  obtain ⟨-, -, hcompared, -⟩ := numbers_compared hhigh denotes_middle
  have hmixed := hcompared (by rintro ⟨-, n, -, h⟩; cases h)
  rw [asDouble_high, Number.asDouble_extend, Number.rounded_intCast (by decide)] at hmixed
  exact ⟨hhigh, denotes_middle, hmixed⟩

/-- Different ints equal one float, so that numbers are not always compared as what they denote, and
equality is no equivalence on all of them. -/
theorem numbers_confused :
    (¬ ∀ a b p q, a.Denotes p → b.Denotes q → ComparedAs a b p q) ∧ ¬ OrderedOn IsNumber := by
  have hhigh : (Value.int 9007199254740993).Denotes (extend (9007199254740993 : ℤ)) :=
    .int (by decide)
  have hlow : (Value.int 9007199254740992).Denotes (extend (9007199254740992 : ℤ)) :=
    .int (by decide)
  have hdiffer : ¬ extend (9007199254740993 : ℤ) = extend (9007199254740992 : ℤ) := by
    rw [Number.extend_inj, Int.cast_inj]
    decide
  have hconfused : Equal (.int 9007199254740993) (.float (Float.ofInt 9007199254740992)) := by
    have hcompared := compared_nearest hhigh denotes_middle (by rintro ⟨-, n, -, h⟩; cases h)
    rw [hcompared.equal_iff, asDouble_high, Number.asDouble_extend,
      Number.rounded_intCast (by decide)]
  constructor
  · intro hexact
    exact hdiffer ((hexact _ _ _ _ hhigh denotes_middle).equal_iff.1 hconfused)
  · intro hordered
    have hequal := hordered.transEq ⟨_, hhigh⟩ ⟨_, denotes_middle⟩ ⟨_, hlow⟩ hconfused
      (equal_of_eq denotes_middle hlow)
    exact hdiffer ((compared_ints _ _).equal_iff.1 hequal)

end LandPattern.Value
