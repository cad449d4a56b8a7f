import LandPattern.Proofs.Json.Reader
import LandPattern.Proofs.Number.Digits
import LandPattern.Proofs.Number.Fields

/-!
# Numbers in JSON text

The text of an integer denotes the integer, and the text of a finite double denotes a number that is
nearer to it than to any other double. So neither two integers nor two finite doubles, the zeros
included, are read as the same number.
-/

namespace LandPattern.Json

open Number (Binary Decimal Representable ofDigits recordText shortest stepsValue)

/-! ## Parts of a number -/

/-- The text of a number without its sign. -/
structure Numeral (text : List Char) (size : ℚ) : Prop where
  reads : readSize? text = some size
  bare : ∀ c ∈ text, isBare c = true

/-- A text that no digit begins. -/
def Undigited (rest : List Char) : Prop := ∀ c more, rest = c :: more → c.isDigit = false

theorem isBare_digit {c : Char} (hc : c.isDigit = true) : isBare c = true := by
  have hne : ∀ d : Char, d.isDigit = false → c ≠ d := by
    rintro d hd rfl
    rw [hc] at hd
    cases hd
  simp [isBare, isBlank, sign?, hne]

/-- Digits go up to what is no digit. -/
theorem takeWhile_digits {digits rest : List Char} (hd : ∀ c ∈ digits, c.isDigit = true)
    (hr : Undigited rest) :
    (digits ++ rest).takeWhile Char.isDigit = digits ∧
      (digits ++ rest).dropWhile Char.isDigit = rest := by
  rw [List.takeWhile_append_of_pos hd, List.dropWhile_append_of_pos hd]
  cases rest with
  | nil => exact ⟨List.append_nil digits, rfl⟩
  | cons c more =>
    have hc := hr c more rfl
    rw [List.takeWhile_cons_of_neg (by simp [hc]), List.dropWhile_cons_of_neg (by simp [hc])]
    exact ⟨List.append_nil digits, rfl⟩

/-- The texts of exponents, of which a text may have none. -/
inductive Exponent : List Char → ℤ → Prop where
  | none : Exponent [] 0
  | up (n : ℕ) : Exponent ('e' :: '+' :: Nat.toDigits 10 n) n
  | down (n : ℕ) : Exponent ('e' :: '-' :: Nat.toDigits 10 n) (-n)

namespace Exponent

variable {text : List Char} {exponent : ℤ}

theorem readExponent_toDigits (n : ℕ) (sign : ℤ) :
    Number.readExponent?.unsigned (Nat.toDigits 10 n) sign = some (sign * n) := by
  have hall : (Nat.toDigits 10 n).all Char.isDigit = true :=
    List.all_eq_true.2 (Number.isDigit_toDigits n)
  have hne : (Nat.toDigits 10 n).isEmpty = false := by simp [Nat.toDigits_ne_nil]
  unfold Number.readExponent?.unsigned
  simp only [hall, hne, Number.ofDigits_toDigits, Bool.not_true, Bool.or_self, Bool.false_eq_true,
    if_false]

theorem reads (h : Exponent text exponent) : exponentPart? text = some exponent := by
  cases h with
  | none => rfl
  | up n =>
    have hread := readExponent_toDigits n 1
    rw [one_mul] at hread
    exact hread
  | down n =>
    have hread := readExponent_toDigits n (-1)
    rw [neg_one_mul] at hread
    exact hread

theorem bare (h : Exponent text exponent) : ∀ c ∈ text, isBare c = true := by
  have hsigned : ∀ sign n, isBare sign = true →
      ∀ c ∈ 'e' :: sign :: Nat.toDigits 10 n, isBare c = true := by
    intro sign n hsign c hc
    rcases List.mem_cons.1 hc with rfl | hc
    · decide
    rcases List.mem_cons.1 hc with rfl | hc
    · exact hsign
    · exact isBare_digit (Number.isDigit_toDigits n c hc)
  cases h with
  | none => exact fun c hc => absurd hc List.not_mem_nil
  | up n => exact hsigned '+' n (by decide)
  | down n => exact hsigned '-' n (by decide)

/-- Neither a digit nor a point begins an exponent. -/
theorem head (h : Exponent text exponent) :
    ∀ c more, text = c :: more → c.isDigit = false ∧ c ≠ '.' := by
  rintro c more rfl
  cases h <;> decide

end Exponent

/-- The fraction of a number behind its point; a fraction without digits has no point. -/
def pointed (fraction : List Char) : List Char := if fraction.isEmpty then [] else '.' :: fraction

/-- A whole part ends before a fraction or an exponent. -/
theorem wholePart?_append {whole rest : List Char} (hw : ∀ c ∈ whole, c.isDigit = true)
    (hne : whole ≠ []) (hzero : whole.head? = some '0' → whole.length = 1)
    (hr : Undigited rest) : wholePart? (whole ++ rest) = some (whole, rest) := by
  obtain ⟨htake, hdrop⟩ := takeWhile_digits hw hr
  have hleading : (whole.isEmpty || whole.head? == some '0' && whole.length != 1) = false := by
    rw [Bool.or_eq_false_iff, Bool.and_eq_false_imp]
    refine ⟨by simp [hne], fun hhead => ?_⟩
    simp [hzero (beq_iff_eq.1 hhead)]
  unfold wholePart?
  simp only [htake, hdrop, hleading, Bool.false_eq_true, if_false]

section

variable {fraction tail : List Char} {exponent : ℤ} (hf : ∀ c ∈ fraction, c.isDigit = true)
  (ht : Exponent tail exponent)
include hf ht

/-- A fraction ends before an exponent. -/
theorem fractionPart?_pointed :
    fractionPart? (pointed fraction ++ tail) = some (fraction, tail) := by
  unfold pointed
  split
  · rename_i hempty
    rw [List.isEmpty_iff.1 hempty, List.nil_append]
    unfold fractionPart?
    split
    · rename_i more
      exact absurd rfl (ht.head '.' more rfl).2
    · rfl
  · rename_i hsome
    obtain ⟨htake, hdrop⟩ := takeWhile_digits hf fun c more heq => (ht.head c more heq).1
    unfold fractionPart?
    simp only [List.cons_append, htake, hdrop, hsome, Bool.false_eq_true, if_false]

theorem isBare_pointed : ∀ c ∈ pointed fraction ++ tail, isBare c = true := by
  intro c hc
  rcases List.mem_append.1 hc with hc | hc
  · unfold pointed at hc
    split at hc
    · exact absurd hc List.not_mem_nil
    · rcases List.mem_cons.1 hc with rfl | hc
      · decide
      · exact isBare_digit (hf c hc)
  · exact ht.bare c hc

/-- A number is made of its whole part, its fraction and its exponent. -/
theorem numeral_parts {whole : List Char} (hw : ∀ c ∈ whole, c.isDigit = true) (hne : whole ≠ [])
    (hzero : whole.head? = some '0' → whole.length = 1) :
    Numeral (whole ++ (pointed fraction ++ tail))
      (ofDigits (whole ++ fraction) * 10 ^ (exponent - fraction.length)) := by
  have hundigited : Undigited (pointed fraction ++ tail) := by
    unfold pointed
    split
    · exact fun c more heq => (ht.head c more heq).1
    · rintro c more heq
      obtain ⟨rfl, -⟩ := List.cons.inj heq
      decide
  have hwhole := wholePart?_append hw hne hzero hundigited
  have hfraction := fractionPart?_pointed hf ht
  refine ⟨?_, fun c hc => ?_⟩
  · unfold readSize?
    rw [hwhole]
    simp only [Option.bind_eq_bind, Option.bind_some, hfraction, ht.reads]
  · rcases List.mem_append.1 hc with hc | hc
    · exact isBare_digit (hw c hc)
    · exact isBare_pointed hf ht c hc

end

/-! ## Written numbers -/

/-- The digits of a whole number are its text. -/
theorem numeral_toDigits (n : ℕ) : Numeral (Nat.toDigits 10 n) n := by
  have hzero : (Nat.toDigits 10 n).head? = some '0' → (Nat.toDigits 10 n).length = 1 := by
    intro hhead
    rcases Nat.eq_zero_or_pos n with rfl | hpos
    · rfl
    · exact absurd hhead (Number.head?_toDigits hpos)
  have hnumeral := numeral_parts (fun c hc => absurd hc List.not_mem_nil) .none
    (Number.isDigit_toDigits n) Nat.toDigits_ne_nil hzero
  simpa [pointed, Number.ofDigits_toDigits] using hnumeral

theorem isDigit_zero : ∀ c ∈ ['0'], c.isDigit = true := List.all_eq_true.1 (by decide)

/-- Zero has a digit on either side of its point. -/
theorem numeral_zero : Numeral "0.0".toList 0 := by
  have hnumeral := numeral_parts isDigit_zero .none isDigit_zero (List.cons_ne_nil _ _) fun _ => rfl
  have hvalue : ofDigits (['0'] ++ ['0']) = 0 := by decide
  rw [hvalue, Nat.cast_zero, zero_mul] at hnumeral
  exact hnumeral

section

variable {digits : List Char}

theorem isDigit_zeros {zeros : ℕ} : ∀ c ∈ List.replicate zeros '0', c.isDigit = true := by
  intro c hc
  rw [(List.mem_replicate.1 hc).2]
  decide

theorem isDigit_append {first second : List Char} (hf : ∀ c ∈ first, c.isDigit = true)
    (hs : ∀ c ∈ second, c.isDigit = true) : ∀ c ∈ first ++ second, c.isDigit = true :=
  fun c hc => (List.mem_append.1 hc).elim (hf c) (hs c)

/-- Digits behind a point and some zeros. -/
theorem numeral_below_one (hd : ∀ c ∈ digits, c.isDigit = true) (hne : digits ≠ []) (zeros : ℕ) :
    Numeral ('0' :: '.' :: (List.replicate zeros '0' ++ digits))
      (ofDigits digits * 10 ^ (-(zeros + digits.length : ℤ))) := by
  have hnumeral := numeral_parts (isDigit_append (@isDigit_zeros zeros) hd) .none isDigit_zero
    (List.cons_ne_nil _ _) (fun _ => rfl)
  have hpoint : (List.replicate zeros '0' ++ digits).isEmpty = false := by simp [hne]
  have hvalue : ofDigits (['0'] ++ (List.replicate zeros '0' ++ digits)) = ofDigits digits := by
    rw [Number.ofDigits_append, Number.ofDigits_append, Number.ofDigits_zeros]
    exact Nat.zero_add _ |>.trans (Nat.zero_add _)
  rw [hvalue] at hnumeral
  simpa [pointed, hpoint] using hnumeral

/-- Digits and some zeros before a point, with a zero behind it. -/
theorem numeral_whole (hd : ∀ c ∈ digits, c.isDigit = true) (hne : digits ≠ [])
    (hhead : digits.head? ≠ some '0') (zeros : ℕ) :
    Numeral (digits ++ List.replicate zeros '0' ++ '.' :: ['0'])
      (ofDigits digits * 10 ^ zeros) := by
  have hfront : (digits ++ List.replicate zeros '0').head? = digits.head? := by
    cases digits with
    | nil => exact absurd rfl hne
    | cons c more => rfl
  have hnumeral := numeral_parts isDigit_zero .none (isDigit_append hd (@isDigit_zeros zeros))
    (by simp [hne]) (fun h => absurd (hfront ▸ h) hhead)
  have hvalue : (ofDigits (digits ++ List.replicate zeros '0' ++ ['0']) : ℚ) *
      10 ^ (0 - ((['0'].length : ℕ) : ℤ)) = ofDigits digits * 10 ^ zeros := by
    have hzero : ofDigits ['0'] = 0 := by decide
    rw [Number.ofDigits_append, Number.ofDigits_append, Number.ofDigits_zeros, hzero,
      List.length_replicate, List.length_singleton]
    push_cast
    rw [zpow_neg_one]
    ring
  rw [hvalue] at hnumeral
  simpa [pointed] using hnumeral

/-- Digits with a point among them. -/
theorem numeral_among {whole fraction : List Char} (hd : ∀ c ∈ whole ++ fraction, c.isDigit = true)
    (hw : whole ≠ []) (hf : fraction ≠ []) (hhead : whole.head? ≠ some '0') :
    Numeral (whole ++ '.' :: fraction)
      (ofDigits (whole ++ fraction) * 10 ^ (-(fraction.length : ℤ))) := by
  have hnumeral := numeral_parts (fun c hc => hd c (List.mem_append_right _ hc)) .none
    (fun c hc => hd c (List.mem_append_left _ hc)) hw (fun h => absurd h hhead)
  simpa [pointed, hf] using hnumeral

/-- Digits with a point behind so many of them, with zeros where there are not so many. -/
theorem numeral_positional (hd : ∀ c ∈ digits, c.isDigit = true) (hne : digits ≠ [])
    (hhead : digits.head? ≠ some '0') {places : ℕ} (hp : 0 < places) :
    Numeral (digits.take places ++ List.replicate (places - (digits.take places).length) '0' ++
        '.' :: (if (digits.drop places).isEmpty then ['0'] else digits.drop places))
      (ofDigits digits * 10 ^ ((places : ℤ) - digits.length)) := by
  by_cases hlong : digits.length ≤ places
  · have hnumeral := numeral_whole hd hne hhead (places - digits.length)
    have hexponent : (10 : ℚ) ^ (places - digits.length) =
        10 ^ ((places : ℤ) - digits.length) := by
      rw [← zpow_natCast]
      congr 1
      omega
    rw [hexponent] at hnumeral
    simpa [List.take_of_length_le hlong, List.drop_of_length_le hlong] using hnumeral
  · have hsplit := List.take_append_drop places digits
    have hback : digits.drop places ≠ [] := by
      rw [ne_eq, List.drop_eq_nil_iff]
      exact hlong
    have hfront : (digits.take places).head? = digits.head? := by
      rw [List.head?_take, if_neg (by omega)]
    have hsome : digits.take places ≠ [] := by
      rw [ne_eq, List.take_eq_nil_iff]
      exact fun heq => heq.elim (by omega) hne
    have hnumeral := numeral_among (hsplit.symm ▸ hd) hsome hback (hfront ▸ hhead)
    have hexponent : (-((digits.drop places).length : ℤ)) = places - digits.length := by
      rw [List.length_drop]
      omega
    have hpadding : places - (digits.take places).length = 0 := by
      rw [List.length_take]
      omega
    rw [hsplit, hexponent] at hnumeral
    simp only [hpadding, List.replicate_zero, List.append_nil, List.isEmpty_iff, hback, if_false]
    exact hnumeral

/-- The first digit before a point, the others behind it, and a power of ten. -/
theorem numeral_scientific {tail : List Char} {exponent : ℤ} (hd : ∀ c ∈ digits, c.isDigit = true)
    (hne : digits ≠ []) (ht : Exponent tail exponent) :
    Numeral (digits.take 1 ++ (pointed (digits.drop 1) ++ tail))
      (ofDigits digits * 10 ^ (exponent + 1 - digits.length)) := by
  cases digits with
  | nil => exact absurd rfl hne
  | cons c more =>
    have hnumeral := numeral_parts (fun d hc => hd d (List.mem_cons_of_mem c hc)) ht
      (fun d hc => hd d (List.mem_of_mem_take (i := 1) hc)) (List.cons_ne_nil c []) (fun _ => rfl)
    have hexponent : exponent + 1 - ((c :: more).length : ℤ) = exponent - more.length := by
      rw [List.length_cons]
      omega
    rw [hexponent]
    exact hnumeral

end

/-- The exponent of a record is written with its sign. -/
theorem exponent_written (leading : ℤ) :
    Exponent ('e' :: ((if leading < 0 then "" else recordText.plus) ++ toString leading).toList)
      leading := by
  rw [String.toList_append, Number.toList_toString]
  by_cases hneg : leading < 0
  · have hsize : -(leading.natAbs : ℤ) = leading := by omega
    have hdown := Exponent.down leading.natAbs
    rw [hsize] at hdown
    rw [if_pos hneg, if_pos hneg]
    exact hdown
  · have hsize : (leading.natAbs : ℤ) = leading := by omega
    have hup := Exponent.up leading.natAbs
    rw [hsize] at hup
    rw [if_neg hneg, if_neg hneg]
    exact hup

/-- The text of a decimal denotes the decimal. -/
theorem numeral_decimal {d : Decimal} (hd : 0 < d.digits) :
    Numeral (recordText.decimal d).toList d.value := by
  have hne : Nat.toDigits 10 d.digits ≠ [] := Nat.toDigits_ne_nil
  have hdigit := Number.isDigit_toDigits d.digits
  have hhead := Number.head?_toDigits hd
  have hvalue := Number.ofDigits_toDigits d.digits
  have hlength : 0 < (Nat.toDigits 10 d.digits).length := Nat.length_toDigits_pos
  obtain ⟨leading, hleading⟩ : ∃ leading : ℤ,
      leading = d.exponent + (Nat.toDigits 10 d.digits).length - 1 := ⟨_, rfl⟩
  unfold Number.Style.decimal
  simp only [Number.toList_toString_natCast, ← hleading, String.toList_ofList]
  generalize Nat.toDigits 10 d.digits = digits at *
  rw [Decimal.value, ← hvalue]
  split
  · split
    · rename_i hsmall
      have hnumeral := numeral_below_one hdigit hne (-leading - 1).toNat
      have hexponent : (-((-leading - 1).toNat + digits.length : ℤ)) = d.exponent := by omega
      rwa [hexponent] at hnumeral
    · rename_i hlarge
      have hnumeral := numeral_positional hdigit hne hhead (Nat.succ_pos leading.toNat)
      have hexponent : ((leading.toNat.succ : ℕ) : ℤ) - digits.length = d.exponent := by omega
      rwa [hexponent] at hnumeral
  · have hnumeral := numeral_scientific hdigit hne (exponent_written leading)
    have hexponent : leading + 1 - digits.length = d.exponent := by omega
    rw [hexponent] at hnumeral
    simpa [pointed] using hnumeral

/-! ## Integers and doubles -/

/-- A text between brackets and quotes that denotes a value. -/
structure Bare (text : List Char) (v : Tree) : Prop where
  reads : readBare? text = some v
  bare : ∀ c ∈ text, isBare c = true

/-- What begins with no letter of a word is a number with or without its sign. -/
theorem readBare?_cons {c : Char} (hc : c ≠ 'n' ∧ c ≠ 't' ∧ c ≠ 'f') (more : List Char) :
    readBare? (c :: more) =
      if c = '-' then (readSize? more).map (.number true)
      else (readSize? (c :: more)).map (.number false) := by
  have hword : ∀ d others, c ≠ d → (c :: more == d :: others) = false := by
    intro d others hne
    rw [beq_eq_false_iff_ne]
    exact fun heq => hne (List.cons.inj heq).1
  have hnull := hword 'n' ['u', 'l', 'l'] hc.1
  have htrue := hword 't' ['r', 'u', 'e'] hc.2.1
  have hfalse := hword 'f' ['a', 'l', 's', 'e'] hc.2.2
  unfold readBare?
  change (if (c :: more == ['n', 'u', 'l', 'l']) = true then _ else
    if (c :: more == ['t', 'r', 'u', 'e']) = true then _ else
    if (c :: more == ['f', 'a', 'l', 's', 'e']) = true then _ else _) = _
  rw [hnull, htrue, hfalse]
  simp only [Bool.false_eq_true, if_false]
  split
  · rename_i heq
    obtain ⟨rfl, rfl⟩ := List.cons.inj heq
    rw [if_pos rfl]
  · rename_i hnot
    rw [if_neg fun heq => hnot more (by rw [heq])]

/-- A text that begins with no digit is no number without a sign. -/
theorem readSize?_of_undigited {text : List Char} (h : Undigited text) : readSize? text = none := by
  have hdigits : text.takeWhile Char.isDigit = [] := by
    cases text with
    | nil => rfl
    | cons c more => rw [List.takeWhile_cons_of_neg (by simp [h c more rfl])]
  unfold readSize? wholePart?
  simp only [hdigits]
  rfl

namespace Numeral

variable {text : List Char} {size : ℚ}

/-- A number begins with a digit. -/
theorem head (h : Numeral text size) : ∃ c more, text = c :: more ∧ c.isDigit = true := by
  by_contra hnot
  have hundigited : Undigited text := fun c more heq => by
    cases hc : c.isDigit with
    | false => rfl
    | true => exact absurd ⟨c, more, heq, hc⟩ hnot
  have hreads := h.reads
  rw [readSize?_of_undigited hundigited] at hreads
  cases hreads

theorem positive (h : Numeral text size) : Bare text (.number false size) := by
  obtain ⟨c, more, rfl, hc⟩ := h.head
  have hne : ∀ d : Char, d.isDigit = false → c ≠ d := by
    rintro d hd rfl
    rw [hc] at hd
    cases hd
  refine ⟨?_, h.bare⟩
  rw [readBare?_cons ⟨hne _ (by decide), hne _ (by decide), hne _ (by decide)⟩,
    if_neg (hne _ (by decide)), h.reads]
  rfl

theorem negative (h : Numeral text size) : Bare ('-' :: text) (.number true size) := by
  refine ⟨?_, fun c hc => ?_⟩
  · rw [readBare?_cons (by decide), if_pos rfl, h.reads]
    rfl
  · rcases List.mem_cons.1 hc with rfl | hc
    · decide
    · exact h.bare c hc

/-- A number behind the sign that it has. -/
theorem signed (h : Numeral text size) (negative : Bool) :
    Bare ((if negative then ['-'] else []) ++ text) (.number negative size) := by
  cases negative with
  | false => exact h.positive
  | true => exact h.negative

end Numeral

/-- What an integer is read as. -/
def ofInt (n : ℤ) : Tree := .number (decide (n < 0)) n.natAbs

/-- The size of a finite double as its text denotes it. -/
def writtenSize (steps : ℕ) : ℚ := if steps = 0 then 0 else (shortest .even steps).value

/-- What a double is read as. -/
def ofFloat (x : Float) : Tree :=
  match Binary.ofFloat x with
  | .finite negative steps => .number negative (writtenSize steps)
  | _ => .null

theorem bare_int (n : ℤ) : Bare (toString n).toList (ofInt n) := by
  have hnumeral := numeral_toDigits n.natAbs
  rw [Number.toList_toString, ofInt]
  by_cases hneg : n < 0
  · rw [if_pos hneg, decide_eq_true hneg]
    exact hnumeral.negative
  · rw [if_neg hneg, decide_eq_false hneg]
    exact hnumeral.positive

theorem bare_null : Bare "null".toList .null := ⟨rfl, List.all_eq_true.1 (by decide)⟩

theorem bare_float (x : Float) : Bare (recordText.write x).toList (ofFloat x) := by
  unfold Number.Style.write ofFloat
  split
  · rename_i hnan
    rw [hnan]
    exact bare_null
  · rename_i hinfinite
    rw [hinfinite]
    split <;> exact bare_null
  · rename_i negative steps hfinite
    have hsign : (if negative = true then "-" else "").toList =
        if negative = true then ['-'] else [] := by split <;> rfl
    rw [hfinite]
    dsimp only
    unfold writtenSize
    split
    · rename_i hzero
      rw [String.toList_append, hsign]
      exact numeral_zero.signed negative
    · rename_i hsome
      have hpositive := Nat.pos_of_ne_zero hsome
      have hdigits := Number.digits_shortest_pos
        (Number.representable_of_ofFloat hfinite hpositive) .even
      rw [String.toList_append, hsign]
      exact (numeral_decimal hdigits).signed negative

/-! ## Different numbers -/

theorem ofInt_inj {n m : ℤ} (h : ofInt n = ofInt m) : n = m := by
  unfold ofInt at h
  injection h with hsign hsize
  have hnat : n.natAbs = m.natAbs := by exact_mod_cast hsize
  have hiff := decide_eq_decide.1 hsign
  omega

/-- The size of a double as it is written is that of no other double. -/
theorem writtenSize_inj {steps others : ℕ} (hs : 0 < steps → Representable steps)
    (ho : 0 < others → Representable others) (h : writtenSize steps = writtenSize others) :
    steps = others := by
  have hpositive : ∀ {steps : ℕ}, Representable steps → (shortest .even steps).value ≠ 0 := by
    intro steps hsteps
    have hdigits := Number.digits_shortest_pos hsteps .even
    have hcast : (0 : ℚ) < (shortest .even steps).digits := by exact_mod_cast hdigits
    rw [Decimal.value]
    exact (mul_pos hcast (zpow_pos (by norm_num) _)).ne'
  unfold writtenSize at h
  split at h
  · rename_i hzero
    split at h
    · rename_i hboth
      rw [hzero, hboth]
    · rename_i hother
      exact absurd h.symm (hpositive (ho (Nat.pos_of_ne_zero hother)))
  · rename_i hsome
    have hsteps := hs (Nat.pos_of_ne_zero hsome)
    split at h
    · exact absurd h (hpositive hsteps)
    · rename_i hother
      have hothers := ho (Nat.pos_of_ne_zero hother)
      have hrounded := congrArg Number.roundedSize h
      rw [Number.roundedSize_shortest hsteps, Number.roundedSize_shortest hothers, stepsValue,
        stepsValue] at hrounded
      have hcast := mul_right_cancel₀ (Number.two_zpow_pos (-1074)).ne' hrounded
      exact_mod_cast hcast

/-- A finite double is the only one that is read as the same number. -/
theorem ofFloat_inj {x y : Float} (hx : x.isFinite = true) (h : ofFloat x = ofFloat y) : x = y := by
  obtain ⟨negative, steps, hfinite⟩ := Number.ofFloat_of_isFinite hx
  unfold ofFloat at h
  rw [hfinite] at h
  cases hy : Binary.ofFloat y with
  | nan =>
    rw [hy] at h
    cases h
  | infinite sign =>
    rw [hy] at h
    cases h
  | finite sign others =>
    rw [hy] at h
    injection h with hsign hsize
    have hsteps := writtenSize_inj (Number.representable_of_ofFloat hfinite)
      (Number.representable_of_ofFloat hy) hsize
    subst hsign hsteps
    exact Number.eq_of_ofFloat hfinite hy

end LandPattern.Json
