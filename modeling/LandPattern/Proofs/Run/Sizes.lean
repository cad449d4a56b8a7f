import LandPattern.Proofs.Script.Lexemes
import LandPattern.Proofs.Values.OperationBounds
import LandPattern.Script.Compile

/-!
# Sizes of values in a run

No value that a run stores, passes or computes is larger than the limits allow. What is counted is
what stands inside a value; recorded depths only serve the proof.
-/

namespace LandPattern

open Metered (Yields yields_seq)

mutual

/-- How many lists and tuples lie inside one another, counted on the items. -/
def Value.height (v : Value) : Nat :=
  match v with
  | .list s | .tuple s => heightOf s.items + 1
  | _ => 0
termination_by structural v

/-- The greatest height among items. -/
def heightOf (items : List Value) : Nat :=
  match items with
  | [] => 0
  | v :: rest => max v.height (heightOf rest)
termination_by structural items

end

/-- The value itself, its items, their items, and so on. -/
inductive Value.Inside : Value → Value → Prop where
  | self (v : Value) : Inside v v
  | item {part item v : Value} {s : Sequence Value} (hs : v.sequence? = some s)
    (hi : item ∈ s.items) (hp : Inside part item) : Inside part v

/-- The value is as large as the limits allow at most, in a script of so many bytes. There is room
for the layers that elements start with, and for their tags. -/
structure Value.Fits (limits : Limits) (sourceBytes : Nat) (v : Value) : Prop where
  length : ∀ s, v.sequence? = some s → s.items.length ≤ max limits.collection 3
  height : v.height ≤ limits.valueDepth
  bytes : ∀ text, v = .text text → text.utf8ByteSize ≤ max (max limits.collection sourceBytes) 11

section

variable {b : Bounds} {limits : Limits}

theorem heightOf_le {items : List Value} {bound : Nat} (h : ∀ item ∈ items, item.height ≤ bound) :
    heightOf items ≤ bound := by
  induction items with
  | nil => exact Nat.zero_le _
  | cons v rest ih =>
    have hfirst := h v List.mem_cons_self
    have hrest := ih fun item hitem => h item (List.mem_cons_of_mem _ hitem)
    rw [heightOf]
    omega

theorem height_le_heightOf {items : List Value} {item : Value} (h : item ∈ items) :
    item.height ≤ heightOf items := by
  induction items with
  | nil => cases h
  | cons v rest ih =>
    rw [heightOf]
    rcases List.mem_cons.1 h with rfl | htail
    · exact Nat.le_max_left _ _
    · exact Nat.le_trans (ih htail) (Nat.le_max_right _ _)

theorem Value.height_eq {v : Value} {s : Sequence Value} (hs : v.sequence? = some s) :
    v.height = heightOf s.items + 1 := by
  cases v <;> cases hs <;> rw [Value.height]

/-- The recorded depth of a sound value is never less than what it counts. -/
theorem Value.Sound.height_le_depth {v : Value} (h : v.Sound b) : v.height ≤ v.depth := by
  induction h with
  | @atom v hs _ => cases v <;> first | exact Nat.zero_le _ | cases hs
  | @sequence v s hs _ positive _ deeper ih =>
    have hitems : heightOf s.items ≤ s.depth - 1 := heightOf_le fun item hitem => by
      have hheight := ih item hitem
      have hbelow := deeper item hitem
      omega
    rw [Value.height_eq hs, Value.depth_eq hs]
    omega

/-- Every part of a value within the bounds is within them. -/
theorem Value.Within.inside {v part : Value} (h : v.Within b) (hp : part.Inside v) :
    part.Within b := by
  induction hp with
  | self => exact h
  | item hs hi _ ih => exact ih (h.items hs _ hi)

/-- A write replaces one component of a value by a sound one, and the depths above it are raised. -/
theorem Value.Within.yields_update {α : Type} {P : α → Prop} {v : Value}
    {write : Value → Metered (Value × α)} (steps : List Step) (h : v.Within b)
    (hw : ∀ old, old.Within b → Yields limits (write old) fun found =>
      found.1.Sound b ∧ P found.2) :
    Yields limits (v.update steps write) fun found => found.1.Sound b ∧ P found.2 := by
  induction steps generalizing v with
  | nil => exact hw v h
  | cons step rest ih =>
    cases step with
    | field name =>
      unfold Value.update
      split
      · split
        · exact .fault _
        · rename_i e datum hdatum
          have helement := Value.sound_element.1 h.sound
          refine .bind (helement.get? hdatum).yields_value fun old hold => ?_
          refine .bind (ih hold) fun found hfound => ?_
          dsimp only
          split
          · rename_i written hwritten
            exact .pure ⟨Value.sound_element.2 (helement.write hfound.1 hwritten), hfound.2⟩
          · exact .fault _
      · exact .fault _
    | index position span =>
      unfold Value.update
      split
      · split
        · exact .fault _
        · split
          · exact .fault _
          · rename_i s p _ _ item hitem
            refine .bind (ih (h.items rfl item (List.mem_of_getElem? hitem))) fun found hfound => ?_
            refine yields_seq fun stamp => .pure ⟨?_, hfound.2⟩
            exact Value.sound_list.2 ((Value.sound_list.1 h.sound).set hfound.1 p stamp)
      · exact .fault _

/-- The check of the whole value bounds the depth of every component that was written. -/
theorem Value.Within.yields_updateWithin {α : Type} {P : α → Prop} {v : Value}
    {write : Value → Metered (Value × α)} (hb : b.Covers limits) (steps : List Step)
    (h : v.Within b)
    (hw : ∀ old, old.Within b → Yields limits (write old) fun found =>
      found.1.Sound b ∧ P found.2) :
    Yields limits (v.updateWithin steps write) fun found => found.1.Within b ∧ P found.2 := by
  refine .bind (h.yields_update steps hw) fun found hfound => ?_
  have hchecked : Yields limits (Metered.checkValue found.1) fun _ => found.1.depth ≤ b.depth := by
    obtain ⟨v, result⟩ := found
    cases v with
    | list s => exact (Metered.yields_checkSequence s).weaken fun _ hs => Nat.le_trans hs.2 hb.depth
    | tuple s => exact (Metered.yields_checkSequence s).weaken fun _ hs => Nat.le_trans hs.2 hb.depth
    | text s => exact yields_seq fun _ => .ite (fun _ => .fault _) fun _ => .pure (Nat.zero_le _)
    | _ => exact .pure (Nat.zero_le _)
  exact .bind hchecked fun _ hdepth => .pure ⟨⟨hfound.1, hdepth⟩, hfound.2⟩

/-- Everything a script does with values keeps them within bounds that cover its limits. -/
theorem Value.lasting_within (functions : List Script.Function) (hb : b.Covers limits) :
    Value.Lasting ⟨functions, limits⟩ (Value.Within b) where
  nothing := within_atom rfl trivial
  bool _ := within_atom rfl trivial
  int _ := within_atom rfl trivial
  float _ := within_atom rfl trivial
  builtin _ := within_atom rfl trivial
  function _ := within_atom rfl trivial
  items h hs := h.items hs
  collected h := by
    refine .bind (Metered.yields_sequence _) fun s hs => ?_
    obtain ⟨stamp, rfl⟩ := hs
    refine .bind (Metered.yields_checkSequence _) fun _ hchecked => .pure ?_
    have hsound := Sequence.Sound.ofItems (Nat.le_trans hchecked.1 hb.items)
      (fun v hv => (h v hv).sound) stamp
    have hdepth := Nat.le_trans hchecked.2 hb.depth
    exact ⟨within_list hsound hdepth, within_tuple hsound hdepth⟩
  combine op _ _ hv hw := yields_combine hb op hv hw
  call word _ ha := Builtin.yields_call hb word ha
  method name _ hr ha := (Method.yields_method hb name hr ha).weaken fun _ hfound => hfound.2
  readField field h := h.yields_readField field
  readIndex h hi := h.readIndex hi
  mutated steps name _ hr ha :=
    hr.yields_updateWithin hb steps fun _ hold => Method.yields_method hb name hold ha
  stored steps op hr hv := by
    refine (hr.yields_updateWithin (P := fun _ => True) hb steps fun _ hold => ?_).weaken
      fun _ hfound => hfound.1
    exact .bind (yields_assigned hb op hold hv) fun _ hnew => .pure ⟨hnew.sound, trivial⟩

end

/-- The bounds of a run under these limits, of a script of so many bytes. -/
def Limits.bounds (limits : Limits) (sourceBytes : Nat) : Bounds :=
  ⟨max limits.collection 3, max limits.valueDepth 1, max (max limits.collection sourceBytes) 11,
    by omega, by omega, by omega⟩

theorem Limits.bounds_covers (limits : Limits) (sourceBytes : Nat) :
    (limits.bounds sourceBytes).Covers limits := by
  refine ⟨Nat.le_max_left _ _, ?_, Nat.le_max_left _ _⟩
  exact Nat.le_trans (Nat.le_max_left _ _) (Nat.le_max_left _ _)

/-- The texts of a script are no longer than its source. -/
theorem Script.Program.texts_within {depths : Depths} {source : String} {program : Program}
    (h : Program.ofText depths source = .ok program) (limits : Limits) :
    ∀ text ∈ program.texts, (Value.text text).Within (limits.bounds source.utf8ByteSize) := by
  intro text htext
  obtain ⟨tokens, htokens, -, hprogram, -⟩ := Program.stages_of_ofText h
  obtain ⟨t, ht, heq⟩ := Program.texts_mem_of_ofTokens hprogram htext
  have hsource := utf8ByteSize_of_tokenize htokens ht heq
  refine Value.within_text (Nat.le_trans hsource ?_)
  exact Nat.le_trans (Nat.le_max_right _ _) (Nat.le_max_left _ _)

/-- All values at all moments of a run are within the bounds of the run. -/
theorem Script.Program.run_within {depths : Depths} {source : String} {program : Program}
    (h : Program.ofText depths source = .ok program) (limits : Limits) :
    (program.run limits).2.All (Value.Within (limits.bounds source.utf8ByteSize)) :=
  Program.run_lasting (Value.lasting_within program.functions (limits.bounds_covers _))
    (Program.texts_within h limits)

/-- At every moment of a run, no list, tuple or text anywhere inside a constant, a variable, an
argument or the value of an expression is larger or deeper than the limits allow. -/
theorem Script.Program.run_fits {depths : Depths} {source : String} {program : Program}
    (h : Program.ofText depths source = .ok program) (limits : Limits)
    (hdepth : 1 ≤ limits.valueDepth) {moment : Moment}
    (hm : (program.run limits).2.history moment) {v part : Value} (hv : v ∈ moment.values)
    (hp : part.Inside v) : part.Fits limits source.utf8ByteSize := by
  have hall := Program.run_within h limits
  have hpart := ((hall.history moment hm).mem_values v hv).inside hp
  have hheight := Nat.le_trans hpart.sound.height_le_depth hpart.depth
  refine ⟨fun s hs => ?_, by simpa [Limits.bounds, hdepth] using hheight, ?_⟩
  · exact ((Value.sound_of_sequence? hs).1 hpart.sound).length
  · rintro text rfl
    exact Value.sound_text.1 hpart.sound

/-- Limits that leave room for one item, and for one level of nesting. -/
def tightLimits : Limits := ⟨0, 10, 1, 1, 1, 4, 4, 100⟩

/-- The text in a constant list of one text is found, and fits. -/
theorem Script.Program.run_fits_constant :
    ∃ program moment, Program.ofText ⟨4, 4⟩ "let a = [\"x\"];" = .ok program ∧
      (program.run tightLimits).2.history moment ∧
      Value.list ⟨[.text "x"], 1, 0⟩ ∈ moment.values ∧
      (Value.text "x").Fits tightLimits 14 := by
  have hread : readLexemes 0 0 [] [] "let a = [\"x\"];".toList =
      ([⟨.wordLet, ⟨0, 3⟩⟩, ⟨.blank, ⟨3, 4⟩⟩, ⟨.name "a", ⟨4, 5⟩⟩, ⟨.blank, ⟨5, 6⟩⟩,
        ⟨.equals, ⟨6, 7⟩⟩, ⟨.blank, ⟨7, 8⟩⟩, ⟨.leftBracket, ⟨8, 9⟩⟩, ⟨.text "x", ⟨9, 12⟩⟩,
        ⟨.rightBracket, ⟨12, 13⟩⟩, ⟨.semicolon, ⟨13, 14⟩⟩], []) := by decide +kernel
  have hprogram : Program.ofText ⟨4, 4⟩ "let a = [\"x\"];" =
      .ok ⟨[.constant ⟨"a", ⟨4, 5⟩⟩ (.list ⟨8, 13⟩ [.text ⟨9, 12⟩ "x"])]⟩ := by
    rw [Program.ofText, tokenize, hread]
    rfl
  have hm : ((⟨[.constant ⟨"a", ⟨4, 5⟩⟩ (.list ⟨8, 13⟩ [.text ⟨9, 12⟩ "x"])]⟩ : Program).run
      tightLimits).2.history ⟨[("a", .list ⟨[.text "x"], 1, 0⟩)], [], none⟩ := Or.inl rfl
  have hv : Value.list ⟨[.text "x"], 1, 0⟩ ∈
      Moment.values ⟨[("a", .list ⟨[.text "x"], 1, 0⟩)], [], none⟩ := List.mem_cons_self
  have hp : (Value.text "x").Inside (.list ⟨[.text "x"], 1, 0⟩) :=
    .item rfl List.mem_cons_self (.self _)
  exact ⟨_, _, hprogram, hm, hv, Program.run_fits hprogram tightLimits (by decide) hm hv hp⟩

end LandPattern
