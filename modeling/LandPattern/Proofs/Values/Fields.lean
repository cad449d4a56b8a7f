import LandPattern.Proofs.Json.Records
import LandPattern.Proofs.Values.Attributes
import LandPattern.Proofs.Values.Lookups

/-!
# Attributes and records

The attributes that can be read from an element are the members of its record, with the values that
are written there. A write to an attribute changes that member of the record and no other, and is
refused only for what cannot stand there.
-/

namespace LandPattern

/-! ## Reading -/

namespace Element

/-- What stands in an attribute stands in the record under its name. -/
theorem lookup_record (e : Element) (field : String) : e.record.lookup field = e.get? field := by
  unfold get?
  by_cases htag : field = "t"
  · subst htag
    rfl
  · rw [record, List.lookup_cons, beq_eq_false_iff_ne.2 htag, if_neg htag]
    cases e with
    | rect r =>
      simp only [attributes, Rect.get?]
      split <;> first | rfl | simp_all [List.lookup_eq_none_iff]
    | line l =>
      simp only [attributes, Line.get?]
      split <;> first | rfl | simp_all [List.lookup_eq_none_iff]
    | caption c =>
      simp only [attributes, Caption.get?]
      split <;> first | rfl | simp_all [List.lookup_eq_none_iff]
    | smd s =>
      simp only [attributes, Smd.get?]
      split <;> first | rfl | simp_all [List.lookup_eq_none_iff]
    | drilled p =>
      simp only [attributes, Drilled.get?]
      split <;> first | rfl | simp_all [List.lookup_eq_none_iff]
    | model m =>
      simp only [attributes, Model.get?]
      split <;> first | rfl | simp_all [List.lookup_eq_none_iff]

/-- The names of a record are those of the attributes that can be read. -/
theorem mem_names_iff {e : Element} {field : String} :
    field ∈ e.record.map Prod.fst ↔ ∃ datum, e.get? field = some datum := by
  rw [← Entries.isSome_lookup_iff, lookup_record, Option.isSome_iff_exists]

/-- Elements of one tag are told by what can be read from them. -/
theorem eq_of_get? {e other : Element} (ht : other.tag = e.tag)
    (h : ∀ field, other.get? field = e.get? field) : other = e := by
  have hnames : other.record.map Prod.fst = e.record.map Prod.fst := by
    rw [record_names, record_names, ht]
  have hrecord : other.record = e.record := by
    refine Entries.eq_of_lookup hnames e.record_nodup fun field _ => ?_
    rw [lookup_record, lookup_record, h]
  exact eq_of_attributes ht (List.cons.inj hrecord).2

end Element

/-- The keys of a JSON object, in order. -/
def Json.keys : Json → List String
  | .object members => members.map Prod.fst
  | _ => []

/-- The member of a JSON object under a key. -/
def Json.member? (j : Json) (key : String) : Option Json :=
  match j with
  | .object members => members.lookup key
  | _ => none

/-- The text of a value that is one. -/
def Value.text? : Value → Option String
  | .text s => some s
  | _ => none

/-- The JSON value that a value of a script is written as, if it is one that records hold. -/
def Value.json? : Value → Option Json
  | .bool b => some (.bool b)
  | .int n => some (.int n)
  | .float x => some (.float x)
  | .text s => some (.text s)
  | .list s => (s.items.mapM text?).map fun texts => .array (texts.map .text)
  | _ => none

theorem Value.mapM_text? (texts : List String) :
    (texts.map Value.text).mapM text? = some texts := by
  induction texts with
  | nil => rfl
  | cons first rest ih => rw [List.map_cons, List.mapM_cons, ih]; rfl

namespace Element

theorem keys_record (e : Element) : (Record.element e).json.keys = e.record.map Prod.fst := by
  rw [Record.json, Json.keys, List.map_map]
  rfl

theorem member_record (e : Element) (field : String) :
    (Record.element e).json.member? field = (e.get? field).map Datum.json := by
  rw [← lookup_record]
  exact Entries.lookup_map Datum.json e.record field

end Element

/-- What is read of a datum is the value that is written as its JSON value. -/
theorem Datum.exists_value (datum : Datum) (limits : Limits) (meter : Meter) :
    ∃ v, (datum.value.outcome limits meter).1 = .ok v ∧ v.json? = some datum.json := by
  cases datum with
  | number _ | flag _ | text _ | shape _ => exact ⟨_, rfl, rfl⟩
  | pad name => cases name <;> exact ⟨_, rfl, rfl⟩
  | layers names =>
    refine ⟨_, rfl, ?_⟩
    rw [Value.json?, Sequence.ofItems, Value.mapM_text?]
    rfl

/-! ## Writing -/

/-- Why a value cannot stand in an attribute of a sort: it is of another type, or it is a number
that is not finite, or it is a text that is no shape. -/
inductive Datum.Sort.Rejects (field : String) : Datum.Sort → Value → Refusal → Prop where
  | notNumber {v : Value} (h : v.number? = none) :
    Rejects field .number v (.expects field .number v.type)
  | notFinite {v : Value} {x : Float} (h : v.number? = some x) (hx : x.isFinite = false) :
    Rejects field .number v (.notFinite field)
  | notBool {v : Value} (h : ∀ b, v ≠ .bool b) : Rejects field .flag v (.expects field .bool v.type)
  | notText {v : Value} (h : ∀ s, v ≠ .text s) : Rejects field .text v (.expects field .text v.type)
  | notPadName {v : Value} (hn : ∀ n, v ≠ .int n) (hs : ∀ s, v ≠ .text s) :
    Rejects field .pad v (.expects field .padName v.type)
  | shapeNotText {v : Value} (h : ∀ s, v ≠ .text s) :
    Rejects field .shape v (.expects field .text v.type)
  | unknownShape {s : String} (h : ∀ shape : PadShape, s ≠ shape.tag) :
    Rejects field .shape (.text s) (.unknownShape s)
  | notSequence {v : Value} (h : v.sequence? = none) :
    Rejects field .layers v (.expects field .layers v.type)
  | layerNotText {v item : Value} {s : Sequence Value} {front : List String} {rest : List Value}
    (hs : v.sequence? = some s) (hitems : s.items = front.map .text ++ item :: rest)
    (h : ∀ layer, item ≠ .text layer) : Rejects field .layers v (.expects field .text item.type)

section

variable {v : Value} {field : String} {why : Refusal}

theorem Value.asText_eq_error_iff :
    v.asText field = .error why ↔ (∀ s, v ≠ .text s) ∧ why = .expects field .text v.type := by
  cases v <;> simp [asText, @eq_comm _ why]

theorem Value.asPadName_eq_error_iff :
    v.asPadName field = .error why ↔
      (∀ n, v ≠ .int n) ∧ (∀ s, v ≠ .text s) ∧ why = .expects field .padName v.type := by
  cases v <;> simp [asPadName, @eq_comm _ why]

theorem Value.asBool_eq_error_iff :
    v.asBool field = .error why ↔ (∀ b, v ≠ .bool b) ∧ why = .expects field .bool v.type := by
  cases v <;> simp [asBool, @eq_comm _ why]

theorem Value.asNumber_eq_error_iff :
    v.asNumber field = .error why ↔
      v.number? = none ∧ why = .expects field .number v.type ∨
        ∃ x, v.number? = some x ∧ x.isFinite = false ∧ why = .notFinite field := by
  unfold asNumber
  cases v.number? with
  | none => simp [@eq_comm _ why]
  | some x => cases hx : x.isFinite <;> simp [hx, @eq_comm _ why]

theorem PadShape.ofTag?_eq_none_iff {tag : String} :
    ofTag? tag = none ↔ ∀ shape : PadShape, tag ≠ shape.tag := by
  unfold ofTag?
  constructor
  · intro h shape heq
    subst heq
    cases shape <;> cases h
  · intro h
    have hrect : ¬ (tag == "rect") = true := fun heq => h .rect (beq_iff_eq.1 heq)
    have hcircle : ¬ (tag == "circle") = true := fun heq => h .circle (beq_iff_eq.1 heq)
    rw [if_neg hrect, if_neg hcircle]

theorem Value.asShape_eq_error_iff :
    v.asShape field = .error why ↔
      (∀ s, v ≠ .text s) ∧ why = .expects field .text v.type ∨
        ∃ s, v = .text s ∧ (∀ shape : PadShape, s ≠ shape.tag) ∧ why = .unknownShape s := by
  by_cases htext : ∃ s, v = .text s
  · obtain ⟨s, rfl⟩ := htext
    have htag : (Value.text s).asText field = .ok s := rfl
    rw [asShape, htag]
    change (pure s >>= _) = _ ↔ _
    rw [pure_bind]
    cases hof : PadShape.ofTag? s with
    | none =>
      change Except.error _ = .error why ↔ _
      simp [PadShape.ofTag?_eq_none_iff.1 hof, @eq_comm _ why]
    | some shape =>
      change Except.ok _ = .error why ↔ _
      simp [← PadShape.tag_of_ofTag? hof]
  · have hnot : ∀ s, v ≠ .text s := fun s heq => htext ⟨s, heq⟩
    have hfirst : v.asText field = .error (.expects field .text v.type) :=
      asText_eq_error_iff.2 ⟨hnot, rfl⟩
    rw [asShape, hfirst]
    change Except.error _ = .error why ↔ _
    simp [hnot, @eq_comm _ why]

/-- Items that are not all texts are refused for the first one that is none. -/
theorem Value.mapM_asText_eq_error_iff {items : List Value} :
    (items.mapM fun item => item.asText field) = .error why ↔
      ∃ (front : List String) (item : Value) (rest : List Value),
        items = front.map .text ++ item :: rest ∧ (∀ layer, item ≠ .text layer) ∧
          why = .expects field .text item.type := by
  induction items with
  | nil =>
    constructor
    · intro h
      cases h
    · rintro ⟨_ | _, _, _, h, -⟩ <;> cases h
  | cons first rest ih =>
    rw [List.mapM_cons]
    by_cases htext : ∃ s, first = .text s
    · obtain ⟨s, rfl⟩ := htext
      have hrest : ((Value.text s).asText field >>= fun found =>
          (rest.mapM fun item => item.asText field) >>= fun more => pure (found :: more)) =
            .error why ↔ (rest.mapM fun item => item.asText field) = .error why := by
        change ((rest.mapM fun item => item.asText field) >>= fun more => pure (s :: more)) = _ ↔ _
        cases rest.mapM fun item => item.asText field <;> constructor <;> intro h <;> cases h <;>
          rfl
      rw [hrest, ih]
      constructor
      · rintro ⟨front, item, after, rfl, hitem, hwhy⟩
        exact ⟨s :: front, item, after, rfl, hitem, hwhy⟩
      · rintro ⟨_ | ⟨layer, front⟩, item, after, heq, hitem, hwhy⟩
        · exact absurd (List.cons.inj heq).1.symm (hitem s)
        · exact ⟨front, item, after, (List.cons.inj heq).2, hitem, hwhy⟩
    · have hnot : ∀ s, first ≠ .text s := fun s heq => htext ⟨s, heq⟩
      have hfirst : first.asText field = .error (.expects field .text first.type) :=
        asText_eq_error_iff.2 ⟨hnot, rfl⟩
      rw [hfirst]
      constructor
      · intro h
        cases h
        exact ⟨[], first, rest, rfl, hnot, rfl⟩
      · rintro ⟨_ | ⟨layer, front⟩, item, after, heq, hitem, rfl⟩
        · cases heq
          rfl
        · exact absurd (List.cons.inj heq).1 (hnot layer)

/-- Layers are the texts of a sequence. -/
theorem Value.asLayers_eq_error_iff :
    v.asLayers field = .error why ↔
      (v.sequence? = none ∧ why = .expects field .layers v.type) ∨
        ∃ (s : Sequence Value) (front : List String) (item : Value) (rest : List Value),
          v.sequence? = some s ∧ s.items = front.map .text ++ item :: rest ∧
            (∀ layer, item ≠ .text layer) ∧ why = .expects field .text item.type := by
  rw [asLayers]
  cases hs : v.sequence? with
  | none => simp [@eq_comm _ why]
  | some s =>
    dsimp only
    rw [mapM_asText_eq_error_iff]
    constructor
    · rintro ⟨front, item, rest, hitems, hitem, hwhy⟩
      exact .inr ⟨s, front, item, rest, rfl, hitems, hitem, hwhy⟩
    · rintro (⟨hnone, -⟩ | ⟨t, front, item, rest, hsome, hitems, hitem, hwhy⟩)
      · cases hnone
      · cases hsome
        exact ⟨front, item, rest, hitems, hitem, hwhy⟩

/-- A value is refused by an attribute just when it cannot stand there. -/
theorem Value.asDatum_eq_error_iff {sort : Datum.Sort} :
    v.asDatum sort field = .error why ↔ sort.Rejects field v why := by
  have hmap {α β : Type} {step : Except Refusal α} {change : α → β} :
      change <$> step = .error why ↔ step = .error why := by
    cases step <;> constructor <;> intro h <;> cases h <;> rfl
  cases sort with
  | number =>
    rw [asDatum, hmap, asNumber_eq_error_iff]
    constructor
    · rintro (⟨h, rfl⟩ | ⟨x, h, hx, rfl⟩)
      · exact .notNumber h
      · exact .notFinite h hx
    · intro h
      cases h with
      | notNumber h => exact .inl ⟨h, rfl⟩
      | notFinite h hx => exact .inr ⟨_, h, hx, rfl⟩
  | flag =>
    rw [asDatum, hmap, asBool_eq_error_iff]
    constructor
    · rintro ⟨h, rfl⟩
      exact .notBool h
    · intro h
      cases h with
      | notBool h => exact ⟨h, rfl⟩
  | text =>
    rw [asDatum, hmap, asText_eq_error_iff]
    constructor
    · rintro ⟨h, rfl⟩
      exact .notText h
    · intro h
      cases h with
      | notText h => exact ⟨h, rfl⟩
  | pad =>
    rw [asDatum, hmap, asPadName_eq_error_iff]
    constructor
    · rintro ⟨hn, hs, rfl⟩
      exact .notPadName hn hs
    · intro h
      cases h with
      | notPadName hn hs => exact ⟨hn, hs, rfl⟩
  | shape =>
    rw [asDatum, hmap, asShape_eq_error_iff]
    constructor
    · rintro (⟨h, rfl⟩ | ⟨s, rfl, h, rfl⟩)
      · exact .shapeNotText h
      · exact .unknownShape h
    · intro h
      cases h with
      | shapeNotText h => exact .inl ⟨h, rfl⟩
      | unknownShape h => exact .inr ⟨_, rfl, h, rfl⟩
  | layers =>
    rw [asDatum, hmap, asLayers_eq_error_iff]
    constructor
    · rintro (⟨h, rfl⟩ | ⟨s, front, item, rest, hs, hitems, hitem, rfl⟩)
      · exact .notSequence h
      · exact .layerNotText hs hitems hitem
    · intro h
      cases h with
      | notSequence h => exact .inl ⟨h, rfl⟩
      | layerNotText hs hitems hitem => exact .inr ⟨_, _, _, _, hs, hitems, hitem, rfl⟩

end

/-- What is read of a sort is a datum of this sort. -/
theorem Value.sort_of_asDatum {v : Value} {sort : Datum.Sort} {field : String} {datum : Datum}
    (h : v.asDatum sort field = .ok datum) : datum.sort = sort := by
  cases sort <;> obtain ⟨_, -, rfl⟩ := exists_of_map_ok h <;> rfl

namespace Element

variable {e written : Element} {field : String} {v : Value} {held datum : Datum}

/-- Every attribute but the tag takes any datum of the sort that it holds. -/
theorem exists_put (hheld : e.get? field = some held) (ht : field ≠ "t")
    (hsort : datum.sort = held.sort) : ∃ written, e.put? field datum = some written := by
  unfold get? at hheld
  rw [if_neg ht] at hheld
  cases e with
  | rect r =>
    simp only [Rect.get?] at hheld
    split at hheld <;> cases hheld <;> cases datum <;> cases hsort <;> exact ⟨_, rfl⟩
  | line l =>
    simp only [Line.get?] at hheld
    split at hheld <;> cases hheld <;> cases datum <;> cases hsort <;> exact ⟨_, rfl⟩
  | caption c =>
    simp only [Caption.get?] at hheld
    split at hheld <;> cases hheld <;> cases datum <;> cases hsort <;> exact ⟨_, rfl⟩
  | smd s =>
    simp only [Smd.get?] at hheld
    split at hheld <;> cases hheld <;> cases datum <;> cases hsort <;> exact ⟨_, rfl⟩
  | drilled p =>
    simp only [Drilled.get?] at hheld
    split at hheld <;> cases hheld <;> cases datum <;> cases hsort <;> exact ⟨_, rfl⟩
  | model m =>
    simp only [Model.get?] at hheld
    split at hheld <;> cases hheld
    cases datum <;> cases hsort
    exact ⟨_, rfl⟩

/-- A write reads the value as what the attribute holds, and puts it there. -/
theorem write_eq (hheld : e.get? field = some held) (ht : field ≠ "t") :
    e.write field v = v.asDatum held.sort field >>= fun datum =>
      match e.put? field datum with
      | some written => .ok written
      | none => .error (.noField e.tag field) := by
  unfold write
  rw [if_neg ht]
  dsimp only
  rw [hheld]
  rfl

theorem write_eq_ok_iff :
    e.write field v = .ok written ↔ field ≠ "t" ∧ ∃ held datum, e.get? field = some held ∧
      v.asDatum held.sort field = .ok datum ∧ e.put? field datum = some written := by
  constructor
  · intro h
    obtain ⟨held, hheld⟩ := (wrote h).held
    have ht : field ≠ "t" := by
      rintro rfl
      cases h
    rw [write_eq hheld ht] at h
    obtain ⟨datum, hdatum, hput⟩ := exists_of_bind_ok h
    refine ⟨ht, held, datum, hheld, hdatum, ?_⟩
    split at hput <;> cases hput
    assumption
  · rintro ⟨ht, held, datum, hheld, hdatum, hput⟩
    rw [write_eq hheld ht, hdatum]
    change (match e.put? field datum with
      | some written => .ok written
      | none => .error (.noField e.tag field) : Except Refusal Element) = _
    rw [hput]

/-- A write to an attribute is refused just for what cannot stand there. -/
theorem write_eq_error_iff (hheld : e.get? field = some held) (ht : field ≠ "t") {why : Refusal} :
    e.write field v = .error why ↔ held.sort.Rejects field v why := by
  rw [write_eq hheld ht, ← Value.asDatum_eq_error_iff]
  cases hdatum : v.asDatum held.sort field with
  | error refusal => constructor <;> intro h <;> cases h <;> rfl
  | ok datum =>
    obtain ⟨written, hput⟩ := exists_put hheld ht (Value.sort_of_asDatum hdatum)
    change (match e.put? field datum with
      | some written => .ok written
      | none => .error (.noField e.tag field) : Except Refusal Element) = _ ↔ _
    rw [hput]
    exact ⟨fun h => (by cases h), fun h => (by cases h)⟩

theorem readField_eq_ok_iff {limits : Limits} {meter : Meter} :
    (∃ v, (((Value.element e).readField field).outcome limits meter).1 = .ok v) ↔
      ∃ datum, e.get? field = some datum := by
  rw [Value.readField]
  cases e.get? field with
  | none => exact ⟨fun ⟨_, h⟩ => (by cases h), fun ⟨_, h⟩ => (by cases h)⟩
  | some datum =>
    obtain ⟨v, hv, -⟩ := datum.exists_value limits meter
    exact ⟨fun _ => ⟨datum, rfl⟩, fun _ => ⟨v, hv⟩⟩

/-- Reading and writing attributes agrees with records. The attributes that can be read are the
members of the record, the tag included, and what is read is what is written there. A write that
succeeds is one to a member other than the tag; it changes no other member, no key and no tag, and
leaves the value in the record: a number as a float, layers as a list, and a hole unplated. A write
to such a member is refused only for a value of another type, a number that is not finite or an
unknown shape. -/
theorem attributes_agree (e : Element) :
    let record := (Record.element e).json
    (record.keys.Nodup ∧ record.member? "t" = some (.text e.tag)) ∧
    (∀ field limits meter,
      ((∃ v, (((Value.element e).readField field).outcome limits meter).1 = .ok v) ↔
        field ∈ record.keys) ∧
      ∀ v, (((Value.element e).readField field).outcome limits meter).1 = .ok v →
        ∃ member, record.member? field = some member ∧ v.json? = some member) ∧
    (∀ field v written, e.write field v = .ok written →
      (field ∈ record.keys ∧ field ≠ "t") ∧ written.tag = e.tag ∧
      (Record.element written).json.keys = record.keys ∧
      (∀ other, other ≠ field →
        (Record.element written).json.member? other = record.member? other) ∧
      ∃ member, (Record.element written).json.member? field = some member ∧
        ∀ stamp, (e.coerced field v stamp).json? = some member) ∧
    ∀ field ∈ record.keys, field ≠ "t" → ∃ held, (field, held) ∈ e.record ∧
      ∀ v why, e.write field v = .error why ↔ held.sort.Rejects field v why := by
  intro record
  have hkeys : record.keys = e.record.map Prod.fst := keys_record e
  refine ⟨⟨hkeys ▸ e.record_nodup, rfl⟩, fun field limits meter => ⟨?_, fun v hv => ?_⟩,
    fun field v written h => ?_, fun field hfield ht => ?_⟩
  · rw [hkeys, mem_names_iff]
    exact readField_eq_ok_iff
  · obtain ⟨datum, hdatum⟩ := readField_eq_ok_iff.1 ⟨v, hv⟩
    obtain ⟨found, hfound, hjson⟩ := datum.exists_value limits meter
    rw [Value.readField, hdatum] at hv
    obtain rfl := Except.ok.inj (hv.symm.trans hfound)
    exact ⟨datum.json, by rw [member_record, hdatum, Option.map_some], hjson⟩
  · obtain ⟨ht, held, -, hheld, -, -⟩ := write_eq_ok_iff.1 h
    have hwrote := wrote h
    obtain ⟨stored, hstored, hreads⟩ := hwrote.reads
    refine ⟨⟨hkeys ▸ mem_names_iff.2 ⟨held, hheld⟩, ht⟩, hwrote.tag, ?_, fun other hne => ?_,
      stored.json, by rw [member_record, hstored, Option.map_some], fun stamp => ?_⟩
    · rw [hkeys, keys_record, record_names, record_names, hwrote.tag]
    · rw [member_record, member_record, hwrote.others other hne]
    · let meter : Meter := { Meter.zero with nextStamp := stamp }
      obtain ⟨found, hfound, hjson⟩ := stored.exists_value .standard meter
      rwa [Except.ok.inj (hfound.symm.trans (hreads .standard meter))] at hjson
  · rw [hkeys] at hfield
    obtain ⟨held, hheld⟩ := mem_names_iff.1 hfield
    rw [← lookup_record] at hheld
    refine ⟨held, (Entries.lookup_eq_some_iff e.record_nodup).1 hheld, fun v why => ?_⟩
    exact write_eq_error_iff (lookup_record e field ▸ hheld) ht

/-- A hole that is told to be plated stays unplated, its layers are a list also when they are
written as a tuple, and its tag is no member that can be written. -/
theorem attributes_agree_hole :
    let hole : Element := .drilled (Drilled.new .hole (.number 1) 2.0 1.0)
    let layers : Value := .tuple (Sequence.ofItems [.text "F.Cu"] 0)
    (∃ written, hole.write "plated" (.bool true) = .ok written ∧
      (Record.element written).json.member? "plated" = some (.bool false)) ∧
    (∃ written, hole.write "layers" layers = .ok written ∧
      (Record.element written).json.member? "layers" = some (.array [.text "F.Cu"]) ∧
      (Record.element written).json.member? "drill" =
        (Record.element hole).json.member? "drill") ∧
    hole.write "drill" (.text "wide") = .error (.expects "drill" .number "str") ∧
    ¬ ∃ written, hole.write "t" (.text "Pad") = .ok written := by
  intro hole layers
  obtain ⟨-, -, hwrite, hrefuse⟩ := attributes_agree hole
  refine ⟨⟨_, rfl, ?_⟩, ⟨_, rfl, ?_, ?_⟩, ?_, fun ⟨written, h⟩ => ?_⟩
  · obtain ⟨-, -, -, -, member, hmember, hstored⟩ := hwrite "plated" (.bool true) _ rfl
    rw [hmember, ← hstored 0]
    rfl
  · obtain ⟨-, -, -, -, member, hmember, hstored⟩ := hwrite "layers" layers _ rfl
    rw [hmember, ← hstored 0]
    rfl
  · exact (hwrite "layers" layers _ rfl).2.2.2.1 "drill" (by decide)
  · obtain ⟨held, hheld, hiff⟩ := hrefuse "drill" (by decide) (by decide)
    have hdatum : some held = some (.number 1.0) :=
      ((Entries.lookup_eq_some_iff hole.record_nodup).2 hheld).symm
    cases hdatum
    exact (hiff _ _).2 (.notNumber rfl)
  · exact (hwrite "t" (.text "Pad") written h).1.2 rfl

end Element

end LandPattern
