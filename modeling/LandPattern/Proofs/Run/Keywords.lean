import LandPattern.Builtin.Call
import LandPattern.Proofs.Run.Taking
import LandPattern.Proofs.Values.Assignments

/-!
# Keyword arguments as assignments

A maker takes the parameters that a new element cannot do without, and writes what is left of its
arguments to the attributes of these names. What it takes does not depend on the other arguments,
and the writes are to different attributes, so that a keyword argument can as well be left out and
be assigned to the element that is made without it.
-/

namespace LandPattern

/-! ## Making elements -/

namespace Builtin

open Binding (Takes takes_bind takes_pure takes_required takes_optional)

variable {start : Binding Element} {taken params : List String} {callee : String}
  {args called : Arguments} {fields : Scope} {last : Element}

/-- What is left is written to the attributes of the same names. -/
theorem writeLeftover_apply (e : Element) (bound : Bound) :
    writeLeftover e bound = (e.writeAll bound.values).map (·, bound) := by
  have hall (entries : List (String × Value)) (e : Element) :
      (entries.foldlM (fun e entry => liftM (e.write entry.1 entry.2)) e : Binding Element) bound =
        (e.writeAll entries).map (·, bound) := by
    induction entries generalizing e with
    | nil => rfl
    | cons entry rest ih =>
      obtain ⟨field, v⟩ := entry
      rw [List.foldlM_cons, Element.writeAll_cons]
      change ((liftM (e.write field v) : Binding Element) bound >>= fun found =>
        (rest.foldlM (fun e entry => liftM (e.write entry.1 entry.2)) found.1 : Binding Element)
          found.2) = _
      rw [Binding.lift_apply]
      cases e.write field v with
      | error why => rfl
      | ok written => exact ih written
  exact hall bound.values e

/-- An element is made from what is taken, and the other arguments are written to it. -/
theorem run_eq_ok_iff (hs : Takes start taken) :
    Binding.run (start >>= writeLeftover) args callee params = .ok last ↔ args.Fits params ∧
      ∃ e, start (args.bound callee params) =
          .ok (e, (args.bound callee params).without taken) ∧
        e.writeAll ((args.bound callee params).without taken).values = .ok last := by
  have hself := hs (args.bound callee params) (args.bound callee params) rfl fun _ _ => rfl
  change (args.bind callee params >>= fun bound =>
    (start bound >>= fun found => writeLeftover found.1 found.2) >>= fun found => .ok found.1) =
      _ ↔ _
  constructor
  · intro h
    obtain ⟨bound, hbound, hmake⟩ := exists_of_bind_ok h
    obtain ⟨hfits, rfl⟩ := Arguments.bind_eq_ok_iff.1 hbound
    obtain ⟨⟨made, rest⟩, hmade, hlast⟩ := exists_of_bind_ok hmake
    obtain ⟨⟨e, left⟩, hstart, hwrite⟩ := exists_of_bind_ok hmade
    rw [hstart] at hself
    obtain rfl := (Prod.mk.inj (Except.ok.inj hself)).2
    rw [writeLeftover_apply] at hwrite
    obtain ⟨found, hfound, hpair⟩ := exists_of_map_ok hwrite
    cases hpair
    cases hlast
    exact ⟨hfits, e, hstart, hfound⟩
  · rintro ⟨hfits, e, hstart, hwrite⟩
    rw [Arguments.bind_eq_ok_iff.2 ⟨hfits, rfl⟩]
    change ((start (args.bound callee params) >>= fun found => writeLeftover found.1 found.2) >>=
      fun found => .ok found.1) = _
    rw [hstart]
    change (writeLeftover e ((args.bound callee params).without taken) >>=
      fun found => .ok found.1) = _
    rw [writeLeftover_apply, hwrite]
    rfl

/-- A keyword argument that is not taken can as well be written to the element that is made without
it. -/
theorem run_extends_iff (hs : Takes start taken) (hp : params.Nodup)
    (h : called.Extends args fields)
    (hfree : ∀ name ∈ fields.names,
      name ∈ params ∧ name ∉ params.take args.positional.length ∧ name ∉ taken) :
    Binding.run (start >>= writeLeftover) called callee params = .ok last ↔
      ∃ e, Binding.run (start >>= writeLeftover) args callee params = .ok e ∧
        e.writeAll fields = .ok last := by
  have hfits : called.Fits params ↔ args.Fits params :=
    h.fits_iff fun name hname => ⟨(hfree name hname).1, (hfree name hname).2.1⟩
  have hperm : ((called.bound callee params).without taken).values.Perm
      (((args.bound callee params).without taken).values ++ fields) :=
    h.without_perm fun name hname => (hfree name hname).2.2
  have hlookups (hcalled : called.Fits params) : ∀ name ∈ taken,
      (called.bound callee params).values.lookup name =
        (args.bound callee params).values.lookup name := fun name hname =>
    h.lookup_bound hp hcalled fun hmem => (hfree name hmem).2.2 hname
  have hdistinct (hcalled : called.Fits params) :
      (Scope.names ((called.bound callee params).without taken).values).Nodup :=
    Bound.nodup_without (hcalled.nodup hp) taken
  simp only [run_eq_ok_iff hs]
  constructor
  · rintro ⟨hcalled, e, hstart, hwrite⟩
    have hrest := Element.writeAll_perm hperm (hdistinct hcalled) hwrite
    rw [Element.writeAll_append] at hrest
    obtain ⟨made, hmade, hlast⟩ := exists_of_bind_ok hrest
    have hsame := fun name hname => (hlookups hcalled name hname).symm
    exact ⟨made, ⟨hfits.1 hcalled, e, hs.congr (by rfl) hsame hstart, hmade⟩, hlast⟩
  · rintro ⟨made, ⟨hargs, e, hstart, hmade⟩, hlast⟩
    have hcalled := hfits.2 hargs
    refine ⟨hcalled, e, hs.congr (by rfl) (hlookups hcalled) hstart, ?_⟩
    have hnodup := (hperm.map Prod.fst).nodup_iff.1 (hdistinct hcalled)
    refine Element.writeAll_perm hperm.symm hnodup ?_
    rw [Element.writeAll_append, hmade]
    exact hlast

/-! ## The makers -/

/-- How an element is made from arguments. -/
structure Maker where
  /-- The parameters beside so many positional arguments. -/
  params : Nat → List String
  /-- The parameters that must have values. -/
  required : List String
  make : Arguments → Except Refusal Element

/-- The makers of elements that have attributes to assign. -/
def maker? : Builtin → Option Maker
  | .rect kind => some ⟨fun _ => rectParams, ["dx", "dy"], makeRect kind⟩
  | .line => some ⟨fun _ => lineParams, ["p1", "p2"], makeLine⟩
  | .caption .reference => some ⟨fun _ => captionParams, [], makeCaption .reference⟩
  | .caption kind => some ⟨fun _ => captionParams, ["txt"], makeCaption kind⟩
  | .smd => some ⟨smdParams, ["name", "size"], makeSmd⟩
  | .pad => some ⟨fun _ => drilledParams (.pad true), ["name", "d", "drill"],
      makeDrilled (.pad true)⟩
  | .hole => some ⟨fun _ => drilledParams .hole, ["name", "d", "drill"], makeDrilled .hole⟩
  | _ => none

/-- The optional parameters of a maker, beside so many positional arguments, that are attributes of
what it makes. -/
def Maker.optionalFields (maker : Maker) (tag : String) (positional : Nat) : List String :=
  ((maker.params positional).drop positional).filter fun name =>
    name ∉ maker.required ∧ name ∈ (Element.layout tag).map Prod.fst

/-- A maker takes some parameters, no optional one among them that is an attribute, and writes the
other arguments to what it makes. -/
structure Maker.Starts (maker : Maker) (tag : String) (positional : Nat) (start : Binding Element)
    (taken : List String) : Prop where
  takes : Takes start taken
  reserved : ∀ name ∈ taken,
    name ∈ maker.required ∨ name ∉ (Element.layout tag).map Prod.fst
  distinct : (maker.params positional).Nodup
  makes : ∀ args : Arguments, args.positional.length = positional → ∀ e, maker.make args = .ok e ↔
    Binding.run (start >>= writeLeftover) args tag (maker.params positional) = .ok e

/-- What a rectangle starts as. -/
def startRect (kind : RectKind) : Binding Element := do
  let dx ← Binding.required "dx" Value.asNumber
  let dy ← Binding.required "dy" Value.asNumber
  return .rect (Rect.new kind ⟨dx, dy⟩)

/-- What a line starts as. -/
def startLine : Binding Element := do
  let (x1, y1) ← Binding.required "p1" Value.asPair
  let (x2, y2) ← Binding.required "p2" Value.asPair
  return .line (Line.new ⟨x1, y1⟩ ⟨x2, y2⟩)

/-- What a caption starts as that cannot do without a text. -/
def startCaption (kind : CaptionKind) : Binding Element := do
  let txt ← Binding.required "txt" Value.asText
  return .caption (Caption.new kind txt)

/-- What a reference starts as. -/
def startReference : Binding Element := do
  let txt ← Binding.optional "txt" Value.asText
  return .caption (Caption.new .reference (txt.getD referencePlaceholder))

/-- A surface pad at a position, if there is one. -/
def placed (pad : Smd) : Option (Float × Float) → Smd
  | some (x, y) => { pad with x := x, y := y }
  | none => pad

/-- What a surface pad starts as. -/
def startSmd : Binding Element := do
  let name ← Binding.required "name" Value.asPadName
  let (dx, dy) ← Binding.required "size" Value.asPair
  let pos ← Binding.optional "pos" Value.asPair
  return .smd (placed (Smd.new name ⟨dx, dy⟩) pos)

/-- What a drilled pad or hole starts as. -/
def startDrilled (bore : Bore) : Binding Element := do
  let name ← Binding.required "name" Value.asPadName
  let d ← Binding.required "d" Value.asNumber
  let drill ← Binding.required "drill" Value.asNumber
  return .drilled (Drilled.new bore name d drill)

theorem makeRect_eq (kind : RectKind) (args : Arguments) : makeRect kind args =
    Binding.run (startRect kind >>= writeLeftover) args kind.tag rectParams := by
  simp only [makeRect, startRect, bind_assoc, pure_bind]

theorem makeLine_eq (args : Arguments) : makeLine args =
    Binding.run (startLine >>= writeLeftover) args "Line" lineParams := by
  simp only [makeLine, startLine, bind_assoc, pure_bind]

theorem makeCaption_eq {kind : CaptionKind} (h : kind ≠ .reference) (args : Arguments) :
    makeCaption kind args =
      Binding.run (startCaption kind >>= writeLeftover) args kind.tag captionParams := by
  cases kind with
  | text | name => simp only [makeCaption, startCaption, bind_assoc, pure_bind]
  | reference => exact absurd rfl h

theorem makeReference_eq (args : Arguments) : makeCaption .reference args =
    Binding.run (startReference >>= writeLeftover) args "Reference" captionParams := by
  simp only [makeCaption, startReference, bind_assoc, pure_bind, CaptionKind.tag]

theorem makeSmd_eq (args : Arguments) : makeSmd args =
    Binding.run (startSmd >>= writeLeftover) args "Smd" (smdParams args.positional.length) := by
  simp only [makeSmd, startSmd, bind_assoc, pure_bind]
  have hlast (name : PadName) (size : Float × Float) (pos : Option (Float × Float)) :
      (match pos with
        | some (x, y) => writeLeftover (.smd { Smd.new name ⟨size.1, size.2⟩ with x := x, y := y })
        | none => writeLeftover (.smd (Smd.new name ⟨size.1, size.2⟩))) =
        writeLeftover (.smd (placed (Smd.new name ⟨size.1, size.2⟩) pos)) := by
    cases pos <;> rfl
  exact congrArg (Binding.run · args "Smd" _) <| bind_congr fun name => bind_congr fun size =>
    bind_congr fun pos => hlast name size pos

theorem makeDrilled_eq (bore : Bore) (args : Arguments) : makeDrilled bore args =
    Binding.run (startDrilled bore >>= writeLeftover) args bore.tag (drilledParams bore) := by
  simp only [makeDrilled, startDrilled, bind_assoc, pure_bind]

/-- A reference that no text was given for. -/
def untitled : Element := .caption (Caption.new .reference referencePlaceholder)

theorem write_untitled (v : Value) : untitled.write "txt" v =
    (v.asText "txt").map fun txt => .caption (Caption.new .reference txt) := by
  have hheld : untitled.get? "txt" = some (.text referencePlaceholder) := rfl
  rw [Element.write_eq hheld (by decide)]
  change (Datum.text <$> v.asText "txt" >>= _) = _
  cases v.asText "txt" <;> rfl

/-- The text of a reference is taken, and written to what is made without it. -/
theorem startReference_eq_ok_iff {bound : Bound} {e : Element} :
    startReference bound = .ok (e, bound.without ["txt"]) ↔
      match bound.values.lookup "txt" with
      | none => e = untitled
      | some v => untitled.write "txt" v = .ok e := by
  have hstart : startReference bound = Binding.optional "txt" Value.asText bound >>= fun found =>
      .ok (.caption (Caption.new .reference (found.1.getD referencePlaceholder)), found.2) := rfl
  rw [hstart, Binding.optional_apply, Bound.take_snd]
  cases bound.values.lookup "txt" with
  | none =>
    refine ⟨fun h => ?_, fun h => ?_⟩
    · cases h
      rfl
    · rw [h]
      rfl
  | some v =>
    dsimp only
    rw [write_untitled]
    cases v.asText "txt" with
    | error why => exact ⟨fun h => (by cases h), fun h => (by cases h)⟩
    | ok txt =>
      refine ⟨fun h => ?_, fun h => ?_⟩ <;> cases h <;> rfl

/-- A reference with a text is one that is made without it and to which it is written. -/
theorem run_startReference_iff {e : Element} :
    Binding.run (startReference >>= writeLeftover) args callee captionParams = .ok e ↔
      Binding.run (pure untitled >>= writeLeftover) args callee captionParams = .ok e := by
  have htakes : Takes startReference ["txt"] :=
    takes_bind (takes_optional _ _) fun _ => takes_pure _
  rw [run_eq_ok_iff htakes, run_eq_ok_iff (takes_pure _)]
  refine and_congr_right fun hfits => ?_
  have hnodup : (Scope.names (args.bound callee captionParams).values).Nodup :=
    hfits.nodup (by decide)
  generalize args.bound callee captionParams = bound at hnodup
  have hplain : (∃ made, (pure untitled : Binding Element) bound = .ok (made, bound.without []) ∧
      made.writeAll (bound.without []).values = .ok e) ↔ untitled.writeAll bound.values = .ok e := by
    rw [Bound.without_nil]
    exact ⟨fun ⟨_, hmade, hwrite⟩ => (by cases hmade; exact hwrite), fun h => ⟨untitled, rfl, h⟩⟩
  rw [hplain]
  simp only [startReference_eq_ok_iff]
  cases hlookup : bound.values.lookup "txt" with
  | none => simp only [Bound.without_of_lookup hlookup, exists_eq_left]
  | some v =>
    have hperm := Bound.perm_without hnodup hlookup
    rw [← Element.writeAll_cons_eq_ok_iff]
    exact ⟨Element.writeAll_perm hperm.symm ((hperm.map Prod.fst).nodup_iff.1 hnodup),
      Element.writeAll_perm hperm hnodup⟩

/-! ## Every maker -/

theorem rect_starts (kind : RectKind) (positional : Nat) :
    Maker.Starts ⟨fun _ => rectParams, ["dx", "dy"], makeRect kind⟩ kind.tag positional
      (startRect kind) ["dx", "dy"] where
  takes := takes_bind (takes_required _ _) fun _ => takes_bind (takes_required _ _) fun _ =>
    takes_pure _
  reserved _ h := .inl h
  distinct := (by decide : rectParams.Nodup)
  makes args _ _ := by
    dsimp only
    rw [makeRect_eq]

theorem line_starts (positional : Nat) :
    Maker.Starts ⟨fun _ => lineParams, ["p1", "p2"], makeLine⟩ "Line" positional startLine
      ["p1", "p2"] where
  takes := takes_bind (takes_required _ _) fun _ => takes_bind (takes_required _ _) fun _ =>
    takes_pure _
  reserved _ h := .inl h
  distinct := (by decide : lineParams.Nodup)
  makes args _ _ := by
    dsimp only
    rw [makeLine_eq]

theorem caption_starts {kind : CaptionKind} (h : kind ≠ .reference) (positional : Nat) :
    Maker.Starts ⟨fun _ => captionParams, ["txt"], makeCaption kind⟩ kind.tag positional
      (startCaption kind) ["txt"] where
  takes := takes_bind (takes_required _ _) fun _ => takes_pure _
  reserved _ h := .inl h
  distinct := (by decide : captionParams.Nodup)
  makes args _ _ := by
    dsimp only
    rw [makeCaption_eq h]

/-- A reference takes nothing: its text is an attribute like any other. -/
theorem reference_starts (positional : Nat) :
    Maker.Starts ⟨fun _ => captionParams, [], makeCaption .reference⟩ "Reference" positional
      (pure untitled) [] where
  takes := takes_pure _
  reserved _ h := .inl h
  distinct := (by decide : captionParams.Nodup)
  makes args _ _ := by
    dsimp only
    rw [makeReference_eq, run_startReference_iff]

theorem smd_starts (positional : Nat) :
    Maker.Starts ⟨smdParams, ["name", "size"], makeSmd⟩ "Smd" positional startSmd
      ["name", "size", "pos"] where
  takes := takes_bind (takes_required _ _) fun _ => takes_bind (takes_required _ _) fun _ =>
    takes_bind (takes_optional _ _) fun _ => takes_pure _
  reserved := by decide
  distinct := by
    change (smdParams positional).Nodup
    unfold smdParams
    split <;> decide
  makes args hargs _ := by
    dsimp only
    rw [makeSmd_eq, hargs]

theorem drilled_starts (bore : Bore) (positional : Nat) :
    Maker.Starts ⟨fun _ => drilledParams bore, ["name", "d", "drill"], makeDrilled bore⟩ bore.tag
      positional (startDrilled bore) ["name", "d", "drill"] where
  takes := takes_bind (takes_required _ _) fun _ => takes_bind (takes_required _ _) fun _ =>
    takes_bind (takes_required _ _) fun _ => takes_pure _
  reserved _ h := .inl h
  distinct := by
    have hpad : (drilledParams (.pad true)).Nodup := by decide
    have hhole : (drilledParams .hole).Nodup := by decide
    cases bore with
    | pad _ => exact hpad
    | hole => exact hhole
  makes args _ _ := by
    dsimp only
    rw [makeDrilled_eq]

theorem exists_starts {word : Builtin} {maker : Maker} (hm : word.maker? = some maker)
    (positional : Nat) : ∃ start taken, maker.Starts word.name positional start taken := by
  cases word with
  | rect kind =>
    cases hm
    exact ⟨_, _, rect_starts kind positional⟩
  | line =>
    cases hm
    exact ⟨_, _, line_starts positional⟩
  | caption kind =>
    cases kind with
    | text | name =>
      cases hm
      exact ⟨_, _, caption_starts (by decide) positional⟩
    | reference =>
      cases hm
      exact ⟨_, _, reference_starts positional⟩
  | smd =>
    cases hm
    exact ⟨_, _, smd_starts positional⟩
  | pad | hole =>
    cases hm
    exact ⟨_, _, drilled_starts _ positional⟩
  | model | dual | single | range | len | abs | min | max | str | int | float => cases hm

section

variable {word : Builtin} {maker : Maker} {limits : Limits} {meter : Meter}

theorem call_eq (hm : word.maker? = some maker) (args : Arguments) :
    word.call args = Act.ofExcept (Value.element <$> maker.make args) := by
  cases word with
  | caption kind => cases kind <;> cases hm <;> rfl
  | rect _ | line | smd | pad | hole => cases hm; rfl
  | model | dual | single | range | len | abs | min | max | str | int | float => cases hm

/-- A call of a maker gives the element that is made. -/
theorem call_eq_ok_iff (hm : word.maker? = some maker) {v : Value} :
    ((word.call args).outcome limits meter).1 = .ok v ↔
      ∃ e, v = .element e ∧ maker.make args = .ok e := by
  rw [call_eq hm]
  cases maker.make args with
  | error why => exact ⟨fun h => (by cases h), fun ⟨_, _, h⟩ => (by cases h)⟩
  | ok e =>
    constructor
    · intro h
      cases h
      exact ⟨e, rfl, rfl⟩
    · rintro ⟨_, rfl, h⟩
      cases h
      rfl

/-- A maker makes of further keywords what can be written to the element that it makes without
them. -/
theorem make_extends_iff (hm : word.maker? = some maker) (h : called.Extends args fields)
    (hfields : ∀ name ∈ fields.names,
      name ∈ maker.optionalFields word.name args.positional.length) :
    maker.make called = .ok last ↔
      ∃ e, maker.make args = .ok e ∧ e.writeAll fields = .ok last := by
  obtain ⟨start, taken, hstarts⟩ := exists_starts hm args.positional.length
  have hfree : ∀ name ∈ fields.names, name ∈ maker.params args.positional.length ∧
      name ∉ (maker.params args.positional.length).take args.positional.length ∧
      name ∉ taken := by
    intro name hname
    obtain ⟨hdrop, hkeep⟩ := List.mem_filter.1 (hfields name hname)
    have hoptional := of_decide_eq_true hkeep
    refine ⟨List.mem_of_mem_drop hdrop, fun htake => ?_, fun htaken => ?_⟩
    · exact List.disjoint_take_drop hstarts.distinct le_rfl htake hdrop
    · rcases hstarts.reserved name htaken with hrequired | hforeign
      · exact hoptional.1 hrequired
      · exact hforeign hoptional.2
  rw [hstarts.makes called (congrArg List.length h.positional),
    run_extends_iff hstarts.takes hstarts.distinct h hfree]
  simp only [hstarts.makes args rfl]

/-- A keyword argument of a maker is an assignment. Take any call of a maker, and the same call with
further keywords: optional parameters that are attributes of the element, under names of which none
is given twice, in any order among the other keywords. The longer call succeeds if and only if the
shorter one does and the attributes can then be assigned one after another, in whatever order, and
both give the same element. In particular the order of the keywords does not matter. -/
theorem keywords_assign (hm : word.maker? = some maker) (h : called.Extends args fields)
    (hfields : ∀ name ∈ fields.names,
      name ∈ maker.optionalFields word.name args.positional.length) (limits : Limits)
    (meter : Meter) :
    (∀ (assigned : Scope) (span : Script.Span) (v : Value), assigned.Perm fields →
      (((word.call called).outcome limits meter).1 = .ok v ↔
        ((do (← word.call args).assignAll span assigned).outcome limits meter).1 = .ok v)) ∧
    ∀ other : Arguments, other.positional = called.positional →
      other.keywords.Perm called.keywords → ∀ v : Value,
      (((word.call other).outcome limits meter).1 = .ok v ↔
        ((word.call called).outcome limits meter).1 = .ok v) := by
  constructor
  · intro assigned span v hassigned
    have hdistinct : (fields.map Prod.fst).Nodup := by
      have hall := (h.keywords.map Prod.fst).nodup_iff.1 h.distinct
      rw [List.map_append] at hall
      exact (List.nodup_append.1 hall).2.1
    have hwritten (e last : Element) : e.writeAll assigned = .ok last ↔
        e.writeAll fields = .ok last :=
      ⟨Element.writeAll_perm hassigned ((hassigned.map Prod.fst).nodup_iff.2 hdistinct),
        Element.writeAll_perm hassigned.symm hdistinct⟩
    rw [call_eq_ok_iff hm, call_eq hm args]
    simp only [make_extends_iff hm h hfields]
    cases maker.make args with
    | error why => exact ⟨fun ⟨_, _, _, h, _⟩ => (by cases h), fun h => (by cases h)⟩
    | ok e =>
      have hbegin : (Act.ofExcept (Value.element <$> Except.ok e) : Metered Value).outcome limits
          meter = (.ok (.element e), meter) := rfl
      rw [Act.outcome_bind_ok _ _ hbegin, Value.assignAll_eq_ok_iff]
      simp only [hwritten, Except.ok.injEq, exists_eq_left']
  · intro other hpositional hkeywords v
    have hother : other.Extends called [] :=
      ⟨hpositional, by rwa [List.append_nil], (hkeywords.map Prod.fst).nodup_iff.2 h.distinct⟩
    have hnone : ∀ name ∈ Scope.names [],
        name ∈ maker.optionalFields word.name called.positional.length :=
      fun _ hname => absurd hname List.not_mem_nil
    have hmake (e : Element) : maker.make other = .ok e ↔ maker.make called = .ok e := by
      rw [make_extends_iff hm hother hnone]
      exact ⟨fun ⟨_, hmade, hsame⟩ => (by cases hsame; exact hmade), fun h => ⟨e, h, rfl⟩⟩
    simp only [call_eq_ok_iff hm, hmake]

/-- The text and the layer of a reference may be given by name or assigned to the placeholder. -/
theorem keywords_assign_reference :
    let args : Arguments := .empty
    let txt : String × Value := ("txt", .text "U1")
    let layer : String × Value := ("layer", .text "F.Fab")
    let called : Arguments := ⟨[], [layer, txt]⟩
    let reference : Value :=
      .element (.caption { Caption.new .reference "U1" with layer := "F.Fab" })
    let here : Script.Span := ⟨0, 0⟩
    let result (act : Metered Value) := (act.outcome Limits.standard Meter.zero).1
    result ((Builtin.caption .reference).call called) = .ok reference ∧
      result (do (← (Builtin.caption .reference).call args).assignAll here [layer, txt]) =
        .ok reference ∧
      result ((Builtin.caption .reference).call ⟨[], [txt, layer]⟩) = .ok reference := by
  intro args txt layer called reference here result
  have h : called.Extends args [txt, layer] := ⟨rfl, List.Perm.swap _ _ _, by decide⟩
  have hm : (Builtin.caption .reference).maker? =
      some ⟨fun _ => captionParams, [], makeCaption .reference⟩ := rfl
  have hfields : ∀ name ∈ Scope.names [txt, layer], name ∈ Maker.optionalFields
      ⟨fun _ => captionParams, [], makeCaption .reference⟩ "Reference" args.positional.length := by
    decide
  obtain ⟨hassign, horder⟩ := keywords_assign hm h hfields Limits.standard Meter.zero
  have hcalled : result ((Builtin.caption .reference).call called) = .ok reference := rfl
  exact ⟨hcalled, (hassign _ here _ (List.Perm.swap _ _ _)).1 hcalled,
    (horder ⟨[], [txt, layer]⟩ rfl (List.Perm.swap _ _ _) reference).2 hcalled⟩

end

end Builtin

end LandPattern
