import LandPattern.Builtin.Elements
import LandPattern.Method
import LandPattern.Proofs.Values.Bindings
import LandPattern.Proofs.Values.Bounds
import LandPattern.Proofs.Values.Copies

/-!
# Bounds of elements

Reading and writing attributes, copying pads and making elements stay within the bounds: what stands
in an attribute is built in or comes from a value that is sound.
-/

namespace LandPattern

variable {b : Bounds}

namespace Bounds

/-- The tags of elements are built in. -/
theorem hasText_tag (b : Bounds) (e : Element) : b.HasText e.tag := by
  have hrect : ∀ kind : RectKind, kind.tag.utf8ByteSize ≤ 11 := fun kind => by cases kind <;> decide
  have hcaption : ∀ kind : CaptionKind, kind.tag.utf8ByteSize ≤ 11 := fun kind => by
    cases kind <;> decide
  have htag : e.tag.utf8ByteSize ≤ 11 := by
    cases e with
    | rect r => exact hrect r.kind
    | line l => exact show "Line".utf8ByteSize ≤ 11 by decide
    | caption c => exact hcaption c.kind
    | smd s => exact show "Smd".utf8ByteSize ≤ 11 by decide
    | drilled p =>
      obtain ⟨bore⟩ := p
      cases bore with
      | pad plated => exact show "Pad".utf8ByteSize ≤ 11 by decide
      | hole => exact show "Hole".utf8ByteSize ≤ 11 by decide
    | model m => exact show "Model".utf8ByteSize ≤ 11 by decide
  exact Nat.le_trans htag b.eleven_le_bytes

theorem hasText_of_le {text : String} (h : text.utf8ByteSize ≤ 11) : b.HasText text :=
  Nat.le_trans h b.eleven_le_bytes

/-- What is read from an attribute keeps to the bounds. -/
theorem HasElement.get? {e : Element} {field : String} {datum : Datum} (h : b.HasElement e)
    (hd : e.get? field = some datum) : b.HasDatum datum := by
  unfold Element.get? at hd
  split at hd
  · cases hd
    exact b.hasText_tag e
  · cases e with
    | rect r =>
      simp only [Rect.get?] at hd
      split at hd <;> cases hd <;> first | exact h | trivial
    | line l =>
      simp only [Line.get?] at hd
      split at hd <;> cases hd <;> first | exact h | trivial
    | caption c =>
      simp only [Caption.get?] at hd
      split at hd <;> cases hd <;> first | trivial | exact h.1 | exact h.2
    | smd s =>
      simp only [Smd.get?] at hd
      split at hd <;> cases hd <;> first | trivial | exact h.1 | exact h.2
    | drilled p =>
      simp only [Drilled.get?] at hd
      split at hd <;> cases hd <;> first | trivial | exact h.1 | exact h.2
    | model m =>
      simp only [Model.get?] at hd
      split at hd <;> cases hd
      exact h

/-- What is put into an attribute is all that changes. -/
theorem HasElement.put? {e written : Element} {field : String} {datum : Datum}
    (h : b.HasElement e) (hd : b.HasDatum datum) (hw : e.put? field datum = some written) :
    b.HasElement written := by
  cases e with
  | rect r =>
    obtain ⟨new, hnew, rfl⟩ := Option.map_eq_some_iff.1 hw
    simp only [Rect.put?] at hnew
    split at hnew <;> cases hnew <;> first | exact h | exact hd
  | line l =>
    obtain ⟨new, hnew, rfl⟩ := Option.map_eq_some_iff.1 hw
    simp only [Line.put?] at hnew
    split at hnew <;> cases hnew <;> first | exact h | exact hd
  | caption c =>
    obtain ⟨new, hnew, rfl⟩ := Option.map_eq_some_iff.1 hw
    simp only [Caption.put?] at hnew
    split at hnew <;> cases hnew <;> first | exact h | exact ⟨hd, h.2⟩ | exact ⟨h.1, hd⟩
  | smd s =>
    obtain ⟨new, hnew, rfl⟩ := Option.map_eq_some_iff.1 hw
    simp only [Smd.put?] at hnew
    split at hnew <;> cases hnew <;> first | exact h | exact ⟨hd, h.2⟩ | exact ⟨h.1, hd⟩
  | drilled p =>
    obtain ⟨new, hnew, rfl⟩ := Option.map_eq_some_iff.1 hw
    simp only [Drilled.put?] at hnew
    split at hnew <;> cases hnew <;> first | exact h | exact ⟨hd, h.2⟩ | exact ⟨h.1, hd⟩
  | model m =>
    obtain ⟨new, hnew, rfl⟩ := Option.map_eq_some_iff.1 hw
    simp only [Model.put?] at hnew
    split at hnew <;> cases hnew
    exact hd

end Bounds

namespace Value.Sound

variable {v : Value} {what : String}

theorem asText {text : String} (h : v.Sound b) (ht : v.asText what = .ok text) :
    b.HasText text := by
  unfold Value.asText at ht
  split at ht
  · cases ht
    exact sound_text.1 h
  · cases ht

theorem asPadName {name : PadName} (h : v.Sound b) (hn : v.asPadName what = .ok name) :
    b.HasName name := by
  unfold Value.asPadName at hn
  split at hn
  · cases hn
    trivial
  · cases hn
    exact sound_text.1 h
  · cases hn

/-- Layers are the items of a list or tuple, so there are as many of them. -/
theorem asLayers {names : List String} (h : v.Sound b) (hn : v.asLayers what = .ok names) :
    b.HasLayers names := by
  have hmap : ∀ (items : List Value) (names : List String), (∀ item ∈ items, item.Sound b) →
      (items.mapM fun item => item.asText what) = .ok names →
      names.length = items.length ∧ ∀ name ∈ names, b.HasText name := by
    intro items
    induction items with
    | nil =>
      intro names _ heq
      cases heq
      exact ⟨rfl, fun _ hnone => absurd hnone List.not_mem_nil⟩
    | cons item rest ih =>
      intro names hitems heq
      rw [List.mapM_cons] at heq
      obtain ⟨text, htext, hmore⟩ := exists_of_bind_ok heq
      obtain ⟨others, hothers, hlast⟩ := exists_of_bind_ok hmore
      cases hlast
      obtain ⟨hlength, hall⟩ := ih others
        (fun other hother => hitems other (List.mem_cons_of_mem _ hother)) hothers
      refine ⟨by rw [List.length_cons, List.length_cons, hlength], fun name hname => ?_⟩
      rcases List.mem_cons.1 hname with rfl | htail
      · exact (hitems item List.mem_cons_self).asText htext
      · exact hall name htail
  unfold Value.asLayers at hn
  split at hn
  · rename_i s hs
    have hsound := (sound_of_sequence? hs).1 h
    obtain ⟨hlength, hall⟩ := hmap s.items names hsound.items hn
    exact ⟨by rw [hlength]; exact hsound.length, hall⟩
  · cases hn

theorem asDatum {sort : Datum.Sort} {datum : Datum} (h : v.Sound b)
    (hd : v.asDatum sort what = .ok datum) : b.HasDatum datum := by
  cases sort with
  | number =>
    obtain ⟨x, -, rfl⟩ := exists_of_map_ok hd
    trivial
  | flag =>
    obtain ⟨x, -, rfl⟩ := exists_of_map_ok hd
    trivial
  | text =>
    obtain ⟨text, htext, rfl⟩ := exists_of_map_ok hd
    exact h.asText htext
  | pad =>
    obtain ⟨name, hname, rfl⟩ := exists_of_map_ok hd
    exact h.asPadName hname
  | shape =>
    obtain ⟨shape, -, rfl⟩ := exists_of_map_ok hd
    trivial
  | layers =>
    obtain ⟨names, hnames, rfl⟩ := exists_of_map_ok hd
    exact h.asLayers hnames

end Value.Sound

/-- What is written to an attribute is a datum of the sort that stands there. -/
theorem Element.exists_of_write_ok {e written : Element} {field : String} {v : Value}
    (h : e.write field v = .ok written) :
    ∃ sort datum, v.asDatum sort field = .ok datum ∧ e.put? field datum = some written := by
  unfold Element.write at h
  split at h
  · cases h
  · dsimp only at h
    split at h
    · cases h
    · obtain ⟨datum, hdatum, hput⟩ := exists_of_bind_ok h
      split at hput
      · rename_i new hnew
        cases hput
        exact ⟨_, datum, hdatum, hnew⟩
      · cases hput

/-- Writing a sound value to an attribute keeps the element within the bounds. -/
theorem Bounds.HasElement.write {e written : Element} {field : String} {v : Value}
    (h : b.HasElement e) (hv : v.Sound b) (hw : e.write field v = .ok written) :
    b.HasElement written := by
  obtain ⟨sort, datum, hdatum, hput⟩ := Element.exists_of_write_ok hw
  exact h.put? (hv.asDatum hdatum) hput

theorem Bounds.HasElement.place {e : Element} {name : PadName} {x y : Float}
    (h : b.HasElement e) (hn : b.HasName name) : b.HasElement (e.place name x y) := by
  cases e with
  | smd s => exact ⟨hn, h.2⟩
  | drilled p => exact ⟨hn, h.2⟩
  | _ => exact h

theorem Bounds.HasElement.round {e : Element} (h : b.HasElement e) : b.HasElement e.round := by
  cases e <;> exact h

/-! ## Making elements -/

namespace Bounds

theorem hasElement_rect (b : Bounds) (kind : RectKind) (size : Size) :
    b.HasElement (.rect (Rect.new kind size)) :=
  hasText_of_le (by cases kind <;> exact of_decide_eq_true rfl)

theorem hasElement_line (b : Bounds) (start stop : Point) :
    b.HasElement (.line (Line.new start stop)) :=
  hasText_of_le (of_decide_eq_true rfl)

theorem hasElement_caption {txt : String} (kind : CaptionKind) (h : b.HasText txt) :
    b.HasElement (.caption (Caption.new kind txt)) :=
  ⟨h, hasText_of_le (by cases kind <;> exact of_decide_eq_true rfl)⟩

theorem hasElement_smd {name : PadName} (size : Size) (h : b.HasName name) :
    b.HasElement (.smd (Smd.new name size)) := by
  refine ⟨h, b.three_le_items, fun layer hlayer => hasText_of_le ?_⟩
  simp only [Smd.new, List.mem_cons, List.not_mem_nil, or_false] at hlayer
  rcases hlayer with rfl | rfl | rfl <;> decide

theorem hasElement_drilled {name : PadName} (bore : Bore) (d drill : Float) (h : b.HasName name) :
    b.HasElement (.drilled (Drilled.new bore name d drill)) := by
  have hroom := b.three_le_items
  refine ⟨h, show 2 ≤ b.items by omega, fun layer hlayer => hasText_of_le ?_⟩
  simp only [Drilled.new, List.mem_cons, List.not_mem_nil, or_false] at hlayer
  rcases hlayer with rfl | rfl <;> decide

end Bounds

namespace Builtin

variable {args : Arguments} {e : Element}

open Binding (Reads reads_bind reads_pure reads_lift reads_required reads_optional reads_leftover
  reads_foldl run_reads)

theorem reads_any {good : Value → Prop} {α : Type} {param : String}
    {read : Value → String → Except Refusal α} :
    Reads good (Binding.required param read) fun _ => True :=
  reads_required fun _ _ _ _ => trivial

theorem reads_any_optional {good : Value → Prop} {α : Type} {param : String}
    {read : Value → String → Except Refusal α} :
    Reads good (Binding.optional param read) fun found => ∀ value, found = some value → True :=
  reads_optional fun _ _ _ _ => trivial

theorem reads_padName (param : String) :
    Reads (Value.Within b) (Binding.required param Value.asPadName) b.HasName :=
  reads_required fun _ _ hv hname => hv.sound.asPadName hname

theorem reads_text (param : String) :
    Reads (Value.Within b) (Binding.required param Value.asText) b.HasText :=
  reads_required fun _ _ hv htext => hv.sound.asText htext

/-- What writes of good values keep, attributes that are written by keyword keep. -/
theorem reads_written {good : Value → Prop} {keeps : Element → Prop} (h : keeps e)
    (hw : ∀ {done written : Element} {field : String} {v : Value}, keeps done → good v →
      done.write field v = .ok written → keeps written) :
    Reads good (writeLeftover e) keeps := by
  refine reads_bind reads_leftover fun entries hentries => ?_
  refine reads_foldl h fun done entry hentry hdone => ?_
  exact reads_lift fun _ hwritten => hw hdone (hentries entry hentry) hwritten

theorem reads_writeLeftover (h : b.HasElement e) :
    Reads (Value.Within b) (writeLeftover e) b.HasElement :=
  reads_written h fun hdone hv hwritten => hdone.write hv.sound hwritten

theorem hasElement_makeRect {kind : RectKind} (ha : args.All (Value.Within b))
    (he : makeRect kind args = .ok e) : b.HasElement e := by
  refine run_reads (?_ : Reads (Value.Within b) _ _) ha he
  exact reads_bind reads_any fun dx _ => reads_bind reads_any fun dy _ =>
    reads_writeLeftover (b.hasElement_rect kind ⟨dx, dy⟩)

theorem hasElement_makeLine (ha : args.All (Value.Within b)) (he : makeLine args = .ok e) :
    b.HasElement e := by
  refine run_reads (?_ : Reads (Value.Within b) _ _) ha he
  exact reads_bind reads_any fun p _ => reads_bind reads_any fun q _ =>
    reads_writeLeftover (b.hasElement_line ⟨p.1, p.2⟩ ⟨q.1, q.2⟩)

theorem hasElement_makeCaption {kind : CaptionKind} (ha : args.All (Value.Within b))
    (he : makeCaption kind args = .ok e) : b.HasElement e := by
  refine run_reads (?_ : Reads (Value.Within b) _ _) ha he
  cases kind with
  | reference =>
    have hplaceholder : b.HasText referencePlaceholder := Bounds.hasText_of_le (by decide)
    refine reads_bind (reads_optional fun _ _ hv htext => hv.sound.asText htext) fun found hfound => ?_
    have htxt : b.HasText (found.getD referencePlaceholder) := by
      cases found with
      | none => exact hplaceholder
      | some txt => exact hfound txt rfl
    exact reads_bind (reads_pure htxt) fun txt htxt =>
      reads_writeLeftover (Bounds.hasElement_caption _ htxt)
  | text => exact reads_bind (reads_text _) fun txt htxt =>
      reads_writeLeftover (Bounds.hasElement_caption _ htxt)
  | name => exact reads_bind (reads_text _) fun txt htxt =>
      reads_writeLeftover (Bounds.hasElement_caption _ htxt)

theorem hasElement_makeSmd (ha : args.All (Value.Within b)) (he : makeSmd args = .ok e) :
    b.HasElement e := by
  refine run_reads (?_ : Reads (Value.Within b) _ _) ha he
  refine reads_bind (reads_padName _) fun name hname => reads_bind reads_any fun size _ => ?_
  have hnew := Bounds.hasElement_smd ⟨size.1, size.2⟩ hname
  refine reads_bind reads_any_optional fun found _ => ?_
  cases found with
  | none => exact reads_writeLeftover hnew
  | some p => exact reads_writeLeftover hnew

theorem hasElement_makeDrilled {bore : Bore} (ha : args.All (Value.Within b))
    (he : makeDrilled bore args = .ok e) : b.HasElement e := by
  refine run_reads (?_ : Reads (Value.Within b) _ _) ha he
  exact reads_bind (reads_padName _) fun name hname => reads_bind reads_any fun d _ =>
    reads_bind reads_any fun drill _ =>
      reads_writeLeftover (Bounds.hasElement_drilled bore d drill hname)

theorem hasElement_makeModel (ha : args.All (Value.Within b)) (he : makeModel args = .ok e) :
    b.HasElement e := by
  refine run_reads (?_ : Reads (Value.Within b) _ _) ha he
  exact reads_bind (reads_text _) fun filename hfilename => reads_pure hfilename

end Builtin

/-- A copy of a pad has the name it is given. -/
theorem Method.hasElement_placed {e copy : Element} {args : Arguments} (h : b.HasElement e)
    (ha : args.All (Value.Within b)) (hc : Method.placed e args = .ok copy) :
    b.HasElement copy := by
  refine Binding.run_reads (?_ : Binding.Reads (Value.Within b) _ _) ha hc
  exact Binding.reads_bind (Builtin.reads_padName _) fun name hname =>
    Binding.reads_bind Builtin.reads_any fun x _ => Binding.reads_bind Builtin.reads_any fun y _ =>
      Binding.reads_pure (h.place hname)

/-! ## Rows of pads -/

namespace Layout

variable {template : Element} {name : Option PadName} {pads : List Element}

theorem hasName_identifier (hn : ∀ shared, name = some shared → b.HasName shared) (index : Nat) :
    b.HasName (identifier name index) := by
  cases name with
  | none => trivial
  | some shared => exact hn shared rfl

/-- Every copy of a row is within the bounds. -/
theorem hasElement_row {count : Nat} {place : Nat → Float × Float} (ht : b.HasElement template)
    (hn : ∀ shared, name = some shared → b.HasName shared) :
    ∀ pad ∈ row template name count place, b.HasElement pad := by
  intro pad hpad
  obtain ⟨index, -, rfl⟩ := exists_of_mem_row hpad
  exact ht.place (hasName_identifier hn index)

/-- There are no more copies in a row than were asked for. -/
theorem hasElement_single {pitchY : Float} {count : Nat} (ht : b.HasElement template)
    (hn : ∀ shared, name = some shared → b.HasName shared)
    (hp : single template pitchY count name = .ok pads) :
    pads.length ≤ count ∧ ∀ pad ∈ pads, b.HasElement pad := by
  obtain ⟨-, rfl⟩ := single_eq_ok_iff.1 hp
  exact ⟨Nat.le_of_eq length_row, hasElement_row ht hn⟩

theorem hasElement_dual {spanX pitchY : Float} {count : Nat} (ht : b.HasElement template)
    (hn : ∀ shared, name = some shared → b.HasName shared)
    (hp : dual template spanX pitchY count name = .ok pads) :
    pads.length ≤ count ∧ ∀ pad ∈ pads, b.HasElement pad := by
  obtain ⟨-, rfl⟩ := dual_eq_ok_iff.1 hp
  exact ⟨length_row ▸ Nat.mul_div_le count 2, hasElement_row ht hn⟩

end Layout

end LandPattern
