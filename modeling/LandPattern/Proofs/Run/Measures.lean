import LandPattern.Proofs.Run.Budget
import LandPattern.Proofs.Run.Elements
import LandPattern.Proofs.Values.Rows

/-!
# Measures in the output

Numbers come into elements from values that are asked to be finite, from what new elements start
with, and from the places in rows. Only the places in a row that is too high are not finite, and
they stand nowhere but in the vertical place of its pads.
-/

namespace LandPattern

open Binding (Reads reads_bind reads_pure reads_required reads_optional run_reads)

/-- Whether a datum, if it is a number, is a finite one. -/
def Datum.isFinite : Datum → Bool
  | .number x => x.isFinite
  | _ => true

namespace Element

/-! ## Replaced attributes -/

/-- The datum that stands under a name, in place of what stood there. -/
def replaced (field : String) (datum : Datum) (entry : String × Datum) : String × Datum :=
  if entry.1 = field then (field, datum) else entry

/-- What is put into an attribute stands in place of what stood there, and nothing else changes. A
hole that accepts a plating stays as it is. -/
theorem attributes_put {e written : Element} {field : String} {datum : Datum}
    (h : e.put? field datum = some written) :
    written = e ∨ written.attributes = e.attributes.map (replaced field datum) := by
  cases e with
  | rect r =>
    obtain ⟨new, hnew, rfl⟩ := Option.map_eq_some_iff.1 h
    simp only [Rect.put?] at hnew
    split at hnew <;> cases hnew <;> exact .inr rfl
  | line l =>
    obtain ⟨new, hnew, rfl⟩ := Option.map_eq_some_iff.1 h
    simp only [Line.put?] at hnew
    split at hnew <;> cases hnew <;> exact .inr rfl
  | caption c =>
    obtain ⟨new, hnew, rfl⟩ := Option.map_eq_some_iff.1 h
    simp only [Caption.put?] at hnew
    split at hnew <;> cases hnew <;> exact .inr rfl
  | smd s =>
    obtain ⟨new, hnew, rfl⟩ := Option.map_eq_some_iff.1 h
    simp only [Smd.put?] at hnew
    split at hnew <;> cases hnew <;> exact .inr rfl
  | drilled p =>
    obtain ⟨bore, name, x, y, d, drill, layers⟩ := p
    obtain ⟨new, hnew, rfl⟩ := Option.map_eq_some_iff.1 h
    simp only [Drilled.put?] at hnew
    split at hnew <;> cases hnew <;> first | exact .inr rfl | skip
    -- What is left is the plating, which a hole accepts and does not take.
    cases bore with
    | pad _ => exact .inr rfl
    | hole => exact .inl rfl
  | model m =>
    obtain ⟨new, hnew, rfl⟩ := Option.map_eq_some_iff.1 h
    simp only [Model.put?] at hnew
    split at hnew <;> cases hnew
    exact .inr rfl

/-- No attribute makes a pad of what is none, or the other way round. -/
theorem isPad_put {e written : Element} {field : String} {datum : Datum}
    (h : e.put? field datum = some written) : written.isPad = e.isPad := by
  cases e <;> obtain ⟨new, -, rfl⟩ := Option.map_eq_some_iff.1 h <;> rfl

/-! ## Measured elements -/

variable {limits : Limits} {e : Element}

/-- Numbers are finite, but for the vertical places of pads in rows that are too high. -/
def Measured (limits : Limits) (e : Element) : Prop :=
  ∀ field x, (field, Datum.number x) ∈ e.attributes →
    x.isFinite = true ∨ field = "y" ∧ e.isPad = true ∧ Layout.Overlong limits.collection x

theorem Measured.put {written : Element} {field : String} {datum : Datum} (he : e.Measured limits)
    (h : e.put? field datum = some written)
    (hd : ∀ x, datum = .number x →
      x.isFinite = true ∨ field = "y" ∧ e.isPad = true ∧ Layout.Overlong limits.collection x) :
    written.Measured limits := by
  intro other x hx
  rw [isPad_put h]
  rcases attributes_put h with rfl | hattributes
  · exact he other x hx
  · rw [hattributes] at hx
    obtain ⟨entry, hentry, heq⟩ := List.mem_map.1 hx
    unfold replaced at heq
    split at heq
    · cases heq
      exact hd x rfl
    · subst heq
      exact he other x hentry

theorem Measured.write {written : Element} {field : String} {v : Value} (he : e.Measured limits)
    (h : e.write field v = .ok written) : written.Measured limits := by
  obtain ⟨sort, datum, hdatum, hput⟩ := exists_of_write_ok h
  refine he.put hput fun x hx => .inl ?_
  subst hx
  cases sort with
  | number =>
    obtain ⟨number, hnumber, heq⟩ := exists_of_map_ok hdatum
    cases heq
    exact Value.finite_of_asNumber hnumber
  | _ =>
    obtain ⟨_, -, heq⟩ := exists_of_map_ok hdatum
    cases heq

/-- To place a pad is to replace its name, its x and its y. -/
theorem Measured.place {label : PadName} {x y : Float} (he : e.Measured limits)
    (hx : x.isFinite = true)
    (hy : y.isFinite = true ∨ e.isPad = true ∧ Layout.Overlong limits.collection y) :
    (e.place label x y).Measured limits := by
  have hmoved : ∀ {named shifted placed : Element}, e.put? "name" (.pad label) = some named →
      named.put? "x" (.number x) = some shifted → shifted.put? "y" (.number y) = some placed →
      placed.Measured limits := by
    intro named shifted placed hname hshift hplace
    have hfirst : named.Measured limits := he.put hname fun z heq => by cases heq
    have hsecond : shifted.Measured limits :=
      hfirst.put hshift fun z heq => by cases heq; exact .inl hx
    refine hsecond.put hplace fun z heq => ?_
    cases heq
    rw [isPad_put hshift, isPad_put hname]
    exact hy.imp_right fun hrow => ⟨rfl, hrow⟩
  cases e with
  | smd s => exact hmoved rfl rfl rfl
  | drilled p => exact hmoved rfl rfl rfl
  | _ => exact he

theorem Measured.copy {pad : Element} (he : e.Measured limits)
    (h : Layout.Copies limits.collection e pad) : pad.Measured limits := by
  obtain ⟨label, x, y, rfl, hx, hy⟩ := h
  exact he.place hx hy

theorem Measured.round (he : e.Measured limits) : e.round.Measured limits := by
  cases e with
  | smd s =>
    refine he.put (show (Element.smd s).put? "shape" (.shape .circle) = some _ from rfl) ?_
    intro z heq
    cases heq
  | _ => exact he

/-! ## New elements -/

theorem measured_of_finite (h : ∀ entry ∈ e.attributes, entry.2.isFinite = true) :
    e.Measured limits :=
  fun field x hx => .inl (h (field, .number x) hx)

theorem measured_rect {dx dy : Float} (kind : RectKind) (hdx : dx.isFinite = true)
    (hdy : dy.isFinite = true) : (rect (Rect.new kind ⟨dx, dy⟩)).Measured limits := by
  have hw : kind.strokeWidth.isFinite = true := by cases kind <;> decide +kernel
  refine measured_of_finite ?_
  simp [attributes, Rect.new, Datum.isFinite, Number.finite_zero.1, hdx, hdy, hw]

theorem measured_line {p q : Point} (hp : p.x.isFinite = true ∧ p.y.isFinite = true)
    (hq : q.x.isFinite = true ∧ q.y.isFinite = true) : (line (Line.new p q)).Measured limits := by
  have hw : (0.12 : Float).isFinite = true := by decide +kernel
  refine measured_of_finite ?_
  simp [attributes, Line.new, Datum.isFinite, hp, hq, hw]

theorem measured_caption (kind : CaptionKind) (txt : String) :
    (caption (Caption.new kind txt)).Measured limits := by
  have hdy : (1 : Float).isFinite = true := by decide +kernel
  have hw : (0.15 : Float).isFinite = true := by decide +kernel
  refine measured_of_finite ?_
  simp [attributes, Caption.new, Datum.isFinite, Number.finite_zero.1, hdy, hw]

theorem measured_smd {name : PadName} {dx dy x y : Float} (hdx : dx.isFinite = true)
    (hdy : dy.isFinite = true) (hx : x.isFinite = true) (hy : y.isFinite = true) :
    (smd { Smd.new name ⟨dx, dy⟩ with x := x, y := y }).Measured limits := by
  refine measured_of_finite ?_
  simp [attributes, Smd.new, Datum.isFinite, hx, hy, hdx, hdy]

theorem measured_drilled {d drill : Float} (bore : Bore) (name : PadName) (hd : d.isFinite = true)
    (hdrill : drill.isFinite = true) :
    (drilled (Drilled.new bore name d drill)).Measured limits := by
  refine measured_of_finite ?_
  simp [attributes, Drilled.new, Datum.isFinite, Number.finite_zero.1, hd, hdrill]

theorem measured_model (filename : String) : (model ⟨filename⟩).Measured limits := by
  refine measured_of_finite ?_
  simp [attributes, Datum.isFinite]

end Element

/-! ## Makers -/

namespace Builtin

open Element (Measured)

variable {limits : Limits} {args : Arguments} {e : Element}

theorem reads_finite_pair {good : Value → Prop} (param : String) :
    Reads good (Binding.required param Value.asPair) fun p =>
      p.1.isFinite = true ∧ p.2.isFinite = true :=
  reads_required fun _ _ _ hp => Value.finite_of_asPair hp

/-- Attributes that are written by keyword keep all numbers finite. -/
theorem reads_measured {good : Value → Prop} (h : e.Measured limits) :
    Reads good (writeLeftover e) (Measured limits) :=
  reads_written h fun hdone _ hwritten => hdone.write hwritten

theorem measured_makeRect {kind : RectKind} (he : makeRect kind args = .ok e) :
    e.Measured limits := by
  refine run_reads (?_ : Reads (fun _ => True) _ _) args.all_true he
  exact reads_bind (reads_finite _) fun dx hdx => reads_bind (reads_finite _) fun dy hdy =>
    reads_measured (Element.measured_rect kind hdx hdy)

theorem measured_makeLine (he : makeLine args = .ok e) : e.Measured limits := by
  refine run_reads (?_ : Reads (fun _ => True) _ _) args.all_true he
  exact reads_bind (reads_finite_pair _) fun p hp => reads_bind (reads_finite_pair _) fun q hq =>
    reads_measured (Element.measured_line hp hq)

theorem measured_makeCaption {kind : CaptionKind} (he : makeCaption kind args = .ok e) :
    e.Measured limits := by
  refine run_reads (?_ : Reads (fun _ => True) _ _) args.all_true he
  have hnew : ∀ txt, Reads (fun _ => True) (writeLeftover (.caption (Caption.new kind txt)))
      (Measured limits) := fun txt => reads_measured (Element.measured_caption kind txt)
  cases kind with
  | reference =>
    exact reads_bind reads_any_optional fun found _ =>
      reads_bind (reads_pure trivial) fun txt (_ : True) => hnew txt
  | text => exact reads_bind reads_any fun txt _ => hnew txt
  | name => exact reads_bind reads_any fun txt _ => hnew txt

theorem measured_makeSmd (he : makeSmd args = .ok e) : e.Measured limits := by
  refine run_reads (?_ : Reads (fun _ => True) _ _) args.all_true he
  refine reads_bind reads_any fun name _ => reads_bind (reads_finite_pair _) fun size hsize => ?_
  have hpos : Reads (fun _ => True) (Binding.optional "pos" Value.asPair) fun found =>
      ∀ p, found = some p → p.1.isFinite = true ∧ p.2.isFinite = true :=
    reads_optional fun _ _ _ hp => Value.finite_of_asPair hp
  refine reads_bind hpos fun found hfound => ?_
  cases found with
  | none =>
    exact reads_measured
      (Element.measured_smd hsize.1 hsize.2 Number.finite_zero.1 Number.finite_zero.1)
  | some p =>
    obtain ⟨hx, hy⟩ := hfound p rfl
    exact reads_measured (Element.measured_smd hsize.1 hsize.2 hx hy)

theorem measured_makeDrilled {bore : Bore} (he : makeDrilled bore args = .ok e) :
    e.Measured limits := by
  refine run_reads (?_ : Reads (fun _ => True) _ _) args.all_true he
  exact reads_bind reads_any fun name _ => reads_bind (reads_finite _) fun d hd =>
    reads_bind (reads_finite _) fun drill hdrill =>
      reads_measured (Element.measured_drilled bore name hd hdrill)

theorem measured_makeModel (he : makeModel args = .ok e) : e.Measured limits := by
  refine run_reads (?_ : Reads (fun _ => True) _ _) args.all_true he
  exact reads_bind reads_any fun filename _ => reads_pure (Element.measured_model filename)

end Builtin

theorem Method.measured_placed {limits : Limits} {e copy : Element} {args : Arguments}
    (he : e.Measured limits) (hc : Method.placed e args = .ok copy) : copy.Measured limits := by
  refine run_reads (?_ : Reads (fun _ => True) _ _) args.all_true hc
  exact reads_bind Builtin.reads_any fun label _ => reads_bind (Builtin.reads_finite _) fun x hx =>
    reads_bind (Builtin.reads_finite _) fun y hy => reads_pure (he.place hx (.inl hy))

/-! ## The output -/

/-- However elements come about, their numbers are measured. -/
theorem Element.lasting_measured (limits : Limits) : Element.Lasting limits (Measured limits) where
  rect h := Builtin.measured_makeRect h
  line h := Builtin.measured_makeLine h
  caption h := Builtin.measured_makeCaption h
  smd h := Builtin.measured_makeSmd h
  drilled h := Builtin.measured_makeDrilled h
  model h := Builtin.measured_makeModel h
  single ht hy hc h := fun pad hpad => ht.copy (Layout.copies_single hy hc h pad hpad)
  dual ht hx hy hc h := fun pad hpad => ht.copy (Layout.copies_dual hx hy hc h pad hpad)
  write he h := he.write h
  placed he h := Method.measured_placed he h
  round he := he.round

/-- The elements of a run are measured. -/
theorem Script.Program.run_measured {program : Script.Program} {limits : Limits}
    {elements : List Element} (h : (program.run limits).1 = .ok elements) :
    ∀ e ∈ elements, e.Measured limits := by
  intro e he
  have hlasting := Value.lasting_elementwise (Element.lasting_measured limits) program.functions
  obtain ⟨v, hv, helements⟩ :=
    program.run_elements hlasting (fun text _ => Value.elementwise_text text) h
  exact hv e (Value.inside_of_elements helements he)

namespace Footprint

/-- Whatever a script does, every number in every element of its footprint is finite, but for the
vertical places of pads in rows that are too high: the pitch of such a row is finite, and it has no
more pads than a list may have items, but its height is not finite. -/
theorem evaluate_measured {limits : Limits} {name text : String} {elements : List Element}
    (h : (evaluate limits name text).result = .ok elements) :
    ∀ e ∈ elements, ∀ field x, (field, Datum.number x) ∈ e.attributes →
      x.isFinite = true ∨
        field = "y" ∧ e.isPad = true ∧ Layout.Overlong limits.collection x := by
  have hsize : ¬ limits.sourceBytes < text.utf8ByteSize := fun hover => by
    rw [evaluate, if_pos hover] at h
    cases h
  rw [evaluate_of_not_oversized limits name text hsize] at h
  unfold ofText at h
  cases hprogram : Script.Program.ofText limits.depths text with
  | error problems =>
    rw [hprogram] at h
    cases h
  | ok program =>
    rw [hprogram] at h
    cases hrun : (program.run limits).1 with
    | error fault =>
      simp only [hrun] at h
      cases h
    | ok found =>
      simp only [hrun] at h
      cases h
      exact program.run_measured hrun

/-- A row of four pads whose height is more than the largest double. -/
def tallRow : String := "fn footprint() \x7b return single(Smd(1, (1, 1)), 1e308, 4); \x7d"

/-- Whether the elements of a footprint have a number that is not finite. -/
def someInfinite (result : Except Fault (List Element)) : Bool :=
  match result with
  | .ok elements => elements.any fun e => e.attributes.any fun entry => !entry.2.isFinite
  | .error _ => false

theorem exists_of_someInfinite {result : Except Fault (List Element)}
    (h : someInfinite result = true) :
    ∃ elements, result = .ok elements ∧
      ∃ e ∈ elements, ∃ field x, (field, Datum.number x) ∈ e.attributes ∧ x.isFinite = false := by
  cases result with
  | error fault => cases h
  | ok elements =>
    obtain ⟨e, he, hentries⟩ := List.any_eq_true.1 h
    obtain ⟨⟨field, datum⟩, hentry, hinfinite⟩ := List.any_eq_true.1 hentries
    cases datum with
    | number x =>
      refine ⟨elements, rfl, e, he, field, x, hentry, ?_⟩
      simpa [Datum.isFinite] using hinfinite
    | _ => cases hinfinite

/-- The row is made, and a number in it is not finite. -/
theorem tallRow_infinite :
    ∃ elements, (evaluate .standard inlineName tallRow).result = .ok elements ∧
      ∃ e ∈ elements, ∃ field x, (field, Datum.number x) ∈ e.attributes ∧ x.isFinite = false := by
  apply exists_of_someInfinite
  unfold evaluate ofText Script.Program.run Evaluation.runProgram Evaluation.collect
  simp only [Value.elements_eq]
  decide +kernel

/-- What is not finite there is the vertical place of a pad in a row that is too high. -/
theorem evaluate_measured_tallRow :
    ∃ elements, (evaluate .standard inlineName tallRow).result = .ok elements ∧
      ∃ e ∈ elements, ∃ y, ("y", Datum.number y) ∈ e.attributes ∧ e.isPad = true ∧
        Layout.Overlong Limits.standard.collection y := by
  obtain ⟨elements, hresult, e, he, field, x, hentry, hinfinite⟩ := tallRow_infinite
  rcases evaluate_measured hresult e he field x hentry with hfinite | ⟨rfl, hpad, hrow⟩
  · rw [hinfinite] at hfinite
    cases hfinite
  · exact ⟨elements, hresult, e, he, x, hentry, hpad, hrow⟩

/-- Not every number in every footprint is finite. -/
theorem not_all_finite :
    ¬ ∀ (limits : Limits) (name text : String) (elements : List Element),
      (evaluate limits name text).result = .ok elements →
      ∀ e ∈ elements, ∀ field x, (field, Datum.number x) ∈ e.attributes → x.isFinite = true := by
  intro h
  obtain ⟨elements, hresult, e, he, field, x, hentry, hinfinite⟩ := tallRow_infinite
  have hfinite := h _ _ _ elements hresult e he field x hentry
  rw [hinfinite] at hfinite
  cases hfinite

end Footprint

end LandPattern
