import LandPattern.Element.Record
import LandPattern.Proofs.Json.Layouts
import LandPattern.Proofs.Run.Measures

/-!
# Records are told by their JSON values

The tag of a record says which attributes it has and of which sort each of them is, so that the name
of a pad, which is a number or a text, is the only attribute whose sort has to be told from its
value. The members of a JSON object have no order, and none is needed: no two attributes of an
element share a name.
-/

namespace LandPattern

open Json (Tree)

namespace Element

/-- The names and sorts of the attributes behind a tag; all other tags are those of rectangles. -/
def layout (tag : String) : List (String × Datum.Sort) :=
  match tag with
  | "Line" =>
    [("x1", .number), ("y1", .number), ("x2", .number), ("y2", .number), ("w", .number),
      ("layer", .text)]
  | "Text" | "Name" | "Reference" =>
    [("txt", .text), ("x", .number), ("y", .number), ("dy", .number), ("w", .number),
      ("layer", .text)]
  | "Smd" =>
    [("name", .pad), ("x", .number), ("y", .number), ("dx", .number), ("dy", .number),
      ("shape", .shape), ("layers", .layers)]
  | "Pad" | "Hole" =>
    [("name", .pad), ("x", .number), ("y", .number), ("d", .number), ("drill", .number),
      ("plated", .flag), ("layers", .layers)]
  | "Model" => [("filename", .text)]
  | _ =>
    [("x", .number), ("y", .number), ("dx", .number), ("dy", .number), ("w", .number),
      ("filled", .flag), ("layer", .text), ("corner", .number)]

/-- The tag of an element says which attributes it has. -/
theorem attributes_layout (e : Element) :
    e.attributes.map (fun entry => (entry.1, entry.2.sort)) = layout e.tag := by
  cases e with
  | rect r => obtain ⟨kind, _⟩ := r; cases kind <;> rfl
  | line l => rfl
  | caption c => obtain ⟨kind, _⟩ := c; cases kind <;> rfl
  | smd s => rfl
  | drilled p => obtain ⟨bore, _⟩ := p; cases bore <;> rfl
  | model m => rfl

theorem record_names (e : Element) :
    e.record.map Prod.fst = "t" :: (layout e.tag).map Prod.fst := by
  rw [← attributes_layout, List.map_map]
  rfl

/-- No two entries of a record share a name. -/
theorem record_nodup (e : Element) : (e.record.map Prod.fst).Nodup := by
  have hlayout : ∀ tag, ("t" :: (layout tag).map Prod.fst).Nodup := by
    intro tag
    unfold layout
    split <;> decide
  rw [record_names]
  exact hlayout e.tag

/-- No element has the attribute of a report. -/
theorem message_notMem_record (e : Element) : "message" ∉ e.record.map Prod.fst := by
  have hlayout : ∀ tag, "message" ∉ "t" :: (layout tag).map Prod.fst := by
    intro tag
    unfold layout
    split <;> decide
  rw [record_names]
  exact hlayout e.tag

/-- An element is its tag and its attributes. -/
theorem eq_of_attributes {e other : Element} (ht : e.tag = other.tag)
    (h : e.attributes = other.attributes) : e = other := by
  have hrect : Function.Injective RectKind.tag := by
    intro kind found
    cases kind <;> cases found <;> decide
  have hcaption : Function.Injective CaptionKind.tag := by
    intro kind found
    cases kind <;> cases found <;> decide
  have hbore : ∀ bore found : Bore, bore.tag = found.tag → bore.plated = found.plated →
      bore = found := by
    have hne : "Pad" ≠ "Hole" := by decide
    rintro (plated | _) (other | _) htag hplated
    · exact congrArg Bore.pad hplated
    · exact absurd htag hne
    · exact absurd htag.symm hne
    · rfl
  cases e <;> cases other <;> simp [attributes] at h
  case rect.rect r found =>
    have hkind := hrect ht
    cases r
    cases found
    simp_all
  case line.line l found =>
    cases l
    cases found
    simp_all
  case caption.caption c found =>
    have hkind := hcaption ht
    cases c
    cases found
    simp_all
  case smd.smd s found =>
    cases s
    cases found
    simp_all
  case drilled.drilled p found =>
    have hbores := hbore _ _ ht h.2.2.2.2.2.1
    cases p
    cases found
    simp_all
  case model.model m found =>
    cases m
    cases found
    simp_all

end Element

namespace Datum

/-- What the JSON value of a datum is read as. -/
def tree (datum : Datum) : Tree := datum.json.tree

/-- A datum of a known sort is told by its JSON value, in which only finite numbers differ. -/
theorem eq_of_tree {d other : Datum} (hf : d.isFinite = true) (hs : d.sort = other.sort)
    (h : d.tree = other.tree) : d = other := by
  have htexts : Function.Injective (List.map fun text => Json.tree (.text text)) := by
    refine List.map_injective_iff.2 fun first second heq => ?_
    rw [Json.tree, Json.tree] at heq
    exact Tree.text.inj heq
  cases d with
  | number x =>
    cases other <;> cases hs
    rename_i y
    simp only [tree, json, Json.tree] at h
    rw [Json.ofFloat_inj hf h]
  | flag b =>
    cases other <;> cases hs
    simp only [tree, json, Json.tree, Tree.bool.injEq] at h
    rw [h]
  | text s =>
    cases other <;> cases hs
    simp only [tree, json, Json.tree, Tree.text.injEq] at h
    rw [h]
  | pad label =>
    cases other <;> cases hs
    rename_i found
    cases label with
    | number n =>
      cases found with
      | number m =>
        simp only [tree, json, Json.tree] at h
        rw [Json.ofInt_inj h]
      | text t =>
        simp only [tree, json, Json.tree] at h
        cases h
    | text s =>
      cases found with
      | number m =>
        simp only [tree, json, Json.tree] at h
        cases h
      | text t =>
        simp only [tree, json, Json.tree, Tree.text.injEq] at h
        rw [h]
  | shape s =>
    cases other <;> cases hs
    rename_i found
    have hshape : Function.Injective PadShape.tag := by
      intro first second
      cases first <;> cases second <;> decide
    simp only [tree, json, Json.tree, Tree.text.injEq] at h
    rw [hshape h]
  | layers names =>
    cases other <;> cases hs
    rename_i found
    simp only [tree, json, Json.tree, Tree.array.injEq, Json.treeItems_eq_map, List.map_map] at h
    rw [htexts h]

/-- Entries of known sorts are told by their JSON values. -/
theorem entries_eq_of_tree {entries others : List (String × Datum)}
    (hf : ∀ entry ∈ entries, entry.2.isFinite = true)
    (hs : entries.map (fun entry => (entry.1, entry.2.sort)) =
      others.map fun entry => (entry.1, entry.2.sort))
    (ht : entries.map (fun entry => (entry.1, entry.2.tree)) =
      others.map fun entry => (entry.1, entry.2.tree)) : entries = others := by
  induction entries generalizing others with
  | nil => exact (List.map_eq_nil_iff.1 hs.symm).symm
  | cons entry rest ih =>
    cases others with
    | nil => cases hs
    | cons other more =>
      obtain ⟨hsort, hsorts⟩ := List.cons.inj hs
      obtain ⟨htree, htrees⟩ := List.cons.inj ht
      obtain ⟨hname, hsort⟩ := Prod.mk.inj hsort
      have hdatum := eq_of_tree (hf entry List.mem_cons_self) hsort (Prod.mk.inj htree).2
      have hentry : entry = other := Prod.ext hname hdatum
      rw [hentry, ih (fun found hfound => hf found (List.mem_cons_of_mem _ hfound)) hsorts htrees]

end Datum

/-- Entries that stand under the same names in the same order are the same entries, if they are so in
some order and no two share a name. -/
theorem eq_of_perm_of_names {α : Type} {entries others : List (String × α)}
    (hp : entries.Perm others) (hn : entries.map Prod.fst = others.map Prod.fst)
    (hd : (entries.map Prod.fst).Nodup) : entries = others := by
  induction entries generalizing others with
  | nil => exact hp.nil_eq
  | cons entry rest ih =>
    cases others with
    | nil => cases hn
    | cons other more =>
      obtain ⟨hname, hnames⟩ := List.cons.inj hn
      obtain ⟨hfresh, hrest⟩ := List.nodup_cons.1 hd
      have hentry : entry = other := by
        rcases List.mem_cons.1 (hp.subset List.mem_cons_self) with hfirst | hlater
        · exact hfirst
        · -- another entry of this name would stand among the others
          refine absurd ?_ hfresh
          rw [hnames]
          exact List.mem_map_of_mem hlater
      subst hentry
      rw [ih hp.cons_inv hnames hrest]

namespace Record

/-- The members of the object that a record is. -/
def members : Record → List (String × Tree)
  | .element e => e.record.map fun entry => (entry.1, entry.2.tree)
  | .error message => [("t", .text "Error"), ("message", .text message)]

theorem tree_json (r : Record) : r.json.tree = .object (Json.byKey r.members) := by
  cases r with
  | element e =>
    rw [json, Json.tree, Json.treeMembers_eq_map, List.map_map]
    rfl
  | error message =>
    rw [json, Json.tree, Json.treeMembers_eq_map]
    rfl

theorem members_names (e : Element) :
    (Record.element e).members.map Prod.fst = e.record.map Prod.fst := by
  rw [members, List.map_map]
  rfl

/-- Of the members of an element's record, only the first is called `t`. -/
theorem tag_of_mem {e : Element} {v : Tree} (h : ("t", v) ∈ (Record.element e).members) :
    v = .text e.tag := by
  rcases List.mem_cons.1 h with hfirst | hlater
  · exact (Prod.mk.inj hfirst).2
  · have hnodup := members_names e ▸ e.record_nodup
    exact absurd (List.mem_map_of_mem hlater) (List.nodup_cons.1 hnodup).1

/-- The record of an element with finite measurements is told by its JSON value. -/
theorem eq_of_tree {e : Element} {r : Record}
    (hf : ∀ field x, (field, Datum.number x) ∈ e.attributes → x.isFinite = true)
    (h : (Record.element e).json.tree = r.json.tree) : r = .element e := by
  have hperm : (Record.element e).members.Perm r.members := by
    rw [tree_json, tree_json, Tree.object.injEq] at h
    have hfirst := List.mergeSort_perm (Record.element e).members fun a b => a.1 ≤ b.1
    have hsecond := List.mergeSort_perm r.members fun a b => a.1 ≤ b.1
    exact (hfirst.symm.trans (List.Perm.of_eq h)).trans hsecond
  cases r with
  | error message =>
    have hmessage : ("message", Tree.text message) ∈ (Record.element e).members :=
      hperm.symm.subset (List.mem_cons_of_mem _ List.mem_cons_self)
    have hname := List.mem_map_of_mem (f := Prod.fst) hmessage
    rw [members_names] at hname
    exact absurd hname e.message_notMem_record
  | element other =>
    have htag : e.tag = other.tag := by
      have hmem : ("t", Tree.text e.tag) ∈ (Record.element other).members :=
        hperm.subset List.mem_cons_self
      exact Tree.text.inj (tag_of_mem hmem)
    have hlayout : e.attributes.map (fun entry => (entry.1, entry.2.sort)) =
        other.attributes.map fun entry => (entry.1, entry.2.sort) := by
      rw [e.attributes_layout, other.attributes_layout, htag]
    have hnames : (Record.element e).members.map Prod.fst =
        (Record.element other).members.map Prod.fst := by
      rw [members_names, members_names, e.record_names, other.record_names, htag]
    have hnodup : ((Record.element e).members.map Prod.fst).Nodup := by
      rw [members_names]
      exact e.record_nodup
    have hfinite : ∀ entry ∈ e.attributes, entry.2.isFinite = true := by
      rintro ⟨field, datum⟩ hentry
      cases datum with
      | number x => exact hf field x hentry
      | _ => rfl
    have hmembers := eq_of_perm_of_names hperm hnames hnodup
    have hattributes := Datum.entries_eq_of_tree hfinite hlayout (List.cons.inj hmembers).2
    rw [Element.eq_of_attributes htag hattributes]

end Record

/-- The records of elements with finite measurements are read back from their JSON text. Both layouts
of the text are read as one value, and no other records, in either layout, are read as that value: it
tells the tags, the names that are numbers from those that are texts, the layers and the flags, in
their order. -/
theorem records_read_back {elements : List Element}
    (hf : ∀ e ∈ elements, ∀ field x, (field, Datum.number x) ∈ e.attributes → x.isFinite = true) :
    ∃ value, (∀ pretty, Json.read ((recordArray (records elements)).write pretty) = some value) ∧
      ∀ (others : List Record) (pretty : Bool),
        Json.read ((recordArray others).write pretty) = some value → others = records elements := by
  refine ⟨(recordArray (records elements)).tree, fun pretty => Json.read_write _ pretty, ?_⟩
  intro others pretty hread
  rw [Json.read_write, Option.some.injEq, recordArray, recordArray, Json.tree, Json.tree,
    Tree.array.injEq, Json.treeItems_eq_map, Json.treeItems_eq_map, List.map_map, List.map_map]
    at hread
  induction elements generalizing others with
  | nil => exact List.map_eq_nil_iff.1 hread
  | cons e more ih =>
    cases others with
    | nil => cases hread
    | cons r rest =>
      obtain ⟨hfirst, hrest⟩ := List.cons.inj hread
      have hrecord := Record.eq_of_tree (hf e List.mem_cons_self) hfirst.symm
      have hrecords := ih (fun other hother => hf other (List.mem_cons_of_mem e hother)) rest hrest
      rw [hrecord, hrecords]
      rfl

/-- Two pads that are alike but for their names, of which one is a number and one is its digits. -/
def lookalikes : List Element :=
  [.smd (Smd.new (.number 1) ⟨0.1, -0.0⟩), .smd (Smd.new (.text "1") ⟨0.1, -0.0⟩)]

/-- The order of the two pads is not lost. -/
theorem records_read_back_lookalikes :
    (∀ e ∈ lookalikes, ∀ field x, (field, Datum.number x) ∈ e.attributes → x.isFinite = true) ∧
      ∀ pretty other, Json.read ((recordArray (records lookalikes)).write pretty) ≠
        Json.read ((recordArray (records lookalikes.reverse)).write other) := by
  have hentries : ∀ e ∈ lookalikes, ∀ entry ∈ e.attributes, entry.2.isFinite = true := by
    decide +kernel
  have hf : ∀ e ∈ lookalikes, ∀ field x, (field, Datum.number x) ∈ e.attributes →
      x.isFinite = true := fun e he field x hentry => hentries e he (field, .number x) hentry
  refine ⟨hf, fun pretty other heq => ?_⟩
  obtain ⟨value, hreads, hothers⟩ := records_read_back hf
  have hrecords := hothers _ other (heq.symm.trans (hreads pretty))
  obtain ⟨hfirst, -⟩ := List.cons.inj hrecords
  cases hfirst

end LandPattern
