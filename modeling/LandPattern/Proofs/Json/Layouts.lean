import LandPattern.Proofs.Json.Pieces

/-!
# Both layouts are read as the same value

A value is written on one line or over several. The two texts differ in the blanks between their
tokens and in nothing else, so that both are read as the value that was written, whatever it is.
-/

namespace LandPattern.Json

/-! ## The value that is read -/

mutual

/-- What the text of a value is read as. -/
def tree (j : Json) : Tree :=
  match j with
  | .bool value => .bool value
  | .int value => ofInt value
  | .float value => ofFloat value
  | .text value => .text value
  | .array items => .array (treeItems items)
  | .object members => .object (byKey (treeMembers members))

/-- What the texts of items are read as. -/
def treeItems (items : List Json) : List Tree :=
  match items with
  | [] => []
  | j :: rest => j.tree :: treeItems rest

/-- What the texts of members are read as. -/
def treeMembers (members : List (String × Json)) : List (String × Tree) :=
  match members with
  | [] => []
  | (key, value) :: rest => (key, value.tree) :: treeMembers rest

end

/-- Values are made of the values in their brackets. -/
theorem induction {P : Json → Prop} (bool : ∀ value, P (.bool value)) (int : ∀ value, P (.int value))
    (float : ∀ value, P (.float value)) (text : ∀ value, P (.text value))
    (array : ∀ items, (∀ j ∈ items, P j) → P (.array items))
    (object : ∀ members, (∀ m ∈ members, P m.2) → P (.object members)) (j : Json) : P j :=
  @Json.rec P (fun items => ∀ j ∈ items, P j) (fun members => ∀ m ∈ members, P m.2)
    (fun m => P m.2) bool int float text array object (fun _ h => absurd h List.not_mem_nil)
    (fun _ _ hj hrest => List.forall_mem_cons.2 ⟨hj, hrest⟩) (fun _ h => absurd h List.not_mem_nil)
    (fun _ _ hm hrest => List.forall_mem_cons.2 ⟨hm, hrest⟩) (fun _ _ h => h) j

theorem treeItems_eq_map (items : List Json) : treeItems items = items.map tree := by
  induction items with
  | nil => rfl
  | cons j rest ih => rw [treeItems, ih, List.map_cons]

theorem treeMembers_eq_map (members : List (String × Json)) :
    treeMembers members = members.map fun m => (m.1, m.2.tree) := by
  induction members with
  | nil => rfl
  | cons m rest ih => rw [treeMembers, ih, List.map_cons]

theorem compactItems_eq_map (items : List Json) : compactItems items = items.map compact := by
  induction items with
  | nil => rfl
  | cons j rest ih => rw [compactItems, ih, List.map_cons]

theorem compactMembers_eq_map (members : List (String × Json)) :
    compactMembers members = members.map fun m => quoted m.1 ++ ":" ++ m.2.compact := by
  induction members with
  | nil => rfl
  | cons m rest ih => rw [compactMembers, ih, List.map_cons]

theorem prettyItems_eq_map (depth : ℕ) (items : List Json) :
    prettyItems depth items = items.map (prettyAt depth) := by
  induction items with
  | nil => rfl
  | cons j rest ih => rw [prettyItems, ih, List.map_cons]

theorem prettyMembers_eq_map (depth : ℕ) (members : List (String × Json)) :
    prettyMembers depth members = members.map fun m => quoted m.1 ++ ": " ++ m.2.prettyAt depth := by
  induction members with
  | nil => rfl
  | cons m rest ih => rw [prettyMembers, ih, List.map_cons]

/-! ## Brackets -/

/-- The text of one value, which is read as the value wherever it stands. -/
def Reads (text : List Char) (v : Tree) : Prop :=
  ∀ frames rest, Stops rest → run ⟨.value, frames⟩ (text ++ rest) = run ⟨.behind v, frames⟩ rest

theorem Bare.value {text : List Char} {v : Tree} (h : Bare text v) : Reads text v :=
  fun _ _ hs => run_bare h hs

theorem reads_quoted (s : String) : Reads (quoted s).toList (.text s) := fun _ _ _ => run_quoted s

/-- Brackets around items of some kind. -/
structure Brackets (α : Type) where
  /-- Before an item, with those that are done, the last first. -/
  before : List α → Reading
  /-- Behind an item. -/
  after : List α → α → Reading
  /-- Behind the closing bracket. -/
  closed : List α → Reading
  /-- The closing bracket. -/
  closing : Token
  comma : ∀ done item, step (after done item) .comma = some (before (item :: done))
  close : ∀ done item, step (after done item) closing = some (closed (item :: done))

/-- The brackets of an array, inside of others. -/
def arrayBrackets (frames : List Frame) : Brackets Tree where
  before done := ⟨.value, .array done :: frames⟩
  after done v := ⟨.behind v, .array done :: frames⟩
  closed done := ⟨.behind (.array done.reverse), frames⟩
  closing := .closeArray
  comma _ _ := rfl
  close _ _ := rfl

/-- The brackets of an object, inside of others. -/
def objectBrackets (frames : List Frame) : Brackets (String × Tree) where
  before done := ⟨.key, .object done :: frames⟩
  after done m := ⟨.behind m.2, .member done m.1 :: frames⟩
  closed done := ⟨.behind (.object (byKey done.reverse)), frames⟩
  closing := .closeObject
  comma _ _ := rfl
  close _ _ := rfl

theorem arrayBrackets_closed (frames : List Frame) (items : List Tree) :
    (arrayBrackets frames).closed items.reverse = ⟨.behind (.array items), frames⟩ := by
  change (⟨.behind (.array items.reverse.reverse), frames⟩ : Reading) = _
  rw [List.reverse_reverse]

theorem objectBrackets_closed (frames : List Frame) (members : List (String × Tree)) :
    (objectBrackets frames).closed members.reverse =
      ⟨.behind (.object (byKey members)), frames⟩ := by
  change (⟨.behind (.object (byKey members.reverse.reverse)), frames⟩ : Reading) = _
  rw [List.reverse_reverse]

/-- No word or number goes on with a sign. -/
theorem isBare_sign {c : Char} {t : Token} (h : stepBetween c = ([t], .between)) :
    isBare c = false := by
  cases hbare : isBare c with
  | false => rfl
  | true =>
    rw [stepBetween_bare hbare] at h
    cases h

theorem stops_blanks {gap rest : List Char} (hgap : ∀ c ∈ gap, isBlank c = true)
    (hs : Stops rest) : Stops (gap ++ rest) := by
  cases gap with
  | nil => exact hs
  | cons c more =>
    refine stops_cons ?_ _
    rw [isBare, hgap c List.mem_cons_self]
    rfl

section

variable {α β : Type} {write : β → String} {value : β → α} {o c : Char}

/-- Items between commas are read one after the other, up to the closing bracket. -/
theorem Brackets.run_row (b : Brackets α) {gap margin : List Char}
    (hgap : ∀ c ∈ gap, isBlank c = true) (hmargin : ∀ c ∈ margin, isBlank c = true)
    (hc : stepBetween c = ([b.closing], .between)) {items : List β} (hne : items ≠ [])
    (h : ∀ item ∈ items, ∀ done rest, Stops rest →
      run (b.before done) ((write item).toList ++ rest) = run (b.after done (value item)) rest)
    (done : List α) (rest : List Char) :
    run (b.before done)
        ((',' :: gap).intercalate ((items.map write).map String.toList) ++ (margin ++ c :: rest)) =
      run (b.closed ((items.map value).reverse ++ done)) rest := by
  induction items generalizing done with
  | nil => exact absurd rfl hne
  | cons item others ih =>
    have hitem := h item List.mem_cons_self done
    cases others with
    | nil =>
      have hstops : Stops (margin ++ c :: rest) :=
        stops_blanks hmargin (stops_cons (isBare_sign hc) rest)
      simp only [List.map_cons, List.map_nil, List.intercalate_singleton]
      rw [hitem _ hstops, run_blanks hmargin, run_sign hc, b.close]
      rfl
    | cons next more =>
      have hcomma : stepBetween ',' = ([.comma], .between) := rfl
      have hothers := ih (List.cons_ne_nil next more)
        (fun item hmem => h item (List.mem_cons_of_mem _ hmem)) (value item :: done)
      have hstops : ∀ rest, Stops (',' :: rest) := stops_cons (isBare_sign hcomma)
      simp only [List.map_cons, List.intercalate_cons_cons, List.append_assoc, List.cons_append,
        List.reverse_cons, List.nil_append] at hothers ⊢
      rw [hitem _ (hstops _), run_sign hcomma, b.comma, Option.bind_some, run_blanks hgap, hothers]

/-- A text of items between brackets, apart by commas, with blanks that begin each line. -/
def Bracketed (opening closing : Char) (items : List String) (text : String) : Prop :=
  text.toList = [opening, closing] ∧ items = [] ∨
    ∃ gap margin : List Char, (∀ c ∈ gap, isBlank c = true) ∧ (∀ c ∈ margin, isBlank c = true) ∧
      text.toList = opening :: (gap ++ ((',' :: gap).intercalate (items.map String.toList) ++
        (margin ++ [closing]))) ∧ items ≠ []

theorem bracketed_compact {opening closing : String} {o c : Char} (ho : opening.toList = [o])
    (hc : closing.toList = [c]) (items : List String) :
    Bracketed o c items (opening ++ ",".intercalate items ++ closing) := by
  rcases List.eq_nil_or_concat items with rfl | ⟨front, last, rfl⟩
  · refine .inl ⟨?_, rfl⟩
    simp [ho, hc]
  · refine .inr ⟨[], [], by simp, by simp, ?_, by simp⟩
    simp [ho, hc]

theorem bracketed_indented {opening closing : String} {o c : Char} (ho : opening.toList = [o])
    (hc : closing.toList = [c]) (depth : ℕ) (items : List String) :
    Bracketed o c items (indented depth opening closing items) := by
  have hmargin : ∀ n, ∀ c ∈ '\n' :: List.replicate n ' ', isBlank c = true := by
    intro n c hmem
    rcases List.mem_cons.1 hmem with rfl | hmem
    · decide
    · rw [(List.mem_replicate.1 hmem).2]
      decide
  unfold indented
  dsimp only
  split
  · rename_i hempty
    refine .inl ⟨?_, List.isEmpty_iff.1 hempty⟩
    simp [ho, hc]
  · rename_i hsome
    refine .inr ⟨_, _, hmargin (2 * (depth + 1)), hmargin (2 * depth), ?_, by simpa using hsome⟩
    simp [ho, hc, String.toList_intercalate]

/-- Items are read in every layout of their texts between brackets. -/
theorem Brackets.run_bracketed (b : Brackets α) {items : List β} {text : String} {outside : Reading}
    {opening : Token} (ho : stepBetween o = ([opening], .between))
    (hc : stepBetween c = ([b.closing], .between))
    (hopen : step outside opening = some (b.before []))
    (hempty : step (b.before []) b.closing = some (b.closed []))
    (h : ∀ item ∈ items, ∀ done rest, Stops rest →
      run (b.before done) ((write item).toList ++ rest) = run (b.after done (value item)) rest)
    (ht : Bracketed o c (items.map write) text) (rest : List Char) :
    run outside (text.toList ++ rest) = run (b.closed (items.map value).reverse) rest := by
  rcases ht with ⟨htext, hnone⟩ | ⟨gap, margin, hgap, hmargin, htext, hsome⟩
  · obtain rfl := List.map_eq_nil_iff.1 hnone
    rw [htext, List.cons_append, List.singleton_append, run_sign ho, hopen, Option.bind_some,
      run_sign hc, hempty]
    rfl
  · have hne : items ≠ [] := fun hnone => hsome (List.map_eq_nil_iff.2 hnone)
    have hrow := b.run_row hgap hmargin hc hne h [] rest
    rw [List.append_nil] at hrow
    rw [htext, List.cons_append, run_sign ho, hopen, Option.bind_some, List.append_assoc,
      run_blanks hgap, List.append_assoc, List.append_assoc, List.singleton_append, hrow]

end

/-- An array is read from the texts of its items. -/
theorem reads_array {items : List Json} {write : Json → String} {text : String}
    (h : ∀ j ∈ items, Reads (write j).toList j.tree)
    (ht : Bracketed '[' ']' (items.map write) text) :
    Reads text.toList (.array (items.map tree)) := by
  intro frames rest _
  have hopen : step ⟨.value, frames⟩ .openArray = some ((arrayBrackets frames).before []) := rfl
  have hitems := (arrayBrackets frames).run_bracketed rfl rfl hopen rfl
    (fun j hj done rest hs => h j hj _ rest hs) ht rest
  rw [hitems, arrayBrackets_closed]

/-- An object is read from the texts of its members. -/
theorem reads_object {members : List (String × Json)} {write : Json → String} {pad : List Char}
    {colon text : String} (h : ∀ m ∈ members, Reads (write m.2).toList m.2.tree)
    (hcolon : colon.toList = ':' :: pad) (hpad : ∀ c ∈ pad, isBlank c = true)
    (ht : Bracketed '\x7b' '\x7d' (members.map fun m => quoted m.1 ++ colon ++ write m.2) text) :
    Reads text.toList (.object (byKey (members.map fun m => (m.1, m.2.tree)))) := by
  intro frames rest _
  have hmember : ∀ m ∈ members, ∀ done rest, Stops rest →
      run ((objectBrackets frames).before done)
          ((quoted m.1 ++ colon ++ write m.2).toList ++ rest) =
        run ((objectBrackets frames).after done (m.1, m.2.tree)) rest := by
    intro m hm done rest hs
    have hkey : ∀ text, step ((objectBrackets frames).before done) (.leaf (.text text)) =
        some ⟨.colon text, .object done :: frames⟩ := fun _ => rfl
    have hsign : stepBetween ':' = ([.colon], .between) := rfl
    rw [String.toList_append, String.toList_append, hcolon, List.append_assoc, List.append_assoc,
      run_quoted, hkey, Option.bind_some, List.cons_append, run_sign hsign]
    change run ⟨.value, .member done m.1 :: frames⟩ (pad ++ _) = _
    rw [run_blanks hpad, h m hm _ rest hs]
    rfl
  have hopen : step ⟨.value, frames⟩ .openObject = some ((objectBrackets frames).before []) := rfl
  have hempty : step ((objectBrackets frames).before []) .closeObject =
      some ((objectBrackets frames).closed []) := by
    have hnone : byKey [] = [] := by simp [byKey]
    have hclosed := objectBrackets_closed frames []
    rw [hnone, List.reverse_nil] at hclosed
    rw [hclosed]
    rfl
  have hmembers := (objectBrackets frames).run_bracketed rfl rfl hopen hempty hmember ht rest
  rw [hmembers, objectBrackets_closed]

/-! ## Both layouts -/

theorem bare_ofBool (value : Bool) : Bare (ofBool value).toList (.bool value) := by
  cases value with
  | true => exact ⟨rfl, List.all_eq_true.1 (by decide)⟩
  | false => exact ⟨rfl, List.all_eq_true.1 (by decide)⟩

theorem reads_compact (j : Json) : Reads j.compact.toList j.tree := by
  induction j using induction with
  | bool value => rw [compact, tree]; exact (bare_ofBool value).value
  | int value => rw [compact, tree]; exact (bare_int value).value
  | float value => rw [compact, tree]; exact (bare_float value).value
  | text value => rw [compact, tree]; exact reads_quoted value
  | array items ih =>
    rw [compact, tree, compactItems_eq_map, treeItems_eq_map]
    exact reads_array ih (bracketed_compact rfl rfl _)
  | object members ih =>
    rw [compact, tree, compactMembers_eq_map, treeMembers_eq_map]
    exact reads_object ih rfl (List.all_eq_true.1 (by decide)) (bracketed_compact rfl rfl _)

theorem reads_prettyAt (j : Json) (depth : ℕ) : Reads (j.prettyAt depth).toList j.tree := by
  induction j using induction generalizing depth with
  | bool value => rw [prettyAt, tree]; exact (bare_ofBool value).value
  | int value => rw [prettyAt, tree]; exact (bare_int value).value
  | float value => rw [prettyAt, tree]; exact (bare_float value).value
  | text value => rw [prettyAt, tree]; exact reads_quoted value
  | array items ih =>
    rw [prettyAt, tree, prettyItems_eq_map, treeItems_eq_map]
    exact reads_array (fun j hj => ih j hj _) (bracketed_indented rfl rfl depth _)
  | object members ih =>
    rw [prettyAt, tree, prettyMembers_eq_map, treeMembers_eq_map]
    exact reads_object (fun m hm => ih m hm _) rfl (List.all_eq_true.1 (by decide))
      (bracketed_indented rfl rfl depth _)

/-- Read as JSON, both texts of a value are the value. -/
theorem read_write (j : Json) (pretty : Bool) : read (j.write pretty) = some j.tree := by
  have hreads : Reads (j.write pretty).toList j.tree := by
    unfold write
    split
    · exact reads_prettyAt j 0
    · exact reads_compact j
  have hrun := hreads [] [] stops_nil
  rw [List.append_nil] at hrun
  unfold read
  rw [hrun]
  rfl

end LandPattern.Json
