import LandPattern.Proofs.Script.Accepting
import LandPattern.Proofs.Script.Lexemes
import LandPattern.Proofs.Script.Scanning
import LandPattern.Script.Compile

/-!
# Names of definitions

A name is a word of the source, so it begins with a letter or an underscore. No two definitions of
an accepted script share one, which is why a name stands for one function at most.
-/

namespace LandPattern.Script

/-- A word that can be a name begins with a letter or an underscore. -/
def IsWord (name : String) : Prop := ∃ c rest, name.toList = c :: rest ∧ isWordStart c = true

theorem eq_of_ofWord {word name : String} (h : Token.ofWord word = .name name) : name = word := by
  unfold Token.ofWord at h
  cases hword : Token.words.lookup word with
  | none =>
    rw [hword] at h
    cases h
    rfl
  | some t =>
    rw [hword] at h
    obtain ⟨before, after, heq, -⟩ := List.lookup_eq_some_iff.1 hword
    have hmem : (word, t) ∈ Token.words := by
      rw [heq]
      exact List.mem_append_right _ List.mem_cons_self
    simp only [Option.getD_some] at h
    subst h
    simp [Token.words] at hmem

/-- A name that is read is a word. -/
theorem isWord_of_read {c : Char} {rest : List Char} {name : String} {length : Nat}
    (h : Lexeme.read c rest = .token (.name name) length) : IsWord name := by
  generalize htoken : Token.name name = token at h
  cases Lexeme.reads_of_read h with
  | comment | quoted | blank => cases htoken
  | number hc hnumber =>
    subst htoken
    cases content?_of_readNumber hnumber
  | word hc =>
    obtain rfl := eq_of_ofWord htoken.symm
    refine ⟨c, rest.takeWhile isWordChar, ?_, hc⟩
    rw [String.toList_ofList, List.takeWhile_cons_of_pos (isWordChar_of_isWordStart hc)]
  | double hr hsign =>
    subst htoken
    cases content?_of_doubleSign? hsign
  | single hc hd hsign =>
    subst htoken
    cases content?_of_singleSign? hsign

theorem Lexed.isWord {pos : Nat} {text : List Char} {tokens : List Placed}
    (h : Lexed pos text tokens) {t : Placed} (ht : t ∈ tokens) {name : String}
    (hname : t.token = .name name) : IsWord name := by
  induction h with
  | done => exact absurd ht List.not_mem_nil
  | @token pos c piece rest token tokens hread _ ih =>
    rcases List.mem_cons.1 ht with rfl | hlater
    · obtain rfl : token = .name name := hname
      exact isWord_of_read hread
    · exact ih hlater

/-- The names of definitions are among the tokens that spell them. -/
theorem SpellsItems.name_mem {items : List Item} {ts : List Token} (h : SpellsItems items ts)
    {item : Item} (hi : item ∈ items) : Token.name item.name.text ∈ ts := by
  induction h with
  | nil => exact absurd hi List.not_mem_nil
  | cons hfirst _ ih =>
    rcases List.mem_cons.1 hi with rfl | hrest
    · cases hfirst <;> simp [Item.name, headerTokens]
    · exact List.mem_append_right _ (ih hrest)

/-- The definitions have different names. -/
def Item.Apart (item other : Item) : Prop := item.name.text ≠ other.name.text

/-- Without problems, the names of definitions differ from those seen before and from one another.
-/
theorem apart_of_definitionProblems {seen : List (Name × Bool)} {items : List Item}
    (h : definitionProblems seen items = []) :
    (∀ item ∈ items, ∀ s ∈ seen, s.1.text ≠ item.name.text) ∧ items.Pairwise Item.Apart := by
  induction items generalizing seen with
  | nil => exact ⟨fun _ hitem => absurd hitem List.not_mem_nil, .nil⟩
  | cons item rest ih =>
    simp only [definitionProblems] at h
    split at h
    · rename_i hnone
      obtain ⟨hlater, hrest⟩ := ih h
      have hfirst : ∀ s ∈ seen, s.1.text ≠ item.name.text := fun s hs => by
        simpa using List.find?_eq_none.1 hnone s hs
      have hapart : ∀ other ∈ rest, item.Apart other := fun other hother =>
        hlater other hother _ List.mem_cons_self
      refine ⟨fun other hother s hs => ?_, .cons hapart hrest⟩
      rcases List.mem_cons.1 hother with rfl | hmem
      · exact hfirst s hs
      · exact hlater other hmem s (List.mem_cons_of_mem _ hs)
    · cases h

/-- Among definitions with different names, a name belongs to one. -/
theorem eq_of_apart {items : List Item} (h : items.Pairwise Item.Apart) {item other : Item}
    (hi : item ∈ items) (ho : other ∈ items) (heq : item.name.text = other.name.text) :
    item = other := by
  induction h with
  | nil => exact absurd hi List.not_mem_nil
  | @cons first rest hfirst _ ih =>
    rcases List.mem_cons.1 hi with rfl | hitem
    · rcases List.mem_cons.1 ho with rfl | hother
      · rfl
      · exact absurd heq (hfirst other hother)
    · rcases List.mem_cons.1 ho with rfl | hother
      · exact absurd heq.symm (hfirst item hitem)
      · exact ih hitem hother

/-- The function is the only one of the script with this name. -/
def Program.Names (p : Program) (name : String) (f : Function) : Prop :=
  f ∈ p.functions ∧ f.name.text = name ∧ ∀ g ∈ p.functions, g.name.text = name → g = f

/-- Functions are among the definitions. -/
theorem Program.mem_functions_iff {p : Program} {f : Function} :
    f ∈ p.functions ↔ Item.function f ∈ p.items := by
  unfold Program.functions
  rw [List.mem_filterMap]
  constructor
  · rintro ⟨item, hitem, heq⟩
    cases item with
    | function g =>
      cases heq
      exact hitem
    | constant => cases heq
  · exact fun h => ⟨_, h, rfl⟩

/-- In an accepted script every function has a name of its own, and the name is a word. -/
theorem Program.names_of_ofText {depths : Depths} {source : String} {p : Program}
    (h : Program.ofText depths source = .ok p) {f : Function} (hf : f ∈ p.functions) :
    p.Names f.name.text f ∧ IsWord f.name.text := by
  obtain ⟨tokens, htokens, -, hprogram, hproblems⟩ := Program.stages_of_ofText h
  have hitem := mem_functions_iff.1 hf
  have hapart : p.items.Pairwise Item.Apart := by
    simp only [Program.problems, List.append_eq_nil_iff] at hproblems
    exact (apart_of_definitionProblems hproblems.1.1).2
  refine ⟨⟨hf, rfl, fun g hg heq => ?_⟩, ?_⟩
  · exact Item.function.inj (eq_of_apart hapart (mem_functions_iff.1 hg) hitem heq)
  · have hname := SpellsItems.name_mem (Program.spelledBy_of_ofTokens hprogram) hitem
    obtain ⟨t, ht, htoken⟩ := List.mem_map.1 hname
    exact (tokenize_eq_ok_iff.1 htokens).isWord (List.mem_filter.1 ht).1 htoken

end LandPattern.Script
