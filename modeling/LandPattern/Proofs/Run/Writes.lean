import LandPattern.Method
import LandPattern.Proofs.Values.Lookups
import LandPattern.Run.Machine

/-!
# What a script writes to

The variables that an expression or a statement writes to by itself, without the functions that it
calls: the roots of the targets of its assignments and of the receivers of its mutating methods. A
variable that a block declares hides those outside of the same name from the statements that follow,
so that they write to nothing the block does not own. What is left by such a step differs from what
it found in these variables alone.
-/

namespace LandPattern

namespace Script

/-- The variable that an expression writes to when it is written to: that of a place; other
expressions have none. -/
def Expr.root : Expr → List String
  | .name _ word => [word]
  | .field _ object _ => object.root
  | .index _ object _ => object.root
  | _ => []

mutual

/-- The variables that an expression writes to. -/
def Expr.writes (e : Expr) : List String :=
  match e with
  | .list _ items | .tuple _ items => itemWrites items
  | .unary _ _ operand => operand.writes
  | .binary _ _ left right => left.writes ++ right.writes
  | .call _ callee args => callee.writes ++ argumentWrites args
  | .method _ receiver method args =>
    (if Method.mutates method.text then receiver.root else []) ++ receiver.writes ++
      argumentWrites args
  | .field _ object _ => object.writes
  | .index _ object position => object.writes ++ position.writes
  | _ => []
termination_by structural e

/-- The variables that items write to. -/
def itemWrites (items : List Expr) : List String :=
  match items with
  | [] => []
  | e :: rest => e.writes ++ itemWrites rest
termination_by structural items

/-- The variables that arguments write to. -/
def argumentWrites (args : List Argument) : List String :=
  match args with
  | [] => []
  | .positional e :: rest => e.writes ++ argumentWrites rest
  | .keyword _ e :: rest => e.writes ++ argumentWrites rest
termination_by structural args

end

/-- The variables that a statement adds to the innermost block. -/
def Stmt.declares : Stmt → List String
  | .bind _ name _ => [name.text]
  | _ => []

mutual

/-- The variables that a statement writes to, those it declares for itself left out. -/
def Stmt.writes (s : Stmt) : List String :=
  match s with
  | .bind _ _ value => value.writes
  | .assign _ target _ value => target.root ++ target.writes ++ value.writes
  | .expr _ value => value.writes
  | .giveBack _ none => []
  | .giveBack _ (some value) => value.writes
  | .choose _ branches otherwise => branchWrites branches ++ otherwiseWrites otherwise
  | .loop _ var iterable body =>
    iterable.writes ++ body.writes.filter fun name => name != var.text
termination_by structural s

/-- The variables that statements write to: what one of them declares belongs to the block from
there on. -/
def statementWrites (statements : List Stmt) : List String :=
  match statements with
  | [] => []
  | s :: rest => s.writes ++ (statementWrites rest).filter fun name => !s.declares.contains name
termination_by structural statements

/-- The variables that a block writes to, its own left out. -/
def Block.writes (block : Block) : List String :=
  match block with
  | .mk _ statements => statementWrites statements
termination_by structural block

/-- The variables that branches write to. -/
def branchWrites (branches : List Branch) : List String :=
  match branches with
  | [] => []
  | .mk condition body :: rest => condition.writes ++ body.writes ++ branchWrites rest
termination_by structural branches

/-- The variables that the last block of a choice writes to. -/
def otherwiseWrites (otherwise : Option Block) : List String :=
  match otherwise with
  | none => []
  | some body => body.writes
termination_by structural otherwise

end

end Script

/-- Scopes that have the same names as others, and the same values of all variables but the
innermost one of each written name. -/
inductive Scope.Spared : (String → Prop) → List Scope → List Scope → Prop where
  | nil {written : String → Prop} : Spared written [] []
  | cons {written : String → Prop} {scope left : Scope} {outer others : List Scope}
    (names : left.names = scope.names)
    (lookup : ∀ name, ¬ written name → left.lookup name = scope.lookup name)
    (rest : Spared (fun name => written name ∧ name ∉ scope.names) outer others) :
    Spared written (scope :: outer) (left :: others)

/-- The variables of the active calls with those of the innermost one spared, and all others as they
were. -/
inductive Locals.Spared (written : String → Prop) : List Locals → List Locals → Prop where
  | idle : Spared written [] []
  | innermost {locals left : Locals} (outer : List Locals)
    (h : Scope.Spared written locals.scopes left.scopes) :
    Spared written (locals :: outer) (left :: outer)

/-- The constants and the calls below the innermost one are as they were, and in the innermost one
the same variables stand in the same blocks, with their old values unless they are written to. -/
structure Machine.Spares (written : String → Prop) (before after : Machine) : Prop where
  globals : after.globals = before.globals
  frames : Locals.Spared written before.frames after.frames

theorem Scope.isSome_lookup_iff (scope : Scope) (name : String) :
    (scope.lookup name).isSome ↔ name ∈ scope.names :=
  Entries.isSome_lookup_iff

/-- A write to a variable that is there adds no name. -/
theorem Scope.names_declare {scope : Scope} {name : String} (h : name ∈ scope.names) (v : Value) :
    (scope.declare name v).names = scope.names := by
  induction scope with
  | nil => exact absurd h List.not_mem_nil
  | cons entry rest ih =>
    obtain ⟨key, w⟩ := entry
    by_cases same : key = name
    · simp [declare, names, same]
    · have hrest : name ∈ names rest := by
        rcases List.mem_cons.1 h with heq | hmem
        · exact absurd heq.symm same
        · exact hmem
      simpa [declare, names, same] using ih hrest

/-- A declaration keeps the names that are there. -/
theorem Scope.mem_names_declare {scope : Scope} {name other : String} (v : Value)
    (h : other = name ∨ other ∈ scope.names) : other ∈ (scope.declare name v).names := by
  rw [← isSome_lookup_iff, lookup_declare]
  split
  · rfl
  · exact (isSome_lookup_iff scope other).2 (h.resolve_left ‹_›)

namespace Scope.Spared

variable {written more : String → Prop} {scopes left others : List Scope}

theorem refl (written : String → Prop) (scopes : List Scope) : Spared written scopes scopes := by
  induction scopes generalizing written with
  | nil => exact .nil
  | cons scope outer ih => exact .cons rfl (fun _ _ => rfl) (ih _)

theorem mono (h : Spared written scopes left) (hw : ∀ name, written name → more name) :
    Spared more scopes left := by
  induction h generalizing more with
  | nil => exact .nil
  | cons names lookup _ ih =>
    exact .cons names (fun name hname => lookup name fun hold => hname (hw name hold))
      (ih fun name hname => ⟨hw name hname.1, hname.2⟩)

theorem trans (h : Spared written scopes left) (ho : Spared written left others) :
    Spared written scopes others := by
  induction h generalizing others with
  | nil => exact ho
  | @cons written scope middle outer rest names lookup _ ih =>
    cases ho with
    | cons namesO lookupO restO =>
      rw [names] at restO
      exact .cons (namesO.trans names)
        (fun name hname => (lookupO name hname).trans (lookup name hname)) (ih restO)

/-- What is written is the innermost variable of its name. -/
theorem set (scopes : List Scope) {name : String} (hname : written name) (v : Value) :
    Spared written scopes (Locals.set.go name v scopes) := by
  induction scopes generalizing written with
  | nil => exact .nil
  | cons scope outer ih =>
    unfold Locals.set.go
    split
    · rename_i hfound
      have hmem : name ∈ scope.names := (isSome_lookup_iff scope name).1 hfound
      refine .cons (names_declare hmem v) (fun other hother => ?_) (refl _ _)
      have hne : other ≠ name := fun heq => hother (heq ▸ hname)
      rw [lookup_declare, if_neg hne]
    · rename_i hmissing
      have hnot : name ∉ scope.names := fun hmem =>
        hmissing ((isSome_lookup_iff scope name).2 hmem)
      exact .cons rfl (fun _ _ => rfl) (ih ⟨hname, hnot⟩)

theorem ne_nil (h : Spared written scopes left) (hs : scopes ≠ []) : left ≠ [] := by
  cases h with
  | nil => exact absurd rfl hs
  | cons => exact List.cons_ne_nil _ _

/-- The names of every block are the same. -/
theorem names_eq (h : Spared written scopes left) : left.map names = scopes.map names := by
  induction h with
  | nil => rfl
  | cons names _ _ ih => rw [List.map_cons, List.map_cons, names, ih]

/-- What a name that is not written to means is the same. -/
theorem findSome?_lookup (h : Spared written scopes left) {name : String} (hname : ¬ written name) :
    (left.findSome? fun scope => scope.lookup name) =
      scopes.findSome? fun scope => scope.lookup name := by
  induction h with
  | nil => rfl
  | @cons written scope left outer others names lookup rest ih =>
    have hrest := ih fun hboth => hname hboth.1
    simp only [List.findSome?_cons, lookup name hname, hrest]

end Scope.Spared

namespace Locals.Spared

variable {written more : String → Prop} {frames left others : List Locals}

theorem refl (written : String → Prop) (frames : List Locals) : Spared written frames frames := by
  cases frames with
  | nil => exact .idle
  | cons locals outer => exact .innermost outer (.refl written locals.scopes)

theorem trans (h : Spared written frames left) (ho : Spared written left others) :
    Spared written frames others := by
  cases h with
  | idle => exact ho
  | innermost outer h =>
    cases ho with
    | innermost _ ho => exact .innermost outer (h.trans ho)

theorem mono (h : Spared written frames left) (hw : ∀ name, written name → more name) :
    Spared more frames left := by
  cases h with
  | idle => exact .idle
  | innermost outer h => exact .innermost outer (h.mono hw)

theorem length_eq (h : Spared written frames left) : left.length = frames.length := by
  cases h with
  | idle => rfl
  | innermost outer h => rfl

end Locals.Spared

/-- A variable of the innermost call that is not written to keeps its value. -/
theorem Machine.Spares.get?_eq {written : String → Prop} {before after : Machine}
    (h : before.Spares written after) {name : String} (hname : ¬ written name) :
    (after.frames.head?.bind fun locals => locals.get? name) =
      before.frames.head?.bind fun locals => locals.get? name := by
  obtain ⟨globals, frames, meter, history⟩ := before
  obtain ⟨others, left, used, moments⟩ := after
  have hframes : Locals.Spared written frames left := h.frames
  cases hframes with
  | idle => rfl
  | innermost outer hscopes => exact hscopes.findSome?_lookup hname

end LandPattern
