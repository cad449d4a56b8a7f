/-!
# Places in a script

A span is a half-open range of bytes of the script's UTF-8 text. Names keep the span they were
read from, so that faults can point at them.
-/

namespace LandPattern.Script

/-- The bytes from `start` up to, not including, `stop`. -/
structure Span where
  /-- First byte. -/
  start : Nat
  /-- First byte after the range. -/
  stop : Nat
  deriving DecidableEq, Repr, Inhabited

/-- The smallest range that covers both. -/
def Span.cover (a b : Span) : Span := ⟨min a.start b.start, max a.stop b.stop⟩

/-- The end of the range, never before its start. -/
def Span.last (s : Span) : Nat := max s.start s.stop

/-- A name where it is written. -/
structure Name where
  /-- The characters of the name. -/
  text : String
  /-- Where it stands. -/
  span : Span
  deriving DecidableEq, Repr

/-- How many bytes the characters take in UTF-8. -/
def byteLength (text : List Char) : Nat :=
  text.foldl (fun n c => n + c.utf8Size) 0

@[simp] theorem byteLength_nil : byteLength [] = 0 := rfl

@[simp] theorem byteLength_cons (c : Char) (text : List Char) :
    byteLength (c :: text) = c.utf8Size + byteLength text := by
  have hstart : ∀ start : Nat, text.foldl (fun n d => n + d.utf8Size) start =
      start + text.foldl (fun n d => n + d.utf8Size) 0 := by
    induction text with
    | nil => exact fun _ => rfl
    | cons d rest ih =>
      intro start
      rw [List.foldl_cons, List.foldl_cons, ih (start + d.utf8Size), ih (0 + d.utf8Size)]
      omega
  rw [byteLength, List.foldl_cons, hstart, Nat.zero_add, byteLength]

@[simp] theorem byteLength_append (text more : List Char) :
    byteLength (text ++ more) = byteLength text + byteLength more := by
  induction text with
  | nil => simp
  | cons c rest ih =>
    rw [List.cons_append, byteLength_cons, byteLength_cons, ih, Nat.add_assoc]

@[simp] theorem byteLength_reverse (text : List Char) :
    byteLength text.reverse = byteLength text := by
  induction text with
  | nil => rfl
  | cons c rest ih =>
    rw [List.reverse_cons, byteLength_append, ih, byteLength_cons, byteLength_cons, byteLength_nil]
    omega

@[simp] theorem utf8ByteSize_ofList (text : List Char) :
    (String.ofList text).utf8ByteSize = byteLength text := by
  induction text with
  | nil => rfl
  | cons c rest ih =>
    rw [String.ofList_cons, String.utf8ByteSize_append, String.utf8ByteSize_singleton, ih,
      byteLength_cons]

theorem byteLength_toList (text : String) : byteLength text.toList = text.utf8ByteSize := by
  rw [← utf8ByteSize_ofList, String.ofList_toList]

end LandPattern.Script
