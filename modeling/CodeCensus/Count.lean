import CodeCensus.Fault

/-!
# Pairs of counters

A `Count` holds how many classes and how many functions a unit contains. Addition and subtraction
on counts are exact; `Count.plus` and `Count.minus` are the same operations for counters kept in
signed 64-bit words, where a result outside the range is a fault.
-/

namespace CodeCensus

/-- How many classes and how many functions. Signed, so that a count can also be a difference. -/
structure Count where
  classes : Int
  functions : Int
deriving DecidableEq, Repr, Inhabited

namespace Count

/-- Nothing counted. -/
def zero : Count := ⟨0, 0⟩

instance : Zero Count := ⟨zero⟩

instance : Add Count := ⟨fun a b => ⟨a.classes + b.classes, a.functions + b.functions⟩⟩

instance : Sub Count := ⟨fun a b => ⟨a.classes - b.classes, a.functions - b.functions⟩⟩

instance : Neg Count := ⟨fun a => ⟨-a.classes, -a.functions⟩⟩

@[simp] theorem zero_classes : (0 : Count).classes = 0 := rfl

@[simp] theorem zero_functions : (0 : Count).functions = 0 := rfl

@[simp] theorem add_classes (a b : Count) : (a + b).classes = a.classes + b.classes := rfl

@[simp] theorem add_functions (a b : Count) : (a + b).functions = a.functions + b.functions := rfl

@[simp] theorem sub_classes (a b : Count) : (a - b).classes = a.classes - b.classes := rfl

@[simp] theorem sub_functions (a b : Count) : (a - b).functions = a.functions - b.functions := rfl

@[ext] theorem ext {a b : Count} (classes : a.classes = b.classes)
    (functions : a.functions = b.functions) : a = b := by
  cases a; cases b; simp_all

/-- Whether a number fits a signed 64-bit word. -/
def fitsWord (n : Int) : Bool :=
  decide (-9223372036854775808 ≤ n) && decide (n ≤ 9223372036854775807)

/-- Whether both counters fit a word. -/
def inRange (c : Count) : Bool :=
  fitsWord c.classes && fitsWord c.functions

/-- A count that fits its words, or the fault of one that does not. -/
def checked (c : Count) : Except Fault Count :=
  if c.inRange then .ok c else .error .counterOverflow

/-- Addition of counters kept in words. -/
def plus (a b : Count) : Except Fault Count := checked (a + b)

/-- Subtraction of counters kept in words. -/
def minus (a b : Count) : Except Fault Count := checked (a - b)

/-- Total of a list of counts, added from the left. -/
def total (counts : List Count) : Except Fault Count :=
  counts.foldlM plus 0

/-- Neither classes nor functions. -/
def isZero (c : Count) : Bool := c == 0

/-- Text of a count, as it appears in reports. -/
def describe (c : Count) : String :=
  "classes=" ++ toString c.classes ++ ", functions=" ++ toString c.functions

end Count

end CodeCensus
