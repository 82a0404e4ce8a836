/-!
# Splitting texts

`splitAll` cuts a text at every occurrence of a separator; `[]` is the only piece of the
empty text.
-/

namespace CodeCensus.Text

/-- The pieces of a text between separators, in order. -/
def splitAll (separator : Char) : List Char → List (List Char)
  | [] => [[]]
  | c :: rest =>
    match splitAll separator rest with
    | [] => [[]]
    | piece :: pieces => if c = separator then [] :: piece :: pieces else (c :: piece) :: pieces

/-- There is at least one part of every text. -/
theorem splitAll_ne_nil (separator : Char) (text : List Char) : splitAll separator text ≠ [] := by
  cases text with
  | nil => simp [splitAll]
  | cons c rest =>
    simp only [splitAll]
    split
    · simp
    · split <;> simp

end CodeCensus.Text
