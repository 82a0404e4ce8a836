/-!
# Texts in order

Texts are ordered by their characters from left to right, which is also the order of their bytes.
`sortDistinct` lists the members of a collection in that order, each once.
-/

namespace CodeCensus.Text

/-- Puts a text at its place in a list that is in order; a text that is there is not repeated. -/
def insertInOrder (text : String) : List String → List String
  | [] => [text]
  | head :: rest =>
    if text < head then text :: head :: rest
    else if text = head then head :: rest
    else head :: insertInOrder text rest

/-- The distinct members of a list, in order. -/
def sortDistinct (texts : List String) : List String :=
  texts.foldr insertInOrder []

end CodeCensus.Text
