import CodeCensus.Source.Declaration

/-!
# Top-level type bodies

A blanked text with balanced braces is a row of headers, each followed by a group in braces, and a
tail. Where the header declares a type after its last semicolon, the group is the body of that type.
A body keeps the text at its own level and shows every group inside it as an empty pair of braces.
-/

namespace CodeCensus.Source

/-- A top-level type: what declares it and the text of its body at the body's own level. -/
structure TypeBody where
  declaration : Declaration
  body : List Char
deriving DecidableEq, Repr

/-- Splits a text that starts at the given brace depth. At depth 0 the second argument holds, from
right to left, the header read since the last semicolon or closing brace. The result is the rest
of the body at depth 1 and the types that come later; it is missing if the braces do not balance. -/
def splitFrom : Nat → List Char → List Char → Option (List Char × List TypeBody)
  | 0, _, [] => some ([], [])
  | _ + 1, _, [] => none
  | 0, header, '{' :: rest =>
    match splitFrom 1 [] rest with
    | none => none
    | some (body, later) =>
      match lastDeclaration? header.reverse with
      | some declaration => some ([], ⟨declaration, body⟩ :: later)
      | none => some ([], later)
  | 0, _, '}' :: _ => none
  | 0, _, ';' :: rest => splitFrom 0 [] rest
  | 0, header, c :: rest => splitFrom 0 (c :: header) rest
  | 1, _, '{' :: rest =>
    match splitFrom 2 [] rest with
    | none => none
    | some (body, later) => some ('{' :: '}' :: body, later)
  | 1, _, '}' :: rest => splitFrom 0 [] rest
  | 1, _, c :: rest =>
    match splitFrom 1 [] rest with
    | none => none
    | some (body, later) => some (c :: body, later)
  | depth + 2, _, '{' :: rest => splitFrom (depth + 3) [] rest
  | depth + 2, _, '}' :: rest => splitFrom (depth + 1) [] rest
  | depth + 2, _, _ :: rest => splitFrom (depth + 2) [] rest

/-- The top-level types of a blanked text in order, or nothing if its braces do not balance. -/
def typeBodies? (text : List Char) : Option (List TypeBody) :=
  (splitFrom 0 [] text).map Prod.snd

end CodeCensus.Source
