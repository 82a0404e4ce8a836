import CodeCensus.Entry
import CodeCensus.Source.Blanking
import CodeCensus.Source.Member

/-!
# Recognising a source file

The entry of a source file holds its top-level types, and each of these the methods declared
directly in it. A text whose braces do not balance has no entry.
-/

namespace CodeCensus.Source

/-- The entry of a top-level type. -/
def TypeBody.toEntry (type : TypeBody) : Except Fault Entry := do
  let methods ← type.methods
  return .ofClass (String.ofList type.declaration.name)
    (methods.map fun name => .function (String.ofList name))

/-- The entry of a source file with the given name and contents. -/
def recognize (fileName : String) (contents : String) : Except Fault (Option Entry) :=
  match typeBodies? (blank contents.toList) with
  | none => .ok none
  | some types => do
    let classes ← types.mapM TypeBody.toEntry
    return some (← Entry.sourceFile fileName classes)

end CodeCensus.Source
