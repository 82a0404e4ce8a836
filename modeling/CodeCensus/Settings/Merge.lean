import CodeCensus.Settings.Basic
import CodeCensus.Text.Order

/-!
# Layers of settings

A layer says something about some settings. A base layer replaces the lists it mentions; a project
layer adds to them, and takes out what it marks with an exclamation mark.
-/

namespace CodeCensus

/-- What a layer says; a missing field says nothing. -/
structure Layer where
  supportedExtensions : Option (List String)
  excludedDirs : Option (List String)
  modules : Option (List String)
  showFunctions : Option Bool
  showCounts : Option Bool
deriving DecidableEq, Repr

/-- The layer that says nothing. -/
def Layer.silent : Layer := ⟨none, none, none, none, none⟩

/-- What an item of an overlay asks for: to take a text out if it starts with an exclamation mark,
else to put it in. -/
def mergeItem (members : List String) (item : String) : List String :=
  match item.toList with
  | '!' :: text => members.filter (· != String.ofList text)
  | _ => item :: members

/-- A list with an overlay applied item by item: its distinct members in order. -/
def mergeLists (base overlay : List String) : List String :=
  Text.sortDistinct (overlay.foldl mergeItem base)

/-- The flags of a drawing with those that a layer sets. -/
def Layer.onDrawing (layer : Layer) (options : DrawingOptions) : DrawingOptions :=
  ⟨layer.showFunctions.getD options.showFunctions, layer.showCounts.getD options.showCounts⟩

namespace Settings

/-- Settings with the lists and flags of a base layer in place of their own. -/
def replaceBy (settings : Settings) (layer : Layer) : Settings where
  supportedExtensions := layer.supportedExtensions.getD settings.supportedExtensions
  excludedDirs := layer.excludedDirs.getD settings.excludedDirs
  modules := layer.modules.getD settings.modules
  drawing := layer.onDrawing settings.drawing

/-- A list with the overlay of a layer, if the layer has one. -/
def overlay (base : List String) : Option (List String) → List String
  | some items => mergeLists base items
  | none => base

/-- Settings with the lists of a project layer merged in, and its flags in place of their own. -/
def mergeWith (settings : Settings) (layer : Layer) : Settings where
  supportedExtensions := overlay settings.supportedExtensions layer.supportedExtensions
  excludedDirs := overlay settings.excludedDirs layer.excludedDirs
  modules := overlay settings.modules layer.modules
  drawing := layer.onDrawing settings.drawing

end Settings

end CodeCensus
