import CoChange.Source.DeclarationOutline
import CoChange.Source.IndentOutline
import CoChange.Source.ItemOutline
import CoChange.Source.Language

/-!
# Reading sources
-/

namespace CoChange

/-- The functions that a source declares. -/
def Language.outlineItems (l : Language) (source : List Char) : List OutlineItem :=
  match l with
  | .rust => Source.ItemOutline.read source
  | .python => Source.IndentOutline.read source
  | .go => Source.DeclarationOutline.read source

def Outline.read (l : Language) (source : String) : Outline :=
  let cs := source.toList
  ⟨l.outlineItems cs, Place.start.pastAll cs⟩

/-- The tree of a source. -/
def Language.parse (l : Language) (source : String) : Node := (Outline.read l source).toTree

end CoChange
