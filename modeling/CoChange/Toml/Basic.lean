import CoChange.Binary64.Basic
import CoChange.Toml.Datetime

/-!
# Documents in TOML
-/

namespace CoChange.Toml

/-- A value of a document. The entries of a table are sorted by key, and no key occurs twice. -/
inductive Value where
  | string (value : String)
  | integer (value : Int)
  | float (value : Binary64)
  | boolean (value : Bool)
  | datetime (value : Datetime)
  | array (items : List Value)
  | table (entries : List (String × Value))
  deriving Repr

instance : Inhabited Value := ⟨.table []⟩

def Value.isTable : Value → Bool
  | table _ => true
  | _ => false

/-- The entries of a document. -/
abbrev Entries := List (String × Value)

end CoChange.Toml
