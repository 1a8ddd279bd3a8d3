import Reckoner.Number.Basic

/-!
# JSON values

The fields of an object keep the order in which they were written.
-/

set_option autoImplicit false

namespace Reckoner

inductive Json where
  | null
  | bool (b : Bool)
  | number (n : Number)
  | text (s : String)
  | list (items : List Json)
  | object (fields : List (String × Json))

namespace Json

instance : Inhabited Json := ⟨.null⟩

/-- The value of a field, which is smaller than the fields are together. -/
def field? (name : String) :
    (fields : List (String × Json)) → Option { v : Json // sizeOf v < sizeOf fields }
  | [] => none
  | (n, v) :: rest =>
    if n = name then some ⟨v, by simp; omega⟩
    else (field? name rest).map fun ⟨w, h⟩ => ⟨w, by simp; omega⟩

def ofInt (n : Int) : Json := .number (.int n)

/-- What a value falls into: a list into its items, a text into its characters and an object into
its names; none for a value without parts. -/
def items? : Json → Option (List Json)
  | .list items => some items
  | .text s => some (s.toList.map fun c => .text (String.singleton c))
  | .object fields => some (fields.map fun (name, _) => .text name)
  | _ => none

end Json

end Reckoner
