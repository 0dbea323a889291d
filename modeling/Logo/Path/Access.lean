import Logo.Fault
import Logo.Value.Basic

/-!
# Members of a value

Reading follows the accessors of a path into a value. Assigning replaces what is there, and at the
last step may add a field to an object or an item at the end of an array. Materializing makes room
for every step: it adds fields, fills arrays up with zeros, and puts an empty container in place of
a value of another kind.
-/

namespace Logo.Value

/-- The member that accessors lead to; `path` is the written path, for faults. -/
def read (path : String) : Value → List Accessor → Except Fault Value
  | v, [] => .ok v
  | object fields, .field name :: rest =>
    match fields.lookup name with
    | some v => read path v rest
    | none => .error (.missingVariable path)
  | array items, .index i :: rest =>
    match items[i]? with
    | some v => read path v rest
    | none => .error (.invalidPath path (.outOfRange i items.length))
  | v, accessor :: _ => .error (.invalidPath path (.cannotApply accessor v.kind))

/-- Replaces the member that accessors lead to. -/
def assign (path : String) (new : Value) : Value → List Accessor → Except Fault Value
  | _, [] => .ok new
  | object fields, .field name :: rest =>
    if rest.isEmpty then .ok (object (putField fields name new))
    else
      match fields.lookup name with
      | some v => (assign path new v rest).map fun v => object (putField fields name v)
      | none => .error (.missingVariable path)
  | array items, .index i :: rest =>
    if rest.isEmpty && i = items.length then .ok (array (items ++ [new]))
    else
      match items[i]? with
      | some v => (assign path new v rest).map fun v => array (items.set i v)
      | none => .error (.invalidPath path (.outOfRange i items.length))
  | v, accessor :: _ => .error (.invalidPath path (.cannotApply accessor v.kind))

/-- The fields of an object; any other value has none. -/
def fieldsOrEmpty : Value → List (String × Value)
  | object fields => fields
  | _ => []

/-- The items of an array; any other value has none. -/
def itemsOrEmpty : Value → List Value
  | array items => items
  | _ => []

/-- The items, with zeros added up to a length. -/
def padTo (length : Nat) (items : List Value) : List Value :=
  items ++ List.replicate (length - items.length) (number 0.0)

/-- Puts a value where accessors lead to, making containers along the way. -/
def materialize (path : String) (new : Value) : Value → List Accessor → Except Fault Value
  | _, [] => .ok new
  | v, .field name :: rest =>
    let member := (v.fieldsOrEmpty.lookup name).getD (number 0.0)
    (materialize path new member rest).map fun member =>
      object (putField v.fieldsOrEmpty name member)
  | v, .index i :: rest =>
    if i ≤ maxIndex then
      let items := padTo (i + 1) v.itemsOrEmpty
      (materialize path new (items[i]?.getD (number 0.0)) rest).map fun member =>
        array (items.set i member)
    else .error (.invalidPath path (.growthAboveLimit i))

end Logo.Value
