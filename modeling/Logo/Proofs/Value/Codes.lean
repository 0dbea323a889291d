import Logo.Proofs.Value.Hereditary

/-!
# Code in values

A value can hold code: it is code itself, or it has items or fields that hold code. Reading a
member, putting a member in and the operators and functions of expressions take code from one value
to another but make none.
-/

namespace Logo

namespace Value

mutual

/-- The code in a value, in order. -/
def codes : Value → List Code
  | number _ => []
  | array items => itemCodes items
  | object fields => fieldCodes fields
  | code c => [c]

/-- The code in some values. -/
def itemCodes : List Value → List Code
  | [] => []
  | v :: rest => v.codes ++ itemCodes rest

/-- The code in some fields. -/
def fieldCodes : List (String × Value) → List Code
  | [] => []
  | (_, v) :: rest => v.codes ++ fieldCodes rest

end

/-- Whether all code in a value has a property. -/
def AllCode (P : Code → Prop) (v : Value) : Prop := ∀ c ∈ v.codes, P c

variable {P Q : Code → Prop}

/-- Code with one property has every weaker one. -/
theorem AllCode.mono {v : Value} (h : v.AllCode P) (hPQ : ∀ c, P c → Q c) : v.AllCode Q :=
  fun c hc => hPQ c (h c hc)

/-- Where there is no code, all code has the property. -/
theorem allCode_of_codes_eq_nil {v : Value} (h : v.codes = []) : v.AllCode P := by
  simp [AllCode, h]

/-- There is no code in a number. -/
@[simp] theorem allCode_number (x : Float) : (number x).AllCode P := by
  simp [AllCode, codes]

/-- The code in a piece of code is this one alone. -/
@[simp] theorem allCode_code {c : Code} : (code c).AllCode P ↔ P c := by
  simp [AllCode, codes]

/-- The code in an array is that in its items. -/
@[simp] theorem allCode_array {items : List Value} :
    (array items).AllCode P ↔ ∀ v ∈ items, v.AllCode P := by
  rw [AllCode, codes]
  induction items with
  | nil => simp [itemCodes]
  | cons v rest ih =>
    simp only [itemCodes, List.mem_append, or_imp, forall_and, ih, List.forall_mem_cons]
    rfl

/-- The code in an object is that in its fields. -/
@[simp] theorem allCode_object {fields : List (String × Value)} :
    (object fields).AllCode P ↔ ∀ field ∈ fields, field.2.AllCode P := by
  rw [AllCode, codes]
  induction fields with
  | nil => simp [fieldCodes]
  | cons field rest ih =>
    obtain ⟨name, v⟩ := field
    simp only [fieldCodes, List.mem_append, or_imp, forall_and, ih, List.forall_mem_cons]
    rfl

/-- There is no code in a text. -/
@[simp] theorem allCode_ofText (s : String) : (ofText s).AllCode P := by
  simp [ofText]

/-- There is no code in a truth value. -/
@[simp] theorem allCode_ofBool (b : Bool) : (ofBool b).AllCode P := by
  simp [ofBool]

/-- Values and their members hold the same code. -/
theorem hereditary_allCode (P : Code → Prop) : Hereditary (AllCode P) where
  number := allCode_number
  array := allCode_array
  empty := by simp
  field := allCode_object.mp
  putField hfields hv name := allCode_object.mpr (forall_putField (allCode_object.mp hfields) hv)

variable {path : String} {new v w : Value} {accessors : List Accessor}

/-- What is assigned is the only new code in a value. -/
theorem AllCode.assign (hnew : new.AllCode P) (hv : v.AllCode P)
    (h : Value.assign path new v accessors = .ok w) : w.AllCode P :=
  (hereditary_allCode P).assign hnew hv h

/-- What is put in place is the only new code in a value. -/
theorem AllCode.materialize (hnew : new.AllCode P) (hv : v.AllCode P)
    (h : Value.materialize path new v accessors = .ok w) : w.AllCode P :=
  (hereditary_allCode P).materialize hnew hv h

end Value

end Logo
