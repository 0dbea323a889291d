import Logo.Proofs.Path.Room

/-!
# Members changed in place

A member of a cell can be put in step by step, with each step made in the cell itself. Materializing
in place replaces a value of another kind by an empty container and starts again, fills an array up,
and puts a zero in the place of a missing field, all before it goes on in the member. So a write
that fails late would leave a cell that is neither as before nor as wanted. An assignment in place
changes nothing before its last step. Materializing in place does not fail if every index is in
bounds. Either way a cell that is changed in place ends as one that is changed all at once.
-/

namespace Logo

/-- All or nothing: the new cell, or the old one with a fault. -/
def allOrNothing {α : Type} (old : α) : Except Fault α → Except Fault Unit × α
  | .ok new => (.ok (), new)
  | .error fault => (.error fault, old)

namespace Value

variable {path : String} {v c c' : Value} {a : List Accessor}

/-! ## Assigning -/

/-- Assigns in a cell, and gives the cell as it is left, with or without success. -/
def assignInPlace (path : String) (new : Value) : Value → List Accessor → Except Fault Unit × Value
  | _, [] => (.ok (), new)
  | object fields, .field name :: rest =>
    if rest.isEmpty then (.ok (), object (putField fields name new))
    else
      match fields.lookup name with
      | some v => (assignInPlace path new v rest).map id fun v => object (putField fields name v)
      | none => (.error (.missingVariable path), object fields)
  | array items, .index i :: rest =>
    if rest.isEmpty && i = items.length then (.ok (), array (items ++ [new]))
    else
      match items[i]? with
      | some v => (assignInPlace path new v rest).map id fun v => array (items.set i v)
      | none => (.error (.invalidPath path (.outOfRange i items.length)), array items)
  | v, accessor :: _ => (.error (.invalidPath path (.cannotApply accessor v.kind)), v)

/-- A change of a member that is all or nothing is one of the container. -/
theorem map_allOrNothing {change : Value → Value} (h : change v = c) (e : Except Fault Value) :
    (allOrNothing v e).map id change = allOrNothing c (e.map change) := by
  cases e with
  | ok new => rfl
  | error fault => simp [allOrNothing, Except.map, h]

/-- An assignment in place is all or nothing. -/
theorem assignInPlace_eq (path : String) (v c : Value) (a : List Accessor) :
    assignInPlace path v c a = allOrNothing c (assign path v c a) := by
  fun_induction assignInPlace path v c a with
  | case1 c => rfl
  | case2 fields name rest hlast => simp [assign, hlast, allOrNothing]
  | case3 fields name rest hmore member hmember ih =>
    have hback : object (putField fields name member) = object fields := by
      rw [putField_of_lookup hmember]
    rw [ih, map_allOrNothing hback]
    simp [assign, hmore, hmember]
  | case4 fields name rest hmore hmember => simp [assign, hmore, hmember, allOrNothing]
  | case5 items i rest hlast => simp only [assign, hlast, if_true, allOrNothing]
  | case6 items i rest hmore member hmember ih =>
    obtain ⟨hlt, rfl⟩ := List.getElem?_eq_some_iff.mp hmember
    have hback : array (items.set i items[i]) = array items := by rw [List.set_getElem_self]
    rw [ih, map_allOrNothing hback]
    simp [assign, hmore, hmember]
  | case7 items i rest hmore hmember => simp [assign, hmore, hmember, allOrNothing]
  | case8 c x rest hobject harray => simp [assign, allOrNothing]

/-! ## Materializing -/

/-- The fields with a place for a name: a missing one is there as zero. -/
def reserve (fields : List (String × Value)) (name : String) : List (String × Value) :=
  if (fields.lookup name).isSome then fields else putField fields name (number 0.0)

/-- A place that was made for a name holds zero, as a missing field counts. -/
theorem getD_lookup_reserve (fields : List (String × Value)) (name : String) :
    ((reserve fields name).lookup name).getD (number 0.0) =
      (fields.lookup name).getD (number 0.0) := by
  cases hlookup : fields.lookup name with
  | some member => simp [reserve, hlookup]
  | none => simp [reserve, hlookup, lookup_putField]

/-- Making a place for a name first makes no difference to a field that is put there. -/
theorem putField_reserve (fields : List (String × Value)) (name : String) (v : Value) :
    putField (reserve fields name) name v = putField fields name v := by
  rw [reserve]
  split
  · rfl
  · exact putField_putField fields name _ v

/-- Whether a value is a container of the kind that an accessor leads into. -/
def suits : Value → Accessor → Bool
  | object _, .field _ => true
  | array _, .index _ => true
  | _, _ => false

/-- The empty container of the kind that an accessor leads into. -/
def emptyFor : Accessor → Value
  | .field _ => object []
  | .index _ => array []

/-- The empty container of a kind is of this kind. -/
theorem suits_emptyFor (x : Accessor) : (emptyFor x).suits x = true := by
  cases x with
  | field name => rfl
  | index i => rfl

/-- How often materializing in place starts again at the first accessor. -/
def restarts (c : Value) : List Accessor → ℕ
  | [] => 0
  | x :: _ => if c.suits x then 0 else 1

/-- Materializing starts again at most once, since the container that it then finds is of the right
kind. -/
theorem restarts_le_one (c : Value) (a : List Accessor) : c.restarts a ≤ 1 := by
  cases a with
  | nil => exact Nat.zero_le 1
  | cons x rest =>
    rw [restarts]
    split <;> omega

/-- Materializes in a cell, and gives the cell as it is left, with or without success. -/
def materializeInPlace (path : String) (new c : Value) : List Accessor → Except Fault Unit × Value
  | [] => (.ok (), new)
  | x :: rest =>
    if hsuits : c.suits x then
      match x with
      | .field name =>
        (materializeInPlace path new (((reserve c.fieldsOrEmpty name).lookup name).getD (number 0.0))
          rest).map id fun v => object (putField (reserve c.fieldsOrEmpty name) name v)
      | .index i =>
        if i ≤ maxIndex then
          (materializeInPlace path new ((padTo (i + 1) c.itemsOrEmpty)[i]?.getD (number 0.0))
            rest).map id fun v => array ((padTo (i + 1) c.itemsOrEmpty).set i v)
        else (.error (.invalidPath path (.growthAboveLimit i)), c)
    else materializeInPlace path new (emptyFor x) (x :: rest)
termination_by a => 2 * a.length + c.restarts a
decreasing_by
  · refine Nat.lt_of_le_of_lt (Nat.add_le_add_left (restarts_le_one _ rest) _) ?_
    rw [List.length_cons]
    omega
  · refine Nat.lt_of_le_of_lt (Nat.add_le_add_left (restarts_le_one _ rest) _) ?_
    rw [List.length_cons]
    omega
  · simp [restarts, hsuits, suits_emptyFor]

/-- Above the limit, materializing in place fails after it has emptied the cell. -/
example : (materializeInPlace "a[1000001]" (object []) (object []) [.index 1000001]).2.kind =
    .array := by decide +kernel

/-- What does not fit an accessor counts as the empty container that takes its place. -/
theorem materialize_emptyFor {x : Accessor} (h : c.suits x = false) (path : String) (v : Value)
    (rest : List Accessor) :
    materialize path v (emptyFor x) (x :: rest) = materialize path v c (x :: rest) := by
  cases x with
  | field name =>
    cases c with
    | number | array | code => rfl
    | object fields => cases h
  | index i =>
    cases c with
    | number | object | code => rfl
    | array items => cases h

/-- Materializing in place comes to the same cell, with the containers, the zeros and the
placeholders that it leaves on its way. -/
theorem materializeInPlace_of_materialize (h : materialize path v c a = .ok c') :
    materializeInPlace path v c a = (.ok (), c') := by
  fun_induction materializeInPlace path v c a generalizing c' with
  | case1 c =>
    cases h
    rfl
  | case2 c rest name hsuits ih =>
    obtain ⟨member, hmember, rfl⟩ := map_eq_ok_iff.mp h
    rw [← getD_lookup_reserve] at hmember
    rw [ih hmember, Prod.map_apply, putField_reserve]
    rfl
  | case3 c rest i hsuits hbound ih =>
    rw [materialize, if_pos hbound] at h
    obtain ⟨member, hmember, rfl⟩ := map_eq_ok_iff.mp h
    rw [ih hmember]
    rfl
  | case4 c rest i hsuits hbound =>
    rw [materialize, if_neg hbound] at h
    cases h
  | case5 c x rest hsuits ih =>
    rw [Bool.not_eq_true] at hsuits
    exact ih ((materialize_emptyFor hsuits path v rest).trans h)

end Value

end Logo
