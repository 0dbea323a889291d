import Logo.Proofs.Path.Lens

/-!
# Making room for members

Any value can be made to fit an accessor: a value of another kind gives way to an empty container,
and an array is filled up with zeros. Materializing makes the container fit at each step, so it
comes to an end for every value, and what it has put in is read at the same path. A container that
takes the member already fits, so that materializing does no more than assigning where assigning
is possible.
-/

namespace Logo

/-- Whether an array can be made long enough for an accessor. -/
def Accessor.InBounds : Accessor → Prop
  | .field _ => True
  | .index i => i ≤ maxIndex

namespace Value

/-- The container that is made of a value, so that it takes a member at an accessor. -/
def fit (c : Value) : Accessor → Value
  | .field _ => object c.fieldsOrEmpty
  | .index i => array (padTo i c.itemsOrEmpty)

variable {path path' : String} {c c' v : Value} {x : Accessor} {a rest : List Accessor}

/-- An array that is made longer has the length that is asked for, unless it was longer already. -/
theorem length_padTo (n : ℕ) (items : List Value) : (padTo n items).length = max n items.length := by
  simp only [padTo, List.length_append, List.length_replicate]
  omega

/-- Items that are long enough are not filled up. -/
theorem padTo_of_le {n : ℕ} {items : List Value} (h : n ≤ items.length) : padTo n items = items := by
  simp [padTo, Nat.sub_eq_zero_of_le h]

/-- One more item is one more zero. -/
theorem padTo_succ {n : ℕ} {items : List Value} (h : items.length ≤ n) :
    padTo (n + 1) items = padTo n items ++ [number 0.0] := by
  have hmore : n + 1 - items.length = n - items.length + 1 := by omega
  simp [padTo, hmore, List.replicate_succ']

/-- An item behind the last one counts as the zero that it would be filled up with. -/
theorem getD_padTo_succ (n : ℕ) (items : List Value) :
    (padTo (n + 1) items)[n]?.getD (number 0.0) = (padTo n items)[n]?.getD (number 0.0) := by
  rcases Nat.lt_or_ge n items.length with hlt | hge
  · rw [padTo_of_le hlt, padTo_of_le (Nat.le_of_lt hlt)]
  · have hlength : (padTo n items).length = n := by
      rw [length_padTo]
      omega
    rw [padTo_succ hge, List.getElem?_append_right (Nat.le_of_eq hlength)]
    simp [hlength]

/-- To fill up behind an item and replace it is to put it in. -/
theorem array_set_padTo_succ (n : ℕ) (items : List Value) (u : Value) :
    array ((padTo (n + 1) items).set n u) = (array (padTo n items)).withMember (.index n) u := by
  rcases Nat.lt_or_ge n items.length with hlt | hge
  · have hne : n ≠ items.length := Nat.ne_of_lt hlt
    rw [padTo_of_le hlt, padTo_of_le (Nat.le_of_lt hlt), withMember, if_neg hne]
  · have hlength : (padTo n items).length = n := by
      rw [length_padTo]
      omega
    rw [padTo_succ hge, withMember, if_pos hlength.symm, List.set_append_right _ _ (by omega)]
    simp [hlength]

/-- The container that is made for an accessor takes a member there. -/
theorem takes_fit (c : Value) (x : Accessor) : (c.fit x).Takes x := by
  cases x with
  | field name => trivial
  | index i =>
    have hlength := length_padTo i c.itemsOrEmpty
    show i ≤ (padTo i c.itemsOrEmpty).length
    omega

/-- A container that takes a member fits. -/
theorem fit_of_takes (h : c.Takes x) : c.fit x = c := by
  obtain ⟨fields, name, rfl, rfl⟩ | ⟨items, i, rfl, rfl, hi⟩ := takes_cases h
  · rfl
  · exact congrArg array (padTo_of_le hi)

/-- What stands at an accessor after the container has been made to fit: a new member is zero. -/
def memberOrZero (c : Value) (x : Accessor) : Value := ((c.fit x).member? x).getD (number 0.0)

/-- Materializing makes the container fit, goes on in the member, and puts it back. -/
theorem materialize_cons (hx : x.InBounds) (path : String) (v c : Value) (rest : List Accessor) :
    materialize path v c (x :: rest) =
      (materialize path v (c.memberOrZero x) rest).map ((c.fit x).withMember x) := by
  cases x with
  | field name => rfl
  | index i =>
    have hbound : i ≤ maxIndex := hx
    have hput : (fun u => array ((padTo (i + 1) c.itemsOrEmpty).set i u)) =
        (c.fit (.index i)).withMember (.index i) := funext (array_set_padTo_succ i c.itemsOrEmpty)
    simp only [materialize, if_pos hbound, getD_padTo_succ, hput]
    rfl

/-- What is materialized is read. -/
theorem exists_materialize (ha : ∀ x ∈ a, x.InBounds) (path path' : String) (v c : Value) :
    ∃ c', materialize path v c a = .ok c' ∧ c'.read path' a = .ok v := by
  induction a generalizing c with
  | nil => exact ⟨v, rfl, rfl⟩
  | cons x rest ih =>
    rw [List.forall_mem_cons] at ha
    obtain ⟨member, hmember, hread⟩ := ih ha.2 (c.memberOrZero x)
    refine ⟨(c.fit x).withMember x member, ?_, ?_⟩
    · rw [materialize_cons ha.1, hmember, Except.map]
    · exact (read_cons_of_member? (member?_withMember (c.takes_fit x) member)).mpr hread

/-- Where a value can be assigned, materializing it has the same result. -/
theorem materialize_of_assign (ha : ∀ x ∈ a, x.InBounds) (h : assign path v c a = .ok c') :
    materialize path v c a = .ok c' := by
  induction a generalizing c c' with
  | nil => exact h
  | cons x rest ih =>
    rw [List.forall_mem_cons] at ha
    obtain ⟨htakes, hstep⟩ := exists_of_assign_cons h
    rw [materialize_cons ha.1, memberOrZero, fit_of_takes htakes]
    obtain ⟨rfl, rfl⟩ | ⟨member, member', hmember, hmember', rfl⟩ := hstep
    · rw [materialize, Except.map]
    · rw [hmember, Option.getD_some, ih ha.2 hmember', Except.map]

end Value

end Logo
