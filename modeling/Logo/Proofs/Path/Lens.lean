import Logo.Path.Access
import Logo.Proofs.Eval
import Logo.Proofs.Value.Fields
import Mathlib.Data.Nat.Notation

/-!
# Reading and assigning members

One accessor leads from a container to a member, and a container takes a member at some accessors:
an object at every field, an array at its indexes and right behind its last item. For one accessor,
reading a member and putting one in obey the laws of a lens. Reading and assigning go from member to
member along a path, so they obey the same laws for any list of accessors.
-/

namespace Logo

namespace Value

/-! ## One accessor -/

/-- The member that an accessor leads to. -/
def member? : Value → Accessor → Option Value
  | object fields, .field name => fields.lookup name
  | array items, .index i => items[i]?
  | _, _ => none

/-- Whether a value is a container that takes a member at an accessor. -/
def Takes : Value → Accessor → Prop
  | object _, .field _ => True
  | array items, .index i => i ≤ items.length
  | _, _ => False

/-- The container with a member put in. The index behind the last item makes an array longer. -/
def withMember : Value → Accessor → Value → Value
  | object fields, .field name, v => object (putField fields name v)
  | array items, .index i, v =>
    if i = items.length then array (items ++ [v]) else array (items.set i v)
  | c, _, _ => c

variable {c v w : Value} {x y : Accessor}

/-- An object takes a member at each name, and an array at each index up to the one behind its last
item. -/
theorem takes_cases (h : c.Takes x) :
    (∃ fields name, c = object fields ∧ x = .field name) ∨
      ∃ items i, c = array items ∧ x = .index i ∧ i ≤ items.length := by
  cases c with
  | number | code => cases x <;> cases h
  | object fields =>
    cases x with
    | field name => exact .inl ⟨fields, name, rfl, rfl⟩
    | index i => cases h
  | array items =>
    cases x with
    | field name => cases h
    | index i => exact .inr ⟨items, i, rfl, rfl, h⟩

/-- A container takes a member where it has one. -/
theorem takes_of_member? (h : c.member? x = some v) : c.Takes x := by
  cases c with
  | number | code => cases h
  | object fields =>
    cases x with
    | field name => trivial
    | index i => cases h
  | array items =>
    cases x with
    | field name => cases h
    | index i =>
      have hlt : i < items.length := (List.getElem?_eq_some_iff.mp h).1
      exact Nat.le_of_lt hlt

/-- What is put in is found at its accessor. -/
theorem member?_withMember (h : c.Takes x) (v : Value) : (c.withMember x v).member? x = some v := by
  obtain ⟨fields, name, rfl, rfl⟩ | ⟨items, i, rfl, rfl, hi⟩ := takes_cases h
  · simp [withMember, member?, lookup_putField]
  · by_cases hend : i = items.length
    · simp [withMember, member?, hend]
    · have hlt : i < items.length := by omega
      simp [withMember, member?, hend, hlt]

/-- What is put in makes no difference to the members at other accessors. -/
theorem member?_withMember_of_ne (h : c.Takes x) (hne : y ≠ x) (v : Value) :
    (c.withMember x v).member? y = c.member? y := by
  obtain ⟨fields, name, rfl, rfl⟩ | ⟨items, i, rfl, rfl, hi⟩ := takes_cases h
  · cases y with
    | index j => rfl
    | field other =>
      have hother : other ≠ name := fun heq => hne (by rw [heq])
      simp [withMember, member?, lookup_putField, hother]
  · cases y with
    | field other => simp only [withMember]; split <;> rfl
    | index j =>
      have hj : j ≠ i := fun heq => hne (by rw [heq])
      by_cases hend : i = items.length
      · have happend : (items ++ [v])[j]? = items[j]? := by
          rcases Nat.lt_or_ge j items.length with hlt | hge
          · exact List.getElem?_append_left hlt
          · have hbehind : (items ++ [v]).length ≤ j := by simp; omega
            rw [List.getElem?_eq_none hbehind, List.getElem?_eq_none hge]
        simp [withMember, member?, hend, happend]
      · simp [withMember, member?, hend, List.getElem?_set_ne hj.symm]

/-- The member that is put in last counts. -/
theorem withMember_withMember (h : c.Takes x) (v w : Value) :
    (c.withMember x v).withMember x w = c.withMember x w := by
  obtain ⟨fields, name, rfl, rfl⟩ | ⟨items, i, rfl, rfl, hi⟩ := takes_cases h
  · simp [withMember, putField_putField]
  · by_cases hend : i = items.length
    · simp [withMember, hend]
    · simp [withMember, hend]

/-- A container does not change if a member is put in that is there. -/
theorem withMember_of_member? (h : c.member? x = some v) : c.withMember x v = c := by
  obtain ⟨fields, name, rfl, rfl⟩ | ⟨items, i, rfl, rfl, _⟩ := takes_cases (takes_of_member? h)
  · rw [withMember, putField_of_lookup h]
  · obtain ⟨hlt, rfl⟩ := List.getElem?_eq_some_iff.mp h
    have hend : i ≠ items.length := Nat.ne_of_lt hlt
    simp [withMember, hend]

/-! ## Lists of accessors -/

variable {path path' : String} {rest : List Accessor} {c' member : Value}

/-- Reading goes on in the member that the first accessor leads to. -/
theorem read_cons_eq_ok_iff : c.read path (x :: rest) = .ok v ↔
    ∃ member, c.member? x = some member ∧ member.read path rest = .ok v := by
  cases c with
  | number | code => simp [read, member?]
  | object fields =>
    cases x with
    | index i => simp [read, member?]
    | field name =>
      simp only [read, member?]
      cases fields.lookup name with
      | none => simp
      | some member => simp
  | array items =>
    cases x with
    | field name => simp [read, member?]
    | index i =>
      simp only [read, member?]
      cases items[i]? with
      | none => simp
      | some member => simp

/-- Reading on a path goes on in the member that its first accessor leads to. -/
theorem read_cons_of_member? (h : c.member? x = some member) :
    c.read path (x :: rest) = .ok v ↔ member.read path rest = .ok v := by
  rw [read_cons_eq_ok_iff, h]
  simp

/-- At its last accessor, an assignment puts the value in where the container takes it. -/
theorem assign_singleton (h : c.Takes x) (path : String) (v : Value) :
    assign path v c [x] = .ok (c.withMember x v) := by
  obtain ⟨fields, name, rfl, rfl⟩ | ⟨items, i, rfl, rfl, hi⟩ := takes_cases h
  · rfl
  · by_cases hend : i = items.length
    · simp [assign, withMember, hend]
    · have hlt : i < items.length := by omega
      simp [assign, withMember, hend, hlt, Except.map]

/-- An assignment goes on in a member that is there, which is then put back. -/
theorem assign_cons_of_member? (h : c.member? x = some member) (path : String) (v : Value)
    (rest : List Accessor) :
    assign path v c (x :: rest) = (assign path v member rest).map (c.withMember x) := by
  cases rest with
  | nil =>
    rw [assign_singleton (takes_of_member? h), assign]
    rfl
  | cons y rest =>
    obtain ⟨fields, name, rfl, rfl⟩ | ⟨items, i, rfl, rfl, _⟩ := takes_cases (takes_of_member? h)
    · have hmember : fields.lookup name = some member := h
      simp only [assign, List.isEmpty_cons, Bool.false_eq_true, if_false, hmember]
      rfl
    · have hmember : items[i]? = some member := h
      have hend : i ≠ items.length := Nat.ne_of_lt (List.getElem?_eq_some_iff.mp hmember).1
      have hput : (array items).withMember (.index i) = fun u => array (items.set i u) :=
        funext fun u => if_neg hend
      simp only [assign, List.isEmpty_cons, Bool.false_and, Bool.false_eq_true, if_false, hmember,
        hput]

/-- What an assignment does at its first accessor: it puts the value in, if this accessor is the
last one, or it goes on in a member that is there. -/
theorem exists_of_assign_cons (h : assign path v c (x :: rest) = .ok c') :
    c.Takes x ∧ ((rest = [] ∧ c' = c.withMember x v) ∨ ∃ member member',
      c.member? x = some member ∧ assign path v member rest = .ok member' ∧
        c' = c.withMember x member') := by
  cases hmember : c.member? x with
  | some member =>
    rw [assign_cons_of_member? hmember] at h
    obtain ⟨member', hmember', rfl⟩ := map_eq_ok_iff.mp h
    exact ⟨takes_of_member? hmember, .inr ⟨member, member', rfl, hmember', rfl⟩⟩
  | none =>
    -- Nothing is there to go on in, so the container takes the value or the assignment fails.
    have hlast : c.Takes x ∧ rest = [] := by
      cases c with
      | number | code => simp [assign] at h
      | object fields =>
        cases x with
        | index i => cases h
        | field name =>
          have hlookup : fields.lookup name = none := hmember
          cases rest with
          | nil => exact ⟨trivial, rfl⟩
          | cons y rest => simp [assign, hlookup] at h
      | array items =>
        cases x with
        | field name => cases h
        | index i =>
          have hitem : items[i]? = none := hmember
          cases rest with
          | cons y rest => simp [assign, hitem] at h
          | nil =>
            by_cases hend : i = items.length
            · exact ⟨Nat.le_of_eq hend, rfl⟩
            · simp [assign, hitem, hend] at h
    obtain ⟨htakes, rfl⟩ := hlast
    rw [assign_singleton htakes] at h
    exact ⟨htakes, .inl ⟨rfl, (Except.ok.inj h).symm⟩⟩

/-- What is assigned is read. -/
theorem read_of_assign {a : List Accessor} (h : assign path v c a = .ok c') :
    c'.read path' a = .ok v := by
  induction a generalizing c c' with
  | nil =>
    cases h
    rfl
  | cons x rest ih =>
    obtain ⟨htakes, ⟨rfl, rfl⟩ | ⟨member, member', _, hmember', rfl⟩⟩ := exists_of_assign_cons h
    · exact (read_cons_of_member? (member?_withMember htakes v)).mpr rfl
    · exact (read_cons_of_member? (member?_withMember htakes member')).mpr (ih hmember')

/-- A second assignment overwrites the first one. -/
theorem assign_of_assign {a : List Accessor} (h : assign path v c a = .ok c') (w : Value) :
    ∃ c'', assign path w c' a = .ok c'' ∧ assign path w c a = .ok c'' := by
  induction a generalizing c c' with
  | nil => exact ⟨w, rfl, rfl⟩
  | cons x rest ih =>
    obtain ⟨htakes, ⟨rfl, rfl⟩ | ⟨member, member', hmember, hmember', rfl⟩⟩ :=
      exists_of_assign_cons h
    · have hthere := member?_withMember htakes v
      refine ⟨c.withMember x w, ?_, assign_singleton htakes path w⟩
      rw [assign_singleton (takes_of_member? hthere), withMember_withMember htakes]
    · obtain ⟨member'', hagain, honce⟩ := ih hmember'
      refine ⟨c.withMember x member'', ?_, ?_⟩
      · rw [assign_cons_of_member? (member?_withMember htakes member'), hagain, Except.map,
          withMember_withMember htakes]
      · rw [assign_cons_of_member? hmember, honce, Except.map]

/-- An assignment of what is there changes nothing. -/
theorem assign_of_read {a : List Accessor} (h : c.read path' a = .ok v) :
    assign path v c a = .ok c := by
  induction a generalizing c with
  | nil =>
    cases h
    rfl
  | cons x rest ih =>
    obtain ⟨member, hmember, hread⟩ := read_cons_eq_ok_iff.mp h
    rw [assign_cons_of_member? hmember, ih hread, Except.map, withMember_of_member? hmember]

/-- An assignment makes no difference to what is read on a path that parts from its own one. -/
theorem read_of_assign_of_diverge {a b : List Accessor} (h : assign path v c a = .ok c')
    (hab : ¬a <+: b) (hba : ¬b <+: a) (u : Value) :
    c'.read path' b = .ok u ↔ c.read path' b = .ok u := by
  -- Along the common part of the paths the assignment goes on in a member that is there; where
  -- the paths part, it puts a member in at another accessor.
  induction a generalizing b c c' with
  | nil => exact absurd List.nil_prefix hab
  | cons x rest ih =>
    cases b with
    | nil => exact absurd List.nil_prefix hba
    | cons y other =>
      obtain ⟨htakes, hstep⟩ := exists_of_assign_cons h
      by_cases hxy : y = x
      · subst hxy
        rw [List.prefix_cons_inj] at hab hba
        obtain ⟨rfl, _⟩ | ⟨member, member', hmember, hmember', rfl⟩ := hstep
        · exact absurd List.nil_prefix hab
        · rw [read_cons_of_member? (member?_withMember htakes member'),
            read_cons_of_member? hmember]
          exact ih hmember' hab hba
      · have hkept : c'.member? y = c.member? y := by
          obtain ⟨_, rfl⟩ | ⟨_, member', _, _, rfl⟩ := hstep
          · exact member?_withMember_of_ne htakes hxy v
          · exact member?_withMember_of_ne htakes hxy member'
        rw [read_cons_eq_ok_iff, read_cons_eq_ok_iff, hkept]

/-- **Reading and assigning are a lens.** After an assignment, its value is read at its path; a
second assignment at the same path leads to the value that it leads to without the first one, with
all fields in the same order; and at a path that is neither a beginning nor a continuation of this
one, the same values are read as before, and no others. An assignment of the value that is read at
a path has no effect. -/
theorem read_and_assign_are_lens (path path' : String) (c v w : Value) (a : List Accessor) :
    (∀ c', assign path v c a = .ok c' →
      c'.read path' a = .ok v ∧
      (∃ c'', assign path w c' a = .ok c'' ∧ assign path w c a = .ok c'') ∧
      ∀ b, ¬a <+: b → ¬b <+: a → ∀ u, c'.read path' b = .ok u ↔ c.read path' b = .ok u) ∧
    (c.read path' a = .ok v → assign path v c a = .ok c) :=
  ⟨fun _ h => ⟨read_of_assign h, assign_of_assign h w, fun _ hab hba =>
    read_of_assign_of_diverge h hab hba⟩, assign_of_read⟩

/-- An array inside an object grows by an item, which is then replaced; its other item and a later
field stay. -/
theorem read_and_assign_are_lens_grown :
    let c := object [("list", array [object []]), ("last", array [])]
    let c' := object [("list", array [object [], array []]), ("last", array [])]
    let a : List Accessor := [.field "list", .index 1]
    assign "list[1]" (array []) c a = .ok c' ∧ c'.read "list[1]" a = .ok (array []) ∧
      (∃ c'', assign "list[1]" (object []) c' a = .ok c'' ∧
        assign "list[1]" (object []) c a = .ok c'') ∧
      (∀ u, c'.read "list[0]" [.field "list", .index 0] = .ok u ↔
        c.read "list[0]" [.field "list", .index 0] = .ok u) ∧
      assign "list[1]" (array []) c' a = .ok c' := by
  intro c c' a
  have hassign : assign "list[1]" (array []) c a = .ok c' := rfl
  have hb : ¬a <+: [.field "list", .index 0] := by decide
  have hb' : ¬[.field "list", .index 0] <+: a := by decide
  obtain ⟨hread, hagain, _⟩ :=
    (read_and_assign_are_lens "list[1]" "list[1]" c (array []) (object []) a).1 c' hassign
  have hkeep := ((read_and_assign_are_lens "list[1]" "list[0]" c (array []) (object []) a).1 c'
    hassign).2.2 _ hb hb'
  exact ⟨hassign, hread, hagain, hkeep,
    (read_and_assign_are_lens "list[1]" "list[1]" c' (array []) (object []) a).2 hread⟩

end Value

end Logo
