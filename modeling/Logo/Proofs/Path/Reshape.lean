import Logo.Proofs.Path.InPlace

/-!
# Containers that change their kind

To make a member, materializing leads into an object at a field and into an array at an index. A
container of the other kind gives way to an empty one, and its members are lost. So what is read on
a path that parts from the one of the new member is kept exactly if both paths go on into the same
kind of container where they part.
-/

namespace Logo

/-- The kind of the containers that an accessor leads into. -/
def Accessor.container : Accessor → Kind
  | .field _ => .object
  | .index _ => .array

namespace Value

variable {path path' : String} {c c' u v w : Value} {x y : Accessor} {a b p rest : List Accessor}

/-! ## One accessor -/

/-- A container that takes a member at an accessor is of the kind that the accessor leads into. -/
theorem kind_of_takes (h : c.Takes x) : c.kind = x.container := by
  obtain ⟨fields, name, rfl, rfl⟩ | ⟨items, i, rfl, rfl, _⟩ := takes_cases h
  · rfl
  · rfl

/-- Putting a member in does not change the kind of a container. -/
theorem kind_withMember (c : Value) (x : Accessor) (v : Value) :
    (c.withMember x v).kind = c.kind := by
  unfold withMember
  split
  · rfl
  · split <;> rfl
  · rfl

/-- A member that is there does not count as zero. -/
theorem memberOrZero_of_member? (h : c.member? x = some v) : c.memberOrZero x = v := by
  rw [memberOrZero, fit_of_takes (takes_of_member? h), h, Option.getD_some]

/-- A container keeps its members when it is made to fit an accessor of its own kind. -/
theorem member?_fit (h : c.member? y = some v) (hxy : x.container = y.container) :
    (c.fit x).member? y = some v := by
  obtain ⟨fields, name, rfl, rfl⟩ | ⟨items, i, rfl, rfl, _⟩ := takes_cases (takes_of_member? h)
  · cases x with
    | field other => exact h
    | index j => cases hxy
  · cases x with
    | field other => cases hxy
    | index j =>
      have hitem : items[i]? = some v := h
      have hlt : i < items.length := (List.getElem?_eq_some_iff.mp hitem).1
      simp only [fit, itemsOrEmpty, padTo, member?]
      rw [List.getElem?_append_left hlt, hitem]

/-- An accessor cannot be applied to a value of another kind than it leads into. -/
theorem read_cons_of_kind_ne (h : c.kind ≠ y.container) (path : String) (rest : List Accessor) :
    c.read path (y :: rest) = .error (.invalidPath path (.cannotApply y c.kind)) := by
  cases c with
  | number | code => cases y <;> rfl
  | object fields =>
    cases y with
    | field name => exact absurd rfl h
    | index i => rfl
  | array items =>
    cases y with
    | field name => rfl
    | index i => exact absurd rfl h

/-! ## Lists of accessors -/

/-- Reading on a path goes on in the member that its first accessor leads to. -/
theorem read_cons_eq (h : c.member? x = some w) (path : String) (rest : List Accessor) :
    c.read path (x :: rest) = w.read path rest := by
  obtain ⟨fields, name, rfl, rfl⟩ | ⟨items, i, rfl, rfl, _⟩ := takes_cases (takes_of_member? h)
  · have hfield : fields.lookup name = some w := h
    simp only [read, hfield]
  · have hitem : items[i]? = some w := h
    simp only [read, hitem]

/-- Reading on a path goes on where reading on its beginning has come to. -/
theorem read_append (h : c.read path p = .ok u) (rest : List Accessor) :
    c.read path (p ++ rest) = u.read path rest := by
  induction p generalizing c with
  | nil =>
    cases h
    rfl
  | cons x p ih =>
    obtain ⟨member, hmember, hread⟩ := read_cons_eq_ok_iff.mp h
    rw [List.cons_append, read_cons_eq hmember, ih hread]

/-- What materializing does at its first accessor: it makes the container fit, and puts in the
member that it comes to. -/
theorem exists_of_materialize_cons (hx : x.InBounds)
    (h : materialize path v c (x :: rest) = .ok c') :
    ∃ member, materialize path v (c.memberOrZero x) rest = .ok member ∧
      c' = (c.fit x).withMember x member := by
  rw [materialize_cons hx] at h
  obtain ⟨member, hmember, rfl⟩ := map_eq_ok_iff.mp h
  exact ⟨member, hmember, rfl⟩

/-- On its way, materializing leaves containers of the kinds that its accessors lead into. -/
theorem exists_read_of_materialize (ha : ∀ x ∈ a, x.InBounds)
    (h : materialize path v c a = .ok c') (hp : p ++ [x] <+: a) (path' : String) :
    ∃ u, c'.read path' p = .ok u ∧ u.kind = x.container := by
  induction p generalizing a c c' with
  | nil =>
    obtain ⟨rest, rfl⟩ := hp
    rw [List.nil_append, List.singleton_append] at h ha
    obtain ⟨member, _, rfl⟩ := exists_of_materialize_cons (ha x List.mem_cons_self) h
    refine ⟨_, rfl, ?_⟩
    rw [kind_withMember, kind_of_takes (c.takes_fit x)]
  | cons z p ih =>
    cases a with
    | nil => simp at hp
    | cons z' rest =>
      obtain ⟨rfl, hp'⟩ := List.cons_prefix_cons.mp hp
      rw [List.forall_mem_cons] at ha
      obtain ⟨member, hmember, rfl⟩ := exists_of_materialize_cons ha.1 h
      obtain ⟨u, hread, hkind⟩ := ih ha.2 hmember hp'
      exact ⟨u, (read_cons_of_member? (member?_withMember (c.takes_fit z) member)).mpr hread, hkind⟩

/-- Where two paths part into containers of different kinds, nothing is read on the other one. -/
theorem read_of_materialize_of_container_ne (ha : ∀ x ∈ a, x.InBounds)
    (h : materialize path v c a = .ok c') (hx : p ++ [x] <+: a) (hy : p ++ [y] <+: b)
    (hxy : x.container ≠ y.container) (path' : String) :
    c'.read path' b = .error (.invalidPath path' (.cannotApply y x.container)) := by
  obtain ⟨u, hread, hkind⟩ := exists_read_of_materialize ha h hx path'
  obtain ⟨rest, rfl⟩ := hy
  rw [List.append_assoc, List.singleton_append, read_append hread, ← hkind]
  exact read_cons_of_kind_ne (by rwa [hkind]) path' rest

/-- Where two paths part into a container of one kind, what is read on the other one is kept. -/
theorem read_of_materialize_of_diverge (ha : ∀ x ∈ a, x.InBounds)
    (h : materialize path v c a = .ok c') (hab : ¬a <+: b) (hba : ¬b <+: a)
    (hsame : ∀ p x y, p ++ [x] <+: a → p ++ [y] <+: b → x.container = y.container)
    (hread : c.read path' b = .ok w) : c'.read path' b = .ok w := by
  induction a generalizing b c c' with
  | nil => exact absurd List.nil_prefix hab
  | cons x rest ih =>
    cases b with
    | nil => exact absurd List.nil_prefix hba
    | cons y other =>
      rw [List.forall_mem_cons] at ha
      obtain ⟨member', hmember', rfl⟩ := exists_of_materialize_cons ha.1 h
      obtain ⟨member, hmember, hrest⟩ := read_cons_eq_ok_iff.mp hread
      by_cases hxy : y = x
      · subst hxy
        rw [List.prefix_cons_inj] at hab hba
        rw [memberOrZero_of_member? hmember] at hmember'
        have hsame' p x y' (hx : p ++ [x] <+: rest) (hy : p ++ [y'] <+: other) :=
          hsame (y :: p) x y' ((List.prefix_cons_inj y).mpr hx) ((List.prefix_cons_inj y).mpr hy)
        rw [read_cons_of_member? (member?_withMember (c.takes_fit y) member')]
        exact ih ha.2 hmember' hab hba hsame' hrest
      · -- The paths part here, and the container has been made to fit the other accessor.
        have hkind : x.container = y.container := hsame [] x y (by simp) (by simp)
        have hkept : ((c.fit x).withMember x member').member? y = some member := by
          rw [member?_withMember_of_ne (c.takes_fit x) hxy, member?_fit hmember hkind]
        exact (read_cons_of_member? hkept).mpr hrest

end Value

/-- **A new member keeps what it does not reshape.** Let every index of a path be within the limit,
so that a member can be made there. What is read on a path that is neither a beginning nor a
continuation of this one is kept if and only if the accessors at which the two paths part lead into
containers of one kind; else the container has changed its kind and the other accessor cannot be
applied to it. A container on the way to the new member keeps its kind if and only if it is of the
kind that the next accessor leads into. -/
theorem materialize_keeps_members_iff (path path' : String) (c v : Value) (a : List Accessor)
    (ha : ∀ i, .index i ∈ a → i ≤ maxIndex) :
    ∃ c', Value.materialize path v c a = .ok c' ∧
      Value.materializeInPlace path v c a = (.ok (), c') ∧
      (∀ b w, ¬a <+: b → ¬b <+: a → c.read path' b = .ok w →
        (c'.read path' b = .ok w ↔
          ∀ p x y, p ++ [x] <+: a → p ++ [y] <+: b → x.container = y.container) ∧
        ∀ p x y, p ++ [x] <+: a → p ++ [y] <+: b → x.container ≠ y.container →
          c'.read path' b = .error (.invalidPath path' (.cannotApply y x.container))) ∧
      ∀ p x u, p ++ [x] <+: a → c.read path' p = .ok u →
        ∃ u', c'.read path' p = .ok u' ∧ (u'.kind = u.kind ↔ u.kind = x.container) := by
  have hbounds : ∀ x ∈ a, x.InBounds := by
    intro x hx
    cases x with
    | field name => trivial
    | index i => exact ha i hx
  obtain ⟨c', hmaterialize, _⟩ := Value.exists_materialize hbounds path path' v c
  have hlost {b p x y} (hx : p ++ [x] <+: a) (hy : p ++ [y] <+: b)
      (hxy : x.container ≠ y.container) :=
    Value.read_of_materialize_of_container_ne hbounds hmaterialize hx hy hxy path'
  refine ⟨c', hmaterialize, Value.materializeInPlace_of_materialize hmaterialize, ?_, ?_⟩
  · intro b w hab hba hread
    refine ⟨⟨fun hkept p x y hx hy => ?_, fun hsame => ?_⟩, fun p x y hx hy hxy => hlost hx hy hxy⟩
    · refine Decidable.byContradiction fun hxy => ?_
      rw [hlost hx hy hxy] at hkept
      cases hkept
    · exact Value.read_of_materialize_of_diverge hbounds hmaterialize hab hba hsame hread
  · intro p x u hx _
    obtain ⟨u', hread, hkind⟩ := Value.exists_read_of_materialize hbounds hmaterialize hx path'
    exact ⟨u', hread, by rw [hkind]; exact eq_comm⟩

/-- A list in an object grows, and its other items are kept. Where the same list is given a field,
it becomes an object, and its items are lost. -/
theorem materialize_keeps_members_iff_list :
    let c : Value := .object [("list", .array [.object [], .array []]), ("name", .object [])]
    let b : List Accessor := [.field "list", .index 1]
    c.read "list[1]" b = .ok (.array []) ∧
      (∃ c', Value.materialize "list[3]" (.object []) c [.field "list", .index 3] = .ok c' ∧
        c'.read "list[1]" b = .ok (.array [])) ∧
      ∃ c', Value.materialize "list.size" (.object []) c [.field "list", .field "size"] = .ok c' ∧
        c'.read "list[1]" b =
          .error (.invalidPath "list[1]" (.cannotApply (.index 1) .object)) := by
  intro c b
  have hread : c.read "list[1]" b = .ok (.array []) := rfl
  obtain ⟨grown, hgrown, _, hkeep, _⟩ := materialize_keeps_members_iff "list[3]" "list[1]" c
    (.object []) [.field "list", .index 3] (by simp [maxIndex])
  obtain ⟨reshaped, hreshaped, _, hlose, _⟩ := materialize_keeps_members_iff "list.size" "list[1]" c
    (.object []) [.field "list", .field "size"] (by simp)
  refine ⟨hread, ⟨grown, hgrown, ?_⟩, reshaped, hreshaped, ?_⟩
  · refine (hkeep b _ (by decide) (by decide) hread).1.mpr fun p x y hx hy => ?_
    -- The paths part at the second accessor, which is an index in both.
    rcases p with _ | ⟨first, _ | ⟨second, p⟩⟩
    · simp only [b, List.nil_append, List.cons_prefix_cons] at hx hy
      rw [hx.1, hy.1]
    · simp only [b, List.cons_append, List.nil_append, List.cons_prefix_cons] at hx hy
      rw [hx.2.1, hy.2.1]
      rfl
    · have hlength := hx.length_le
      simp at hlength
  · exact (hlose b _ (by decide) (by decide) hread).2 [.field "list"] (.field "size") (.index 1)
      (by decide) (by decide) (by decide)

/-- A field that is made in an array leaves nothing of its items. -/
theorem new_field_drops_items :
    let c : Value := .array [.number 1, .number 2]
    let a : List Accessor := [.field "a"]
    let b : List Accessor := [.index 0]
    ¬a <+: b ∧ ¬b <+: a ∧ c.read "x[0]" b = .ok (.number 1) ∧
      ∃ c', Value.materialize "x.a" (.number 7) c a = .ok c' ∧
        c'.read "x[0]" b = .error (.invalidPath "x[0]" (.cannotApply (.index 0) .object)) :=
  ⟨by decide, by decide, rfl, .object [("a", .number 7)], rfl, rfl⟩

end Logo
