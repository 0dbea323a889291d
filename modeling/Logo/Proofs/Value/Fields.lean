import Logo.Value.Basic

/-!
# Fields by name

A value that is put under a name takes the place of the one that is there, and else comes last. It
is found under this name, and all other names are found as before. A second value under the same
name leaves no trace of the first, and the value that is there already changes nothing.
-/

namespace Logo

variable {α : Type} {fields : List (String × α)} {name : String}

/-- A field is found exactly if there is one of the name. -/
theorem lookup_isSome_iff :
    (fields.lookup name).isSome = true ↔ name ∈ fields.map Prod.fst := by
  simp [List.lookup_isSome_iff]

/-- A field that is found has the property of all fields. -/
theorem of_lookup_eq_some {Q : α → Prop} (h : ∀ field ∈ fields, Q field.2) {v : α}
    (hv : fields.lookup name = some v) : Q v := by
  obtain ⟨before, after, rfl, _⟩ := List.lookup_eq_some_iff.mp hv
  exact h (name, v) (by simp)

/-- A name that is there keeps its place, and a new one comes last. -/
theorem map_fst_putField (fields : List (String × α)) (name : String) (v : α) :
    (putField fields name v).map Prod.fst =
      if name ∈ fields.map Prod.fst then fields.map Prod.fst else fields.map Prod.fst ++ [name] := by
  induction fields with
  | nil => rfl
  | cons field rest ih =>
    obtain ⟨key, old⟩ := field
    by_cases hkey : key = name
    · simp [putField, hkey]
    · simp only [putField, if_neg hkey, List.map_cons, ih, List.mem_cons, Ne.symm hkey, false_or]
      split
      · rfl
      · rfl

/-- What is true of all values of some fields and of a new value stays true when the value is put
in. -/
theorem forall_putField {Q : α → Prop} (h : ∀ field ∈ fields, Q field.2) {v : α} (hv : Q v) :
    ∀ field ∈ putField fields name v, Q field.2 := by
  induction fields with
  | nil => simpa [putField] using hv
  | cons field rest ih =>
    obtain ⟨key, old⟩ := field
    rw [List.forall_mem_cons] at h
    unfold putField
    split
    · exact List.forall_mem_cons.mpr ⟨hv, h.2⟩
    · exact List.forall_mem_cons.mpr ⟨h.1, ih h.2⟩

/-- A field that was put in is found with its new value, and each other one as before. -/
theorem lookup_putField (fields : List (String × α)) (name other : String) (v : α) :
    (putField fields name v).lookup other =
      if other = name then some v else fields.lookup other := by
  induction fields with
  | nil =>
    by_cases hother : other = name
    · simp [putField, hother]
    · simp [putField, List.lookup_cons, hother, beq_eq_false_iff_ne.mpr hother]
  | cons field rest ih =>
    obtain ⟨key, old⟩ := field
    by_cases hkey : key = name
    · subst hkey
      by_cases hother : other = key
      · simp [putField, hother]
      · simp [putField, List.lookup_cons, hother, beq_eq_false_iff_ne.mpr hother]
    · rw [putField, if_neg hkey, List.lookup_cons, List.lookup_cons, ih]
      by_cases hother : other = key
      · subst hother
        simp [hkey]
      · simp [beq_eq_false_iff_ne.mpr hother]

/-- The last value that is put under a name counts. -/
theorem putField_putField (fields : List (String × α)) (name : String) (v w : α) :
    putField (putField fields name v) name w = putField fields name w := by
  induction fields with
  | nil => simp [putField]
  | cons field rest ih =>
    obtain ⟨key, old⟩ := field
    by_cases hkey : key = name
    · simp [putField, hkey]
    · rw [putField, if_neg hkey, putField, if_neg hkey, putField, if_neg hkey, ih]

/-- Fields do not change if the value that is there is put under its name. -/
theorem putField_of_lookup {v : α} (h : fields.lookup name = some v) :
    putField fields name v = fields := by
  induction fields with
  | nil => cases h
  | cons field rest ih =>
    obtain ⟨key, old⟩ := field
    by_cases hkey : key = name
    · have hold : old = v := by simpa [List.lookup_cons, hkey] using h
      simp [putField, hkey, hold]
    · have hrest : rest.lookup name = some v := by
        simpa [List.lookup_cons, beq_eq_false_iff_ne.mpr (Ne.symm hkey)] using h
      rw [putField, if_neg hkey, ih hrest]

end Logo
