import Logo.Proofs.Interpreter.Action
import Logo.Proofs.Path.Bounds
import Logo.Proofs.Path.InPlace
import Logo.Proofs.Store.Access

/-!
# Writes to the store

A variable can be set where it is, or made in a frame, which makes room for every member on the way.
In a frame that has the variable, what can be set can be made with the same result. The writes can
be done in the frames themselves, cell by cell: setting looks for the cell of the holder, and making
puts a zero into a new cell before it goes on in it. What is done in this way is all or nothing. A
path that has been read names no index above the limit, so making a variable fails only if its path
cannot be read.
-/

namespace Logo

namespace Store

variable {s s' : Store} {effort : ℕ} {id : FrameId} {path name : String} {v cell : Value}
  {resolved : Path}

/-! ## Setting and making -/

/-- The chain of a frame starts with the frame. -/
theorem chain_of_frame? {fs : List Frame} {f : Frame} (h : fs.find? (·.id = id) = some f) :
    ∃ further, Frame.chain fs (some id) = f :: further := by
  induction fs with
  | nil => cases h
  | cons g fs ih =>
    rw [Frame.chain]
    by_cases hid : g.id = id
    · rw [List.find?_cons_of_pos (by simpa using hid), Option.some.injEq] at h
      rw [if_pos hid, h]
      exact ⟨_, rfl⟩
    · rw [List.find?_cons_of_neg (by simpa using hid)] at h
      rw [if_neg hid]
      exact ih h

/-- A frame that has a variable is its holder, seen from there. -/
theorem exists_holder?_of_own? (h : s.own? id name = some cell) :
    ∃ f, s.holder? id name = some f ∧ f.id = id ∧ f.cells.lookup name = some cell := by
  obtain ⟨f, hf, hcell⟩ := Option.bind_eq_some_iff.mp h
  obtain ⟨further, hchain⟩ := chain_of_frame? hf
  have hid : f.id = id := by simpa using List.find?_some hf
  have hfind : f.find? name = some cell := by rw [Frame.find?, hcell]
  refine ⟨f, ?_, hid, hcell⟩
  rw [holder?, chain, hchain, List.find?_cons_of_pos (by rw [hfind]; rfl)]

/-- A creation writes the cell that is made from the one there was, or from zero. -/
theorem create_of_materialize (hresolved : s.resolve effort id path = pure resolved)
    (h : Value.materialize path v ((s.own? id resolved.base).getD (.number 0.0))
      resolved.accessors = .ok cell) :
    s.create effort id path v = pure (s.write id resolved.base cell) := by
  rw [create, hresolved, pure_bind]
  dsimp only
  rw [h, Eval.liftM_ok_bind]

/-- What can be set in a variable of the frame itself can be made there. -/
theorem create_of_set (hresolved : s.resolve effort id path = pure resolved)
    (hcell : s.own? id resolved.base = some cell) (ha : ∀ x ∈ resolved.accessors, x.InBounds)
    (h : s.set effort id path v = pure s') : s.create effort id path v = pure s' := by
  obtain ⟨resolved', f, cell', new, hresolved', hholder, hlookup, hassign, rfl⟩ := exists_of_set h
  obtain rfl : resolved' = resolved := Eval.pure_inj.mp (hresolved'.symm.trans hresolved)
  obtain ⟨f', hholder', hid, hlookup'⟩ := exists_holder?_of_own? hcell
  obtain rfl : f = f' := Option.some.inj (hholder.symm.trans hholder')
  obtain rfl : cell = cell' := Option.some.inj (hlookup'.symm.trans hlookup)
  have hmaterialize := Value.materialize_of_assign ha hassign
  rw [hid]
  exact create_of_materialize hresolved (by rw [hcell, Option.getD_some, hmaterialize])

end Store

/-- **Materializing extends assigning.** Let every index of a path be within the limit. Then a value
can be materialized there, whatever the cell holds, also step by step in place. It is read there
afterwards, and to materialize it again changes nothing. If it can be assigned there, the result is
the same cell, so that making a variable in a frame that has it agrees with setting it. -/
theorem materialize_extends_assign (path path' : String) (c v : Value) (a : List Accessor)
    (ha : ∀ i, .index i ∈ a → i ≤ maxIndex) :
    ∃ c', Value.materialize path v c a = .ok c' ∧
      Value.materializeInPlace path v c a = (.ok (), c') ∧
      c'.read path' a = .ok v ∧
      Value.materialize path v c' a = .ok c' ∧
      (∀ c'', Value.assign path v c a = .ok c'' → c'' = c') ∧
      ∀ (s s' : Store) (effort : ℕ) (id : FrameId) (base : String),
        s.resolve effort id path = pure ⟨base, a⟩ → s.own? id base = some c →
        s.set effort id path v = pure s' → s.create effort id path v = pure s' := by
  have hbounds : ∀ x ∈ a, x.InBounds := by
    intro x hx
    cases x with
    | field name => trivial
    | index i => exact ha i hx
  obtain ⟨c', hmaterialize, hread⟩ := Value.exists_materialize hbounds path path' v c
  refine ⟨c', hmaterialize, Value.materializeInPlace_of_materialize hmaterialize, hread, ?_, ?_, ?_⟩
  · exact Value.materialize_of_assign hbounds (Value.assign_of_read hread)
  · intro c'' hassign
    have hsame := Value.materialize_of_assign hbounds hassign
    exact Except.ok.inj (hsame.symm.trans hmaterialize)
  · intro s s' effort id base hresolved hcell hset
    exact Store.create_of_set hresolved hcell hbounds hset

/-- A list is made in a member that is not there; and where it is put into an object at a new field,
making and setting agree. -/
theorem materialize_extends_assign_list :
    let s : Store := { frames := [⟨0, none, none, [("x", .object [])]⟩], next := 1 }
    let a : List Accessor := [.field "list", .index 2]
    (∃ c', Value.materialize "x.list[2]" (.object []) (.number 0.0) a = .ok c' ∧
      c'.read "x.list[2]" a = .ok (.object [])) ∧
      ∃ s', s.set 1 0 "x.list" (.array []) = pure s' ∧ s.create 1 0 "x.list" (.array []) = pure s' := by
  intro s a
  have ha : ∀ i, .index i ∈ a → i ≤ maxIndex := by simp [a, maxIndex]
  obtain ⟨c', hmaterialize, _, hread, _⟩ :=
    materialize_extends_assign "x.list[2]" "x.list[2]" (.number 0.0) (.object []) a ha
  have hresolved : s.resolve 1 0 "x.list" = pure ⟨"x", [.field "list"]⟩ := by
    have hrun : (s.resolve 1 0 "x.list").run = some (.ok ⟨"x", [.field "list"]⟩) := by
      decide +kernel
    exact hrun
  have hset : s.set 1 0 "x.list" (.array []) = pure (s.write 0 "x" (.object [("list", .array [])])) :=
    Store.set_of_cell hresolved (Store.holder?_eq_some_iff.mp rfl) rfl _
  obtain ⟨_, _, _, _, _, _, hcreate⟩ := materialize_extends_assign "x.list" "x.list" (.object [])
    (.array []) [.field "list"] (by simp)
  exact ⟨⟨c', hmaterialize, hread⟩, _, hset, hcreate s _ 1 0 "x" hresolved rfl hset⟩

/-! ## Writes in place -/

namespace Store

/-- Reads a path, and then writes where it leads to. -/
def writeInPlace (s : Store) (path : Eval Path) (write : Path → Except Fault Unit × Store) :
    Option (Except Fault Unit × Store) :=
  path.run.map fun
    | .error fault => (.error fault, s)
    | .ok resolved => write resolved

/-- Sets a variable, or a member of one, in the cell of its holder. -/
def setInPlace (s : Store) (effort : ℕ) (frame : FrameId) (path : String) (v : Value) :
    Option (Except Fault Unit × Store) :=
  s.writeInPlace (s.resolve effort frame path) fun resolved =>
    match s.holder? frame resolved.base with
    | none => (.error (.missingVariable resolved.base), s)
    | some f =>
      match f.cells.lookup resolved.base with
      | none => (.error (.readOnlyVariable resolved.base), s)
      | some cell =>
        (Value.assignInPlace path v cell resolved.accessors).map id (s.write f.id resolved.base)

/-- The store with a cell for a name in a frame: a new one holds zero. -/
def reserve (s : Store) (frame : FrameId) (name : String) : Store :=
  if (s.own? frame name).isSome then s else s.write frame name (.number 0.0)

/-- Makes a variable, or a member of one, in a cell of a frame. -/
def createInPlace (s : Store) (effort : ℕ) (frame : FrameId) (path : String) (v : Value) :
    Option (Except Fault Unit × Store) :=
  s.writeInPlace (s.resolve effort frame path) fun resolved =>
    if resolved.accessors.isEmpty then (.ok (), s.write frame resolved.base v)
    else
      let s := s.reserve frame resolved.base
      (Value.materializeInPlace path v ((s.own? frame resolved.base).getD (.number 0.0))
        resolved.accessors).map id (s.write frame resolved.base)

variable {s : Store} {effort : ℕ} {id : FrameId} {path name : String} {v cell : Value}
  {resolved : Path}

/-- A cell that is written again holds what is written last. -/
theorem write_write (s : Store) (id : FrameId) (name : String) (v w : Value) :
    (s.write id name v).write id name w = s.write id name w := by
  simp only [write, List.map_map, Store.mk.injEq, and_true]
  refine List.map_congr_left fun f _ => ?_
  by_cases hid : f.id = id
  · simp [hid, putField_putField]
  · simp [hid]

/-- A write of what a cell holds changes nothing. -/
theorem write_of_lookup (hs : s.Ordered) {f : Frame} (hf : f ∈ s.frames)
    (hcell : f.cells.lookup name = some cell) : s.write f.id name cell = s := by
  have hframes : (s.frames.map fun g =>
      if g.id = f.id then { g with cells := putField g.cells name cell } else g) = s.frames := by
    conv_rhs => rw [← List.map_id s.frames]
    refine List.map_congr_left fun g hg => ?_
    by_cases hid : g.id = f.id
    · obtain rfl := hs.eq_of_id hg hf hid
      rw [if_pos rfl, putField_of_lookup hcell]
      rfl
    · exact if_neg hid
  rw [write, hframes]

/-- Making a cell for a name first makes no difference to a value that is written there. -/
theorem write_reserve (s : Store) (id : FrameId) (name : String) (v : Value) :
    (s.reserve id name).write id name v = s.write id name v := by
  rw [reserve]
  split
  · rfl
  · exact write_write s id name _ v

/-- A cell that was made for a name holds zero, as a missing one counts. -/
theorem getD_own?_reserve (s : Store) (id : FrameId) (name : String) :
    ((s.reserve id name).own? id name).getD (.number 0.0) =
      (s.own? id name).getD (.number 0.0) := by
  cases hown : s.own? id name with
  | some cell => simp [reserve, hown]
  | none =>
    rw [reserve, hown, if_neg (by simp)]
    by_cases hlive : ∃ f ∈ s.frames, f.id = id
    · obtain ⟨f, hf, rfl⟩ := hlive
      rw [own?_write hf, if_pos ⟨rfl, rfl⟩]
      rfl
    · have hnone : ∀ f ∈ s.frames, f.id ≠ id := fun f hf hid => hlive ⟨f, hf, hid⟩
      rw [write_of_not_mem hnone, hown]

/-- A write in place is all or nothing if it is so wherever the path leads to. -/
theorem writeInPlace_eq {path : Eval Path} {write : Path → Except Fault Unit × Store}
    {next : Path → Eval Store} (h : ∀ resolved, path = pure resolved →
      some (write resolved) = (next resolved).run.map (allOrNothing s)) :
    s.writeInPlace path write = (path >>= next).run.map (allOrNothing s) := by
  rcases path with _ | _ | resolved
  · rfl
  · rfl
  · exact h resolved rfl

/-- On a store whose frames are in order, an assignment in place is made as a whole or not at all.
-/
theorem setInPlace_eq (hs : s.Ordered) (effort : ℕ) (id : FrameId) (path : String) (v : Value) :
    s.setInPlace effort id path v = (s.set effort id path v).run.map (allOrNothing s) := by
  refine writeInPlace_eq fun resolved _ => ?_
  cases hholder : s.holder? id resolved.base with
  | none => rfl
  | some f =>
    dsimp only
    cases hcell : f.cells.lookup resolved.base with
    | none => rfl
    | some cell =>
      dsimp only
      rw [Value.assignInPlace_eq]
      cases Value.assign path v cell resolved.accessors with
      | ok cell' => rfl
      | error fault =>
        have hback := write_of_lookup hs (holder?_spec hholder).1 hcell
        rw [allOrNothing, Prod.map_apply, hback]
        rfl

/-- A path that has been read makes no write fail. -/
theorem exists_materialize_of_resolve (h : s.resolve effort id path = pure resolved)
    (v cell : Value) : ∃ cell', Value.materialize path v cell resolved.accessors = .ok cell' := by
  obtain ⟨cell', hcell', _⟩ :=
    Value.exists_materialize (Path.inBounds_of_resolve h) path path v cell
  exact ⟨cell', hcell'⟩

/-- A creation in place is made as a whole or not at all. -/
theorem createInPlace_eq (s : Store) (effort : ℕ) (id : FrameId) (path : String) (v : Value) :
    s.createInPlace effort id path v = (s.create effort id path v).run.map (allOrNothing s) := by
  refine writeInPlace_eq fun resolved hresolved => ?_
  obtain ⟨cell', hcell'⟩ := exists_materialize_of_resolve hresolved v
    ((s.own? id resolved.base).getD (.number 0.0))
  dsimp only
  rw [hcell', Eval.liftM_ok_bind]
  split
  · next hplain =>
    rw [List.isEmpty_iff] at hplain
    rw [hplain] at hcell'
    cases hcell'
    rfl
  · rw [getD_own?_reserve, Value.materializeInPlace_of_materialize hcell', Prod.map_apply,
      write_reserve]
    rfl

/-- Making a variable fails only if the path cannot be read. -/
theorem create_eq_throw_iff {fault : Fault} :
    s.create effort id path v = throw fault ↔ s.resolve effort id path = throw fault := by
  constructor
  · intro h
    rcases hresolved : s.resolve effort id path with _ | fault' | resolved
    · rw [create, hresolved] at h
      cases h
    · rw [create, hresolved] at h
      cases h
      rfl
    · obtain ⟨cell', hcell'⟩ := exists_materialize_of_resolve hresolved v
        ((s.own? id resolved.base).getD (.number 0.0))
      rw [create_of_materialize hresolved hcell'] at h
      cases h
  · intro h
    rw [create, h]
    rfl

/-- What is done as a whole or not at all leaves the store as it was when it fails. -/
theorem eq_of_allOrNothing_error {e : Eval Store} {fault : Fault} {left : Store}
    (h : e.run.map (allOrNothing s) = some (.error fault, left)) : left = s := by
  obtain ⟨outcome, _, hleft⟩ := Option.map_eq_some_iff.mp h
  cases outcome with
  | ok s' => cases hleft
  | error fault' =>
    cases hleft
    rfl

/-- A store that cannot be made leaves the machine alone. -/
theorem machine_of_updateStore {σ : Type} {m left : Machine σ} {change : Store → Eval Store}
    {failure : Failure}
    (h : (Action.updateStore change : Action σ Unit).apply m = some (.error failure, left)) :
    left = m := by
  rw [Action.apply_updateStore] at h
  rcases hchange : (change m.store).run with _ | fault | s'
  · rw [hchange] at h
    cases h
  · rw [hchange] at h
    cases h
    rfl
  · rw [hchange] at h
    cases h

end Store

/-- **Writes are atomic.** Setting and making variables in place, step by step in the cells of the
frames, comes to the store that they come to when it is made at once. If they fail, all frames are
as before, and so is a machine that does them. Making a variable fails exactly if its path cannot be
read: each index of a path that has been read is within the limit, so that nothing is left that can
fail in the cell. -/
theorem writes_are_atomic {s : Store} (hs : s.Ordered) (effort : ℕ) (id : FrameId) (path : String)
    (v : Value) :
    s.setInPlace effort id path v = (s.set effort id path v).run.map (allOrNothing s) ∧
    s.createInPlace effort id path v = (s.create effort id path v).run.map (allOrNothing s) ∧
    (∀ fault left, s.setInPlace effort id path v = some (.error fault, left) ∨
      s.createInPlace effort id path v = some (.error fault, left) → left = s) ∧
    (∀ (σ : Type) (m left : Machine σ) failure,
      (Action.updateStore (·.set effort id path v)).apply m = some (.error failure, left) ∨
        (Action.updateStore (·.create effort id path v)).apply m = some (.error failure, left) →
      left = m) ∧
    (∀ fault, s.create effort id path v = throw fault ↔ s.resolve effort id path = throw fault) ∧
    ∀ resolved, s.resolve effort id path = pure resolved →
      (∀ i, .index i ∈ resolved.accessors → i ≤ maxIndex) ∧
      ∀ cell, ∃ cell', Value.materialize path v cell resolved.accessors = .ok cell' := by
  have hset := Store.setInPlace_eq hs effort id path v
  have hcreate := Store.createInPlace_eq s effort id path v
  refine ⟨hset, hcreate, ?_, ?_, fun fault => Store.create_eq_throw_iff, ?_⟩
  · rintro fault left (h | h)
    · exact Store.eq_of_allOrNothing_error (hset.symm.trans h)
    · exact Store.eq_of_allOrNothing_error (hcreate.symm.trans h)
  · rintro σ m left failure (h | h)
    · exact Store.machine_of_updateStore h
    · exact Store.machine_of_updateStore h
  · intro resolved hresolved
    refine ⟨fun i hi => ?_, Store.exists_materialize_of_resolve hresolved v⟩
    exact Path.inBounds_of_resolve hresolved _ hi

/-- A member of a member that is not there cannot be set, but it can be made. -/
theorem writes_are_atomic_missing :
    let s : Store := { frames := [⟨0, none, none, [("x", .object [("a", .array [])])]⟩], next := 1 }
    s.Ordered ∧
      (∃ fault, s.setInPlace 1 0 "x.b.c" (.object []) = some (.error fault, s)) ∧
      ∃ cell', Value.materialize "x.b.c" (.object []) (.object [("a", .array [])])
        [.field "b", .field "c"] = .ok cell' := by
  intro s
  have hs : s.Ordered := ⟨by decide, by decide⟩
  obtain ⟨_, _, hback, _, _, hwritten⟩ := writes_are_atomic hs 1 0 "x.b.c" (.object [])
  have hfails : (s.setInPlace 1 0 "x.b.c" (.object [])).map (·.1.toBool) = some false := by
    decide +kernel
  obtain ⟨⟨outcome, left⟩, hset, houtcome⟩ := Option.map_eq_some_iff.mp hfails
  have hresolved : s.resolve 1 0 "x.b.c" = pure ⟨"x", [.field "b", .field "c"]⟩ := by
    have hrun : (s.resolve 1 0 "x.b.c").run = some (.ok ⟨"x", [.field "b", .field "c"]⟩) := by
      decide +kernel
    exact hrun
  refine ⟨hs, ?_, (hwritten _ hresolved).2 _⟩
  cases outcome with
  | ok done => cases houtcome
  | error fault =>
    refine ⟨fault, ?_⟩
    rw [hset, hback fault left (.inl hset)]

end Logo
