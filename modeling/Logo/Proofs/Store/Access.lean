import Logo.Proofs.Interpreter.Action
import Logo.Proofs.Path.Name
import Logo.Proofs.Store.Growth

/-!
# Reading and writing through frames

A name is looked up in a frame, its parent, and so on. The first of these frames that has or binds
the name is its holder, for reading and for setting alike: a variable of the holder is set in place,
and a binding cannot be set. Making a variable changes one frame, and nothing can be told of it
from where this frame is not looked at.
-/

namespace Logo

/-! ## Cells of a frame -/

namespace Frame

/-- Whether a frame has a variable of a name or binds it. -/
def Holds (f : Frame) (name : String) : Prop :=
  name ∈ f.ownNames ∨ name ∈ (f.bindings.getD []).map Prod.fst

/-- A frame holds a name exactly if the name is found in it. -/
theorem holds_iff {f : Frame} {name : String} : f.Holds name ↔ (f.find? name).isSome = true :=
  Store.isSome_frameFind?_iff.symm

/-- The frame after a write to the frame of a number. -/
def written (id : FrameId) (name : String) (v : Value) (f : Frame) : Frame :=
  if f.id = id then { f with cells := putField f.cells name v } else f

/-- A write does not change the number of a frame. -/
@[simp] theorem written_id (id : FrameId) (name : String) (v : Value) (f : Frame) :
    (f.written id name v).id = f.id := by
  unfold written
  split
  · rfl
  · rfl

/-- A write does not change the parent of a frame. -/
@[simp] theorem written_parent (id : FrameId) (name : String) (v : Value) (f : Frame) :
    (f.written id name v).parent = f.parent := by
  unfold written
  split
  · rfl
  · rfl

/-- A write to one frame leaves all others alone. -/
theorem written_of_ne {id : FrameId} {f : Frame} (h : f.id ≠ id) (name : String) (v : Value) :
    f.written id name v = f :=
  if_neg h

/-- A variable that is written is found with its new value. -/
theorem find?_written_self (name : String) (v : Value) (f : Frame) :
    (f.written f.id name v).find? name = some v := by
  simp [written, find?, lookup_putField]

/-- A name is looked up in the same frames as before if frames keep their numbers and parents. -/
theorem chain_map {change : Frame → Frame} (hid : ∀ f, (change f).id = f.id)
    (hparent : ∀ f, (change f).parent = f.parent) (fs : List Frame) (id? : Option FrameId) :
    chain (fs.map change) id? = (chain fs id?).map change := by
  fun_induction chain fs id? with
  | case1 fs => cases fs <;> rfl
  | case2 id => rfl
  | case3 f rest ih => rw [List.map_cons, chain, hid, if_pos rfl, hparent, ih, List.map_cons]
  | case4 f rest id hne ih => rw [List.map_cons, chain, hid, if_neg hne, ih]

end Frame

namespace Store

variable {s : Store} {id : FrameId} {name : String} {f : Frame}

/-! ## Writes -/

/-- A write leaves the chain of frames as it is, apart from the frame that is written. -/
theorem chain_write (s : Store) (frame : FrameId) (name : String) (v : Value) (id : FrameId) :
    (s.write frame name v).chain id = (s.chain id).map (Frame.written frame name v) :=
  Frame.chain_map (Frame.written_id frame name v) (Frame.written_parent frame name v) s.frames
    (some id)

/-- A write to a frame is not seen from where this frame is not looked at. -/
theorem chain_write_of_ne {frame : FrameId} (h : ∀ f ∈ s.chain id, f.id ≠ frame) (name : String)
    (v : Value) : (s.write frame name v).chain id = s.chain id := by
  rw [chain_write]
  conv_rhs => rw [← List.map_id (s.chain id)]
  exact List.map_congr_left fun f hf => Frame.written_of_ne (h f hf) name v

/-- One cell of one frame gets the value. -/
theorem own?_write (hf : f ∈ s.frames) (name : String) (v : Value) (other : FrameId)
    (key : String) :
    (s.write f.id name v).own? other key =
      if other = f.id ∧ key = name then some v else s.own? other key := by
  have hframe : (s.write f.id name v).frame? other =
      (s.frame? other).map (Frame.written f.id name v) := by
    rw [frame?, frame?, write, List.find?_map]
    congr 2
    funext g
    exact congrArg (fun n => decide (n = other)) (Frame.written_id f.id name v g)
  rw [own?, own?, hframe]
  by_cases hother : other = f.id
  · subst hother
    obtain ⟨g, hg⟩ : ∃ g, s.frame? f.id = some g :=
      Option.isSome_iff_exists.mp (List.find?_isSome.mpr ⟨f, hf, by simp⟩)
    have hid : g.id = f.id := by simpa using List.find?_some hg
    simp [hg, Frame.written, hid, lookup_putField]
  · rw [if_neg fun h => hother h.1]
    cases hg : s.frame? other with
    | none => rfl
    | some g =>
      have hid : g.id ≠ f.id := by
        have hfound : g.id = other := by simpa using List.find?_some hg
        exact hfound ▸ hother
      simp [Frame.written_of_ne hid]

/-! ## Holders -/

/-- Whether a frame is the first one, from a frame on through its parents, that has a variable of a
name or binds it. -/
def IsHolder (s : Store) (id : FrameId) (name : String) (f : Frame) : Prop :=
  ∃ nearer further, s.chain id = nearer ++ f :: further ∧ f.Holds name ∧
    ∀ g ∈ nearer, ¬g.Holds name

/-- The holder that is looked up is the first frame that holds the name. -/
theorem holder?_eq_some_iff : s.holder? id name = some f ↔ s.IsHolder id name f := by
  simp only [holder?, List.find?_eq_some_iff_append, IsHolder, Frame.holds_iff]
  constructor
  · rintro ⟨hholds, nearer, further, hchain, hnearer⟩
    exact ⟨nearer, further, hchain, hholds, by simpa using hnearer⟩
  · rintro ⟨nearer, further, hchain, hholds, hnearer⟩
    exact ⟨hholds, nearer, further, hchain, by simpa using hnearer⟩

/-- No holder is found exactly if there is none. -/
theorem holder?_eq_none_iff : s.holder? id name = none ↔ ∀ f, ¬s.IsHolder id name f := by
  constructor
  · intro h f hf
    rw [holder?_eq_some_iff.mpr hf] at h
    cases h
  · intro h
    cases hholder : s.holder? id name with
    | none => rfl
    | some f => exact absurd (holder?_eq_some_iff.mp hholder) (h f)

/-- Frames that do not hold a name are passed by. -/
theorem findSome?_append_of_not_holds {nearer : List Frame} (h : ∀ g ∈ nearer, ¬g.Holds name)
    (rest : List Frame) :
    (nearer ++ rest).findSome? (·.find? name) = rest.findSome? (·.find? name) := by
  have hnone : nearer.findSome? (·.find? name) = none := by
    refine List.findSome?_eq_none_iff.mpr fun g hg => ?_
    simpa [Frame.holds_iff] using h g hg
  rw [List.findSome?_append, hnone, Option.none_or]

/-- A name has the value that its holder gives it. -/
theorem IsHolder.find?_eq (h : s.IsHolder id name f) : s.find? id name = f.find? name := by
  obtain ⟨nearer, further, hchain, hholds, hnearer⟩ := h
  obtain ⟨v, hv⟩ := Option.isSome_iff_exists.mp (Frame.holds_iff.mp hholds)
  rw [find?, hchain, findSome?_append_of_not_holds hnearer, List.findSome?_cons, hv]

/-- A name without a holder has no value. -/
theorem find?_eq_none_of_not_isHolder (h : ∀ f, ¬s.IsHolder id name f) :
    s.find? id name = none := by
  have hnone := holder?_eq_none_iff.mpr h
  rw [holder?, List.find?_eq_none] at hnone
  rw [find?, List.findSome?_eq_none_iff]
  intro f hf
  simpa using hnone f hf

/-- A variable that is written in its holder has the new value from then on. -/
theorem IsHolder.find?_write (h : s.IsHolder id name f) (hs : s.Ordered) (v : Value) :
    (s.write f.id name v).find? id name = some v := by
  obtain ⟨nearer, further, hchain, hholds, hnearer⟩ := h
  have hmem g (hg : g ∈ nearer ++ f :: further) : g ∈ s.frames :=
    mem_of_mem_chain (hchain ▸ hg : g ∈ s.chain id)
  -- No nearer frame is the holder itself, so the write passes them by.
  have hsame : nearer.map (Frame.written f.id name v) = nearer := by
    conv_rhs => rw [← List.map_id nearer]
    refine List.map_congr_left fun g hg => Frame.written_of_ne (fun hid => ?_) name v
    obtain rfl := hs.eq_of_id (hmem g (by simp [hg])) (hmem f (by simp)) hid
    exact hnearer g hg hholds
  rw [find?, chain_write, hchain, List.map_append, hsame, List.map_cons,
    findSome?_append_of_not_holds hnearer, List.findSome?_cons, Frame.find?_written_self]

/-- The holder of a name holds it. -/
theorem IsHolder.holds (h : s.IsHolder id name f) : f.Holds name := by
  obtain ⟨_, _, _, hholds, _⟩ := h
  exact hholds

/-- The holder of a name is a frame of the store. -/
theorem IsHolder.mem_frames (h : s.IsHolder id name f) : f ∈ s.frames := by
  obtain ⟨nearer, further, hchain, _, _⟩ := h
  exact mem_of_mem_chain (hchain ▸ by simp : f ∈ s.chain id)

/-! ## Reading and setting -/

variable {effort : ℕ} {path : String} {resolved : Path} {v : Value}

/-- What is read on a path is read in the value of its variable. -/
theorem get_of_find?_eq_some (h : s.resolve effort id path = pure resolved) {w : Value}
    (hw : s.find? id resolved.base = some w) :
    s.get effort id path = liftM (w.read path resolved.accessors) := by
  rw [resolve] at h
  rw [get, Path.get, h, pure_bind, hw]

/-- Nothing can be read on a path whose variable does not exist. -/
theorem get_of_find?_eq_none (h : s.resolve effort id path = pure resolved)
    (hnone : s.find? id resolved.base = none) :
    s.get effort id path = throw (.missingVariable resolved.base) := by
  rw [resolve] at h
  rw [get, Path.get, h, pure_bind, hnone]

/-- An identifier is read as the variable of this name. -/
theorem get_of_isIdentifier (h : isIdentifier name = true) {w : Value}
    (hw : s.find? id name = some w) : s.get effort id name = pure w := by
  rw [get_of_find?_eq_some (Path.resolve_of_isIdentifier _ _ h) hw]
  rfl

section Set

variable (hresolved : s.resolve effort id path = pure resolved)

include hresolved

/-- An assignment to a variable of its holder writes the changed cell there. -/
theorem set_of_cell (h : s.IsHolder id resolved.base f) {cell : Value}
    (hcell : f.cells.lookup resolved.base = some cell) (v : Value) :
    s.set effort id path v = do
      let cell ← Value.assign path v cell resolved.accessors
      return s.write f.id resolved.base cell := by
  rw [set, hresolved, pure_bind, holder?_eq_some_iff.mpr h]
  dsimp only
  rw [hcell]

/-- An assignment to a name that its holder binds is refused. -/
theorem set_of_binding (h : s.IsHolder id resolved.base f)
    (hcell : f.cells.lookup resolved.base = none) (v : Value) :
    s.set effort id path v = throw (.readOnlyVariable resolved.base) := by
  rw [set, hresolved, pure_bind, holder?_eq_some_iff.mpr h]
  dsimp only
  rw [hcell]

/-- An assignment to a variable that does not exist is refused. -/
theorem set_of_not_isHolder (h : ∀ f, ¬s.IsHolder id resolved.base f) (v : Value) :
    s.set effort id path v = throw (.missingVariable resolved.base) := by
  rw [set, hresolved, pure_bind, holder?_eq_none_iff.mpr h]

end Set

end Store

/-- The variable of a path that can be read is an identifier. -/
theorem Path.isIdentifier_of_resolve {find? : String → Option Value}
    {evaluate : String → Eval Value} {path : String} {resolved : Path}
    (h : resolve find? evaluate path = pure resolved) : isIdentifier resolved.base = true := by
  obtain ⟨expanded, _, h⟩ := Eval.bind_eq_pure_iff.mp h
  dsimp only at h
  split at h
  · next hbase =>
    obtain ⟨accessors, _, h⟩ := Eval.bind_eq_pure_iff.mp h
    rw [Eval.pure_inj] at h
    rw [← h, isIdentifier, String.toList_ofList]
    exact hbase
  · cases h

/-- **Reading and setting agree on the holder.** Let a path lead to a variable and members of it. If
the holder of the variable has it as its own, both use this variable: reading reads its value, and
setting fails if nothing can be assigned there, or puts the result of the assignment into this one
cell. All other cells of all frames, their numbers, parents, bindings and names stay the same, and
the variable then has the new value. If the holder only binds the name, reading reads the bound
value, and setting fails since it is read-only. If the name has no holder, both fail since the
variable is missing. -/
theorem get_and_set_agree_on_holder {s : Store} (hs : s.Ordered) {effort : ℕ} {id : FrameId}
    {path : String} {resolved : Path} (hresolved : s.resolve effort id path = pure resolved)
    (v : Value) :
    (∀ f, s.IsHolder id resolved.base f →
      (∀ cell, f.cells.lookup resolved.base = some cell →
        s.get effort id path = liftM (cell.read path resolved.accessors) ∧
        (∀ fault, Value.assign path v cell resolved.accessors = .error fault →
          s.set effort id path v = throw fault) ∧
        ∀ cell', Value.assign path v cell resolved.accessors = .ok cell' →
          ∃ s', s.set effort id path v = pure s' ∧ s'.next = s.next ∧
            s'.frames.map Frame.outline = s.frames.map Frame.outline ∧
            (∀ other name, s'.own? other name =
              if other = f.id ∧ name = resolved.base then some cell' else s.own? other name) ∧
            ∀ effort', s'.get effort' id resolved.base = pure cell') ∧
      (f.cells.lookup resolved.base = none →
        (∃ bound, (f.bindings.getD []).lookup resolved.base = some bound ∧
          s.get effort id path = liftM (bound.read path resolved.accessors)) ∧
        s.set effort id path v = throw (.readOnlyVariable resolved.base))) ∧
    ((∀ f, ¬s.IsHolder id resolved.base f) →
      s.get effort id path = throw (.missingVariable resolved.base) ∧
      s.set effort id path v = throw (.missingVariable resolved.base)) := by
  refine ⟨fun f hholder => ⟨fun cell hcell => ?_, fun hcell => ?_⟩, fun hnone => ?_⟩
  · have hfind : s.find? id resolved.base = some cell := by
      rw [hholder.find?_eq, Frame.find?, hcell]
    have hset := Store.set_of_cell hresolved hholder hcell v
    refine ⟨Store.get_of_find?_eq_some hresolved hfind, fun fault hassign => ?_,
      fun cell' hassign => ?_⟩
    · rw [hset, hassign]
      rfl
    · rw [hassign, Eval.liftM_ok_bind] at hset
      exact ⟨s.write f.id resolved.base cell', hset, rfl,
        (Store.becomes_set hs hset).frames.map_outline,
        Store.own?_write hholder.mem_frames resolved.base cell', fun effort' =>
        Store.get_of_isIdentifier (Path.isIdentifier_of_resolve hresolved)
          (hholder.find?_write hs cell')⟩
  · obtain ⟨bound, hbound⟩ := Option.isSome_iff_exists.mp (Frame.holds_iff.mp hholder.holds)
    have hfind : s.find? id resolved.base = some bound := hholder.find?_eq.trans hbound
    rw [Frame.find?, hcell] at hbound
    exact ⟨⟨bound, hbound, Store.get_of_find?_eq_some hresolved hfind⟩,
      Store.set_of_binding hresolved hholder hcell v⟩
  · exact ⟨Store.get_of_find?_eq_none hresolved (Store.find?_eq_none_of_not_isHolder hnone),
      Store.set_of_not_isHolder hresolved hnone v⟩

/-- A frame that has one name, binds another, and has a parent with the first name. -/
theorem get_and_set_agree_on_holder_inner :
    let s : Store :=
      { frames := [⟨1, some 0, some [("x", .number 2), ("p", .number 5)], [("x", .number 3)]⟩,
          ⟨0, none, none, [("x", .number 1)]⟩]
        next := 2 }
    s.Ordered ∧
      (∃ s', s.set 1 1 "x" (.number 4) = pure s' ∧ s'.own? 1 "x" = some (.number 4) ∧
        s'.own? 0 "x" = some (.number 1) ∧ s'.get 1 1 "x" = pure (.number 4)) ∧
      s.get 1 1 "p" = pure (.number 5) ∧
      s.set 1 1 "p" (.number 4) = throw (.readOnlyVariable "p") ∧
      s.set 1 1 "q" (.number 4) = throw (.missingVariable "q") := by
  intro s
  have hs : s.Ordered := ⟨by decide, by decide⟩
  have hresolve (name : String) (h : isIdentifier name = true) :
      s.resolve 1 1 name = pure ⟨name, []⟩ := Path.resolve_of_isIdentifier _ _ h
  have hx := (get_and_set_agree_on_holder hs (hresolve "x" rfl) (.number 4)).1 _
    (Store.holder?_eq_some_iff.mp rfl)
  obtain ⟨_, _, hset⟩ := hx.1 (.number 3) rfl
  obtain ⟨s', hs', _, _, hown, hget⟩ := hset (.number 4) rfl
  have hp := (get_and_set_agree_on_holder hs (hresolve "p" rfl) (.number 4)).1 _
    (Store.holder?_eq_some_iff.mp rfl)
  obtain ⟨⟨bound, hbound, hgetp⟩, hsetp⟩ := hp.2 rfl
  obtain rfl : .number 5 = bound := Option.some.inj hbound
  have hq := (get_and_set_agree_on_holder hs (hresolve "q" rfl) (.number 4)).2
    (Store.holder?_eq_none_iff.mp rfl)
  exact ⟨hs, ⟨s', hs', hown 1 "x", hown 0 "x", hget 1⟩, hgetp, hsetp, hq.2⟩

/-! ## Making variables -/

/-- **Making a variable does not reach beyond its frame.** Let a variable, or a member of one, be
made in a frame, with or without success, and look from another frame of which this frame is neither
the frame itself nor an ancestor. The frames in which names are looked up from there are as before,
so every path and every expression comes to the same value or fault, whatever effort it takes. If
the frame is in use and the variable was made, it is the only cell that has changed. -/
theorem create_is_local {σ : Type} {effort : ℕ} {frame : FrameId} {path : String} {v : Value}
    {m m' : Machine σ} {r : Except Failure Unit}
    (h : (Action.updateStore fun store => store.create effort frame path v).apply m =
      some (r, m')) :
    (∀ id, (∀ f ∈ m.store.chain id, f.id ≠ frame) →
      m'.store.chain id = m.store.chain id ∧ ∀ effort' text,
        m'.store.get effort' id text = m.store.get effort' id text ∧
          evaluate effort' (m'.store.environment id) text =
            evaluate effort' (m.store.environment id) text) ∧
    (r = .ok () → m.store.isLive frame = true → ∃ resolved cell,
      m.store.resolve effort frame path = pure resolved ∧
      Value.materialize path v ((m.store.own? frame resolved.base).getD (.number 0.0))
        resolved.accessors = .ok cell ∧
      ∀ other name, m'.store.own? other name =
        if other = frame ∧ name = resolved.base then some cell else m.store.own? other name) := by
  -- The store is the old one, or the old one with a write to the frame.
  have hstore : m'.store = m.store ∧ r ≠ .ok () ∨ ∃ resolved cell,
      m.store.resolve effort frame path = pure resolved ∧
      Value.materialize path v ((m.store.own? frame resolved.base).getD (.number 0.0))
        resolved.accessors = .ok cell ∧
      m'.store = m.store.write frame resolved.base cell := by
    rw [Action.apply_updateStore] at h
    rcases (m.store.create effort frame path v).cases_outcome with hc | ⟨fault, hc⟩ | ⟨s, hc⟩
    · rw [hc] at h
      cases h
    · rw [hc] at h
      cases h
      exact .inl ⟨rfl, by simp⟩
    · obtain ⟨resolved, cell, hresolved, hcell, rfl⟩ := Store.exists_of_create hc
      rw [hc] at h
      cases h
      exact .inr ⟨resolved, cell, hresolved, hcell, rfl⟩
  constructor
  · intro id hapart
    have hchain : m'.store.chain id = m.store.chain id := by
      rcases hstore with ⟨hsame, _⟩ | ⟨resolved, cell, _, _, hwrite⟩
      · rw [hsame]
      · rw [hwrite]
        exact Store.chain_write_of_ne hapart resolved.base cell
    have hfind : m'.store.find? id = m.store.find? id := by
      funext name
      rw [Store.find?, Store.find?, hchain]
    refine ⟨hchain, fun effort' text => ⟨?_, ?_⟩⟩
    · rw [Store.get, Store.get, Store.environment, Store.environment, hfind]
    · rw [Store.environment, Store.environment, hfind]
  · intro hok hlive
    rcases hstore with ⟨_, hfail⟩ | ⟨resolved, cell, hresolved, hcell, hwrite⟩
    · exact absurd hok hfail
    · obtain ⟨f, hf, rfl⟩ := Store.isLive_iff.mp hlive
      exact ⟨resolved, cell, hresolved, hcell, hwrite ▸ Store.own?_write hf resolved.base cell⟩

/-- A variable that is made in a child of the frame `0` is not seen from `0`, nor from another
child. -/
theorem create_is_local_sibling :
    let s : Store := ((({} : Store).push none none).push (some 0) none).push (some 0) none
    let m : Machine Unit := { store := s, outbox := { capacity := 64 }, host := () }
    ∃ m', (Action.updateStore fun store => store.create 1 1 "x" (.number 7)).apply m =
        some (.ok (), m') ∧
      m'.store.own? 1 "x" = some (.number 7) ∧
      (∀ f ∈ s.chain 2, f.id ≠ 1) ∧ (∀ f ∈ s.chain 0, f.id ≠ 1) ∧
      m'.store.chain 2 = s.chain 2 ∧
      ∀ text, evaluate 5 (m'.store.environment 0) text = evaluate 5 (s.environment 0) text := by
  intro s m
  obtain ⟨m', hm'⟩ : ∃ m', (Action.updateStore fun store =>
      store.create 1 1 "x" (.number 7)).apply m = some (.ok (), m') := by
    have hname : isIdentifier "x" = true := rfl
    rw [Action.apply_updateStore, Store.create_of_isIdentifier _ _ _ hname]
    exact ⟨_, rfl⟩
  obtain ⟨hlocal, hmade⟩ := create_is_local hm'
  obtain ⟨resolved, cell, hresolved, hcell, hown⟩ := hmade rfl rfl
  obtain rfl : ⟨"x", []⟩ = resolved := by
    rw [← Eval.pure_inj, ← hresolved]
    exact (Path.resolve_of_isIdentifier _ _ rfl).symm
  obtain rfl : .number 7 = cell := Except.ok.inj hcell
  have hsibling : ∀ f ∈ s.chain 2, f.id ≠ 1 := by decide
  have hparent : ∀ f ∈ s.chain 0, f.id ≠ 1 := by decide
  exact ⟨m', hm', hown 1 "x", hsibling, hparent, (hlocal 2 hsibling).1,
    fun text => ((hlocal 0 hparent).2 5 text).2⟩

end Logo
