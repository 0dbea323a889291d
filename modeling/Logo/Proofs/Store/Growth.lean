import Logo.Store
import Logo.Proofs.Eval
import Logo.Proofs.Value.Fields
import Mathlib.Data.List.Forall2
import Mathlib.Data.List.Nodup
import Mathlib.Data.Nat.Notation

/-!
# How stores grow

A write keeps the frames of a store, their order, their parents and their bindings. Setting a
variable also keeps the names that every frame has; making one can add a name to one frame only. In
a store that is in order, numbers tell frames apart.
-/

namespace Logo

/-- The names of a frame's own variables, oldest first. -/
def Frame.ownNames (f : Frame) : List String := f.cells.map Prod.fst

/-- What a frame is, apart from the values of its variables: its number, its parent, its bindings
and the names of its variables. -/
def Frame.outline (f : Frame) : FrameId × Option FrameId × Option Bindings × List String :=
  (f.id, f.parent, f.bindings, f.ownNames)

/-- What can become of a frame: only its variables change, and it has no fewer names than before. It
has the same names if it does not grow. -/
structure Frame.Becomes (grows : Prop) (f f' : Frame) : Prop where
  id_eq : f'.id = f.id
  parent_eq : f'.parent = f.parent
  bindings_eq : f'.bindings = f.bindings
  names_extend : f.ownNames <+: f'.ownNames
  names_eq : ¬grows → f'.ownNames = f.ownNames

namespace Frame.Becomes

variable {grows grows' : Prop} {f f' f'' : Frame}

/-- A frame can become itself. -/
theorem refl (grows : Prop) (f : Frame) : f.Becomes grows f where
  id_eq := rfl
  parent_eq := rfl
  bindings_eq := rfl
  names_extend := List.prefix_rfl
  names_eq _ := rfl

/-- What can become of a frame can become of it in two steps. -/
theorem trans (h : f.Becomes grows f') (h' : f'.Becomes grows f'') : f.Becomes grows f'' where
  id_eq := h'.id_eq.trans h.id_eq
  parent_eq := h'.parent_eq.trans h.parent_eq
  bindings_eq := h'.bindings_eq.trans h.bindings_eq
  names_extend := h.names_extend.trans h'.names_extend
  names_eq hgrows := (h'.names_eq hgrows).trans (h.names_eq hgrows)

/-- A frame that may grow can become all that it can become without growing. -/
theorem mono (h : f.Becomes grows f') (hgrows : grows → grows') : f.Becomes grows' f' where
  id_eq := h.id_eq
  parent_eq := h.parent_eq
  bindings_eq := h.bindings_eq
  names_extend := h.names_extend
  names_eq hgrows' := h.names_eq fun hold => hgrows' (hgrows hold)

/-- A variable of a frame gets a value. -/
theorem putField (f : Frame) (name : String) (v : Value) :
    f.Becomes (name ∉ f.ownNames) { f with cells := Logo.putField f.cells name v } where
  id_eq := rfl
  parent_eq := rfl
  bindings_eq := rfl
  names_extend := by
    simp only [ownNames, map_fst_putField]
    split
    · exact List.prefix_rfl
    · exact List.prefix_append _ _
  names_eq hknown := by
    simp only [ownNames, map_fst_putField]
    exact if_pos (not_not.mp hknown)

end Frame.Becomes

/-- What can become of a list of frames: `grows` tells which of them may get more names. -/
def Frame.AllBecome (grows : FrameId → Prop) : List Frame → List Frame → Prop :=
  List.Forall₂ fun f f' => f.Becomes (grows f.id) f'

namespace Frame.AllBecome

variable {grows grows' : FrameId → Prop} {fs fs' fs'' : List Frame}

/-- What can become of frames can become of them in two steps. -/
theorem trans (h : AllBecome grows fs fs') (h' : AllBecome grows fs' fs'') :
    AllBecome grows fs fs'' := by
  unfold AllBecome at *
  induction h generalizing fs'' with
  | nil =>
    cases h'
    exact .nil
  | cons hhead _ ih =>
    cases h' with
    | cons hhead' htail' => exact .cons (hhead.trans (hhead.id_eq ▸ hhead')) (ih htail')

/-- Frames can become more if more of them may grow. -/
theorem mono (h : AllBecome grows fs fs') (hgrows : ∀ f ∈ fs, grows f.id → grows' f.id) :
    AllBecome grows' fs fs' := by
  unfold AllBecome at *
  induction h with
  | nil => exact .nil
  | cons hhead _ ih =>
    exact .cons (hhead.mono (hgrows _ List.mem_cons_self))
      (ih fun f hf => hgrows f (List.mem_cons_of_mem _ hf))

/-- A frame that is there afterwards was there before. -/
theorem exists_of_mem (h : AllBecome grows fs fs') {f' : Frame} (hf' : f' ∈ fs') :
    ∃ f ∈ fs, f.Becomes (grows f.id) f' := by
  unfold AllBecome at h
  induction h with
  | nil => simp at hf'
  | cons hhead _ ih =>
    rcases List.mem_cons.mp hf' with rfl | hmem
    · exact ⟨_, List.mem_cons_self, hhead⟩
    · obtain ⟨f, hf, hbecomes⟩ := ih hmem
      exact ⟨f, List.mem_cons_of_mem _ hf, hbecomes⟩

/-- The numbers of the frames stay the same. -/
theorem map_id (h : AllBecome grows fs fs') : fs'.map Frame.id = fs.map Frame.id := by
  unfold AllBecome at h
  induction h with
  | nil => rfl
  | cons hhead _ ih => rw [List.map_cons, List.map_cons, hhead.id_eq, ih]

/-- Where no frame grows, frames are as before, but for the values of their variables. -/
theorem map_outline (h : AllBecome (fun _ => False) fs fs') :
    fs'.map Frame.outline = fs.map Frame.outline := by
  unfold AllBecome at h
  induction h with
  | nil => rfl
  | cons hhead _ ih =>
    rw [List.map_cons, List.map_cons, ih, outline, outline, hhead.id_eq, hhead.parent_eq,
      hhead.bindings_eq, hhead.names_eq not_false]

/-- A frame that is found afterwards has become of one that was found under the same number. -/
theorem exists_of_find? (h : AllBecome grows fs fs') {id : FrameId} {f' : Frame}
    (hf' : fs'.find? (·.id = id) = some f') :
    ∃ f, fs.find? (·.id = id) = some f ∧ f.Becomes (grows f.id) f' := by
  unfold AllBecome at h
  induction h with
  | nil => simp at hf'
  | cons hhead _ ih =>
    simp only [List.find?_cons, hhead.id_eq] at hf' ⊢
    split at hf'
    · obtain rfl := Option.some.inj hf'
      exact ⟨_, rfl, hhead⟩
    · exact ih hf'

/-- Names are looked up in the same frames as before. -/
theorem chain (h : AllBecome grows fs fs') (id : Option FrameId) :
    AllBecome grows (Frame.chain fs id) (Frame.chain fs' id) := by
  unfold AllBecome at *
  induction h generalizing id with
  | nil =>
    cases id with
    | none => exact .nil
    | some id => exact .nil
  | cons hhead _ ih =>
    cases id with
    | none => exact .nil
    | some id =>
      simp only [Frame.chain, hhead.id_eq, hhead.parent_eq]
      split
      · exact .cons hhead (ih _)
      · exact ih _

/-- Where no frame grows, the same names are had or bound. -/
theorem exists_name_iff (h : AllBecome (fun _ => False) fs fs') (name : String) :
    (∃ f ∈ fs', name ∈ f.ownNames ∨ name ∈ (f.bindings.getD []).map Prod.fst) ↔
      ∃ f ∈ fs, name ∈ f.ownNames ∨ name ∈ (f.bindings.getD []).map Prod.fst := by
  unfold AllBecome at h
  induction h with
  | nil => simp
  | cons hhead _ ih =>
    simp only [List.mem_cons, exists_eq_or_imp, hhead.names_eq not_false, hhead.bindings_eq, ih]

end Frame.AllBecome

namespace Store

/-- A frame is in use exactly if it is in the store. -/
theorem isLive_iff {s : Store} {id : FrameId} :
    s.isLive id = true ↔ ∃ f ∈ s.frames, f.id = id := by
  simp [isLive]

/-- A frame in use stays in use when a new one is made. -/
theorem isLive_push_of_isLive {s : Store} {id : FrameId} {parent : Option FrameId}
    {bindings : Option Bindings} (h : s.isLive id = true) :
    (s.push parent bindings).isLive id = true := by
  obtain ⟨f, hf, hid⟩ := isLive_iff.mp h
  exact isLive_iff.mpr ⟨f, List.mem_cons_of_mem _ hf, hid⟩

/-- Whether the frames of a store are in order: newer ones have greater numbers and stand before
older ones, and the next number is greater still. -/
structure Ordered (s : Store) : Prop where
  newest_first : s.frames.Pairwise fun f g => g.id < f.id
  fresh : ∀ f ∈ s.frames, f.id < s.next

/-- What can become of a store while its frames stay in use: `grows` tells which of them may get
more names. -/
structure Becomes (grows : FrameId → Prop) (s s' : Store) : Prop where
  next_le : s.next ≤ s'.next
  frames : Frame.AllBecome grows s.frames s'.frames

namespace Becomes

variable {grows grows' : FrameId → Prop} {s s' s'' : Store}

/-- A store can become itself. -/
theorem refl (grows : FrameId → Prop) (s : Store) : s.Becomes grows s where
  next_le := Nat.le_refl _
  frames := List.forall₂_same.mpr fun f _ => .refl _ f

/-- What can become of a store can become of it in two steps. -/
theorem trans (h : s.Becomes grows s') (h' : s'.Becomes grows s'') : s.Becomes grows s'' where
  next_le := Nat.le_trans h.next_le h'.next_le
  frames := h.frames.trans h'.frames

/-- A store can become more if more of its frames may grow. -/
theorem mono (h : s.Becomes grows s') (hgrows : ∀ f ∈ s.frames, grows f.id → grows' f.id) :
    s.Becomes grows' s' where
  next_le := h.next_le
  frames := h.frames.mono hgrows

/-- The same frames are in use. -/
theorem isLive (h : s.Becomes grows s') (id : FrameId) : s'.isLive id = s.isLive id := by
  have hany (t : Store) : t.isLive id = (t.frames.map Frame.id).any (· = id) := by
    rw [Store.isLive, List.any_map]
    rfl
  rw [hany, hany, h.frames.map_id]

/-- Frames that are in order stay so. -/
theorem ordered (h : s.Becomes grows s') (hs : s.Ordered) : s'.Ordered where
  newest_first := by
    have hids : (s'.frames.map Frame.id).Pairwise fun a b => b < a := by
      rw [h.frames.map_id]
      exact List.pairwise_map.mpr hs.newest_first
    exact List.pairwise_map.mp hids
  fresh f' hf' := by
    obtain ⟨f, hf, hbecomes⟩ := h.frames.exists_of_mem hf'
    rw [hbecomes.id_eq]
    exact Nat.lt_of_lt_of_le (hs.fresh f hf) h.next_le

end Becomes

variable {s s' : Store}

namespace Ordered

/-- Numbers tell frames apart. -/
theorem eq_of_id (h : s.Ordered) {f g : Frame} (hf : f ∈ s.frames) (hg : g ∈ s.frames)
    (hid : f.id = g.id) : f = g := by
  have hdistinct : (s.frames.map Frame.id).Nodup :=
    List.pairwise_map.mpr (h.newest_first.imp fun hlt => Nat.ne_of_gt hlt)
  exact List.inj_on_of_nodup_map hdistinct hf hg hid

/-- A new frame comes first, and keeps the frames in order. -/
theorem push (h : s.Ordered) (parent : Option FrameId) (bindings : Option Bindings) :
    (s.push parent bindings).Ordered where
  newest_first := List.pairwise_cons.mpr ⟨h.fresh, h.newest_first⟩
  fresh f hf := by
    simp only [Store.push] at hf ⊢
    rcases List.mem_cons.mp hf with rfl | hmem
    · simp
    · exact Nat.lt_succ_of_lt (h.fresh f hmem)

end Ordered

/-! ## Frames that a name is looked up in -/

/-- The frames of a chain are frames of the store. -/
theorem mem_of_mem_chain {fs : List Frame} {id : Option FrameId} {f : Frame}
    (h : f ∈ Frame.chain fs id) : f ∈ fs := by
  fun_induction Frame.chain fs id with
  | case1 | case2 => simp at h
  | case3 g rest ih =>
    rcases List.mem_cons.mp h with rfl | hmem
    · exact List.mem_cons_self
    · exact List.mem_cons_of_mem _ (ih hmem)
  | case4 g rest id hne ih => exact List.mem_cons_of_mem _ (ih h)

/-- The frame that holds a name is in use and gives the name a value. -/
theorem holder?_spec {id : FrameId} {name : String} {f : Frame} (h : s.holder? id name = some f) :
    f ∈ s.frames ∧ (f.find? name).isSome = true :=
  ⟨mem_of_mem_chain (List.mem_of_find?_eq_some h), by simpa using List.find?_some h⟩

/-- A frame gives a name a value if it has or binds the name. -/
theorem isSome_frameFind?_iff {f : Frame} {name : String} :
    (f.find? name).isSome = true ↔
      name ∈ f.ownNames ∨ name ∈ (f.bindings.getD []).map Prod.fst := by
  rw [Frame.ownNames, ← lookup_isSome_iff, ← lookup_isSome_iff, Frame.find?]
  cases f.cells.lookup name with
  | none => simp
  | some v => simp

/-- A name is visible from a frame if a frame in which it is looked up has or binds it. -/
theorem find?_isSome_iff {id : FrameId} {name : String} :
    (s.find? id name).isSome = true ↔
      ∃ f ∈ s.chain id, name ∈ f.ownNames ∨ name ∈ (f.bindings.getD []).map Prod.fst := by
  rw [find?, List.findSome?_isSome_iff]
  exact exists_congr fun f => and_congr_right fun _ => isSome_frameFind?_iff

/-- Where no frame grows, the same names are visible from every frame. -/
theorem Becomes.find?_isSome (h : s.Becomes (fun _ => False) s') (id : FrameId) (name : String) :
    (s'.find? id name).isSome = (s.find? id name).isSome := by
  rw [Bool.eq_iff_iff, find?_isSome_iff, find?_isSome_iff]
  exact (h.frames.chain (some id)).exists_name_iff name

/-- A name is a frame's own exactly if the frame has a variable of this name. -/
theorem own?_isSome_iff {id : FrameId} {name : String} :
    (s.own? id name).isSome = true ↔ ∃ f, s.frame? id = some f ∧ name ∈ f.ownNames := by
  simp only [own?, Option.isSome_bind, Option.any_eq_true, Frame.ownNames, lookup_isSome_iff]

/-- A frame that has a name which it did not have before is one that could grow. -/
theorem Becomes.grows_of_own? {grows : FrameId → Prop} (h : s.Becomes grows s') {id : FrameId}
    {name : String} (hbefore : (s.own? id name).isSome = false)
    (hafter : (s'.own? id name).isSome = true) : grows id := by
  obtain ⟨f', hf', hname⟩ := own?_isSome_iff.mp hafter
  obtain ⟨f, hf, hbecomes⟩ := h.frames.exists_of_find? hf'
  have hid : f.id = id := by simpa using List.find?_some hf
  by_contra hgrows
  have hnames := hbecomes.names_eq (hid ▸ hgrows)
  have howned := own?_isSome_iff.mpr ⟨f, hf, hnames ▸ hname⟩
  simp [hbefore] at howned

/-! ## Writes -/

/-- A value goes into a variable of one frame; the frame grows if it did not have the variable. -/
theorem becomes_write (hs : s.Ordered) {f : Frame} (hf : f ∈ s.frames) (name : String) (v : Value) :
    s.Becomes (fun id => id = f.id ∧ name ∉ f.ownNames) (s.write f.id name v) where
  next_le := Nat.le_refl _
  frames := by
    refine List.forall₂_map_right_iff.mpr (List.forall₂_same.mpr fun g hg => ?_)
    split
    · next hid =>
      obtain rfl := hs.eq_of_id hg hf hid
      exact (Frame.Becomes.putField g name v).mono fun hnew => ⟨rfl, hnew⟩
    · exact .refl _ g

/-- A write to a frame that is not in use changes nothing. -/
theorem write_of_not_mem {id : FrameId} (h : ∀ f ∈ s.frames, f.id ≠ id) (name : String)
    (v : Value) :
    s.write id name v = s := by
  have hframes : (s.frames.map fun f =>
      if f.id = id then { f with cells := putField f.cells name v } else f) = s.frames := by
    conv_rhs => rw [← List.map_id s.frames]
    exact List.map_congr_left fun f hf => if_neg (h f hf)
  rw [write, hframes]

/-- What setting a variable does: it writes to a frame that has the variable. -/
theorem exists_of_set {effort : ℕ} {id : FrameId} {path : String} {v : Value}
    (h : s.set effort id path v = pure s') :
    ∃ resolved f cell cell', s.resolve effort id path = pure resolved ∧
      s.holder? id resolved.base = some f ∧ f.cells.lookup resolved.base = some cell ∧
      Value.assign path v cell resolved.accessors = .ok cell' ∧
      s' = s.write f.id resolved.base cell' := by
  obtain ⟨resolved, hresolved, h⟩ := Eval.bind_eq_pure_iff.mp h
  cases hholder : s.holder? id resolved.base with
  | none =>
    rw [hholder] at h
    cases h
  | some f =>
    rw [hholder] at h
    dsimp only at h
    cases hcell : f.cells.lookup resolved.base with
    | none =>
      rw [hcell] at h
      cases h
    | some cell =>
      rw [hcell] at h
      dsimp only at h
      cases hassign : Value.assign path v cell resolved.accessors with
      | error fault =>
        rw [hassign] at h
        cases h
      | ok cell' =>
        rw [hassign] at h
        cases h
        exact ⟨resolved, f, cell, cell', hresolved, hholder, hcell, hassign, rfl⟩

/-- What making a variable does: it writes to the frame itself. -/
theorem exists_of_create {effort : ℕ} {id : FrameId} {path : String} {v : Value}
    (h : s.create effort id path v = pure s') :
    ∃ resolved cell', s.resolve effort id path = pure resolved ∧
      Value.materialize path v ((s.own? id resolved.base).getD (.number 0.0)) resolved.accessors =
        .ok cell' ∧
      s' = s.write id resolved.base cell' := by
  obtain ⟨resolved, hresolved, h⟩ := Eval.bind_eq_pure_iff.mp h
  dsimp only at h
  cases hmaterialize : Value.materialize path v ((s.own? id resolved.base).getD (.number 0.0))
      resolved.accessors with
  | error fault =>
    rw [hmaterialize] at h
    cases h
  | ok cell' =>
    rw [hmaterialize] at h
    cases h
    exact ⟨resolved, cell', hresolved, hmaterialize, rfl⟩

/-- Setting a variable gives no frame a new name. -/
theorem becomes_set (hs : s.Ordered) {effort : ℕ} {id : FrameId} {path : String} {v : Value}
    (h : s.set effort id path v = pure s') : s.Becomes (fun _ => False) s' := by
  obtain ⟨resolved, f, cell, cell', _, hholder, hcell, _, rfl⟩ := exists_of_set h
  refine (becomes_write hs (holder?_spec hholder).1 resolved.base cell').mono ?_
  rintro g _ ⟨_, hnew⟩
  exact hnew (lookup_isSome_iff.mp (by rw [hcell]; rfl))

/-- Making a variable gives no other frame a new name. -/
theorem becomes_create (hs : s.Ordered) {effort : ℕ} {id : FrameId} {path : String} {v : Value}
    (h : s.create effort id path v = pure s') : s.Becomes (· = id) s' := by
  obtain ⟨resolved, cell', _, _, rfl⟩ := exists_of_create h
  by_cases hid : ∃ f ∈ s.frames, f.id = id
  · obtain ⟨f, hf, rfl⟩ := hid
    exact (becomes_write hs hf resolved.base cell').mono fun _ _ h => h.1
  · rw [write_of_not_mem (fun f hf hid' => hid ⟨f, hf, hid'⟩)]
    exact .refl _ s

/-! ## New frames -/

/-- From a new frame, names are looked up in it and then from its parent. -/
theorem chain_push (parent : FrameId) (bindings : Option Bindings) :
    (s.push (some parent) bindings).chain s.next =
      ⟨s.next, some parent, bindings, []⟩ :: s.chain parent := by
  simp only [chain, push, Frame.chain, if_true]

/-- A new frame leaves the chains of the others as they are. -/
theorem chain_push_of_ne {id : FrameId} (h : id ≠ s.next) (parent : Option FrameId)
    (bindings : Option Bindings) : (s.push parent bindings).chain id = s.chain id := by
  simp only [chain, push, Frame.chain, if_neg h.symm]

/-- From a new frame, a name has the value that is bound to it, or else its value from the parent.
-/
theorem find?_push (parent : FrameId) (bindings : Option Bindings) (name : String) :
    (s.push (some parent) bindings).find? s.next name =
      ((bindings.getD []).lookup name).or (s.find? parent name) := by
  have hframe : Frame.find? ⟨s.next, some parent, bindings, []⟩ name =
      (bindings.getD []).lookup name := rfl
  rw [find?, chain_push, List.findSome?_cons, hframe]
  cases (bindings.getD []).lookup name with
  | none => rfl
  | some v => rfl

/-- The names that are visible from a new frame are its bindings and those visible from its
parent. -/
theorem find?_push_isSome (parent : FrameId) (bindings : Option Bindings)
    (name : String) :
    ((s.push (some parent) bindings).find? s.next name).isSome = true ↔
      name ∈ (bindings.getD []).map Prod.fst ∨ (s.find? parent name).isSome = true := by
  rw [find?_isSome_iff, find?_isSome_iff, chain_push]
  simp [Frame.ownNames]

/-- What has become of a store with a new frame is, without this frame, what has become of the store
itself. If the new frame alone could get names, no other frame has got any. -/
theorem Becomes.drop {parent : Option FrameId} {bindings : Option Bindings} (hs : s.Ordered)
    (h : (s.push parent bindings).Becomes (· = s.next) s') :
    s.Becomes (fun _ => False) (s'.drop s.next) where
  next_le := Nat.le_trans (Nat.le_succ _) h.next_le
  frames := by
    obtain ⟨f', rest', hhead, htail, hframes⟩ := List.forall₂_cons_left_iff.mp h.frames
    have hid : f'.id = s.next := hhead.id_eq
    have hdrop : (s'.drop s.next).frames = rest' := by simp [Store.drop, hframes, hid]
    rw [hdrop]
    have hrest : Frame.AllBecome (· = s.next) s.frames rest' := htail
    exact hrest.mono fun f hf hnew => Nat.ne_of_lt (hs.fresh f hf) hnew

end Store

end Logo
