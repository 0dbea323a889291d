import Logo.Proofs.Store.Region

/-!
# Frames that a run can get to

A run gets from a frame to its parent and to the frames of the code that it holds, and it makes new
frames. A store is confined to a kind of frames if no frame of this kind leads to another kind, and
if these frames hold only code with a property. Making and dropping frames and writing variables
keep a store confined, as long as what is written has the property.
-/

namespace Logo

/-- Whether a run that starts in the frame `root` can get to a frame. -/
inductive Store.Reaches (s : Store) (root : FrameId) : FrameId → Prop
  | root : Reaches s root root
  | parent {f : Frame} {id : FrameId} (hf : f ∈ s.frames) (h : Reaches s root f.id)
      (hparent : f.parent = some id) : Reaches s root id
  | code {f : Frame} {binding : String × Value} {c : Code} (hf : f ∈ s.frames)
      (h : Reaches s root f.id) (hbinding : binding ∈ f.cells ++ f.bindings.getD [])
      (hc : c ∈ binding.2.codes) : Reaches s root c.frame

/-- Whether the frames of a kind lead to frames of this kind only, and hold only code with a
property. All frames that are not made yet are of this kind. -/
structure Store.Confined (R : FrameId → Prop) (C : Code → Prop) (s : Store) : Prop where
  fresh : ∀ id, s.next ≤ id → R id
  parents : ∀ f ∈ s.frames, R f.id → ∀ id, f.parent = some id → R id
  codes : ∀ f ∈ s.frames, R f.id → f.AllCode C

/-- The frames in which a name is looked up are of the kind of the first one. -/
theorem Frame.confined_of_mem_chain {R : FrameId → Prop} {fs : List Frame} {id? : Option FrameId}
    {f : Frame} (hparents : ∀ f ∈ fs, R f.id → ∀ id, f.parent = some id → R id)
    (hid : ∀ id, id? = some id → R id) (h : f ∈ chain fs id?) : R f.id := by
  fun_induction chain fs id? with
  | case1 | case2 => simp at h
  | case3 first rest ih =>
    have hfirst : R first.id := hid _ rfl
    rcases List.mem_cons.mp h with rfl | hmem
    · exact hfirst
    · exact ih (fun g hg => hparents g (List.mem_cons_of_mem _ hg))
        (hparents first List.mem_cons_self hfirst) hmem
  | case4 first rest id hne ih =>
    exact ih (fun g hg => hparents g (List.mem_cons_of_mem _ hg)) hid h

namespace Store.Confined

variable {R : FrameId → Prop} {C : Code → Prop} {s s' : Store} {id : FrameId} {v : Value}

/-- All frames of a chain that starts at a frame of the kind are of this kind. -/
theorem has_of_mem_chain (h : s.Confined R C) (hid : R id) {f : Frame} (hf : f ∈ s.chain id) :
    R f.id := by
  refine Frame.confined_of_mem_chain h.parents (fun id' heq => ?_) hf
  rwa [← Option.some.inj heq]

/-- Variables that are visible from a frame hold only code with the property. -/
theorem find? (h : s.Confined R C) (hid : R id) {name : String} (hv : s.find? id name = some v) :
    v.AllCode C := by
  obtain ⟨f, hf, hname⟩ := List.exists_of_findSome?_eq_some hv
  exact (h.codes f (Store.mem_of_mem_chain hf) (h.has_of_mem_chain hid hf)).find? hname

/-- A new frame below one of the kind keeps the store confined, if its bindings hold such code only.
-/
theorem push (h : s.Confined R C) (hid : R id) {bindings : Option Bindings}
    (hbindings : ∀ b ∈ bindings.getD [], b.2.AllCode C) :
    (s.push (some id) bindings).Confined R C where
  fresh id' hid' := h.fresh id' (Nat.le_of_succ_le hid')
  parents f hf hR parent hparent := by
    rcases List.mem_cons.mp hf with rfl | hf
    · rwa [← Option.some.inj hparent]
    · exact h.parents f hf hR parent hparent
  codes f hf hR := by
    rcases List.mem_cons.mp hf with rfl | hf
    · exact ⟨by simp, hbindings⟩
    · exact h.codes f hf hR

/-- Dropping a frame keeps the store confined. -/
theorem drop (h : s.Confined R C) (id : FrameId) : (s.drop id).Confined R C where
  fresh := h.fresh
  parents f hf := h.parents f (List.mem_of_mem_eraseP hf)
  codes f hf := h.codes f (List.mem_of_mem_eraseP hf)

/-- Writing a value that holds such code only keeps the store confined. -/
theorem write (h : s.Confined R C) (hv : v.AllCode C) (id : FrameId) (name : String) :
    (s.write id name v).Confined R C := by
  refine ⟨h.fresh, fun f' hf' hR parent hparent => ?_, fun f' hf' hR => ?_⟩
  · obtain ⟨f, hf, rfl⟩ := List.mem_map.mp hf'
    by_cases hid : f.id = id
    · simp only [if_pos hid] at hR hparent
      exact h.parents f hf hR parent hparent
    · simp only [if_neg hid] at hR hparent
      exact h.parents f hf hR parent hparent
  · obtain ⟨f, hf, rfl⟩ := List.mem_map.mp hf'
    by_cases hid : f.id = id
    · simp only [if_pos hid] at hR ⊢
      exact ⟨forall_putField (h.codes f hf hR).1 hv, (h.codes f hf hR).2⟩
    · simp only [if_neg hid] at hR ⊢
      exact h.codes f hf hR

/-- Making a variable, or a member of one, with such a value keeps the store confined. -/
theorem create (h : s.Confined R C) (hid : R id) (hv : v.AllCode C) {effort : ℕ} {path : String}
    (hcreate : s.create effort id path v = pure s') : s'.Confined R C := by
  obtain ⟨resolved, cell, _, hcell, rfl⟩ := Store.exists_of_create hcreate
  refine h.write (hv.materialize ?_ hcell) id resolved.base
  rcases hown : s.own? id resolved.base with _ | old
  · exact Value.allCode_number _
  · obtain ⟨f, hf, hold⟩ := Option.bind_eq_some_iff.mp hown
    have hfid : f.id = id := by simpa using List.find?_some hf
    have hcodes := h.codes f (List.mem_of_find?_eq_some hf) (hfid ▸ hid)
    exact of_lookup_eq_some (Q := Value.AllCode _) hcodes.1 hold

/-- Assigning such a value to a variable, or to a member of one, keeps the store confined. -/
theorem set (h : s.Confined R C) (hid : R id) (hv : v.AllCode C) {effort : ℕ} {path : String}
    (hset : s.set effort id path v = pure s') : s'.Confined R C := by
  obtain ⟨resolved, f, old, cell, _, hholder, hold, hcell, rfl⟩ := Store.exists_of_set hset
  refine h.write (hv.assign ?_ hcell) f.id resolved.base
  have hf := List.mem_of_find?_eq_some hholder
  have hcodes := h.codes f (Store.mem_of_mem_chain hf) (h.has_of_mem_chain hid hf)
  exact of_lookup_eq_some (Q := Value.AllCode _) hcodes.1 hold

/-- At its start, a run is confined to the frames that it can get to and to those that are not made
yet. -/
theorem start {root : FrameId} (hs : s.Ordered)
    (hcodes : ∀ f ∈ s.frames, s.Reaches root f.id → f.AllCode C) :
    s.Confined (fun id => s.Reaches root id ∨ s.next ≤ id)
      fun c => C c ∧ (s.Reaches root c.frame ∨ s.next ≤ c.frame) := by
  have hreaches {f : Frame} (hf : f ∈ s.frames) (hR : s.Reaches root f.id ∨ s.next ≤ f.id) :
      s.Reaches root f.id :=
    hR.resolve_right (Nat.not_le.mpr (hs.fresh f hf))
  refine ⟨fun id hid => .inr hid, fun f hf hR parent hparent => ?_, fun f hf hR => ?_⟩
  · exact .inl (.parent hf (hreaches hf hR) hparent)
  · obtain ⟨hcells, hbindings⟩ := hcodes f hf (hreaches hf hR)
    refine ⟨fun cell hcell c hc => ⟨hcells cell hcell c hc, .inl ?_⟩,
      fun binding hbinding c hc => ⟨hbindings binding hbinding c hc, .inl ?_⟩⟩
    · exact .code hf (hreaches hf hR) (List.mem_append_left _ hcell) hc
    · exact .code hf (hreaches hf hR) (List.mem_append_right _ hbinding) hc

end Store.Confined

end Logo
