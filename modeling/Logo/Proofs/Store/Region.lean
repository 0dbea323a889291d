import Logo.Proofs.Store.Growth
import Logo.Proofs.Value.Codes

/-!
# Frames that code belongs to

Code belongs to the frame that it was written in, and runs only while this frame is in use. A run
reaches the frames in which its program looks up names, and the frames that are made later. In a
sound store, a frame in reach holds only code of frames that last at least as long as it does:
frames that were there before the run, and frames that are not newer. Making and dropping frames and
writing variables keep a store sound, as long as no code is written into an older frame.
-/

namespace Logo

/-- Whether all code that a frame holds, in its variables and its bindings, has a property. -/
def Frame.AllCode (P : Code → Prop) (f : Frame) : Prop :=
  (∀ cell ∈ f.cells, cell.2.AllCode P) ∧ ∀ binding ∈ f.bindings.getD [], binding.2.AllCode P

namespace Frame

variable {P Q : Code → Prop} {f : Frame}

/-- Code with one property has every weaker one. -/
theorem AllCode.mono (h : f.AllCode P) (hPQ : ∀ c, P c → Q c) : f.AllCode Q :=
  ⟨fun cell hcell => (h.1 cell hcell).mono hPQ,
    fun binding hbinding => (h.2 binding hbinding).mono hPQ⟩

/-- A variable or binding that is found holds only code with the property. -/
theorem AllCode.find? (h : f.AllCode P) {name : String} {v : Value} (hv : f.find? name = some v) :
    v.AllCode P := by
  unfold Frame.find? at hv
  split at hv
  · next w hcell =>
    obtain rfl := Option.some.inj hv
    exact of_lookup_eq_some (Q := Value.AllCode P) h.1 hcell
  · exact of_lookup_eq_some (Q := Value.AllCode P) h.2 hv

variable {fs : List Frame} {id? : Option FrameId}

/-- The frames in which a name is looked up are not newer than the first of them. -/
theorem le_of_mem_chain (hfs : fs.Pairwise fun f g => g.id < f.id) {id : FrameId}
    (h : f ∈ chain fs (some id)) : f.id ≤ id := by
  induction fs with
  | nil => simp [chain] at h
  | cons g rest ih =>
    rw [List.pairwise_cons] at hfs
    unfold chain at h
    split at h
    · next hid =>
      subst hid
      rcases List.mem_cons.mp h with rfl | hmem
      · exact Nat.le_refl _
      · exact Nat.le_of_lt (hfs.1 f (Store.mem_of_mem_chain hmem))
    · exact ih hfs.2 h

/-- A condition that passes from frames to their older parents holds of all frames in which a name
is looked up. -/
theorem of_mem_chain {Q : FrameId → Prop} (hfs : fs.Pairwise fun f g => g.id < f.id)
    (hparent : ∀ f ∈ fs, Q f.id → ∀ g ∈ fs, f.parent = some g.id → g.id < f.id → Q g.id)
    (hid : ∀ g ∈ fs, id? = some g.id → Q g.id) (h : f ∈ chain fs id?) : Q f.id := by
  fun_induction chain fs id? with
  | case1 | case2 => simp at h
  | case3 first rest ih =>
    rw [List.pairwise_cons] at hfs
    have hfirst : Q first.id := hid first List.mem_cons_self rfl
    rcases List.mem_cons.mp h with rfl | hmem
    · exact hfirst
    · refine ih hfs.2 (fun f hf hQ g hg => ?_) (fun g hg hparent' => ?_) hmem
      · exact hparent f (List.mem_cons_of_mem _ hf) hQ g (List.mem_cons_of_mem _ hg)
      · exact hparent first List.mem_cons_self hfirst g (List.mem_cons_of_mem _ hg) hparent'
          (hfs.1 g hg)
  | case4 first rest id hne ih =>
    rw [List.pairwise_cons] at hfs
    refine ih hfs.2 (fun f hf hQ g hg => ?_) (fun g hg => hid g (List.mem_cons_of_mem _ hg)) h
    exact hparent f (List.mem_cons_of_mem _ hf) hQ g (List.mem_cons_of_mem _ hg)

/-- A frame is the first one in which a name is looked up from it. -/
theorem mem_chain_self (hfs : fs.Pairwise fun f g => g.id < f.id) (hf : f ∈ fs) :
    f ∈ chain fs (some f.id) := by
  induction fs with
  | nil => simp at hf
  | cons g rest ih =>
    rw [List.pairwise_cons] at hfs
    unfold chain
    rcases List.mem_cons.mp hf with rfl | hmem
    · simp
    · rw [if_neg (Nat.ne_of_gt (hfs.1 f hmem))]
      exact ih hfs.2 hmem

/-- A name that is looked up in a frame is looked up in its older parent, too. -/
theorem mem_chain_of_parent (hfs : fs.Pairwise fun f g => g.id < f.id) (h : f ∈ chain fs id?)
    {g : Frame} (hg : g ∈ fs) (hparent : f.parent = some g.id) (hlt : g.id < f.id) :
    g ∈ chain fs id? := by
  fun_induction chain fs id? with
  | case1 | case2 => simp at h
  | case3 first rest ih =>
    rw [List.pairwise_cons] at hfs
    refine List.mem_cons_of_mem _ ?_
    rcases List.mem_cons.mp h with rfl | hmem
    · have hrest : g ∈ rest := List.mem_of_ne_of_mem (fun heq => Nat.ne_of_lt hlt (heq ▸ rfl)) hg
      rw [hparent]
      exact mem_chain_self hfs.2 hrest
    · have hnewer : g.id < first.id := Nat.lt_trans hlt (hfs.1 f (Store.mem_of_mem_chain hmem))
      have hrest : g ∈ rest := List.mem_of_ne_of_mem (fun heq => Nat.ne_of_lt hnewer (heq ▸ rfl)) hg
      exact ih hfs.2 hmem hrest
  | case4 first rest id hne ih =>
    rw [List.pairwise_cons] at hfs
    have hnewer : g.id < first.id := Nat.lt_trans hlt (hfs.1 f (Store.mem_of_mem_chain h))
    have hrest : g ∈ rest := List.mem_of_ne_of_mem (fun heq => Nat.ne_of_lt hnewer (heq ▸ rfl)) hg
    exact ih hfs.2 h hrest

end Frame

/-! ## Regions -/

/-- The frames that a run reaches: some older ones, and all from a number on. -/
structure Region where
  roots : List FrameId
  /-- The number of the first frame that is made in the run. -/
  first : FrameId

namespace Region

/-- Whether a run reaches a frame. -/
def Has (R : Region) (id : FrameId) : Prop := id ∈ R.roots ∨ R.first ≤ id

/-- Whether code belongs to a frame in use that the run reaches and that lasts at least as long as
the frame `id`. -/
def Lasts (R : Region) (s : Store) (id : FrameId) (c : Code) : Prop :=
  c.frame ∈ R.roots ∨ R.first ≤ c.frame ∧ c.frame ≤ id ∧ s.isLive c.frame = true

/-- Whether the frames that a run reaches hold only code that lasts as long as they do. -/
structure Sound (R : Region) (s : Store) : Prop where
  ordered : s.Ordered
  first_le : R.first ≤ s.next
  roots_live : ∀ id ∈ R.roots, s.isLive id = true ∧ id < R.first
  parents : ∀ f ∈ s.frames, R.Has f.id → ∀ g ∈ s.frames, f.parent = some g.id → g.id < f.id →
    R.Has g.id
  codes : ∀ f ∈ s.frames, R.Has f.id → f.AllCode (R.Lasts s f.id)

variable {R : Region} {s s' : Store} {id id' : FrameId} {c : Code}

/-- Code that lasts belongs to a frame that the run reaches. -/
theorem Lasts.has (h : R.Lasts s id c) : R.Has c.frame := h.imp_right fun h => h.1

/-- Code lasts as long as newer frames do, and in other stores in which its frame is in use. -/
theorem Lasts.mono (h : R.Lasts s id c) (hid : id ≤ id')
    (hlive : s.isLive c.frame = true → s'.isLive c.frame = true) : R.Lasts s' id' c :=
  h.imp_right fun ⟨hfirst, hle, hlive'⟩ => ⟨hfirst, Nat.le_trans hle hid, hlive hlive'⟩

namespace Sound

/-- Code that lasts belongs to a frame in use. -/
theorem isLive (h : R.Sound s) (hc : R.Lasts s id c) : s.isLive c.frame = true := by
  rcases hc with hroot | ⟨_, _, hlive⟩
  · exact (h.roots_live _ hroot).1
  · exact hlive

/-- Names are looked up in frames that the run reaches. -/
theorem has_of_mem_chain (h : R.Sound s) (hid : R.Has id) {f : Frame} (hf : f ∈ s.chain id) :
    R.Has f.id := by
  refine Frame.of_mem_chain h.ordered.newest_first h.parents (fun g _ heq => ?_) hf
  rwa [← Option.some.inj heq]

/-- Variables that are visible from a frame hold code that lasts as long as the frame. -/
theorem find? (h : R.Sound s) (hid : R.Has id) {name : String} {v : Value}
    (hv : s.find? id name = some v) : v.AllCode (R.Lasts s id) := by
  obtain ⟨f, hf, hname⟩ := List.exists_of_findSome?_eq_some hv
  have hle := Frame.le_of_mem_chain h.ordered.newest_first hf
  have hcodes := h.codes f (Store.mem_of_mem_chain hf) (h.has_of_mem_chain hid hf)
  exact (hcodes.find? hname).mono fun c hc => hc.mono hle fun hlive => hlive

/-- A block that is written in a frame lasts as long as the frame. -/
theorem lasts_self (h : R.Has id) (hlive : s.isLive id = true) (hc : c.frame = id) :
    R.Lasts s id c := by
  subst hc
  rcases h with hroot | hfirst
  · exact .inl hroot
  · exact .inr ⟨hfirst, Nat.le_refl _, hlive⟩

/-! ### New frames -/

/-- A new frame inside the frame of some code, with bindings that last. -/
theorem push (h : R.Sound s) {bindings : Option Bindings} (hid : id < s.next)
    (hc : R.Lasts s id c) (hbindings : ∀ b ∈ bindings.getD [], b.2.AllCode (R.Lasts s id)) :
    R.Sound (s.push (some c.frame) bindings) where
  ordered := h.ordered.push _ _
  first_le := Nat.le_succ_of_le h.first_le
  roots_live root hroot := by
    obtain ⟨hlive, hlt⟩ := h.roots_live root hroot
    exact ⟨Store.isLive_push_of_isLive hlive, hlt⟩
  parents := by
    intro f hf hhas g hg hparent hlt
    rcases List.mem_cons.mp hf with rfl | hf
    · rw [← Option.some.inj hparent]
      exact hc.has
    · rcases List.mem_cons.mp hg with rfl | hg
      · exact absurd (Nat.lt_trans hlt (h.ordered.fresh f hf)) (Nat.lt_irrefl _)
      · exact h.parents f hf hhas g hg hparent hlt
  codes := by
    intro f hf hhas
    rcases List.mem_cons.mp hf with rfl | hf
    · refine ⟨by simp, fun b hb => (hbindings b hb).mono fun c hc => ?_⟩
      exact hc.mono (Nat.le_of_lt hid) Store.isLive_push_of_isLive
    · exact (h.codes f hf hhas).mono fun c hc => hc.mono (Nat.le_refl _) Store.isLive_push_of_isLive

/-- The newest frame is dropped, and no other frame holds code of it. -/
theorem drop {parent : Option FrameId} {bindings : Option Bindings} (h : R.Sound s)
    (hbecomes : (s.push parent bindings).Becomes (· = s.next) s') (h' : R.Sound s') :
    R.Sound (s'.drop s.next) := by
  have hkept := hbecomes.drop h.ordered
  have hmem {f : Frame} (hf : f ∈ (s'.drop s.next).frames) : f ∈ s'.frames :=
    List.mem_of_mem_eraseP hf
  have hold {f : Frame} (hf : f ∈ (s'.drop s.next).frames) : f.id < s.next := by
    obtain ⟨g, hg, hfg⟩ := hkept.frames.exists_of_mem hf
    rw [hfg.id_eq]
    exact h.ordered.fresh g hg
  refine ⟨hkept.ordered h.ordered, h'.first_le, fun root hroot => ?_, fun f hf hhas g hg => ?_,
    fun f hf hhas => ?_⟩
  · rw [hkept.isLive]
    exact h.roots_live root hroot
  · exact h'.parents f (hmem hf) hhas g (hmem hg)
  · refine (h'.codes f (hmem hf) hhas).mono fun c hc => hc.imp_right ?_
    rintro ⟨hfirst, hle, hlive⟩
    obtain ⟨g, hg, hgid⟩ := Store.isLive_iff.mp hlive
    have hne : g.id ≠ s.next := hgid ▸ Nat.ne_of_lt (Nat.lt_of_le_of_lt hle (hold hf))
    have hg' : g ∈ (s'.drop s.next).frames := (List.mem_eraseP_of_neg (by simpa using hne)).mpr hg
    exact ⟨hfirst, hle, Store.isLive_iff.mpr ⟨g, hg', hgid⟩⟩

/-! ### Writes -/

/-- A variable of a frame gets a value with code that lasts as long as the frame. -/
theorem write (h : R.Sound s) {v : Value} (hv : v.AllCode (R.Lasts s id)) (name : String) :
    R.Sound (s.write id name v) := by
  by_cases hid : ∃ f ∈ s.frames, f.id = id
  · obtain ⟨owner, howner, rfl⟩ := hid
    have hbecomes := Store.becomes_write h.ordered howner name v
    have hlasts {id : FrameId} {c : Code} (hc : R.Lasts s id c) :
        R.Lasts (s.write owner.id name v) id c :=
      hc.mono (Nat.le_refl _) fun hlive => (hbecomes.isLive _).trans hlive
    refine ⟨hbecomes.ordered h.ordered, h.first_le, fun root hroot => ?_, ?_, ?_⟩
    · rw [hbecomes.isLive]
      exact h.roots_live root hroot
    · intro f' hf' hhas g' hg' hparent hlt
      obtain ⟨f, hf, hff'⟩ := hbecomes.frames.exists_of_mem hf'
      obtain ⟨g, hg, hgg'⟩ := hbecomes.frames.exists_of_mem hg'
      rw [hff'.id_eq] at hhas hlt
      rw [hff'.parent_eq] at hparent
      rw [hgg'.id_eq] at hparent hlt ⊢
      exact h.parents f hf hhas g hg hparent hlt
    · intro f' hf' hhas
      obtain ⟨f, hf, rfl⟩ := List.mem_map.mp hf'
      by_cases hfid : f.id = owner.id
      · simp only [if_pos hfid] at hhas ⊢
        have hcodes := h.codes f hf hhas
        refine ⟨forall_putField (fun cell hcell => ?_) ?_, fun b hb => ?_⟩
        · exact (hcodes.1 cell hcell).mono fun c hc => hlasts hc
        · exact hv.mono fun c hc => hlasts (hfid ▸ hc)
        · exact (hcodes.2 b hb).mono fun c hc => hlasts hc
      · simp only [if_neg hfid] at hhas ⊢
        exact (h.codes f hf hhas).mono fun c hc => hlasts hc
  · rwa [Store.write_of_not_mem fun f hf hfid => hid ⟨f, hf, hfid⟩]

/-- A frame makes a variable with code that lasts as long as the frame. -/
theorem create (h : R.Sound s) (hid : R.Has id) {effort : ℕ} {path : String} {v : Value}
    (hv : v.AllCode (R.Lasts s id)) (hcreate : s.create effort id path v = pure s') :
    R.Sound s' := by
  obtain ⟨resolved, cell, _, hcell, rfl⟩ := Store.exists_of_create hcreate
  refine h.write (hv.materialize ?_ hcell) resolved.base
  rcases hown : s.own? id resolved.base with _ | old
  · exact Value.allCode_number _
  · obtain ⟨f, hf, hold⟩ := Option.bind_eq_some_iff.mp hown
    have hfid : f.id = id := by simpa using List.find?_some hf
    have hcodes := h.codes f (List.mem_of_find?_eq_some hf) (hfid ▸ hid)
    rw [Option.getD_some, ← hfid]
    exact of_lookup_eq_some (Q := Value.AllCode _) hcodes.1 hold

/-- A variable is set to a value without code. -/
theorem set (h : R.Sound s) (hid : R.Has id) {effort : ℕ} {path : String} {v : Value}
    (hv : v.codes = []) (hset : s.set effort id path v = pure s') : R.Sound s' := by
  obtain ⟨resolved, f, old, cell, _, hholder, hold, hcell, rfl⟩ := Store.exists_of_set hset
  refine h.write (Value.AllCode.assign (Value.allCode_of_codes_eq_nil hv) ?_ hcell) resolved.base
  have hf := List.mem_of_find?_eq_some hholder
  have hcodes := h.codes f (Store.mem_of_mem_chain hf) (h.has_of_mem_chain hid hf)
  exact of_lookup_eq_some (Q := Value.AllCode _) hcodes.1 hold

end Sound

/-! ### The start of a run -/

/-- The region of a run that starts in a frame. -/
def start (s : Store) (frame : FrameId) : Region where
  roots := (s.chain frame).map Frame.id
  first := s.next

/-- A store is sound if the frames in which names are looked up hold only code of such frames. -/
theorem sound_start {frame : FrameId} (hs : s.Ordered)
    (hcodes : ∀ f ∈ s.chain frame, f.AllCode fun c => ∃ g ∈ s.chain frame, g.id = c.frame) :
    (start s frame).Sound s := by
  have hchain {f : Frame} (hf : f ∈ s.frames) (hhas : (start s frame).Has f.id) :
      f ∈ s.chain frame := by
    rcases hhas with hroot | hfirst
    · obtain ⟨g, hg, hid⟩ := List.mem_map.mp hroot
      rwa [hs.eq_of_id hf (Store.mem_of_mem_chain hg) hid.symm]
    · exact absurd (hs.fresh f hf) (Nat.not_lt.mpr hfirst)
  refine ⟨hs, Nat.le_refl _, ?_, ?_, ?_⟩
  · intro root hroot
    obtain ⟨f, hf, rfl⟩ := List.mem_map.mp hroot
    have hmem := Store.mem_of_mem_chain hf
    exact ⟨Store.isLive_iff.mpr ⟨f, hmem, rfl⟩, hs.fresh f hmem⟩
  · intro f hf hhas g hg hparent hlt
    have hg' := Frame.mem_chain_of_parent hs.newest_first (hchain hf hhas) hg hparent hlt
    exact .inl (List.mem_map_of_mem hg')
  · intro f hf hhas
    refine (hcodes f (hchain hf hhas)).mono fun c hc => .inl ?_
    obtain ⟨g, hg, hid⟩ := hc
    exact hid ▸ List.mem_map_of_mem hg

end Region

end Logo
