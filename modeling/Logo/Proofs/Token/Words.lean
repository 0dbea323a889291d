import Logo.Proofs.Token.Layout

/-!
# Texts of words only

If all tokens of a text are words, the text is made up of words and blanks, and behind these of
separators, blanks and comments.
-/

namespace Logo

/-! ## Separators at the end -/

namespace Token

/-- Tokens of which only separators at the end are dropped are the ones that are kept, followed by
separators. -/
theorem exists_append_of_destutter {tokens kept dropped : List Token}
    (h : tokens.destutter Apart = kept ++ dropped) (hkept : ∀ t ∈ kept, t.kind ≠ .separator)
    (hdropped : ∀ t ∈ dropped, t.kind = .separator) :
    ∃ separators, tokens = kept ++ separators ∧ (∀ t ∈ separators, t.kind = .separator) ∧
      (dropped = [] → separators = []) := by
  induction tokens using List.reverseRecOn generalizing kept dropped with
  | nil =>
    obtain ⟨rfl, rfl⟩ := List.append_eq_nil_iff.mp h.symm
    exact ⟨[], rfl, by simp, fun _ => rfl⟩
  | append_singleton tokens t ih =>
    by_cases hapart : ∀ u ∈ (tokens.destutter Apart).getLast?, u.Apart t
    · rw [destutter_concat_of_apart hapart] at h
      rcases List.eq_nil_or_concat' dropped with rfl | ⟨init, last, rfl⟩
      · obtain ⟨kept, rfl⟩ : ∃ init, kept = init ++ [t] := ⟨_, by simpa using h.symm⟩
        have hinit : tokens.destutter Apart = kept ++ [] := by simpa using h
        obtain ⟨separators, rfl, _, hnone⟩ :=
          ih hinit (fun u hu => hkept u (List.mem_append_left _ hu)) (by simp)
        obtain rfl := hnone rfl
        exact ⟨[], by simp, by simp, fun _ => rfl⟩
      · rw [← List.append_assoc] at h
        obtain ⟨hinit, hlast⟩ := List.append_inj' h rfl
        obtain ⟨separators, rfl, hseparators, _⟩ :=
          ih hinit hkept fun u hu => hdropped u (List.mem_append_left _ hu)
        have ht : t.kind = .separator := hdropped t (by simp [List.singleton_inj.mp hlast])
        refine ⟨separators ++ [t], by simp, ?_, by simp⟩
        simpa [or_imp, forall_and] using ⟨hseparators, ht⟩
    · obtain ⟨u, hu, hnot⟩ : ∃ u ∈ (tokens.destutter Apart).getLast?, ¬u.Apart t := by
        simpa using hapart
      rw [destutter_concat_of_not_apart hu hnot] at h
      obtain ⟨separators, rfl, hseparators, _⟩ := ih h hkept hdropped
      obtain ⟨husep, ht⟩ := not_not.mp hnot
      refine ⟨separators ++ [t], by simp, ?_, ?_⟩
      · simpa [or_imp, forall_and] using ⟨hseparators, ht⟩
      · rintro rfl
        rw [h, List.append_nil] at hu
        exact absurd husep (hkept u (List.mem_of_mem_getLast? hu))

/-- If condensed tokens have no separator left, only separators at the end have been dropped. -/
theorem exists_append_of_condense {tokens : List Token}
    (h : ∀ t ∈ condense tokens, t.kind ≠ .separator) :
    ∃ separators, tokens = condense tokens ++ separators ∧
      ∀ t ∈ separators, t.kind = .separator := by
  have hsplit : tokens.destutter Apart = condense tokens ++
      (tokens.destutter Apart).rtakeWhile (·.kind = .separator) :=
    List.rdropWhile_append_rtakeWhile.symm
  obtain ⟨separators, heq, hseparators, _⟩ := exists_append_of_destutter hsplit h fun t ht => by
    simpa using List.mem_rtakeWhile_imp ht
  exact ⟨separators, heq, hseparators⟩

end Token

/-! ## Words and blanks -/

namespace Piece

/-- Whether a piece is a word or a blank. -/
def IsPlain : Piece → Prop
  | word _ _ | blank _ => True
  | _ => False

/-- Whether a piece is no token, or a separator. -/
def IsTrailing (piece : Piece) : Prop := ∀ kind ∈ piece.kind?, kind = .separator

/-- Pieces whose tokens are all separators are no tokens or separators. -/
theorem isTrailing_of_tokens {p : Position} {pieces : List Piece}
    (h : ∀ t ∈ tokens p pieces, t.kind = .separator) : ∀ piece ∈ pieces, piece.IsTrailing := by
  induction pieces generalizing p with
  | nil => simp
  | cons piece pieces ih =>
    rw [tokens, List.forall_mem_append] at h
    refine List.forall_mem_cons.mpr ⟨fun kind hkind => ?_, ih h.2⟩
    exact h.1 ⟨kind, p⟩ (by simp [Option.mem_def.mp hkind])

/-- Pieces with the tokens of words, and separators behind them, are words and blanks, and behind
these what is no word. -/
theorem exists_plain_append_trailing {p : Position} {pieces : List Piece}
    {words separators : List Token} (hchain : pieces.IsChain Precedes)
    (h : tokens p pieces = words ++ separators) (hwords : ∀ t ∈ words, t.kind.isStructural = false)
    (hseparators : ∀ t ∈ separators, t.kind = .separator) :
    ∃ main tail, pieces = main ++ tail ∧ (∀ piece ∈ main, piece.IsPlain) ∧
      (∀ piece ∈ tail, piece.IsTrailing) ∧ tokens p main = words := by
  induction pieces generalizing p words with
  | nil =>
    obtain ⟨rfl, _⟩ := List.append_eq_nil_iff.mp h.symm
    exact ⟨[], [], rfl, by simp, by simp, rfl⟩
  | cons piece rest ih =>
    cases words with
    | nil =>
      have htrailing : ∀ t ∈ tokens p (piece :: rest), t.kind = .separator := by
        rwa [h, List.nil_append]
      exact ⟨[], piece :: rest, rfl, by simp, isTrailing_of_tokens htrailing, rfl⟩
    | cons t words =>
      obtain ⟨ht, hwords'⟩ := List.forall_mem_cons.mp hwords
      rw [tokens] at h
      cases piece with
      | word atoms cut =>
        obtain ⟨hfirst, hrest⟩ := List.cons.inj h
        obtain ⟨main, tail, rfl, hmain, htail, hsame⟩ := ih hchain.tail hrest hwords'
        refine ⟨word atoms cut :: main, tail, rfl, ?_, htail, ?_⟩
        · exact List.forall_mem_cons.mpr ⟨trivial, hmain⟩
        · rw [tokens, hsame]
          exact congrArg (· :: words) hfirst
      | blank c =>
        obtain ⟨main, tail, rfl, hmain, htail, hsame⟩ := ih hchain.tail h hwords
        refine ⟨blank c :: main, tail, rfl, ?_, htail, hsame⟩
        exact List.forall_mem_cons.mpr ⟨trivial, hmain⟩
      | blockOpen | blockClose | separator c =>
        rw [← (List.cons.inj h).1] at ht
        cases ht
      | comment body =>
        -- Only a line feed, which is no word, can follow a comment.
        cases rest with
        | nil => cases h
        | cons next rest =>
          obtain rfl : next = separator '\n' := (List.isChain_cons_cons.mp hchain).1
          have hfirst := (List.cons.inj h).1
          rw [← hfirst] at ht
          cases ht

end Piece

end Logo
