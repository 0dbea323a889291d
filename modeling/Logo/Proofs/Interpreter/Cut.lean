import Logo.Proofs.Interpreter.Agree
import Logo.Proofs.Interpreter.Names
import Logo.Proofs.Interpreter.Trace

/-!
# Runs that are cut off

A host may refuse a statement by a failure of its hook. If it does so before the statement with some
number and else acts as before, then the run is cut off there: up to this statement it is the same,
and all that still happens is that the failure is passed on and that frames are dropped. The parts
of a run that are cut off in this way can be put together.
-/

namespace Logo

variable {σ α β : Type}

/-- A store without the frames that an older store does not have. -/
def Store.restrict (s old : Store) : Store :=
  { s with frames := s.frames.filter fun f => old.isLive f.id }

namespace Store

variable {s old : Store}

/-- A store has no frames that it does not have itself. -/
theorem restrict_self (s : Store) : s.restrict s = s := by
  have hlive : s.frames.filter (fun f => s.isLive f.id) = s.frames :=
    List.filter_eq_self.mpr fun f hf => isLive_iff.mpr ⟨f, hf, rfl⟩
  rw [restrict, hlive]

/-- Only the frames that are in use tell what a store is cut down to. -/
theorem restrict_congr {old' : Store} (h : ∀ id, old'.isLive id = old.isLive id) :
    s.restrict old' = s.restrict old := by
  simp only [restrict, h]

/-- The frame that was new is dropped. -/
theorem drop_restrict_push (hs : s.Ordered) (hold : old.Ordered) (parent : Option FrameId)
    (bindings : Option Bindings) :
    (s.restrict (old.push parent bindings)).drop old.next = s.restrict old := by
  have hlive {id : FrameId} (hid : id ≠ old.next) :
      (old.push parent bindings).isLive id = old.isLive id := by
    simp [isLive, push, hid.symm]
  have hfresh : old.isLive old.next = false := by
    rw [← Bool.not_eq_true, isLive_iff]
    rintro ⟨f, hf, hid⟩
    exact Nat.ne_of_lt (hold.fresh f hf) hid
  have hframes (frames : List Frame) (hframes : frames.Pairwise fun f g => g.id < f.id) :
      (frames.filter fun f => (old.push parent bindings).isLive f.id).eraseP (·.id = old.next) =
        frames.filter fun f => old.isLive f.id := by
    induction frames with
    | nil => rfl
    | cons f rest ih =>
      obtain ⟨hfirst, hrest⟩ := List.pairwise_cons.mp hframes
      by_cases hid : f.id = old.next
      -- Older frames follow, so the new frame is dropped here and not further on.
      · have hnew : (old.push parent bindings).isLive old.next = true :=
          isLive_iff.mpr ⟨_, List.mem_cons_self, rfl⟩
        have hsame : rest.filter (fun g => (old.push parent bindings).isLive g.id) =
            rest.filter fun g => old.isLive g.id := by
          refine List.filter_congr fun g hg => hlive ?_
          exact hid ▸ Nat.ne_of_lt (hfirst g hg)
        simp [hid, hnew, hfresh, hsame]
      · by_cases hlast : old.isLive f.id = true
        · simp [hlive hid, hlast, hid, ih hrest]
        · simp [hlive hid, hlast, ih hrest]
  rw [restrict, drop]
  exact congrArg (fun frames => { s with frames }) (hframes s.frames hs.newest_first)

end Store

/-- Whether a machine can come after another one: the same frames are in use, and no message was
taken back. -/
structure Machine.Follows (m m' : Machine σ) : Prop where
  ordered : m'.store.Ordered
  isLive_eq : ∀ id, m'.store.isLive id = m.store.isLive id
  sent : m.outbox.sent <+: m'.outbox.sent

namespace Machine.Follows

/-- A machine with frames in order can come after itself. -/
theorem refl {m : Machine σ} (hm : m.store.Ordered) : m.Follows m :=
  ⟨hm, fun _ => rfl, List.prefix_rfl⟩

/-- What can come after a machine that can come after another one can come after the first. -/
theorem trans {m m' m'' : Machine σ} (h : m.Follows m') (h' : m'.Follows m'') : m.Follows m'' :=
  ⟨h'.ordered, fun id => (h'.isLive_eq id).trans (h.isLive_eq id), h.sent.trans h'.sent⟩

/-- A machine that another one becomes can come after it, if no message was taken back. -/
theorem of_becomes {m m' : Machine σ} {grows : FrameId → Prop} (h : m.Becomes grows m')
    (hm : m.store.Ordered) (hsent : m.outbox.sent <+: m'.outbox.sent) : m.Follows m' :=
  ⟨(h hm).ordered hm, (h hm).isLive, hsent⟩

end Machine.Follows

/-- Whether an action has ended because a statement was refused by its hook: it has failed with the
failure of the hook, and has left the store that this statement found, without new frames. -/
def StatementRun.Refused (hooks : Hooks σ) (st : StatementRun σ) (old : Store)
    (outcome : Option (Except Failure α × Machine σ)) : Prop :=
  ∃ f refused left, (hooks.announce st.statement).apply st.start = some (.error f, refused) ∧
    outcome = some (.error (f.atLine st.statement.pos.line), left) ∧
    left.store = st.start.store.restrict old ∧ left.outbox = refused.outbox

/-- Whether the action `a'` is the action `a` cut off before the statement with the number `n`, if
it comes to this statement; `started` and `started'` are the statements that they run on a machine.
The host counts the statements, and the action `a` takes no message back. -/
structure Cut (count : σ → ℕ) (n : ℕ) (hooks stopping : Hooks σ) (a a' : Action σ α)
    (started started' : List (StatementRun σ)) (m : Machine σ) : Prop where
  ends : ∀ r m', a.apply m = some (r, m') → m.Follows m'
  counts : ∀ x m', a.apply m = some (.ok x, m') → count m'.host = count m.host + started.length
  starts : ∀ st ∈ started, st.start.store.Ordered ∧
    ∀ announced, (hooks.announce st.statement).apply st.start = some (.ok (), announced) →
      ∀ r m', a.apply m = some (r, m') → announced.outbox.sent <+: m'.outbox.sent
  same : count m.host + started.length ≤ n → a'.apply m = a.apply m ∧ started' = started
  stopped : ∀ st, count m.host ≤ n → started[n - count m.host]? = some st →
    started' = started.take (n - count m.host + 1) ∧ st.Refused stopping m.store (a'.apply m)

namespace StatementRun.Refused

variable {hooks : Hooks σ} {st : StatementRun σ} {old : Store} {a : Action σ α} {m : Machine σ}

/-- After an action that was refused, nothing is run. -/
theorem followed (h : st.Refused hooks old (a.apply m)) (rest : α → Machine σ → List β) :
    a.followed rest m = [] := by
  obtain ⟨f, refused, left, _, hleft, _⟩ := h
  exact Action.followed_of_error hleft

/-- If the first of two actions is refused, then so are both. -/
theorem bind (h : st.Refused hooks old (a.apply m)) (f : α → Action σ β) :
    st.Refused hooks old ((a >>= f).apply m) := by
  obtain ⟨failure, refused, left, hhook, hleft, hstore, houtbox⟩ := h
  refine ⟨failure, refused, left, hhook, ?_, hstore, houtbox⟩
  rw [Action.apply_bind, hleft, Action.continueWith_error]

end StatementRun.Refused

namespace Cut

variable {count : σ → ℕ} {n : ℕ} {hooks stopping : Hooks σ} {a a' : Action σ α}
  {started started' : List (StatementRun σ)} {m : Machine σ}

/-- Being cut off depends only on what the actions do on the machine. -/
theorem congr {b b' : Action σ α} (h : Cut count n hooks stopping b b' started started' m)
    (ha : a.apply m = b.apply m) (ha' : a'.apply m = b'.apply m) :
    Cut count n hooks stopping a a' started started' m where
  ends := ha ▸ h.ends
  counts := ha ▸ h.counts
  starts := ha ▸ h.starts
  same := ha ▸ ha' ▸ h.same
  stopped := ha' ▸ h.stopped

/-- An action that runs no statement and leaves the host alone is not cut off. -/
theorem leaf (ha : a'.apply m = a.apply m)
    (h : ∀ r m', a.apply m = some (r, m') → m.Follows m' ∧ m'.host = m.host) :
    Cut count n hooks stopping a a' [] [] m where
  ends r m' hr := (h r m' hr).1
  counts x m' hr := by
    rw [(h _ m' hr).2]
    rfl
  starts := by simp
  same _ := ⟨ha, rfl⟩
  stopped := by simp

/-- Doing nothing is never cut off. -/
theorem pure (hm : m.store.Ordered) (x : α) :
    Cut count n hooks stopping (Pure.pure x) (Pure.pure x) [] [] m := by
  refine leaf rfl fun r m' hr => ?_
  cases hr
  exact ⟨.refl hm, rfl⟩

/-- Failing is never cut off. -/
theorem fail (hm : m.store.Ordered) (f : Fault) :
    Cut count n hooks stopping (Action.fail f : Action σ α) (Action.fail f) [] [] m := by
  refine leaf rfl fun r m' hr => ?_
  cases hr
  exact ⟨.refl hm, rfl⟩

/-- Running out of effort is never cut off. -/
theorem exhausted :
    Cut count n hooks stopping (Action.exhausted : Action σ α) Action.exhausted [] [] m := by
  refine leaf rfl fun r m' hr => ?_
  cases hr

/-- An evaluation is never cut off. -/
theorem ofEval (hm : m.store.Ordered) (e : Eval α) :
    Cut count n hooks stopping (Action.ofEval e) (Action.ofEval e) [] [] m := by
  refine leaf rfl fun r m' hr => ?_
  rw [Action.apply_ofEval] at hr
  obtain ⟨_, _, hr⟩ := Option.map_eq_some_iff.mp hr
  cases hr
  exact ⟨.refl hm, rfl⟩

/-- A sequence that does not come to its second part is cut off where its first part is. -/
theorem bind_of_not_ok {f f' : α → Action σ β} {rest rest' : α → Machine σ → List (StatementRun σ)}
    (ha : Cut count n hooks stopping a a' started started' m)
    (hfails : ∀ x m', a.apply m ≠ some (.ok x, m')) :
    Cut count n hooks stopping (a >>= f) (a' >>= f') (started ++ a.followed rest m)
      (started' ++ a'.followed rest' m) m := by
  have herror {r : Except Failure β} {m' : Machine σ} (hr : (a >>= f).apply m = some (r, m')) :
      ∃ failure, a.apply m = some (.error failure, m') ∧ r = .error failure := by
    rw [Action.apply_bind] at hr
    rcases Action.cases_of_continueWith hr with herror | ⟨x, m₁, hrun, _⟩
    · exact herror
    · exact absurd hrun (hfails x m₁)
  have hnil {b : Action σ α} {rest : α → Machine σ → List (StatementRun σ)}
      (hb : b.apply m = a.apply m) : b.followed rest m = [] := by
    refine List.eq_nil_iff_forall_not_mem.mpr fun st hst => ?_
    obtain ⟨x, m', hrun, _⟩ := Action.mem_followed.mp hst
    exact hfails x m' (hb.symm.trans hrun)
  rw [hnil rfl, List.append_nil]
  refine ⟨fun r m' hr => ?_, fun x m' hr => ?_, fun st hst => ?_, fun hlength => ?_,
    fun st hc hst => ?_⟩
  · obtain ⟨failure, hfailed, _⟩ := herror hr
    exact ha.ends _ m' hfailed
  · obtain ⟨failure, _, hfailed⟩ := herror hr
    cases hfailed
  · obtain ⟨hordered, hsent⟩ := ha.starts st hst
    refine ⟨hordered, fun announced hannounce r m' hr => ?_⟩
    obtain ⟨failure, hfailed, _⟩ := herror hr
    exact hsent announced hannounce _ m' hfailed
  · obtain ⟨hsame, rfl⟩ := ha.same hlength
    refine ⟨?_, by rw [hnil hsame, List.append_nil]⟩
    rw [Action.apply_bind, Action.apply_bind, hsame]
    rcases hrun : a.apply m with _ | ⟨failure | x, m₁⟩
    · rfl
    · rfl
    · exact absurd hrun (hfails x m₁)
  · obtain ⟨rfl, hrefused⟩ := ha.stopped st hc hst
    rw [hrefused.followed, List.append_nil]
    exact ⟨rfl, hrefused.bind f'⟩

/-- A sequence is cut off where its first part is, or else where the second one is. -/
theorem bind {f f' : α → Action σ β} {rest rest' : α → Machine σ → List (StatementRun σ)}
    (ha : Cut count n hooks stopping a a' started started' m)
    (hf : ∀ x m₁, a.apply m = some (.ok x, m₁) → m.Follows m₁ →
      Cut count n hooks stopping (f x) (f' x) (rest x m₁) (rest' x m₁) m₁) :
    Cut count n hooks stopping (a >>= f) (a' >>= f') (started ++ a.followed rest m)
      (started' ++ a'.followed rest' m) m := by
  rcases hrun : a.apply m with _ | ⟨failure | x, m₁⟩
  · exact ha.bind_of_not_ok (by simp [hrun])
  · exact ha.bind_of_not_ok (by simp [hrun])
  · have hrest := hf x m₁ hrun (ha.ends _ _ hrun)
    have hcount := ha.counts x m₁ hrun
    have hfollows := ha.ends _ _ hrun
    have happly : (a >>= f).apply m = (f x).apply m₁ := by
      rw [Action.apply_bind, hrun, Action.continueWith_ok]
    rw [Action.followed_of_ok hrun]
    refine ⟨fun r m' hr => ?_, fun y m' hr => ?_, fun st hst => ?_, fun hlength => ?_,
      fun st hc hst => ?_⟩
    · rw [happly] at hr
      exact hfollows.trans (hrest.ends r m' hr)
    · rw [happly] at hr
      rw [hrest.counts y m' hr, hcount, List.length_append, Nat.add_assoc]
    · rw [happly]
      rcases List.mem_append.mp hst with hst | hst
      · obtain ⟨hordered, hsent⟩ := ha.starts st hst
        refine ⟨hordered, fun announced hannounce r m' hr => ?_⟩
        exact (hsent announced hannounce _ m₁ hrun).trans (hrest.ends r m' hr).sent
      · exact hrest.starts st hst
    · rw [List.length_append] at hlength
      obtain ⟨hsame, rfl⟩ := ha.same (by omega)
      obtain ⟨hsame', hrest'⟩ := hrest.same (by omega)
      have hrun' : a'.apply m = some (.ok x, m₁) := hsame.trans hrun
      rw [Action.followed_of_ok hrun', hrest', happly, Action.apply_bind, hrun',
        Action.continueWith_ok]
      exact ⟨hsame', rfl⟩
    · by_cases hfirst : n - count m.host < started.length
      -- The first part is cut off, and the second one does not start.
      · rw [List.getElem?_append_left hfirst] at hst
        obtain ⟨rfl, hrefused⟩ := ha.stopped st hc hst
        rw [hrefused.followed, List.append_nil, List.take_append_of_le_length hfirst]
        exact ⟨rfl, hrefused.bind f'⟩
      -- The first part is the same in both, and the count goes on from where it ends.
      · obtain ⟨hsame, rfl⟩ := ha.same (by omega)
        have hrun' : a'.apply m = some (.ok x, m₁) := hsame.trans hrun
        have hindex : n - count m.host - started'.length = n - count m₁.host := by omega
        rw [List.getElem?_append_right (by omega), hindex] at hst
        obtain ⟨hrest', hrefused⟩ := hrest.stopped st (by omega) hst
        rw [Action.followed_of_ok hrun', hrest', Action.apply_bind, hrun', Action.continueWith_ok]
        refine ⟨?_, ?_⟩
        · have htake : n - count m.host + 1 - started'.length = n - count m₁.host + 1 := by omega
          rw [List.take_append, htake, List.take_of_length_le (l := started') (by omega)]
        · obtain ⟨failure, refused, left, hhook, hleft, hstore, houtbox⟩ := hrefused
          refine ⟨failure, refused, left, hhook, hleft, ?_, houtbox⟩
          rw [hstore, Store.restrict_congr hfollows.isLive_eq]

/-- What follows without running statements is not cut off. -/
theorem bind_leaf {f f' : α → Action σ β} (ha : Cut count n hooks stopping a a' started started' m)
    (hf : ∀ x m₁, a.apply m = some (.ok x, m₁) → m.Follows m₁ →
      Cut count n hooks stopping (f x) (f' x) [] [] m₁) :
    Cut count n hooks stopping (a >>= f) (a' >>= f') started started' m := by
  simpa using ha.bind hf

/-- What is done before and after an action does not matter, if the host, the outbox and the frames
in use are left alone, and a failure that has a line too. -/
theorem around {m₀ : Machine σ} {b b' : Action σ α} {e : Except Failure α → Except Failure α}
    {g : Machine σ → Machine σ} (h : Cut count n hooks stopping a a' started started' m₀)
    (hhost : m₀.host = m.host) (hb : b.apply m = (a.apply m₀).map (Prod.map e g))
    (hb' : b'.apply m = (a'.apply m₀).map (Prod.map e g)) (hok : ∀ r x, e r = .ok x → r = .ok x)
    (hline : ∀ f line, e (.error (Failure.atLine f line)) = .error (f.atLine line))
    (hg : ∀ r m', a.apply m₀ = some (r, m') → m.Follows (g m'))
    (hgsent : ∀ m', (g m').outbox = m'.outbox) (hghost : ∀ m', (g m').host = m'.host)
    (hgstore : ∀ m' st, st ∈ started → m'.store = st.start.store.restrict m₀.store →
      (g m').store = st.start.store.restrict m.store) :
    Cut count n hooks stopping b b' started started' m := by
  have hbefore {r : Except Failure α} {m' : Machine σ} (hr : b.apply m = some (r, m')) :
      ∃ r₁ m₁, a.apply m₀ = some (r₁, m₁) ∧ e r₁ = r ∧ g m₁ = m' := by
    obtain ⟨⟨r₁, m₁⟩, hrun, heq⟩ := Option.map_eq_some_iff.mp (hb.symm.trans hr)
    obtain ⟨hr₁, hm₁⟩ := Prod.mk.inj heq
    exact ⟨r₁, m₁, hrun, hr₁, hm₁⟩
  refine ⟨fun r m' hr => ?_, fun x m' hr => ?_, fun st hst => ?_, fun hlength => ?_,
    fun st hc hst => ?_⟩
  · obtain ⟨r₁, m₁, hrun, _, rfl⟩ := hbefore hr
    exact hg r₁ m₁ hrun
  · obtain ⟨r₁, m₁, hrun, hr₁, rfl⟩ := hbefore hr
    obtain rfl := hok r₁ x hr₁
    rw [hghost, ← hhost]
    exact h.counts x m₁ hrun
  · obtain ⟨hordered, hsent⟩ := h.starts st hst
    refine ⟨hordered, fun announced hannounce r m' hr => ?_⟩
    obtain ⟨r₁, m₁, hrun, _, rfl⟩ := hbefore hr
    rw [hgsent]
    exact hsent announced hannounce r₁ m₁ hrun
  · obtain ⟨hsame, hstarted⟩ := h.same (hhost ▸ hlength)
    rw [hb, hb', hsame]
    exact ⟨rfl, hstarted⟩
  · rw [← hhost] at hc hst ⊢
    obtain ⟨hstarted, f, refused, left, hhook, hleft, hstore, houtbox⟩ := h.stopped st hc hst
    refine ⟨hstarted, f, refused, g left, hhook, ?_, ?_, (hgsent left).trans houtbox⟩
    · rw [hb', hleft, Option.map_some, Prod.map_apply, hline]
    · exact hgstore left st (List.mem_of_getElem? hst) hstore

/-- Noting a line in the failures of an action does not change where it is cut off. -/
theorem atLine (h : Cut count n hooks stopping a a' started started' m) (line : ℕ) :
    Cut count n hooks stopping (a.atLine line) (a'.atLine line) started started' m := by
  refine h.around rfl (Action.apply_atLine ..) (Action.apply_atLine ..) (fun r x hr => ?_)
    (fun f line' => ?_) h.ends (fun _ => rfl) (fun _ => rfl) fun _ _ _ hstore => hstore
  · cases r with
    | error f => cases hr
    | ok y => exact hr
  · exact congrArg Except.error (Failure.atLine_atLine ..)

/-- A block is cut off where its content is. -/
theorem nested {limit : ℕ} (hdepth : m.depth < limit)
    (h : Cut count n hooks stopping a a' started started' { m with depth := m.depth + 1 }) :
    Cut count n hooks stopping (a.nested limit) (a'.nested limit) started started' m := by
  refine h.around rfl (Action.apply_nested hdepth a) (Action.apply_nested hdepth a')
    (fun _ _ hr => hr) (fun _ _ => rfl) (fun r m' hr => ?_) (fun _ => rfl) (fun _ => rfl)
    fun _ _ _ hstore => hstore
  obtain ⟨hordered, hlive, hsent⟩ := h.ends r m' hr
  exact ⟨hordered, hlive, hsent⟩

end Cut

/-! ## Statements in order and scripts -/

section

variable {count : σ → ℕ} {n : ℕ} {hooks stopping : Hooks σ} {m : Machine σ}

/-- Statements in a row are cut off where the first of them is that is cut off. -/
theorem cut_runStatements {step step' : Statement → Action σ Flow}
    {trace trace' : Statement → Machine σ → List (StatementRun σ)}
    (hstep : ∀ s (m : Machine σ), m.store.Ordered → Cut count n hooks stopping
      ((step s).atLine s.pos.line) ((step' s).atLine s.pos.line) (trace s m) (trace' s m) m)
    (hm : m.store.Ordered) (last : Option Value) (body : List Statement) :
    Cut count n hooks stopping (runStatements step last body) (runStatements step' last body)
      (traceStatements step trace body m) (traceStatements step' trace' body m) m := by
  induction body generalizing last m with
  | nil => exact .pure hm _
  | cons s rest ih =>
    refine (hstep s m hm).bind fun flow m₁ _ hfollows => ?_
    cases flow with
    | leave v => exact .pure hfollows.ordered _
    | next v => exact ih hfollows.ordered v

/-- A script is cut off in one of its blocks. -/
theorem Script.cut {invoke invoke' : Code → Option Bindings → Bool → Action σ Flow}
    {blocks blocks' : List Statement → FrameId → Machine σ → List (StatementRun σ)}
    (hinvoke : ∀ v : Invocation σ, v.start.store.Ordered → Cut count n hooks stopping
      (invoke v.code v.bindings v.procedure) (invoke' v.code v.bindings v.procedure)
      (v.trace blocks) (v.trace blocks') v.start)
    (hm : m.store.Ordered) (s : Script) :
    Cut count n hooks stopping (s.run invoke) (s.run invoke')
      ((s.calls invoke m).flatMap fun call => call.invocation.trace blocks)
      ((s.calls invoke' m).flatMap fun call => call.invocation.trace blocks') m := by
  induction s generalizing m with
  | finish flow => exact .pure hm flow
  | fail f => exact .fail hm f
  | exhausted => exact .exhausted
  | ask question next ih =>
    have hrun (invoke : Code → Option Bindings → Bool → Action σ Flow) :
        ((ask question next).run invoke).apply m =
          (Action.ofEval (question.answer m.store) >>= fun v => (next v).run invoke).apply m := by
      simp only [run, Action.apply_bind, Action.apply_store, Action.continueWith_ok]
    rw [calls_ask, calls_ask, Action.flatMap_followed, Action.flatMap_followed]
    exact ((Cut.ofEval hm _).bind fun v m₁ _ hfollows => ih v hfollows.ordered).congr
      (hrun invoke) (hrun invoke')
  | block role code bindings next ih =>
    rw [calls_block, calls_block, List.flatMap_cons, List.flatMap_cons, Action.flatMap_followed,
      Action.flatMap_followed]
    exact (hinvoke ⟨code, bindings, false, m⟩ hm).bind fun flow m₁ _ hfollows =>
      ih flow hfollows.ordered

end

end Logo
