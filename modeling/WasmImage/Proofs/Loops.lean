import Mathlib
import WasmImage.Log

/-!
# Computations and their loops

The model computes in `Except`, and in `Logged`, which is `Except` under a log that only grows.
Its loops are `for` loops that never stop early. Two tools cover them:

* a loop in `Except` whose every step either keeps an invariant or fails in a way a predicate
  allows ends in one of the two ways (`forIn_outcome`); the invariant is indexed by the elements
  already seen, so that a loop over indices can say which indices it has done;
* a logged computation *yields* `r` when it ends with `r` from every log (`Logged.Yields`). No
  computation of the model reads its log, so its outcome is a plain `Except` value, and a loop
  whose every step yields one step of a fold yields that fold (`Logged.yields_forIn'_range`).
-/

namespace WasmImage

/-! ## Peeling `Except` -/

section Peel

variable {ε ε' α β : Type}

theorem bind_eq_ok {x : Except ε α} {f : α → Except ε β} {b : β} (h : x >>= f = .ok b) :
    ∃ a, x = .ok a ∧ f a = .ok b := by
  cases x with
  | error e => cases h
  | ok a => exact ⟨a, rfl, h⟩

theorem map_eq_ok {x : Except ε α} {f : α → β} {b : β} (h : f <$> x = .ok b) :
    ∃ a, x = .ok a ∧ b = f a := by
  cases x with
  | error e => cases h
  | ok a =>
    injection h with h
    exact ⟨a, rfl, h.symm⟩

theorem ok_bind (a : α) (f : α → Except ε β) : (Except.ok a >>= f) = f a := rfl

/-- Names the outcome of the first computation of a bind. -/
theorem bind_outcome {x : Except ε α} {f : α → Except ε β} {r : Except ε β} (h : x >>= f = r) :
    ∃ rx, x = rx ∧ rx >>= f = r :=
  ⟨x, rfl, h⟩

theorem map_ok (a : α) (f : α → β) : (f <$> (Except.ok a : Except ε α)) = .ok (f a) := rfl

theorem mapError_ok (a : α) (g : ε → ε') : (Except.ok a : Except ε α).mapError g = .ok a := rfl

theorem mapError_eq_ok {x : Except ε α} {g : ε → ε'} {a : α} (h : x.mapError g = .ok a) :
    x = .ok a := by
  cases x with
  | error e => cases h
  | ok a' =>
    injection h with h
    rw [h]

theorem mapError_eq_error {x : Except ε α} {g : ε → ε'} {e : ε'} (h : x.mapError g = .error e) :
    ∃ e₀, x = .error e₀ ∧ e = g e₀ := by
  cases x with
  | error e₀ =>
    injection h with h
    exact ⟨e₀, rfl, h.symm⟩
  | ok a => cases h

/-- A map in `Except` whose every step succeeds gives the map of the results. -/
theorem mapM_eq_ok_map {f : α → Except ε β} {g : α → β} :
    ∀ {xs : List α}, (∀ x ∈ xs, f x = .ok (g x)) → xs.mapM f = .ok (xs.map g)
  | [], _ => rfl
  | x :: xs, h => by
    rw [List.mapM_cons, h x List.mem_cons_self,
      mapM_eq_ok_map fun y hy => h y (List.mem_cons_of_mem x hy)]
    rfl

/-- A map in `Except` that succeeds succeeded at every element. -/
theorem ok_of_mapM_eq_ok {f : α → Except ε β} :
    ∀ {xs : List α} {ys : List β}, xs.mapM f = .ok ys → ∀ x ∈ xs, ∃ y, f x = .ok y
  | [], _, _ => by simp
  | x :: xs, ys, h => by
    rw [List.mapM_cons] at h
    obtain ⟨y, hy, h⟩ := bind_eq_ok h
    obtain ⟨ys', hys, -⟩ := bind_eq_ok h
    intro x' hx'
    rcases List.mem_cons.mp hx' with rfl | hx'
    · exact ⟨y, hy⟩
    · exact ok_of_mapM_eq_ok hys x' hx'

/-- A map in `Except` that succeeds succeeds the same with steps that succeed wherever its
steps do. -/
theorem mapM_eq_ok_of {f g : α → Except ε β} (hfg : ∀ x y, f x = .ok y → g x = .ok y) :
    ∀ {xs : List α} {ys : List β}, xs.mapM f = .ok ys → xs.mapM g = .ok ys
  | [], _, h => h
  | x :: xs, ys, h => by
    rw [List.mapM_cons] at h ⊢
    obtain ⟨y, hy, h⟩ := bind_eq_ok h
    obtain ⟨ys', hys, h⟩ := bind_eq_ok h
    cases h
    rw [hfg x y hy, ok_bind, mapM_eq_ok_of hfg hys]
    rfl

/-- A map in `Except` that succeeds gives one result per element. -/
theorem length_of_mapM_eq_ok {f : α → Except ε β} :
    ∀ {xs : List α} {ys : List β}, xs.mapM f = .ok ys → ys.length = xs.length
  | [], ys, h => by
    rw [List.mapM_nil] at h
    cases h
    rfl
  | x :: xs, ys, h => by
    rw [List.mapM_cons] at h
    obtain ⟨y, -, h⟩ := bind_eq_ok h
    obtain ⟨ys', hys, h⟩ := bind_eq_ok h
    cases h
    simp [length_of_mapM_eq_ok hys]

end Peel

/-! ## Invariants of loops in `Except` -/

section ExceptLoops

variable {ε α σ : Type}

/-- A loop whose every step, from a state where `I` holds of the elements seen, either goes on
keeping `I` with one more element seen or fails with an error that `F` allows, ends in one of
these two ways. -/
theorem forIn_outcome (I : List α → σ → Prop) (F : ε → Prop) {f : α → σ → Except ε (ForInStep σ)}
    {xs : List α}
    (hf : ∀ pre a rest s r, pre ++ a :: rest = xs → I pre s → f a s = r →
      (∃ t, r = .ok (.yield t) ∧ I (pre ++ [a]) t) ∨ ∃ e, r = .error e ∧ F e)
    {s : σ} (hs : I [] s) {r : Except ε σ} (h : forIn xs s f = r) :
    (∃ t, r = .ok t ∧ I xs t) ∨ ∃ e, r = .error e ∧ F e := by
  -- the loop over a suffix, from the state after the prefix before it
  suffices hsuffix : ∀ (ys pre : List α) (s : σ), pre ++ ys = xs → I pre s →
      (∃ t, forIn ys s f = .ok t ∧ I xs t) ∨ ∃ e, forIn ys s f = .error e ∧ F e by
    rw [← h]
    exact hsuffix xs [] s rfl hs
  intro ys
  induction ys with
  | nil =>
    intro pre s hpre hs
    exact .inl ⟨s, rfl, by simpa [← hpre] using hs⟩
  | cons a ys ih =>
    intro pre s hpre hs
    rw [List.forIn_cons]
    rcases hf pre a ys s _ hpre hs rfl with ⟨t, hstep, ht⟩ | ⟨e, hstep, he⟩
    · rw [hstep]
      exact ih (pre ++ [a]) t (by simpa using hpre) ht
    · rw [hstep]
      exact .inr ⟨e, rfl, he⟩

/-- `forIn_outcome` for a fold. -/
theorem foldlM_outcome (I : List α → σ → Prop) (F : ε → Prop) {f : σ → α → Except ε σ}
    {xs : List α}
    (hf : ∀ pre a rest s r, pre ++ a :: rest = xs → I pre s → f s a = r →
      (∃ t, r = .ok t ∧ I (pre ++ [a]) t) ∨ ∃ e, r = .error e ∧ F e)
    {s : σ} (hs : I [] s) {r : Except ε σ} (h : xs.foldlM f s = r) :
    (∃ t, r = .ok t ∧ I xs t) ∨ ∃ e, r = .error e ∧ F e := by
  -- the fold over a suffix, from the state after the prefix before it
  suffices hsuffix : ∀ (ys pre : List α) (s : σ), pre ++ ys = xs → I pre s →
      (∃ t, ys.foldlM f s = .ok t ∧ I xs t) ∨ ∃ e, ys.foldlM f s = .error e ∧ F e by
    rw [← h]
    exact hsuffix xs [] s rfl hs
  intro ys
  induction ys with
  | nil =>
    intro pre s hpre hs
    exact .inl ⟨s, rfl, by simpa [← hpre] using hs⟩
  | cons a ys ih =>
    intro pre s hpre hs
    rw [List.foldlM_cons]
    rcases hf pre a ys s _ hpre hs rfl with ⟨t, hstep, ht⟩ | ⟨e, hstep, he⟩
    · rw [hstep]
      exact ih (pre ++ [a]) t (by simpa using hpre) ht
    · rw [hstep]
      exact .inr ⟨e, rfl, he⟩

/-- The same over the indices below `n`. -/
theorem forIn_range_outcome (I : List Nat → σ → Prop) (F : ε → Prop)
    {f : Nat → σ → Except ε (ForInStep σ)} {n : Nat}
    (hf : ∀ pre i rest s r, pre ++ i :: rest = List.range n → I pre s → f i s = r →
      (∃ t, r = .ok (.yield t) ∧ I (pre ++ [i]) t) ∨ ∃ e, r = .error e ∧ F e)
    {s : σ} (hs : I [] s) {r : Except ε σ} (h : forIn [:n] s f = r) :
    (∃ t, r = .ok t ∧ I (List.range n) t) ∨ ∃ e, r = .error e ∧ F e := by
  have hrange : List.range' [:n].start [:n].size [:n].step = List.range n := by
    simp [Std.Legacy.Range.size, List.range_eq_range']
  rw [Std.Legacy.Range.forIn_eq_forIn_range', hrange] at h
  exact forIn_outcome I F hf hs h

/-- `forIn_outcome` for a loop whose steps see that their element is in the list. -/
theorem forIn'_outcome (I : List α → σ → Prop) (F : ε → Prop) {xs : List α}
    {f : (a : α) → a ∈ xs → σ → Except ε (ForInStep σ)}
    (hf : ∀ pre a rest h s, pre ++ a :: rest = xs → I pre s →
      (∃ t, f a h s = .ok (.yield t) ∧ I (pre ++ [a]) t) ∨ ∃ e, f a h s = .error e ∧ F e)
    {s : σ} (hs : I [] s) {r : Except ε σ} (h : forIn' xs s f = r) :
    (∃ t, r = .ok t ∧ I xs t) ∨ ∃ e, r = .error e ∧ F e := by
  -- the loop over a suffix, its steps seeing their element in the whole list
  suffices hsuffix : ∀ (ys pre : List α) (hys : pre ++ ys = xs) (s : σ), I pre s →
      (∃ t, forIn' ys s (fun a h => f a (hys ▸ List.mem_append_right pre h)) = .ok t ∧ I xs t) ∨
        ∃ e, forIn' ys s (fun a h => f a (hys ▸ List.mem_append_right pre h)) = .error e ∧ F e by
    rw [← h]
    exact hsuffix xs [] rfl s hs
  intro ys
  induction ys with
  | nil =>
    intro pre hys s hs
    exact .inl ⟨s, rfl, by simpa [← hys] using hs⟩
  | cons a ys ih =>
    intro pre hys s hs
    rw [List.forIn'_cons]
    rcases hf pre a ys (hys ▸ List.mem_append_right pre List.mem_cons_self) s hys hs with
      ⟨t, hstep, ht⟩ | ⟨e, hstep, he⟩
    · simp only [hstep]
      exact ih (pre ++ [a]) (by simpa using hys) t ht
    · simp only [hstep]
      exact .inr ⟨e, rfl, he⟩

/-- The same over the indices below `n`, the invariant indexed by how many were done. -/
theorem forIn'_range_outcome (I : Nat → σ → Prop) (F : ε → Prop) {n : Nat}
    {f : (i : Nat) → i ∈ [:n] → σ → Except ε (ForInStep σ)}
    (hf : ∀ i h s, I i s →
      (∃ t, f i h s = .ok (.yield t) ∧ I (i + 1) t) ∨ ∃ e, f i h s = .error e ∧ F e)
    {s : σ} (hs : I 0 s) {r : Except ε σ} (h : forIn' [:n] s f = r) :
    (∃ t, r = .ok t ∧ I n t) ∨ ∃ e, r = .error e ∧ F e := by
  rw [Std.Legacy.Range.forIn'_eq_forIn'_range'] at h
  have hlen : (List.range' [:n].start [:n].size [:n].step).length = n := by
    simp [Std.Legacy.Range.size]
  rw [show I n = I (List.range' [:n].start [:n].size [:n].step).length by rw [hlen]]
  refine forIn'_outcome (fun pre s => I pre.length s) F (fun pre i rest h s hpre hI => ?_) hs h
  -- the element after `pre` is its length
  have hi : i = pre.length := by
    have hl := congrArg List.length hpre
    have := congrArg (·[pre.length]?) hpre
    simp only [List.length_append, List.length_cons, List.length_range'] at hl
    simp [Std.Legacy.Range.size] at this hl
    rw [List.getElem?_range' (by omega)] at this
    simpa using this
  subst hi
  simpa using hf _ _ s hI

/-- A loop whose steps see that their element is in the list, and that succeeds, ends in a state
where an invariant that every step keeps holds of all its elements. -/
theorem forIn'_invariant (I : List α → σ → Prop) :
    ∀ (xs : List α) (f : (a : α) → a ∈ xs → σ → Except ε (ForInStep σ)),
      (∀ pre a h s r, I pre s → f a h s = .ok r → ∃ t, r = .yield t ∧ I (pre ++ [a]) t) →
      ∀ (pre : List α) (s t : σ), I pre s → forIn' xs s f = .ok t → I (pre ++ xs) t
  | [], _, _, pre, s, t, hs, h => by
    cases h
    simpa using hs
  | a :: xs, f, hf, pre, s, t, hs, h => by
    rw [List.forIn'_cons] at h
    obtain ⟨r, hr, h⟩ := bind_eq_ok h
    obtain ⟨s', rfl, hs'⟩ := hf pre a _ s r hs hr
    have := forIn'_invariant I xs _ (fun pre a' m s r => hf pre a' (List.mem_cons_of_mem a m) s r)
      (pre ++ [a]) s' t hs' h
    simpa using this

/-- The same over the indices below `n`. -/
theorem forIn'_range_invariant (I : List Nat → σ → Prop) {n : Nat}
    {f : (i : Nat) → i ∈ [:n] → σ → Except ε (ForInStep σ)}
    (hf : ∀ pre i h s r, I pre s → f i h s = .ok r → ∃ t, r = .yield t ∧ I (pre ++ [i]) t)
    {s t : σ} (hs : I [] s) (h : forIn' [:n] s f = .ok t) : I (List.range n) t := by
  rw [Std.Legacy.Range.forIn'_eq_forIn'_range'] at h
  have := forIn'_invariant I _ _ (fun pre i _ s r => hf pre i _ s r) [] s t hs h
  simpa [Std.Legacy.Range.size, List.range_eq_range'] using this

end ExceptLoops

/-! ## Outcomes of logged computations -/

namespace Logged

variable {ε α β σ : Type}

/-- The outcome of a logged computation started with an empty log. -/
def outcome (x : Logged ε α) : Except ε α := (x.run.run #[]).1

/-- `x` ends with `r` whatever log it starts from. -/
def Yields (x : Logged ε α) (r : Except ε α) : Prop := ∀ log, (x.run.run log).1 = r

theorem Yields.outcome {x : Logged ε α} {r : Except ε α} (h : x.Yields r) : x.outcome = r := h #[]

theorem yields_pure (a : α) : (pure a : Logged ε α).Yields (.ok a) := fun _ => rfl

theorem yields_throw (e : ε) : (throw e : Logged ε α).Yields (.error e) := fun _ => rfl

theorem yields_ofExcept (x : Except ε α) : (MonadExcept.ofExcept x : Logged ε α).Yields x := by
  intro log
  cases x <;> rfl

theorem yields_logDebug (logger message : String) (fields : List (String × LogValue)) :
    (logDebug logger message fields : Logged ε Unit).Yields (.ok ()) := fun _ => rfl

theorem Yields.bind {x : Logged ε α} {f : α → Logged ε β} {r : Except ε α} {g : α → Except ε β}
    (hx : x.Yields r) (hf : ∀ a, (f a).Yields (g a)) : (x >>= f).Yields (r >>= g) := by
  intro log
  have hlog := hx log
  simp only [ExceptT.run_bind, StateT.run_bind]
  rcases hrun : x.run.run log with ⟨r', log'⟩
  rw [hrun] at hlog
  subst hlog
  cases r' with
  | error e => rfl
  | ok a => exact hf a log'

/-- `x` ends with the same outcome from every log. -/
def Settled (x : Logged ε α) : Prop := ∃ r, x.Yields r

theorem Settled.yields {x : Logged ε α} (h : x.Settled) : x.Yields x.outcome := by
  obtain ⟨r, hr⟩ := h
  rwa [hr.outcome]

theorem settled_pure (a : α) : (pure a : Logged ε α).Settled := ⟨_, yields_pure a⟩

theorem settled_throw (e : ε) : (throw e : Logged ε α).Settled := ⟨_, yields_throw e⟩

theorem Settled.bind {x : Logged ε α} {f : α → Logged ε β} (hx : x.Settled)
    (hf : ∀ a, (f a).Settled) : (x >>= f).Settled :=
  ⟨_, hx.yields.bind fun a => (hf a).yields⟩

/-- A loop whose every step yields one step of a fold yields the fold. -/
theorem yields_forIn' : ∀ (xs : List α) (f : (a : α) → a ∈ xs → σ → Logged ε (ForInStep σ))
    (g : σ → α → Except ε σ), (∀ a h s, (f a h s).Yields (ForInStep.yield <$> g s a)) →
      ∀ s, (forIn' xs s f).Yields (xs.foldlM g s)
  | [], _, _, _, s => yields_pure s
  | a :: xs, f, g, hf, s => by
    rw [List.forIn'_cons, List.foldlM_cons]
    -- after the first step, the loop goes on over the rest exactly when the fold does
    have hcont : ∀ step : ForInStep σ, (match step with
        | .done b => pure b
        | .yield b => forIn' xs b fun a' m b => f a' (List.mem_cons_of_mem a m) b).Yields
          (match step with
            | .done b => .ok b
            | .yield b => xs.foldlM g b)
      | .done t => yields_pure t
      | .yield t => yields_forIn' xs (fun a' m => f a' (List.mem_cons_of_mem a m)) g
          (fun a' m => hf a' (List.mem_cons_of_mem a m)) t
    have hfold : ((ForInStep.yield <$> g s a) >>= fun step => match step with
        | .done b => .ok b
        | .yield b => xs.foldlM g b) = (g s a >>= fun b => xs.foldlM g b) := by
      cases g s a <;> rfl
    rw [← hfold]
    exact (hf a List.mem_cons_self s).bind hcont

/-- The same over the indices below `n`. -/
theorem yields_forIn'_range {n : Nat} (f : (i : Nat) → i ∈ [:n] → σ → Logged ε (ForInStep σ))
    (g : σ → Nat → Except ε σ) (hf : ∀ i h s, (f i h s).Yields (ForInStep.yield <$> g s i))
    (s : σ) : (forIn' [:n] s f).Yields ((List.range n).foldlM g s) := by
  have hrange : List.range' [:n].start [:n].size [:n].step = List.range n := by
    simp [Std.Legacy.Range.size, List.range_eq_range']
  rw [Std.Legacy.Range.forIn'_eq_forIn'_range', ← hrange]
  exact yields_forIn' _ _ g (fun i _ s => hf i _ s) s

end Logged

end WasmImage
