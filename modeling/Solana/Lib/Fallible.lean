import Mathlib

/-! Results of code that returns `Result<T, E>` and may also abort (a failed
assertion, an `unwrap` of `None`): `ExceptT ε Option`, where `none` is the abort. -/

abbrev Fallible (ε α : Type) := ExceptT ε Option α

namespace Fallible

variable {ε α : Type}

def abort : Fallible ε α := ExceptT.lift none

/-- `assert!(c)`. -/
def assert (c : Prop) [Decidable c] : Fallible ε Unit := if c then pure () else abort

/-- A computation that cannot abort. -/
def ofExcept (e : Except ε α) : Fallible ε α := ExceptT.mk (some e)

@[simp] theorem run_pure (a : α) : (pure a : Fallible ε α).run = some (.ok a) := rfl

@[simp] theorem run_throw (e : ε) : (throw e : Fallible ε α).run = some (.error e) := rfl

@[simp] theorem run_abort : (abort : Fallible ε α).run = none := rfl

@[simp] theorem run_ofExcept (e : Except ε α) : (ofExcept e).run = some e := rfl

@[simp] theorem ofExcept_ok (a : α) : (ofExcept (.ok a) : Fallible ε α) = pure a := rfl

@[simp] theorem ofExcept_error (e : ε) : (ofExcept (.error e) : Fallible ε α) = throw e := rfl

@[simp] theorem throw_bind {β : Type} (e : ε) (f : α → Fallible ε β) :
    (throw e >>= f : Fallible ε β) = throw e := rfl

@[simp] theorem run_assert (c : Prop) [Decidable c] :
    (assert c : Fallible ε Unit).run = if c then some (.ok ()) else none := by
  unfold assert
  split <;> rfl

theorem run_bind_eq_ok {β : Type} {x : Fallible ε α} {f : α → Fallible ε β} {b : β} :
    (x >>= f).run = some (.ok b) ↔ ∃ a, x.run = some (.ok a) ∧ (f a).run = some (.ok b) := by
  simp only [ExceptT.run_bind]
  rcases x.run with _ | _ | a
  · simp
  · simp
  · simp

theorem run_bind_of_eq_ok {β : Type} {x : Fallible ε α} {f : α → Fallible ε β} {a : α}
    (h : x.run = some (.ok a)) : (x >>= f).run = (f a).run := by
  simp only [ExceptT.run_bind, h]
  rfl

/-- Mapping the errors keeps the successes. -/
theorem run_adapt_eq_ok {ε' : Type} {f : ε → ε'} {x : Fallible ε α} {a : α} :
    (x.adapt f).run = some (.ok a) ↔ x.run = some (.ok a) := by
  show Except.mapError f <$> x.run = _ ↔ _
  rcases x.run with _ | _ | b
  · simp
  · simp [Except.mapError]
  · simp [Except.mapError]

/-- An `Option` whose `None` the code unwraps or indexes: `none` aborts. -/
def ofOption : Option α → Fallible ε α
  | some a => pure a
  | none => abort

@[simp] theorem ofOption_some (a : α) : (ofOption (some a) : Fallible ε α) = pure a := rfl

/-- A sequence aborts only where one of its steps does. -/
theorem run_bind_ne_none {β : Type} {x : Fallible ε α} {f : α → Fallible ε β}
    (hx : x.run ≠ none) (hf : ∀ a, x.run = some (.ok a) → (f a).run ≠ none) :
    (x >>= f).run ≠ none := by
  simp only [ExceptT.run_bind]
  rcases hrun : x.run with _ | _ | a
  · exact absurd hrun hx
  · simp
  · simpa using hf a hrun

/-- A walk over positions `p, p + 1, ...` paired with a value each, where every step leaves
the state as it is and moves the cursor from `offsetAt i` to `offsetAt (i + 1)`. -/
theorem foldlM_zip_of_step {σ : Type} {step : σ × Nat → Nat × Nat → Fallible ε (σ × Nat)}
    {s : σ} {p : Nat} (len offsetAt : Nat → Nat) :
    ∀ {n : Nat}, (∀ i < n, step (s, offsetAt i) (p + i, len i) = pure (s, offsetAt (i + 1))) →
      ((List.range' p n).zip ((List.range n).map len)).foldlM step (s, offsetAt 0) =
        pure (s, offsetAt n)
  | 0, _ => rfl
  | n + 1, hstep => by
    have hlength : (List.range' p n).length = ((List.range n).map len).length := by
      rw [List.length_range', List.length_map, List.length_range]
    rw [List.range'_1_concat, List.range_succ, List.map_append, List.zip_append hlength,
      List.foldlM_append, foldlM_zip_of_step len offsetAt fun i hi => hstep i (by omega),
      pure_bind]
    simp only [List.map_cons, List.map_nil, List.zip_cons_cons, List.zip_nil_left,
      List.foldlM_cons, List.foldlM_nil, bind_pure]
    exact hstep n (Nat.lt_succ_self n)

end Fallible

namespace Except

variable {ε α β : Type}

@[simp] theorem throw_bind (e : ε) (f : α → Except ε β) : (throw e >>= f : Except ε β) = throw e :=
  rfl

@[simp] theorem throw_ne_ok (e : ε) (a : α) : (throw e : Except ε α) ≠ .ok a := nofun

@[simp] theorem ok_bind (a : α) (f : α → Except ε β) : (Except.ok a >>= f : Except ε β) = f a :=
  rfl

@[simp] theorem error_bind (e : ε) (f : α → Except ε β) :
    (Except.error e >>= f : Except ε β) = .error e :=
  rfl

theorem bind_eq_ok {x : Except ε α} {f : α → Except ε β} {b : β} :
    x >>= f = .ok b ↔ ∃ a, x = .ok a ∧ f a = .ok b := by
  cases x with
  | error e => simp [bind, Except.bind]
  | ok a => simp [bind, Except.bind]

theorem map_eq_ok {x : Except ε α} {f : α → β} {b : β} :
    x.map f = .ok b ↔ ∃ a, x = .ok a ∧ f a = b := by
  cases x with
  | error e => simp [Except.map]
  | ok a => simp [Except.map]

/-- `if c { return Err(e) }`. -/
def failIf (c : Prop) [Decidable c] (e : ε) : Except ε Unit := if c then .error e else .ok ()

@[simp] theorem failIf_eq_ok {c : Prop} [Decidable c] {e : ε} {u : Unit} :
    failIf c e = .ok u ↔ ¬c := by
  unfold failIf
  split <;> simp_all

/-- A guarded step succeeds only past its guard. -/
theorem failIf_bind_eq_ok {c : Prop} [Decidable c] {e : ε} {f : Unit → Except ε β} {b : β} :
    (failIf c e >>= f) = .ok b ↔ ¬c ∧ f () = .ok b := by
  rw [bind_eq_ok]
  constructor
  · rintro ⟨⟨⟩, hc, hf⟩
    exact ⟨failIf_eq_ok.mp hc, hf⟩
  · rintro ⟨hc, hf⟩
    exact ⟨(), failIf_eq_ok.mpr hc, hf⟩

theorem mapM_eq_ok_cons {f : α → Except ε β} {a : α} {l : List α} {r : List β} :
    (a :: l).mapM f = .ok r ↔ ∃ b bs, f a = .ok b ∧ l.mapM f = .ok bs ∧ r = b :: bs := by
  rw [List.mapM_cons, bind_eq_ok]
  constructor
  · rintro ⟨b, hb, hrest⟩
    obtain ⟨bs, hbs, hr⟩ := bind_eq_ok.mp hrest
    exact ⟨b, bs, hb, hbs, (Except.ok.inj hr).symm⟩
  · rintro ⟨b, bs, hb, hbs, rfl⟩
    exact ⟨b, hb, bind_eq_ok.mpr ⟨bs, hbs, rfl⟩⟩

/-- A `map` that succeeds succeeded on every element. -/
theorem mapM_eq_ok_of_mem {f : α → Except ε β} :
    ∀ {l : List α} {r : List β}, l.mapM f = .ok r → ∀ a ∈ l, ∃ b, f a = .ok b
  | [], _, _, a, ha => absurd ha List.not_mem_nil
  | a' :: l, _, h, a, ha => by
    obtain ⟨b, bs, hb, hbs, -⟩ := mapM_eq_ok_cons.mp h
    rcases List.mem_cons.mp ha with rfl | ha
    · exact ⟨b, hb⟩
    · exact mapM_eq_ok_of_mem hbs a ha

/-- A `map` that succeeds, by a function whose results are known, gives those results. -/
theorem mapM_eq_ok_map {f : α → Except ε β} {g : α → β} :
    ∀ {l : List α} {r : List β}, (∀ a ∈ l, ∀ b, f a = .ok b → b = g a) → l.mapM f = .ok r →
      r = l.map g
  | [], r, _, h => by
    rw [List.mapM_nil] at h
    exact (Except.ok.inj h).symm
  | a :: l, _, hg, h => by
    obtain ⟨b, bs, hb, hbs, rfl⟩ := mapM_eq_ok_cons.mp h
    rw [List.map_cons, hg a List.mem_cons_self b hb,
      mapM_eq_ok_map (fun a' ha' => hg a' (List.mem_cons_of_mem a ha')) hbs]

/-- A `map` by a function that succeeds on every element. -/
theorem mapM_eq_ok_of_forall {f : α → Except ε β} {g : α → β} :
    ∀ {l : List α}, (∀ a ∈ l, f a = .ok (g a)) → l.mapM f = .ok (l.map g)
  | [], _ => rfl
  | a :: l, hf => by
    rw [List.mapM_cons, hf a List.mem_cons_self,
      mapM_eq_ok_of_forall fun a' ha' => hf a' (List.mem_cons_of_mem a ha')]
    rfl

/-- Adding up a measure of what each element gives, one at a time, is adding it up over
the `map`. -/
theorem foldlM_add_eq_ok {β : Type} {f : α → Except ε β} {h : β → Nat} :
    ∀ {l : List α} {r : List β} (init : Nat), l.mapM f = .ok r →
      l.foldlM (fun total a => do let n ← h <$> f a; pure (total + n)) init =
        .ok (init + (r.map h).sum)
  | [], r, init, hr => by
    rw [List.mapM_nil] at hr
    cases hr
    rfl
  | a :: l, _, init, hr => by
    obtain ⟨b, bs, hb, hbs, rfl⟩ := mapM_eq_ok_cons.mp hr
    rw [List.foldlM_cons, hb]
    show l.foldlM _ (init + h b) = _
    rw [foldlM_add_eq_ok (init + h b) hbs, List.map_cons, List.sum_cons, Nat.add_assoc]

end Except
