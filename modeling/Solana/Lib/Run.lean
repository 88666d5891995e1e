import Mathlib

/-! Runs of a partial step function, `none` a failed step: invariants and relations over runs
(`exec_rel`, `exec_invariant`), and runs that succeed (`exec_exists`). -/

namespace Run

variable {σ α : Type}

/-- Apply the actions in order; `none` as soon as one fails. -/
def exec (step : σ → α → Option σ) : σ → List α → Option σ
  | s, [] => some s
  | s, a :: as => (step s a).bind fun s' => exec step s' as

section Rules

variable {step : σ → α → Option σ} {P : σ → Prop} {R : σ → σ → Prop}

@[simp] theorem exec_nil (s : σ) : exec step s [] = some s := rfl

theorem exec_cons (s : σ) (a : α) (as : List α) :
    exec step s (a :: as) = (step s a).bind fun s' => exec step s' as := rfl

/-- A run that succeeds starts with a step that succeeds. -/
theorem exec_cons_eq_some {s s'' : σ} {a : α} {as : List α}
    (h : exec step s (a :: as) = some s'') :
    ∃ s', step s a = some s' ∧ exec step s' as = some s'' := by
  rwa [exec_cons, Option.bind_eq_some_iff] at h

/-- A run of two lists of actions is the run of the first, then of the second from
where the first ends. -/
theorem exec_append (s : σ) (as bs : List α) :
    exec step s (as ++ bs) = (exec step s as).bind fun s' => exec step s' bs := by
  induction as generalizing s with
  | nil => rfl
  | cons a as ih =>
    rw [List.cons_append, exec_cons, exec_cons, Option.bind_assoc]
    simp only [ih]

/-- The invariant rule: an invariant that every step keeps holds at the end of every run
from a state where it holds. -/
theorem exec_invariant (hstep : ∀ s a s', P s → step s a = some s' → P s') :
    ∀ (as : List α) {s s' : σ}, P s → exec step s as = some s' → P s'
  | [], s, s', hs, h => by
    rw [exec_nil, Option.some.injEq] at h
    exact h ▸ hs
  | a :: as, s, s'', hs, h => by
    obtain ⟨s', hfirst, hrest⟩ := exec_cons_eq_some h
    exact exec_invariant hstep as (hstep s a s' hs hfirst) hrest

/-- The invariant rule for a fold whose steps keep the invariant only for actions that are
ready for the state they meet (a vote for a new slot), when each step leaves the rest of
the actions ready for the state it makes. -/
theorem foldl_invariant (f : σ → α → σ) (Ready : σ → List α → Prop)
    (hready : ∀ s a as, Ready s (a :: as) → Ready (f s a) as)
    (hstep : ∀ s a as, P s → Ready s (a :: as) → P (f s a)) :
    ∀ (as : List α) {s : σ}, P s → Ready s as → P (as.foldl f s)
  | [], _, hs, _ => hs
  | a :: as, s, hs, hr =>
    foldl_invariant f Ready hready hstep as (hstep s a as hs hr) (hready s a as hr)

variable (hrefl : ∀ s, R s s) (htrans : ∀ {s₁ s₂ s₃ : σ}, R s₁ s₂ → R s₂ s₃ → R s₁ s₃)
include hrefl htrans

/-- The run rule: the invariant holds at the end of every run from a state where it
holds, and the relation holds between its two ends. -/
theorem exec_rel (hstep : ∀ s a s', P s → step s a = some s' → P s' ∧ R s s') :
    ∀ (as : List α) {s s' : σ}, P s → exec step s as = some s' → P s' ∧ R s s'
  | [], s, s', hs, h => by
    rw [exec_nil, Option.some.injEq] at h
    subst h
    exact ⟨hs, hrefl s⟩
  | a :: as, s, s'', hs, h => by
    obtain ⟨s', hfirst, hrest⟩ := exec_cons_eq_some h
    obtain ⟨hs', hss'⟩ := hstep s a s' hs hfirst
    obtain ⟨hs'', hs's''⟩ := exec_rel hstep as hs' hrest
    exact ⟨hs'', htrans hss' hs's''⟩

/-- The run rule for a fold of a step that cannot fail. -/
theorem foldl_rel (f : σ → α → σ) (hstep : ∀ s a, P s → P (f s a) ∧ R s (f s a)) :
    ∀ (as : List α) {s : σ}, P s → P (as.foldl f s) ∧ R s (as.foldl f s)
  | [], s, hs => ⟨hs, hrefl s⟩
  | a :: as, s, hs => by
    obtain ⟨hs', hss'⟩ := hstep s a hs
    obtain ⟨hs'', hs's''⟩ := foldl_rel f hstep as hs'
    exact ⟨hs'', htrans hss' hs's''⟩

end Rules

/-- The refinement rule: when an abstraction function maps each step of one system from a
state of an invariant onto the step of another, and the step keeps the invariant, it maps
every run onto the run of the other, failures included. -/
theorem exec_map {τ : Type} {step : σ → α → Option σ} {step' : τ → α → Option τ}
    (abs : σ → τ) {P : σ → Prop}
    (hstep : ∀ s a, P s → (step s a).map abs = step' (abs s) a ∧ ∀ s', step s a = some s' → P s') :
    ∀ (as : List α) {s : σ}, P s →
      (exec step s as).map abs = exec step' (abs s) as ∧ ∀ s', exec step s as = some s' → P s'
  | [], s, hs => ⟨rfl, fun s' h => by rw [exec_nil, Option.some.injEq] at h; exact h ▸ hs⟩
  | a :: as, s, hs => by
    obtain ⟨hmap, hkeep⟩ := hstep s a hs
    rw [exec_cons, exec_cons, ← hmap]
    cases hfirst : step s a with
    | none => exact ⟨rfl, fun _ h => by simp at h⟩
    | some s₁ =>
      obtain ⟨hrest, hkeep'⟩ := exec_map abs hstep as (hkeep s₁ hfirst)
      exact ⟨hrest, fun s' h => hkeep' s' h⟩

/-- A run from a state of an invariant succeeds when every step of its actions from such a
state succeeds and keeps the invariant. -/
theorem exec_exists_of_mem {step : σ → α → Option σ} {P : σ → Prop} :
    ∀ (as : List α), (∀ s, ∀ a ∈ as, P s → ∃ s', step s a = some s' ∧ P s') →
      ∀ {s : σ}, P s → ∃ s', exec step s as = some s' ∧ P s'
  | [], _, s, hs => ⟨s, rfl, hs⟩
  | a :: as, hstep, s, hs => by
    obtain ⟨s₁, hfirst, hs₁⟩ := hstep s a List.mem_cons_self hs
    rw [exec_cons, hfirst, Option.bind_some]
    exact exec_exists_of_mem as (fun s a ha => hstep s a (List.mem_cons_of_mem _ ha)) hs₁

/-- A run from a state of an invariant succeeds when every step from such a state succeeds
and keeps the invariant. -/
theorem exec_exists {step : σ → α → Option σ} {P : σ → Prop}
    (hstep : ∀ s a, P s → ∃ s', step s a = some s' ∧ P s') (as : List α) {s : σ} (hs : P s) :
    ∃ s', exec step s as = some s' ∧ P s' :=
  exec_exists_of_mem as (fun s a _ => hstep s a) hs

/-- A fold in `Option` is the run of its step. -/
theorem foldlM_eq_exec (f : σ → α → Option σ) : ∀ (as : List α) (s : σ), as.foldlM f s = exec f s as
  | [], _ => rfl
  | a :: as, s => by
    rw [List.foldlM_cons, exec_cons]
    cases f s a with
    | none => rfl
    | some s' => exact foldlM_eq_exec f as s'

/-- Sequencing: a computation that succeeds with a property, followed by one that succeeds from
every result with it. -/
theorem bind_exists {β γ : Type} {o : Option β} {f : β → Option γ} {Q : β → Prop} {R : γ → Prop}
    (ho : ∃ b, o = some b ∧ Q b) (hf : ∀ b, Q b → ∃ c, f b = some c ∧ R c) :
    ∃ c, o.bind f = some c ∧ R c := by
  obtain ⟨b, rfl, hb⟩ := ho
  exact hf b hb

/-- A run within a budget. Each action has a cost; every step from a state of an invariant
succeeds, keeps the invariant and raises a potential by at most the action's cost, as long as
the potential and that cost stay below a bound. Then a run succeeds and keeps the invariant
when the start's potential and the run's total cost stay below the bound. -/
theorem exec_exists_of_budget {step : σ → α → Option σ} {P : σ → Prop} (cost : α → ℕ)
    (Φ : σ → ℕ) {B : ℕ}
    (hstep : ∀ s a, P s → Φ s + cost a < B →
      ∃ s', step s a = some s' ∧ P s' ∧ Φ s' ≤ Φ s + cost a) :
    ∀ (as : List α) {s : σ}, P s → Φ s + (as.map cost).sum < B →
      ∃ s', exec step s as = some s' ∧ P s'
  | [], s, hs, _ => ⟨s, rfl, hs⟩
  | a :: as, s, hs, hbudget => by
    rw [List.map_cons, List.sum_cons] at hbudget
    obtain ⟨s₁, hfirst, hs₁, hΦ⟩ := hstep s a hs (by omega)
    rw [exec_cons, hfirst, Option.bind_some]
    exact exec_exists_of_budget cost Φ hstep as hs₁ (by omega)

/-- A run of stamped actions whose stamps never go down. The invariant is indexed by stamps
and holds at a later stamp where it holds at an earlier one; every step from a state where it
holds at a stamp no later than the action's succeeds into one where it holds at the action's
stamp. Then the run succeeds into a state where it holds at every stamp no earlier than all of
the run's. -/
theorem exec_exists_of_stamps {ι : Type} [Preorder ι] {step : σ → α → Option σ}
    {P : ι → σ → Prop} (stamp : α → ι) (hmono : ∀ {i j : ι} {s : σ}, i ≤ j → P i s → P j s) :
    ∀ (as : List α), (∀ s, ∀ a ∈ as, ∀ i, i ≤ stamp a → P i s →
        ∃ s', step s a = some s' ∧ P (stamp a) s') →
      ∀ {i : ι} {s : σ}, (i :: as.map stamp).Pairwise (· ≤ ·) → P i s →
        ∃ s', exec step s as = some s' ∧ ∀ j, (∀ k ∈ i :: as.map stamp, k ≤ j) → P j s'
  | [], _, i, s, _, hs => ⟨s, rfl, fun j hj => hmono (hj i List.mem_cons_self) hs⟩
  | a :: as, hstep, i, s, hsorted, hs => by
    rw [List.map_cons, List.pairwise_cons] at hsorted
    obtain ⟨s₁, hfirst, hs₁⟩ :=
      hstep s a List.mem_cons_self i (hsorted.1 _ List.mem_cons_self) hs
    rw [exec_cons, hfirst, Option.bind_some]
    have hrest : ∀ s, ∀ a' ∈ as, ∀ i, i ≤ stamp a' → P i s →
        ∃ s', step s a' = some s' ∧ P (stamp a') s' :=
      fun s a' ha' => hstep s a' (List.mem_cons_of_mem a ha')
    obtain ⟨s', hrun, hs'⟩ := exec_exists_of_stamps (P := P) stamp hmono as hrest hsorted.2 hs₁
    exact ⟨s', hrun, fun j hj => hs' j fun k hk => hj k (List.mem_cons_of_mem _ hk)⟩

/-- A map that may fail but does not on any element is the map of the list. -/
theorem mapM_eq_some_map {β : Type} {f : α → Option β} {g : α → β} :
    ∀ (as : List α), (∀ a ∈ as, f a = some (g a)) → as.mapM f = some (as.map g)
  | [], _ => rfl
  | a :: as, hf => by
    rw [List.mapM_cons, hf a List.mem_cons_self,
      mapM_eq_some_map as fun a' ha' => hf a' (List.mem_cons_of_mem a ha')]
    rfl

/-- A computation that succeeds with a property, with its result mapped. -/
theorem map_exists {β γ : Type} {o : Option β} {f : β → γ} {Q : β → Prop} {R : γ → Prop}
    (ho : ∃ b, o = some b ∧ Q b) (hf : ∀ b, Q b → R (f b)) : ∃ c, o.map f = some c ∧ R c := by
  obtain ⟨b, rfl, hb⟩ := ho
  exact ⟨f b, rfl, hf b hb⟩

/-- A map that may fail but does not on any element succeeds. -/
theorem exists_mapM_eq_some {β : Type} {f : α → Option β} :
    ∀ (as : List α), (∀ a ∈ as, ∃ b, f a = some b) → ∃ bs, as.mapM f = some bs
  | [], _ => ⟨[], rfl⟩
  | a :: as, hf => by
    obtain ⟨b, hb⟩ := hf a List.mem_cons_self
    obtain ⟨bs, hbs⟩ := exists_mapM_eq_some as fun a' ha' => hf a' (List.mem_cons_of_mem a ha')
    exact ⟨b :: bs, by rw [List.mapM_cons, hb, hbs]; rfl⟩

/-- A map that succeeds on a list, unpacked at its first element. -/
theorem mapM_cons_eq_some {β : Type} {f : α → Option β} {a : α} {as : List α} {bs : List β}
    (h : (a :: as).mapM f = some bs) : ∃ b bs', f a = some b ∧ as.mapM f = some bs' ∧ bs = b :: bs' := by
  rw [List.mapM_cons] at h
  cases hb : f a with
  | none => rw [hb] at h; cases h
  | some b =>
    cases hbs : as.mapM f with
    | none => rw [hb, hbs] at h; cases h
    | some bs' =>
      rw [hb, hbs] at h
      exact ⟨b, bs', rfl, rfl, (Option.some.inj h).symm⟩

/-- A map that succeeds on a list succeeds on every permutation of it, with a permutation of
the result. -/
theorem mapM_some_of_perm {β : Type} (f : α → Option β) {as as' : List α} (hperm : as.Perm as') :
    ∀ {bs' : List β}, as'.mapM f = some bs' → ∃ bs, as.mapM f = some bs ∧ bs.Perm bs' := by
  induction hperm with
  | nil => exact fun h => ⟨_, h, List.Perm.refl _⟩
  | cons a _ ih =>
    intro bs' h
    obtain ⟨b, bs'', hb, hrest, rfl⟩ := mapM_cons_eq_some h
    obtain ⟨bs, hbs, hperm⟩ := ih hrest
    exact ⟨b :: bs, by rw [List.mapM_cons, hb, hbs]; rfl, hperm.cons b⟩
  | swap a a' l =>
    intro bs' h
    obtain ⟨b', bs'', hb', hrest, rfl⟩ := mapM_cons_eq_some h
    obtain ⟨b, bs, hb, hbs, rfl⟩ := mapM_cons_eq_some hrest
    exact ⟨b :: b' :: bs, by rw [List.mapM_cons, List.mapM_cons, hb, hb', hbs]; rfl,
      List.Perm.swap b' b bs⟩
  | trans _ _ ih₁ ih₂ =>
    intro bs'' h
    obtain ⟨bs', h', hperm'⟩ := ih₂ h
    obtain ⟨bs, hbs, hperm⟩ := ih₁ h'
    exact ⟨bs, hbs, hperm.trans hperm'⟩

/-- A test of the elements that does not fail on any of them tests the whole list. -/
theorem allM_eq_some {test : α → Option Bool} {result : α → Bool} :
    ∀ (as : List α), (∀ a ∈ as, test a = some (result a)) →
      as.allM test = some (as.all result)
  | [], _ => rfl
  | a :: as, htest => by
    rw [List.allM, htest a List.mem_cons_self, List.all_cons]
    cases result a with
    | false => rfl
    | true => exact allM_eq_some as fun a' ha' => htest a' (List.mem_cons_of_mem a ha')

/-- A test of the elements passes exactly when it passes on each of them. -/
theorem allM_eq_some_true_iff {test : α → Option Bool} :
    ∀ (as : List α), as.allM test = some true ↔ ∀ a ∈ as, test a = some true
  | [] => by simp [List.allM]
  | a :: as => by
    rw [List.allM, List.forall_mem_cons]
    cases htest : test a with
    | none => simp
    | some result =>
      cases result with
      | false => simp
      | true => simpa using allM_eq_some_true_iff as

end Run
