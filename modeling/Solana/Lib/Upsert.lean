import Mathlib

/-! Folding `upsert` under a strict total order keeps the greatest value, whatever the order of
the values (`foldl_upsert_congr`). -/

namespace Upsert

variable {α : Type*}

def upsert (r : α → α → Prop) [DecidableRel r] : Option α → α → Option α
  | none, value => some value
  | some held, value => if r value held then some value else some held

/-- `r` is a strict total order on `s`. -/
structure StrictTotalOn (r : α → α → Prop) (s : Set α) : Prop where
  irrefl : ∀ a ∈ s, ¬r a a
  trans : ∀ a ∈ s, ∀ b ∈ s, ∀ c ∈ s, r a b → r b c → r a c
  total : ∀ a ∈ s, ∀ b ∈ s, a ≠ b → r a b ∨ r b a

/-- `a` is an element of `l` that overrides every other. -/
def IsGreatestIn (r : α → α → Prop) (l : List α) (a : α) : Prop :=
  a ∈ l ∧ ∀ b ∈ l, b ≠ a → r a b

variable {r : α → α → Prop} {s : Set α}

theorem StrictTotalOn.asymm (h : StrictTotalOn r s) {a b : α} (ha : a ∈ s) (hb : b ∈ s)
    (hab : r a b) : ¬r b a :=
  fun hba => h.irrefl a ha (h.trans a ha b hb a ha hab hba)

theorem IsGreatestIn.congr {l l' : List α} (hmem : ∀ a, a ∈ l ↔ a ∈ l') {a : α}
    (h : IsGreatestIn r l a) : IsGreatestIn r l' a :=
  ⟨(hmem a).mp h.1, fun b hb hne => h.2 b ((hmem b).mpr hb) hne⟩

theorem IsGreatestIn.singleton (a : α) : IsGreatestIn r [a] a :=
  ⟨List.mem_singleton_self a, fun _ hb hne => absurd (List.mem_singleton.mp hb) hne⟩

theorem StrictTotalOn.isGreatestIn_unique (h : StrictTotalOn r s) {l : List α}
    (hl : ∀ a ∈ l, a ∈ s) {a b : α} (ha : IsGreatestIn r l a) (hb : IsGreatestIn r l b) :
    a = b := by
  by_contra hne
  exact h.asymm (hl a ha.1) (hl b hb.1) (ha.2 b hb.1 (Ne.symm hne)) (hb.2 a ha.1 hne)

/-- One more value: the greatest of the values seen, or the new one, is held. -/
theorem StrictTotalOn.isGreatestIn_upsert [DecidableRel r] (h : StrictTotalOn r s)
    {seen : List α} {held value : α} (hs : ∀ a ∈ seen ++ [value], a ∈ s)
    (hheld : IsGreatestIn r seen held) :
    ∃ held', upsert r (some held) value = some held' ∧
      IsGreatestIn r (seen ++ [value]) held' := by
  have hheld_s := hs held (List.mem_append_left _ hheld.1)
  have hvalue_s := hs value (List.mem_append_right _ (List.mem_singleton_self value))
  by_cases hover : r value held
  · refine ⟨value, if_pos hover, List.mem_append_right _ (List.mem_singleton_self value), ?_⟩
    intro b hb hne
    rcases List.mem_append.mp hb with hb | hb
    · by_cases hbheld : b = held
      · exact hbheld ▸ hover
      · exact h.trans value hvalue_s held hheld_s b (hs b (List.mem_append_left _ hb)) hover
          (hheld.2 b hb hbheld)
    · exact absurd (List.mem_singleton.mp hb) hne
  · refine ⟨held, if_neg hover, List.mem_append_left _ hheld.1, ?_⟩
    intro b hb hne
    rcases List.mem_append.mp hb with hb | hb
    · exact hheld.2 b hb hne
    · rw [List.mem_singleton.mp hb] at hne ⊢
      exact (h.total held hheld_s value hvalue_s (Ne.symm hne)).resolve_right hover

theorem StrictTotalOn.foldl_upsert_some [DecidableRel r] (h : StrictTotalOn r s) :
    ∀ (l seen : List α) (held : α), (∀ a ∈ seen ++ l, a ∈ s) → IsGreatestIn r seen held →
      ∃ held', l.foldl (upsert r) (some held) = some held' ∧
        IsGreatestIn r (seen ++ l) held'
  | [], seen, held, _, hheld => ⟨held, rfl, by rwa [List.append_nil]⟩
  | value :: l, seen, held, hs, hheld => by
    have hs' : ∀ a ∈ seen ++ [value], a ∈ s := fun a ha =>
      hs a (by simpa using Or.imp_right Or.inl (List.mem_append.mp ha))
    obtain ⟨held', hupsert, hheld'⟩ := h.isGreatestIn_upsert hs' hheld
    rw [List.foldl_cons, hupsert]
    have hrest := h.foldl_upsert_some l (seen ++ [value]) held'
      (by simpa [List.append_assoc] using hs) hheld'
    simpa [List.append_assoc] using hrest

/-- From an empty store, a fold holds the greatest value offered. -/
theorem StrictTotalOn.foldl_upsert_none [DecidableRel r] (h : StrictTotalOn r s)
    {l : List α} (hl : ∀ a ∈ l, a ∈ s) (hne : l ≠ []) :
    ∃ held, l.foldl (upsert r) none = some held ∧ IsGreatestIn r l held := by
  obtain ⟨value, l, rfl⟩ := List.exists_cons_of_ne_nil hne
  rw [List.foldl_cons]
  simpa [upsert] using
    h.foldl_upsert_some l [value] value (by simpa using hl) (.singleton value)

theorem foldl_upsert_eq_none [DecidableRel r] {l : List α} :
    l.foldl (upsert r) none = none ↔ l = [] := by
  constructor
  · intro h
    cases l with
    | nil => rfl
    | cons value l =>
      have hsome : ∀ (l : List α) (held : α), (l.foldl (upsert r) (some held)).isSome := by
        intro l
        induction l with
        | nil => intro held; rfl
        | cons value l ih =>
          intro held
          rw [List.foldl_cons, upsert]
          split <;> exact ih _
      rw [List.foldl_cons, show upsert r none value = some value from rfl] at h
      have hvalue := hsome l value
      rw [h] at hvalue
      cases hvalue
  · rintro rfl
    rfl

/-- Two lists with the same elements leave the same value. -/
theorem StrictTotalOn.foldl_upsert_congr [DecidableRel r] (h : StrictTotalOn r s)
    {l l' : List α} (hl : ∀ a ∈ l, a ∈ s) (hmem : ∀ a, a ∈ l ↔ a ∈ l') :
    l.foldl (upsert r) none = l'.foldl (upsert r) none := by
  by_cases hne : l = []
  · have hne' : l' = [] := by
      subst hne
      exact List.eq_nil_iff_forall_not_mem.mpr fun a ha => by simpa using (hmem a).mpr ha
    rw [hne, hne']
  · have hne' : l' ≠ [] := fun hnil => hne (List.eq_nil_iff_forall_not_mem.mpr fun a ha =>
      by simpa [hnil] using (hmem a).mp ha)
    have hl' : ∀ a ∈ l', a ∈ s := fun a ha => hl a ((hmem a).mpr ha)
    obtain ⟨held, hfold, hheld⟩ := h.foldl_upsert_none hl hne
    obtain ⟨held', hfold', hheld'⟩ := h.foldl_upsert_none hl' hne'
    rw [hfold, hfold', h.isGreatestIn_unique hl' (hheld.congr hmem) hheld']

/-- A relation that compares keys in a linear order, injective on `s`, is a strict total
order on `s`. -/
theorem strictTotalOn_of_key {β : Type*} [LinearOrder β] (key : α → β)
    (hkey : ∀ a ∈ s, ∀ b ∈ s, r a b ↔ key b < key a) (hinj : Set.InjOn key s) :
    StrictTotalOn r s where
  irrefl a ha hr := lt_irrefl _ ((hkey a ha a ha).mp hr)
  trans a ha b hb c hc hab hbc :=
    (hkey a ha c hc).mpr (lt_trans ((hkey b hb c hc).mp hbc) ((hkey a ha b hb).mp hab))
  total a ha b hb hne := by
    rcases lt_trichotomy (key a) (key b) with hlt | heq | hgt
    · exact .inr ((hkey b hb a ha).mpr hlt)
    · exact absurd (hinj ha hb heq) hne
    · exact .inl ((hkey a ha b hb).mpr hgt)

end Upsert
