import Mathlib

/-! The `indexmap` crate's maps and sets as lists, `swap_remove` moving the last entry into the
freed place, and indexes of positions that follow the list (`IsPositions`, `IsKeyed`, `IsValued`). -/

namespace IndexMap

variable {α κ ν : Type*}

/-! ## Swap removal -/

/-- `swap_remove_index`: the last element takes the place of the removed one; an index past
the end removes nothing. -/
def swapRemoveAt (l : List α) (i : ℕ) : List α :=
  match l.getLast? with
  | none => l
  | some last => if i < l.length then (l.set i last).dropLast else l

theorem getLast?_of_lt {l : List α} {i : ℕ} (hi : i < l.length) :
    l.getLast? = some l[l.length - 1] := by
  rw [List.getLast?_eq_getElem?, List.getElem?_eq_getElem (by omega)]

theorem swapRemoveAt_of_lt {l : List α} {i : ℕ} (hi : i < l.length) :
    swapRemoveAt l i = (l.set i l[l.length - 1]).dropLast := by
  rw [swapRemoveAt, getLast?_of_lt hi]
  exact if_pos hi

theorem length_swapRemoveAt {l : List α} {i : ℕ} (hi : i < l.length) :
    (swapRemoveAt l i).length = l.length - 1 := by
  rw [swapRemoveAt_of_lt hi, List.length_dropLast, List.length_set]

/-- After the swap, the removed place holds the former last entry and the other places below
the last keep theirs. -/
theorem getElem?_swapRemoveAt {l : List α} {i : ℕ} (hi : i < l.length) (j : ℕ) :
    (swapRemoveAt l i)[j]? =
      if j < l.length - 1 then l[if j = i then l.length - 1 else j]? else none := by
  rw [swapRemoveAt_of_lt hi, List.getElem?_dropLast, List.length_set]
  split_ifs with hj hji
  · subst hji
    rw [List.getElem?_set_self hi, List.getElem?_eq_getElem (by omega)]
  · rw [List.getElem?_set_ne (Ne.symm hji)]
  · rfl

theorem swapRemoveAt_of_le {l : List α} {i : ℕ} (hi : l.length ≤ i) : swapRemoveAt l i = l := by
  unfold swapRemoveAt
  split
  · rfl
  · rw [if_neg (by omega)]

theorem map_swapRemoveAt {β : Type*} (f : α → β) (l : List α) (i : ℕ) :
    (swapRemoveAt l i).map f = swapRemoveAt (l.map f) i := by
  by_cases hi : i < l.length
  · apply List.ext_getElem?
    intro j
    rw [List.getElem?_map, getElem?_swapRemoveAt hi, getElem?_swapRemoveAt (by simpa using hi),
      List.length_map]
    split_ifs <;> simp [List.getElem?_map]
  · rw [swapRemoveAt_of_le (by omega), swapRemoveAt_of_le (by simp; omega)]

/-- The removed place holds the former last entry. -/
theorem getElem?_swapRemoveAt_self {l : List α} {i : ℕ} (hi : i < l.length - 1) :
    (swapRemoveAt l i)[i]? = l[l.length - 1]? := by
  rw [getElem?_swapRemoveAt (by omega), if_pos hi, if_pos rfl]

/-- As a multiset, a swap removal erases the entry. -/
theorem swapRemoveAt_perm {l : List α} {i : ℕ} (hi : i < l.length) :
    (swapRemoveAt l i).Perm (l.eraseIdx i) := by
  rw [List.eraseIdx_eq_take_drop_succ, swapRemoveAt_of_lt hi]
  rcases List.eq_nil_or_concat (l.drop (i + 1)) with hrest | ⟨rest, last, hrest⟩
  · have hlen : l.length = i + 1 := by
      have := congrArg List.length hrest
      simp only [List.length_drop, List.length_nil] at this
      omega
    have hset : l.set i l[l.length - 1] = l := by
      simp only [hlen, Nat.add_sub_cancel, List.set_getElem_self]
    rw [hset, hrest, List.append_nil, List.dropLast_eq_take, hlen, Nat.add_sub_cancel]
  · rw [List.concat_eq_append] at hrest
    have hsplit : l = l.take i ++ l[i] :: (rest ++ [last]) := by
      rw [← hrest, List.getElem_cons_drop, List.take_append_drop]
    have hlast : l[l.length - 1] = last := by
      have hget : l.getLast? = some last := by
        rw [hsplit, List.getLast?_append, List.getLast?_cons, List.getLast?_concat]
        simp
      rw [getLast?_of_lt hi, Option.some.injEq] at hget
      exact hget
    have hset : l.set i last = l.take i ++ last :: (rest ++ [last]) := by
      rw [List.set_eq_take_append_cons_drop, if_pos hi, hrest]
    rw [hlast, hset, hrest, ← List.cons_append, ← List.append_assoc, List.dropLast_concat]
    exact List.Perm.append_left _ (List.perm_append_singleton last rest).symm

theorem mem_of_mem_swapRemoveAt {l : List α} {i : ℕ} {a : α} (h : a ∈ swapRemoveAt l i) : a ∈ l := by
  by_cases hi : i < l.length
  · exact List.mem_of_mem_eraseIdx ((swapRemoveAt_perm hi).mem_iff.mp h)
  · rwa [swapRemoveAt_of_le (by omega)] at h

theorem nodup_swapRemoveAt {l : List α} (h : l.Nodup) (i : ℕ) : (swapRemoveAt l i).Nodup := by
  by_cases hi : i < l.length
  · exact (swapRemoveAt_perm hi).nodup_iff.mpr (h.sublist (List.eraseIdx_sublist l i))
  · rwa [swapRemoveAt_of_le (by omega)]

/-! ## Updates in place -/

/-- An update that keeps a property of the elements keeps it of the list. -/
theorem forall_mem_modify {p : α → Prop} {l : List α} (hl : ∀ a ∈ l, p a) {f : α → α}
    (hf : ∀ a, p a → p (f a)) (i : ℕ) : ∀ a ∈ l.modify i f, p a := by
  intro a ha
  obtain ⟨j, hj⟩ := List.mem_iff_getElem?.mp ha
  rw [List.getElem?_modify] at hj
  obtain ⟨b, hb, rfl⟩ := Option.map_eq_some_iff.mp hj
  have hpb := hl b (List.mem_of_getElem? hb)
  split_ifs
  · exact hf b hpb
  · exact hpb

/-- An update that keeps what `g` reads of each element keeps the readings. -/
theorem map_modify_of_forall {β : Type*} {g : α → β} {f : α → α} (hf : ∀ a, g (f a) = g a)
    (l : List α) (i : ℕ) : (l.modify i f).map g = l.map g := by
  apply List.ext_getElem?
  intro j
  rw [List.getElem?_map, List.getElem?_map, List.getElem?_modify]
  cases l[j]? with
  | none => rfl
  | some a =>
    simp only [Option.map_eq_map, Option.map_some]
    split_ifs
    · rw [hf]
    · rfl

/-- An update of the second components of pairs is an update of the list of them. -/
theorem map_snd_modify {β : Type*} (f : ν → ν) (l : List (β × ν)) (i : ℕ) :
    (l.modify i (Prod.map id f)).map Prod.snd = (l.map Prod.snd).modify i f := by
  apply List.ext_getElem?
  intro j
  rw [List.getElem?_map, List.getElem?_modify, List.getElem?_modify, List.getElem?_map]
  cases l[j]? with
  | none => rfl
  | some a =>
    simp only [Option.map_eq_map, Option.map_some]
    split_ifs <;> rfl

/-! ## Sets -/

section Sets

variable [DecidableEq α]

/-- `IndexSet::insert`: a new element goes at the end. -/
def insert (s : List α) (a : α) : List α := if a ∈ s then s else s ++ [a]

/-- `IndexSet::swap_remove`. -/
def swapRemove (s : List α) (a : α) : List α :=
  match s.findIdx? (· == a) with
  | some i => swapRemoveAt s i
  | none => s

theorem mem_insert {s : List α} {a b : α} : b ∈ insert s a ↔ b ∈ s ∨ b = a := by
  unfold insert
  split_ifs with ha
  · exact ⟨Or.inl, fun h => h.elim id fun hb => hb ▸ ha⟩
  · simp

theorem nodup_insert {s : List α} (hs : s.Nodup) (a : α) : (insert s a).Nodup := by
  unfold insert
  split_ifs with ha
  · exact hs
  · exact List.nodup_append.mpr ⟨hs, List.nodup_singleton a, fun b hb c hc => by
      rw [List.mem_singleton.mp hc]
      exact fun h => ha (h ▸ hb)⟩

theorem swapRemove_perm {s : List α} (hs : s.Nodup) (a : α) : (swapRemove s a).Perm (s.erase a) := by
  unfold swapRemove
  cases hfind : s.findIdx? (· == a) with
  | none =>
    have ha : a ∉ s := fun ha => by
      have := List.findIdx?_eq_none_iff.mp hfind a ha
      simp at this
    rw [List.erase_of_not_mem ha]
  | some i =>
    obtain ⟨hi, hbeq, -⟩ := List.findIdx?_eq_some_iff_getElem.mp hfind
    have hget : s[i] = a := by simpa using hbeq
    rw [← hget, hs.erase_getElem i hi]
    exact swapRemoveAt_perm hi

theorem mem_swapRemove {s : List α} (hs : s.Nodup) {a b : α} : b ∈ swapRemove s a ↔ b ≠ a ∧ b ∈ s :=
  ((swapRemove_perm hs a).mem_iff).trans (hs.mem_erase_iff)

theorem nodup_swapRemove {s : List α} (hs : s.Nodup) (a : α) : (swapRemove s a).Nodup :=
  (swapRemove_perm hs a).nodup_iff.mpr (hs.erase a)

end Sets

/-! ## Maps -/

section Maps

variable [DecidableEq κ]

/-- `IndexMap::insert`, `HashMap::insert`: the value of a present key is replaced in place, and a
new key goes at the end. -/
def insertKV (m : List (κ × ν)) (k : κ) (v : ν) : List (κ × ν) :=
  match m.findIdx? (·.1 == k) with
  | some i => m.set i (k, v)
  | none => m ++ [(k, v)]

/-- `IndexMap::swap_remove`, `HashMap::remove`. -/
def swapRemoveKey (m : List (κ × ν)) (k : κ) : List (κ × ν) :=
  match m.findIdx? (·.1 == k) with
  | some i => swapRemoveAt m i
  | none => m

/-- `IndexMap::get`, `HashMap::get`. -/
def get? (m : List (κ × ν)) (k : κ) : Option ν := (m.find? (·.1 == k)).map Prod.snd

/-- `IndexMap::get_full`: the position and the value of a key. -/
def getFull (m : List (κ × ν)) (k : κ) : Option (ℕ × ν) :=
  (m.findIdx? (·.1 == k)).bind fun i => m[i]?.map fun entry => (i, entry.2)

/-- Distinct keys. -/
def KeysNodup (m : List (κ × ν)) : Prop := (m.map Prod.fst).Nodup

/-- An element of a list without duplicates sits at one position. -/
theorem nodup_index_unique {l : List α} (h : l.Nodup) {i j : ℕ} {a : α} (hi : l[i]? = some a)
    (hj : l[j]? = some a) : i = j := by
  by_contra hij
  have hlen_i := (List.getElem?_eq_some_iff.mp hi).1
  have hlen_j := (List.getElem?_eq_some_iff.mp hj).1
  rcases Nat.lt_or_gt_of_ne hij with hlt | hlt
  · exact List.nodup_iff_getElem?_ne_getElem?.mp h i j hlt hlen_j (hi.trans hj.symm)
  · exact List.nodup_iff_getElem?_ne_getElem?.mp h j i hlt hlen_i (hj.trans hi.symm)

omit [DecidableEq κ] in
/-- A key sits at one position. -/
theorem index_unique {m : List (κ × ν)} (hm : KeysNodup m) {i j : ℕ} {k : κ} {v v' : ν}
    (hi : m[i]? = some (k, v)) (hj : m[j]? = some (k, v')) : i = j :=
  nodup_index_unique hm (a := k) (by simp [List.getElem?_map, hi]) (by simp [List.getElem?_map, hj])

omit [DecidableEq κ] in
theorem eq_of_mem_of_mem {m : List (κ × ν)} (hm : KeysNodup m) {k : κ} {v v' : ν} (h : (k, v) ∈ m)
    (h' : (k, v') ∈ m) : v = v' := by
  obtain ⟨i, hi⟩ := List.mem_iff_getElem?.mp h
  obtain ⟨j, hj⟩ := List.mem_iff_getElem?.mp h'
  have hij := index_unique hm hi hj
  subst hij
  rw [hi, Option.some.injEq, Prod.mk.injEq] at hj
  exact hj.2

theorem getElem?_of_findIdx? {m : List (κ × ν)} {k : κ} {i : ℕ} (h : m.findIdx? (·.1 == k) = some i) :
    ∃ v, m[i]? = some (k, v) := by
  obtain ⟨hi, hbeq, -⟩ := List.findIdx?_eq_some_iff_getElem.mp h
  refine ⟨m[i].2, ?_⟩
  rw [List.getElem?_eq_getElem hi]
  simp only [beq_iff_eq] at hbeq
  rw [← hbeq]

theorem not_mem_of_findIdx? {m : List (κ × ν)} {k : κ} (h : m.findIdx? (·.1 == k) = none) (v : ν) :
    (k, v) ∉ m := fun hmem => by
  have := List.findIdx?_eq_none_iff.mp h _ hmem
  simp at this

theorem get?_eq_some_iff {m : List (κ × ν)} (hm : KeysNodup m) {k : κ} {v : ν} :
    get? m k = some v ↔ (k, v) ∈ m := by
  constructor
  · intro h
    obtain ⟨entry, hfind, rfl⟩ := Option.map_eq_some_iff.mp h
    have hk : entry.1 = k := by simpa using List.find?_some hfind
    rw [← hk]
    exact List.mem_of_find?_eq_some hfind
  · intro h
    obtain ⟨entry, hfind⟩ : ∃ entry, m.find? (·.1 == k) = some entry :=
      Option.isSome_iff_exists.mp (List.find?_isSome.mpr ⟨(k, v), h, by simp⟩)
    have hk : entry.1 = k := by simpa using List.find?_some hfind
    have hmem : (k, entry.2) ∈ m := hk ▸ List.mem_of_find?_eq_some hfind
    rw [get?, hfind, Option.map_some, eq_of_mem_of_mem hm hmem h]

theorem getFull_eq_some_iff {m : List (κ × ν)} (hm : KeysNodup m) {k : κ} {i : ℕ} {v : ν} :
    getFull m k = some (i, v) ↔ m[i]? = some (k, v) := by
  constructor
  · intro h
    obtain ⟨j, hfind, hentry⟩ := Option.bind_eq_some_iff.mp h
    obtain ⟨entry, hget, hpair⟩ := Option.map_eq_some_iff.mp hentry
    obtain ⟨v', hget'⟩ := getElem?_of_findIdx? hfind
    obtain ⟨rfl, rfl⟩ := Prod.mk.inj hpair
    rw [hget] at hget'
    cases hget'
    exact hget
  · intro h
    cases hfind : m.findIdx? (·.1 == k) with
    | none => exact absurd (List.mem_of_getElem? h) (not_mem_of_findIdx? hfind v)
    | some j =>
      obtain ⟨v', hget'⟩ := getElem?_of_findIdx? hfind
      have hij := index_unique hm hget' h
      subst hij
      rw [getFull, hfind, Option.bind_some, h]
      rfl

theorem getFull_eq_none_iff {m : List (κ × ν)} {k : κ} : getFull m k = none ↔ ∀ v, (k, v) ∉ m := by
  constructor
  · intro h v hmem
    obtain ⟨i, hi⟩ := List.mem_iff_getElem?.mp hmem
    cases hfind : m.findIdx? (·.1 == k) with
    | none => exact not_mem_of_findIdx? hfind v hmem
    | some j =>
      obtain ⟨v', hget'⟩ := getElem?_of_findIdx? hfind
      rw [getFull, hfind, Option.bind_some, hget'] at h
      cases h
  · intro h
    cases hfind : m.findIdx? (·.1 == k) with
    | none => rw [getFull, hfind]; rfl
    | some j =>
      obtain ⟨v', hget'⟩ := getElem?_of_findIdx? hfind
      exact absurd (List.mem_of_getElem? hget') (h v')

omit [DecidableEq κ] in
/-- An entry of a map other than the one at position `i` has another key than the one there. -/
theorem mem_set_iff {m : List (κ × ν)} (hm : KeysNodup m) {i : ℕ} {k : κ} {v v' : ν}
    (hget : m[i]? = some (k, v)) {entry : κ × ν} :
    entry ∈ m.set i (k, v') ↔ entry = (k, v') ∨ (entry ∈ m ∧ entry.1 ≠ k) := by
  have hi := (List.getElem?_eq_some_iff.mp hget).1
  obtain ⟨a, b⟩ := entry
  simp only [List.mem_iff_getElem?, List.getElem?_set]
  constructor
  · rintro ⟨j, hj⟩
    by_cases hij : i = j
    · rw [if_pos hij, if_pos hi, Option.some.injEq] at hj
      exact Or.inl hj.symm
    · rw [if_neg hij] at hj
      exact Or.inr ⟨⟨j, hj⟩, fun hk => hij (index_unique hm hget (show m[j]? = some (k, b) by rw [hj, hk]))⟩
  · rintro (hentry | ⟨⟨j, hj⟩, hk⟩)
    · exact ⟨i, by rw [if_pos rfl, if_pos hi, hentry]⟩
    · refine ⟨j, ?_⟩
      rw [if_neg]
      · exact hj
      · rintro rfl
        rw [hget, Option.some.injEq, Prod.mk.injEq] at hj
        exact hk hj.1.symm

omit [DecidableEq κ] in
theorem keysNodup_set {m : List (κ × ν)} (hm : KeysNodup m) {i : ℕ} {k : κ} {v v' : ν}
    (hget : m[i]? = some (k, v)) : KeysNodup (m.set i (k, v')) := by
  have hkeys : (m.set i (k, v')).map Prod.fst = m.map Prod.fst := by
    apply List.ext_getElem?
    intro j
    simp only [List.getElem?_map, List.getElem?_set]
    by_cases hij : i = j
    · subst hij
      obtain ⟨hi, hgeti⟩ := List.getElem?_eq_some_iff.mp hget
      simp [hi, hgeti]
    · rw [if_neg hij]
  unfold KeysNodup
  rw [hkeys]
  exact hm

theorem mem_insertKV {m : List (κ × ν)} (hm : KeysNodup m) {k : κ} {v : ν} {entry : κ × ν} :
    entry ∈ insertKV m k v ↔ entry = (k, v) ∨ (entry ∈ m ∧ entry.1 ≠ k) := by
  unfold insertKV
  cases hfind : m.findIdx? (·.1 == k) with
  | none =>
    simp only [List.mem_append, List.mem_singleton]
    constructor
    · rintro (hmem | rfl)
      · exact Or.inr ⟨hmem, fun hk => not_mem_of_findIdx? hfind entry.2 (hk ▸ hmem)⟩
      · exact Or.inl rfl
    · rintro (rfl | ⟨hmem, -⟩)
      · exact Or.inr rfl
      · exact Or.inl hmem
  | some i =>
    obtain ⟨v', hget⟩ := getElem?_of_findIdx? hfind
    exact mem_set_iff hm hget

omit [DecidableEq κ] in
/-- A pair of a new key at the end. -/
theorem keysNodup_append_singleton {m : List (κ × ν)} (hm : KeysNodup m) {k : κ}
    (hk : ∀ v, (k, v) ∉ m) (v : ν) : KeysNodup (m ++ [(k, v)]) := by
  unfold KeysNodup
  rw [List.map_append, List.nodup_append]
  refine ⟨hm, List.nodup_singleton _, ?_⟩
  intro a ha b hb
  obtain ⟨entry, hmem, rfl⟩ := List.mem_map.mp ha
  rw [List.map_singleton, List.mem_singleton] at hb
  subst hb
  intro hkey
  exact hk entry.2 (hkey ▸ hmem)

theorem keysNodup_insertKV {m : List (κ × ν)} (hm : KeysNodup m) (k : κ) (v : ν) :
    KeysNodup (insertKV m k v) := by
  unfold insertKV
  cases hfind : m.findIdx? (·.1 == k) with
  | none => exact keysNodup_append_singleton hm (not_mem_of_findIdx? hfind) v
  | some i =>
    obtain ⟨v', hget⟩ := getElem?_of_findIdx? hfind
    exact keysNodup_set hm hget

theorem swapRemoveKey_perm (m : List (κ × ν)) (k : κ) :
    ∃ m', (swapRemoveKey m k).Perm m' ∧ m'.Sublist m ∧ ∀ entry, entry ∈ m → entry ∉ m' → entry.1 = k := by
  unfold swapRemoveKey
  cases hfind : m.findIdx? (·.1 == k) with
  | none => exact ⟨m, List.Perm.refl _, List.Sublist.refl _, fun _ h h' => absurd h h'⟩
  | some i =>
    obtain ⟨v, hget⟩ := getElem?_of_findIdx? hfind
    have hi := (List.getElem?_eq_some_iff.mp hget).1
    refine ⟨m.eraseIdx i, swapRemoveAt_perm hi, List.eraseIdx_sublist m i, fun entry hmem hnot => ?_⟩
    obtain ⟨j, hj, rfl⟩ := List.getElem_of_mem hmem
    by_cases hij : j = i
    · subst hij
      rw [(List.getElem?_eq_some_iff.mp hget).2]
    · exact absurd (List.mem_eraseIdx_iff_getElem.mpr ⟨j, hj, hij, rfl⟩) hnot

theorem mem_swapRemoveKey {m : List (κ × ν)} (hm : KeysNodup m) {k : κ} {entry : κ × ν} :
    entry ∈ swapRemoveKey m k ↔ entry ∈ m ∧ entry.1 ≠ k := by
  unfold swapRemoveKey
  cases hfind : m.findIdx? (·.1 == k) with
  | none =>
    refine ⟨fun h => ⟨h, fun hk => not_mem_of_findIdx? hfind entry.2 (hk ▸ h)⟩, fun h => h.1⟩
  | some i =>
    obtain ⟨v, hget⟩ := getElem?_of_findIdx? hfind
    have hi := (List.getElem?_eq_some_iff.mp hget).1
    rw [(swapRemoveAt_perm hi).mem_iff, List.mem_eraseIdx_iff_getElem]
    constructor
    · rintro ⟨j, hj, hji, rfl⟩
      refine ⟨List.getElem_mem hj, fun hk => hji (index_unique hm (v := m[j].2) ?_ hget)⟩
      rw [List.getElem?_eq_getElem hj, ← hk]
    · rintro ⟨hmem, hk⟩
      obtain ⟨j, hj, rfl⟩ := List.getElem_of_mem hmem
      refine ⟨j, hj, fun hji => hk ?_, rfl⟩
      subst hji
      rw [(List.getElem?_eq_some_iff.mp hget).2]

theorem keysNodup_swapRemoveKey {m : List (κ × ν)} (hm : KeysNodup m) (k : κ) :
    KeysNodup (swapRemoveKey m k) := by
  obtain ⟨m', hperm, hsub, -⟩ := swapRemoveKey_perm m k
  exact (hperm.map Prod.fst).nodup_iff.mpr ((hsub.map Prod.fst).nodup hm)

/-- Read through `get?`, an insert updates one key. -/
theorem get?_insertKV {m : List (κ × ν)} (hm : KeysNodup m) (k : κ) (v : ν) (k' : κ) :
    get? (insertKV m k v) k' = if k' = k then some v else get? m k' := by
  refine Option.ext fun w => ?_
  rw [get?_eq_some_iff (keysNodup_insertKV hm k v), mem_insertKV hm]
  split_ifs with hk
  · subst hk
    simp only [Prod.mk.injEq, true_and, ne_eq, not_true_eq_false, and_false, or_false,
      Option.some.injEq]
    exact eq_comm
  · rw [get?_eq_some_iff hm]
    simp [hk]

/-- Read through `get?`, a removal drops one key. -/
theorem get?_swapRemoveKey {m : List (κ × ν)} (hm : KeysNodup m) (k k' : κ) :
    get? (swapRemoveKey m k) k' = if k' = k then none else get? m k' := by
  refine Option.ext fun w => ?_
  rw [get?_eq_some_iff (keysNodup_swapRemoveKey hm k), mem_swapRemoveKey hm]
  split_ifs with hk
  · simp [hk]
  · rw [get?_eq_some_iff hm]
    simp [hk]

omit [DecidableEq κ] in
theorem keysNodup_swapRemoveAt {m : List (κ × ν)} (hm : KeysNodup m) (i : ℕ) :
    KeysNodup (swapRemoveAt m i) := by
  unfold KeysNodup
  rw [map_swapRemoveAt]
  exact nodup_swapRemoveAt hm i

end Maps

/-! ## Indexes of the positions of a list -/

section Positions

theorem getElem?_append_singleton (l : List α) (a : α) (j : ℕ) :
    (l ++ [a])[j]? = if j < l.length then l[j]? else if j = l.length then some a else none := by
  rcases Nat.lt_trichotomy j l.length with hj | rfl | hj
  · rw [if_pos hj, List.getElem?_append_left hj]
  · simp
  · rw [if_neg (by omega), if_neg (by omega), List.getElem?_eq_none]
    simp only [List.length_append, List.length_singleton]
    omega

/-- Position `j` after the swap removal of `i`, read where it was before. -/
theorem any_swapRemoveAt {l : List α} {i : ℕ} (hi : i < l.length) (P : α → Bool) (j : ℕ) :
    (swapRemoveAt l i)[j]?.any P =
      (decide (j < l.length - 1) && (if j = i then l[l.length - 1]?.any P else l[j]?.any P)) := by
  rw [getElem?_swapRemoveAt hi]
  by_cases hj : j < l.length - 1
  · rw [if_pos hj, decide_eq_true hj, Bool.true_and]
    split_ifs <;> rfl
  · rw [if_neg hj, decide_eq_false hj, Bool.false_and]
    rfl

theorem any_lt {l : List α} {P : α → Bool} {j : ℕ} (h : l[j]?.any P = true) : j < l.length := by
  by_contra hj
  rw [List.getElem?_eq_none (by omega)] at h
  exact Bool.false_ne_true h

variable (P : α → Bool)

/-- `s` holds, once each, the positions of the entries of `l` that satisfy `P`. -/
structure IsPositions (l : List α) (s : List ℕ) : Prop where
  nodup : s.Nodup
  mem_iff : ∀ j, j ∈ s ↔ l[j]?.any P = true

variable {P} [DecidableEq α]

omit [DecidableEq α] in
/-- A new entry at the end adds its position. -/
theorem IsPositions.append {l : List α} {s : List ℕ} (h : IsPositions P l s) (a : α) :
    IsPositions P (l ++ [a]) (if P a then insert s l.length else s) := by
  refine ⟨?_, fun j => ?_⟩
  · split_ifs
    · exact nodup_insert h.nodup _
    · exact h.nodup
  · rw [getElem?_append_singleton]
    have hlt : j ∈ s → j < l.length := fun hj => any_lt ((h.mem_iff j).mp hj)
    by_cases hPa : P a
    · rw [if_pos hPa, mem_insert, h.mem_iff]
      rcases Nat.lt_trichotomy j l.length with hj | rfl | hj
      · simp [hj, Nat.ne_of_lt hj]
      · simp [hPa]
      · simp [Nat.not_lt_of_gt hj, Nat.ne_of_gt hj]
    · rw [if_neg hPa, h.mem_iff]
      rcases Nat.lt_trichotomy j l.length with hj | rfl | hj
      · simp [hj]
      · simp [hPa]
      · simp [Nat.not_lt_of_gt hj, Nat.ne_of_gt hj]

omit [DecidableEq α] in
/-- An entry replaced by one of the same kind keeps the positions. -/
theorem IsPositions.set {l : List α} {s : List ℕ} (h : IsPositions P l s) {i : ℕ} {a b : α}
    (hget : l[i]? = some a) (hP : P b = P a) : IsPositions P (l.set i b) s := by
  refine ⟨h.nodup, fun j => ?_⟩
  rw [h.mem_iff, List.getElem?_set]
  by_cases hij : i = j
  · subst hij
    obtain ⟨hi, hgeti⟩ := List.getElem?_eq_some_iff.mp hget
    simp [hP, hi, hgeti]
  · rw [if_neg hij]

omit [DecidableEq α] in
/-- Removing the last entry drops its position. -/
theorem IsPositions.swapRemoveAt_last {l : List α} {s : List ℕ} (h : IsPositions P l s) {i : ℕ}
    {a : α} (hget : l[i]? = some a) (hlast : l.length - 1 ≤ i) :
    IsPositions P (swapRemoveAt l i) (if P a then swapRemove s i else s) := by
  obtain ⟨hi, rfl⟩ := List.getElem?_eq_some_iff.mp hget
  have hmem : ∀ j, j ∈ (if P l[i] then swapRemove s i else s) ↔ j ≠ i ∧ j ∈ s := by
    intro j
    split_ifs with hP
    · exact mem_swapRemove h.nodup
    · refine ⟨fun hj => ⟨fun hji => ?_, hj⟩, fun hj => hj.2⟩
      subst hji
      rw [h.mem_iff, List.getElem?_eq_getElem hi] at hj
      exact hP hj
  refine ⟨?_, fun j => ?_⟩
  · split_ifs
    · exact nodup_swapRemove h.nodup _
    · exact h.nodup
  · rw [hmem, h.mem_iff, any_swapRemoveAt hi]
    by_cases hji : j = i
    · simp [hji]
      omega
    · by_cases hj : j < l.length - 1
      · simp [hji, hj]
      · simp only [hji, hj, ne_eq, not_false_eq_true, true_and, decide_false, Bool.false_and,
          Bool.false_eq_true, iff_false]
        intro hany
        have := any_lt hany
        omega

omit [DecidableEq α] in
/-- Removing an entry that the last one replaces drops its position and renumbers the last
position. -/
theorem IsPositions.swapRemoveAt_moved {l : List α} {s : List ℕ} (h : IsPositions P l s) {i : ℕ}
    {a b : α} (hget : l[i]? = some a)
    (hgetm : l[l.length - 1]? = some b) (hi : i < l.length - 1) :
    IsPositions P (swapRemoveAt l i)
      (if P b then
        insert (swapRemove (if P a then swapRemove s i else s) (l.length - 1)) i
      else if P a then swapRemove s i else s) := by
  obtain ⟨hi', rfl⟩ := List.getElem?_eq_some_iff.mp hget
  obtain ⟨hm, rfl⟩ := List.getElem?_eq_some_iff.mp hgetm
  have hgetm : l[l.length - 1]? = some l[l.length - 1] := List.getElem?_eq_getElem hm
  have hs₁ : ∀ j, j ∈ (if P l[i] then swapRemove s i else s) ↔ j ≠ i ∧ j ∈ s := by
    intro j
    split_ifs with hP
    · exact mem_swapRemove h.nodup
    · refine ⟨fun hj => ⟨fun hji => ?_, hj⟩, fun hj => hj.2⟩
      subst hji
      rw [h.mem_iff, List.getElem?_eq_getElem hi'] at hj
      exact hP hj
  have hnodup₁ : (if P l[i] then swapRemove s i else s).Nodup := by
    split_ifs
    · exact nodup_swapRemove h.nodup _
    · exact h.nodup
  have hmem : ∀ j, j ∈ (if P l[l.length - 1] then
        insert (swapRemove (if P l[i] then swapRemove s i else s) (l.length - 1)) i
      else if P l[i] then swapRemove s i else s) ↔
      (j ≠ l.length - 1 ∧ j ≠ i ∧ j ∈ s) ∨ (j = i ∧ P l[l.length - 1] = true) := by
    intro j
    by_cases hPm : P l[l.length - 1] = true
    · rw [if_pos hPm, mem_insert, mem_swapRemove hnodup₁, hs₁]
      simp [hPm]
    · rw [if_neg hPm, hs₁]
      have hlast : l.length - 1 ∉ s := by
        rw [h.mem_iff, hgetm]
        simpa using hPm
      constructor
      · rintro ⟨hji, hj⟩
        exact Or.inl ⟨fun hjl => hlast (hjl ▸ hj), hji, hj⟩
      · rintro (⟨-, hji, hj⟩ | ⟨-, hP⟩)
        · exact ⟨hji, hj⟩
        · exact absurd hP hPm
  refine ⟨?_, fun j => ?_⟩
  · by_cases hPm : P l[l.length - 1] = true
    · rw [if_pos hPm]
      exact nodup_insert (nodup_swapRemove hnodup₁ _) _
    · rw [if_neg hPm]
      exact hnodup₁
  · rw [hmem, h.mem_iff, any_swapRemoveAt hi']
    by_cases hji : j = i
    · subst hji
      simp [hi, hgetm]
    · by_cases hj : j < l.length - 1
      · simp [hji, hj, Nat.ne_of_lt hj]
      · simp only [hji, hj, decide_false, Bool.false_and, Bool.false_eq_true, iff_false, false_and,
          or_false, not_and]
        intro hjl _ hany
        have := any_lt hany
        omega

omit [DecidableEq α] in
/-- An update that keeps the kind of every entry keeps the positions. -/
theorem IsPositions.modify {l : List α} {s : List ℕ} (h : IsPositions P l s) {f : α → α}
    (hf : ∀ a, P (f a) = P a) (i : ℕ) : IsPositions P (l.modify i f) s := by
  refine ⟨h.nodup, fun j => ?_⟩
  rw [h.mem_iff, List.getElem?_modify]
  cases l[j]? with
  | none => rfl
  | some a =>
    simp only [Option.map_eq_map, Option.map_some, Option.any_some]
    split_ifs
    · rw [hf]
    · rfl

end Positions

/-! ## Maps from keys of the entries to their positions -/

section Keyed

variable (K : α → κ)

/-- Entries at distinct positions have distinct keys. -/
def KeyInjective (l : List α) : Prop :=
  ∀ (i j : ℕ) (a b : α), l[i]? = some a → l[j]? = some b → K a = K b → i = j

variable {K}

theorem KeyInjective.append {l : List α} (h : KeyInjective K l) (a : α) (hfresh : ∀ b ∈ l, K b ≠ K a) :
    KeyInjective K (l ++ [a]) := by
  intro i j b c hi hj hbc
  rw [getElem?_append_singleton] at hi hj
  split_ifs at hi hj with hi' hin hj' hjn hj' hjn <;> (try cases hi) <;> (try cases hj)
  · exact h i j b c hi hj hbc
  · exact absurd hbc (hfresh b (List.mem_of_getElem? hi))
  · exact absurd hbc.symm (hfresh c (List.mem_of_getElem? hj))
  · omega

theorem KeyInjective.set {l : List α} (h : KeyInjective K l) {i : ℕ} {b : α}
    (hfresh : ∀ c ∈ l, K c ≠ K b) : KeyInjective K (l.set i b) := by
  intro j j' c c' hj hj' hcc
  rw [List.getElem?_set] at hj hj'
  split_ifs at hj hj' with h₁ hlt h₂ hlt' <;> (try cases hj) <;> (try cases hj')
  · exact h₁.symm.trans h₂
  · exact absurd hcc.symm (hfresh c' (List.mem_of_getElem? hj'))
  · exact absurd hcc (hfresh c (List.mem_of_getElem? hj))
  · exact h j j' c c' hj hj' hcc

theorem KeyInjective.swapRemoveAt {l : List α} (h : KeyInjective K l) {i : ℕ} (hi : i < l.length) :
    KeyInjective K (swapRemoveAt l i) := by
  intro j j' c c' hj hj' hcc
  rw [getElem?_swapRemoveAt hi] at hj hj'
  split_ifs at hj hj' with hjl hji hjl' hji' hji' <;>
    have := h _ _ c c' hj hj' hcc <;> omega

theorem KeyInjective.modify {l : List α} (h : KeyInjective K l) {f : α → α} (hf : ∀ a, K (f a) = K a)
    (i : ℕ) : KeyInjective K (l.modify i f) := by
  intro j j' c c' hj hj' hcc
  rw [List.getElem?_modify] at hj hj'
  obtain ⟨a, ha, hac⟩ := Option.map_eq_some_iff.mp hj
  obtain ⟨a', ha', hac'⟩ := Option.map_eq_some_iff.mp hj'
  have hKa : K a = K c := by rw [← hac]; split_ifs <;> simp [hf]
  have hKa' : K a' = K c' := by rw [← hac']; split_ifs <;> simp [hf]
  exact h j j' a a' ha ha' (by rw [hKa, hKa', hcc])

variable [DecidableEq κ]

/-- `M` maps the key of each entry of `l` that satisfies `P` to its position, and no other key. -/
def IsKeyed (P : α → Bool) (K : α → κ) (l : List α) (M : κ → Option ℕ) : Prop :=
  ∀ k j, M k = some j ↔ l[j]?.any (fun a => P a && decide (K a = k)) = true

variable {P : α → Bool}

/-- An entry with a new key at the end maps its key to its position. -/
theorem IsKeyed.append {l : List α} {M : κ → Option ℕ} (h : IsKeyed P K l M) (a : α)
    (hfresh : ∀ b ∈ l, K b ≠ K a) :
    IsKeyed P K (l ++ [a]) (if P a then Function.update M (K a) (some l.length) else M) := by
  intro k j
  have hlt : M k = some j → j < l.length := fun hM => any_lt ((h k j).mp hM)
  rw [getElem?_append_singleton]
  rcases Nat.lt_trichotomy j l.length with hj | rfl | hj
  · rw [if_pos hj]
    split_ifs with hPa
    · by_cases hk : k = K a
      · subst hk
        rw [Function.update_self, Option.some.injEq, List.getElem?_eq_getElem hj]
        simpa [Nat.ne_of_gt hj] using fun _ => hfresh _ (List.getElem_mem hj)
      · rw [Function.update_of_ne hk, h]
    · rw [h]
  · rw [if_neg (Nat.lt_irrefl _), if_pos rfl, Option.any_some]
    split_ifs with hPa
    · by_cases hk : k = K a
      · subst hk
        simp [hPa]
      · rw [Function.update_of_ne hk]
        simpa [hPa, Ne.symm hk] using fun hM => Nat.lt_irrefl _ (hlt hM)
    · simpa [hPa] using fun hM => Nat.lt_irrefl _ (hlt hM)
  · have hnone : M k ≠ some j := fun hM => absurd (hlt hM) (by omega)
    rw [if_neg (show ¬j < l.length by omega), if_neg (show j ≠ l.length by omega)]
    split_ifs with hPa
    · by_cases hk : k = K a
      · subst hk
        simp [Nat.ne_of_lt hj]
      · rw [Function.update_of_ne hk]
        simpa using hnone
    · simpa using hnone

/-- An entry replaced by one of the same kind with a new key maps the new key to the place,
and the old key to nothing. -/
theorem IsKeyed.set {l : List α} {M : κ → Option ℕ} (h : IsKeyed P K l M) (hinj : KeyInjective K l)
    {i : ℕ} {a b : α} (hget : l[i]? = some a) (hP : P b = P a) (hfresh : ∀ c ∈ l, K c ≠ K b) :
    IsKeyed P K (l.set i b)
      (if P b then Function.update (Function.update M (K a) none) (K b) (some i) else M) := by
  have hab : K a ≠ K b := hfresh a (List.mem_of_getElem? hget)
  intro k j
  rw [List.getElem?_set]
  by_cases hij : i = j
  · subst hij
    rw [if_pos rfl, if_pos (List.getElem?_eq_some_iff.mp hget).1, Option.any_some]
    by_cases hPb : P b
    · rw [if_pos hPb]
      by_cases hk : k = K b
      · subst hk
        simp [hPb]
      · rw [Function.update_of_ne hk]
        by_cases hka : k = K a
        · subst hka
          simp [Ne.symm hab]
        · rw [Function.update_of_ne hka, h, hget]
          simp [Ne.symm hka, Ne.symm hk]
    · rw [if_neg hPb, h, hget]
      simp [hPb, show P a = false by simpa [hP] using hPb]
  · rw [if_neg hij]
    by_cases hPb : P b
    · rw [if_pos hPb]
      by_cases hk : k = K b
      · subst hk
        rw [Function.update_self, Option.some.injEq]
        cases hj : l[j]? with
        | none => simpa using hij
        | some c => simpa [hfresh c (List.mem_of_getElem? hj)] using hij
      · rw [Function.update_of_ne hk]
        by_cases hka : k = K a
        · subst hka
          rw [Function.update_self]
          cases hj : l[j]? with
          | none => simp
          | some c => simpa using fun _ hca => hij (hinj i j a c hget hj hca.symm)
        · rw [Function.update_of_ne hka, h]
    · rw [if_neg hPb, h]

/-- Under distinct keys, the place holding a key is the place of its entry. -/
theorem KeyInjective.any_key_iff {l : List α} (hinj : KeyInjective K l) {i : ℕ} {a : α}
    (hget : l[i]? = some a) (j : ℕ) :
    l[j]?.any (fun c => P c && decide (K c = K a)) = true ↔ j = i ∧ P a = true := by
  constructor
  · intro hany
    cases hj : l[j]? with
    | none => simp [hj] at hany
    | some c =>
      simp only [hj, Option.any_some, Bool.and_eq_true, decide_eq_true_eq] at hany
      have hji : j = i := hinj j i c a hj hget hany.2
      subst hji
      rw [hget, Option.some.injEq] at hj
      exact ⟨rfl, hj ▸ hany.1⟩
  · rintro ⟨rfl, hPa⟩
    simp [hget, hPa]

/-- Dropping the key of an entry leaves the other keys; an entry of the other kind held none. -/
theorem IsKeyed.erase_key {l : List α} {M : κ → Option ℕ} (h : IsKeyed P K l M)
    (hinj : KeyInjective K l) {i : ℕ} {a : α} (hget : l[i]? = some a) (k : κ) (j : ℕ) :
    (if P a then Function.update M (K a) none else M) k = some j ↔ k ≠ K a ∧ M k = some j := by
  by_cases hk : k = K a
  · subst hk
    split_ifs with hPa
    · simp
    · rw [h, hinj.any_key_iff hget]
      simp [hPa]
  · split_ifs <;> simp [hk]

/-- Removing the last entry drops its key. -/
theorem IsKeyed.swapRemoveAt_last {l : List α} {M : κ → Option ℕ} (h : IsKeyed P K l M)
    (hinj : KeyInjective K l) {i : ℕ} {a : α} (hget : l[i]? = some a) (hlast : l.length - 1 ≤ i) :
    IsKeyed P K (swapRemoveAt l i) (if P a then Function.update M (K a) none else M) := by
  obtain ⟨hi, rfl⟩ := List.getElem?_eq_some_iff.mp hget
  intro k j
  rw [h.erase_key hinj hget, h, any_swapRemoveAt hi]
  by_cases hji : j = i
  · subst hji
    simp only [hget, Option.any_some, Bool.and_eq_true, decide_eq_true_eq, if_true]
    constructor
    · rintro ⟨hk, -, hka⟩
      exact absurd hka.symm hk
    · rintro ⟨hj, -⟩
      omega
  · rw [if_neg hji]
    simp only [Bool.and_eq_true, decide_eq_true_eq]
    constructor
    · rintro ⟨-, hany⟩
      have := any_lt hany
      exact ⟨by omega, hany⟩
    · rintro ⟨-, hany⟩
      refine ⟨fun hk => ?_, hany⟩
      subst hk
      exact hji ((hinj.any_key_iff hget j).mp hany).1

/-- Removing an entry that the last one replaces drops its key and maps the key of the last
entry to the freed place. -/
theorem IsKeyed.swapRemoveAt_moved {l : List α} {M : κ → Option ℕ} (h : IsKeyed P K l M)
    (hinj : KeyInjective K l) {i : ℕ} {a b : α} (hget : l[i]? = some a)
    (hgetm : l[l.length - 1]? = some b) (hi : i < l.length - 1) :
    IsKeyed P K (swapRemoveAt l i)
      (if P b then
        Function.update (if P a then Function.update M (K a) none else M)
          (K b) (some i)
      else if P a then Function.update M (K a) none else M) := by
  obtain ⟨hi', rfl⟩ := List.getElem?_eq_some_iff.mp hget
  obtain ⟨hm, rfl⟩ := List.getElem?_eq_some_iff.mp hgetm
  have hgetm : l[l.length - 1]? = some l[l.length - 1] := List.getElem?_eq_getElem hm
  have hK : K l[l.length - 1] ≠ K l[i] := fun hK => by
    have := hinj _ _ _ _ hgetm hget hK
    omega
  have hM : ∀ k j, (if P l[l.length - 1] then
        Function.update (if P l[i] then Function.update M (K l[i]) none else M)
          (K l[l.length - 1]) (some i)
      else if P l[i] then Function.update M (K l[i]) none else M) k = some j ↔
      (k ≠ K l[i] ∧ k ≠ K l[l.length - 1] ∧ M k = some j) ∨
        (k = K l[l.length - 1] ∧ j = i ∧ P l[l.length - 1] = true) := by
    intro k j
    by_cases hk : k = K l[l.length - 1]
    · subst hk
      by_cases hPm : P l[l.length - 1] = true
      · rw [if_pos hPm, Function.update_self, Option.some.injEq]
        simp [hPm, @eq_comm _ i j]
      · rw [if_neg hPm, h.erase_key hinj hget, h, hinj.any_key_iff hgetm]
        simp [hPm]
    · by_cases hPm : P l[l.length - 1] = true
      · rw [if_pos hPm, Function.update_of_ne hk, h.erase_key hinj hget]
        simp [hk]
      · rw [if_neg hPm, h.erase_key hinj hget]
        simp [hk]
  intro k j
  rw [hM, h, any_swapRemoveAt hi']
  by_cases hji : j = i
  · subst hji
    simp only [hget, hgetm, Option.any_some, Bool.and_eq_true, decide_eq_true_eq, if_true, hi,
      true_and]
    constructor
    · rintro (⟨hk, -, -, hka⟩ | ⟨hk, hPm⟩)
      · exact absurd hka.symm hk
      · exact ⟨hPm, hk.symm⟩
    · rintro ⟨hPm, hk⟩
      exact Or.inr ⟨hk.symm, hPm⟩
  · rw [if_neg hji]
    simp only [Bool.and_eq_true, decide_eq_true_eq, hji, false_and, and_false, or_false]
    constructor
    · rintro ⟨-, hkm, hany⟩
      have hjm : j ≠ l.length - 1 := fun hjm => by
        subst hjm
        simp only [hgetm, Option.any_some, Bool.and_eq_true, decide_eq_true_eq] at hany
        exact hkm hany.2.symm
      have := any_lt hany
      exact ⟨by omega, hany⟩
    · rintro ⟨hj, hany⟩
      refine ⟨fun hk => ?_, fun hk => ?_, hany⟩
      · subst hk
        exact hji ((hinj.any_key_iff hget j).mp hany).1
      · subst hk
        have := ((hinj.any_key_iff hgetm j).mp hany).1
        omega

/-- An update that keeps the kind and the key of every entry keeps the map. -/
theorem IsKeyed.modify {l : List α} {M : κ → Option ℕ} (h : IsKeyed P K l M) {f : α → α}
    (hP : ∀ a, P (f a) = P a) (hK : ∀ a, K (f a) = K a) (i : ℕ) : IsKeyed P K (l.modify i f) M := by
  intro k j
  rw [h, List.getElem?_modify]
  cases l[j]? with
  | none => rfl
  | some a =>
    simp only [Option.map_eq_map, Option.map_some, Option.any_some]
    split_ifs
    · rw [hP, hK]
    · rfl

end Keyed

/-! ## Maps from the positions of a list to values of its entries -/

section Valued

variable [DecidableEq κ]

/-- The map `m` holds, for the position of each entry of `l` that satisfies `P`, the value `V` of
the entry, and nothing else. -/
structure IsValued (P : α → Bool) (V : α → ν) (l : List α) (m : List (ℕ × ν)) : Prop where
  keys_nodup : KeysNodup m
  get?_eq : ∀ j, get? m j = (l[j]?.filter P).map V

variable {P : α → Bool} {V : α → ν}

/-- The pairs of the map: a position of an entry that satisfies `P`, with its value. -/
theorem IsValued.mem_iff {l : List α} {m : List (ℕ × ν)} (h : IsValued P V l m) {j : ℕ} {x : ν} :
    (j, x) ∈ m ↔ ∃ a, l[j]? = some a ∧ P a = true ∧ V a = x := by
  rw [← get?_eq_some_iff h.keys_nodup, h.get?_eq, Option.map_eq_some_iff]
  simp only [Option.filter_eq_some_iff]
  constructor
  · rintro ⟨a, ⟨hget, hP⟩, hV⟩
    exact ⟨a, hget, hP, hV⟩
  · rintro ⟨a, hget, hP, hV⟩
    exact ⟨a, ⟨hget, hP⟩, hV⟩

/-- A new entry at the end adds its position. -/
theorem IsValued.append {l : List α} {m : List (ℕ × ν)} (h : IsValued P V l m) (a : α) :
    IsValued P V (l ++ [a]) (if P a then insertKV m l.length (V a) else m) := by
  by_cases hPa : P a
  · rw [if_pos hPa]
    refine ⟨keysNodup_insertKV h.keys_nodup _ _, fun j => ?_⟩
    rw [get?_insertKV h.keys_nodup, getElem?_append_singleton]
    rcases Nat.lt_trichotomy j l.length with hj | rfl | hj
    · rw [if_neg (Nat.ne_of_lt hj), if_pos hj, h.get?_eq]
    · simp [Option.filter_some, hPa]
    · rw [if_neg (Nat.ne_of_gt hj), if_neg (Nat.not_lt_of_gt hj), if_neg (Nat.ne_of_gt hj), h.get?_eq,
        List.getElem?_eq_none (by omega)]
  · rw [if_neg hPa]
    refine ⟨h.keys_nodup, fun j => ?_⟩
    rw [h.get?_eq, getElem?_append_singleton]
    rcases Nat.lt_trichotomy j l.length with hj | rfl | hj
    · rw [if_pos hj]
    · simp [Option.filter_some, hPa]
    · rw [if_neg (Nat.not_lt_of_gt hj), if_neg (Nat.ne_of_gt hj), List.getElem?_eq_none (by omega)]

/-- Dropping the position of an entry leaves the others; an entry of the other kind had none. -/
theorem IsValued.get?_erase {l : List α} {m : List (ℕ × ν)} (h : IsValued P V l m) {i : ℕ} {a : α}
    (hget : l[i]? = some a) (j : ℕ) :
    get? (if P a then swapRemoveKey m i else m) j = if j = i then none else get? m j := by
  split_ifs with hPa hji hji
  · rw [get?_swapRemoveKey h.keys_nodup, if_pos hji]
  · rw [get?_swapRemoveKey h.keys_nodup, if_neg hji]
  · rw [hji, h.get?_eq, hget]
    simp [Option.filter_some, hPa]
  · rfl

theorem IsValued.keysNodup_erase {l : List α} {m : List (ℕ × ν)} (h : IsValued P V l m) (a : α)
    (i : ℕ) : KeysNodup (if P a then swapRemoveKey m i else m) := by
  split_ifs
  · exact keysNodup_swapRemoveKey h.keys_nodup i
  · exact h.keys_nodup

/-- An entry replaced in place: the old one's position goes, the new one's comes. -/
theorem IsValued.set {l : List α} {m : List (ℕ × ν)} (h : IsValued P V l m) {i : ℕ} {a : α}
    (hget : l[i]? = some a) (b : α) :
    IsValued P V (l.set i b)
      (if P b then insertKV (if P a then swapRemoveKey m i else m) i (V b)
      else if P a then swapRemoveKey m i else m) := by
  have hi := (List.getElem?_eq_some_iff.mp hget).1
  have hnodup := h.keysNodup_erase a i
  by_cases hPb : P b
  · rw [if_pos hPb]
    refine ⟨keysNodup_insertKV hnodup _ _, fun j => ?_⟩
    rw [get?_insertKV hnodup, h.get?_erase hget, List.getElem?_set]
    by_cases hij : j = i
    · rw [if_pos hij, if_pos hij.symm, if_pos hi]
      simp [Option.filter_some, hPb]
    · rw [if_neg hij, if_neg hij, if_neg (Ne.symm hij), h.get?_eq]
  · rw [if_neg hPb]
    refine ⟨hnodup, fun j => ?_⟩
    rw [h.get?_erase hget, List.getElem?_set]
    by_cases hij : j = i
    · rw [if_pos hij, if_pos hij.symm, if_pos hi]
      simp [Option.filter_some, hPb]
    · rw [if_neg hij, if_neg (Ne.symm hij), h.get?_eq]

/-- Removing the last entry drops its position. -/
theorem IsValued.swapRemoveAt_last {l : List α} {m : List (ℕ × ν)} (h : IsValued P V l m) {i : ℕ}
    {a : α} (hget : l[i]? = some a) (hlast : l.length - 1 ≤ i) :
    IsValued P V (swapRemoveAt l i) (if P a then swapRemoveKey m i else m) := by
  obtain ⟨hi, rfl⟩ := List.getElem?_eq_some_iff.mp hget
  refine ⟨h.keysNodup_erase _ i, fun j => ?_⟩
  rw [h.get?_erase hget, getElem?_swapRemoveAt hi]
  by_cases hji : j = i
  · rw [if_pos hji, if_neg (by omega)]
    rfl
  · rw [if_neg hji, h.get?_eq]
    by_cases hj : j < l.length - 1
    · rw [if_pos hj, if_neg hji]
    · rw [if_neg hj, List.getElem?_eq_none (by omega)]

/-- Removing an entry that the last one replaces drops its position and renumbers the last
position. -/
theorem IsValued.swapRemoveAt_moved {l : List α} {m : List (ℕ × ν)} (h : IsValued P V l m) {i : ℕ}
    {a b : α} (hget : l[i]? = some a)
    (hgetm : l[l.length - 1]? = some b) (hi : i < l.length - 1) :
    IsValued P V (swapRemoveAt l i)
      (if P b then
        insertKV (swapRemoveKey (if P a then swapRemoveKey m i else m) (l.length - 1)) i
          (V b)
      else if P a then swapRemoveKey m i else m) := by
  obtain ⟨hi', rfl⟩ := List.getElem?_eq_some_iff.mp hget
  obtain ⟨hm, rfl⟩ := List.getElem?_eq_some_iff.mp hgetm
  have hgetm : l[l.length - 1]? = some l[l.length - 1] := List.getElem?_eq_getElem hm
  have hnodup := h.keysNodup_erase l[i] i
  have hm : ∀ j, get? (if P l[l.length - 1] then
        insertKV (swapRemoveKey (if P l[i] then swapRemoveKey m i else m) (l.length - 1)) i
          (V l[l.length - 1])
      else if P l[i] then swapRemoveKey m i else m) j =
      if j = i then (l[l.length - 1]?.filter P).map V
      else if j = l.length - 1 then none else get? m j := by
    intro j
    by_cases hPm : P l[l.length - 1]
    · rw [if_pos hPm, get?_insertKV (keysNodup_swapRemoveKey hnodup _),
        get?_swapRemoveKey hnodup, h.get?_erase hget, hgetm]
      by_cases hji : j = i
      · rw [if_pos hji, if_pos hji]
        simp [Option.filter_some, hPm]
      · rw [if_neg hji, if_neg hji, if_neg hji]
    · rw [if_neg hPm, h.get?_erase hget, hgetm]
      by_cases hji : j = i
      · rw [if_pos hji, if_pos hji]
        simp [Option.filter_some, hPm]
      · rw [if_neg hji, if_neg hji]
        by_cases hjm : j = l.length - 1
        · rw [if_pos hjm, hjm, h.get?_eq, hgetm]
          simp [Option.filter_some, hPm]
        · rw [if_neg hjm]
  refine ⟨?_, fun j => ?_⟩
  · by_cases hPm : P l[l.length - 1]
    · rw [if_pos hPm]
      exact keysNodup_insertKV (keysNodup_swapRemoveKey hnodup _) _ _
    · rw [if_neg hPm]
      exact hnodup
  · rw [hm, getElem?_swapRemoveAt hi']
    by_cases hji : j = i
    · rw [if_pos hji, if_pos (by omega), if_pos hji]
    · rw [if_neg hji]
      by_cases hjm : j = l.length - 1
      · rw [if_pos hjm, if_neg (by omega)]
        rfl
      · rw [if_neg hjm, h.get?_eq]
        by_cases hj : j < l.length - 1
        · rw [if_pos hj, if_neg hji]
        · rw [if_neg hj, List.getElem?_eq_none (by omega)]

/-- An update that keeps the kind and the value of every entry keeps the map. -/
theorem IsValued.modify {l : List α} {m : List (ℕ × ν)} (h : IsValued P V l m) {f : α → α}
    (hP : ∀ a, P (f a) = P a) (hV : ∀ a, V (f a) = V a) (i : ℕ) : IsValued P V (l.modify i f) m := by
  refine ⟨h.keys_nodup, fun j => ?_⟩
  rw [h.get?_eq, List.getElem?_modify]
  cases l[j]? with
  | none => rfl
  | some a =>
    simp only [Option.map_eq_map, Option.map_some, Option.filter_some]
    split_ifs <;> simp_all

end Valued

end IndexMap
