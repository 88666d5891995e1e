import Mathlib

/-! `dropWhile` and `find?` on lists sorted by key (`mem_dropWhile_iff`, `head_dropWhile`,
`find?_rel`). -/

namespace SortedKeys

variable {α β : Type} [Preorder β] {key : α → β}

/-- Dropping with a predicate after dropping with a stronger one drops the same. -/
theorem dropWhile_dropWhile_of_imp {p q : α → Bool} (h : ∀ x, q x = true → p x = true) :
    ∀ l : List α, (l.dropWhile q).dropWhile p = l.dropWhile p
  | [] => rfl
  | x :: xs => by
    rw [List.dropWhile_cons]
    split
    case isTrue hq => rw [dropWhile_dropWhile_of_imp h xs, List.dropWhile_cons, if_pos (h x hq)]
    case isFalse => rfl

variable (key) in
/-- A predicate that holds of an entry holds of every entry with a key at most its key. -/
def DownClosed (p : α → Bool) : Prop := ∀ x y, key x ≤ key y → p y = true → p x = true

/-- Two entries of a sorted list with one key are one entry. -/
theorem eq_of_key_eq {l : List α} (hl : l.Pairwise (key · < key ·)) {x y : α} (hx : x ∈ l)
    (hy : y ∈ l) (hxy : key x = key y) : x = y := by
  have hnodup : (l.map key).Nodup := List.pairwise_map.mpr (hl.imp ne_of_lt)
  exact List.inj_on_of_nodup_map hnodup hx hy hxy

variable {p : α → Bool}

/-- The head of what is left fails `p`. -/
theorem head_dropWhile_eq_false {l : List α} {n : α} {rest : List α}
    (h : l.dropWhile p = n :: rest) : p n = false := by
  have hne : l.dropWhile p ≠ [] := by
    rw [h]
    exact List.cons_ne_nil n rest
  have hhead := List.head_dropWhile_not p hne
  simp only [h, List.head_cons] at hhead
  exact hhead

theorem mem_dropWhile_iff (hp : DownClosed key p) :
    ∀ {l : List α}, l.Pairwise (key · < key ·) → ∀ {x : α},
      x ∈ l.dropWhile p ↔ x ∈ l ∧ p x = false
  | [], _, _ => by simp
  | y :: ys, hl, x => by
    obtain ⟨hy, hys⟩ := List.pairwise_cons.mp hl
    rw [List.dropWhile_cons]
    split
    case isTrue hpy =>
      rw [mem_dropWhile_iff hp hys, List.mem_cons]
      constructor
      · rintro ⟨hx, hpx⟩
        exact ⟨.inr hx, hpx⟩
      · rintro ⟨rfl | hx, hpx⟩
        · rw [hpy] at hpx
          cases hpx
        · exact ⟨hx, hpx⟩
    case isFalse hpy =>
      refine ⟨fun hx => ⟨hx, ?_⟩, fun hx => hx.1⟩
      rcases List.mem_cons.mp hx with rfl | hx
      · simpa using hpy
      · cases hpx : p x
        · rfl
        · exact absurd (hp y x (hy x hx).le hpx) hpy

/-- The head of what is left fails `p`, with the least key of all entries that fail it. -/
theorem head_dropWhile (hp : DownClosed key p) {l : List α} (hl : l.Pairwise (key · < key ·))
    {n : α} {rest : List α} (h : l.dropWhile p = n :: rest) :
    n ∈ l ∧ p n = false ∧ ∀ m ∈ l, p m = false → key n ≤ key m := by
  have hn := (mem_dropWhile_iff hp hl).mp (h ▸ List.mem_cons_self)
  refine ⟨hn.1, hn.2, fun m hm hpm => ?_⟩
  have hsorted : (n :: rest).Pairwise (key · < key ·) := h ▸ hl.sublist (List.dropWhile_sublist p)
  rcases List.mem_cons.mp (h ▸ (mem_dropWhile_iff hp hl).mpr ⟨hm, hpm⟩) with rfl | hrest
  · exact le_rfl
  · exact (List.rel_of_pairwise_cons hsorted hrest).le

/-- An entry that fails `p` leaves something, whose head has the least key among the
entries that fail `p`. -/
theorem exists_head_dropWhile (hp : DownClosed key p) {l : List α}
    (hl : l.Pairwise (key · < key ·)) {x : α} (hx : x ∈ l) (hpx : p x = false) :
    ∃ n rest, l.dropWhile p = n :: rest := by
  have hmem : x ∈ l.dropWhile p := (mem_dropWhile_iff hp hl).mpr ⟨hx, hpx⟩
  cases hdrop : l.dropWhile p with
  | nil => rw [hdrop] at hmem; cases hmem
  | cons n rest => exact ⟨n, rest, rfl⟩

/-- In a list sorted by `r`, the first entry satisfying `q` is related by `r` to every other
entry satisfying `q`. -/
theorem find?_rel {r : α → α → Prop} {q : α → Bool} :
    ∀ {l : List α}, l.Pairwise r → ∀ {x y : α}, l.find? q = some x → y ∈ l → q y = true →
      x = y ∨ r x y
  | [], _, _, _, h, _, _ => by cases h
  | z :: zs, hl, x, y, h, hy, hqy => by
    obtain ⟨hz, hzs⟩ := List.pairwise_cons.mp hl
    rw [List.find?_cons] at h
    split at h
    case h_1 =>
      cases h
      rcases List.mem_cons.mp hy with rfl | hy
      · exact .inl rfl
      · exact .inr (hz y hy)
    case h_2 hqz =>
      rcases List.mem_cons.mp hy with rfl | hy
      · rw [hqy] at hqz
        cases hqz
      · exact find?_rel hzs h hy hqy

end SortedKeys

/-! ## Splitting at a key

A sorted list is its entries below a key, the entry at the key if there is one, and its
entries above the key, in this order (`eq_filter_lt_append`); its last entry has the
greatest key (`le_of_getLast?_eq`). A map kept as a sorted list is read and cut this way. -/

namespace SortedKeys

variable {α β : Type} [LinearOrder β] {key : α → β}

theorem eq_filter_lt_append (k : β) :
    ∀ {l : List α}, l.Pairwise (key · < key ·) →
      l = l.filter (fun x => key x < k) ++ (l.find? (fun x => key x = k)).toList ++
        l.filter (fun x => k < key x)
  | [], _ => rfl
  | x :: xs, hl => by
    obtain ⟨hx, hxs⟩ := List.pairwise_cons.mp hl
    rcases lt_trichotomy (key x) k with hlt | heq | hgt
    · have hfind : (x :: xs).find? (fun y => key y = k) = xs.find? (fun y => key y = k) :=
        List.find?_cons_of_neg (by simpa using hlt.ne)
      rw [hfind, List.filter_cons_of_pos (by simpa using hlt),
        List.filter_cons_of_neg (by simpa using hlt.le), List.cons_append, List.cons_append,
        ← eq_filter_lt_append k hxs]
    · have habove : ∀ y ∈ xs, k < key y := fun y hy => heq ▸ hx y hy
      rw [List.filter_cons_of_neg (by simp [heq]), List.find?_cons_of_pos (by simpa using heq),
        List.filter_cons_of_neg (by simp [heq]),
        List.filter_eq_nil_iff.mpr fun y hy => by simpa using (habove y hy).le,
        List.filter_eq_self.mpr fun y hy => by simpa using habove y hy]
      rfl
    · have habove : ∀ y ∈ x :: xs, k < key y := by
        intro y hy
        rcases List.mem_cons.mp hy with rfl | hy
        · exact hgt
        · exact hgt.trans (hx y hy)
      rw [List.filter_eq_nil_iff.mpr fun y hy => by simpa using (habove y hy).le,
        List.find?_eq_none.mpr fun y hy => by simpa using (habove y hy).ne',
        List.filter_eq_self.mpr fun y hy => by simpa using habove y hy]
      rfl

section Pieces

variable {l : List α} {k : β}

theorem key_lt_of_mem_filter_lt {x : α} (hx : x ∈ l.filter (fun y => key y < k)) : key x < k := by
  simpa using (List.mem_filter.mp hx).2

theorem key_eq_of_mem_find? {x : α} (hx : x ∈ (l.find? (fun y => key y = k)).toList) :
    key x = k := by
  simpa using List.find?_some (Option.mem_toList.mp hx)

theorem lt_key_of_mem_filter_lt {x : α} (hx : x ∈ l.filter (fun y => k < key y)) : k < key x := by
  simpa using (List.mem_filter.mp hx).2

end Pieces

/-- The entries at or below `k`: those below it, then the one at it. -/
theorem filter_le_eq (k : β) {l : List α} (hl : l.Pairwise (key · < key ·)) :
    l.filter (fun x => key x ≤ k) =
      l.filter (fun x => key x < k) ++ (l.find? (fun x => key x = k)).toList := by
  have hbelow : (l.filter (fun x => key x < k)).filter (fun x => key x ≤ k) =
      l.filter (fun x => key x < k) :=
    List.filter_eq_self.mpr fun x hx => by simpa using (key_lt_of_mem_filter_lt hx).le
  have hat : (l.find? (fun x => key x = k)).toList.filter (fun x => key x ≤ k) =
      (l.find? (fun x => key x = k)).toList :=
    List.filter_eq_self.mpr fun x hx => by simpa using (key_eq_of_mem_find? hx).le
  have habove : (l.filter (fun x => k < key x)).filter (fun x => key x ≤ k) = [] :=
    List.filter_eq_nil_iff.mpr fun x hx => by simpa using lt_key_of_mem_filter_lt hx
  conv_lhs => rw [eq_filter_lt_append k hl]
  rw [List.filter_append, List.filter_append, hbelow, hat, habove, List.append_nil]

/-- The entries at or above `k`: the one at it, then those above it. -/
theorem filter_ge_eq (k : β) {l : List α} (hl : l.Pairwise (key · < key ·)) :
    l.filter (fun x => k ≤ key x) =
      (l.find? (fun x => key x = k)).toList ++ l.filter (fun x => k < key x) := by
  have hbelow : (l.filter (fun x => key x < k)).filter (fun x => k ≤ key x) = [] :=
    List.filter_eq_nil_iff.mpr fun x hx => by simpa using key_lt_of_mem_filter_lt hx
  have hat : (l.find? (fun x => key x = k)).toList.filter (fun x => k ≤ key x) =
      (l.find? (fun x => key x = k)).toList :=
    List.filter_eq_self.mpr fun x hx => by simpa using (key_eq_of_mem_find? hx).ge
  have habove : (l.filter (fun x => k < key x)).filter (fun x => k ≤ key x) =
      l.filter (fun x => k < key x) :=
    List.filter_eq_self.mpr fun x hx => by simpa using (lt_key_of_mem_filter_lt hx).le
  conv_lhs => rw [eq_filter_lt_append k hl]
  rw [List.filter_append, List.filter_append, hbelow, hat, habove, List.nil_append]

/-- The entries up to `k` are those up to `e ≤ k`, then those above `e` up to `k`. -/
theorem filter_le_eq_append {e k : β} (hek : e ≤ k) {l : List α}
    (hl : l.Pairwise (key · < key ·)) :
    l.filter (fun x => key x ≤ k) = l.filter (fun x => key x ≤ e) ++
      (l.filter (fun x => e < key x)).filter (fun x => key x ≤ k) := by
  have hbelow : (l.filter (fun x => key x < e)).filter (fun x => key x ≤ k) =
      l.filter (fun x => key x < e) :=
    List.filter_eq_self.mpr fun x hx => by
      simpa using (key_lt_of_mem_filter_lt hx).le.trans hek
  have hat : (l.find? (fun x => key x = e)).toList.filter (fun x => key x ≤ k) =
      (l.find? (fun x => key x = e)).toList :=
    List.filter_eq_self.mpr fun x hx => by simpa using (key_eq_of_mem_find? hx).le.trans hek
  conv_lhs => rw [eq_filter_lt_append e hl]
  rw [filter_le_eq e hl, List.filter_append, List.filter_append, hbelow, hat]

/-- The last entry of a sorted list has the greatest key. -/
theorem le_of_getLast?_eq {l : List α} (hl : l.Pairwise (key · < key ·)) {x y : α}
    (hx : l.getLast? = some x) (hy : y ∈ l) : key y ≤ key x := by
  obtain ⟨init, rfl⟩ := List.getLast?_eq_some_iff.mp hx
  rcases List.mem_append.mp hy with hy | hy
  · exact ((List.pairwise_append.mp hl).2.2 y hy x (List.mem_singleton_self x)).le
  · rw [List.mem_singleton.mp hy]
end SortedKeys
