import Mathlib

/-! Levels, paths and roots of a binary hash tree: a root and a path bind their leaves up to a
collision among the pairs hashed (`root_injective`, `eq_of_verify_path`). -/

namespace MerkleLevels

variable {α : Type} (f : α → α → α)

/-- The pairs a level hashes: two by two, the last node of an odd level with itself. -/
def pairs : List α → List (α × α)
  | [] => []
  | [a] => [(a, a)]
  | a :: b :: rest => (a, b) :: pairs rest

/-- The level above. -/
def pairUp : List α → List α
  | [] => []
  | [a] => [f a a]
  | a :: b :: rest => f a b :: pairUp rest

/-- A collision of `f` between an input of `inputs` and a different input of `inputs'`. -/
def Collision (inputs inputs' : List (α × α)) : Prop :=
  ∃ p ∈ inputs, ∃ q ∈ inputs', p ≠ q ∧ f p.1 p.2 = f q.1 q.2

theorem Collision.mono {inputs inputs' more more' : List (α × α)} (h : Collision f inputs inputs')
    (hsub : inputs ⊆ more) (hsub' : inputs' ⊆ more') : Collision f more more' := by
  obtain ⟨p, hp, q, hq, hne, heq⟩ := h
  exact ⟨p, hsub hp, q, hsub' hq, hne, heq⟩

theorem pairUp_eq_map_pairs : ∀ xs : List α, pairUp f xs = (pairs xs).map fun p => f p.1 p.2
  | [] => rfl
  | [_] => rfl
  | _ :: _ :: rest => by rw [pairUp, pairs, List.map_cons, pairUp_eq_map_pairs rest]

@[simp] theorem length_pairUp : ∀ xs : List α, (pairUp f xs).length = (xs.length + 1) / 2
  | [] => by simp [pairUp]
  | [_] => by simp [pairUp]
  | _ :: _ :: rest => by
    simp only [pairUp, List.length_cons, length_pairUp rest]
    omega

/-- Pair `i` of a level is nodes `2 i` and `2 i + 1`, or node `2 i` twice. -/
theorem getElem?_pairs : ∀ (xs : List α) (i : ℕ),
    (pairs xs)[i]? = xs[2 * i]?.map fun a => (a, xs[2 * i + 1]?.getD a)
  | [], _ => rfl
  | [_], 0 => rfl
  | [_], _ + 1 => by simp [pairs]
  | _ :: _ :: _, 0 => rfl
  | _ :: _ :: rest, i + 1 => by
    rw [show 2 * (i + 1) = 2 * i + 1 + 1 by omega]
    simp only [pairs, List.getElem?_cons_succ, getElem?_pairs rest i]

theorem getElem?_pairUp (xs : List α) (i : ℕ) :
    (pairUp f xs)[i]? = xs[2 * i]?.map fun a => f a (xs[2 * i + 1]?.getD a) := by
  rw [pairUp_eq_map_pairs, List.getElem?_map, getElem?_pairs, Option.map_map]
  rfl

theorem forall_mem_pairs {P : α → Prop} :
    ∀ {xs : List α}, (∀ x ∈ xs, P x) → ∀ p ∈ pairs xs, P p.1 ∧ P p.2
  | [], _, _, hp => by simp [pairs] at hp
  | [a], hxs, p, hp => by
    rw [pairs, List.mem_singleton] at hp
    subst hp
    exact ⟨hxs a (by simp), hxs a (by simp)⟩
  | a :: b :: rest, hxs, p, hp => by
    rw [pairs] at hp
    rcases List.mem_cons.mp hp with rfl | hp
    · exact ⟨hxs a (by simp), hxs b (by simp)⟩
    · exact forall_mem_pairs (fun x hx => hxs x (by simp [hx])) p hp

theorem mem_pairUp {P : α → Prop} (hf : ∀ a b, P (f a b)) :
    ∀ {xs : List α}, ∀ x ∈ pairUp f xs, P x
  | [], _, hx => by simp [pairUp] at hx
  | [a], x, hx => by
    rw [pairUp, List.mem_singleton] at hx
    exact hx ▸ hf a a
  | a :: b :: rest, x, hx => by
    rcases List.mem_cons.mp hx with rfl | hx
    · exact hf a b
    · exact mem_pairUp hf x hx

/-- A level of a known length is determined by the level above, unless two of the pairs the
two levels hash collide. -/
theorem pairUp_injective :
    ∀ {xs ys : List α}, xs.length = ys.length → pairUp f xs = pairUp f ys →
      xs = ys ∨ Collision f (pairs xs) (pairs ys)
  | [], [], _, _ => .inl rfl
  | [a], [a'], _, h => by
    rw [pairUp, pairUp, List.cons.injEq] at h
    by_cases ha : a = a'
    · exact .inl (by rw [ha])
    · exact .inr ⟨(a, a), by simp [pairs], (a', a'), by simp [pairs], by simp [ha], h.1⟩
  | a :: b :: rest, a' :: b' :: rest', hlen, h => by
    rw [pairUp, pairUp, List.cons.injEq] at h
    obtain ⟨hhead, hrest⟩ := h
    by_cases hpair : (a, b) = (a', b')
    · rw [Prod.mk.injEq] at hpair
      obtain ⟨rfl, rfl⟩ := hpair
      rcases pairUp_injective (by simpa using hlen) hrest with heq | hcoll
      · exact .inl (by rw [heq])
      · refine .inr (hcoll.mono f ?_ ?_) <;> rw [pairs] <;> exact List.subset_cons_self _ _
    · exact .inr ⟨(a, b), by simp [pairs], (a', b'), by simp [pairs], hpair, hhead⟩
  | [], _ :: _, hlen, _ => absurd hlen (by simp)
  | _ :: _, [], hlen, _ => absurd hlen (by simp)
  | [_], _ :: _ :: _, hlen, _ => absurd hlen (by simp)
  | _ :: _ :: _, [_], hlen, _ => absurd hlen (by simp)

theorem length_pairUp_lt {xs : List α} (hlen : 1 < xs.length) :
    (pairUp f xs).length < xs.length := by
  rw [length_pairUp]
  omega

/-- The levels of the tree over a level: it, then those over the level above, up to a level
of at most one node. -/
def levels (xs : List α) : List (List α) :=
  if _hlen : xs.length ≤ 1 then [xs] else xs :: levels (pairUp f xs)
termination_by xs.length
decreasing_by exact length_pairUp_lt f (by omega)

/-- The root: the last node of the last level. -/
def root (xs : List α) : Option α := (levels f xs).flatten.getLast?

theorem levels_of_le {xs : List α} (hlen : xs.length ≤ 1) : levels f xs = [xs] := by
  rw [levels, dif_pos hlen]

theorem levels_of_lt {xs : List α} (hlen : 1 < xs.length) :
    levels f xs = xs :: levels f (pairUp f xs) := by
  rw [levels, dif_neg (by omega)]

/-- The nodes of the levels: the level, then those of the levels above it. -/
theorem flatten_levels (xs : List α) :
    (levels f xs).flatten =
      xs ++ if xs.length ≤ 1 then [] else (levels f (pairUp f xs)).flatten := by
  by_cases h : xs.length ≤ 1
  · rw [levels_of_le f h, if_pos h, List.flatten_singleton, List.append_nil]
  · rw [levels_of_lt f (by omega), if_neg h, List.flatten_cons]

theorem levels_ne_nil (xs : List α) : levels f xs ≠ [] := by
  rw [levels]
  split <;> exact List.cons_ne_nil _ _

/-- The pairs hashed while building the levels: those of every level below the root. -/
def hashed (xs : List α) : List (α × α) := (levels f xs).dropLast.flatMap pairs

theorem hashed_of_le {xs : List α} (hlen : xs.length ≤ 1) : hashed f xs = [] := by
  rw [hashed, levels_of_le f hlen]
  rfl

theorem hashed_of_lt {xs : List α} (hlen : 1 < xs.length) :
    hashed f xs = pairs xs ++ hashed f (pairUp f xs) := by
  rw [hashed, hashed, levels_of_lt f hlen, List.dropLast_cons_of_ne_nil (levels_ne_nil f _),
    List.flatMap_cons]

/-- Where the level and every hash satisfy `P`, so do both nodes of every pair hashed. -/
theorem forall_mem_hashed {P : α → Prop} (hf : ∀ a b, P (f a b)) {xs : List α}
    (hxs : ∀ x ∈ xs, P x) : ∀ p ∈ hashed f xs, P p.1 ∧ P p.2 := by
  induction hn : xs.length using Nat.strongRecOn generalizing xs with
  | ind n ih =>
  by_cases hsmall : xs.length ≤ 1
  · rw [hashed_of_le f hsmall]
    exact fun p hp => absurd hp List.not_mem_nil
  · rw [hashed_of_lt f (by omega)]
    intro p hp
    rcases List.mem_append.mp hp with hp | hp
    · exact forall_mem_pairs hxs p hp
    · exact ih _ (hn ▸ length_pairUp_lt f (by omega)) (mem_pairUp f hf) rfl p hp

theorem root_of_le {xs : List α} (hlen : xs.length ≤ 1) : root f xs = xs.getLast? := by
  rw [root, levels_of_le f hlen, List.flatten_singleton]

theorem root_isSome : ∀ {xs : List α}, xs ≠ [] → (root f xs).isSome := by
  intro xs hne
  induction hn : xs.length using Nat.strongRecOn generalizing xs with
  | ind n ih =>
  by_cases hlen : xs.length ≤ 1
  · rw [root_of_le f hlen, List.getLast?_eq_some_getLast hne]
    rfl
  · have hne' : pairUp f xs ≠ [] := List.ne_nil_of_length_pos (by simp; omega)
    have hsome := ih _ (hn ▸ length_pairUp_lt f (by omega)) hne' rfl
    rw [root, levels_of_lt f (by omega), List.flatten_cons, List.getLast?_append]
    rw [root] at hsome
    obtain ⟨r, hr⟩ := Option.isSome_iff_exists.mp hsome
    rw [hr]
    rfl

/-- Above a level of two nodes or more, the root is that of the level above. -/
theorem root_of_lt {xs : List α} (hlen : 1 < xs.length) :
    root f xs = root f (pairUp f xs) := by
  have hne : pairUp f xs ≠ [] := List.ne_nil_of_length_pos (by simp; omega)
  obtain ⟨r, hr⟩ := Option.isSome_iff_exists.mp (root_isSome f hne)
  rw [root] at hr
  rw [root, root, levels_of_lt f hlen, List.flatten_cons, List.getLast?_append, hr]
  rfl

/-- Two levels of one length with one root are equal, unless a pair hashed while building
the one collides with a pair hashed while building the other. -/
theorem root_injective :
    ∀ {xs ys : List α}, xs.length = ys.length → root f xs = root f ys →
      xs = ys ∨ Collision f (hashed f xs) (hashed f ys) := by
  intro xs ys hlen hroot
  induction hn : xs.length using Nat.strongRecOn generalizing xs ys with
  | ind n ih =>
  by_cases hsmall : xs.length ≤ 1
  · rw [root_of_le f hsmall, root_of_le f (hlen ▸ hsmall)] at hroot
    left
    match xs, ys, hsmall, hlen with
    | [], [], _, _ => rfl
    | [a], [b], _, _ => simpa using hroot
  · have hlt : 1 < xs.length := by omega
    have hlt' : 1 < ys.length := hlen ▸ hlt
    rw [root_of_lt f hlt, root_of_lt f hlt'] at hroot
    rw [hashed_of_lt f hlt, hashed_of_lt f hlt']
    have hlen' : (pairUp f xs).length = (pairUp f ys).length := by simp [hlen]
    rcases ih _ (hn ▸ length_pairUp_lt f hlt) hlen' hroot rfl with hup | hcoll
    · rcases pairUp_injective f hlen hup with heq | hcoll
      · exact .inl heq
      · exact .inr (hcoll.mono f (List.subset_append_left _ _) (List.subset_append_left _ _))
    · exact .inr (hcoll.mono f (List.subset_append_right _ _) (List.subset_append_right _ _))

/-! ## Paths -/

/-- The entry of a path at one level: the parent, and the sibling on the left or on the
right. -/
structure PathEntry (α : Type) where
  target : α
  left : Option α
  right : Option α
  deriving DecidableEq, Repr

/-- The path from node `i` of a level: for each level up to the root, the parent and the
sibling; the last node of an odd level is its own sibling. -/
def path (xs : List α) (i : ℕ) : List (PathEntry α) :=
  if _hlen : xs.length ≤ 1 then []
  else
    match xs[i]?, (pairUp f xs)[i / 2]? with
    | some a, some parent =>
      (if i % 2 = 0 then ⟨parent, none, some (xs[i + 1]?.getD a)⟩
        else ⟨parent, xs[i - 1]?, none⟩) :: path (pairUp f xs) (i / 2)
    | _, _ => []
termination_by xs.length
decreasing_by exact length_pairUp_lt f (by omega)

/-- The pair node `i` is hashed in: with its sibling, on the side the path records. -/
theorem getElem_pairs_div_two {xs : List α} {i : ℕ} (hi : i < xs.length) :
    (pairs xs)[i / 2]? = some (if i % 2 = 0 then (xs[i], xs[i + 1]?.getD xs[i])
      else ((xs[i - 1]?).getD xs[i], xs[i])) := by
  rw [getElem?_pairs]
  split_ifs with heven
  · rw [show 2 * (i / 2) = i by omega, List.getElem?_eq_getElem hi]
    rfl
  · have hprev : i - 1 < xs.length := by omega
    rw [show 2 * (i / 2) = i - 1 by omega, show i - 1 + 1 = i by omega,
      List.getElem?_eq_getElem hprev, List.getElem?_eq_getElem hi]
    rfl

/-- The parent of node `i`, hashed from it and its sibling as the path records them. -/
theorem getElem_pairUp_div_two {xs : List α} {i : ℕ} (hi : i < xs.length) :
    (pairUp f xs)[i / 2]? = some (if i % 2 = 0 then f xs[i] (xs[i + 1]?.getD xs[i])
      else (f ((xs[i - 1]?).getD xs[i]) xs[i])) := by
  rw [pairUp_eq_map_pairs, List.getElem?_map, getElem_pairs_div_two hi]
  split_ifs <;> rfl

theorem path_of_lt {xs : List α} {i : ℕ} (hlen : 1 < xs.length) (hi : i < xs.length) :
    path f xs i =
      (if i % 2 = 0 then ⟨f xs[i] (xs[i + 1]?.getD xs[i]), none, some (xs[i + 1]?.getD xs[i])⟩
        else ⟨f ((xs[i - 1]?).getD xs[i]) xs[i], xs[i - 1]?, none⟩) ::
        path f (pairUp f xs) (i / 2) := by
  rw [path, dif_neg (by omega), List.getElem?_eq_getElem hi, getElem_pairUp_div_two f hi]
  split_ifs <;> rfl

theorem getD_of_forall_mem {P : α → Prop} {o : Option α} {a : α} (ho : ∀ s ∈ o, P s)
    (ha : P a) : P (o.getD a) := by
  cases o with
  | none => exact ha
  | some s => exact ho s rfl

/-- The siblings a path records are nodes of the levels. -/
theorem siblings_of_mem_path {P : α → Prop} (hf : ∀ a b, P (f a b)) {xs : List α}
    (hxs : ∀ x ∈ xs, P x) {i : ℕ} :
    ∀ entry ∈ path f xs i, (∀ s ∈ entry.left, P s) ∧ ∀ s ∈ entry.right, P s := by
  induction hn : xs.length using Nat.strongRecOn generalizing xs i with
  | ind n ih =>
  by_cases hsmall : xs.length ≤ 1
  · rw [path, dif_pos hsmall]
    exact fun entry hentry => absurd hentry List.not_mem_nil
  by_cases hi : i < xs.length
  · rw [path_of_lt f (by omega) hi]
    intro entry hentry
    rcases List.mem_cons.mp hentry with rfl | hentry
    · have hnode : P xs[i] := hxs _ (List.getElem_mem hi)
      have hnext : ∀ s ∈ xs[i + 1]?, P s := fun s hs => hxs s (List.mem_of_getElem? hs)
      have hprev : ∀ s ∈ xs[i - 1]?, P s := fun s hs => hxs s (List.mem_of_getElem? hs)
      split_ifs
      · exact ⟨fun s hs => by simp at hs,
          fun s hs => Option.some.inj hs ▸ getD_of_forall_mem hnext hnode⟩
      · exact ⟨hprev, fun s hs => by simp at hs⟩
    · exact ih _ (hn ▸ length_pairUp_lt f (by omega)) (mem_pairUp f hf) rfl entry hentry
  · rw [path, dif_neg hsmall, List.getElem?_eq_none (by omega)]
    exact fun entry hentry => absurd hentry List.not_mem_nil

variable [DecidableEq α]

/-- One check of the fold: the hash of the candidate and the sibling, which must be the
parent. -/
def verifyStep (candidate : α) (entry : PathEntry α) : Option α :=
  let hash := f (entry.left.getD candidate) (entry.right.getD candidate)
  if hash = entry.target then some hash else none

def verify (entries : List (PathEntry α)) (candidate : α) : Option α :=
  entries.foldlM (verifyStep f) candidate

/-- The pairs the fold hashes: one for each entry, up to the first check that fails. -/
def verifyInputs : List (PathEntry α) → α → List (α × α)
  | [], _ => []
  | entry :: rest, candidate =>
    let input := (entry.left.getD candidate, entry.right.getD candidate)
    input :: if f input.1 input.2 = entry.target then verifyInputs rest (f input.1 input.2) else []

/-- Where the siblings, the candidate and every hash satisfy `P`, so do both halves of every
pair the fold hashes. -/
theorem forall_mem_verifyInputs {P : α → Prop} (hf : ∀ a b, P (f a b)) :
    ∀ {entries : List (PathEntry α)} {candidate : α},
      (∀ entry ∈ entries, (∀ s ∈ entry.left, P s) ∧ ∀ s ∈ entry.right, P s) → P candidate →
      ∀ p ∈ verifyInputs f entries candidate, P p.1 ∧ P p.2
  | [], _, _, _, p, hp => absurd hp List.not_mem_nil
  | entry :: rest, candidate, hentries, hcandidate, p, hp => by
    have hentry := hentries entry List.mem_cons_self
    rw [verifyInputs] at hp
    rcases List.mem_cons.mp hp with rfl | hp
    · exact ⟨getD_of_forall_mem hentry.1 hcandidate, getD_of_forall_mem hentry.2 hcandidate⟩
    · split_ifs at hp
      · exact forall_mem_verifyInputs hf (fun e he => hentries e (List.mem_cons_of_mem _ he))
          (hf _ _) p hp
      · exact absurd hp List.not_mem_nil

/-- Folding node `i` up its path ends at the root. -/
theorem verify_path {xs : List α} {i : ℕ} (hi : i < xs.length) :
    verify f (path f xs i) xs[i] = root f xs := by
  induction hn : xs.length using Nat.strongRecOn generalizing xs i with
  | ind n ih =>
  by_cases hsmall : xs.length ≤ 1
  · rw [path, dif_pos hsmall, root_of_le f hsmall]
    match xs, hsmall, i, hi with
    | [_], _, 0, _ => rfl
  · rw [path_of_lt f (by omega) hi, root_of_lt f (by omega)]
    have hup : i / 2 < (pairUp f xs).length := by simp; omega
    have hparent := getElem_pairUp_div_two f hi
    rw [List.getElem?_eq_getElem hup, Option.some.injEq] at hparent
    have hrest := ih _ (hn ▸ length_pairUp_lt f (by omega)) hup rfl
    split_ifs at hparent ⊢ with heven
    · simp [verify, verifyStep, ← hparent, ← hrest]
    · have hprev : i - 1 < xs.length := by omega
      simp [verify, verifyStep, List.getElem?_eq_getElem hprev, ← hrest,
        List.getElem?_eq_getElem hprev ▸ hparent]

/-- A candidate that passes the first check of the path of node `i` is that node, unless the
pair the fold hashes first collides with the pair of the node and its sibling in the tree. -/
theorem eq_of_verify_path {xs : List α} {i : ℕ} (hlen : 1 < xs.length) (hi : i < xs.length)
    {candidate : α} (hverify : verify f (path f xs i) candidate ≠ none) :
    candidate = xs[i] ∨ Collision f (verifyInputs f (path f xs i) candidate) (hashed f xs) := by
  by_cases heq : candidate = xs[i]
  · exact .inl heq
  right
  have hpair : (if i % 2 = 0 then (xs[i], xs[i + 1]?.getD xs[i])
      else ((xs[i - 1]?).getD xs[i], xs[i])) ∈ hashed f xs := by
    rw [hashed_of_lt f hlen]
    exact List.mem_append_left _ (List.mem_of_getElem? (getElem_pairs_div_two hi))
  rw [path_of_lt f hlen hi] at hverify ⊢
  split_ifs at hverify hpair ⊢ with heven
  · simp only [verify, List.foldlM_cons, verifyStep, Option.getD_none, Option.getD_some] at hverify
    split_ifs at hverify with hhash
    · exact ⟨_, by rw [verifyInputs]; exact List.mem_cons_self, _, hpair, by simp [heq], hhash⟩
    · exact absurd rfl hverify
  · have hprev : i - 1 < xs.length := by omega
    simp only [List.getElem?_eq_getElem hprev, Option.getD_some] at hverify hpair ⊢
    simp only [verify, List.foldlM_cons, verifyStep, Option.getD_none, Option.getD_some] at hverify
    split_ifs at hverify with hhash
    · exact ⟨_, by rw [verifyInputs]; exact List.mem_cons_self, _, hpair, by simp [heq], hhash⟩
    · exact absurd rfl hverify

/-- What the fold returns is the target of the last entry. -/
theorem verify_eq_getLast :
    ∀ {entries : List (PathEntry α)} {candidate result : α}, entries ≠ [] →
      verify f entries candidate = some result →
      entries.getLast?.map PathEntry.target = some result
  | [], _, _, hne, _ => absurd rfl hne
  | entry :: rest, candidate, result, _, h => by
    simp only [verify, List.foldlM_cons, verifyStep, Option.bind_eq_bind] at h
    split_ifs at h with hhash
    · rw [Option.bind_some] at h
      cases rest with
      | nil =>
        rw [List.foldlM_nil, Option.pure_def, Option.some.injEq] at h
        simp [← h, hhash]
      | cons next more =>
        rw [List.getLast?_cons_cons]
        exact verify_eq_getLast (List.cons_ne_nil next more) h
    · cases h

end MerkleLevels
