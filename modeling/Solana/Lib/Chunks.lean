import Mathlib

/-! `mapChunks`: a list mapped chunk by chunk, as a loop over `0..div_ceil(len, size)` reads it. -/

namespace Chunks

variable {α β γ : Type*}

/-- `div_ceil`: the number of chunks. -/
def chunkCount (len size : ℕ) : ℕ := len / size + if len % size ≠ 0 then 1 else 0

def mapChunks (f : List α → β) (size : ℕ) (l : List α) : List β :=
  (List.range (chunkCount l.length size)).map fun i => f ((l.drop (i * size)).take size)

/-! ## The number of chunks -/

@[simp] theorem chunkCount_zero (size : ℕ) : chunkCount 0 size = 0 := by
  simp [chunkCount]

theorem chunkCount_add (len : ℕ) {size : ℕ} (hsize : 0 < size) :
    chunkCount (len + size) size = chunkCount len size + 1 := by
  simp only [chunkCount, Nat.add_div_right len hsize, Nat.add_mod_right]
  omega

theorem chunkCount_mul (count : ℕ) {size : ℕ} (hsize : 0 < size) :
    chunkCount (size * count) size = count := by
  simp [chunkCount, Nat.mul_div_cancel_left count hsize]

theorem chunkCount_of_le {len size : ℕ} (hlen : 0 < len) (hle : len ≤ size) :
    chunkCount len size = 1 := by
  rcases Nat.lt_or_ge len size with hlt | hge
  · simp [chunkCount, Nat.div_eq_of_lt hlt, Nat.mod_eq_of_lt hlt, Nat.pos_iff_ne_zero.mp hlen]
  · have heq : len = size * 1 := by omega
    rw [heq, chunkCount_mul 1 (by omega)]

theorem chunkCount_le {len size count : ℕ} (hle : len ≤ size * count) :
    chunkCount len size ≤ count := by
  unfold chunkCount
  have hdiv : len / size ≤ count := Nat.div_le_of_le_mul hle
  split
  · rename_i hmod
    have hlt : len / size < count := by
      by_contra hge
      have hmul : size * count ≤ size * (len / size) :=
        Nat.mul_le_mul_left size (Nat.le_of_not_lt hge)
      have := Nat.div_add_mod len size
      omega
    omega
  · omega

theorem le_chunkCount {len size count : ℕ} (hsize : 0 < size) (hle : size * count ≤ len) :
    count ≤ chunkCount len size := by
  have : count ≤ len / size := (Nat.le_div_iff_mul_le hsize).mpr (by rwa [Nat.mul_comm])
  unfold chunkCount
  omega

theorem chunkCount_pos {len size : ℕ} (hlen : 0 < len) :
    0 < chunkCount len size := by
  unfold chunkCount
  split
  · exact Nat.succ_pos _
  · rename_i hmod
    have hwhole := Nat.div_add_mod len size
    have hdiv : len / size ≠ 0 := fun hzero => by
      rw [hzero, Nat.mul_zero, Nat.zero_add] at hwhole
      omega
    exact Nat.pos_of_ne_zero hdiv

/-- With chunks of at least two, a list of at least two has fewer chunks than elements. -/
theorem chunkCount_lt {len size : ℕ} (hsize : 2 ≤ size) (hlen : 2 ≤ len) :
    chunkCount len size < len := by
  have hle : len ≤ size * (len - 1) :=
    calc len ≤ 2 * (len - 1) := by omega
      _ ≤ size * (len - 1) := Nat.mul_le_mul_right _ hsize
  have := chunkCount_le hle
  omega

/-- A chunk below the count starts inside the list. -/
theorem mul_lt_of_lt_chunkCount {len size i : ℕ} (hi : i < chunkCount len size) :
    i * size < len := by
  by_contra hge
  have hle : chunkCount len size ≤ i := chunkCount_le (by rw [Nat.mul_comm]; omega)
  omega

/-! ## Chunks -/

@[simp] theorem length_mapChunks (f : List α → β) (size : ℕ) (l : List α) :
    (mapChunks f size l).length = chunkCount l.length size := by
  simp [mapChunks]

@[simp] theorem mapChunks_nil (f : List α → β) (size : ℕ) : mapChunks f size [] = [] := by
  simp [mapChunks]

theorem mapChunks_eq_nil_iff {f : List α → β} {size : ℕ} {l : List α} :
    mapChunks f size l = [] ↔ l = [] := by
  constructor
  · intro h
    by_contra hne
    have hpos : 0 < chunkCount l.length size := chunkCount_pos (List.length_pos_of_ne_nil hne)
    rw [← length_mapChunks f, h, List.length_nil] at hpos
    exact Nat.lt_irrefl 0 hpos
  · rintro rfl
    exact mapChunks_nil f size

/-- A list of at most one chunk is one chunk. -/
theorem mapChunks_of_le (f : List α → β) {size : ℕ} {l : List α} (hne : l ≠ [])
    (hle : l.length ≤ size) : mapChunks f size l = [f l] := by
  have hcount := chunkCount_of_le (List.length_pos_of_ne_nil hne) hle
  simp [mapChunks, hcount, List.take_of_length_le hle]

/-- The first chunk, then the chunks of the rest. -/
theorem mapChunks_eq_cons (f : List α → β) {size : ℕ} (hsize : 0 < size) {l : List α}
    (hle : size ≤ l.length) :
    mapChunks f size l = f (l.take size) :: mapChunks f size (l.drop size) := by
  have hcount : chunkCount l.length size = chunkCount (l.drop size).length size + 1 := by
    rw [List.length_drop, ← chunkCount_add _ hsize, Nat.sub_add_cancel hle]
  simp only [mapChunks, hcount, List.range_succ_eq_map, List.map_cons, List.map_map,
    Nat.zero_mul, List.drop_zero, List.cons.injEq, true_and]
  refine List.map_congr_left fun i _ => ?_
  simp only [Function.comp_apply, Nat.succ_mul, List.drop_drop, Nat.add_comm]

/-- The chunks of the first `n` elements: the first chunk, which is all of them when they fit
in one, then the chunks of the `n - size` elements after it. -/
theorem mapChunks_take_eq_cons (f : List α → β) {size : ℕ} (hsize : 0 < size) {l : List α}
    {n : ℕ} (hn : 0 < n) (hle : n ≤ l.length) :
    mapChunks f size (l.take n) =
      f (l.take (min n size)) :: mapChunks f size ((l.drop size).take (n - size)) := by
  have hlen : (l.take n).length = n := List.length_take_of_le hle
  rcases Nat.le_total n size with hfits | hsize_le
  · have hne : l.take n ≠ [] := List.ne_nil_of_length_pos (by omega)
    rw [mapChunks_of_le f hne (by omega), Nat.min_eq_left hfits, Nat.sub_eq_zero_of_le hfits,
      List.take_zero, mapChunks_nil]
  · rw [mapChunks_eq_cons f hsize (by omega), List.take_take, List.drop_take,
      Nat.min_comm]

/-- Whole chunks in front are chunked on their own. -/
theorem mapChunks_append (f : List α → β) {size : ℕ} (hsize : 0 < size) :
    ∀ (l l' : List α), size ∣ l.length →
      mapChunks f size (l ++ l') = mapChunks f size l ++ mapChunks f size l'
  | l, l', hdvd => by
    by_cases hnil : l = []
    · simp [hnil]
    · have hle : size ≤ l.length :=
        Nat.le_of_dvd (List.length_pos_of_ne_nil hnil) hdvd
      have hrest : size ∣ (l.drop size).length := by
        rw [List.length_drop]
        exact Nat.dvd_sub hdvd (Nat.dvd_refl size)
      rw [mapChunks_eq_cons f hsize (by rw [List.length_append]; omega),
        mapChunks_eq_cons f hsize hle,
        List.take_append_of_le_length hle, List.drop_append_of_le_length hle,
        mapChunks_append f hsize (l.drop size) l' hrest, List.cons_append]
termination_by l => l.length
decreasing_by
  simp only [List.length_drop]
  omega

/-- Chunking by `size * size'` and mapping each chunk through its chunks of `size` is
chunking by `size`, then by `size'`. -/
theorem mapChunks_mul (f : List α → β) (g : List β → γ) {size size' : ℕ}
    (hsize : 0 < size) (hsize' : 0 < size') :
    ∀ l : List α, mapChunks (fun chunk => g (mapChunks f size chunk)) (size * size') l =
      mapChunks g size' (mapChunks f size l)
  | l => by
    by_cases hnil : l = []
    · subst hnil
      simp
    by_cases hle : l.length ≤ size * size'
    · have hinner : (mapChunks f size l).length ≤ size' := by
        rw [length_mapChunks]
        exact chunkCount_le hle
      have hinner_ne : mapChunks f size l ≠ [] := by
        rwa [Ne, mapChunks_eq_nil_iff]
      rw [mapChunks_of_le _ hnil hle, mapChunks_of_le g hinner_ne hinner]
    · have hlen : size * size' ≤ l.length := Nat.le_of_not_le hle
      have hfront : (l.take (size * size')).length = size * size' :=
        List.length_take_of_le hlen
      have hsplit := mapChunks_append f hsize (l.take (size * size')) (l.drop (size * size'))
        (by rw [hfront]; exact Nat.dvd_mul_right size size')
      rw [List.take_append_drop] at hsplit
      have hcount : (mapChunks f size (l.take (size * size'))).length = size' := by
        rw [length_mapChunks, hfront, chunkCount_mul size' hsize]
      rw [mapChunks_eq_cons _ (Nat.mul_pos hsize hsize') hlen, hsplit,
        mapChunks_eq_cons g hsize' (by simp [hcount]), List.take_append_of_le_length
          (Nat.le_of_eq hcount.symm), List.take_of_length_le (Nat.le_of_eq hcount),
        List.drop_append_of_le_length (Nat.le_of_eq hcount.symm),
        List.drop_eq_nil_of_le (Nat.le_of_eq hcount), List.nil_append,
        mapChunks_mul f g hsize hsize' (l.drop (size * size'))]
termination_by l => l.length
decreasing_by
  show (l.drop (size * size')).length < l.length
  have := Nat.mul_pos hsize hsize'
  have := List.length_pos_of_ne_nil hnil
  rw [List.length_drop]
  omega

theorem le_length_mapChunks (f : List α → β) {size count : ℕ} (hsize : 0 < size) {l : List α}
    (hle : size * count ≤ l.length) : count ≤ (mapChunks f size l).length := by
  rw [length_mapChunks]
  exact le_chunkCount hsize hle

/-- Chunking by `size ^ (k + 1)` and mapping each chunk through `k` levels of chunks of `size`
is `k + 1` levels of chunks of `size`. -/
theorem mapChunks_pow (f : List α → α) {size : ℕ} (hsize : 0 < size) :
    ∀ (k : ℕ) (l : List α), mapChunks (fun chunk => f ((mapChunks f size)^[k] chunk))
      (size ^ (k + 1)) l = (mapChunks f size)^[k + 1] l
  | 0, l => by simp
  | k + 1, l => by
    have hpow : size ^ (k + 1 + 1) = size * size ^ (k + 1) := by
      rw [Nat.pow_succ, Nat.mul_comm]
    simp only [hpow, Function.iterate_succ_apply]
    rw [mapChunks_mul f (fun chunk => f ((mapChunks f size)^[k] chunk)) hsize
      (Nat.pow_pos hsize), mapChunks_pow f hsize k, Function.iterate_succ_apply]

theorem length_mapChunks_of_dvd (f : List α → β) {size : ℕ} (hsize : 0 < size) {l : List α}
    (hdvd : size ∣ l.length) : (mapChunks f size l).length = l.length / size := by
  obtain ⟨count, hcount⟩ := hdvd
  rw [length_mapChunks, hcount, chunkCount_mul count hsize, Nat.mul_div_cancel_left count hsize]

/-- Chunking `k` times: a front of whole chunks of `size ^ k` is chunked on its own. -/
theorem mapChunks_iterate_append (f : List α → α) {size : ℕ} (hsize : 0 < size) :
    ∀ (k : ℕ) (l l' : List α), size ^ k ∣ l.length →
      (mapChunks f size)^[k] (l ++ l') =
        (mapChunks f size)^[k] l ++ (mapChunks f size)^[k] l'
  | 0, _, _, _ => rfl
  | k + 1, l, l', hdvd => by
    obtain ⟨count, hcount⟩ := hdvd
    have hfront : size ∣ l.length :=
      ⟨size ^ k * count, by
        rw [hcount, Nat.pow_succ, Nat.mul_comm (size ^ k) size, Nat.mul_assoc]⟩
    have hchunks : size ^ k ∣ (mapChunks f size l).length := by
      rw [length_mapChunks_of_dvd f hsize hfront, hcount, Nat.pow_succ, Nat.mul_comm (size ^ k),
        Nat.mul_assoc, Nat.mul_div_cancel_left _ hsize]
      exact Nat.dvd_mul_right _ _
    rw [Function.iterate_succ_apply, Function.iterate_succ_apply, Function.iterate_succ_apply,
      mapChunks_append f hsize l l' hfront,
      mapChunks_iterate_append f hsize k _ _ hchunks]

/-! ## Reading the chunks back -/

/-- `div_ceil` as `(len + size - 1) / size`. -/
theorem chunkCount_eq_div_ceil (len : ℕ) {size : ℕ} (hsize : 0 < size) :
    chunkCount len size = (len + size - 1) / size := by
  have hmod := Nat.mod_lt len hsize
  have hsplit : len + size - 1 = (len % size + size - 1) + size * (len / size) := by
    have := Nat.div_add_mod len size
    omega
  rw [hsplit, Nat.add_mul_div_left _ _ hsize, chunkCount,
    Nat.add_comm ((len % size + size - 1) / size)]
  congr 1
  split_ifs with hrem
  · exact (Nat.div_eq_of_lt_le (by omega) (by omega)).symm
  · exact (Nat.div_eq_of_lt (by omega)).symm

/-- Padding a list to whole chunks keeps the number of chunks. -/
theorem chunkCount_div_ceil_mul (len : ℕ) {size : ℕ} (hsize : 0 < size) :
    chunkCount ((len + size - 1) / size * size) size = chunkCount len size := by
  rw [Nat.mul_comm, chunkCount_mul _ hsize, chunkCount_eq_div_ceil len hsize]

/-- A test passes on a list exactly when it passes on each of its chunks. -/
theorem all_mapChunks_all (p : α → Bool) {size : ℕ} (hsize : 0 < size) (l : List α) :
    (mapChunks (·.all p) size l).all id = l.all p := by
  by_cases hle : l.length ≤ size
  · by_cases hnil : l = []
    · simp [hnil]
    · rw [mapChunks_of_le _ hnil hle]
      simp
  · rw [mapChunks_eq_cons _ hsize (by omega), List.all_cons,
      all_mapChunks_all p hsize (l.drop size)]
    conv_rhs => rw [← List.take_append_drop size l, List.all_append]
    rfl
termination_by l.length
decreasing_by
  simp only [List.length_drop]
  omega

/-- Two lists of one length chunked in step and numbered: chunk `i` of each at index `i`. -/
theorem zipIdx_zip_mapChunks {size : ℕ} {l : List α} {l' : List β}
    (hlen : l.length = l'.length) :
    ((mapChunks id size l).zip (mapChunks id size l')).zipIdx =
      (List.range (chunkCount l.length size)).map fun i =>
        (((l.drop (i * size)).take size, (l'.drop (i * size)).take size), i) := by
  apply List.ext_getElem (by simp [hlen])
  intro i _ _
  simp [mapChunks, List.getElem_zipIdx]

/-- Reading entry `j` of a list against lane `j` of another with lanes enough is testing the
list zipped after the lanes. -/
theorem all_zipIdx_getD (p : α → β → Bool) (d : α) :
    ∀ (lanes : List α) (l : List β), l.length ≤ lanes.length →
      (l.zipIdx.all fun (b, j) => p (lanes.getD j d) b) = (lanes.zip l).all fun (a, b) => p a b
  | _, [], _ => by simp
  | [], _ :: _, hle => absurd hle (by simp)
  | a :: lanes, b :: l, hle => by
    have hrest : l.length ≤ lanes.length := by simpa using hle
    rw [List.zipIdx_cons', List.all_cons, List.all_map, List.zip_cons_cons, List.all_cons,
      ← all_zipIdx_getD p d lanes l hrest]
    rfl

end Chunks
