import Solana.Vote.Update
import Solana.Consensus.Lockout
import Solana.Lib.IndexMap
import Mathlib

/-! `check_slots_are_valid` and what `process_vote` pushes (`checkSlotsAreValid_eq_ok_iff`,
`processVote_new_slot_mem`). -/

namespace Solana.VoteProgram

namespace VoteState

/-- The voted slots above the last vote, in the vote's order. -/
def slotsAbove (last : Option ℕ) (slots : List ℕ) : List ℕ :=
  slots.filter fun slot => !(last.any fun last => slot ≤ last)

/-! ## The walk -/

section Walk

variable {last : Option ℕ}

/-- A nonempty suffix ends where the list ends. -/
theorem getLast?_of_suffix {l₁ l₂ : List ℕ} (h : l₁ <:+ l₂) (hne : l₁ ≠ []) :
    l₁.getLast? = l₂.getLast? := by
  rw [List.getLast?_eq_some_getLast hne, h.getLast hne, List.getLast?_eq_some_getLast]

theorem slotsAbove_dropWhile (slots : List ℕ) :
    slotsAbove last (slots.dropWhile fun slot => last.any fun last => slot ≤ last) =
      slotsAbove last slots := by
  induction slots with
  | nil => rfl
  | cons slot slots ih =>
    rw [List.dropWhile_cons]
    split_ifs with hbelow
    · rw [ih, slotsAbove, slotsAbove, List.filter_cons_of_neg (by simp [hbelow])]
    · rfl

theorem slotsAbove_of_dropWhile_eq_cons {slots rest : List ℕ} {slot : ℕ}
    (h : (slots.dropWhile fun slot => last.any fun last => slot ≤ last) = slot :: rest) :
    slotsAbove last slots = slot :: slotsAbove last rest := by
  have habove := List.head_dropWhile_not (fun slot => last.any fun last => slot ≤ last)
    (l := slots) (by rw [h]; exact List.cons_ne_nil _ _)
  simp only [h, List.head_cons] at habove
  rw [← slotsAbove_dropWhile, h, slotsAbove, List.filter_cons_of_pos (by simp [habove])]
  rfl

theorem dropWhile_eq_nil_iff_slotsAbove (slots : List ℕ) :
    (slots.dropWhile fun slot => last.any fun last => slot ≤ last) = [] ↔
      slotsAbove last slots = [] := by
  rw [List.dropWhile_eq_nil_iff, slotsAbove, List.filter_eq_nil_iff]
  simp

@[simp] theorem checkSlotsLoop_nil (slots : List ℕ) : checkSlotsLoop last slots [] = (slots, []) := by
  rw [checkSlotsLoop]

theorem checkSlotsLoop_of_dropWhile_eq_nil {slots : List ℕ} (entry : ℕ × Hash)
    (hashes : List (ℕ × Hash))
    (h : (slots.dropWhile fun slot => last.any fun last => slot ≤ last) = []) :
    checkSlotsLoop last slots (entry :: hashes) = ([], entry :: hashes) := by
  obtain ⟨hashSlot, hash⟩ := entry
  rw [checkSlotsLoop, h]

theorem checkSlotsLoop_of_dropWhile_eq_cons {slots rest : List ℕ} {slot : ℕ} (hashSlot : ℕ)
    (hash : Hash) (hashes : List (ℕ × Hash))
    (h : (slots.dropWhile fun slot => last.any fun last => slot ≤ last) = slot :: rest) :
    checkSlotsLoop last slots ((hashSlot, hash) :: hashes) =
      if slot ≠ hashSlot then checkSlotsLoop last (slot :: rest) hashes
      else checkSlotsLoop last rest hashes := by
  rw [checkSlotsLoop, h]

/-- The walk leaves a suffix of the hashes. -/
theorem checkSlotsLoop_snd_suffix (slots : List ℕ) (hashes : List (ℕ × Hash)) :
    (checkSlotsLoop last slots hashes).2 <:+ hashes := by
  induction hashes generalizing slots with
  | nil => exact List.suffix_refl _
  | cons entry hashes ih =>
    obtain ⟨hashSlot, hash⟩ := entry
    cases hdrop : slots.dropWhile fun slot => last.any fun last => slot ≤ last with
    | nil => simp only [checkSlotsLoop_of_dropWhile_eq_nil _ _ hdrop, List.suffix_refl]
    | cons slot rest =>
      rw [checkSlotsLoop_of_dropWhile_eq_cons _ _ _ hdrop]
      split_ifs
      · exact (ih _).trans (List.suffix_cons _ _)
      · exact (ih _).trans (List.suffix_cons _ _)

/-- A walk that consumes no hash had none, or no slot above the last vote. -/
theorem checkSlotsLoop_stalled {slots : List ℕ} {hashes : List (ℕ × Hash)}
    (h : (checkSlotsLoop last slots hashes).2 = hashes) :
    hashes = [] ∨ slotsAbove last slots = [] := by
  cases hashes with
  | nil => exact .inl rfl
  | cons entry hashes =>
    obtain ⟨hashSlot, hash⟩ := entry
    cases hdrop : slots.dropWhile fun slot => last.any fun last => slot ≤ last with
    | nil => exact .inr ((dropWhile_eq_nil_iff_slotsAbove slots).mp hdrop)
    | cons slot rest =>
      have hshort : ∀ slots',
          (checkSlotsLoop last slots' hashes).2.length < ((hashSlot, hash) :: hashes).length :=
        fun slots' => Nat.lt_succ_of_le (checkSlotsLoop_snd_suffix slots' hashes).length_le
      rw [checkSlotsLoop_of_dropWhile_eq_cons _ _ _ hdrop] at h
      have hlen := congrArg List.length h
      split_ifs at hlen
      · exact absurd hlen (Nat.ne_of_lt (hshort _))
      · exact absurd hlen (Nat.ne_of_lt (hshort _))

/-- Without slots above the last vote the walk consumes nothing; it skips the slots only while
hashes are left. -/
theorem checkSlotsLoop_of_slotsAbove_nil {slots : List ℕ} (h : slotsAbove last slots = [])
    (hashes : List (ℕ × Hash)) :
    checkSlotsLoop last slots hashes = (if hashes = [] then slots else [], hashes) := by
  cases hashes with
  | nil => rw [checkSlotsLoop_nil, if_pos rfl]
  | cons entry hashes =>
    rw [checkSlotsLoop_of_dropWhile_eq_nil _ _ ((dropWhile_eq_nil_iff_slotsAbove slots).mpr h),
      if_neg (List.cons_ne_nil _ _)]

/-- A walk that consumes every slot, with some above the last vote, consumes some hash. -/
theorem checkSlotsLoop_length_lt {slots : List ℕ} {hashes : List (ℕ × Hash)}
    (hslots : (checkSlotsLoop last slots hashes).1 = []) (hne : slotsAbove last slots ≠ []) :
    (checkSlotsLoop last slots hashes).2.length < hashes.length := by
  refine lt_of_le_of_ne (checkSlotsLoop_snd_suffix slots hashes).length_le fun hlen => ?_
  rcases checkSlotsLoop_stalled ((checkSlotsLoop_snd_suffix slots hashes).eq_of_length hlen) with
    rfl | hnil
  · change slots = [] at hslots
    exact hne (by rw [hslots]; rfl)
  · exact hne hnil

/-- A walk that ends with every slot consumed and some hash consumed matched the slots above
the last vote, in order, against the hashes it consumed, the largest slot against the last of
them; when no hash is left, that slot is the vote's last. -/
theorem checkSlotsLoop_matched {slots : List ℕ} {hashes : List (ℕ × Hash)}
    (hslots : (checkSlotsLoop last slots hashes).1 = [])
    (hlen : (checkSlotsLoop last slots hashes).2.length < hashes.length) :
    ∃ consumed entry, hashes = consumed ++ entry :: (checkSlotsLoop last slots hashes).2 ∧
      (slotsAbove last slots).Sublist ((consumed ++ [entry]).map Prod.fst) ∧
      (slotsAbove last slots).getLast? = some entry.1 ∧
      ((checkSlotsLoop last slots hashes).2 = [] → slots.getLast? = some entry.1) := by
  induction hashes generalizing slots with
  | nil => exact absurd hlen (Nat.not_lt_zero _)
  | cons entry hashes ih =>
    obtain ⟨hashSlot, hash⟩ := entry
    cases hdrop : slots.dropWhile fun slot => last.any fun last => slot ≤ last with
    | nil =>
      rw [checkSlotsLoop_of_dropWhile_eq_nil _ _ hdrop] at hlen
      exact absurd hlen (Nat.lt_irrefl _)
    | cons slot rest =>
      have hsuffix : slot :: rest <:+ slots := hdrop ▸ List.dropWhile_suffix _
      have habove := slotsAbove_of_dropWhile_eq_cons hdrop
      rw [checkSlotsLoop_of_dropWhile_eq_cons _ _ _ hdrop] at hslots hlen ⊢
      by_cases hslot : slot = hashSlot
      · rw [if_neg (not_not.mpr hslot)] at hslots hlen ⊢
        subst hslot
        by_cases hmore : slotsAbove last rest = []
        · have hwalk := checkSlotsLoop_of_slotsAbove_nil hmore hashes
          refine ⟨[], (slot, hash), by rw [hwalk]; rfl, ?_, ?_, fun hnil => ?_⟩
          · rw [habove, hmore]
            exact List.Sublist.refl _
          · rw [habove, hmore]
            rfl
          · rw [hwalk] at hnil hslots
            simp only at hnil
            rw [if_pos hnil] at hslots
            subst hslots
            exact (getLast?_of_suffix hsuffix (List.cons_ne_nil _ _)).symm
        · obtain ⟨consumed, entry, hhashes, hsub, hlast, hend⟩ :=
            ih hslots (checkSlotsLoop_length_lt hslots hmore)
          refine ⟨(slot, hash) :: consumed, entry, by rw [List.cons_append, ← hhashes], ?_, ?_, fun hnil => ?_⟩
          · rw [habove]
            exact hsub.cons_cons slot
          · rw [habove, List.getLast?_cons, hlast]
            rfl
          · rw [← getLast?_of_suffix hsuffix (List.cons_ne_nil _ _), List.getLast?_cons, hend hnil]
            rfl
      · rw [if_pos hslot] at hslots hlen ⊢
        have hsame : slotsAbove last (slot :: rest) = slotsAbove last slots := by
          rw [← hdrop, slotsAbove_dropWhile]
        obtain ⟨consumed, entry, hhashes, hsub, hlast, hend⟩ :=
          ih hslots (checkSlotsLoop_length_lt hslots (by rw [hsame, habove]; exact List.cons_ne_nil _ _))
        refine ⟨(hashSlot, hash) :: consumed, entry, by rw [List.cons_append, ← hhashes], ?_, ?_, fun hnil => ?_⟩
        · rw [← hsame]
          exact hsub.cons hashSlot
        · rw [← hsame, hlast]
        · rw [← getLast?_of_suffix hsuffix (List.cons_ne_nil _ _), hend hnil]

theorem mem_slotsAbove {slots : List ℕ} {slot : ℕ} :
    slot ∈ slotsAbove last slots ↔ slot ∈ slots ∧ ¬last.any (fun last => slot ≤ last) := by
  simp [slotsAbove]

/-- On hashes sorted oldest first, a walk whose slots above the last vote form a sublist of the
hash slots consumes the hashes up to that of the largest of them. It consumes every slot unless
that hash was the newest and a slot at or below the last vote follows, which the walk, out of
hashes, no longer skips. -/
theorem checkSlotsLoop_of_sublist {hashes : List (ℕ × Hash)}
    (hsorted : (hashes.map Prod.fst).Pairwise (· < ·)) {slots : List ℕ}
    (hsub : (slotsAbove last slots).Sublist (hashes.map Prod.fst)) (hne : slotsAbove last slots ≠ []) :
    ∃ consumed entry, hashes = consumed ++ entry :: (checkSlotsLoop last slots hashes).2 ∧
      (slotsAbove last slots).getLast? = some entry.1 ∧
      ((checkSlotsLoop last slots hashes).1 = [] ↔
        (checkSlotsLoop last slots hashes).2 ≠ [] ∨ slots.getLast? = some entry.1) := by
  induction hashes generalizing slots with
  | nil => exact absurd (List.sublist_nil.mp hsub) hne
  | cons entry hashes ih =>
    obtain ⟨hashSlot, hash⟩ := entry
    rw [List.map_cons, List.pairwise_cons] at hsorted
    cases hdrop : slots.dropWhile fun slot => last.any fun last => slot ≤ last with
    | nil => exact absurd ((dropWhile_eq_nil_iff_slotsAbove slots).mp hdrop) hne
    | cons slot rest =>
      have hsuffix : slot :: rest <:+ slots := hdrop ▸ List.dropWhile_suffix _
      have habove := slotsAbove_of_dropWhile_eq_cons hdrop
      rw [checkSlotsLoop_of_dropWhile_eq_cons _ _ _ hdrop]
      by_cases hslot : slot = hashSlot
      · rw [if_neg (not_not.mpr hslot)]
        subst hslot
        rw [habove, List.map_cons, List.cons_sublist_cons] at hsub
        by_cases hmore : slotsAbove last rest = []
        · have hwalk := checkSlotsLoop_of_slotsAbove_nil hmore hashes
          refine ⟨[], (slot, hash), by rw [hwalk]; rfl, by rw [habove, hmore]; rfl, ?_⟩
          rw [hwalk]
          by_cases hnil : hashes = []
          · rw [if_pos hnil]
            simp only [hnil, ne_eq, not_true_eq_false, false_or]
            rw [← getLast?_of_suffix hsuffix (List.cons_ne_nil _ _)]
            constructor
            · rintro rfl
              rfl
            · intro hlast
              by_contra hrest
              rw [List.getLast?_cons, List.getLast?_eq_some_getLast hrest, Option.getD_some,
                Option.some.injEq] at hlast
              have hslot : slot ∈ slotsAbove last slots := by
                rw [habove]
                exact List.mem_cons_self
              have hbelow : slot ∉ slotsAbove last rest := by
                rw [hmore]
                exact List.not_mem_nil
              exact hbelow (mem_slotsAbove.mpr
                ⟨hlast ▸ List.getLast_mem hrest, (mem_slotsAbove.mp hslot).2⟩)
          · simp [hnil]
        · obtain ⟨consumed, entry, hhashes, hlast, hiff⟩ := ih hsorted.2 hsub hmore
          have hrest : rest ≠ [] := by
            rintro rfl
            exact hmore rfl
          refine ⟨(slot, hash) :: consumed, entry, by rw [List.cons_append, ← hhashes], ?_, ?_⟩
          · rw [habove, List.getLast?_cons, hlast]
            rfl
          · rw [hiff, ← getLast?_of_suffix ((List.suffix_cons slot rest).trans hsuffix) hrest]
      · rw [if_pos hslot]
        have hsame : slotsAbove last (slot :: rest) = slotsAbove last slots := by
          rw [← hdrop, slotsAbove_dropWhile]
        have hsub' : (slotsAbove last (slot :: rest)).Sublist (hashes.map Prod.fst) := by
          rw [hsame]
          rw [habove] at hsub ⊢
          rcases List.sublist_cons_iff.mp hsub with hsub | ⟨r, hr, -⟩
          · exact hsub
          · exact absurd (List.cons.inj hr).1 hslot
        obtain ⟨consumed, entry, hhashes, hlast, hiff⟩ :=
          ih hsorted.2 hsub' (by rw [hsame]; exact hne)
        refine ⟨(hashSlot, hash) :: consumed, entry, by rw [List.cons_append, ← hhashes],
          by rw [← hsame]; exact hlast, ?_⟩
        rw [hiff, ← getLast?_of_suffix hsuffix (List.cons_ne_nil _ _)]

end Walk

/-! ## The check -/

section Check

variable {s : VoteState} {voteSlots : List ℕ} {voteHash : Hash} {slotHashes : List (ℕ × Hash)}

/-- `check_slots_are_valid` succeeds when the walk consumed some hash and every slot, and the
last hash it consumed, `slot_hashes[j]`, is the vote's. -/
theorem checkSlotsAreValid_eq_ok :
    s.checkSlotsAreValid voteSlots voteHash slotHashes = .ok () ↔
      (checkSlotsLoop s.lastVotedSlot voteSlots slotHashes.reverse).2.length ≠ slotHashes.length ∧
      (checkSlotsLoop s.lastVotedSlot voteSlots slotHashes.reverse).1 = [] ∧
      slotHashes[(checkSlotsLoop s.lastVotedSlot voteSlots slotHashes.reverse).2.length]!.2 =
        voteHash := by
  unfold checkSlotsAreValid
  generalize checkSlotsLoop s.lastVotedSlot voteSlots slotHashes.reverse = walk
  obtain ⟨restSlots, restHashes⟩ := walk
  dsimp only
  split_ifs with hlen hslots hhash
  · exact iff_of_false (by simp) fun h => h.1 hlen
  · exact iff_of_false (by simp) fun h => hslots h.2.1
  · exact iff_of_false (by simp) fun h => hhash h.2.2
  · exact iff_of_true rfl ⟨hlen, not_not.mp hslots, not_not.mp hhash⟩

/-- Read newest first, the hashes the walk left come first, then the last one it consumed. -/
theorem getElem!_of_reverse_eq {l consumed rest : List (ℕ × Hash)} {entry : ℕ × Hash}
    (h : l.reverse = consumed ++ entry :: rest) : l[rest.length]! = entry := by
  rw [← List.reverse_reverse l, h, List.reverse_append, List.reverse_cons, List.append_assoc]
  simp

/-- On hashes sorted oldest first, the newest is the last consumed exactly when none is left. -/
theorem head?_eq_iff_of_reverse_eq {l consumed rest : List (ℕ × Hash)} {entry : ℕ × Hash}
    (h : l.reverse = consumed ++ entry :: rest) (hsorted : (l.reverse.map Prod.fst).Pairwise (· < ·)) :
    l.head?.map Prod.fst = some entry.1 ↔ rest = [] := by
  rw [← List.getLast?_reverse, h]
  rw [h] at hsorted
  constructor
  · intro hhead
    by_contra hrest
    rw [List.getLast?_append, List.getLast?_cons, List.getLast?_eq_some_getLast hrest] at hhead
    simp only [Option.getD_some, Option.some_or, Option.map_some, Option.some.injEq] at hhead
    rw [List.map_append, List.map_cons, List.pairwise_append, List.pairwise_cons] at hsorted
    have hlt := hsorted.2.1.1 _ (List.mem_map_of_mem (List.getLast_mem hrest))
    omega
  · rintro rfl
    simp

/-- A vote that passes the check matched its slots above the last vote, in order, against the
slot hashes read oldest first, the largest against an entry with the vote's hash; when no newer
entry is left, that slot is the vote's last. -/
theorem checkSlotsAreValid_matched (h : s.checkSlotsAreValid voteSlots voteHash slotHashes = .ok ()) :
    ∃ consumed entry rest, slotHashes.reverse = consumed ++ entry :: rest ∧
      (slotsAbove s.lastVotedSlot voteSlots).Sublist ((consumed ++ [entry]).map Prod.fst) ∧
      (slotsAbove s.lastVotedSlot voteSlots).getLast? = some entry.1 ∧ entry.2 = voteHash ∧
      (rest = [] → voteSlots.getLast? = some entry.1) := by
  obtain ⟨hlen, hslots, hhash⟩ := checkSlotsAreValid_eq_ok.mp h
  have hlt : (checkSlotsLoop s.lastVotedSlot voteSlots slotHashes.reverse).2.length <
      slotHashes.reverse.length := by
    rw [List.length_reverse]
    exact lt_of_le_of_ne (by simpa using
      (checkSlotsLoop_snd_suffix voteSlots slotHashes.reverse).length_le) hlen
  obtain ⟨consumed, entry, hH, hsub, hlast, hend⟩ := checkSlotsLoop_matched hslots hlt
  exact ⟨consumed, entry, _, hH, hsub, hlast, getElem!_of_reverse_eq hH ▸ hhash, hend⟩

/-- A vote that passes the check has its slots above the last vote among the slot hashes, in
the order of the hashes read oldest first. -/
theorem checkSlotsAreValid_sublist (h : s.checkSlotsAreValid voteSlots voteHash slotHashes = .ok ()) :
    (slotsAbove s.lastVotedSlot voteSlots).Sublist (slotHashes.reverse.map Prod.fst) := by
  obtain ⟨consumed, entry, rest, hH, hsub, -⟩ := checkSlotsAreValid_matched h
  rw [hH, ← List.singleton_append, ← List.append_assoc, List.map_append]
  exact hsub.trans (List.sublist_append_left _ _)

/-- The check on slot hashes sorted newest first: it succeeds exactly when the voted slots
above the last vote are increasing, are all slots of `slot_hashes`, and end in a slot that
`slot_hashes` records with the vote's hash; and, when that slot is the newest of
`slot_hashes`, it is also the vote's last slot. -/
theorem checkSlotsAreValid_eq_ok_iff (hsorted : (slotHashes.map Prod.fst).Pairwise (· > ·)) :
    s.checkSlotsAreValid voteSlots voteHash slotHashes = .ok () ↔
      ∃ top, (slotsAbove s.lastVotedSlot voteSlots).getLast? = some top ∧
        (slotsAbove s.lastVotedSlot voteSlots).Pairwise (· < ·) ∧
        (∀ slot ∈ slotsAbove s.lastVotedSlot voteSlots, slot ∈ slotHashes.map Prod.fst) ∧
        (top, voteHash) ∈ slotHashes ∧
        (slotHashes.head?.map Prod.fst = some top → voteSlots.getLast? = some top) := by
  have hsortedH : (slotHashes.reverse.map Prod.fst).Pairwise (· < ·) := by
    rw [List.map_reverse, List.pairwise_reverse]
    exact hsorted
  constructor
  · intro h
    obtain ⟨consumed, entry, rest, hH, -, hlast, hhash, hend⟩ := checkSlotsAreValid_matched h
    have hsubH := checkSlotsAreValid_sublist h
    refine ⟨entry.1, hlast, hsortedH.sublist hsubH, fun slot hslot => ?_, ?_, fun hhead => ?_⟩
    · simpa using hsubH.subset hslot
    · rw [← hhash, ← List.mem_reverse, hH]
      exact List.mem_append_right _ List.mem_cons_self
    · exact hend ((head?_eq_iff_of_reverse_eq hH hsortedH).mp hhead)
  · rintro ⟨top, hlast, hpairwise, hmem, hpair, htrail⟩
    have hsub : (slotsAbove s.lastVotedSlot voteSlots).Sublist (slotHashes.reverse.map Prod.fst) :=
      List.sublist_of_subperm_of_pairwise
        (List.subperm_of_subset hpairwise.nodup fun slot hslot => by simpa using hmem slot hslot)
        hpairwise hsortedH
    have hne : slotsAbove s.lastVotedSlot voteSlots ≠ [] := by
      intro hnil
      rw [hnil] at hlast
      cases hlast
    obtain ⟨consumed, entry, hH, hlast', hiff⟩ := checkSlotsLoop_of_sublist hsortedH hsub hne
    rw [hlast, Option.some.injEq] at hlast'
    subst hlast'
    refine checkSlotsAreValid_eq_ok.mpr ⟨fun hlen => ?_, hiff.mpr ?_, ?_⟩
    · have := congrArg List.length hH
      simp only [List.length_reverse, List.length_append, List.length_cons] at this
      omega
    · by_cases hrest : (checkSlotsLoop s.lastVotedSlot voteSlots slotHashes.reverse).2 = []
      · exact .inr (htrail ((head?_eq_iff_of_reverse_eq hH hsortedH).mpr hrest))
      · exact .inl hrest
    · have hentry : entry ∈ slotHashes := by
        rw [← List.mem_reverse, hH]
        exact List.mem_append_right _ List.mem_cons_self
      rw [getElem!_of_reverse_eq hH]
      exact IndexMap.eq_of_mem_of_mem hsorted.nodup hentry hpair

end Check

/-! ## Applying the vote -/

section Apply

variable {s : VoteState} {epoch : ℕ}

/-- Along the votes for `slots`, a slot pushed is above the last vote before them. So when every
slot above that last vote is good, each slot on the tower afterwards was on it before or is
good. The fold keeps the last vote at or above the one before, which makes a pushed slot, above
the current last vote, also above that one. -/
theorem foldl_processNextVoteSlot_slot {slots : List ℕ} {good : ℕ → Prop}
    (hgood : ∀ slot ∈ slotsAbove s.lastVotedSlot slots, good slot) :
    ∀ l ∈ (slots.foldl (fun st slot => st.processNextVoteSlot slot epoch) s).votes,
      l.slot ∈ s.votes.map (·.slot) ∨ good l.slot := by
  refine (Run.foldl_invariant (fun (st : VoteState) slot => st.processNextVoteSlot slot epoch)
    (P := fun st => (∀ l ∈ st.votes, l.slot ∈ s.votes.map (·.slot) ∨ good l.slot) ∧
      ∀ last ∈ s.lastVotedSlot, ∃ top ∈ st.lastVotedSlot, last ≤ top)
    (fun _ slots => ∀ slot ∈ slots, ¬s.lastVotedSlot.any (fun last => slot ≤ last) → good slot)
    (fun _ _ _ hready slot hslot => hready slot (List.mem_cons_of_mem _ hslot))
    (fun st slot _ hst hready => ?_) slots ⟨fun l hl => .inl (List.mem_map_of_mem hl),
      fun last hlast => ⟨last, hlast, le_refl last⟩⟩
    fun slot hslot habove => hgood slot (mem_slotsAbove.mpr ⟨hslot, habove⟩)).1
  obtain ⟨hvotes, hlast⟩ := hst
  by_cases hnew : st.lastVotedSlot.any (fun last => slot ≤ last)
  · rw [processNextVoteSlot_of_le epoch hnew]
    exact ⟨hvotes, hlast⟩
  have hgt : ∀ top ∈ st.lastVotedSlot, top < slot := fun top htop =>
    Nat.lt_of_not_le fun hle => hnew ((Option.any_eq_true _ _).mpr ⟨top, htop, decide_eq_true hle⟩)
  have hslot : good slot := by
    refine hready slot List.mem_cons_self fun hbelow => ?_
    obtain ⟨last, hlastvote, hle⟩ := (Option.any_eq_true _ _).mp hbelow
    obtain ⟨top, htop, hlt⟩ := hlast last hlastvote
    have hslot_le := of_decide_eq_true hle
    have htop_lt := hgt top htop
    omega
  obtain ⟨kept, hpush, hkept, -, -⟩ := Consensus.processNextVoteSlot_push epoch hnew
  refine ⟨fun l hl => ?_, fun last hlastvote => ?_⟩
  · have hmem : l.slot ∈ (kept ++ [Lockout.new slot]).map (·.slot) := by
      rw [← Consensus.slots_doubleLockouts, ← hpush]
      exact List.mem_map_of_mem hl
    rw [List.map_append, List.mem_append, List.map_singleton, List.mem_singleton] at hmem
    rcases hmem with hmem | hmem
    · obtain ⟨k, hk, hslotk⟩ := List.mem_map.mp hmem
      rw [← hslotk]
      exact hvotes k (hkept hk)
    · rw [hmem, Lockout.slot_new]
      exact .inr hslot
  · obtain ⟨top, htop, hle⟩ := hlast last hlastvote
    exact ⟨slot, Consensus.lastVotedSlot_processNextVoteSlot epoch hnew,
      (hle.trans_lt (hgt top htop)).le⟩

/-- After `process_vote` succeeds, a slot on the tower that was not on it before is a slot of
`slot_hashes`. -/
theorem processVote_new_slot_mem {s' : VoteState} {vote : Vote} {slotHashes : List (ℕ × Hash)}
    {featureSet : Option FeatureSet} (h : s.processVote vote slotHashes epoch featureSet = .ok s') :
    ∀ l ∈ s'.votes, l.slot ∉ s.votes.map (·.slot) → l.slot ∈ slotHashes.map Prod.fst := by
  unfold processVote at h
  dsimp only at h
  split at h
  · cases h
  split at h
  · cases h
  obtain ⟨_, hcheck, hfold⟩ := Except.bind_eq_ok.mp h
  cases Except.ok.inj hfold
  refine fun l hl hnew => (foldl_processNextVoteSlot_slot (fun slot hslot => ?_) l hl).resolve_left hnew
  simpa using (checkSlotsAreValid_sublist hcheck).subset hslot

end Apply

/-! ## The check and the tower -/

/-- On slot hashes sorted newest first, `check_slots_are_valid` accepts exactly the votes whose
slots above the last vote are increasing, lie in `slot_hashes`, end in a slot recorded with the
vote's hash, and, when that slot is the newest of `slot_hashes`, end the vote; and after
`process_vote` succeeds every slot new on the tower is a slot of `slot_hashes`. -/
theorem checkSlotsAreValid_exact (s : VoteState) (voteSlots : List ℕ) (voteHash : Hash)
    (slotHashes : List (ℕ × Hash)) (hsorted : (slotHashes.map Prod.fst).Pairwise (· > ·)) :
    (s.checkSlotsAreValid voteSlots voteHash slotHashes = .ok () ↔
      ∃ top, (slotsAbove s.lastVotedSlot voteSlots).getLast? = some top ∧
        (slotsAbove s.lastVotedSlot voteSlots).Pairwise (· < ·) ∧
        (∀ slot ∈ slotsAbove s.lastVotedSlot voteSlots, slot ∈ slotHashes.map Prod.fst) ∧
        (top, voteHash) ∈ slotHashes ∧
        (slotHashes.head?.map Prod.fst = some top → voteSlots.getLast? = some top)) ∧
    ∀ (vote : Vote) (epoch : ℕ) (featureSet : Option FeatureSet) (s' : VoteState),
      s.processVote vote slotHashes epoch featureSet = .ok s' →
        ∀ l ∈ s'.votes, l.slot ∉ s.votes.map (·.slot) → l.slot ∈ slotHashes.map Prod.fst :=
  ⟨checkSlotsAreValid_eq_ok_iff hsorted, fun _ _ _ _ h => processVote_new_slot_mem h⟩

theorem checkSlotsAreValid_exact_default :
    ([(5, 7), (3, 1)].map Prod.fst).Pairwise (· > ·) ∧
      ((default.checkSlotsAreValid [5] 7 [(5, 7), (3, 1)] = .ok () ↔
        ∃ top, (slotsAbove default.lastVotedSlot [5]).getLast? = some top ∧
          (slotsAbove default.lastVotedSlot [5]).Pairwise (· < ·) ∧
          (∀ slot ∈ slotsAbove default.lastVotedSlot [5], slot ∈ [(5, 7), (3, 1)].map Prod.fst) ∧
          (top, 7) ∈ [(5, 7), (3, 1)] ∧
          ([(5, 7), (3, 1)].head?.map Prod.fst = some top → [5].getLast? = some top)) ∧
      ∀ (vote : Vote) (epoch : ℕ) (featureSet : Option FeatureSet) (s' : VoteState),
        default.processVote vote [(5, 7), (3, 1)] epoch featureSet = .ok s' →
          ∀ l ∈ s'.votes, l.slot ∉ default.votes.map (·.slot) →
            l.slot ∈ [(5, 7), (3, 1)].map Prod.fst) :=
  ⟨by decide, checkSlotsAreValid_exact default [5] 7 [(5, 7), (3, 1)] (by decide)⟩

/-- After a last vote for slot 4, a vote for `[5, 3]` against the slot hashes `[(5, 7)]`: its
only slot above the last vote is 5, recorded with the vote's hash, yet the walk runs out of
hashes at 5 before skipping 3, and the check fails. -/
theorem checkSlotsAreValid_rejects_old_slot_after_newest :
    slotsAbove ({ default with votes := [⟨4, 1⟩] } : VoteState).lastVotedSlot [5, 3] = [5] ∧
      (5, 7) ∈ [((5 : ℕ), (7 : Hash))] ∧
      ({ default with votes := [⟨4, 1⟩] } : VoteState).checkSlotsAreValid [5, 3] 7 [(5, 7)] =
        .error .slotsMismatch := by
  decide

end VoteState

end Solana.VoteProgram
