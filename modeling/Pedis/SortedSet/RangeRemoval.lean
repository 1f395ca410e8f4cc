import Pedis.SortedSet.ScoreList
import Pedis.SortedSet.Rank

/-!
# Removing a range: `erase` of what `fetch_by_score` and `fetch_by_rank` return

A range deletion on the sorted set is two calls: a range query fills a vector with entries, and
`erase(std::vector<const sset_entry*>&)` unlinks each from both containers and disposes it.
`erase` is defined only for entries linked in both containers and listed once
(`eraseEntries_spec`). This module shows that what the range queries return always qualifies,
and says what the pair removes from the member map:

- `fetch_by_score(min, max, entries, 0)` then `erase`: exactly the members whose score lies in
  `[min, max]` (`erase_fetch_by_score_removes_range`);
- `fetch_by_rank(begin, end, entries)` then `erase`: exactly the members whose rank lies between
  the normalised bounds (`erase_fetch_by_rank_removes_ranks`).
-/

namespace Pedis.SortedSet

namespace SsetLsa

variable {Score : Type} [LinearOrder Score] {s : SsetLsa Score}

/-! ## §1 By score -/

/-- `fetch_by_score(min, max, entries, 0)` with an empty `entries`, on a non-decreasing `_list`,
    returns the members of score in `[min, max]`, in list order. -/
theorem fetchByScore_zero (min max : Score) (h : s.Inv) :
    s.fetchByScore min max [] 0 =
      some (s.list.filter fun p => min ≤ s.scoreOf p ∧ s.scoreOf p ≤ max) := by
  by_cases hnil : s.list = []
  · simp [fetchByScore, hnil]
  obtain ⟨out, hout, hnone⟩ := scoreOutOfRange_spec min max h.list_sorted hnil
  rw [fetchByScore, if_neg (by simpa using hnil), hout, Option.map_some']
  cases out
  · rw [if_neg Bool.false_ne_true, if_pos rfl, fetchByScoreLoop_eq min max _ [] _ h.list_sorted
      (List.length_pos.2 hnil), List.nil_append, List.length_nil, Nat.sub_zero,
      List.take_of_length_le (List.length_filter_le _ _)]
  · rw [if_pos rfl, hnone rfl]

/-- Entries taken from `_list` in its order are linked in both containers, each once, so
    `erase(entries)` is defined on them: it keeps the invariant, and a key leaves the member map
    exactly when one of the entries carries it. -/
theorem eraseEntries_sublist (h : s.Inv) {ps : List Ptr} (hsub : ps.Sublist s.list) :
    ∃ t, s.eraseEntries ps = some (t, ps.length) ∧ t.Inv ∧ t.size + ps.length = s.size ∧
      ∀ k v, t.score k = some v ↔ s.score k = some v ∧ ∀ p ∈ ps, s.keyOf p ≠ k := by
  obtain ⟨t, ht, hinv, hscore, hsize⟩ := eraseEntries_spec h ps (h.list_nodup.sublist hsub)
    fun p hp => h.mem_dict_iff.2 (hsub.subset hp)
  refine ⟨t, ht, hinv, hsize, fun k v => ?_⟩
  rw [hscore, ScoreMap.eraseAll]
  by_cases hk : k ∈ ps.map s.keyOf
  · obtain ⟨p, hp, rfl⟩ := List.mem_map.1 hk
    simp only [if_pos hk, reduceCtorEq, false_iff, not_and, not_forall, not_not]
    exact fun _ => ⟨p, hp, rfl⟩
  · simp only [if_neg hk, iff_self_and]
    exact fun _ p hp hpk => hk (List.mem_map.2 ⟨p, hp, hpk⟩)

/-- **Removing a score range.** `erase(entries)` of what `fetch_by_score(min, max, entries, 0)`
    returns from an empty vector is defined, keeps the invariant, and removes from the member map
    exactly the members whose score lies in `[min, max]`; it returns how many it removed. -/
theorem erase_fetch_by_score_removes_range (h : s.Inv) (min max : Score) :
    ∃ ps t, s.fetchByScore min max [] 0 = some ps ∧ s.eraseEntries ps = some (t, ps.length) ∧
      t.Inv ∧ t.size + ps.length = s.size ∧
      ∀ k v, t.score k = some v ↔ s.score k = some v ∧ ¬ (min ≤ v ∧ v ≤ max) := by
  obtain ⟨t, ht, hinv, hsize, hscore⟩ := eraseEntries_sublist h (List.filter_sublist s.list)
  refine ⟨_, t, fetchByScore_zero min max h, ht, hinv, hsize, fun k v => ?_⟩
  rw [hscore, and_congr_right_iff]
  intro hkv
  -- the member `k` is fetched exactly when its score is in range
  obtain ⟨q, hq, rfl, rfl⟩ := (score_eq_some_iff h).1 hkv
  constructor
  · intro hne hin
    exact hne q (List.mem_filter.2 ⟨h.mem_dict_iff.1 hq, decide_eq_true hin⟩) rfl
  · intro hout p hp hpk
    have hpq := h.key_inj (h.mem_dict_iff.2 (List.mem_filter.1 hp).1) hq hpk
    exact hout (hpq ▸ of_decide_eq_true (List.mem_filter.1 hp).2)

/-- In `{a ↦ 1, b ↦ 2, c ↦ 2}`, removing the score range `[2, 3]` leaves `{a ↦ 1}`. -/
theorem erase_fetch_by_score_removes_range_in_abc :
    (fun s : SsetLsa Int => s.Inv ∧ ∃ ps t, s.fetchByScore 2 3 [] 0 = some ps ∧
      s.eraseEntries ps = some (t, ps.length) ∧ t.Inv ∧ t.size + ps.length = s.size ∧
      ∀ k v, t.score k = some v ↔ s.score k = some v ∧ ¬ (2 ≤ v ∧ v ≤ 3))
      ((empty (fun _ => ⟨[], 0⟩) 0).insertIfNotExists
        ⟨[([97], 1), ([98], 2), ([99], 2)], by decide⟩).1 :=
  ⟨(insertIfNotExists_spec (inv_empty _ _) _).1,
    erase_fetch_by_score_removes_range (insertIfNotExists_spec (inv_empty _ _) _).1 2 3⟩

/-! ## §2 By rank -/

/-- The first rank `fetch_by_rank(begin, end)` selects: `begin`, counted from the end when
    negative, and at least `0`. -/
def rankFirst (size : Nat) (begin : Int) : Int := max 0 (if begin < 0 then begin + size else begin)

/-- The last rank `fetch_by_rank(begin, end)` selects: `end` normalised as `rankEnd`, at most
    `size - 1`. -/
def rankLast (size : Nat) (end' : Int) : Int := min (size - 1 : Int) (rankEnd size end')

theorem rankRange_eq (l : List Ptr) (begin end' : Int) :
    rankRange l begin end' =
      if rankLast l.length end' < rankFirst l.length begin then []
      else (l.drop (rankFirst l.length begin).toNat).take
        (rankLast l.length end' - rankFirst l.length begin + 1).toNat := rfl

/-- In a list without repetition, the element at position `r` lies in the `n` positions from `b`
    exactly when `r` does. -/
theorem mem_take_drop_iff {l : List Ptr} (hl : l.Nodup) {q : Ptr} {r : Nat} (hr : l[r]? = some q)
    (b n : Nat) : q ∈ (l.drop b).take n ↔ b ≤ r ∧ r < b + n := by
  constructor
  · intro hq
    obtain ⟨i, hi⟩ := List.mem_iff_getElem?.1 hq
    rw [List.getElem?_take] at hi
    by_cases hin : i < n
    · rw [if_pos hin, List.getElem?_drop] at hi
      obtain ⟨hbi, -⟩ := List.getElem?_eq_some_iff.1 hi
      have := List.getElem?_inj hbi hl (hi.trans hr.symm)
      omega
    · rw [if_neg hin] at hi
      cases hi
  · rintro ⟨hbr, hrn⟩
    refine List.mem_iff_getElem?.2 ⟨r - b, ?_⟩
    rw [List.getElem?_take_of_lt (by omega), List.getElem?_drop, Nat.add_sub_cancel' hbr, hr]

theorem rankRange_sublist (l : List Ptr) (begin end' : Int) : (rankRange l begin end').Sublist l := by
  rw [rankRange_eq]
  split_ifs
  · exact List.nil_sublist _
  · exact (List.take_sublist _ _).trans (List.drop_sublist _ _)

/-- In a list without repetition, the element at position `r` is in the rank range exactly when
    `r` lies between the normalised bounds. -/
theorem mem_rankRange_iff {l : List Ptr} (hl : l.Nodup) {q : Ptr} {r : Nat} (hr : l[r]? = some q)
    (begin end' : Int) : q ∈ rankRange l begin end' ↔
      rankFirst l.length begin ≤ r ∧ (r : Int) ≤ rankLast l.length end' := by
  rw [rankRange_eq]
  have : 0 ≤ rankFirst l.length begin := le_max_left _ _
  split_ifs with hlt
  · exact iff_of_false (List.not_mem_nil q) (by omega)
  · rw [mem_take_drop_iff hl hr]
    omega

/-- **Removing a rank range.** Wherever `end` does not normalise to `0`, `erase(entries)` of what
    `fetch_by_rank(begin, end, entries)` returns from an empty vector is defined, keeps the
    invariant, and removes from the member map exactly the members whose `rank` lies between
    the normalised bounds; it returns how many it removed. -/
theorem erase_fetch_by_rank_removes_ranks (h : s.Inv) (begin end' : Int)
    (hend : rankEnd s.size end' ≠ 0) :
    ∃ t, s.eraseEntries (s.fetchByRankEntries begin end' []) =
        some (t, (s.fetchByRankEntries begin end' []).length) ∧
      t.Inv ∧ t.size + (s.fetchByRankEntries begin end' []).length = s.size ∧
      ∀ k v, t.score k = some v ↔ s.score k = some v ∧
        ∀ r, s.rank k = some (some r) →
          ¬ (rankFirst s.size begin ≤ r ∧ (r : Int) ≤ rankLast s.size end') := by
  have hf : s.fetchByRankEntries begin end' [] = rankRange s.list begin end' := by
    simpa using fetchByRankWith_eq id s begin end' [] hend
  rw [hf]
  obtain ⟨t, ht, hinv, hsize, hscore⟩ := eraseEntries_sublist h (rankRange_sublist _ _ _)
  refine ⟨t, ht, hinv, hsize, fun k v => ?_⟩
  rw [hscore, and_congr_right_iff]
  intro hkv
  obtain ⟨q, hq, rfl, -⟩ := (score_eq_some_iff h).1 hkv
  -- the entry `q` of the key is selected exactly when its rank, its position in `_list`, is
  obtain ⟨r, hrank, hr, -⟩ := rank_of_find h ((find_eq_some_iff h).2 ⟨hq, rfl⟩)
  have hmem := mem_rankRange_iff h.list_nodup hr begin end'
  constructor
  · intro hne r' hr' hin
    obtain rfl := Option.some_inj.1 (Option.some_inj.1 (hr'.symm.trans hrank))
    exact hne q (hmem.2 hin) rfl
  · intro hout p hp hpk
    have hpq := h.key_inj (h.mem_dict_iff.2 ((rankRange_sublist _ _ _).subset hp)) hq hpk
    exact hout r hrank (hmem.1 (hpq ▸ hp))

/-- In `{a ↦ 1, b ↦ 2, c ↦ 3}`, removing the ranks `-2..-1` leaves `{a ↦ 1}`. -/
theorem erase_fetch_by_rank_removes_ranks_in_abc :
    (fun s : SsetLsa Int => s.Inv ∧ rankEnd s.size (-1) ≠ 0 ∧
      ∃ t, s.eraseEntries (s.fetchByRankEntries (-2) (-1) []) =
          some (t, (s.fetchByRankEntries (-2) (-1) []).length) ∧
        t.Inv ∧ t.size + (s.fetchByRankEntries (-2) (-1) []).length = s.size ∧
        ∀ k v, t.score k = some v ↔ s.score k = some v ∧
          ∀ r, s.rank k = some (some r) →
            ¬ (rankFirst s.size (-2) ≤ r ∧ (r : Int) ≤ rankLast s.size (-1)))
      ((empty (fun _ => ⟨[], 0⟩) 0).insertIfNotExists
        ⟨[([97], 1), ([98], 2), ([99], 3)], by decide⟩).1 :=
  ⟨(insertIfNotExists_spec (inv_empty _ _) _).1, by decide,
    erase_fetch_by_rank_removes_ranks (insertIfNotExists_spec (inv_empty _ _) _).1 (-2) (-1)
      (by decide)⟩

end SsetLsa

end Pedis.SortedSet
