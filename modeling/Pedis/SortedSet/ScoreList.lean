import Pedis.SortedSet.Refinement

/-!
# The score list: ordered insertion, queries by score, rank

`_list` holds the members in non-decreasing score order (`Inv.list_sorted`). This module says
what the code that relies on that order computes:

- `insert_ordered` links an entry exactly where the spec's one-line rule puts it
  (`insertBeforeFirstGreater`), and keeps the order;
- `fetch_by_score` and `count_by_score` see exactly the members in `[min, max]`: their two early
  exits, `score_out_of_range` on the end scores and the return at the first score above `max`,
  drop nothing because the list is sorted;
- `rank` is the position in `_list`, bounded by the counts of strictly smaller and of smaller
  or equal scores, hence strictly monotone in the score.

Each loop gets one lemma over any rest of the list (`fetchByScoreLoop_eq`,
`countByScoreLoop_eq`, `rankLoop_bounds`), proved by induction on that rest.
-/

namespace Pedis.SortedSet

/-! ## Non-decreasing lists of scores -/

section Sorted

variable {α β : Type} [LinearOrder β] (f : α → β)

/-- The spec's insertion (§4.6): `a` immediately before the first element whose score is strictly
    greater than its own, or last when there is none. -/
def insertBeforeFirstGreater (a : α) (l : List α) : List α :=
  l.take (l.findIdx fun b => f a < f b) ++ a :: l.drop (l.findIdx fun b => f a < f b)

theorem orderedInsert_eq_insertBeforeFirstGreater (a : α) :
    ∀ l : List α, l.orderedInsert (fun p q => f p < f q) a = insertBeforeFirstGreater f a l
  | [] => rfl
  | b :: l => by
    by_cases h : f a < f b
    · simp [insertBeforeFirstGreater, List.findIdx_cons, h]
    · simp [insertBeforeFirstGreater, List.findIdx_cons, h,
        orderedInsert_eq_insertBeforeFirstGreater a l]

theorem sublist_insertBeforeFirstGreater (a : α) (l : List α) :
    l.Sublist (insertBeforeFirstGreater f a l) := by
  conv_lhs => rw [← List.take_append_drop (l.findIdx fun b => f a < f b) l]
  exact (List.sublist_cons_self a _).append_left _

variable {f}

/-- Every score of a non-decreasing list lies between its first and its last. -/
theorem le_of_mem_of_head?_of_getLast? {l : List α} (hs : l.Pairwise fun p q => f p ≤ f q)
    {first last : α} (hf : l.head? = some first) (hl : l.getLast? = some last) :
    ∀ b ∈ l, f first ≤ f b ∧ f b ≤ f last := by
  obtain ⟨t, rfl⟩ := List.head?_eq_some_iff.1 hf
  obtain ⟨ys, hys⟩ := List.getLast?_eq_some_iff.1 hl
  have hs' := hys ▸ hs
  rw [List.pairwise_append] at hs'
  rw [List.pairwise_cons] at hs
  intro b hb
  refine ⟨(List.mem_cons.1 hb).elim (fun h => h ▸ le_rfl) (hs.1 b), ?_⟩
  rcases List.mem_append.1 (hys ▸ hb) with hb | hb
  · exact hs'.2.2 b hb last (List.mem_singleton_self last)
  · rw [List.mem_singleton.1 hb]

/-- After a score above `max`, no score of a non-decreasing list lies in `[min, max]`. -/
theorem not_mem_range_of_max_lt {a : α} {l : List α} (hs : (a :: l).Pairwise fun p q => f p ≤ f q)
    (min : β) {max : β} (hmax : max < f a) : ∀ b ∈ a :: l, ¬ (min ≤ f b ∧ f b ≤ max) := by
  intro b hb ⟨_, hb'⟩
  have : f a ≤ f b := (List.mem_cons.1 hb).elim (fun h => h ▸ le_rfl) ((List.pairwise_cons.1 hs).1 b)
  exact absurd (hmax.trans_le this) (not_lt.2 hb')

end Sorted

namespace SsetLsa

variable {Score : Type} [LinearOrder Score] {s : SsetLsa Score}

/-! ## `insert_ordered` -/

/-- `insert_ordered(e)` on a non-decreasing `_list` succeeds and links `e` where the spec puts it:
    the result is the old list with `e` added, non-decreasing, with the old elements in their
    order. -/
theorem insert_ordered_before_first_greater (s : SsetLsa Score) (e : Ptr)
    (hs : s.list.Pairwise fun p q => s.scoreOf p ≤ s.scoreOf q) :
    (s.insertOrdered e).2 = true ∧
      (s.insertOrdered e).1.list = insertBeforeFirstGreater s.scoreOf e s.list ∧
      (s.insertOrdered e).1.list.Perm (e :: s.list) ∧
      (s.insertOrdered e).1.list.Pairwise
        (fun p q => (s.insertOrdered e).1.scoreOf p ≤ (s.insertOrdered e).1.scoreOf q) ∧
      s.list.Sublist (s.insertOrdered e).1.list := by
  rw [insertOrdered_eq]
  refine ⟨rfl, orderedInsert_eq_insertBeforeFirstGreater _ e _, List.perm_orderedInsert _ e _,
    pairwise_le_orderedInsert _ e _ hs, ?_⟩
  rw [orderedInsert_eq_insertBeforeFirstGreater]
  exact sublist_insertBeforeFirstGreater _ e _

/-- Entry `5` of score `1` goes after the entry of equal score `1` and before the one of
    score `2`. -/
theorem insert_ordered_before_first_greater_at_012 :
    (fun (s : SsetLsa Nat) (e : Ptr) =>
      (s.list.Pairwise fun p q => s.scoreOf p ≤ s.scoreOf q) ∧
      (s.insertOrdered e).2 = true ∧
      (s.insertOrdered e).1.list = insertBeforeFirstGreater s.scoreOf e s.list ∧
      (s.insertOrdered e).1.list.Perm (e :: s.list) ∧
      (s.insertOrdered e).1.list.Pairwise
        (fun p q => (s.insertOrdered e).1.scoreOf p ≤ (s.insertOrdered e).1.scoreOf q) ∧
      s.list.Sublist (s.insertOrdered e).1.list)
      ⟨fun p => ⟨[], if p = 5 then 1 else p⟩, 6, [], [0, 1, 2], 0, fun _ => 0⟩ 5 :=
  ⟨by decide, insert_ordered_before_first_greater _ 5 (by decide)⟩

/-! ## `fetch_by_score`, `count_by_score` -/

section ByScore

variable (min max : Score)

/-- The loop of `fetch_by_score` over a non-decreasing rest of the list pushes back the members
    in `[min, max]`, in list order, until `entries` holds `limit`. -/
theorem fetchByScoreLoop_eq (limit : Nat) :
    ∀ (entries l : List Ptr), l.Pairwise (fun p q => s.scoreOf p ≤ s.scoreOf q) →
      entries.length < limit →
      s.fetchByScoreLoop min max limit entries l =
        entries ++ (l.filter fun p => min ≤ s.scoreOf p ∧ s.scoreOf p ≤ max).take
          (limit - entries.length)
  | entries, [], _, _ => by simp [fetchByScoreLoop]
  | entries, it :: rest, hs, hlt => by
    rw [fetchByScoreLoop]
    by_cases hmin : s.scoreOf it < min
    · rw [if_pos hmin, fetchByScoreLoop_eq limit entries rest (List.pairwise_cons.1 hs).2 hlt,
        List.filter_cons_of_neg (by simp [not_le.2 hmin])]
    by_cases hmax : max < s.scoreOf it
    · -- the return at the first score above `max`
      have hnone := not_mem_range_of_max_lt hs min hmax
      rw [if_neg hmin, if_pos hmax, List.filter_eq_nil_iff.2 fun b hb h => hnone b hb (of_decide_eq_true h),
        List.take_nil, List.append_nil]
    rw [if_neg hmin, if_neg hmax,
      List.filter_cons_of_pos (by simp [not_lt.1 hmin, not_lt.1 hmax])]
    obtain ⟨k, hk⟩ : ∃ k, limit - entries.length = k + 1 := ⟨limit - entries.length - 1, by omega⟩
    rw [hk, List.take_succ_cons, List.length_append, List.length_singleton]
    split_ifs with hfull
    · -- `entries.size() >= limit`: the `break`
      simp [show k = 0 by omega]
    · rw [fetchByScoreLoop_eq limit _ rest (List.pairwise_cons.1 hs).2 (by simp; omega)]
      simp [show limit - (entries.length + 1) = k by omega]

/-- The loop of `count_by_score` over a non-decreasing rest of the list counts its members in
    `[min, max]`. -/
theorem countByScoreLoop_eq :
    ∀ (count : Nat) (l : List Ptr), l.Pairwise (fun p q => s.scoreOf p ≤ s.scoreOf q) →
      s.countByScoreLoop min max count l =
        count + l.countP fun p => min ≤ s.scoreOf p ∧ s.scoreOf p ≤ max
  | count, [], _ => rfl
  | count, it :: rest, hs => by
    rw [countByScoreLoop]
    by_cases hmin : s.scoreOf it < min
    · rw [if_pos hmin, countByScoreLoop_eq count rest (List.pairwise_cons.1 hs).2]
      simp [List.countP_cons, not_le.2 hmin]
    by_cases hmax : max < s.scoreOf it
    · have hnone := not_mem_range_of_max_lt hs min hmax
      rw [if_neg hmin, if_pos hmax, List.countP_eq_zero.2 fun b hb h => hnone b hb (of_decide_eq_true h),
        Nat.add_zero]
    rw [if_neg hmin, if_neg hmax, countByScoreLoop_eq _ rest (List.pairwise_cons.1 hs).2]
    simp [List.countP_cons, not_lt.1 hmin, not_lt.1 hmax]
    omega

/-- On a non-empty non-decreasing list `score_out_of_range` is defined, and when it holds no
    member is in `[min, max]`. -/
theorem scoreOutOfRange_spec (hs : s.list.Pairwise fun p q => s.scoreOf p ≤ s.scoreOf q)
    (hne : s.list ≠ []) :
    ∃ out, s.scoreOutOfRange min max = some out ∧
      (out = true → s.list.filter (fun p => min ≤ s.scoreOf p ∧ s.scoreOf p ≤ max) = []) := by
  obtain ⟨first, hf⟩ := Option.ne_none_iff_exists'.1 (mt List.head?_eq_none_iff.1 hne)
  obtain ⟨last, hl⟩ := Option.ne_none_iff_exists'.1 (mt List.getLast?_eq_none_iff.1 hne)
  refine ⟨_, by rw [scoreOutOfRange, hf, hl], fun hout => List.filter_eq_nil_iff.2 ?_⟩
  intro b hb
  have := le_of_mem_of_head?_of_getLast? hs hf hl b hb
  simp only [Bool.or_eq_true, decide_eq_true_eq] at hout
  simp only [decide_eq_true_eq, not_and, not_le]
  rcases hout with h | h
  · exact fun h' => absurd (h'.trans this.2) (not_le.2 h)
  · exact fun _ => h.trans_le this.1

/-- `fetch_by_score(min, max, entries, limit)` with an empty `entries` returns the first `limit`
    members of score in `[min, max]` in `_list` order, all of them when `limit = 0`, and
    `count_by_score(min, max)` counts them: no early exit drops one. -/
theorem fetch_and_count_by_score (h : s.Inv) (limit : Nat) :
    s.fetchByScore min max [] limit =
        some (if limit = 0 then s.list.filter (fun p => min ≤ s.scoreOf p ∧ s.scoreOf p ≤ max)
          else (s.list.filter fun p => min ≤ s.scoreOf p ∧ s.scoreOf p ≤ max).take limit) ∧
      s.countByScore min max = some (s.list.countP fun p => min ≤ s.scoreOf p ∧ s.scoreOf p ≤ max) := by
  rcases hnil : s.list with _ | ⟨first, rest⟩
  · -- the empty set: both return at once
    have hd : s.dict = [] := List.Perm.eq_nil (hnil ▸ h.dict_perm)
    simp [fetchByScore, countByScore, hnil, hd]
  have hne : s.list ≠ [] := by simp [hnil]
  have hd : s.dict.isEmpty = false := Bool.eq_false_iff.2 fun he =>
    hne (List.Perm.eq_nil (List.isEmpty_iff.1 he ▸ h.dict_perm).symm)
  obtain ⟨out, hout, hnone⟩ := scoreOutOfRange_spec min max h.list_sorted hne
  rw [← hnil]
  refine ⟨?_, ?_⟩
  · simp only [fetchByScore, hnil, List.isEmpty_cons, Bool.false_eq_true, if_false, hout,
      Option.map_some', Option.some.injEq]
    rw [← hnil]
    cases out
    · rw [if_neg Bool.false_ne_true, fetchByScoreLoop_eq min max _ [] _ h.list_sorted
        (by split_ifs <;> simp only [hnil, List.length_nil, List.length_cons] <;> omega),
        List.nil_append, List.length_nil, Nat.sub_zero]
      split_ifs
      · exact List.take_of_length_le (List.length_filter_le _ _)
      · rfl
    · rw [if_pos rfl, hnone rfl]
      simp
  · simp only [countByScore, hd, Bool.false_eq_true, if_false, hout, Option.map_some']
    cases out
    · simp [countByScoreLoop_eq min max 0 _ h.list_sorted]
    · rw [if_pos rfl, List.countP_eq_length_filter, hnone rfl, List.length_nil]

/-- In `{a ↦ 1, b ↦ 2, c ↦ 2}`, the members of score in `[2, 3]` are those of `b` and `c`: at most
    one of them is fetched with `limit = 1`, and both are counted. -/
theorem fetch_and_count_by_score_in_abc :
    (fun s : SsetLsa Int =>
      s.fetchByScore 2 3 [] 1 =
          some (if 1 = 0 then s.list.filter (fun p => 2 ≤ s.scoreOf p ∧ s.scoreOf p ≤ 3)
            else (s.list.filter fun p => 2 ≤ s.scoreOf p ∧ s.scoreOf p ≤ 3).take 1) ∧
        s.countByScore 2 3 = some (s.list.countP fun p => 2 ≤ s.scoreOf p ∧ s.scoreOf p ≤ 3))
      ((empty (fun _ => ⟨[], 0⟩) 0).insertIfNotExists
        ⟨[([97], 1), ([98], 2), ([99], 2)], by decide⟩).1 :=
  fetch_and_count_by_score 2 3 (insertIfNotExists_spec (inv_empty _ _) _).1 1

end ByScore

/-! ## `rank` -/

theorem getElem?_of_rankLoop (lit : Ptr) :
    ∀ (l : List Ptr) (r : Nat), rankLoop lit l = some r → l[r]? = some lit
  | [], _, h => by simp [rankLoop] at h
  | i :: rest, r, h => by
    rw [rankLoop] at h
    split_ifs at h with hi
    · rw [← Option.some.inj h, hi, List.getElem?_cons_zero]
    · obtain ⟨r', hr', rfl⟩ := Option.map_eq_some'.1 h
      rw [List.getElem?_cons_succ, getElem?_of_rankLoop lit rest r' hr']

theorem rankLoop_of_mem (lit : Ptr) : ∀ l : List Ptr, lit ∈ l → ∃ r, rankLoop lit l = some r
  | [], h => absurd h (List.not_mem_nil lit)
  | i :: rest, h => by
    by_cases hi : i = lit
    · exact ⟨0, by rw [rankLoop, if_pos hi]⟩
    · obtain ⟨r, hr⟩ := rankLoop_of_mem lit rest ((List.mem_cons.1 h).resolve_left (Ne.symm hi))
      exact ⟨r + 1, by rw [rankLoop, if_neg hi, hr]; rfl⟩

/-- The loop of `rank` over a non-decreasing list stops at a position between the number of
    strictly smaller scores and the number of smaller or equal ones. -/
theorem rankLoop_bounds (sc : Ptr → Score) (lit : Ptr) :
    ∀ (l : List Ptr) (r : Nat), l.Pairwise (fun p q => sc p ≤ sc q) → rankLoop lit l = some r →
      l.countP (fun q => sc q < sc lit) ≤ r ∧ r < l.countP (fun q => sc q ≤ sc lit)
  | [], _, _, h => by simp [rankLoop] at h
  | i :: rest, r, hs, h => by
    rw [List.pairwise_cons] at hs
    rw [rankLoop] at h
    split_ifs at h with hi
    · -- `lit` is the head: the rest holds no smaller score
      subst hi
      have hnone : rest.countP (fun q => sc q < sc i) = 0 :=
        List.countP_eq_zero.2 fun q hq => by simpa using hs.1 q hq
      rw [← Option.some.inj h]
      simp only [List.countP_cons, hnone, lt_irrefl, le_refl, decide_eq_true_eq, if_false, if_true,
        Nat.le_zero, true_and, Nat.zero_lt_succ]
    · obtain ⟨r', hr', rfl⟩ := Option.map_eq_some'.1 h
      have ih := rankLoop_bounds sc lit rest r' hs.2 hr'
      have hle : sc i ≤ sc lit :=
        hs.1 lit (List.mem_iff_getElem?.2 ⟨r', getElem?_of_rankLoop lit rest r' hr'⟩)
      simp only [List.countP_cons, decide_eq_true_eq, hle, if_true]
      split_ifs <;> omega

/-- `rank(k)` of a member is defined: the position of its entry in `_list`, between the counts of
    strictly smaller and of smaller or equal scores. -/
theorem rank_of_find (h : s.Inv) {k : Bytes} {p : Ptr} (hf : s.find k = some p) :
    ∃ r, s.rank k = some (some r) ∧ s.list[r]? = some p ∧
      s.list.countP (fun q => s.scoreOf q < s.scoreOf p) ≤ r ∧
      r < s.list.countP (fun q => s.scoreOf q ≤ s.scoreOf p) := by
  have hp : p ∈ s.list := h.mem_dict_iff.1 ((find_eq_some_iff h).1 hf).1
  obtain ⟨r, hr⟩ := rankLoop_of_mem p s.list hp
  exact ⟨r, by simp [rank, hf, hr], getElem?_of_rankLoop p _ r hr,
    rankLoop_bounds s.scoreOf p _ r h.list_sorted hr⟩

/-- `rank(k)` is empty exactly for a key that is not a member; for a member it is the 0-based
    position of its entry in `_list`, at least the number of strictly smaller scores and below the
    number of smaller or equal ones; so a strictly smaller score has a strictly smaller rank. -/
theorem rank_is_list_position (h : s.Inv) :
    (∀ k, (s.rank k = some none ↔ s.score k = none) ∧
      ∀ p, s.find k = some p → ∃ r, s.rank k = some (some r) ∧ s.list[r]? = some p ∧
        s.list.countP (fun q => s.scoreOf q < s.scoreOf p) ≤ r ∧
        r < s.list.countP (fun q => s.scoreOf q ≤ s.scoreOf p)) ∧
    ∀ a b va vb ra rb, s.score a = some va → s.score b = some vb → va < vb →
      s.rank a = some (some ra) → s.rank b = some (some rb) → ra < rb := by
  refine ⟨fun k => ⟨?_, fun p => rank_of_find h⟩, ?_⟩
  · cases hf : s.find k <;> simp [rank, score, hf]
  intro a b va vb ra rb ha hb hlt hra hrb
  obtain ⟨pa, hfa, rfl⟩ := Option.map_eq_some'.1 ha
  obtain ⟨pb, hfb, rfl⟩ := Option.map_eq_some'.1 hb
  obtain ⟨ra', hra', -, -, hua⟩ := rank_of_find h hfa
  obtain ⟨rb', hrb', -, hlb, -⟩ := rank_of_find h hfb
  rw [hra] at hra'
  rw [hrb] at hrb'
  cases hra'
  cases hrb'
  calc ra < s.list.countP (fun q => s.scoreOf q ≤ s.scoreOf pa) := hua
    _ ≤ s.list.countP (fun q => s.scoreOf q < s.scoreOf pb) :=
      List.countP_mono_left fun q _ hq => by simpa using lt_of_le_of_lt (by simpa using hq) hlt
    _ ≤ rb := hlb

/-- In `{a ↦ 1, b ↦ 2}`, `rank("b")` is `1`. -/
theorem rank_is_list_position_in_ab :
    (fun s : SsetLsa Int => s.rank [98] = some (some 1) ∧
      (∀ k, (s.rank k = some none ↔ s.score k = none) ∧
        ∀ p, s.find k = some p → ∃ r, s.rank k = some (some r) ∧ s.list[r]? = some p ∧
          s.list.countP (fun q => s.scoreOf q < s.scoreOf p) ≤ r ∧
          r < s.list.countP (fun q => s.scoreOf q ≤ s.scoreOf p)) ∧
      ∀ a b va vb ra rb, s.score a = some va → s.score b = some vb → va < vb →
        s.rank a = some (some ra) → s.rank b = some (some rb) → ra < rb)
      ((empty (fun _ => ⟨[], 0⟩) 0).insertIfNotExists ⟨[([97], 1), ([98], 2)], by decide⟩).1 :=
  ⟨by decide, rank_is_list_position (insertIfNotExists_spec (inv_empty _ _) _).1⟩

end SsetLsa

end Pedis.SortedSet
