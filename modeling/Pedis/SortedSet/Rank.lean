import Pedis.SortedSet.Ops

/-!
# Ranges by rank: `fetch_by_rank`

Both overloads of `sset_lsa::fetch_by_rank(begin, end, entries)` normalise the two ranks, then
walk `_list` appending the entries whose rank lies in `begin..end`; they differ only in what they
append (the entry, or its key and score), so they are one definition `fetchByRankWith` over an
`emit` function.

The ranks are `long`s; they are modelled as `Int`, and no addition here can overflow (a negative
`long` plus the size). `end` is normalised by a loop, `while (end < 0) end += size`, so an `end`
below `-size` wraps around: its result is `rankEnd`, `end` modulo the size. `rank_out_of_range`
then refuses every normalised `end ≤ 0`, so `end = 0` selects nothing
(`fetchByRank_of_rankEnd_eq_zero`). Everywhere else `fetch_by_rank` returns the members of ranks
`begin..end`, as `rankRange` says (`fetch_by_rank_selects_ranks`).
-/

namespace Pedis.SortedSet

namespace SsetLsa

variable {Score : Type} {β : Type}

/-! ## The code -/

/-- `rank_out_of_range(begin, end)`. -/
def rankOutOfRange (s : SsetLsa Score) (begin end' : Int) : Bool :=
  begin > s.list.length || end' ≤ 0

/-- `while (end < 0) { end += size; }`, for at most `fuel` passes. -/
def addSizeWhileNeg (size : Int) : Nat → Int → Int
  | 0, end' => end'
  | fuel + 1, end' => if end' < 0 then addSizeWhileNeg size fuel (end' + size) else end'

/-- The `for` loop of `fetch_by_rank`: `rank` counts the entries passed; ranks below `begin` are
    skipped and the loop returns at the first rank past `end`. -/
def fetchByRankLoop (emit : Ptr → β) (begin end' : Int) : Int → List Ptr → List β
  | _, [] => []
  | rank, e :: rest =>
    if rank < begin then fetchByRankLoop emit begin end' (rank + 1) rest
    else if rank > end' then []
    else emit e :: fetchByRankLoop emit begin end' (rank + 1) rest

/-- `fetch_by_rank(begin, end, entries)`, appending `emit e` for each entry selected. The `while`
    loop needs at most `|end|` passes, since `size ≥ 1`. -/
def fetchByRankWith (emit : Ptr → β) (s : SsetLsa Score) (begin end' : Int) (entries : List β) :
    List β :=
  if s.list.isEmpty then entries
  else
    let size : Int := s.list.length
    let begin := if begin < 0 then begin + size else begin
    let end' := addSizeWhileNeg size end'.natAbs end'
    let begin := if begin < 0 then 0 else begin
    if begin > end' then entries
    else
      let begin := if begin > size then size else begin
      if s.rankOutOfRange begin end' then entries
      else entries ++ fetchByRankLoop emit begin end' 0 s.list

/-- `fetch_by_rank(begin, end, std::vector<std::pair<bytes, double>>&)`. -/
def fetchByRank (s : SsetLsa Score) (begin end' : Int) (entries : List (Bytes × Score)) :
    List (Bytes × Score) :=
  fetchByRankWith (fun e => (s.keyOf e, s.scoreOf e)) s begin end' entries

/-- `fetch_by_rank(begin, end, std::vector<const sset_entry*>&)`. -/
def fetchByRankEntries (s : SsetLsa Score) (begin end' : Int) (entries : List Ptr) : List Ptr :=
  fetchByRankWith id s begin end' entries

/-! ## What it selects -/

/-- The rank `end` stands for once negative ranks count from the end, wrapping around as the
    `while` loop does. -/
def rankEnd (size : Nat) (end' : Int) : Int := if end' < 0 then end' % size else end'

/-- The members of ranks `b..e` of `l`, `b = max 0 begin` and `e = min (size - 1) end` once
    negative ranks are normalised: nothing when `e < b`. -/
def rankRange (l : List Ptr) (begin end' : Int) : List Ptr :=
  let b := max 0 (if begin < 0 then begin + l.length else begin)
  let e := min (l.length - 1 : Int) (rankEnd l.length end')
  if e < b then [] else (l.drop b.toNat).take (e - b + 1).toNat

/-- The `while` loop, given enough passes, computes `rankEnd`. -/
theorem addSizeWhileNeg_eq {size : Nat} (hsize : 0 < size) :
    ∀ (fuel : Nat) (end' : Int), -end' ≤ fuel → addSizeWhileNeg size fuel end' = rankEnd size end'
  | 0, end', h => by simp [addSizeWhileNeg, rankEnd, show ¬ end' < 0 by omega]
  | fuel + 1, end', h => by
    unfold addSizeWhileNeg
    split_ifs with hneg
    · rw [addSizeWhileNeg_eq hsize fuel _ (by omega), rankEnd, rankEnd, if_pos hneg]
      split_ifs with hneg'
      · exact Int.add_emod_self
      · rw [← Int.add_emod_self]; exact (Int.emod_eq_of_lt (by omega) (by omega)).symm
    · rw [rankEnd, if_neg hneg]

/-- From rank `begin` on, the loop emits the first `end - begin + 1` entries. -/
theorem fetchByRankLoop_of_le (emit : Ptr → β) (begin end' : Int) :
    ∀ (rank : Int) (l : List Ptr), begin ≤ rank →
      fetchByRankLoop emit begin end' rank l = (l.take (end' - rank + 1).toNat).map emit
  | _, [], _ => by simp [fetchByRankLoop]
  | rank, e :: rest, h => by
    unfold fetchByRankLoop
    rw [if_neg (not_lt.2 h)]
    split_ifs with hend
    · rw [show (end' - rank + 1).toNat = 0 by omega]; rfl
    · rw [fetchByRankLoop_of_le emit begin end' (rank + 1) rest (by omega),
        show (end' - rank + 1).toNat = (end' - (rank + 1) + 1).toNat + 1 by omega]
      rfl

/-- Below rank `begin`, the loop skips entries. -/
theorem fetchByRankLoop_of_ge (emit : Ptr → β) (begin end' : Int) :
    ∀ (rank : Int) (l : List Ptr), rank ≤ begin →
      fetchByRankLoop emit begin end' rank l =
        ((l.drop (begin - rank).toNat).take (end' - begin + 1).toNat).map emit
  | rank, [], _ => by simp [fetchByRankLoop]
  | rank, e :: rest, h => by
    by_cases hlt : rank < begin
    · unfold fetchByRankLoop
      rw [if_pos hlt, fetchByRankLoop_of_ge emit begin end' (rank + 1) rest (by omega),
        show (begin - rank).toNat = (begin - (rank + 1)).toNat + 1 by omega]
      rfl
    · rw [fetchByRankLoop_of_le emit begin end' rank _ (by omega),
        show (begin - rank).toNat = 0 by omega, show rank = begin by omega]
      rfl

/-- Wherever the normalised `end` is not `0`, `fetch_by_rank` appends the members of ranks
    `begin..end`. -/
theorem fetchByRankWith_eq (emit : Ptr → β) (s : SsetLsa Score) (begin end' : Int)
    (entries : List β) (hend : rankEnd s.list.length end' ≠ 0) :
    s.fetchByRankWith emit begin end' entries = entries ++ (rankRange s.list begin end').map emit := by
  by_cases hnil : s.list = []
  · simp [fetchByRankWith, rankRange, hnil]
  have hn : 0 < s.list.length := List.length_pos.2 hnil
  simp only [fetchByRankWith, List.isEmpty_iff, if_neg hnil, rankOutOfRange, rankRange,
    addSizeWhileNeg_eq hn end'.natAbs end' (by omega)]
  generalize rankEnd s.list.length end' = e at hend ⊢
  generalize (if begin < 0 then begin + s.list.length else begin) = b
  rw [show (if b < 0 then 0 else b) = max 0 b by split_ifs <;> omega]
  have hm : 0 ≤ max 0 b := le_max_left 0 b
  generalize max 0 b = m at hm ⊢
  by_cases hgt : m > e
  · rw [if_pos hgt, if_pos (by omega), List.map_nil, List.append_nil]
  -- past the early returns `begin` is clamped to `size`, and `end > 0`
  rw [if_neg hgt, show (if m > (s.list.length : Int) then (s.list.length : Int) else m) =
      min m s.list.length by split_ifs <;> omega,
    if_neg (by simp only [Bool.or_eq_true, decide_eq_true_eq, not_or]; omega),
    fetchByRankLoop_of_ge emit _ _ 0 _ (by omega)]
  congr 1
  split_ifs with hlt
  · rw [List.drop_eq_nil_of_le (by omega), List.take_nil]
  · rw [min_eq_left (by omega : m ≤ s.list.length), Int.sub_zero]
    congr 1
    -- past the last rank both take the rest of the list
    by_cases he : e ≤ s.list.length - 1
    · rw [min_eq_right he]
    · rw [List.take_of_length_le (by rw [List.length_drop]; omega),
        List.take_of_length_le (by rw [List.length_drop]; omega)]

/-- With `end` normalised to `0` (`end = 0`, or a multiple of the size below it),
    `rank_out_of_range` refuses the range and `fetch_by_rank` appends nothing. -/
theorem fetchByRank_of_rankEnd_eq_zero (emit : Ptr → β) (s : SsetLsa Score) (begin end' : Int)
    (entries : List β) (hend : rankEnd s.list.length end' = 0) :
    s.fetchByRankWith emit begin end' entries = entries := by
  by_cases hnil : s.list = []
  · simp [fetchByRankWith, hnil]
  simp only [fetchByRankWith, List.isEmpty_iff, if_neg hnil, rankOutOfRange,
    addSizeWhileNeg_eq (List.length_pos.2 hnil) end'.natAbs end' (by omega), hend, le_refl,
    decide_True, Bool.or_true, ite_true, ite_self]

/-- In the set `{a ↦ 1, b ↦ 2, c ↦ 3}`, `fetch_by_rank(0, 0)` returns nothing: `end = 0` is
    refused. -/
theorem fetchByRank_end_zero_at_abc :
    (fun s : SsetLsa Int => rankEnd s.size 0 = 0 ∧ s.fetchByRankEntries 0 0 [] = [])
      ((empty (fun _ => ⟨[], 0⟩) 0).insertIfNotExists
        ⟨[([97], 1), ([98], 2), ([99], 3)], by decide⟩).1 :=
  ⟨by decide, fetchByRank_of_rankEnd_eq_zero id _ 0 0 [] (by decide)⟩

/-- **`fetch_by_rank`.** Called with an empty vector, both overloads return the members of ranks
    `begin..end` of `_list` (the entries, resp. their keys and scores), negative ranks counting
    from the end and an `end` below `-size` wrapping around, wherever the normalised `end` is
    not `0`. -/
theorem fetch_by_rank_selects_ranks (s : SsetLsa Score) (begin end' : Int)
    (hend : rankEnd s.size end' ≠ 0) :
    s.fetchByRankEntries begin end' [] = rankRange s.list begin end' ∧
      s.fetchByRank begin end' [] =
        (rankRange s.list begin end').map fun e => (s.keyOf e, s.scoreOf e) :=
  ⟨by simpa using fetchByRankWith_eq id s begin end' [] hend,
    fetchByRankWith_eq _ s begin end' [] hend⟩

/-- In the set `{a ↦ 1, b ↦ 2, c ↦ 3}`, `fetch_by_rank(0, -4)` wraps `end` around to `2`. -/
theorem fetch_by_rank_selects_ranks_at_abc :
    (fun s : SsetLsa Int => rankEnd s.size (-4) ≠ 0 ∧
      (s.fetchByRankEntries 0 (-4) [] = rankRange s.list 0 (-4) ∧
        s.fetchByRank 0 (-4) [] = (rankRange s.list 0 (-4)).map fun e => (s.keyOf e, s.scoreOf e)))
      ((empty (fun _ => ⟨[], 0⟩) 0).insertIfNotExists
        ⟨[([97], 1), ([98], 2), ([99], 3)], by decide⟩).1 :=
  ⟨by decide, fetch_by_rank_selects_ranks _ 0 (-4) (by decide)⟩

/-- In the set `{a ↦ 1, b ↦ 2, c ↦ 3}`, `fetch_by_rank(0, -4)` returns all three members, where
    `end + size = -1` would select none. -/
theorem fetch_by_rank_end_below_minus_size :
    ((empty (fun _ => ⟨[], 0⟩) 0 : SsetLsa Int).insertIfNotExists
        ⟨[([97], 1), ([98], 2), ([99], 3)], by decide⟩).1.fetchByRankEntries 0 (-4) [] =
      [0, 1, 2] := by
  decide

end SsetLsa

end Pedis.SortedSet
