import Pedis.Table.Block

/-!
# The loops of `block_reader` and what its calls read

Two halves.

**The loops stop by their own tests, whatever the bytes.** A `parse_next_key()` that decodes an
entry moves the end of the value forward, inside the block (`parseNextKey_progress`): a header
takes at least three bytes. So the linear scan of `seek` and the loop of `seek_to_last` pass at
most once per byte, and the binary search of `seek` narrows `left..right` at every step. The fuel
the model gives each loop is therefore never what stops it (`seekScan_fuel`,
`seekToLastLoop_fuel`, `seekSearch_fuel`): one more pass changes nothing. This holds of every
reader, whatever its limit.

**What the calls of a real reader read.** The constructor leaves the limit `_restarts_offset` at
`0` (`Pedis.Table.BlockReader`), so in every state a reader reaches, `parse_next_key()` stops at
once (`parseNextKey_of_zero`). Each call then reads one restart point, at an index below
`num_restarts`: `seek_to_first()` index `0`, `seek_to_last()` index `num_restarts - 1`,
`seek(t)` index `num_restarts / 2`, which the binary search reads first, or `0` when it does not
run. With the restart array inside the buffer that read succeeds, and a call is undefined exactly
when the restart point lies past the block; `next()` only when the constructor's null value view
is still there (`block_reader_restart_reads_in_range`).
-/

namespace Pedis.Table

namespace BlockReader

/-! ## §1 One decoded entry moves the reader forward -/

/-- The loop of `parse_next_key` only moves `restart_index_`. -/
theorem advanceRestartIndex_eq : ∀ (fuel : Nat) {r r' : BlockReader},
    r.advanceRestartIndex fuel = some r' → ∃ i, r' = { r with restartIndex := i }
  | 0, r, _, h => by cases h; exact ⟨r.restartIndex, rfl⟩
  | fuel + 1, r, r', h => by
    unfold advanceRestartIndex at h
    split_ifs at h
    · obtain ⟨_, -, h⟩ := Option.bind_eq_some.1 h
      split_ifs at h
      · obtain ⟨i, rfl⟩ := advanceRestartIndex_eq fuel h
        exact ⟨i, rfl⟩
      · cases h; exact ⟨r.restartIndex, rfl⟩
    · cases h; exact ⟨r.restartIndex, rfl⟩

/-- A `parse_next_key()` that decodes an entry moves the end of the value strictly forward and
    keeps it inside the block. -/
theorem parseNextKey_progress {r r' : BlockReader} (h : r.parseNextKey = some (r', true)) :
    ∃ o o', r.nextEntryOffset = some o ∧ r'.nextEntryOffset = some o' ∧ o < o' ∧
      o' ≤ r.data.length ∧ r'.data = r.data := by
  simp only [parseNextKey, Option.bind_eq_some] at h
  obtain ⟨o, ho, h⟩ := h
  split_ifs at h with hlim
  · cases h
  split at h
  · cases h
  rename_i shared nonShared valueLength rest hdec
  split_ifs at h
  · cases h
  obtain ⟨_, h', he⟩ := Option.map_eq_some'.1 h
  cases he
  obtain ⟨i, rfl⟩ := advanceRestartIndex_eq _ h'
  obtain ⟨hhead, hfit⟩ := decodeEntry_spec hdec
  have hw : ((r.data.drop o).take (r.restartsOffset - o)).length ≤ r.data.length - o := by
    simp only [List.length_take, List.length_drop]; exact min_le_right _ _
  refine ⟨o, o + (((r.data.drop o).take (r.restartsOffset - o)).length - rest.length) + nonShared +
    valueLength, ho, rfl, by omega, by omega, rfl⟩

/-! ## §2 The loops stop by their own tests -/

section Loops

variable (key : List UInt8)

/-- Two runs of the scan of `seek` agree when they agree after every pass that goes on. -/
theorem seekScan_succ_congr {r : BlockReader} {F G : Nat}
    (H : ∀ r', r.parseNextKey = some (r', true) → r'.seekScan key F = r'.seekScan key G) :
    r.seekScan key (F + 1) = r.seekScan key (G + 1) := by
  simp only [seekScan]
  rcases hp : r.parseNextKey with _ | ⟨r', _ | _⟩
  · rfl
  · rfl
  · simp only [Option.some_bind, H r' hp]

/-- The scan of `seek` from a value ending at `o` stops by its own test within
    `data.length - o + 1` passes: more fuel changes nothing. -/
theorem seekScan_fuel : ∀ (fuel : Nat) (r : BlockReader),
    (∀ o, r.nextEntryOffset = some o → r.data.length ≤ fuel + o) →
    ∀ k, r.seekScan key (fuel + 1 + k) = r.seekScan key (fuel + 1)
  | 0, r, hf, k => by
    rw [Nat.add_right_comm]
    refine seekScan_succ_congr key fun r' hp => ?_
    obtain ⟨o, o', ho, -, hlt, hle, -⟩ := parseNextKey_progress hp
    exact absurd (hf o ho) (by omega)
  | fuel + 1, r, hf, k => by
    rw [Nat.add_right_comm]
    refine seekScan_succ_congr key fun r' hp => ?_
    obtain ⟨o, o', ho, ho', hlt, -, hd⟩ := parseNextKey_progress hp
    refine seekScan_fuel fuel r' (fun o'' h'' => ?_) k
    rw [ho', Option.some_inj] at h''
    have := hf o ho
    rw [hd]
    omega

/-- Two runs of the loop of `seek_to_last` agree when they agree after every pass that goes on. -/
theorem seekToLastLoop_succ_congr {r : BlockReader} {F G : Nat}
    (H : ∀ r', r.parseNextKey = some (r', true) → r'.seekToLastLoop F = r'.seekToLastLoop G) :
    r.seekToLastLoop (F + 1) = r.seekToLastLoop (G + 1) := by
  simp only [seekToLastLoop]
  rcases hp : r.parseNextKey with _ | ⟨r', _ | _⟩
  · rfl
  · rfl
  · simp only [Option.some_bind, if_true, H r' hp]

/-- The loop of `seek_to_last` stops by its own test in the same bound. -/
theorem seekToLastLoop_fuel : ∀ (fuel : Nat) (r : BlockReader),
    (∀ o, r.nextEntryOffset = some o → r.data.length ≤ fuel + o) →
    ∀ k, r.seekToLastLoop (fuel + 1 + k) = r.seekToLastLoop (fuel + 1)
  | 0, r, hf, k => by
    rw [Nat.add_right_comm]
    refine seekToLastLoop_succ_congr fun r' hp => ?_
    obtain ⟨o, o', ho, -, hlt, hle, -⟩ := parseNextKey_progress hp
    exact absurd (hf o ho) (by omega)
  | fuel + 1, r, hf, k => by
    rw [Nat.add_right_comm]
    refine seekToLastLoop_succ_congr fun r' hp => ?_
    obtain ⟨o, o', ho, ho', hlt, -, hd⟩ := parseNextKey_progress hp
    refine seekToLastLoop_fuel fuel r' (fun o'' h'' => ?_) k
    rw [ho', Option.some_inj] at h''
    have := hf o ho
    rw [hd]
    omega

/-- The binary search of `seek` narrows `left..right` at every step, so `right - left` steps
    are enough. -/
theorem seekSearch_fuel (r : BlockReader) : ∀ (fuel left right : Nat), right - left ≤ fuel →
    ∀ k, r.seekSearch key (fuel + k) left right = r.seekSearch key fuel left right
  | 0, left, right, h, k => by
    cases k with
    | zero => rfl
    | succ k => simp [seekSearch, show ¬ left < right by omega]
  | fuel + 1, left, right, h, k => by
    rw [Nat.add_right_comm]
    by_cases hlr : left < right
    · have h1 := seekSearch_fuel r fuel ((left + right + 1) / 2) right (by omega) k
      have h2 := seekSearch_fuel r fuel left ((left + right + 1) / 2 - 1) (by omega) k
      simp only [seekSearch, if_pos hlr, h1, h2]
    · simp only [seekSearch, if_neg hlr]

end Loops

/-! ## §3 The calls of a reader whose limit is `0` -/

/-- Restart point `index` lies past the block: `seek_to_restart_point(index)` would form a pointer
    past it. -/
def restartPastBlock (r : BlockReader) (index : Nat) : Bool :=
  (r.getRestartPoint index).any (r.data.length < ·)

theorem seekToRestartPoint_eq_none_iff {r : BlockReader} {i : Nat}
    (hi : (r.getRestartPoint i).isSome) :
    r.seekToRestartPoint i = none ↔ r.restartPastBlock i = true := by
  obtain ⟨o, ho⟩ := Option.isSome_iff_exists.1 hi
  simp [seekToRestartPoint, restartPastBlock, ho]

section LimitZero

variable {r : BlockReader} (h0 : r.restartsOffset = 0)
include h0

/-- With the limit at `0`, `parse_next_key()` stops at once: `_current_offset` goes to `0` and
    `restart_index_` past the last restart point. -/
theorem parseNextKey_of_zero :
    r.parseNextKey =
      r.nextEntryOffset.map fun _ => ({ r with currentOffset := 0, restartIndex := r.numRestarts }, false) := by
  rcases ho : r.nextEntryOffset with _ | o <;> simp [parseNextKey, h0, ho]

/-- A reader positioned at a restart point, with the limit at `0`, stops there. -/
theorem parseNextKey_seekToRestartPoint {i : Nat} {r' : BlockReader}
    (hs : r.seekToRestartPoint i = some r') :
    r'.parseNextKey = some ({ r' with currentOffset := 0, restartIndex := r'.numRestarts }, false) := by
  simp only [seekToRestartPoint, Option.bind_eq_some] at hs
  obtain ⟨o, -, hs⟩ := hs
  split_ifs at hs
  cases hs
  simp [parseNextKey, nextEntryOffset, h0]

theorem seekToFirst_eq_none_iff : r.seekToFirst = none ↔ r.seekToRestartPoint 0 = none := by
  rcases hs : r.seekToRestartPoint 0 with _ | r'
  · simp [seekToFirst, hs]
  · simp [seekToFirst, hs, parseNextKey_seekToRestartPoint h0 hs]

theorem seekToLast_eq_none_iff :
    r.seekToLast = none ↔ r.seekToRestartPoint (r.numRestarts - 1) = none := by
  rcases hs : r.seekToRestartPoint (r.numRestarts - 1) with _ | r'
  · simp [seekToLast, hs]
  · simp [seekToLast, seekToLastLoop, hs, parseNextKey_seekToRestartPoint h0 hs]

/-- `seek(t)` reads restart point `num_restarts / 2` and nothing else before it returns: the
    binary search stops at its first step, the limit `0` leaving no entry to decode, and with one
    restart point there is no search and the scan stops at once. -/
theorem seek_eq_none_iff (hn : 1 ≤ r.numRestarts) (t : List UInt8)
    (hread : (r.getRestartPoint (r.numRestarts / 2)).isSome) :
    r.seek t = none ↔ r.restartPastBlock (r.numRestarts / 2) = true := by
  obtain ⟨o, ho⟩ := Option.isSome_iff_exists.1 hread
  by_cases h1 : r.numRestarts = 1
  · -- no search: the scan from restart point `0` stops at once
    have hs := seekToRestartPoint_eq_none_iff
      (show (r.getRestartPoint 0).isSome by simpa [h1] using hread)
    have hseek : r.seek t = (r.seekToRestartPoint 0).bind fun r' => r'.seekScan t (r'.data.length + 1) := by
      simp [seek, h1, seekSearch]
    rw [hseek, show r.numRestarts / 2 = 0 by omega, ← hs]
    rcases hp : r.seekToRestartPoint 0 with _ | r'
    · simp
    · simp [seekScan, parseNextKey_seekToRestartPoint h0 hp]
  · -- the first step reads the middle restart point and finds no entry before the limit
    obtain ⟨m, hm⟩ : ∃ m, r.numRestarts = m + 2 := ⟨r.numRestarts - 2, by omega⟩
    have hsearch : r.seekSearch t r.numRestarts 0 (r.numRestarts - 1) =
        if o ≤ r.data.length then some none else none := by
      rw [hm] at ho ⊢
      rw [seekSearch, if_pos (by omega)]
      dsimp only
      -- the window before the limit `0` is empty and decodes no entry
      rw [show (0 + (m + 2 - 1) + 1) / 2 = (m + 2) / 2 by omega, ho, Option.some_bind, h0,
        Nat.zero_sub, List.take_zero]
      rfl
    by_cases hpast : o ≤ r.data.length
    · simp [seek, hsearch, hpast, restartPastBlock, ho]
    · simp [seek, hsearch, hpast, restartPastBlock, ho, not_le.1 hpast]

theorem next_eq_none_iff : r.next = none ↔ r.valueView = none := by
  simp [next, parseNextKey_of_zero h0, nextEntryOffset]

end LimitZero

/-! ## §4 A real reader -/

/-- A reader over `data` keeps the block, its count of restarts and the limit `0`. -/
theorem run_make_frame {data : List UInt8} {ops : List Op} {r : BlockReader}
    (h : (make data).run ops = some r) :
    r.data = data ∧ r.numRestarts = Table.numRestarts data ∧ r.restartsOffset = 0 :=
  let f := frame_run ops h
  ⟨f.data, f.numRestarts, f.restartsOffset⟩

/-- Over a block with at least one restart point and its restart array inside it, in every state
    the calls reach: reading a restart point fails exactly at an index not below `num_restarts`;
    `seek_to_first()`, `seek_to_last()` and `seek(t)` each read one restart point, at `0`,
    `num_restarts - 1` and `num_restarts / 2`, and are undefined exactly when it lies past the
    block; `next()` is undefined only on the constructor's null value view; the loops of `seek`
    and `seek_to_last` stop by their own tests; and `eof()` holds, so every chain of `next()`
    calls is at `eof()`. -/
theorem block_reader_restart_reads_in_range (data : List UInt8) (hn : 1 ≤ Table.numRestarts data)
    (hbuf : 4 * (Table.numRestarts data + 1) ≤ data.length) (ops : List Op) {r : BlockReader}
    (h : (make data).run ops = some r) :
    (∀ i, (r.getRestartPoint i).isSome ↔ i < r.numRestarts) ∧
      (r.seekToFirst = none ↔ r.restartPastBlock 0 = true) ∧
      (r.seekToLast = none ↔ r.restartPastBlock (r.numRestarts - 1) = true) ∧
      (∀ t, r.seek t = none ↔ r.restartPastBlock (r.numRestarts / 2) = true) ∧
      (r.next = none ↔ r.valueView = none) ∧
      (∀ t k, r.seekSearch t (r.numRestarts + k) 0 (r.numRestarts - 1) =
        r.seekSearch t r.numRestarts 0 (r.numRestarts - 1)) ∧
      (∀ (r' : BlockReader) t k,
        r'.seekScan t (r'.data.length + 1 + k) = r'.seekScan t (r'.data.length + 1)) ∧
      (∀ (r' : BlockReader) k,
        r'.seekToLastLoop (r'.data.length + 1 + k) = r'.seekToLastLoop (r'.data.length + 1)) ∧
      r.isEof = true := by
  obtain ⟨hd, hnr, h0⟩ := run_make_frame h
  -- every restart point below `num_restarts` is four bytes inside the block
  have hread : ∀ i, (r.getRestartPoint i).isSome ↔ i < r.numRestarts := fun i => by
    by_cases hi : i < r.numRestarts
    · simp only [getRestartPoint, if_pos hi, h0, Nat.zero_add, hi, iff_true]
      exact decodeFixed32_isSome (by rw [List.length_drop, hd]; omega)
    · simp [getRestartPoint, hi]
  have hn' : 1 ≤ r.numRestarts := hnr ▸ hn
  refine ⟨hread, ?_, ?_, fun t => seek_eq_none_iff h0 hn' t ((hread _).2 (by omega)), ?_, ?_,
    fun r' t k => seekScan_fuel t _ r' (fun o _ => by omega) k,
    fun r' k => seekToLastLoop_fuel _ r' (fun o _ => by omega) k, by simp [isEof, h0]⟩
  · rw [seekToFirst_eq_none_iff h0, seekToRestartPoint_eq_none_iff ((hread 0).2 (by omega))]
  · rw [seekToLast_eq_none_iff h0,
      seekToRestartPoint_eq_none_iff ((hread _).2 (by omega))]
  · exact next_eq_none_iff h0
  · exact fun t k => seekSearch_fuel t r _ 0 _ (by omega) k

/-- Over the block of the entries `("", "")` and `("\x01", "")`, one restart point each, after
    `seek_to_first()`: restart point `0` reads the first entry's zero bytes, inside the block, and
    restart point `1` reads the second entry's bytes, `65537`, past it, so `seek_to_first()` is
    defined there and `seek_to_last()` is not. -/
theorem block_reader_restart_reads_in_range_two_restarts :
    (fun (data : List UInt8) (r : BlockReader) =>
      1 ≤ Table.numRestarts data ∧ 4 * (Table.numRestarts data + 1) ≤ data.length ∧
        (make data).run [.seekToFirst] = some r ∧
        ((∀ i, (r.getRestartPoint i).isSome ↔ i < r.numRestarts) ∧
          (r.seekToFirst = none ↔ r.restartPastBlock 0 = true) ∧
          (r.seekToLast = none ↔ r.restartPastBlock (r.numRestarts - 1) = true) ∧
          (∀ t, r.seek t = none ↔ r.restartPastBlock (r.numRestarts / 2) = true) ∧
          (r.next = none ↔ r.valueView = none) ∧
          (∀ t k, r.seekSearch t (r.numRestarts + k) 0 (r.numRestarts - 1) =
            r.seekSearch t r.numRestarts 0 (r.numRestarts - 1)) ∧
          (∀ (r' : BlockReader) t k,
            r'.seekScan t (r'.data.length + 1 + k) = r'.seekScan t (r'.data.length + 1)) ∧
          (∀ (r' : BlockReader) k,
            r'.seekToLastLoop (r'.data.length + 1 + k) = r'.seekToLastLoop (r'.data.length + 1)) ∧
          r.isEof = true))
      (buildBlock [([], []), ([1], [])] 1)
      ⟨[0, 0, 0, 0, 1, 0, 1, 0, 0, 0, 0, 3, 0, 0, 0, 2, 0, 0, 0], 0, 2, 2, 0, ⟨[], []⟩,
        some (0, 0), false⟩ :=
  ⟨by decide, by decide, by decide,
    block_reader_restart_reads_in_range (buildBlock [([], []), ([1], [])] 1) (by decide)
      (by decide) [.seekToFirst] (by decide)⟩

/-- Over the block of the one entry `("", "")`, `seek("")` ends at `eof()` though the entry's key
    is not below the target; over the block of `("a", "1")`, `seek("a")` reads its restart point
    from the entry's bytes and forms a pointer far past the block. -/
theorem block_reader_seek_misses_entry :
    ((make (buildBlock [([], [])] 1)).seek []).map isEof = some true ∧
      (make (buildBlock [([97], [49])] 1)).seek [97] = none := by
  decide

end BlockReader

end Pedis.Table
