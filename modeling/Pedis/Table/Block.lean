import Pedis.Table.Format

/-!
# `block_reader`

The cursor over one block (`src/store/table/table.cc`, class `block_reader`). The class mixes two
spellings of its members: `restarts_`, `restarts_offset` and `_restarts_offset` are one field,
as are `num_restarts_` and `_num_restarts`, `restart_index_` and `_restart_index`, `current_`
and `_current_offset`, `data_` and `_data_view.data()`, `key_` and `_current.key()`. Pointers into
the block are offsets from its start. A pointer formed past the end of the block, an assertion
that fails and a read past the end are undefined: the operation returns `none`.

The constructor sets `_restarts_offset` to `0` and nothing writes it again, so the limit of every
entry is the start of the block: `parse_next_key` never decodes an entry and `eof()`
(`_current_offset >= restarts_`) holds in every state (`eof_of_run_make`). Nor is the value of
`_current` ever written: `current().data()` is empty in every state (`current_data_of_run_make`).
-/

namespace Pedis.Table

/-- `partition`: a key and its value, what `current()` returns. -/
structure Partition where
  key : List UInt8
  data : List UInt8
deriving DecidableEq, Repr

/-- `partition::empty()`, declared outside the sources: no key and no value. -/
def Partition.empty (p : Partition) : Bool := p.key.isEmpty && p.data.isEmpty

/-- The state of a `block_reader`. -/
structure BlockReader where
  /-- The block, `_data_view`. -/
  data : List UInt8
  /-- `_restarts_offset`: where the restart array starts, the limit of the entries. -/
  restartsOffset : Nat
  /-- `_num_restarts`. -/
  numRestarts : Nat
  /-- `_restart_index`: the restart point the current entry lies after. -/
  restartIndex : Nat
  /-- `_current_offset`: the offset of the current entry. -/
  currentOffset : Nat
  /-- `_current`: the current key and value. -/
  current : Partition
  /-- `_value_view`: offset and length of the current value; `none` is the null view the
      constructor leaves. -/
  valueView : Option (Nat × Nat)
  /-- `_eof`. -/
  eof : Bool
deriving DecidableEq, Repr

namespace BlockReader

/-- `block_reader(b, opt)`. -/
def make (data : List UInt8) : BlockReader :=
  ⟨data, 0, Table.numRestarts data, 0, 0, ⟨[], []⟩, none, false⟩

/-- `next_entry_offset()`: the end of the current value. -/
def nextEntryOffset (r : BlockReader) : Option Nat := r.valueView.map fun v => v.1 + v.2

/-- `get_restart_point(index)`. -/
def getRestartPoint (r : BlockReader) (index : Nat) : Option Nat :=
  if index < r.numRestarts then decodeFixed32 (r.data.drop (r.restartsOffset + index * 4))
  else none

/-- `seek_to_restart_point(index)`: an empty value view at the restart point. -/
def seekToRestartPoint (r : BlockReader) (index : Nat) : Option BlockReader :=
  (r.getRestartPoint index).bind fun offset =>
    if offset ≤ r.data.length then
      some { r with
        current := { r.current with key := [] }
        restartIndex := index
        valueView := some (offset, 0) }
    else none

/-- The `while` loop of `parse_next_key`: `restart_index_` moves up to the last restart point
    before `_current_offset`, for at most `fuel` steps. -/
def advanceRestartIndex (r : BlockReader) : Nat → Option BlockReader
  | 0 => some r
  | fuel + 1 =>
    if r.restartIndex + 1 < r.numRestarts then
      (r.getRestartPoint (r.restartIndex + 1)).bind fun point =>
        if point < r.currentOffset then
          advanceRestartIndex { r with restartIndex := r.restartIndex + 1 } fuel
        else some r
    else some r

/-- `parse_next_key()`: decodes the entry after the current value, before `_restarts_offset`,
    rebuilding its key from the `shared` bytes of the current one. -/
def parseNextKey (r : BlockReader) : Option (BlockReader × Bool) :=
  r.nextEntryOffset.bind fun offset =>
    let r := { r with currentOffset := offset }
    if offset ≥ r.restartsOffset then
      some ({ r with currentOffset := r.restartsOffset, restartIndex := r.numRestarts }, false)
    else
      let window := (r.data.drop offset).take (r.restartsOffset - offset)
      match decodeEntry window with
      | none => some (r, false)
      | some (shared, nonShared, valueLength, rest) =>
        if r.current.key.length < shared then some (r, false)
        else
          let p := offset + (window.length - rest.length)
          let r := { r with
            current := { r.current with key := r.current.key.take shared ++ (r.data.drop p).take nonShared }
            valueView := some (p + nonShared, valueLength) }
          (r.advanceRestartIndex r.numRestarts).map (·, true)

/-- `eof()`. -/
def isEof (r : BlockReader) : Bool := r.currentOffset ≥ r.restartsOffset || r.eof

/-- `seek_to_first()`. -/
def seekToFirst (r : BlockReader) : Option BlockReader :=
  (r.seekToRestartPoint 0).bind fun r => r.parseNextKey.map Prod.fst

/-- The loop of `seek_to_last()`, `while (parse_next_key() && next_entry_offset() < restarts_)`,
    for at most `fuel` passes. -/
def seekToLastLoop (r : BlockReader) : Nat → Option BlockReader
  | 0 => some r
  | fuel + 1 => r.parseNextKey.bind fun (r, ok) =>
    if ok then
      r.nextEntryOffset.bind fun off => if off < r.restartsOffset then seekToLastLoop r fuel else some r
    else some r

/-- `seek_to_last()`. Each pass consumes an entry, so the block's length bounds the loop. -/
def seekToLast (r : BlockReader) : Option BlockReader :=
  (r.seekToRestartPoint (r.numRestarts - 1)).bind fun r => r.seekToLastLoop (r.data.length + 1)

/-- The binary search of `seek(key)` over the restart points in `left..right`, for at most `fuel`
    steps: the restart point to scan from, or `none` when a restart entry cannot be decoded or
    does not hold its key whole (then `seek` sets `_eof`). `data_ + region_offset` past the block
    is undefined. -/
def seekSearch (r : BlockReader) (target : List UInt8) : Nat → Nat → Nat → Option (Option Nat)
  | 0, left, _ => some (some left)
  | fuel + 1, left, right =>
    if left < right then
      let mid := (left + right + 1) / 2
      (r.getRestartPoint mid).bind fun regionOffset =>
        if regionOffset ≤ r.data.length then
          match decodeEntry ((r.data.drop regionOffset).take (r.restartsOffset - regionOffset)) with
          | none => some none
          | some (shared, nonShared, _, rest) =>
            if shared ≠ 0 then some none
            else if keyLess (rest.take nonShared) target then
              seekSearch r target fuel mid right
            else seekSearch r target fuel left (mid - 1)
        else none
    else some (some left)

/-- The linear scan of `seek(key)`: parse until the first key `≥ key`, for at most `fuel`
    entries. -/
def seekScan (r : BlockReader) (key : List UInt8) : Nat → Option BlockReader
  | 0 => some r
  | fuel + 1 => r.parseNextKey.bind fun (r, ok) =>
    if !ok then some r
    else if !keyLess r.current.key key then some r
    else seekScan r key fuel

/-- `seek(key)`. With `_num_restarts = 0`, `num_restarts_ - 1` wraps around in `uint32_t`; the
    assertion of `get_restart_point` fails then either way. -/
def seek (r : BlockReader) (key : List UInt8) : Option BlockReader :=
  (r.seekSearch key r.numRestarts 0 (r.numRestarts - 1)).bind fun
    | none => some { r with eof := true }
    | some left => (r.seekToRestartPoint left).bind fun r => r.seekScan key (r.data.length + 1)

/-- `next()`. -/
def next (r : BlockReader) : Option BlockReader := r.parseNextKey.map Prod.fst

/-- A call on a `block_reader`. -/
inductive Op
  | seekToFirst
  | seekToLast
  | seek (key : List UInt8)
  | next
deriving DecidableEq, Repr

/-- The state after a call, `none` where it is undefined. -/
def Op.apply (r : BlockReader) : Op → Option BlockReader
  | .seekToFirst => r.seekToFirst
  | .seekToLast => r.seekToLast
  | .seek key => r.seek key
  | .next => r.next

/-- The state after a sequence of calls. -/
def run (r : BlockReader) : List Op → Option BlockReader
  | [] => some r
  | op :: ops => (op.apply r).bind fun r => r.run ops

/-! ## What no call writes -/

/-- `r'` has the block, the limit, the number of restarts and the value of `_current` of `r`. -/
structure Frame (r r' : BlockReader) : Prop where
  data : r'.data = r.data
  restartsOffset : r'.restartsOffset = r.restartsOffset
  numRestarts : r'.numRestarts = r.numRestarts
  currentData : r'.current.data = r.current.data

theorem Frame.refl (r : BlockReader) : Frame r r := ⟨rfl, rfl, rfl, rfl⟩

theorem Frame.trans {r r' r'' : BlockReader} (h : Frame r r') (h' : Frame r' r'') : Frame r r'' :=
  ⟨h'.1.trans h.1, h'.2.trans h.2, h'.3.trans h.3, h'.4.trans h.4⟩

theorem frame_seekToRestartPoint {r r' : BlockReader} {i : Nat} (h : r.seekToRestartPoint i = some r') :
    Frame r r' := by
  simp only [seekToRestartPoint, Option.bind_eq_some] at h
  obtain ⟨_, -, h⟩ := h
  split_ifs at h
  cases h; exact ⟨rfl, rfl, rfl, rfl⟩

theorem frame_advanceRestartIndex : ∀ (fuel : Nat) {r r' : BlockReader},
    r.advanceRestartIndex fuel = some r' → Frame r r'
  | 0, _, _, h => by cases h; exact Frame.refl _
  | fuel + 1, r, r', h => by
    unfold advanceRestartIndex at h
    split_ifs at h
    · simp only [Option.bind_eq_some] at h
      obtain ⟨_, -, h⟩ := h
      split_ifs at h
      · have h' := frame_advanceRestartIndex fuel h
        exact ⟨h'.1, h'.2, h'.3, h'.4⟩
      · cases h; exact Frame.refl _
    · cases h; exact Frame.refl _

theorem frame_parseNextKey {r r' : BlockReader} {ok : Bool} (h : r.parseNextKey = some (r', ok)) :
    Frame r r' := by
  simp only [parseNextKey, Option.bind_eq_some] at h
  obtain ⟨_, -, h⟩ := h
  split_ifs at h
  · cases h; exact ⟨rfl, rfl, rfl, rfl⟩
  · split at h
    · cases h; exact ⟨rfl, rfl, rfl, rfl⟩
    · split_ifs at h
      · cases h; exact ⟨rfl, rfl, rfl, rfl⟩
      · obtain ⟨r'', h'', he⟩ := Option.map_eq_some'.1 h
        cases he
        have h' := frame_advanceRestartIndex _ h''
        exact ⟨h'.1, h'.2, h'.3, h'.4⟩

theorem frame_seekToFirst {r r' : BlockReader} (h : r.seekToFirst = some r') : Frame r r' := by
  simp only [seekToFirst, Option.bind_eq_some, Option.map_eq_some'] at h
  obtain ⟨_, h1, _, h2, rfl⟩ := h
  exact (frame_seekToRestartPoint h1).trans (frame_parseNextKey h2)

theorem frame_seekToLastLoop : ∀ (fuel : Nat) {r r' : BlockReader},
    r.seekToLastLoop fuel = some r' → Frame r r'
  | 0, _, _, h => by cases h; exact Frame.refl _
  | fuel + 1, r, r', h => by
    simp only [seekToLastLoop, Option.bind_eq_some] at h
    obtain ⟨⟨r1, ok⟩, h1, h⟩ := h
    have f1 := frame_parseNextKey h1
    split_ifs at h
    · obtain ⟨_, -, h⟩ := Option.bind_eq_some.1 h
      split_ifs at h
      · exact f1.trans (frame_seekToLastLoop fuel h)
      · cases h; exact f1
    · cases h; exact f1

theorem frame_seekScan (key : List UInt8) : ∀ (fuel : Nat) {r r' : BlockReader},
    r.seekScan key fuel = some r' → Frame r r'
  | 0, _, _, h => by cases h; exact Frame.refl _
  | fuel + 1, r, r', h => by
    simp only [seekScan, Option.bind_eq_some] at h
    obtain ⟨⟨r1, ok⟩, h1, h⟩ := h
    have f1 := frame_parseNextKey h1
    split_ifs at h
    · cases h; exact f1
    · cases h; exact f1
    · exact f1.trans (frame_seekScan key fuel h)

theorem frame_apply {r r' : BlockReader} (op : Op) (h : op.apply r = some r') : Frame r r' := by
  cases op with
  | seekToFirst => exact frame_seekToFirst h
  | seekToLast =>
    obtain ⟨_, h1, h2⟩ := Option.bind_eq_some.1 h
    exact (frame_seekToRestartPoint h1).trans (frame_seekToLastLoop _ h2)
  | seek key =>
    obtain ⟨left, -, h⟩ := Option.bind_eq_some.1 h
    cases left with
    | none => cases h; exact ⟨rfl, rfl, rfl, rfl⟩
    | some left =>
      obtain ⟨_, h1, h2⟩ := Option.bind_eq_some.1 h
      exact (frame_seekToRestartPoint h1).trans (frame_seekScan key _ h2)
  | next =>
    obtain ⟨_, h1, rfl⟩ := Option.map_eq_some'.1 h
    exact frame_parseNextKey h1

theorem frame_run : ∀ (ops : List Op) {r r' : BlockReader}, r.run ops = some r' → Frame r r'
  | [], _, _, h => by cases h; exact Frame.refl _
  | op :: ops, _, _, h => by
    obtain ⟨_, h1, h2⟩ := Option.bind_eq_some.1 h
    exact (frame_apply op h1).trans (frame_run ops h2)

/-- A `block_reader` reports `eof()` in every state its calls reach: its limit stays `0`. -/
theorem eof_of_run_make (data : List UInt8) (ops : List Op) {r : BlockReader}
    (h : (make data).run ops = some r) : r.isEof = true := by
  simp [isEof, (frame_run ops h).restartsOffset, make]

/-- Over the block of the one entry `("", "")`, `seek_to_first()` then `next()` reach a state,
    at `eof()`. -/
theorem eof_of_run_make_empty_entry :
    (fun r => (make (buildBlock [([], [])] 1)).run [.seekToFirst, .next] = some r ∧ r.isEof = true)
      ⟨[0, 0, 0, 0, 0, 0, 0, 1, 0, 0, 0], 0, 1, 1, 0, ⟨[], []⟩, some (0, 0), false⟩ :=
  ⟨by decide, eof_of_run_make (buildBlock [([], [])] 1) [.seekToFirst, .next] (by decide)⟩

/-- No call of a `block_reader` writes the value of `_current`: `current().data()` is empty. -/
theorem current_data_of_run_make (data : List UInt8) (ops : List Op) {r : BlockReader}
    (h : (make data).run ops = some r) : r.current.data = [] :=
  (frame_run ops h).currentData

theorem current_data_of_run_make_empty_entry :
    (fun r => (make (buildBlock [([], [])] 1)).run [.seekToFirst] = some r ∧ r.current.data = [])
      ⟨[0, 0, 0, 0, 0, 0, 0, 1, 0, 0, 0], 0, 1, 1, 0, ⟨[], []⟩, some (0, 0), false⟩ :=
  ⟨by decide, current_data_of_run_make (buildBlock [([], [])] 1) [.seekToFirst] (by decide)⟩

/-- Over the block of the one entry `("", "")`, `seek_to_first()` leaves the reader at `eof()`;
    over the block of `("a", "1")` it reads its restart point from the entry's bytes and forms a
    pointer far past the block. -/
theorem block_reader_misses_first_entry :
    (make (buildBlock [([], [])] 1)).seekToFirst.map isEof = some true ∧
      (make (buildBlock [([97], [49])] 1)).seekToFirst = none := by
  decide

end BlockReader

end Pedis.Table
