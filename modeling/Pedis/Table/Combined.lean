import Pedis.Table.Format

/-!
# `combined_sstables_reader`

The merge over several table cursors (`src/store/table/table.cc`). Its sub-cursors are modelled
by the cursor contract of spec §4.4 (`Cursor`): entries in strictly increasing key order and a
position, `seek(t)` at the first key `≥ t`, exhausted past the last entry, where `next()` and
`current()` are undefined. The source calls the cursor operations on `_sstables`, ignoring the
futures they return; the contract's operations complete at once.

`eof()` starts from `bool all_eof = false` and `&=`s the sub-cursors' `eof()` into it, so it
returns `_eof`; `find_smallest_one` sets `_eof` only when `_current` is null, which a table
pointer never is. So `eof()` is false in every state (`isEof_of_run_make`), also once every
sub-cursor is exhausted. `find_smallest_one` reads `_sstables[0]` (undefined with no table) and
compares the current keys of all sub-cursors, exhausted ones included.

What the merge is for does hold where it is defined: after every call `_current` indexes a
sub-cursor whose current key is least among all (`currentEntry_least_of_run_make`), so `next()`
never moves to a smaller key (`keyLess_currentEntry_next_of_run_make`).
-/

namespace Pedis.Table

/-- A table cursor as the contract of spec §4.4 describes it. -/
structure Cursor where
  /-- The entries, in key order. -/
  entries : List (List UInt8 × List UInt8)
  /-- Keys strictly increase. -/
  sorted : (entries.map Prod.fst).Pairwise fun a b => keyLess a b = true
  /-- The position; `entries.length` and beyond is exhausted. -/
  pos : Nat

namespace Cursor

/-- `eof()`. -/
def isEof (c : Cursor) : Bool := c.entries.length ≤ c.pos

/-- `current()`, undefined when exhausted. -/
def current (c : Cursor) : Option (List UInt8 × List UInt8) := c.entries[c.pos]?

/-- `seek_to_first()`. -/
def seekToFirst (c : Cursor) : Cursor := { c with pos := 0 }

/-- `seek_to_last()`. -/
def seekToLast (c : Cursor) : Cursor := { c with pos := c.entries.length - 1 }

/-- `seek(t)`: the first entry whose key is not below `t`. -/
def seek (c : Cursor) (t : List UInt8) : Cursor :=
  { c with pos := c.entries.findIdx fun e => !keyLess e.1 t }

/-- `next()`, undefined when exhausted. -/
def next (c : Cursor) : Option Cursor := if c.isEof then none else some { c with pos := c.pos + 1 }

/-- `next()` moves a cursor to a strictly greater key. -/
theorem keyLess_current_next {c c' : Cursor} {a b : List UInt8 × List UInt8} (h : c.next = some c')
    (ha : c.current = some a) (hb : c'.current = some b) : keyLess a.1 b.1 = true := by
  unfold next at h
  split at h
  · cases h
  · cases h
    obtain ⟨hi, rfl⟩ := List.getElem?_eq_some_iff.1 ha
    obtain ⟨hj, rfl⟩ := List.getElem?_eq_some_iff.1 hb
    exact List.pairwise_iff_getElem.1 (List.pairwise_map.1 c.sorted) c.pos (c.pos + 1) hi hj
      (Nat.lt_succ_self _)

end Cursor

/-- The state of a `combined_sstables_reader`. -/
structure CombinedReader where
  /-- `_sstables`, the sub-cursors. -/
  sstables : List Cursor
  /-- `_current`: the index of the sub-cursor last found smallest; `none` is null. -/
  current : Option Nat
  /-- `_eof`. -/
  eof : Bool

namespace CombinedReader

/-- `combined_sstables_reader(sstables)`. -/
def make (cs : List Cursor) : CombinedReader := ⟨cs, none, false⟩

/-- The loop of `find_smallest_one`: `i` runs over the sub-cursors after the first, and a
    strictly smaller current key makes `i` the smallest. The source's `less_comparator` compares
    `a->current().key() < b->current().key()`, the `operator<` of the key type, which is declared
    outside the sources and is not the table's comparator; it is read here as the bytewise order
    `keyLess`, the comparator of spec §4.7. -/
def findSmallestLoop (all : List Cursor) : List Cursor → Nat → Nat → Option Nat
  | [], _, smallest => some smallest
  | c :: rest, i, smallest =>
    c.current.bind fun a => (all[smallest]?.bind Cursor.current).bind fun b =>
      findSmallestLoop all rest (i + 1) (if keyLess a.1 b.1 then i else smallest)

/-- `find_smallest_one()`. `_current` is then a table pointer, never null, so `_eof` stays. -/
def findSmallestOne (r : CombinedReader) : Option CombinedReader :=
  match r.sstables with
  | [] => none
  | _ :: rest => (findSmallestLoop r.sstables rest 1 0).map fun s => { r with current := some s }

/-- `seek_to_first()`. -/
def seekToFirst (r : CombinedReader) : Option CombinedReader :=
  { r with sstables := r.sstables.map Cursor.seekToFirst }.findSmallestOne

/-- `seek_to_last()`. -/
def seekToLast (r : CombinedReader) : Option CombinedReader :=
  { r with sstables := r.sstables.map Cursor.seekToLast }.findSmallestOne

/-- `seek(key)`. -/
def seek (r : CombinedReader) (key : List UInt8) : Option CombinedReader :=
  { r with sstables := r.sstables.map fun c : Cursor => c.seek key }.findSmallestOne

/-- Advance the sub-cursor at index `j`. -/
def advanceAt : List Cursor → Nat → Option (List Cursor)
  | [], _ => some []
  | c :: cs, 0 => c.next.map (· :: cs)
  | c :: cs, j + 1 => (advanceAt cs j).map (c :: ·)

/-- `next()`: only the sub-cursor equal to `_current` advances. -/
def next (r : CombinedReader) : Option CombinedReader :=
  match r.current with
  | none => r.findSmallestOne
  | some j => (advanceAt r.sstables j).bind fun cs => { r with sstables := cs }.findSmallestOne

/-- `eof()`. -/
def isEof (r : CombinedReader) : Bool :=
  if r.eof then r.eof else r.sstables.foldl (fun allEof c => allEof && c.isEof) false

/-- `current()`, undefined while `_current` is null. -/
def currentEntry (r : CombinedReader) : Option (List UInt8 × List UInt8) :=
  r.current.bind fun j => r.sstables[j]?.bind Cursor.current

/-- A call on a `combined_sstables_reader`. -/
inductive Op
  | seekToFirst
  | seekToLast
  | seek (key : List UInt8)
  | next

/-- The state after a call, `none` where it is undefined. -/
def Op.apply (r : CombinedReader) : Op → Option CombinedReader
  | .seekToFirst => r.seekToFirst
  | .seekToLast => r.seekToLast
  | .seek key => r.seek key
  | .next => r.next

/-- The state after a sequence of calls. -/
def run (r : CombinedReader) : List Op → Option CombinedReader
  | [] => some r
  | op :: ops => (op.apply r).bind fun r => r.run ops

/-! ## What a call can do -/

/-- `next()` with `_current` set advances that sub-cursor, then runs `find_smallest_one`. -/
theorem next_of_current {r r' : CombinedReader} {j : Nat} (hj : r.current = some j)
    (h : r.next = some r') :
    ∃ cs, advanceAt r.sstables j = some cs ∧ { r with sstables := cs }.findSmallestOne = some r' := by
  rw [next, hj] at h
  exact Option.bind_eq_some.1 h

/-- Every call ends in `find_smallest_one` on the caller's state with other sub-cursors. -/
theorem apply_eq_findSmallestOne {r r' : CombinedReader} (op : Op) (h : op.apply r = some r') :
    ∃ cs, { r with sstables := cs }.findSmallestOne = some r' := by
  cases op with
  | next =>
    cases hj : r.current with
    | none => rw [Op.apply, next, hj] at h; exact ⟨_, h⟩
    | some j => obtain ⟨cs, -, h⟩ := next_of_current hj h; exact ⟨cs, h⟩
  | _ => exact ⟨_, h⟩

/-- A property every call establishes from one that holds before holds after every run. -/
theorem run_of_apply {P : CombinedReader → Prop}
    (H : ∀ {r r' : CombinedReader} (op : Op), P r → op.apply r = some r' → P r') :
    ∀ (ops : List Op) {r r' : CombinedReader}, P r → r.run ops = some r' → P r'
  | [], _, _, hr, h => by cases h; exact hr
  | op :: ops, _, _, hr, h => by
    obtain ⟨_, h1, h2⟩ := Option.bind_eq_some.1 h
    exact run_of_apply H ops (H op hr h1) h2

/-! ## `eof()` -/

/-- `all_eof` starts false, and `false && _` stays false. -/
theorem foldl_allEof_false : ∀ cs : List Cursor,
    cs.foldl (fun allEof c => allEof && c.isEof) false = false
  | [] => rfl
  | _ :: cs => foldl_allEof_false cs

/-- `eof()` is `_eof`. -/
theorem isEof_eq (r : CombinedReader) : r.isEof = r.eof := by
  unfold isEof; split_ifs with h
  · rfl
  · rw [foldl_allEof_false]; simpa using h

theorem eof_findSmallestOne {r r' : CombinedReader} {cs : List Cursor}
    (h : { r with sstables := cs }.findSmallestOne = some r') : r'.eof = r.eof := by
  unfold findSmallestOne at h
  split at h
  · cases h
  · obtain ⟨_, -, rfl⟩ := Option.map_eq_some'.1 h; rfl

/-- No call writes `_eof`. -/
theorem eof_apply {r r' : CombinedReader} (op : Op) (h : op.apply r = some r') :
    r'.eof = r.eof :=
  let ⟨_, h⟩ := apply_eq_findSmallestOne op h
  eof_findSmallestOne h

/-- A `combined_sstables_reader` never reports `eof()`, in whatever state its calls reach. -/
theorem isEof_of_run_make (cs : List Cursor) (ops : List Op) {r : CombinedReader}
    (h : (make cs).run ops = some r) : r.isEof = false := by
  rw [isEof_eq]
  exact @run_of_apply (fun r => r.eof = false) (fun op hr h => (eof_apply op h).trans hr) ops _ _
    rfl h

/-- Over the one sub-cursor `[("a", "1")]`, `seek_to_first()` then `next()` exhaust it, and the
    merge is not at `eof()`. -/
theorem isEof_of_run_make_at_a :
    (fun r => (make [⟨[([97], [49])], by decide, 0⟩]).run [.seekToFirst, .next] = some r ∧
      r.isEof = false) ⟨[⟨[([97], [49])], by decide, 1⟩], some 0, false⟩ :=
  ⟨rfl, isEof_of_run_make [⟨[([97], [49])], by decide, 0⟩] [.seekToFirst, .next] rfl⟩

/-- Over the one sub-cursor `[("a", "1")]`: `seek_to_first()` yields `("a", "1")` and is not at
    `eof()`; after `next()` every sub-cursor is exhausted and `eof()` is still false. -/
theorem combined_reader_not_eof_after_last :
    ((make [⟨[([97], [49])], by decide, 0⟩]).run [.seekToFirst]).map
        (fun r => (r.currentEntry, r.isEof)) = some (some ([97], [49]), false) ∧
      ((make [⟨[([97], [49])], by decide, 0⟩]).run [.seekToFirst, .next]).map
        (fun r => (r.sstables.all Cursor.isEof, r.isEof)) = some (true, false) := by
  decide

/-- `seek_to_last()` puts every sub-cursor on its last entry and `find_smallest_one` then picks
    the least of those keys. Over `[("a", "1")]` and `[("b", "2")]`, `current()` is `("a", "1")`,
    not the greatest entry `("b", "2")`; over one empty sub-cursor, `eof()` is false. -/
theorem combined_seek_to_last_least_last_key :
    ((make [⟨[([97], [49])], by decide, 0⟩, ⟨[([98], [50])], by decide, 0⟩]).seekToLast).map
        (fun r => (r.currentEntry, r.isEof)) = some (some ([97], [49]), false) ∧
      ((make [⟨[], by decide, 0⟩]).seekToLast).map (fun r => (r.currentEntry, r.isEof)) =
        some (none, false) := by
  decide

/-! ## `find_smallest_one` selects the least current key -/

/-- The sub-cursor at `j` of `cs`, when it has a current entry, has a key that no current key of
    a sub-cursor of `done` is below under the comparator. -/
def LeastAmong (cs : List Cursor) (j : Nat) (done : List Cursor) : Prop :=
  ∀ a, (cs[j]?.bind Cursor.current) = some a →
    ∀ c ∈ done, ∀ b, c.current = some b → keyLess b.1 a.1 = false

/-- One pass of the loop of `find_smallest_one`: the sub-cursor read at `i`, with current key
    `a`, against the smallest so far, with current key `b`; the smaller one stays least. -/
theorem LeastAmong.step {all done : List Cursor} {smallest i : Nat} {c : Cursor}
    {a b : List UInt8 × List UInt8} (hinv : LeastAmong all smallest done) (hc : all[i]? = some c)
    (ha : c.current = some a) (hb : (all[smallest]?.bind Cursor.current) = some b) :
    LeastAmong all (if keyLess a.1 b.1 then i else smallest) (done ++ [c]) := by
  intro a' ha' c' hc' b' hb'
  -- the new smallest holds `a` when `a` is below `b`, and `b` otherwise
  have ha' : a' = if keyLess a.1 b.1 then a else b := by
    split_ifs at ha' ⊢
    · rw [hc, Option.some_bind, ha] at ha'; exact (Option.some_inj.1 ha').symm
    · rw [hb] at ha'; exact (Option.some_inj.1 ha').symm
  subst ha'
  rw [keyLess_eq_false]
  rcases List.mem_append.1 hc' with hc' | hc'
  · -- a sub-cursor read before: its key is not below `b`
    have hbb' := keyLess_eq_false.1 (hinv b hb c' hc' b' hb')
    split_ifs with hab
    · exact (keyLess_eq_true.1 hab).le.trans hbb'
    · exact hbb'
  · -- the sub-cursor just read: its key is `a`
    obtain rfl := List.mem_singleton.1 hc'
    obtain rfl := Option.some_inj.1 (hb'.symm.trans ha)
    split_ifs with hab
    · exact le_rfl
    · exact not_lt.1 (mt keyLess_eq_true.2 hab)

/-- The loop of `find_smallest_one` keeps `smallest` least among the sub-cursors read so far. -/
theorem findSmallestLoop_least (all : List Cursor) :
    ∀ (rest : List Cursor) (i smallest j : Nat), all.drop i = rest →
      LeastAmong all smallest (all.take i) → findSmallestLoop all rest i smallest = some j →
      LeastAmong all j all
  | [], i, smallest, j, hrest, hinv, h => by
    cases h
    rwa [List.take_of_length_le (List.drop_eq_nil_iff.1 hrest)] at hinv
  | c :: rest, i, smallest, j, hrest, hinv, h => by
    have hc : all[i]? = some c := by simpa [hrest] using (List.getElem?_drop all i 0).symm
    obtain ⟨a, ha, h⟩ := Option.bind_eq_some.1 h
    obtain ⟨b, hb, h⟩ := Option.bind_eq_some.1 h
    refine findSmallestLoop_least all rest (i + 1) _ j (by rw [← List.drop_drop, hrest]; rfl) ?_ h
    rw [List.take_succ, hc]
    exact hinv.step hc ha hb

/-- `find_smallest_one()` points `_current` at a sub-cursor with the least current key. -/
theorem findSmallestOne_least {r r' : CombinedReader} {cs : List Cursor}
    (h : { r with sstables := cs }.findSmallestOne = some r') :
    ∃ j, r' = { r with sstables := cs, current := some j } ∧ LeastAmong cs j cs := by
  unfold findSmallestOne at h
  dsimp only at h
  split at h
  · cases h
  · rename_i c rest
    obtain ⟨j, hj, rfl⟩ := Option.map_eq_some'.1 h
    refine ⟨j, rfl, findSmallestLoop_least _ rest 1 0 j rfl ?_ hj⟩
    -- the first sub-cursor alone
    intro a ha c' hc' b hb
    simp only [List.take_succ_cons, List.take_zero, List.mem_singleton] at hc'
    subst hc'
    rw [List.getElem?_cons_zero, Option.some_bind, hb, Option.some_inj] at ha
    rw [ha, keyLess_eq_false]

/-- `_current`, when set, indexes a sub-cursor whose current key is least among all. -/
def Selected (r : CombinedReader) : Prop :=
  ∀ j, r.current = some j → LeastAmong r.sstables j r.sstables

theorem selected_apply {r r' : CombinedReader} (op : Op) (h : op.apply r = some r') :
    Selected r' := by
  obtain ⟨_, h⟩ := apply_eq_findSmallestOne op h
  obtain ⟨j, rfl, hj⟩ := findSmallestOne_least h
  rintro _ ⟨⟩
  exact hj

theorem selected_run (cs : List Cursor) (ops : List Op) {r : CombinedReader}
    (h : (make cs).run ops = some r) : Selected r :=
  run_of_apply (fun op _ h => selected_apply op h) ops (fun _ h => by cases h) h

theorem currentEntry_eq_some {r : CombinedReader} {a : List UInt8 × List UInt8} :
    r.currentEntry = some a ↔
      ∃ j c, r.current = some j ∧ r.sstables[j]? = some c ∧ c.current = some a := by
  simp only [currentEntry, Option.bind_eq_some]
  exact ⟨fun ⟨j, hj, c, hc, ha⟩ => ⟨j, c, hj, hc, ha⟩, fun ⟨j, c, hj, hc, ha⟩ => ⟨j, hj, c, hc, ha⟩⟩

/-- A sub-cursor after `advanceAt cs j` is one of `cs`, or the advance of the one at `j`. -/
theorem mem_advanceAt : ∀ {cs cs' : List Cursor} {j : Nat}, advanceAt cs j = some cs' →
    ∀ c' ∈ cs', c' ∈ cs ∨ ∃ c, cs[j]? = some c ∧ c.next = some c'
  | [], _, _, h, _, hc' => by cases h; cases hc'
  | c :: cs, _, 0, h, c', hc' => by
    obtain ⟨n, hn, rfl⟩ := Option.map_eq_some'.1 h
    rcases List.mem_cons.1 hc' with rfl | hc'
    · exact .inr ⟨c, List.getElem?_cons_zero, hn⟩
    · exact .inl (List.mem_cons_of_mem _ hc')
  | c :: cs, _, j + 1, h, c', hc' => by
    obtain ⟨cs', hcs', rfl⟩ := Option.map_eq_some'.1 h
    rcases List.mem_cons.1 hc' with rfl | hc'
    · exact .inl (List.mem_cons_self _ _)
    · rw [List.getElem?_cons_succ]
      exact (mem_advanceAt hcs' c' hc').imp (List.mem_cons_of_mem _) id

/-- From a selected state, `next()` moves the merge to a key not below the one it leaves: the
    sub-cursor it advances moves to a greater key, and no other held a smaller one. -/
theorem keyLess_currentEntry_next {r r' : CombinedReader} {a b : List UInt8 × List UInt8}
    (hs : Selected r) (hn : r.next = some r') (ha : r.currentEntry = some a)
    (hb : r'.currentEntry = some b) : keyLess b.1 a.1 = false := by
  obtain ⟨j, c, hj, hc, ha⟩ := currentEntry_eq_some.1 ha
  obtain ⟨cs, hadv, hfs⟩ := next_of_current hj hn
  obtain ⟨_, rfl, -⟩ := findSmallestOne_least hfs
  obtain ⟨_, c', -, hc', hb⟩ := currentEntry_eq_some.1 hb
  rcases mem_advanceAt hadv c' (List.getElem?_mem hc') with hc' | ⟨c₀, hc₀, hnext⟩
  · exact hs j hj a (by rw [hc]; exact ha) c' hc' b hb
  · obtain rfl := Option.some_inj.1 (hc₀.symm.trans hc)
    exact keyLess_eq_false.2 (keyLess_eq_true.1 (Cursor.keyLess_current_next hnext ha hb)).le

/-- In every state a sequence of calls reaches, no sub-cursor's current key is below the key of
    `current()`: the merge is at the least of them. -/
theorem currentEntry_least_of_run_make (cs : List Cursor) (ops : List Op) {r : CombinedReader}
    {a b : List UInt8 × List UInt8} {c : Cursor} (h : (make cs).run ops = some r)
    (ha : r.currentEntry = some a) (hc : c ∈ r.sstables) (hb : c.current = some b) :
    keyLess b.1 a.1 = false := by
  obtain ⟨j, c₀, hj, hc₀, ha⟩ := currentEntry_eq_some.1 ha
  exact selected_run cs ops h j hj a (by rw [hc₀]; exact ha) c hc b hb

/-- Sub-cursors `[("a", "1"), ("c", "3")]` and `[("b", "2")]`: after `seek_to_first()` the merge
    is at `"a"`, and the second sub-cursor's `"b"` is not below it. -/
theorem currentEntry_least_of_run_make_at_ac_b :
    (fun c₁ c₂ : Cursor =>
      (make [c₁, c₂]).run [.seekToFirst] = some ⟨[c₁, c₂], some 0, false⟩ ∧
        (⟨[c₁, c₂], some 0, false⟩ : CombinedReader).currentEntry = some ([97], [49]) ∧
        c₂ ∈ [c₁, c₂] ∧ c₂.current = some ([98], [50]) ∧ keyLess [98] [97] = false)
      ⟨[([97], [49]), ([99], [51])], by decide, 0⟩ ⟨[([98], [50])], by decide, 0⟩ :=
  ⟨rfl, rfl, .tail _ (.head _), rfl, @currentEntry_least_of_run_make
    [⟨[([97], [49]), ([99], [51])], by decide, 0⟩, ⟨[([98], [50])], by decide, 0⟩] [.seekToFirst]
    _ ([97], [49]) ([98], [50]) _ rfl rfl (.tail _ (.head _)) rfl⟩

/-- Along every sequence of calls, `next()` never moves the merge to a smaller key. -/
theorem keyLess_currentEntry_next_of_run_make (cs : List Cursor) (ops : List Op)
    {r r' : CombinedReader} {a b : List UInt8 × List UInt8} (h : (make cs).run ops = some r)
    (hn : r.next = some r') (ha : r.currentEntry = some a) (hb : r'.currentEntry = some b) :
    keyLess b.1 a.1 = false :=
  keyLess_currentEntry_next (selected_run cs ops h) hn ha hb

/-- On the same sub-cursors, `next()` after `seek_to_first()` moves the merge from `"a"` to
    `"b"`. -/
theorem keyLess_currentEntry_next_of_run_make_at_ac_b :
    (fun c₁ c₂ : Cursor =>
      (make [c₁, c₂]).run [.seekToFirst] = some ⟨[c₁, c₂], some 0, false⟩ ∧
        (⟨[c₁, c₂], some 0, false⟩ : CombinedReader).next =
          some ⟨[{ c₁ with pos := 1 }, c₂], some 1, false⟩ ∧
        (⟨[c₁, c₂], some 0, false⟩ : CombinedReader).currentEntry = some ([97], [49]) ∧
        (⟨[{ c₁ with pos := 1 }, c₂], some 1, false⟩ : CombinedReader).currentEntry =
          some ([98], [50]) ∧ keyLess [98] [97] = false)
      ⟨[([97], [49]), ([99], [51])], by decide, 0⟩ ⟨[([98], [50])], by decide, 0⟩ :=
  ⟨rfl, rfl, rfl, rfl, @keyLess_currentEntry_next_of_run_make
    [⟨[([97], [49]), ([99], [51])], by decide, 0⟩, ⟨[([98], [50])], by decide, 0⟩] [.seekToFirst]
    _ _ ([97], [49]) ([98], [50]) rfl rfl rfl rfl⟩

end CombinedReader

end Pedis.Table
