import Pedis.Table.Combined

/-!
# What the merge of `combined_sstables_reader` enumerates

`find_smallest_one` points `_current` at a sub-cursor with the least current key
(`currentEntry_least_of_run_make`), and `next()` advances that sub-cursor alone. Over sub-cursors
in key order this is a k-way merge. This module says what it enumerates: after `seek(t)`, or
`seek_to_first()` with `t` the empty key, and then `n` calls of `next()`, from any state,

- while every sub-cursor still holds more than `n` entries not below `t`, every call is defined
  and so is `current()`;
- `current()`, where defined, has the `n`-th least key, from `0`, among the entries not below `t`
  of all sub-cursors: at most `n` of them have a smaller key, and more than `n` a key not above
  it (`merge_seek_next_order_statistic`).

Entries of equal key in two sub-cursors are counted once each, so no choice among ties is
needed. The proof carries one invariant, `Ordered`: every entry a sub-cursor has moved past is
not above any entry still unread, in any sub-cursor, and no unread entry is below `t`. `seek`
sets it up having moved past no entry not below `t`, and each `next()` keeps it and moves past
one more such entry (`pastCount`).
-/

namespace Pedis.Table

/-- No key is below the empty key. -/
theorem keyLess_nil (a : List UInt8) : keyLess a [] = false :=
  decide_eq_false (List.Lex.not_nil_right _ _)

namespace Cursor

/-! ## §1 A cursor: the entries moved past and the entries unread -/

/-- The entries `next()` has moved past. -/
def consumed (c : Cursor) : List (List UInt8 × List UInt8) := c.entries.take c.pos

/-- The entries from the position on. -/
def unread (c : Cursor) : List (List UInt8 × List UInt8) := c.entries.drop c.pos

theorem consumed_append_unread (c : Cursor) : c.consumed ++ c.unread = c.entries :=
  List.take_append_drop _ _

theorem current_eq_head? (c : Cursor) : c.current = c.unread.head? :=
  (List.head?_drop _ _).symm

theorem current_of_unread_eq_cons {c : Cursor} {b : List UInt8 × List UInt8}
    {u : List (List UInt8 × List UInt8)} (hu : c.unread = b :: u) : c.current = some b := by
  rw [current_eq_head?, hu, List.head?_cons]

/-- No unread entry is below the current one. -/
theorem keyLess_current_of_mem_unread {c : Cursor} {a f : List UInt8 × List UInt8}
    (ha : c.current = some a) (hf : f ∈ c.unread) : keyLess f.1 a.1 = false := by
  obtain ⟨u, hu⟩ := List.head?_eq_some_iff.1 (c.current_eq_head? ▸ ha)
  have hs : (c.unread.map Prod.fst).Pairwise fun a b => keyLess a b = true := by
    rw [unread, List.map_drop]
    exact c.sorted.sublist (List.drop_sublist _ _)
  rw [hu, List.map_cons, List.pairwise_cons] at hs
  rw [hu] at hf
  rcases List.mem_cons.1 hf with rfl | hf
  · exact keyLess_eq_false.2 le_rfl
  · exact keyLess_eq_false.2 (keyLess_eq_true.1 (hs.1 _ (List.mem_map_of_mem _ hf))).le

/-- Over keys in increasing order, the first entry not below `t` splits the entries into those
    below `t` and those not below it. -/
theorem keyLess_of_findIdx (t : List UInt8) : ∀ l : List (List UInt8 × List UInt8),
    (l.map Prod.fst).Pairwise (fun a b => keyLess a b = true) →
      (∀ e ∈ l.take (l.findIdx fun e => !keyLess e.1 t), keyLess e.1 t = true) ∧
        ∀ f ∈ l.drop (l.findIdx fun e => !keyLess e.1 t), keyLess f.1 t = false
  | [], _ => by simp
  | x :: l, hs => by
    rw [List.map_cons, List.pairwise_cons] at hs
    rw [List.findIdx_cons]
    cases hx : keyLess x.1 t
    · -- `x` is the first entry not below `t`, and every later key is above it
      simp only [Bool.not_false, cond_true, List.take_zero, List.drop_zero]
      refine ⟨fun e he => absurd he (List.not_mem_nil e), fun f hf => ?_⟩
      rcases List.mem_cons.1 hf with rfl | hf
      · exact hx
      · exact keyLess_eq_false.2 ((keyLess_eq_false.1 hx).trans
          (keyLess_eq_true.1 (hs.1 _ (List.mem_map_of_mem _ hf))).le)
    · obtain ⟨ih₁, ih₂⟩ := keyLess_of_findIdx t l hs.2
      simp only [Bool.not_true, cond_false, List.take_succ_cons, List.drop_succ_cons]
      exact ⟨fun e he => (List.mem_cons.1 he).elim (fun h => h ▸ hx) (ih₁ e), ih₂⟩

/-- `seek(t)` moves past exactly the entries below `t`. -/
theorem seek_consumed {c : Cursor} {t : List UInt8} {e : List UInt8 × List UInt8}
    (he : e ∈ (c.seek t).consumed) : keyLess e.1 t = true :=
  (keyLess_of_findIdx t c.entries c.sorted).1 e he

theorem seek_unread {c : Cursor} {t : List UInt8} {f : List UInt8 × List UInt8}
    (hf : f ∈ (c.seek t).unread) : keyLess f.1 t = false :=
  (keyLess_of_findIdx t c.entries c.sorted).2 f hf

/-- `seek_to_first()` is `seek` of the empty key. -/
theorem seek_nil (c : Cursor) : c.seek [] = c.seekToFirst := by
  rcases c with ⟨_ | ⟨x, l⟩, hs, pos⟩ <;> simp [seek, seekToFirst, keyLess_nil, List.findIdx_cons]

/-- `next()` moves the first unread entry past. -/
theorem next_eq_some {c c' : Cursor} (h : c.next = some c') :
    ∃ e, c.unread = e :: c'.unread ∧ c'.consumed = c.consumed ++ [e] ∧ c'.entries = c.entries := by
  unfold next at h
  split at h
  · cases h
  · rename_i hlt
    cases h
    have hpos : c.pos < c.entries.length := by simpa [isEof] using hlt
    refine ⟨c.entries[c.pos], List.drop_eq_getElem_cons hpos, ?_, rfl⟩
    show c.entries.take (c.pos + 1) = c.entries.take c.pos ++ [c.entries[c.pos]]
    rw [List.take_succ, List.getElem?_eq_getElem hpos]
    rfl

end Cursor

namespace CombinedReader

/-! ## §2 The calls keep the entries of the sub-cursors -/

theorem apply_seekToFirst (r : CombinedReader) : Op.apply r .seekToFirst = r.seek [] := by
  show _ = ({ r with sstables := r.sstables.map fun c : Cursor => c.seek [] }).findSmallestOne
  rw [show (fun c : Cursor => c.seek []) = Cursor.seekToFirst from funext Cursor.seek_nil]
  rfl

theorem sstables_findSmallestOne {r r' : CombinedReader} {cs : List Cursor}
    (h : { r with sstables := cs }.findSmallestOne = some r') : r'.sstables = cs := by
  obtain ⟨_, rfl, -⟩ := findSmallestOne_least h
  rfl

theorem next_eq_of_current {r : CombinedReader} {j : Nat} (hj : r.current = some j) :
    r.next = (advanceAt r.sstables j).bind fun cs => { r with sstables := cs }.findSmallestOne := by
  unfold next
  split
  · rename_i h; rw [hj] at h; cases h
  · rename_i j' h; rw [hj] at h; cases h; rfl

theorem entries_advanceAt : ∀ {cs cs' : List Cursor} {j : Nat}, advanceAt cs j = some cs' →
    cs'.map Cursor.entries = cs.map Cursor.entries
  | [], _, _, h => by cases h; rfl
  | c :: cs, _, 0, h => by
    obtain ⟨c', hn, rfl⟩ := Option.map_eq_some'.1 h
    obtain ⟨_, -, -, he⟩ := Cursor.next_eq_some hn
    rw [List.map_cons, List.map_cons, he]
  | c :: cs, _, j + 1, h => by
    obtain ⟨cs', hcs', rfl⟩ := Option.map_eq_some'.1 h
    rw [List.map_cons, List.map_cons, entries_advanceAt hcs']

/-- No call changes the entries of a sub-cursor, only its position. -/
theorem entries_apply {r r' : CombinedReader} (op : Op) (h : op.apply r = some r') :
    r'.sstables.map Cursor.entries = r.sstables.map Cursor.entries := by
  cases op with
  | seekToFirst => rw [sstables_findSmallestOne h, List.map_map]; rfl
  | seekToLast => rw [sstables_findSmallestOne h, List.map_map]; rfl
  | seek key => rw [sstables_findSmallestOne h, List.map_map]; rfl
  | next =>
    cases hj : r.current with
    | none => rw [Op.apply, next, hj] at h; rw [sstables_findSmallestOne h]
    | some j =>
      obtain ⟨cs, hadv, h⟩ := next_of_current hj h
      rw [sstables_findSmallestOne h, entries_advanceAt hadv]

theorem entries_run (cs : List Cursor) (ops : List Op) {r : CombinedReader}
    (h : (make cs).run ops = some r) : r.sstables.map Cursor.entries = cs.map Cursor.entries :=
  @run_of_apply (fun r => r.sstables.map Cursor.entries = cs.map Cursor.entries)
    (fun op hr h => (entries_apply op h).trans hr) ops _ _ rfl h

/-! ## §3 `find_smallest_one` and `advanceAt` are defined while no sub-cursor is exhausted -/

theorem findSmallestLoop_lt (all : List Cursor) : ∀ (rest : List Cursor) (i smallest j : Nat),
    all.drop i = rest → smallest < all.length → findSmallestLoop all rest i smallest = some j →
      j < all.length
  | [], _, _, _, _, hs, h => by cases h; exact hs
  | c :: rest, i, smallest, j, hrest, hs, h => by
    have hc : all[i]? = some c := by simpa [hrest] using (List.getElem?_drop all i 0).symm
    obtain ⟨hi, -⟩ := List.getElem?_eq_some_iff.1 hc
    obtain ⟨a, -, h⟩ := Option.bind_eq_some.1 h
    obtain ⟨b, -, h⟩ := Option.bind_eq_some.1 h
    exact findSmallestLoop_lt all rest (i + 1) _ j (by rw [← List.drop_drop, hrest]; rfl)
      (by split_ifs <;> assumption) h

theorem findSmallestLoop_isSome (all : List Cursor) (hall : ∀ c ∈ all, c.current ≠ none) :
    ∀ (rest : List Cursor) (i smallest : Nat), all.drop i = rest → smallest < all.length →
      (findSmallestLoop all rest i smallest).isSome
  | [], _, _, _, _ => rfl
  | c :: rest, i, smallest, hrest, hs => by
    have hc : all[i]? = some c := by simpa [hrest] using (List.getElem?_drop all i 0).symm
    obtain ⟨hi, -⟩ := List.getElem?_eq_some_iff.1 hc
    obtain ⟨a, ha⟩ := Option.ne_none_iff_exists'.1 (hall c (List.getElem?_mem hc))
    obtain ⟨b, hb⟩ := Option.ne_none_iff_exists'.1 (hall _ (List.getElem_mem hs))
    rw [findSmallestLoop, ha, Option.some_bind, List.getElem?_eq_getElem hs, Option.some_bind, hb,
      Option.some_bind]
    exact findSmallestLoop_isSome all hall rest (i + 1) _ (by rw [← List.drop_drop, hrest]; rfl)
      (by split_ifs <;> assumption)

/-- `_current` is set to a sub-cursor's index. -/
theorem findSmallestOne_lt {r r' : CombinedReader} {cs : List Cursor} {j : Nat}
    (h : { r with sstables := cs }.findSmallestOne = some r') (hj : r'.current = some j) :
    j < cs.length := by
  unfold findSmallestOne at h
  dsimp only at h
  split at h
  · cases h
  · rename_i c rest
    obtain ⟨j', hj', rfl⟩ := Option.map_eq_some'.1 h
    cases hj
    exact findSmallestLoop_lt _ rest 1 0 _ rfl (Nat.succ_pos _) hj'

theorem findSmallestOne_isSome {r : CombinedReader} {cs : List Cursor} (hne : cs ≠ [])
    (hall : ∀ c ∈ cs, c.current ≠ none) : ({ r with sstables := cs }.findSmallestOne).isSome := by
  obtain ⟨c, rest, rfl⟩ := List.exists_cons_of_ne_nil hne
  show ((findSmallestLoop (c :: rest) rest 1 0).map _).isSome
  rw [Option.isSome_map']
  exact findSmallestLoop_isSome _ hall rest 1 0 rfl (Nat.succ_pos _)

theorem advanceAt_isSome : ∀ {cs : List Cursor} {j : Nat}, j < cs.length →
    (∀ c ∈ cs, c.current ≠ none) → (advanceAt cs j).isSome
  | [], _, hj, _ => absurd hj (Nat.not_lt_zero _)
  | c :: cs, 0, _, hall => by
    obtain ⟨a, ha⟩ := Option.ne_none_iff_exists'.1 (hall c (List.mem_cons_self _ _))
    obtain ⟨hpos, -⟩ := List.getElem?_eq_some_iff.1 ha
    simp [advanceAt, Cursor.next, Cursor.isEof, hpos]
  | c :: cs, j + 1, hj, hall => by
    simp only [advanceAt, Option.isSome_map']
    exact advanceAt_isSome (Nat.lt_of_succ_lt_succ hj) fun c' hc' => hall c' (List.mem_cons_of_mem _ hc')

/-! ## §4 The invariant of the merge -/

variable {t : List UInt8}

/-- How many entries not below `t` the sub-cursors have moved past. -/
def pastCount (t : List UInt8) (cs : List Cursor) : Nat :=
  (cs.flatMap Cursor.consumed).countP fun e => !keyLess e.1 t

/-- The order of the merge after `seek(t)`. -/
structure Ordered (t : List UInt8) (cs : List Cursor) : Prop where
  /-- No unread entry is below `t`. -/
  unread_ge : ∀ f ∈ cs.flatMap Cursor.unread, keyLess f.1 t = false
  /-- No entry moved past is above an unread one, in any sub-cursor. -/
  consumed_le : ∀ e ∈ cs.flatMap Cursor.consumed, ∀ f ∈ cs.flatMap Cursor.unread,
    keyLess f.1 e.1 = false

theorem countP_flatMap_entries (p : List UInt8 × List UInt8 → Bool) : ∀ cs : List Cursor,
    (cs.flatMap Cursor.entries).countP p =
      (cs.flatMap Cursor.consumed).countP p + (cs.flatMap Cursor.unread).countP p
  | [] => rfl
  | c :: cs => by
    rw [List.flatMap_cons, List.flatMap_cons, List.flatMap_cons, List.countP_append,
      List.countP_append, List.countP_append, ← c.consumed_append_unread, List.countP_append,
      countP_flatMap_entries p cs]
    omega

theorem ordered_seek (t : List UInt8) (cs : List Cursor) : Ordered t (cs.map fun c => c.seek t) where
  unread_ge f hf := by
    obtain ⟨_, hc, hf⟩ := List.mem_flatMap.1 hf
    obtain ⟨c, -, rfl⟩ := List.mem_map.1 hc
    exact Cursor.seek_unread hf
  consumed_le e he f hf := by
    obtain ⟨_, hc, he⟩ := List.mem_flatMap.1 he
    obtain ⟨c, -, rfl⟩ := List.mem_map.1 hc
    obtain ⟨_, hc', hf⟩ := List.mem_flatMap.1 hf
    obtain ⟨c', -, rfl⟩ := List.mem_map.1 hc'
    exact keyLess_eq_false.2 ((keyLess_eq_true.1 (Cursor.seek_consumed he)).le.trans
      (keyLess_eq_false.1 (Cursor.seek_unread hf)))

theorem pastCount_seek (t : List UInt8) (cs : List Cursor) :
    pastCount t (cs.map fun c => c.seek t) = 0 :=
  List.countP_eq_zero.2 fun e he => by
    obtain ⟨_, hc, he⟩ := List.mem_flatMap.1 he
    obtain ⟨c, -, rfl⟩ := List.mem_map.1 hc
    simp [Cursor.seek_consumed he]

theorem mem_unread_of_advanceAt {cs cs' : List Cursor} {j : Nat} (h : advanceAt cs j = some cs')
    {f : List UInt8 × List UInt8} (hf : f ∈ cs'.flatMap Cursor.unread) :
    f ∈ cs.flatMap Cursor.unread := by
  obtain ⟨c', hc', hf⟩ := List.mem_flatMap.1 hf
  rcases mem_advanceAt h c' hc' with hc' | ⟨c, hc, hn⟩
  · exact List.mem_flatMap.2 ⟨c', hc', hf⟩
  · obtain ⟨e, hu, -, -⟩ := Cursor.next_eq_some hn
    exact List.mem_flatMap.2 ⟨c, List.getElem?_mem hc, hu ▸ List.mem_cons_of_mem _ hf⟩

/-- The entries moved past after `advanceAt cs j` are those before and the current entry of the
    sub-cursor at `j`. -/
theorem mem_consumed_of_advanceAt {cs cs' : List Cursor} {j : Nat} (h : advanceAt cs j = some cs')
    {e : List UInt8 × List UInt8} (he : e ∈ cs'.flatMap Cursor.consumed) :
    e ∈ cs.flatMap Cursor.consumed ∨ (cs[j]?.bind Cursor.current) = some e := by
  obtain ⟨c', hc', he⟩ := List.mem_flatMap.1 he
  rcases mem_advanceAt h c' hc' with hc' | ⟨c, hc, hn⟩
  · exact .inl (List.mem_flatMap.2 ⟨c', hc', he⟩)
  · obtain ⟨e', hu, hcons, -⟩ := Cursor.next_eq_some hn
    rw [hcons] at he
    rcases List.mem_append.1 he with he | he
    · exact .inl (List.mem_flatMap.2 ⟨c, List.getElem?_mem hc, he⟩)
    · rw [hc, Option.some_bind, Cursor.current_of_unread_eq_cons hu, List.mem_singleton.1 he]
      exact .inr rfl

/-- `next()` keeps the order: the entry it moves past is least among the current entries, and
    every unread entry is above the current entry of its sub-cursor. -/
theorem ordered_advanceAt {cs cs' : List Cursor} {j : Nat} (ho : Ordered t cs)
    (hl : LeastAmong cs j cs) (h : advanceAt cs j = some cs') : Ordered t cs' where
  unread_ge f hf := ho.unread_ge f (mem_unread_of_advanceAt h hf)
  consumed_le e he f hf := by
    have hf := mem_unread_of_advanceAt h hf
    rcases mem_consumed_of_advanceAt h he with he | he
    · exact ho.consumed_le e he f hf
    · obtain ⟨c, hc, hf⟩ := List.mem_flatMap.1 hf
      obtain ⟨b, u, hu⟩ := List.exists_cons_of_ne_nil (List.ne_nil_of_mem hf)
      have hb := Cursor.current_of_unread_eq_cons hu
      exact keyLess_eq_false.2 ((keyLess_eq_false.1 (hl e he c hc b hb)).trans
        (keyLess_eq_false.1 (Cursor.keyLess_current_of_mem_unread hb hf)))

/-- `next()` moves past one more entry not below `t`. -/
theorem pastCount_advanceAt : ∀ {cs cs' : List Cursor} {j : Nat}, advanceAt cs j = some cs' →
    j < cs.length → (∀ f ∈ cs.flatMap Cursor.unread, keyLess f.1 t = false) →
      pastCount t cs' = pastCount t cs + 1
  | [], _, _, _, hj, _ => absurd hj (Nat.not_lt_zero _)
  | c :: cs, _, 0, h, _, hge => by
    obtain ⟨c', hn, rfl⟩ := Option.map_eq_some'.1 h
    obtain ⟨e, hu, hc, -⟩ := Cursor.next_eq_some hn
    have he : keyLess e.1 t = false :=
      hge e (List.mem_flatMap.2 ⟨c, List.mem_cons_self _ _, hu ▸ List.mem_cons_self _ _⟩)
    simp only [pastCount, List.flatMap_cons, List.countP_append, hc, List.countP_cons,
      List.countP_nil, he, Bool.not_false, if_true]
    omega
  | c :: cs, _, j + 1, h, hj, hge => by
    obtain ⟨cs', hcs', rfl⟩ := Option.map_eq_some'.1 h
    have := pastCount_advanceAt hcs' (Nat.lt_of_succ_lt_succ hj) fun f hf =>
      hge f (by rw [List.flatMap_cons]; exact List.mem_append_right _ hf)
    simp only [pastCount, List.flatMap_cons, List.countP_append] at this ⊢
    omega

/-- A sub-cursor with more entries not below `t` than have been moved past in all is not
    exhausted. -/
theorem current_ne_none_of_pastCount {cs : List Cursor} {n : Nat} (hp : pastCount t cs ≤ n)
    (hlive : ∀ c ∈ cs, n < c.entries.countP fun e => !keyLess e.1 t) :
    ∀ c ∈ cs, c.current ≠ none := by
  intro c hc hnone
  rw [c.current_eq_head?, List.head?_eq_none_iff] at hnone
  have hle : c.consumed.countP (fun e => !keyLess e.1 t) ≤ pastCount t cs := by
    rw [pastCount, List.flatMap_def]
    exact (List.sublist_flatten_of_mem (List.mem_map_of_mem _ hc)).countP_le _
  have := hlive c hc
  rw [← c.consumed_append_unread, hnone, List.append_nil] at this
  omega

/-! ## §5 A run of `next()` after `seek(t)` -/

/-- What holds after `seek(t)` and `m` calls of `next()`, over sub-cursors with entries `E`. -/
structure Merging (t : List UInt8) (E : List (List (List UInt8 × List UInt8))) (m : Nat)
    (r : CombinedReader) : Prop where
  ordered : Ordered t r.sstables
  pastCount_eq : pastCount t r.sstables = m
  entries_eq : r.sstables.map Cursor.entries = E
  selected : ∃ j, r.current = some j ∧ j < r.sstables.length ∧ LeastAmong r.sstables j r.sstables

theorem merging_seek {r r' : CombinedReader} (h : r.seek t = some r') :
    Merging t (r.sstables.map Cursor.entries) 0 r' := by
  obtain ⟨j, rfl, hl⟩ := findSmallestOne_least h
  exact ⟨ordered_seek t _, pastCount_seek t _, by rw [List.map_map]; rfl,
    ⟨j, rfl, findSmallestOne_lt h rfl, hl⟩⟩

theorem merging_next {E : List (List (List UInt8 × List UInt8))} {m : Nat} {r r' : CombinedReader}
    (hm : Merging t E m r) (h : r.next = some r') : Merging t E (m + 1) r' := by
  obtain ⟨j, hj, hlt, hl⟩ := hm.selected
  obtain ⟨cs, hadv, hfs⟩ := next_of_current hj h
  obtain ⟨j', rfl, hl'⟩ := findSmallestOne_least hfs
  exact ⟨ordered_advanceAt hm.ordered hl hadv,
    by rw [pastCount_advanceAt hadv hlt hm.ordered.unread_ge, hm.pastCount_eq],
    (entries_advanceAt hadv).trans hm.entries_eq, ⟨j', rfl, findSmallestOne_lt hfs rfl, hl'⟩⟩

theorem merging_run_next {E : List (List (List UInt8 × List UInt8))} :
    ∀ (n : Nat) {m : Nat} {r r' : CombinedReader}, Merging t E m r →
      r.run (List.replicate n .next) = some r' → Merging t E (m + n) r'
  | 0, _, _, _, hm, h => by cases h; exact hm
  | n + 1, _, _, _, hm, h => by
    obtain ⟨r₁, h₁, h⟩ := Option.bind_eq_some.1 h
    have := merging_run_next n (merging_next hm h₁) h
    rwa [Nat.add_right_comm] at this

/-- While every sub-cursor holds more than `n` entries not below `t`, `n - m` more calls of
    `next()` are defined. -/
theorem merging_run_next_isSome {E : List (List (List UInt8 × List UInt8))} {n : Nat}
    (hlive : ∀ es ∈ E, n < es.countP fun e => !keyLess e.1 t) :
    ∀ (k : Nat) {m : Nat} {r : CombinedReader}, Merging t E m r → m + k ≤ n →
      (r.run (List.replicate k .next)).isSome
  | 0, _, _, _, _ => rfl
  | k + 1, m, r, hm, hk => by
    obtain ⟨j, hj, hlt, -⟩ := hm.selected
    have hlive' : ∀ cs : List Cursor, cs.map Cursor.entries = E →
        ∀ c ∈ cs, n < c.entries.countP fun e => !keyLess e.1 t :=
      fun cs hE c hc => hlive _ (hE ▸ List.mem_map_of_mem _ hc)
    -- the sub-cursor at `_current` can advance, and then every sub-cursor has a current entry
    obtain ⟨cs, hadv⟩ := Option.isSome_iff_exists.1 (advanceAt_isSome hlt
      (current_ne_none_of_pastCount (by rw [hm.pastCount_eq]; omega) (hlive' _ hm.entries_eq)))
    have hE : cs.map Cursor.entries = E := (entries_advanceAt hadv).trans hm.entries_eq
    have hne : cs ≠ [] := fun h => by
      have := congrArg List.length (hE.trans hm.entries_eq.symm)
      rw [h, List.map_nil, List.length_nil, List.length_map] at this
      omega
    obtain ⟨r', hfs⟩ := Option.isSome_iff_exists.1 (@findSmallestOne_isSome r _ hne
      (current_ne_none_of_pastCount (by
        rw [pastCount_advanceAt hadv hlt hm.ordered.unread_ge, hm.pastCount_eq]; omega)
        (hlive' _ hE)))
    have hn : r.next = some r' := by rw [next_eq_of_current hj, hadv, Option.some_bind, hfs]
    show ((Op.apply r .next).bind fun r => r.run (List.replicate k .next)).isSome
    rw [Op.apply, hn, Option.some_bind]
    exact merging_run_next_isSome hlive k (merging_next hm hn) (by omega)

/-- After `seek(t)` and `n` calls of `next()`, the key of `current()` is the `n`-th least among
    the entries not below `t`. -/
theorem countP_of_merging {E : List (List (List UInt8 × List UInt8))} {n : Nat}
    {r : CombinedReader} {a : List UInt8 × List UInt8} (hm : Merging t E n r)
    (ha : r.currentEntry = some a) :
    (E.flatten.countP fun e => !keyLess e.1 t && keyLess e.1 a.1) ≤ n ∧
      n < E.flatten.countP fun e => !keyLess e.1 t && !keyLess a.1 e.1 := by
  rw [← hm.entries_eq, ← List.flatMap_def, countP_flatMap_entries, countP_flatMap_entries]
  obtain ⟨j, c, hj, hc, ha⟩ := currentEntry_eq_some.1 ha
  obtain ⟨j', hj', -, hl⟩ := hm.selected
  obtain rfl := Option.some_inj.1 (hj'.symm.trans hj)
  obtain ⟨u, hu⟩ := List.head?_eq_some_iff.1 (c.current_eq_head? ▸ ha)
  -- `a` is unread, not below `t`, and no unread entry is below it
  have hau : a ∈ r.sstables.flatMap Cursor.unread :=
    List.mem_flatMap.2 ⟨c, List.getElem?_mem hc, hu ▸ List.mem_cons_self _ _⟩
  have hleast : ∀ f ∈ r.sstables.flatMap Cursor.unread, keyLess f.1 a.1 = false := by
    intro f hf
    obtain ⟨c', hc', hf⟩ := List.mem_flatMap.1 hf
    obtain ⟨b, u', hu'⟩ := List.exists_cons_of_ne_nil (List.ne_nil_of_mem hf)
    have hb := Cursor.current_of_unread_eq_cons hu'
    exact keyLess_eq_false.2 ((keyLess_eq_false.1 (hl a (by rw [hc, Option.some_bind]; exact ha)
      c' hc' b hb)).trans (keyLess_eq_false.1 (Cursor.keyLess_current_of_mem_unread hb hf)))
  have hpast := hm.pastCount_eq
  rw [pastCount] at hpast
  constructor
  · -- below `a`: only entries moved past, at most `n` of them not below `t`
    have h1 : (r.sstables.flatMap Cursor.unread).countP
        (fun e => !keyLess e.1 t && keyLess e.1 a.1) = 0 :=
      List.countP_eq_zero.2 fun f hf => by simp [hleast f hf]
    have h2 : (r.sstables.flatMap Cursor.consumed).countP
        (fun e => !keyLess e.1 t && keyLess e.1 a.1) ≤
        (r.sstables.flatMap Cursor.consumed).countP fun e => !keyLess e.1 t :=
      List.countP_mono_left fun e _ he => by simp only [Bool.and_eq_true] at he; exact he.1
    omega
  · -- not above `a`: every entry moved past, and `a` itself
    have h1 : (r.sstables.flatMap Cursor.consumed).countP
        (fun e => !keyLess e.1 t && !keyLess a.1 e.1) =
        (r.sstables.flatMap Cursor.consumed).countP fun e => !keyLess e.1 t :=
      List.countP_congr fun e he => by simp [hm.ordered.consumed_le e he a hau]
    have h2 : 0 < (r.sstables.flatMap Cursor.unread).countP
        (fun e => !keyLess e.1 t && !keyLess a.1 e.1) :=
      List.countP_pos_iff.2 ⟨a, hau, by rw [hm.ordered.unread_ge a hau, keyLess_eq_false.2 le_rfl]; rfl⟩
    omega

/-- `seek(t)`, or `seek_to_first()` with `t` the empty key. -/
theorem apply_eq_seek {p : Op} (hp : p = .seek t ∨ p = .seekToFirst ∧ t = []) (r : CombinedReader) :
    p.apply r = r.seek t := by
  rcases hp with rfl | ⟨rfl, rfl⟩
  · rfl
  · exact apply_seekToFirst r

/-- `seek(t)` and `n` calls of `next()`, from any state a sequence of calls reaches from
    `make cs`, pass through a defined `seek(t)` and end in the merge invariant. -/
theorem merging_of_run (cs : List Cursor) (ops : List Op) {r₀ : CombinedReader}
    (h₀ : (make cs).run ops = some r₀) {p : Op} (hp : p = .seek t ∨ p = .seekToFirst ∧ t = [])
    {n : Nat} {r : CombinedReader} (h : r₀.run (p :: List.replicate n .next) = some r) :
    ∃ r₁, r₀.seek t = some r₁ ∧ r₁.run (List.replicate n .next) = some r ∧
      Merging t (cs.map Cursor.entries) n r := by
  obtain ⟨r₁, h₁, h⟩ := Option.bind_eq_some.1 h
  rw [apply_eq_seek hp] at h₁
  have hm := merging_run_next n (entries_run cs ops h₀ ▸ merging_seek h₁) h
  rw [Nat.zero_add] at hm
  exact ⟨r₁, h₁, h, hm⟩

/-- From any reader over sub-cursors of entries `E`, none of them empty, each with more than `n`
    entries not below `t`: `seek(t)` and `n` calls of `next()` are defined and end on a current
    entry. -/
theorem seek_run_next_current {E : List (List (List UInt8 × List UInt8))} {n : Nat}
    {r₀ : CombinedReader} (hE : r₀.sstables.map Cursor.entries = E) (hne : E ≠ [])
    (hlive : ∀ es ∈ E, n < es.countP fun e => !keyLess e.1 t) :
    ∃ r₁ r a, r₀.seek t = some r₁ ∧ r₁.run (List.replicate n .next) = some r ∧
      r.currentEntry = some a := by
  -- `seek(t)` is defined: every sub-cursor still has an entry not below `t`
  have hE' : (r₀.sstables.map fun c => c.seek t).map Cursor.entries = E := by
    rw [List.map_map]; exact hE
  have hne' : (r₀.sstables.map fun c => c.seek t) ≠ [] := fun h => hne (by rw [← hE', h]; rfl)
  obtain ⟨r₁, h₁⟩ := Option.isSome_iff_exists.1 (@findSmallestOne_isSome r₀ _ hne'
    (current_ne_none_of_pastCount (by rw [pastCount_seek]; exact Nat.zero_le n)
      fun c hc => hlive _ (hE' ▸ List.mem_map_of_mem _ hc)))
  have hm₁ : Merging t E 0 r₁ := hE ▸ merging_seek h₁
  -- then `n` calls of `next()`, after which the selected sub-cursor has a current entry
  obtain ⟨r, hr⟩ := Option.isSome_iff_exists.1 (merging_run_next_isSome hlive n hm₁ (by omega))
  have hmr := merging_run_next n hm₁ hr
  rw [Nat.zero_add] at hmr
  obtain ⟨j, hj, hlt, -⟩ := hmr.selected
  obtain ⟨a, ha⟩ := Option.ne_none_iff_exists'.1 (current_ne_none_of_pastCount
    hmr.pastCount_eq.le (fun c hc => hlive _ (hmr.entries_eq ▸ List.mem_map_of_mem _ hc))
    _ (List.getElem_mem hlt))
  refine ⟨r₁, r, a, h₁, hr, ?_⟩
  rw [currentEntry, hj, Option.some_bind, List.getElem?_eq_getElem hlt, Option.some_bind, ha]

/-- After `seek(t)`, or `seek_to_first()` with `t` the empty key, from any state a sequence of
    calls reaches, and then `n` calls of `next()`: the calls and `current()` are defined while
    every sub-cursor holds more than `n` entries not below `t`, and `current()`, where defined,
    has the `n`-th least key among the entries not below `t` of all sub-cursors. -/
theorem merge_seek_next_order_statistic (cs : List Cursor) (ops : List Op) {r₀ : CombinedReader}
    (h₀ : (make cs).run ops = some r₀) (p : Op) (t : List UInt8)
    (hp : p = .seek t ∨ p = .seekToFirst ∧ t = []) (n : Nat) :
    (cs ≠ [] → (∀ c ∈ cs, n < c.entries.countP fun e => !keyLess e.1 t) →
      ∃ r a, r₀.run (p :: List.replicate n .next) = some r ∧ r.currentEntry = some a) ∧
    ∀ r a, r₀.run (p :: List.replicate n .next) = some r → r.currentEntry = some a →
      (cs.flatMap Cursor.entries).countP (fun e => !keyLess e.1 t && keyLess e.1 a.1) ≤ n ∧
        n < (cs.flatMap Cursor.entries).countP fun e => !keyLess e.1 t && !keyLess a.1 e.1 := by
  refine ⟨fun hne hlive => ?_, fun r a h ha => ?_⟩
  · obtain ⟨r₁, r, a, h₁, hr, ha⟩ := seek_run_next_current (entries_run cs ops h₀)
      (mt List.map_eq_nil_iff.1 hne)
      fun es hes => by obtain ⟨c, hc, rfl⟩ := List.mem_map.1 hes; exact hlive c hc
    refine ⟨r, a, ?_, ha⟩
    show (p.apply r₀).bind _ = _
    rw [apply_eq_seek hp, h₁, Option.some_bind, hr]
  · obtain ⟨-, -, -, hm⟩ := merging_of_run cs ops h₀ hp h
    rw [List.flatMap_def]
    exact countP_of_merging hm ha

/-- Sub-cursors `[("a", "1"), ("c", "3")]` and `[("b", "2"), ("d", "4")]`, each with two entries:
    after `seek_to_first()` and one `next()` the merge is defined, at the second least key. -/
theorem merge_seek_next_order_statistic_at_ac_bd :
    (fun (cs : List Cursor) (ops : List Op) (r₀ : CombinedReader) (p : Op) (t : List UInt8)
        (n : Nat) => (make cs).run ops = some r₀ ∧ (p = .seek t ∨ p = .seekToFirst ∧ t = []) ∧
      (cs ≠ [] → (∀ c ∈ cs, n < c.entries.countP fun e => !keyLess e.1 t) →
        ∃ r a, r₀.run (p :: List.replicate n .next) = some r ∧ r.currentEntry = some a) ∧
      ∀ r a, r₀.run (p :: List.replicate n .next) = some r → r.currentEntry = some a →
        (cs.flatMap Cursor.entries).countP (fun e => !keyLess e.1 t && keyLess e.1 a.1) ≤ n ∧
          n < (cs.flatMap Cursor.entries).countP fun e => !keyLess e.1 t && !keyLess a.1 e.1)
      [⟨[([97], [49]), ([99], [51])], by decide, 0⟩, ⟨[([98], [50]), ([100], [52])], by decide, 0⟩]
      [] (make [⟨[([97], [49]), ([99], [51])], by decide, 0⟩,
        ⟨[([98], [50]), ([100], [52])], by decide, 0⟩]) .seekToFirst [] 1 :=
  ⟨rfl, .inr ⟨rfl, rfl⟩, merge_seek_next_order_statistic
    [⟨[([97], [49]), ([99], [51])], by decide, 0⟩, ⟨[([98], [50]), ([100], [52])], by decide, 0⟩]
    [] rfl .seekToFirst [] (.inr ⟨rfl, rfl⟩) 1⟩

/-! ## §6 Over two sub-cursors or more the merge stops before its last entries -/

theorem findSmallestLoop_current (all : List Cursor) : ∀ (rest : List Cursor) (i smallest j : Nat),
    findSmallestLoop all rest i smallest = some j →
      (∀ c ∈ rest, c.current ≠ none) ∧ (rest ≠ [] → (all[smallest]?.bind Cursor.current) ≠ none)
  | [], _, _, _, _ => ⟨fun _ h => absurd h (List.not_mem_nil _), fun h => absurd rfl h⟩
  | c :: rest, i, smallest, j, h => by
    obtain ⟨a, ha, h⟩ := Option.bind_eq_some.1 h
    obtain ⟨b, hb, h⟩ := Option.bind_eq_some.1 h
    have ih := (findSmallestLoop_current all rest (i + 1) _ j h).1
    refine ⟨fun c' hc' => ?_, fun _ => by rw [hb]; exact Option.some_ne_none b⟩
    rcases List.mem_cons.1 hc' with rfl | hc'
    · rw [ha]; exact Option.some_ne_none a
    · exact ih c' hc'

/-- `find_smallest_one()` over two sub-cursors or more reads the current entry of each. -/
theorem current_ne_none_of_findSmallestOne {r r' : CombinedReader} {cs : List Cursor}
    (h : { r with sstables := cs }.findSmallestOne = some r') (hk : 2 ≤ cs.length) :
    ∀ c ∈ cs, c.current ≠ none := by
  obtain ⟨c₀, c₁, rest, rfl⟩ : ∃ c₀ c₁ rest, cs = c₀ :: c₁ :: rest := by
    match cs, hk with
    | c₀ :: c₁ :: rest, _ => exact ⟨c₀, c₁, rest, rfl⟩
  obtain ⟨j, hj, -⟩ := Option.map_eq_some'.1 h
  obtain ⟨hrest, hfirst⟩ := findSmallestLoop_current _ _ 1 0 j hj
  intro c hc
  rcases List.mem_cons.1 hc with rfl | hc
  · simpa using hfirst (List.cons_ne_nil _ _)
  · exact hrest c hc

theorem length_le_countP_flatMap_unread {p : List UInt8 × List UInt8 → Bool} :
    ∀ cs : List Cursor, (∀ c ∈ cs, c.current ≠ none) →
      (∀ f ∈ cs.flatMap Cursor.unread, p f = true) → cs.length ≤ (cs.flatMap Cursor.unread).countP p
  | [], _, _ => Nat.zero_le _
  | c :: cs, hcur, hp => by
    rw [List.flatMap_cons] at hp ⊢
    have hne : c.unread ≠ [] := fun h =>
      hcur c (List.mem_cons_self _ _) (by rw [c.current_eq_head?, h]; rfl)
    have h1 : c.unread.countP p = c.unread.length :=
      List.countP_eq_length.2 fun f hf => hp f (List.mem_append_left _ hf)
    have h2 := length_le_countP_flatMap_unread cs (fun c' hc' => hcur c' (List.mem_cons_of_mem _ hc'))
      fun f hf => hp f (List.mem_append_right _ hf)
    rw [List.countP_append, List.length_cons, h1]
    have := List.length_pos.2 hne
    omega

/-- After `seek(t)`, or `seek_to_first()` with `t` the empty key, and `n` calls of `next()`, from
    any state, over `k ≥ 2` sub-cursors holding `N` entries not below `t`: the calls are defined
    only if `n + k ≤ N`. Every sub-cursor must still have an entry for `find_smallest_one` to be
    defined, so the merge never reaches its last `k - 1` entries. -/
theorem merge_never_reaches_last_entries (cs : List Cursor) (ops : List Op) {r₀ : CombinedReader}
    (h₀ : (make cs).run ops = some r₀) (p : Op) (t : List UInt8)
    (hp : p = .seek t ∨ p = .seekToFirst ∧ t = []) (hk : 2 ≤ cs.length) (n : Nat)
    {r : CombinedReader} (h : r₀.run (p :: List.replicate n .next) = some r) :
    n + cs.length ≤ (cs.flatMap Cursor.entries).countP fun e => !keyLess e.1 t := by
  obtain ⟨r₁, h₁, h, hm⟩ := merging_of_run cs ops h₀ hp h
  have hlen : r.sstables.length = cs.length := by
    simpa using congrArg List.length hm.entries_eq
  -- every call ends in `find_smallest_one`, which read the current entry of every sub-cursor
  have hcur : ∀ c ∈ r.sstables, c.current ≠ none := by
    refine @run_of_apply (fun r => 2 ≤ r.sstables.length → ∀ c ∈ r.sstables, c.current ≠ none)
      (fun op _ h hk' => ?_) _ _ _ (fun hk' => ?_) h (hlen ▸ hk)
    · obtain ⟨_, hfs⟩ := apply_eq_findSmallestOne op h
      rw [sstables_findSmallestOne hfs] at hk' ⊢
      exact current_ne_none_of_findSmallestOne hfs hk'
    · rw [sstables_findSmallestOne h₁] at hk' ⊢
      exact current_ne_none_of_findSmallestOne h₁ hk'
  have hcount := countP_flatMap_entries (fun e => !keyLess e.1 t) r.sstables
  rw [List.flatMap_def, hm.entries_eq, ← List.flatMap_def] at hcount
  have hpast := hm.pastCount_eq
  rw [pastCount] at hpast
  have := @length_le_countP_flatMap_unread (fun e => !keyLess e.1 t) r.sstables hcur fun f hf => by
    simp only [hm.ordered.unread_ge f hf, Bool.not_false]
  omega

/-- The sub-cursors `[a, c, e]` and `[b, d, f]` of spec §8: after `seek_to_first()` and four
    calls of `next()` the merge is at `e`, and a fifth call is undefined, never reaching `f`. -/
theorem merge_never_reaches_last_entries_at_ace_bdf :
    (fun (c₁ c₂ : Cursor) (r : CombinedReader) =>
      (make [c₁, c₂]).run [] = some (make [c₁, c₂]) ∧
        (Op.seekToFirst = .seek [] ∨ Op.seekToFirst = .seekToFirst ∧ ([] : List UInt8) = []) ∧
        2 ≤ [c₁, c₂].length ∧
        (make [c₁, c₂]).run (.seekToFirst :: List.replicate 4 .next) = some r ∧
        4 + [c₁, c₂].length ≤ ([c₁, c₂].flatMap Cursor.entries).countP fun e => !keyLess e.1 [])
      ⟨[([97], []), ([99], []), ([101], [])], by decide, 0⟩
      ⟨[([98], []), ([100], []), ([102], [])], by decide, 0⟩
      ⟨[⟨[([97], []), ([99], []), ([101], [])], by decide, 2⟩,
        ⟨[([98], []), ([100], []), ([102], [])], by decide, 2⟩], some 0, false⟩ := by
  have h : (make [⟨[([97], []), ([99], []), ([101], [])], by decide, 0⟩,
      ⟨[([98], []), ([100], []), ([102], [])], by decide, 0⟩]).run
        (.seekToFirst :: List.replicate 4 .next) =
      some ⟨[⟨[([97], []), ([99], []), ([101], [])], by decide, 2⟩,
        ⟨[([98], []), ([100], []), ([102], [])], by decide, 2⟩], some 0, false⟩ := rfl
  exact ⟨rfl, .inr ⟨rfl, rfl⟩, by decide, h,
    merge_never_reaches_last_entries _ [] rfl .seekToFirst [] (.inr ⟨rfl, rfl⟩) (by decide) 4 h⟩

end CombinedReader

end Pedis.Table
