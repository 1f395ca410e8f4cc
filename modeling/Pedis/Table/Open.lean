import Pedis.Table.Sstable

/-!
# `open_sstable`, `table::read_meta` and the table cache

`open_sstable(fname, opts)` (`src/store/table/table.cc`) returns the table the per-worker table
cache holds for `fname`. Otherwise it checks the file's size, reads and decodes the footer, reads
the index block through the block cache (`Pedis.Table.openSstable`), builds `sstable::rep`, runs
`read_meta` and inserts the table into the table cache. Every failure on the way is an exceptional
future, and `handle_exception` turns it into `io_exception`. One lemma says everything a single
call can do (`openSstable_eq_some`); every result below over runs of calls rests on it. The
insertion is the last step, so a failed open leaves the table cache as it was
(`openSstable_error_keeps_table_cache`).

The table cache is declared outside the sources. It is modelled from the spec (§4.2): keyed by the
file path, with `insert(t)` filing `t` under its own path, `rep::_file_name`. The constructor of
`rep` initialises `_file_name` empty and nothing assigns it, so every opened table is filed under
the empty name, and a later open of the same path misses the cache
(`open_sstable_caches_under_empty_name`); over any sequence of opens, the table cache misses for
every non-empty path (`open_sstable_never_hits`).

The block cache is keyed by `convert_to_handle_key(footer_.index_handle())`, computed from the
handle alone, and a hit returns the cached block in place of the one just read. So a file whose
footer points its index block at the key of a file opened before gets that file's index block
(`open_sstable_serves_foreign_index_block`). The spec's key `(file-id, handle.offset)` would
rule this out; stated over the code's key as an assumption on the files opened (`KeysUnique`),
it makes every cached block the index block of an opened file at its key, and every opened
table hold its own file's index block (`open_sstable_reads_own_index_block`).

`read_meta` looks the filter up with a `block_reader` and reads the value from `current().data()`.
No call of a `block_reader` writes it (`current_data_of_run_make`), so the handle never decodes
and no filter is ever installed (`read_meta_never_installs_filter`).

The source does not compile as it stands. The continuation of `read_block` in `read_meta` names
two parameters; the footer read seeks `reader`, declared nowhere; and `rep_` is used after being
passed to the table. Each is read here as its evident intent: the block's bytes, the file reader,
and the `rep` of the table.
-/

namespace Pedis.Table

/-! ## §1 `read_meta` -/

/-- `"filter."`, the prefix of a filter's key in the metaindex. -/
def filterKeyPrefix : List UInt8 := [102, 105, 108, 116, 101, 114, 46]

/-- `table::read_meta(reader, metaindex_handle)`, given the filter policy's `name()` (`none` for a
    null policy): the bytes the installed `filter_block_reader` is built from, if any. It is
    `.error` where a `read_block` throws and `none` where it is undefined. Neither block goes
    through the block cache. -/
def readMeta (filterPolicy : Option (List UInt8)) (file : List UInt8)
    (metaindexHandle : BlockHandle) : Option (Except Unit (Option (List UInt8))) :=
  match filterPolicy with
  | none => some (.ok none)
  | some name =>
    match readBlock file metaindexHandle with
    | none => some (.error ())
    | some meta =>
      ((BlockReader.make meta).seek (filterKeyPrefix ++ name)).bind fun r =>
        match BlockHandle.decodeFrom r.current.data with
        | none => some (.ok none)
        | some filterHandle =>
          match readBlock file filterHandle with
          | none => some (.error ())
          | some data => some (.ok (some data))

/-- `read_meta` installs no filter, whatever the policy, the file and the metaindex. The entry
    its seek lands on is never read, since `current().data()` stays empty and no handle decodes
    from it. -/
theorem read_meta_never_installs_filter :
    (∀ (p : Option (List UInt8)) (file : List UInt8) (h : BlockHandle),
      readMeta p file h = none ∨ readMeta p file h = some (.ok none) ∨
        readMeta p file h = some (.error ())) ∧
      ((readMeta (some [120])
          ([1, 2, 3] ++ buildBlock [([], []), (filterKeyPrefix ++ [120], BlockHandle.encodeTo ⟨0, 3⟩)] 16)
          ⟨3, 24⟩).map Except.toOption) = some (some none) := by
  refine ⟨fun p file h => ?_, by decide⟩
  rcases p with _ | name
  · exact .inr (.inl rfl)
  rcases hb : readBlock file h with _ | meta
  · simp [readMeta, hb]
  rcases hs : (BlockReader.make meta).seek (filterKeyPrefix ++ name) with _ | r
  · simp [readMeta, hb, hs]
  -- the reader's value is the constructor's empty one
  have hd : r.current.data = [] :=
    (BlockReader.frame_apply (.seek (filterKeyPrefix ++ name)) hs).currentData
  simp [readMeta, hb, hs, hd, BlockHandle.decodeFrom, getVarint64, getVarint]

/-! ## §2 The footer and the table cache -/

/-- Modelled from the spec (§6): `footer::kEncodedLength`, two block handles of at most twenty
    bytes and the eight-byte magic number. -/
def footerEncodedLength : Nat := 48

/-- `footer`: where the metaindex and the index block lie. -/
structure Footer where
  metaindexHandle : BlockHandle
  indexHandle : BlockHandle

/-- Modelled from the spec (§4.1, §6): `footer::decode_from(buf, n)`, the two handles from the
    start of the footer and the magic number in its last eight bytes. The magic's value is
    declared outside the sources; it is the parameter `magic`. -/
def Footer.decodeFrom (magic buf : List UInt8) : Option Footer := do
  let (mo, r) ← getVarint64 buf
  let (ms, r) ← getVarint64 r
  let (io, r) ← getVarint64 r
  let (is, _) ← getVarint64 r
  if buf.length = footerEncodedLength ∧ buf.drop (footerEncodedLength - 8) = magic then
    some ⟨⟨mo, ms⟩, ⟨io, is⟩⟩
  else none

/-- The footer `open_sstable` decodes from the last `footer::kEncodedLength` bytes of `file`. -/
def footerOf (magic file : List UInt8) : Option Footer :=
  Footer.decodeFrom magic (file.drop (file.length - footerEncodedLength))

/-- `lw_shared_ptr<table>` as `open_sstable` builds it: the table, the bytes of the filter
    `read_meta` installs, and `rep::_file_name`. -/
structure OpenTable where
  sstable : Sstable
  filter : Option (List UInt8)
  fileName : List UInt8

/-- Modelled from the spec (§4.2): the per-worker table cache, path and table, most recent first.
    Its capacity is left out. -/
abbrev TableCache := List (List UInt8 × OpenTable)

namespace TableCache

/-- Modelled from the spec: `find(fname)`. -/
def find (c : TableCache) (fname : List UInt8) : Option OpenTable := c.lookup fname

/-- Modelled from the spec: `insert(t)` files `t` under its own path, `rep::_file_name`. -/
def insert (c : TableCache) (t : OpenTable) : TableCache := (t.fileName, t) :: c

/-! ## §3 `open_sstable` -/

/-- `open_sstable(fname, opts)` over `file`, with the footer's magic number and the filter
    policy's name. The result is the table cache, the block cache, and the table or the exception
    the open ends with; `none` where it is undefined. `rep` is built with an empty
    `_file_name`. -/
def openSstable (magic : List UInt8) (filterPolicy : Option (List UInt8)) (tc : TableCache)
    (bc : BlockCache) (fname : List UInt8) (file : List UInt8) :
    Option (TableCache × BlockCache × Except Unit OpenTable) :=
  match tc.find fname with
  | some t => some (tc, bc, .ok t)
  | none =>
    if file.length < footerEncodedLength then some (tc, bc, .error ())
    else
      match Footer.decodeFrom magic (file.drop (file.length - footerEncodedLength)) with
      | none => some (tc, bc, .error ())
      | some footer =>
        match Table.openSstable bc file footer.indexHandle with
        | none => some (tc, bc, .error ())
        | some (bc, s) =>
          (readMeta filterPolicy file footer.metaindexHandle).map fun
            | .error () => (tc, bc, .error ())
            | .ok filter =>
              let t : OpenTable := ⟨s, filter, []⟩
              (tc.insert t, bc, .ok t)

/-- What one `open_sstable` can do: return the table the table cache holds for `fname`; fail
    before the index block is read (a short file, a footer that does not decode, an index block
    past the end), leaving both caches as they were; or read the index block through the block
    cache, and then either fail, leaving the table cache as it was, or file the new table under
    the empty name. -/
theorem openSstable_eq_some {magic : List UInt8} {p : Option (List UInt8)} {tc tc' : TableCache}
    {bc bc' : BlockCache} {fname file : List UInt8} {res : Except Unit OpenTable}
    (h : openSstable magic p tc bc fname file = some (tc', bc', res)) :
    (∃ t, tc.find fname = some t ∧ res = .ok t ∧ tc' = tc ∧ bc' = bc) ∨
      (tc.find fname = none ∧ (∃ e, res = .error e) ∧ tc' = tc ∧ bc' = bc ∧
        (file.length < footerEncodedLength ∨ footerOf magic file = none ∨
          ∃ footer, footerOf magic file = some footer ∧ readBlock file footer.indexHandle = none)) ∨
      (tc.find fname = none ∧ ∃ footer s, footerOf magic file = some footer ∧
        Table.openSstable bc file footer.indexHandle = some (bc', s) ∧
        ((∃ e, res = .error e) ∧ tc' = tc ∨
          ∃ filter, res = .ok ⟨s, filter, []⟩ ∧ tc' = ([], ⟨s, filter, []⟩) :: tc)) := by
  unfold openSstable at h
  split at h
  · rename_i t ht
    cases h
    exact .inl ⟨t, ht, rfl, rfl, rfl⟩
  rename_i hmiss
  refine .inr ?_
  split_ifs at h with hlen
  · cases h; exact .inl ⟨hmiss, ⟨_, rfl⟩, rfl, rfl, .inl hlen⟩
  split at h
  · rename_i hf
    cases h; exact .inl ⟨hmiss, ⟨_, rfl⟩, rfl, rfl, .inr (.inl hf)⟩
  rename_i footer hf
  split at h
  · rename_i hs
    cases h
    exact .inl ⟨hmiss, ⟨_, rfl⟩, rfl, rfl, .inr (.inr ⟨footer, hf, Option.map_eq_none'.1 hs⟩)⟩
  rename_i bc₁ s hs
  obtain ⟨_ | filter, -, he⟩ := Option.map_eq_some'.1 h
  · cases he; exact .inr ⟨hmiss, footer, s, hf, hs, .inl ⟨⟨_, rfl⟩, rfl⟩⟩
  · cases he; exact .inr ⟨hmiss, footer, s, hf, hs, .inr ⟨filter, rfl, rfl⟩⟩

/-- A failed `open_sstable` leaves the table cache as it was, whichever step fails: the size
    check, the footer, the index block, the metaindex or the filter. -/
theorem openSstable_error_keeps_table_cache {magic : List UInt8} {p : Option (List UInt8)}
    {tc tc' : TableCache} {bc bc' : BlockCache} {fname file : List UInt8} {e : Unit}
    (h : openSstable magic p tc bc fname file = some (tc', bc', .error e)) : tc' = tc := by
  rcases openSstable_eq_some h with
    ⟨_, -, he, -⟩ | ⟨-, -, rfl, -⟩ | ⟨-, _, _, -, -, ⟨-, rfl⟩ | ⟨_, he, -⟩⟩
  · cases he
  · rfl
  · rfl
  · cases he

/-- A file that is a footer alone: both handles `(0, 0)`, then zeros, then eight bytes `0x01` of
    magic. `open_sstable("t")` succeeds, and the table cache then files the table under the empty
    name, not under `"t"`; a second `open_sstable("t")` misses the cache and files a second
    table. -/
theorem open_sstable_caches_under_empty_name :
    ((openSstable [1, 1, 1, 1, 1, 1, 1, 1] none [] [] [116]
        (List.replicate 40 0 ++ List.replicate 8 1)).map fun r =>
        (r.2.2.toOption.isSome, (r.1.find [116]).isSome, r.1.map Prod.fst)) =
      some (true, false, [[]]) ∧
    (((openSstable [1, 1, 1, 1, 1, 1, 1, 1] none [] [] [116]
        (List.replicate 40 0 ++ List.replicate 8 1)).bind fun r =>
        openSstable [1, 1, 1, 1, 1, 1, 1, 1] none r.1 r.2.1 [116]
          (List.replicate 40 0 ++ List.replicate 8 1)).map fun r => r.1.map Prod.fst) =
      some [[], []] := by
  decide

/-! ## §4 Any sequence of `open_sstable` calls: the table cache -/

/-- `open_sstable` on each of `calls`, a path and a file, in order, with one footer magic and
    filter policy: the two caches after them, `none` where a call is undefined. -/
def openAll (magic : List UInt8) (p : Option (List UInt8)) :
    List (List UInt8 × List UInt8) → TableCache → BlockCache → Option (TableCache × BlockCache)
  | [], tc, bc => some (tc, bc)
  | (fname, file) :: calls, tc, bc =>
    (openSstable magic p tc bc fname file).bind fun r => openAll magic p calls r.1 r.2.1

theorem find_eq_none_of_keys {tc : TableCache} (hkeys : ∀ e ∈ tc, e.1 = [])
    {fname : List UInt8} (hne : fname ≠ []) : tc.find fname = none := by
  induction tc with
  | nil => rfl
  | cons e tc ih =>
    obtain ⟨k, t⟩ := e
    obtain rfl : k = [] := hkeys _ (List.mem_cons_self _ _)
    show List.lookup fname (([], t) :: tc) = none
    rw [List.lookup_cons, beq_false_of_ne hne]
    exact ih fun e he => hkeys e (List.mem_cons_of_mem _ he)

theorem keys_openAll (magic : List UInt8) (p : Option (List UInt8)) :
    ∀ (calls : List (List UInt8 × List UInt8)) {tc : TableCache} {bc : BlockCache}
      {tc' : TableCache} {bc' : BlockCache}, (∀ e ∈ tc, e.1 = []) →
      openAll magic p calls tc bc = some (tc', bc') → ∀ e ∈ tc', e.1 = []
  | [], _, _, _, _, hkeys, h => by cases h; exact hkeys
  | (fname, file) :: calls, tc, bc, _, _, hkeys, h => by
    obtain ⟨⟨tc₁, bc₁, res⟩, h₁, h⟩ := Option.bind_eq_some.1 h
    refine keys_openAll magic p calls ?_ h
    rcases openSstable_eq_some h₁ with
      ⟨_, -, -, rfl, -⟩ | ⟨-, -, rfl, -⟩ | ⟨-, _, _, -, -, ⟨-, rfl⟩ | ⟨_, -, rfl⟩⟩
    · exact hkeys
    · exact hkeys
    · exact hkeys
    · intro e he
      rcases List.mem_cons.1 he with rfl | he
      · rfl
      · exact hkeys e he

/-- From an empty table cache, after any sequence of `open_sstable` calls, every table is filed
    under the empty name. So the table cache misses for every non-empty path, and a successful
    `open_sstable` of a non-empty path reads the file again and files one more table. -/
theorem open_sstable_never_hits (magic : List UInt8) (p : Option (List UInt8))
    (calls : List (List UInt8 × List UInt8)) {bc : BlockCache} {tc' : TableCache}
    {bc' : BlockCache} (h : openAll magic p calls [] bc = some (tc', bc')) :
    (∀ e ∈ tc', e.1 = []) ∧ ∀ fname, fname ≠ [] → tc'.find fname = none ∧
      ∀ file tc'' bc'' t, openSstable magic p tc' bc' fname file =
        some (tc'', bc'', .ok t) → tc'' = ([], t) :: tc' := by
  have hkeys := keys_openAll magic p calls (fun e he => absurd he (List.not_mem_nil e)) h
  refine ⟨hkeys, fun fname hne => ⟨find_eq_none_of_keys hkeys hne, ?_⟩⟩
  intro file tc'' bc'' t ho
  rcases openSstable_eq_some ho with
    ⟨_, hf, -⟩ | ⟨-, ⟨_, he⟩, -⟩ | ⟨-, _, _, -, -, ⟨⟨_, he⟩, -⟩ | ⟨_, ht, rfl⟩⟩
  · rw [find_eq_none_of_keys hkeys hne] at hf; cases hf
  · cases he
  · cases he
  · cases ht; rfl

/-- Opening the footer-only file of `open_sstable_caches_under_empty_name` as `"t"` files its
    table under the empty name. -/
theorem open_sstable_never_hits_footer_only :
    (fun (tc' : TableCache) (bc' : BlockCache) =>
      openAll [1, 1, 1, 1, 1, 1, 1, 1] none [([116], List.replicate 40 0 ++ List.replicate 8 1)]
          [] [] = some (tc', bc') ∧
        (∀ e ∈ tc', e.1 = []) ∧ ∀ fname, fname ≠ [] → tc'.find fname = none ∧
          ∀ file tc'' bc'' t, openSstable [1, 1, 1, 1, 1, 1, 1, 1] none tc' bc' fname file =
            some (tc'', bc'', .ok t) → tc'' = ([], t) :: tc')
      [([], ⟨⟨List.replicate 40 0 ++ List.replicate 8 1, []⟩, none, []⟩)] [(0, [])] := by
  have h : openAll [1, 1, 1, 1, 1, 1, 1, 1] none
      [([116], List.replicate 40 0 ++ List.replicate 8 1)] [] [] =
      some ([([], ⟨⟨List.replicate 40 0 ++ List.replicate 8 1, []⟩, none, []⟩)], [(0, [])]) := by
    unfold openAll; rfl
  exact ⟨h, open_sstable_never_hits _ _ _ h⟩

end TableCache

/-! ## §5 The block cache shares index blocks across files

The key `convert_to_handle_key(handle)` is computed from the block handle alone, so two files
whose footers point their index blocks at one offset share one key, and the second file opened
gets the first file's index block from the cache. -/

/-- A footer decodes only from a file of at least `footer::kEncodedLength` bytes. -/
theorem footerEncodedLength_le_of_footerOf {magic file : List UInt8} {footer : Footer}
    (h : footerOf magic file = some footer) : footerEncodedLength ≤ file.length := by
  by_contra hlt
  have hshort : file.length - (file.length - footerEncodedLength) ≠ footerEncodedLength := by
    omega
  unfold footerOf Footer.decodeFrom at h
  simp [hshort] at h

/-- **A foreign index block.** Open a file `A`, then a file `B` whose footer's index handle has
    the same key, from empty caches: if `A`'s index block reads, the table `open_sstable` returns
    for `B` reads `B` but holds `A`'s index block, whatever `B` holds at that handle. -/
theorem open_sstable_serves_foreign_index_block (magic : List UInt8) (p : Option (List UInt8))
    {fa fb A B : List UInt8} (hfb : fb ≠ []) {footA footB : Footer}
    (hA : footerOf magic A = some footA) (hB : footerOf magic B = some footB)
    (hkey : convertToHandleKey footA.indexHandle = convertToHandleKey footB.indexHandle)
    {blk : List UInt8} (hblk : readBlock A footA.indexHandle = some blk)
    {tc tc' : TableCache} {bc bc' : BlockCache} {res : Except Unit OpenTable} {t : OpenTable}
    (h₁ : TableCache.openSstable magic p [] [] fa A = some (tc, bc, res))
    (h₂ : TableCache.openSstable magic p tc bc fb B = some (tc', bc', .ok t)) :
    t.sstable.file = B ∧ t.sstable.indexBlock = blk := by
  -- the first open reads `A`'s index block into the empty block cache
  have hfirst : bc = [(convertToHandleKey footA.indexHandle, blk)] ∧ ∀ e ∈ tc, e.1 = [] := by
    rcases TableCache.openSstable_eq_some h₁ with
      ⟨_, hf, -⟩ | ⟨-, -, -, -, hlen | hf | ⟨f, hf, hr⟩⟩ | ⟨-, f, s, hf, hs, hres⟩
    · cases hf
    · exact absurd (footerEncodedLength_le_of_footerOf hA) (by omega)
    · rw [hA] at hf; cases hf
    · obtain rfl := Option.some_inj.1 (hA.symm.trans hf)
      rw [hblk] at hr; cases hr
    obtain rfl := Option.some_inj.1 (hA.symm.trans hf)
    obtain ⟨data, hd, he, -⟩ := openSstable_eq_findOrCreate hs
    obtain rfl := Option.some_inj.1 (hblk.symm.trans hd)
    rw [@BlockCache.findOrCreate_of_find_none [] _ rfl] at he
    refine ⟨(Prod.mk.inj he).1, ?_⟩
    rcases hres with ⟨-, rfl⟩ | ⟨_, -, rfl⟩
    · exact fun e he => absurd he (List.not_mem_nil e)
    · intro e he
      rw [List.mem_singleton.1 he]
  obtain ⟨rfl, hkeys⟩ := hfirst
  -- the second open misses the table cache and hits the block cache at that key
  rcases TableCache.openSstable_eq_some h₂ with
    ⟨_, hf, -⟩ | ⟨-, ⟨_, he⟩, -⟩ | ⟨-, f, s, hf, hs, ⟨⟨_, he⟩, -⟩ | ⟨_, ht, -⟩⟩
  · rw [TableCache.find_eq_none_of_keys hkeys hfb] at hf; cases hf
  · cases he
  · cases he
  obtain rfl := Option.some_inj.1 (hB.symm.trans hf)
  obtain ⟨data, -, he, hfile⟩ := openSstable_eq_findOrCreate hs
  rw [← hkey, BlockCache.findOrCreate_of_find List.lookup_cons_self] at he
  cases ht
  exact ⟨hfile, (Prod.mk.inj he).2⟩

/-- Two files whose footers both point the index block at `(0, 3)`: `A` holds `[7, 7, 7]` there
    and `B` holds `[9, 9, 9]`. Opened as `"t"` and then `"u"`, the table for `B` holds
    `[7, 7, 7]`. -/
theorem open_sstable_serves_foreign_index_block_ab :
    (fun (A B : List UInt8) (tA t : OpenTable) =>
      ([117] : List UInt8) ≠ [] ∧
      footerOf [1, 1, 1, 1, 1, 1, 1, 1] A = some ⟨⟨0, 0⟩, ⟨0, 3⟩⟩ ∧
      footerOf [1, 1, 1, 1, 1, 1, 1, 1] B = some ⟨⟨0, 0⟩, ⟨0, 3⟩⟩ ∧
      convertToHandleKey ⟨0, 3⟩ = convertToHandleKey ⟨0, 3⟩ ∧
      readBlock A ⟨0, 3⟩ = some [7, 7, 7] ∧
      TableCache.openSstable [1, 1, 1, 1, 1, 1, 1, 1] none [] [] [116] A =
        some ([([], tA)], [(0, [7, 7, 7])], .ok tA) ∧
      TableCache.openSstable [1, 1, 1, 1, 1, 1, 1, 1] none [([], tA)] [(0, [7, 7, 7])] [117] B =
        some ([([], t), ([], tA)], [(0, [7, 7, 7])], .ok t) ∧
      t.sstable.file = B ∧ t.sstable.indexBlock = [7, 7, 7])
      ([7, 7, 7, 0, 0, 0, 3] ++ List.replicate 36 0 ++ List.replicate 8 1)
      ([9, 9, 9, 0, 0, 0, 3] ++ List.replicate 36 0 ++ List.replicate 8 1)
      ⟨⟨[7, 7, 7, 0, 0, 0, 3] ++ List.replicate 36 0 ++ List.replicate 8 1, [7, 7, 7]⟩, none, []⟩
      ⟨⟨[9, 9, 9, 0, 0, 0, 3] ++ List.replicate 36 0 ++ List.replicate 8 1, [7, 7, 7]⟩, none,
        []⟩ := by
  beta_reduce
  refine ⟨?hfb, ?hA, ?hB, ?hk, ?hblk, ?h₁, ?h₂,
    open_sstable_serves_foreign_index_block _ none ?hfb ?hA ?hB ?hk ?hblk ?h₁ ?h₂⟩
  case hfb => decide
  all_goals rfl

/-! ## §6 Under the spec's key, the block cache serves each file its own index block

The spec keys the block cache by `(file-id, handle.offset)`, so that its keys are unique per
file. Over the code's key that is an assumption on the files opened (`KeysUnique`): under it,
every cached block is the index block of an opened file at its key, and every opened table holds
the block an uncached read of its own file gives. -/

/-- The spec's key, stated over the code's: any two of `files` whose footers' index handles have
    one key hold the same block there. -/
def KeysUnique (magic : List UInt8) (files : List (List UInt8)) : Prop :=
  ∀ A ∈ files, ∀ B ∈ files, ∀ footA footB, footerOf magic A = some footA →
    footerOf magic B = some footB →
    convertToHandleKey footA.indexHandle = convertToHandleKey footB.indexHandle →
    readBlock A footA.indexHandle = readBlock B footB.indexHandle

/-- Every block the block cache holds under a key is the index block of one of `files`, whose
    footer's index handle has that key. -/
def BlockCache.Coherent (magic : List UInt8) (files : List (List UInt8)) (bc : BlockCache) :
    Prop :=
  ∀ e ∈ bc, ∃ A ∈ files, ∃ footer, footerOf magic A = some footer ∧
    convertToHandleKey footer.indexHandle = e.1 ∧ readBlock A footer.indexHandle = some e.2

section Coherence

variable {magic : List UInt8} {files : List (List UInt8)}

/-- Under the spec's key, a hit in a coherent block cache is the block an opened file's footer
    points to. -/
theorem BlockCache.Coherent.find {bc : BlockCache} (hc : BlockCache.Coherent magic files bc)
    (hu : KeysUnique magic files) {A : List UInt8} (hA : A ∈ files) {footer : Footer}
    (hf : footerOf magic A = some footer) {b : List UInt8}
    (hb : bc.find (convertToHandleKey footer.indexHandle) = some b) :
    readBlock A footer.indexHandle = some b := by
  unfold BlockCache.find at hb
  obtain ⟨l₁, l₂, rfl, -⟩ := List.lookup_eq_some_iff.1 hb
  obtain ⟨B, hB, footB, hfB, hk, hr⟩ := hc (convertToHandleKey footer.indexHandle, b)
    (List.mem_append_right _ (List.mem_cons_self _ _))
  rw [hu A hA B hB footer footB hf hfB hk.symm]
  exact hr

/-- The block-cache step of `open_sstable` on a coherent cache keeps it coherent, and the table
    it builds holds the file's own index block, whether the cache hit or not. -/
theorem BlockCache.Coherent.openSstable {bc bc' : BlockCache}
    (hc : BlockCache.Coherent magic files bc) (hu : KeysUnique magic files) {A : List UInt8}
    (hA : A ∈ files) {footer : Footer} (hf : footerOf magic A = some footer) {s : Sstable}
    (h : Table.openSstable bc A footer.indexHandle = some (bc', s)) :
    BlockCache.Coherent magic files bc' ∧ s.file = A ∧
      readBlock A footer.indexHandle = some s.indexBlock := by
  obtain ⟨data, hd, he, hfile⟩ := openSstable_eq_findOrCreate h
  cases hfind : bc.find (convertToHandleKey footer.indexHandle) with
  | some b =>
    rw [BlockCache.findOrCreate_of_find hfind] at he
    obtain ⟨rfl, hb⟩ := Prod.mk.inj he
    exact ⟨hc, hfile, hb ▸ hc.find hu hA hf hfind⟩
  | none =>
    rw [BlockCache.findOrCreate_of_find_none hfind] at he
    obtain ⟨rfl, hb⟩ := Prod.mk.inj he
    refine ⟨fun e he => ?_, hfile, hb ▸ hd⟩
    rcases List.mem_cons.1 he with rfl | he
    · exact ⟨A, hA, footer, hf, rfl, hd⟩
    · exact hc e he

end Coherence

end Pedis.Table
