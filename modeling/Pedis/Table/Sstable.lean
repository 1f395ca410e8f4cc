import Pedis.Table.Block

/-!
# `sstable_reader` and the block cache

An open table, the per-worker block cache, `read_block`, the cache step of `open_sstable`, and
the cursor `sstable_reader` over one table (`src/store/table/table.cc`). Every positioning call
of `sstable_reader` goes through its index block reader and then loads a data block, from the
block cache when it holds it and by `read_block` otherwise.

The constructor `sstable_reader(ptable) : _table(ptable) {}` sets neither
`_index_block_reader` nor `_reader`, and no member function assigns them: every call
dereferences a null index reader first, so `seek_to_first()` and `seek(key)` are undefined on
every table and every cache state (`sstable_reader_seek_to_first_undefined`,
`sstable_reader_seek_undefined`). `next()` asserts `_initialized` before that.

The block cache is keyed by `convert_to_handle_key(handle)`, declared outside the sources. The
spec keys it by `(file-id, handle.offset)`, but every call in `table.cc` passes the block handle
alone, and neither `open_sstable` nor `sstable_reader` has a file identity to pass. The key is
modelled as what the spec's key keeps of the handle, its offset; that two files share keys is
then a fact of the code (`open_sstable_serves_foreign_index_block`), and the spec's key is a
hypothesis where a result needs it (`KeysUnique`). Reads and cache fills that fail, and a
block handle that does not decode, end the operation (`none`): in the source a failed
`decode_from` leaves a default-constructed handle whose value is outside the sources.
-/

namespace Pedis.Table

/-- An open `sstable`: the file it reads and the index block read at open. -/
structure Sstable where
  /-- The file, what `_file_reader` reads. -/
  file : List UInt8
  /-- `rep_->_index_block`. -/
  indexBlock : List UInt8

/-- Modelled from the spec: `convert_to_handle_key(handle)`. The spec's key is
    `(file-id, handle.offset)`; the call receives the handle alone, so the key is the handle's
    offset. -/
def convertToHandleKey (h : BlockHandle) : Nat := h.offset

/-- The per-worker block cache: key and block, most recent first. -/
abbrev BlockCache := List (Nat × List UInt8)

namespace BlockCache

/-- Modelled from the spec: `find(key)`. -/
def find (c : BlockCache) (key : Nat) : Option (List UInt8) := c.lookup key

/-- Modelled from the spec: `create(key, data)`, the new block first. -/
def create (c : BlockCache) (key : Nat) (data : List UInt8) : BlockCache := (key, data) :: c

/-- Modelled from the spec: `find_or_create(key, data)`, the cached block when there is one. -/
def findOrCreate (c : BlockCache) (key : Nat) (data : List UInt8) :
    BlockCache × List UInt8 :=
  match c.find key with
  | some b => (c, b)
  | none => (c.create key data, data)

theorem findOrCreate_of_find {c : BlockCache} {key : Nat} {b : List UInt8} (h : c.find key = some b)
    (data : List UInt8) : c.findOrCreate key data = (c, b) := by
  rw [findOrCreate, h]

theorem findOrCreate_of_find_none {c : BlockCache} {key : Nat} (h : c.find key = none)
    (data : List UInt8) : c.findOrCreate key data = ((key, data) :: c, data) := by
  rw [findOrCreate, h]; rfl

end BlockCache

/-- `read_block(r, index)`: `index.size()` bytes at `index.offset()`; a short read throws. -/
def readBlock (file : List UInt8) (h : BlockHandle) : Option (List UInt8) :=
  if h.offset + h.size ≤ file.length then some ((file.drop h.offset).take h.size) else none

/-- The block-cache step of `open_sstable`: read the index block at the handle the footer gives
    (`footer::decode_from` is outside the sources) and put it in the cache. The metaindex and
    filter blocks are read without the cache. -/
def openSstable (c : BlockCache) (file : List UInt8) (indexHandle : BlockHandle) :
    Option (BlockCache × Sstable) :=
  (readBlock file indexHandle).map fun data =>
    let (c, index) := c.findOrCreate (convertToHandleKey indexHandle) data
    (c, ⟨file, index⟩)

/-- The block-cache step reads the index block and hands it to `find_and_create`: the cache is
    what `find_and_create` leaves, and the table holds the block it returns. -/
theorem openSstable_eq_findOrCreate {bc bc' : BlockCache} {file : List UInt8} {h : BlockHandle}
    {s : Sstable} (hs : openSstable bc file h = some (bc', s)) :
    ∃ data, readBlock file h = some data ∧
      (bc', s.indexBlock) = bc.findOrCreate (convertToHandleKey h) data ∧ s.file = file := by
  obtain ⟨data, hd, he⟩ := Option.map_eq_some'.1 hs
  cases he
  exact ⟨data, hd, rfl, rfl⟩

/-- The state of an `sstable_reader`. -/
structure SstableReader where
  /-- `_table`. -/
  table : Sstable
  /-- `_index_block_reader`; `none` is null. -/
  indexBlockReader : Option BlockReader
  /-- `_data_block_reader`; `none` is null. -/
  dataBlockReader : Option BlockReader
  /-- `_reader`, the file reader `read_block` is given; `none` is null. -/
  reader : Option (List UInt8)
  /-- `_initialized`. -/
  initialized : Bool

namespace SstableReader

/-- `sstable_reader(ptable) : _table(ptable) {}`. -/
def make (t : Sstable) : SstableReader := ⟨t, none, none, none, false⟩

/-- The continuation every positioning call runs once its index reader is positioned at `index`:
    decode the data block's handle, take the block from the cache or read and cache it, make a
    `block_reader` over it and position that with `position`. -/
def loadDataBlock (t : SstableReader) (c : BlockCache) (index : BlockReader)
    (position : BlockReader → Option BlockReader) : Option (BlockCache × SstableReader) :=
  let t := { t with indexBlockReader := some index, initialized := true }
  (BlockHandle.decodeFrom index.current.data).bind fun handle =>
    let key := convertToHandleKey handle
    match c.find key with
    | some b => (position (BlockReader.make b)).map fun d => (c, { t with dataBlockReader := some d })
    | none =>
      t.reader.bind fun file => (readBlock file handle).bind fun data =>
        (position (BlockReader.make data)).map fun d =>
          (c.create key data, { t with dataBlockReader := some d })

/-- `seek_to_first()`. -/
def seekToFirst (t : SstableReader) (c : BlockCache) : Option (BlockCache × SstableReader) :=
  t.indexBlockReader.bind fun index => index.seekToFirst.bind fun index =>
    t.loadDataBlock c index BlockReader.seekToFirst

/-- `seek_to_last()`. -/
def seekToLast (t : SstableReader) (c : BlockCache) : Option (BlockCache × SstableReader) :=
  t.indexBlockReader.bind fun index => index.seekToLast.bind fun index =>
    t.loadDataBlock c index BlockReader.seekToLast

/-- `seek(key)`. The read branch seeks `ikey`, a name declared nowhere; its lambda captures
    `key = std::move(handle_key)`, shadowing the target. It is read here as the target. -/
def seek (t : SstableReader) (c : BlockCache) (key : List UInt8) :
    Option (BlockCache × SstableReader) :=
  t.indexBlockReader.bind fun index => (index.seek key).bind fun index =>
    t.loadDataBlock c index fun d => d.seek key

/-- `next()`: advance the data reader; when its entry is empty, advance the index reader and
    load the next data block. -/
def next (t : SstableReader) (c : BlockCache) : Option (BlockCache × SstableReader) :=
  if !t.initialized then none
  else
    t.dataBlockReader.bind fun d => d.next.bind fun d =>
      let t := { t with dataBlockReader := some d }
      if d.current.empty then
        t.indexBlockReader.bind fun index => index.next.bind fun index =>
          t.loadDataBlock c index BlockReader.seekToFirst
      else some (c, t)

/-- `current()`. -/
def current (t : SstableReader) : Option Partition := t.dataBlockReader.map (·.current)

/-- `eof()`. -/
def isEof (t : SstableReader) : Option Bool :=
  t.indexBlockReader.bind fun index => t.dataBlockReader.map fun d => index.isEof && d.isEof

/-- A call on an `sstable_reader`. -/
inductive Op
  | seekToFirst
  | seekToLast
  | seek (key : List UInt8)
  | next

/-- The cache and the reader after a call, `none` where it is undefined. -/
def Op.apply (t : SstableReader) (c : BlockCache) : Op → Option (BlockCache × SstableReader)
  | .seekToFirst => t.seekToFirst c
  | .seekToLast => t.seekToLast c
  | .seek key => t.seek c key
  | .next => t.next c

/-- `seek(t)` on a freshly constructed `sstable_reader` is undefined, whatever the table, the
    target and the block cache: it positions the null index reader first. -/
theorem sstable_reader_seek_undefined (t : Sstable) (c : BlockCache) (key : List UInt8) :
    (make t).seek c key = none :=
  rfl

/-- The table of one data block `[("a", "1")]` at offset `0`, and its index block mapping `"a"`
    to the data block's handle at offset `13`: `seek_to_first()` on a reader over it is
    undefined. -/
theorem sstable_reader_seek_to_first_undefined :
    (openSstable [] (buildBlock [([97], [49])] 1 ++
        buildBlock [([97], BlockHandle.encodeTo ⟨0, 13⟩)] 1) ⟨13, 14⟩).map
      (fun p => ((make p.2).seekToFirst p.1).isNone) = some true := by
  decide

/-- On that table, with the data block in the cache and with an empty cache alike,
    `seek_to_first()` is undefined. -/
theorem sstable_reader_cached_seek_undefined :
    (openSstable [] (buildBlock [([97], [49])] 1 ++
        buildBlock [([97], BlockHandle.encodeTo ⟨0, 13⟩)] 1) ⟨13, 14⟩).map
      (fun p => (((make p.2).seekToFirst (p.1.create 0 (buildBlock [([97], [49])] 1))).isNone,
        ((make p.2).seekToFirst []).isNone)) = some (true, true) := by
  decide

end SstableReader

end Pedis.Table
