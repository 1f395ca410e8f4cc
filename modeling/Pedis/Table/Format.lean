import Pedis.Bytes
import Mathlib.Algebra.Group.Nat.Basic
import Mathlib.Order.Lattice

/-!
# The table format: varints, entries, block handles and blocks

`table.cc` decodes blocks with `decode_entry`, `decode_fixed32`, `block_handle::decode_from` and
`block::num_restarts()`, declared in `store/util/coding.hh`, `store/table/format.hh` and
`store/table/block.hh`, which are not among the sources. They are modelled here from the
bit-exact format of spec §4.1 and §6:

- a block is a sequence of entries, then `num_restarts` little-endian 32-bit restart offsets,
  then `num_restarts` itself;
- an entry is varint32 `shared`, varint32 `non_shared`, varint32 `value_length`, the
  `non_shared` bytes of the key delta and the `value_length` bytes of the value;
- a block handle is two varint64, offset and size.

Decoders read a byte sequence and return what they decoded with the bytes after it, `none` on a
truncated input. `buildBlock` lays a list of entries out as §6 prescribes; the results about
`block_reader` in `Pedis.Table.BlockLoops` take their blocks from it. The decoders read back what
the format lays out, whatever follows it (`BlockHandle.decodeFrom_encodeTo`,
`decodeEntry_encodeEntry`).
-/

namespace Pedis.Table

/-- The injected bytewise comparator of spec §4.7: `compare(a, b) < 0`. -/
def keyLess (a b : Bytes) : Bool := decide (a < b)

@[simp] theorem keyLess_eq_true {a b : Bytes} : keyLess a b = true ↔ a < b := decide_eq_true_iff

@[simp] theorem keyLess_eq_false {a b : Bytes} : keyLess a b = false ↔ b ≤ a := by
  simp [keyLess]

/-! ## Varints and fixed-width integers -/

/-- Modelled from the spec: a base-128 varint of at most `width` bytes, least significant group
    first, the high bit set on every byte but the last; `none` when the bytes end inside it or it
    needs more than `width` bytes. -/
def getVarint : Nat → List UInt8 → Option (Nat × List UInt8)
  | 0, _ => none
  | _ + 1, [] => none
  | width + 1, b :: rest =>
    if b.toNat < 128 then some (b.toNat, rest)
    else (getVarint width rest).map fun (v, r) => (b.toNat - 128 + 128 * v, r)

/-- Modelled from the spec: `GetVarint32`, at most five bytes, modulo `2^32`. -/
def getVarint32 (bytes : List UInt8) : Option (Nat × List UInt8) :=
  (getVarint 5 bytes).map fun (v, r) => (v % 2 ^ 32, r)

/-- Modelled from the spec: `GetVarint64`, at most ten bytes, modulo `2^64`. -/
def getVarint64 (bytes : List UInt8) : Option (Nat × List UInt8) :=
  (getVarint 10 bytes).map fun (v, r) => (v % 2 ^ 64, r)

/-- Modelled from the spec: the varint encoding of `v` in at most `width` bytes. -/
def putVarint : Nat → Nat → List UInt8
  | 0, _ => []
  | width + 1, v =>
    if v < 128 then [UInt8.ofNat v] else UInt8.ofNat (v % 128 + 128) :: putVarint width (v / 128)

/-- Modelled from the spec: `PutVarint32`. -/
def putVarint32 (v : Nat) : List UInt8 := putVarint 5 v

/-- Modelled from the spec: `decode_fixed32`, four bytes little-endian; `none` past the end. -/
def decodeFixed32 : List UInt8 → Option Nat
  | b0 :: b1 :: b2 :: b3 :: _ =>
    some (b0.toNat + 256 * b1.toNat + 65536 * b2.toNat + 16777216 * b3.toNat)
  | _ => none

theorem decodeFixed32_isSome {l : List UInt8} (h : 4 ≤ l.length) : (decodeFixed32 l).isSome := by
  rcases l with _ | ⟨_, _ | ⟨_, _ | ⟨_, _ | ⟨_, _⟩⟩⟩⟩ <;> simp_all [decodeFixed32]

/-- Modelled from the spec: `encode_fixed32`, four bytes little-endian. -/
def putFixed32 (v : Nat) : List UInt8 :=
  [UInt8.ofNat v, UInt8.ofNat (v / 256), UInt8.ofNat (v / 65536), UInt8.ofNat (v / 16777216)]

/-! ## Entries, handles, blocks -/

/-- Modelled from the spec: `decode_entry(p, limit, &shared, &non_shared, &value_length)` on the
    bytes from `p` to `limit`: the three varints of an entry header and the bytes after them,
    `none` when the header is truncated or the key delta and the value overrun `limit`. -/
def decodeEntry (window : List UInt8) : Option (Nat × Nat × Nat × List UInt8) := do
  let (shared, r) ← getVarint32 window
  let (nonShared, r) ← getVarint32 r
  let (valueLength, r) ← getVarint32 r
  if nonShared + valueLength ≤ r.length then some (shared, nonShared, valueLength, r) else none

/-- `block_handle`: where a block lies in the file. -/
structure BlockHandle where
  offset : Nat
  size : Nat
deriving DecidableEq, Repr

/-- Modelled from the spec: `block_handle::decode_from`, two varint64. -/
def BlockHandle.decodeFrom (bytes : List UInt8) : Option BlockHandle := do
  let (offset, r) ← getVarint64 bytes
  let (size, _) ← getVarint64 r
  some ⟨offset, size⟩

/-- Modelled from the spec: `block_handle::encode_to`, two varint64. -/
def BlockHandle.encodeTo (h : BlockHandle) : List UInt8 := putVarint 10 h.offset ++ putVarint 10 h.size

/-- Modelled from the spec: `block::num_restarts()`, the count stored in the last four bytes of
    the block body. -/
def numRestarts (data : List UInt8) : Nat := (decodeFixed32 (data.drop (data.length - 4))).getD 0

/-! ## Building a block (spec §6) -/

/-- The length of the longest common prefix of two keys. -/
def sharedPrefixLength : List UInt8 → List UInt8 → Nat
  | a :: as, b :: bs => if a = b then sharedPrefixLength as bs + 1 else 0
  | _, _ => 0

/-- An entry laid out as §6 prescribes, its key sharing `shared` bytes with the previous one. -/
def encodeEntry (shared : Nat) (key value : List UInt8) : List UInt8 :=
  putVarint32 shared ++ putVarint32 (key.length - shared) ++ putVarint32 value.length ++
    key.drop shared ++ value

/-- A block under construction: the entries so far, the restart offsets, the entries since the
    last restart point, and the last key. -/
structure BlockBuilder where
  buffer : List UInt8
  restarts : List Nat
  counter : Nat
  lastKey : List UInt8

/-- Adding an entry with restart interval `r`: every `r`-th entry starts a restart point and keeps
    its key whole, the others share their prefix with the previous key. -/
def BlockBuilder.add (r : Nat) (b : BlockBuilder) (kv : List UInt8 × List UInt8) : BlockBuilder :=
  if b.counter < r then
    ⟨b.buffer ++ encodeEntry (sharedPrefixLength b.lastKey kv.1) kv.1 kv.2, b.restarts,
      b.counter + 1, kv.1⟩
  else ⟨b.buffer ++ encodeEntry 0 kv.1 kv.2, b.restarts ++ [b.buffer.length], 1, kv.1⟩

/-- The block image of the entries `es` with restart interval `r`: the entries, the restart
    offsets (the first at offset `0`, also for no entry), their number. -/
def buildBlock (es : List (List UInt8 × List UInt8)) (r : Nat) : List UInt8 :=
  let b := es.foldl (BlockBuilder.add r) ⟨[], [0], 0, []⟩
  b.buffer ++ (b.restarts.map putFixed32).flatten ++ putFixed32 b.restarts.length

/-! ## The decoders consume their input -/

/-- A varint consumes at least one byte. -/
theorem getVarint_length_lt : ∀ (width : Nat) {bytes rest : List UInt8} {v : Nat},
    getVarint width bytes = some (v, rest) → rest.length < bytes.length
  | 0, _, _, _, h => by cases h
  | _ + 1, [], _, _, h => by cases h
  | width + 1, b :: bs, rest, v, h => by
    rw [getVarint] at h
    split_ifs at h
    · cases h; exact Nat.lt_succ_self _
    · obtain ⟨⟨v', r'⟩, h', he⟩ := Option.map_eq_some'.1 h
      cases he
      exact Nat.lt_succ_of_lt (getVarint_length_lt width h')

theorem getVarint32_length_lt {bytes rest : List UInt8} {v : Nat}
    (h : getVarint32 bytes = some (v, rest)) : rest.length < bytes.length := by
  obtain ⟨⟨v', r'⟩, h', he⟩ := Option.map_eq_some'.1 h
  cases he
  exact getVarint_length_lt 5 h'

/-- `decode_entry` consumes the three varints of the header, at least three bytes, and leaves
    room for the key delta and the value. -/
theorem decodeEntry_spec {window rest : List UInt8} {shared nonShared valueLength : Nat}
    (h : decodeEntry window = some (shared, nonShared, valueLength, rest)) :
    rest.length + 3 ≤ window.length ∧ nonShared + valueLength ≤ rest.length := by
  simp only [decodeEntry, Option.bind_eq_bind, Option.bind_eq_some] at h
  obtain ⟨⟨_, r1⟩, h1, ⟨_, r2⟩, h2, ⟨_, r3⟩, h3, h⟩ := h
  dsimp only at h2 h3 h
  split_ifs at h with hfit
  cases h
  have := getVarint32_length_lt h1
  have := getVarint32_length_lt h2
  have := getVarint32_length_lt h3
  exact ⟨by omega, hfit⟩

/-! ## Round trips: the decoders read back what the format lays out -/

@[simp] theorem toNat_uint8_ofNat (n : Nat) : (UInt8.ofNat n).toNat = n % 256 := rfl

/-- A varint of at most `width + 1` bytes reads back, whatever follows it. -/
theorem getVarint_putVarint (rest : List UInt8) :
    ∀ (width v : Nat), v < 128 ^ (width + 1) →
      getVarint (width + 1) (putVarint (width + 1) v ++ rest) = some (v, rest)
  | width, v, h => by
    by_cases hv : v < 128
    · simp [putVarint, getVarint, hv, Nat.mod_eq_of_lt (Nat.lt_trans hv (by decide : 128 < 256))]
    · cases width with
      | zero => omega
      | succ w =>
        -- a continuation byte, then the varint of `v / 128`
        have ih := getVarint_putVarint rest w (v / 128)
          (Nat.div_lt_of_lt_mul (by rw [← Nat.pow_succ']; exact h))
        have hb : (v % 128 + 128) % 256 = v % 128 + 128 := by omega
        rw [putVarint, if_neg hv, List.cons_append, getVarint, toNat_uint8_ofNat, hb,
          if_neg (by omega), ih, Option.map_some']
        dsimp only
        congr 2
        omega

theorem getVarint32_putVarint32 (rest : List UInt8) {v : Nat} (h : v < 2 ^ 32) :
    getVarint32 (putVarint32 v ++ rest) = some (v, rest) := by
  simp only [getVarint32, putVarint32,
    getVarint_putVarint rest 4 v (Nat.lt_of_lt_of_le h (by decide)), Option.map_some',
    Nat.mod_eq_of_lt h]

theorem getVarint64_putVarint (rest : List UInt8) {v : Nat} (h : v < 2 ^ 64) :
    getVarint64 (putVarint 10 v ++ rest) = some (v, rest) := by
  simp only [getVarint64, getVarint_putVarint rest 9 v (Nat.lt_of_lt_of_le h (by decide)),
    Option.map_some', Nat.mod_eq_of_lt h]

/-- `block_handle::decode_from` reads back the handle `encode_to` wrote, whatever follows it. -/
theorem BlockHandle.decodeFrom_encodeTo (h : BlockHandle) (rest : List UInt8)
    (ho : h.offset < 2 ^ 64) (hs : h.size < 2 ^ 64) :
    BlockHandle.decodeFrom (h.encodeTo ++ rest) = some h := by
  simp [decodeFrom, encodeTo, getVarint64_putVarint _ ho, getVarint64_putVarint _ hs]

/-- The handle of the data block of `sstable_reader_seek_to_first_undefined`, at offset `0` and
    of size `13`, reads back. -/
theorem BlockHandle.decodeFrom_encodeTo_at_0_13 :
    (fun h : BlockHandle => h.offset < 2 ^ 64 ∧ h.size < 2 ^ 64 ∧
      BlockHandle.decodeFrom (h.encodeTo ++ []) = some h) ⟨0, 13⟩ :=
  ⟨by decide, by decide, BlockHandle.decodeFrom_encodeTo ⟨0, 13⟩ [] (by decide) (by decide)⟩

/-- `decode_entry` reads back the header of an entry laid out as spec §6 prescribes, and leaves
    the key delta, the value and what follows. -/
theorem decodeEntry_encodeEntry (shared : Nat) (key value rest : List UInt8)
    (hs : shared < 2 ^ 32) (hk : key.length - shared < 2 ^ 32) (hv : value.length < 2 ^ 32) :
    decodeEntry (encodeEntry shared key value ++ rest) =
      some (shared, key.length - shared, value.length, key.drop shared ++ value ++ rest) := by
  simp [decodeEntry, encodeEntry, getVarint32_putVarint32 _ hs, getVarint32_putVarint32 _ hk,
    getVarint32_putVarint32 _ hv]

/-- The entry `("ab", "2")` after the key `"a"`: one shared byte, the delta `"b"`. -/
theorem decodeEntry_encodeEntry_at_ab :
    (fun key value : List UInt8 => 1 < 2 ^ 32 ∧ key.length - 1 < 2 ^ 32 ∧ value.length < 2 ^ 32 ∧
      decodeEntry (encodeEntry 1 key value ++ [0]) =
        some (1, key.length - 1, value.length, key.drop 1 ++ value ++ [0])) [97, 98] [50] :=
  ⟨by decide, by decide, by decide,
    decodeEntry_encodeEntry 1 [97, 98] [50] [0] (by decide) (by decide) (by decide)⟩

end Pedis.Table
