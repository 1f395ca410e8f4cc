import Pedis.SortedSet.Basic

/-!
# The operations of `sset_lsa`

One definition per public method of `sset_lsa` (`src/structures/sset_lsa.hh`), built from the
primitives of `Pedis.SortedSet.Basic`. A loop over a member map or a key vector is a
`List.foldl` of its loop body, which is a definition of its own (`...Step`).

Returning an entry to the allocator (`destroy`, `erase_and_dispose`, `clear_and_dispose`) does
not change the model: addresses are never reused, so an entry disposed while still linked shows
up as a dangling link. An operation that can reach undefined behaviour on some input returns an
`Option`, `none` being the undefined case.
-/

namespace Pedis.SortedSet

/-- `std::unordered_map<bytes, double>` in its iteration order: no key occurs twice. -/
structure Members (Score : Type) where
  entries : List (Bytes × Score)
  keys_nodup : (entries.map Prod.fst).Nodup

namespace SsetLsa

variable {Score : Type} [LinearOrder Score]

/-- `sset_lsa()`: both containers empty, in a region holding `mem` whose next fresh address is
    `next`. -/
def empty (mem : Ptr → SsetEntry Score) (next : Ptr) : SsetLsa Score :=
  ⟨mem, next, [], [], 0, fun _ => 0⟩

/-! ## Insertion -/

/-- `flush_all()`: clears `_list`, disposing every entry. `_dict` is left as it is. -/
def flushAll (s : SsetLsa Score) : SsetLsa Score := { s with list := [] }

/-- `insert(e)`: links `e` into `_list`, then into `_dict`; the result is `_dict.insert`'s. -/
def insert (s : SsetLsa Score) (e : Ptr) : SsetLsa Score × Bool :=
  let (s, ordered) := s.insertOrdered e
  if ordered then s.dictInsert e else (s, false)

/-- One pass of the loop of `insert_if_not_exists`. When `insert` fails the entry is destroyed,
    which the model does not record. -/
def insertIfNotExistsStep (acc : SsetLsa Score × Nat) (member : Bytes × Score) :
    SsetLsa Score × Nat :=
  let (s, inserted) := acc
  if s.find member.1 = none then
    let (s, entry) := s.construct member.1 member.2
    let (s, ok) := s.insert entry
    (s, if ok then inserted + 1 else inserted)
  else (s, inserted)

/-- `insert_if_not_exists(members)`. -/
def insertIfNotExists (s : SsetLsa Score) (members : Members Score) : SsetLsa Score × Nat :=
  members.entries.foldl insertIfNotExistsStep (s, 0)

/-- One pass of the loop of `update_if_only_exists`: unlink from `_list`, write the score,
    insert in order again. -/
def updateIfOnlyExistsStep (acc : SsetLsa Score × Nat) (member : Bytes × Score) :
    SsetLsa Score × Nat :=
  let (s, inserted) := acc
  match s.find member.1 with
  | some it =>
    let s := { s with list := s.list.erase it }
    let (s, ok) := (s.updateEntryScore it member.2).insertOrdered it
    (s, if ok then inserted + 1 else inserted)
  | none => (s, inserted)

/-- `update_if_only_exists(members)`. -/
def updateIfOnlyExists (s : SsetLsa Score) (members : Members Score) : SsetLsa Score × Nat :=
  members.entries.foldl updateIfOnlyExistsStep (s, 0)

/-- One pass of the loop of `insert_or_update(members)`: write the score and `update` a member,
    construct and `insert` a new key. -/
def insertOrUpdateStep (acc : SsetLsa Score × Nat) (member : Bytes × Score) :
    SsetLsa Score × Nat :=
  let (s, inserted) := acc
  match s.find member.1 with
  | some it =>
    let (s, ok) := (s.updateEntryScore it member.2).update it
    (s, if ok then inserted + 1 else inserted)
  | none =>
    let (s, entry) := s.construct member.1 member.2
    let (s, ok) := s.insert entry
    (s, if ok then inserted + 1 else inserted)

/-- `insert_or_update(members)`. -/
def insertOrUpdate (s : SsetLsa Score) (members : Members Score) : SsetLsa Score × Nat :=
  members.entries.foldl insertOrUpdateStep (s, 0)

/-- `insert_or_update(key, delta)`: `result = delta`, plus the old score of a member. -/
def insertOrUpdateKey [Add Score] (s : SsetLsa Score) (key : Bytes) (delta : Score) :
    SsetLsa Score × Score :=
  match s.find key with
  | some it =>
    let result := delta + s.scoreOf it
    ((s.updateEntryScore it result).update it |>.1, result)
  | none =>
    let (s, entry) := s.construct key delta
    ((s.insert entry).1, delta)

/-- `update_score(key, delta)`: sets a member's score to `delta`. -/
def updateScore (s : SsetLsa Score) (key : Bytes) (delta : Score) : SsetLsa Score × Bool :=
  match s.find key with
  | some it => ({ s with list := s.list.erase it }.updateEntryScore it delta).insertOrdered it
  | none => (s, false)

/-! ## Removal -/

/-- One pass of the loop of `erase(entries)`: the entry is unlinked from `_dict` and from
    `_list`. Defined only for an entry linked in both. -/
def eraseEntriesStep (s : Option (SsetLsa Score)) (e : Ptr) : Option (SsetLsa Score) :=
  s.bind fun s =>
    if e ∈ s.dict ∧ e ∈ s.list then some { s with dict := s.dict.erase e, list := s.list.erase e }
    else none

/-- `erase(std::vector<const sset_entry*>&)`: returns `entries.size()`. -/
def eraseEntries (s : SsetLsa Score) (entries : List Ptr) : Option (SsetLsa Score × Nat) :=
  (entries.foldl eraseEntriesStep (some s)).map (·, entries.length)

/-- One pass of the loop of `erase(std::vector<bytes>&)`. -/
def eraseKeysStep (acc : SsetLsa Score × Nat) (key : Bytes) : SsetLsa Score × Nat :=
  let (s, removed) := acc
  match s.find key with
  | some dit => ({ s with dict := s.dict.erase dit, list := s.list.erase dit }, removed + 1)
  | none => (s, removed)

/-- `erase(std::vector<bytes>&)`. -/
def eraseKeys (s : SsetLsa Score) (keys : List Bytes) : SsetLsa Score × Nat :=
  keys.foldl eraseKeysStep (s, 0)

/-- `erase(const bytes& key)`: `removed` is the iterator `_dict.erase` returns, the entry after
    the erased one, and it is that entry which is unlinked from `_list` and disposed. When `key`
    is absent, `_dict.erase(_dict.end())` is undefined. -/
def eraseKey (s : SsetLsa Score) (key : Bytes) : Option (SsetLsa Score) :=
  match s.find key with
  | none => none
  | some it =>
    let removed := succOf s.dict it
    let s := { s with dict := s.dict.erase it }
    match removed with
    | some r => some { s with list := s.list.erase r }
    | none => some s

/-! ## Queries -/

/-- `size()`. -/
def size (s : SsetLsa Score) : Nat := s.list.length

/-- `score(key)`. -/
def score (s : SsetLsa Score) (key : Bytes) : Option Score := (s.find key).map s.scoreOf

/-- `empty()`, named apart from the constructor `empty`. -/
def isEmpty (s : SsetLsa Score) : Bool := s.list.isEmpty

/-- One pass of the loop of `fetch_by_key`: the entry of a member is pushed back. -/
def fetchByKeyStep (s : SsetLsa Score) (entries : List Ptr) (key : Bytes) : List Ptr :=
  match s.find key with
  | some e => entries ++ [e]
  | none => entries

/-- `fetch_by_key(keys, entries)`. -/
def fetchByKey (s : SsetLsa Score) (keys : List Bytes) (entries : List Ptr) : List Ptr :=
  keys.foldl s.fetchByKeyStep entries

/-- `with_entry_run(k, func)`: `func` of the entry of `k`, or of `nullptr`. -/
def withEntryRun {β : Type} (s : SsetLsa Score) (k : Bytes) (func : Option Ptr → β) : β :=
  func (s.find k)

/-! ## Queries by score and rank -/

/-- `score_out_of_range(min, max)`: `min` above the last score or `max` below the first. It
    dereferences `_list.rbegin()` and `_list.begin()`, undefined on an empty `_list`. -/
def scoreOutOfRange (s : SsetLsa Score) (min max : Score) : Option Bool :=
  match s.list.head?, s.list.getLast? with
  | some first, some last => some (decide (s.scoreOf last < min) || decide (max < s.scoreOf first))
  | _, _ => none

/-- The loop of `fetch_by_score` over the rest of `_list`: scores below `min` are skipped, the
    first score above `max` returns, the others are pushed back until `entries.size() >= limit`. -/
def fetchByScoreLoop (s : SsetLsa Score) (min max : Score) (limit : Nat) :
    List Ptr → List Ptr → List Ptr
  | entries, [] => entries
  | entries, it :: rest =>
    if s.scoreOf it < min then s.fetchByScoreLoop min max limit entries rest
    else if max < s.scoreOf it then entries
    else if limit ≤ (entries ++ [it]).length then entries ++ [it]
    else s.fetchByScoreLoop min max limit (entries ++ [it]) rest

/-- `fetch_by_score(min, max, entries, limit)`: a `limit` of `0` reads as `_list.size()`. -/
def fetchByScore (s : SsetLsa Score) (min max : Score) (entries : List Ptr) (limit : Nat) :
    Option (List Ptr) :=
  if s.list.isEmpty then some entries
  else (s.scoreOutOfRange min max).map fun out =>
    if out then entries
    else s.fetchByScoreLoop min max (if limit = 0 then s.list.length else limit) entries s.list

/-- The loop of `count_by_score` over the rest of `_list`. -/
def countByScoreLoop (s : SsetLsa Score) (min max : Score) : Nat → List Ptr → Nat
  | count, [] => count
  | count, it :: rest =>
    if s.scoreOf it < min then s.countByScoreLoop min max count rest
    else if max < s.scoreOf it then count
    else s.countByScoreLoop min max (count + 1) rest

/-- `count_by_score(min, max)`: it tests `_dict.empty()` and then reads the end scores of
    `_list`. -/
def countByScore (s : SsetLsa Score) (min max : Score) : Option Nat :=
  if s.dict.isEmpty then some 0
  else (s.scoreOutOfRange min max).map fun out =>
    if out then 0 else s.countByScoreLoop min max 0 s.list

/-- The loop of `rank`: `i` walks `_list` from its head to `lit`, counting. Running off the end,
    `lit` not being linked in `_list`, is undefined. -/
def rankLoop (lit : Ptr) : List Ptr → Option Nat
  | [] => none
  | i :: rest => if i = lit then some 0 else (rankLoop lit rest).map (· + 1)

/-- `rank(key)`: the inner `none` is the empty `optional` of an absent key, the outer `none`
    undefined behaviour. -/
def rank (s : SsetLsa Score) (key : Bytes) : Option (Option Nat) :=
  match s.find key with
  | some it => (rankLoop it s.list).map some
  | none => some none

end SsetLsa

end Pedis.SortedSet
