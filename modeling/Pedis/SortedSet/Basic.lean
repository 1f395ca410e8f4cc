import Pedis.Bytes
import Mathlib.Data.List.Sort

/-!
# The sorted set `sset_lsa`: state and primitives

`sset_lsa` links every member, an `sset_entry` allocated in the LSA region, into two intrusive
containers at once: `_dict`, a `boost::intrusive::set` ordered by key, and `_list`, a
`boost::intrusive::list` that `insert_ordered` keeps in score order. We model the region as a
map from addresses to entries and each container as the sequence of addresses it links, in its
own order. An entry is one object whichever container reaches it, so a score written through a
dictionary iterator is the score the list sees.

Scores are `double`s, modelled as any linear order with a commutative addition. A `double` is
one except for NaN, which no order places and which `+inf + -inf` produces in
`insert_or_update(key, delta)` and `update_score`: the results do not cover a state holding a NaN
score. Keys are ordered as `Pedis.Bytes`, the lexicographic order on unsigned bytes, which is the
order `sset_entry::compare` decides for keys below `2^31` bytes (`compareImpl_eq_lex`); the
results on `_dict` hold for keys below that bound. The state also carries two history
variables, `clock` and `stamp`, written only by `insert_ordered`; no operation reads them.

## Contents
- `SsetLsa`, `construct`, `updateEntryScore`: the region and the allocator
- `find`, `dictInsert`, `succOf`: the dictionary (`_dict.find`, `_dict.insert`, `_dict.erase`)
- `insertOrdered`, `update`: the score list, with `insertOrdered_eq` saying once what
  `insert_ordered` computes
-/

namespace Pedis.SortedSet

/-- An address in the allocator's region: the `sset_entry*` the containers link. -/
abbrev Ptr := Nat

/-- `sset_entry`: key and score. The hooks are the containers of `SsetLsa`; `_key_hash` is
    computed by the constructor and read nowhere. -/
structure SsetEntry (Score : Type) where
  key : Bytes
  score : Score

/-- `sset_lsa` together with the region its entries live in. -/
structure SsetLsa (Score : Type) where
  /-- The region: the entry stored at each address. -/
  mem : Ptr → SsetEntry Score
  /-- The address `construct` hands out next; addresses are never reused. -/
  next : Ptr
  /-- `_dict`, in key order. -/
  dict : List Ptr
  /-- `_list`, head first. -/
  list : List Ptr
  /-- History: the number of `insert_ordered` calls so far. -/
  clock : Nat
  /-- History: the `clock` at each entry's last `insert_ordered`. -/
  stamp : Ptr → Nat

/-! ## Ordered insertion into a list

Both containers insert in order: `_dict.insert` before the first greater key, `insert_ordered`
before the first strictly greater score. Both are `List.orderedInsert` by a strict comparison of
a key function. -/

section OrderedInsert

variable {α β : Type} [LinearOrder β] (f : α → β)

theorem orderedInsert_of_forall_not_lt (a : α) :
    ∀ l : List α, (∀ b ∈ l, ¬ f a < f b) →
      l.orderedInsert (fun p q => f p < f q) a = l ++ [a]
  | [], _ => rfl
  | b :: l, h => by
    simp only [List.orderedInsert, if_neg (h b (List.mem_cons_self b l)), List.cons_append]
    rw [orderedInsert_of_forall_not_lt a l fun c hc => h c (List.mem_cons_of_mem b hc)]

/-- Inserting before the first strictly greater element keeps a non-decreasing list so. -/
theorem pairwise_le_orderedInsert (a : α) :
    ∀ l : List α, l.Pairwise (fun p q => f p ≤ f q) →
      (l.orderedInsert (fun p q => f p < f q) a).Pairwise (fun p q => f p ≤ f q)
  | [], _ => List.pairwise_singleton _ a
  | b :: l, h => by
    rw [List.pairwise_cons] at h
    simp only [List.orderedInsert]
    split_ifs with hab
    · exact List.Pairwise.cons (fun c hc => by
        rcases List.mem_cons.1 hc with rfl | hc
        exacts [hab.le, hab.le.trans (h.1 c hc)]) (List.Pairwise.cons h.1 h.2)
    · refine List.Pairwise.cons (fun c hc => ?_) (pairwise_le_orderedInsert a l h.2)
      rcases List.mem_cons.1 ((List.perm_orderedInsert _ a l).subset hc) with rfl | hc
      exacts [not_lt.1 hab, h.1 c hc]

/-- Inserting a new key before the first greater one keeps a strictly increasing list so. -/
theorem pairwise_lt_orderedInsert (a : α) :
    ∀ l : List α, l.Pairwise (fun p q => f p < f q) → (∀ b ∈ l, f b ≠ f a) →
      (l.orderedInsert (fun p q => f p < f q) a).Pairwise (fun p q => f p < f q)
  | [], _, _ => List.pairwise_singleton _ a
  | b :: l, h, hne => by
    rw [List.pairwise_cons] at h
    simp only [List.orderedInsert]
    split_ifs with hab
    · exact List.Pairwise.cons (fun c hc => by
        rcases List.mem_cons.1 hc with rfl | hc
        exacts [hab, hab.trans (h.1 c hc)]) (List.Pairwise.cons h.1 h.2)
    · refine List.Pairwise.cons (fun c hc => ?_)
        (pairwise_lt_orderedInsert a l h.2 fun c hc => hne c (List.mem_cons_of_mem b hc))
      rcases List.mem_cons.1 ((List.perm_orderedInsert _ a l).subset hc) with rfl | hc
      exacts [lt_of_le_of_ne (not_lt.1 hab) (hne b (List.mem_cons_self b l)), h.1 c hc]

end OrderedInsert

namespace SsetLsa

variable {Score : Type}

/-! ## The region -/

/-- The key of the entry at `p`. -/
def keyOf (s : SsetLsa Score) (p : Ptr) : Bytes := (s.mem p).key

/-- The score of the entry at `p`, `e->score()`. -/
def scoreOf (s : SsetLsa Score) (p : Ptr) : Score := (s.mem p).score

/-- `current_allocator().construct<sset_entry>(key, score)`: a fresh entry, linked nowhere. -/
def construct (s : SsetLsa Score) (key : Bytes) (score : Score) : SsetLsa Score × Ptr :=
  ({ s with mem := Function.update s.mem s.next ⟨key, score⟩, next := s.next + 1 }, s.next)

/-- `e->update_score(nscore)`: writes the entry itself. -/
def updateEntryScore (s : SsetLsa Score) (p : Ptr) (nscore : Score) : SsetLsa Score :=
  { s with mem := Function.update s.mem p { s.mem p with score := nscore } }

section Region

variable (s : SsetLsa Score) (p : Ptr) (k : Bytes) (v : Score)

/-- A state rebuilt around the same region has the same keys and scores. -/
@[simp] theorem keyOf_mk (n : Ptr) (d l : List Ptr) (c : Nat) (st : Ptr → Nat) :
    keyOf (⟨s.mem, n, d, l, c, st⟩ : SsetLsa Score) = s.keyOf := rfl
@[simp] theorem scoreOf_mk (n : Ptr) (d l : List Ptr) (c : Nat) (st : Ptr → Nat) :
    scoreOf (⟨s.mem, n, d, l, c, st⟩ : SsetLsa Score) = s.scoreOf := rfl

@[simp] theorem construct_snd : (s.construct k v).2 = s.next := rfl
@[simp] theorem construct_dict : (s.construct k v).1.dict = s.dict := rfl
@[simp] theorem construct_list : (s.construct k v).1.list = s.list := rfl
@[simp] theorem construct_next : (s.construct k v).1.next = s.next + 1 := rfl
@[simp] theorem construct_clock : (s.construct k v).1.clock = s.clock := rfl
@[simp] theorem construct_stamp : (s.construct k v).1.stamp = s.stamp := rfl

theorem keyOf_construct : (s.construct k v).1.keyOf p = if p = s.next then k else s.keyOf p := by
  by_cases h : p = s.next <;> simp [construct, keyOf, h]

theorem scoreOf_construct :
    (s.construct k v).1.scoreOf p = if p = s.next then v else s.scoreOf p := by
  by_cases h : p = s.next <;> simp [construct, scoreOf, h]

@[simp] theorem updateEntryScore_dict : (s.updateEntryScore p v).dict = s.dict := rfl
@[simp] theorem updateEntryScore_list : (s.updateEntryScore p v).list = s.list := rfl
@[simp] theorem updateEntryScore_next : (s.updateEntryScore p v).next = s.next := rfl
@[simp] theorem updateEntryScore_clock : (s.updateEntryScore p v).clock = s.clock := rfl
@[simp] theorem updateEntryScore_stamp : (s.updateEntryScore p v).stamp = s.stamp := rfl
@[simp] theorem keyOf_updateEntryScore : (s.updateEntryScore p v).keyOf = s.keyOf := by
  funext q; by_cases h : q = p <;> simp [updateEntryScore, keyOf, h]

theorem scoreOf_updateEntryScore (q : Ptr) :
    (s.updateEntryScore p v).scoreOf q = if q = p then v else s.scoreOf q := by
  by_cases h : q = p <;> simp [updateEntryScore, scoreOf, h]

end Region

/-! ## The dictionary -/

/-- `_dict.find(key, sset_entry::compare())`; `none` is `_dict.end()`. The key is compared by
    equality of byte strings, which is what `sset_entry::compare` decides for keys below `2^31`
    bytes (`compareImpl_eq_lex`). -/
def find (s : SsetLsa Score) (key : Bytes) : Option Ptr :=
  s.dict.find? (fun p => s.keyOf p == key)

/-- `_dict.insert(*e)`: links `e` at its place in key order unless an entry with an equal key
    is linked already. The flag is `r.second`. Key order is the order of `Pedis.Bytes`, which is
    `sset_entry::compare`'s for keys below `2^31` bytes (`compareImpl_eq_lex`). -/
def dictInsert (s : SsetLsa Score) (e : Ptr) : SsetLsa Score × Bool :=
  if s.dict.any (fun p => s.keyOf p == s.keyOf e) then (s, false)
  else ({ s with dict := s.dict.orderedInsert (fun p q => s.keyOf p < s.keyOf q) e }, true)

/-- The element after `p` in `l`: the iterator `_dict.erase(it)` returns, `none` for `end()`. -/
def succOf : List Ptr → Ptr → Option Ptr
  | [], _ => none
  | q :: l, p => if q = p then l.head? else succOf l p

/-! ## The score list -/

/-- History bookkeeping of `insert_ordered`: `e` is stamped with the current time. -/
def stampNow (s : SsetLsa Score) (e : Ptr) : SsetLsa Score :=
  { s with clock := s.clock + 1, stamp := Function.update s.stamp e s.clock }

@[simp] theorem stampNow_keyOf (s : SsetLsa Score) (e : Ptr) : (s.stampNow e).keyOf = s.keyOf :=
  rfl
@[simp] theorem stampNow_scoreOf (s : SsetLsa Score) (e : Ptr) :
    (s.stampNow e).scoreOf = s.scoreOf := rfl
@[simp] theorem stampNow_dict (s : SsetLsa Score) (e : Ptr) : (s.stampNow e).dict = s.dict := rfl
@[simp] theorem stampNow_next (s : SsetLsa Score) (e : Ptr) : (s.stampNow e).next = s.next := rfl
@[simp] theorem stampNow_clock (s : SsetLsa Score) (e : Ptr) : (s.stampNow e).clock = s.clock + 1 :=
  rfl
@[simp] theorem stampNow_stamp (s : SsetLsa Score) (e : Ptr) :
    (s.stampNow e).stamp = Function.update s.stamp e s.clock := rfl

variable [LinearOrder Score]

/-- The `for` loop of `insert_ordered`: `it` walks the list and `trace` is the last element
    passed. `some l` once `e` is linked before the first score greater than `score`; `none`,
    with the final `trace`, when the loop runs off the end. -/
def insertOrderedLoop (sc : Ptr → Score) (e : Ptr) (score : Score) :
    Ptr → List Ptr → Option (List Ptr) × Ptr
  | trace, [] => (none, trace)
  | _, it :: rest =>
    if score < sc it then (some (e :: it :: rest), it)
    else
      let r := insertOrderedLoop sc e score it rest
      (r.1.map (it :: ·), r.2)

/-- `insert_ordered(e)`. Its final `return false` is unreachable: the loop only exits with
    `it == _list.end()`. -/
def insertOrdered (s : SsetLsa Score) (e : Ptr) : SsetLsa Score × Bool :=
  let score := s.scoreOf e
  let t := s.stampNow e
  match s.list with
  | [] => ({ t with list := [e] }, true)
  | it :: rest =>
    if score < s.scoreOf it then ({ t with list := e :: it :: rest }, true)
    else
      match insertOrderedLoop s.scoreOf e score it (it :: rest) with
      | (some l, _) => ({ t with list := l }, true)
      | (none, trace) =>
        if score < s.scoreOf trace then ({ t with list := e :: it :: rest }, true)
        else ({ t with list := it :: rest ++ [e] }, true)

/-- `update(e)`: unlink `e` from the list and insert it again in order. -/
def update (s : SsetLsa Score) (e : Ptr) : SsetLsa Score × Bool :=
  { s with list := s.list.erase e }.insertOrdered e

/-! ## What `insert_ordered` computes -/

/-- A loop that links `e` links it where ordered insertion by strict score comparison does. -/
theorem insertOrderedLoop_some (sc : Ptr → Score) (e : Ptr) :
    ∀ (trace : Ptr) (l l' : List Ptr), (insertOrderedLoop sc e (sc e) trace l).1 = some l' →
      l' = l.orderedInsert (fun p q => sc p < sc q) e
  | _, [], _, h => by simp [insertOrderedLoop] at h
  | _, it :: rest, l', h => by
    unfold insertOrderedLoop at h
    split_ifs at h with hlt
    · simp only [Option.some.injEq] at h
      simp [← h, hlt]
    · obtain ⟨l'', h'', rfl⟩ := Option.map_eq_some'.1 h
      simp [hlt, insertOrderedLoop_some sc e it rest l'' h'']

/-- A loop that runs off the end met no greater score, and its `trace` is an element passed. -/
theorem insertOrderedLoop_none (sc : Ptr → Score) (e : Ptr) :
    ∀ (trace : Ptr) (l : List Ptr), (insertOrderedLoop sc e (sc e) trace l).1 = none →
      (∀ q ∈ l, ¬ sc e < sc q) ∧ (insertOrderedLoop sc e (sc e) trace l).2 ∈ trace :: l
  | _, [], _ => by simp [insertOrderedLoop]
  | trace, it :: rest, h => by
    unfold insertOrderedLoop at h ⊢
    split_ifs at h ⊢ with hlt
    have ih := insertOrderedLoop_none sc e it rest (Option.map_eq_none'.1 h)
    refine ⟨fun q hq => ?_, List.mem_cons_of_mem _ ih.2⟩
    rcases List.mem_cons.1 hq with rfl | hq
    exacts [hlt, ih.1 q hq]

/-- `insert_ordered(e)` links `e` before the first entry of strictly greater score, or last,
    and succeeds. -/
theorem insertOrdered_eq (s : SsetLsa Score) (e : Ptr) :
    s.insertOrdered e =
      ({ s.stampNow e with list := s.list.orderedInsert (fun p q => s.scoreOf p < s.scoreOf q) e },
        true) := by
  unfold insertOrdered
  rcases hl : s.list with _ | ⟨it, rest⟩
  · rfl
  · simp only
    split_ifs with hlt
    · simp [hlt]
    · rcases hloop : insertOrderedLoop s.scoreOf e (s.scoreOf e) it (it :: rest) with ⟨_ | l, t⟩
      · obtain ⟨hall, ht⟩ := insertOrderedLoop_none _ e it _ (by rw [hloop])
        rw [hloop] at ht
        have htr : ¬ s.scoreOf e < s.scoreOf t :=
          (List.mem_cons.1 ht).elim (fun h => by rw [show t = it from h]; exact hlt) (hall t)
        simp only [if_neg htr, orderedInsert_of_forall_not_lt s.scoreOf e _ hall]
      · simp [insertOrderedLoop_some _ e it _ l (by rw [hloop])]

/-- `update(e)` relinks `e` at its place for its current score. -/
theorem update_eq (s : SsetLsa Score) (e : Ptr) :
    s.update e =
      ({ s.stampNow e with
          list := (s.list.erase e).orderedInsert (fun p q => s.scoreOf p < s.scoreOf q) e },
        true) := by
  rw [update, insertOrdered_eq]; rfl

end SsetLsa

end Pedis.SortedSet
