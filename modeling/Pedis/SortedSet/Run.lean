import Pedis.SortedSet.Refinement

/-!
# Runs of `sset_lsa`

The public mutating calls as data (`Op`), a run as a sequence of calls from the empty set, and
what the invariant of `Pedis.SortedSet.Invariant` becomes over runs.

Three calls break the invariant on every state where they do something:
- `insert(e)` of an entry whose key is present links `e` into `_list` before `_dict.insert`
  refuses it, and returns `false` with `e` still linked (`insert_present_key`);
- `erase(key)` unlinks from `_list` the entry after the erased one in key order, not the erased
  one (`eraseKey_breaks_inv`); for an absent key it erases `_dict.end()`;
- `flush_all()` empties `_list` only (`flushAll_breaks_inv`).

Every other call keeps it, so it holds on every run that avoids these three
(`Reachable.inv`).
-/

namespace Pedis.SortedSet

/-- A mutating call on `sset_lsa` with its arguments. `insert k v` is `insert(e)` of an entry
    freshly constructed with key `k` and score `v`. -/
inductive Op (Score : Type)
  | insert (key : Bytes) (score : Score)
  | insertIfNotExists (members : Members Score)
  | updateIfOnlyExists (members : Members Score)
  | insertOrUpdate (members : Members Score)
  | insertOrUpdateKey (key : Bytes) (delta : Score)
  | updateScore (key : Bytes) (score : Score)
  | eraseKeys (keys : List Bytes)
  | eraseEntries (entries : List Ptr)
  | eraseKey (key : Bytes)
  | flushAll

namespace Op

variable {Score : Type} [LinearOrder Score] [Add Score]

/-- The state after the call, `none` where the call is undefined. -/
def apply (s : SsetLsa Score) : Op Score → Option (SsetLsa Score)
  | .insert k v => some ((s.construct k v).1.insert s.next).1
  | .insertIfNotExists ms => some (s.insertIfNotExists ms).1
  | .updateIfOnlyExists ms => some (s.updateIfOnlyExists ms).1
  | .insertOrUpdate ms => some (s.insertOrUpdate ms).1
  | .insertOrUpdateKey k d => some (s.insertOrUpdateKey k d).1
  | .updateScore k v => some (s.updateScore k v).1
  | .eraseKeys ks => some (s.eraseKeys ks).1
  | .eraseEntries ps => (s.eraseEntries ps).map Prod.fst
  | .eraseKey k => s.eraseKey k
  | .flushAll => some s.flushAll

/-- The calls that link and unlink an entry in both containers together: all but `insert(e)` of
    a present key, `erase(key)` and `flush_all()`. -/
def Sound (s : SsetLsa Score) : Op Score → Prop
  | .insert k _ => s.find k = none
  | .eraseKey _ => False
  | .flushAll => False
  | _ => True

end Op

namespace SsetLsa

variable {Score : Type} [LinearOrder Score]

/-! ## The calls that break it -/

section Defects

variable {s : SsetLsa Score} {k : Bytes} {it : Ptr}

/-- A successor in a list without repetitions is another element of it. -/
theorem succOf_mem {r : Ptr} : ∀ {l : List Ptr}, l.Nodup → succOf l it = some r → r ∈ l ∧ r ≠ it
  | [], _, h => nomatch h
  | q :: l, hl, h => by
    rw [List.nodup_cons] at hl
    unfold succOf at h
    split_ifs at h with hq
    · subst hq
      have hr : r ∈ l := List.mem_of_mem_head? h
      exact ⟨List.mem_cons_of_mem _ hr, fun hri => hl.1 (hri ▸ hr)⟩
    · exact (succOf_mem hl.2 h).imp (List.mem_cons_of_mem _) id

/-- `insert(e)` of an entry whose key is present returns `false` with `e` linked in `_list` and
    not in `_dict`. -/
theorem insert_present_key (v : Score) (h : s.Inv) (hk : s.find k = some it) :
    ((s.construct k v).1.insert s.next).2 = false ∧
      s.next ∈ ((s.construct k v).1.insert s.next).1.list ∧
      s.next ∉ ((s.construct k v).1.insert s.next).1.dict := by
  obtain ⟨hd, hkey⟩ := (find_eq_some_iff h).1 hk
  have hfresh : s.next ∉ s.dict := fun hm => lt_irrefl _ (h.lt_next _ (h.mem_dict_iff.1 hm))
  have hany : (s.dict.any fun p =>
      (s.construct k v).1.keyOf p == (s.construct k v).1.keyOf s.next) = true :=
    List.any_eq_true.2 ⟨it, hd, by rw [beq_iff_eq, keyOf_construct_of_mem h hd, hkey,
      keyOf_construct, if_pos rfl]⟩
  simp only [insert, insertOrdered_eq, dictInsert, keyOf_mk, stampNow_keyOf, stampNow_dict,
    construct_dict, hany, if_true, construct_list]
  exact ⟨trivial, (List.perm_orderedInsert _ _ _).symm.subset (List.mem_cons_self _ _), hfresh⟩

/-- In the set `{a ↦ 1}`, `insert` of a fresh entry with key `a` returns `false` and leaves it
    linked in `_list`. -/
theorem insert_present_key_at_a :
    (fun r : SsetLsa Int × Bool => (r.2, r.1.list, r.1.dict))
      ((((empty (fun _ => ⟨[], 0⟩) 0).insertIfNotExists ⟨[([97], 1)], by decide⟩).1.construct
        [97] 2).1.insert 1) = (false, [0, 1], [0]) := by
  decide

/-- In the set `{a ↦ 1}`, the entry `insert` links for key `a` stays in `_list` only. -/
theorem insert_present_key_in_a :
    (fun s : SsetLsa Int => ((s.construct [97] 2).1.insert s.next).2 = false ∧
        s.next ∈ ((s.construct [97] 2).1.insert s.next).1.list ∧
        s.next ∉ ((s.construct [97] 2).1.insert s.next).1.dict)
      ((empty (fun _ => ⟨[], 0⟩) 0).insertIfNotExists ⟨[([97], 1)], by decide⟩).1 :=
  insert_present_key 2 (insertIfNotExists_spec (inv_empty _ _) _).1 (show _ = some 0 by decide)

/-- `erase(key)` of a member leaves a state that breaks the invariant: `_list` loses the entry
    after it in key order, or nothing when it is the last. -/
theorem eraseKey_breaks_inv (h : s.Inv) (hk : s.find k = some it) :
    ∃ t, s.eraseKey k = some t ∧ ¬ t.Inv := by
  obtain ⟨hd, -⟩ := (find_eq_some_iff h).1 hk
  have hout : it ∉ s.dict.erase it := h.dict_nodup.not_mem_erase
  rcases hs : succOf s.dict it with _ | r
  · refine ⟨{ s with dict := s.dict.erase it }, by simp [eraseKey, hk, hs], fun ht => hout ?_⟩
    exact ht.dict_perm.mem_iff.2 (h.mem_dict_iff.1 hd)
  · obtain ⟨hr, hri⟩ := succOf_mem h.dict_nodup hs
    refine ⟨{ s with dict := s.dict.erase it, list := s.list.erase r },
      by simp [eraseKey, hk, hs], fun ht => ?_⟩
    have hrd : r ∈ s.dict.erase it := (h.dict_nodup.mem_erase_iff).2 ⟨hri, hr⟩
    exact h.list_nodup.not_mem_erase (ht.dict_perm.mem_iff.1 hrd)

/-- In the set `{a ↦ 1, b ↦ 2}`, `erase(a)` breaks the invariant. -/
theorem eraseKey_breaks_inv_in_ab :
    ∃ t, ((empty (fun _ => ⟨[], 0⟩) 0 : SsetLsa Int).insertIfNotExists
      ⟨[([97], 1), ([98], 2)], by decide⟩).1.eraseKey [97] = some t ∧ ¬ t.Inv :=
  eraseKey_breaks_inv (insertIfNotExists_spec (inv_empty _ _) _).1 (show _ = some 0 by decide)

/-- In the set `{a ↦ 1, b ↦ 2}`, `erase(a)` unlinks `a` from `_dict` and `b` from `_list`, where
    `erase({a})` unlinks `a` from both. -/
theorem eraseKey_a_unlinks_b :
    (fun s : SsetLsa Int => ((s.eraseKey [97]).map fun t => (t.dict, t.list),
        (s.eraseKeys [[97]]).1.dict, (s.eraseKeys [[97]]).1.list))
      ((empty (fun _ => ⟨[], 0⟩) 0).insertIfNotExists ⟨[([97], 1), ([98], 2)], by decide⟩).1 =
      (some ([1], [0]), [1], [1]) := by
  decide

/-- `flush_all()` on a non-empty set leaves `_dict` linking entries `_list` no longer does. -/
theorem flushAll_breaks_inv (hne : s.dict ≠ []) : ¬ s.flushAll.Inv :=
  fun ht => hne (List.perm_nil.1 ht.dict_perm)

end Defects

/-! ## Loops that keep a property -/

omit [LinearOrder Score] in
/-- A loop body that keeps a property keeps it over the whole loop. -/
theorem foldl_of_step {α : Type} {P : SsetLsa Score → Prop}
    {step : SsetLsa Score × Nat → α → SsetLsa Score × Nat}
    (H : ∀ acc a, P acc.1 → P (step acc a).1) :
    ∀ (l : List α) (acc : SsetLsa Score × Nat), P acc.1 → P (l.foldl step acc).1
  | [], _, h => h
  | a :: l, acc, h => foldl_of_step H l _ (H acc a h)

omit [LinearOrder Score] in
theorem foldl_eraseEntriesStep_none : ∀ ps : List Ptr,
    ps.foldl eraseEntriesStep (none : Option (SsetLsa Score)) = none
  | [] => rfl
  | _ :: ps => foldl_eraseEntriesStep_none ps

omit [LinearOrder Score] in
/-- `erase(entries)`, wherever defined, unlinks members one by one, so it keeps what unlinking
    keeps. -/
theorem eraseEntries_foldl_of_unlink {P : SsetLsa Score → Prop}
    (H : ∀ s p, P s → P { s with dict := s.dict.erase p, list := s.list.erase p }) :
    ∀ (ps : List Ptr) (s t : SsetLsa Score), P s → ps.foldl eraseEntriesStep (some s) = some t →
      P t
  | [], _, _, h, ht => by cases ht; exact h
  | p :: ps, s, t, h, ht => by
    rw [List.foldl_cons] at ht
    by_cases hp : p ∈ s.dict ∧ p ∈ s.list
    · simp only [eraseEntriesStep, Option.some_bind, if_pos hp] at ht
      exact eraseEntries_foldl_of_unlink H ps _ t (H s p h) ht
    · simp [eraseEntriesStep, hp, foldl_eraseEntriesStep_none] at ht

variable [Add Score]

/-- The state after a sequence of calls, `none` once one is undefined. -/
def run (s : SsetLsa Score) : List (Op Score) → Option (SsetLsa Score)
  | [] => some s
  | op :: ops => (op.apply s).bind fun t => t.run ops

/-- States reached from `s₀` by sound calls. -/
inductive Reachable (s₀ : SsetLsa Score) : SsetLsa Score → Prop
  | refl : Reachable s₀ s₀
  | step {s t : SsetLsa Score} {op : Op Score} :
      Reachable s₀ s → op.Sound s → op.apply s = some t → Reachable s₀ t

/-! ## The calls that keep the invariant -/

section Sound

variable {s t : SsetLsa Score}

/-- A property that holds at `s₀` and that every sound call keeps holds on every state reached
    from `s₀`. -/
theorem Reachable.of_step {P : SsetLsa Score → Prop} {s₀ : SsetLsa Score} (h₀ : P s₀)
    (H : ∀ {s t : SsetLsa Score} {op : Op Score}, P s → op.Sound s → op.apply s = some t → P t)
    (hr : Reachable s₀ t) : P t := by
  induction hr with
  | refl => exact h₀
  | step _ hop hstep ih => exact H ih hop hstep

theorem Op.apply_inv [Std.Commutative (fun a b : Score => a + b)] {op : Op Score} (h : s.Inv)
    (hop : op.Sound s) (ht : op.apply s = some t) : t.Inv := by
  cases op with
  | insert k v => cases ht; exact inv_insert_construct h hop
  | insertIfNotExists ms => cases ht; exact (insertIfNotExists_spec h ms).1
  | updateIfOnlyExists ms => cases ht; exact (updateIfOnlyExists_spec h ms).1
  | insertOrUpdate ms => cases ht; exact (insertOrUpdate_spec h ms).1
  | insertOrUpdateKey k d => cases ht; exact (insertOrUpdateKey_spec h k d).1
  | updateScore k v => cases ht; exact (updateScore_spec h k v).1
  | eraseKeys ks => cases ht; exact (eraseKeys_spec h ks).1
  | eraseEntries ps =>
    simp only [Op.apply, eraseEntries, Option.map_map, Option.map_eq_some',
      Function.comp_apply] at ht
    obtain ⟨t', hfold, rfl⟩ := ht
    exact eraseEntries_foldl_of_unlink (fun _ p h => inv_unlink p h) ps s t' h hfold
  | eraseKey k => exact hop.elim
  | flushAll => exact hop.elim

/-- The invariant holds on every state reached by sound calls. -/
theorem Reachable.inv [Std.Commutative (fun a b : Score => a + b)] {s₀ : SsetLsa Score}
    (h₀ : s₀.Inv) (hr : Reachable s₀ t) : t.Inv :=
  hr.of_step h₀ Op.apply_inv

/-- From the empty set, sound calls keep the representation invariant. Scores are any linear
    order with a commutative addition, which `double` is away from NaN (`+inf + -inf` in
    `insert_or_update` or `update_score`); keys are ordered as `Pedis.Bytes`, which is
    `sset_entry::compare`'s order for keys below `2^31` bytes (`compareImpl_eq_lex`). -/
theorem reachable_empty_inv [Std.Commutative (fun a b : Score => a + b)]
    (mem : Ptr → SsetEntry Score) (next : Ptr) (hr : Reachable (empty mem next) t) : t.Inv :=
  hr.inv (inv_empty mem next)

/-- The set reached by `insert_if_not_exists({a ↦ 1, b ↦ 2})` satisfies the invariant. -/
theorem reachable_empty_inv_after_insert :
    ((empty (fun _ => ⟨[], 0⟩) 0 : SsetLsa Int).insertIfNotExists
      ⟨[([97], 1), ([98], 2)], by decide⟩).1.Inv :=
  reachable_empty_inv _ _
    (.step .refl (show (Op.insertIfNotExists _ : Op Int).Sound _ from trivial) rfl)

/-- Two `insert(e)` calls with one key, from the empty set, reach a state where `_list` links an
    entry `_dict` does not. -/
theorem insert_twice_breaks_inv :
    ∃ t, (empty (fun _ => ⟨[], 0⟩) 0 : SsetLsa Int).run [.insert [97] 1, .insert [97] 2] =
      some t ∧ t.dict = [0] ∧ t.list = [0, 1] ∧ ¬ t.Inv :=
  ⟨_, rfl, rfl, rfl, fun h => absurd h.dict_perm.length_eq (by decide)⟩

end Sound


end SsetLsa

end Pedis.SortedSet
