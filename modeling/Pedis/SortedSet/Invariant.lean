import Pedis.SortedSet.Ops

/-!
# The representation invariant of `sset_lsa`

`Inv` is the invariant of spec §3 and §8.4: the two intrusive containers link the same entries,
each once, keys are unique (the dictionary is strictly increasing by key), and scores along
`_list` never decrease.

Every mutating operation is a sequence of three transitions on linked entries, and this module
proves, once for each, that it keeps `Inv` and what it does to the member map `score`:
- **link**: `construct` a fresh entry for an absent key and `insert` it;
- **relink**: write a member's score while it is out of `_list`, then `insert_ordered` it;
- **unlink**: remove a member from both containers.
-/

namespace Pedis.SortedSet

namespace SsetLsa

variable {Score : Type} [LinearOrder Score]

/-- The representation invariant of `sset_lsa`. -/
structure Inv (s : SsetLsa Score) : Prop where
  /-- `_dict` links its entries in strictly increasing key order, the order of `Pedis.Bytes`,
      which is `sset_entry::compare`'s for keys below `2^31` bytes (`compareImpl_eq_lex`). -/
  dict_sorted : s.dict.Pairwise (fun p q => s.keyOf p < s.keyOf q)
  /-- `_list` links each entry once. -/
  list_nodup : s.list.Nodup
  /-- Both containers link the same entries. -/
  dict_perm : s.dict.Perm s.list
  /-- Scores along `_list` never decrease. -/
  list_sorted : s.list.Pairwise (fun p q => s.scoreOf p ≤ s.scoreOf q)
  /-- Every linked entry was handed out by `construct`. -/
  lt_next : ∀ p ∈ s.list, p < s.next

theorem inv_empty (mem : Ptr → SsetEntry Score) (next : Ptr) : (empty mem next).Inv :=
  ⟨List.Pairwise.nil, List.nodup_nil, List.Perm.refl _, List.Pairwise.nil, fun _ h => nomatch h⟩

section Lookup

variable {s : SsetLsa Score} {p q : Ptr} {k : Bytes} {v : Score}

theorem Inv.mem_dict_iff (h : s.Inv) : p ∈ s.dict ↔ p ∈ s.list := h.dict_perm.mem_iff

theorem Inv.dict_nodup (h : s.Inv) : s.dict.Nodup := h.dict_perm.nodup_iff.2 h.list_nodup

theorem Inv.key_inj (h : s.Inv) (hp : p ∈ s.dict) (hq : q ∈ s.dict)
    (hk : s.keyOf p = s.keyOf q) : p = q :=
  List.inj_on_of_nodup_map (List.pairwise_map.2 (h.dict_sorted.imp ne_of_lt)) hp hq hk

theorem Inv.size_eq (h : s.Inv) : s.size = s.dict.length := h.dict_perm.length_eq.symm

omit [LinearOrder Score] in
theorem find_eq_none_iff : s.find k = none ↔ ∀ p ∈ s.dict, s.keyOf p ≠ k := by
  simp [find]

omit [LinearOrder Score] in
/-- The entry `_dict.find` returns carries the key looked up. -/
theorem keyOf_of_find_eq_some (hf : s.find k = some p) : s.keyOf p = k := by
  simpa using List.find?_some hf

theorem find_eq_some_iff (h : s.Inv) : s.find k = some p ↔ p ∈ s.dict ∧ s.keyOf p = k := by
  constructor
  · intro hf
    exact ⟨List.mem_of_find?_eq_some hf, keyOf_of_find_eq_some hf⟩
  · rintro ⟨hp, rfl⟩
    obtain ⟨q, hq⟩ := Option.ne_none_iff_exists'.1 fun hn => find_eq_none_iff.1 hn p hp rfl
    have hqk : s.keyOf q = s.keyOf p := keyOf_of_find_eq_some hq
    rwa [h.key_inj (List.mem_of_find?_eq_some hq) hp hqk] at hq

theorem score_eq_some_iff (h : s.Inv) :
    s.score k = some v ↔ ∃ p ∈ s.dict, s.keyOf p = k ∧ s.scoreOf p = v := by
  simp only [score, Option.map_eq_some', find_eq_some_iff h, and_assoc]

omit [LinearOrder Score] in
theorem score_eq_none_iff : s.score k = none ↔ ∀ p ∈ s.dict, s.keyOf p ≠ k := by
  simp [score, find_eq_none_iff]

end Lookup

/-! ## Link: a fresh entry for an absent key -/

section Link

variable {s : SsetLsa Score} {k : Bytes} {v : Score}

theorem keyOf_construct_of_mem (h : s.Inv) {p : Ptr} (hp : p ∈ s.dict) :
    (s.construct k v).1.keyOf p = s.keyOf p := by
  rw [keyOf_construct, if_neg (h.lt_next p (h.mem_dict_iff.1 hp)).ne]

theorem scoreOf_construct_of_mem (h : s.Inv) {p : Ptr} (hp : p ∈ s.list) :
    (s.construct k v).1.scoreOf p = s.scoreOf p := by
  rw [scoreOf_construct, if_neg (h.lt_next p hp).ne]

/-- `insert` of a freshly constructed entry with an absent key links it, in order, into both
    containers, and succeeds. -/
theorem insert_construct (h : s.Inv) (hk : s.find k = none) :
    (s.construct k v).1.insert s.next =
      ({ (s.construct k v).1.stampNow s.next with
          dict := s.dict.orderedInsert
            (fun p q => (s.construct k v).1.keyOf p < (s.construct k v).1.keyOf q) s.next
          list := s.list.orderedInsert
            (fun p q => (s.construct k v).1.scoreOf p < (s.construct k v).1.scoreOf q) s.next },
        true) := by
  have hany : (s.dict.any fun p =>
      (s.construct k v).1.keyOf p == (s.construct k v).1.keyOf s.next) = false := by
    simp only [List.any_eq_false, beq_iff_eq]
    intro p hp
    rw [keyOf_construct_of_mem h hp, keyOf_construct, if_pos rfl]
    exact find_eq_none_iff.1 hk p hp
  simp [insert, insertOrdered_eq, dictInsert, hany]

theorem inv_insert_construct (h : s.Inv) (hk : s.find k = none) :
    ((s.construct k v).1.insert s.next).1.Inv := by
  rw [insert_construct h hk]
  have hfresh : s.next ∉ s.list := fun hm => lt_irrefl _ (h.lt_next _ hm)
  refine ⟨?_, ?_, ?_, ?_, ?_⟩
  · simp only [keyOf_mk, stampNow_keyOf]
    refine pairwise_lt_orderedInsert _ _ _ (h.dict_sorted.imp_of_mem fun hp hq hpq => ?_)
      fun p hp => ?_
    · rwa [keyOf_construct_of_mem h hp, keyOf_construct_of_mem h hq]
    · rw [keyOf_construct_of_mem h hp, keyOf_construct, if_pos rfl]
      exact find_eq_none_iff.1 hk p hp
  · exact (List.perm_orderedInsert _ _ _).nodup_iff.2 (List.nodup_cons.2 ⟨hfresh, h.list_nodup⟩)
  · exact (List.perm_orderedInsert _ _ _).trans
      ((h.dict_perm.cons _).trans (List.perm_orderedInsert _ _ _).symm)
  · simp only [scoreOf_mk, stampNow_scoreOf]
    exact pairwise_le_orderedInsert _ _ _ (h.list_sorted.imp_of_mem fun hp hq hpq => by
      rwa [scoreOf_construct_of_mem h hp, scoreOf_construct_of_mem h hq])
  · intro p hp
    rcases List.mem_cons.1 ((List.perm_orderedInsert _ _ _).subset hp) with rfl | hp
    · simp
    · simpa using Nat.lt_succ_of_lt (h.lt_next p hp)

theorem score_insert_construct (h : s.Inv) (hk : s.find k = none) (k' : Bytes) :
    ((s.construct k v).1.insert s.next).1.score k' = if k' = k then some v else s.score k' := by
  refine Option.ext fun w => ?_
  have hold : (∃ p ∈ s.dict, (s.construct k v).1.keyOf p = k' ∧
      (s.construct k v).1.scoreOf p = w) ↔ s.score k' = some w := by
    rw [score_eq_some_iff h]
    exact exists_congr fun p => and_congr_right fun hp => by
      rw [keyOf_construct_of_mem h hp, scoreOf_construct_of_mem h (h.mem_dict_iff.1 hp)]
  rw [Option.mem_def, Option.mem_def, score_eq_some_iff (inv_insert_construct h hk),
    insert_construct h hk]
  simp only [keyOf_mk, scoreOf_mk, stampNow_keyOf, stampNow_scoreOf,
    (List.perm_orderedInsert _ _ _).mem_iff, List.mem_cons, or_and_right, exists_or,
    exists_eq_left, hold]
  rw [keyOf_construct, scoreOf_construct, if_pos rfl, if_pos rfl]
  split_ifs with hk'
  · subst hk'
    simp [score_eq_none_iff.2 (find_eq_none_iff.1 hk)]
  · simp [Ne.symm hk']

theorem size_insert_construct (h : s.Inv) (hk : s.find k = none) :
    ((s.construct k v).1.insert s.next).1.size = s.size + 1 := by
  rw [insert_construct h hk]
  exact (List.perm_orderedInsert _ _ _).length_eq

end Link

/-! ## Relink: a member takes a new score -/

section Relink

variable {s : SsetLsa Score} {p : Ptr} {v : Score}

/-- Relinking permutes `_list`. -/
theorem relink_perm (h : s.Inv) (hp : p ∈ s.dict) :
    ((s.updateEntryScore p v).update p).1.list.Perm s.list := by
  rw [update_eq]
  exact (List.perm_orderedInsert _ _ _).trans (List.perm_cons_erase (h.mem_dict_iff.1 hp)).symm

theorem inv_relink (h : s.Inv) (hp : p ∈ s.dict) : ((s.updateEntryScore p v).update p).1.Inv := by
  have hperm : ((s.updateEntryScore p v).update p).1.list.Perm s.list := relink_perm h hp
  rw [update_eq] at hperm ⊢
  refine ⟨by simpa using h.dict_sorted, hperm.nodup_iff.2 h.list_nodup,
    by simpa using h.dict_perm.trans hperm.symm, ?_, fun q hq => h.lt_next q (hperm.subset hq)⟩
  simp only [scoreOf_mk, stampNow_scoreOf]
  refine pairwise_le_orderedInsert _ _ _
    ((h.list_sorted.sublist (List.erase_sublist _ _)).imp_of_mem fun ha hb hab => ?_)
  rwa [scoreOf_updateEntryScore, scoreOf_updateEntryScore,
    if_neg ((h.list_nodup.mem_erase_iff).1 ha).1, if_neg ((h.list_nodup.mem_erase_iff).1 hb).1]

theorem score_relink (h : s.Inv) (hp : p ∈ s.dict) (k' : Bytes) :
    ((s.updateEntryScore p v).update p).1.score k' =
      if k' = s.keyOf p then some v else s.score k' := by
  refine Option.ext fun w => ?_
  rw [Option.mem_def, Option.mem_def, score_eq_some_iff (inv_relink h hp), update_eq]
  simp only [keyOf_mk, scoreOf_mk, stampNow_keyOf, stampNow_scoreOf, stampNow_dict,
    keyOf_updateEntryScore, updateEntryScore_dict, scoreOf_updateEntryScore]
  split_ifs with hk'
  · subst hk'
    refine ⟨fun ⟨q, hq, hqk, hw⟩ => ?_, fun hw => ⟨p, hp, rfl, by simpa using hw⟩⟩
    rwa [h.key_inj hq hp hqk, if_pos rfl, ← Option.some_inj] at hw
  · rw [score_eq_some_iff h]
    exact exists_congr fun q => and_congr_right fun _ => and_congr_right fun hqk => by
      rw [if_neg fun (hqp : q = p) => hk' (hqp ▸ hqk.symm)]

theorem size_relink (h : s.Inv) (hp : p ∈ s.dict) :
    ((s.updateEntryScore p v).update p).1.size = s.size :=
  (relink_perm h hp).length_eq

end Relink

/-! ## Unlink: a member leaves both containers -/

section Unlink

variable {s : SsetLsa Score} {p : Ptr}

theorem inv_unlink (p : Ptr) (h : s.Inv) :
    ({ s with dict := s.dict.erase p, list := s.list.erase p } : SsetLsa Score).Inv :=
  ⟨by simpa using h.dict_sorted.sublist (List.erase_sublist _ _),
    h.list_nodup.sublist (List.erase_sublist _ _), h.dict_perm.erase p,
    by simpa using h.list_sorted.sublist (List.erase_sublist _ _),
    fun q hq => h.lt_next q ((List.erase_sublist _ _).subset hq)⟩

theorem score_unlink (h : s.Inv) (hp : p ∈ s.dict) (k' : Bytes) :
    ({ s with dict := s.dict.erase p, list := s.list.erase p } : SsetLsa Score).score k' =
      if k' = s.keyOf p then none else s.score k' := by
  refine Option.ext fun w => ?_
  rw [Option.mem_def, Option.mem_def, score_eq_some_iff (inv_unlink _ h)]
  simp only [keyOf_mk, scoreOf_mk, h.dict_nodup.mem_erase_iff]
  split_ifs with hk'
  · subst hk'
    exact ⟨fun ⟨q, ⟨hqp, hq⟩, hqk, _⟩ => hqp (h.key_inj hq hp hqk), fun hw => nomatch hw⟩
  · rw [score_eq_some_iff h]
    exact exists_congr fun q => ⟨fun ⟨⟨_, hq⟩, hr⟩ => ⟨hq, hr⟩,
      fun ⟨hq, hqk, hw⟩ => ⟨⟨fun (hqp : q = p) => hk' (hqp ▸ hqk.symm), hq⟩, hqk, hw⟩⟩

theorem size_unlink (h : s.Inv) (hp : p ∈ s.dict) :
    ({ s with dict := s.dict.erase p, list := s.list.erase p } : SsetLsa Score).size + 1 =
      s.size :=
  List.length_erase_add_one (h.mem_dict_iff.1 hp)

end Unlink

end SsetLsa

end Pedis.SortedSet
