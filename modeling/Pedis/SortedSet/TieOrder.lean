import Pedis.SortedSet.Run

/-!
# Ties in `_list` break by the time of the last score assignment

`insert_ordered` links an entry before the first entry of strictly greater score, so after every
entry of equal score. Every operation calls it right after it writes an entry's score, and the
history variables of `SsetLsa` record when: `stamp p` is the `clock` at `p`'s last
`insert_ordered`.

`Ties` says that among linked entries of equal score, `_list` order is stamp order. Each
transition of `Pedis.SortedSet.Invariant` keeps it (relinking moves only the entry it relinks),
hence every sound call does (`Op.apply_tieInv`), and from the empty set it holds along every run
(`list_tie_order`).
-/

namespace Pedis.SortedSet

section OrderedInsert

variable {α β : Type} [LinearOrder β] (f : α → β) (g : α → Nat)

/-- Inserting, before the first strictly greater key, an element stamped later than all others
    keeps equal keys in stamp order. -/
theorem pairwise_ties_orderedInsert (a : α) :
    ∀ l : List α, l.Pairwise (fun p q => f p ≤ f q) →
      l.Pairwise (fun p q => f p = f q → g p < g q) → (∀ b ∈ l, g b < g a) →
      (l.orderedInsert (fun p q => f p < f q) a).Pairwise (fun p q => f p = f q → g p < g q)
  | [], _, _, _ => List.pairwise_singleton _ a
  | b :: l, hle, hties, hlt => by
    rw [List.pairwise_cons] at hle hties
    simp only [List.orderedInsert]
    split_ifs with hab
    · -- `a` goes first: every later key is strictly greater
      refine List.Pairwise.cons (fun c hc hac => absurd hac ?_) (List.Pairwise.cons hties.1 hties.2)
      rcases List.mem_cons.1 hc with rfl | hc
      exacts [hab.ne, (hab.trans_le (hle.1 c hc)).ne]
    · refine List.Pairwise.cons (fun c hc hbc => ?_)
        (pairwise_ties_orderedInsert a l hle.2 hties.2 fun c hc => hlt c (List.mem_cons_of_mem b hc))
      rcases List.mem_cons.1 ((List.perm_orderedInsert _ a l).subset hc) with rfl | hc
      exacts [hlt b (List.mem_cons_self b l), hties.1 c hc hbc]

end OrderedInsert

namespace SsetLsa

variable {Score : Type}

/-- Among linked entries of equal score, `_list` order is the order of their last
    `insert_ordered`. -/
structure Ties (s : SsetLsa Score) : Prop where
  /-- Every linked entry was stamped in the past. -/
  stamp_lt : ∀ p ∈ s.list, s.stamp p < s.clock
  /-- Of two linked entries of equal score, the one earlier in `_list` was stamped earlier. -/
  ordered : s.list.Pairwise (fun p q => s.scoreOf p = s.scoreOf q → s.stamp p < s.stamp q)

/-- Under `Ties`, two linked entries of equal score stand in `_list` in stamp order. -/
theorem Ties.sublist_iff {s : SsetLsa Score} (h : s.Ties) {a b : Ptr} (ha : a ∈ s.list)
    (hb : b ∈ s.list) (hab : s.scoreOf a = s.scoreOf b) :
    [a, b].Sublist s.list ↔ s.stamp a < s.stamp b := by
  refine ⟨fun hs => List.pairwise_iff_forall_sublist.1 h.ordered hs hab, fun hlt => ?_⟩
  have hne : a ≠ b := fun he => hlt.ne (congrArg s.stamp he)
  -- two distinct members of a list stand in it in one order or the other
  have horder : s.list.Pairwise (fun p q => [p, q].Sublist s.list ∨ [q, p].Sublist s.list) :=
    List.pairwise_iff_forall_sublist.2 Or.inl
  refine (horder.forall (fun _ _ => Or.symm) ha hb hne).resolve_right fun hba => ?_
  exact lt_asymm hlt (List.pairwise_iff_forall_sublist.1 h.ordered hba hab.symm)

variable [LinearOrder Score]

/-- The representation invariant together with `Ties`. -/
structure TieInv (s : SsetLsa Score) : Prop where
  inv : s.Inv
  ties : s.Ties

theorem tieInv_empty (mem : Ptr → SsetEntry Score) (next : Ptr) : (empty mem next).TieInv :=
  ⟨inv_empty mem next, ⟨fun _ h => (nomatch h), List.Pairwise.nil⟩⟩

/-! ## The transitions keep `Ties` -/

section Transitions

variable {s : SsetLsa Score} {e : Ptr} {k : Bytes} {v : Score}

/-- `insert_ordered(e)` of an entry not in a sorted `_list` stamps it later than every linked
    entry and puts it after those of equal score. -/
theorem Ties.insertOrdered (h : s.Ties) (he : e ∉ s.list)
    (hle : s.list.Pairwise (fun p q => s.scoreOf p ≤ s.scoreOf q)) : (s.insertOrdered e).1.Ties := by
  have hne : ∀ p ∈ s.list, p ≠ e := fun p hp hpe => he (hpe ▸ hp)
  rw [insertOrdered_eq]
  refine ⟨fun p hp => ?_, ?_⟩
  · simp only [stampNow_stamp, stampNow_clock]
    rcases List.mem_cons.1 ((List.perm_orderedInsert _ _ _).subset hp) with rfl | hp
    · simp
    · rw [Function.update_noteq (hne p hp)]; exact Nat.lt_succ_of_lt (h.stamp_lt p hp)
  · simp only [scoreOf_mk, stampNow_scoreOf, stampNow_stamp]
    refine pairwise_ties_orderedInsert _ _ _ _ hle
      (h.ordered.imp_of_mem fun hp hq => ?_) fun p hp => ?_
    · rw [Function.update_noteq (hne _ hp), Function.update_noteq (hne _ hq)]; exact id
    · rw [Function.update_noteq (hne p hp), Function.update_same]; exact h.stamp_lt p hp

omit [LinearOrder Score] in
theorem Ties.dictInsert (h : s.Ties) (e : Ptr) : (s.dictInsert e).1.Ties := by
  unfold SsetLsa.dictInsert; split_ifs <;> exact ⟨h.stamp_lt, h.ordered⟩

theorem Ties.insert (h : s.Ties) (he : e ∉ s.list)
    (hle : s.list.Pairwise (fun p q => s.scoreOf p ≤ s.scoreOf q)) : (s.insert e).1.Ties := by
  simpa [SsetLsa.insert, insertOrdered_eq] using (h.insertOrdered he hle).dictInsert e

/-- **Link.** -/
theorem tieInv_insert_construct (h : s.TieInv) (hk : s.find k = none) :
    ((s.construct k v).1.insert s.next).1.TieInv := by
  have hold : ∀ p ∈ s.list, (s.construct k v).1.scoreOf p = s.scoreOf p := fun p hp =>
    scoreOf_construct_of_mem h.inv hp
  refine ⟨inv_insert_construct h.inv hk, Ties.insert ?_ (fun hm => (h.inv.lt_next _ hm).false) ?_⟩
  · refine ⟨h.ties.stamp_lt, h.ties.ordered.imp_of_mem fun hp hq => ?_⟩
    simp only [construct_stamp, hold _ hp, hold _ hq]; exact id
  · exact h.inv.list_sorted.imp_of_mem fun hp hq => by simp only [hold _ hp, hold _ hq]; exact id

/-- **Relink.** -/
theorem tieInv_relink {p : Ptr} (h : s.TieInv) (hp : p ∈ s.dict) :
    ((s.updateEntryScore p v).update p).1.TieInv := by
  have hrest : ∀ q ∈ s.list.erase p, (s.updateEntryScore p v).scoreOf q = s.scoreOf q :=
    fun q hq => by rw [scoreOf_updateEntryScore, if_neg ((h.inv.list_nodup.mem_erase_iff).1 hq).1]
  have hsub := List.erase_sublist p s.list
  refine ⟨inv_relink h.inv hp, Ties.insertOrdered ?_ (h.inv.list_nodup.not_mem_erase) ?_⟩
  · refine ⟨fun q hq => h.ties.stamp_lt q (hsub.subset hq), ?_⟩
    refine (h.ties.ordered.sublist hsub).imp_of_mem fun ha hb => ?_
    simp only [scoreOf_mk, updateEntryScore_stamp, hrest _ ha, hrest _ hb]; exact id
  · refine (h.inv.list_sorted.sublist hsub).imp_of_mem fun ha hb => ?_
    simp only [scoreOf_mk, hrest _ ha, hrest _ hb]; exact id

/-- **Unlink.** -/
theorem tieInv_unlink (p : Ptr) (h : s.TieInv) :
    ({ s with dict := s.dict.erase p, list := s.list.erase p } : SsetLsa Score).TieInv :=
  ⟨inv_unlink p h.inv, ⟨fun q hq => h.ties.stamp_lt q ((List.erase_sublist _ _).subset hq),
    h.ties.ordered.sublist (List.erase_sublist _ _)⟩⟩

end Transitions

/-! ## Every sound call keeps `TieInv` -/

section Calls

theorem tieInv_insertIfNotExistsStep (acc : SsetLsa Score × Nat) (m : Bytes × Score)
    (h : acc.1.TieInv) : (insertIfNotExistsStep acc m).1.TieInv := by
  obtain ⟨s, c⟩ := acc
  rcases hk : s.find m.1 with _ | it
  · rw [insertIfNotExistsStep_none h.inv hk]; exact tieInv_insert_construct h hk
  · rw [insertIfNotExistsStep_some hk]; exact h

theorem tieInv_updateIfOnlyExistsStep (acc : SsetLsa Score × Nat) (m : Bytes × Score)
    (h : acc.1.TieInv) : (updateIfOnlyExistsStep acc m).1.TieInv := by
  obtain ⟨s, c⟩ := acc
  rcases hk : s.find m.1 with _ | it
  · rw [updateIfOnlyExistsStep_none hk]; exact h
  · rw [updateIfOnlyExistsStep_some hk]; exact tieInv_relink h (score_of_find_some h.inv hk).1

theorem tieInv_insertOrUpdateStep (acc : SsetLsa Score × Nat) (m : Bytes × Score)
    (h : acc.1.TieInv) : (insertOrUpdateStep acc m).1.TieInv := by
  obtain ⟨s, c⟩ := acc
  rcases hk : s.find m.1 with _ | it
  · rw [insertOrUpdateStep_none h.inv hk]; exact tieInv_insert_construct h hk
  · rw [insertOrUpdateStep_some hk]; exact tieInv_relink h (score_of_find_some h.inv hk).1

theorem tieInv_eraseKeysStep (acc : SsetLsa Score × Nat) (key : Bytes) (h : acc.1.TieInv) :
    (eraseKeysStep acc key).1.TieInv := by
  obtain ⟨s, c⟩ := acc
  rcases hk : s.find key with _ | it
  · simpa [eraseKeysStep, hk] using h
  · simpa [eraseKeysStep, hk] using tieInv_unlink it h

variable [Add Score] {s t : SsetLsa Score}

theorem Op.apply_tieInv {op : Op Score} (h : s.TieInv) (hop : op.Sound s)
    (ht : op.apply s = some t) : t.TieInv := by
  cases op with
  | insert k v => cases ht; exact tieInv_insert_construct h hop
  | insertIfNotExists ms => cases ht; exact foldl_of_step tieInv_insertIfNotExistsStep _ (s, 0) h
  | updateIfOnlyExists ms =>
    cases ht; exact foldl_of_step tieInv_updateIfOnlyExistsStep _ (s, 0) h
  | insertOrUpdate ms => cases ht; exact foldl_of_step tieInv_insertOrUpdateStep _ (s, 0) h
  | insertOrUpdateKey k d =>
    cases ht
    rcases hk : s.find k with _ | it
    · rw [insertOrUpdateKey_none h.inv hk]; exact tieInv_insert_construct h hk
    · rw [insertOrUpdateKey_some hk]; exact tieInv_relink h (score_of_find_some h.inv hk).1
  | updateScore k v =>
    cases ht
    rcases hk : s.find k with _ | it
    · rw [updateScore_none hk]; exact h
    · rw [updateScore_some hk]; exact tieInv_relink h (score_of_find_some h.inv hk).1
  | eraseKeys ks => cases ht; exact foldl_of_step tieInv_eraseKeysStep _ (s, 0) h
  | eraseEntries ps =>
    simp only [Op.apply, eraseEntries, Option.map_map, Option.map_eq_some',
      Function.comp_apply] at ht
    obtain ⟨t', hfold, rfl⟩ := ht
    exact eraseEntries_foldl_of_unlink (fun _ p h => tieInv_unlink p h) ps s t' h hfold
  | eraseKey k => exact hop.elim
  | flushAll => exact hop.elim

/-- **Tie order.** On every state reached from the empty set by sound calls, `_list` is in
    ascending score order, and two members of equal score stand in it in the order their scores
    were last assigned. -/
theorem list_tie_order (mem : Ptr → SsetEntry Score) (next : Ptr)
    (hr : Reachable (empty mem next) t) :
    t.list.Pairwise (fun p q => t.scoreOf p ≤ t.scoreOf q) ∧
      ∀ a ∈ t.list, ∀ b ∈ t.list, t.scoreOf a = t.scoreOf b →
        ([a, b].Sublist t.list ↔ t.stamp a < t.stamp b) :=
  have ht := hr.of_step (tieInv_empty mem next) Op.apply_tieInv
  ⟨ht.inv.list_sorted, fun _ ha _ hb hab => ht.ties.sublist_iff ha hb hab⟩

/-- After `insert_if_not_exists({a ↦ 1, b ↦ 1})` and `update_score(a, 1)`, `b` precedes `a`:
    `a`'s score was assigned last. -/
theorem list_tie_order_after_update_score :
    (fun t : SsetLsa Int => t.list = [1, 0] ∧
      t.list.Pairwise (fun p q => t.scoreOf p ≤ t.scoreOf q) ∧
      ([1, 0].Sublist t.list ↔ t.stamp 1 < t.stamp 0))
      (((empty (fun _ => ⟨[], 0⟩) 0).insertIfNotExists
        ⟨[([97], 1), ([98], 1)], by decide⟩).1.updateScore [97] 1).1 := by
  beta_reduce
  refine ⟨by decide, (list_tie_order (fun _ => ⟨[], 0⟩) 0 ?r).1,
    (list_tie_order (fun _ => ⟨[], 0⟩) 0 ?r).2 1 (by decide) 0 (by decide) (by decide)⟩
  exact .step (.step .refl (show (Op.insertIfNotExists _ : Op Int).Sound _ from trivial) rfl)
    (show (Op.updateScore [97] 1 : Op Int).Sound _ from trivial) rfl

end Calls

end SsetLsa

end Pedis.SortedSet
